import LispMachine.Proofs.Twin.Evaluation

/-!
# Reading, on both sides

The reader builds the same value on both sides, in cells of their own. What a value is read for is
known before it is read: a form is an expression, what stands in a quotation is data, and the rest
follows from the shape of the pair that the value becomes part of.

* `Role.quoteShape`, `Role.quoted` -- what the pair of a quotation is, and the role of what stands in it;
* `Twin.Nested` -- **nests that agree**, with the role of the value that is read next;
* `Delivered`, `EffectAgree` -- what comes of a finished value, and of a token;
* `Leads.deliver`, `Leads.effect`, `Leads.readFrom` -- one value, one token, and all of them;
* `Leads.read` -- **the next form of a text is the same on both sides, or the same error**.
-/

namespace LispMachine

open World

/-! ## 1. Quotations -/

/-- What the first pair of a quotation in a role is. -/
def Role.quoteShape : Role → Shape
  | just s => s
  | code => .special .quote

/-- The role of what stands in a quotation that has a role. -/
def Role.quoted (ρ : Role) : Role := ρ.quoteShape.rest.first

theorem Role.quoted_isPlain (ρ : Role) : ρ.quoted.IsPlain := Shape.first_isPlain _

/-- The elements of a list in a plain role have plain roles. -/
theorem nextRole_isPlain {ρ : Role} {σ : Option Shape} (hρ : ρ.IsPlain) : (nextRole ρ σ).IsPlain := by
  cases σ with
  | some s => exact s.rest.first_isPlain
  | none =>
    cases ρ with
    | just s => exact s.first_isPlain
    | code => trivial

theorem Role.admits_quoteShape (ρ : Role) : ρ.admits ρ.quoteShape := by
  cases ρ with
  | just s => rfl
  | code => exact .inr ⟨.quote, rfl⟩

/-- A symbol has the role of the head of a quotation. -/
theorem Role.fits_quoteShape {lex : Lexicon} {ρ : Role} {id : SymbolId} (hρ : ρ.IsPlain)
    (hid : lex.forms id = some .quote) : lex.Fits ρ.quoteShape (.sym id) := by
  cases ρ with
  | just s => exact Shape.IsPlain.fits hρ
  | code => exact hid

/-! ## 2. Nests -/

variable {lex : Lexicon} {γ : Value × Value} {D D' : Couple} {T T' : Twin} {S : Shape → Prop}
variable {k n : Nat} {ρ : Role} {v v' : Value} {nests nests' : List Nest}

namespace Twin

/-- **Nests that agree**: their lists are built in slots from `k` to below `n`, and the value that is
    read next has the role `ρ`. -/
inductive Nested (S : Shape → Prop) (k : Nat) (T : Twin) :
    Nat → Role → List Nest → List Nest → Prop where
  | outermost {n : Nat} (hk : k ≤ n) : Nested S k T n .code [] []
  | quotation {n : Nat} {ρ : Role} {nests nests' : List Nest} (h : Nested S k T n ρ nests nests') :
      Nested S k T n ρ.quoted (.quotation :: nests) (.quotation :: nests')
  | elements {n base base' : Nat} {ρ : Role} {σ : Option Shape} {last last' : Value}
      {nests nests' : List Nest} (hb : base < n) (hb' : base' = T.slot base)
      (hl : T.Building S base ρ σ last last') (h : Nested S k T base ρ nests nests') :
      Nested S k T n (nextRole ρ σ) (.elements base last :: nests) (.elements base' last' :: nests')
  | dotted {n base base' : Nat} {ρ : Role} {s : Shape} {last last' : Value}
      {nests nests' : List Nest} (hb : base < n) (hb' : base' = T.slot base)
      (hl : T.Building S base ρ (some s) last last') (h : Nested S k T base ρ nests nests') :
      Nested S k T n (.just s.rest) (.dotted base last :: nests) (.dotted base' last' :: nests')
  | closing {n base base' : Nat} {ρ ρ' : Role} {nests nests' : List Nest} (hb : base < n)
      (hb' : base' = T.slot base) (hs : T.Started base ρ) (h : Nested S k T base ρ nests nests')
      (hρ : ρ'.IsPlain) : Nested S k T n ρ' (.closing base :: nests) (.closing base' :: nests')

namespace Nested

/-- The slots lie above `k`. -/
theorem le (h : T.Nested S k n ρ nests nests') : k ≤ n := by
  induction h with
  | outermost hk => exact hk
  | quotation _ ih => exact ih
  | elements hb _ _ _ ih => exact Nat.le_trans ih (Nat.le_of_lt hb)
  | dotted hb _ _ _ ih => exact Nat.le_trans ih (Nat.le_of_lt hb)
  | closing hb _ _ _ _ ih => exact Nat.le_trans ih (Nat.le_of_lt hb)

theorem isPlain (h : T.Nested S k n ρ nests nests') : ρ.IsPlain := by
  induction h with
  | outermost _ => trivial
  | quotation _ _ => exact Role.quoted_isPlain _
  | elements _ _ _ _ ih => exact nextRole_isPlain ih
  | dotted _ _ _ _ _ => exact Shape.rest_isPlain _
  | closing _ _ _ _ hρ _ => exact hρ

/-- Nests are not disturbed by what happens above them. -/
theorem onward (h : T.Nested S k n ρ nests nests') (hT : T.Coherent lex) (hT' : T'.Coherent lex)
    (ho : Onward S n T T') : T'.Nested S k n ρ nests nests' := by
  have slot : ∀ {n base base' : Nat}, Onward S n T T' → base < n → base' = T.slot base →
      base' = T'.slot base := fun ho hb hb' => hb'.trans (ho.slots _ hb).symm
  induction h with
  | outermost hk => exact .outermost hk
  | quotation _ ih => exact .quotation (ih ho)
  | elements hb hb' hl _ ih =>
    exact .elements hb (slot ho hb hb') (hl.onward hT hT' ho hb)
      (ih (ho.mono (fun _ => id) (Nat.le_of_lt hb)))
  | dotted hb hb' hl _ ih =>
    exact .dotted hb (slot ho hb hb') (hl.onward hT hT' ho hb)
      (ih (ho.mono (fun _ => id) (Nat.le_of_lt hb)))
  | closing hb hb' hs _ hρ ih =>
    exact .closing hb (slot ho hb hb') (hs.onward ho hb)
      (ih (ho.mono (fun _ => id) (Nat.le_of_lt hb))) hρ

theorem length_eq (h : T.Nested S k n ρ nests nests') : nests.length = nests'.length := by
  induction h with
  | outermost _ => rfl
  | quotation _ ih => exact congrArg (· + 1) ih
  | elements _ _ _ _ ih => exact congrArg (· + 1) ih
  | dotted _ _ _ _ ih => exact congrArg (· + 1) ih
  | closing _ _ _ _ _ ih => exact congrArg (· + 1) ih

/-- The end of the text is the same error. -/
theorem atEnd_eq (h : T.Nested S k n ρ nests nests') : Reader.atEnd nests = Reader.atEnd nests' := by
  cases h <;> rfl

end Nested

end Twin

/-- What comes of a value that is handed to its nests: a form, or nests that want more. -/
inductive Delivered (S : Shape → Prop) (k : Nat) (D : Couple) :
    Value × List Nest → Value × List Nest → Prop where
  | whole {v v' : Value} (hv : D.world.Rel .code v v') : Delivered S k D (v, []) (v', [])
  | more {ρ : Role} {n : Nest} {n' : Nest} {nests nests' : List Nest}
      (h : D.twin.Nested S k D.height ρ (n :: nests) (n' :: nests')) :
      Delivered S k D (.nil, n :: nests) (.nil, n' :: nests')

/-- What a token does to nests that agree. -/
inductive EffectAgree (S : Shape → Prop) (k : Nat) (D : Couple) :
    Reader.Effect → Reader.Effect → Prop where
  | value {ρ : Role} {v v' : Value} {nests nests' : List Nest} (hv : D.world.Rel ρ v v')
      (h : D.twin.Nested S k D.height ρ nests nests') :
      EffectAgree S k D (.value v nests) (.value v' nests')
  | more {ρ : Role} {nests nests' : List Nest} (h : D.twin.Nested S k D.height ρ nests nests') :
      EffectAgree S k D (.more nests) (.more nests')
  | error (e : ReadError) (used : Bool) : EffectAgree S k D (.error e used) (.error e used)

/-- What has been read: a form, or none at the end of the text, or the same error. -/
inductive ReadAgree (D : Couple) :
    Except ReadError (Option Value) → Except ReadError (Option Value) → Prop where
  | form {v v' : Value} (hv : D.world.Rel .code v v') : ReadAgree D (.ok (some v)) (.ok (some v'))
  | none : ReadAgree D (.ok none) (.ok none)
  | error (e : ReadError) : ReadAgree D (.error e) (.error e)

namespace Leads

/-! ## 3. Values -/

/-- **The list `(quote v)`.** -/
theorem quotation (hD : D.Matched lex γ) (hlex : Lexical lex D) (hρ : ρ.IsPlain)
    (hv : D.world.Rel ρ.quoted v v') :
    Leads lex S D.height γ D (Reader.quotation v) (Reader.quotation v')
      (fun D' u u' => D'.height = D.height ∧ D'.world.Rel ρ u u') := by
  rw [Reader.quotation, Reader.quotation]
  refine rootBase hD ?_
  refine bind hD (pushRoot hD (Nat.le_refl _) hv.slot) (Nat.le_refl _) fun {D₁ _ _} hD₁ ho₁ hq => ?_
  obtain ⟨rfl, -, -⟩ := hq
  refine bind hD₁ (cons_rel (s := ρ.quoteShape.rest) hD₁ ho₁.heaps.height hv
    (Shape.rest_isPlain _).fits .nil) (Nat.le_refl _) fun {D₂ _ _} hD₂ ho₂ hq => ?_
  have hlex₂ := (hlex.onward ho₁).onward ho₂
  refine bind hD₂ (sym hD₂ ho₂.heaps.height "quote") (Nat.le_refl _) fun {D₃ _ _} hD₃ ho₃ hq₃ => ?_
  obtain ⟨htwin, id, rfl, rfl, hid⟩ := hq₃
  have hquote : lex.forms id = some .quote := by
    obtain ⟨id', hid', hlexid⟩ := (hlex₂.onward ho₃).quote
    rwa [← hD₃.sound_left.one id id' _ hid hid'] at hlexid
  have htail := hq.2
  rw [← Couple.world_eq htwin] at htail
  refine bind hD₃ (cons (s := ρ.quoteShape) (o := none) hD₃ ho₃.heaps.height (.atom rfl)
    (Role.fits_quoteShape hρ hquote) htail nofun) (Nat.le_refl _) fun {D₄ _ _} hD₄ ho₄ hq₄ => ?_
  obtain ⟨_, a, b, rfl, rfl, hw, -⟩ := hq₄
  have hb : D.height ≤ D₄.height := ho₄.heaps.height
  rw [← show D₄.slot D.height = D.slot D.height from
    ho₄.top.trans (ho₃.top.trans (ho₂.top.trans ho₁.top))]
  refine bind hD₄ (popRoots hD₄ (Nat.le_refl D.height) hb) (Nat.le_refl _)
    fun {D₅ _ _} hD₅ ho₅ hq₅ => ?_
  subst hq₅
  exact pure hD₅ ho₅.heaps.height ⟨rfl, Couple.height_popped hb,
    Twin.Rel.released (.pair hw ρ.admits_quoteShape)⟩

/-- The tail of a list that is being built, which no other value is appended to. -/
theorem endWith {s : Shape} {last last' : Value} (hD : D.Matched lex γ)
    (hl : D.twin.Building S k ρ (some s) last last') (hv : D.world.Rel (.just s.rest) v v') :
    Leads lex S k γ D (liftM (Heap.setCdr last v)) (liftM (Heap.setCdr last' v'))
      (fun D' _ _ => D'.height = D.height ∧ D'.twin.Started k ρ) := by
  have hk := hl.started.lt
  cases hl with
  | last hstart hw hcell hcell' _ =>
    refine (setCdr hD (Nat.le_of_lt hk) hw hcell hcell' (.done hv) (Nat.lt_irrefl k)).weaken
      (fun _ => id) (Nat.le_refl k) fun _ _ hq => ?_
    subst hq
    refine ⟨rfl, rfl, ?_⟩
    cases hstart with
    | empty hnil hnil' => exact .empty hnil hnil'
    | head hsl hsr hsw hs => exact .head hsl hsr (.inl hsw) hs

/-- **A finished value is handed to its nests.** -/
theorem deliver (hD : D.Matched lex γ) (hlex : Lexical lex D) (hv : D.world.Rel ρ v v')
    (h : D.twin.Nested S k D.height ρ nests nests') :
    Leads lex S k γ D (Reader.deliver v nests) (Reader.deliver v' nests')
      (fun D' p p' => Delivered S k D' p p') := by
  induction nests generalizing D ρ v v' nests' with
  | nil =>
    cases h with
    | outermost hk => exact pure hD hk ⟨rfl, .whole hv⟩
  | cons nest nests ih =>
    cases h with
    | quotation h =>
      rw [Reader.deliver, Reader.deliver]
      refine bind hD (quotation hD hlex h.isPlain hv) h.le fun {D₁ _ _} hD₁ ho₁ hq => ?_
      have h₁ := h.onward hD.coherent hD₁.coherent ho₁.heaps
      exact ih hD₁ (hlex.onward ho₁) hq.2 (hq.1 ▸ h₁)
    | elements hb hb' hl h =>
      rw [Reader.deliver, Reader.deliver, hb']
      refine bind hD (append hD (Nat.le_refl _) h.isPlain hl hv) h.le fun {D₁ _ _} hD₁ ho₁ hq => ?_
      have h₁ := h.onward hD.coherent hD₁.coherent ho₁.heaps
      exact pure hD₁ (Nat.le_trans h.le ho₁.heaps.height)
        ⟨rfl, .more (.elements (hq.1 ▸ hb) ho₁.top.symm hq.2 h₁)⟩
    | dotted hb hb' hl h =>
      rw [Reader.deliver, Reader.deliver]
      refine bind hD (endWith hD hl hv) h.le fun {D₁ _ _} hD₁ ho₁ hq => ?_
      have h₁ := h.onward hD.coherent hD₁.coherent ho₁.heaps
      -- no value is read before the parenthesis, so that any role will do
      have hclosing : D₁.twin.Nested S k D₁.height .code (.closing _ :: _) (.closing _ :: _) :=
        .closing (hq.1 ▸ hb) (hb'.trans ho₁.top.symm) hq.2 h₁ trivial
      exact pure hD₁ (Nat.le_trans h.le ho₁.heaps.height) ⟨rfl, .more hclosing⟩
    | closing hb hb' hs h hρ =>
      exact pure hD (Nat.le_trans h.le (Nat.le_of_lt hb)) ⟨rfl, .more (.closing hb hb' hs h hρ)⟩

/-! ## 4. Tokens -/

/-- The list in a slot is finished. -/
theorem close {base : Nat} (hD : D.Matched lex γ) (hs : D.twin.Started base ρ)
    (h : D.twin.Nested S k base ρ nests nests') :
    Leads lex S k γ D (do Pure.pure (Reader.Effect.value (← Reader.close base) nests))
      (do Pure.pure (Reader.Effect.value (← Reader.close (D.slot base)) nests'))
      (fun D' e e' => EffectAgree S k D' e e') := by
  have hclose : Leads lex S base γ D (Reader.close base) (Reader.close (D.slot base))
      (fun D' v v' => D'.height = base ∧ D'.world.Rel ρ v v') := by
    have hb : base ≤ D.height := Nat.le_of_lt hs.lt
    rw [Reader.close, Reader.close]
    refine root hD hs.lt fun v v' hv hv' => ?_
    have hout := hs.finished hv hv'
    refine bind hD (popRoots hD (Nat.le_refl base) hb) (Nat.le_refl base) fun hD₁ ho₁ hq => ?_
    subst hq
    exact pure hD₁ ho₁.heaps.height ⟨rfl, Couple.height_popped hb, hout⟩
  refine bind hD hclose h.le fun {D₁ _ _} hD₁ ho₁ hq => ?_
  have h₁ := h.onward hD.coherent hD₁.coherent ho₁.heaps
  exact pure hD₁ (Nat.le_trans h.le ho₁.heaps.height) ⟨rfl, .value hq.2 (hq.1.symm ▸ h₁)⟩

/-- An atom is the same on both sides. -/
theorem atomValue (hD : D.Matched lex γ) (h : D.twin.Nested S k D.height ρ nests nests')
    (name : List Char) :
    Leads lex S k γ D (do Pure.pure (Reader.Effect.value (← Reader.atomValue name) nests))
      (do Pure.pure (Reader.Effect.value (← Reader.atomValue name) nests'))
      (fun D' e e' => EffectAgree S k D' e e') := by
  rw [Reader.atomValue]
  cases Fixnum.decimal? name with
  | some n => exact pure hD h.le ⟨rfl, .value (.int n) h⟩
  | none =>
    refine bind hD (sym hD (Nat.le_refl _) (String.ofList name)) h.le fun {D₁ _ _} hD₁ ho₁ hq => ?_
    obtain ⟨htwin, id, rfl, rfl, _⟩ := hq
    refine pure hD₁ (Nat.le_trans h.le ho₁.heaps.height) ⟨rfl, .value (ρ := ρ) (.sym id) ?_⟩
    rwa [Couple.height_eq htwin, htwin]

/-- A string is the same on both sides. -/
theorem str (hD : D.Matched lex γ) (h : D.twin.Nested S k D.height ρ nests nests')
    (bytes : ByteArray) :
    Leads lex S k γ D (do Pure.pure (Reader.Effect.value (← Context.str bytes) nests))
      (do Pure.pure (Reader.Effect.value (← Context.str bytes) nests'))
      (fun D' e e' => EffectAgree S k D' e e') := by
  refine bind hD (make hD (Nat.le_refl _) (Nat.le_refl _) (.str bytes) fun _ _ => .str bytes) h.le
    fun {D₁ _ _} hD₁ ho₁ hq => ?_
  obtain ⟨hheight, a, b, rfl, rfl, hw⟩ := hq
  have h₁ := h.onward hD.coherent hD₁.coherent ho₁.heaps
  exact pure hD₁ (Nat.le_trans h.le ho₁.heaps.height) ⟨rfl, .value (.object hw) (hheight.symm ▸ h₁)⟩

/-- **A token where a value or the end of a list may stand.** -/
theorem meet (hD : D.Matched lex γ) (h : D.twin.Nested S k D.height ρ nests nests') (token : Token) :
    Leads lex S k γ D (Reader.meet nests token) (Reader.meet nests' token)
      (fun D' e e' => EffectAgree S k D' e e') := by
  have herror : ∀ e used, Leads lex S k γ D (Pure.pure (Reader.Effect.error e used))
      (Pure.pure (Reader.Effect.error e used)) (fun D' e e' => EffectAgree S k D' e e') :=
    fun e used => pure hD h.le ⟨rfl, .error e used⟩
  have hlength := h.length_eq
  cases token with
  | opening =>
    rw [Reader.meet, Reader.meet]
    refine ite (by rw [hlength]) (fun _ => herror _ _) fun _ => ?_
    refine bind hD (pushNil hD (Nat.le_refl _)) h.le fun {D₁ _ _} hD₁ ho₁ hq => ?_
    obtain ⟨hD₁eq, rfl, rfl⟩ := hq
    have h₁ := h.onward hD.coherent hD₁.coherent ho₁.heaps
    have hb : D.height < D₁.height := hD₁eq ▸ D.height_pushed _ _ ▸ Nat.lt_succ_self _
    have hnil : D₁.twin.Building S D.height ρ none .nil .nil := hD₁eq ▸ Couple.building_pushed hD
    exact pure hD₁ (Nat.le_trans h.le (Nat.le_of_lt hb))
      ⟨rfl, .more (.elements hb ho₁.top.symm hnil h₁)⟩
  | mark =>
    rw [Reader.meet, Reader.meet]
    exact ite (by rw [hlength]) (fun _ => herror _ _) fun _ => pure hD h.le ⟨rfl, .more (.quotation h)⟩
  | closing =>
    cases h with
    | elements hb hb' hl h =>
      rw [Reader.meet, Reader.meet, hb']
      exact close hD hl.started h
    | _ => exact herror _ _
  | text s => exact str hD h _
  | unclosedText => exact herror _ _
  | atom name =>
    cases h with
    | elements hb hb' hl h =>
      rw [Reader.meet, Reader.meet]
      refine ite Iff.rfl (fun _ => ?_) fun _ => atomValue hD (.elements hb hb' hl h) name
      cases hl with
      | empty _ _ => exact herror _ _
      | last hstart hw hcell hcell' hheld =>
        exact pure hD (Nat.le_trans h.le (Nat.le_of_lt hb))
          ⟨rfl, .more (.dotted hb hb' (.last hstart hw hcell hcell' hheld) h)⟩
    | outermost hk => exact atomValue hD (.outermost hk) name
    | quotation h => exact atomValue hD (.quotation h) name
    | dotted hb hb' hl h => exact atomValue hD (.dotted hb hb' hl h) name
    | closing hb hb' hs h hρ => exact atomValue hD (.closing hb hb' hs h hρ) name

/-- **A token does the same on both sides.** -/
theorem effect (hD : D.Matched lex γ) (h : D.twin.Nested S k D.height ρ nests nests') (token : Token) :
    Leads lex S k γ D (Reader.effect nests token) (Reader.effect nests' token)
      (fun D' e e' => EffectAgree S k D' e e') := by
  cases h with
  | closing hb hb' hs h hρ =>
    cases token with
    | closing =>
      rw [Reader.effect, Reader.effect, hb']
      exact close hD hs h
    | _ => exact pure hD (Nat.le_trans h.le (Nat.le_of_lt hb)) ⟨rfl, .error _ _⟩
  | outermost hk => exact meet hD (.outermost hk) token
  | quotation h => exact meet hD (.quotation h) token
  | elements hb hb' hl h => exact meet hD (.elements hb hb' hl h) token
  | dotted hb hb' hl h => exact meet hD (.dotted hb hb' hl h) token

/-! ## 5. Texts -/

/-- **Reading goes on alike**, token by token. -/
theorem readFrom (hD : D.Matched lex γ) (hlex : Lexical lex D)
    (h : D.twin.Nested S k D.height ρ nests nests') (src : List Char) :
    Leads lex S k γ D (Reader.readFrom nests src) (Reader.readFrom nests' src)
      (fun D' r r' => r.2 = r'.2 ∧ ReadAgree D' (r.1.map some) (r'.1.map some)) := by
  induction hlen : src.length using Nat.strongRecOn generalizing D ρ nests nests' src with
  | ind len ih =>
    rw [Reader.readFrom, Reader.readFrom]
    split
    · rw [h.atEnd_eq]
      exact pure hD h.le ⟨rfl, rfl, .error _⟩
    · rename_i token rest hnext
      have hlt : rest.length < len := hlen ▸ Token.length_lt_of_next? hnext
      refine bind hD (effect hD h token) (Nat.le_refl k) fun {D₁ e e'} hD₁ ho₁ hq => ?_
      have hlex₁ := hlex.onward ho₁
      cases hq with
      | error e used => exact pure hD₁ ho₁.heaps.height ⟨rfl, rfl, .error e⟩
      | more h₁ => exact ih _ hlt hD₁ hlex₁ h₁ rest rfl
      | value hv h₁ =>
        refine bind hD₁ (deliver hD₁ hlex₁ hv h₁) (Nat.le_refl k) fun {D₂ p p'} hD₂ ho₂ hq => ?_
        cases hq with
        | whole hv => exact pure hD₂ ho₂.heaps.height ⟨rfl, rfl, .form hv⟩
        | more h₂ => exact ih _ hlt hD₂ (hlex₁.onward ho₂) h₂ rest rfl

/-- **The next form of a text is the same on both sides**, or there is the same error. -/
theorem read (hD : D.Matched lex γ) (hlex : Lexical lex D) (src : List Char) :
    Leads lex S D.height γ D (Reader.read src) (Reader.read src)
      (fun D' r r' => r.2 = r'.2 ∧ ReadAgree D' r.1 r'.1) := by
  rw [Reader.read]
  split
  · exact pure hD (Nat.le_refl _) ⟨rfl, rfl, .none⟩
  · refine rootBase hD ?_
    refine bind hD (readFrom hD hlex (.outermost (Nat.le_refl _)) src) (Nat.le_refl _)
      fun {D₁ r r'} hD₁ ho₁ hq => ?_
    obtain ⟨hrest, hread⟩ := hq
    obtain ⟨r, rest⟩ := r
    obtain ⟨r', rest'⟩ := r'
    cases hrest
    cases r with
    | ok v =>
      cases r' with
      | error e => cases hread
      | ok v' => exact pure hD₁ ho₁.heaps.height ⟨rfl, rfl, hread⟩
    | error e =>
      cases r' with
      | ok v' => cases hread
      | error e' =>
        cases hread
        rw [← ho₁.top]
        refine bind hD₁ (popRoots hD₁ (Nat.le_refl _) ho₁.heaps.height) (Nat.le_refl _)
          fun {D₂ _ _} hD₂ ho₂ _ => ?_
        exact pure hD₂ ho₂.heaps.height ⟨rfl, rfl, .error e⟩

end Leads

end LispMachine
