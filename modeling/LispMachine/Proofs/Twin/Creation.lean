import LispMachine.Proofs.Heap.History
import LispMachine.Proofs.Twin.Execution

/-!
# Two standard contexts

Contexts of different sizes are made by the same actions, so that they correspond from the start:

* `Leads.Ends` -- what is known once two actions have come to an end, whatever they have changed;
* `Context.Furnished` -- the special forms of a context are standard ones, known by their names;
* `Leads.furnish` -- the root environment, the forms and the primitives, on both sides;
* `Context.create_matched` -- **standard contexts that allow the same depth correspond**.
-/

namespace LispMachine

open World

variable {lex : Lexicon} {γ : Value × Value} {D D' : Couple} {S : Shape → Prop} {n : Nat}
variable {v v' : Value}

/-! ## 1. Contexts with some of the natives -/

namespace Context

/-- Makes the root environment, with some of the primitives in it. -/
def furnishWith (natives : List Primitive) : Run Unit := do
  let env ← Heap.cons .nil .nil
  Heap.pin env
  modify fun c => { c with rootEnv := env }
  let truth ← sym "t"
  modify fun c => { c with truth }
  define env truth truth
  StandardForm.all.forM fun f => defineForm f.name (.standard f)
  natives.forM fun p => defineProcedure (.primitive p)

/-- A context of a configuration with the standard forms and some of the primitives. -/
def createWith (natives : List Primitive) (cfg : Config) : Except Fault Context := do
  let heap ← Heap.create cfg
  let symbols ← SymbolTable.create cfg.symbolCapacity
  match furnishWith natives (bare heap symbols cfg.maxDepth) with
  | .ok _ c => .ok c
  | .error e _ => .error e

/-- The standard context has all of them. -/
theorem create_eq_createWith (cfg : Config) : create cfg = createWith Primitive.all cfg := rfl

end Context

/-! ## 2. The special forms by symbol -/

/-- The special forms of a context by symbol. -/
def Context.formOf (c : Context) (id : SymbolId) : Option StandardForm :=
  match c.forms.lookup id with
  | some (.standard f) => some f
  | _ => none

/-- The forms of a context are standard ones, and those of a list are known by their names. -/
structure Context.Furnished (fs : List StandardForm) (c : Context) : Prop where
  standard : ∀ p ∈ c.forms, ∃ f, p.2 = .standard f
  named : ∀ f ∈ fs, ∃ id : Nat, c.symbols.names[id]? = some f.name ∧
    c.forms.lookup id = some (.standard f)

theorem StandardForm.name_injective {f g : StandardForm} (h : f.name = g.name) : f = g := by
  cases f <;> cases g <;> first | rfl | exact absurd h (by decide)

/-- An entry that is found is one of the list. -/
theorem mem_of_lookup {forms : List (SymbolId × SpecialForm)} {id : SymbolId} {form : SpecialForm}
    (h : forms.lookup id = some form) : (id, form) ∈ forms := by
  induction forms with
  | nil => cases h
  | cons p forms ih =>
    obtain ⟨i, g⟩ := p
    rw [List.lookup_cons] at h
    split at h
    · rename_i heq
      cases h
      rw [eq_of_beq heq]
      exact List.mem_cons_self
    · exact List.mem_cons_of_mem _ (ih h)

/-- One more form has its name. -/
theorem Context.Furnished.add {fs : List StandardForm} {c : Context} {f : StandardForm} {id : Nat}
    (h : c.Furnished fs) (hid : c.symbols.names[id]? = some f.name) :
    Furnished (f :: fs) { c with forms := (id, .standard f) :: c.forms } where
  standard p hp := by
    rcases List.mem_cons.mp hp with rfl | hp
    · exact ⟨f, rfl⟩
    · exact h.standard p hp
  named g hg := by
    rcases List.mem_cons.mp hg with rfl | hg
    · exact ⟨id, hid, by rw [List.lookup_cons, beq_self_eq_true]⟩
    · obtain ⟨i, hi, hlookup⟩ := h.named g hg
      refine ⟨i, hi, ?_⟩
      show List.lookup i ((id, SpecialForm.standard f) :: c.forms) = _
      rw [List.lookup_cons]
      split
      · rename_i heq
        rw [eq_of_beq heq, hid] at hi
        rw [StandardForm.name_injective (Option.some.inj hi)]
      · exact hlookup

theorem Context.Furnished.mono {fs gs : List StandardForm} {c : Context} (h : c.Furnished fs)
    (hsub : gs ⊆ fs) : c.Furnished gs :=
  ⟨h.standard, fun f hf => h.named f (hsub hf)⟩

/-- Actions that define no forms leave them as they are. -/
theorem Context.Furnished.onward {fs : List StandardForm} (h : D.left.Furnished fs)
    (ho : D.Onward S n D') : D'.left.Furnished fs where
  standard := ho.forms ▸ h.standard
  named f hf := by
    obtain ⟨id, hid, hl⟩ := h.named f hf
    exact ⟨id, ho.names id _ hid, ho.forms ▸ hl⟩

/-- The forms of a context that has been furnished are those of its lexicon. -/
theorem Context.Furnished.lexical (h : D.left.Furnished StandardForm.all)
    (hforms : lex.forms = D.left.formOf) : Lexical lex D where
  forms id := by
    rw [hforms]
    unfold Context.formOf
    cases hl : D.left.forms.lookup id with
    | none => rfl
    | some form =>
      obtain ⟨f, rfl⟩ : ∃ f, form = .standard f := h.standard _ (mem_of_lookup hl)
      rfl
  quote := by
    obtain ⟨id, hid, hlookup⟩ := h.named .quote (by decide)
    refine ⟨id, hid, ?_⟩
    rw [hforms]
    unfold Context.formOf
    rw [hlookup]

namespace Leads

/-! ## 3. Actions that have come to an end -/

/-- What is known of two contexts once actions on them have come to an end. -/
def Ends {α α' : Type} (lex : Lexicon) (D : Couple) (x : Run α) (x' : Run α')
    (Q : Value × Value → Couple → α → α' → Prop) : Prop :=
  ∀ a c a' c', x D.left = .ok a c → x' D.right = .ok a' c' →
    ∃ γ W σ, (Couple.mk W c c' σ).Matched lex γ ∧ Q γ ⟨W, c, c', σ⟩ a a'

namespace Ends

variable {α α' β β' : Type} {x : Run α} {x' : Run α'} {f : α → Run β} {f' : α' → Run β'}
variable {P : Value × Value → Couple → α → α' → Prop} {R : Value × Value → Couple → β → β' → Prop}

theorem of_steps (h : Steps lex Shape.Fixed n D x x' P) :
    Ends lex D x x' fun γ D' a a' => D.Onward Shape.Fixed n D' ∧ P γ D' a a' := by
  intro a c a' c' hx hx'
  rw [Steps, hx, hx'] at h
  cases h with
  | ok hg ho hq => exact ⟨_, _, _, hg, ho, hq⟩

theorem bind (hx : Ends lex D x x' P)
    (hf : ∀ {γ : Value × Value} {D' : Couple} {a a'}, D'.Matched lex γ → P γ D' a a' →
      Ends lex D' (f a) (f' a') R) : Ends lex D (x >>= f) (x' >>= f') R := by
  intro b d b' d' hrun hrun'
  obtain ⟨a, c, ha, hb⟩ := bind_eq_ok.mp hrun
  obtain ⟨a', c', ha', hb'⟩ := bind_eq_ok.mp hrun'
  obtain ⟨γ, W, σ, hg, hq⟩ := hx a c a' c' ha ha'
  exact hf hg hq b d b' d' hb hb'

end Ends

/-! ## 4. The root environment -/

/-- An environment that is pinned is kept. -/
theorem pin (hD : D.Matched lex γ) (hn : n ≤ D.height) (hv : D.world.Rel (.just .frame) v v') :
    Leads lex S n γ D (liftM (Heap.pin v)) (liftM (Heap.pin v'))
      (fun D' _ _ => D'.twin.Rooted (fun _ => False) 0 (.just .frame) v v') := by
  have hpins := hD.coherent.pins
  have hzip : List.Forall₂ (fun u u' => (u, u') ∈ D.left.heap.pins.zip D.right.heap.pins)
      D.left.heap.pins D.right.heap.pins := List.forall₂_iff_zip.mpr ⟨hpins.length_eq, id⟩
  by_cases hmem : v ∈ D.left.heap.pins
  · -- it is pinned already, on the right too
    obtain ⟨u', hu', hpair⟩ := (Twin.exists_of_forall₂ hzip).1 v hmem
    obtain rfl : u' = v' := hD.coherent.one.left_eq (List.forall₂_zip hpins hpair).same hv.same
    have hl : Heap.pin v D.left.heap = .ok () D.twin.left :=
      congrArg (EStateM.Result.ok ()) (if_pos hmem)
    have hr : Heap.pin u' D.right.heap = .ok () D.twin.right :=
      congrArg (EStateM.Result.ok ()) (if_pos hu')
    exact lift hD hl hr hD.coherent (Heap.Operation.succeeds (.pin v) hD.valid_left hl)
      (Heap.Operation.succeeds (.pin u') hD.valid_right hr) (.refl hn) rfl
      ⟨hv, .pin hpair⟩
  · have hmem' : v' ∉ D.right.heap.pins := fun hu' => by
      obtain ⟨u, hu, hpair⟩ := (Twin.exists_of_forall₂ hzip).2 v' hu'
      rw [hD.coherent.one.right_eq (List.forall₂_zip hpins hpair).same hv.same] at hu
      exact hmem hu
    have hl : Heap.pin v D.left.heap = .ok () (D.twin.pinned v v').left :=
      congrArg (EStateM.Result.ok ()) (if_neg hmem)
    have hr : Heap.pin v' D.right.heap = .ok () (D.twin.pinned v v').right :=
      congrArg (EStateM.Result.ok ()) (if_neg hmem')
    exact lift hD hl hr (hD.coherent.pinned hv) (Heap.Operation.succeeds (.pin v) hD.valid_left hl)
      (Heap.Operation.succeeds (.pin v') hD.valid_right hr) (.pinned hn) rfl
      ⟨hv, .pin List.mem_cons_self⟩

/-- The root environment of two contexts. -/
theorem setRootEnv (hD : D.Matched lex γ)
    (hv : D.twin.Rooted (fun _ => False) 0 (.just .frame) v v') :
    Leads lex S 0 γ D (modify fun c => { c with rootEnv := v })
      (modify fun c => { c with rootEnv := v' }) (fun _ _ _ => True) :=
  .ok (W := D.world) (σ := D.slot) { hD with rootEnv := hv }
    ⟨.refl (Nat.zero_le _), rfl, rfl, fun _ _ h => h⟩ ⟨rfl, trivial⟩

/-- The value that stands for truth is an immediate. -/
theorem setTruth (hD : D.Matched lex γ) (hv : v.addr? = none) :
    Leads lex S 0 γ D (modify fun c => { c with truth := v }) (modify fun c => { c with truth := v })
      (fun _ _ _ => True) :=
  .ok (W := D.world) (σ := D.slot) { hD with truth := rfl, truth_atom := hv }
    ⟨.refl (Nat.zero_le _), rfl, rfl, fun _ _ h => h⟩ ⟨rfl, trivial⟩

/-! ## 5. Forms and primitives -/

/-- A special form gets the same id. -/
theorem defineForm {fs : List StandardForm} (f : StandardForm) (hD : D.Matched lex γ)
    (h : D.left.Furnished fs) :
    Ends lex D (Context.defineForm f.name (.standard f)) (Context.defineForm f.name (.standard f))
      (fun γ' D' _ _ => γ' = γ ∧ D'.left.Furnished (f :: fs)) := by
  unfold Context.defineForm
  refine .bind (.of_steps (intern hD (Nat.zero_le _) f.name)) fun {γ₁ D₁ id id'} hD₁ hq => ?_
  obtain ⟨ho, rfl, _, rfl, hid⟩ := hq
  rintro _ _ _ _ ⟨⟩ ⟨⟩
  refine ⟨_, D₁.world, D₁.slot, { hD₁ with forms := ?_ }, rfl, (h.onward ho).add hid⟩
  exact congrArg (List.cons (id', SpecialForm.standard f)) hD₁.forms

/-- **Special forms are defined alike.** -/
theorem defineForms {fs gs : List StandardForm} (hD : D.Matched lex γ) (h : D.left.Furnished gs) :
    Ends lex D (fs.forM fun f => Context.defineForm f.name (.standard f))
      (fs.forM fun f => Context.defineForm f.name (.standard f))
      (fun γ' D' _ _ => γ' = γ ∧ D'.left.Furnished (fs.reverse ++ gs)) := by
  induction fs generalizing D gs with
  | nil =>
    rintro _ _ _ _ ⟨⟩ ⟨⟩
    exact ⟨γ, D.world, D.slot, hD, rfl, h⟩
  | cons f fs ih =>
    refine .bind (defineForm f hD h) fun {γ₁ D₁ _ _} hD₁ hq => ?_
    obtain ⟨rfl, h₁⟩ := hq
    rw [List.reverse_cons, List.append_assoc]
    exact ih hD₁ h₁

/-- A primitive is bound in the root environment. -/
theorem definePrimitive {p : Primitive} (hp : lex.natives p) (hD : D.Matched lex γ) :
    Leads lex Shape.Fixed 0 γ D (Context.defineProcedure (.primitive p))
      (Context.defineProcedure (.primitive p)) (fun _ _ _ => True) := by
  unfold Context.defineProcedure
  refine bind hD (make hD (Nat.le_refl 0) (Nat.zero_le _) (.native hp) fun _ _ => .native hp)
    (Nat.le_refl 0) fun {D₁ v v'} hD₁ _ hq => ?_
  obtain ⟨_, a, b, rfl, rfl, hw⟩ := hq
  refine rootBase hD₁ (bind hD₁ (pushRoot hD₁ (Nat.le_refl _) (.object hw)) (Nat.zero_le _)
    fun {D₂ _ _} hD₂ _ hq => ?_)
  obtain ⟨rfl, -, -⟩ := hq
  have hle : D₁.height ≤ (D₁.pushed (.object a) (.object b)).height :=
    Nat.le_of_lt (D₁.height_pushed _ _ ▸ Nat.lt_succ_self _)
  refine bind hD₂ (sym hD₂ hle p.name) (Nat.zero_le _) fun {D₃ _ _} hD₃ ho₃ hq => ?_
  obtain ⟨htwin, id, rfl, rfl, _⟩ := hq
  have hnative : D₃.world.Rel (.just .data) (.object a) (.object b) :=
    Couple.world_eq htwin ▸ .object hw
  refine observe (bind hD₃ (define hD₃ ho₃.heaps.height hD₃.rootEnv.rel (.sym id) hnative nofun nofun)
    (Nat.zero_le _) fun {D₄ _ _} hD₄ ho₄ _ => ?_)
  rw [← show D₄.slot D₁.height = D₁.slot D₁.height from ho₄.top.trans ho₃.top]
  exact (popRoots hD₄ (Nat.zero_le _) ho₄.heaps.height).weaken (fun _ h => h) (Nat.zero_le _)
    fun _ _ _ => ⟨rfl, trivial⟩

theorem definePrimitives {primitives : List Primitive} (hp : ∀ p ∈ primitives, lex.natives p)
    (hD : D.Matched lex γ) :
    Leads lex Shape.Fixed 0 γ D
      (primitives.forM fun p => Context.defineProcedure (.primitive p))
      (primitives.forM fun p => Context.defineProcedure (.primitive p)) (fun _ _ _ => True) := by
  induction primitives generalizing D with
  | nil => exact pure hD (Nat.zero_le _) ⟨rfl, trivial⟩
  | cons p primitives ih =>
    obtain ⟨hp, hprimitives⟩ := List.forall_mem_cons.mp hp
    exact bind hD (definePrimitive hp hD) (Nat.le_refl 0) fun hD₁ _ _ => ih hprimitives hD₁

/-! ## 6. Standard contexts -/

/-- **Contexts are furnished alike.** -/
theorem furnish {primitives : List Primitive} (hp : ∀ p ∈ primitives, lex.natives p)
    (hD : D.Matched lex γ) (hforms : D.left.forms = []) :
    Ends lex D (Context.furnishWith primitives) (Context.furnishWith primitives)
      (fun γ' D' _ _ => γ' = γ ∧ D'.left.Furnished StandardForm.all) := by
  have h : D.left.Furnished [] :=
    { standard := fun p hp => absurd (hforms ▸ hp) List.not_mem_nil
      named := nofun }
  unfold Context.furnishWith
  refine .bind (.of_steps (cons_rel (s := .frame) hD (Nat.zero_le _) .nil trivial .nil))
    fun {γ₁ D₁ env env'} hD₁ hq => ?_
  obtain ⟨ho₁, rfl, -, henv₁⟩ := hq
  refine .bind (.of_steps (pin hD₁ (Nat.zero_le _) henv₁)) fun {γ₂ D₂ _ _} hD₂ hq => ?_
  obtain ⟨ho₂, rfl, henv₂⟩ := hq
  refine .bind (.of_steps (setRootEnv hD₂ henv₂)) fun {γ₃ D₃ _ _} hD₃ hq => ?_
  obtain ⟨ho₃, rfl, -⟩ := hq
  refine .bind (.of_steps (sym hD₃ (Nat.zero_le _) "t")) fun {γ₄ D₄ _ _} hD₄ hq => ?_
  obtain ⟨ho₄, rfl, htwin, id, rfl, rfl, _⟩ := hq
  refine .bind (.of_steps (setTruth hD₄ rfl)) fun {γ₅ D₅ _ _} hD₅ hq => ?_
  obtain ⟨ho₅, rfl, -⟩ := hq
  have henv : ∀ {D D' : Couple} {β β' : Value × Value}, D.Matched lex β → D'.Matched lex β' → D.Onward Shape.Fixed 0 D' →
      D.twin.Rooted (fun _ => False) 0 (.just .frame) env env' →
      D'.twin.Rooted (fun _ => False) 0 (.just .frame) env env' := fun hD hD' ho henv =>
    (ho.mono (fun _ hs => hs.elim) (Nat.le_refl 0)).rooted hD hD' henv (Nat.le_refl 0)
  have henv₅ := henv hD₄ hD₅ ho₅ (henv hD₃ hD₄ ho₄ (henv hD₂ hD₃ ho₃ henv₂))
  refine .bind (.of_steps (define hD₅ (Nat.zero_le _) henv₅.rel (.sym id) (.sym id) nofun nofun))
    fun {γ₆ D₆ _ _} hD₆ hq => ?_
  obtain ⟨ho₆, rfl, -⟩ := hq
  have h₆ := (((((h.onward ho₁).onward ho₂).onward ho₃).onward ho₄).onward ho₅).onward ho₆
  refine .bind (defineForms hD₆ h₆) fun {γ₇ D₇ _ _} hD₇ hq => ?_
  obtain ⟨rfl, h₇⟩ := hq
  refine fun a c a' c' hrun hrun' => ?_
  obtain ⟨γ₈, W, σ, hD₈, ho₈, rfl, -⟩ :=
    Ends.of_steps (definePrimitives hp hD₇) a c a' c' hrun hrun'
  exact ⟨_, W, σ, hD₈, rfl, (h₇.onward ho₈).mono (by simp)⟩

end Leads

/-- Nothing corresponds in heaps that have just been made. -/
theorem Couple.matched_bare {cfg cfg' : Config} {h h' : Heap} {t t' : SymbolTable}
    (hdepth : lex.nested = false → cfg.maxDepth = cfg'.maxDepth) (hsaid : lex.said = ("", ""))
    (hlevel : lex.level → cfg = cfg') (hc : Heap.create cfg = .ok h) (hc' : Heap.create cfg' = .ok h')
    (ht : SymbolTable.create cfg.symbolCapacity = .ok t)
    (ht' : SymbolTable.create cfg'.symbolCapacity = .ok t') :
    (Couple.mk (fun _ _ _ => False) (Context.bare h t cfg.maxDepth)
      (Context.bare h' t' cfg'.maxDepth) id).Matched lex (.nil, .nil) where
  coherent := by
    obtain ⟨rfl, _⟩ := Heap.create_eq hc
    obtain ⟨rfl, _⟩ := Heap.create_eq hc'
    exact
      { one := ⟨nofun, nofun⟩
        cells := nofun
        owned := nofun
        slots := strictMono_id
        height := fun _ => rfl
        plain := fun _ => rfl
        roots := nofun
        pins := .nil
        types_left := rfl
        types_right := rfl
        holdings_left := rfl
        holdings_right := rfl }
  valid_left := (Heap.create_kept hc).valid
  valid_right := (Heap.create_kept hc').valid
  sound_left := SymbolTable.sound_create ht
  sound_right := SymbolTable.sound_create ht'
  names := (SymbolTable.names_create ht).trans (SymbolTable.names_create ht').symm
  forms := rfl
  rootEnv := .atom rfl
  current_left := rfl
  current_right := rfl
  looping := rfl
  failing := rfl
  failure := .rfl
  settled _ := rfl
  depth _ := rfl
  maxDepth := hdepth
  peakDepth _ := rfl
  truth := rfl
  truth_atom := rfl
  output := ⟨"", by rw [hsaid]; rfl, by rw [hsaid]; rfl⟩
  level h := by
    obtain rfl := hlevel h
    exact ⟨cfg, Heap.within_create hc, Heap.within_create hc'⟩

/-- Two contexts of some sizes correspond slot by slot, and neither has printed anything. -/
structure Lexicon.Untouched (lex : Lexicon) (cfg cfg' : Config) : Prop where
  full : lex.vacant = none
  said : lex.said = ("", "")
  level : lex.level ↔ lex.nested = false ∧ cfg = cfg'

namespace Context

variable {cfg cfg' : Config} {c c' : Context} {natives : List Primitive}

/-- What a context is made of. -/
theorem createWith_eq (hc : createWith natives cfg = .ok c) : ∃ h t, Heap.create cfg = .ok h ∧
    SymbolTable.create cfg.symbolCapacity = .ok t ∧
      furnishWith natives (bare h t cfg.maxDepth) = .ok () c := by
  unfold createWith at hc
  cases hh : Heap.create cfg with
  | error e =>
    rw [hh] at hc
    cases hc
  | ok h =>
    cases ht : SymbolTable.create cfg.symbolCapacity with
    | error e =>
      rw [hh, ht] at hc
      cases hc
    | ok t =>
      refine ⟨h, t, rfl, rfl, ?_⟩
      rw [hh, ht] at hc
      cases hf : furnishWith natives (bare h t cfg.maxDepth) with
      | error e d => simp [bind, Except.bind, hf] at hc
      | ok u d =>
        simp only [bind, Except.bind, hf, Except.ok.injEq] at hc
        rw [hc]

/-- **Contexts with the standard forms and some of the natives correspond**, whatever their heaps and
    symbol tables are laid out for. -/
theorem createWith_matched {nested : Bool} (huncounted : nested = true → .gc ∉ natives)
    (hdepth : nested = false → cfg.maxDepth = cfg'.maxDepth) (hc : createWith natives cfg = .ok c)
    (hc' : createWith natives cfg' = .ok c') :
    ∃ lex W σ, lex.nested = nested ∧ lex.Untouched cfg cfg' ∧
      (Couple.mk W c c' σ).Matched lex (.nil, .nil) ∧ Lexical lex ⟨W, c, c', σ⟩ := by
  obtain ⟨h, t, hh, ht, hf⟩ := createWith_eq hc
  obtain ⟨h', t', hh', ht', hf'⟩ := createWith_eq hc'
  have hbare : (Couple.mk (fun _ _ _ => False) (bare h t cfg.maxDepth)
      (bare h' t' cfg'.maxDepth) id).Matched
      { forms := c.formOf, natives := (· ∈ natives), nested, uncounted := huncounted,
        level := nested = false ∧ cfg = cfg', even := And.left }
      (.nil, .nil) :=
    Couple.matched_bare hdepth rfl And.right hh hh' ht ht'
  obtain ⟨γ, W, σ, hD, rfl, hfurnished⟩ :=
    Leads.furnish (fun _ hp => hp) hbare rfl _ _ _ _ hf hf'
  exact ⟨_, W, σ, rfl, ⟨rfl, rfl, Iff.rfl⟩, hD, hfurnished.lexical rfl⟩

/-- **Standard contexts that allow the same depth correspond.** -/
theorem create_matched (hdepth : cfg.maxDepth = cfg'.maxDepth) (hc : create cfg = .ok c)
    (hc' : create cfg' = .ok c') :
    ∃ lex W σ, lex.nested = false ∧ lex.Untouched cfg cfg' ∧
      (Couple.mk W c c' σ).Matched lex (.nil, .nil) ∧ Lexical lex ⟨W, c, c', σ⟩ := by
  rw [create_eq_createWith] at hc hc'
  exact createWith_matched nofun (fun _ => hdepth) hc hc'

end Context

end LispMachine
