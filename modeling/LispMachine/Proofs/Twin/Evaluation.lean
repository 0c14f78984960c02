import LispMachine.Proofs.Twin.Forms

/-!
# Evaluation, on both sides

* `Lexical` -- the special forms are those of the lexicon, all of them standard ones;
* `Leads.enterForm` -- **what a pair is, its head says**: on both sides it is the same special form, or
  a call;
* `Leads.enterPair` -- environment and expression are rooted while a pair is evaluated;
* `Leads.enterArguments`, `Leads.resumeArgument` -- the evaluated form is built in a slot;
* `Leads.resumeCall`, `Leads.enterApply` -- its head is called.
-/

namespace LispMachine

open World

/-- The special forms of two contexts are those of a lexicon. -/
structure Lexical (lex : Lexicon) (D : Couple) : Prop where
  forms : ∀ id, D.left.forms.lookup id = (lex.forms id).map .standard
  quote : ∃ id : Nat, D.left.symbols.names[id]? = some "quote" ∧ lex.forms id = some .quote

theorem Lexical.onward {lex : Lexicon} {D D' : Couple} {S : Shape → Prop} {n : Nat}
    (h : Lexical lex D) (ho : D.Onward S n D') : Lexical lex D' where
  forms id := by
    rw [ho.forms]
    exact h.forms id
  quote := by
    obtain ⟨id, hid, hlex⟩ := h.quote
    exact ⟨id, ho.names id _ hid, hlex⟩

variable {lex : Lexicon} {γ : Value × Value} {D : Couple} {S : Shape → Prop} {n : Nat}
variable {env env' expr expr' rest rest' last last' v v' w w' : Value} {ρ ρ' : Role} {s : Shape}
variable {σ : Option Shape} {tail : Bool}

/-- The special form of an expression is that of its head. -/
theorem Lexical.specialForm? (h : Lexical lex D) (v : Value) :
    Machine.specialForm? D.left v = (lex.form? (D.left.heap.car v)).map .standard := by
  rw [Machine.specialForm?, Lexicon.form?]
  cases (D.left.heap.car v).sym? with
  | none => rfl
  | some id => exact h.forms id

theorem Couple.Matched.specialForm?_eq (hD : D.Matched lex γ) (hv : D.world.Same v v') :
    Machine.specialForm? D.right v' = Machine.specialForm? D.left v := by
  have hcar : (D.left.heap.car v).sym? = (D.right.heap.car v').sym? :=
    (hD.coherent.same_car hv).sym?_eq
  rw [Machine.specialForm?, Machine.specialForm?, ← hcar, hD.forms]

/-- An evaluated form whose head is the function that is running: in tail position, a self tail
    call. -/
structure Machine.IsSelfCall (c : Context) (form : Value) : Prop where
  going : c.failing = false
  isFunc : c.heap.typeOf (c.heap.car form) = CoreType.func.id
  same : c.heap.car form = c.current

namespace Leads

/-! ## 1. Pairs -/

/-- Two values are rooted, one above the other. -/
theorem pushTwo {β β' : Type} {f : Nat → Run β} {f' : Nat → Run β'}
    {R : Value × Value → Couple → β → β' → Prop} (hD : D.Matched lex γ) (hn : n ≤ D.height)
    (hv : D.world.Rel ρ v v') (hw : D.world.Rel ρ' w w')
    (h : ∀ {D' : Couple}, D'.Matched lex γ → D.Onward S D.height D' → D'.height = D.height + 2 →
      D'.Kept (D.height + 2) ρ v v' → D'.Kept (D.height + 2) ρ' w w' →
      Steps lex S n D' (f D.height) (f' (D.slot D.height)) R) :
    Steps lex S n D (do
        let base ← liftM (Heap.pushRoot v)
        let _ ← liftM (Heap.pushRoot w)
        f base)
      (do
        let base ← liftM (Heap.pushRoot v')
        let _ ← liftM (Heap.pushRoot w')
        f' base) R := by
  refine bind hD (pushRoot hD (Nat.le_refl _) hv.slot) hn fun {D₁ _ _} hD₁ ho₁ hq => ?_
  obtain ⟨hD₁eq, rfl, rfl⟩ := hq
  have hheight₁ : D₁.height = D.height + 1 := hD₁eq ▸ D.height_pushed _ _
  have hv₁ : D₁.Kept D₁.height ρ v v' := hheight₁ ▸ hD₁eq ▸ Couple.rooted_pushed hD hv
  have hw₁ : D₁.world.Rel ρ' w w' := hD₁eq ▸ hw
  have hle : D.height ≤ D₁.height := hheight₁ ▸ Nat.le_succ _
  have hpush : Leads lex S D.height γ D₁ (liftM (Heap.pushRoot w)) (liftM (Heap.pushRoot w'))
      (fun D' _ _ => D' = D₁.pushed w w' ∧ D'.Kept (D.height + 2) ρ v v') := by
    refine (pushRoot hD₁ (Nat.le_refl _) hw₁.slot).weaken (fun _ => id) hle
      fun {D' _ _} hD' _ hq => ⟨rfl, hq.1, ?_⟩
    have ho : D₁.Onward Shape.Fixed D₁.height D' := by
      rw [hq.1]
      exact .withTwin (.pushed hD₁.coherent (Nat.le_refl _)) rfl
    exact (ho.rooted hD₁ hD' hv₁ (Nat.le_refl _)).lift (hheight₁ ▸ Nat.le_succ _)
  refine bind hD₁ hpush hn fun {D₂ _ _} hD₂ ho₂ hq => ?_
  obtain ⟨hD₂eq, hv₂⟩ := hq
  refine h hD₂ (ho₁.trans ho₂ hD hD₁) ?_ hv₂ ?_
  · rw [hD₂eq, Couple.height_pushed, hheight₁]
  · rw [← Nat.add_assoc D.height 1 1, ← hheight₁, hD₂eq]
    exact Couple.rooted_pushed hD₁ hw₁

/-- **A pair is the special form that its head says, or a call.** -/
theorem enterForm (host host' : Host) {a b : Addr} (hD : D.Matched lex γ) (hlex : Lexical lex D)
    (hn : n ≤ D.height) (henv : D.Kept n (.just .frame) env env')
    (hexpr : D.Kept n .code (.pair a) (.pair b)) :
    Steps lex Shape.Fixed n D (Machine.enterForm host env (.pair a) tail)
      (Machine.enterForm host' env' (.pair b) tail)
      (ProceedsFrom lex n γ tail .code (.pair a) (.pair b)) := by
  obtain ⟨hrel, hheld⟩ := hexpr
  rw [Machine.enterForm, Machine.enterForm]
  refine observe ?_
  rw [hD.specialForm?_eq hrel.same, hlex.specialForm?]
  cases hrel with
  | atom hv => cases hv
  | pair hw hs =>
    obtain ⟨x, y, x', y', hp⟩ := hD.coherent.pairs hw
    have hcar : D.left.heap.car (.pair a) = x := Twin.car_of_pair hp.left
    rw [hcar]
    rcases hs with rfl | ⟨f, rfl⟩
    · rw [show lex.form? x = none from hp.fits]
      exact pure hD hn fun _ _ hwait ht => .task hn
        (.evalList henv Shape.listed_call ⟨.pair hw rfl, hheld⟩) (.call (ht.atom rfl) hwait)
    · rw [show lex.form? x = some f from hp.fits]
      have hkept : D.Kept n (.just (.special f)) (.pair a) (.pair b) := ⟨.pair hw rfl, hheld⟩
      refine look (relax (onRest (s := .special f) hD rfl hkept (standardForm f hD hn henv
        (hkept.cdr hD.coherent rfl))) (fun _ => id) (Nat.le_refl n)
        fun hD' ho hq ps ps' hwait ht => hq ps ps' hwait ?_)
      exact ht.as (ho.rooted hD hD' hkept (Nat.le_refl n)).rel

/-- Where one side has more calls under way, neither has come to its limit of depth. -/
def Room (lex : Lexicon) (D : Couple) : Prop :=
  lex.nested = true → D.left.depth < D.left.maxDepth ∧ D.right.depth < D.right.maxDepth

/-- Both sides are at their limit of depth, or neither. -/
theorem isAtLimit_iff (hD : D.Matched lex γ) (hroom : Room lex D) :
    Machine.isAtLimit D.left = true ↔ Machine.isAtLimit D.right = true := by
  rw [Machine.isAtLimit, Machine.isAtLimit, decide_eq_true_iff, decide_eq_true_iff]
  cases hn : lex.nested with
  | false => rw [hD.maxDepth hn, hD.depth hn]
  | true =>
    obtain ⟨hleft, hright⟩ := hroom hn
    exact iff_of_false (Nat.not_le_of_lt hleft) (Nat.not_le_of_lt hright)

/-- One more evaluation of a pair is pending. -/
theorem deepen (hD : D.Matched lex γ) (hn : n ≤ D.height) :
    Leads lex S n γ D
      (modify fun c => { c with depth := c.depth + 1, peakDepth := max c.peakDepth (c.depth + 1) })
      (modify fun c => { c with depth := c.depth + 1, peakDepth := max c.peakDepth (c.depth + 1) })
      (fun D' _ _ => D'.twin = D.twin) := by
  refine .ok (W := D.world) (σ := D.slot) { hD with depth := fun h => ?_, peakDepth := fun h => ?_ }
    ⟨.refl hn, rfl, rfl, fun _ _ h => h⟩ ⟨rfl, rfl⟩
  · exact congrArg (· + 1) (hD.depth h)
  · exact congrArg₂ (fun peak depth => max peak (depth + 1)) (hD.peakDepth h) (hD.depth h)

/-- **A pair is evaluated**, with environment and expression rooted. -/
theorem enterPair (host host' : Host) {a b : Addr} (hD : D.Matched lex γ) (hlex : Lexical lex D)
    (hroom : Room lex D) (hn : n ≤ D.height) (henv : D.world.Rel (.just .frame) env env')
    (hexpr : D.world.Rel .code (.pair a) (.pair b)) :
    Steps lex Shape.Fixed n D (Machine.enterPair host env (.pair a) tail)
      (Machine.enterPair host' env' (.pair b) tail)
      (ProceedsAt lex n D.height γ tail (.pair a) (.pair b)) := by
  rw [Machine.enterPair, Machine.enterPair]
  refine observe (ite (isAtLimit_iff hD hroom) (fun _ => ?_) fun _ => ?_)
  · exact relax (failNext hD hn rfl) (fun _ => id) (Nat.le_refl n) fun _ _ hq => .of_proceeds hq
  · refine bind hD (deepen hD hn) (Nat.le_refl n) fun {D₁ _ _} hD₁ ho₁ hq => ?_
    have hn₁ := ho₁.heaps.height
    have hheight₁ : D₁.height = D.height := Couple.height_eq hq
    rw [← Couple.world_eq hq] at henv hexpr
    rw [← hheight₁]
    refine pushTwo hD₁ hn₁ henv hexpr fun {D₂} hD₂ ho₂ hheight henv₂ hexpr₂ => ?_
    have hle : n ≤ D₁.height + 2 := Nat.le_trans hn₁ (Nat.le_add_right _ 2)
    refine andThen hD₂ (enterForm host host' hD₂ ((hlex.onward ho₁).onward ho₂) (Nat.le_of_eq hheight.symm)
      henv₂ hexpr₂) hle fun {γ₃ D₃ _ _} hD₃ ho₃ hq => ?_
    have hslot : D₃.slot D₁.height = D₁.slot D₁.height :=
      (ho₃.slot_eq (Nat.le_add_right _ 2)).trans ho₂.top
    have hlt : D₁.height < D₁.height + 2 := Nat.lt_add_of_pos_right Nat.two_pos
    refine pure hD₃ (Nat.le_trans hle ho₃.heaps.height) fun ps ps' hw ht => .andThen (hq _ _ ?_ ?_)
    · exact .leave hlt hslot.symm (hw.mono hn₁)
    · exact (TailFrom.leave ht).mono (Nat.le_succ _)

/-- **An expression is evaluated.** -/
theorem enterEval (host host' : Host) (hD : D.Matched lex γ) (hlex : Lexical lex D) (hroom : Room lex D)
    (hn : n ≤ D.height) (henv : D.world.Rel (.just .frame) env env')
    (hexpr : D.world.Rel .code expr expr') :
    Steps lex Shape.Fixed n D (Machine.enterEval host env expr tail)
      (Machine.enterEval host' env' expr' tail) (ProceedsAt lex n D.height γ tail expr expr') := by
  have hplain : ∀ {x x' : Run Next}, Steps lex Shape.Fixed n D x x' (Proceeds lex n γ (.just .data)) →
      Steps lex Shape.Fixed n D x x' (ProceedsAt lex n D.height γ tail expr expr') := fun hx =>
    relax hx (fun _ => id) (Nat.le_refl n) fun _ _ hq => .of_proceeds hq
  cases hexpr with
  | object hw => exact hplain (give hD hn (.object hw))
  | pair hw hs => exact enterPair host host' hD hlex hroom hn henv (.pair hw hs)
  | atom hv =>
    cases expr with
    | nil => exact hplain (give hD hn .nil)
    | int k => exact hplain (give hD hn (.int k))
    | sym id =>
      exact hplain (bind hD (valueOf hD hn henv (.atom rfl)) (Nat.le_refl n) fun hD₁ ho₁ hq =>
        give hD₁ ho₁.heaps.height hq)
    | pair a => cases hv
    | object a => cases hv

/-- Roots are dropped, and a value is handed back. -/
theorem resumeRelease {base : Nat} (hD : D.Matched lex γ) (hb : base ≤ D.height)
    (hv : D.world.Rel ρ v v') :
    Steps lex S base D (Machine.resumeRelease base v) (Machine.resumeRelease (D.slot base) v')
      (Proceeds lex base γ ρ) := by
  refine bind hD (popRoots hD (Nat.le_refl base) hb) (Nat.le_refl base) fun hD₁ ho₁ hq => ?_
  subst hq
  exact give hD₁ ho₁.heaps.height (Twin.Rel.released hv)

/-- The evaluation of a pair is left. -/
theorem resumeLeave {base : Nat} (hD : D.Matched lex γ) (hb : base ≤ D.height)
    (hv : D.world.Rel ρ v v') :
    Steps lex S base D (Machine.resumeLeave base v) (Machine.resumeLeave (D.slot base) v')
      (Proceeds lex base γ ρ) := by
  refine bind hD (popRoots hD (Nat.le_refl base) hb) (Nat.le_refl base) fun {D₁ _ _} hD₁ ho₁ hq => ?_
  have hn₁ := ho₁.heaps.height
  have hrise : Leads lex S base γ D₁ (modify fun c => { c with depth := c.depth - 1 })
      (modify fun c => { c with depth := c.depth - 1 }) (fun D' _ _ => D'.twin = D₁.twin) :=
    .ok (W := D₁.world) (σ := D₁.slot)
      { hD₁ with depth := fun h => congrArg (· - 1) (hD₁.depth h) }
      ⟨.refl hn₁, rfl, rfl, fun _ _ h => h⟩ ⟨rfl, rfl⟩
  refine bind hD₁ hrise (Nat.le_refl base) fun {D₂ _ _} hD₂ ho₂ hq₂ => ?_
  have hworld : D₂.world = D.world.released base := by
    rw [Couple.world_eq hq₂, hq]
    rfl
  exact give hD₂ ho₂.heaps.height (hworld ▸ Twin.Rel.released hv)

/-! ## 2. Lists of arguments -/

/-- The list in a slot is done, and given. -/
theorem giveList {base : Nat} (hD : D.Matched lex γ) (hs : D.twin.Started base ρ) :
    Steps lex S base D (do
        let out ← liftM (Heap.root base)
        liftM (Heap.popRoots base)
        Pure.pure (Next.give out))
      (do
        let out ← liftM (Heap.root (D.slot base))
        liftM (Heap.popRoots (D.slot base))
        Pure.pure (Next.give out)) (Proceeds lex base γ ρ) := by
  refine root hD hs.lt fun v v' hv hv' => ?_
  have hout := hs.finished hv hv'
  refine bind hD (popRoots hD (Nat.le_refl base) (Nat.le_of_lt hs.lt)) (Nat.le_refl base)
    fun hD₁ ho₁ hq => ?_
  subst hq
  exact give hD₁ ho₁.heaps.height hout

/-- **The elements of a list are evaluated**, from one of its pairs on. -/
theorem enterArguments {base : Nat} (hD : D.Matched lex γ)
    (henv : D.Kept base (.just .frame) env env') (hs : s.Listed)
    (hrest : D.Kept base (.just s) rest rest') (hσ : ∀ t, σ = some t → t.rest = .data)
    (hlast : D.twin.Building Shape.Fixed base (.just .form) σ last last') :
    Steps lex S base D (Machine.enterArguments env rest base last)
      (Machine.enterArguments env' rest' (D.slot base) last') (Proceeds lex base γ (.just .form)) := by
  have hlt : base < D.height := hlast.started.lt
  have hcar := hD.coherent.car hrest.rel
  rw [hs.first] at hcar
  rw [Machine.enterArguments, Machine.enterArguments]
  refine ite (by rw [hrest.rel.same.isPair_eq]) (fun _ => look ?_) fun _ => ?_
  · exact pure hD (Nat.le_of_lt hlt) (.eval hlt henv.rel hcar fun _ _ hw =>
      .argument (Nat.lt_succ_self base) rfl henv hs hrest hσ hlast hw)
  · exact giveList hD hlast.started

theorem enterEvalList (hD : D.Matched lex γ) (hn : n ≤ D.height)
    (henv : D.Kept n (.just .frame) env env') (hs : s.Listed)
    (hlist : D.Kept n (.just s) rest rest') :
    Steps lex Shape.Fixed n D (Machine.enterEvalList env rest) (Machine.enterEvalList env' rest')
      (Proceeds lex n γ (.just .form)) := by
  rw [Machine.enterEvalList, Machine.enterEvalList]
  refine bind hD (pushNil hD (Nat.le_refl _)) hn
    fun {D₁ _ _} hD₁ ho₁ hq => ?_
  obtain ⟨hD₁eq, rfl, rfl⟩ := hq
  have henv₁ := ho₁.rooted hD hD₁ (henv.lift hn) (Nat.le_refl _)
  have hlist₁ := ho₁.rooted hD hD₁ (hlist.lift hn) (Nat.le_refl _)
  have hlast : D₁.twin.Building Shape.Fixed D.height (.just .form) none .nil .nil := by
    rw [hD₁eq]
    exact Couple.building_pushed hD
  rw [← ho₁.top]
  exact relax (enterArguments (σ := none) hD₁ henv₁ hs hlist₁ nofun hlast) (fun _ => id) hn
    fun _ _ hq => hq.lower hn

/-- **One more argument.** -/
theorem resumeArgument {base : Nat} (hD : D.Matched lex γ)
    (henv : D.Kept base (.just .frame) env env') (hs : s.Listed)
    (hrest : D.Kept base (.just s) rest rest') (hσ : ∀ t, σ = some t → t.rest = .data)
    (hlast : D.twin.Building Shape.Fixed base (.just .form) σ last last')
    (hv : D.world.Rel (.just .data) v v') :
    Steps lex Shape.Fixed base D (Machine.resumeArgument env rest base last v)
      (Machine.resumeArgument env' rest' (D.slot base) last' v')
      (Proceeds lex base γ (.just .form)) := by
  rw [Machine.resumeArgument, Machine.resumeArgument]
  refine isFailing hD (ite Iff.rfl (fun _ => ?_) fun _ => ?_)
  · exact resumeRelease hD (Nat.le_of_lt hlast.started.lt) .nil
  · have hnext : D.world.Rel (nextRole (.just .form) σ) v v' := by
      cases σ with
      | none => exact hv
      | some t =>
        rw [nextRole, hσ t rfl]
        exact hv
    refine bind hD (append (ρ := .just .form) hD (Nat.le_refl base) trivial hlast hnext) (Nat.le_refl base)
      fun {D₁ _ _} hD₁ ho₁ hq => ?_
    have hcdr := (ho₁.rooted hD hD₁ hrest (Nat.le_refl _)).cdr hD₁.coherent hs.fixed
    rw [hs.rest] at hcdr
    rw [← ho₁.top]
    refine look (enterArguments hD₁ (ho₁.rooted hD hD₁ henv (Nat.le_refl _)) Shape.listed_exprs hcdr
      ?_ hq.2)
    rintro _ ⟨⟩
    cases σ with
    | none => rfl
    | some t =>
      rw [nextShape, hσ t rfl]
      rfl

/-! ## 3. Application -/

/-- **The head of an evaluated form is called**, or its arguments go back to the call that is under
    way -- to the same call on both sides, unless the right one starts another. -/
theorem resumeCall (host host' : Host) {form form' : Value} (hD : D.Matched lex γ)
    (hfull : lex.vacant = none) (hn : n ≤ D.height) (hγ : D.Kept n (.just .data) γ.1 γ.2)
    (hform : D.world.Rel (.just .form) form form')
    (hself : lex.nested = true → tail = true → ¬ Machine.IsSelfCall D.left form) :
    Steps lex Shape.Fixed n D (Machine.resumeCall host tail form)
      (Machine.resumeCall host' (tail && !lex.nested) form') (Proceeds lex n γ (.just .data)) := by
  rw [Machine.resumeCall, Machine.resumeCall]
  refine isFailing hD (ite Iff.rfl (fun _ => give hD hn .nil) fun hgoing => ?_)
  refine bind hD (pushRoot hD (Nat.le_refl _) hform.slot) hn fun {D₁ _ _} hD₁ ho₁ hq => ?_
  obtain ⟨hD₁eq, -, -⟩ := hq
  have hheight : D₁.height = D.height + 1 := hD₁eq ▸ D.height_pushed _ _
  have hkept : D₁.Kept (D.height + 1) (.just .form) form form' :=
    hD₁eq ▸ Couple.rooted_pushed hD hform
  rw [← hheight] at hkept
  have hT := hD₁.coherent
  have hn₁ : n ≤ D₁.height := hheight ▸ Nat.le_succ_of_le hn
  have hfunc : D₁.Kept D₁.height (.just .data) _ _ := hkept.car hT rfl
  have hargs : D₁.world.Rel (.just .data) _ _ := hT.cdr hkept.rel
  have hγ₁ := ho₁.rooted hD hD₁ hγ hn
  -- where the right side would start another call, the left one starts a call as well
  have hplain : D₁.left.heap.typeOf (D₁.left.heap.car form) = CoreType.func.id →
      (tail && decide (D₁.left.heap.car form = D₁.left.current)) = true → lex.nested = false :=
    fun htype hcall => by
      obtain ⟨htail, hsame⟩ := Bool.and_eq_true_iff.mp hcall
      subst hD₁eq
      exact Bool.eq_false_iff.mpr fun hnested => hself hnested htail
        ⟨Bool.eq_false_iff.mpr hgoing, htype, of_decide_eq_true hsame⟩
  refine look (look (look (ite ?_ (fun htype => observe (ite ?_ (fun hcall => ?_) fun _ => ?_))
    fun _ => ite ?_ (fun _ => ?_) fun _ => ?_)))
  · exact iff_of_eq (congrArg (· = _) (hT.typeOf_eq hfunc.rel.same))
  · have hsame : decide (D₁.left.heap.car form = D₁.left.current) =
        decide (D₁.right.heap.car form' = D₁.right.current) := by
      rw [hD₁.current_left, hD₁.current_right]
      exact decide_eq_decide.mpr (hT.one.eq_iff hfunc.rel.same hγ₁.rel.same)
    refine ⟨fun hcall => ?_, fun hcall => ?_⟩
    · rw [hplain htype hcall, Bool.not_false, Bool.and_true]
      exact congrArg (tail && ·) hsame ▸ hcall
    · obtain ⟨htail, hcall⟩ := Bool.and_eq_true_iff.mp hcall
      exact Bool.and_eq_true_iff.mpr ⟨(Bool.and_eq_true_iff.mp htail).1, hsame.trans hcall⟩
  · refine bind hD₁ (setLooping hD₁ (hplain htype hcall) hn₁) (Nat.le_refl n) fun hD₂ ho₂ hq => ?_
    rw [← Couple.world_eq hq] at hargs
    exact give hD₂ ho₂.heaps.height hargs
  · exact relax (enterFunction hD₁ (Nat.le_refl _) hfunc hargs) (fun _ => id) hn₁
      fun _ _ hq => hq.lower hn₁
  · exact iff_of_eq (congrArg (· = _) (hT.typeOf_eq hfunc.rel.same))
  · exact enterNative host host' hD₁ hfull hn₁ hfunc.rel.same hargs
  · exact failNext hD₁ hn₁ rfl

/-- **A value is applied**, with it and its arguments rooted. -/
theorem enterApply (host host' : Host) {func func' args args' : Value} (hD : D.Matched lex γ)
    (hfull : lex.vacant = none) (hn : n ≤ D.height) (hfunc : D.world.Rel (.just .data) func func')
    (hargs : D.world.Rel (.just .data) args args') :
    Steps lex Shape.Fixed n D (Machine.enterApply host func args)
      (Machine.enterApply host' func' args') (Proceeds lex n γ (.just .data)) := by
  rw [Machine.enterApply, Machine.enterApply]
  refine pushTwo hD hn hfunc hargs fun {D₁} hD₁ ho₁ hheight hfunc₁ hargs₁ => look ?_
  have hle : D.height + 2 ≤ D₁.height := Nat.le_of_eq hheight.symm
  have hn₁ : n ≤ D.height + 2 := Nat.le_succ_of_le (Nat.le_succ_of_le hn)
  have htype := hD₁.coherent.typeOf_eq hfunc₁.rel.same
  have hrest : ∀ {x x' : Run Next},
      Steps lex Shape.Fixed (D.height + 2) D₁ x x' (Proceeds lex (D.height + 2) γ (.just .data)) →
      Steps lex Shape.Fixed n D₁ (x >>= fun next => Pure.pure (next.andThen (.release D.height)))
        (x' >>= fun next => Pure.pure (next.andThen (.release (D.slot D.height))))
        (Proceeds lex n γ (.just .data)) := fun hx => by
    refine andThen hD₁ hx hn₁ fun {γ₂ D₂ _ _} hD₂ ho₂ hq => ?_
    have hslot : D₂.slot D.height = D.slot D.height :=
      (ho₂.slot_eq (Nat.le_add_right _ 2)).trans ho₁.top
    refine pure hD₂ (Nat.le_trans hn₁ ho₂.heaps.height) fun _ _ hw => .andThen (hq _ _ ?_)
    exact .release (Nat.lt_add_of_pos_right Nat.two_pos) hslot.symm (hw.mono hn)
  refine ite ?_ (fun _ => hrest ?_) fun _ => ite ?_ (fun _ => hrest ?_) fun _ => hrest ?_
  · exact iff_of_eq (congrArg (· = _) htype)
  · exact enterFunction hD₁ hle hfunc₁ hargs₁.rel
  · exact iff_of_eq (congrArg (· = _) htype)
  · exact enterNative host host' hD₁ hfull hle hfunc₁.rel.same hargs₁.rel
  · exact failNext hD₁ hle rfl

end Leads

end LispMachine
