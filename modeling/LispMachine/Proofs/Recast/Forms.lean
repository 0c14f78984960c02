import LispMachine.Proofs.Recast.Code

/-!
# Special forms of recast code

A special form does the same on both sides if its arguments are recast code, as far as evaluations do
(`Evals`):

* `Duet.Yields` -- what a step leads to comes to values that correspond;
* `Both.enterLet` -- local bindings, in frames that correspond;
* `Both.standardForm` -- **all of them**.
-/

namespace LispMachine

open Context Machine

variable {n : Nat} {D D₁ D₂ : Duet} {ps ps' : List Pending} {v v' env env' args args' : Value}
variable {tail tail' : Bool}

namespace Duet

/-- **What a step leads to comes to values that correspond**, with the root stacks as they were. -/
def Yields (D : Duet) (n : Nat) (ps ps' : List Pending) : Duet → Next → Next → Prop :=
  Onto n ps ps' (D.Gives D.left.heap.roots D.right.heap.roots ps ps')

theorem yields_give (hD₁ : D₁.Sound) (later : D.Later D₁) (still : D.Still D₁) (hv : D₁.concord.Rel v v') :
    D.Yields n ps ps' D₁ (.give v) (.give v') :=
  (Meets.given hD₁ still.left still.right hv).weaken fun _ _ => Gives.later later

theorem Yields.base {next next' : Next} (later : D.Later D₁) (still : D.Still D₁)
    (h : D₁.Yields n ps ps' D₂ next next') : D.Yields n ps ps' D₂ next next' := by
  unfold Yields at h
  rw [still.left, still.right] at h
  exact h.weaken fun _ _ => Gives.later later

/-- An expression in place of a form. -/
theorem yields_eval (hn : Evals n) {expr expr' : Value} (hD : D.Sound) (hgo : D.left.failing = false)
    (henv : D.concord.Rel env env')
    (hexpr : D.concord.Recast .expr expr expr') :
    D.Yields n ps ps' D { task := .eval env expr tail } { task := .eval env' expr' tail' } :=
  hn D env env' expr expr' tail tail' ps ps' hD hgo henv hexpr

end Duet

namespace Both

theorem failYields (hD : D.Sound) (message : String) {m : Nat} :
    Both D m (Context.failNext message) (Context.failNext message) (D.Yields n ps ps') :=
  (failNext hD message).weaken (Nat.zero_le m) fun _ _ _ hD₁ later hq => by
    obtain ⟨rfl, rfl, still⟩ := hq
    exact Duet.yields_give hD₁ later still .nil

theorem giveNil (hD : D.Sound) :
    Both D 0 (Pure.pure (Next.give .nil)) (Pure.pure (Next.give .nil)) (D.Yields n ps ps') :=
  pure hD (Duet.yields_give hD (.refl D) (.refl D) .nil)

/-- What follows when the state is failing is nil. -/
theorem unlessFailing {m : Nat} {x x' : Run Next} (hD : D.Sound)
    (hx : D.left.failing = false → Both D m x x' (D.Yields n ps ps')) :
    Both D m (Context.isFailing >>= fun b => if b = true then Pure.pure (Next.give .nil) else x)
      (Context.isFailing >>= fun b => if b = true then Pure.pure (Next.give .nil) else x') (D.Yields n ps ps') :=
  isFailing hD (ite Iff.rfl (fun _ => (giveNil hD).mono (Nat.zero_le m)) fun h => hx (Bool.not_eq_true _ ▸ h))

end Both

/-- **What has been pushed is dropped** before values are handed back. -/
theorem Machine.Meets.unwound {D₀ : Duet} {p p' : Pending} {g : Context → Context}
    (hg : ∀ c, ∃ current depth peak, g c = { c with current := current, depth := depth, peakDepth := peak })
    (hp : p.resumeBy Host.none false v = (do
      Heap.popRoots D₀.left.heap.roots.size
      modify g
      pure (.give v)))
    (hp' : p'.resumeBy Host.none false v' = (do
      Heap.popRoots D₀.right.heap.roots.size
      modify g
      pure (.give v')))
    (hD : D.Sound) (later : D₀.Later D) (hatop : D₀.Atop D) (hv : D.concord.Rel v v') :
    Meets n ⟨D.left, .give v, p :: ps⟩ ⟨D.right, .give v', p' :: ps'⟩
      (D₀.Gives D₀.left.heap.roots D₀.right.heap.roots ps ps') :=
  .resume hD 0 fun D₁ hroom => by
    have hD₁ := hroom.sound hD
    have later₁ := later.trans (hroom.later hD)
    rw [hp, hp']
    refine Both.unwind (hatop.still (hroom.still hD)) (Both.aside hg hg hD₁.withRoots
      fun D₂ hD₂ later₂ calm₂ hK _ _ => Both.pure hD₂ ?_)
    exact Duet.yields_give (D := D₀) hD₂ (later₁.withRoots.trans later₂) ⟨calm₂.left, calm₂.right⟩
      (hK ▸ hroom.concord ▸ hv)

namespace Both

/-- **What has been pushed is dropped** when the values have come back. -/
theorem unwinding {D₀ : Duet} {next next' : Next} {p p' : Pending} {g : Context → Context}
    (hg : ∀ c, ∃ current depth peak, g c = { c with current := current, depth := depth, peakDepth := peak })
    (hp : ∀ v, p.resumeBy Host.none false v = (do
      Heap.popRoots D₀.left.heap.roots.size
      modify g
      Pure.pure (.give v)))
    (hp' : ∀ v, p'.resumeBy Host.none false v = (do
      Heap.popRoots D₀.right.heap.roots.size
      modify g
      Pure.pure (.give v)))
    (later : D₀.Later D) (hatop : D₀.Atop D) (h : D.Yields n (p :: ps) (p' :: ps') D₁ next next') :
    D₀.Yields n ps ps' D₁ (next.andThen p) (next'.andThen p') := by
  unfold Duet.Yields Duet.Onto Next.andThen at *
  rw [List.append_assoc, List.append_assoc]
  exact h.andThen fun D₂ v v' hD₂ later₂ hroots hroots' hv =>
    .unwound hg (hp v) (hp' v') hD₂ (later.trans later₂) (hatop.still ⟨hroots, hroots'⟩) hv

/-! ## 1. Choice, definition and assignment -/

variable (hn : Evals n)
include hn

theorem resumeBranch (hD : D.Sound) (henv : D.concord.Rel env env') (hargs : D.concord.Recast .exprs args args')
    (hv : D.concord.Rel v v') :
    Both D 0 (Machine.resumeBranch env args tail v) (Machine.resumeBranch env' args' tail' v')
      (D.Yields n ps ps') := by
  refine unlessFailing hD fun hgo => look (pure hD ?_)
  rw [← hv.kindred.isTruthy_eq]
  exact Duet.yields_eval hn hD hgo henv (Concord.Recast.nth hD (.refl _) hargs _)

theorem enterBranch (hD : D.Sound) (hgo : D.left.failing = false) (henv : D.concord.Rel env env')
    (hargs : D.concord.Recast .exprs args args') :
    Both D 0 (Machine.enterBranch env args tail) (Machine.enterBranch env' args' tail') (D.Yields n ps ps') := by
  have hcar := Concord.Recast.car (p := .exprs) hD (.refl _) trivial (.inr (.inl rfl)) hargs
  have hcdr := Concord.Recast.cdr (p := .exprs) hD (.refl _) trivial (.inl trivial) hargs
  rw [Machine.enterBranch, Machine.enterBranch]
  refine look (ite ?_ (fun _ => failYields hD _) fun _ => look ?_)
  · rw [Concord.Recast.isPair_eq (p := .exprs) trivial hcdr]
  · refine wait hn hD hgo henv hcar 0 fun D₁ v v' hD₁ later still hv => ?_
    exact (resumeBranch hn hD₁ (henv.mono later.le) (Concord.Recast.mono hargs later.le) hv).weaken le_rfl
      fun _ _ _ _ _ h => h.base later still

omit hn in
/-- A value for a name. -/
theorem resumeDefine {name name' : Value} (hD : D.Sound) (henv : D.concord.Rel env env')
    (hname : D.concord.Rel name name') (hv : D.concord.Rel v v') :
    Both D 2 (Machine.resumeDefine env name v) (Machine.resumeDefine env' name' v') (D.Yields n ps ps') :=
  unlessFailing hD fun _ => (define hD henv hname hv).bind (m := 0) fun _ _ _ hD₁ later calm =>
    pure hD₁ (Duet.yields_give hD₁ later calm.toStill .nil)

omit hn in
/-- A function for a name. -/
theorem defineFunc {params params' body body' name name' : Value} (hD : D.Sound) (henv : D.concord.Rel env env')
    (hname : D.concord.Rel name name') (hparams : D.concord.Recast .params params params')
    (hbody : D.concord.Recast .exprs body body') :
    Both D 7 (do let f ← Context.func env params body name; Context.define env name f; Pure.pure (Next.give .nil))
      (do let f ← Context.func env' params' body' name'; Context.define env' name' f; Pure.pure (Next.give .nil))
      (D.Yields n ps ps') :=
  (func hD ⟨henv, hparams, hbody, hname⟩).bind (m := 2) fun _ _ _ hD₁ later hq =>
    (define hD₁ (henv.mono later.le) (hname.mono later.le) hq.1).bind (m := 0) fun _ _ _ hD₂ later' calm =>
      pure hD₂ (Duet.yields_give hD₂ (later.trans later') (hq.2.trans calm.toStill) .nil)

theorem enterDefine (hD : D.Sound) (hgo : D.left.failing = false) (henv : D.concord.Rel env env')
    (hargs : D.concord.Recast .headed args args') :
    Both D 7 (Machine.enterDefine env args) (Machine.enterDefine env' args') (D.Yields n ps ps') := by
  have hsimilar := Concord.Recast.similar_params hD
  have htarget := Concord.Recast.car (p := .headed) hD (.refl _) trivial (.inl trivial) hargs
  have hbody := Concord.Recast.cdr (p := .headed) hD (.refl _) trivial (.inl trivial) hargs
  have hname := (Concord.Recast.car (p := .params) hD (.refl _) trivial (.inr (.inr rfl)) htarget).rel
  have hparams := Concord.Recast.cdr (p := .params) hD (.refl _) trivial (.inl trivial) htarget
  rw [Machine.enterDefine, Machine.enterDefine]
  refine ite ?_ (fun _ => failYields hD _) fun _ => look (look (ite ?_ (fun hsym => look ?_) fun _ => ite ?_
    (fun _ => look (look (ite ?_ (fun _ => failYields hD _) fun _ => look ?_))) fun _ => failYields hD _))
  · rw [Concord.Recast.isPair_eq (p := .headed) trivial hargs]
  · rw [htarget.isSym_eq (p := .params) trivial]
  · -- A symbol for itself.
    have hrel := htarget.rel_of_isSym (p := .params) trivial hsym
    refine (wait hn hD hgo henv (Concord.Recast.nth hD (.refl _) hbody 0) 2 fun D₁ v v' hD₁ later still hv => ?_).mono
      (Nat.zero_le 7)
    exact (resumeDefine hD₁ (henv.mono later.le) (hrel.mono later.le) hv).weaken le_rfl
      fun _ _ _ _ _ h => h.base later still
  · rw [hname.kindred.isSym_eq]
  · rw [hsimilar.isParameterList_eq (.inr hparams)]
  · exact defineFunc hD henv hname hparams hbody

omit hn in
theorem enterLambda (hD : D.Sound) (henv : D.concord.Rel env env') (hargs : D.concord.Recast .headed args args') :
    Both D 5 (Machine.enterLambda env args) (Machine.enterLambda env' args') (D.Yields n ps ps') := by
  have hparams := Concord.Recast.car (p := .headed) hD (.refl _) trivial (.inl trivial) hargs
  have hbody := Concord.Recast.cdr (p := .headed) hD (.refl _) trivial (.inl trivial) hargs
  rw [Machine.enterLambda, Machine.enterLambda]
  refine look (look (ite ?_ (fun _ => failYields hD _) fun _ => look ?_))
  · rw [Concord.Recast.isPair_eq (p := .headed) trivial hargs,
      (Concord.Recast.similar_params hD).isParameterList_eq (.inr hparams)]
  · exact (func hD ⟨henv, hparams, hbody, .nil⟩).bind (m := 0) fun _ _ _ hD₁ later hq =>
      pure hD₁ (Duet.yields_give hD₁ later hq.2 hq.1)

omit hn in
/-- Another value for a name. -/
theorem resumeAssign {name name' : Value} (hD : D.Sound) (henv : D.concord.Rel env env')
    (hname : D.concord.Rel name name') (hv : D.concord.Rel v v') :
    Both D 0 (Machine.resumeAssign env name v) (Machine.resumeAssign env' name' v') (D.Yields n ps ps') :=
  unlessFailing hD fun _ => (assign hD henv hname hv).bind (m := 0) fun _ _ _ hD₁ later hq =>
    pure hD₁ (Duet.yields_give hD₁ later hq.2 hq.1)

theorem enterAssignment (hD : D.Sound) (hgo : D.left.failing = false) (henv : D.concord.Rel env env')
    (hargs : D.concord.Recast .headed args args') :
    Both D 0 (Machine.enterAssignment env args) (Machine.enterAssignment env' args') (D.Yields n ps ps') := by
  have hsimilar := Concord.Recast.similar_params hD
  have hname := Concord.Recast.car (p := .headed) hD (.refl _) trivial (.inl trivial) hargs
  have hrest := Concord.Recast.cdr (p := .headed) hD (.refl _) trivial (.inl trivial) hargs
  rw [Machine.enterAssignment, Machine.enterAssignment]
  refine look (ite ?_ (fun _ => failYields hD _) fun hsym => look ?_)
  · rw [hname.isSym_eq (p := .params) trivial]
  · have hrel := hname.rel_of_isSym (p := .params) trivial (by simpa using hsym)
    refine wait hn hD hgo henv (Concord.Recast.nth hD (.refl _) hrest 0) 0 fun D₁ v v' hD₁ later still hv => ?_
    exact (resumeAssign hD₁ (henv.mono later.le) (hrel.mono later.le) hv).weaken le_rfl
      fun _ _ _ _ _ h => h.base later still

/-! ## 2. Local bindings -/

/-- **Local bindings are made in frames that correspond**, and the bodies follow. The induction is on the
    bindings. -/
theorem enterBindings {K : Concord} {bindings bindings' frame frame' : Value}
    (hargs : K.Recast .binder args args') (hbindings : K.Recast .bindings bindings bindings') (hD : D.Sound)
    (hgo : D.left.failing = false) (le : K.Le D.concord) (henv : D.concord.Rel env env')
    (hframe : D.concord.Rel frame frame') :
    Both D 0 (Machine.enterBindings env frame args bindings tail)
      (Machine.enterBindings env' frame' args' bindings' tail') (D.Yields n ps ps') := by
  refine LispMachine.Recast.list_induction (p := .bindings) (motive := fun bindings bindings' => ∀ D : Duet, D.Sound →
    D.left.failing = false → K.Le D.concord → D.concord.Rel env env' → D.concord.Rel frame frame' →
    Both D 0 (Machine.enterBindings env frame args bindings tail)
      (Machine.enterBindings env' frame' args' bindings' tail') (D.Yields n ps ps')) trivial rfl
    (fun bindings bindings' hlone hrel D hD hgo le henv hframe => ?_)
    (fun bindings b rest bindings' b' rest' hpair hpair' first _ ih D hD hgo le henv hframe => ?_)
    hbindings D hD hgo le henv hframe
  · have hpair : bindings.isPair = false := hlone
    have hpair' : bindings'.isPair = false := (hrel.kindred.isPair_eq).symm.trans hlone
    have hbody := Concord.Recast.cdr (p := .binder) hD le trivial (.inl trivial) hargs
    rw [Machine.enterBindings, Machine.enterBindings, hpair, hpair']
    refine look ?_
    rw [Row.enterSequence_eq, Row.enterSequence_eq]
    exact row hn (.sequence frame tail) (.sequence frame' tail') rfl hbody hD hgo le hframe .nil
      fun D₁ u u' hD₁ later still hu => pure hD₁ (Duet.yields_give hD₁ later still hu)
  · obtain ⟨hp, hp', hcar, -, hcar', -⟩ := Concord.Recast.car_cdr hD le hpair hpair'
    have first : K.Recast .headed b b' := first
    have hgo : ∀ {name name' expr expr' : Value}, K.Recast .params name name' → K.Recast .expr expr expr' →
        Both D 0
          (if (!name.isSym) = true then Context.failNext "let: Invalid binding"
            else Pure.pure (Next.eval env expr false (.binding env frame args bindings name tail)))
          (if (!name'.isSym) = true then Context.failNext "let: Invalid binding"
            else Pure.pure (Next.eval env' expr' false (.binding env' frame' args' bindings' name' tail')))
          (D.Yields n ps ps') := fun {name name' expr expr'} hname hexpr => by
      refine ite (by rw [hname.isSym_eq (p := .params) trivial]) (fun _ => failYields hD _) fun hsym => ?_
      have hrel := Concord.Rel.mono (hname.rel_of_isSym (p := .params) trivial (by simpa using hsym)) le
      refine wait hn hD hgo henv (Concord.Recast.mono hexpr le) 2 fun D₁ v v' hD₁ later still hv => ?_
      have le₁ := le.trans later.le
      refine unlessFailing hD₁ (fun hgo₁ => (define hD₁ (hframe.mono later.le) (hrel.mono later.le) hv).bind (m := 0)
        fun D₂ _ _ hD₂ later₂ calm₂ => look ?_) |>.weaken le_rfl fun _ _ _ _ _ h => h.base later still
      have le₂ := le₁.trans later₂.le
      obtain ⟨-, -, -, hcdr, -, hcdr'⟩ := Concord.Recast.car_cdr hD₂ le₂ hpair hpair'
      have later' := later.trans later₂
      rw [hcdr, hcdr']
      exact (ih D₂ hD₂ (calm₂.failing.trans hgo₁) le₂ (henv.mono later'.le) (hframe.mono later'.le)).weaken le_rfl
        fun _ _ _ _ _ h => h.base later₂ calm₂.toStill
    rw [Machine.enterBindings, Machine.enterBindings, if_pos hp, if_pos hp']
    refine look ?_
    rw [hcar, hcar']
    refine ite (by rw [first.isSym_eq (p := .headed) trivial]) (fun hsym => ?_) fun _ => look ?_
    · exact hgo (.atom (.inl trivial) (Value.isPair_of_isSym hsym) (first.rel_of_isSym (p := .headed) trivial hsym))
        (.atom (.inr rfl) rfl .nil)
    · have hexprs := Concord.Recast.cdr (p := .headed) hD le trivial (.inl trivial) first
      exact hgo (Concord.Recast.car (p := .headed) hD le trivial (.inl trivial) first)
        (Concord.Recast.nth hD le hexprs 0)

/-- **A form with local bindings.** -/
theorem enterLet (hD : D.Sound) (hgo : D.left.failing = false) (henv : D.concord.Rel env env')
    (hargs : D.concord.Recast .binder args args') :
    Both D 1 (Machine.enterLet env args tail) (Machine.enterLet env' args' tail') (D.Yields n ps ps') := by
  rw [Machine.enterLet, Machine.enterLet]
  refine ite (by rw [hargs.isPair_eq (p := .binder) trivial]) (fun _ => failYields hD _) fun _ => ?_
  refine rootBase ((cons hD henv .nil).bind (m := 0) fun D₁ frame frame' hD₁ later₁ hq => ?_)
  obtain ⟨a, b, rfl, rfl, hlink, calm₁⟩ := hq
  have hD₂ : (D₁.withRoots (D₁.left.heap.roots.push (.pair a)) (D₁.right.heap.roots.push (.pair b))).Sound :=
    hD₁.withRoots
  have hatop := ((Duet.Atop.refl D).still calm₁.toStill).push (.pair a) (.pair b)
  refine pushRoot _ _ (look ?_)
  have hkept := Concord.Recast.car (p := .binder) hD₂ later₁.le trivial (.inl trivial) hargs
  refine (enterBindings hn hargs hkept hD₂ (calm₁.failing.trans hgo) later₁.le (henv.mono later₁.le)
    (.pair hlink)).bind (m := 0) fun D₃ next next' hD₃ _ hnext =>
      pure hD₃ (unwinding (g := id) (fun c => ⟨_, _, _, rfl⟩) (fun _ => rfl) (fun _ => rfl)
        later₁.withRoots hatop hnext)

/-! ## 3. All of them -/

/-- **A special form does the same on both sides.** -/
theorem standardForm (f : StandardForm) (hD : D.Sound) (hgo : D.left.failing = false) (henv : D.concord.Rel env env')
    (hargs : D.concord.Recast (.operands f) args args') :
    Both D 7 (f.enter env args tail) (f.enter env' args' tail') (D.Yields n ps ps') := by
  have hrow : ∀ (row row' : Row) {v v' : Value}, row.mode = row'.mode → D.concord.Rel row.env row'.env →
      D.concord.Recast .exprs args args' → D.concord.Rel v v' → (∀ u, row.close u = Pure.pure (.give u)) →
      (∀ u, row'.close u = Pure.pure (.give u)) →
      Both D 0 (row.enter args v) (row'.enter args' v') (D.Yields n ps ps') :=
    fun first second _ _ hmode henv hforms hv hclose hclose' =>
      row hn first second hmode hforms hD hgo (.refl _) henv hv fun D₁ u u' hD₁ later still hu => by
        rw [hclose, hclose']
        exact pure hD₁ (Duet.yields_give hD₁ later still hu)
  cases f with
  | quote =>
    refine mono (look (pure hD ?_)) (Nat.zero_le 7)
    exact Duet.yields_give hD (.refl D) (.refl D) (hD.similar.car hargs.rel)
  | branch => exact (enterBranch hn hD hgo henv hargs).mono (Nat.zero_le 7)
  | define => exact enterDefine hn hD hgo henv hargs
  | lambda => exact (enterLambda hD henv hargs).mono (by decide)
  | sequence =>
    exact (hrow (.sequence env tail) (.sequence env' tail') rfl henv hargs .nil
      (fun _ => rfl) fun _ => rfl).mono (Nat.zero_le 7)
  | conjunction =>
    refine (ofBool rfl hD fun v v' hv => ?_).mono (Nat.zero_le 7)
    exact hrow (.conjunction env tail) (.conjunction env' tail') rfl henv hargs hv
      (fun _ => rfl) fun _ => rfl
  | disjunction =>
    exact (hrow (.disjunction env tail) (.disjunction env' tail') rfl henv hargs .nil
      (fun _ => rfl) fun _ => rfl).mono (Nat.zero_le 7)
  | binding => exact (enterLet hn hD hgo henv hargs).mono (by decide)
  | assignment => exact (enterAssignment hn hD hgo henv hargs).mono (Nat.zero_le 7)

end Both

end LispMachine
