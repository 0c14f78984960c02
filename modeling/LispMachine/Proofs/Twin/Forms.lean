import LispMachine.Proofs.Twin.Natives

/-!
# The special forms, on both sides

What a form waits with is kept where the form has it from: its environment and its operands are rooted
while the pair is evaluated, and operands are source text, which is never written.

* `Leads.enterFirst` -- sequences, conjunctions and disjunctions evaluate the first of some forms;
* `Leads.enterDefine`, `Leads.enterLambda` -- a function holds its parameters and its body as they
  stand in the text;
* `Leads.enterBindings` -- the new frame of a `let` stays rooted until the form is left;
* `Leads.standardForm` -- **a special form does the same on both sides**.
-/

namespace LispMachine

open World

namespace Leads

variable {lex : Lexicon} {γ : Value × Value} {D : Couple} {S : Shape → Prop} {n : Nat} {ρ : Role}
variable {s : Shape} {env env' args args' forms forms' name name' v v' : Value} {tail : Bool}

/-! ## 1. Sequences -/

/-- What is done whether or not the text is in tail position. -/
theorem untailed {x x' : Run Next} (h : Steps lex S n D x x' (Proceeds lex n γ (.just .data))) :
    Steps lex S n D x x' (ProceedsFrom lex n γ tail ρ v v') :=
  relax h (fun _ => id) (Nat.le_refl n) fun _ _ hq => .of_proceeds hq

/-- The first of some forms is evaluated while one more step waits, which hands the value of the last
    one on; without any, a value is handed back. -/
theorem enterFirst {p p' : Pending} (hD : D.Matched lex γ) (hn : n ≤ D.height)
    (henv : D.world.Rel (.just .frame) env env') (hforms : D.world.Rel (.just .exprs) forms forms')
    (hv : D.world.Rel (.just .data) v v')
    (hp : ∀ {ps ps'}, Waiting lex D n γ (.just .data) ps ps' →
      TailFrom D n (lex.nested && tail) ps ps' (.just .exprs) forms forms' →
      Waiting lex D n γ (.just .data) (p :: ps) (p' :: ps'))
    (hlast : ∀ {b ps ps'}, LastForm D b forms forms' → Returning D b D.height ps ps' →
      Returning D b D.height (p :: ps) (p' :: ps')) :
    Steps lex S n D
      (if forms.isPair then do
          let h ← Context.look (fun h => (h.car forms, !(h.cdr forms).isPair))
          Pure.pure (Next.eval env h.1 (tail && h.2) p)
        else Pure.pure (Next.give v))
      (if forms'.isPair then do
          let h ← Context.look (fun h => (h.car forms', !(h.cdr forms').isPair))
          Pure.pure (Next.eval env' h.1 (tail && h.2) p')
        else Pure.pure (Next.give v'))
      (ProceedsFrom lex n γ tail (.just .exprs) forms forms') := by
  have hend : (tail && !(D.right.heap.cdr forms').isPair) = (tail && !(D.left.heap.cdr forms).isPair) :=
    congrArg (tail && !·) (hD.coherent.cdr hforms).same.isPair_eq.symm
  refine ite (by rw [hforms.same.isPair_eq]) (fun _ => look ?_) fun _ => untailed (give hD hn hv)
  refine pure hD hn fun ps ps' hw ht => .task hn ?_ (hp hw ht)
  refine .eval_last hend henv (hD.coherent.car hforms) fun htail => ?_
  exact ht.lastForm hn hD (Bool.and_assoc _ _ _ ▸ htail) hlast

theorem enterSequence (hD : D.Matched lex γ) (hn : n ≤ D.height)
    (henv : D.Kept n (.just .frame) env env')
    (hforms : D.Kept n (.just .exprs) forms forms')
    (hv : D.world.Rel (.just .data) v v') :
    Steps lex S n D (Machine.enterSequence env forms tail v)
      (Machine.enterSequence env' forms' tail v')
      (ProceedsFrom lex n γ tail (.just .exprs) forms forms') :=
  enterFirst hD hn henv.rel hforms.rel hv (fun hw ht => .sequence henv hforms ht hw) .sequence

theorem enterConjunction (hD : D.Matched lex γ) (hn : n ≤ D.height)
    (henv : D.Kept n (.just .frame) env env') (hforms : D.Kept n (.just .exprs) forms forms')
    (hv : D.world.Rel (.just .data) v v') :
    Steps lex S n D (Machine.enterConjunction env forms tail v)
      (Machine.enterConjunction env' forms' tail v')
      (ProceedsFrom lex n γ tail (.just .exprs) forms forms') :=
  enterFirst hD hn henv.rel hforms.rel hv (fun hw ht => .conjunction henv hforms ht hw) .conjunction

theorem enterDisjunction (hD : D.Matched lex γ) (hn : n ≤ D.height)
    (henv : D.Kept n (.just .frame) env env') (hforms : D.Kept n (.just .exprs) forms forms') :
    Steps lex S n D (Machine.enterDisjunction env forms tail)
      (Machine.enterDisjunction env' forms' tail)
      (ProceedsFrom lex n γ tail (.just .exprs) forms forms') :=
  enterFirst hD hn henv.rel hforms.rel .nil (fun hw ht => .disjunction henv hforms ht hw) .disjunction

/-- While failing, a form that has waited hands nil back. -/
theorem unlessFailing {x x' : Run Next} {P : Value × Value → Couple → Next → Next → Prop}
    (hD : D.Matched lex γ) (hn : n ≤ D.height) (hnil : P γ D (.give .nil) (.give .nil))
    (hx : Steps lex S n D x x' P) :
    Steps lex S n D (Context.isFailing >>= fun b => if b = true then Pure.pure (Next.give .nil) else x)
      (Context.isFailing >>= fun b => if b = true then Pure.pure (Next.give .nil) else x') P :=
  isFailing hD (ite Iff.rfl (fun _ => pure hD hn hnil) fun _ => hx)

/-- What is done with the forms that are left. -/
theorem onRest {x x' : Run Next} (hD : D.Matched lex γ) (hs : s.Fixed)
    (hforms : D.Kept n (.just s) forms forms')
    (h : Steps lex Shape.Fixed n D x x' (ProceedsFrom lex n γ tail (.just s.rest)
      (D.left.heap.cdr forms) (D.right.heap.cdr forms'))) :
    Steps lex Shape.Fixed n D x x' (ProceedsFrom lex n γ tail (.just s) forms forms') :=
  relax h (fun _ => id) (Nat.le_refl n) fun hD' ho hq ps ps' hw ht =>
    hq ps ps' hw (ht.rest hD hD' ho hforms hs)

theorem resumeSequence (hD : D.Matched lex γ) (hn : n ≤ D.height)
    (henv : D.Kept n (.just .frame) env env') (hforms : D.Kept n (.just .exprs) forms forms')
    (hv : D.world.Rel (.just .data) v v') :
    Steps lex Shape.Fixed n D (Machine.resumeSequence env forms tail v)
      (Machine.resumeSequence env' forms' tail v')
      (ProceedsFrom lex n γ tail (.just .exprs) forms forms') :=
  unlessFailing hD hn (.of_proceeds (.give hn .nil)) (look (onRest hD rfl hforms
    (enterSequence hD hn henv (hforms.cdr hD.coherent rfl) hv)))

theorem resumeConjunction (hD : D.Matched lex γ) (hn : n ≤ D.height)
    (henv : D.Kept n (.just .frame) env env') (hforms : D.Kept n (.just .exprs) forms forms')
    (hv : D.world.Rel (.just .data) v v') :
    Steps lex Shape.Fixed n D (Machine.resumeConjunction env forms tail v)
      (Machine.resumeConjunction env' forms' tail v')
      (ProceedsFrom lex n γ tail (.just .exprs) forms forms') := by
  rw [Machine.resumeConjunction, Machine.resumeConjunction]
  refine isFailing hD (ite (by rw [hv.same.isNil_eq]) (fun _ => untailed (give hD hn .nil)) fun _ => ?_)
  exact look (onRest hD rfl hforms (enterConjunction hD hn henv (hforms.cdr hD.coherent rfl) hv))

theorem resumeDisjunction (hD : D.Matched lex γ) (hn : n ≤ D.height)
    (henv : D.Kept n (.just .frame) env env') (hforms : D.Kept n (.just .exprs) forms forms')
    (hv : D.world.Rel (.just .data) v v') :
    Steps lex Shape.Fixed n D (Machine.resumeDisjunction env forms tail v)
      (Machine.resumeDisjunction env' forms' tail v')
      (ProceedsFrom lex n γ tail (.just .exprs) forms forms') := by
  refine unlessFailing hD hn (.of_proceeds (.give hn .nil)) (ite (by rw [hv.same.isTruthy_eq])
    (fun _ => untailed (give hD hn hv)) fun _ => ?_)
  exact look (onRest hD rfl hforms (enterDisjunction hD hn henv (hforms.cdr hD.coherent rfl)))

/-! ## 2. Choice -/

theorem enterBranch (hD : D.Matched lex γ) (hn : n ≤ D.height)
    (henv : D.Kept n (.just .frame) env env') (hargs : D.Kept n (.just .exprs) args args') :
    Steps lex S n D (Machine.enterBranch env args tail) (Machine.enterBranch env' args' tail)
      (ProceedsFrom lex n γ tail (.just .exprs) args args') := by
  have hcdr := (hD.coherent.cdr hargs.rel).same.isPair_eq
  rw [Machine.enterBranch, Machine.enterBranch]
  refine look (ite (iff_of_eq (congrArg (fun b => (!b) = true) hcdr))
    (fun _ => untailed (failNext hD hn rfl)) fun _ => look ?_)
  exact pure hD hn fun _ _ hw ht => .task hn (.eval_inner henv.rel (hD.coherent.car hargs.rel))
    (.branch henv hargs ht hw)

theorem resumeBranch (hD : D.Matched lex γ) (hn : n ≤ D.height)
    (henv : D.Kept n (.just .frame) env env') (hargs : D.Kept n (.just .exprs) args args')
    (hv : D.world.Same v v') :
    Steps lex S n D (Machine.resumeBranch env args tail v)
      (Machine.resumeBranch env' args' tail v')
      (ProceedsFrom lex n γ tail (.just .exprs) args args') := by
  refine unlessFailing hD hn (.of_proceeds (.give hn .nil)) (look ?_)
  rw [hv.isTruthy_eq]
  have hbranch := hD.coherent.nth rfl hargs.rel (if v'.isTruthy = true then 1 else 2)
  exact pure hD hn fun _ _ hw ht => .task hn
    (.eval henv.rel hbranch fun h => (ht.nth hD _).inTail hn h) hw

/-! ## 3. Definition and assignment -/

theorem defineNil (hD : D.Matched lex γ) (hn : n ≤ D.height)
    (henv : D.world.Rel (.just .frame) env env') (hname : D.world.Rel (.just .inert) name name')
    (hv : D.world.Rel (.just .data) v v') :
    Steps lex Shape.Fixed n D
      (Context.define env name v >>= fun _ => Pure.pure (Next.give .nil))
      (Context.define env' name' v' >>= fun _ => Pure.pure (Next.give .nil))
      (Proceeds lex n γ (.just .data)) :=
  bind hD (define hD hn henv hname hv nofun nofun) (Nat.le_refl n) fun hD₁ ho₁ _ =>
    give hD₁ ho₁.heaps.height .nil

/-- The text of a definition is its head, a name or a list of names, and what follows. -/
theorem enterDefine (hD : D.Matched lex γ) (hn : n ≤ D.height)
    (henv : D.Kept n (.just .frame) env env') (hargs : D.Kept n (.just .headed) args args') :
    Steps lex Shape.Fixed n D (Machine.enterDefine env args) (Machine.enterDefine env' args')
      (Proceeds lex n γ (.just .data)) := by
  have hT := hD.coherent
  have htarget : D.Kept n (.just .inert) _ _ := hargs.car hT rfl
  have hname : D.Kept n (.just .inert) _ _ := htarget.car hT rfl
  have hparams : D.Kept n (.just .inert) _ _ := htarget.cdr hT rfl
  have hbody : D.Kept n (.just .exprs) _ _ := hargs.cdr hT rfl
  rw [Machine.enterDefine, Machine.enterDefine]
  refine ite (by rw [hargs.rel.same.isPair_eq]) (fun _ => failNext hD hn rfl) fun _ =>
    look (look (ite ?_ (fun _ => look ?_) fun _ => ite ?_ (fun _ => ?_) fun _ => ?_))
  · exact iff_of_eq (congrArg (· = true) htarget.rel.same.isSym_eq)
  · exact pure hD hn (.eval hn henv.rel (hT.car hbody.rel) fun _ _ hw => .define henv htarget hw)
  · exact iff_of_eq (congrArg (· = true) hname.rel.same.isSym_eq)
  · refine look (look (ite ?_ (fun _ => failNext hD hn rfl) fun _ => look ?_))
    · exact iff_of_eq (congrArg (fun b => (!b) = true) (hT.isParameterList_eq hparams.rel.same))
    · refine bind hD (func hD hn henv.rel hparams.rel hbody.rel hname.rel) (Nat.le_refl n)
        fun hD₁ ho₁ hq => ?_
      have henv₁ := ho₁.rooted hD hD₁ henv (Nat.le_refl n)
      have hname₁ := ho₁.rooted hD hD₁ hname (Nat.le_refl n)
      exact defineNil hD₁ ho₁.heaps.height henv₁.rel hname₁.rel hq.2
  · exact failNext hD hn rfl

theorem resumeDefine (hD : D.Matched lex γ) (hn : n ≤ D.height)
    (henv : D.world.Rel (.just .frame) env env') (hname : D.world.Rel (.just .inert) name name')
    (hv : D.world.Rel (.just .data) v v') :
    Steps lex Shape.Fixed n D (Machine.resumeDefine env name v) (Machine.resumeDefine env' name' v')
      (Proceeds lex n γ (.just .data)) :=
  unlessFailing hD hn (.give hn .nil) (defineNil hD hn henv hname hv)

theorem enterLambda (hD : D.Matched lex γ) (hn : n ≤ D.height)
    (henv : D.world.Rel (.just .frame) env env') (hargs : D.world.Rel (.just .headed) args args') :
    Steps lex S n D (Machine.enterLambda env args) (Machine.enterLambda env' args')
      (Proceeds lex n γ (.just .data)) := by
  have hT := hD.coherent
  have hparams := hT.car hargs
  rw [Machine.enterLambda, Machine.enterLambda]
  refine look (look (ite ?_ (fun _ => failNext hD hn rfl) fun _ => look ?_))
  · have hvalid := hT.isParameterList_eq hparams.same
    exact iff_of_eq (congrArg₂ (fun b c => (!b || !c) = true) hargs.same.isPair_eq hvalid)
  · exact bind hD (func hD hn henv hparams (hT.cdr hargs) .nil) (Nat.le_refl n) fun hD₁ ho₁ hq =>
      give hD₁ ho₁.heaps.height hq.2

theorem enterAssignment (hD : D.Matched lex γ) (hn : n ≤ D.height)
    (henv : D.Kept n (.just .frame) env env') (hargs : D.Kept n (.just .headed) args args') :
    Steps lex S n D (Machine.enterAssignment env args) (Machine.enterAssignment env' args')
      (Proceeds lex n γ (.just .data)) := by
  have hT := hD.coherent
  have hname : D.Kept n (.just .inert) _ _ := hargs.car hT rfl
  have hrest := hT.cdr hargs.rel
  rw [Machine.enterAssignment, Machine.enterAssignment]
  refine look (ite ?_ (fun _ => failNext hD hn rfl) fun _ => look ?_)
  · exact iff_of_eq (congrArg (fun b => (!b) = true) hname.rel.same.isSym_eq)
  · exact pure hD hn (.eval hn henv.rel (hT.car hrest) fun _ _ hw => .assign henv hname hw)

theorem resumeAssign (hD : D.Matched lex γ) (hn : n ≤ D.height)
    (henv : D.world.Rel (.just .frame) env env') (hname : D.world.Same name name')
    (hv : D.world.Rel (.just .data) v v') :
    Steps lex Shape.Fixed n D (Machine.resumeAssign env name v) (Machine.resumeAssign env' name' v')
      (Proceeds lex n γ (.just .data)) := by
  refine unlessFailing hD hn (.give hn .nil) ?_
  exact bind hD (assign hD hn henv hname hv nofun) (Nat.le_refl n) fun hD₁ ho₁ hq =>
    give hD₁ ho₁.heaps.height hq

/-! ## 4. Local bindings -/

/-- **The bindings of a `let`**, from one of them on. -/
theorem enterBindings {frame frame' bindings bindings' : Value} (hD : D.Matched lex γ)
    (hn : n ≤ D.height) (henv : D.Kept n (.just .frame) env env')
    (hframe : D.Kept n (.just .frame) frame frame') (hargs : D.Kept n (.just .letArgs) args args')
    (hbindings : D.Kept n (.just .letBindings) bindings bindings') :
    Steps lex Shape.Fixed n D (Machine.enterBindings env frame args bindings tail)
      (Machine.enterBindings env' frame' args' bindings' tail)
      (ProceedsFrom lex n γ tail (.just .letArgs) args args') := by
  have hT := hD.coherent
  have hb : D.Kept n (.just .headed) _ _ := hbindings.car hT rfl
  have hone : ∀ {name name' expr expr' : Value}, D.Kept n (.just .inert) name name' →
      D.world.Rel .code expr expr' →
      Steps lex Shape.Fixed n D
        (if (!name.isSym) = true then Context.failNext "let: Invalid binding"
          else Pure.pure (Next.eval env expr false (.binding env frame args bindings name tail)))
        (if (!name'.isSym) = true then Context.failNext "let: Invalid binding"
          else Pure.pure
            (Next.eval env' expr' false (.binding env' frame' args' bindings' name' tail)))
        (ProceedsFrom lex n γ tail (.just .letArgs) args args') := fun hname hexpr => by
    refine ite (by rw [hname.rel.same.isSym_eq]) (fun _ => untailed (failNext hD hn rfl)) fun _ => ?_
    exact pure hD hn fun _ _ hw ht => .task hn (.eval_inner henv.rel hexpr)
      (.binding henv hframe hargs hbindings hname ht hw)
  rw [Machine.enterBindings, Machine.enterBindings]
  refine ite (by rw [hbindings.rel.same.isPair_eq]) (fun _ => look (ite ?_ (fun hsym => ?_)
    fun _ => look ?_)) fun _ => look ?_
  · exact iff_of_eq (congrArg (· = true) hb.rel.same.isSym_eq)
  · -- a lone name is bound to nil
    exact hone ⟨hb.rel.of_not_pair (Value.isPair_of_isSym hsym), hb.held⟩ .nil
  · exact hone (hb.car hT rfl) (hT.car (hT.cdr hb.rel))
  · exact onRest hD rfl hargs (enterSequence hD hn hframe (hargs.cdr hT rfl) .nil)

theorem resumeBinding {frame frame' bindings bindings' : Value} (hD : D.Matched lex γ)
    (hn : n ≤ D.height) (henv : D.Kept n (.just .frame) env env')
    (hframe : D.Kept n (.just .frame) frame frame') (hargs : D.Kept n (.just .letArgs) args args')
    (hbindings : D.Kept n (.just .letBindings) bindings bindings')
    (hname : D.world.Rel (.just .inert) name name') (hv : D.world.Rel (.just .data) v v') :
    Steps lex Shape.Fixed n D (Machine.resumeBinding env frame args bindings name tail v)
      (Machine.resumeBinding env' frame' args' bindings' name' tail v')
      (ProceedsFrom lex n γ tail (.just .letArgs) args args') := by
  refine unlessFailing hD hn (.of_proceeds (.give hn .nil)) ?_
  refine bind hD (define hD hn hframe.rel hname hv nofun nofun) (Nat.le_refl n)
    fun {D₁ _ _} hD₁ ho₁ _ => look ?_
  have kept : ∀ {ρ v v'}, D.Kept n ρ v v' → D₁.Kept n ρ v v' := fun h =>
    ho₁.rooted hD hD₁ h (Nat.le_refl n)
  exact enterBindings hD₁ ho₁.heaps.height (kept henv) (kept hframe) (kept hargs)
    ((kept hbindings).cdr hD₁.coherent rfl)

/-- **A `let`**: the new frame is rooted above the slots that keep the environment. -/
theorem enterLet (hD : D.Matched lex γ) (hn : n ≤ D.height)
    (henv : D.Kept n (.just .frame) env env') (hargs : D.Kept n (.just .letArgs) args args') :
    Steps lex Shape.Fixed n D (Machine.enterLet env args tail) (Machine.enterLet env' args' tail)
      (ProceedsFrom lex n γ tail (.just .letArgs) args args') := by
  rw [Machine.enterLet, Machine.enterLet]
  refine ite (by rw [hargs.rel.same.isPair_eq]) (fun _ => untailed (failNext hD hn rfl)) fun _ => ?_
  refine rootBase hD ?_
  refine bind hD (newFrame hD (Nat.le_refl _) henv.rel) hn fun {D₁ _ _} hD₁ ho₁ hq => ?_
  obtain ⟨hheight, hframe, -⟩ := hq
  have hslot₁ := ho₁.top
  rw [← hheight] at hn ho₁ hslot₁ ⊢
  have henv₁ := ho₁.rooted hD hD₁ (henv.lift hn) (Nat.le_refl _)
  have hargs₁ := ho₁.rooted hD hD₁ (hargs.lift hn) (Nat.le_refl _)
  refine bind hD₁ (pushRoot hD₁ (Nat.le_refl _) hframe.slot) hn fun {D₂ _ _} hD₂ ho₂ hq => ?_
  obtain ⟨hD₂eq, -, -⟩ := hq
  have hframe₂ : D₂.Kept (D₁.height + 1) (.just .frame) _ _ :=
    hD₂eq ▸ Couple.rooted_pushed hD₁ hframe
  have hheight₂ : D₂.height = D₁.height + 1 := hD₂eq ▸ D₁.height_pushed _ _
  have henv₂ := (ho₂.rooted hD₁ hD₂ henv₁ (Nat.le_refl _)).lift (Nat.le_succ _)
  have hargs₂ := (ho₂.rooted hD₁ hD₂ hargs₁ (Nat.le_refl _)).lift (Nat.le_succ _)
  refine look (andThen hD₂ (enterBindings hD₂ (Nat.le_of_eq hheight₂.symm) henv₂ hframe₂ hargs₂
    (hargs₂.car hD₂.coherent rfl)) (Nat.le_succ_of_le hn) fun {γ₃ D₃ _ _} hD₃ ho₃ hq => ?_)
  have hslot₃ : D₃.slot D₁.height = D.slot D₁.height :=
    (ho₃.slot_eq (Nat.le_succ _)).trans (ho₂.top.trans hslot₁)
  refine pure hD₃ (Nat.le_trans (Nat.le_succ_of_le hn) ho₃.heaps.height) fun ps ps' hw ht => ?_
  refine .andThen (hq _ _ (.release (Nat.lt_succ_self _) hslot₃.symm (hw.mono hn)) ?_)
  exact .release fun htail => ht.inTail hn htail

/-! ## 5. All of them -/

/-- **A special form does the same on both sides**, to operands as its text has them. -/
theorem standardForm (form : StandardForm) (hD : D.Matched lex γ) (hn : n ≤ D.height)
    (henv : D.Kept n (.just .frame) env env') (hargs : D.Kept n (.just form.operands) args args') :
    Steps lex Shape.Fixed n D (form.enter env args tail) (form.enter env' args' tail)
      (ProceedsFrom lex n γ tail (.just form.operands) args args') := by
  cases form with
  | quote => exact untailed (look (give hD hn (hD.coherent.car hargs.rel)))
  | branch => exact enterBranch hD hn henv hargs
  | define => exact untailed (enterDefine hD hn henv hargs)
  | lambda => exact untailed (enterLambda hD hn henv.rel hargs.rel)
  | sequence => exact enterSequence hD hn henv hargs .nil
  | conjunction =>
    exact ofBool hD rfl fun _ hu => enterConjunction hD hn henv hargs (.atom hu)
  | disjunction => exact enterDisjunction hD hn henv hargs
  | binding => exact enterLet hD hn henv hargs
  | assignment => exact untailed (enterAssignment hD hn henv hargs)

end Leads

end LispMachine
