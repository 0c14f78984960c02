import LispMachine.Proofs.Listener.Reading
import LispMachine.Proofs.Trampoline.Drive
import LispMachine.Session

/-!
# A source text, form by form

* `Machine.Takes`, `Machine.run_split` -- a run is a run of its task, which takes so many steps, and then
  one of the steps that wait; a run that has come to an end does so with more steps allowed, too
  (`Machine.run_stable`);
* `Machine.forms` -- what is left of a run of source text when its next form is to be read, and
  `Machine.Course`, **how it goes on** if nothing fails: the text ends there, or a form is read and
  evaluated, and its value is kept in the slot (`Machine.keep`);
* `Machine.isComplete_of_forms` -- **a text that is run without failure closes what it opens**.
-/

namespace LispMachine

open Context

variable {host : Host} {budget k n base : Nat} {task : Task} {ps qs : List Pending} {u v : Value}
variable {src rest : List Char} {form : Value} {echo : Bool} {c c' c₁ c₂ : Context}

namespace Machine

/-! ## 1. Runs in two parts -/

/-- A step in front of steps that wait is the same without them. -/
theorem advance_append (hgo : Unfinished task ps) (qs : List Pending) :
    advance host true task (ps ++ qs) =
      (do
        let next ← advance host true task ps
        pure { next with pending := next.pending ++ qs }) := by
  have happend : ∀ (x : Run Next) (ps : List Pending),
      (do
        let next ← x
        pure { next with pending := next.pending ++ (ps ++ qs) }) =
      (do
        let next ← x >>= fun next => pure { next with pending := next.pending ++ ps }
        pure { next with pending := next.pending ++ qs }) := fun x ps => by
    rw [bind_assoc]
    refine congrArg _ (funext fun next => ?_)
    rw [pure_bind, List.append_assoc]
  cases task with
  | give v =>
    cases ps with
    | nil => exact absurd rfl (hgo.elim (fun h => absurd rfl h) fun h => h v)
    | cons p ps => exact happend _ ps
  | eval env expr tail => exact happend _ ps
  | evalList env list => exact happend _ ps
  | apply func args => exact happend _ ps
  | exec source echo => exact happend _ ps

theorem Unfinished.append (hgo : Unfinished task ps) (qs : List Pending) :
    Unfinished task (ps ++ qs) :=
  hgo.imp (fun hne e => hne (List.append_eq_nil_iff.mp e).1) id

/-- **A run that has steps left** is the same with more steps allowed. -/
theorem run_stable (h : ∀ d, run host n task ps c ≠ .error .outOfSteps d) (hle : n ≤ budget) :
    run host budget task ps c = run host n task ps c := by
  simp only [← drive_true] at h ⊢
  induction n generalizing task ps c budget with
  | zero => exact absurd rfl (h c)
  | succ n ih =>
    obtain ⟨budget, rfl⟩ : ∃ k, budget = k + 1 := ⟨budget - 1, by omega⟩
    rcases unfinished_or task ps with hgo | ⟨u, rfl, rfl⟩
    · rw [drive_succ hgo] at h ⊢
      rw [drive_succ hgo]
      refine run_bind_congr fun next c₁ hstep => ih (Nat.le_of_succ_le_succ hle) fun d => ?_
      rw [← run_bind (f := fun next => drive host true n next.task next.pending) hstep]
      exact h d
    · rfl

/-- A run that has come to an end does so with more steps allowed. -/
theorem run_mono (h : run host n task ps c = .ok v c') (hle : n ≤ budget) :
    run host budget task ps c = .ok v c' := by
  refine (run_stable (fun d hout => ?_) hle).trans h
  rw [h] at hout
  cases hout

/-- **A task takes so many steps to come to a value**, whatever waits behind it. -/
def Takes (host : Host) (s : Nat) (task : Task) (ps : List Pending) (c : Context) (u : Value)
    (c₁ : Context) : Prop :=
  ∀ m qs, run host (s + m) task (ps ++ qs) c = run host m (.give u) qs c₁

/-- A task that comes to a value takes fewer steps than have been allowed. -/
theorem exists_takes (h : run host budget task ps c = .ok u c₁) :
    ∃ s < budget, Takes host s task ps c u c₁ := by
  induction budget generalizing task ps c with
  | zero => cases h
  | succ budget ih =>
    rcases unfinished_or task ps with hgo | ⟨w, rfl, rfl⟩
    · rw [← drive_true, drive_succ hgo] at h
      obtain ⟨next, c₂, hnext, hrest⟩ := bind_eq_ok.mp h
      rw [drive_true] at hrest
      obtain ⟨s, hlt, htakes⟩ := ih hrest
      refine ⟨s + 1, Nat.succ_lt_succ hlt, fun m qs => ?_⟩
      rw [Nat.add_right_comm, ← drive_true, drive_succ (hgo.append qs), advance_append hgo, bind_assoc,
        run_bind hnext, pure_bind, drive_true]
      exact htakes m qs
    · cases h
      exact ⟨0, Nat.succ_pos budget, fun m qs => congrArg (run host · _ _ _) (Nat.zero_add m)⟩

/-- It comes to no other value. -/
theorem Takes.eq {s : Nat} (h : Takes host s task [] c u c₁)
    (hrun : run host budget task [] c = .ok v c₂) : v = u ∧ c₂ = c₁ := by
  have hu : run host (s + 1) task [] c = .ok u c₁ := h 1 []
  have hmax := run_mono hu (Nat.le_max_left (s + 1) budget)
  rw [run_mono hrun (Nat.le_max_right (s + 1) budget)] at hmax
  cases hmax
  exact ⟨rfl, rfl⟩

/-- A task in front of steps that wait comes to a value if all of them do. -/
theorem exists_run_of_append (h : run host budget task (ps ++ qs) c = .ok v c') :
    ∃ n ≤ budget, ∃ u c₁, run host n task ps c = .ok u c₁ := by
  simp only [← drive_true] at h ⊢
  induction budget generalizing task ps c with
  | zero => cases h
  | succ budget ih =>
    rcases unfinished_or task ps with hgo | ⟨u, rfl, rfl⟩
    · rw [drive_succ (hgo.append qs), advance_append hgo] at h
      obtain ⟨next', c₁, hstep, hrest⟩ := bind_eq_ok.mp h
      obtain ⟨next, c₂, hnext, hpure⟩ := bind_eq_ok.mp hstep
      cases hpure
      obtain ⟨n, hle, u, c₃, hrun⟩ := ih hrest
      refine ⟨n + 1, Nat.succ_le_succ hle, u, c₃, ?_⟩
      rw [drive_succ hgo, run_bind hnext]
      exact hrun
    · exact ⟨1, Nat.le_add_left 1 budget, u, c, rfl⟩

/-- **A run of a task in front of steps that wait** is a run of the task, and then one of those. -/
theorem run_split (h : run host budget task (ps ++ qs) c = .ok v c') :
    ∃ s m u c₁, budget = s + m ∧ Takes host s task ps c u c₁ ∧
      run host m (.give u) qs c₁ = .ok v c' := by
  obtain ⟨n, hle, u, c₁, hrun⟩ := exists_run_of_append h
  obtain ⟨s, hlt, htakes⟩ := exists_takes hrun
  obtain ⟨m, rfl⟩ : ∃ m, budget = s + m := ⟨budget - s, by omega⟩
  exact ⟨s, m, u, c₁, rfl, htakes, htakes m qs ▸ h⟩

end Machine

/-! ## 2. The slot of a text -/

namespace Context

/-- No failure, and no function running. -/
def quiet (c : Context) : Context :=
  { c with failing := false, failure := "", current := .nil, looping := false }

/-- Another value in a root slot. -/
def slotted (c : Context) (slot : Nat) (v : Value) : Context :=
  { c with heap := { c.heap with roots := c.heap.roots.setIfInBounds slot v } }

/-- Fewer root slots. -/
def cut (c : Context) (base : Nat) : Context :=
  { c with heap := { c.heap with roots := c.heap.roots.shrink base } }

theorem reset_run (c : Context) : reset c = .ok ⟨⟩ c.quiet := rfl

theorem setRoot_run {slot : Nat} (h : slot < c.heap.roots.size) (v : Value) :
    (liftM (Heap.setRoot slot v) : Run Unit) c = .ok () (c.slotted slot v) := by
  show onHeap (Heap.setRoot slot v) c = _
  rw [onHeap, Heap.setRoot, if_pos h]
  rfl

theorem setRoot_error {slot : Nat} (h : ¬ slot < c.heap.roots.size) (v : Value) :
    (liftM (Heap.setRoot slot v) : Run Unit) c = .error (.noRootSlot slot) c := by
  show onHeap (Heap.setRoot slot v) c = _
  rw [onHeap, Heap.setRoot, if_neg h]

/-- What has been set was there to be set. -/
theorem lt_of_setRoot {slot : Nat} (h : (liftM (Heap.setRoot slot v) : Run Unit) c = .ok () c') :
    slot < c.heap.roots.size ∧ c' = c.slotted slot v := by
  by_cases hslot : slot < c.heap.roots.size
  · rw [setRoot_run hslot] at h
    cases h
    exact ⟨hslot, rfl⟩
  · rw [setRoot_error hslot] at h
    cases h

end Context

namespace Machine

/-- The value of the slot is handed back, and the slot is dropped. -/
theorem finishExec_run (h : c.heap.roots[base]? = some v) :
    finishExec base c = .ok (.give v) (c.cut base) := by
  have hroot : (liftM (Heap.root base) : Run Value) c = .ok v c := by
    show onHeap (Heap.root base) c = _
    rw [onHeap, Heap.root, h]
  have hpop : (liftM (Heap.popRoots base) : Run Unit) c = .ok () (c.cut base) := by
    show onHeap (Heap.popRoots base) c = _
    rw [onHeap, Heap.popRoots, if_pos (Nat.le_of_lt (Array.getElem?_eq_some_iff.mp h).1)]
    rfl
  unfold finishExec
  rw [run_bind hroot, run_bind hpop]
  rfl

theorem slot_of_finishExec {next : Next} (h : finishExec base c = .ok next c') :
    ∃ v, c.heap.roots[base]? = some v := by
  cases hv : c.heap.roots[base]? with
  | some v => exact ⟨v, rfl⟩
  | none =>
    have hroot : (liftM (Heap.root base) : Run Value) c = .error (.noRootSlot base) c := by
      show onHeap (Heap.root base) c = _
      rw [onHeap, Heap.root, hv]
    unfold finishExec at h
    rw [run_bind_error hroot] at h
    cases h

/-! ## 3. The forms of a text -/

/-- What is left of a run of source text when its next form is to be read. -/
def forms (host : Host) (budget : Nat) (src : List Char) (base : Nat) (echo : Bool) : Run Value := do
  let next ← enterNextForm src base echo
  run host budget next.task next.pending

/-- Keeps a value in the slot of the text, and prints it if `echo`. -/
def keep (base : Nat) (echo : Bool) (v : Value) : Run Unit := do
  Heap.setRoot base v
  if echo && !v.isNil then write ((← observe (·.display v)) ++ "\n")

/-- A text is run from its first form on, in a slot of its own. -/
theorem run_exec (host : Host) (budget : Nat) (src : List Char) (echo : Bool) :
    run host (budget + 1) (.exec src echo) [] =
      (do
        let base ← Heap.pushRoot .nil
        forms host budget src base echo) := by
  show (enterExec src echo >>= fun next => run host budget next.task (next.pending ++ [])) = _
  unfold enterExec
  rw [bind_assoc]
  refine congrArg _ (funext fun base => congrArg _ (funext fun next => ?_))
  rw [List.append_nil]

theorem exec_eq (host : Host) (source : String) (echo : Bool) : exec host source echo =
    (do
      let base ← Heap.pushRoot .nil
      forms host (ample - 1) source.toList base echo) :=
  run_exec host (ample - 1) source.toList echo

/-- After a form that has not failed its value is kept, and the text goes on. -/
theorem resumeExec_of_going (hgoing : c.failing = false) :
    resumeExec src base echo v c = (keep base echo v >>= fun _ => enterNextForm src base echo) c := by
  unfold resumeExec keep
  rw [bind_assoc]
  by_cases hslot : base < c.heap.roots.size
  · have hgoing₁ : isFailing (c.slotted base v) = .ok false (c.slotted base v) :=
      congrArg (EStateM.Result.ok · (c.slotted base v)) hgoing
    rw [run_bind (setRoot_run hslot v), run_bind (setRoot_run hslot v), run_bind hgoing₁]
    cases echo && !v.isNil <;> rfl
  · rw [run_bind_error (setRoot_error hslot v), run_bind_error (setRoot_error hslot v)]

/-- **How a text goes on** if nothing fails. -/
inductive Course (host : Host) (budget : Nat) (src : List Char) (base : Nat) (echo : Bool) (c : Context)
    (w : Value) (c' : Context) : Prop where
  /-- It ends. -/
  | ends (hpos : 0 < budget) (hnone : Token.next? src = none)
      (hslot : c.heap.roots[base]? = some w) (hend : c' = c.quiet.cut base)
  /-- A form is read and evaluated, and its value is kept. -/
  | form {form u : Value} {rest : List Char} {c₁ c₂ c₃ : Context} {s m : Nat}
      (hbudget : budget = s + (m + 1))
      (hread : Reader.read src c.quiet = .ok (.ok (some form), rest) c₁)
      (hslot : base < c₁.heap.roots.size)
      (hrun : run host (s + 1) (.eval c₁.rootEnv form false) [] (c₁.slotted base form) = .ok u c₂)
      (hgoing : c₂.failing = false) (hkeep : keep base echo u c₂ = .ok () c₃)
      (hlater : forms host m rest base echo c₃ = .ok w c')

theorem Course.pos {w : Value} (h : Course host budget src base echo c w c') : 0 < budget := by
  cases h with
  | ends hpos _ _ _ => exact hpos
  | form hbudget _ _ _ _ _ _ => omega

theorem enterNextForm_end (hnone : Token.next? src = none) :
    enterNextForm src base echo c = finishExec base c.quiet := by
  unfold enterNextForm
  rw [run_bind (reset_run c), Reader.read_none hnone]
  rfl

theorem enterNextForm_form (hread : Reader.read src c.quiet = .ok (.ok (some form), rest) c₁)
    (hslot : base < c₁.heap.roots.size) : enterNextForm src base echo c =
      .ok (.eval c₁.rootEnv form false (.exec rest base echo)) (c₁.slotted base form) := by
  unfold enterNextForm
  rw [run_bind (reset_run c), run_bind hread]
  exact run_bind (setRoot_run hslot form)

theorem enterNextForm_error {e : ReadError}
    (hread : Reader.read src c.quiet = .ok (.error e, rest) c₁) (hslot : base < c₁.heap.roots.size) :
    enterNextForm src base echo c =
      (do
        let _ ← fail e.message
        finishExec base) (c₁.slotted base .nil) := by
  unfold enterNextForm
  rw [run_bind (reset_run c), run_bind hread]
  exact run_bind (setRoot_run hslot .nil)

/-- A fault of the reader ends the run. -/
theorem forms_fault {f : Fault} (hread : Reader.read src c.quiet = .error f c₁) :
    forms host budget src base echo c = .error f c₁ :=
  run_bind_error ((run_bind (reset_run c)).trans (run_bind_error hread))

/-- After an error there is a failure. -/
theorem failing_of_enterNextForm {e : ReadError} {next : Next}
    (hread : Reader.read src c.quiet = .ok (.error e, rest) c₁)
    (h : enterNextForm src base echo c = .ok next c') : c'.failing = true ∧ ∃ v, next = .give v := by
  unfold enterNextForm at h
  rw [run_bind (reset_run c), run_bind hread] at h
  obtain ⟨_, c₂, _, h⟩ := bind_eq_ok.mp h
  obtain ⟨u, c₃, hfail, h⟩ := bind_eq_ok.mp h
  have hfailing : c₃.failing = true := by
    cases hc : c₂.failing with
    | true =>
      rw [fail, run_modifyGet, hc] at hfail
      cases hfail
      exact hc
    | false =>
      rw [fail, run_modifyGet, hc] at hfail
      cases hfail
      rfl
  obtain ⟨v, hv⟩ := slot_of_finishExec h
  rw [finishExec_run hv] at h
  cases h
  exact ⟨hfailing, v, rfl⟩

/-- A value for which nothing waits is handed back, if a step is left. -/
theorem run_give (h : run host budget (.give u) [] c = .ok v c') : 0 < budget ∧ v = u ∧ c' = c := by
  cases budget with
  | zero => cases h
  | succ budget =>
    cases h
    exact ⟨Nat.succ_pos budget, rfl, rfl⟩

theorem forms_stable (h : ∀ d, forms host n src base echo c ≠ .error .outOfSteps d) (hle : n ≤ budget) :
    forms host budget src base echo c = forms host n src base echo c := by
  refine run_bind_congr fun next c₁ henter => run_stable (fun d hout => ?_) hle
  exact h d ((run_bind henter).trans hout)

theorem forms_mono {w : Value} (h : forms host n src base echo c = .ok w c') (hle : n ≤ budget) :
    forms host budget src base echo c = .ok w c' := by
  refine (forms_stable (fun d hout => ?_) hle).trans h
  rw [h] at hout
  cases hout

section Form

variable {s : Nat} (hread : Reader.read src c.quiet = .ok (.ok (some form), rest) c₁)
  (hslot : base < c₁.heap.roots.size)
  (htakes : Takes host s (.eval c₁.rootEnv form false) [] (c₁.slotted base form) u c₂)
include hread hslot htakes

/-- **When a form has been evaluated, the text goes on** with the steps that are left. -/
theorem Takes.forms_eq (m : Nat) : forms host (s + (m + 1)) src base echo c =
    (resumeExec rest base echo u >>= fun next => run host m next.task next.pending) c₂ := by
  unfold forms
  rw [run_bind (enterNextForm_form hread hslot)]
  refine (htakes (m + 1) [.exec rest base echo]).trans ?_
  show (resumeExec rest base echo u >>= fun next => run host m next.task (next.pending ++ [])) c₂ = _
  refine run_bind_congr fun next c₃ _ => ?_
  rw [List.append_nil]

/-- If the form has not failed, its value is kept first. -/
theorem Takes.forms_going {c₃ : Context} (hgoing : c₂.failing = false)
    (hkeep : keep base echo u c₂ = .ok () c₃) (m : Nat) :
    forms host (s + (m + 1)) src base echo c = forms host m rest base echo c₃ := by
  rw [htakes.forms_eq hread hslot]
  exact run_bind_congr_left ((resumeExec_of_going hgoing).trans (run_bind hkeep))

end Form

/-- **A text that goes on so comes to an end.** -/
theorem Course.forms_run {w : Value} (h : Course host budget src base echo c w c') :
    forms host budget src base echo c = .ok w c' := by
  cases h with
  | ends hpos hnone hslot hend =>
    obtain ⟨budget, rfl⟩ : ∃ k, budget = k + 1 := ⟨budget - 1, by omega⟩
    exact (run_bind ((enterNextForm_end hnone).trans (finishExec_run hslot))).trans (hend ▸ rfl)
  | @form form u rest c₁ c₂ c₃ s m hbudget hread hslot hrun hgoing hkeep hlater =>
    obtain ⟨k, hlt, htakes⟩ := exists_takes hrun
    rw [← htakes.forms_going hread hslot hgoing hkeep] at hlater
    exact forms_mono hlater (by omega)

/-- A text whose last form has failed ends with a failure. -/
theorem going_of_resumeExec {next : Next} {w : Value}
    (h : resumeExec src base echo u c = .ok next c₁)
    (hrun : run host budget next.task next.pending c₁ = .ok w c') (hgoing : c'.failing = false) :
    c.failing = false := by
  by_contra hfailing
  rw [Bool.not_eq_false] at hfailing
  unfold resumeExec at h
  obtain ⟨⟨⟩, c₂, hset, h⟩ := bind_eq_ok.mp h
  obtain ⟨-, rfl⟩ := lt_of_setRoot hset
  have hfailing₁ : isFailing (c.slotted base u) = .ok true (c.slotted base u) :=
    congrArg (EStateM.Result.ok · (c.slotted base u)) hfailing
  rw [run_bind hfailing₁] at h
  obtain ⟨v, hv⟩ := slot_of_finishExec h
  rw [if_pos rfl, finishExec_run hv] at h
  cases h
  obtain ⟨-, -, rfl⟩ := run_give hrun
  exact Bool.false_ne_true (hgoing.symm.trans hfailing)

/-- **How a text goes on up to its next form**, if it comes to an end. -/
inductive Turn (host : Host) (budget : Nat) (src : List Char) (base : Nat) (echo : Bool) (c : Context)
    (w : Value) (c' : Context) : Prop where
  /-- It ends. -/
  | ends (hpos : 0 < budget) (hnone : Token.next? src = none)
      (hslot : c.heap.roots[base]? = some w) (hend : c' = c.quiet.cut base)
  /-- Nothing can be read. -/
  | error {e : ReadError} {rest : List Char} {c₁ : Context}
      (hread : Reader.read src c.quiet = .ok (.error e, rest) c₁) (hfailing : c'.failing = true)
  /-- A form is read and evaluated, and the text goes on. -/
  | form {form u : Value} {rest : List Char} {c₁ c₂ : Context} {s m : Nat}
      (hbudget : budget = s + (m + 1))
      (hread : Reader.read src c.quiet = .ok (.ok (some form), rest) c₁)
      (hslot : base < c₁.heap.roots.size)
      (htakes : Takes host s (.eval c₁.rootEnv form false) [] (c₁.slotted base form) u c₂)
      (hlater : (resumeExec rest base echo u >>= fun next => run host m next.task next.pending) c₂ =
        .ok w c')

theorem turn_of_forms {w : Value} (h : forms host budget src base echo c = .ok w c') :
    Turn host budget src base echo c w c' := by
  obtain ⟨next, d, henter, hrun⟩ := bind_eq_ok.mp h
  cases hread : Reader.read src c.quiet with
  | error e c₁ =>
    unfold enterNextForm at henter
    rw [run_bind (reset_run c), run_bind_error hread] at henter
    cases henter
  | ok p c₁ =>
    obtain ⟨r, rest⟩ := p
    rcases r with e | _ | form
    · obtain ⟨hfailing, v, rfl⟩ := failing_of_enterNextForm hread henter
      obtain ⟨_, _, rfl⟩ := run_give hrun
      exact .error hread hfailing
    · have hnone := Reader.next?_eq_none_of_read hread
      rw [enterNextForm_end hnone] at henter
      obtain ⟨v, hv⟩ := slot_of_finishExec henter
      rw [finishExec_run hv] at henter
      cases henter
      obtain ⟨hpos, rfl, rfl⟩ := run_give hrun
      exact .ends hpos hnone hv rfl
    · have hslot : base < c₁.heap.roots.size := by
        unfold enterNextForm at henter
        rw [run_bind (reset_run c), run_bind hread] at henter
        obtain ⟨_, _, hset, _⟩ := bind_eq_ok.mp henter
        exact (lt_of_setRoot hset).1
      rw [enterNextForm_form hread hslot] at henter
      cases henter
      have hrun' : run host budget (.eval c₁.rootEnv form false) ([] ++ [.exec rest base echo])
          (c₁.slotted base form) = .ok w c' := hrun
      obtain ⟨s, m, u, c₂, rfl, htakes, hlast⟩ := run_split hrun'
      obtain ⟨m, rfl⟩ : ∃ k, m = k + 1 := by
        cases m with
        | zero => cases hlast
        | succ m => exact ⟨m, rfl⟩
      exact .form rfl hread hslot htakes ((htakes.forms_eq hread hslot m).symm.trans h)

/-- **A text that comes to an end without failure goes on so.** -/
theorem course_of_forms {w : Value} (h : forms host budget src base echo c = .ok w c')
    (hgoing : c'.failing = false) : Course host budget src base echo c w c' := by
  cases turn_of_forms h with
  | ends hpos hnone hslot hend => exact .ends hpos hnone hslot hend
  | error hread hfailing =>
    rw [hgoing] at hfailing
    cases hfailing
  | form hbudget hread hslot htakes hlater =>
    obtain ⟨next, c₄, hresume, hrest⟩ := bind_eq_ok.mp hlater
    have hgoing₂ : _ = false := going_of_resumeExec hresume hrest hgoing
    rw [resumeExec_of_going hgoing₂] at hresume
    obtain ⟨⟨⟩, c₃, hkeep, hnext⟩ := bind_eq_ok.mp hresume
    exact .form hbudget hread hslot (htakes 1 []) hgoing₂ hkeep ((run_bind hnext).trans hrest)

/-! ## 4. What a run of a text depends on -/

/-- Blank lines do not matter. -/
theorem forms_blank_append (hlined : Lined src) (hnone : Token.next? src = none) :
    forms host budget (src ++ rest) base echo c = forms host budget rest base echo c := by
  have henter : enterNextForm (src ++ rest) base echo c = enterNextForm rest base echo c := by
    unfold enterNextForm
    rw [run_bind (reset_run c), run_bind (reset_run c)]
    exact run_bind_congr_left (Reader.read_blank_append hlined hnone)
  exact run_bind_congr_left henter

/-- **A text that is run without failure closes what it opens.** -/
theorem isComplete_of_forms {w : Value} (h : forms host budget src base echo c = .ok w c')
    (hgoing : c'.failing = false) : isComplete src = true := by
  show (src.foldl Scan.step (.skipping 0 false)).isClosed = true
  induction budget using Nat.strongRecOn generalizing src c with
  | ind budget ih =>
    cases course_of_forms h hgoing with
    | ends _ hnone _ _ => exact Scan.isClosed_of_next?_none hnone
    | @form form u rest c₁ c₂ c₃ s m hbudget hread _ _ _ _ hlater =>
      have hpasses : Passes 0 src 0 rest := Reader.read_passes src _ c₁ hread form rfl
      rw [hpasses.scan]
      exact ih m (by omega) hlater

end Machine

end LispMachine
