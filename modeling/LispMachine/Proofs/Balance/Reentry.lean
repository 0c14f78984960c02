import LispMachine.Probe
import LispMachine.Proofs.Balance.Evaluation
import LispMachine.Proofs.Listener.Running

/-!
# Source text that is run while functions are running

A procedure or form of an embedding program may run source text in the middle of an evaluation. A text
begins, and ends, by forgetting which function is running, so that such a program is not balanced:

* `Host.hushed`, `Host.Reenters` -- an embedding program that is balanced apart from the texts it runs;
  `Machine.Hushes` -- its steps are those of a balanced one, up to the text;
* `Owing.forget` -- what is owed if the running function is forgotten;
* `Machine.Nested`, `Nested.step` -- the invariant of the machine, and that a step keeps it;
* `Machine.exec_reentered` -- **what a text leaves behind that is run without failure**: the root stack
  and the depth are as before, and nothing fails; but no function is running, so that no form in the tail
  position of the enclosing function is a self tail call from then on.
-/

namespace LispMachine

open Context

/-! ## 1. An embedding program without its texts -/

/-- The same, with nil for a source text that is to be run. -/
def Next.hushed (next : Next) : Next :=
  match next.task with
  | .exec _ _ => { next with task := .give .nil }
  | _ => next

/-- The embedding program, but that it runs no source text. -/
def Host.hushed (host : Host) : Host where
  procedure entry args := do pure (← host.procedure entry args).hushed
  form entry env args tail := do pure (← host.form entry env args tail).hushed

/-- **The contract of an embedding program that runs source text**, wherever it is asked to: whatever
    else its procedures and forms lead to keeps what is owed. -/
def Host.Reenters (host : Host) : Prop := host.hushed.Balanced

/-- The same, or a source text against nil. -/
inductive Next.Hushes : Next → Next → Prop where
  | same (next : Next) : Hushes next next
  | exec (source : List Char) (echo : Bool) (ps : List Pending) :
      Hushes { task := .exec source echo, pending := ps } { task := .give .nil, pending := ps }

theorem Next.hushes (next : Next) : next.Hushes next.hushed := by
  obtain ⟨task, ps⟩ := next
  cases task with
  | exec source echo => exact .exec source echo ps
  | _ => exact .same _

theorem Next.Hushes.andThen {next next' : Next} (h : next.Hushes next') (p : Pending) :
    (next.andThen p).Hushes (next'.andThen p) := by
  cases h with
  | same => exact .same _
  | exec source echo ps => exact .exec source echo (ps ++ [p])

namespace Machine

section Hushes

variable {α : Type} {x y : Run Next} {f g : α → Run Next} {Q : Next → Context → Prop}
variable {host : Host} {env expr func args v : Value} {tail : Bool} {c : Context}

/-- **Two steps do the same**, up to a source text. -/
def Hushes (x y : Run Next) : Prop :=
  ∀ c next c', x c = .ok next c' → ∃ next', y c = .ok next' c' ∧ next.Hushes next'

namespace Hushes

theorem refl (x : Run Next) : Hushes x x := fun _ next _ hrun => ⟨next, hrun, .same next⟩

theorem bind {x : Run α} (h : ∀ a, Hushes (f a) (g a)) : Hushes (x >>= f) (x >>= g) := by
  intro c next c' hrun
  obtain ⟨a, c₁, hx, hf⟩ := bind_eq_ok.mp hrun
  obtain ⟨next', hg, hnext⟩ := h a c₁ next c' hf
  exact ⟨next', (run_bind hx).trans hg, hnext⟩

theorem ite {p : Prop} [Decidable p] {x' y' : Run Next} (hx : Hushes x x') (hy : Hushes y y') :
    Hushes (if p then x else y) (if p then x' else y') := by
  split
  · exact hx
  · exact hy

/-- A step that waits does so behind either. -/
theorem andThen (h : Hushes x y) (p : Pending) :
    Hushes (x >>= fun next => pure (next.andThen p)) (y >>= fun next => pure (next.andThen p)) := by
  intro c next c' hrun
  obtain ⟨next₁, c₁, hx, hpure⟩ := bind_eq_ok.mp hrun
  cases hpure
  obtain ⟨next₂, hy, hnext⟩ := h c next₁ c' hx
  exact ⟨_, run_bind hy, hnext.andThen p⟩

/-- What the embedding program leads to. -/
theorem hushed (x : Run Next) : Hushes x (x >>= fun next => pure next.hushed) :=
  fun _ next _ hrun => ⟨_, run_bind hrun, next.hushes⟩

theorem enterNative : Hushes (Machine.enterNative host func args)
    (Machine.enterNative host.hushed func args) := by
  refine bind fun found => ?_
  cases found with
  | none => exact refl _
  | some p =>
    refine bind fun taken => ?_
    cases taken with
    | error misfit => exact refl _
    | ok args =>
      cases p with
      | primitive p => exact refl _
      | hosted name arity entry => exact hushed _

theorem enterApply : Hushes (Machine.enterApply host func args)
    (Machine.enterApply host.hushed func args) := by
  refine bind fun base => bind fun _ => bind fun type => ?_
  exact ite (refl _) (ite (andThen enterNative _) (refl _))

theorem enterForm : Hushes (Machine.enterForm host env expr tail)
    (Machine.enterForm host.hushed env expr tail) := by
  refine bind fun form => ?_
  cases form with
  | none => exact refl _
  | some form =>
    cases form with
    | standard f => exact refl _
    | hosted entry => exact bind fun _ => hushed _

theorem enterPair : Hushes (Machine.enterPair host env expr tail)
    (Machine.enterPair host.hushed env expr tail) := by
  refine bind fun full => ite (refl _) ?_
  exact bind fun _ => bind fun base => bind fun _ => andThen enterForm _

theorem resumeCall : Hushes (Machine.resumeCall host tail v)
    (Machine.resumeCall host.hushed tail v) := by
  refine bind fun _ => ite (refl _) (bind fun _ => bind fun func => bind fun args => bind fun type => ?_)
  exact ite (refl _) (ite enterNative (refl _))

/-- A task is done. -/
theorem step (task : Task) : Hushes (task.step host) (task.step host.hushed) := by
  cases task with
  | eval env expr tail =>
    cases expr with
    | pair a => exact enterPair
    | _ => exact refl _
  | apply func args => exact enterApply
  | _ => exact refl _

/-- A step that waits goes on. -/
theorem resume (p : Pending) : Hushes (p.resume host v) (p.resume host.hushed v) := by
  cases p with
  | call tail => exact resumeCall
  | _ => exact refl _

/-- What is true of the one is true of the other. -/
theorem yields (h : Hushes x y) (hy : Yields y c Q) :
    Yields x c fun next c' => ∃ next', Q next' c' ∧ next.Hushes next' := fun next c' hrun => by
  obtain ⟨next', hrun', hnext⟩ := h c next c' hrun
  exact ⟨next', hy next' c' hrun', hnext⟩

end Hushes

end Hushes

end Machine

/-! ## 2. The running function is forgotten -/

/-- A step that goes on in the body of a function. -/
def Pending.isBody : Pending → Bool
  | .body _ _ _ => true
  | _ => false

section Owing

variable {base : Array Value} {d n k : Nat} {f g : Value} {t τ : Bool} {ps : List Pending}

/-- **What is owed if the running function is forgotten**: if a call is under way, the function that was
    running before it is running again in the end. -/
theorem Owing.forget (h : Owing base d f t n k g τ ps) :
    Owing base d (if ps.any (·.isBody) then f else .nil) t n k .nil τ ps := by
  induction h with
  | nil => exact .nil
  | leave hs _ ih => exact .leave hs ih
  | release hs _ ih => exact .release hs ih
  | call ht _ ih => exact .call ht ih
  | argument _ ih => exact .argument ih
  | body h _ => exact .body h
  | branch ht _ ih => exact .branch ht ih
  | define _ ih => exact .define ih
  | assign _ ih => exact .assign ih
  | sequence ht _ ih => exact .sequence ht ih
  | conjunction ht _ ih => exact .conjunction ht ih
  | disjunction ht _ ih => exact .disjunction ht ih
  | binding ht _ ih => exact .binding ht ih
  | exec _ ih => exact .exec ih

/-- Without a call under way, the running function is the one that was running before, or it is
    forgotten. -/
theorem Owing.current_eq (h : Owing base d f t n k g τ ps) (hps : ps.any (·.isBody) = false) :
    g = f ∨ g = .nil := by
  induction h with
  | nil => exact .inl rfl
  | call _ _ ih => exact ih _ (Nat.le_refl _) hps
  | body _ _ => cases hps
  | exec _ _ => exact .inr rfl
  | leave _ _ ih | release _ _ ih | argument _ ih | branch _ _ ih | define _ ih | assign _ ih
  | sequence _ _ ih | conjunction _ _ ih | disjunction _ _ ih | binding _ _ ih => exact ih hps

end Owing

/-! ## 3. The invariant -/

namespace Machine

section Nested

variable {host : Host} {start c c' d : Context} {t : Bool} {σ σ' : State} {task : Task} {v : Value}
variable {κ : Context.Registers} {ps qs : List Pending} {next next' : Next} {g : Value} {budget : Nat}
variable {src rest : List Char} {echo tail : Bool} {base : Nat} {form : Value}

/-- **The machine at work, from the context `start` on**, with texts that are run anywhere: the steps
    that wait lead back to its root stack, to its depth, and to the function that was running, unless it
    is forgotten. -/
def Nested (start : Context) (t : Bool) (σ : State) : Prop :=
  ∃ n κ τ g, (g = start.current ∨ g = .nil) ∧ Stance start.heap.roots n κ σ.context ∧
    Owing start.heap.roots start.depth g t n κ.depth κ.current τ σ.pending ∧
    (σ.task.Suits κ.current τ ∨ ∃ source echo, σ.task = .exec source echo) ∧
    κ.maxDepth = start.maxDepth ∧ κ.depth ≤ κ.maxDepth ∧ κ.peakDepth ≤ κ.maxDepth

namespace Nested

theorem refl (hdepth : c.depth ≤ c.maxDepth) (hpeak : c.peakDepth ≤ c.maxDepth) (task : Task) :
    Nested c task.isTail ⟨c, task, []⟩ := by
  refine ⟨_, _, _, _, .inl rfl, .refl c, .nil, ?_, rfl, hdepth, hpeak⟩
  cases task with
  | give v => exact .inl (.give v)
  | eval env expr tail => exact .inl (.eval id)
  | evalList env list => exact .inl (.evalList env list)
  | apply func args => exact .inl (.apply func args)
  | exec source echo => exact .inr ⟨source, echo, rfl⟩

/-- What a step leads to that is like a balanced one. -/
theorem of_goes (h : Goes start.heap.roots start.depth g t κ ps next' c) (hnext : next.Hushes next')
    (hg : g = start.current ∨ g = .nil) (hmax : κ.maxDepth = start.maxDepth)
    (hdepth : κ.depth ≤ κ.maxDepth) (hpeak : κ.peakDepth ≤ κ.maxDepth) :
    Nested start t ⟨c, next.task, next.pending ++ ps⟩ := by
  obtain ⟨n, κ', τ, hc, hκ, how, ht⟩ := h
  refine ⟨n, κ', τ, g, hg, hc, ?_, ?_, hκ.maxDepth.trans hmax, hκ.depth hdepth, hκ.peakDepth hpeak⟩
  · cases hnext <;> exact how
  · cases hnext with
    | same => exact .inl ht
    | exec source echo _ => exact .inr ⟨source, echo, rfl⟩

/-- **A step keeps the invariant.** -/
theorem step (hhost : host.Reenters) (h : Nested start t σ) (hs : Step host σ σ') :
    Nested start t σ' := by
  obtain ⟨n, κ, τ, g, hg, hc, how, ht, hmax, hdepth, hpeak⟩ := h
  cases hs with
  | @work c c' task ps next htask hrun =>
    by_cases hexec : ∃ source echo, task = .exec source echo
    · -- a text is run wherever it stands, and the running function is forgotten
      obtain ⟨source, echo, rfl⟩ := hexec
      have hgoes := Goes.enterExec source hc how.forget next c' hrun
      refine of_goes hgoes (.same next) ?_ hmax hdepth hpeak
      split
      · exact hg
      · exact .inr rfl
    · have ht : task.Suits κ.current τ := ht.resolve_right hexec
      obtain ⟨next', hgoes, hnext⟩ := (Hushes.step task).yields (Goes.step hhost hc ht how) next c' hrun
      exact of_goes hgoes hnext hg hmax hdepth hpeak
  | @resume c c' v p ps next hrun =>
    obtain ⟨next', hgoes, hnext⟩ := (Hushes.resume p).yields (Goes.resume hhost hc how) next c' hrun
    rcases hgoes with hgoes | ⟨-, hback⟩
    · exact of_goes hgoes hnext hg hmax hdepth hpeak
    · obtain ⟨n', hc', how'⟩ := hback.stance
      have hgives : Goes start.heap.roots start.depth g t { κ with looping := true } ps next' c' :=
        hback.next ▸ .give hc' how'
      exact of_goes hgives hnext hg hmax hdepth hpeak

/-- **Every state that is reached** is of this kind. -/
theorem reaches (hhost : host.Reenters) (h : Nested start t σ) (hreach : Reaches host σ σ') :
    Nested start t σ' := by
  induction hreach with
  | refl => exact h
  | tail _ hs ih => exact ih.step hhost hs

end Nested

/-- **No run is deeper than its limit**, which stays what it is. -/
theorem within_of_reaches (hhost : host.Reenters) (hdepth : c.depth ≤ c.maxDepth)
    (hpeak : c.peakDepth ≤ c.maxDepth) (hreach : Reaches host ⟨c, task, []⟩ σ) :
    σ.context.maxDepth = c.maxDepth ∧ σ.context.depth ≤ σ.context.maxDepth ∧
      σ.context.peakDepth ≤ σ.context.maxDepth := by
  have hnested := (Nested.refl hdepth hpeak task).reaches hhost hreach
  obtain ⟨n, κ, τ, g, -, hc, -, -, hmax, hdepth', hpeak'⟩ := hnested
  have hregisters := hc.registers
  subst hregisters
  exact ⟨hmax, hdepth', hpeak'⟩

/-! ## 4. What a text leaves behind -/

/-- A text that comes to an end without failure leaves no function running. -/
theorem quiet_of_forms (h : forms host budget src base echo c = .ok v c')
    (hgoing : c'.failing = false) : c'.current = .nil ∧ c'.looping = false := by
  induction budget using Nat.strongRecOn generalizing src c with
  | ind budget ih =>
    cases course_of_forms h hgoing with
    | ends _ _ _ hend =>
      subst hend
      exact ⟨rfl, rfl⟩
    | @form form u rest c₁ c₂ c₃ s m hbudget _ _ _ _ _ hlater => exact ih m (by omega) hlater

theorem quiet_of_exec (h : run host budget (.exec src echo) [] c = .ok v c')
    (hgoing : c'.failing = false) : c'.current = .nil ∧ c'.looping = false := by
  cases budget with
  | zero => cases h
  | succ budget =>
    rw [run_exec] at h
    obtain ⟨base, c₁, -, hforms⟩ := bind_eq_ok.mp h
    exact quiet_of_forms hforms hgoing

/-- A function is not handed its arguments if none is running. -/
theorem enterFunction_of_current {func args : Value} (hcurrent : c.current = .nil)
    (hfunc : c.heap.typeOf func = CoreType.func.id) :
    (do
      if tail && func = (← observe Context.current) then
        modify fun c : Context => { c with looping := true }
        pure (Next.give args)
      else enterFunction func args : Run Next) c = enterFunction func args c := by
  have hne : func ≠ c.current := fun h => by
    rw [h, hcurrent] at hfunc
    exact absurd (show CoreType.nil.id = CoreType.func.id from hfunc) (by decide)
  rw [run_bind (run_observe _ _), decide_eq_false hne, Bool.and_false]
  rfl

/-- If no function is running, no form is a self tail call. -/
theorem resumeCall_of_current (hcurrent : c.current = .nil) :
    resumeCall host tail form c = resumeCall host false form c := by
  unfold resumeCall
  refine run_bind_congr fun failing c₁ hfailing => ?_
  cases hfailing
  refine run_ite_congr (fun _ => rfl) fun _ => run_bind_congr fun _ c₁ hpush => ?_
  cases hpush
  refine run_bind_congr fun func c₁ hfunc => run_bind_congr fun args c₂ hargs => ?_
  cases hfunc
  cases hargs
  refine run_bind_congr fun type c₁ htype => ?_
  cases htype
  refine run_ite_congr (fun hfunc => ?_) fun _ => rfl
  refine Eq.trans (enterFunction_of_current ?_ hfunc) (enterFunction_of_current ?_ hfunc).symm
  all_goals exact hcurrent

/-- **Source text may be run in the middle of an evaluation**, as long as nothing in it fails: the steps
    that wait go on with the value; the root stack and the depth are as before, and no self tail call is on
    its way. But no function is running any more: until the call that is under way ends, a form in its
    tail position is called like any other. -/
theorem exec_reentered (hhost : host.Reenters) (hdepth : c.depth ≤ c.maxDepth)
    (hpeak : c.peakDepth ≤ c.maxDepth) (hrun : run host budget (.exec src echo) [] c = .ok v c')
    (hgoing : c'.failing = false) :
    (∃ s < budget, ∀ m ps, run host (s + m) (.exec src echo) ps c = run host m (.give v) ps c') ∧
      c'.heap.roots = c.heap.roots ∧ c'.depth = c.depth ∧ c'.peakDepth ≤ c.maxDepth ∧
      c'.looping = false ∧ c'.current = .nil ∧
      ∀ task d form tail qs, Reaches host ⟨c', task, []⟩ ⟨d, .give form, .call tail :: qs⟩ →
        qs.any (·.isBody) = false → resumeCall host tail form d = resumeCall host false form d := by
  obtain ⟨hcurrent, hlooping⟩ := quiet_of_exec hrun hgoing
  have hnested := (Nested.refl hdepth hpeak (.exec src echo)).reaches hhost (reaches_of_run hrun)
  obtain ⟨n, κ, τ, g, -, hc, how, -, hmax, hdepth', hpeak'⟩ := hnested
  have hregisters := hc.registers
  subst hregisters
  generalize hk : c'.registers.depth = k at how
  generalize hg : c'.registers.current = g' at how
  cases how with
  | nil =>
    refine ⟨exists_takes hrun, hc.roots_eq, hk, hmax ▸ hpeak', hlooping, hcurrent, ?_⟩
    intro task d form tail qs hreach hqs
    have hlater := (Nested.refl hdepth' hpeak' task).reaches hhost hreach
    obtain ⟨n, κ, τ, g, hg, hd, how, -⟩ := hlater
    rw [hcurrent, or_self] at hg
    subst hg
    have hd_current : d.current = κ.current := congrArg Registers.current hd.registers
    have hnone := how.current_eq hqs
    rw [or_self] at hnone
    exact resumeCall_of_current (hd_current.trans hnone)

end Nested

end Machine

/-! ## 5. Probes -/

section Probes

variable {v env args : Value} {tail : Bool}

namespace Next

/-- A task that may be done in front of any steps. -/
theorem owed_task {task : Task} (h : ∀ g τ, (tail = true → τ = true) → task.Suits g τ) :
    Next.Owed tail { task } :=
  ⟨fun {_ _ _ _ _ _ _ τ _} ht how => ⟨τ, how, h _ τ ht⟩⟩

end Next

namespace Probe

theorem idle_argument (args : List Value) (position : Nat) :
    Idle (argument args position) fun _ => True := by
  unfold argument
  split
  · exact .pure trivial
  · exact .throw _

theorem owed_failNext (message : String) : Idle (failNext message) (·.hushed.Owed tail) :=
  (Idle.fail message).bind fun _ _ => .pure (Next.owed_give _)

theorem owed_procedure (entry : String) (args : List Value) :
    Idle (procedure entry args) (·.hushed.Owed false) := by
  unfold procedure
  split
  · exact (Idle.list args).bind fun _ _ => .pure (Next.owed_give _)
  · exact .pure (Next.owed_give _)
  · exact (Idle.fail _).bind fun _ _ => owed_failNext _
  · refine (idle_argument args 0).bind fun func _ => (idle_argument args 1).bind fun list _ => .pure ?_
    exact Next.owed_task fun _ _ _ => .apply func list
  · refine .observe fun env => (idle_argument args 0).bind fun expr _ => .pure ?_
    exact Next.owed_task fun _ _ _ => .eval nofun
  · refine (idle_argument args 0).bind fun v _ => .look fun bytes => ?_
    cases bytes with
    | none => exact owed_failNext _
    | some bytes => exact .pure (Next.owed_give .nil)
  · exact Idle.collect.bind fun _ _ => (Idle.list args).bind fun _ _ => .pure (Next.owed_give _)
  · exact owed_failNext _

theorem owed_form (entry : String) (env args : Value) (tail : Bool) :
    Idle (form entry env args tail) (·.hushed.Owed tail) := by
  unfold form
  split
  · exact .pure (Next.owed_give args)
  · exact .look fun expr => .pure (Next.owed_task fun _ _ ht => .eval ht)
  · exact (Idle.ofBool tail).bind fun _ _ => .pure (Next.owed_give _)
  · exact .pure (Next.owed_task fun _ _ _ => .evalList env args)
  · exact (Idle.func _ _ _ _).bind fun _ _ => .pure (Next.owed_give _)
  · exact owed_failNext _

/-- The probes are such an embedding program. -/
theorem reenters_host : host.Reenters where
  procedure entry args hc how :=
    Goes.idle ((owed_procedure entry args).bind fun _ h => .pure h) hc nofun (how _ (Nat.le_refl _))
  form entry env args tail hc how ht :=
    Goes.idle ((owed_form entry env args tail).bind fun _ h => .pure h) hc ht (how _ (Nat.le_refl _))

end Probe

theorem Probe.owed_failed (message : String) (tail : Bool) :
    Idle (do pure (← failNext message).hushed) (Next.Owed tail) :=
  (owed_failNext message).bind fun _ h => .pure h

/-- So is one without procedures and forms of its own. -/
theorem Host.reenters_none : Host.none.Reenters where
  procedure _ _ hc how := Goes.idle (Probe.owed_failed _ false) hc nofun (how _ (Nat.le_refl _))
  form _ _ _ tail hc how ht := Goes.idle (Probe.owed_failed _ tail) hc ht (how _ (Nat.le_refl _))

/-- A text that is run while a function is running. -/
theorem Machine.exec_reentered_within : ∃ v c',
    run Probe.host 4 (.exec "7".toList false) [] Context.within = .ok v c' ∧ c'.failing = false ∧
      Context.within.current ≠ .nil ∧ c'.heap.roots = #[] ∧ c'.depth = 0 ∧ c'.current = .nil := by
  have hend : endsWith (run Probe.host 4 (.exec "7".toList false) []) Context.within
      (fun _ c' => !c'.failing) = true := by decide +kernel
  obtain ⟨v, c', hrun, hnot⟩ := exists_of_endsWith hend
  have hgoing : c'.failing = false := Bool.not_eq_true' _ ▸ hnot
  obtain ⟨-, hroots, hdepth, -, -, hcurrent, -⟩ :=
    exec_reentered Probe.reenters_host (by decide) (by decide) hrun hgoing
  exact ⟨v, c', hrun, hgoing, by decide, hroots, hdepth, hcurrent⟩

/-- A small context, where `ex` runs the text that it is given. -/
def Probe.counting : Run Unit := do
  let env ← Heap.cons .nil .nil
  Heap.pin env
  let truth ← sym "t"
  modify fun c => { c with rootEnv := env, truth }
  [StandardForm.branch, .define, .sequence].forM fun f => defineForm f.name (.standard f)
  [Primitive.eq, .sub].forM fun p => defineProcedure (.primitive p)
  defineHosted "ex" { required := 1, optional := 0, rest := false } "exec"

/-- The failure that a text ends in, in such a context. -/
def Probe.failure? (text : String) : Option String :=
  match Heap.create { chunkCells := 128 }, SymbolTable.create 16 with
  | .ok heap, .ok symbols =>
    match (do counting; exec host text false : Run Value) (bare heap symbols 6) with
    | .ok _ c => some c.failure
    | .error _ _ => none
  | _, _ => none

/-- **Behind a text, self tail calls make the evaluation deeper**; behind a constant, they do not. -/
theorem Probe.count_deepens :
    failure? "(define (count n) (if (= n 0) 7 (begin 1 (count (- n 1))))) (count 2)" = some "" ∧
    failure? "(define (count n) (if (= n 0) 7 (begin (ex \"1\") (count (- n 1))))) (count 2)" =
      some "In count:\nIn count:\nEvaluation too deep" := by
  decide +kernel

/-- By itself, such a text comes to its end. -/
example : Probe.failure? "(ex \"1\")" = some "" := by decide +kernel

end Probes

end LispMachine
