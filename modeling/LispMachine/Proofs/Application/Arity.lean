import LispMachine.Proofs.Application.Entering
import LispMachine.Proofs.Balance.Evaluation

/-!
# Numbers of arguments

* `Applying.native` -- a native is called with its arguments laid out, or fails;
* `Heap.Arises.arity` -- **what is applied to a proper list of arguments is run exactly if they fit**: a
  function in a frame that maps its parameters to them, a native on as many of them as its arity has
  slots.
-/

namespace LispMachine

open Context

variable {c : Context} {host : Host} {func args last : Value} {names values held : List Value}
variable {ns cells : List Addr} {behind : List Pending} {x : Run Next} {p : Procedure}

/-! ## 1. Natives -/

theorem Heap.typeOf_of_procedure? {h : Heap} (hp : h.procedure? func = some p) :
    h.typeOf func = CoreType.native.id := by
  rw [Heap.procedure?] at hp
  split at hp
  · split at hp
    · assumption
    · cases hp
  · cases hp

/-- A native runs on the arguments that its arity makes of a list, or fails. -/
theorem Machine.enterNative_run (hp : c.heap.procedure? func = some p) :
    Machine.enterNative host func args c =
      (match Machine.takeArguments c.heap p.arity args with
        | .ok given => Machine.runProcedure host p given
        | .error misfit => failNext (misfit.message p.name)) c := by
  have hfound : look (·.procedure? func) c = .ok (some p) c := run_look hp
  exact run_bind hfound

/-- **Whatever the way, a native is applied by laying out its arguments.** -/
theorem Machine.Applying.native (hx : Machine.Applying host c func args held behind x)
    (hok : c.failing = false) (hp : c.heap.procedure? func = some p) :
    ∃ roots, (∀ base, .release base ∈ behind → base ≤ roots.size) ∧
      x c = Machine.before (match Machine.takeArguments (c.withRoots roots).heap p.arity args with
        | .ok given => Machine.runProcedure host p given
        | .error misfit => failNext (misfit.message p.name)) behind (c.withRoots roots) := by
  have htype := Heap.typeOf_of_procedure? hp
  cases hx with
  | apply =>
    refine ⟨(c.heap.roots.push func).push args, fun base hmem => ?_,
      (Machine.enterApply_native htype).trans (run_bind_congr_left ?_)⟩
    · cases List.mem_singleton.mp hmem
      simp only [Array.size_push]
      omega
    · exact Machine.enterNative_run (c := c.withRoots _) hp
  | @call tail form hself =>
    refine ⟨c.heap.roots.push form, nofun, (Machine.resumeCall_native hok htype).trans ?_⟩
    rw [Machine.before_nil]
    exact Machine.enterNative_run (c := c.withRoots _) hp
  | again _ hfunc =>
    rw [htype] at hfunc
    cases hfunc

theorem failNext_run (hok : c.failing = false) (text : String) : failNext text c =
    .ok (.give .nil) { c with failing := true, failure := Text.clip failureCap text } :=
  run_bind (fail_run hok text)

/-! ## 2. Proper lists of arguments -/

/-- **What is applied to a proper list of arguments is run exactly if they fit.** Whatever the way, and
    whatever is collected meanwhile, unless the heap is exhausted:

    the body of a function begins if there are as many arguments as names, or at least as many with a
    symbol for the rest. In its frame, which is a fresh one, each name has its argument, the last one that
    it is paired with, and the symbol has what is left of the list. With other numbers the call fails, no
    form is evaluated, and the arguments are called too few or too many;

    a native is called if it has its required arguments and, without a rest, no more than its optional
    ones besides. It receives as many values as its arity has slots. With other numbers it fails. -/
theorem Heap.Arises.arity {cfg : Config} {ops : List Heap.Operation} (ha : Heap.Arises cfg ops c.heap)
    (hok : c.failing = false) (hx : Machine.Applying host c func args held behind x)
    (hargs : c.heap.Lists args values cells) :
    (∀ names ns last, c.heap.typeOf func = CoreType.func.id →
      c.heap.Links (c.heap.closure func).params names ns last → last.isPair = false →
      (Machine.Fits names last values.length → TurnsInto x c fun y c' => ∃ f, Machine.Begins c func args
        (Machine.bindings names last values (c.heap.cdr^[names.length] args)) held behind f y c') ∧
      (¬ Machine.Fits names last values.length → Attains x c fun next c' =>
        next = { task := .give .nil, pending := behind } ∧ ∃ c₁, c₁.failure =
          (if values.length < names.length then "Not enough arguments for function"
            else "Too many arguments for function") ∧ Aborted c₁ c')) ∧
    (∀ p, c.heap.procedure? func = some p → ∃ roots : Array Value,
      (p.arity.Takes values.length → ∃ given : List Value,
        given = p.arity.given values (c.heap.cdr^[p.arity.required + p.arity.optional] args) ∧
        given.length = p.arity.slots ∧
        x c = Machine.before (Machine.runProcedure host p given) behind (c.withRoots roots)) ∧
      (¬ p.arity.Takes values.length → x c = .ok { task := .give .nil, pending := behind }
        { c.withRoots roots with
          failing := true
          failure := Text.clip failureCap ((if values.length < p.arity.required then
            "Too few arguments for " else "Too many arguments for ") ++ p.name) })) := by
  have hv := ha.kept.valid
  have ht : c.heap.types.traces CoreType.func.id = true := by
    rw [TypeTable.traces, ha.core_types .func]
    rfl
  refine ⟨fun names ns last htype hn hlast => ?_, fun p hp => ?_⟩
  · have hm : c.heap.Matching func args names ns last values cells .nil := ⟨hn, hlast, hargs, nofun⟩
    have hfits : Machine.Fits names last values.length ↔ _ := Machine.fits_iff hargs
    refine ⟨fun hfit => ?_, fun hnot =>
      (hx.misfits hv ht hok htype hm fun hle => ?_).weaken fun _ _ h => ⟨h.1, h.2.2⟩⟩
    · obtain ⟨hle, hend⟩ := hfits.mp hfit
      exact hx.begins hv ht hok htype hm hle hend
    · exact Bool.eq_false_iff.mpr fun hend => hnot (hfits.mpr ⟨hle, hend⟩)
  · obtain ⟨roots, -, hrun⟩ := hx.native hok hp
    have hlist : (c.withRoots roots).heap.Lists args values cells := hargs.congr fun _ _ => rfl
    rw [Machine.takeArguments_proper hlist] at hrun
    refine ⟨roots, fun htakes => ⟨_, rfl, Arity.length_given .., ?_⟩, fun hnot => hrun.trans ?_⟩
    · rw [hrun, if_pos htakes]
      rfl
    · have hfail := fun text => run_bind (f := fun next : Next => (pure { next with pending := next.pending ++ behind } :
        Run Next)) (failNext_run (c := c.withRoots roots) hok text)
      rw [if_neg hnot]
      by_cases hfew : values.length < p.arity.required
      · rw [if_pos hfew, if_pos hfew]
        exact hfail _
      · rw [if_neg hfew, if_neg hfew]
        exact hfail _

/-- A heap with the function `6` of the parameters `(a a . r)`, and with the list `9` of three integers. -/
def Context.applicable : Context :=
  { Context.within with
    heap := { Context.within.heap with
      chunkCells := 15
      growth := .fixed
      cells := #[.pair (.sym 0) (.sym 1), .pair (.sym 0) (.pair 0), .pair .nil .nil, .pair .nil (.pair 2),
        .pair (.pair 1) (.pair 3), .pair .nil (.pair 4), .object CoreType.func.id (.closure (.pair 5)),
        .pair (.int 3) .nil, .pair (.int 2) (.pair 7), .pair (.int 1) (.pair 8), .free (some 11), .free (some 12),
        .free (some 13), .free (some 14), .free none]
      chunks := #[{ head := some 10, freeCount := 5 }]
      stats := { chunks := 1 } }
    current := .nil }

theorem Context.arises_applicable : Heap.Arises { chunkCells := 15, growth := .fixed }
    [.cons (.int 1) (.pair 8), .cons (.int 2) (.pair 7), .cons (.int 3) .nil,
      .make CoreType.func.id (.closure (.pair 5)), .cons .nil (.pair 4), .cons (.pair 1) (.pair 3),
      .cons .nil (.pair 2), .cons .nil .nil, .cons (.sym 0) (.pair 0), .cons (.sym 0) (.sym 1)]
    Context.applicable.heap :=
  .perform (.perform (.perform (.perform (.perform (.perform (.perform (.perform (.perform (.perform
    (.create rfl) _ rfl) _ rfl) _ rfl) _ rfl) _ rfl) _ rfl) _ rfl) _ rfl) _ rfl) _ rfl

/-- A name that is paired with two arguments has the second one, and the rest is the tail of the list. -/
theorem Context.apply_applicable : ∃ (y : Run Next) (c' : Context) (f : Addr),
    (Task.apply (.object 6) (.pair 9)).step Host.none Context.applicable = y c' ∧
      c'.own? f (.sym 0) = some (.int 2) ∧ c'.own? f (.sym 1) = some (.pair 7) ∧
      c'.heap.spine (.pair 7) = { items := [.int 3], ending := .at .nil } := by
  have hend : endsWith ((Task.apply (.object 6) (.pair 9)).step Host.none) Context.applicable
      (fun _ _ => true) = true := by decide +kernel
  have hargs : Context.applicable.heap.Lists (.pair 9) [.int 1, .int 2, .int 3] [9, 8, 7] :=
    .cons rfl (.cons rfl (.cons rfl .nil))
  have hx : Machine.Applying Host.none Context.applicable (.object 6) (.pair 9) _ _ _ := .apply _ _
  obtain ⟨hfunctions, -⟩ := Context.arises_applicable.arity rfl hx hargs
  obtain ⟨hfits, -⟩ := hfunctions [.sym 0, .sym 0] [1, 0] (.sym 1) rfl (.cons rfl (.cons rfl .nil)) rfl
  obtain ⟨c', hfault⟩ | ⟨y, c', ⟨f, hbegins⟩, hrun⟩ := hfits (by decide)
  · obtain ⟨_, _, hrun, -⟩ := exists_of_endsWith hend
    cases hfault.symm.trans hrun
  · refine ⟨y, c', f, hrun, hbegins.own _, hbegins.own _, ?_⟩
    cases hbegins.args _ _ _ hargs with
    | cons _ hsecond =>
      cases hsecond with
      | cons _ hthird =>
        have hspine := hthird.spine rfl
        cases hthird
        exact hspine

end LispMachine
