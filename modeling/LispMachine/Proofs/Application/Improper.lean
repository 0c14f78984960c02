import LispMachine.Probe
import LispMachine.Proofs.Application.Arity
import LispMachine.Proofs.Listener.Running
import LispMachine.Session

/-!
# Arguments that are no proper list

A value that is applied to something else than a proper list ends in the failure that its arguments do
not fit, with one exception: an optional argument of a native is taken from whatever follows the last
pair, as if that were the end.

* `Heap.Improper` -- a dotted list, a value that is no list, or a list that does not end;
* `Heap.improper_of_not_list` -- what is no proper list is one of these, as far as its pairs are there;
* `Arity.Overlooks` -- the arguments end, in something else than nil, where an optional one is due;
* `Heap.Arises.apply_improper` -- **functions and natives without a rest are not run, and the call fails,
  unless the end of the arguments is overlooked**; then the native runs, and that end is dropped.
-/

namespace LispMachine

open Context

variable {c : Context} {h : Heap} {host : Host} {func args v e : Value} {values xs : List Value}
variable {cells as : List Addr} {p : Procedure} {arity : Arity} {n : Nat}

/-! ## 1. Lists that are not proper -/

/-- Every pair on the way along rest slots is there. -/
def Heap.Whole (h : Heap) (v : Value) : Prop :=
  ∀ j a, h.cdr^[j] v = .pair a → ∃ x y, h.cells[a]? = some (.pair x y)

/-- A list that ends in something else than nil, perhaps without a pair, or one that does not end. -/
def Heap.Improper (h : Heap) (v : Value) : Prop :=
  (∃ xs as e, h.Links v xs as e ∧ e.isPair = false ∧ e.isNil = false) ∨
    ∀ n, ∃ xs as a, xs.length = n ∧ h.Links v xs as (.pair a)

/-- A walk over pairs that are there is a list. -/
theorem Heap.Whole.links (hw : h.Whole v) (hpair : ∀ j, j < n → (h.cdr^[j] v).isPair = true) :
    ∃ as, h.Links v (h.elements v n) as (h.cdr^[n] v) := by
  induction n generalizing v with
  | zero => exact ⟨[], .nil⟩
  | succ n ih =>
    have hfirst : v.isPair = true := hpair 0 (Nat.zero_lt_succ n)
    cases v with
    | pair a =>
      obtain ⟨x, y, hcell⟩ := hw 0 a rfl
      have hcdr := Heap.cdr_of_cell hcell
      have hy : h.Whole y := fun j b hb => hw (j + 1) b (by rwa [Function.iterate_succ_apply, hcdr])
      obtain ⟨as, hl⟩ := ih hy fun j hj => by
        have hnext := hpair (j + 1) (Nat.succ_lt_succ hj)
        rwa [Function.iterate_succ_apply, hcdr] at hnext
      refine ⟨a :: as, ?_⟩
      rw [Heap.elements_succ, Function.iterate_succ_apply, hcdr, Heap.car_of_cell hcell]
      exact .cons hcell hl
    | nil | int _ | sym _ | object _ => cases hfirst

/-- The pairs of a list are there. -/
theorem Heap.Links.whole (hl : h.Links v xs as e) (he : e.isPair = false) : h.Whole v := by
  induction hl with
  | nil =>
    intro j a hj
    cases j with
    | zero =>
      rw [Function.iterate_zero_apply] at hj
      rw [hj] at he
      cases he
    | succ j =>
      rw [Heap.Links.iterate_end he] at hj
      cases hj
  | cons hcell _ ih =>
    intro j b hj
    cases j with
    | zero =>
      cases hj
      exact ⟨_, _, hcell⟩
    | succ j =>
      rw [Function.iterate_succ_apply, Heap.cdr_of_cell hcell] at hj
      exact ih he j b hj

/-- A dotted list is not a proper one. -/
theorem Heap.Links.not_lists (hl : h.Links v xs as e) (he : e.isPair = false) (hnil : e.isNil = false)
    (ys : List Value) (bs : List Addr) : ¬ h.Lists v ys bs := by
  intro hys
  have hend := congrArg Spine.ending ((hl.spine he).symm.trans (hys.spine rfl))
  cases hend
  cases hnil

/-- **What is no proper list** is dotted, or no list, or does not end. -/
theorem Heap.improper_of_not_list (hw : h.Whole v) (hnot : ∀ xs as, ¬ h.Lists v xs as) : h.Improper v := by
  by_cases hend : ∃ n, (h.cdr^[n] v).isPair = false
  · have hbefore : ∀ j, j < Nat.find hend → (h.cdr^[j] v).isPair = true := fun j hj =>
      Bool.not_eq_false _ ▸ Nat.find_min hend hj
    obtain ⟨as, hl⟩ := hw.links hbefore
    refine .inl ⟨_, as, _, hl, Nat.find_spec hend, ?_⟩
    cases hlast : h.cdr^[Nat.find hend] v with
    | nil =>
      rw [hlast] at hl
      exact absurd hl (hnot _ _)
    | pair _ | int _ | sym _ | object _ => rfl
  · have hpair : ∀ n, (h.cdr^[n] v).isPair = true := fun n => Bool.not_eq_false _ ▸ fun hn => hend ⟨n, hn⟩
    refine .inr fun n => ?_
    obtain ⟨as, hl⟩ := hw.links fun j _ => hpair j
    cases hlast : h.cdr^[n] v with
    | pair a =>
      rw [hlast] at hl
      exact ⟨_, as, a, by simp [Heap.elements], hl⟩
    | nil | int _ | sym _ | object _ =>
      have hn := hpair n
      rw [hlast] at hn
      cases hn

/-- After as many pairs as there are, or after any number of them, something is left. -/
theorem Heap.Improper.left (hi : h.Improper v) (n : Nat) : ∃ xs as e, h.Links v xs as e ∧
    (e.isPair = true → n ≤ xs.length) ∧ (n ≤ xs.length → (h.cdr^[n] v).isNil = false) := by
  rcases hi with ⟨xs, as, e, hl, hpair, hnil⟩ | hendless
  · refine ⟨xs, as, e, hl, fun he => ?_, fun hn => ?_⟩
    · rw [hpair] at he
      cases he
    · rcases Nat.lt_or_eq_of_le hn with hlt | rfl
      · obtain ⟨a, -, ha⟩ := hl.walk.1 n hlt
        rw [ha]
        rfl
      · rwa [hl.walk.2.1]
  · obtain ⟨xs, as, a, rfl, hl⟩ := hendless n
    refine ⟨xs, as, _, hl, fun _ => Nat.le_refl _, fun _ => ?_⟩
    rw [hl.walk.2.1]
    rfl

/-- It is no proper list wherever the same cells are. -/
theorem Heap.Improper.congr {h' : Heap} (hi : h.Improper v) (hcells : h'.cells = h.cells) : h'.Improper v := by
  have hlinks : ∀ {xs as e}, h.Links v xs as e → h'.Links v xs as e := fun hl => hl.congr fun _ _ => by rw [hcells]
  rcases hi with ⟨xs, as, e, hl, hend⟩ | hendless
  · exact .inl ⟨xs, as, e, hlinks hl, hend⟩
  · refine .inr fun n => ?_
    obtain ⟨xs, as, a, hlen, hl⟩ := hendless n
    exact ⟨xs, as, a, hlen, hlinks hl⟩

/-! ## 2. Natives -/

/-- **The end of the arguments is overlooked**: an optional argument is due there. -/
def Arity.Overlooks (arity : Arity) (h : Heap) (args : Value) : Prop :=
  ∃ values cells e, h.Links args values cells e ∧ e.isPair = false ∧ arity.required ≤ values.length ∧
    values.length < arity.required + arity.optional

namespace Machine

/-- Without a rest, other ends than nil are noticed where no optional argument is due. -/
theorem takeArguments_improper (hi : h.Improper args) (hrest : arity.rest = false)
    (hnot : ¬ arity.Overlooks h args) : ∃ misfit, takeArguments h arity args = .error misfit := by
  obtain ⟨xs, as, e, hl, hpair, hleft⟩ := hi.left (arity.required + arity.optional)
  rw [takeArguments_eq hl fun he => (Nat.le_add_right _ _).trans (hpair he)]
  dsimp only
  by_cases hfew : xs.length < arity.required
  · exact ⟨.tooFew, if_pos hfew⟩
  rw [if_neg hfew, hrest, Bool.false_or]
  by_cases hall : arity.required + arity.optional ≤ xs.length
  · exact ⟨.tooMany, if_neg (by rw [hleft hall]; exact Bool.false_ne_true)⟩
  · refine absurd ⟨xs, as, e, hl, Bool.eq_false_iff.mpr fun he => hall (hpair he), ?_, ?_⟩ hnot
    · exact Nat.le_of_not_lt hfew
    · exact Nat.lt_of_not_le hall

/-- Where one is due, the arguments are laid out as if nil came there. -/
theorem takeArguments_overlooked (hl : h.Links args values cells e) (he : e.isPair = false)
    (hrest : arity.rest = false) (hfew : arity.required ≤ values.length)
    (hmany : values.length < arity.required + arity.optional) :
    takeArguments h arity args =
      .ok (values ++ List.replicate (arity.required + arity.optional - values.length) .nil) := by
  have hnil : h.cdr^[arity.required + arity.optional] args = .nil := by
    obtain ⟨k, hk⟩ := Nat.exists_eq_add_of_lt hmany
    rw [hk, Nat.add_assoc, Nat.add_comm, Function.iterate_add_apply, hl.walk.2.1]
    exact Heap.Links.iterate_end he
  rw [takeArguments_eq hl fun hp => absurd hp (by rw [he]; exact Bool.false_ne_true)]
  dsimp only
  rw [if_neg (Nat.not_lt_of_le hfew), hrest, Bool.false_or, hnil, hl.elements_eq he,
    List.take_of_length_le hmany.le, if_pos (show Value.nil.isNil = true from rfl),
    if_neg Bool.false_ne_true, List.append_nil]

end Machine

/-! ## 3. Whole applications -/

/-- An application whose first step gives nil back. -/
theorem Context.apply_of_step {P : Context → Prop}
    (hstep : Attains ((Task.apply func args).step host) c fun next c' =>
      next = { task := .give .nil, pending := [.release c.heap.roots.size] } ∧
        c.heap.roots.size ≤ c'.heap.roots.size ∧ P c') :
    Attains (Context.apply host func args) c fun u c' => u = .nil ∧
      ∃ c₁, P c₁ ∧ c' = c₁.withRoots (c₁.heap.roots.shrink c.heap.roots.size) := by
  obtain ⟨k, hk⟩ : ∃ k, Machine.ample = k + 3 := ⟨_, rfl⟩
  rw [Context.apply, hk]
  refine hstep.bind fun next c₁ h => ?_
  obtain ⟨rfl, hroots, hp⟩ := h
  have hpop : (Pending.release c.heap.roots.size).resume host .nil c₁ =
      .ok (.give .nil) (c₁.withRoots (c₁.heap.roots.shrink c.heap.roots.size)) := by
    have hdrop : (liftM (Heap.popRoots c.heap.roots.size) : Run Unit) c₁ =
        .ok () (c₁.withRoots (c₁.heap.roots.shrink c.heap.roots.size)) := by
      show onHeap (Heap.popRoots _) c₁ = _
      rw [onHeap, Heap.popRoots_eq_ok.mpr ⟨hroots, rfl⟩]
      rfl
    exact run_bind hdrop
  exact .after hpop (.pure ⟨rfl, c₁, hp, rfl⟩)

/-- **Arguments that are no proper list are noticed**, unless an optional argument is due where they end.
    A function without a rest symbol and a native without a rest are not run: the first step gives nil
    back, and the application ends with nil and a failure. But a native for which such an optional
    argument is due runs, on the elements that there are and on nil, and what follows them is dropped. -/
theorem Heap.Arises.apply_improper {cfg : Config} {ops : List Heap.Operation} (ha : Heap.Arises cfg ops c.heap)
    (host : Host) (func : Value) (hok : c.failing = false) (hw : c.heap.Whole args)
    (hnot : ∀ values cells, ¬ c.heap.Lists args values cells) :
    (∀ names ns last, c.heap.typeOf func = CoreType.func.id →
      c.heap.Links (c.heap.closure func).params names ns last → last.isPair = false → last.isSym = false →
      Attains ((Task.apply func args).step host) c (fun next _ =>
        next = { task := .give .nil, pending := [.release c.heap.roots.size] }) ∧
      Attains (Context.apply host func args) c fun u c' => u = .nil ∧ c'.failing = true ∧ ∃ c₁,
        (c₁.failure = "Not enough arguments for function" ∨
          c₁.failure = "Too many arguments for function") ∧ Aborted c₁ c') ∧
    (∀ p, c.heap.procedure? func = some p → p.arity.rest = false →
      (¬ p.arity.Overlooks c.heap args →
        Attains ((Task.apply func args).step host) c (fun next _ =>
          next = { task := .give .nil, pending := [.release c.heap.roots.size] }) ∧
        Attains (Context.apply host func args) c fun u c' => u = .nil ∧ c'.failing = true ∧
          ∃ misfit : Machine.Misfit, c'.failure = Text.clip failureCap (misfit.message p.name)) ∧
      (∀ values cells e, c.heap.Links args values cells e → e.isPair = false →
        p.arity.required ≤ values.length → values.length < p.arity.required + p.arity.optional →
        ∃ roots, (Task.apply func args).step host c = Machine.before (Machine.runProcedure host p
          (values ++ List.replicate (p.arity.required + p.arity.optional - values.length) .nil))
            [.release c.heap.roots.size] (c.withRoots roots))) := by
  have hi := Heap.improper_of_not_list hw hnot
  have hx : Machine.Applying host c func args _ _ _ := .apply func args
  refine ⟨fun names ns last htype hn hlast hsym => ?_, fun p hp hrest => ?_⟩
  · have ht : c.heap.types.traces CoreType.func.id = true := by
      rw [TypeTable.traces, ha.core_types .func]
      rfl
    obtain ⟨values, cells, e, hl, henough, hleft⟩ := hi.left names.length
    have hstep := hx.misfits ha.kept.valid ht hok htype ⟨hn, hlast, hl, henough⟩ fun hle => by
      rw [hsym, hleft hle]
      rfl
    refine ⟨hstep.weaken fun _ _ h => h.1, (Context.apply_of_step (hstep.weaken fun next c' h =>
      ⟨h.1, h.2.1 _ List.mem_cons_self, h.2.2⟩)).weaken fun u c' h => ?_⟩
    obtain ⟨rfl, c₂, ⟨c₁, hfailure, habort⟩, rfl⟩ := h
    have hlast : Aborted c₂ (c₂.withRoots (c₂.heap.roots.shrink c.heap.roots.size)) :=
      ⟨habort.failing, .cause, by rw [← habort.failing]; rfl⟩
    refine ⟨rfl, habort.failing, c₁, ?_, habort.trans hlast⟩
    rw [hfailure]
    split
    · exact .inl rfl
    · exact .inr rfl
  · obtain ⟨roots, hbelow, hrun⟩ := hx.native hok hp
    refine ⟨fun hnotice => ?_, fun values cells e hl he hfew hmany => ⟨roots, ?_⟩⟩
    · have hi' : (c.withRoots roots).heap.Improper args := hi.congr rfl
      have hnotice' : ¬ p.arity.Overlooks (c.withRoots roots).heap args := by
        rintro ⟨values, cells, e, hl, h⟩
        exact hnotice ⟨values, cells, e, hl.congr fun _ _ => rfl, h⟩
      obtain ⟨misfit, hmisfit⟩ := Machine.takeArguments_improper hi' hrest hnotice'
      rw [hmisfit] at hrun
      have hfail := hrun.trans (run_bind (failNext_run (c := c.withRoots roots) hok _))
      have hstep : Attains ((Task.apply func args).step host) c fun next c' =>
          next = { task := .give .nil, pending := [.release c.heap.roots.size] } ∧
            c.heap.roots.size ≤ c'.heap.roots.size ∧ c'.failing = true ∧
              c'.failure = Text.clip failureCap (misfit.message p.name) :=
        .of_ok hfail ⟨rfl, hbelow _ List.mem_cons_self, rfl, rfl⟩
      refine ⟨hstep.weaken fun _ _ h => h.1, (Context.apply_of_step hstep).weaken fun u c' h => ?_⟩
      obtain ⟨rfl, c₁, ⟨hfailing, hfailure⟩, rfl⟩ := h
      exact ⟨rfl, hfailing, misfit, hfailure⟩
    · have hl' : (c.withRoots roots).heap.Links args values cells e := hl.congr fun _ _ => rfl
      rw [hrun, Machine.takeArguments_overlooked hl' he hrest hfew hmany]

/-- A heap with the list `(1 2 . 3)` at `1`, the function `8` of two parameters, and the native `9` of one
    required and two optional arguments. -/
def Context.dotted : Context :=
  { Context.within with
    heap := { Context.within.heap with
      chunkCells := 15
      growth := .fixed
      cells := #[.pair (.int 2) (.int 3), .pair (.int 1) (.pair 0), .pair (.sym 1) .nil, .pair (.sym 0) (.pair 2),
        .pair .nil .nil, .pair .nil (.pair 4), .pair (.pair 3) (.pair 5), .pair .nil (.pair 6),
        .object CoreType.func.id (.closure (.pair 7)),
        .object CoreType.native.id (.procedure (.hosted "opt" ⟨1, 2, false⟩ "args")), .free (some 11),
        .free (some 12), .free (some 13), .free (some 14), .free none]
      chunks := #[{ head := some 10, freeCount := 5 }]
      stats := { chunks := 1 } }
    current := .nil }

theorem Context.arises_dotted : Heap.Arises { chunkCells := 15, growth := .fixed }
    [.make CoreType.native.id (.procedure (.hosted "opt" ⟨1, 2, false⟩ "args")),
      .make CoreType.func.id (.closure (.pair 7)), .cons .nil (.pair 6), .cons (.pair 3) (.pair 5),
      .cons .nil (.pair 4), .cons .nil .nil, .cons (.sym 0) (.pair 2), .cons (.sym 1) .nil,
      .cons (.int 1) (.pair 0), .cons (.int 2) (.int 3)] Context.dotted.heap :=
  .perform (.perform (.perform (.perform (.perform (.perform (.perform (.perform (.perform (.perform
    (.create rfl) _ rfl) _ rfl) _ rfl) _ rfl) _ rfl) _ rfl) _ rfl) _ rfl) _ rfl) _ rfl

theorem Context.links_dotted : Context.dotted.heap.Links (.pair 1) [.int 1, .int 2] [1, 0] (.int 3) :=
  .cons rfl (.cons rfl .nil)

section Dotted

-- what is applied here is short enough to be run in the middle of a proof
seal Attains

/-- A function of two parameters notices what follows the second argument. -/
theorem Context.apply_improper_dotted : ∃ c', Context.apply Probe.host (.object 8) (.pair 1) Context.dotted =
    .ok .nil c' ∧ c'.failing = true := by
  have hend : endsWith (Machine.run Probe.host 4 (.apply (.object 8) (.pair 1)) []) Context.dotted
      (fun _ _ => true) = true := by decide +kernel
  obtain ⟨hfunctions, -⟩ := Context.arises_dotted.apply_improper Probe.host (.object 8) rfl
    (Context.links_dotted.whole rfl) (Context.links_dotted.not_lists rfl rfl)
  obtain ⟨-, hfails⟩ := hfunctions [.sym 0, .sym 1] [3, 2] .nil rfl (.cons rfl (.cons rfl .nil)) rfl rfl
  obtain ⟨v, c', hrun, -⟩ := exists_of_endsWith hend
  have happly := Machine.run_mono hrun (show 4 ≤ Machine.ample by decide)
  obtain ⟨rfl, hfailing, -⟩ := hfails.ok happly
  exact ⟨c', happly, hfailing⟩

/-- **The end of a dotted list is dropped silently**: the native, which gives its arguments as a list, is
    run on `1`, `2` and nil. -/
theorem Context.apply_overlooked :
    Context.dotted.heap.spine (.pair 1) = { items := [.int 1, .int 2], ending := .at (.int 3) } ∧
    ∃ v c', Context.apply Probe.host (.object 9) (.pair 1) Context.dotted = .ok v c' ∧ c'.failing = false ∧
      c'.heap.spine v = { items := [.int 1, .int 2, .nil], ending := .at .nil } := by
  refine ⟨Context.links_dotted.spine rfl, ?_⟩
  have hend : endsWith (Machine.run Probe.host 4 (.apply (.object 9) (.pair 1)) []) Context.dotted
      (fun v c' => decide (c'.failing = false ∧
        c'.heap.spine v = { items := [.int 1, .int 2, .nil], ending := .at .nil })) = true := by decide +kernel
  obtain ⟨v, c', hrun, hpadded⟩ := exists_of_endsWith hend
  exact ⟨v, c', Machine.run_mono hrun (by decide), of_decide_eq_true hpadded⟩

end Dotted

end LispMachine
