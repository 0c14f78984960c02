import LispMachine.Proofs.Race
import LispMachine.Proofs.Trampoline.Course
import LispMachine.Proofs.Twin.Execution

/-!
# Evaluated forms are proper lists

The list of an evaluated form is built from cells that nobody else has until it is done: that two runs of
one program agree says so, also of one run beside itself. So whatever the program has tied into knots, the
list that is handed to a call ends in nil:

* `Heap.IsProper` -- a proper list of any length, and how it is walked;
* `Twin.Building.isProper` -- **a list that is being built ends in nil**;
* `Machine.Mirrored` -- the machine beside itself; `Mirrored.step` says that a step keeps it so;
* `Machine.Mirrored.argument` -- what the last argument of a form completes is a proper list.
-/

namespace LispMachine

/-! ## 1. Proper lists -/

namespace Heap

variable {h h' : Heap} {v : Value} {n : Nat}

/-- A list that ends in nil. -/
def IsProper (h : Heap) (v : Value) : Prop := ∃ n, h.Proper v n

theorem isProper_nil (h : Heap) : h.IsProper .nil := by
  refine ⟨0, fun j hj => ?_, rfl⟩
  cases hj

/-- What follows the first pair of a proper list is one. -/
theorem IsProper.cdr (hv : h.IsProper v) : h.IsProper (h.cdr v) := by
  obtain ⟨n, hpair, hend⟩ := hv
  cases n with
  | zero =>
    have hnil : v = .nil := hend
    rw [hnil]
    exact h.isProper_nil
  | succ n => exact ⟨n, fun j hj => hpair (j + 1) (Nat.succ_lt_succ hj), hend⟩

theorem IsProper.iterate (hv : h.IsProper v) (k : Nat) : h.IsProper (h.cdr^[k] v) := by
  induction k with
  | zero => exact hv
  | succ k ih =>
    rw [Function.iterate_succ_apply']
    exact ih.cdr

/-- The walk is along the cells alone. -/
theorem IsProper.congr (hv : h.IsProper v) (hcells : h'.cells = h.cells) : h'.IsProper v := by
  obtain ⟨n, hn⟩ := hv
  have hcdr : h'.cdr = h.cdr := by
    funext u
    cases u with
    | pair a => rw [Heap.cdr, Heap.cdr, hcells]
    | _ => rfl
  refine ⟨n, ?_⟩
  rw [Proper, hcdr]
  exact hn

end Heap

/-! ## 2. Lists that are being built -/

section Lists

variable {lex : Lexicon} {T : Twin} {S : Shape → Prop} {k : Nat} {ρ : Role} {σ : Option Shape}
variable {v last last' : Value}

/-- **A list that is being built ends in nil**, behind its last pair. -/
theorem Twin.Building.isProper (h : T.Building S k ρ σ last last') (hT : T.Coherent lex)
    (hv : T.left.roots[k]? = some v) : T.left.IsProper v := by
  cases h with
  | empty hl _ =>
    cases hv.symm.trans hl
    exact T.left.isProper_nil
  | @last a b s x x' _ hw hl _ hheld =>
    obtain ⟨-, start, j, hstart, hj, hpairs⟩ := hheld.follows hT rfl rfl hw
    cases hv.symm.trans hstart
    refine ⟨j + 1, fun i hi => hpairs i (Nat.le_of_lt_succ hi), ?_⟩
    rw [Function.iterate_succ_apply', hj, cdr_of_pair hl]

variable {D : Couple} {n : Nat} {γ : Value × Value} {p : Pending} {tail : Bool} {ps ps' : List Pending}

/-- A call waits for an evaluated form. -/
theorem Waiting.role_of_call (h : Waiting lex D n γ ρ (.call tail :: ps) ps') : ρ = .just .form := by
  cases h with
  | call _ _ => rfl

/-- Only the step that waits for an argument hands an evaluated form on. -/
theorem Waiting.before_call (h : Waiting lex D n γ ρ (p :: .call tail :: ps) ps') :
    ∃ env rest base last, p = .argument env rest base last := by
  cases h with
  | argument _ _ _ _ _ _ _ _ => exact ⟨_, _, _, _, rfl⟩
  | exec _ _ hw | leave _ _ hw | release _ _ hw | call _ hw | body _ _ _ _ _ _ _ hw | branch _ _ _ hw
  | define _ _ hw | assign _ _ hw | sequence _ _ _ hw | conjunction _ _ _ hw | disjunction _ _ _ hw
  | binding _ _ _ _ _ _ hw => cases hw.role_of_call

end Lists

namespace Machine

variable {lex : Lexicon} {host : Host} {σ σ' : State} {c c' : Context} {task : Task} {v w : Value}
variable {p : Pending} {ps : List Pending} {tail : Bool}

/-! ## 3. The machine beside itself -/

/-- One context beside itself. -/
def beside (W : World) (c : Context) : Couple := ⟨W, c, c, id⟩

/-- **A machine that agrees with itself**: each of its cells is for one thing. -/
structure Mirrored (lex : Lexicon) (σ : State) : Prop where
  plain : lex.nested = false
  full : lex.vacant = none
  agree : ∃ γ W, (beside W σ.context).Matched lex γ ∧ Lexical lex (beside W σ.context) ∧
    Together lex γ (beside W σ.context) σ.task σ.pending σ.task σ.pending

namespace Mirrored

/-- What an action leads to if it is taken on both sides: one context beside itself again. -/
theorem of_steps {α : Type} {S : Shape → Prop} {n : Nat} {D : Couple} {x x' : Run α} {a : α}
    {P : Value × Value → Couple → α → α → Prop} (hx : Steps lex S n D x x' P)
    (hplain : lex.nested = false) (hrun : x D.left = .ok a c) (hrun' : x' D.right = .ok a c) :
    ∃ γ W, (beside W c).Matched lex γ ∧ D.Onward S n (beside W c) ∧ P γ (beside W c) a a := by
  rw [Steps, hrun, hrun'] at hx
  cases hx with
  | @ok γ W slot _ _ _ _ hD ho hq =>
    have hslot : slot = id := hD.coherent.plain hplain
    subst hslot
    exact ⟨γ, W, hD, ho, hq⟩

/-- A step of the machine is one of the evaluator with the trampoline. -/
theorem moves_of_step (hs : Step host σ σ') : Moves host true σ σ' := by
  cases hs with
  | resume hrun => exact .resume (by rw [Pending.resumeBy_true]; exact hrun)
  | @work c c' task ps next htask hrun =>
    have hadvance : advance host true task ps c = .ok { next with pending := next.pending ++ ps } c' := by
      cases task with
      | give v => exact absurd rfl (htask v)
      | _ => exact run_bind hrun
    exact .step (.inr htask) hadvance

/-- **A step keeps the machine in agreement with itself.** -/
theorem step (h : Mirrored lex σ) (hs : Step host σ σ') : Mirrored lex σ' := by
  obtain ⟨hplain, hfull, γ, W, hD, hlex, htogether⟩ := h
  obtain ⟨hgo, hrun⟩ := moves_of_step hs
  obtain ⟨n, ρ, hn, ht, hw⟩ := Leads.together_plain hplain htogether
  have hsteps : Steps lex Shape.Fixed 0 (beside W _) (advance host true _ _)
      (advance host (!lex.nested) _ _) (Leads.Advanced lex) :=
    Leads.advance hD hlex hfull hn ht hw hgo fun hnested => absurd hnested (Bool.eq_false_iff.mp hplain)
  rw [hplain] at hsteps
  obtain ⟨γ', W', hD', ho, hadvanced⟩ := of_steps hsteps hplain hrun hrun
  exact ⟨hplain, hfull, γ', W', hD', hlex.onward ho, hadvanced⟩

/-- A text begins in a context that agrees with itself. -/
theorem exec {source : List Char} {echo : Bool} {W : World} (hplain : lex.nested = false)
    (hfull : lex.vacant = none) (hD : (beside W c).Matched lex (.nil, .nil))
    (hlex : Lexical lex (beside W c)) (hs : Step host ⟨c, .exec source echo, []⟩ σ) : Mirrored lex σ := by
  cases hs with
  | @work _ c' _ _ next _ hrun =>
    have hsteps : Steps lex Shape.Fixed 0 (beside W c) (Machine.enterExec source echo)
        (Machine.enterExec source echo) (Continues lex [] []) :=
      Leads.continues hD (Leads.enterExec hD hlex (Nat.zero_le _)) .nil
    obtain ⟨γ, W', hD', ho, hnext⟩ := of_steps hsteps hplain hrun hrun
    exact ⟨hplain, hfull, γ, W', hD', hlex.onward ho, hnext⟩

/-- When nothing is left to do, no function is running. -/
theorem finished (h : Mirrored lex ⟨c, .give v, []⟩) :
    ∃ W, (beside W c).Matched lex (.nil, .nil) ∧ Lexical lex (beside W c) := by
  obtain ⟨hplain, -, γ, W, hD, hlex, htogether⟩ := h
  obtain ⟨n, ρ, -, -, hw⟩ := Leads.together_plain hplain htogether
  cases hw with
  | nil => exact ⟨W, hD, hlex⟩

/-! ## 4. Lists of arguments -/

/-- Nothing but a list of arguments comes to a call: it is evaluated, or its last element has come. -/
theorem before_call (h : Mirrored lex ⟨c, task, .call tail :: ps⟩) :
    (∃ u, task = .give u) ∨ ∃ env list, task = .evalList env list := by
  obtain ⟨hplain, -, γ, W, -, -, htogether⟩ := h
  obtain ⟨n, ρ, -, ht, hw⟩ := Leads.together_plain hplain htogether
  obtain rfl := hw.role_of_call
  cases ht with
  | give _ => exact .inl ⟨_, rfl⟩
  | evalList _ _ _ => exact .inr ⟨_, _, rfl⟩

theorem resumed_before_call (h : Mirrored lex ⟨c, .give v, p :: .call tail :: ps⟩) :
    ∃ env rest base last, p = .argument env rest base last := by
  obtain ⟨hplain, -, γ, W, -, -, htogether⟩ := h
  obtain ⟨n, ρ, -, -, hw⟩ := Leads.together_plain hplain htogether
  exact hw.before_call

end Mirrored

/-- The value that a step gives, if it gives one, is a proper list. -/
def GivesList (next : Next) (c : Context) : Prop := ∀ u, next.task = .give u → c.heap.IsProper u

theorem givesList_nil (c : Context) : GivesList (.give .nil) c := by
  rintro _ ⟨⟩
  exact c.heap.isProper_nil

section Arguments

variable {env rest list last : Value} {base : Nat}

/-- A list of arguments is done once no pairs are left. -/
theorem enterArguments_givesList (hout : ∀ out, c.heap.roots[base]? = some out → c.heap.IsProper out) :
    Yields (enterArguments env rest base last) c GivesList := by
  unfold enterArguments
  refine .ite (fun _ => .look (.pure nofun)) fun _ => ?_
  intro next c' hrun
  obtain ⟨out, c₁, hroot, hrun⟩ := bind_eq_ok.mp hrun
  obtain ⟨_, c₂, hpop, hgive⟩ := bind_eq_ok.mp hrun
  have hslot : c.heap.roots[base]? = some out ∧ c₁ = c := by
    refine Yields.lift (R := fun u d => c.heap.roots[base]? = some u ∧ d = c) (fun u g hu => ?_) out c₁ hroot
    unfold Heap.root at hu
    split at hu
    · cases hu
      exact ⟨‹_›, rfl⟩
    · cases hu
  obtain ⟨hslot, rfl⟩ := hslot
  have hcells : c₂.heap.cells = c₁.heap.cells := by
    refine Yields.lift (R := fun _ d => d.heap.cells = c₁.heap.cells) (fun _ g hg => ?_) _ c₂ hpop
    unfold Heap.popRoots at hg
    split at hg
    · cases hg
      rfl
    · cases hg
  cases hgive
  rintro _ ⟨⟩
  exact (hout out hslot).congr hcells

/-- The evaluation of a list gives none before there are arguments. -/
theorem enterEvalList_givesList (env list : Value) : Yields (enterEvalList env list) c GivesList := by
  unfold enterEvalList
  intro next c' hrun
  obtain ⟨base, c₁, hpush, hrest⟩ := bind_eq_ok.mp hrun
  cases hpush
  refine enterArguments_givesList (fun out hout => ?_) next c' hrest
  have hnil : (c.heap.roots.push .nil)[c.heap.roots.size]? = some out := hout
  rw [Array.getElem?_push_size] at hnil
  cases hnil
  exact Heap.isProper_nil _

/-- **What the last argument of a form completes is a proper list.** -/
theorem Mirrored.argument (h : Mirrored lex ⟨c, .give v, .argument env rest base last :: ps⟩) :
    Yields (resumeArgument env rest base last v) c GivesList := by
  obtain ⟨hplain, -, γ, W, hD, -, htogether⟩ := h
  obtain ⟨n, ρ, -, ht, hw⟩ := Leads.together_plain hplain htogether
  cases ht with
  | give hv =>
  cases hw with
  | @argument n base _ γ s shape _ _ _ _ _ _ _ _ _ hb' _ _ _ hσ hlast _ =>
  unfold resumeArgument
  refine .observe (.ite (fun _ => ?_) fun _ => ?_)
  · refine Yields.bind (P := fun _ _ => True) (fun _ _ _ => trivial) fun _ c' _ => .pure (givesList_nil c')
  · intro next c' hrun
    obtain ⟨cell, c₁, happend, hrest⟩ := bind_eq_ok.mp hrun
    have hnext : (beside W c).world.Rel (nextRole (.just .form) shape) v v := by
      cases shape with
      | none => exact hv
      | some t =>
        rw [nextRole, hσ t rfl]
        exact hv
    have hsteps := Leads.append (ρ := .just .form) hD (Nat.le_refl base) trivial hlast hnext
    obtain ⟨γ', W', hD', -, -, -, hbuilding⟩ := Mirrored.of_steps hsteps hplain happend happend
    have hfinish : Yields (do enterArguments env (← Context.look (·.cdr rest)) base cell) c₁ GivesList :=
      .look (enterArguments_givesList fun out hout => hbuilding.isProper hD'.coherent hout)
    exact hfinish next c' hrest

end Arguments

end Machine

end LispMachine
