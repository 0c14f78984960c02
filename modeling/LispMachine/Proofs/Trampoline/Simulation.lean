import LispMachine.Proofs.Trampoline.Rebinding

/-!
# Both evaluators, side by side

The evaluator with the trampoline and the one without it come past the same points:

* `Machine.Paired`, `Machine.Tied` -- two machines that do the same next, at once or after the right one has
  handed a value back through calls of its own;
* `Machine.Paired.go` -- **a step on each side**, or a self tail call on the left and a call on the right;
* `Machine.StepsOn` -- a single step on the right, after which both are tied again;
* `Machine.Tied.go` -- both go on to where they are tied again, or neither comes to an end;
* `Machine.Tied.comes`, `Machine.Tied.comes_back` -- **either comes to an end if the other one does**, by
  induction on its budget, and to the same (`Machine.GoesOn.ends`).
-/

namespace LispMachine.Machine

open World Context Relation

variable {lex : Lexicon} {host host' : Host} {σ σ' : State} {budget : Nat} {v v' : Value}
variable {c c' d d' : Context} {task : Task} {ps : List Pending} {next : Next}

/-! ## 1. The left side stands in order -/

/-- A step that leaves no arguments on their way back keeps the evaluator in order. -/
theorem Upright.advance (hhost : host.Balanced) (h : Upright ⟨c, task, ps⟩)
    (hrun : Machine.advance host true task ps c = .ok next c') (hsettled : c'.looping = false) :
    Upright ⟨c', next.task, next.pending⟩ := by
  obtain ⟨base, d, f, t, n, κ, τ, hc, how, ht⟩ := h
  have hstep : ∀ {task : Task} {ps : List Pending},
      Owing base d f t n κ.depth κ.current τ ps → task.Suits κ.current τ →
      (do
        let next ← task.step host
        pure { next with pending := next.pending ++ ps } : Run Next) c = .ok next c' →
      Upright ⟨c', next.task, next.pending⟩ := fun how ht hrun => by
    obtain ⟨next₀, c₀, hnext, hpure⟩ := bind_eq_ok.mp hrun
    cases hpure
    exact .of_goes (Goes.step hhost hc ht how _ _ hnext)
  cases task with
  | give v =>
    cases ps with
    | nil => exact hstep how ht hrun
    | cons p ps =>
      rw [advance_resume, Pending.resumeBy_true] at hrun
      obtain ⟨next₀, c₀, hnext, hpure⟩ := bind_eq_ok.mp hrun
      cases hpure
      rcases Goes.resume hhost hc how _ _ hnext with hgoes | ⟨-, hback⟩
      · exact .of_goes hgoes
      · obtain ⟨_, hc', -⟩ := hback.stance
        rw [show c'.looping = true from congrArg Registers.looping hc'.registers] at hsettled
        cases hsettled
  | eval env expr tail => exact hstep how ht hrun
  | evalList env list => exact hstep how ht hrun
  | apply func args => exact hstep how ht hrun
  | exec source echo => exact hstep how ht hrun

/-- The body that takes arguments back puts the evaluator in order. -/
theorem Bringing.resumeBody {call : Call} {frame forms : Value}
    (h : Bringing c (.body call frame forms :: ps)) (hgoing : c.failing = false)
    (hrun : Pending.resume host v (.body call frame forms) c = .ok next c') :
    Upright ⟨c', next.task, next.pending ++ ps⟩ := by
  obtain ⟨base, d, f, t, n, κ, hc, how⟩ := h
  generalize hk : κ.depth = k at how
  generalize hg : κ.current = g at how
  cases how with
  | body how => exact .of_goes (Goes.resumeBody hc how.le (hk ▸ how) hgoing _ _ hrun)

/-! ## 2. Machines that go on alike -/

/-- Two machines that do the same next. -/
def Paired (lex : Lexicon) (σ σ' : State) : Prop :=
  ∃ W s γ n ρ, (Couple.mk W σ.context σ'.context s).Matched lex γ ∧
    Lexical lex ⟨W, σ.context, σ'.context, s⟩ ∧ n ≤ σ.context.heap.roots.size ∧
    TaskAgree lex ⟨W, σ.context, σ'.context, s⟩ n σ.pending σ'.pending ρ σ.task σ'.task ∧
    Waiting lex ⟨W, σ.context, σ'.context, s⟩ n γ ρ σ.pending σ'.pending

/-- **Two machines that go on alike**, perhaps after the right one has come back from calls of its own. -/
def Tied (lex : Lexicon) (σ σ' : State) : Prop :=
  Upright σ ∧ ∃ W s γ, (Couple.mk W σ.context σ'.context s).Matched lex γ ∧
    Lexical lex ⟨W, σ.context, σ'.context, s⟩ ∧
    Together lex γ ⟨W, σ.context, σ'.context, s⟩ σ.task σ.pending σ'.task σ'.pending

/-- The right side comes back from calls of its own. -/
theorem Tied.settle (host : Host) (h : Tied lex σ σ') :
    ∃ τ, ReflTransGen (Moves host false) σ' τ ∧ Paired lex σ τ := by
  obtain ⟨-, W, s, γ, hD, hlex, htogether⟩ := h
  obtain ⟨c, task, ps⟩ := σ
  obtain ⟨c', task', ps'⟩ := σ'
  cases htogether with
  | task hn ht hw => exact ⟨_, .refl, W, s, γ, _, _, hD, hlex, hn, ht, hw⟩
  | back hv hfail hbehind =>
    obtain ⟨⟨W₁, c₁, c₁', s₁⟩, γ₁, qs', haside, hw, hmoves⟩ := hbehind.settle hD hv hfail
    obtain rfl : c₁ = c := haside.left
    exact ⟨_, hmoves, W₁, s₁, γ₁, _, _, haside.matched, ⟨hlex.forms, hlex.quote⟩, Nat.le_refl _,
      .give haside.value, hw⟩

/-- Both machines go on to where they are tied again, or neither comes to an end. -/
def GoesOn (lex : Lexicon) (host host' : Host) (σ σ' : State) : Prop :=
  (∃ τ τ', TransGen (Moves host true) σ τ ∧ TransGen (Moves host' false) σ' τ' ∧ Tied lex τ τ') ∨
    (∀ v d, ¬ Comes host true σ v d) ∧ ∀ v d, ¬ Comes host' false σ' v d

/-- The right machine goes on by a single step to where both are tied again, or faults, and then the left
    one comes to no end either. -/
def StepsOn (lex : Lexicon) (host host' : Host) (σ σ' : State) : Prop :=
  (∃ τ τ', TransGen (Moves host true) σ τ ∧ Moves host' false σ' τ' ∧ Tied lex τ τ') ∨
    (∀ v d, ¬ Comes host true σ v d) ∧ Unfinished σ'.task σ'.pending ∧
      ∃ e d, Machine.advance host' false σ'.task σ'.pending σ'.context = .error e d

theorem StepsOn.goesOn (h : StepsOn lex host host' σ σ') : GoesOn lex host host' σ σ' := by
  rcases h with ⟨τ, τ', hτ, hmove, htied⟩ | ⟨hleft, hgo, e, d, hfault⟩
  · exact .inl ⟨τ, τ', hτ, .single hmove, htied⟩
  · exact .inr ⟨hleft, fun _ _ => not_comes_of_fault hgo hfault⟩

/-- The next step of the right machine wants neither depth nor cells. -/
structure Free (host : Host) (σ : State) : Prop where
  room : σ.context.depth < σ.context.maxDepth
  spared : Unfinished σ.task σ.pending → ∀ d, Machine.advance host false σ.task σ.pending σ.context ≠ .error .heapExhausted d

theorem Unhindered.free (h : Unhindered host false σ) : Free host σ :=
  ⟨h.room, fun hgo _ hrun => h.fault_ne hgo hrun rfl⟩

section Simulation

variable (hhost : host.Balanced) (hnested : lex.nested = true) (hfull : lex.vacant = none)

include hhost hnested

/-- Steps that agree come to where the machines are tied again. -/
theorem StepsOn.of_steps {W : World} {s : Nat → Nat} {task' : Task} {ps' : List Pending}
    (hup : Upright ⟨c, task, ps⟩) (hlex : Lexical lex ⟨W, c, c', s⟩) (hgo : Unfinished task ps)
    (hgo' : Unfinished task' ps') (hclear : Unhindered host true ⟨c, task, ps⟩)
    (hfree : Free host' ⟨c', task', ps'⟩)
    (hstep : Steps lex Shape.Fixed 0 ⟨W, c, c', s⟩ (Machine.advance host true task ps)
      (Machine.advance host' false task' ps') (Leads.Advanced lex)) :
    StepsOn lex host host' ⟨c, task, ps⟩ ⟨c', task', ps'⟩ := by
  rw [Steps] at hstep
  generalize hr : Machine.advance host true task ps _ = r at hstep
  generalize hr' : Machine.advance host' false task' ps' _ = r' at hstep
  cases hstep with
  | ok hg ho hq =>
    exact .inl ⟨_, _, .single (.step hgo hr), .step hgo' hr',
      hup.advance hhost hr (hg.settled hnested), _, _, _, hg, hlex.onward ho, hq⟩
  | fault _ => exact .inr ⟨fun _ _ => not_comes_of_fault hgo hr, hgo', _, _, hr'⟩
  | exhausted_left _ => exact absurd rfl (hclear.fault_ne hgo hr)
  | exhausted_right => exact absurd hr' (hfree.spared hgo' _)

/-- A source text is begun on each side. -/
theorem exec_stepsOn {W : World} {s : Nat → Nat} {source : List Char} {echo : Bool}
    (hD : (Couple.mk W c c' s).Matched lex (.nil, .nil)) (hlex : Lexical lex ⟨W, c, c', s⟩)
    (hclear : Unhindered host true ⟨c, .exec source echo, []⟩)
    (hfree : Free host' ⟨c', .exec source echo, []⟩) :
    StepsOn lex host host' ⟨c, .exec source echo, []⟩ ⟨c', .exec source echo, []⟩ := by
  have hup : Upright ⟨c, .exec source echo, []⟩ :=
    ⟨c.heap.roots, c.depth, c.current, false, _, c.registers, false, .refl c, .nil, .exec hD.current_left⟩
  have hbegun : Steps lex Shape.Fixed 0 ⟨W, c, c', s⟩ (Machine.enterExec source echo)
      (Machine.enterExec source echo) (Continues lex [] []) :=
    Leads.continues hD (Leads.enterExec hD hlex (Nat.zero_le _)) .nil
  exact .of_steps hhost hnested hup hlex (.inr nofun) (.inr nofun) hclear hfree
    (Leads.advanced hD hbegun)

include hfull

/-- A step on each side. -/
theorem Paired.advance (h : Paired lex σ σ') (hup : Upright σ) (hgo : Unfinished σ.task σ.pending)
    (hclear : Unhindered host true σ) (hfree : Free host' σ')
    (hstarts : ∀ {v qs}, σ.task = .give v → σ.pending = .call true :: qs → ¬ IsSelfCall σ.context v) :
    StepsOn lex host host' σ σ' := by
  obtain ⟨W, s, γ, n, ρ, hD, hlex, hn, ht, hw⟩ := h
  obtain ⟨c, task, ps⟩ := σ
  obtain ⟨c', task', ps'⟩ := σ'
  have hordinary : Leads.Ordinary ⟨W, c, c', s⟩ task ps :=
    { room := ⟨hclear.room, hfree.room⟩
      exact := fun htask hps => by
        subst htask hps
        exact hup.height_body
      starts := hstarts }
  have hstep : Steps lex Shape.Fixed 0 ⟨W, c, c', s⟩ (Machine.advance host true task ps)
      (Machine.advance host' (!lex.nested) task' ps') (Leads.Advanced lex) :=
    Leads.advance hD hlex hfull hn ht hw hgo fun _ => hordinary
  rw [hnested] at hstep
  exact .of_steps hhost hnested hup hlex hgo (ht.unfinished hw hgo) hclear hfree hstep

/-- A self tail call on the left side, and a call on the right. -/
theorem Paired.selfCall {c : Context} {form : Value} {ps : List Pending}
    (h : Paired lex ⟨c, .give form, .call true :: ps⟩ σ')
    (hup : Upright ⟨c, .give form, .call true :: ps⟩) (hself : IsSelfCall c form)
    (hclear : Unhindered host true ⟨c, .give form, .call true :: ps⟩)
    (hfree : Free host' σ') :
    StepsOn lex host host' ⟨c, .give form, .call true :: ps⟩ σ' := by
  obtain ⟨W, s, γ, n, ρ, hD, hlex, hn, ht, hw⟩ := h
  obtain ⟨c', task', ps'⟩ := σ'
  cases ht with
  | give hv =>
    rename_i form'
    replace hw : Waiting lex ⟨W, c, c', s⟩ n γ ρ (.call true :: ps) ps' := hw
    cases ps' with
    | nil => cases hw
    | cons p' ps' =>
      obtain ⟨rfl, rfl⟩ : ρ = .just .form ∧ p' = .call true := by
        cases hw
        exact ⟨rfl, rfl⟩
      obtain ⟨c₁, v, call, frame, forms, qs, D', x, x', hmoves, hbringing, hgoing, hx, hx', hforms,
        hsymbols, hstep⟩ := Leads.selfCall host' hhost hD hnested hfull hn hv hself hw hup
      have hlex' : Lexical lex D' :=
        ⟨by rw [hforms]; exact hlex.forms, by rw [hsymbols]; exact hlex.quote⟩
      have htrue := congrFun (Pending.resumeBy_true host v (.body call frame forms)) c₁
      rw [Steps, ← hx, ← hx', ← htrue] at hstep
      generalize hr : Pending.resumeBy host true v (.body call frame forms) c₁ = r at hstep htrue
      generalize hr' : Pending.resumeBy host' false form' (.call true) c' = r' at hstep
      have hgo : Unfinished (.give v) (.body call frame forms :: qs) := .inl (List.cons_ne_nil _ _)
      have hgo' : Unfinished (.give form') (.call true :: ps') := .inl (List.cons_ne_nil _ _)
      cases hstep with
      | ok hg ho hq =>
        exact .inl ⟨_, _, .tail hmoves (.resume hr), .resume hr',
          hbringing.resumeBody hgoing htrue.symm, _, _, _, hg, hlex'.onward ho, hq⟩
      | fault _ =>
        refine .inr ⟨fun u d hcomes => ?_, hgo', _, _, advance_resume_error hr'⟩
        obtain ⟨budget, hrun⟩ := hcomes
        obtain ⟨rest, -, hrest⟩ := exists_drive_of_moves hmoves hrun
        exact not_comes_of_fault hgo (advance_resume_error hr) ⟨rest, hrest⟩
      | exhausted_left _ =>
        exact absurd rfl ((hclear.moves hmoves.to_reflTransGen).fault_ne hgo (advance_resume_error hr))
      | exhausted_right => exact absurd (advance_resume_error hr') (hfree.spared hgo' _)

/-- **Machines that do the same next go on alike.** -/
theorem Paired.go (h : Paired lex σ σ') (hup : Upright σ) (hgo : Unfinished σ.task σ.pending)
    (hclear : Unhindered host true σ) (hfree : Free host' σ') : StepsOn lex host host' σ σ' := by
  by_cases hself : ∃ form qs, σ.task = .give form ∧ σ.pending = .call true :: qs ∧
      IsSelfCall σ.context form
  · obtain ⟨c, task, ps⟩ := σ
    obtain ⟨form, qs, rfl, rfl, hself⟩ := hself
    exact h.selfCall hhost hnested hfull hup hself hclear hfree
  · exact h.advance hhost hnested hfull hup hgo hclear hfree fun htask hps hcall =>
      hself ⟨_, _, htask, hps, hcall⟩

/-- **Tied machines come to where they are tied again.** -/
theorem Tied.go (h : Tied lex σ σ') (hgo : Unfinished σ.task σ.pending)
    (hclear : Unhindered host true σ) (hclear' : Unhindered host' false σ') :
    GoesOn lex host host' σ σ' := by
  obtain ⟨σ₁, hmoves, hpaired⟩ := h.settle host'
  rcases (hpaired.go hhost hnested hfull h.1 hgo hclear (hclear'.moves hmoves).free).goesOn with
    ⟨τ, τ', hτ, hτ', htied⟩ | ⟨hleft, hright⟩
  · exact .inl ⟨τ, τ', hτ, hτ'.trans_right hmoves, htied⟩
  · exact .inr ⟨hleft, fun v d hcomes => hright v d (hcomes.after hmoves)⟩

end Simulation

/-! ## 3. The end -/

/-- Two runs have come to values that correspond, in contexts that do. -/
def EndedAlike (lex : Lexicon) (v : Value) (c : Context) (v' : Value) (c' : Context) : Prop :=
  ∃ W s, (Couple.mk W c c' s).Matched lex (.nil, .nil) ∧ W.Rel (.just .data) v v'

/-- Where the left side is done, the right one comes to an end alike. -/
theorem Tied.finished (host : Host) (h : Tied lex ⟨c, .give v, []⟩ σ') :
    ∃ v' d', ReflTransGen (Moves host false) σ' ⟨d', .give v', []⟩ ∧ EndedAlike lex v c v' d' := by
  obtain ⟨⟨d', task', ps'⟩, hmoves, W, s, γ, n, ρ, hD, -, -, ht, hw⟩ := h.settle host
  cases ht with
  | give hv =>
    replace hw : Waiting lex ⟨W, c, d', s⟩ n γ ρ [] ps' := hw
    cases hw with
    | nil => exact ⟨_, d', hmoves, W, s, hD, hv⟩

section Ends

variable (hhost : host.Balanced) (hnested : lex.nested = true) (hfull : lex.vacant = none)
include hhost hnested hfull

/-- **If the left side comes to an end, so does the right one**, and to the same. -/
theorem Tied.comes (h : Tied lex σ σ') (hclear : Unhindered host true σ)
    (hclear' : Unhindered host' false σ') (hcomes : Comes host true σ v d) :
    ∃ v' d', Comes host' false σ' v' d' ∧ EndedAlike lex v d v' d' := by
  obtain ⟨budget, hrun⟩ := hcomes
  induction budget using Nat.strong_induction_on generalizing σ σ' with
  | h budget ih =>
    obtain ⟨c, task, ps⟩ := σ
    rcases unfinished_or task ps with hgo | ⟨u, rfl, rfl⟩
    · rcases h.go hhost hnested hfull hgo hclear hclear' with ⟨τ, τ', hτ, hτ', htied⟩ | ⟨hleft, -⟩
      · obtain ⟨rest, hlt, hrest⟩ := exists_drive_of_moves hτ hrun
        obtain ⟨v', d', hcomes, halike⟩ := ih rest hlt htied (hclear.moves hτ.to_reflTransGen)
          (hclear'.moves hτ'.to_reflTransGen) hrest
        exact ⟨v', d', hcomes.of_moves hτ'.to_reflTransGen, halike⟩
      · exact absurd ⟨budget, hrun⟩ (hleft v d)
    · obtain ⟨v', d', hmoves, halike⟩ := h.finished host'
      obtain ⟨rfl, rfl⟩ := Comes.eq_of_finished ⟨budget, hrun⟩
      exact ⟨v', d', (comes_finished v' d').of_moves hmoves, halike⟩

/-- **If the right side comes to an end, so does the left one**, and to the same. -/
theorem Tied.comes_back (h : Tied lex σ σ') (hclear : Unhindered host true σ)
    (hclear' : Unhindered host' false σ') (hcomes : Comes host' false σ' v' d') :
    ∃ v d, Comes host true σ v d ∧ EndedAlike lex v d v' d' := by
  obtain ⟨budget, hrun⟩ := hcomes
  induction budget using Nat.strong_induction_on generalizing σ σ' with
  | h budget ih =>
    obtain ⟨c, task, ps⟩ := σ
    rcases unfinished_or task ps with hgo | ⟨u, rfl, rfl⟩
    · rcases h.go hhost hnested hfull hgo hclear hclear' with ⟨τ, τ', hτ, hτ', htied⟩ | ⟨-, hright⟩
      · obtain ⟨rest, hlt, hrest⟩ := exists_drive_of_moves hτ' hrun
        obtain ⟨v, d, hcomes, halike⟩ := ih rest hlt htied (hclear.moves hτ.to_reflTransGen)
          (hclear'.moves hτ'.to_reflTransGen) hrest
        exact ⟨v, d, hcomes.of_moves hτ.to_reflTransGen, halike⟩
      · exact absurd ⟨budget, hrun⟩ (hright v' d')
    · obtain ⟨v₁, d₁, hmoves, halike⟩ := h.finished host'
      have hend : Comes host' false σ' v' d' := ⟨budget, hrun⟩
      obtain ⟨rfl, rfl⟩ := (hend.after hmoves).eq_of_finished
      exact ⟨u, c, comes_finished u c, halike⟩

/-- **Both come to an end alike, or neither does.** -/
theorem GoesOn.ends (h : GoesOn lex host host' σ σ') (hclear : Unhindered host true σ)
    (hclear' : Unhindered host' false σ') :
    (∀ v d, Comes host true σ v d → ∃ v' d', Comes host' false σ' v' d' ∧ EndedAlike lex v d v' d') ∧
      ∀ v' d', Comes host' false σ' v' d' → ∃ v d, Comes host true σ v d ∧ EndedAlike lex v d v' d' := by
  rcases h with ⟨τ, τ', hτ, hτ', htied⟩ | ⟨hleft, hright⟩
  · have hmoves := hτ.to_reflTransGen
    have hmoves' := hτ'.to_reflTransGen
    constructor
    · intro v d hcomes
      obtain ⟨v', d', hcomes', halike⟩ := htied.comes hhost hnested hfull (hclear.moves hmoves)
        (hclear'.moves hmoves') (hcomes.after hmoves)
      exact ⟨v', d', hcomes'.of_moves hmoves', halike⟩
    · intro v' d' hcomes'
      obtain ⟨v, d, hcomes, halike⟩ := htied.comes_back hhost hnested hfull (hclear.moves hmoves)
        (hclear'.moves hmoves') (hcomes'.after hmoves')
      exact ⟨v, d, hcomes.of_moves hmoves, halike⟩
  · exact ⟨fun v d hcomes => absurd hcomes (hleft v d), fun v' d' hcomes => absurd hcomes (hright v' d')⟩

end Ends

end LispMachine.Machine
