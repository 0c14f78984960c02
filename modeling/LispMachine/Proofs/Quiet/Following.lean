import LispMachine.Proofs.Quiet.Course
import LispMachine.Proofs.Trampoline.Simulation

/-!
# A run that is followed with room to spare

The evaluator with the trampoline, with collections and limits of its own, is compared with the evaluator
without it, which is given room between its steps:

* `Couple.widened` -- the right side is given room, and **what corresponded still does**;
* `Machine.Led`, `Machine.Led.go` -- **each step of the right side is followed** by steps of the left one,
  unless it hands a value back through calls of its own;
* `Machine.Led.follow` -- so is a run of it, by induction on its steps: the left side has used up at least
  as many steps of its budget as count on the right;
* `Machine.Led.not_lasts` -- **a right side that lasts has a left one that comes to no end**;
* `Machine.Led.ends` -- where both are done, they have ended alike.
-/

namespace LispMachine

open World Context Machine Relation

/-! ## 1. Room -/

/-- More chunks leave everything but the cells that are free as it is. -/
theorem Heap.iterate_grown_frame (h : Heap) (n : Nat) : (Heap.grown^[n] h).pins = h.pins ∧
    (Heap.grown^[n] h).holdings = h.holdings ∧ ∀ a < h.cells.size, (Heap.grown^[n] h).cells[a]? = h.cells[a]? := by
  induction n with
  | zero => exact ⟨rfl, rfl, fun _ _ => rfl⟩
  | succ n ih =>
    obtain ⟨hpins, hholdings, hcells⟩ := ih
    rw [Function.iterate_succ_apply']
    refine ⟨hpins, hholdings, fun a ha => (getElem?_grown ?_).trans (hcells a ha)⟩
    exact (Array.getElem?_eq_some_iff.mp ((hcells a ha).trans (Array.getElem?_eq_getElem ha))).1

namespace Couple

variable {lex : Lexicon} {γ : Value × Value} {D : Couple} {S : Shape → Prop} {n : Nat}

/-- The right side has been given room. -/
def widened (D : Couple) (k m : Nat) : Couple := ⟨D.world, D.left, D.right.roomy k m, D.slot⟩

theorem Matched.cells_widened (hD : D.Matched lex γ) (k m : Nat) {a b : Addr} {j : Kind} (hw : D.world a b j) :
    (D.right.roomy k m).heap.cells[b]? = D.right.heap.cells[b]? := by
  obtain ⟨_, x, _, hx, -⟩ := hD.coherent.cells hw
  exact (Heap.iterate_grown_frame D.right.heap k).2.2 b (Array.getElem?_eq_some_iff.mp hx).1

/-- **What corresponded still does.** -/
theorem Matched.widened (hD : D.Matched lex γ) (hnested : lex.nested = true) (k m : Nat) :
    (D.widened k m).Matched lex γ ∧ D.twin.Onward S D.height (D.widened k m).twin := by
  obtain ⟨hvalid, -, hroots, htypes⟩ := Heap.grown_iterate hD.valid_right k
  obtain ⟨hpins, hholdings, -⟩ := Heap.iterate_grown_frame D.right.heap k
  have hplain : ∀ {p : Prop}, lex.nested = false → p := fun h => by
    rw [hnested] at h
    cases h
  have ho : D.twin.Onward S D.height (D.widened k m).twin :=
    { height := le_rfl
      roots_left := fun _ _ => rfl
      slots := fun _ _ => rfl
      roots_right := fun i _ => congrArg (fun r : Array Value => r[D.slot i]?) hroots
      pins := fun p hp => by
        show p ∈ D.left.heap.pins.zip (D.right.roomy k m).heap.pins
        rw [show (D.right.roomy k m).heap.pins = D.right.heap.pins from hpins]
        exact hp
      kinds := fun _ _ _ hw => hw
      cells := fun _ _ _ hw _ => ⟨rfl, hD.cells_widened k m hw⟩ }
  have hT : (D.widened k m).twin.Coherent lex :=
    { hD.coherent with
      cells := fun hw => by
        obtain ⟨x, x', hx, hx', hcontent⟩ := hD.coherent.cells hw
        exact ⟨x, x', hx, (hD.cells_widened k m hw).trans hx', hcontent⟩
      height := fun j => (hD.coherent.height j).trans (congrArg (·.size + j) hroots.symm)
      plain := hplain
      roots := fun {i _ _} hl hr => hD.coherent.roots hl
        ((congrArg (fun r : Array Value => r[D.slot i]?) hroots).symm.trans hr)
      pins := by
        show List.Forall₂ _ D.left.heap.pins (D.right.roomy k m).heap.pins
        rw [show (D.right.roomy k m).heap.pins = D.right.heap.pins from hpins]
        exact hD.coherent.pins
      types_right := htypes.trans hD.coherent.types_right
      holdings_right := hholdings.trans hD.coherent.holdings_right }
  refine ⟨?_, ho⟩
  exact
    { hD with
      coherent := hT
      valid_right := hvalid
      rootEnv := hD.rootEnv.onward hD.coherent hT (ho.mono (fun _ h => h.elim) (Nat.zero_le _)) (Nat.le_refl 0)
      depth := hplain
      maxDepth := hplain
      peakDepth := hplain
      level := fun h => hplain (lex.even h) }

end Couple

variable {lex : Lexicon} {γ : Value × Value} {D : Couple} {task task' : Task} {ps ps' : List Pending}

/-- Machines that go on alike still do when the right one has been given room. -/
theorem Together.widened (h : Together lex γ D task ps task' ps') (hD : D.Matched lex γ)
    (hnested : lex.nested = true) (k m : Nat) : Together lex γ (D.widened k m) task ps task' ps' := by
  obtain ⟨hD', ho⟩ := hD.widened (S := Shape.Fixed) hnested k m
  cases h with
  | task hn ht hw =>
    refine .task hn ?_ (hw.onward hD hD' (ho.mono (fun _ => id) hn))
    cases ht with
    | give hv => exact .give hv
    | eval henv hexpr ht =>
      exact .eval henv hexpr fun htail => hw.inTail_onward (ht htail) hD hD' (ho.mono (fun _ => id) hn)
    | evalList henv hs hlist =>
      exact .evalList (henv.onward hD.coherent hD'.coherent ho hn) hs (hlist.onward hD.coherent hD'.coherent ho hn)
    | apply hfunc hargs => exact .apply hfunc hargs
  | back hv hfail hw =>
    refine .back hv hfail ?_
    rw [show (D.widened k m).right.heap.roots = D.right.heap.roots from (Heap.grown_iterate hD.valid_right k).2.2.1]
    exact hw.onward hD hD' ho

theorem Task.weight_le_one (task : Task) : task.weight ≤ 1 := by
  cases task <;> simp [weight]

namespace Machine

/-! ## 2. Each step is followed -/

variable {host host' : Host} {σ σ₁ τ τ₁ : State} {n m : Nat} {v v' : Value} {c c' d d' : Context} {budget : Nat}

/-- **The right machine is led by the left one**: both stand at the beginning of a source text, or they go on
    alike. -/
inductive Led (lex : Lexicon) : State → State → Prop where
  | begun {W : World} {s : Nat → Nat} {c c' : Context} {source : List Char} {echo : Bool}
      (hD : (Couple.mk W c c' s).Matched lex (.nil, .nil)) (hlex : Lexical lex ⟨W, c, c', s⟩) :
      Led lex ⟨c, .exec source echo, []⟩ ⟨c', .exec source echo, []⟩
  | tied {σ τ : State} (h : Tied lex σ τ) : Led lex σ τ

/-- A right machine that is given room is still led. -/
theorem Led.roomy (h : Led lex σ τ) (hnested : lex.nested = true) (k m : Nat) :
    Led lex σ ⟨τ.context.roomy k m, τ.task, τ.pending⟩ := by
  cases h with
  | begun hD hlex => exact .begun (hD.widened (S := Shape.Fixed) hnested k m).1 ⟨hlex.forms, hlex.quote⟩
  | tied h =>
    obtain ⟨hup, W, s, γ, hD, hlex, htogether⟩ := h
    exact .tied ⟨hup, W, s, γ, (hD.widened (S := Shape.Fixed) hnested k m).1, ⟨hlex.forms, hlex.quote⟩,
      htogether.widened hD hnested k m⟩

/-- **What a step of the right machine is followed by**: by none, if it only hands a value back. If it
    faults, the left machine comes to no end. -/
def Followed (lex : Lexicon) (host host' : Host) (σ τ : State) : Prop :=
  (∃ σ₁ τ₁, (TransGen (Moves host true) σ σ₁ ∨ σ₁ = σ ∧ τ.task.weight = 0) ∧ Moves host' false τ τ₁ ∧
    Tied lex σ₁ τ₁) ∨
    (∀ v d, ¬ Comes host true σ v d) ∧ ∃ e d, advance host' false τ.task τ.pending τ.context = .error e d

theorem StepsOn.followed (h : StepsOn lex host host' σ τ) : Followed lex host host' σ τ := by
  rcases h with ⟨σ₁, τ₁, hmoves, hmove, htied⟩ | ⟨hleft, -, hfault⟩
  · exact .inl ⟨σ₁, τ₁, .inl hmoves, hmove, htied⟩
  · exact .inr ⟨hleft, hfault⟩

section

variable (hhost : host.Balanced) (hnested : lex.nested = true) (hfull : lex.vacant = none)
include hhost hnested hfull

/-- Where the left machine is done, so is the right one. -/
theorem Paired.followed (h : Paired lex σ τ) (hup : Upright σ) (hclear : Unhindered host true σ) (hfree : Free host' τ)
    (hgo : Unfinished τ.task τ.pending) : Followed lex host host' σ τ := by
  obtain ⟨c, task, ps⟩ := σ
  rcases unfinished_or task ps with hgo' | ⟨v, rfl, rfl⟩
  · exact (h.go hhost hnested hfull hup hgo' hclear hfree).followed
  · obtain ⟨W, s, γ, n, ρ, hD, hlex, hn, ht, hw⟩ := h
    obtain ⟨c', task', ps'⟩ := τ
    cases ht with
    | give hv =>
      have hw : Waiting lex ⟨W, c, c', s⟩ n γ ρ [] ps' := hw
      cases hw
      exact absurd rfl (hgo.elim (fun hps => absurd rfl hps) fun hgive => hgive _)

/-- **Each step is followed.** -/
theorem Led.go (h : Led lex σ τ) (hclear : Unhindered host true σ) (hfree : Free host' τ)
    (hgo : Unfinished τ.task τ.pending) : Followed lex host host' σ τ := by
  cases h with
  | begun hD hlex => exact (exec_stepsOn hhost hnested hD hlex hclear hfree).followed
  | tied h =>
    obtain ⟨hup, W, s, γ, hD, hlex, htogether⟩ := h
    obtain ⟨c, task, ps⟩ := σ
    obtain ⟨c', task', ps'⟩ := τ
    cases htogether with
    | task hn ht hw =>
      exact Paired.followed hhost hnested hfull ⟨W, s, γ, _, _, hD, hlex, hn, ht, hw⟩ hup hclear hfree hgo
    | @back v v' _ _ hv hfail hbehind =>
      obtain ⟨g, extra, qs', rfl, hextra, hw⟩ := hbehind
      cases extra with
      | nil =>
        cases hextra
        exact Paired.followed hhost hnested hfull ⟨W, s, γ, _, _, hD, hlex, le_rfl, .give hv, hw⟩ hup hclear hfree hgo
      | cons p extra =>
        have hstep : ∃ (D' : Couple) (f : Value), Couple.Aside lex ⟨W, c, c', s⟩ D' γ (γ.1, f) v v' ∧
            p.resumeBy host' false v' c' = .ok (.give v') D'.right ∧
            Unwinds lex D' (Couple.height ⟨W, c, c', s⟩) D'.right.heap.roots.size f g extra := hextra.step hD hv hfail
        obtain ⟨⟨W₁, c₁, c₁', s₁⟩, f, haside, hrun, hextra₁⟩ := hstep
        obtain rfl : c₁ = c := haside.left
        have hheight := haside.height_eq
        have hw₁ : Waiting lex ⟨W₁, c₁, c₁', s₁⟩ (Couple.height ⟨W₁, c₁, c₁', s₁⟩) (γ.1, g) (.just .data) ps qs' :=
          hheight ▸ hw.onward hD haside.matched haside.onward
        rw [← hheight] at hextra₁
        exact .inl ⟨_, _, .inr ⟨rfl, rfl⟩, .give hrun, hup, W₁, s₁, (γ.1, f), haside.matched, ⟨hlex.forms, hlex.quote⟩,
          .back haside.value hfail ⟨g, extra, qs', rfl, hextra₁, hw₁⟩⟩

end

/-! ## 3. Runs are followed -/

/-- There is one way to go on. -/
theorem Moves.advance_ne (h : Moves host false τ τ₁) {e : Fault} :
    advance host false τ.task τ.pending τ.context ≠ .error e d := by
  obtain ⟨hgo, hrun⟩ := h
  show advance host false _ _ _ ≠ _
  rw [hrun]
  nofun

theorem Moves.eq {τ₂ : State} (h : Moves host false τ τ₁) (h' : Moves host false τ τ₂) : τ₁ = τ₂ := by
  obtain ⟨hgo, hrun⟩ := h
  obtain ⟨-, hrun'⟩ := h'
  rw [hrun] at hrun'
  cases hrun'
  rfl

theorem Moves.unfinished (h : Moves host false τ τ₁) : Unfinished τ.task τ.pending := by
  obtain ⟨hgo, -⟩ := h
  exact hgo

section

variable (hhost : host.Balanced) (hnested : lex.nested = true) (hfull : lex.vacant = none)
include hhost hnested hfull

/-- **A run of the right machine is followed**, and the steps that count take up the budget of the left one. -/
theorem Led.follow (hglide : Glides m τ τ₁) (h : Led lex σ τ) (hclear : Unhindered host true σ) :
    ∃ σ₁, Led lex σ₁ τ₁ ∧ ReflTransGen (Moves host true) σ σ₁ ∧ ∀ budget v d, σ.drive host true budget = .ok v d →
      ∃ rest, σ₁.drive host true rest = .ok v d ∧ rest + m ≤ budget := by
  induction hglide generalizing σ with
  | refl => exact ⟨σ, h, .refl, fun budget v d hrun => ⟨budget, hrun, le_rfl⟩⟩
  | room k m _ ih => exact ih (h.roomy hnested k m) hclear
  | @move n τ τ' τ₁ hroom hmove _ ih =>
    have hfree : Free Host.none τ := ⟨hroom, fun _ _ => hmove.advance_ne⟩
    rcases h.go hhost hnested hfull hclear hfree hmove.unfinished with
      ⟨σ₂, τ₂, hmoves, hmove₂, htied⟩ | ⟨-, e, d', hfault⟩
    · obtain rfl := hmove.eq hmove₂
      rcases hmoves with hmoves | ⟨rfl, hweight⟩
      · obtain ⟨σ₁, hled, hmoves₁, hruns⟩ := ih (.tied htied) (hclear.moves hmoves.to_reflTransGen)
        refine ⟨σ₁, hled, hmoves.to_reflTransGen.trans hmoves₁, fun budget v d hrun => ?_⟩
        obtain ⟨rest, hlt, hrest⟩ := exists_drive_of_moves hmoves hrun
        obtain ⟨rest₁, hrun₁, hle⟩ := hruns rest v d hrest
        have hone := τ.task.weight_le_one
        exact ⟨rest₁, hrun₁, by omega⟩
      · rw [hweight, Nat.add_zero]
        exact ih (.tied htied) hclear
    · exact absurd hfault hmove.advance_ne

/-- **A right machine that lasts has a left one that comes to no end** within as many steps. -/
theorem Led.not_lasts (h : Led lex σ τ) (hclear : Unhindered host true σ)
    (hrun : σ.drive host true budget = .ok v d) : ¬ Lasts (budget + 1) τ := by
  rintro ⟨m, τ₁, hglide, hlasts⟩
  obtain ⟨σ₁, hled, hmoves, hruns⟩ := h.follow hhost hnested hfull hglide hclear
  obtain ⟨rest, hrun₁, hle⟩ := hruns budget v d hrun
  rcases hlasts with hlasts | ⟨hroom, hgo, e, c, hfault, hne⟩
  · omega
  · have hfree : Free Host.none τ₁ := ⟨hroom, fun _ _ hexhausted => by
      rw [hexhausted] at hfault
      cases hfault
      exact hne rfl⟩
    rcases hled.go hhost hnested hfull (hclear.moves hmoves) hfree hgo with ⟨σ₂, τ₂, -, hmove, -⟩ | ⟨hnot, -⟩
    · exact absurd hfault hmove.advance_ne
    · exact hnot v d ⟨rest, hrun₁⟩

omit hhost hnested hfull in
/-- Where the right machine is done, so is the left one, and to the same. -/
theorem Led.finished (h : Led lex σ ⟨c', .give v', []⟩) : ∃ v c, σ = ⟨c, .give v, []⟩ ∧ EndedAlike lex v c v' c' := by
  cases h with
  | tied h =>
    obtain ⟨-, W, s, γ, hD, -, htogether⟩ := h
    obtain ⟨c, task, ps⟩ := σ
    have hend : ∀ {v : Value} {n : Nat} {γ : Value × Value} {ρ : Role},
        (Couple.mk W c c' s).Matched lex γ → W.Rel ρ v v' →
        Waiting lex ⟨W, c, c', s⟩ n γ ρ ps [] → ∃ u b, (State.mk c (.give v) ps) = ⟨b, .give u, []⟩ ∧
          EndedAlike lex u b v' c' := fun hD₁ hv hw => by
      cases hw with
      | nil => exact ⟨_, c, rfl, W, s, hD₁, hv⟩
    cases htogether with
    | task hn ht hw =>
      cases ht with
      | give hv => exact hend hD hv hw
    | back hv _ hbehind =>
      obtain ⟨g, extra, qs', hnil, hextra, hw⟩ := hbehind
      obtain ⟨rfl, rfl⟩ := List.append_eq_nil_iff.mp hnil.symm
      cases hextra
      exact hend hD hv hw

/-- **A right machine that comes to an end has a left one that does**, and to the same. -/
theorem Led.ends (hglide : Glides m τ ⟨c', .give v', []⟩) (h : Led lex σ τ) (hclear : Unhindered host true σ) :
    ∃ v c, ReflTransGen (Moves host true) σ ⟨c, .give v, []⟩ ∧ EndedAlike lex v c v' c' := by
  obtain ⟨_, hled, hmoves, -⟩ := h.follow hhost hnested hfull hglide hclear
  obtain ⟨v, c, rfl, halike⟩ := hled.finished
  exact ⟨v, c, hmoves, halike⟩

end

end Machine

end LispMachine
