import LispMachine.Proofs.Balance.Reentry
import LispMachine.Proofs.Failure.Unwinding
import LispMachine.Proofs.Limit.Blind
import LispMachine.Proofs.Safety.Session

/-!
# A greater limit of depth

Two runs of one text, the second with a greater limit, go on in lockstep until the first is refused an
evaluation; and it then fails:

* `Machine.Refuses` -- **the limit refuses an evaluation**;
* `Machine.step_limited`, `Machine.run_limited` -- one step, and by induction a run, that is refused none;
* `Machine.fails_of_refuses` -- a run that is refused one comes to a failure that says so;
* `Machine.run_change` -- a standard context does not ask the embedding program;
* `Context.TooDeep`, `Context.exec_limited` -- **a text that does not fail of the limit** does the same with
  a greater one; and no run is deeper than its limit.
-/

namespace LispMachine

open Machine Context

/-- Lines of traceback stand in front of the message. -/
theorem Context.Traceback.exists_lines {c : Context} {message : String} (h : c.Traceback message) :
    ∃ lines, message = lines ++ c.failure := by
  induction h with
  | cause => exact ⟨"", String.empty_append.symm⟩
  | line name hname _ ih =>
    obtain ⟨lines, rfl⟩ := ih
    exact ⟨_, String.append_assoc.symm⟩

/-- An embedding program without procedures and forms of its own does not look at the limit. -/
theorem Host.blind_none : Host.none.Blind where
  procedure _ _ := .failNext _
  form _ _ _ _ := .failNext _

namespace Machine

section Lockstep

variable {host : Host} {c c' : Context} {d : Nat} {task : Task} {ps : List Pending} {σ σ' : State}
variable {env expr v : Value} {tail : Bool} {budget : Nat} {a : Addr}

/-! ## 1. Steps that are not refused -/

/-- **The limit refuses an evaluation**: that of a pair, at the greatest depth there may be. -/
def Refuses (σ : State) : Prop :=
  isAtLimit σ.context = true ∧ ∃ env a tail, σ.task = .eval env (.pair a) tail

/-- A pair that is evaluated below the limit is evaluated alike below a greater one. -/
theorem enterPair_limited (hhost : host.Blind) (hle : c.maxDepth ≤ d) (hroom : isAtLimit c = false) :
    enterPair host env expr tail (c.limited d) = relimit d (enterPair host env expr tail c) := by
  have hrest : Blind (do
      modify fun c => { c with depth := c.depth + 1, peakDepth := max c.peakDepth (c.depth + 1) }
      let base ← Heap.pushRoot env
      let _ ← Heap.pushRoot expr
      let next ← enterForm host env expr tail
      pure (next.andThen (.leave base)) : Run Next) :=
    (Blind.edit fun _ _ => rfl).bind fun _ => (Blind.lift _).bind fun _ => (Blind.lift _).bind fun _ =>
      (Blind.enterForm hhost env expr tail).bind fun _ => .pure _
  have hroom' : isAtLimit (c.limited d) = false := by
    rw [isAtLimit, decide_eq_false_iff_not, Nat.not_le] at hroom ⊢
    exact Nat.lt_of_lt_of_le hroom hle
  unfold enterPair
  rw [run_bind (run_observe _ _), run_bind (run_observe _ _), hroom, hroom']
  exact hrest.run_limited c d

/-- **A task that is not refused** is done alike with a greater limit. -/
theorem step_limited (hhost : host.Blind) (hle : c.maxDepth ≤ d) (hroom : ¬ Refuses ⟨c, task, ps⟩) :
    task.step host (c.limited d) = relimit d (task.step host c) := by
  by_cases htask : ∃ env a tail, task = .eval env (.pair a) tail
  · obtain ⟨env, a, tail, rfl⟩ := htask
    refine enterPair_limited hhost hle ?_
    rw [Bool.eq_false_iff]
    exact fun hlimit => hroom ⟨hlimit, env, a, tail, rfl⟩
  · exact (Blind.step hhost fun env a tail h => htask ⟨env, a, tail, h⟩).run_limited c d

/-- **A run that is refused nothing** is the same with a greater limit. -/
theorem run_limited (hhost : host.Blind) (hle : c.maxDepth ≤ d)
    (hroom : ∀ σ, Reaches host ⟨c, task, ps⟩ σ → ¬ Refuses σ) :
    run host budget task ps (c.limited d) = relimit d (run host budget task ps c) := by
  induction budget generalizing task ps c with
  | zero => rfl
  | succ budget ih =>
    have hwork : (∀ v, task ≠ .give v) → (task.step host >>= fun next =>
        run host budget next.task (next.pending ++ ps)) (c.limited d) =
        relimit d ((task.step host >>= fun next =>
          run host budget next.task (next.pending ++ ps)) c) := fun htask => by
      refine bind_limited (step_limited hhost hle (hroom _ .refl)) fun next c₁ hstep => ih ?_ ?_
      · have hsame := step_limited hhost (Nat.le_refl _) (hroom _ .refl)
        rwa [maxDepth_of_limited hsame hstep]
      · exact fun σ hreach => hroom σ (.head (.work htask hstep) hreach)
    cases task with
    | give v =>
      cases ps with
      | nil => rfl
      | cons p ps =>
        have hresume := Blind.resume hhost p v
        refine bind_limited (hresume.run_limited c d) fun next c₁ hstep => ih ?_ ?_
        · rwa [maxDepth_of_limited (hresume.run_limited c c.maxDepth) hstep]
        · exact fun σ hreach => hroom σ (.head (.resume hstep) hreach)
    | eval env expr tail => exact hwork nofun
    | evalList env list => exact hwork nofun
    | apply func args => exact hwork nofun
    | exec source echo => exact hwork nofun

/-! ## 2. Runs that are refused an evaluation -/

/-- A machine that has failed gives nil. -/
theorem gives_of_failing (hhost : host.Balanced) (hheeds : host.Heeds) (h : Poised σ)
    (hgoing : σ.context.failing = false) (hreach : Reaches host σ σ')
    (hfailing : σ'.context.failing = true) : σ'.task = .give .nil := by
  induction hreach with
  | refl =>
    rw [hgoing] at hfailing
    cases hfailing
  | @tail ρ ρ' hr hs ih =>
    cases hρ : ρ.context.failing with
    | true => exact ((h.reaches hhost hr).reaches_failed hhost hρ (ih hρ) (.single hs)).2
    | false =>
      obtain ⟨next, haction, htask⟩ := hs.action
      obtain ⟨-, -, -, hgives⟩ := (ρ.breaks hheeds).breaks hρ haction hfailing
      exact htask.trans hgives

/-- **A run that is refused an evaluation fails**, and says why. -/
theorem fails_of_refuses (hhost : host.Balanced) (hheeds : host.Heeds) (h : Poised σ)
    (hgoing : σ.context.failing = false) (hreach : Reaches host σ σ') (hrefuses : Refuses σ') :
    ∃ c', Reaches host σ ⟨c', .give .nil, []⟩ ∧ c'.failing = true ∧
      ∃ lines, c'.failure = lines ++ "Evaluation too deep" := by
  obtain ⟨hlimit, env, a, tail, htask⟩ := hrefuses
  have hgoing' : σ'.context.failing = false := by
    rw [Bool.eq_false_iff]
    intro hfailing
    rw [gives_of_failing hhost hheeds h hgoing hreach hfailing] at htask
    cases htask
  obtain ⟨c, task, ps⟩ := σ'
  subst htask
  have hrun : enterPair host env (.pair a) tail c =
      .ok (.give .nil) { c with failing := true, failure := "Evaluation too deep" } := by
    have hfail : fail "Evaluation too deep" c =
        .ok .nil { c with failing := true, failure := "Evaluation too deep" } := by
      rw [fail, run_modifyGet, show c.failing = false from hgoing']
      rfl
    unfold enterPair
    rw [run_bind (run_observe _ _), show isAtLimit c = true from hlimit]
    exact run_bind hfail
  have htask : ∀ v, Task.eval env (.pair a) tail ≠ .give v := fun _ h => by cases h
  have hstep : Step host ⟨c, .eval env (.pair a) tail, ps⟩ ⟨_, _, _⟩ := .work htask hrun
  have hpoised := (h.reaches hhost hreach).step hhost hstep
  obtain ⟨c', hend⟩ := hpoised.run_failed hhost rfl
  obtain ⟨hend, habort⟩ := hend 0
  exact ⟨c', (hreach.tail hstep).trans (reaches_of_run hend), habort.failing,
    habort.traceback.exists_lines⟩

end Lockstep

/-! ## 3. Standard contexts -/

section Change

variable {ρ v : Value} {host : Host} {c c' : Context} {budget : Nat} {task : Task} {ps : List Pending}

/-- **In standard contexts a run is the same** with any other embedding program. -/
theorem run_change (h : ∀ σ, Reaches host ⟨c, task, ps⟩ σ → σ.context.Standard ρ) (host' : Host) :
    run host budget task ps c = run host' budget task ps c := by
  induction budget generalizing task ps c with
  | zero => rfl
  | succ budget ih =>
    have hc : c.Standard ρ := h _ .refl
    have hwork : (∀ v, task ≠ .give v) → (task.step host >>= fun next =>
        run host budget next.task (next.pending ++ ps)) c = (task.step host' >>= fun next =>
        run host' budget next.task (next.pending ++ ps)) c := fun htask => by
      have hsame : task.step host c = task.step host' c := SameIn.step task c hc
      refine Eq.trans (run_bind_congr fun next c₁ hstep => ih fun σ hreach => ?_)
        (run_bind_congr_left hsame)
      exact h σ (.head (.work htask hstep) hreach)
    cases task with
    | give v =>
      cases ps with
      | nil => rfl
      | cons p ps =>
        have hresume : p.resume host v c = p.resume host' v c := SameIn.resume p v c hc
        refine Eq.trans (run_bind_congr fun next c₁ hstep => ih fun σ hreach => ?_)
          (run_bind_congr_left hresume)
        exact h σ (.head (.resume hstep) hreach)
    | eval env expr tail => exact hwork nofun
    | evalList env list => exact hwork nofun
    | apply func args => exact hwork nofun
    | exec source echo => exact hwork nofun

end Change

end Machine

namespace Context

section Texts

variable {ρ v : Value} {host : Host} {cfg : Config} {c c' c₁ : Context} {d budget : Nat}
variable {src : List Char} {echo : Bool} {σ : State} {texts : List (String × Bool)}

namespace Ready

/-- So is what it reaches. -/
theorem reaches_change (h : Ready ρ c) (hreach : Reaches host ⟨c, .exec src echo, []⟩ σ)
    (host' : Host) : Reaches host' ⟨c, .exec src echo, []⟩ σ := by
  induction hreach with
  | refl => exact .refl
  | tail hr hs ih => exact ih.tail (hs.change (h.guarded hr).context host')

theorem limited (h : Ready ρ c) (hle : c.maxDepth ≤ d) : Ready ρ (c.limited d) where
  env := h.env
  standard := h.standard.congr ⟨rfl, rfl, rfl, rfl⟩
  depth := Nat.le_trans h.depth hle
  peakDepth := Nat.le_trans h.peakDepth hle

end Ready

/-- What a text reaches in more than no step, it reaches with no failure to begin with. -/
theorem reaches_quiet (hreach : Reaches host ⟨c, .exec src echo, []⟩ σ)
    (hne : σ.task ≠ .exec src echo) : Reaches host ⟨c.quiet, .exec src echo, []⟩ σ := by
  rcases hreach.cases_head with rfl | ⟨σ₁, hs, hreach⟩
  · exact absurd rfl hne
  · refine .head ?_ hreach
    cases hs with
    | work htask hrun => exact .work htask hrun

/-- **The limit of depth is what a text fails of**: it comes to a failure that says so, on a way on which
    the limit refuses an evaluation. -/
def TooDeep (host : Host) (src : List Char) (echo : Bool) (c : Context) : Prop :=
  ∃ v c', Reaches host ⟨c, .exec src echo, []⟩ ⟨c', .give v, []⟩ ∧ c'.failing = true ∧
    (∃ lines, c'.failure = lines ++ "Evaluation too deep") ∧
    ∃ σ, Reaches host ⟨c, .exec src echo, []⟩ σ ∧ Refuses σ

/-- A text that comes to an end without failure does not fail of the limit. -/
theorem not_tooDeep (hrun : run host budget (.exec src echo) [] c = .ok v c')
    (hgoing : c'.failing = false) : ¬ TooDeep host src echo c := by
  rintro ⟨w, c₁, hreach, hfailing, -⟩
  obtain ⟨m, hm⟩ := run_of_reaches hreach
  have hend : run host (1 + m) (.exec src echo) [] c = .ok w c₁ := hm 1
  have hsame := (run_mono hend (Nat.le_max_left (1 + m) budget)).symm.trans
    (run_mono hrun (Nat.le_max_right (1 + m) budget))
  cases hsame
  rw [hgoing] at hfailing
  cases hfailing

/-- **A text that is refused an evaluation fails of the limit.** -/
theorem Ready.tooDeep (h : Ready ρ c) (hreach : Reaches host ⟨c, .exec src echo, []⟩ σ)
    (hrefuses : Refuses σ) : TooDeep host src echo c := by
  have hne : σ.task ≠ .exec src echo := fun htask => by
    obtain ⟨-, env, a, tail, heval⟩ := hrefuses
    rw [htask] at heval
    cases heval
  have hnone := reaches_quiet (h.reaches_change hreach Host.none) hne
  obtain ⟨c', hend, hfailing, hmessage⟩ := fails_of_refuses Host.balanced_none Host.heeds_none
    (poised_start c.quiet (.exec src echo)) rfl hnone hrefuses
  have hback : Reaches Host.none ⟨c, .exec src echo, []⟩ ⟨c', .give .nil, []⟩ := by
    rcases hend.cases_head with heq | ⟨σ₁, hs, hlater⟩
    · cases heq
    · refine .head ?_ hlater
      cases hs with
      | work htask hrun => exact .work htask hrun
  exact ⟨.nil, c', h.reaches_change hback host, hfailing, hmessage, σ, hreach, hrefuses⟩

/-- **A text that does not fail of the limit** does the same with a greater one. -/
theorem Ready.run_limited (h : Ready ρ c) (hle : c.maxDepth ≤ d) (hdeep : ¬ TooDeep host src echo c) :
    run host budget (.exec src echo) [] (c.limited d) =
      relimit d (run host budget (.exec src echo) [] c) := by
  rw [run_change (fun σ hreach => (h.guarded hreach).context) Host.none,
    run_change (fun σ hreach => ((h.limited hle).guarded hreach).context) Host.none]
  refine Machine.run_limited Host.blind_none hle fun σ hreach hrefuses => hdeep ?_
  exact h.tooDeep (h.reaches_change hreach host) hrefuses

/-- A fresh context with another limit is the same but for that. -/
theorem create_limited (hc : create cfg = .ok c) (d : Nat) :
    create { cfg with maxDepth := d } = .ok (c.limited d) := by
  rw [create_eq_createWith] at hc
  obtain ⟨h, t, hh, ht, hfurnish⟩ := createWith_eq hc
  have hbare : (bare h t cfg.maxDepth).limited d = bare h t d := rfl
  have hlimited : furnish (bare h t d) = .ok ⟨⟩ (c.limited d) := by
    rw [← hbare, Blind.furnish.run_limited]
    exact congrArg (relimit d) hfurnish
  have hsame : Heap.create { cfg with maxDepth := d } = .ok h := hh
  simp only [create, bind, Except.bind, hsame, ht, hlimited]

theorem maxDepth_create (hc : create cfg = .ok c) : c.maxDepth = cfg.maxDepth := by
  have hsame := (create_limited hc cfg.maxDepth).symm.trans hc
  exact congrArg maxDepth (Except.ok.inj hsame).symm

/-- **No run of a standard context is deeper than its limit**, which stays what it is. -/
theorem Ready.within (h : Ready ρ c) (hreach : Reaches host ⟨c, .exec src echo, []⟩ σ) :
    σ.context.maxDepth = c.maxDepth ∧ σ.context.peakDepth ≤ σ.context.maxDepth := by
  have hnone := h.reaches_change hreach Host.none
  obtain ⟨hmax, -, hpeak⟩ := within_of_reaches Host.reenters_none h.depth h.peakDepth hnone
  exact ⟨hmax, hpeak⟩

theorem Ready.maxDepth_after (h : Ready ρ c) (hafter : After host c texts c₁) :
    c₁.maxDepth = c.maxDepth := by
  induction hafter with
  | nil => rfl
  | snoc hafter hreach ih => exact ((h.after hafter).within hreach).1.trans ih

/-- **A greater limit of depth does no harm.** Whatever sizes a standard context was made with, and
    whatever texts it was given:

    * with a greater limit, a text does the same, whatever it comes to and however many steps it may take,
      unless it fails of the limit -- and so does a fresh context;
    * no run is deeper than the limit: neither that of a text, nor any of an embedding program that runs
      source text wherever it is asked to. -/
theorem exec_limited (hc : create cfg = .ok c) (host : Host) :
    (∀ d, create { cfg with maxDepth := d } = .ok (c.limited d)) ∧
    (∀ texts c₁ source echo, After host c texts c₁ →
      (∀ d, c₁.maxDepth ≤ d → ¬ TooDeep host source echo c₁ → ∀ budget,
        run host budget (.exec source echo) [] (c₁.limited d) =
          relimit d (run host budget (.exec source echo) [] c₁)) ∧
      ∀ σ, Reaches host ⟨c₁, .exec source echo, []⟩ σ →
        σ.context.maxDepth = cfg.maxDepth ∧ σ.context.peakDepth ≤ σ.context.maxDepth) ∧
    ∀ (host : Host) (c : Context) (task : Task) (σ : State), host.Reenters → c.depth ≤ c.maxDepth →
      c.peakDepth ≤ c.maxDepth → Reaches host ⟨c, task, []⟩ σ →
      σ.context.peakDepth ≤ σ.context.maxDepth := by
  obtain ⟨ρ, hready⟩ := exists_ready hc
  refine ⟨create_limited hc, fun texts c₁ source echo hafter => ⟨?_, fun σ hreach => ?_⟩, ?_⟩
  · exact fun d hle hdeep budget => (hready.after hafter).run_limited hle hdeep
  · obtain ⟨hmax, hpeak⟩ := (hready.after hafter).within hreach
    exact ⟨hmax.trans ((hready.maxDepth_after hafter).trans (maxDepth_create hc)), hpeak⟩
  · exact fun host c task σ hhost hdepth hpeak hreach =>
      (within_of_reaches hhost hdepth hpeak hreach).2.2

/-- Whether a text comes to an end without failure, in a fresh context. -/
def succeeds (cfg : Config) (text : String) : Bool :=
  match create cfg with
  | .error _ => false
  | .ok c =>
    match exec Probe.host text true c with
    | .ok _ c => !c.failing
    | .error _ _ => false

theorem exists_of_succeeds {cfg : Config} {text : String} (h : succeeds cfg text = true) :
    ∃ c v c', create cfg = .ok c ∧ exec Probe.host text true c = .ok v c' ∧ c'.failing = false := by
  unfold succeeds at h
  split at h
  · cases h
  · rename_i c hc
    split at h
    · rename_i v c' hrun
      exact ⟨c, v, c', hc, hrun, Bool.not_eq_true' _ ▸ h⟩
    · cases h

/-- A text that is as deep as it may be. -/
theorem exec_limited_not : ∃ c v c', create { brimful with maxDepth := 1 } = .ok c ∧
    c.maxDepth ≤ 2 ∧ ¬ TooDeep Probe.host "(not 1)".toList true c ∧
    create { brimful with maxDepth := 2 } = .ok (c.limited 2) ∧
    exec Probe.host "(not 1)" true c = .ok v c' ∧
    exec Probe.host "(not 1)" true (c.limited 2) = .ok v (c'.limited 2) ∧ c'.peakDepth ≤ 1 := by
  have hends : succeeds { brimful with maxDepth := 1 } "(not 1)" = true := by decide +kernel
  obtain ⟨c, v, c', hc, hrun, hgoing⟩ := exists_of_succeeds hends
  have hmax : c.maxDepth = 1 := maxDepth_create hc
  have hle : c.maxDepth ≤ 2 := by omega
  have hdeep := not_tooDeep hrun hgoing
  obtain ⟨hfresh, htexts, -⟩ := exec_limited hc Probe.host
  obtain ⟨hsame, hwithin⟩ := htexts [] c "(not 1)".toList true .nil
  refine ⟨c, v, c', hc, hle, hdeep, hfresh 2, hrun, ?_, ?_⟩
  · exact (hsame 2 hle hdeep ample).trans (congrArg (relimit 2) hrun)
  · obtain ⟨hmax', hpeak⟩ := hwithin _ (reaches_of_run hrun)
    exact hpeak.trans_eq hmax'

end Texts

end Context

end LispMachine
