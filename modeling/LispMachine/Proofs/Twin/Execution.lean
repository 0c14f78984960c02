import LispMachine.Proofs.Trampoline.Drive
import LispMachine.Proofs.Twin.Source
import LispMachine.Session

/-!
# Runs, on both sides

* `Leads.enterNextForm`, `Leads.resumeExec` -- the forms of a source text, one after the other;
* `Leads.step`, `Leads.resume` -- **a step of the machine**: whatever waits goes on waiting;
* `Leads.run` -- **a run**, by induction on its budget;
* `Leads.exec` -- a source text, from a state in which no function is running to one like it.
-/

namespace LispMachine

open World

variable {lex : Lexicon} {γ β : Value × Value} {D D' : Couple} {S : Shape → Prop} {n base : Nat}
variable {ρ : Role} {v v' : Value} {task task' : Task} {p p' : Pending} {ps ps' : List Pending}
variable {host host' : Host} {echo : Bool} {source : List Char}

namespace Leads

/-! ## 1. Source text -/

/-- What is in a slot stays there. -/
theorem InSlot.onward (h : InSlot D base ρ) (ho : D.Onward S n D') (hn : base < n) :
    InSlot D' base ρ := by
  obtain ⟨v, v', hl, hr, hrel⟩ := h
  refine ⟨v, v', (ho.heaps.roots_left base hn).trans hl, ?_,
    hrel.transfer fun _ _ _ ha hb hw => ho.heaps.kinds (.root hn hl hr hrel.slot) ha hb hw⟩
  rw [ho.slot_eq (Nat.le_of_lt hn)]
  exact (ho.heaps.roots_right base hn).trans hr

theorem InSlot.lt (h : InSlot D base ρ) : base < D.height := by
  obtain ⟨_, _, hl, _⟩ := h
  exact (Array.getElem?_eq_some_iff.mp hl).1

/-- What has been set is in the slot. -/
theorem inSlot_slotSet (hD : D.Matched lex γ) (hb : base < D.height) (hv : D.world.Rel ρ v v') :
    InSlot (D.slotSet base v v') base ρ :=
  ⟨v, v', Array.getElem?_setIfInBounds_self_of_lt hb,
    Array.getElem?_setIfInBounds_self_of_lt (hD.coherent.slot_lt hb), hv⟩

/-- The state of failure is left, and no function is running. -/
theorem reset (hD : D.Matched lex γ) (hn : n ≤ D.height) :
    Leads lex S n (.nil, .nil) D Context.reset Context.reset (fun D' _ _ => D'.twin = D.twin) :=
  .ok (W := D.world) (σ := D.slot)
    { hD with
      failing := rfl
      failure := .rfl
      current_left := rfl
      current_right := rfl
      looping := rfl
      settled := fun _ => rfl }
    ⟨.refl hn, rfl, rfl, fun _ _ h => h⟩ ⟨rfl, rfl⟩

/-- A run of source text ends with what is in its slot. -/
theorem finishExec (hD : D.Matched lex γ) (hslot : InSlot D base (.just .data)) :
    Steps lex S base D (Machine.finishExec base) (Machine.finishExec (D.slot base))
      (Proceeds lex base γ (.just .data)) := by
  unfold Machine.finishExec
  refine root hD hslot.lt fun v v' hv hv' => ?_
  have hout := (hslot.rooted (S := S) hv hv' (Nat.lt_succ_self base)).rel
  refine bind hD (popRoots hD (Nat.le_refl base) (Nat.le_of_lt hslot.lt)) (Nat.le_refl base)
    fun hD₁ ho₁ hq => ?_
  subst hq
  exact give hD₁ ho₁.heaps.height (Twin.Rel.released hout)

/-- A run of source text ends with a failure, and with what is in its slot. -/
theorem failExec (hD : D.Matched lex γ) (hslot : InSlot D base (.just .data)) (message : String) :
    Steps lex S base D
      (do
        let _ ← Context.fail message
        Machine.finishExec base)
      (do
        let _ ← Context.fail message
        Machine.finishExec (D.slot base))
      (Proceeds lex base γ (.just .data)) := by
  refine bind hD (fail hD (Nat.le_refl _) rfl) (Nat.le_of_lt hslot.lt) fun {D₁ _ _} hD₁ ho₁ _ => ?_
  rw [← ho₁.slot_eq (Nat.le_of_lt hslot.lt)]
  exact finishExec hD₁ (hslot.onward ho₁ hslot.lt)

/-- **The next form of a source text** is read and evaluated. -/
theorem enterNextForm (hD : D.Matched lex γ) (hlex : Lexical lex D)
    (hslot : InSlot D base (.just .data)) :
    Steps lex S base D (Machine.enterNextForm source base echo)
      (Machine.enterNextForm source (D.slot base) echo)
      (Proceeds lex base (.nil, .nil) (.just .data)) := by
  have hb := hslot.lt
  unfold Machine.enterNextForm
  refine bind hD (reset hD (Nat.le_refl _)) (Nat.le_of_lt hb) fun {D₁ _ _} hD₁ ho₁ hq => ?_
  have hslot₁ := hslot.onward ho₁ hb
  have hb₁ := hslot₁.lt
  refine bind hD₁ (read hD₁ (hlex.onward ho₁) source) (Nat.le_of_lt hb₁)
    fun {D₂ r r'} hD₂ ho₂ hq => ?_
  have hslot₂ := hslot₁.onward ho₂ hb₁
  have hb₂ := hslot₂.lt
  obtain ⟨hrest, hread⟩ := hq
  have hbase : D₂.slot base = D.slot base :=
    (ho₂.slot_eq (Nat.le_of_lt hb₁)).trans (ho₁.slot_eq (Nat.le_of_lt hb))
  rw [← hbase]
  obtain ⟨r, rest⟩ := r
  obtain ⟨r', rest'⟩ := r'
  cases hrest
  cases hread with
  | none => exact finishExec hD₂ hslot₂
  | @form form form' hform =>
    refine bind hD₂ (setRoot hD₂ (Nat.le_refl base) hb₂ hform.slot) (Nat.le_refl base)
      fun {D₃ _ _} hD₃ ho₃ hq => ?_
    subst hq
    have hb₃ : base < (D₂.slotSet base form form').height := Couple.height_slotSet D₂ _ _ _ ▸ hb₂
    refine observe (pure hD₃ (Nat.le_of_lt hb₃) (.eval hb₃ hD₃.rootEnv.rel hform fun _ _ hw => ?_))
    exact .exec (Nat.lt_succ_self base) rfl hw
  | error e =>
    refine bind hD₂ (setRoot hD₂ (Nat.le_refl base) hb₂ (.atom rfl)) (Nat.le_refl base)
      fun {D₃ _ _} hD₃ ho₃ hq => ?_
    subst hq
    exact failExec hD₃ (inSlot_slotSet hD₂ hb₂ .nil) _

/-- **A source text** is run from its first form on. -/
theorem enterExec (hD : D.Matched lex γ) (hlex : Lexical lex D) (hn : n ≤ D.height) :
    Steps lex S n D (Machine.enterExec source echo) (Machine.enterExec source echo)
      (Proceeds lex n (.nil, .nil) (.just .data)) := by
  unfold Machine.enterExec
  refine bind hD (pushNil hD (Nat.le_refl _)) hn fun {D₁ _ _} hD₁ ho₁ hq => ?_
  obtain ⟨rfl, rfl, rfl⟩ := hq
  have hslot : InSlot (D.pushed .nil .nil) D.height (.just .data) := by
    refine ⟨.nil, .nil, Array.getElem?_push_size, ?_, .nil⟩
    show (D.right.heap.roots.push .nil)[D.slot D.height]? = _
    rw [← hD.height_eq]
    exact Array.getElem?_push_size
  exact relax (enterNextForm hD₁ (hlex.onward ho₁) hslot) (fun _ => id) hn fun _ _ hq => hq.lower hn

/-- **A source text goes on** after one of its forms. -/
theorem resumeExec (hD : D.Matched lex γ) (hlex : Lexical lex D) (hb : base < D.height)
    (hv : D.world.Rel (.just .data) v v') (hγ : γ = (.nil, .nil)) :
    Steps lex S base D (Machine.resumeExec source base echo v)
      (Machine.resumeExec source (D.slot base) echo v')
      (Proceeds lex base (.nil, .nil) (.just .data)) := by
  subst hγ
  unfold Machine.resumeExec
  refine bind hD (setRoot hD (Nat.le_refl base) hb hv.slot) (Nat.le_refl base)
    fun {D₁ _ _} hD₁ ho₁ hq => ?_
  subst hq
  have hslot : InSlot (D.slotSet base v v') base (.just .data) := inSlot_slotSet hD hb hv
  have hv₁ : (D.slotSet base v v').world.Rel (.just .data) v v' := hv
  have hlex₁ := hlex.onward ho₁
  rw [← ho₁.top]
  generalize D.slotSet base v v' = D₁ at *
  refine isFailing hD₁ (ite Iff.rfl (fun _ => finishExec hD₁ hslot) fun _ => ite ?_ (fun _ => ?_)
    fun _ => enterNextForm hD₁ hlex₁ hslot)
  · rw [hv₁.same.isNil_eq]
  · have hline := congrArg (· ++ "\n") (hD₁.display_eq hv₁.same)
    refine observe (bind hD₁ (write hD₁ (Nat.le_refl _) hline) (Nat.le_of_lt hslot.lt)
      fun {D₂ _ _} hD₂ ho₂ _ => ?_)
    rw [← ho₂.slot_eq (Nat.le_of_lt hslot.lt)]
    exact enterNextForm hD₂ (hlex₁.onward ho₂) (hslot.onward ho₂ hslot.lt)

/-! ## 2. Steps -/

/-- What the left side of a step must be like if the right one starts every call: there is room on both
    sides, a body goes on with nothing above its two slots, and no arguments are handed back. -/
structure Ordinary (D : Couple) (task : Task) (ps : List Pending) : Prop where
  room : D.left.depth < D.left.maxDepth ∧ D.right.depth < D.right.maxDepth
  exact : ∀ {v call frame forms qs}, task = .give v → ps = .body call frame forms :: qs →
    D.height = call.base + 2
  starts : ∀ {v qs}, task = .give v → ps = .call true :: qs → ¬ Machine.IsSelfCall D.left v

/-- What is done above the slots of those that wait lets them go on. -/
theorem continues {x x' : Run Next} (hD : D.Matched lex γ)
    (hx : Steps lex Shape.Fixed n D x x' (Proceeds lex n β ρ)) (hw : Waiting lex D n β ρ ps ps') :
    Steps lex Shape.Fixed 0 D x x' (Continues lex ps ps') :=
  relax hx (fun _ => id) (Nat.zero_le n) fun hD' ho hq => hq ps ps' (hw.onward hD hD' ho.heaps)

/-- The same for text that may be in tail position. -/
theorem continuesFrom {x x' : Run Next} {tail : Bool} (hD : D.Matched lex γ)
    (hx : Steps lex Shape.Fixed n D x x' (ProceedsFrom lex n β tail ρ v v'))
    (hw : Waiting lex D n β (.just .data) ps ps')
    (ht : TailFrom D n (lex.nested && tail) ps ps' ρ v v') :
    Steps lex Shape.Fixed 0 D x x' (Continues lex ps ps') :=
  relax hx (fun _ => id) (Nat.zero_le n) fun hD' ho hq =>
    hq ps ps' (hw.onward hD hD' ho.heaps) (ht.onward hD hD' ho.heaps)

/-- **A task is done alike.** -/
theorem step (hD : D.Matched lex γ) (hlex : Lexical lex D) (hfull : lex.vacant = none)
    (hroom : Room lex D) (hn : n ≤ D.height)
    (ht : TaskAgree lex D n ps ps' ρ task task') (hw : Waiting lex D n γ ρ ps ps') :
    Steps lex Shape.Fixed 0 D (task.step host) (task'.step host') (Continues lex ps ps') := by
  cases ht with
  | give hv => exact continues hD (give hD hn hv) hw
  | eval henv hexpr ht =>
    refine relax (enterEval host host' hD hlex hroom hn henv hexpr) (fun _ => id) (Nat.zero_le n)
      fun hD' ho hq => hq ps ps' (hw.onward hD hD' ho.heaps) fun h => ?_
    exact hw.inTail_onward (ht h) hD hD' ho.heaps
  | evalList henv hs hlist => exact continues hD (enterEvalList hD hn henv hs hlist) hw
  | apply hfunc hargs => exact continues hD (enterApply host host' hD hfull hn hfunc hargs) hw

/-- **The innermost of the steps that wait goes on alike.** -/
theorem resume (hD : D.Matched lex γ) (hlex : Lexical lex D) (hfull : lex.vacant = none)
    (hn : n ≤ D.height) (hv : D.world.Rel ρ v v') (hw : Waiting lex D n γ ρ (p :: ps) (p' :: ps'))
    (hordinary : lex.nested = true → Ordinary D (.give v) (p :: ps)) :
    Steps lex Shape.Fixed 0 D (p.resume host v) (p'.resumeBy host' (!lex.nested) v')
      (Continues lex ps ps') := by
  have hcurrent := hw.current
  cases hw with
  | exec hb hb' h =>
    subst hb'
    exact continues hD (resumeExec hD hlex (Nat.lt_of_lt_of_le hb hn) hv rfl) h
  | leave hb hb' h =>
    subst hb'
    exact continues hD (resumeLeave hD (Nat.le_trans (Nat.le_of_lt hb) hn) hv) h
  | release hb hb' h =>
    subst hb'
    exact continues hD (resumeRelease hD (Nat.le_trans (Nat.le_of_lt hb) hn) hv) h
  | call _ h =>
    refine continues hD (resumeCall host host' hD hfull hn hcurrent hv fun hnested htail => ?_) h
    subst htail
    exact (hordinary hnested).starts rfl rfl
  | argument hb hb' henv hs hrest hσ hlast h =>
    subst hb'
    exact continues hD (resumeArgument hD henv hs hrest hσ hlast hv) h
  | body hcall hb hγ hfunc hframe hforms hextra h =>
    have hrunning : Running lex D γ _ _ :=
      ⟨hcall, Nat.le_trans hb hn, fun hnested => (hordinary hnested).exact rfl rfl, hγ, hfunc⟩
    have hbehind : Behind lex D _ _ (_, _) _ _ := ⟨_, _, _, rfl, hextra, h⟩
    exact relax (resumeBody hD hrunning hframe hforms hv) (fun _ => id) (Nat.zero_le _)
      fun hD' ho hq => hq _ _ (hbehind.onward hD hD' ho.heaps)
  | branch henv hargs ht h => exact continuesFrom hD (resumeBranch hD hn henv hargs hv.same) h ht
  | define henv hname h => exact continues hD (resumeDefine hD hn henv.rel hname.rel hv) h
  | assign henv hname h => exact continues hD (resumeAssign hD hn henv.rel hname.rel.same hv) h
  | sequence henv hforms ht h => exact continuesFrom hD (resumeSequence hD hn henv hforms hv) h ht
  | conjunction henv hforms ht h => exact continuesFrom hD (resumeConjunction hD hn henv hforms hv) h ht
  | disjunction henv hforms ht h => exact continuesFrom hD (resumeDisjunction hD hn henv hforms hv) h ht
  | binding henv hframe hargs hbindings hname ht h =>
    exact continuesFrom hD (resumeBinding hD hn henv hframe hargs hbindings hname.rel hv) h ht

/-- What a step of a machine leads to, with everything that waits. -/
def Advanced (lex : Lexicon) (γ : Value × Value) (D : Couple) (next next' : Next) : Prop :=
  Together lex γ D next.task next.pending next'.task next'.pending

/-- The steps that wait already come behind those of a step. -/
theorem advanced {x x' : Run Next} (hD : D.Matched lex γ)
    (hx : Steps lex Shape.Fixed 0 D x x' (Continues lex ps ps')) :
    Steps lex Shape.Fixed 0 D (do
        let next ← x
        Pure.pure { next with pending := next.pending ++ ps })
      (do
        let next ← x'
        Pure.pure { next with pending := next.pending ++ ps' }) (Advanced lex) :=
  andThen hD hx (Nat.le_refl 0) fun hD' _ hq => pure hD' (Nat.zero_le _) hq

/-- **Two machines go on alike**, step by step. -/
theorem advance (hD : D.Matched lex γ) (hlex : Lexical lex D) (hfull : lex.vacant = none)
    (hn : n ≤ D.height) (ht : TaskAgree lex D n ps ps' ρ task task') (hw : Waiting lex D n γ ρ ps ps')
    (hgo : Machine.Unfinished task ps) (hordinary : lex.nested = true → Ordinary D task ps) :
    Steps lex Shape.Fixed 0 D (Machine.advance host true task ps)
      (Machine.advance host' (!lex.nested) task' ps') (Advanced lex) := by
  have hroom : Room lex D := fun h => (hordinary h).room
  have hdone : Steps lex Shape.Fixed 0 D (task.step host) (task'.step host') (Continues lex ps ps') :=
    step hD hlex hfull hroom hn ht hw
  cases ht with
  | eval henv hexpr ht => exact advanced hD hdone
  | evalList henv hs hlist => exact advanced hD hdone
  | apply hfunc hargs => exact advanced hD hdone
  | give hv =>
    cases ps with
    | nil => exact absurd rfl (hgo.elim (fun h => absurd rfl h) fun h => h _)
    | cons p ps =>
      cases ps' with
      | nil => cases hw
      | cons p' ps' =>
        rw [Machine.advance_resume, Machine.advance_resume, Pending.resumeBy_true]
        exact advanced hD (resume hD hlex hfull hn hv hw hordinary)

/-! ## 3. Runs -/

/-- What a run comes to when all has been done. -/
def Ended (lex : Lexicon) (γ : Value × Value) (D : Couple) (v v' : Value) : Prop :=
  γ = (.nil, .nil) ∧ Lexical lex D ∧ D.world.Rel (.just .data) v v'

/-- Without steps of the right side alone, there is a task in front of steps that wait. -/
theorem together_plain (hplain : lex.nested = false) (h : Together lex γ D task ps task' ps') :
    ∃ n ρ, n ≤ D.height ∧ TaskAgree lex D n ps ps' ρ task task' ∧ Waiting lex D n γ ρ ps ps' := by
  cases h with
  | task hn ht hw => exact ⟨_, _, hn, ht, hw⟩
  | back hv _ hw =>
    obtain ⟨g, extra, qs', rfl, hextra, hw⟩ := hw
    obtain ⟨rfl, rfl⟩ := hextra.eq_nil hplain
    exact ⟨_, _, Nat.le_refl _, .give hv, hw⟩

/-- **A run is the same on both sides**, step by step. -/
theorem run (budget : Nat) (hplain : lex.nested = false) (hfull : lex.vacant = none)
    (hD : D.Matched lex γ) (hlex : Lexical lex D)
    (h : Together lex γ D task ps task' ps') :
    Steps lex Shape.Fixed 0 D (Machine.run host budget task ps) (Machine.run host' budget task' ps')
      (Ended lex) := by
  rw [← Machine.drive_true, ← Machine.drive_true]
  induction budget generalizing D γ task task' ps ps' with
  | zero => exact throw hD _
  | succ budget ih =>
    obtain ⟨n, ρ, hn, ht, hw⟩ := together_plain hplain h
    have hordinary : lex.nested = true → Ordinary D task ps := fun h =>
      absurd h (Bool.eq_false_iff.mp hplain)
    rcases Machine.unfinished_or task ps with hgo | ⟨v, rfl, rfl⟩
    · rw [Machine.drive_succ hgo, Machine.drive_succ (ht.unfinished hw hgo)]
      have hstep : Steps lex Shape.Fixed 0 D (Machine.advance host true task ps)
          (Machine.advance host' (!lex.nested) task' ps') (Advanced lex) :=
        advance hD hlex hfull hn ht hw hgo hordinary
      rw [hplain] at hstep
      exact andThen hD hstep (Nat.le_refl 0) fun hD₁ ho₁ hq => ih hD₁ (hlex.onward ho₁) hq
    · cases ht with
      | give hv =>
        cases hw with
        | nil => exact pure hD (Nat.zero_le _) ⟨rfl, hlex, hv⟩

/-- **A source text is run alike.** -/
theorem exec (hplain : lex.nested = false) (hfull : lex.vacant = none)
    (hD : D.Matched lex (.nil, .nil)) (hlex : Lexical lex D) (source : String) (echo : Bool) :
    Steps lex Shape.Fixed 0 D (Context.exec host source echo) (Context.exec host' source echo)
      (Ended lex) := by
  unfold Context.exec
  cases Machine.ample with
  | zero => exact throw hD _
  | succ budget =>
    refine andThen hD (continues hD (enterExec hD hlex (Nat.zero_le _)) .nil) (Nat.le_refl 0)
      fun hD₁ ho₁ hq => ?_
    exact run budget hplain hfull hD₁ (hlex.onward ho₁) hq

end Leads

end LispMachine
