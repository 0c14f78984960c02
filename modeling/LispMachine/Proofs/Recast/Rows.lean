import LispMachine.Proofs.Recast.Frames

/-!
# Forms that are evaluated one after the other

The forms of a sequence, of a body, of a conjunction and of a disjunction are gone through alike. On two
sides with recast code the forms of a body may correspond to those of a sequence:

* `Row` -- how the machine goes through a list of forms (`Row.enter`), and how it goes on after one of
  them (`Row.resumeBy_pending`);
* `Evals` -- evaluations of recast code come to values that correspond, as far as `n` steps; `Both.wait` is
  what follows for a step that waits;
* `Both.row` -- **so do rows of recast code**. The induction is on the code.
-/

namespace LispMachine

open Context Machine

/-! ## 1. Rows -/

/-- How the machine goes through a list of forms. -/
inductive Row where
  | sequence (env : Value) (tail : Bool)
  | conjunction (env : Value) (tail : Bool)
  | disjunction (env : Value) (tail : Bool)
  | body (call : Call) (frame : Value)

/-- Which values end a row. -/
inductive Row.Mode where
  | all
  | conjunction
  | disjunction
  deriving DecidableEq

namespace Row

/-- The environment of the forms. -/
def env : Row → Value
  | sequence env _ | conjunction env _ | disjunction env _ | body _ env => env

def mode : Row → Mode
  | conjunction _ _ => .conjunction
  | disjunction _ _ => .disjunction
  | _ => .all

/-- The tail position of a form, which may be the last one. -/
def tail (last : Bool) : Row → Bool
  | sequence _ tail | conjunction _ tail | disjunction _ tail => tail && last
  | body _ _ => last

/-- What waits while the first of `forms` is evaluated. -/
def pending (forms : Value) : Row → Pending
  | sequence env tail => .sequence env forms tail
  | conjunction env tail => .conjunction env forms tail
  | disjunction env tail => .disjunction env forms tail
  | body call frame => .body call frame forms

/-- What is done with the value of a row. -/
def close (v : Value) : Row → Run Next
  | body call _ => finish call v
  | _ => pure (.give v)

/-- Evaluates forms from the pair `forms` on; with none left, `v` is the value. -/
def enter (row : Row) (forms v : Value) : Run Next := do
  if forms.isPair then
    let h ← look (fun h => (h.car forms, !(h.cdr forms).isPair))
    pure (.eval row.env h.1 (row.tail h.2) (row.pending forms))
  else row.close v

namespace Mode

/-- The value of a row that ends with the value of a form. -/
def stop? (failing : Bool) (v : Value) : Mode → Option Value
  | all => if failing then some .nil else none
  | conjunction => if failing || v.isNil then some .nil else none
  | disjunction => if failing then some .nil else if v.isTruthy then some v else none

/-- What the value of a form counts for if it is the last one. -/
def result (v : Value) : Mode → Value
  | disjunction => .nil
  | _ => v

end Mode

theorem enterSequence_eq (env forms : Value) (tail : Bool) (v : Value) :
    enterSequence env forms tail v = (sequence env tail).enter forms v := rfl

theorem enterForms_eq (call : Call) (frame forms v : Value) :
    enterForms call frame forms v = (body call frame).enter forms v := rfl

variable {c : Context}

/-- **A row goes on after a form**, or ends. -/
theorem resumeBy_pending (row : Row) (forms v : Value) (hc : c.looping = false) :
    (row.pending forms).resumeBy Host.none false v c =
      (match row.mode.stop? c.failing v with
      | some u => row.close u
      | none => row.enter (c.heap.cdr forms) (row.mode.result v)) c := by
  cases row with
  | sequence env tail =>
    show (if c.failing = true then _ else _ : Run Next) c = _
    cases hf : c.failing <;> rfl
  | conjunction env tail =>
    show (if (c.failing || v.isNil) = true then _ else _ : Run Next) c = _
    simp only [mode, Mode.stop?]
    cases hf : c.failing || v.isNil <;> rfl
  | disjunction env tail =>
    show (if c.failing = true then _ else if v.isTruthy = true then _ else _ : Run Next) c = _
    simp only [mode, Mode.stop?]
    cases hf : c.failing <;> cases ht : v.isTruthy <;> rfl
  | body call frame =>
    show (if c.failing = true then _ else
      LispMachine.observe Context.looping >>= fun l => if l = true then _ else _ : Run Next) c = _
    cases hf : c.failing with
    | true => rfl
    | false =>
      show (if c.looping = true then _ else _ : Run Next) c = _
      rw [hc]
      rfl

end Row

/-! ## 2. Recast code -/

/-- **Evaluations of recast code come to values that correspond**, or last for `n` steps. They are begun only
    while nothing has failed. -/
def Evals (n : Nat) : Prop :=
  ∀ (D : Duet) (env env' expr expr' : Value) (tail tail' : Bool) (ps ps' : List Pending), D.Sound →
    D.left.failing = false → D.concord.Rel env env' → D.concord.Recast .expr expr expr' →
    Meets n ⟨D.left, .eval env expr tail, ps⟩ ⟨D.right, .eval env' expr' tail', ps'⟩
      (D.Gives D.left.heap.roots D.right.heap.roots ps ps')

variable {K : Concord} {n : Nat} {forms forms' : Value} {ps ps' : List Pending} {P : State → State → Prop}

/-- **An expression is evaluated on both sides**, and what waits goes on. -/
theorem Both.wait (hn : Evals n) {D : Duet} {env env' expr expr' : Value} {tail tail' : Bool} {p p' : Pending}
    (hD : D.Sound) (hgo : D.left.failing = false) (henv : D.concord.Rel env env')
    (hexpr : D.concord.Recast .expr expr expr') (m : Nat)
    (hp : ∀ (D₁ : Duet) v v', D₁.Sound → D.Later D₁ → D.Still D₁ → D₁.concord.Rel v v' →
      Both D₁ m (p.resumeBy Host.none false v) (p'.resumeBy Host.none false v') (Duet.Onto n ps ps' P)) :
    Both D 0 (Pure.pure (Next.eval env expr tail p)) (Pure.pure (Next.eval env' expr' tail' p'))
      (Duet.Onto n ps ps' P) := by
  refine pure hD ((hn D _ _ _ _ _ _ (p :: ps) (p' :: ps') hD hgo henv hexpr).andThen
    fun D₁ v v' hD₁ later hroots hroots' hv => .resume hD₁ m fun D₂ hroom => ?_)
  have later₂ := hroom.later hD₁
  exact hp D₂ v v' (hroom.sound hD₁) (later.trans later₂) (.trans ⟨hroots, hroots'⟩ (hroom.still hD₁))
    (hv.mono later₂.le)

/-- A pair of code. -/
theorem Side.car_cdr {L M : Codebook} {c : Context} (hc : Side M c) (le : L.Le M) {v x y : Value}
    (hv : L.code.pair v x y) : v.isPair = true ∧ c.heap.car v = x ∧ c.heap.cdr v = y := by
  obtain ⟨a, rfl, hp⟩ := hv
  have hx := Heap.cell_of_content (hc.code (le.pair _ _ _ hp))
  exact ⟨rfl, Heap.car_of_cell hx, Heap.cdr_of_cell hx⟩

/-- A pair of code on both sides. -/
theorem Concord.Recast.car_cdr {D : Duet} (hD : D.Sound) (le : K.Le D.concord) {v x y v' x' y' : Value}
    (hv : K.left.code.pair v x y) (hv' : K.right.code.pair v' x' y') :
    v.isPair = true ∧ v'.isPair = true ∧ D.left.heap.car v = x ∧ D.left.heap.cdr v = y ∧
      D.right.heap.car v' = x' ∧ D.right.heap.cdr v' = y' := by
  obtain ⟨hp, hcar, hcdr⟩ := hD.left.car_cdr le.left hv
  obtain ⟨hp', hcar', hcdr'⟩ := hD.right.car_cdr le.right hv'
  exact ⟨hp, hp', hcar, hcdr, hcar', hcdr'⟩

/-- A row does not go on after a failure. -/
theorem Row.Mode.going_of_stop? {mode : Row.Mode} {failing : Bool} {v : Value}
    (h : mode.stop? failing v = none) : failing = false := by
  cases failing with
  | false => rfl
  | true => cases mode <;> cases h

/-- Values end corresponding rows alike. -/
theorem Row.Mode.stop?_rel {v v' : Value} (h : K.Rel v v') (failing : Bool) (mode : Row.Mode) :
    Option.Rel K.Rel (mode.stop? failing v) (mode.stop? failing v') ∧ K.Rel (mode.result v) (mode.result v') := by
  have hkind := h.kindred
  cases mode with
  | all =>
    refine ⟨?_, h⟩
    cases failing
    · exact .none
    · exact .some .nil
  | conjunction =>
    refine ⟨?_, h⟩
    rw [stop?, stop?, hkind.isNil_eq]
    split
    · exact .some .nil
    · exact .none
  | disjunction =>
    refine ⟨?_, .nil⟩
    rw [stop?, stop?, hkind.isTruthy_eq]
    split
    · exact .some .nil
    · split
      · exact .some h
      · exact .none

/-- **Rows of recast code come to values that correspond.** -/
theorem Both.row (hn : Evals n) (row row' : Row) (hmode : row.mode = row'.mode)
    (hforms : K.Recast .exprs forms forms') {D : Duet} {v v' : Value} (hD : D.Sound)
    (hgo : D.left.failing = false) (le : K.Le D.concord) (henv : D.concord.Rel row.env row'.env)
    (hv : D.concord.Rel v v')
    (hclose : ∀ (D₁ : Duet) u u', D₁.Sound → D.Later D₁ → D.Still D₁ → D₁.concord.Rel u u' →
      Both D₁ 0 (row.close u) (row'.close u') (Duet.Onto n ps ps' P)) :
    Both D 0 (row.enter forms v) (row'.enter forms' v') (Duet.Onto n ps ps' P) := by
  refine LispMachine.Recast.list_induction (p := .exprs) (motive := fun forms forms' => ∀ {D : Duet} {v v' : Value},
    D.Sound → D.left.failing = false → K.Le D.concord → D.concord.Rel row.env row'.env → D.concord.Rel v v' →
    (∀ (D₁ : Duet) u u', D₁.Sound → D.Later D₁ → D.Still D₁ → D₁.concord.Rel u u' →
      Both D₁ 0 (row.close u) (row'.close u') (Duet.Onto n ps ps' P)) →
    Both D 0 (row.enter forms v) (row'.enter forms' v') (Duet.Onto n ps ps' P)) trivial rfl
    (fun forms forms' hlone hrel D v v' hD _ _ _ hv hclose => ?_)
    (fun forms x y forms' x' y' hpair hpair' first rest ih D v v' hD hgo le henv hv hclose => ?_)
    hforms hD hgo le henv hv hclose
  · have hpair : forms.isPair = false := hlone
    have hpair' : forms'.isPair = false := (hrel.kindred.isPair_eq).symm.trans hlone
    rw [Row.enter, Row.enter, hpair, hpair']
    exact hclose D v v' hD (.refl D) (.refl D) hv
  · obtain ⟨hp, hp', hcar, hcdr, hcar', hcdr'⟩ := Concord.Recast.car_cdr hD le hpair hpair'
    rw [Row.enter, Row.enter, if_pos hp, if_pos hp']
    refine look ?_
    rw [hcar, hcar', hcdr, hcdr']
    refine wait hn hD hgo henv (Concord.Recast.mono first le) 0 fun D₂ u u' hD₂ later still hu => ?_
    intro k hk hk'
    rw [Row.resumeBy_pending _ _ _ hD₂.left.settled, Row.resumeBy_pending _ _ _ hD₂.right.settled, ← hD₂.failing,
      ← hmode]
    revert k
    show Both D₂ 0 _ _ _
    obtain ⟨hstop, hresult⟩ := Row.Mode.stop?_rel hu D₂.left.failing row.mode
    have hnone : row.mode.stop? D₂.left.failing u = none → D₂.left.failing = false := Row.Mode.going_of_stop?
    generalize row.mode.stop? D₂.left.failing u = stop at hstop hnone ⊢
    generalize row.mode.stop? D₂.left.failing u' = stop' at hstop ⊢
    cases hstop with
    | some hw => exact hclose D₂ _ _ hD₂ later still hw
    | none =>
      obtain ⟨-, -, -, hcdr, -, hcdr'⟩ := Concord.Recast.car_cdr hD₂ (le.trans later.le) hpair hpair'
      rw [hcdr, hcdr']
      exact ih hD₂ (hnone rfl) (le.trans later.le) (henv.mono later.le) hresult fun D₃ w w' hD₃ later₃ still₃ hw =>
        hclose D₃ w w' hD₃ (later.trans later₃) (still.trans still₃) hw

end LispMachine
