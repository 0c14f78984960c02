import LispMachine.Proofs.Listener.Running
import LispMachine.Proofs.Twin.Actions

/-!
# A slot that is emptied

Of two contexts that run alike, the left one may drop what the right one keeps in a slot of its root
stack. Until the slot is filled again on both sides, it holds nil on the left, and what it did on the right.

* `Lexicon.after` -- two contexts are compared again with another slot emptied, and from here on in what
  they print;
* `Couple.Matched.vacate`, `Couple.Matched.emptied` -- **a slot may be emptied**;
* `Couple.Matched.fill` -- **it is filled again** by values that correspond;
* `Couple.Matched.quiet` -- a failure may be left behind.
-/

namespace LispMachine

open World Context

variable {lex : Lexicon} {D : Couple} {T : Twin} {W : World} {γ : Value × Value} {base : Nat}
variable {v v' : Value} {vacant : Option Nat} {said : String × String}

/-! ## 1. Other lexicons -/

/-- The same programs, with another slot emptied, and after other output. -/
def Lexicon.after (lex : Lexicon) (vacant : Option Nat) (said : String × String) : Lexicon :=
  { lex with vacant, said }

theorem World.Content.after {k : Kind} {cell cell' : Cell} (h : W.Content lex k cell cell') :
    W.Content (lex.after vacant said) k cell cell' := by
  cases h with
  | pair first fits rest => exact .pair first fits rest
  | object ha =>
    cases ha with
    | func hp => exact .object (.func hp)
    | native hp => exact .object (.native hp)
    | str bytes => exact .object (.str bytes)

theorem Twin.Coherent.after (hT : T.Coherent lex)
    (hroots : ∀ {i : Nat} {v v' : Value}, T.left.roots[i]? = some v →
      T.right.roots[T.slot i]? = some v' →
        T.world.Slot i v v' ∨ (vacant = some i ∧ (lex.nested = true ∨ v = .nil))) :
    T.Coherent (lex.after vacant said) where
  one := hT.one
  cells hw := by
    obtain ⟨cell, cell', hl, hr, hcell⟩ := hT.cells hw
    exact ⟨cell, cell', hl, hr, hcell.after⟩
  owned := hT.owned
  slots := hT.slots
  height := hT.height
  plain := hT.plain
  roots := hroots
  pins := hT.pins
  types_left := hT.types_left
  types_right := hT.types_right
  holdings_left := hT.holdings_left
  holdings_right := hT.holdings_right

/-! ## 2. Contexts -/

namespace Couple

theorem Matched.after (hD : D.Matched lex γ) (hT : D.twin.Coherent (lex.after vacant said))
    (hsaid : Printed (lex.after vacant said) D.left D.right) :
    D.Matched (lex.after vacant said) γ :=
  { hD with
    coherent := hT
    failure := ⟨hD.failure.plain, hD.failure.cause⟩
    output := hsaid }

/-- What is printed from now on. -/
theorem printed_now (c c' : Context) : Printed (lex.after vacant (c.output, c'.output)) c c' :=
  ⟨"", String.append_empty.symm, String.append_empty.symm⟩

/-- **A slot that is emptied** on the left corresponds to whatever is in it on the right. -/
theorem Matched.vacate (hD : D.Matched lex γ) (hvacant : lex.vacant = none ∨ lex.vacant = some base)
    (hsaid : Printed (lex.after (some base) said) D.left D.right) :
    D.Matched (lex.after (some base) said) γ := by
  refine hD.after (hD.coherent.after fun hl hr => ?_) hsaid
  rcases hD.coherent.roots hl hr with hslot | ⟨hi, hnil⟩
  · exact .inl hslot
  · rcases hvacant with hnone | hsome
    · rw [hnone] at hi
      cases hi
    · exact .inr ⟨hsome ▸ hi, hnil⟩

theorem Matched.slotSet (hD : D.Matched lex γ) (hb : base < D.height) (hv : D.world.Slot base v v') :
    (D.slotSet base v v').Matched lex γ := by
  have hl : Heap.setRoot base v D.left.heap = .ok () (D.twin.slotSet base v v').left := if_pos hb
  have hr : Heap.setRoot (D.slot base) v' D.right.heap = .ok () (D.twin.slotSet base v v').right :=
    if_pos (hD.coherent.slot_lt hb)
  have ho : D.twin.Onward (fun _ => False) 0 (D.twin.slotSet base v v') :=
    .slotSet hD.coherent (Nat.zero_le _) (Nat.zero_le _)
  exact hD.withTwin (hD.coherent.slotSet hv)
    (Heap.Operation.succeeds (.setRoot base v) hD.valid_left hl)
    (Heap.Operation.succeeds (.setRoot (D.slot base) v') hD.valid_right hr) ho

/-- **The emptied slot is filled** on both sides. -/
theorem Matched.fill (hD : D.Matched (lex.after (some base) said) γ) (hb : base < D.height)
    (hv : D.world.Slot base v v') : (D.slotSet base v v').Matched (lex.after none said) γ := by
  have hset := hD.slotSet hb hv
  refine hset.after (hset.coherent.after fun {i x x'} hl hr => .inl ?_) hset.output
  replace hl : (D.left.heap.roots.setIfInBounds base v)[i]? = some x := hl
  replace hr : (D.right.heap.roots.setIfInBounds (D.slot base) v')[D.slot i]? = some x' := hr
  by_cases hi : base = i
  · subst hi
    have hb' : D.slot base < D.right.heap.roots.size := hD.coherent.slot_lt hb
    rw [Array.getElem?_setIfInBounds_self_of_lt hb] at hl
    rw [Array.getElem?_setIfInBounds_self_of_lt hb'] at hr
    cases hl
    cases hr
    exact hv
  · have hi' : D.slot base ≠ D.slot i := fun e => hi (hD.coherent.slot_inj.mp e)
    rw [Array.getElem?_setIfInBounds_ne hi] at hl
    rw [Array.getElem?_setIfInBounds_ne hi'] at hr
    rcases hD.coherent.roots hl hr with hslot | ⟨hvacant, -⟩
    · exact hslot
    · exact absurd (Option.some.inj hvacant) hi

/-- **A slot is emptied** on the left, and the left side prints something of its own. -/
def emptied (D : Couple) (base : Nat) (out : String) : Couple :=
  { D with left := { D.left.slotted base .nil with output := out } }

theorem coherent_emptied (hT : D.twin.Coherent lex) (hvacant : lex.vacant = some base) (out : String) :
    (D.emptied base out).twin.Coherent lex :=
  { hT with
    owned := fun hw => by
      show _ < (D.left.heap.roots.setIfInBounds base .nil).size
      rw [Array.size_setIfInBounds]
      exact hT.owned hw
    height := fun k => by
      show D.slot ((D.left.heap.roots.setIfInBounds base .nil).size + k) = _
      rw [Array.size_setIfInBounds]
      exact hT.height k
    roots := fun {i v v'} hl hr => by
      replace hl : (D.left.heap.roots.setIfInBounds base .nil)[i]? = some v := hl
      by_cases hi : base = i
      · subst hi
        rw [Array.getElem?_setIfInBounds_self] at hl
        split at hl
        · exact .inr ⟨hvacant, .inr (Option.some.inj hl).symm⟩
        · cases hl
      · rw [Array.getElem?_setIfInBounds_ne hi] at hl
        exact hT.roots hl hr }

theorem Matched.emptied (hD : D.Matched lex γ) (hvacant : lex.vacant = some base)
    (hb : base < D.height) (out : String) :
    (D.emptied base out).Matched (lex.after (some base) (out, D.right.output)) γ := by
  have hT := coherent_emptied hD.coherent hvacant out
  have ho : D.twin.Onward (fun _ => False) 0 (D.emptied base out).twin :=
    { height := Nat.zero_le _
      roots_left := nofun
      slots := nofun
      roots_right := nofun
      pins := fun _ hp => hp
      kinds := fun _ _ _ hw => hw
      cells := fun _ _ _ _ _ => ⟨rfl, rfl⟩ }
  have hset : Heap.setRoot base .nil D.left.heap = .ok () (D.emptied base out).left.heap := if_pos hb
  have hl := Heap.Operation.succeeds (.setRoot base .nil) hD.valid_left hset
  exact
    { hD with
      coherent := hT.after fun hl hr => hvacant ▸ hT.roots hl hr
      valid_left := hl.valid
      rootEnv := hD.rootEnv.onward hD.coherent hT ho (Nat.le_refl 0)
      failure := ⟨hD.failure.plain, hD.failure.cause⟩
      output := printed_now _ _
      level := fun h => by
        obtain ⟨cfg, hw, hw'⟩ := hD.level h
        exact ⟨cfg, hw.resized hl.toResized, hw'⟩ }

/-- The failures and the running functions of both sides are left behind. -/
theorem Matched.quiet (hD : D.Matched lex γ) :
    (Couple.mk D.world D.left.quiet D.right.quiet D.slot).Matched lex (.nil, .nil) :=
  { hD with
    failing := rfl
    failure := .rfl
    current_left := rfl
    current_right := rfl
    looping := rfl
    settled := fun _ => rfl }

end Couple

end LispMachine
