import LispMachine.Proofs.Heap.Allocation
import LispMachine.Proofs.Twin.Holding

/-!
# Both sides do the same

One lemma for each way in which two heaps are changed alike: the changed heaps are coherent, and
nothing changes below the height at which the change is made:

* `Twin.pushed`, `Twin.popped`, `Twin.slotSet`, `Twin.pinned` -- the root stack and the pins. With
  the slots that are cut off, the lists that were built in them are finished (`Kind.release`), and
  what is pushed next comes into corresponding slots again (`Twin.cut`). A side that has more slots may
  drop them alone (`Twin.trimmed`);
* `Twin.put` -- corresponding cells are filled: fresh ones, or others that are written.
-/

namespace LispMachine

open World

/-- A list is finished when its slot is cut off. -/
def Kind.release (base : Nat) : Kind → Kind
  | pair s (some k) => if base ≤ k then pair s none else pair s (some k)
  | k => k

theorem Kind.release_some {s : Shape} {base k : Nat} : (pair s (some k)).release base =
    if base ≤ k then pair s none else pair s (some k) := rfl

/-- The lists that are built in the slots from `base` on are finished. -/
def World.released (W : World) (base : Nat) : World := fun a b k =>
  ∃ j, W a b j ∧ j.release base = k

/-- One more pair of cells, unless they correspond already. -/
def World.with (W : World) (a b : Addr) (k : Kind) : World := fun c d j =>
  W c d j ∨ (c = a ∧ d = b ∧ j = k)

theorem World.with_self {W : World} {a b : Addr} {k : Kind} (hw : W a b k) : W.with a b k = W := by
  funext c d j
  refine propext ⟨?_, .inl⟩
  rintro (h | ⟨rfl, rfl, rfl⟩)
  · exact h
  · exact hw

namespace Twin

variable {lex : Lexicon} {T : Twin} {S : Shape → Prop} {n : Nat} {v v' : Value}

/-! ## 1. The root stack -/

/-- A root is pushed on both sides. -/
def pushed (T : Twin) (v v' : Value) : Twin :=
  ⟨T.world, { T.left with roots := T.left.roots.push v },
    { T.right with roots := T.right.roots.push v' }, T.slot⟩

theorem Coherent.pushed (hT : T.Coherent lex) (hv : T.world.Slot T.left.roots.size v v') :
    (T.pushed v v').Coherent lex where
  one := hT.one
  cells := hT.cells
  owned hw := by
    show _ < (T.left.roots.push v).size
    rw [Array.size_push]
    exact Nat.lt_succ_of_lt (hT.owned hw)
  slots := hT.slots
  height k := by
    show T.slot ((T.left.roots.push v).size + k) = (T.right.roots.push v').size + k
    rw [Array.size_push, Array.size_push, Nat.add_assoc, Nat.add_assoc]
    exact hT.height (1 + k)
  plain := hT.plain
  roots := by
    intro i u u' hu hu'
    replace hu : (T.left.roots.push v)[i]? = some u := hu
    replace hu' : (T.right.roots.push v')[T.slot i]? = some u' := hu'
    rw [Array.getElem?_push] at hu hu'
    rw [← hT.slot_height] at hu'
    split at hu
    · rename_i hi
      rw [if_pos (hT.slot_inj.mpr hi)] at hu'
      cases hu
      cases hu'
      rw [hi]
      exact .inl hv
    · rename_i hi
      rw [if_neg (mt hT.slot_inj.mp hi)] at hu'
      exact hT.roots hu hu'
  pins := hT.pins
  types_left := hT.types_left
  types_right := hT.types_right
  holdings_left := hT.holdings_left
  holdings_right := hT.holdings_right

theorem Onward.pushed (hT : T.Coherent lex) (hn : n ≤ T.left.roots.size) :
    Onward S n T (T.pushed v v') where
  height := by
    show n ≤ (T.left.roots.push v).size
    rw [Array.size_push]
    exact Nat.le_succ_of_le hn
  roots_left i hi := by
    show (T.left.roots.push v)[i]? = _
    rw [Array.getElem?_push, if_neg (by omega)]
  slots _ _ := rfl
  roots_right i hi := by
    show (T.right.roots.push v')[T.slot i]? = _
    rw [Array.getElem?_push, if_neg (Nat.ne_of_lt (hT.slot_lt (Nat.lt_of_lt_of_le hi hn)))]
  pins _ hp := hp
  kinds _ _ _ hw := hw
  cells _ _ _ _ _ := ⟨rfl, rfl⟩

/-- Corresponding slots once the left root stack ends at `base` and the right one at `top`. -/
def cut (slot : Nat → Nat) (base top : Nat) : Nat → Nat := fun i =>
  if i < base then slot i else top + (i - base)

section Cut

variable {slot : Nat → Nat} {base top i : Nat}

theorem cut_of_lt (hi : i < base) : cut slot base top i = slot i := if_pos hi

theorem cut_of_le (hi : base ≤ i) : cut slot base top i = top + (i - base) :=
  if_neg (Nat.not_lt_of_le hi)

theorem cut_add (slot : Nat → Nat) (base top k : Nat) : cut slot base top (base + k) = top + k := by
  rw [cut_of_le (Nat.le_add_right base k), Nat.add_sub_cancel_left]

theorem strictMono_cut (hs : StrictMono slot) (htop : ∀ i < base, slot i < top) :
    StrictMono (cut slot base top) := by
  intro i j hij
  rcases Nat.lt_or_ge i base with hi | hi
  · rw [cut_of_lt hi]
    rcases Nat.lt_or_ge j base with hj | hj
    · rw [cut_of_lt hj]
      exact hs hij
    · rw [cut_of_le hj]
      exact Nat.lt_of_lt_of_le (htop i hi) (Nat.le_add_right top _)
  · rw [cut_of_le hi, cut_of_le (Nat.le_trans hi (Nat.le_of_lt hij))]
    omega

theorem cut_id (base : Nat) : cut id base base = id := by
  funext i
  rcases Nat.lt_or_ge i base with hi | hi
  · exact cut_of_lt hi
  · rw [cut_of_le hi]
    exact Nat.add_sub_cancel' hi

/-- Nothing is cut off where the slots go on side by side. -/
theorem cut_self (h : ∀ k, slot (base + k) = top + k) : cut slot base top = slot := by
  funext i
  rcases Nat.lt_or_ge i base with hi | hi
  · exact cut_of_lt hi
  · rw [cut_of_le hi, ← h, Nat.add_sub_cancel' hi]

end Cut

/-- The root stacks are cut back, the left one to `base` and the right one to `top`. -/
def trimmed (T : Twin) (base top : Nat) : Twin :=
  ⟨T.world.released base, { T.left with roots := T.left.roots.shrink base },
    { T.right with roots := T.right.roots.shrink top }, cut T.slot base top⟩

/-- The root stacks are cut back to a height they had. -/
def popped (T : Twin) (base : Nat) : Twin :=
  ⟨T.world.released base, { T.left with roots := T.left.roots.shrink base },
    { T.right with roots := T.right.roots.shrink (T.slot base) }, cut T.slot base (T.slot base)⟩

theorem Rel.released {W : World} {ρ : Role} {base : Nat} (h : W.Rel ρ v v') :
    (W.released base).Rel ρ v v' := by
  cases h with
  | atom hv => exact .atom hv
  | object hw => exact .object ⟨_, hw, rfl⟩
  | pair hw hs => exact .pair ⟨_, hw, rfl⟩ hs

theorem Content.released {W : World} {k : Kind} {c c' : Cell} {base : Nat}
    (h : W.Content lex k c c') : (W.released base).Content lex (k.release base) c c' := by
  cases h with
  | @pair s o x y x' y' first fits rest =>
    have hdone : ∀ {o'}, (W.released base).Rel (.just s.rest) y y' →
        (W.released base).Content lex (.pair s o') (.pair x y) (.pair x' y') := fun hrel =>
      .pair (Rel.released first) fits (.done hrel)
    cases rest with
    | done hv =>
      have hrel : (W.released base).Rel (.just s.rest) y y' := Rel.released hv
      cases o with
      | none => exact hdone hrel
      | some k =>
        rw [Kind.release_some]
        split
        · exact hdone hrel
        · exact hdone hrel
    | @more k a b ho hw =>
      subst ho
      rw [Kind.release_some]
      split
      · rename_i hk
        refine hdone (.pair ⟨_, hw, ?_⟩ rfl)
        rw [Kind.release_some, if_pos hk]
      · rename_i hk
        refine .pair (Rel.released first) fits (.more rfl ⟨_, hw, ?_⟩)
        rw [Kind.release_some, if_neg hk]
  | object ha =>
    cases ha with
    | func hp => exact .object (.func (Rel.released hp))
    | native hp => exact .object (.native hp)
    | str bytes => exact .object (.str bytes)

theorem Slot.released {W : World} {base i : Nat} (h : W.Slot i v v') :
    (W.released base).Slot i v v' := by
  cases h with
  | atom hv => exact .atom hv
  | object hw => exact .object ⟨_, hw, rfl⟩
  | @pair a b s o hw ho =>
    rcases ho with rfl | rfl
    · exact .pair ⟨_, hw, rfl⟩ (.inl rfl)
    · by_cases hi : base ≤ i
      · have hrel : (Kind.pair s (some i)).release base = .pair s none := by
          rw [Kind.release_some, if_pos hi]
        exact .pair ⟨_, hw, hrel⟩ (.inl rfl)
      · have hrel : (Kind.pair s (some i)).release base = .pair s (some i) := by
          rw [Kind.release_some, if_neg hi]
        exact .pair ⟨_, hw, hrel⟩ (.inr rfl)

theorem getElem?_shrink {α : Type} {xs : Array α} {base i : Nat} :
    (xs.shrink base)[i]? = if i < base then xs[i]? else none := by
  rw [Array.shrink_eq_take, Array.take_eq_extract, Array.getElem?_extract, Nat.sub_zero,
    Nat.zero_add]
  split
  · rw [if_pos (by omega)]
  · split
    · rw [Array.getElem?_eq_none (by omega)]
    · rfl

/-- What a kind is released to, a released kind of a list that is still built was. -/
theorem release_eq_owned {j : Kind} {base k : Nat} {s : Shape}
    (h : j.release base = .pair s (some k)) : j = .pair s (some k) ∧ k < base := by
  cases j with
  | object => cases h
  | pair s' o =>
    cases o with
    | none => cases h
    | some k' =>
      rw [Kind.release_some] at h
      split at h
      · cases h
      · cases h
        exact ⟨rfl, Nat.lt_of_not_le ‹_›⟩

/-- **Cutting back the root stacks**, each of them where the other one has no slot any more. -/
theorem Coherent.trimmed (hT : T.Coherent lex) {base top : Nat} (hb : base ≤ T.left.roots.size)
    (htop : top ≤ T.right.roots.size) (hslots : ∀ i < base, T.slot i < top)
    (hplain : lex.nested = false → top = base) : (T.trimmed base top).Coherent lex where
  one := by
    constructor
    · rintro a b b' k k' ⟨j, hw, rfl⟩ ⟨j', hw', rfl⟩
      obtain ⟨rfl, rfl⟩ := hT.one.left hw hw'
      exact ⟨rfl, rfl⟩
    · rintro a a' b k k' ⟨j, hw, rfl⟩ ⟨j', hw', rfl⟩
      obtain ⟨rfl, rfl⟩ := hT.one.right hw hw'
      exact ⟨rfl, rfl⟩
  cells := by
    rintro a b k ⟨j, hw, rfl⟩
    obtain ⟨c, c', hl, hr, hc⟩ := hT.cells hw
    exact ⟨c, c', hl, hr, Content.released hc⟩
  owned := by
    rintro a b s k ⟨j, hw, hj⟩
    show k < (T.left.roots.shrink base).size
    rw [Array.size_shrink, Nat.min_eq_left hb]
    exact (release_eq_owned hj).2
  slots := strictMono_cut hT.slots hslots
  height k := by
    show cut T.slot base top ((T.left.roots.shrink base).size + k) = (T.right.roots.shrink top).size + k
    rw [Array.size_shrink, Array.size_shrink, Nat.min_eq_left hb, Nat.min_eq_left htop, cut_add]
  plain hn := by
    show cut T.slot base top = id
    rw [hT.plain hn, hplain hn]
    exact cut_id base
  roots := by
    intro i u u' hu hu'
    replace hu : (T.left.roots.shrink base)[i]? = some u := hu
    rw [getElem?_shrink] at hu
    split at hu
    · rename_i hi
      replace hu' : (T.right.roots.shrink top)[cut T.slot base top i]? = some u' := hu'
      rw [getElem?_shrink, cut_of_lt hi, if_pos (hslots i hi)] at hu'
      exact (hT.roots hu hu').imp_left Slot.released
    · cases hu
  pins := hT.pins.imp fun _ _ hv => Rel.released hv
  types_left := hT.types_left
  types_right := hT.types_right
  holdings_left := hT.holdings_left
  holdings_right := hT.holdings_right

theorem Onward.trimmed (hT : T.Coherent lex) {base top : Nat} (hb : base ≤ T.left.roots.size)
    (hslots : ∀ i < base, T.slot i < top) : Onward S base T (T.trimmed base top) where
  height := by
    show base ≤ (T.left.roots.shrink base).size
    rw [Array.size_shrink, Nat.min_eq_left hb]
  roots_left i hi := by
    show (T.left.roots.shrink base)[i]? = _
    rw [getElem?_shrink, if_pos hi]
  slots i hi := cut_of_lt hi
  roots_right i hi := by
    show (T.right.roots.shrink top)[T.slot i]? = _
    rw [getElem?_shrink, if_pos (hslots i hi)]
  pins _ hp := hp
  kinds := by
    intro v v' a b k hv ha hb' hw
    refine ⟨k, hw, ?_⟩
    cases k with
    | object => rfl
    | pair s o =>
      cases o with
      | none => rfl
      | some k =>
        have hk : k < base := by
          cases hv.same hT with
          | atom hatom => rw [hatom] at ha; cases ha
          | object hw' =>
            cases ha
            cases hb'
            cases (hT.one.left hw hw').2
          | pair hw' =>
            cases ha
            cases hb'
            exact hv.owner_lt hT rfl rfl hw
        rw [Kind.release_some, if_neg (Nat.not_le_of_lt hk)]
  cells _ _ _ _ _ := ⟨rfl, rfl⟩

/-- **Cutting back the root stacks** to where they corresponded. -/
theorem Coherent.popped (hT : T.Coherent lex) {base : Nat} (hb : base ≤ T.left.roots.size) :
    (T.popped base).Coherent lex :=
  hT.trimmed hb (hT.slot_le hb) (fun _ hi => hT.slots hi) fun hplain => congrFun (hT.plain hplain) base

theorem Onward.popped (hT : T.Coherent lex) {base : Nat} (hb : base ≤ T.left.roots.size) :
    Onward S base T (T.popped base) :=
  .trimmed hT hb fun _ hi => hT.slots hi

/-- A slot is set on both sides. -/
def slotSet (T : Twin) (i : Nat) (v v' : Value) : Twin :=
  ⟨T.world, { T.left with roots := T.left.roots.setIfInBounds i v },
    { T.right with roots := T.right.roots.setIfInBounds (T.slot i) v' }, T.slot⟩

theorem Coherent.slotSet (hT : T.Coherent lex) {i : Nat} (hv : T.world.Slot i v v') :
    (T.slotSet i v v').Coherent lex where
  one := hT.one
  cells := hT.cells
  owned hw := by
    show _ < (T.left.roots.setIfInBounds i v).size
    rw [Array.size_setIfInBounds]
    exact hT.owned hw
  slots := hT.slots
  height k := by
    show T.slot ((T.left.roots.setIfInBounds i v).size + k) =
      (T.right.roots.setIfInBounds (T.slot i) v').size + k
    rw [Array.size_setIfInBounds, Array.size_setIfInBounds]
    exact hT.height k
  plain := hT.plain
  roots := by
    intro j u u' hu hu'
    replace hu : (T.left.roots.setIfInBounds i v)[j]? = some u := hu
    replace hu' : (T.right.roots.setIfInBounds (T.slot i) v')[T.slot j]? = some u' := hu'
    by_cases hij : i = j
    · subst hij
      rw [Array.getElem?_setIfInBounds_self] at hu hu'
      split at hu
      · split at hu'
        · cases hu
          cases hu'
          exact .inl hv
        · cases hu'
      · cases hu
    · rw [Array.getElem?_setIfInBounds_ne hij] at hu
      rw [Array.getElem?_setIfInBounds_ne fun e => hij (hT.slot_inj.mp e)] at hu'
      exact hT.roots hu hu'
  pins := hT.pins
  types_left := hT.types_left
  types_right := hT.types_right
  holdings_left := hT.holdings_left
  holdings_right := hT.holdings_right

theorem Onward.slotSet {i : Nat} (hT : T.Coherent lex) (hi : n ≤ i) (hn : n ≤ T.left.roots.size) :
    Onward S n T (T.slotSet i v v') where
  height := by
    show n ≤ (T.left.roots.setIfInBounds i v).size
    rw [Array.size_setIfInBounds]
    exact hn
  roots_left j hj := Array.getElem?_setIfInBounds_ne (by omega)
  slots _ _ := rfl
  roots_right j hj :=
    Array.getElem?_setIfInBounds_ne (Nat.ne_of_gt (hT.slots (Nat.lt_of_lt_of_le hj hi)))
  pins _ hp := hp
  kinds _ _ _ hw := hw
  cells _ _ _ _ _ := ⟨rfl, rfl⟩

/-! ## 2. Cells -/

/-- Corresponding cells are filled, fresh ones or others. -/
def put (T : Twin) (a b : Addr) (k : Kind) (c c' : Cell) : Twin :=
  ⟨T.world.with a b k, T.left.filled a c, T.right.filled b c', T.slot⟩

/-- The cells correspond already, or neither corresponds to any. -/
def Fresh (W : World) (a b : Addr) (k : Kind) : Prop :=
  ∀ c d j, W c d j → c = a ∨ d = b → c = a ∧ d = b ∧ j = k

theorem Content.with {W : World} {a b : Addr} {j k : Kind} {c c' : Cell}
    (h : W.Content lex k c c') : (W.with a b j).Content lex k c c' :=
  h.transfer fun _ _ _ _ _ hw => .inl hw

/-- **Filling corresponding cells.** -/
theorem Coherent.put (hT : T.Coherent lex) {a b : Addr} {k : Kind} {c c' : Cell}
    (hf : Fresh T.world a b k) (ha : a < T.left.cells.size) (hb : b < T.right.cells.size)
    (hc : (T.world.with a b k).Content lex k c c')
    (ho : ∀ s i, k = .pair s (some i) → i < T.left.roots.size) :
    (T.put a b k c c').Coherent lex where
  one := by
    constructor
    · rintro d e e' j j' (hw | ⟨rfl, rfl, rfl⟩) (hw' | ⟨hd, rfl, rfl⟩)
      · exact hT.one.left hw hw'
      · obtain ⟨_, rfl, rfl⟩ := hf _ _ _ hw (.inl hd)
        exact ⟨rfl, rfl⟩
      · obtain ⟨_, rfl, rfl⟩ := hf _ _ _ hw' (.inl rfl)
        exact ⟨rfl, rfl⟩
      · exact ⟨rfl, rfl⟩
    · rintro d d' e j j' (hw | ⟨rfl, rfl, rfl⟩) (hw' | ⟨rfl, he, rfl⟩)
      · exact hT.one.right hw hw'
      · obtain ⟨rfl, _, rfl⟩ := hf _ _ _ hw (.inr he)
        exact ⟨rfl, rfl⟩
      · obtain ⟨rfl, _, rfl⟩ := hf _ _ _ hw' (.inr rfl)
        exact ⟨rfl, rfl⟩
      · exact ⟨rfl, rfl⟩
  cells := by
    have hnew : ∃ d d', (T.left.filled a c).cells[a]? = some d ∧
        (T.right.filled b c').cells[b]? = some d' ∧ (T.world.with a b k).Content lex k d d' :=
      ⟨c, c', Array.getElem?_setIfInBounds_self_of_lt ha,
        Array.getElem?_setIfInBounds_self_of_lt hb, hc⟩
    rintro d e j (hw | ⟨rfl, rfl, rfl⟩)
    · by_cases hd : d = a ∨ e = b
      · obtain ⟨rfl, rfl, rfl⟩ := hf _ _ _ hw hd
        exact hnew
      · rw [not_or] at hd
        obtain ⟨x, x', hl, hr, hx⟩ := hT.cells hw
        exact ⟨x, x', (Array.getElem?_setIfInBounds_ne (Ne.symm hd.1)).trans hl,
          (Array.getElem?_setIfInBounds_ne (Ne.symm hd.2)).trans hr, Content.with hx⟩
    · exact hnew
  owned := by
    rintro d e s i (hw | ⟨_, _, hk⟩)
    · exact hT.owned hw
    · exact ho s i hk.symm
  slots := hT.slots
  height := hT.height
  plain := hT.plain
  roots hv hv' := (hT.roots hv hv').imp_left fun hs => hs.transfer fun _ _ _ _ _ hw => .inl hw
  pins := hT.pins.imp fun _ _ hv => hv.transfer fun _ _ _ _ _ hw => .inl hw
  types_left := hT.types_left
  types_right := hT.types_right
  holdings_left := hT.holdings_left
  holdings_right := hT.holdings_right

theorem Onward.put {a b : Addr} {k : Kind} {c c' : Cell} (hf : Fresh T.world a b k)
    (hn : n ≤ T.left.roots.size) (hk : T.world a b k → ¬ k.Firm S n) :
    Onward S n T (T.put a b k c c') where
  height := hn
  roots_left _ _ := rfl
  slots _ _ := rfl
  roots_right _ _ := rfl
  pins _ hp := hp
  kinds _ _ _ hw := .inl hw
  cells := by
    intro v v' d e j _ _ _ hw hj
    have hd : ¬ (d = a ∨ e = b) := fun hd => by
      obtain ⟨rfl, rfl, rfl⟩ := hf _ _ _ hw hd
      exact hk hw hj
    rw [not_or] at hd
    exact ⟨Array.getElem?_setIfInBounds_ne (Ne.symm hd.1),
      Array.getElem?_setIfInBounds_ne (Ne.symm hd.2)⟩

/-! ## 3. Pins -/

/-- An environment is pinned on both sides. -/
def pinned (T : Twin) (v v' : Value) : Twin :=
  ⟨T.world, { T.left with pins := v :: T.left.pins },
    { T.right with pins := v' :: T.right.pins }, T.slot⟩

theorem Coherent.pinned (hT : T.Coherent lex) (hv : T.world.Rel (.just .frame) v v') :
    (T.pinned v v').Coherent lex where
  one := hT.one
  cells := hT.cells
  owned := hT.owned
  slots := hT.slots
  height := hT.height
  plain := hT.plain
  roots := hT.roots
  pins := .cons hv hT.pins
  types_left := hT.types_left
  types_right := hT.types_right
  holdings_left := hT.holdings_left
  holdings_right := hT.holdings_right

theorem Onward.pinned (hn : n ≤ T.left.roots.size) : Onward S n T (T.pinned v v') where
  height := hn
  roots_left _ _ := rfl
  slots _ _ := rfl
  roots_right _ _ := rfl
  pins _ hp := List.mem_cons_of_mem _ hp
  kinds _ _ _ hw := hw
  cells _ _ _ _ _ := ⟨rfl, rfl⟩

end Twin

end LispMachine
