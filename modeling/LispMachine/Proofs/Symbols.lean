import LispMachine.SymbolTable
import Mathlib.Data.Finset.Card
import Mathlib.Data.Nat.Find

/-!
# The symbol table finds its names

* `SymbolTable.Occupied`, `SymbolTable.Sited` -- a slot that is taken, and an id that a walk from
  the home of its name comes to over slots that are all taken;
* `SymbolTable.Placed` -- the first `m` ids are sited, each in one slot, and no others are there;
* `SymbolTable.Sound` -- the invariant of a table. At most half of its slots are taken, so every
  walk comes to a vacant one (`Placed.exists_vacant`);
* `Sound.intern` -- **a name keeps the id it has, and a new name gets the next one**, whatever the
  table was laid out for.
-/

namespace LispMachine.SymbolTable

variable {names : Array String} {slots : Array (Option Nat)} {name : String} {s d n m id : Nat}
variable {t : SymbolTable}

/-! ## 1. Walks -/

/-- An id is in the slot. -/
def Occupied (slots : Array (Option Nat)) (p : Nat) : Prop := ∃ id, slots[p]? = some (some id)

/-- The slot `d` steps after `s`, around the end. -/
def ahead (slots : Array (Option Nat)) (s d : Nat) : Nat := (s + d) % slots.size

/-- Only the number of slots matters. -/
theorem ahead_congr {slots' : Array (Option Nat)} (hsize : slots'.size = slots.size) :
    ahead slots' s d = ahead slots s d := by
  rw [ahead, ahead, hsize]

theorem ahead_zero (hs : s < slots.size) : ahead slots s 0 = s := Nat.mod_eq_of_lt hs

theorem ahead_succ : ahead slots ((s + 1) % slots.size) d = ahead slots s (d + 1) := by
  rw [ahead, ahead, Nat.mod_add_mod, Nat.add_assoc, Nat.add_comm 1 d]

theorem ahead_lt (hs : s < slots.size) : ahead slots s d < slots.size :=
  Nat.mod_lt _ (Nat.zero_lt_of_lt hs)

/-- A walk of `d` steps over taken slots goes on with one step. -/
theorem occupied_succ (hocc : ∀ e, e < d + 1 → Occupied slots (ahead slots s e)) (e : Nat)
    (he : e < d) : Occupied slots (ahead slots ((s + 1) % slots.size) e) := by
  rw [ahead_succ]
  exact hocc (e + 1) (Nat.succ_lt_succ he)

/-- Placing an id takes the first vacant slot. -/
theorem place_eq (hs : s < slots.size) (hd : d < n) (hv : slots[ahead slots s d]? = some none)
    (hocc : ∀ e, e < d → Occupied slots (ahead slots s e)) :
    place slots id s n = slots.setIfInBounds (ahead slots s d) (some id) := by
  induction n generalizing s d with
  | zero => exact absurd hd (Nat.not_lt_zero d)
  | succ n ih =>
    cases d with
    | zero =>
      rw [ahead_zero hs] at hv ⊢
      rw [place, hv]
    | succ d =>
      obtain ⟨other, hother⟩ := hocc 0 (Nat.zero_lt_succ d)
      rw [ahead_zero hs] at hother
      rw [place, hother]
      show place slots id ((s + 1) % slots.size) n = _
      rw [← ahead_succ] at hv ⊢
      exact ih (Nat.mod_lt _ (Nat.zero_lt_of_lt hs)) (Nat.lt_of_succ_lt_succ hd) hv
        (occupied_succ hocc)

theorem probeFrom_succ : probeFrom t name s (n + 1) =
    match t.slots[s]? with
    | some (some id) =>
      if t.names[id]? = some name then .found id else probeFrom t name ((s + 1) % t.slots.size) n
    | _ => .vacant s := rfl

theorem probeFrom_vacant (hv : t.slots[s]? = some none) : probeFrom t name s (n + 1) = .vacant s := by
  rw [probeFrom_succ, hv]

theorem probeFrom_occupied (hv : t.slots[s]? = some (some id)) : probeFrom t name s (n + 1) =
    if t.names[id]? = some name then .found id else probeFrom t name ((s + 1) % t.slots.size) n := by
  rw [probeFrom_succ, hv]

/-- A probe for a name that is not there ends at the first vacant slot. -/
theorem probeFrom_absent (hname : ∀ i : Nat, t.names[i]? ≠ some name) (hs : s < t.slots.size)
    (hd : d < n) (hv : t.slots[ahead t.slots s d]? = some none)
    (hocc : ∀ e, e < d → Occupied t.slots (ahead t.slots s e)) :
    probeFrom t name s n = .vacant (ahead t.slots s d) := by
  induction n generalizing s d with
  | zero => exact absurd hd (Nat.not_lt_zero d)
  | succ n ih =>
    cases d with
    | zero =>
      rw [ahead_zero hs] at hv ⊢
      exact probeFrom_vacant hv
    | succ d =>
      obtain ⟨other, hother⟩ := hocc 0 (Nat.zero_lt_succ d)
      rw [ahead_zero hs] at hother
      rw [probeFrom_occupied hother, if_neg (hname other)]
      rw [← ahead_succ] at hv ⊢
      exact ih (Nat.mod_lt _ (Nat.zero_lt_of_lt hs)) (Nat.lt_of_succ_lt_succ hd) hv
        (occupied_succ hocc)

/-- A probe for a name finds the id that is sited on the way. -/
theorem probeFrom_present
    (hone : ∀ i j : Nat, t.names[i]? = some name → t.names[j]? = some name → i = j)
    (hname : t.names[id]? = some name) (hs : s < t.slots.size) (hd : d < n)
    (hv : t.slots[ahead t.slots s d]? = some (some id))
    (hocc : ∀ e, e < d → Occupied t.slots (ahead t.slots s e)) :
    probeFrom t name s n = .found id := by
  induction n generalizing s d with
  | zero => exact absurd hd (Nat.not_lt_zero d)
  | succ n ih =>
    cases d with
    | zero =>
      rw [ahead_zero hs] at hv
      rw [probeFrom_occupied hv, if_pos hname]
    | succ d =>
      obtain ⟨other, hother⟩ := hocc 0 (Nat.zero_lt_succ d)
      rw [ahead_zero hs] at hother
      rw [probeFrom_occupied hother]
      split
      · rw [hone other id ‹_› hname]
      · rw [← ahead_succ] at hv
        exact ih (Nat.mod_lt _ (Nat.zero_lt_of_lt hs)) (Nat.lt_of_succ_lt_succ hd) hv
          (occupied_succ hocc)

/-! ## 2. The invariant -/

/-- The slot a name would like to have. -/
def homeOf (names : Array String) (slots : Array (Option Nat)) (id : Nat) : Nat :=
  home (names[id]?.getD "") slots.size

theorem homeOf_congr {slots' : Array (Option Nat)} (hsize : slots'.size = slots.size) :
    homeOf names slots' id = homeOf names slots id := by
  rw [homeOf, homeOf, hsize]

/-- The walk from the home of an id's name comes to the id over taken slots. -/
def Sited (names : Array String) (slots : Array (Option Nat)) (id : Nat) : Prop :=
  ∃ d, d < slots.size ∧ slots[ahead slots (homeOf names slots id) d]? = some (some id) ∧
    ∀ e, e < d → Occupied slots (ahead slots (homeOf names slots id) e)

/-- The slots hold the first `m` ids. -/
structure Placed (names : Array String) (m : Nat) (slots : Array (Option Nat)) : Prop where
  bound : ∀ p id : Nat, slots[p]? = some (some id) → id < m
  once : ∀ p q id : Nat, slots[p]? = some (some id) → slots[q]? = some (some id) → p = q
  sited : ∀ id, id < m → Sited names slots id

/-- **The invariant of a table.** -/
structure Sound (t : SymbolTable) : Prop where
  one : ∀ (i j : Nat) (name : String), t.names[i]? = some name → t.names[j]? = some name → i = j
  pos : 0 < t.slots.size
  room : t.names.size * 2 ≤ t.slots.size
  placed : Placed t.names t.names.size t.slots

theorem home_lt {count : Nat} (hc : 0 < count) : home name count < count := Nat.mod_lt _ hc

theorem Placed.congr {names' : Array String} (hp : Placed names m slots)
    (hn : ∀ id : Nat, id < m → names'[id]? = names[id]?) : Placed names' m slots := by
  refine ⟨hp.bound, hp.once, fun id hid => ?_⟩
  have hsited := hp.sited id hid
  rwa [Sited, homeOf, hn id hid]

/-- An id that is sited stays so when other slots are taken. -/
theorem Sited.keep {slots' : Array (Option Nat)} (hs : Sited names slots id)
    (hsize : slots'.size = slots.size)
    (hkeep : ∀ p other : Nat, slots[p]? = some (some other) → slots'[p]? = some (some other)) :
    Sited names slots' id := by
  obtain ⟨d, hd, hv, hocc⟩ := hs
  rw [Sited, homeOf_congr hsize]
  refine ⟨d, hsize ▸ hd, ?_, fun e he => ?_⟩
  · rw [ahead_congr hsize]
    exact hkeep _ _ hv
  · obtain ⟨other, hother⟩ := hocc e he
    rw [ahead_congr hsize]
    exact ⟨other, hkeep _ _ hother⟩

/-- With more slots than ids some slot is vacant. -/
theorem Placed.exists_none (hp : Placed names m slots) (hm : m < slots.size) :
    ∃ p : Nat, p < slots.size ∧ slots[p]? = some none := by
  by_contra hall
  have hid : ∀ p : Nat, p < slots.size → ∃ id, slots[p]? = some (some id) := by
    intro p hlt
    cases hs : slots[p] with
    | none => exact absurd ⟨p, hlt, by rw [Array.getElem?_eq_getElem hlt, hs]⟩ hall
    | some id => exact ⟨id, by rw [Array.getElem?_eq_getElem hlt, hs]⟩
  choose! f hf using hid
  have hmaps : Set.MapsTo f (Finset.range slots.size) (Finset.range m) := by
    intro p hlt
    rw [Finset.mem_coe, Finset.mem_range] at hlt ⊢
    exact hp.bound p (f p) (hf p hlt)
  have hcard : (Finset.range m).card < (Finset.range slots.size).card := by
    rwa [Finset.card_range, Finset.card_range]
  obtain ⟨p, hlt, q, hlq, hpq, hfpq⟩ := Finset.exists_ne_map_eq_of_card_lt_of_maps_to hcard hmaps
  rw [Finset.mem_range] at hlt hlq
  exact hpq (hp.once p q (f p) (hf p hlt) (hfpq ▸ hf q hlq))

/-- **Every walk comes to a vacant slot.** -/
theorem Placed.exists_vacant (hp : Placed names m slots) (hm : m < slots.size)
    (hs : s < slots.size) : ∃ d, d < slots.size ∧ slots[ahead slots s d]? = some none ∧
      ∀ e, e < d → Occupied slots (ahead slots s e) := by
  obtain ⟨p, hlt, hnone⟩ := hp.exists_none hm
  have hreach : ∃ d, slots[ahead slots s d]? = some none := by
    refine ⟨p + (slots.size - s), ?_⟩
    rw [ahead, show s + (p + (slots.size - s)) = p + slots.size by omega, Nat.add_mod_right,
      Nat.mod_eq_of_lt hlt, hnone]
  classical
  have hfirst := Nat.find_spec hreach
  have hbefore : ∀ e, e < Nat.find hreach → Occupied slots (ahead slots s e) := by
    intro e he
    have hlt := ahead_lt (d := e) hs
    have hnot := Nat.find_min hreach he
    cases hc : slots[ahead slots s e] with
    | none => exact absurd (by rw [Array.getElem?_eq_getElem hlt, hc]) hnot
    | some id => exact ⟨id, by rw [Array.getElem?_eq_getElem hlt, hc]⟩
  refine ⟨Nat.find hreach, ?_, hfirst, hbefore⟩
  -- a walk of as many steps as there are slots has been everywhere
  by_contra hge
  obtain ⟨id, hid⟩ := hbefore ((p + (slots.size - s)) % slots.size)
    (Nat.lt_of_lt_of_le (Nat.mod_lt _ (Nat.zero_lt_of_lt hs)) (Nat.le_of_not_lt hge))
  rw [ahead, Nat.add_mod_mod, show s + (p + (slots.size - s)) = p + slots.size by omega,
    Nat.add_mod_right, Nat.mod_eq_of_lt hlt, hnone] at hid
  cases hid

/-- The next id goes to the first vacant slot from its home on. -/
theorem Placed.insert (hp : Placed names m slots) (hd : d < slots.size)
    (hv : slots[ahead slots (homeOf names slots m) d]? = some none)
    (hocc : ∀ e, e < d → Occupied slots (ahead slots (homeOf names slots m) e)) :
    Placed names (m + 1)
      (slots.setIfInBounds (ahead slots (homeOf names slots m) d) (some m)) := by
  have hlt : ahead slots (homeOf names slots m) d < slots.size :=
    (Array.getElem?_eq_some_iff.mp hv).1
  have hkeep : ∀ p id : Nat, slots[p]? = some (some id) →
      (slots.setIfInBounds (ahead slots (homeOf names slots m) d) (some m))[p]? =
        some (some id) := by
    intro p id hpid
    have hne : ahead slots (homeOf names slots m) d ≠ p := fun e => by
      rw [e, hpid] at hv
      cases hv
    rw [Array.getElem?_setIfInBounds_ne hne, hpid]
  have hsplit : ∀ p id : Nat,
      (slots.setIfInBounds (ahead slots (homeOf names slots m) d) (some m))[p]? =
        some (some id) →
      (p = ahead slots (homeOf names slots m) d ∧ id = m) ∨ slots[p]? = some (some id) := by
    intro p id hpid
    rw [Array.getElem?_setIfInBounds] at hpid
    split at hpid
    · rename_i hpd
      exact .inl ⟨hpd.symm, (Option.some.inj (Option.some.inj hpid)).symm⟩
    · exact .inr hpid
  refine ⟨fun p id hpid => ?_, fun p q id hpid hqid => ?_, fun id hid => ?_⟩
  · rcases hsplit p id hpid with ⟨_, rfl⟩ | hold
    · exact Nat.lt_succ_self _
    · exact Nat.lt_succ_of_lt (hp.bound p id hold)
  · rcases hsplit p id hpid with ⟨hp', rfl⟩ | hp' <;> rcases hsplit q id hqid with ⟨hq', hid⟩ | hq'
    · rw [hp', hq']
    · exact absurd (hp.bound q _ hq') (Nat.lt_irrefl _)
    · exact absurd (hid ▸ hp.bound p _ hp') (Nat.lt_irrefl _)
    · exact hp.once p q id hp' hq'
  · rcases Nat.lt_succ_iff_lt_or_eq.mp hid with hid | rfl
    · exact (hp.sited id hid).keep Array.size_setIfInBounds hkeep
    · refine ⟨d, ?_, ?_, fun e he => ?_⟩
      · rwa [Array.size_setIfInBounds]
      · rw [homeOf_congr Array.size_setIfInBounds, ahead_congr Array.size_setIfInBounds]
        exact Array.getElem?_setIfInBounds_self_of_lt hlt
      · obtain ⟨other, hother⟩ := hocc e he
        rw [homeOf_congr Array.size_setIfInBounds, ahead_congr Array.size_setIfInBounds]
        exact ⟨other, hkeep _ _ hother⟩

/-! ## 3. Tables -/

theorem placed_replicate (names : Array String) (count : Nat) :
    Placed names 0 (Array.replicate count none) := by
  have hnone : ∀ p id : Nat, (Array.replicate count none)[p]? ≠ some (some id) := by
    intro p id hpid
    rw [Array.getElem?_replicate] at hpid
    split at hpid <;> cases hpid
  exact ⟨fun p id hpid => absurd hpid (hnone p id), fun p q id hpid => absurd hpid (hnone p id),
    fun id hid => absurd hid (Nat.not_lt_zero id)⟩

/-- **Placing all ids anew** places them. -/
theorem placed_placeAll {count : Nat} (hc : names.size < count) :
    Placed names names.size (placeAll names count) ∧ (placeAll names count).size = count := by
  have hrun : ∀ k, k ≤ names.size →
      Placed names k (k.fold (fun id _ slots => place slots id (home (names[id]?.getD "") count) count)
        (Array.replicate count none)) ∧
      (k.fold (fun id _ slots => place slots id (home (names[id]?.getD "") count) count)
        (Array.replicate count none)).size = count := by
    intro k
    induction k with
    | zero => exact fun _ => ⟨placed_replicate names count, Array.size_replicate⟩
    | succ k ih =>
      intro hk
      obtain ⟨hp, hsize⟩ := ih (Nat.le_of_succ_le hk)
      rw [Nat.fold_succ]
      generalize k.fold (fun id _ slots => place slots id (home (names[id]?.getD "") count) count)
        (Array.replicate count none) = slots at hp hsize ⊢
      subst hsize
      have hhome : homeOf names slots k < slots.size := home_lt (by omega)
      obtain ⟨d, hd, hv, hocc⟩ := hp.exists_vacant (by omega) hhome
      have hplace : place slots k (home (names[k]?.getD "") slots.size) slots.size =
          slots.setIfInBounds (ahead slots (homeOf names slots k) d) (some k) :=
        place_eq hhome hd hv hocc
      rw [hplace]
      exact ⟨hp.insert hd hv hocc, Array.size_setIfInBounds⟩
  exact hrun names.size (Nat.le_refl _)

theorem sound_empty (capacity : Nat) : Sound (empty capacity) := by
  have hpos : 0 < slotCount capacity :=
    Nat.pos_of_isPowerOfTwo (Nat.isPowerOfTwo_nextPowerOfTwo _)
  refine ⟨fun i j name hi => ?_, ?_, ?_, placed_replicate _ _⟩
  · replace hi : (#[] : Array String)[i]? = some name := hi
    cases hi
  · show 0 < (Array.replicate _ none).size
    rwa [Array.size_replicate]
  · exact Nat.zero_le _

theorem sound_create {capacity : Nat} (hc : create capacity = .ok t) : Sound t := by
  rw [create] at hc
  split at hc
  · cases hc
    exact sound_empty capacity
  · cases hc

theorem names_create {capacity : Nat} (hc : create capacity = .ok t) : t.names = #[] := by
  rw [create] at hc
  split at hc
  · cases hc
    rfl
  · cases hc

/-- A probe for a name that is there finds its id. -/
theorem Sound.probe_eq_found (h : Sound t) (hid : t.names[id]? = some name) :
    t.probe name = .found id := by
  obtain ⟨d, hd, hv, hocc⟩ := h.placed.sited id (Array.getElem?_eq_some_iff.mp hid).1
  rw [homeOf, hid, Option.getD_some] at hv hocc
  exact probeFrom_present (fun i j => h.one i j name) hid (home_lt h.pos) hd hv hocc

/-- A probe for a name that is not there ends at the first vacant slot. -/
theorem Sound.probe_eq_vacant (h : Sound t) (habs : ∀ i : Nat, t.names[i]? ≠ some name) :
    ∃ d, d < t.slots.size ∧ t.slots[ahead t.slots (home name t.slots.size) d]? = some none ∧
      (∀ e, e < d → Occupied t.slots (ahead t.slots (home name t.slots.size) e)) ∧
      t.probe name = .vacant (ahead t.slots (home name t.slots.size) d) := by
  have hhome : home name t.slots.size < t.slots.size := home_lt h.pos
  have hroom : t.names.size < t.slots.size := by
    have := h.room
    have := h.pos
    omega
  obtain ⟨d, hd, hv, hocc⟩ := h.placed.exists_vacant hroom hhome
  exact ⟨d, hd, hv, hocc, probeFrom_absent habs hhome hd hv hocc⟩

/-- **A name keeps the id it has, and a new one gets the next id.** -/
theorem Sound.intern (h : Sound t) (name : String) :
    ∃ id u, t.intern name = .ok (id, u) ∧ Sound u ∧ u.names[id]? = some name ∧
      (u = t ∨ ((∀ i : Nat, t.names[i]? ≠ some name) ∧ id = t.names.size ∧
        u.names = t.names.push name)) := by
  by_cases hname : ∃ id : Nat, t.names[id]? = some name
  · obtain ⟨id, hid⟩ := hname
    exact ⟨id, t, by rw [SymbolTable.intern, h.probe_eq_found hid], h, hid, .inl rfl⟩
  · have habs : ∀ i : Nat, t.names[i]? ≠ some name := not_exists.mp hname
    have hroom : t.names.size < t.slots.size := by
      have := h.room
      have := h.pos
      omega
    obtain ⟨d, hd, hv, hocc, hprobe⟩ := h.probe_eq_vacant habs
    have hnew : (t.names.push name)[t.names.size]? = some name := Array.getElem?_push_size
    have hone : ∀ (i j : Nat) (other : String), (t.names.push name)[i]? = some other →
        (t.names.push name)[j]? = some other → i = j := by
      intro i j other hi hj
      rw [Array.getElem?_push] at hi hj
      split at hi <;> split at hj
      · omega
      · cases hi
        exact absurd hj (habs j)
      · cases hj
        exact absurd hi (habs i)
      · exact h.one i j other hi hj
    refine ⟨t.names.size, insertAt name (ahead t.slots (home name t.slots.size) d) t, ?_, ?_, ?_,
      .inr ⟨habs, rfl, ?_⟩⟩
    · rw [SymbolTable.intern, hprobe]
      rfl
    · rw [insertAt]
      split
      · have hc : (t.names.push name).size < t.slots.size * 2 := by
          rw [Array.size_push]
          have := h.pos
          omega
        obtain ⟨hp, hsize⟩ := placed_placeAll hc
        refine ⟨hone, ?_, ?_, hp⟩
        · show 0 < (placeAll _ _).size
          rw [hsize]
          have := h.pos
          omega
        · show (t.names.push name).size * 2 ≤ (placeAll _ _).size
          rw [hsize]
          exact Nat.mul_le_mul_right 2 (by rw [Array.size_push]; exact hroom)
      · rename_i hfits
        have hp : Placed (t.names.push name) t.names.size t.slots := by
          refine h.placed.congr fun id hid => ?_
          rw [Array.getElem?_push, if_neg (by omega)]
        have hhomeOf : homeOf (t.names.push name) t.slots t.names.size =
            home name t.slots.size := by
          rw [homeOf, hnew, Option.getD_some]
        have hins : Placed (t.names.push name) (t.names.size + 1)
            (t.slots.setIfInBounds (ahead t.slots (home name t.slots.size) d)
              (some t.names.size)) := by
          rw [← hhomeOf]
          rw [← hhomeOf] at hv hocc
          exact hp.insert hd hv hocc
        refine ⟨hone, ?_, ?_, ?_⟩
        · show 0 < (t.slots.setIfInBounds _ _).size
          rw [Array.size_setIfInBounds]
          exact h.pos
        · show (t.names.push name).size * 2 ≤ (t.slots.setIfInBounds _ _).size
          rw [Array.size_setIfInBounds]
          omega
        · show Placed (t.names.push name) (t.names.push name).size (t.slots.setIfInBounds _ _)
          rw [Array.size_push]
          exact hins
    · rw [insertAt]
      split <;> exact hnew
    · rw [insertAt]
      split <;> rfl

end LispMachine.SymbolTable
