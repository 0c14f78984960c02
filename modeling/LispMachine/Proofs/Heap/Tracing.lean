import LispMachine.Proofs.Heap.Invariant

/-!
# Marking finds what can be reached

* `Heap.Refers`, `Heap.Reaches` -- one cell refers to another, and a cell can be reached from
  values. Neither mentions the worklist; a free cell refers to nothing;
* `Heap.trace_invariant` -- what holds of the marks and the worklist and is kept by one step holds
  at the end;
* `Heap.trace_sound` -- what gets a mark has a property that holds of the worklist and is handed on
  along references;
* `Heap.trace_closed` -- a marked cell refers to marked cells, or to entries of the worklist, at
  any time; at the end the worklist is empty;
* `Heap.marked_iff` -- the marks of a collection are on the allocated cells that can be reached.
-/

namespace LispMachine.Heap

variable {h : Heap} {a b : Nat}

/-! ## 1. References -/

/-- A cell refers to another: through a slot of a pair, or through one of the first two values
    that an object of a traced type holds. -/
inductive Refers (h : Heap) (a b : Addr) : Prop where
  | car {x y : Value} (hc : h.cells[a]? = some (.pair x y)) (hx : x.addr? = some b)
  | cdr {x y : Value} (hc : h.cells[a]? = some (.pair x y)) (hy : y.addr? = some b)
  | held {t : TypeId} {p : Payload} {v : Value} (hc : h.cells[a]? = some (.object t p))
      (hv : v ∈ (h.heldBy t p).take mostHeld) (hb : v.addr? = some b)

/-- A cell can be reached from one of some values. -/
inductive Reaches (h : Heap) (vs : List Value) : Addr → Prop where
  | root {v : Value} {a : Addr} (hv : v ∈ vs) (ha : v.addr? = some a) : Reaches h vs a
  | step {a b : Addr} (hr : Reaches h vs a) (hab : h.Refers a b) : Reaches h vs b

/-- The references of a cell are what the collector follows. -/
theorem refers_iff {c : Cell} (hc : h.cells[a]? = some c) : h.Refers a b ↔ b ∈ h.outgoing c := by
  constructor
  · intro hab
    cases hab with
    | car hc' hx =>
      rw [hc'] at hc
      cases hc
      exact List.mem_filterMap.mpr ⟨_, List.mem_cons_self, hx⟩
    | cdr hc' hy =>
      rw [hc'] at hc
      cases hc
      exact List.mem_filterMap.mpr ⟨_, List.mem_cons_of_mem _ List.mem_cons_self, hy⟩
    | held hc' hv hb =>
      rw [hc'] at hc
      cases hc
      exact List.mem_filterMap.mpr ⟨_, hv, hb⟩
  · intro hb
    cases c with
    | free next => cases hb
    | pair x y =>
      obtain ⟨v, hv, hvb⟩ := List.mem_filterMap.mp hb
      rcases List.mem_cons.mp hv with rfl | hv
      · exact .car hc hvb
      · exact .cdr hc (List.mem_singleton.mp hv ▸ hvb)
    | object t p =>
      obtain ⟨v, hv, hvb⟩ := List.mem_filterMap.mp hb
      exact .held hc hv hvb

/-- Only an allocated cell refers to anything. -/
theorem Refers.isAllocated (hab : h.Refers a b) : h.isAllocated a = true := by
  cases hab with
  | car hc _ => exact isAllocated_iff.mpr ⟨_, hc, rfl⟩
  | cdr hc _ => exact isAllocated_iff.mpr ⟨_, hc, rfl⟩
  | held hc _ _ => exact isAllocated_iff.mpr ⟨_, hc, rfl⟩

/-- A value in a first slot is referred to. -/
theorem refers_car {v : Value} (hv : v.addr? = some a) (hb : (h.car v).addr? = some b) : h.Refers a b := by
  cases v with
  | pair c =>
    cases hv
    rw [car] at hb
    split at hb
    · exact .car ‹_› hb
    · cases hb
  | nil => cases hv
  | int n => cases hv
  | sym id => cases hv
  | object c => cases hb

/-- A value in a rest slot is referred to. -/
theorem refers_cdr {v : Value} (hv : v.addr? = some a) (hb : (h.cdr v).addr? = some b) : h.Refers a b := by
  cases v with
  | pair c =>
    cases hv
    rw [cdr] at hb
    split at hb
    · exact .cdr ‹_› hb
    · cases hb
  | nil => cases hv
  | int n => cases hv
  | sym id => cases hv
  | object c => cases hb

/-- A function refers to the list of its parts. -/
theorem refers_parts {parts : Value} (ht : h.types.traces CoreType.func.id = true)
    (ha : h.cells[a]? = some (.object CoreType.func.id (.closure parts))) (hb : parts.addr? = some b) :
    h.Refers a b := by
  refine .held ha ?_ hb
  rw [heldBy, if_pos ht]
  exact List.mem_singleton.mpr rfl

/-- What leads to a value leads to its first slot. -/
theorem Reaches.car {vs : List Value} {v : Value} (hv : ∀ a, v.addr? = some a → h.Reaches vs a)
    (hb : (h.car v).addr? = some b) : h.Reaches vs b := by
  cases v with
  | pair a => exact .step (hv a rfl) (refers_car rfl hb)
  | nil | int _ | sym _ | object _ => cases hb

/-- What leads to a value leads to its rest slot. -/
theorem Reaches.cdr {vs : List Value} {v : Value} (hv : ∀ a, v.addr? = some a → h.Reaches vs a)
    (hb : (h.cdr v).addr? = some b) : h.Reaches vs b := by
  cases v with
  | pair a => exact .step (hv a rfl) (refers_cdr rfl hb)
  | nil | int _ | sym _ | object _ => cases hb

/-- What leads to a function leads to the list of its parts. -/
theorem Reaches.closureParts {vs : List Value} {v : Value} (ht : h.types.traces CoreType.func.id = true)
    (htype : h.typeOf v = CoreType.func.id) (hv : ∀ a, v.addr? = some a → h.Reaches vs a)
    (hb : (h.closureParts v).addr? = some b) : h.Reaches vs b := by
  cases v with
  | object a =>
    rw [typeOf] at htype
    rw [Heap.closureParts, payload?] at hb
    cases hc : h.cells[a]? with
    | none =>
      rw [hc] at hb
      cases hb
    | some c =>
      rw [hc] at htype hb
      cases c with
      | object t p =>
        obtain rfl : t = CoreType.func.id := htype
        cases p with
        | closure parts => exact .step (hv a rfl) (refers_parts ht hc hb)
        | word _ | procedure _ | text _ => cases hb
      | free _ | pair _ _ => cases hb
  | nil | int _ | sym _ | pair _ => cases hb

theorem mem_rootValues_of_root {i : Nat} {v : Value} (hi : h.roots[i]? = some v) :
    v ∈ h.rootValues true := by
  rw [rootValues, if_pos rfl, List.mem_append]
  exact .inr (Array.mem_toList_iff.mpr (Array.mem_of_getElem? hi))

theorem mem_rootValues_of_pin {v : Value} (hv : v ∈ h.pins) : v ∈ h.rootValues true := by
  rw [rootValues, if_pos rfl, List.mem_append]
  exact .inl hv

/-! ## 2. The worklist -/

theorem unmarked?_eq_some {marks : Array Bool} {c : Cell} :
    h.unmarked? marks a = some c ↔
      marks[a]? = some false ∧ h.cells[a]? = some c ∧ c.isAllocated = true := by
  unfold unmarked?
  constructor
  · intro e
    split at e
    · rename_i hm hc
      split at e
      · cases e
        exact ⟨hm, hc, ‹_›⟩
      · cases e
    · cases e
  · rintro ⟨hm, hc, hal⟩
    rw [hm, hc]
    exact if_pos hal

/-- An allocated cell that needs no mark has one already. -/
theorem marked_of_unmarked?_eq_none {marks : Array Bool} (hs : marks.size = h.cells.size)
    (ha : h.isAllocated a = true) (hnone : h.unmarked? marks a = none) : marks[a]? = some true := by
  obtain ⟨c, hc, hal⟩ := isAllocated_iff.mp ha
  have hlt : a < marks.size := hs ▸ lt_size_of_isAllocated ha
  cases hm : marks[a] with
  | true => rw [Array.getElem?_eq_getElem hlt, hm]
  | false =>
    have := unmarked?_eq_some.mpr ⟨by rw [Array.getElem?_eq_getElem hlt, hm], hc, hal⟩
    cases hnone.symm.trans this

theorem getElem?_mark {marks : Array Bool} :
    (marks.setIfInBounds a true)[b]? = some true ↔
      marks[b]? = some true ∨ (a = b ∧ a < marks.size) := by
  rw [Array.getElem?_setIfInBounds]
  split
  · rename_i hab
    subst hab
    split <;> simp_all
  · simp_all

/-- **The induction of the marking.** What marking an entry keeps, and passing over one that needs no
    mark, holds of the marks at the end, when the worklist is empty. -/
theorem trace_invariant {I : Array Bool → List Addr → Prop}
    (hmark : ∀ marks a work c, h.unmarked? marks a = some c → I marks (a :: work) →
      I (marks.setIfInBounds a true) (h.enqueue c work))
    (hskip : ∀ marks a work, h.unmarked? marks a = none → I marks (a :: work) → I marks work)
    {marks : Array Bool} {work : List Addr} (hi : I marks work) : I (h.trace marks work) [] := by
  fun_induction trace h marks work with
  | case1 => exact hi
  | case2 marks a work c hc ih => exact ih (hmark marks a work c hc hi)
  | case3 marks a work hc ih => exact ih (hskip marks a work hc hi)

/-- **Marks go along references only.** -/
theorem trace_sound {P : Addr → Prop} (hP : ∀ a b, P a → h.Refers a b → P b)
    {marks : Array Bool} {work : List Addr}
    (hm : ∀ a, marks[a]? = some true → P a ∧ h.isAllocated a = true) (hw : ∀ a ∈ work, P a) :
    ∀ a, (h.trace marks work)[a]? = some true → P a ∧ h.isAllocated a = true := by
  refine (trace_invariant (I := fun marks work =>
    (∀ a, marks[a]? = some true → P a ∧ h.isAllocated a = true) ∧ ∀ a ∈ work, P a)
    ?_ ?_ ⟨hm, hw⟩).1
  · rintro marks a work c hc ⟨hm, hw⟩
    obtain ⟨_, hcell, hal⟩ := unmarked?_eq_some.mp hc
    have ha : P a := hw a List.mem_cons_self
    refine ⟨fun b hb => ?_, fun b hb => ?_⟩
    · rcases getElem?_mark.mp hb with hb | ⟨rfl, _⟩
      · exact hm b hb
      · exact ⟨ha, isAllocated_iff.mpr ⟨c, hcell, hal⟩⟩
    · rw [enqueue_eq] at hb
      rcases List.mem_append.mp hb with hb | hb
      · exact hP a b ha ((refers_iff hcell).mpr hb)
      · exact hw b (List.mem_cons_of_mem _ hb)
  · rintro marks a work _ ⟨hm, hw⟩
    exact ⟨hm, fun b hb => hw b (List.mem_cons_of_mem _ hb)⟩

/-- Every allocated entry of the worklist gets a mark. -/
theorem trace_work {marks : Array Bool} {work : List Addr} (hs : marks.size = h.cells.size)
    (ha : a ∈ work) (hal : h.isAllocated a = true) : (h.trace marks work)[a]? = some true := by
  refine (trace_invariant (I := fun marks work =>
    marks.size = h.cells.size ∧ (marks[a]? = some true ∨ a ∈ work))
    ?_ ?_ ⟨hs, .inr ha⟩).2.resolve_right List.not_mem_nil
  · rintro marks b work c hc ⟨hs, ha⟩
    refine ⟨by rw [Array.size_setIfInBounds, hs], ?_⟩
    rw [enqueue_eq, List.mem_append, getElem?_mark]
    rcases ha with ha | ha
    · exact .inl (.inl ha)
    · rcases List.mem_cons.mp ha with rfl | ha
      · exact .inl (.inr ⟨rfl, (mark_of_unmarked? hc).1⟩)
      · exact .inr (.inr ha)
  · rintro marks b work hc ⟨hs, ha⟩
    refine ⟨hs, ?_⟩
    rcases ha with ha | ha
    · exact .inl ha
    · rcases List.mem_cons.mp ha with rfl | ha
      · exact .inl (marked_of_unmarked?_eq_none hs hal hc)
      · exact .inr ha

/-- **What a marked cell refers to is marked in the end**, if it was marked or waiting when the
    worklist was started. -/
theorem trace_closed {marks : Array Bool} {work : List Addr} (hs : marks.size = h.cells.size)
    (hinv : ∀ a b, marks[a]? = some true → h.Refers a b → h.isAllocated b = true →
      marks[b]? = some true ∨ b ∈ work) :
    ∀ a b, (h.trace marks work)[a]? = some true → h.Refers a b → h.isAllocated b = true →
      (h.trace marks work)[b]? = some true := by
  intro a b ha hab hal
  refine ((trace_invariant (I := fun marks work => marks.size = h.cells.size ∧
    ∀ a b, marks[a]? = some true → h.Refers a b → h.isAllocated b = true →
      marks[b]? = some true ∨ b ∈ work)
    ?_ ?_ ⟨hs, hinv⟩).2 a b ha hab hal).resolve_right List.not_mem_nil
  · rintro marks k work c hc ⟨hs, hinv⟩
    obtain ⟨_, hcell, _⟩ := unmarked?_eq_some.mp hc
    -- the marked cell has left the worklist, and its references have come in its place
    refine ⟨by rw [Array.size_setIfInBounds, hs], fun a b ha hab hal => ?_⟩
    rw [enqueue_eq, List.mem_append, getElem?_mark]
    rcases getElem?_mark.mp ha with ha | ⟨rfl, _⟩
    · rcases hinv a b ha hab hal with hb | hb
      · exact .inl (.inl hb)
      · rcases List.mem_cons.mp hb with rfl | hb
        · exact .inl (.inr ⟨rfl, (mark_of_unmarked? hc).1⟩)
        · exact .inr (.inr hb)
    · exact .inr (.inl ((refers_iff hcell).mp hab))
  · rintro marks k work hc ⟨hs, hinv⟩
    refine ⟨hs, fun a b ha hab hal => ?_⟩
    rcases hinv a b ha hab hal with hb | hb
    · exact .inl hb
    · rcases List.mem_cons.mp hb with rfl | hb
      · exact .inl (marked_of_unmarked?_eq_none hs hal hc)
      · exact .inr hb

/-! ## 3. The marks of a collection -/

theorem getElem?_replicate_false {n : Nat} : (Array.replicate n false)[a]? ≠ some true := by
  rw [Array.getElem?_replicate]
  split <;> simp

/-- **A collection marks the allocated cells that can be reached from its roots.** -/
theorem marked_iff {scanRoots : Bool} :
    (h.reachable scanRoots)[a]? = some true ↔
      h.isAllocated a = true ∧ h.Reaches (h.rootValues scanRoots) a := by
  have hsize : (Array.replicate h.cells.size false).size = h.cells.size := by simp
  constructor
  · intro ha
    refine (trace_sound (fun _ _ hr hab => .step hr hab) (fun b hb => ?_) (fun b hb => ?_) a ha).symm
    · exact absurd hb getElem?_replicate_false
    · obtain ⟨v, hv, hvb⟩ := List.mem_filterMap.mp hb
      exact .root hv hvb
  · rintro ⟨hal, hr⟩
    induction hr with
    | root hv ha => exact trace_work hsize (List.mem_filterMap.mpr ⟨_, hv, ha⟩) hal
    | step _ hab ih =>
      refine trace_closed hsize (fun a b ha => ?_) _ _ (ih hab.isAllocated) hab hal
      exact absurd ha getElem?_replicate_false

end LispMachine.Heap
