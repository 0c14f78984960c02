import LispMachine.Environment
import LispMachine.Spine
import LispMachine.Proofs.Environment.Frames
import LispMachine.Proofs.Heap.History
import Mathlib.Data.List.Find

/-!
# Frames in a heap

How the frames there are lie in a heap, each in cells of its own:

* `Entry`, `Scope` -- a binding with its two cells, and a frame with its bindings. `Scope.contents`
  is what those cells hold;
* `Scope.Lies` -- a heap holds the contents of a frame, in different cells and with different keys;
* `Layout` -- **a heap holds some frames**, none of which shares a cell with another, and each of
  which is newer than its parent;
* `Scope.Lies.bindingIn?`, `Layout.lookup?` -- what a lookup finds;
* `Scope.Lies.rebind`, `Scope.Lies.extend`, `Layout.replace` -- what becomes of the frames when a
  value or a binding is written.
-/

namespace LispMachine

/-! ## 1. Bindings -/

/-- A binding: the cell of the list that it is in, and its own. -/
structure Entry where
  link : Addr
  cell : Addr
  key : Value
  value : Value

namespace Entry

variable {h : Heap} {es : List Entry} {e : Entry} {key value v : Value} {a : Addr} {n : Nat}

/-- The list of some bindings. -/
def list : List Entry → Value
  | [] => .nil
  | e :: _ => .pair e.link

/-- The cells of a list of bindings, with what they hold. -/
def contents : List Entry → List (Addr × Cell)
  | [] => []
  | e :: es => (e.link, .pair (.pair e.cell) (list es)) :: (e.cell, .pair e.key e.value) :: contents es

/-- The cells of a list of bindings. -/
def cells (es : List Entry) : List Addr := (contents es).map Prod.fst

/-- The binding of a key. -/
def find? (key : Value) (es : List Entry) : Option Entry := es.find? fun e => e.key = key

/-- A new value for a key that is bound. -/
def rebind (key value : Value) : List Entry → List Entry
  | [] => []
  | e :: es => if e.key = key then { e with value } :: es else e :: rebind key value es

theorem contents_cons : contents (e :: es) =
    (e.link, .pair (.pair e.cell) (list es)) :: (e.cell, .pair e.key e.value) :: contents es := rfl

theorem rebind_cons : rebind key value (e :: es) =
    if e.key = key then { e with value } :: es else e :: rebind key value es := rfl

@[simp] theorem find?_cons_self : find? e.key (e :: es) = some e :=
  List.find?_cons_of_pos (decide_eq_true rfl)

theorem find?_cons_ne (hk : e.key ≠ key) : find? key (e :: es) = find? key es :=
  List.find?_cons_of_neg (by simpa using hk)

theorem find?_eq_none : find? key es = none ↔ key ∉ es.map (·.key) := by
  rw [find?, List.find?_eq_none, List.mem_map]
  simp only [decide_eq_true_eq, not_exists, not_and]

@[simp] theorem list_rebind : list (rebind key value es) = list es := by
  cases es with
  | nil => rfl
  | cons e es =>
    rw [rebind_cons]
    split <;> rfl

@[simp] theorem keys_rebind : (rebind key value es).map (·.key) = es.map (·.key) := by
  induction es with
  | nil => rfl
  | cons e es ih =>
    rw [rebind_cons]
    split
    · rfl
    · rw [List.map_cons, List.map_cons, ih]

@[simp] theorem cells_rebind : cells (rebind key value es) = cells es := by
  induction es with
  | nil => rfl
  | cons e es ih =>
    rw [rebind_cons]
    split
    · rfl
    · exact congrArg (fun l => e.link :: e.cell :: l) ih

/-- The map that bindings make, with a new value. -/
theorem find?_rebind (he : find? key es = some e) (k : Value) :
    (find? k (rebind key value es)).map (·.value) =
      if k = key then some value else (find? k es).map (·.value) := by
  induction es with
  | nil => cases he
  | cons d es ih =>
    rw [rebind_cons]
    by_cases hd : d.key = key
    · rw [if_pos hd]
      subst hd
      by_cases hk : k = d.key
      · subst hk
        rw [if_pos rfl]
        exact congrArg (Option.map (·.value)) (@find?_cons_self es { d with value })
      · rw [if_neg hk, find?_cons_ne fun e => hk e.symm]
        exact congrArg (Option.map (·.value)) (@find?_cons_ne es { d with value } k fun e => hk e.symm)
    · rw [if_neg hd]
      rw [find?_cons_ne hd] at he
      by_cases hk : d.key = k
      · subst hk
        rw [find?_cons_self, find?_cons_self, if_neg hd]
      · rw [find?_cons_ne hk, find?_cons_ne hk, ih he]

/-- The cells of a binding are among those of its list. -/
theorem mem_contents (he : e ∈ es) : (e.cell, Cell.pair e.key e.value) ∈ contents es := by
  induction es with
  | nil => cases he
  | cons d es ih =>
    rw [contents_cons]
    rcases List.mem_cons.mp he with rfl | he
    · exact List.mem_cons_of_mem _ List.mem_cons_self
    · exact List.mem_cons_of_mem _ (List.mem_cons_of_mem _ (ih he))

theorem isAllocated_of_mem {p : Addr × Cell} (hp : p ∈ contents es) : p.2.isAllocated = true := by
  induction es with
  | nil => cases hp
  | cons e es ih =>
    rcases List.mem_cons.mp hp with rfl | hp
    · rfl
    rcases List.mem_cons.mp hp with rfl | hp
    · rfl
    · exact ih hp

theorem length_contents : (contents es).length = 2 * es.length := by
  induction es with
  | nil => rfl
  | cons e es ih => rw [contents_cons, List.length_cons, List.length_cons, List.length_cons, ih]; omega

end Entry

/-- The cells hold what is listed. -/
def Heap.Holds (h : Heap) (cs : List (Addr × Cell)) : Prop := ∀ p ∈ cs, h.cells[p.1]? = some p.2

namespace Heap

variable {h h' : Heap} {es : List Entry} {e : Entry} {key value v x y : Value} {a : Addr} {n : Nat}
variable {cs cs' : List (Addr × Cell)}

theorem car_of_cell (hc : h.cells[a]? = some (.pair x y)) : h.car (.pair a) = x := by
  rw [car, hc]

theorem cdr_of_cell (hc : h.cells[a]? = some (.pair x y)) : h.cdr (.pair a) = y := by
  rw [cdr, hc]

theorem holds_cons {c : Cell} :
    h.Holds ((a, c) :: cs) ↔ h.cells[a]? = some c ∧ h.Holds cs :=
  List.forall_mem_cons

/-- Cells that keep what they hold. -/
theorem Holds.congr (hc : h.Holds cs) (hk : ∀ b ∈ cs.map Prod.fst, h'.cells[b]? = h.cells[b]?) :
    h'.Holds cs := fun p hp => (hk p.1 (List.mem_map_of_mem hp)).trans (hc p hp)

/-- A search among bindings. -/
theorem Holds.bindingAmong? (hc : h.Holds (Entry.contents es)) (hn : es.length ≤ n) :
    h.bindingAmong? key n (Entry.list es) = (Entry.find? key es).map fun e => .pair e.cell := by
  induction es generalizing n with
  | nil => cases n <;> rfl
  | cons e es ih =>
    obtain ⟨m, rfl⟩ : ∃ m, n = m + 1 := ⟨n - 1, (Nat.succ_pred_eq_of_pos (Nat.lt_of_lt_of_le
      (Nat.zero_lt_succ _) hn)).symm⟩
    obtain ⟨hlink, hrest⟩ := holds_cons.mp hc
    obtain ⟨hcell, hes⟩ := holds_cons.mp hrest
    rw [Entry.list, Heap.bindingAmong?, if_pos (show (Value.pair e.link).isPair = true from rfl)]
    simp only [car_of_cell hlink, car_of_cell hcell, cdr_of_cell hlink]
    by_cases hk : e.key = key
    · subst hk
      rw [if_pos (by simp [Value.isPair]), Entry.find?_cons_self]
      rfl
    · rw [if_neg (by simp [hk]), Entry.find?_cons_ne hk]
      exact ih hes (Nat.le_of_succ_le_succ hn)

/-- The list of some bindings is a proper one. -/
theorem Holds.spineOnto {seen : List Value} (hc : h.Holds (Entry.contents es)) (hn : es.length ≤ n) :
    h.spineOnto seen n (Entry.list es) =
      { items := seen.reverse ++ es.map fun e => .pair e.cell, ending := .at .nil } := by
  induction es generalizing n seen with
  | nil => cases n <;> simp [Entry.list, Heap.spineOnto, Value.isPair]
  | cons e es ih =>
    obtain ⟨m, rfl⟩ : ∃ m, n = m + 1 := ⟨n - 1, (Nat.succ_pred_eq_of_pos (Nat.lt_of_lt_of_le
      (Nat.zero_lt_succ _) hn)).symm⟩
    obtain ⟨hlink, hrest⟩ := holds_cons.mp hc
    rw [Entry.list, Heap.spineOnto, if_pos (show (Value.pair e.link).isPair = true from rfl),
      car_of_cell hlink, cdr_of_cell hlink, ih (holds_cons.mp hrest).2 (Nat.le_of_succ_le_succ hn)]
    simp

/-- **A value that is written into the binding of a key.** -/
theorem Holds.rebind (hc : h.Holds (Entry.contents es))
    (hd : (Entry.cells es).Nodup) (he : Entry.find? key es = some e)
    (hw : ∀ b : Addr, h'.cells[b]? = if e.cell = b then h.cells[b]?.map (withCdr value) else h.cells[b]?) :
    h'.Holds (Entry.contents (Entry.rebind key value es)) := by
  induction es with
  | nil => cases he
  | cons d es ih =>
    obtain ⟨hlink, hrest⟩ := holds_cons.mp hc
    obtain ⟨hcell, hes⟩ := holds_cons.mp hrest
    obtain ⟨hd₁, hdrest⟩ := List.nodup_cons.mp hd
    obtain ⟨hd₂, hdes⟩ := List.nodup_cons.mp hdrest
    have hne : d.link ≠ d.cell := fun e => hd₁ (e ▸ List.mem_cons_self)
    rw [Entry.rebind_cons]
    by_cases hk : d.key = key
    · subst hk
      rw [Entry.find?_cons_self] at he
      obtain rfl : e = d := (Option.some.inj he).symm
      rw [if_pos rfl, Entry.contents_cons]
      refine holds_cons.mpr ⟨?_, holds_cons.mpr ⟨?_, hes.congr fun b hb => ?_⟩⟩
      · rw [hw, if_neg hne.symm]
        exact hlink
      · show h'.cells[e.cell]? = _
        rw [hw, if_pos rfl, hcell]
        rfl
      · rw [hw, if_neg]
        rintro rfl
        exact hd₂ hb
    · rw [Entry.find?_cons_ne hk] at he
      have hmem := List.mem_map_of_mem (f := Prod.fst) (Entry.mem_contents (List.mem_of_find?_eq_some he))
      rw [if_neg hk, Entry.contents_cons, Entry.list_rebind]
      refine holds_cons.mpr ⟨?_, holds_cons.mpr ⟨?_, ih hes hdes he⟩⟩
      · rw [hw, if_neg]
        · exact hlink
        · intro hee
          exact hd₁ (List.mem_cons_of_mem _ (hee ▸ hmem))
      · rw [hw, if_neg]
        · exact hcell
        · intro hee
          exact hd₂ (hee ▸ hmem)

/-- What leads to a list of bindings leads to all of its cells. -/
theorem Holds.reaches {vs : List Value} (hc : h.Holds (Entry.contents es))
    (hr : ∀ a, (Entry.list es).addr? = some a → h.Reaches vs a) :
    ∀ b ∈ Entry.cells es, h.Reaches vs b := by
  induction es with
  | nil => exact fun b hb => by cases hb
  | cons e es ih =>
    obtain ⟨hlink, hrest⟩ := holds_cons.mp hc
    have hl : h.Reaches vs e.link := hr e.link rfl
    intro b hb
    rcases List.mem_cons.mp hb with rfl | hb
    · exact hl
    rcases List.mem_cons.mp hb with rfl | hb
    · exact .step hl (.car hlink rfl)
    · exact ih (holds_cons.mp hrest).2 (fun a ha => .step hl (.cdr hlink ha)) b hb

theorem Holds.lt_size (hc : h.Holds cs) : ∀ b ∈ cs.map Prod.fst, b < h.cells.size := by
  intro b hb
  obtain ⟨p, hp, rfl⟩ := List.mem_map.mp hb
  exact (Array.getElem?_eq_some_iff.mp (hc p hp)).1

/-- Different addresses of cells are no more than there are cells. -/
theorem length_le_size {l : List Addr} (hd : l.Nodup) (hl : ∀ a ∈ l, a < h.cells.size) :
    l.length ≤ h.cells.size := by
  have hsub : l ⊆ List.range h.cells.size := fun a ha => List.mem_range.mpr (hl a ha)
  have hle := hd.length_le_of_subset hsub
  rwa [List.length_range] at hle

end Heap

/-! ## 2. One frame -/

/-- A frame: its cell, its parent, and its bindings. -/
structure Scope where
  frame : Addr
  parent : Value
  entries : List Entry

namespace Scope

variable {s : Scope} {h h' : Heap} {e : Entry} {key value : Value} {vs : List Value}

/-- The cells of a frame, with what they hold. -/
def contents (s : Scope) : List (Addr × Cell) :=
  (s.frame, .pair s.parent (Entry.list s.entries)) :: Entry.contents s.entries

/-- The cells of a frame. -/
def cells (s : Scope) : List Addr := s.contents.map Prod.fst

/-- The map that the bindings of a frame make. -/
def own (s : Scope) (key : Value) : Option Value := (Entry.find? key s.entries).map (·.value)

/-- What a frame stands for. -/
def view (s : Scope) : Addr × FrameMap := (s.frame, { parent := s.parent, own := s.own })

/-- A frame with a new value for a key that it binds. -/
def rebind (s : Scope) (key value : Value) : Scope :=
  { s with entries := Entry.rebind key value s.entries }

/-- A frame with one more binding. -/
def extend (s : Scope) (e : Entry) : Scope := { s with entries := e :: s.entries }

theorem cells_eq (s : Scope) : s.cells = s.frame :: Entry.cells s.entries := rfl

theorem cells_extend (s : Scope) (e : Entry) :
    (s.extend e).cells = s.frame :: e.link :: e.cell :: Entry.cells s.entries := rfl

theorem frame_mem_cells : s.frame ∈ s.cells := List.mem_cons_self

theorem cells_rebind : (s.rebind key value).cells = s.cells :=
  congrArg (s.frame :: ·) Entry.cells_rebind

/-- A heap holds a frame. -/
structure Lies (s : Scope) (h : Heap) : Prop where
  content : h.Holds s.contents
  /-- The cells are different ones. -/
  nodup : s.cells.Nodup
  /-- There is one binding for a key. -/
  keys : (s.entries.map (·.key)).Nodup

namespace Lies

theorem congr (hs : s.Lies h) (hk : ∀ b ∈ s.cells, h'.cells[b]? = h.cells[b]?) : s.Lies h' :=
  ⟨hs.content.congr hk, hs.nodup, hs.keys⟩

theorem frame_cell (hs : s.Lies h) :
    h.cells[s.frame]? = some (.pair s.parent (Entry.list s.entries)) :=
  (Heap.holds_cons.mp hs.content).1

theorem holds (hs : s.Lies h) : h.Holds (Entry.contents s.entries) :=
  (Heap.holds_cons.mp hs.content).2

theorem isAllocated (hs : s.Lies h) : ∀ b ∈ s.cells, h.isAllocated b = true := by
  intro b hb
  obtain ⟨p, hp, rfl⟩ := List.mem_map.mp hb
  refine Heap.isAllocated_iff.mpr ⟨p.2, hs.content p hp, ?_⟩
  rcases List.mem_cons.mp hp with rfl | hp
  · rfl
  · exact Entry.isAllocated_of_mem hp

theorem length_le (hs : s.Lies h) : s.entries.length ≤ h.cells.size := by
  have hle := Heap.length_le_size hs.nodup hs.content.lt_size
  rw [cells, contents, List.map_cons, List.length_cons, List.length_map, Entry.length_contents] at hle
  omega

/-- **The binding of a key in a frame itself.** -/
theorem bindingIn? (hs : s.Lies h) (key : Value) :
    h.bindingIn? (.pair s.frame) key = (Entry.find? key s.entries).map fun e => .pair e.cell := by
  rw [Heap.bindingIn?, Heap.cdr_of_cell hs.frame_cell]
  exact hs.holds.bindingAmong? hs.length_le

/-- **The value of a key in a frame itself.** -/
theorem own_eq (hs : s.Lies h) (key : Value) :
    (h.bindingIn? (.pair s.frame) key).map h.cdr = s.own key := by
  rw [hs.bindingIn?, own]
  cases he : Entry.find? key s.entries with
  | none => rfl
  | some e =>
    have hcell := hs.holds _ (Entry.mem_contents (List.mem_of_find?_eq_some he))
    exact congrArg some (Heap.cdr_of_cell hcell)

/-- The bindings of a frame are a proper list of pairs. -/
theorem spine (hs : s.Lies h) : h.spine (h.cdr (.pair s.frame)) =
    { items := s.entries.map fun e => .pair e.cell, ending := .at .nil } := by
  rw [Heap.spine, Heap.cdr_of_cell hs.frame_cell, hs.holds.spineOnto (Nat.le_succ_of_le hs.length_le)]
  rfl

/-- What leads to a frame leads to its cells. -/
theorem reaches (hs : s.Lies h) (hr : h.Reaches vs s.frame) : ∀ b ∈ s.cells, h.Reaches vs b := by
  intro b hb
  rcases List.mem_cons.mp hb with rfl | hb
  · exact hr
  · exact hs.holds.reaches (fun a ha => .step hr (.cdr hs.frame_cell ha)) b hb

/-- **A frame with a new value in the binding of a key.** -/
theorem rebind (hs : s.Lies h) (he : Entry.find? key s.entries = some e)
    (hw : ∀ b : Addr, h'.cells[b]? =
      if e.cell = b then h.cells[b]?.map (Heap.withCdr value) else h.cells[b]?) :
    (s.rebind key value).Lies h' := by
  obtain ⟨hnot, hd⟩ := List.nodup_cons.mp hs.nodup
  have hmem := List.mem_map_of_mem (f := Prod.fst) (Entry.mem_contents (List.mem_of_find?_eq_some he))
  refine ⟨Heap.holds_cons.mpr ⟨?_, hs.holds.rebind hd he hw⟩, ?_, ?_⟩
  · show h'.cells[s.frame]? = some (.pair s.parent (Entry.list (Entry.rebind key value s.entries)))
    rw [hw, if_neg (fun (hee : e.cell = s.frame) => hnot (hee ▸ hmem)), Entry.list_rebind]
    exact hs.frame_cell
  · rw [cells_rebind]
    exact hs.nodup
  · show ((Entry.rebind key value s.entries).map (·.key)).Nodup
    rw [Entry.keys_rebind]
    exact hs.keys

/-- **A frame with a binding in front of the others.** -/
theorem extend (hs : s.Lies h) (hkey : Entry.find? e.key s.entries = none) (hne : e.link ≠ e.cell)
    (hlink : e.link ∉ s.cells) (hcell : e.cell ∉ s.cells)
    (hframe : h'.cells[s.frame]? = some (.pair s.parent (.pair e.link)))
    (hl : h'.cells[e.link]? = some (.pair (.pair e.cell) (Entry.list s.entries)))
    (hc : h'.cells[e.cell]? = some (.pair e.key e.value))
    (hk : ∀ b ∈ s.cells, b ≠ s.frame → h'.cells[b]? = h.cells[b]?) : (s.extend e).Lies h' := by
  obtain ⟨hnot, hd⟩ := List.nodup_cons.mp hs.nodup
  rw [cells_eq, List.mem_cons, not_or] at hlink hcell
  refine ⟨Heap.holds_cons.mpr ⟨hframe, Heap.holds_cons.mpr ⟨hl, Heap.holds_cons.mpr ⟨hc, ?_⟩⟩⟩, ?_,
    List.nodup_cons.mpr ⟨Entry.find?_eq_none.mp hkey, hs.keys⟩⟩
  · refine hs.holds.congr fun b hb => hk b (List.mem_cons_of_mem _ hb) ?_
    rintro rfl
    exact hnot hb
  · rw [cells_extend]
    simp only [List.nodup_cons, List.mem_cons, not_or]
    exact ⟨⟨Ne.symm hlink.1, Ne.symm hcell.1, hnot⟩, ⟨hne, hlink.2⟩, hcell.2, hd⟩

end Lies

/-- The map of a frame with a new value. -/
theorem own_rebind (he : Entry.find? key s.entries = some e) :
    (s.rebind key value).own = Function.update s.own key (some value) := by
  funext k
  rw [Function.update_apply]
  exact Entry.find?_rebind he k

/-- The map of a frame with one more binding. -/
theorem own_extend : (s.extend e).own = Function.update s.own e.key (some e.value) := by
  funext k
  rw [Function.update_apply, own, extend]
  by_cases hk : k = e.key
  · subst hk
    rw [if_pos rfl, Entry.find?_cons_self]
    rfl
  · rw [if_neg hk, Entry.find?_cons_ne fun e => hk e.symm]
    rfl

end Scope

/-! ## 3. All frames -/

/-- **A heap holds some frames**, the newest in front. -/
inductive Layout (h : Heap) : List Scope → Prop where
  | nil : Layout h []
  | cons {s : Scope} {L : List Scope} (hs : s.Lies h)
      (hp : ∀ p, s.parent = .pair p → p ∈ L.map (·.frame))
      (hd : ∀ t ∈ L, s.cells.Disjoint t.cells) (hl : Layout h L) : Layout h (s :: L)

namespace Layout

variable {h h' : Heap} {L : List Scope} {s s' t : Scope} {a b : Addr} {key : Value} {n : Nat}

/-- What frames stand for. -/
def frames (L : List Scope) : Frames := L.map Scope.view

theorem addresses_frames : (frames L).addresses = L.map (·.frame) := by
  rw [Frames.addresses, frames, List.map_map]
  rfl

theorem lies (hl : Layout h L) (hs : s ∈ L) : s.Lies h := by
  induction hl with
  | nil => cases hs
  | cons ht _ _ _ ih =>
    rcases List.mem_cons.mp hs with rfl | hs
    · exact ht
    · exact ih hs

/-- A cell is of one frame only. -/
theorem eq_of_mem (hl : Layout h L) (hs : s ∈ L) (ht : t ∈ L) (hbs : b ∈ s.cells)
    (hbt : b ∈ t.cells) : s = t := by
  induction hl with
  | nil => cases hs
  | cons _ _ hd _ ih =>
    rcases List.mem_cons.mp hs with rfl | hs' <;> rcases List.mem_cons.mp ht with rfl | ht'
    · rfl
    · exact absurd hbt (hd t ht' hbs)
    · exact absurd hbs (hd s hs' hbt)
    · exact ih hs' ht'

/-- Frames whose cells keep what they hold. -/
theorem congr (hl : Layout h L) (hk : ∀ s ∈ L, ∀ b ∈ s.cells, h'.cells[b]? = h.cells[b]?) :
    Layout h' L := by
  induction hl with
  | nil => exact .nil
  | cons hs hp hd _ ih =>
    exact .cons (hs.congr (hk _ List.mem_cons_self)) hp hd
      (ih fun t ht => hk t (List.mem_cons_of_mem _ ht))

/-- What frames stand for at one address. -/
theorem own?_eq (hl : Layout h L) (hs : s ∈ L) : (frames L).own? s.frame key = s.own key := by
  induction hl with
  | nil => cases hs
  | @cons t L' _ _ hd _ ih =>
    rcases List.mem_cons.mp hs with rfl | hmem
    · exact Frames.own?_cons_self
    · have hne : s.frame ≠ t.frame := fun e =>
        hd s hmem Scope.frame_mem_cells (e ▸ Scope.frame_mem_cells)
      exact (Frames.own?_cons_ne hne).trans (ih hmem)

/-- There are no more frames than cells. -/
theorem length_le (hl : Layout h L) : L.length ≤ h.cells.size := by
  have hd : (L.map (·.frame)).Nodup := by
    induction hl with
    | nil => exact List.nodup_nil
    | cons _ _ hd _ ih =>
      refine List.nodup_cons.mpr ⟨fun hmem => ?_, ih⟩
      obtain ⟨t, ht, e⟩ := List.mem_map.mp hmem
      exact hd t ht (e ▸ Scope.frame_mem_cells) Scope.frame_mem_cells
  have hle := Heap.length_le_size hd fun a ha => by
    obtain ⟨s, hs, rfl⟩ := List.mem_map.mp ha
    exact (hl.lies hs).content.lt_size _ Scope.frame_mem_cells
  rwa [List.length_map] at hle

/-! ## 4. Lookups -/

/-- A search along frames goes along their chain. -/
theorem lookupAmong? (hl : Layout h L) (ha : a ∈ L.map (·.frame)) (hn : L.length ≤ n) :
    h.lookupAmong? key n (.pair a) =
      (((frames L).chain a).find? fun b => (h.bindingIn? (.pair b) key).isSome).bind
        fun b => h.bindingIn? (.pair b) key := by
  induction hl generalizing a n with
  | nil => cases ha
  | @cons s L hs hp _ _ ih =>
    rw [List.map_cons, List.mem_cons] at ha
    rw [frames, List.map_cons, Scope.view, Frames.chain]
    by_cases hsa : s.frame = a
    · subst hsa
      obtain ⟨m, rfl⟩ : ∃ m, n = m + 1 := ⟨n - 1, by rw [List.length_cons] at hn; omega⟩
      replace hn : L.length ≤ m := Nat.le_of_succ_le_succ hn
      rw [if_pos rfl, Heap.lookupAmong?, if_pos (show (Value.pair s.frame).isPair = true from rfl),
        Heap.car_of_cell hs.frame_cell]
      cases hb : h.bindingIn? (.pair s.frame) key with
      | some d =>
        rw [List.find?_cons_of_pos (by rw [hb]; rfl), Option.bind_some, hb]
      | none =>
        rw [List.find?_cons_of_neg (by rw [hb]; exact Bool.false_ne_true)]
        show h.lookupAmong? key m s.parent = _
        cases hpair : s.parent with
        | pair p => exact ih (hp p hpair) hn
        | nil => cases m <;> rfl
        | int i => cases m <;> rfl
        | sym i => cases m <;> rfl
        | object i => cases m <;> rfl
    · rw [if_neg hsa]
      refine ih (ha.resolve_left fun e => hsa e.symm) ?_
      rw [List.length_cons] at hn
      omega

/-- **The value of a key in a frame itself.** -/
theorem own (hl : Layout h L) (ha : a ∈ L.map (·.frame)) (key : Value) :
    (h.bindingIn? (.pair a) key).map h.cdr = (frames L).own? a key := by
  obtain ⟨s, hs, rfl⟩ := List.mem_map.mp ha
  rw [(hl.lies hs).own_eq, hl.own?_eq hs]

/-- **The nearest binding of a key is the one in the nearest frame that gives it a value.** -/
theorem lookup? (hl : Layout h L) (ha : a ∈ L.map (·.frame)) (key : Value) :
    h.lookup? (.pair a) key =
      ((frames L).nearest? a key).bind fun b => h.bindingIn? (.pair b) key := by
  rw [Heap.lookup?, hl.lookupAmong? ha hl.length_le, Frames.nearest?]
  congr 1
  refine List.find?_congr fun b hb => ?_
  rw [← hl.own (addresses_frames ▸ Frames.mem_addresses_of_chain hb), Option.isSome_map]

/-! ## 5. Writes -/

/-- Frames that become others at the same addresses. -/
theorem map {f : Scope → Scope} (hl : Layout h L) (hs : ∀ t ∈ L, (f t).Lies h')
    (hf : ∀ t ∈ L, (f t).frame = t.frame ∧ (f t).parent = t.parent)
    (hd : ∀ t ∈ L, ∀ u ∈ L, t ≠ u → (f t).cells.Disjoint (f u).cells) : Layout h' (L.map f) := by
  have hframes : ∀ {l : List Scope}, (∀ t ∈ l, (f t).frame = t.frame) →
      (l.map f).map (·.frame) = l.map (·.frame) := fun hl => by
    rw [List.map_map]
    exact List.map_congr_left hl
  induction hl with
  | nil => exact .nil
  | @cons t L _ hp hapart _ ih =>
    have htail : ∀ u ∈ L, u ∈ t :: L := fun u hu => List.mem_cons_of_mem _ hu
    refine .cons (hs t List.mem_cons_self) (fun p hpair => ?_) (fun u hu => ?_)
      (ih (fun u hu => hs u (htail u hu)) (fun u hu => hf u (htail u hu))
        fun u hu v hv => hd u (htail u hu) v (htail v hv))
    · rw [hframes fun u hu => (hf u (htail u hu)).1]
      exact hp p ((hf t List.mem_cons_self).2 ▸ hpair)
    · obtain ⟨v, hv, rfl⟩ := List.mem_map.mp hu
      refine hd t List.mem_cons_self v (htail v hv) ?_
      rintro rfl
      exact hapart t hv Scope.frame_mem_cells Scope.frame_mem_cells

/-- **A frame that becomes another one at the same address.** Its new cells are its old ones, and
    cells of no frame. -/
theorem replace (hl : Layout h L) (hs : s ∈ L) (hs' : s'.Lies h') (hf : s'.frame = s.frame)
    (hp : s'.parent = s.parent)
    (hc : ∀ b ∈ s'.cells, b ∈ s.cells ∨ ∀ t ∈ L, b ∉ t.cells)
    (hk : ∀ t ∈ L, t ≠ s → ∀ b ∈ t.cells, h'.cells[b]? = h.cells[b]?) :
    Layout h' (L.map fun t => if t.frame = s.frame then s' else t) := by
  have hsame : ∀ t ∈ L, t.frame = s.frame → t = s := fun t ht e =>
    hl.eq_of_mem ht hs Scope.frame_mem_cells (e ▸ Scope.frame_mem_cells)
  have hapart : ∀ t ∈ L, t ≠ s → s'.cells.Disjoint t.cells := by
    intro t ht hne b hb hbt
    rcases hc b hb with hb | hb
    · exact hne (hl.eq_of_mem ht hs hbt hb)
    · exact hb t ht hbt
  refine hl.map (fun t ht => ?_) (fun t ht => ?_) fun t ht u hu htu => ?_
  · by_cases e : t.frame = s.frame
    · rw [if_pos e]
      exact hs'
    · rw [if_neg e]
      exact (hl.lies ht).congr (hk t ht fun heq => e (congrArg Scope.frame heq))
  · by_cases e : t.frame = s.frame
    · rw [if_pos e]
      exact ⟨hf.trans e.symm, hp.trans (congrArg Scope.parent (hsame t ht e)).symm⟩
    · rw [if_neg e]
      exact ⟨rfl, rfl⟩
  · by_cases et : t.frame = s.frame <;> by_cases eu : u.frame = s.frame
    · exact absurd ((hsame t ht et).trans (hsame u hu eu).symm) htu
    · rw [if_pos et, if_neg eu]
      exact hapart u hu fun heq => eu (congrArg Scope.frame heq)
    · rw [if_neg et, if_pos eu]
      exact fun b hbt hbu => hapart t ht (fun heq => et (congrArg Scope.frame heq)) hbu hbt
    · rw [if_neg et, if_neg eu]
      exact fun b hbt hbu => htu (hl.eq_of_mem ht hu hbt hbu)

/-- What frames stand for when one of them has another map. -/
theorem frames_replace {key value : Value} (hl : Layout h L) (hs : s ∈ L) (hf : s'.frame = s.frame)
    (hp : s'.parent = s.parent) (ho : s'.own = Function.update s.own key (some value)) :
    frames (L.map fun t => if t.frame = s.frame then s' else t) =
      (frames L).put s.frame key value := by
  rw [frames, frames, Frames.put, List.map_map, List.map_map]
  refine List.map_congr_left fun t ht => ?_
  show Scope.view (if t.frame = s.frame then s' else t) =
    if t.frame = s.frame then (t.frame, { t.view.2 with own := Function.update t.own key (some value) })
    else t.view
  split
  · rename_i e
    obtain rfl : t = s := hl.eq_of_mem ht hs Scope.frame_mem_cells (e ▸ Scope.frame_mem_cells)
    rw [Scope.view, hf, hp, ho]
    rfl
  · rfl

/-- Frames without one that is the parent of none. -/
theorem forget (hl : Layout h L) (hp : ∀ t ∈ L, t.parent ≠ .pair a) :
    Layout h (L.filter fun t => t.frame ≠ a) := by
  induction hl with
  | nil => exact .nil
  | @cons t L ht hpar hd _ ih =>
    have hrest := ih fun u hu => hp u (List.mem_cons_of_mem _ hu)
    rw [List.filter_cons]
    split
    · refine .cons ht (fun p hpair => ?_) (fun u hu => hd u (List.mem_filter.mp hu).1) hrest
      obtain ⟨u, hu, rfl⟩ := List.mem_map.mp (hpar p hpair)
      refine List.mem_map_of_mem (List.mem_filter.mpr ⟨hu, decide_eq_true ?_⟩)
      rintro rfl
      exact hp t List.mem_cons_self hpair
    · exact hrest

end Layout

end LispMachine
