import LispMachine.Proofs.Attains
import LispMachine.Proofs.Environment.Layout
import LispMachine.Proofs.Heap.Representation

/-!
# What the operations on environments do to the frames

* `Heap.Models` -- a heap holds the frames there are, and nothing else is said about it;
* `Frames.Rooted` -- a collection that starts from some values frees no cell of a frame;
* `Models.newFrame`, `Models.define`, `Models.assign` -- **a new frame, a binding and an assignment
  do to the frames in the heap what they do to the maps**, unless the heap is exhausted;
* `Models.once`, `Models.own_eq`, `Models.read_eq` -- what the frames in the heap give their keys;
* `Heap.Comprises` -- the pairs that a frame is made of;
* `Models.perform` -- any other operation of the heap leaves the frames as they are.
-/

namespace LispMachine

open Context

/-! ## 1. What an allocation leaves -/

namespace Heap

variable {h h' : Heap} {vs ws : List Value} {a b : Addr} {c : Cell} {x y : Value} {L : List Scope}

/-- Roots that others lead to are not needed. -/
theorem Reaches.of_roots (hr : h.Reaches vs a)
    (hvs : ∀ v ∈ vs, ∀ b, v.addr? = some b → h.Reaches ws b) : h.Reaches ws a := by
  induction hr with
  | root hv ha => exact hvs _ hv _ ha
  | step _ hab ih => exact .step ih hab

/-- A cell in use is not the one that is taken, and keeps what it holds. -/
theorem Granted.same (hg : Granted h vs a c h') (hal : h.isAllocated b = true)
    (hr : h.Reaches vs b) : b ≠ a ∧ h'.cells[b]? = h.cells[b]? := by
  have hne : b ≠ a := by
    rintro rfl
    exact hg.unused ⟨hal, hr⟩
  exact ⟨hne, (hg.kept b hne (hg.survives b hal hr)).2⟩

/-- A pair has been made in the cell `a`. -/
structure Paired (h : Heap) (x y : Value) (a : Addr) (h' : Heap) : Prop where
  granted : Granted h (h.rootValues true ++ [x, y]) a (.pair x y) h'
  valid : h'.Valid
  roots : h'.roots = h.roots
  pins : h'.pins = h.pins
  heldBy : h'.heldBy = h.heldBy

theorem Paired.rootValues (hp : Paired h x y a h') : h'.rootValues true = h.rootValues true := by
  rw [Heap.rootValues, Heap.rootValues, hp.roots, hp.pins]

/-- What the roots and the halves reach is reached from the roots and the pair. -/
theorem Paired.reaches (hp : Paired h x y a h') (hr : h.Reaches (h.rootValues true ++ [x, y]) b)
    (hws : ∀ v ∈ h.rootValues true ++ [.pair a], v ∈ ws) : h'.Reaches ws b := by
  have hr' := hr.transfer (fun b hb hal => (hp.granted.same hal hb).2) hp.heldBy
  have ha : h'.Reaches ws a := .root (hws _ (List.mem_append_right _ List.mem_cons_self)) rfl
  refine hr'.of_roots fun v hv b hb => ?_
  rcases List.mem_append.mp hv with hv | hv
  · exact .root (hws v (List.mem_append_left _ hv)) hb
  rcases List.mem_cons.mp hv with rfl | hv
  · exact .step ha (.car hp.granted.content hb)
  · obtain rfl := List.mem_singleton.mp hv
    exact .step ha (.cdr hp.granted.content hb)

end Heap

/-- **A fresh pair.** -/
theorem Attains.paired {c : Context} (hv : c.heap.Valid) (x y : Value) :
    Attains (liftM (Heap.cons x y) : Run Value) c
      fun v c' => ∃ a, v = .pair a ∧ c.heap.Paired x y a c'.heap := by
  rcases Heap.cons_cases hv x y with ⟨a, g, ht, hrun⟩ | ⟨g, hrun⟩
  · obtain ⟨b, hb, hg⟩ := Heap.cons_granted hv hrun
    obtain rfl : a = b := Value.pair.inj hb
    refine Attains.lift_ok hrun ⟨a, rfl, hg, Heap.Operation.valid (.cons x y) hv (run_bind hrun), rfl,
      ?_, Heap.heldBy_congr ?_ ?_⟩ <;>
    · rw [Heap.filled, ht.frame]
      rfl
  · exact Attains.lift_exhausted hrun

/-! ## 2. The frames of a heap -/

/-- **The heap holds the frames there are.** -/
structure Heap.Models (h : Heap) (fs : Frames) : Prop where
  valid : h.Valid
  laid : ∃ L, Layout.frames L = fs ∧ Layout h L

/-- Some values lead to every frame. -/
def Frames.Rooted (fs : Frames) (h : Heap) (vs : List Value) : Prop :=
  ∀ a ∈ fs.addresses, h.Reaches vs a

/-- A parent of a new frame: a frame, or what is no pair. -/
def Frames.Admits (fs : Frames) (parent : Value) : Prop := ∀ p, parent = .pair p → p ∈ fs.addresses

/-- What frames lead to stays as it was when a cell is taken. -/
theorem Layout.granted {h h' : Heap} {L : List Scope} {vs : List Value} {a : Addr} {c : Cell}
    (hl : Layout h L) (hr : (frames L).Rooted h vs) (hg : h.Granted vs a c h') :
    ∀ s ∈ L, ∀ b ∈ s.cells, b ≠ a ∧ h'.cells[b]? = h.cells[b]? := by
  intro s hs b hb
  have hs' := hl.lies hs
  refine hg.same (hs'.isAllocated b hb) (hs'.reaches (hr s.frame ?_) b hb)
  exact addresses_frames ▸ List.mem_map_of_mem hs

namespace Heap.Models

variable {h h' : Heap} {c c' : Context} {fs : Frames} {a b : Addr} {key value parent : Value}

/-- The frame at an address. -/
theorem exists_scope {L : List Scope} (ha : a ∈ (Layout.frames L).addresses) :
    ∃ s ∈ L, s.frame = a := by
  rw [Layout.addresses_frames] at ha
  exact List.mem_map.mp ha

/-- A heap in which the cells of the frames hold what they held. -/
theorem congr (hm : h.Models fs) (hv : h'.Valid)
    (hk : ∀ L, Layout.frames L = fs → Layout h L → ∀ s ∈ L, ∀ b ∈ s.cells, h'.cells[b]? = h.cells[b]?) :
    h'.Models fs := by
  obtain ⟨L, hfs, hl⟩ := hm.laid
  exact ⟨hv, L, hfs, hl.congr (hk L hfs hl)⟩

/-- **A new frame** is one that there was not, with an empty map. -/
theorem newFrame (hm : c.heap.Models fs) (hp : fs.Admits parent)
    (hr : fs.Rooted c.heap (c.heap.rootValues true ++ [parent])) :
    Attains (Context.newFrame parent) c fun v c' => ∃ a, v = .pair a ∧ a ∉ fs.addresses ∧
      c'.heap.Models ((a, { parent, own := fun _ => none }) :: fs) := by
  obtain ⟨L, rfl, hl⟩ := hm.laid
  refine (Attains.paired hm.valid parent .nil).weaken fun v c' hq => ?_
  obtain ⟨a, rfl, hpair⟩ := hq
  have hr' : (Layout.frames L).Rooted c.heap (c.heap.rootValues true ++ [parent, .nil]) := by
    refine fun a ha => (hr a ha).congr (fun v hv => ?_) rfl rfl rfl
    exact (List.append_cons _ parent [.nil]).symm ▸ List.mem_append_left _ hv
  have hkept := hl.granted hr' hpair.granted
  refine ⟨a, rfl, fun ha => ?_, hpair.valid, ⟨a, parent, []⟩ :: L, rfl,
    .cons ⟨?_, List.pairwise_singleton _ a, List.nodup_nil⟩ ?_ (fun t ht b hb hbt => ?_)
      (hl.congr fun s hs b hb => (hkept s hs b hb).2)⟩
  · obtain ⟨s, hs, rfl⟩ := exists_scope ha
    exact (hkept s hs s.frame Scope.frame_mem_cells).1 rfl
  · exact Heap.holds_cons.mpr ⟨hpair.granted.content, fun p hp => by cases hp⟩
  · intro p hpair
    exact Layout.addresses_frames ▸ hp p hpair
  · exact (hkept t ht b hbt).1 (List.mem_singleton.mp hb)

/-- **A value that is written into the binding of a key.** -/
theorem rebind {s : Scope} {L : List Scope} {e : Entry} (hv : h.Valid) (hl : Layout h L) (hs : s ∈ L)
    (he : Entry.find? key s.entries = some e) (value : Value) :
    { h with cells := h.cells.modify e.cell (withCdr value) }.Models
      ((Layout.frames L).put s.frame key value) := by
  have hmem : e.cell ∈ s.cells := List.mem_cons_of_mem _
    (List.mem_map_of_mem (f := Prod.fst) (Entry.mem_contents (List.mem_of_find?_eq_some he)))
  have hframes : Layout.frames (L.map fun t => if t.frame = s.frame then s.rebind key value else t) =
      (Layout.frames L).put s.frame key value :=
    Layout.frames_replace hl hs rfl rfl (Scope.own_rebind he)
  refine ⟨Operation.valid (.setCdr (.pair e.cell) value) hv rfl, _, hframes,
    hl.replace hs ((hl.lies hs).rebind he fun b => getElem?_modify_cells) rfl rfl
      (fun b hb => .inl (Scope.cells_rebind ▸ hb)) fun t ht hne b hb => ?_⟩
  refine getElem?_modify_cells.trans (if_neg ?_)
  rintro rfl
  exact hne (hl.eq_of_mem ht hs hb hmem)

/-- **A binding that is put in front of those of a frame**, in cells of no frame. -/
theorem extend {s : Scope} {L : List Scope} {e : Entry} (hl : Layout h L) (hs : s ∈ L)
    (he : Entry.find? e.key s.entries = none) (hv : h'.Valid) (hne : e.link ≠ e.cell)
    (hk : ∀ t ∈ L, ∀ b ∈ t.cells, (b ≠ e.link ∧ b ≠ e.cell) ∧ h'.cells[b]? = h.cells[b]?)
    (hlink : h'.cells[e.link]? = some (.pair (.pair e.cell) (Entry.list s.entries)))
    (hcell : h'.cells[e.cell]? = some (.pair e.key e.value)) :
    { h' with cells := h'.cells.modify s.frame (withCdr (.pair e.link)) }.Models
      ((Layout.frames L).put s.frame e.key e.value) := by
  have hlies := hl.lies hs
  have hframe := hk s hs s.frame Scope.frame_mem_cells
  have hw : ∀ b : Addr, b ≠ s.frame →
      (h'.cells.modify s.frame (withCdr (.pair e.link)))[b]? = h'.cells[b]? := fun b hb =>
    getElem?_modify_cells.trans (if_neg hb.symm)
  have hframes : Layout.frames (L.map fun t => if t.frame = s.frame then s.extend e else t) =
      (Layout.frames L).put s.frame e.key e.value :=
    Layout.frames_replace hl hs rfl rfl Scope.own_extend
  refine ⟨Operation.valid (.setCdr (.pair s.frame) (.pair e.link)) hv rfl, _, hframes,
    hl.replace hs ?_ rfl rfl (fun b hb => ?_) fun t ht hts b hb => ?_⟩
  · refine hlies.extend he hne (fun hb => (hk s hs _ hb).1.1 rfl) (fun hb => (hk s hs _ hb).1.2 rfl)
      ?_ ((hw _ hframe.1.1.symm).trans hlink) ((hw _ hframe.1.2.symm).trans hcell)
      fun b hb hbf => (hw b hbf).trans (hk s hs b hb).2
    refine getElem?_modify_cells.trans ?_
    rw [if_pos rfl, hframe.2, hlies.frame_cell]
    rfl
  · rw [Scope.cells_extend, List.mem_cons, List.mem_cons, List.mem_cons] at hb
    rcases hb with rfl | rfl | rfl | hb
    · exact .inl Scope.frame_mem_cells
    · exact .inr fun t ht hbt => (hk t ht _ hbt).1.1 rfl
    · exact .inr fun t ht hbt => (hk t ht _ hbt).1.2 rfl
    · exact .inl (List.mem_cons_of_mem _ hb)
  · refine (hw b ?_).trans (hk t ht b hb).2
    rintro rfl
    exact hts (hl.eq_of_mem ht hs hb Scope.frame_mem_cells)

/-- **A binding in a frame changes the map of the frame, at its key.** -/
theorem define (hm : c.heap.Models fs) (ha : a ∈ fs.addresses) (key value : Value)
    (hr : fs.Rooted c.heap (c.heap.rootValues true ++ [.pair a, key, value])) :
    Attains (Context.define (.pair a) key value) c fun _ c' => c'.heap.Models (fs.put a key value) := by
  obtain ⟨L, rfl, hl⟩ := hm.laid
  obtain ⟨s, hs, rfl⟩ := exists_scope ha
  have hlies := hl.lies hs
  refine Attains.look_bind (hlies.bindingIn? key) ?_
  cases he : Entry.find? key s.entries with
  | some e => exact Attains.lift_ok rfl (rebind hm.valid hl hs he value)
  | none =>
    -- the frame is rooted while the cells of the binding are taken
    refine Attains.lift_bind (show Heap.rootBase c.heap = .ok _ _ from rfl) ?_
    refine Attains.lift_bind (show Heap.pushRoot (.pair s.frame) c.heap = .ok _ _ from rfl) ?_
    have hv₁ := Operation.valid (.pushRoot (.pair s.frame)) hm.valid rfl
    have hl₁ : Layout { c.heap with roots := c.heap.roots.push (.pair s.frame) } L :=
      hl.congr fun _ _ _ _ => rfl
    have hr₁ : (Layout.frames L).Rooted { c.heap with roots := c.heap.roots.push (.pair s.frame) }
        ({ c.heap with roots := c.heap.roots.push (.pair s.frame) }.rootValues true ++ [key, value]) := by
      intro a ha
      refine (hr a ha).congr (fun v hv => ?_) rfl rfl rfl
      simpa [Heap.rootValues] using hv
    have hsize : c.heap.roots.size ≤
        { c.heap with roots := c.heap.roots.push (.pair s.frame) }.roots.size := by
      rw [Array.size_push]
      exact Nat.le_succ _
    generalize { c.heap with roots := c.heap.roots.push (.pair s.frame) } = h₁ at hv₁ hl₁ hr₁ hsize
    refine (Attains.paired hv₁ key value).bind fun _ c₂ hq₂ => ?_
    obtain ⟨b₁, rfl, hp₂⟩ := hq₂
    have hk₂ := hl₁.granted hr₁ hp₂.granted
    have hl₂ := hl₁.congr fun t ht b hb => (hk₂ t ht b hb).2
    have hcdr := Heap.cdr_of_cell (hl₂.lies hs).frame_cell
    show Attains (liftM (Heap.cons (.pair b₁) (c₂.heap.cdr (.pair s.frame))) >>= _) c₂ _
    rw [hcdr]
    refine (Attains.paired hp₂.valid (.pair b₁) (Entry.list s.entries)).bind fun _ c₃ hq₃ => ?_
    obtain ⟨b₂, rfl, hp₃⟩ := hq₃
    have hr₂ : (Layout.frames L).Rooted c₂.heap
        (c₂.heap.rootValues true ++ [.pair b₁, Entry.list s.entries]) := by
      intro a ha
      refine hp₂.reaches (hr₁ a ha) fun v hv => ?_
      rw [hp₂.rootValues]
      simp at hv ⊢
      tauto
    have hk₃ := hl₂.granted hr₂ hp₃.granted
    obtain ⟨hne, hcell⟩ := hp₃.granted.same (b := b₁)
      (Heap.isAllocated_iff.mpr ⟨_, hp₂.granted.content, rfl⟩)
      (.root (List.mem_append_right _ List.mem_cons_self) rfl)
    have hm₄ := extend (e := ⟨b₂, b₁, key, value⟩) hl₁ hs he hp₃.valid hne.symm (fun t ht b hb =>
      ⟨⟨(hk₃ t ht b hb).1, (hk₂ t ht b hb).1⟩, (hk₃ t ht b hb).2.trans (hk₂ t ht b hb).2⟩)
      hp₃.granted.content (hcell.trans hp₂.granted.content)
    refine Attains.lift_bind (show Heap.setCdr (.pair s.frame) (.pair b₂) c₃.heap = .ok () _ from rfl) ?_
    have hpop : Heap.popRoots c.heap.roots.size
        { c₃.heap with cells := c₃.heap.cells.modify s.frame (withCdr (.pair b₂)) } = .ok () _ :=
      if_pos (by rw [hp₃.roots, hp₂.roots]; exact hsize)
    exact Attains.lift_ok hpop (hm₄.congr (Operation.valid (.popRoots _) hm₄.valid hpop)
      fun _ _ _ _ _ _ _ => rfl)

/-- The failure on a key that is bound nowhere leaves the heap as it is. -/
theorem unbound_run (key : Value) (c : Context) : ∃ c', Context.unbound key c = .ok .nil c' ∧
    c'.failing = true ∧ c'.heap = c.heap := by
  show ∃ c', Context.fail _ c = .ok .nil c' ∧ _
  rw [Context.fail, run_modifyGet]
  by_cases hf : c.failing = true
  · exact ⟨_, congrArg (fun p : Value × Context => EStateM.Result.ok p.1 p.2) (if_pos hf), hf, rfl⟩
  · exact ⟨_, congrArg (fun p : Value × Context => EStateM.Result.ok p.1 p.2) (if_neg hf), rfl, rfl⟩

/-- The binding that a lookup finds. -/
theorem lookup?_eq (hm : h.Models fs) (ha : a ∈ fs.addresses) (key : Value) :
    h.lookup? (.pair a) key = (fs.nearest? a key).bind fun b => h.bindingIn? (.pair b) key := by
  obtain ⟨L, rfl, hl⟩ := hm.laid
  exact hl.lookup? (Layout.addresses_frames ▸ ha) key

/-- **A frame gives its keys the values that its map says.** -/
theorem own_eq (hm : h.Models fs) (ha : a ∈ fs.addresses) (key : Value) :
    (h.bindingIn? (.pair a) key).map h.cdr = fs.own? a key := by
  obtain ⟨L, rfl, hl⟩ := hm.laid
  exact hl.own (Layout.addresses_frames ▸ ha) key

/-- **The value in the nearest frame that has one.** -/
theorem read_eq (hm : h.Models fs) (ha : a ∈ fs.addresses) (key : Value) :
    (h.lookup? (.pair a) key).map h.cdr = fs.get? a key := by
  rw [hm.lookup?_eq ha, Option.map_bind, Frames.get?]
  refine Option.bind_congr fun b hb => ?_
  exact hm.own_eq (Frames.mem_addresses_of_nearest? hb) key

/-- **A frame binds a key once.** -/
theorem once (hm : h.Models fs) (ha : a ∈ fs.addresses) : ∃ bindings : List Value,
    h.spine (h.cdr (.pair a)) = { items := bindings, ending := .at .nil } ∧
    (∀ v ∈ bindings, v.isPair = true) ∧ (bindings.map h.car).Nodup := by
  obtain ⟨L, rfl, hl⟩ := hm.laid
  obtain ⟨s, hs, rfl⟩ := exists_scope ha
  have hlies := hl.lies hs
  refine ⟨_, hlies.spine, ?_, ?_⟩
  · intro v hv
    obtain ⟨e, -, rfl⟩ := List.mem_map.mp hv
    rfl
  · have hkeys : (s.entries.map fun e => Value.pair e.cell).map h.car = s.entries.map (·.key) := by
      rw [List.map_map]
      exact List.map_congr_left fun e he => car_of_cell (hlies.holds _ (Entry.mem_contents he))
    rw [hkeys]
    exact hlies.keys

/-- **An assignment changes the map of the nearest frame that binds the key.** -/
theorem assign (hm : c.heap.Models fs) (ha : a ∈ fs.addresses) (hn : fs.nearest? a key = some b)
    (value : Value) : ∃ c', Context.assign (.pair a) key value c = .ok value c' ∧
      c'.heap.Models (fs.put b key value) := by
  have hlookup := hm.lookup?_eq ha key
  obtain ⟨L, rfl, hl⟩ := hm.laid
  obtain ⟨s, hs, rfl⟩ := exists_scope (Frames.mem_addresses_of_nearest? hn)
  rw [hn, Option.bind_some, (hl.lies hs).bindingIn?] at hlookup
  cases he : Entry.find? key s.entries with
  | some e =>
    refine ⟨{ c with heap := _ }, ?_, rebind hm.valid hl hs he value⟩
    rw [he] at hlookup
    have hfound : look (·.lookup? (.pair a) key) c = .ok (some (.pair e.cell)) c := run_look hlookup
    exact run_bind hfound
  | none =>
    have hsome := List.find?_some hn
    rw [hl.own?_eq hs, Scope.own, he] at hsome
    cases hsome

/-- Without such a frame reading and assigning are the same failure. -/
theorem not_bound (hm : c.heap.Models fs) (ha : a ∈ fs.addresses) (hn : fs.nearest? a key = none)
    (value : Value) : Context.valueOf (.pair a) key c = Context.unbound key c ∧
      Context.assign (.pair a) key value c = Context.unbound key c := by
  have hlookup := hm.lookup?_eq ha key
  rw [hn, Option.bind_none] at hlookup
  have hnone : look (·.lookup? (.pair a) key) c = .ok none c := run_look hlookup
  exact ⟨run_bind hnone, run_bind hnone⟩

end Heap.Models

/-! ## 3. Other operations -/

namespace Heap

variable {h h' : Heap} {fs : Frames} {es : List Entry} {s : Scope} {a b : Addr} {v : Value}

/-- What a collection during an operation starts from, if there may be one. -/
def Operation.sources? (op : Operation) (h : Heap) : Option (List Value) :=
  match op with
  | .cons x y => some (h.rootValues true ++ [x, y])
  | .make _ _ => some (h.rootValues true)
  | .collect scanRoots => some (h.rootValues scanRoots)
  | _ => none

/-- The pair that an operation writes. -/
def Operation.target? : Operation → Option Value
  | .setCar v _ | .setCdr v _ => some v
  | _ => none

/-- A value is a frame, or part of the list of its bindings, or one of these. -/
def Comprises (h : Heap) (a : Addr) (v : Value) : Prop :=
  v = .pair a ∨ ∃ j, v = h.cdr^[j] (h.cdr (.pair a)) ∨ v = h.car (h.cdr^[j] (h.cdr (.pair a)))

theorem Holds.exists_iterate (hc : h.Holds (Entry.contents es)) (hb : b ∈ Entry.cells es) :
    ∃ j, .pair b = h.cdr^[j] (Entry.list es) ∨ .pair b = h.car (h.cdr^[j] (Entry.list es)) := by
  induction es with
  | nil => cases hb
  | cons e es ih =>
    obtain ⟨hlink, hrest⟩ := holds_cons.mp hc
    rcases List.mem_cons.mp hb with rfl | hb
    · exact ⟨0, .inl rfl⟩
    rcases List.mem_cons.mp hb with rfl | hb
    · exact ⟨0, .inr (car_of_cell hlink).symm⟩
    · obtain ⟨j, hj⟩ := ih (holds_cons.mp hrest).2 hb
      refine ⟨j + 1, ?_⟩
      rwa [Function.iterate_succ_apply, Entry.list, cdr_of_cell hlink]

/-- A frame comprises its cells. -/
theorem comprises_of_mem (hs : s.Lies h) (hb : b ∈ s.cells) : h.Comprises s.frame (.pair b) := by
  rcases List.mem_cons.mp hb with rfl | hb
  · exact .inl rfl
  · rw [Comprises, cdr_of_cell hs.frame_cell]
    exact .inr (hs.holds.exists_iterate hb)

/-- **An operation that writes no part of a frame, and frees none, leaves the frames as they are.** -/
theorem Models.perform (hm : h.Models fs) (op : Operation)
    (hr : ∀ vs, op.sources? h = some vs → fs.Rooted h vs)
    (hw : ∀ v, op.target? = some v → ∀ a ∈ fs.addresses, ¬ h.Comprises a v)
    (hop : op.perform h = .ok () h') : h'.Models fs := by
  have hv := op.valid hm.valid hop
  have hwrite : ∀ {b : Addr} {f : Cell → Cell}, (∀ a ∈ fs.addresses, ¬ h.Comprises a (.pair b)) →
      ∀ L, Layout.frames L = fs → Layout h L → ∀ s ∈ L, ∀ d ∈ s.cells,
        (h.cells.modify b f)[d]? = h.cells[d]? := by
    rintro b f hnot L rfl hl s hs d hd
    refine getElem?_modify_cells.trans (if_neg ?_)
    rintro rfl
    exact hnot s.frame (Layout.addresses_frames ▸ List.mem_map_of_mem hs)
      (comprises_of_mem (hl.lies hs) hd)
  cases op with
  | cons x y =>
    obtain ⟨v, g, hrun, hg⟩ := bind_eq_ok.mp hop
    cases hg
    obtain ⟨a, -, hgrant⟩ := cons_granted hm.valid hrun
    refine hm.congr hv ?_
    rintro L rfl hl s hs b hb
    exact (hl.granted (hr _ rfl) hgrant s hs b hb).2
  | make t p =>
    obtain ⟨v, g, hrun, hg⟩ := bind_eq_ok.mp hop
    cases hg
    obtain ⟨a, -, hgrant⟩ := make_granted hm.valid hrun
    refine hm.congr hv ?_
    rintro L rfl hl s hs b hb
    exact (hl.granted (hr _ rfl) hgrant s hs b hb).2
  | collect scanRoots =>
    obtain ⟨n, g, hrun, hc⟩ := collect_spec hm.valid scanRoots
    rw [Operation.perform, run_bind hrun] at hop
    cases hop
    refine hm.congr hv ?_
    rintro L rfl hl s hs b hb
    have hreach := (hl.lies hs).reaches
      (hr _ rfl s.frame (Layout.addresses_frames ▸ List.mem_map_of_mem hs)) b hb
    exact hc.kept b ((hc.isAllocated_iff b).mpr ⟨(hl.lies hs).isAllocated b hb, hreach⟩)
  | setCar v x =>
    cases v with
    | pair b =>
      cases hop
      exact hm.congr hv (hwrite (hw _ rfl))
    | _ => cases hop
  | setCdr v y =>
    cases v with
    | pair b =>
      cases hop
      exact hm.congr hv (hwrite (hw _ rfl))
    | _ => cases hop
  | pin v =>
    cases hop
    refine hm.congr hv fun _ _ _ _ _ b _ => ?_
    show (if v ∈ h.pins then h else { h with pins := v :: h.pins }).cells[b]? = _
    split <;> rfl
  | unpin v =>
    cases hop
    exact hm.congr hv fun _ _ _ _ _ _ _ => rfl
  | pushRoot v =>
    cases hop
    exact hm.congr hv fun _ _ _ _ _ _ _ => rfl
  | setRoot slot v =>
    obtain ⟨-, rfl⟩ := setRoot_eq_ok.mp hop
    exact hm.congr hv fun _ _ _ _ _ _ _ => rfl
  | popRoots base =>
    obtain ⟨-, rfl⟩ := popRoots_eq_ok.mp hop
    exact hm.congr hv fun _ _ _ _ _ _ _ => rfl
  | registerType entry =>
    cases hop
    exact hm.congr hv fun _ _ _ _ _ _ _ => rfl
  | rehold holdings =>
    cases hop
    exact hm.congr hv fun _ _ _ _ _ _ _ => rfl

end Heap

end LispMachine
