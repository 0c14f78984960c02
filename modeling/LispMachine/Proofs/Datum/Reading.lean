import LispMachine.Proofs.Datum.Building

/-!
# The reader builds what a text says

* `Made` -- a cell is taken and filled: whatever the roots reach stays as it was;
* `Rooted` -- only the root stack changes;
* `Reading` -- the invariant of the reader's loop;
* `Attains.deliver`, `Attains.effect` -- **one value, and one token**;
* `Attains.readFrom`, `Attains.read` -- **the reader gives a value that stands for what the text says**,
  or the error that it says, unless the heap is exhausted.
-/

namespace LispMachine

open Context

/-! ## 1. Steps of the heap -/

/-- **A cell has been taken and filled.** What the roots and the values `vs` reach stays as it was. -/
structure Made (c : Context) (vs : List Value) (a : Addr) (cell : Cell) (c' : Context) : Prop where
  sane : c'.Sane
  roots : c'.heap.roots = c.heap.roots
  symbols : c'.symbols = c.symbols
  cell : c'.heap.cells[a]? = some cell
  kept : ∀ b, c.heap.Reaches (c.heap.rootValues true ++ vs) b → c.heap.isAllocated b = true →
    b ≠ a ∧ c'.heap.cells[b]? = c.heap.cells[b]?

section Steps

variable {c c' : Context} {own own' : Owner} {m n slot : Nat} {v w : Value} {d e : Datum} {a : Addr}
variable {vs : List Value} {cell : Cell} {nests : List Nest} {frames : List Frame}

/-- Whatever owner the fresh cell gets. -/
theorem Made.preserved (h : Made c vs a cell c') (o : Option Nat) (n : Nat) :
    Preserved (c.heap.Reaches (c.heap.rootValues true ++ vs)) n c own c' (Function.update own a o) where
  names := by
    rw [h.symbols]
    exact .refl _
  cells b hb hal _ := by
    obtain ⟨hne, hsame⟩ := h.kept b hb hal
    exact ⟨hsame, Function.update_of_ne hne o own⟩
  closed b x y hb hcell :=
    ⟨fun _ hx => .step hb (.car hcell hx), fun _ hy => .step hb (.cdr hcell hy)⟩

theorem Made.nested (h : Made c vs a cell c') (o : Option Nat) (hn : Nested c own m n nests frames) :
    Nested c' (Function.update own a o) m n nests frames := by
  refine hn.preserved (h.preserved o n) (fun i _ => by rw [h.roots]) fun i v b _ hv hb => ?_
  exact .root (List.mem_append_left vs (Heap.mem_rootValues_of_root hv)) hb

/-- A value that is kept in hand while the cell is taken. -/
theorem Made.holds (h : Made c vs a cell c') (o : Option Nat) (hv : v ∈ c.heap.rootValues true ++ vs)
    (hd : Holds c own v d) : Holds c' (Function.update own a o) v d :=
  hd.preserved (h.preserved o 0) fun _ hb => .root hv hb

/-- Steps that change no cell preserve everything. -/
theorem preserved_of_cells (hnames : c'.symbols.Extends c.symbols)
    (hcells : c'.heap.cells = c.heap.cells) : Preserved (fun _ => True) n c own c' own where
  names := hnames
  cells _ _ _ _ := ⟨by rw [hcells], rfl⟩
  closed _ _ _ _ _ := ⟨fun _ _ => trivial, fun _ _ => trivial⟩

/-- A name is interned, and the names there are keep their ids. -/
theorem Context.exists_intern (hs : c.symbols.Sound) (name : String) : ∃ id symbols,
    intern name c = .ok id { c with symbols } ∧ symbols.Sound ∧ symbols.Extends c.symbols ∧
      symbols.names[id]? = some name := by
  obtain ⟨id, t, hrun, hsound, hname, hnew⟩ := hs.intern name
  refine ⟨id, t, by rw [Context.intern, hrun], hsound, ?_, hname⟩
  rcases hnew with rfl | ⟨_, _, hnames⟩
  · exact .refl _
  · intro i other hi
    rw [hnames, Array.getElem?_push, if_neg (Array.getElem?_eq_some_iff.mp hi).1.ne]
    exact hi

/-- **A name becomes a symbol**, and nothing else changes. -/
theorem run_sym (hs : c.symbols.Sound) (name : String) : ∃ id symbols,
    Context.sym name c = .ok (.sym id) { c with symbols } ∧ symbols.Sound ∧
      symbols.Extends c.symbols ∧ symbols.names[id]? = some name := by
  obtain ⟨id, t, hintern, hkept⟩ := exists_intern hs name
  refine ⟨id, t, ?_, hkept⟩
  rw [Context.sym, run_bind hintern]
  rfl

namespace Attains

/-- **A fresh pair.** -/
theorem cons (hc : c.Sane) (x y : Value) : Attains (liftM (Heap.cons x y) : Run Value) c
    fun v c' => ∃ a, v = .pair a ∧ Made c [x, y] a (.pair x y) c' := by
  rcases Heap.cons_cases hc.valid x y with ⟨a, g, ht, hrun⟩ | ⟨g, hrun⟩
  · refine lift_ok hrun ⟨a, rfl, ?_⟩
    have hvalid : ({ g with roots := c.heap.roots }.filled a (.pair x y)).Valid := by
      refine Heap.Operation.valid (.cons x y) hc.valid ?_
      rw [Heap.Operation.perform, run_bind hrun]
      rfl
    have hstrings : ({ g with roots := c.heap.roots }.filled a (.pair x y)).IsMakeable
        CoreType.str.id := by
      have hg := ht.isMakeable (t := CoreType.str.id) hc.strings
      exact hg
    refine ⟨⟨hvalid, hc.sound, hstrings⟩, rfl, rfl, ?_, fun b hb hal => ?_⟩
    · exact Array.getElem?_setIfInBounds_self_of_lt ht.isFree.lt_size
    · have hreach : (c.heap.rooting x y).Reaches ((c.heap.rooting x y).rootValues true) b := by
        rw [Heap.rootValues_rooting]
        exact hb.congr (fun _ hv => hv) rfl rfl rfl
      have hkept := ht.survives b hal hreach
      have hne : a ≠ b := fun heq => by
        rw [← heq, ht.isFree.not_isAllocated] at hkept
        cases hkept
      refine ⟨Ne.symm hne, ?_⟩
      exact (Array.getElem?_setIfInBounds_ne hne).trans (ht.kept b hkept).2
  · exact lift_exhausted hrun

/-- **A fresh string.** -/
theorem str (hc : c.Sane) (bytes : ByteArray) : Attains (Context.str bytes) c
    fun v c' => ∃ a, v = .object a ∧ Made c [] a (.object CoreType.str.id (.text bytes)) c' := by
  rcases Heap.make_cases hc.valid CoreType.str.id (.text bytes) with
    ⟨_, a, g, ht, hrun⟩ | ⟨_, g, hrun⟩ | ⟨hnot, _⟩
  · refine lift_ok hrun ⟨a, rfl, ?_⟩
    have hstrings : (g.filled a (.object CoreType.str.id (.text bytes))).IsMakeable CoreType.str.id :=
      ht.isMakeable hc.strings
    have hvalid : (g.filled a (.object CoreType.str.id (.text bytes))).Valid := by
      refine ht.valid.filled rfl fun t p heq => ?_
      cases heq
      exact hstrings
    have hframe := ht.frame
    refine ⟨⟨hvalid, hc.sound, hstrings⟩, ?_, rfl, ?_, fun b hb hal => ?_⟩
    · show g.roots = c.heap.roots
      rw [hframe]
    · exact Array.getElem?_setIfInBounds_self_of_lt ht.isFree.lt_size
    · rw [List.append_nil] at hb
      have hkept := ht.survives b hal hb
      have hne : a ≠ b := fun heq => by
        rw [← heq, ht.isFree.not_isAllocated] at hkept
        cases hkept
      refine ⟨Ne.symm hne, ?_⟩
      exact (Array.getElem?_setIfInBounds_ne hne).trans (ht.kept b hkept).2
  · exact lift_exhausted hrun
  · exact absurd hc.strings hnot

/-- **A symbol.** -/
theorem sym (hc : c.Sane) (name : String) : Attains (Context.sym name) c
    fun v c' => c'.Sane ∧ c'.heap = c.heap ∧ c'.symbols.Extends c.symbols ∧
      ∃ id, v = .sym id ∧ c'.symbols.names[id]? = some name := by
  obtain ⟨id, t, hrun, hsound, hextends, hname⟩ := run_sym hc.sound name
  exact of_ok hrun ⟨⟨hc.valid, hsound, hc.strings⟩, rfl, hextends, id, rfl, hname⟩

end Attains

/-- **Only the root stack has changed**, and that from a slot on. -/
structure Rooted (slot : Nat) (c c' : Context) : Prop where
  sane : c'.Sane
  symbols : c'.symbols = c.symbols
  cells : c'.heap.cells = c.heap.cells
  below : ∀ i : Nat, i < slot → c'.heap.roots[i]? = c.heap.roots[i]?

theorem Rooted.preserved (h : Rooted slot c c') (own : Owner) (n : Nat) :
    Preserved (fun _ => True) n c own c' own := by
  refine preserved_of_cells ?_ h.cells
  rw [h.symbols]
  exact .refl _

theorem Rooted.nested (h : Rooted slot c c') (hn : Nested c own m slot nests frames) :
    Nested c' own m slot nests frames :=
  hn.preserved (h.preserved own slot) h.below fun _ _ _ _ _ _ => trivial

theorem Rooted.holds (h : Rooted slot c c') (hd : Holds c own v d) : Holds c' own v d :=
  hd.preserved (h.preserved own 0) fun _ _ => trivial

namespace Attains

theorem pushRoot (hc : c.Sane) (v : Value) : Attains (liftM (Heap.pushRoot v) : Run Nat) c
    fun slot c' => slot = c.heap.roots.size ∧ Rooted slot c c' ∧ c'.heap.roots.size = slot + 1 ∧
      c'.heap.roots[slot]? = some v := by
  have hvalid := Heap.Operation.valid (.pushRoot v) hc.valid rfl
  refine lift_ok rfl ⟨rfl, ⟨⟨hvalid, hc.sound, hc.strings⟩, rfl, rfl, fun i hi => ?_⟩,
    Array.size_push v, Array.getElem?_push_size⟩
  show (c.heap.roots.push v)[i]? = _
  rw [Array.getElem?_push, if_neg (Nat.ne_of_lt hi)]

theorem setRoot (hc : c.Sane) (v : Value) (hslot : slot < c.heap.roots.size) :
    Attains (liftM (Heap.setRoot slot v) : Run Unit) c fun _ c' => Rooted slot c c' ∧
      c'.heap.roots.size = c.heap.roots.size ∧ c'.heap.roots[slot]? = some v := by
  have hrun : Heap.setRoot slot v c.heap =
      .ok () { c.heap with roots := c.heap.roots.setIfInBounds slot v } := by
    rw [Heap.setRoot, if_pos hslot]
  have hvalid := Heap.Operation.valid (.setRoot slot v) hc.valid hrun
  refine lift_ok hrun ⟨⟨⟨hvalid, hc.sound, hc.strings⟩, rfl, rfl, fun i hi => ?_⟩,
    Array.size_setIfInBounds, Array.getElem?_setIfInBounds_self_of_lt hslot⟩
  exact Array.getElem?_setIfInBounds_ne (Nat.ne_of_gt hi)

theorem popRoots (hc : c.Sane) (hn : n ≤ c.heap.roots.size) :
    Attains (liftM (Heap.popRoots n) : Run Unit) c
      fun _ c' => Rooted n c c' ∧ c'.heap.roots.size = n := by
  have hrun : Heap.popRoots n c.heap = .ok () { c.heap with roots := c.heap.roots.shrink n } := by
    rw [Heap.popRoots, if_pos hn]
  have hvalid := Heap.Operation.valid (.popRoots n) hc.valid hrun
  refine lift_ok hrun ⟨⟨⟨hvalid, hc.sound, hc.strings⟩, rfl, rfl, fun i hi => ?_⟩, ?_⟩
  · show (c.heap.roots.shrink n)[i]? = _
    rw [Array.shrink_eq_take, Array.take_eq_extract, Array.getElem?_extract, Nat.sub_zero, Nat.zero_add,
      if_pos (by omega)]
  · exact Array.size_shrink.trans (Nat.min_eq_left hn)

/-- What goes on with the height of the root stack. -/
theorem rootBase {β : Type} {f : Nat → Run β} {R : β → Context → Prop}
    (h : Attains (f c.heap.roots.size) c R) : Attains ((liftM Heap.rootBase : Run Nat) >>= f) c R := h

/-- What goes on with the value of a slot. -/
theorem root {β : Type} {f : Value → Run β} {R : β → Context → Prop}
    (hroot : c.heap.roots[slot]? = some v) (h : Attains (f v) c R) :
    Attains ((liftM (Heap.root slot) : Run Value) >>= f) c R := by
  have hrun : (liftM (Heap.root slot) : Run Value) c = .ok v c := by
    show onHeap (Heap.root slot) c = _
    rw [onHeap, Heap.root, hroot]
  rwa [Attains, run_bind hrun]

/-- **The last pair of a list is written.** -/
theorem setCdr (hc : c.Sane) (a : Addr) (y : Value) :
    Attains (liftM (Heap.setCdr (.pair a) y) : Run Unit) c
      fun _ c' => c'.Sane ∧ c'.heap.roots = c.heap.roots ∧ Rewrites c a y c' := by
  have hvalid : { c.heap with cells := c.heap.cells.modify a (Heap.withCdr y) }.Valid :=
    Heap.Operation.valid (.setCdr (.pair a) y) hc.valid rfl
  refine lift_ok rfl ⟨⟨hvalid, hc.sound, hc.strings⟩, rfl, .refl _, fun b hb => ?_, fun x' hx' => ?_⟩
  · show (c.heap.cells.modify a _)[b]? = _
    rw [Array.getElem?_modify, if_neg (Ne.symm hb)]
  · show (c.heap.cells.modify a _)[a]? = _
    rw [Array.getElem?_modify, if_pos rfl, hx']
    rfl

end Attains

/-! ## 2. The reader's loop -/

/-- **While the reader runs**: its nests are what the frames say, and no name is lost. -/
structure Reading (t : SymbolTable) (m : Nat) (own : Owner) (nests : List Nest) (frames : List Frame)
    (c : Context) : Prop where
  sane : c.Sane
  names : c.symbols.Extends t
  nested : Nested c own m c.heap.roots.size nests frames

section Loop

variable {t : SymbolTable}

/-- A datum under a quote mark. -/
theorem Attains.quotation (hr : Reading t m own nests frames c) (hv : Holds c own v d) :
    Attains (Reader.quotation v) c
      fun u c' => ∃ own', Reading t m own' nests frames c' ∧ Holds c' own' u d.quoted := by
  unfold Reader.quotation
  refine .rootBase ((Attains.pushRoot hr.sane v).bind fun slot c₁ h₁ => ?_)
  obtain ⟨rfl, h₁, hsize₁, -⟩ := h₁
  refine (Attains.cons h₁.sane v .nil).bind fun _ c₂ h₂ => ?_
  obtain ⟨a, rfl, h₂⟩ := h₂
  have hn₂ := h₂.nested none (h₁.nested hr.nested)
  have hv₂ := h₂.holds none (List.mem_append_right _ List.mem_cons_self) (h₁.holds hv)
  have htail : Holds c₂ (Function.update own a none) (.pair a) (.pair d .nil) :=
    .pair (Function.update_self a none own) h₂.cell hv₂ .nil
  refine (Attains.sym h₂.sane "quote").bind fun _ c₃ h₃ => ?_
  obtain ⟨hc₃, hheap₃, hnames₃, id, rfl, hname⟩ := h₃
  have hkept₃ : ∀ n, Preserved (fun _ => True) n c₂ (Function.update own a none) c₃
      (Function.update own a none) := fun n => preserved_of_cells hnames₃ (by rw [hheap₃])
  have hn₃ := hn₂.preserved (hkept₃ _) (fun _ _ => by rw [hheap₃]) fun _ _ _ _ _ _ => trivial
  have htail₃ := htail.preserved (hkept₃ 0) fun _ _ => trivial
  refine (Attains.cons hc₃ (.sym id) (.pair a)).bind fun _ c₄ h₄ => ?_
  obtain ⟨b, rfl, h₄⟩ := h₄
  have htail₄ := h₄.holds none
    (List.mem_append_right _ (List.mem_cons_of_mem _ List.mem_cons_self)) htail₃
  have hsize₄ : c.heap.roots.size ≤ c₄.heap.roots.size := by
    rw [h₄.roots, hheap₃, h₂.roots, hsize₁]
    exact Nat.le_succ _
  refine (Attains.popRoots h₄.sane hsize₄).bind fun _ c₅ h₅ => ?_
  obtain ⟨h₅, hsize₅⟩ := h₅
  have hn₅ := h₅.nested (h₄.nested none hn₃)
  have hname₄ : c₄.symbols.names[id]? = some "quote" := by rw [h₄.symbols, hname]
  have hout : Holds c₅ _ (.pair b) d.quoted :=
    h₅.holds (.pair (Function.update_self b none (Function.update own a none)) h₄.cell (.sym hname₄) htail₄)
  have hnames : c₅.symbols.Extends t := by
    rw [h₅.symbols, h₄.symbols]
    refine hnames₃.trans ?_
    rw [h₂.symbols, h₁.symbols]
    exact hr.names
  rw [← hsize₅] at hn₅
  exact .pure ⟨_, ⟨h₅.sane, hnames, hn₅⟩, hout⟩

/-- **The owners when a list is closed**: its cells belong to none any more. -/
def Owner.clear (own : Owner) (slot : Nat) : Owner := fun a => if own a = some slot then none else own a

theorem Owner.clear_eq_none (h : own a = none ∨ own a = some slot) : own.clear slot a = none := by
  unfold Owner.clear
  split
  · rfl
  · exact h.resolve_right ‹_›

theorem Owner.clear_of_ne (h : own a ≠ some slot) : own.clear slot a = own a := if_neg h

/-- Writing the last pair of the list in a slot leaves the lists below it as they were. -/
theorem Rewrites.preserved {y : Value} (h : Rewrites c a y c') (ha : own a = some slot) :
    Preserved (fun _ => True) slot c own c' (own.clear slot) where
  names := h.names
  cells b _ _ hb := by
    have hne : own b ≠ some slot := fun heq => Nat.lt_irrefl slot (hb slot heq)
    refine ⟨h.other b fun heq => hne ?_, Owner.clear_of_ne hne⟩
    rw [heq, ha]
  closed _ _ _ _ _ := ⟨fun _ _ => trivial, fun _ _ => trivial⟩

/-- Whatever stays in its slot. -/
theorem Rewrites.preserved_owner {y : Value} (h : Rewrites c a y c') (ha : own a = some slot) :
    Preserved (fun _ => True) slot c own c' own where
  names := h.names
  cells b _ _ hb := by
    refine ⟨h.other b fun heq => Nat.lt_irrefl slot (hb slot ?_), rfl⟩
    rw [heq, ha]
  closed _ _ _ _ _ := ⟨fun _ _ => trivial, fun _ _ => trivial⟩

/-- The last pair of a list can be reached from its value. -/
theorem Chain.reaches {ds : List Datum} {last : Addr} (h : Chain c own slot v ds last) {us : List Value}
    (hv : ∀ b, v.addr? = some b → c.heap.Reaches us b) : c.heap.Reaches us last := by
  induction h with
  | last _ _ _ => exact hv _ rfl
  | more _ hcell _ _ ih =>
    refine ih fun b hb => .step (hv _ rfl) (.cdr hcell hb)

/-- **An element is appended to a list.** -/
theorem Attains.append {last : Value} {seen : List Datum} {slot : Nat}
    (hr : Reading t m own (.elements slot last :: nests) (.elements seen :: frames) c)
    (hv : Holds c own v d) : Attains (Reader.append slot last v) c
      fun u c' => ∃ own', Reading t m own' (.elements slot u :: nests) (.elements (d :: seen) :: frames) c' := by
  obtain ⟨hc, hnames, hn⟩ := hr
  generalize hsize : c.heap.roots.size = size at hn
  unfold Reader.append
  refine (Attains.cons hc v .nil).bind fun _ c₁ h₁ => ?_
  obtain ⟨a, rfl, h₁⟩ := h₁
  have ha : Function.update own a (some slot) a = some slot := Function.update_self a (some slot) own
  have hv₁ := h₁.holds (some slot) (List.mem_append_right _ List.mem_cons_self) hv
  have hnames₁ : c₁.symbols.Extends t := by
    rw [h₁.symbols]
    exact hnames
  have hsize₁ : c₁.heap.roots.size = size := by rw [h₁.roots, hsize]
  cases hn with
  | empty hroot houter =>
    have hslot : slot < c₁.heap.roots.size := by omega
    refine (Attains.setRoot h₁.sane (.pair a) hslot).bind fun _ c₂ h₂ => ?_
    obtain ⟨h₂, hsize₂, hroot₂⟩ := h₂
    have hcell₂ : c₂.heap.cells[a]? = some (.pair v .nil) := by rw [h₂.cells, h₁.cell]
    have hn₂ := Nested.elements hroot₂ (.last ha hcell₂ (h₂.holds hv₁))
      (h₂.nested (h₁.nested (some slot) houter))
    rw [← hsize₁, ← hsize₂] at hn₂
    refine .pure ⟨_, h₂.sane, ?_, hn₂⟩
    rw [h₂.symbols]
    exact hnames₁
  | @elements _ w ds last _ _ hroot hds houter =>
    have hreach : ∀ b, w.addr? = some b → c.heap.Reaches (c.heap.rootValues true ++ [v, .nil]) b :=
      fun b hb => .root (List.mem_append_left _ (Heap.mem_rootValues_of_root hroot)) hb
    obtain ⟨-, x, hcell⟩ := hds.last_cell
    have hne : a ≠ last := (h₁.kept last (hds.reaches hreach) (isAllocated_of_cell hcell rfl)).1.symm
    have hds₁ := hds.preserved (h₁.preserved (some slot) (slot + 1)) (Nat.lt_succ_self slot) hreach
    have hlast := hds₁.last_cell.1
    refine (Attains.setCdr h₁.sane last (.pair a)).bind fun _ c₂ h₂ => ?_
    obtain ⟨hc₂, hroots₂, h₂⟩ := h₂
    have hkept := h₂.preserved_owner hlast
    have houter₂ := (h₁.nested (some slot) houter).preserved hkept (fun _ _ => by rw [hroots₂])
      fun _ _ _ _ _ _ => trivial
    have hds₂ := hds₁.append h₂ ha ((h₂.other a hne).trans h₁.cell) (hv₁.preserved hkept fun _ _ => trivial)
    have hroot₂ : c₂.heap.roots[slot]? = some w := by rw [hroots₂, h₁.roots, hroot]
    have hn₂ := Nested.elements hroot₂ hds₂ houter₂
    rw [List.reverse_concat, ← hsize₁, ← hroots₂] at hn₂
    exact .pure ⟨_, hc₂, h₂.names.trans hnames₁, hn₂⟩

/-- The tail of a list follows its dot. -/
theorem Attains.setTail {last : Value} {seen : List Datum} {slot : Nat}
    (hr : Reading t m own (.dotted slot last :: nests) (.dotted seen :: frames) c)
    (hv : Holds c own v d) : Attains (liftM (Heap.setCdr last v) : Run Unit) c
      fun _ c' => ∃ own', Reading t m own' (.closing slot :: nests)
        (.closing (Datum.onto d seen) :: frames) c' := by
  obtain ⟨hc, hnames, hn⟩ := hr
  generalize hsize : c.heap.roots.size = size at hn
  cases hn with
  | @dotted _ w ds last _ _ hroot hds houter =>
    have hlast := hds.last_cell.1
    refine (Attains.setCdr hc last v).weaken fun _ c₁ h₁ => ?_
    obtain ⟨hc₁, hroots₁, h₁⟩ := h₁
    have hkept := h₁.preserved hlast
    have houter₁ := houter.preserved hkept (fun _ _ => by rw [hroots₁]) fun _ _ _ _ _ _ => trivial
    have htail := hv.preserved hkept fun _ _ => trivial
    have hwhole := hds.finish h₁ (fun _ => Owner.clear_eq_none) htail
    have hroot₁ : c₁.heap.roots[slot]? = some w := by rw [hroots₁, hroot]
    have hn₁ := Nested.closing hroot₁ hwhole houter₁
    rw [← hsize, ← hroots₁] at hn₁
    exact ⟨_, hc₁, h₁.names.trans hnames, hn₁⟩

/-- What has become of a value that is handed to its nests. -/
def HandedOn (t : SymbolTable) (m : Nat) (r : Value × List Nest) (c : Context) :
    Datum ⊕ List Frame → Prop
  | .inl d => ∃ own, r.2 = [] ∧ Reading t m own [] [] c ∧ Holds c own r.1 d
  | .inr frames => ∃ own, r.2 ≠ [] ∧ Reading t m own r.2 frames c

/-- **A finished value is handed to its nests.** -/
theorem Attains.deliver (hr : Reading t m own nests frames c) (hv : Holds c own v d) :
    Attains (Reader.deliver v nests) c fun r c' => HandedOn t m r c' (d.deliver frames) := by
  induction nests generalizing frames v d c own with
  | nil =>
    have hn := hr.nested
    generalize c.heap.roots.size = size at hn
    cases hn
    exact .pure ⟨own, rfl, hr, hv⟩
  | cons nest outer ih =>
    have hn := hr.nested
    generalize hsize : c.heap.roots.size = size at hn
    cases hn with
    | quotation hn =>
      subst hsize
      refine (Attains.quotation ⟨hr.sane, hr.names, hn⟩ hv).bind fun u c₁ h₁ => ?_
      obtain ⟨own₁, hr₁, hu⟩ := h₁
      exact ih (d := d.quoted) hr₁ hu
    | empty _ _ => exact (Attains.append hr hv).bind fun _ _ ⟨own', h⟩ => .pure ⟨own', List.cons_ne_nil _ _, h⟩
    | elements _ _ _ =>
      exact (Attains.append hr hv).bind fun _ _ ⟨own', h⟩ => .pure ⟨own', List.cons_ne_nil _ _, h⟩
    | dotted _ _ _ =>
      exact (Attains.setTail hr hv).bind fun _ _ ⟨own', h⟩ => .pure ⟨own', List.cons_ne_nil _ _, h⟩
    | closing _ _ _ => exact .pure ⟨own, List.cons_ne_nil _ _, hr⟩

/-! ## 3. One token -/

/-- A token has done to the nests what it does to the frames. -/
inductive Agrees (t : SymbolTable) (m : Nat) (c : Context) : Reader.Effect → Datum.Effect → Prop where
  | value {own : Owner} {v : Value} {d : Datum} {nests : List Nest} {frames : List Frame}
      (hr : Reading t m own nests frames c) (hv : Holds c own v d) :
      Agrees t m c (.value v nests) (.value d frames)
  | more {own : Owner} {nests : List Nest} {frames : List Frame}
      (hr : Reading t m own nests frames c) : Agrees t m c (.more nests) (.more frames)
  | error {own : Owner} {nests : List Nest} {frames : List Frame} {e : ReadError} {used : Bool}
      (hr : Reading t m own nests frames c) : Agrees t m c (.error e used) (.error e)

/-- A list is closed that has elements, and has what it is made of in its slot. -/
theorem Attains.close {slot : Nat} (hc : c.Sane) (hnames : c.symbols.Extends t)
    (hroot : c.heap.roots[slot]? = some v) (hv : Holds c own v d) (hn : Nested c own m slot nests frames) :
    Attains (Reader.close slot) c
      fun u c' => ∃ own', Reading t m own' nests frames c' ∧ Holds c' own' u d := by
  have hslot : slot < c.heap.roots.size := (Array.getElem?_eq_some_iff.mp hroot).1
  unfold Reader.close
  refine .root hroot ((Attains.popRoots hc hslot.le).bind fun _ c₁ h₁ => ?_)
  obtain ⟨h₁, hsize⟩ := h₁
  have hn₁ := h₁.nested hn
  rw [← hsize] at hn₁
  refine .pure ⟨own, ⟨h₁.sane, ?_, hn₁⟩, h₁.holds hv⟩
  rw [h₁.symbols]
  exact hnames

/-- The end of a list that has elements: none of its pairs belongs to it any more. -/
theorem Chain.closed {ds : List Datum} {last : Addr} (h : Chain c own slot v ds last) :
    Holds c (own.clear slot) v (Datum.onto .nil ds.reverse) ∧
      Preserved (fun _ => True) slot c own c (own.clear slot) := by
  obtain ⟨hlast, -⟩ := h.last_cell
  have hw : Rewrites c last .nil c := ⟨.refl _, fun _ _ => rfl, fun _ => id⟩
  exact ⟨h.finish hw (fun _ => Owner.clear_eq_none) .nil, hw.preserved hlast⟩

/-- The value of an atom. -/
theorem Attains.atomValue (hr : Reading t m own nests frames c) (name : List Char) :
    Attains (Reader.atomValue name) c
      fun v c' => Reading t m own nests frames c' ∧ Holds c' own v (Datum.ofAtom name) := by
  unfold Reader.atomValue Datum.ofAtom
  cases Fixnum.decimal? name with
  | some n => exact .pure ⟨hr, .int n⟩
  | none =>
    refine (Attains.sym hr.sane _).weaken fun v c₁ h₁ => ?_
    obtain ⟨hc₁, hheap, hnames, id, rfl, hname⟩ := h₁
    have hkept : Preserved (fun _ => True) c.heap.roots.size c own c₁ own :=
      preserved_of_cells hnames (by rw [hheap])
    have hn₁ := hr.nested.preserved hkept (fun _ _ => by rw [hheap]) fun _ _ _ _ _ _ => trivial
    rw [← hheap] at hn₁
    exact ⟨⟨hc₁, hnames.trans hr.names, hn₁⟩, .sym hname⟩

/-- A string. -/
theorem Attains.textValue (hr : Reading t m own nests frames c) (s : String) :
    Attains (Context.str s.toUTF8) c
      fun v c' => ∃ own', Reading t m own' nests frames c' ∧ Holds c' own' v (.text s) := by
  refine (Attains.str hr.sane s.toUTF8).weaken fun v c₁ h₁ => ?_
  obtain ⟨a, rfl, h₁⟩ := h₁
  have hn₁ := h₁.nested none hr.nested
  rw [← h₁.roots] at hn₁
  refine ⟨_, ⟨h₁.sane, ?_, hn₁⟩, .text (Function.update_self a none own) h₁.cell⟩
  rw [h₁.symbols]
  exact hr.names

/-- One more nest, where there may be one. -/
theorem Attains.enter {x : Run Reader.Effect} {frame : Frame} (hr : Reading t m own nests frames c)
    (hx : Attains x c fun r c' => Agrees t m c' r (.more (frame :: frames))) :
    Attains (if nests.length ≥ Reader.maxNesting then Pure.pure (.error .tooDeep true) else x) c
      fun r c' => Agrees t m c' r
        (if frames.length ≥ Reader.maxNesting then .error .tooDeep else .more (frame :: frames)) := by
  rw [← hr.nested.length_eq]
  by_cases hdeep : nests.length ≥ Reader.maxNesting
  · simp only [if_pos hdeep]
    exact .pure (.error hr)
  · simp only [if_neg hdeep]
    exact hx

/-- **A token does to the nests what it does to the frames**, where a datum or the end of a list may
    stand. -/
theorem Attains.meet (hr : Reading t m own nests frames c) (token : Token) :
    Attains (Reader.meet nests token) c fun r c' => Agrees t m c' r (Datum.meet frames token) := by
  cases token with
  | opening =>
    refine Attains.enter hr ((Attains.pushRoot hr.sane .nil).bind fun slot c₁ h₁ => ?_)
    obtain ⟨rfl, h₁, hsize₁, hroot₁⟩ := h₁
    have hn₁ := Nested.empty hroot₁ (h₁.nested hr.nested)
    have hnames₁ : c₁.symbols.Extends t := by
      rw [h₁.symbols]
      exact hr.names
    rw [← hsize₁] at hn₁
    exact .pure (.more ⟨h₁.sane, hnames₁, hn₁⟩)
  | mark => exact Attains.enter hr (.pure (.more ⟨hr.sane, hr.names, .quotation hr.nested⟩))
  | text s =>
    refine (Attains.textValue hr (String.ofList s)).bind fun v c₁ h₁ => ?_
    obtain ⟨own₁, hr₁, hv⟩ := h₁
    exact .pure (.value hr₁ hv)
  | unclosedText => exact .pure (.error hr)
  | closing =>
    have hn := hr.nested
    generalize hsize : c.heap.roots.size = size at hn
    cases hn with
    | empty hroot hn =>
      exact (Attains.close hr.sane hr.names hroot .nil hn).bind fun _ _ ⟨_, hr', hv⟩ => .pure (.value hr' hv)
    | elements hroot hds hn =>
      obtain ⟨hwhole, hkept⟩ := hds.closed
      have hn' := hn.preserved hkept (fun _ _ => rfl) fun _ _ _ _ _ _ => trivial
      exact (Attains.close hr.sane hr.names hroot hwhole hn').bind fun _ _ ⟨_, hr', hv⟩ =>
        .pure (.value hr' hv)
    | outermost => exact .pure (.error hr)
    | quotation _ => exact .pure (.error hr)
    | dotted _ _ _ => exact .pure (.error hr)
    | closing _ _ _ => exact .pure (.error hr)
  | atom name =>
    have hatom : Attains (do return Reader.Effect.value (← Reader.atomValue name) nests) c
        fun r c' => Agrees t m c' r (.value (Datum.ofAtom name) frames) :=
      (Attains.atomValue hr name).bind fun _ _ h => .pure (.value h.1 h.2)
    have hn := hr.nested
    generalize hsize : c.heap.roots.size = size at hn
    cases hn with
    | empty hroot hn =>
      simp only [Reader.meet, Datum.meet]
      by_cases hdot : name = ['.']
      · simp only [if_pos hdot]
        exact .pure (.error hr)
      · simp only [if_neg hdot]
        exact hatom
    | @elements slot v ds last _ _ hroot hds hn =>
      simp only [Reader.meet, Datum.meet]
      by_cases hdot : name = ['.']
      · have hne : ds.reverse ≠ [] := fun h => hds.ne_nil (List.reverse_eq_nil_iff.mp h)
        simp only [if_pos hdot, if_neg hne]
        have hn' := Nested.dotted hroot hds hn
        rw [← hsize] at hn'
        exact .pure (.more ⟨hr.sane, hr.names, hn'⟩)
      · simp only [if_neg hdot]
        exact hatom
    | outermost => exact hatom
    | quotation _ => exact hatom
    | dotted _ _ _ => exact hatom
    | closing _ _ _ => exact hatom

/-- **What the next token does.** -/
theorem Attains.effect (hr : Reading t m own nests frames c) (token : Token) :
    Attains (Reader.effect nests token) c fun r c' => Agrees t m c' r (Datum.effect frames token) := by
  have hmeet := Attains.meet hr token
  have hn := hr.nested
  generalize hsize : c.heap.roots.size = size at hn
  cases hn with
  | closing hroot hwhole hn =>
    cases token with
    | closing =>
      exact (Attains.close hr.sane hr.names hroot hwhole hn).bind fun _ _ ⟨_, hr', hv⟩ =>
        .pure (.value hr' hv)
    | _ => exact .pure (.error hr)
  | _ => exact hmeet

/-! ## 4. The reader -/

/-- The error at the end of the text. -/
theorem Nested.atEnd_eq {size : Nat} (hn : Nested c own m size nests frames) :
    Reader.atEnd nests = Datum.atEnd frames := by
  cases hn <;> rfl

/-- What the reader gives of a text is what the text says. -/
inductive Given (t : SymbolTable) (m : Nat) (c : Context) :
    Except ReadError Value × List Char → Except ReadError (Datum × List Char) → Prop where
  | ok {own : Owner} {v : Value} {d : Datum} {rest : List Char} (hr : Reading t m own [] [] c)
      (hv : Holds c own v d) : Given t m c (.ok v, rest) (.ok (d, rest))
  | error {own : Owner} {nests : List Nest} {frames : List Frame} {e : ReadError} {left : List Char}
      (hr : Reading t m own nests frames c) : Given t m c (.error e, left) (.error e)

/-- **The loop gives what the text says**, or its error. -/
theorem Attains.readFrom (hr : Reading t m own nests frames c) (src : List Char) :
    Attains (Reader.readFrom nests src) c fun r c' => Given t m c' r (Datum.parseFrom frames src) := by
  induction hlen : src.length using Nat.strongRecOn generalizing own nests frames c src with
  | ind len ih =>
    rw [Reader.readFrom]
    split
    · rename_i hnone
      rw [Datum.parseFrom_none hnone, hr.nested.atEnd_eq]
      exact .pure (.error hr)
    · rename_i token rest hnext
      have hlt : rest.length < len := hlen ▸ Token.length_lt_of_next? hnext
      rw [Datum.parseFrom_some hnext]
      refine (Attains.effect hr token).bind fun r c₁ hagrees => ?_
      generalize Datum.effect frames token = e at hagrees
      cases hagrees with
      | error hr₁ => exact .pure (.error hr₁)
      | more hr₁ => exact ih _ hlt hr₁ rest rfl
      | @value _ _ d _ frames₁ hr₁ hv =>
        refine (Attains.deliver hr₁ hv).bind fun r c₂ hdel => ?_
        obtain ⟨u, nests₂⟩ := r
        simp only [Datum.finish]
        cases hd : d.deliver frames₁ with
        | inl whole =>
          rw [hd] at hdel
          obtain ⟨own₂, rfl, hr₂, hu⟩ := hdel
          exact .pure (.ok hr₂ hu)
        | inr frames₂ =>
          rw [hd] at hdel
          obtain ⟨own₂, hne, hr₂⟩ := hdel
          cases nests₂ with
          | nil => exact absurd rfl hne
          | cons nest nests₂ => exact ih _ hlt hr₂ rest rfl

/-- What `Reader.read` gives of a text is what the text says. -/
inductive Answers (c : Context) : Except ReadError (Option Value) × List Char →
    Except ReadError (Option Datum × List Char) → Prop where
  | none : Answers c (.ok none, []) (.ok (none, []))
  | some {v : Value} {d : Datum} {rest : List Char} (hv : c.Denotes v d) :
      Answers c (.ok (some v), rest) (.ok (some d, rest))
  | error {e : ReadError} {left : List Char} : Answers c (.error e, left) (.error e)

/-- **Reading gives a value that stands for what the text says**, the end of the text, or its error. -/
theorem Attains.read (hc : c.Sane) (src : List Char) : Attains (Reader.read src) c fun r c' =>
    c'.Sane ∧ c'.symbols.Extends c.symbols ∧ Answers c' r (Datum.parse src) := by
  unfold Reader.read Datum.parse
  cases Token.next? src with
  | none => exact .pure ⟨hc, .refl _, .none⟩
  | some next =>
    have hr : Reading c.symbols c.heap.roots.size (fun _ => none) [] [] c := ⟨hc, .refl _, .outermost⟩
    refine .rootBase ((Attains.readFrom hr src).bind fun r c₁ hgiven => ?_)
    generalize Datum.parseFrom [] src = said at hgiven
    cases hgiven with
    | ok hr₁ hv => exact .pure ⟨hr₁.sane, hr₁.names, .some hv.denotes⟩
    | error hr₁ =>
      refine (Attains.popRoots hr₁.sane hr₁.nested.le).bind fun _ c₂ h₂ => .pure ⟨h₂.1.sane, ?_, .error⟩
      rw [h₂.1.symbols]
      exact hr₁.names

end Loop

end Steps

end LispMachine
