import LispMachine.Proofs.Environment.Layout
import LispMachine.Proofs.Quiet.Effect

/-!
# Frames that are filled in a heap that is never collected

* `Binds.put` -- a binding in a list of names and values, in place of the one there is;
* `Scope.bound` -- the names of a frame, with their values;
* `Serves.define`, `Serves.forM_define` -- **a frame that lies in cells of its own is filled**, in these
  cells and in fresh ones.
-/

namespace LispMachine

open Context

/-! ## 1. Names with values -/

/-- Names with their values, the newest in front. -/
abbrev Binds := List (Value × Value)

namespace Binds

variable {key value : Value} {bs : Binds}

/-- A binding in place of the one there is, or in front of the others. -/
def put (key value : Value) (bs : Binds) : Binds :=
  if key ∈ bs.map Prod.fst then bs.replaceF fun p => if p.1 = key then some (key, value) else none
  else (key, value) :: bs

/-- Bindings one after the other. -/
def puts (new : Binds) (bs : Binds) : Binds := new.foldl (fun bs p => put p.1 p.2 bs) bs

end Binds

/-- The names of a frame, with their values. -/
def Scope.bound (s : Scope) : Binds := s.entries.map fun e => (e.key, e.value)

theorem Entry.map_rebind (key value : Value) (es : List Entry) :
    (rebind key value es).map (fun e => (e.key, e.value)) =
      (es.map fun e => (e.key, e.value)).replaceF fun p => if p.1 = key then some (key, value) else none := by
  induction es with
  | nil => rfl
  | cons e es ih =>
    rw [rebind_cons, List.map_cons, List.replaceF]
    by_cases hk : e.key = key
    · subst hk
      simp
    · simp [hk, ih]

theorem Scope.map_fst_bound (s : Scope) : s.bound.map Prod.fst = s.entries.map (·.key) := by
  rw [bound, List.map_map]
  rfl

/-- A frame with another value for a key. -/
theorem Scope.bound_rebind {s : Scope} {e : Entry} {key value : Value}
    (he : Entry.find? key s.entries = some e) : (s.rebind key value).bound = s.bound.put key value := by
  have hmem : key ∈ s.bound.map Prod.fst := by
    rw [map_fst_bound]
    by_contra hnot
    rw [Entry.find?_eq_none.mpr hnot] at he
    cases he
  rw [Binds.put, if_pos hmem]
  exact Entry.map_rebind key value s.entries

/-- A frame with one more key. -/
theorem Scope.bound_extend {s : Scope} {e : Entry} (he : Entry.find? e.key s.entries = none) :
    (s.extend e).bound = s.bound.put e.key e.value := by
  rw [Binds.put, if_neg]
  · rfl
  · rw [map_fst_bound]
    exact Entry.find?_eq_none.mp he

/-! ## 2. Frames -/

/-- What an action on a frame has done: it lies in cells that it had, or that have been taken. -/
structure Filled (c : Context) (s : Scope) (bs : Binds) (s' : Scope) (d : Context) : Prop where
  frame : s'.frame = s.frame
  parent : s'.parent = s.parent
  bound : s'.bound = bs
  lies : s'.Lies d.heap
  roots : d.heap.roots = c.heap.roots
  alters : c.Alters (· ∈ s'.cells) d
  cells : ∀ b ∈ s'.cells, b ∈ s.cells ∨ c.heap.content b = none

namespace Filled

variable {c d e : Context} {s s₁ s₂ : Scope} {bs bs' : Binds}

theorem refl (hs : s.Lies c.heap) : Filled c s s.bound s c :=
  ⟨rfl, rfl, rfl, hs, rfl, .refl c _, fun _ => .inl⟩

theorem trans (h : Filled c s bs s₁ d) (h' : Filled d s₁ bs' s₂ e) (hcells : ∀ b ∈ s₁.cells, b ∈ s₂.cells) :
    Filled c s bs' s₂ e where
  frame := h'.frame.trans h.frame
  parent := h'.parent.trans h.parent
  bound := h'.bound
  lies := h'.lies
  roots := h'.roots.trans h.roots
  alters := (h.alters.trans h'.alters).mono fun b hb => hb.elim (hcells b) id
  cells b hb := by
    rcases h'.cells b hb with hb | hb
    · exact h.cells b hb
    · by_cases hmem : b ∈ s₁.cells
      · exact h.cells b hmem
      · rw [h.alters.content b hmem] at hb
        exact .inr hb

end Filled

/-- What a frame holds is there. -/
theorem Scope.Lies.exists_content {h : Heap} {s : Scope} (hs : s.Lies h) :
    ∀ b ∈ s.cells, ∃ x, h.content b = some x := by
  intro b hb
  obtain ⟨x, hx, hallocated⟩ := Heap.isAllocated_iff.mp (hs.isAllocated b hb)
  exact ⟨x, Heap.content_eq_some.mpr ⟨hx, hallocated⟩⟩

/-- **One more binding**, in two cells that have been taken for it. -/
theorem Filled.extend {c c₁ c₂ : Context} {s : Scope} {a b : Addr} {key value w : Value} (hs : s.Lies c.heap)
    (he : Entry.find? key s.entries = none) (hadds : c.Adds ([a] ++ [b]) c₁)
    (hpair : c₁.heap.content a = some (.pair key value))
    (hlink : c₁.heap.content b = some (.pair (.pair a) (Entry.list s.entries)))
    (hwrote : Serves.Wrote c₁ s.frame (.pair s.parent (.pair b)) c₂) (hroots : c₂.heap.roots = c.heap.roots.push w) :
    Filled c s (s.bound.put key value) (s.extend ⟨b, a, key, value⟩)
      (c₂.withRoots (c₂.heap.roots.shrink c.heap.roots.size)) := by
  have hfresh : ∀ x ∈ s.cells, x ∉ [a] ++ [b] := fun x hx => by
    obtain ⟨y, hy⟩ := hs.exists_content x hx
    exact hadds.not_mem hy
  have hne : a ≠ b := fun e => by
    have hnodup := hadds.nodup
    rw [e] at hnodup
    simp at hnodup
  have hframe := hfresh _ Scope.frame_mem_cells
  have hother : ∀ x, x ≠ s.frame → c₂.heap.content x = c₁.heap.content x := hwrote.alters.content
  have hpair₂ : c₂.heap.content a = some (.pair key value) := by
    rwa [hother a fun e => hframe (e ▸ List.mem_append_left _ (List.mem_singleton_self a))]
  have hlink₂ : c₂.heap.content b = some (.pair (.pair a) (Entry.list s.entries)) := by
    rwa [hother b fun e => hframe (e ▸ List.mem_append_right _ (List.mem_singleton_self b))]
  have hkept : ∀ x ∈ s.cells, x ≠ s.frame → c₂.heap.cells[x]? = c.heap.cells[x]? := fun x hx hxf => by
    obtain ⟨y, hy⟩ := hs.exists_content x hx
    rw [Heap.cell_of_content hy]
    refine Heap.cell_of_content ((hother x hxf).trans ?_)
    rw [← hy]
    exact hadds.alters.content x (hfresh x hx)
  refine ⟨rfl, rfl, Scope.bound_extend he, ?_, ?_, ?_, ?_⟩
  · exact hs.extend he hne.symm (fun hmem => hfresh b hmem (by simp)) (fun hmem => hfresh a hmem (by simp))
      (Heap.content_pair.mp hwrote.holds) (Heap.content_pair.mp hlink₂) (Heap.content_pair.mp hpair₂) hkept
  · show c₂.heap.roots.shrink c.heap.roots.size = c.heap.roots
    rw [hroots]
    exact shrink_push_size _ _
  · have halters : c.Alters (· ∈ (s.extend ⟨b, a, key, value⟩).cells) c₂ :=
      (hadds.alters.trans hwrote.alters).mono (by
        rintro x (hx | rfl)
        · simp only [List.mem_append, List.mem_singleton] at hx
          rw [Scope.cells_extend]
          rcases hx with rfl | rfl <;> simp
        · exact Scope.frame_mem_cells)
    exact halters.withRoots _
  · intro x hx
    rw [Scope.cells_extend] at hx
    simp only [List.mem_cons] at hx
    rcases hx with rfl | rfl | rfl | hx
    · exact .inl Scope.frame_mem_cells
    · exact .inr (hadds.fresh _ (by simp))
    · exact .inr (hadds.fresh _ (by simp))
    · exact .inl (List.mem_cons_of_mem _ hx)

namespace Serves

variable {c : Context} {s : Scope} {f : Addr}

/-- A binding that there is gets another value. -/
theorem rebind {e : Entry} {key : Value} (hs : s.Lies c.heap) (he : Entry.find? key s.entries = some e)
    (value : Value) : Serves 0 (liftM (Heap.setCdr (.pair e.cell) value) : Run Unit) c fun _ d =>
      ∃ s', Filled c s (s.bound.put key value) s' d ∧ ∀ b ∈ s.cells, b ∈ s'.cells := by
  have hmem := Entry.mem_contents (List.mem_of_find?_eq_some he)
  have hcells : (s.rebind key value).cells = s.cells := Scope.cells_rebind
  rw [← bind_pure (liftM (Heap.setCdr (.pair e.cell) value) : Run Unit)]
  refine operation (.setCdr (.pair e.cell) value) rfl rfl rfl
    (pure ⟨s.rebind key value, ⟨rfl, rfl, Scope.bound_rebind he, hs.rebind he fun _ =>
      Heap.getElem?_modify_cells, rfl, ?_, fun b hb => .inl (hcells ▸ hb)⟩, fun b hb => hcells ▸ hb⟩)
  refine (wrote (Heap.content_pair.mpr (hs.holds _ hmem)) rfl).alters.mono ?_
  rintro b rfl
  rw [hcells]
  exact List.mem_cons_of_mem _ (List.mem_map_of_mem hmem)

/-- **A binding in a frame that lies in cells of its own.** -/
theorem define (hs : s.Lies c.heap) (key value : Value) :
    Serves 2 (Context.define (.pair s.frame) key value) c fun _ d =>
      ∃ s', Filled c s (s.bound.put key value) s' d ∧ ∀ b ∈ s.cells, b ∈ s'.cells := by
  unfold Context.define
  refine look ?_
  rw [hs.bindingIn?]
  cases he : Entry.find? key s.entries with
  | some e =>
    rw [Option.map_some]
    exact (rebind hs he value).weaken (Nat.zero_le 2) fun _ _ => id
  | none =>
    rw [Option.map_none]
    refine rootBase (pushRoot (.pair s.frame) ((cons key value).bind (m := 1) fun v c₁ h₁ => ?_))
    obtain ⟨a, rfl, ha⟩ := h₁
    refine look ?_
    have hframe₁ : c₁.heap.content s.frame = some (.pair s.parent (Entry.list s.entries)) :=
      ha.adds.rooted.kept (Heap.content_pair.mpr hs.frame_cell)
    rw [Heap.cdr_of_cell (Heap.content_pair.mp hframe₁)]
    refine (cons (.pair a) (Entry.list s.entries)).bind (m := 0) fun v c₂ h₂ => ?_
    obtain ⟨b, rfl, hb⟩ := h₂
    refine setCdr (hb.adds.kept hframe₁) (.pair b) fun c₃ h₃ => ?_
    have hroots : c₃.heap.roots = c.heap.roots.push (.pair s.frame) := by
      rw [h₃.roots, hb.roots, ha.roots]
      rfl
    rw [← bind_pure (liftM (Heap.popRoots c.heap.roots.size) : Run Unit)]
    refine popRoots (by rw [hroots]; simp) (pure ⟨s.extend ⟨b, a, key, value⟩,
      .extend hs he (ha.adds.rooted.trans hb.adds) (hb.adds.kept ha.holds) hb.holds h₃ hroots, fun x hx => ?_⟩)
    rw [Scope.cells_extend]
    rcases List.mem_cons.mp hx with rfl | hx
    · exact List.mem_cons_self
    · exact List.mem_cons_of_mem _ (List.mem_cons_of_mem _ (List.mem_cons_of_mem _ hx))

/-- **Names are bound one after the other.** -/
theorem forM_define {new : Binds} (hs : s.Lies c.heap) (hf : s.frame = f) :
    Serves (2 * new.length) (new.forM fun (name, value) => Context.define (.pair f) name value) c
      fun _ d => ∃ s', Filled c s (new.puts s.bound) s' d ∧ ∀ b ∈ s.cells, b ∈ s'.cells := by
  induction new generalizing c s with
  | nil => exact pure ⟨s, .refl hs, fun _ => id⟩
  | cons p new ih =>
    subst hf
    rw [List.length_cons, Nat.mul_add, Nat.add_comm]
    refine (define hs p.1 p.2).bind fun _ d h => ?_
    obtain ⟨s₁, h₁, hcells₁⟩ := h
    refine (ih h₁.lies h₁.frame).weaken le_rfl fun _ e h => ?_
    obtain ⟨s', h', hcells'⟩ := h
    rw [h₁.bound] at h'
    exact ⟨s', h₁.trans h' hcells', fun b hb => hcells' b (hcells₁ b hb)⟩

/-- **An empty frame.** -/
theorem newFrame (parent : Value) : Serves 1 (Context.newFrame parent) c fun v d => ∃ a, v = .pair a ∧
    Scope.Lies ⟨a, parent, []⟩ d.heap ∧ Made c a (.pair parent .nil) d :=
  (cons parent .nil).weaken le_rfl fun _ _ ⟨a, hv, hmade⟩ =>
    ⟨a, hv, ⟨Heap.holds_cons.mpr ⟨Heap.content_pair.mp hmade.holds, nofun⟩, List.nodup_singleton a,
      List.nodup_nil⟩, hmade⟩

end Serves

end LispMachine
