import LispMachine.Session
import LispMachine.Proofs.Environment.Steps

/-!
# Environments are stacks of maps

* `Context.own?`, `Context.read?` -- the value that a frame itself gives to a key, and the one in the
  nearest frame that gives it one, as lookups find them in the heap;
* `Frames.Step`, `Frames.History` -- what may happen to a context with frames: new frames, bindings,
  assignments and readings, and between them collections, allocations and writes to other pairs, as long
  as every frame stays reachable. `Frames` is what the frames stand for by then: a key has in each of
  them the value that it was given there last;
* `Frames.Changed` -- a key has got a value in one frame, and nothing else has changed;
* `Frames.History.upheld` -- **after any history the frames in the heap are the maps that they stand
  for**, and every operation does to them what it does to maps.
-/

namespace LispMachine

/-! ## 1. Histories -/

namespace Context

/-- The value that a frame itself gives to a key. -/
def own? (c : Context) (a : Addr) (key : Value) : Option Value :=
  (c.heap.bindingIn? (.pair a) key).map c.heap.cdr

/-- The value that a lookup from a frame on finds. -/
def read? (c : Context) (a : Addr) (key : Value) : Option Value :=
  (c.heap.lookup? (.pair a) key).map c.heap.cdr

theorem valueOf_eq (c : Context) (a : Addr) (key : Value) : valueOf (.pair a) key c =
    match c.read? a key with
    | some v => .ok v c
    | none => unbound key c := by
  show (match c.heap.lookup? (.pair a) key with | some binding => _ | none => _ : Run Value) c = _
  rw [read?]
  cases c.heap.lookup? (.pair a) key <;> rfl

end Context

namespace Frames

/-- Without the frame at an address. -/
def forget (fs : Frames) (a : Addr) : Frames := fs.filter fun p => p.1 ≠ a

/-- **What may happen to a context with frames.** -/
inductive Step : Context → Frames → Context → Frames → Prop where
  | newFrame {c c' : Context} {fs : Frames} {parent : Value} {a : Addr} (hp : fs.Admits parent)
      (hr : fs.Rooted c.heap (c.heap.rootValues true ++ [parent]))
      (hrun : Context.newFrame parent c = .ok (.pair a) c') :
      Step c fs c' ((a, { parent, own := fun _ => none }) :: fs)
  | define {c c' : Context} {fs : Frames} {a : Addr} {key value : Value} (ha : a ∈ fs.addresses)
      (hr : fs.Rooted c.heap (c.heap.rootValues true ++ [.pair a, key, value]))
      (hrun : Context.define (.pair a) key value c = .ok () c') : Step c fs c' (fs.put a key value)
  | assign {c c' : Context} {fs : Frames} {a : Addr} {key value v : Value} (ha : a ∈ fs.addresses)
      (hrun : Context.assign (.pair a) key value c = .ok v c') : Step c fs c' (fs.assign a key value)
  | valueOf {c c' : Context} {fs : Frames} {a : Addr} {key v : Value} (ha : a ∈ fs.addresses)
      (hrun : Context.valueOf (.pair a) key c = .ok v c') : Step c fs c' fs
  /-- Any operation on the heap that keeps every frame reachable and writes to none. -/
  | perform {c : Context} {fs : Frames} {h' : Heap} (op : Heap.Operation)
      (hr : ∀ vs, op.sources? c.heap = some vs → fs.Rooted c.heap vs)
      (hw : ∀ v, op.target? = some v → ∀ a ∈ fs.addresses, ¬ c.heap.Comprises a v)
      (hrun : op.perform c.heap = .ok () h') : Step c fs { c with heap := h' } fs
  /-- What is outside of the heap changes. -/
  | outside {c c' : Context} {fs : Frames} (hc : c'.heap = c.heap) : Step c fs c' fs
  /-- A frame that is the parent of none need not be reachable any longer. -/
  | forget {c : Context} {fs : Frames} {a : Addr} (ha : ∀ p ∈ fs, p.2.parent ≠ .pair a) :
      Step c fs c (fs.forget a)

/-- **The contexts that such steps lead to**, with what the frames stand for. -/
inductive History : Context → Frames → Prop where
  | start {c : Context} (hv : c.heap.Valid) : History c []
  | step {c c' : Context} {fs fs' : Frames} (hh : History c fs) (hs : Step c fs c' fs') : History c' fs'

variable {c c' : Context} {fs fs' : Frames} {a b : Addr} {key value : Value}

/-- **One step does to the frames in the heap what it does to the maps.** -/
theorem Step.models (hs : Step c fs c' fs') (hm : c.heap.Models fs) : c'.heap.Models fs' := by
  cases hs with
  | newFrame hp hr hrun =>
    obtain ⟨a, ha, -, hm'⟩ := (hm.newFrame hp hr).ok hrun
    cases ha
    exact hm'
  | define ha hr hrun => exact (hm.define ha _ _ hr).ok hrun
  | @assign _ _ a key value _ ha hrun =>
    rw [Frames.assign]
    cases hn : fs.nearest? a key with
    | some b =>
      obtain ⟨c₁, hrun₁, hm₁⟩ := hm.assign ha hn value
      rw [hrun₁] at hrun
      cases hrun
      exact hm₁
    | none =>
      obtain ⟨c₁, hrun₁, -, hheap⟩ := Heap.Models.unbound_run key c
      rw [(hm.not_bound ha hn value).2, hrun₁] at hrun
      cases hrun
      exact hheap ▸ hm
  | @valueOf _ _ a key _ ha hrun =>
    rw [Context.valueOf_eq] at hrun
    cases hread : c.read? a key with
    | some w =>
      rw [hread] at hrun
      cases hrun
      exact hm
    | none =>
      obtain ⟨c₁, hrun₁, -, hheap⟩ := Heap.Models.unbound_run key c
      rw [hread] at hrun
      cases hrun₁.symm.trans hrun
      exact hheap ▸ hm
  | perform op hr hw hrun => exact hm.perform op hr hw hrun
  | outside hc => exact hc ▸ hm
  | forget ha =>
    obtain ⟨L, rfl, hl⟩ := hm.laid
    refine ⟨hm.valid, _, ?_, hl.forget fun t ht => ha t.view (List.mem_map_of_mem ht)⟩
    rw [Layout.frames, Frames.forget, Layout.frames, List.filter_map]
    rfl

/-- After any history the heap holds the frames there are. -/
theorem History.models (hh : History c fs) : c.heap.Models fs := by
  induction hh with
  | start hv => exact ⟨hv, [], rfl, .nil⟩
  | step _ hs ih => exact hs.models ih

/-! ## 2. What holds after a history -/

/-- **A key has got a value in one frame**: no other frame and no other key has changed, and what is
    read from a frame on has changed for this key only, and only if that frame is in its chain. -/
structure Changed (fs : Frames) (c : Context) (a : Addr) (key value : Value) (c' : Context) : Prop where
  own : ∀ b ∈ fs.addresses, ∀ k,
    c'.own? b k = if b = a ∧ k = key then some value else c.own? b k
  read : ∀ b ∈ fs.addresses, ∀ k, c'.read? b k = (fs.put a key value).get? b k
  same : ∀ b ∈ fs.addresses, ∀ k, k ≠ key ∨ a ∉ fs.chain b → c'.read? b k = c.read? b k

/-- **The frames of a context are maps.** -/
structure Upheld (fs : Frames) (c : Context) : Prop where
  /-- A frame has one binding for a key: its bindings are a proper list of pairs whose first slots
      differ. -/
  once : ∀ a ∈ fs.addresses, ∃ bindings : List Value,
    c.heap.spine (c.heap.cdr (.pair a)) = { items := bindings, ending := .at .nil } ∧
    (∀ v ∈ bindings, v.isPair = true) ∧ (bindings.map c.heap.car).Nodup
  /-- A frame gives to a key the value that it was given there last. -/
  own : ∀ a ∈ fs.addresses, ∀ key, c.own? a key = fs.own? a key
  /-- A lookup finds the value in the nearest frame that has one. -/
  read : ∀ a ∈ fs.addresses, ∀ key, c.read? a key = fs.get? a key
  /-- Reading gives that value, and changes nothing. -/
  valueOf : ∀ a ∈ fs.addresses, ∀ key value, fs.get? a key = some value →
    Context.valueOf (.pair a) key c = .ok value c
  /-- A new frame is empty, and nothing is read otherwise than before. -/
  newFrame : ∀ parent, fs.Admits parent →
    fs.Rooted c.heap (c.heap.rootValues true ++ [parent]) →
    Attains (Context.newFrame parent) c fun v c' => ∃ a, v = .pair a ∧ a ∉ fs.addresses ∧
      (∀ key, c'.own? a key = none) ∧
      ∀ b ∈ fs.addresses, ∀ k, c'.own? b k = c.own? b k ∧ c'.read? b k = c.read? b k
  /-- A binding changes the map of its own frame, at its key. -/
  define : ∀ a ∈ fs.addresses, ∀ key value,
    fs.Rooted c.heap (c.heap.rootValues true ++ [.pair a, key, value]) →
    Attains (Context.define (.pair a) key value) c fun _ c' => fs.Changed c a key value c'
  /-- An assignment changes the map of the nearest frame that binds its key. -/
  assign : ∀ a ∈ fs.addresses, ∀ key value b, fs.nearest? a key = some b →
    ∃ c', Context.assign (.pair a) key value c = .ok value c' ∧ fs.Changed c b key value c'
  /-- Reading and assigning a key that no frame of the chain binds fail, and change no cell. -/
  unbound : ∀ a ∈ fs.addresses, ∀ key value, fs.nearest? a key = none →
    ∃ c', Context.valueOf (.pair a) key c = .ok .nil c' ∧
      Context.assign (.pair a) key value c = .ok .nil c' ∧ c'.failing = true ∧ c'.heap = c.heap

/-- What has changed when a key has got a value in one frame. -/
theorem changed_of_models (hm : c.heap.Models fs) (hm' : c'.heap.Models (fs.put a key value)) :
    fs.Changed c a key value c' where
  own b hb k := by
    have hown : c'.own? b k = (fs.put a key value).own? b k := hm'.own_eq (by rwa [addresses_put]) k
    have hold : c.own? b k = fs.own? b k := hm.own_eq hb k
    rw [hown, own?_put hb, hold]
  read b hb k := hm'.read_eq (by rwa [addresses_put]) k
  same b hb k hk := by
    have hread : c'.read? b k = (fs.put a key value).get? b k := hm'.read_eq (by rwa [addresses_put]) k
    have hold : c.read? b k = fs.get? b k := hm.read_eq hb k
    rw [hread, get?_put hk, hold]

/-- **After any history the frames of the context are maps**, and every operation on them does what
    it does to maps. -/
theorem History.upheld (hh : History c fs) : fs.Upheld c := by
  have hm := hh.models
  refine ⟨fun a ha => hm.once ha, fun a ha => hm.own_eq ha, fun a ha => hm.read_eq ha,
    fun a ha key value hg => ?_, fun parent hp hr => ?_, fun a ha key value hr => ?_,
    fun a ha key value b hn => ?_, fun a ha key value hn => ?_⟩
  · have hread : c.read? a key = some value := (hm.read_eq ha key).trans hg
    rw [Context.valueOf_eq, hread]
  · refine (hm.newFrame hp hr).weaken fun v c' hq => ?_
    obtain ⟨a, rfl, hfresh, hm'⟩ := hq
    refine ⟨a, rfl, hfresh, fun key => ?_, fun b hb k => ⟨?_, ?_⟩⟩
    · exact (hm'.own_eq List.mem_cons_self key).trans own?_cons_self
    · have hne : b ≠ a := fun e => hfresh (e ▸ hb)
      exact (hm'.own_eq (List.mem_cons_of_mem _ hb) k).trans
        ((own?_cons_ne hne).trans (hm.own_eq hb k).symm)
    · exact (hm'.read_eq (List.mem_cons_of_mem _ hb) k).trans
        ((get?_cons hfresh hb).trans (hm.read_eq hb k).symm)
  · exact (hm.define ha key value hr).weaken fun _ c' hm' => changed_of_models hm hm'
  · obtain ⟨c', hrun, hm'⟩ := hm.assign ha hn value
    exact ⟨c', hrun, changed_of_models hm hm'⟩
  · obtain ⟨hvalue, hassign⟩ := hm.not_bound ha hn value
    obtain ⟨c', hrun, hfail, hheap⟩ := Heap.Models.unbound_run key c
    exact ⟨c', hvalue.trans hrun, hassign.trans hrun, hfail, hheap⟩

/-- A context of four cells, the rest of which are on a free list. -/
def ofFour (cells : Array Cell) (list : Chunk) : Context :=
  .bare
    { chunkCells := 4, growth := .fixed, cells, chunks := #[list], cursor := 0, pins := [], roots := #[],
      types := .core, holdings := .none, stats := { chunks := 1 }, reclaimed := [] }
    { names := #[], slots := #[] } 0

/-- A key is bound in a frame, and then assigned through a frame above it: it is in the first frame that
    it has the new value, and not in the second. -/
theorem History.upheld_assigned : ∃ (c : Context) (fs : Frames), History c fs ∧
    fs.addresses = [3, 0] ∧ Context.valueOf (.pair 0) (.sym 0) c = .ok (.int 9) c ∧
    c.own? 3 (.sym 0) = none := by
  have hcreate : Heap.create { chunkCells := 4, growth := .fixed } = .ok _ := rfl
  have h₀ : History (ofFour #[.free (some 1), .free (some 2), .free (some 3), .free none] ⟨some 0, 4⟩) [] :=
    .start (Heap.create_kept hcreate).valid
  have h₁ : History (ofFour #[.pair .nil .nil, .free (some 2), .free (some 3), .free none] ⟨some 1, 3⟩)
      [(0, ⟨.nil, fun _ => none⟩)] :=
    h₀.step (.newFrame (fun p e => by cases e) (fun a ha => by cases ha) rfl)
  have h₂ : History (ofFour #[.pair .nil (.pair 2), .pair (.sym 0) (.int 1), .pair (.pair 1) .nil,
      .free none] ⟨some 3, 1⟩) (put [(0, ⟨.nil, fun _ => none⟩)] 0 (.sym 0) (.int 1)) :=
    h₁.step (.define List.mem_cons_self (fun a ha => by
      obtain rfl := List.mem_singleton.mp ha
      exact .root (List.mem_append_right _ List.mem_cons_self) rfl) (by with_unfolding_all rfl))
  have h₃ : History (ofFour #[.pair .nil (.pair 2), .pair (.sym 0) (.int 1), .pair (.pair 1) .nil,
      .pair (.pair 0) .nil] ⟨none, 0⟩)
      ((3, ⟨.pair 0, fun _ => none⟩) :: put [(0, ⟨.nil, fun _ => none⟩)] 0 (.sym 0) (.int 1)) :=
    h₂.step (.newFrame (fun p e => by cases e; exact List.mem_cons_self) (fun a ha => by
      obtain rfl := List.mem_singleton.mp ha
      exact .root (List.mem_append_right _ List.mem_cons_self) rfl) (by with_unfolding_all rfl))
  have h₄ : History (ofFour #[.pair .nil (.pair 2), .pair (.sym 0) (.int 9), .pair (.pair 1) .nil,
      .pair (.pair 0) .nil] ⟨none, 0⟩) (Frames.assign _ 3 (.sym 0) (.int 9)) :=
    h₃.step (.assign List.mem_cons_self (by with_unfolding_all rfl))
  have hu := h₄.upheld
  exact ⟨_, _, h₄, rfl, hu.valueOf 0 (by decide) (.sym 0) (.int 9) (by with_unfolding_all rfl),
    (hu.own 3 (by decide) (.sym 0)).trans (by with_unfolding_all rfl)⟩

end Frames

end LispMachine
