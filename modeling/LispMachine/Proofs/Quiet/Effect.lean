import LispMachine.Proofs.Construction.Builders
import LispMachine.Proofs.Source.Supply

/-!
# What actions do to a heap that is never collected

While there is a free cell nothing is collected. With enough cells in stock an action therefore leaves
every allocated cell where it is, whether or not anything leads to it:

* `Heap.content` -- what an allocated cell holds;
* `Context.Alters`, `Context.Adds` -- **the cells that an action writes**, and those that it takes;
* `Serves` -- with so many cells in stock an action comes to an end with a property. The rules are those
  of sequences;
* `Serves.cons`, `Serves.make`, `Serves.func`, `Serves.append` -- the constructions, with their cells.
-/

namespace LispMachine

open Context

/-! ## 1. Contents -/

namespace Heap

variable {h h' g : Heap} {a b : Addr} {x : Cell} {u v : Value}

/-- What an allocated cell holds. -/
def content (h : Heap) (a : Addr) : Option Cell := (h.cells[a]?).filter Cell.isAllocated

theorem content_eq_some : h.content a = some x ↔ h.cells[a]? = some x ∧ x.isAllocated = true :=
  Option.filter_eq_some_iff

theorem cell_of_content (hx : h.content a = some x) : h.cells[a]? = some x :=
  (content_eq_some.mp hx).1

theorem content_pair : h.content a = some (.pair u v) ↔ h.cells[a]? = some (.pair u v) :=
  content_eq_some.trans (and_iff_left rfl)

theorem content_congr (hc : h'.cells[a]? = h.cells[a]?) : h'.content a = h.content a :=
  congrArg (Option.filter Cell.isAllocated) hc

theorem IsFree.content_eq (hf : h.IsFree a) : h.content a = none := by
  obtain ⟨next, hnext⟩ := hf
  show (h.cells[a]?).filter Cell.isAllocated = none
  rw [hnext]
  rfl

theorem lt_size_of_content (hx : h.content a = some x) : a < h.cells.size :=
  (Array.getElem?_eq_some_iff.mp (cell_of_content hx)).1

/-- A cell is written. -/
theorem content_modify {t : Cell → Cell} (ht : ∀ x, (t x).isAllocated = x.isAllocated) :
    ({ h with cells := h.cells.modify a t } : Heap).content b =
      if a = b then (h.content b).map t else h.content b := by
  rw [content, content, getElem?_modify_cells]
  by_cases hab : a = b
  · rw [if_pos hab, if_pos hab, Option.filter_map]
    congr 2
    exact funext ht
  · rw [if_neg hab, if_neg hab]

/-- With a cell in stock there is a free one. -/
theorem Stocked.exists_isFree {n : Nat} (hs : h.Stocked (n + 1)) : ∃ a, h.IsFree a := by
  obtain ⟨taken, hkept, hle⟩ := hs
  by_contra hnone
  have hfull := allocatedCount_eq_size_iff.mpr (not_exists.mp hnone)
  have hbirths := hkept.births
  omega

/-- A cell that has been taken without a collection, and filled. -/
theorem Taken.content_filled (ht : Taken h a g) (hf : ∃ b, h.IsFree b) (hx : x.isAllocated = true) :
    h.content a = none ∧ (g.filled a x).content a = some x ∧
      ∀ b, b ≠ a → (g.filled a x).content b = h.content b := by
  obtain ⟨hcells, -⟩ := ht.unchanged hf
  refine ⟨?_, content_eq_some.mpr ⟨Array.getElem?_setIfInBounds_self_of_lt ht.isFree.lt_size, hx⟩,
    fun b hb => content_congr ?_⟩
  · rw [← content_congr (h := h) (by rw [hcells])]
    exact ht.isFree.content_eq
  · exact (Array.getElem?_setIfInBounds_ne (Ne.symm hb)).trans (by rw [hcells])

end Heap

/-! ## 2. Effects -/

namespace Context

variable {c d e : Context} {S S' : Addr → Prop} {as bs : List Addr}

/-- Nothing is different but the heap, what is running, and how deep. -/
structure Steady (c d : Context) : Prop where
  symbols : d.symbols = c.symbols
  forms : d.forms = c.forms
  rootEnv : d.rootEnv = c.rootEnv
  looping : d.looping = c.looping
  failing : d.failing = c.failing
  failure : d.failure = c.failure
  truth : d.truth = c.truth
  output : d.output = c.output

namespace Steady

theorem refl (c : Context) : c.Steady c := ⟨rfl, rfl, rfl, rfl, rfl, rfl, rfl, rfl⟩

theorem trans (h : c.Steady d) (h' : d.Steady e) : c.Steady e where
  symbols := h'.symbols.trans h.symbols
  forms := h'.forms.trans h.forms
  rootEnv := h'.rootEnv.trans h.rootEnv
  looping := h'.looping.trans h.looping
  failing := h'.failing.trans h.failing
  failure := h'.failure.trans h.failure
  truth := h'.truth.trans h.truth
  output := h'.output.trans h.output

end Steady

/-- **An action has written some cells**, and nothing else but slots of the root stack. What is running, and
    how deep, may be different. -/
structure Alters (c : Context) (S : Addr → Prop) (d : Context) : Prop where
  rest : c.Steady d
  types : d.heap.types = c.heap.types
  content : ∀ a, ¬ S a → d.heap.content a = c.heap.content a

namespace Alters

theorem refl (c : Context) (S : Addr → Prop) : c.Alters S c := ⟨.refl c, rfl, fun _ _ => rfl⟩

theorem mono (h : c.Alters S d) (hs : ∀ a, S a → S' a) : c.Alters S' d :=
  ⟨h.rest, h.types, fun a ha => h.content a fun hm => ha (hs a hm)⟩

theorem trans (h : c.Alters S d) (h' : d.Alters S' e) : c.Alters (fun a => S a ∨ S' a) e where
  rest := h.rest.trans h'.rest
  types := h'.types.trans h.types
  content a ha := by
    rw [not_or] at ha
    exact (h'.content a ha.2).trans (h.content a ha.1)

/-- Only the root stack has changed since. -/
theorem withRoots (h : c.Alters S d) (roots : Array Value) : c.Alters S (d.withRoots roots) :=
  ⟨{ h.rest with }, h.types, h.content⟩

/-- Only the root stack had changed before. -/
theorem rooted {roots : Array Value} (h : (c.withRoots roots).Alters S d) : c.Alters S d :=
  ⟨{ h.rest with }, h.types, h.content⟩

/-- One cell has been written. -/
theorem modify (c : Context) (a : Addr) {t : Cell → Cell} (ht : ∀ x, (t x).isAllocated = x.isAllocated) :
    c.Alters (· = a) { c with heap := { c.heap with cells := c.heap.cells.modify a t } } where
  rest := { Steady.refl c with }
  types := rfl
  content _ hb := (Heap.content_modify ht).trans (if_neg fun h => hb h.symm)

end Alters

/-- **An action has taken some cells**, and written no other ones. -/
structure Adds (c : Context) (as : List Addr) (d : Context) : Prop where
  alters : c.Alters (· ∈ as) d
  fresh : ∀ a ∈ as, c.heap.content a = none
  filled : ∀ a ∈ as, ∃ x, d.heap.content a = some x
  nodup : as.Nodup

namespace Adds

theorem refl (c : Context) : c.Adds [] c := ⟨.refl c _, nofun, nofun, List.nodup_nil⟩

theorem one {a : Addr} {x : Cell} (h : c.Alters (· = a) d) (hfresh : c.heap.content a = none)
    (hfilled : d.heap.content a = some x) : c.Adds [a] d where
  alters := h.mono fun _ hb => List.mem_singleton.mpr hb
  fresh _ hb := List.mem_singleton.mp hb ▸ hfresh
  filled _ hb := ⟨x, List.mem_singleton.mp hb ▸ hfilled⟩
  nodup := List.nodup_singleton a

/-- What was allocated keeps what it holds. -/
theorem kept {a : Addr} {x : Cell} (h : c.Adds as d) (hx : c.heap.content a = some x) :
    d.heap.content a = some x := by
  rw [h.alters.content a fun ha => ?_, hx]
  rw [h.fresh a ha] at hx
  cases hx

theorem not_mem {a : Addr} {x : Cell} (h : c.Adds as d) (hx : c.heap.content a = some x) : a ∉ as :=
  fun ha => by
    rw [h.fresh a ha] at hx
    cases hx

theorem trans (h : c.Adds as d) (h' : d.Adds bs e) : c.Adds (as ++ bs) e where
  alters := (h.alters.trans h'.alters).mono fun _ => List.mem_append.mpr
  fresh a ha := by
    rcases List.mem_append.mp ha with ha | ha
    · exact h.fresh a ha
    · by_contra hne
      obtain ⟨x, hx⟩ := Option.ne_none_iff_exists'.mp hne
      have hfresh := h'.fresh a ha
      rw [h.kept hx] at hfresh
      cases hfresh
  filled a ha := by
    rcases List.mem_append.mp ha with ha | ha
    · obtain ⟨x, hx⟩ := h.filled a ha
      exact ⟨x, h'.kept hx⟩
    · exact h'.filled a ha
  nodup := by
    refine List.nodup_append'.mpr ⟨h.nodup, h'.nodup, fun a ha hb => ?_⟩
    obtain ⟨x, hx⟩ := h.filled a ha
    exact h'.not_mem hx hb

/-- The order of the cells does not matter. -/
theorem perm (h : c.Adds as d) (hp : as.Perm bs) : c.Adds bs d where
  alters := h.alters.mono fun _ => hp.mem_iff.mp
  fresh a ha := h.fresh a (hp.mem_iff.mpr ha)
  filled a ha := h.filled a (hp.mem_iff.mpr ha)
  nodup := hp.nodup_iff.mp h.nodup

/-- Only the root stack has changed since. -/
theorem withRoots (h : c.Adds as d) (roots : Array Value) : c.Adds as (d.withRoots roots) where
  alters := h.alters.withRoots roots
  fresh := h.fresh
  filled := h.filled
  nodup := h.nodup

/-- Only the root stack had changed before. -/
theorem rooted {roots : Array Value} (h : (c.withRoots roots).Adds as d) : c.Adds as d where
  alters := h.alters.rooted
  fresh := h.fresh
  filled := h.filled
  nodup := h.nodup

end Adds

end Context

/-- Lists of pairs that are kept. -/
theorem Heap.Links.kept {c d : Context} {v e : Value} {xs : List Value} {as bs : List Addr}
    (hl : c.heap.Links v xs as e) (h : c.Adds bs d) : d.heap.Links v xs as e := by
  induction hl with
  | nil => exact .nil
  | cons hcell _ ih => exact .cons (content_pair.mp (h.kept (content_pair.mpr hcell))) ih

/-! ## 3. Actions with enough cells -/

/-- **With `n` cells in stock the action comes to an end with the property**, and takes no more than
    these. -/
def Serves {α : Type} (n : Nat) (x : Run α) (c : Context) (Q : α → Context → Prop) : Prop :=
  ∀ k, c.heap.Stocked (n + k) → ∃ a d, x c = .ok a d ∧ d.heap.Stocked k ∧ Q a d

namespace Serves

variable {α β : Type} {m n : Nat} {x : Run α} {f : α → Run β} {c : Context} {P Q : α → Context → Prop}
variable {R : β → Context → Prop}

theorem pure {a : α} (hq : Q a c) : Serves 0 (Pure.pure a) c Q := fun k hs =>
  ⟨a, c, rfl, Nat.zero_add k ▸ hs, hq⟩

/-- **Sequences.** -/
theorem bind (hx : Serves n x c P) (hf : ∀ a d, P a d → Serves m (f a) d R) :
    Serves (n + m) (x >>= f) c R := by
  intro k hs
  obtain ⟨a, d, hrun, hs, hp⟩ := hx (m + k) (Nat.add_assoc n m k ▸ hs)
  obtain ⟨b, e, hrun', hs', hr⟩ := hf a d hp k hs
  exact ⟨b, e, (run_bind hrun).trans hrun', hs', hr⟩

theorem weaken (hx : Serves m x c P) (hmn : m ≤ n) (h : ∀ a d, P a d → Q a d) : Serves n x c Q := by
  intro k hs
  obtain ⟨a, d, hrun, hs, hp⟩ := hx k (hs.le (Nat.add_le_add_right hmn k))
  exact ⟨a, d, hrun, hs, h a d hp⟩

/-- An action that comes to an end without a cell, and one after it. -/
theorem after {a : α} {d : Context} (hrun : x c = .ok a d)
    (hs : ∀ k, c.heap.Stocked k → d.heap.Stocked k) (hf : Serves n (f a) d R) : Serves n (x >>= f) c R := by
  intro k hk
  obtain ⟨b, e, hrun', hs', hr⟩ := hf k (hs _ hk)
  exact ⟨b, e, (run_bind hrun).trans hrun', hs', hr⟩

/-- What comes of it is a heap. -/
theorem valid (hx : Serves n x c Q) : Serves n x c fun a d => d.heap.Valid ∧ Q a d := by
  intro k hs
  obtain ⟨a, d, hrun, hs, hq⟩ := hx k hs
  obtain ⟨_, hkept, -⟩ := id hs
  exact ⟨a, d, hrun, hs, hkept.valid, hq⟩

/-- The same action in a context with as many cells in stock. -/
theorem of_eq {y : Run α} {d : Context} (hrun : x c = y d) (hs : ∀ k, c.heap.Stocked k → d.heap.Stocked k)
    (h : Serves n y d Q) : Serves n x c Q := fun k hk => hrun ▸ h k (hs _ hk)

theorem look {g : Heap → α} (h : Serves n (f (g c.heap)) c R) : Serves n (Context.look g >>= f) c R := h

theorem observe {g : Context → α} (h : Serves n (f (g c)) c R) :
    Serves n (LispMachine.observe g >>= f) c R := h

/-- An operation that takes no cells. -/
theorem operation {g : HeapM α} {a : α} {h : Heap} (op : Heap.Operation) (hbirths : op.births = 0)
    (hop : op.perform c.heap = .ok () h) (hg : g c.heap = .ok a h)
    (hf : Serves n (f a) { c with heap := h } R) : Serves n (liftM g >>= f) c R := by
  refine after (d := { c with heap := h }) ?_ (fun k hk => ?_) hf
  · show onHeap g c = _
    rw [onHeap, hg]
  · exact Heap.Stocked.perform (hbirths.symm ▸ (Nat.zero_add k).symm ▸ hk) hop

theorem rootBase {f : Nat → Run β} (h : Serves n (f c.heap.roots.size) c R) :
    Serves n ((liftM Heap.rootBase : Run Nat) >>= f) c R := h

theorem pushRoot {f : Nat → Run β} (v : Value)
    (hf : Serves n (f c.heap.roots.size) (c.withRoots (c.heap.roots.push v)) R) :
    Serves n ((liftM (Heap.pushRoot v) : Run Nat) >>= f) c R :=
  operation (.pushRoot v) rfl rfl rfl hf

theorem root {f : Value → Run β} {slot : Nat} {v : Value} (hroot : c.heap.roots[slot]? = some v)
    (hf : Serves n (f v) c R) : Serves n ((liftM (Heap.root slot) : Run Value) >>= f) c R := by
  refine after ?_ (fun _ => id) hf
  show onHeap (Heap.root slot) c = _
  rw [onHeap, Heap.root, hroot]

theorem setRoot {f : Unit → Run β} {slot : Nat} (v : Value) (hslot : slot < c.heap.roots.size)
    (hf : Serves n (f ()) (c.withRoots (c.heap.roots.setIfInBounds slot v)) R) :
    Serves n ((liftM (Heap.setRoot slot v) : Run Unit) >>= f) c R :=
  have hrun := Heap.setRoot_eq_ok.mpr ⟨hslot, rfl⟩
  operation (.setRoot slot v) rfl hrun hrun hf

theorem popRoots {f : Unit → Run β} {base : Nat} (hbase : base ≤ c.heap.roots.size)
    (hf : Serves n (f ()) (c.withRoots (c.heap.roots.shrink base)) R) :
    Serves n ((liftM (Heap.popRoots base) : Run Unit) >>= f) c R :=
  have hrun := Heap.popRoots_eq_ok.mpr ⟨hbase, rfl⟩
  operation (.popRoots base) rfl hrun hrun hf

/-! ### Cells -/

/-- What taking a cell has done. -/
structure Made (c : Context) (a : Addr) (x : Cell) (d : Context) : Prop where
  adds : c.Adds [a] d
  holds : d.heap.content a = some x
  roots : d.heap.roots = c.heap.roots

/-- **A fresh pair.** -/
theorem cons (x y : Value) : Serves 1 (liftM (Heap.cons x y) : Run Value) c
    fun v d => ∃ a, v = .pair a ∧ Made c a (.pair x y) d := by
  intro k hs
  obtain ⟨taken, hkept, -⟩ := id hs
  have hfree : ∃ a, c.heap.IsFree a := (Nat.add_comm 1 k ▸ hs).exists_isFree
  rcases Heap.cons_cases hkept.valid x y with ⟨a, g, ht, hrun⟩ | ⟨g, hrun⟩
  · obtain ⟨hfresh, hholds, hother⟩ := ht.content_filled (x := .pair x y) hfree rfl
    refine ⟨.pair a, { c with heap := { g with roots := c.heap.roots }.filled a (.pair x y) }, ?_, ?_, a, rfl,
      .one ⟨{ Context.Steady.refl c with }, ?_, fun b hb => hother b hb⟩ hfresh hholds, hholds, rfl⟩
    · show onHeap (Heap.cons x y) c = _
      rw [onHeap, hrun]
    · exact Heap.Stocked.perform (show c.heap.Stocked ((Heap.Operation.cons x y).births + k) from hs) (run_bind hrun)
    · show g.types = c.heap.types
      rw [ht.frame]
      rfl
  · obtain ⟨v, h', hrun'⟩ := Heap.cons_of_isFree hkept.valid hfree x y
    rw [hrun] at hrun'
    cases hrun'

/-- **A fresh object** of a type that objects may have. -/
theorem make {t : TypeId} (ht : c.heap.IsMakeable t) (p : Payload) :
    Serves 1 (liftM (Heap.make t p) : Run Value) c
      fun v d => ∃ a, v = .object a ∧ Made c a (.object t p) d := by
  intro k hs
  obtain ⟨taken, hkept, -⟩ := id hs
  have hfree : ∃ a, c.heap.IsFree a := (Nat.add_comm 1 k ▸ hs).exists_isFree
  rcases Heap.make_cases hkept.valid t p with ⟨-, a, g, hg, hrun⟩ | ⟨-, g, hrun⟩ | ⟨hnot, -⟩
  · obtain ⟨hfresh, hholds, hother⟩ := hg.content_filled (x := .object t p) hfree rfl
    refine ⟨.object a, { c with heap := g.filled a (.object t p) }, ?_, ?_, a, rfl,
      .one ⟨{ Context.Steady.refl c with }, ?_, fun b hb => hother b hb⟩ hfresh hholds, hholds, ?_⟩
    · show onHeap (Heap.make t p) c = _
      rw [onHeap, hrun]
    · exact Heap.Stocked.perform (show c.heap.Stocked ((Heap.Operation.make t p).births + k) from hs) (run_bind hrun)
    · show g.types = c.heap.types
      rw [hg.frame]
    · show g.roots = c.heap.roots
      rw [hg.frame]
  · obtain ⟨v, h', hrun'⟩ := Heap.make_of_isFree hkept.valid hfree ‹_› p
    rw [hrun] at hrun'
    cases hrun'
  · exact absurd ht hnot

/-- What writing a cell has done. -/
structure Wrote (c : Context) (a : Addr) (x : Cell) (d : Context) : Prop where
  alters : c.Alters (· = a) d
  holds : d.heap.content a = some x
  roots : d.heap.roots = c.heap.roots

/-- A pair has been written. -/
theorem wrote {a : Addr} {u v u' v' : Value} {w : Cell → Cell} (hcell : c.heap.content a = some (.pair u v))
    (hw : w (.pair u v) = .pair u' v') :
    Wrote c a (.pair u' v') { c with heap := { c.heap with cells := c.heap.cells.modify a w } } := by
  refine ⟨⟨{ Context.Steady.refl c with }, rfl, fun b hb => Heap.content_congr ?_⟩, Heap.content_pair.mpr ?_, rfl⟩
  · exact Heap.getElem?_modify_cells.trans (if_neg fun h => hb h.symm)
  · refine Heap.getElem?_modify_cells.trans ?_
    rw [if_pos rfl, Heap.content_pair.mp hcell, Option.map_some, hw]

/-- **The rest slot of a pair is written.** -/
theorem setCdr {f : Unit → Run β} {a : Addr} {u v : Value} (hcell : c.heap.content a = some (.pair u v))
    (y : Value) (hf : ∀ d, Wrote c a (.pair u y) d → Serves n (f ()) d R) :
    Serves n ((liftM (Heap.setCdr (.pair a) y) : Run Unit) >>= f) c R :=
  operation (.setCdr (.pair a) y) rfl rfl rfl (hf _ (wrote hcell rfl))

/-- **The first slot of a pair is written.** -/
theorem setCar {f : Unit → Run β} {a : Addr} {u v : Value} (hcell : c.heap.content a = some (.pair u v))
    (x : Value) (hf : ∀ d, Wrote c a (.pair x v) d → Serves n (f ()) d R) :
    Serves n ((liftM (Heap.setCar (.pair a) x) : Run Unit) >>= f) c R :=
  operation (.setCar (.pair a) x) rfl rfl rfl (hf _ (wrote hcell rfl))

/-! ### Lists and functions -/

/-- Values are consed onto the list in a root slot. -/
theorem consOnto {items xs : List Value} {as : List Addr} {slot : Nat} {w : Value}
    (hroot : c.heap.roots[slot]? = some w) (hl : c.heap.Lists w xs as) :
    Serves items.length (Context.consOnto slot items) c fun _ d => ∃ w' fresh,
      d.heap.Lists w' (items.reverse ++ xs) (fresh ++ as) ∧
      d.heap.roots = c.heap.roots.setIfInBounds slot w' ∧ c.Adds fresh d := by
  induction items generalizing c w xs as with
  | nil => exact .pure ⟨w, [], hl, (setIfInBounds_self hroot).symm, .refl c⟩
  | cons v items ih =>
    have hslot := (Array.getElem?_eq_some_iff.mp hroot).1
    rw [List.length_cons, Nat.add_comm]
    refine root hroot ((cons v w).bind fun u c₁ h₁ => ?_)
    obtain ⟨a, rfl, hmade⟩ := h₁
    have hslot₁ : slot < c₁.heap.roots.size := by rwa [hmade.roots]
    refine setRoot (.pair a) hslot₁ ?_
    have hl₁ : c₁.heap.Lists (.pair a) (v :: xs) (a :: as) :=
      .cons (Heap.content_pair.mp hmade.holds) (hl.kept hmade.adds)
    have hroot₂ : (c₁.withRoots (c₁.heap.roots.setIfInBounds slot (.pair a))).heap.roots[slot]? =
        some (.pair a) := Array.getElem?_setIfInBounds_self_of_lt hslot₁
    refine (ih hroot₂ (hl₁.congr fun _ _ => rfl)).weaken le_rfl fun _ d h => ?_
    obtain ⟨w', fresh, hl', hroots, hadds⟩ := h
    refine ⟨w', fresh ++ [a], ?_, ?_, ?_⟩
    · rwa [List.reverse_cons, List.append_assoc, List.append_assoc]
    · rw [hroots]
      show (c₁.heap.roots.setIfInBounds slot (.pair a)).setIfInBounds slot w' = _
      rw [hmade.roots, Array.setIfInBounds_setIfInBounds]
    · exact (hmade.adds.trans hadds.rooted).perm (List.perm_append_comm)

/-- **A fresh list.** -/
theorem list (items : List Value) : Serves items.length (Context.list items) c fun v d =>
    ∃ as, d.heap.Lists v items as ∧ d.heap.roots = c.heap.roots ∧ c.Adds as d := by
  let c₁ := c.withRoots ((c.heap.roots ++ items.toArray).push .nil)
  have hslot : c₁.heap.roots[(c.heap.roots ++ items.toArray).size]? = some .nil :=
    Array.getElem?_push_size
  have hle : c.heap.roots.size ≤ (c.heap.roots ++ items.toArray).size := by simp
  have hstock : ∀ k, c.heap.Stocked k → (c.withRoots (c.heap.roots ++ items.toArray)).heap.Stocked k := by
    rintro k ⟨taken, hkept, hsize⟩
    exact ⟨taken, hkept.congr hkept.valid.pins_nodup, hsize⟩
  unfold Context.list
  refine rootBase (after (run_pushAll items c) hstock (pushRoot .nil ?_))
  rw [← Nat.add_zero items.length, ← List.length_reverse]
  refine (consOnto (c := c₁) hslot .nil).bind fun _ c₂ h₂ => ?_
  obtain ⟨out, cells, hl, hroots, hadds⟩ := h₂
  rw [List.reverse_reverse, List.append_nil, List.append_nil] at hl
  have hbelow : ∀ j, j < c.heap.roots.size → c₂.heap.roots[j]? = c.heap.roots[j]? := by
    intro j hj
    rw [hroots, Array.getElem?_setIfInBounds_ne (by omega)]
    show ((c.heap.roots ++ items.toArray).push .nil)[j]? = _
    rw [Array.getElem?_push, if_neg (by omega), Array.getElem?_append_left hj]
  have hout : c₂.heap.roots[(c.heap.roots ++ items.toArray).size]? = some out := by
    rw [hroots]
    exact Array.getElem?_setIfInBounds_self_of_lt (Array.getElem?_eq_some_iff.mp hslot).1
  have hpop : c.heap.roots.size ≤ c₂.heap.roots.size :=
    hle.trans (Array.getElem?_eq_some_iff.mp hout).1.le
  refine root hout (popRoots hpop (.pure ⟨cells, ?_, shrink_eq hpop hbelow, hadds.rooted.withRoots _⟩))
  exact hl.congr fun _ _ => rfl

/-- **A fresh function**: its object, and the list of its parts. -/
theorem func (ht : c.heap.IsMakeable CoreType.func.id) (env params body name : Value) :
    Serves 5 (Context.func env params body name) c fun v d => ∃ o parts as, v = .object o ∧
      d.heap.content o = some (.object CoreType.func.id (.closure parts)) ∧
      d.heap.Lists parts [env, params, body, name] as ∧ d.heap.roots = c.heap.roots ∧
      c.Adds (o :: as) d := by
  unfold Context.func
  refine rootBase ((list [env, params, body, name]).bind (m := 1) fun parts c₁ h₁ => ?_)
  obtain ⟨as, hl, hroots₁, hadds⟩ := h₁
  refine pushRoot parts ?_
  have ht₂ : (c₁.withRoots (c₁.heap.roots.push parts)).heap.IsMakeable CoreType.func.id := by
    show c₁.heap.IsMakeable CoreType.func.id
    rw [Heap.IsMakeable, hadds.alters.types]
    exact ht
  refine (make ht₂ (.closure parts)).bind (m := 0) fun v c₃ h₃ => ?_
  obtain ⟨o, rfl, hmade⟩ := h₃
  have hroots₃ : c₃.heap.roots = c.heap.roots.push parts :=
    hmade.roots.trans (congrArg (·.push parts) hroots₁)
  have hl₂ : (c₁.withRoots (c₁.heap.roots.push parts)).heap.Lists parts [env, params, body, name] as :=
    hl.congr fun _ _ => rfl
  have hl₃ : c₃.heap.Lists parts [env, params, body, name] as := hl₂.kept hmade.adds
  refine popRoots (by rw [hroots₃]; simp) (.pure ⟨o, parts, as, rfl, hmade.holds, ?_, ?_, ?_⟩)
  · exact hl₃.congr fun _ _ => rfl
  · show c₃.heap.roots.shrink c.heap.roots.size = _
    rw [hroots₃]
    exact shrink_push_size _ _
  · exact ((hadds.trans hmade.adds.rooted).perm List.perm_append_comm).withRoots _

end Serves

/-! ### Lists under construction -/

theorem setIfInBounds_push_size (xs : Array Value) (x y : Value) :
    (xs.push x).setIfInBounds xs.size y = xs.push y := by
  rw [← Array.append_singleton, Array.setIfInBounds_append_right le_rfl, Nat.sub_self]
  rfl

/-- **A list whose last pair is known**, nil if there is none. -/
structure Heap.Chained (h : Heap) (v last : Value) (xs : List Value) (as : List Addr) : Prop where
  lists : h.Lists v xs as
  nodup : as.Nodup
  last : last = (as.getLast?.map Value.pair).getD .nil

theorem Heap.Chained.nil (h : Heap) : h.Chained .nil .nil [] [] := ⟨.nil, List.nodup_nil, rfl⟩

/-- The cells of a list hold pairs. -/
theorem Heap.Links.exists_pair {h : Heap} {v e : Value} {xs : List Value} {as : List Addr}
    (hl : h.Links v xs as e) : ∀ a ∈ as, ∃ x y, h.content a = some (.pair x y) := by
  induction hl with
  | nil => exact nofun
  | cons hc _ ih => exact List.forall_mem_cons.mpr ⟨⟨_, _, Heap.content_pair.mpr hc⟩, ih⟩

/-- One more pair behind the last one. -/
theorem Heap.Links.snoc {h h' : Heap} {v w : Value} {xs : List Value} {as : List Addr} {a b : Addr}
    (hl : h.Lists v xs as) (hnodup : as.Nodup) (hlast : as.getLast? = some b)
    (hkept : ∀ x ∈ as, x ≠ b → h'.cells[x]? = h.cells[x]?)
    (hb : ∀ x y, h.cells[b]? = some (.pair x y) → h'.cells[b]? = some (.pair x (.pair a)))
    (ha : h'.cells[a]? = some (.pair w .nil)) : h'.Lists v (xs ++ [w]) (as ++ [a]) := by
  unfold Heap.Lists at hl
  generalize he : Value.nil = e at hl
  induction hl with
  | nil => cases hlast
  | @cons c x y e xs as hc hrest ih =>
    cases as with
    | nil =>
      cases hrest
      obtain rfl : c = b := Option.some.inj hlast
      exact .cons (hb _ _ hc) (.cons ha .nil)
    | cons d as =>
      rw [List.getLast?_cons_cons] at hlast
      obtain ⟨hc', hnodup⟩ := List.nodup_cons.mp hnodup
      have hne : c ≠ b := fun e => hc' (e ▸ List.mem_of_getLast? hlast)
      exact .cons ((hkept c List.mem_cons_self hne).trans hc)
        (ih hnodup hlast (fun x hx => hkept x (List.mem_cons_of_mem c hx)) he)

namespace Serves

variable {c : Context}

/-- **A value is appended to a list** that is rooted on top. -/
theorem append {roots : Array Value} {w last v : Value} {xs : List Value} {as : List Addr}
    (hc : c.heap.Chained w last xs as) (hroots : c.heap.roots = roots.push w) :
    Serves 1 (Reader.append roots.size last v) c fun cell d => ∃ a w', cell = .pair a ∧
      d.heap.Chained w' cell (xs ++ [v]) (as ++ [a]) ∧ d.heap.roots = roots.push w' ∧
      c.heap.content a = none ∧ c.Alters (· ∈ as ++ [a]) d := by
  unfold Reader.append
  refine (cons v .nil).bind (m := 0) fun u c₁ h₁ => ?_
  obtain ⟨a, rfl, hmade⟩ := h₁
  have hroots₁ := hmade.roots.trans hroots
  have hfresh : c.heap.content a = none := hmade.adds.fresh a (List.mem_singleton_self a)
  have hnot : a ∉ as := fun ha => by
    obtain ⟨x, y, hx⟩ := hc.lists.exists_pair a ha
    rw [hx] at hfresh
    cases hfresh
  have hnodup : (as ++ [a]).Nodup := List.nodup_append.mpr ⟨hc.nodup, List.nodup_singleton a, fun x hx y hy => by
    rw [List.mem_singleton.mp hy]
    exact fun e => hnot (e ▸ hx)⟩
  have hlast' : Value.pair a = ((as ++ [a]).getLast?.map Value.pair).getD .nil := by
    rw [List.getLast?_concat]
    rfl
  cases hb : as.getLast? with
  | none =>
    obtain rfl := List.getLast?_eq_none_iff.mp hb
    have hnil : last = .nil := hc.last
    have hl := hc.lists
    cases hl
    rw [if_pos (by rw [hnil]; rfl)]
    refine setRoot (.pair a) (by rw [hroots₁]; simp) (pure ⟨a, .pair a, rfl, ⟨?_, hnodup, hlast'⟩, ?_, hfresh,
      hmade.adds.alters.withRoots _⟩)
    · exact .cons (Heap.content_pair.mp hmade.holds) .nil
    · show c₁.heap.roots.setIfInBounds _ _ = _
      rw [hroots₁, setIfInBounds_push_size]
  | some b =>
    have hlast : last = .pair b := by rw [hc.last, hb]; rfl
    have hmem : b ∈ as := List.mem_of_getLast? hb
    have hl₁ := hc.lists.kept hmade.adds
    obtain ⟨x, y, hcell⟩ := hl₁.exists_pair b hmem
    rw [if_neg (by rw [hlast]; exact nofun), hlast]
    refine setCdr hcell (.pair a) fun d hwrote => pure ⟨a, w, rfl, ⟨?_, hnodup, hlast'⟩, ?_, hfresh, ?_⟩
    · have hne : a ≠ b := fun e => hnot (e ▸ hmem)
      refine hl₁.snoc hc.nodup hb (fun z hz hzb => ?_) (fun x' y' hx' => ?_) ?_
      · obtain ⟨u, t, hz⟩ := hl₁.exists_pair z hz
        rw [Heap.cell_of_content hz, Heap.cell_of_content ((hwrote.alters.content z hzb).trans hz)]
      · rw [← Heap.content_pair, hcell] at hx'
        cases hx'
        exact Heap.content_pair.mp hwrote.holds
      · exact Heap.content_pair.mp ((hwrote.alters.content a hne).trans hmade.holds)
    · exact hwrote.roots.trans hroots₁
    · exact (hmade.adds.alters.trans hwrote.alters).mono fun z hz => by
        rcases hz with hz | rfl
        · exact List.mem_append_right _ hz
        · exact List.mem_append_left _ hmem

end Serves

end LispMachine
