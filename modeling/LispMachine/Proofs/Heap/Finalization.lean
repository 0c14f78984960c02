import LispMachine.Proofs.Heap.History
import Mathlib.Data.List.Nodup

/-!
# The end of objects

An object is the one made by the `n`-th successful `make` of a history; its cell may belong to
others before and after it.

* `Heap.Ledger` -- the objects made so far, in which cell each of them lives, and the ones that have
  ended, in order. `Operation.note` keeps it: a collection ends the objects of the cells it frees;
* `Heap.Chronicle` -- the heaps that operations make of a fresh one, with the ledger;
* `Heap.Accounted` -- **a ledger agrees with a heap**: the cells that hold objects are those where
  some object lives, every object lives in one cell or has ended once, and the record of ended
  objects is the list of those that have ended, with what they were made with;
* `Heap.closing` -- the end of a heap, as operations;
* `Chronicle.finalized` -- so every object ends exactly once, not while it can be reached, and at the
  end of the heap at the latest.
-/

namespace LispMachine.Heap

/-! ## 1. The ledger -/

/-- Objects and where they live. The number of an object is its place among those made. -/
structure Ledger where
  made : List (TypeId × Payload)
  tenant : Addr → Option Nat
  ended : List Nat

namespace Ledger

/-- No object has been made. -/
def empty : Ledger := { made := [], tenant := fun _ => none, ended := [] }

/-- The objects of some cells end. -/
def bury (l : Ledger) (dead : List Addr) : Ledger :=
  { l with
    tenant := fun a => if a ∈ dead then none else l.tenant a
    ended := l.ended ++ dead.filterMap l.tenant }

/-- An object is made in a cell. -/
def enter (l : Ledger) (a : Addr) (t : TypeId) (p : Payload) : Ledger :=
  { l with
    made := l.made ++ [(t, p)]
    tenant := fun b => if b = a then some l.made.length else l.tenant b }

/-- What the end of an object leaves behind: type and payload, if the type asks for that. -/
def record? (l : Ledger) (types : TypeTable) (n : Nat) : Option (TypeId × Payload) :=
  l.made[n]?.filter fun e => types.finalizes e.1

end Ledger

/-- The ledger after an operation on a heap. The objects of a pair's halves are roots while its cell
    is taken, and the cell may be one that has just been freed. -/
def Operation.note (op : Operation) (h : Heap) (l : Ledger) : Ledger :=
  match op with
  | .cons x y =>
    match takeCell (h.rooting x y) with
    | .ok _ g => l.bury (h.ended g)
    | .error _ _ => l
  | .make t p =>
    match takeCell h with
    | .ok a g => (l.bury (h.ended g)).enter a t p
    | .error _ _ => l
  | .collect scanRoots =>
    match Heap.collect scanRoots h with
    | .ok _ g => l.bury (h.ended g)
    | .error _ _ => l
  | _ => l

/-- The values that a collection during an operation starts from; the halves of a pair come on
    top of them. -/
def Operation.scanned (op : Operation) (h : Heap) : List Value :=
  match op with
  | .collect scanRoots => h.rootValues scanRoots
  | _ => h.rootValues true

/-- What an operation makes an object of. -/
def Operation.object? : Operation → Option (TypeId × Payload)
  | .make t p => some (t, p)
  | _ => none

/-- What the objects of a history were made of, the oldest first. -/
def madeIn (ops : List Operation) : List (TypeId × Payload) :=
  (ops.filterMap Operation.object?).reverse

/-- The heaps that operations make of a fresh one, with the ledger of their objects. -/
inductive Chronicle (cfg : Config) : List Operation → Heap → Ledger → Prop where
  | create {h : Heap} (hc : create cfg = .ok h) : Chronicle cfg [] h .empty
  | perform {ops : List Operation} {h h' : Heap} {l : Ledger} (hc : Chronicle cfg ops h l)
      (op : Operation) (hop : op.perform h = .ok () h') :
      Chronicle cfg (op :: ops) h' (op.note h l)

variable {cfg : Config} {ops : List Operation} {h h' g : Heap} {l : Ledger} {a b n : Nat}

theorem Chronicle.arises (hc : Chronicle cfg ops h l) : Arises cfg ops h := by
  induction hc with
  | create hc => exact .create hc
  | perform _ op hop ih => exact .perform ih op hop

/-- Every history has its ledger. -/
theorem Arises.chronicle (ha : Arises cfg ops h) : ∃ l, Chronicle cfg ops h l := by
  induction ha with
  | create hc => exact ⟨_, .create hc⟩
  | perform _ op hop ih =>
    obtain ⟨l, hl⟩ := ih
    exact ⟨_, .perform hl op hop⟩

/-! ## 2. A ledger that agrees with a heap -/

/-- **The ledger agrees with the heap.** -/
structure Accounted (h : Heap) (l : Ledger) : Prop where
  registered : ∀ e ∈ l.made, h.types.isRegistered e.1 = true
  /-- A cell where an object lives holds what the object was made with. -/
  content : ∀ a n, l.tenant a = some n →
    ∃ t p, l.made[n]? = some (t, p) ∧ h.cells[a]? = some (.object t p)
  /-- In a cell that holds an object there lives one. -/
  housed : ∀ (a : Addr) (t : TypeId) (p : Payload), h.cells[a]? = some (.object t p) →
    ∃ n, l.tenant a = some n
  /-- No object lives in two cells. -/
  once : ∀ a b n, l.tenant a = some n → l.tenant b = some n → a = b
  /-- No object ends twice. -/
  nodup : l.ended.Nodup
  /-- An object that lives somewhere has not ended. -/
  alive : ∀ a n, l.tenant a = some n → n ∉ l.ended
  /-- Any other object has. -/
  complete : ∀ n, n < l.made.length → n ∈ l.ended ∨ ∃ a, l.tenant a = some n
  bound : ∀ n ∈ l.ended, n < l.made.length
  reclaimed : h.reclaimed = (l.ended.filterMap (l.record? h.types)).reverse

theorem accounted_create (hc : create cfg = .ok h) : Accounted h .empty := by
  obtain ⟨rfl, hl⟩ := create_eq hc
  refine ⟨nofun, nofun, fun a t p ha => ?_, nofun, List.nodup_nil, nofun, nofun, nofun, rfl⟩
  -- the cells of a fresh heap are free
  have hnone : (bare cfg).withChunk.isAllocated a = true := isAllocated_iff.mpr ⟨_, ha, rfl⟩
  have hlt := lt_size_of_isAllocated hnone
  have hdiv := hl.withChunk.div_lt hlt
  rw [chunkCount_withChunk] at hdiv
  rw [(isFree_withChunk hl (Nat.lt_one_iff.mp hdiv)).not_isAllocated] at hnone
  cases hnone

theorem Accounted.lt_made (hl : Accounted h l) (ha : l.tenant a = some n) :
    n < l.made.length := by
  obtain ⟨t, p, hn, _⟩ := hl.content a n ha
  exact (List.getElem?_eq_some_iff.mp hn).1

/-! ## 3. Cells that are freed -/

/-- A cell without an object has no tenant. -/
theorem Accounted.tenant_eq_none (hl : Accounted h l)
    (ha : ∀ t p, h.cells[a]? ≠ some (.object t p)) : l.tenant a = none := by
  cases hn : l.tenant a with
  | none => rfl
  | some n =>
    obtain ⟨t, p, _, hcell⟩ := hl.content a n hn
    exact absurd hcell (ha t p)

/-- The record of a cell is that of the object which lives there. -/
theorem Accounted.record?_eq (hl : Accounted h l) :
    (fun a => (l.tenant a).bind (l.record? h.types)) = h.record? := by
  funext a
  cases hn : l.tenant a with
  | some n =>
    obtain ⟨t, p, hmade, hcell⟩ := hl.content a n hn
    rw [Option.bind_some, Ledger.record?, hmade, Heap.record?, hcell]
    rfl
  | none =>
    rw [Option.bind_none, Heap.record?]
    split
    · rename_i t p hcell
      obtain ⟨n, hn'⟩ := hl.housed a t p hcell
      rw [hn] at hn'
      cases hn'
    · rfl

/-- **Freeing cells** ends the objects that live there. -/
theorem Accounted.bury (hl : Accounted h l) (ht : g.types = h.types)
    (hk : ∀ b, g.isAllocated b = true → h.isAllocated b = true ∧ g.cells[b]? = h.cells[b]?)
    (hr : g.reclaimed = ((h.ended g).filterMap h.record?).reverse ++ h.reclaimed) :
    Accounted g (l.bury (h.ended g)) := by
  have hobj : ∀ {b n}, l.tenant b = some n → h.isAllocated b = true := by
    intro b n hn
    obtain ⟨t, p, _, hcell⟩ := hl.content b n hn
    exact isAllocated_iff.mpr ⟨_, hcell, rfl⟩
  have htenant : ∀ {b n}, (l.bury (h.ended g)).tenant b = some n ↔
      g.isAllocated b = true ∧ l.tenant b = some n := by
    intro b n
    show (if b ∈ h.ended g then none else l.tenant b) = some n ↔ _
    split
    · rename_i hb
      rw [(mem_ended.mp hb).2]
      exact iff_of_false nofun (fun e => Bool.false_ne_true e.1)
    · rename_i hb
      refine ⟨fun hn => ⟨?_, hn⟩, And.right⟩
      rw [← Bool.not_eq_false]
      exact fun hnot => hb (mem_ended.mpr ⟨hobj hn, hnot⟩)
  have hended : ∀ {n}, n ∈ (h.ended g).filterMap l.tenant ↔
      ∃ b, b ∈ h.ended g ∧ l.tenant b = some n := List.mem_filterMap
  refine ⟨ht ▸ hl.registered, fun b n hn => ?_, fun b t p hb => ?_, fun b c n hb hc => ?_, ?_,
    fun b n hn => ?_, fun n hn => ?_, fun n hn => ?_, ?_⟩
  · obtain ⟨hal, hn⟩ := htenant.mp hn
    obtain ⟨t, p, hmade, hcell⟩ := hl.content b n hn
    exact ⟨t, p, hmade, (hk b hal).2.trans hcell⟩
  · have hal : g.isAllocated b = true := isAllocated_iff.mpr ⟨_, hb, rfl⟩
    obtain ⟨n, hn⟩ := hl.housed b t p ((hk b hal).2.symm.trans hb)
    exact ⟨n, htenant.mpr ⟨hal, hn⟩⟩
  · exact hl.once b c n (htenant.mp hb).2 (htenant.mp hc).2
  · refine List.nodup_append.mpr ⟨hl.nodup, ?_, fun n hn m hm e => ?_⟩
    · exact (List.nodup_range.filter _).filterMap fun b c n hb hc => hl.once b c n hb hc
    · subst e
      obtain ⟨b, _, hb⟩ := hended.mp hm
      exact hl.alive b n hb hn
  · obtain ⟨hal, hn⟩ := htenant.mp hn
    refine fun hmem => (List.mem_append.mp hmem).elim (hl.alive b n hn) fun hmem => ?_
    obtain ⟨c, hc, hcn⟩ := hended.mp hmem
    rw [hl.once b c n hn hcn, (mem_ended.mp hc).2] at hal
    cases hal
  · rcases hl.complete n hn with hend | ⟨b, hb⟩
    · exact .inl (List.mem_append_left _ hend)
    · by_cases hal : g.isAllocated b = true
      · exact .inr ⟨b, htenant.mpr ⟨hal, hb⟩⟩
      · rw [Bool.not_eq_true] at hal
        exact .inl (List.mem_append_right _ (hended.mpr ⟨b, mem_ended.mpr ⟨hobj hb, hal⟩, hb⟩))
  · rcases List.mem_append.mp hn with hn | hn
    · exact hl.bound n hn
    · obtain ⟨b, _, hb⟩ := hended.mp hn
      exact hl.lt_made hb
  · show _ = ((l.ended ++ (h.ended g).filterMap l.tenant).filterMap (l.record? g.types)).reverse
    rw [hr, hl.reclaimed, ht, ← hl.record?_eq, List.filterMap_append, List.filterMap_filterMap,
      List.reverse_append]

/-! ## 4. A cell that is filled -/

/-- What is recorded of an object does not depend on those made after it. -/
theorem Accounted.filterMap_record? (hl : Accounted h l) {made : List (TypeId × Payload)}
    {types : TypeTable} (hm : ∀ n, n < l.made.length → made[n]? = l.made[n]?)
    (ht : ∀ t, h.types.isRegistered t = true → types.finalizes t = h.types.finalizes t) :
    l.ended.filterMap (Ledger.record? { l with made } types) =
      l.ended.filterMap (l.record? h.types) := by
  refine List.filterMap_congr fun n hn => ?_
  have hlt := hl.bound n hn
  show made[n]?.filter _ = l.made[n]?.filter _
  rw [hm n hlt, List.getElem?_eq_getElem hlt, Option.filter_some, Option.filter_some,
    ht _ (hl.registered _ (List.getElem_mem hlt))]

/-- **An object is made in a free cell.** -/
theorem Accounted.enter (hl : Accounted h l) (ha : h.IsFree a) {t : TypeId}
    (ht : h.types.isRegistered t = true) (p : Payload) :
    Accounted (h.filled a (.object t p)) (l.enter a t p) := by
  have hnone : l.tenant a = none := by
    obtain ⟨next, hn⟩ := ha
    exact hl.tenant_eq_none fun t p e => by
      rw [hn] at e
      cases e
  have hself : (h.filled a (.object t p)).cells[a]? = some (.object t p) :=
    Array.getElem?_setIfInBounds_self_of_lt ha.lt_size
  have hne : ∀ b : Nat, b ≠ a → (h.filled a (.object t p)).cells[b]? = h.cells[b]? := fun b hb =>
    Array.getElem?_setIfInBounds_ne (Ne.symm hb)
  have hold : ∀ n : Nat, n < l.made.length → (l.made ++ [(t, p)])[n]? = l.made[n]? := fun n hn =>
    List.getElem?_append_left hn
  have htenant : ∀ {b n}, (l.enter a t p).tenant b = some n →
      (b = a ∧ n = l.made.length) ∨ (b ≠ a ∧ l.tenant b = some n) := by
    intro b n hn
    replace hn : (if b = a then some l.made.length else l.tenant b) = some n := hn
    split at hn
    · exact .inl ⟨‹_›, (Option.some.inj hn).symm⟩
    · exact .inr ⟨‹_›, hn⟩
  have hkeep : ∀ {b n}, l.tenant b = some n → (l.enter a t p).tenant b = some n := by
    intro b n hn
    have hb : b ≠ a := fun e => by
      rw [e, hnone] at hn
      cases hn
    show (if b = a then some l.made.length else l.tenant b) = some n
    rw [if_neg hb, hn]
  refine ⟨fun e he => ?_, fun b n hn => ?_, fun b t' p' hb => ?_, fun b c n hb hc => ?_, hl.nodup,
    fun b n hn => ?_, fun n hn => ?_, fun n hn => ?_, ?_⟩
  · rcases List.mem_append.mp he with he | he
    · exact hl.registered e he
    · rw [List.mem_singleton.mp he]
      exact ht
  · rcases htenant hn with ⟨rfl, rfl⟩ | ⟨hb, hn⟩
    · exact ⟨t, p, List.getElem?_concat_length, hself⟩
    · obtain ⟨t', p', hmade, hcell⟩ := hl.content b n hn
      exact ⟨t', p', (hold n (hl.lt_made hn)).trans hmade, (hne b hb).trans hcell⟩
  · by_cases hba : b = a
    · exact ⟨l.made.length, if_pos hba⟩
    · obtain ⟨n, hn⟩ := hl.housed b t' p' ((hne b hba).symm.trans hb)
      exact ⟨n, hkeep hn⟩
  · rcases htenant hb with ⟨rfl, rfl⟩ | ⟨_, hb'⟩ <;> rcases htenant hc with ⟨rfl, hn⟩ | ⟨_, hc'⟩
    · rfl
    · exact absurd (hl.lt_made hc') (Nat.lt_irrefl _)
    · exact absurd (hn ▸ hl.lt_made hb') (Nat.lt_irrefl _)
    · exact hl.once b c n hb' hc'
  · rcases htenant hn with ⟨rfl, rfl⟩ | ⟨_, hn⟩
    · exact fun hmem => absurd (hl.bound _ hmem) (Nat.lt_irrefl _)
    · exact hl.alive b n hn
  · replace hn : n < (l.made ++ [(t, p)]).length := hn
    rw [List.length_append, List.length_singleton] at hn
    rcases Nat.lt_succ_iff_lt_or_eq.mp hn with hn | rfl
    · rcases hl.complete n hn with hend | ⟨b, hb⟩
      · exact .inl hend
      · exact .inr ⟨b, hkeep hb⟩
    · exact .inr ⟨a, if_pos rfl⟩
  · show n < (l.made ++ [(t, p)]).length
    rw [List.length_append]
    exact Nat.lt_add_right _ (hl.bound n hn)
  · show h.reclaimed = _
    rw [hl.reclaimed]
    exact congrArg List.reverse (hl.filterMap_record? hold fun _ _ => rfl).symm

/-- A change that leaves every object where it is leaves the ledger in order. -/
theorem Accounted.congr (hl : Accounted h l)
    (hc : ∀ (a : Addr) (t : TypeId) (p : Payload),
      h'.cells[a]? = some (.object t p) ↔ h.cells[a]? = some (.object t p))
    (ht : h'.types = h.types) (hr : h'.reclaimed = h.reclaimed) : Accounted h' l := by
  refine ⟨ht ▸ hl.registered, fun a n hn => ?_, fun a t p ha => hl.housed a t p ((hc a t p).mp ha),
    hl.once, hl.nodup, hl.alive, hl.complete, hl.bound, by rw [hr, ht, hl.reclaimed]⟩
  obtain ⟨t, p, hmade, hcell⟩ := hl.content a n hn
  exact ⟨t, p, hmade, (hc a t p).mpr hcell⟩

/-- A pair is made in a free cell. -/
theorem Accounted.filled_pair (hl : Accounted h l) (ha : h.IsFree a) (x y : Value) :
    Accounted (h.filled a (.pair x y)) l := by
  refine hl.congr (fun b t p => ?_) rfl rfl
  show (h.cells.setIfInBounds a (.pair x y))[b]? = _ ↔ _
  by_cases hab : a = b
  · subst hab
    obtain ⟨next, hn⟩ := ha
    rw [Array.getElem?_setIfInBounds_self_of_lt (IsFree.lt_size ⟨next, hn⟩), hn]
    exact iff_of_false nofun nofun
  · rw [Array.getElem?_setIfInBounds_ne hab]

/-- Writing a slot leaves objects alone. -/
theorem Accounted.write (hl : Accounted h l) {f : Cell → Cell}
    (hf : ∀ c t p, f c = .object t p ↔ c = .object t p) :
    Accounted { h with cells := h.cells.modify a f } l := by
  refine hl.congr (fun b t p => ?_) rfl rfl
  show (h.cells.modify a f)[b]? = _ ↔ _
  rw [getElem?_modify_cells]
  split
  · rw [Option.map_eq_some_iff]
    constructor
    · rintro ⟨c, hc, hfc⟩
      rw [hc, (hf c t p).mp hfc]
    · exact fun hc => ⟨_, hc, (hf _ t p).mpr rfl⟩
  · exact Iff.rfl

/-- What a type asks for does not change when others are registered. -/
theorem finalizes_register {types : TypeTable} {t : TypeId} (entry : TypeEntry)
    (ht : types.isRegistered t = true) :
    (types.register entry).2.finalizes t = types.finalizes t := by
  have hlt : t < types.entries.size := of_decide_eq_true ht
  show ((types.entries.push entry)[t]?.map _).getD false = _
  rw [Array.getElem?_push_lt hlt, TypeTable.finalizes, Array.getElem?_eq_getElem hlt]

theorem Accounted.register (hl : Accounted h l) (entry : TypeEntry) :
    Accounted { h with types := (h.types.register entry).2 } l := by
  refine ⟨fun e he => ?_, hl.content, hl.housed, hl.once, hl.nodup, hl.alive, hl.complete,
    hl.bound, ?_⟩
  · refine decide_eq_true (?_ : e.1 < (h.types.entries.push entry).size)
    rw [Array.size_push]
    exact Nat.lt_succ_of_lt (of_decide_eq_true (hl.registered e he))
  · show h.reclaimed = _
    rw [hl.reclaimed]
    exact congrArg List.reverse
      (hl.filterMap_record? (fun _ _ => rfl) fun t ht => finalizes_register entry ht).symm

/-! ## 5. One operation -/

/-- **What one operation does to a ledger that agrees.** -/
theorem Operation.accounted {op : Operation} (hv : h.Valid) (hl : Accounted h l)
    (hop : op.perform h = .ok () h') : Accounted h' (op.note h l) := by
  cases op with
  | cons x y =>
    cases ht : takeCell (h.rooting x y) with
    | ok a g =>
      have htaken := takeCell_ok (hv.rooting x y) ht
      rw [perform, run_bind (cons_of_taken ht (by rw [htaken.frame]))] at hop
      cases hop
      have hroot : Accounted (h.rooting x y) l := hl.congr (fun _ _ _ => Iff.rfl) rfl rfl
      have hg := hroot.bury (by rw [htaken.frame]) htaken.kept htaken.reclaimed
      have hback : Accounted { g with roots := h.roots } (l.bury (h.ended g)) :=
        hg.congr (fun _ _ _ => Iff.rfl) rfl rfl
      rw [note, ht]
      exact hback.filled_pair htaken.isFree x y
    | error e g =>
      rw [perform, run_bind_error (cons_of_fault ht)] at hop
      cases hop
  | make t p =>
    rw [perform] at hop
    by_cases hm : (t != CoreType.nil.id && h.types.isRegistered t) = true
    · cases ht : takeCell h with
      | ok a g =>
        have htaken := takeCell_ok hv ht
        have hrun : Heap.make t p h = .ok (.object a) (g.filled a (.object t p)) := by
          rw [make_run, if_pos hm, ht]
        rw [run_bind hrun] at hop
        cases hop
        have hg := hl.bury (by rw [htaken.frame]) htaken.kept htaken.reclaimed
        have hreg : g.types.isRegistered t = true := by
          rw [htaken.frame]
          exact (Bool.and_eq_true_iff.mp hm).2
        rw [note, ht]
        exact hg.enter htaken.isFree hreg p
      | error e g =>
        have hrun : Heap.make t p h = .error e g := by
          rw [make_run, if_pos hm, ht]
        rw [run_bind_error hrun] at hop
        cases hop
    · have hrun : Heap.make t p h = .error (.badType t) h := by
        rw [make_run, if_neg hm]
      rw [run_bind_error hrun] at hop
      cases hop
  | setCar v x =>
    cases v <;> cases hop
    refine hl.write fun c t p => ?_
    cases c with
    | pair => exact iff_of_false (by rintro ⟨⟩) (by rintro ⟨⟩)
    | _ => exact Iff.rfl
  | setCdr v y =>
    cases v <;> cases hop
    refine hl.write fun c t p => ?_
    cases c with
    | pair => exact iff_of_false (by rintro ⟨⟩) (by rintro ⟨⟩)
    | _ => exact Iff.rfl
  | pin v =>
    cases hop
    show Accounted (if v ∈ h.pins then h else { h with pins := v :: h.pins }) l
    split
    · exact hl
    · exact hl.congr (fun _ _ _ => Iff.rfl) rfl rfl
  | unpin v =>
    cases hop
    exact hl.congr (fun _ _ _ => Iff.rfl) rfl rfl
  | pushRoot v =>
    cases hop
    exact hl.congr (fun _ _ _ => Iff.rfl) rfl rfl
  | setRoot slot v =>
    obtain ⟨-, rfl⟩ := setRoot_eq_ok.mp hop
    exact hl.congr (fun _ _ _ => Iff.rfl) rfl rfl
  | popRoots base =>
    obtain ⟨-, rfl⟩ := popRoots_eq_ok.mp hop
    exact hl.congr (fun _ _ _ => Iff.rfl) rfl rfl
  | registerType entry =>
    cases hop
    exact hl.register entry
  | collect scanRoots =>
    obtain ⟨n, g, hrun, hc⟩ := collect_spec hv scanRoots
    rw [perform, run_bind hrun] at hop
    cases hop
    rw [note, hrun]
    refine hl.bury (by rw [hc.frame]) (fun b hb => ?_) hc.reclaimed
    exact ⟨((hc.isAllocated_iff b).mp hb).1, hc.kept b hb⟩
  | rehold holdings =>
    cases hop
    exact hl.congr (fun _ _ _ => Iff.rfl) rfl rfl

theorem Chronicle.accounted (hc : Chronicle cfg ops h l) : Accounted h l := by
  induction hc with
  | create hc => exact accounted_create hc
  | perform hc op hop ih => exact Operation.accounted hc.arises.kept.valid ih hop

theorem mem_ended_bury {dead : List Addr} (hn : n ∈ (l.bury dead).ended) (hl : n ∉ l.ended) :
    ∃ a ∈ dead, l.tenant a = some n :=
  List.mem_filterMap.mp ((List.mem_append.mp hn).resolve_left hl)

/-- **An object that ends could not be reached** from what the collection started from. -/
theorem Operation.not_reaches {op : Operation} (hv : h.Valid)
    (hn : n ∈ (op.note h l).ended) (hnot : n ∉ l.ended) :
    ∃ a, l.tenant a = some n ∧ ¬ h.Reaches (op.scanned h) a := by
  have htaken : ∀ {k c g}, k.Valid → k.cells = h.cells → takeCell k = .ok c g →
      n ∈ (l.bury (h.ended g)).ended →
      ∃ a, l.tenant a = some n ∧ ¬ k.Reaches (k.rootValues true) a := by
    intro k c g hk hcells ht hmem
    obtain ⟨a, ha, hla⟩ := mem_ended_bury hmem hnot
    refine ⟨a, hla, fun hr => ?_⟩
    obtain ⟨hal, hend⟩ := mem_ended.mp ha
    have hal' : k.isAllocated a = true := by rwa [isAllocated, hcells]
    rw [(takeCell_ok hk ht).survives a hal' hr] at hend
    cases hend
  cases op with
  | cons x y =>
    rw [note] at hn
    split at hn
    · rename_i ht
      obtain ⟨a, ha, hr⟩ := htaken (hv.rooting x y) rfl ht hn
      refine ⟨a, ha, fun hr' => hr ?_⟩
      rw [rootValues_rooting]
      exact hr'.congr (fun v hv => List.mem_append_left _ hv) rfl rfl rfl
    · exact absurd hn hnot
  | make t p =>
    rw [note] at hn
    split at hn
    · rename_i ht
      exact htaken hv rfl ht hn
    · exact absurd hn hnot
  | collect scanRoots =>
    obtain ⟨m, g, hrun, hc⟩ := collect_spec hv scanRoots
    rw [note, hrun] at hn
    obtain ⟨a, ha, hla⟩ := mem_ended_bury hn hnot
    refine ⟨a, hla, fun hr => ?_⟩
    obtain ⟨hal, hend⟩ := mem_ended.mp ha
    rw [(hc.isAllocated_iff a).mpr ⟨hal, hr⟩] at hend
    cases hend
  | _ => exact absurd hn hnot

/-! ## 6. The end of a heap -/

/-- What happens at the end of a heap, the last operation in front: the root stack is cut, what is
    not pinned goes, the pins are removed, and everything goes. -/
def closing (h : Heap) : List Operation :=
  .collect false :: ((h.pins.map .unpin).reverse ++ [.collect false, .popRoots 0])

theorem Chronicle.unpin_all {pins : List Value} (hc : Chronicle cfg ops h l) (hp : h.pins = pins) :
    Chronicle cfg ((pins.map .unpin).reverse ++ ops) { h with pins := [] } l := by
  induction pins generalizing ops h with
  | nil =>
    have hsame : { h with pins := [] } = h := by rw [← hp]
    rw [hsame]
    exact hc
  | cons p pins ih =>
    have hstep : Chronicle cfg (.unpin p :: ops) { h with pins := h.pins.erase p } l :=
      .perform hc (.unpin p) rfl
    rw [hp, List.erase_cons_head] at hstep
    have hrest := ih hstep rfl
    rw [List.map_cons, List.reverse_cons, List.append_assoc]
    exact hrest

/-- **The end of a heap** comes, as these operations, and leaves no cell allocated. -/
theorem Chronicle.shutdown (hc : Chronicle cfg ops h l) :
    ∃ h' l', Heap.shutdown h = .ok () h' ∧ Chronicle cfg (closing h ++ ops) h' l' ∧
      (∀ a, h'.isAllocated a = false) := by
  have hcut : Chronicle cfg (.popRoots 0 :: ops) { h with roots := #[] } l := by
    refine .perform hc (.popRoots 0) ?_
    rw [Operation.perform, popRoots, if_pos (Nat.zero_le _), Array.shrink_eq_take]
    simp
  obtain ⟨n, g, hrun, hcol⟩ := collect_spec hcut.arises.kept.valid false
  have hfirst : Chronicle cfg (.collect false :: .popRoots 0 :: ops) g _ :=
    .perform hcut _ (by rw [Operation.perform, run_bind hrun]; rfl)
  have hpins : g.pins = h.pins := by rw [hcol.frame]
  have hnone := hfirst.unpin_all hpins
  obtain ⟨m, h', hrun', hcol'⟩ := collect_spec hnone.arises.kept.valid false
  have hlast : Chronicle cfg (.collect false :: (_ ++ _)) h' _ :=
    .perform hnone _ (by rw [Operation.perform, run_bind hrun']; rfl)
  have hops : closing h ++ ops = .collect false ::
      ((h.pins.map .unpin).reverse ++ .collect false :: .popRoots 0 :: ops) := by
    rw [closing, List.cons_append, List.append_assoc]
    rfl
  refine ⟨h', _, ?_, hops ▸ hlast, fun a => ?_⟩
  · rw [Heap.shutdown, run_bind (run_modify _ h), run_bind hrun, run_bind (run_modify _ g),
      run_bind hrun']
    rfl
  · rw [← Bool.not_eq_true, hcol'.isAllocated_iff a]
    rintro ⟨_, hr⟩
    -- there are no roots
    have hnever : ∀ b, ¬ { g with pins := [] }.Reaches [] b := by
      intro b hb
      induction hb with
      | root hv => cases hv
      | step _ _ ih => exact ih
    exact hnever a hr

/-! ## 7. Exactly once -/

theorem Operation.note_made {op : Operation} (hop : op.perform h = .ok () h') :
    (op.note h l).made = l.made ++ op.object?.toList := by
  cases op with
  | make t p =>
    rw [perform] at hop
    cases ht : takeCell h with
    | ok a g =>
      rw [note, ht]
      rfl
    | error e g =>
      have hrun : ∃ e' g', Heap.make t p h = .error e' g' := by
        rw [make_run, ht]
        split
        · exact ⟨_, _, rfl⟩
        · exact ⟨_, _, rfl⟩
      obtain ⟨e', g', hrun⟩ := hrun
      rw [run_bind_error hrun] at hop
      cases hop
  | cons x y =>
    rw [note]
    split <;> exact (List.append_nil _).symm
  | collect scanRoots =>
    rw [note]
    split <;> exact (List.append_nil _).symm
  | _ => exact (List.append_nil _).symm

/-- The ledger knows the objects of the history. -/
theorem Chronicle.made_eq (hc : Chronicle cfg ops h l) : l.made = madeIn ops := by
  induction hc with
  | create _ => rfl
  | perform _ op hop ih =>
    rw [Operation.note_made hop, ih, madeIn, madeIn, List.filterMap_cons]
    cases op.object? <;> simp

theorem madeIn_closing : madeIn (closing h ++ ops) = madeIn ops := by
  have hnone : ∀ op ∈ closing h, op.object? = none := by
    intro op hop
    simp only [closing, List.mem_cons, List.mem_append, List.mem_reverse, List.mem_map,
      List.not_mem_nil, or_false] at hop
    rcases hop with rfl | ⟨v, _, rfl⟩ | rfl | rfl <;> rfl
  rw [madeIn, List.filterMap_append, List.filterMap_eq_nil_iff.mpr hnone, List.nil_append]
  rfl

/-- The records of all objects made are what was made of types that ask for a record. -/
theorem filterMap_record?_range (l : Ledger) (types : TypeTable) :
    (List.range l.made.length).filterMap (l.record? types) =
      l.made.filter fun e => types.finalizes e.1 := by
  have hrun : ∀ k, k ≤ l.made.length → (List.range k).filterMap (l.record? types) =
      (l.made.take k).filter fun e => types.finalizes e.1 := by
    intro k
    induction k with
    | zero => exact fun _ => rfl
    | succ k ih =>
      intro hk
      rw [List.range_succ, List.filterMap_append, ih (Nat.le_of_succ_le hk), List.take_add_one,
        List.filter_append, List.getElem?_eq_getElem hk, List.append_cancel_left_eq,
        List.filterMap_cons, List.filterMap_nil, Ledger.record?, List.getElem?_eq_getElem hk,
        Option.filter_some, Option.toList_some, List.filter_singleton]
      cases types.finalizes l.made[k].1 <;> rfl
  rw [hrun _ (Nat.le_refl _), List.take_length]

/-- **Every object ends exactly once.** All through a history, an object that has been made lives in
    one cell, with the type and payload it was made with, or has ended once; what is recorded is the
    list of those that have ended. An object that ends in an operation could not be reached from what
    the operation scans. At the end of the heap all objects have ended, so that the record holds, once
    for each object whose type asks for it, what it was made with. -/
theorem Chronicle.finalized (hc : Chronicle cfg ops h l) :
    l.made = madeIn ops ∧
    (∀ a n, l.tenant a = some n → n ∉ l.ended ∧
      ∃ t p, l.made[n]? = some (t, p) ∧ h.cells[a]? = some (.object t p)) ∧
    (∀ (a : Addr) (t : TypeId) (p : Payload), h.cells[a]? = some (.object t p) →
      ∃ n, l.tenant a = some n) ∧
    (∀ a b n, l.tenant a = some n → l.tenant b = some n → a = b) ∧
    (∀ n, n < l.made.length ↔ n ∈ l.ended ∨ ∃ a, l.tenant a = some n) ∧
    l.ended.Nodup ∧ h.reclaimed.reverse = l.ended.filterMap (l.record? h.types) ∧
    (∀ (op : Operation) (h' : Heap), op.perform h = .ok () h' → ∀ n ∈ (op.note h l).ended, n ∉ l.ended →
      ∃ a, l.tenant a = some n ∧ ¬ h.Reaches (op.scanned h) a) ∧
    ∃ h' l', Heap.shutdown h = .ok () h' ∧ Chronicle cfg (closing h ++ ops) h' l' ∧
      l'.made = l.made ∧ l'.ended.Perm (List.range l.made.length) ∧
      h'.reclaimed.reverse = l'.ended.filterMap (l'.record? h'.types) ∧
      h'.reclaimed.Perm ((madeIn ops).filter fun e => h'.types.finalizes e.1) := by
  have hl := hc.accounted
  have hv := hc.arises.kept.valid
  have hrec : ∀ {g k}, Accounted g k → g.reclaimed.reverse = k.ended.filterMap (k.record? g.types) :=
    fun hk => by rw [hk.reclaimed, List.reverse_reverse]
  refine ⟨hc.made_eq, fun a n hn => ⟨hl.alive a n hn, hl.content a n hn⟩, hl.housed, hl.once,
    fun n => ⟨hl.complete n, fun hn => ?_⟩, hl.nodup, hrec hl,
    fun op h' _ n hn hnot => Operation.not_reaches hv hn hnot, ?_⟩
  · rcases hn with hn | ⟨a, ha⟩
    · exact hl.bound n hn
    · exact hl.lt_made ha
  · obtain ⟨h', l', hrun, hc', hfree⟩ := hc.shutdown
    have hl' := hc'.accounted
    have hmade : l'.made = l.made := by rw [hc'.made_eq, madeIn_closing, hc.made_eq]
    have hall : l'.ended.Perm (List.range l'.made.length) := by
      refine (List.perm_ext_iff_of_nodup hl'.nodup List.nodup_range).mpr fun n => ?_
      rw [List.mem_range]
      refine ⟨hl'.bound n, fun hn => (hl'.complete n hn).resolve_right ?_⟩
      rintro ⟨a, ha⟩
      obtain ⟨t, p, _, hcell⟩ := hl'.content a n ha
      have hal : h'.isAllocated a = true := isAllocated_iff.mpr ⟨_, hcell, rfl⟩
      rw [hfree a] at hal
      cases hal
    refine ⟨h', l', hrun, hc', hmade, hmade ▸ hall, hrec hl', ?_⟩
    rw [← hc.made_eq, ← hmade, ← filterMap_record?_range, hl'.reclaimed]
    exact (List.reverse_perm _).trans (hall.filterMap _)

/-- A heap of one cell, in which a string was made after another. -/
def secondString : Heap :=
  { chunkCells := 1
    growth := .fixed
    cells := #[.object CoreType.str.id (.word 2)]
    chunks := #[{ head := none, freeCount := 0 }]
    cursor := 0
    pins := []
    roots := #[]
    types := .core
    holdings := .none
    stats := { collections := 1, lastFreed := 1, totalFreed := 1, live := 0, chunks := 1 }
    reclaimed := [(CoreType.str.id, .word 1)] }

/-- The end of either string is recorded once, though they had one cell. -/
theorem finalized_secondString : ∃ h', Heap.shutdown secondString = .ok () h' ∧
    h'.reclaimed.Perm [(CoreType.str.id, .word 1), (CoreType.str.id, .word 2)] := by
  have hc : Chronicle { chunkCells := 1, growth := .fixed }
      [.make CoreType.str.id (.word 2), .make CoreType.str.id (.word 1)] secondString _ :=
    .perform (.perform (.create rfl) _ rfl) _ (by with_unfolding_all rfl)
  obtain ⟨_, _, _, _, _, _, _, _, h', _, hrun, _, _, _, _, hperm⟩ := hc.finalized
  have hend : Heap.shutdown secondString = .ok () { secondString with
      cells := #[.free none]
      chunks := #[{ head := some 0, freeCount := 1 }]
      stats := { collections := 3, lastFreed := 0, totalFreed := 2, live := 0, chunks := 1 }
      reclaimed := [(CoreType.str.id, .word 2), (CoreType.str.id, .word 1)] } := by
    with_unfolding_all rfl
  rw [hrun] at hend
  cases hend
  exact ⟨_, hrun, hperm⟩

end LispMachine.Heap
