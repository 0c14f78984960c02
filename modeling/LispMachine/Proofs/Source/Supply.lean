import LispMachine.Proofs.Heap.Exhaustion
import LispMachine.Proofs.Source.FirstError
import LispMachine.Session

/-!
# Enough cells for a text

A cell is taken for each pair and each string of what is read, so that two cells for each character of
the text are enough:

* `Heap.Stocked` -- so many cells may still be taken, even if nothing is ever freed;
* `Spends` -- an action takes no more cells than there are, and leaves as many as its result says. That
  is a **potential**: what is unfinished keeps the cells that it will take (`Reader.owed`);
* `Spends.readFrom`, `Spends.read` -- **two cells for each character** are enough, and two are left for each
  one that is left, after an error, too;
* `Reader.exists_reads_firstError` -- for every text **there is a context in which it is read to its first
  error or to its end**.
-/

namespace LispMachine

/-! ## 1. Cells in stock -/

namespace Heap

variable {h h' : Heap} {m n : Nat}

/-- `n` more cells may be taken: all that have been taken so far, and these, are no more than there
    are. -/
def Stocked (n : Nat) (h : Heap) : Prop := ∃ taken, Kept taken h ∧ taken + n ≤ h.cells.size

theorem Stocked.le (hs : h.Stocked n) (hmn : m ≤ n) : h.Stocked m := by
  obtain ⟨taken, hkept, hle⟩ := hs
  exact ⟨taken, hkept, by omega⟩

theorem size_le_of_resized (hv : h.Valid) (hv' : h'.Valid) (hr : Resized h h') :
    h.cells.size ≤ h'.cells.size := by
  rw [hv.size, hv'.size, capacity, capacity, hr.chunkCells]
  refine Nat.mul_le_mul_right _ ?_
  rcases hr.chunkCount with hsame | ⟨-, -, hmore⟩ <;> omega

/-- An operation takes the cells of what it makes, -/
theorem Stocked.perform {op : Operation} (hs : h.Stocked (op.births + n))
    (hop : op.perform h = .ok () h') : h'.Stocked n := by
  obtain ⟨taken, hkept, hle⟩ := hs
  have hsize := size_le_of_resized hkept.valid (op.valid hkept.valid hop) (op.resized hkept.valid hop)
  exact ⟨taken + op.births, op.kept hkept hop, by omega⟩

theorem Stocked.inUse_ne (hs : h.Stocked (n + 1)) (vs : List Value) : h.inUse vs ≠ h.capacity := by
  obtain ⟨taken, hkept, hle⟩ := hs
  have huse := h.inUse_le_allocatedCount vs
  have hbirths := hkept.births
  rw [← hkept.valid.size]
  omega

/-- and there are enough of them. -/
theorem Stocked.ne_exhausted (op : Operation) (hs : h.Stocked (op.births + n)) :
    op.perform h ≠ .error .heapExhausted h' := by
  intro hop
  cases op with
  | cons x y =>
    have hone : h.Stocked (n + 1) := hs.le (by rw [Operation.births]; omega)
    obtain ⟨taken, hkept, -⟩ := hs
    rcases cons_cases hkept.valid x y with ⟨a, g, -, hrun⟩ | ⟨g, hrun⟩
    · rw [Operation.perform, run_bind hrun] at hop
      cases hop
    · exact hone.inUse_ne _ ((cons_exhausted_iff hkept.valid x y).mp ⟨g, hrun⟩).1
  | make t p =>
    have hone : h.Stocked (n + 1) := hs.le (by rw [Operation.births]; omega)
    obtain ⟨taken, hkept, -⟩ := hs
    rcases make_cases hkept.valid t p with ⟨-, a, g, -, hrun⟩ | ⟨hm, g, hrun⟩ | ⟨-, hrun⟩
    · rw [Operation.perform, run_bind hrun] at hop
      cases hop
    · exact hone.inUse_ne _ ((make_exhausted_iff hkept.valid hm p).mp ⟨g, hrun⟩).1
    · rw [Operation.perform, run_bind_error hrun] at hop
      cases hop
  | setCar v x => cases v <;> cases hop
  | setCdr v y => cases v <;> cases hop
  | setRoot slot v =>
    rw [Operation.perform, setRoot] at hop
    split at hop <;> cases hop
  | popRoots base =>
    rw [Operation.perform, popRoots] at hop
    split at hop <;> cases hop
  | pin | unpin | pushRoot | registerType | collect | rehold => cases hop

end Heap

/-! ## 2. What actions spend -/

/-- **With `n` cells in stock the action does not exhaust the heap**, and as many are left as its result
    says; what is in stock besides stays there. -/
def Spends {α : Type} (n : Nat) (x : Run α) (left : α → Nat) : Prop :=
  ∀ c k, c.heap.Stocked (n + k) → match x c with
    | .ok a c' => c'.heap.Stocked (left a + k)
    | .error e _ => e ≠ .heapExhausted

namespace Spends

variable {α β : Type} {x : Run α} {f : α → Run β} {m n k : Nat} {left left' : α → Nat} {kept : β → Nat}

theorem pure {a : α} (h : left a ≤ n) : Spends n (Pure.pure a) left :=
  fun _ _ hs => hs.le (Nat.add_le_add_right h _)

theorem bind (hx : Spends n x left) (hf : ∀ a, Spends (left a) (f a) kept) : Spends n (x >>= f) kept := by
  intro c k hs
  have hx := hx c k hs
  cases hrun : x c with
  | ok a c' =>
    rw [hrun] at hx
    rw [run_bind hrun]
    exact hf a c' k hx
  | error e c' =>
    rw [hrun] at hx
    rw [run_bind_error hrun]
    exact hx

theorem weaken (hx : Spends m x left) (hmn : m ≤ n) (hleft : ∀ a, left' a ≤ left a) :
    Spends n x left' := by
  intro c k hs
  have hx := hx c k (hs.le (by omega))
  cases hrun : x c with
  | ok a c' =>
    rw [hrun] at hx
    exact hx.le (Nat.add_le_add_right (hleft a) k)
  | error e c' =>
    rw [hrun] at hx
    exact hx

theorem ite {p : Prop} [Decidable p] {y : Run α} (hx : Spends n x left) (hy : Spends n y left) :
    Spends n (if p then x else y) left := by
  split
  · exact hx
  · exact hy

/-- What is in stock besides. -/
theorem frame (hx : Spends n x left) (k : Nat) : Spends (n + k) x fun a => left a + k := by
  intro c k' hs
  have hx := hx c (k + k') (by rwa [← Nat.add_assoc])
  cases hrun : x c with
  | ok a c' =>
    rw [hrun] at hx
    exact hx.le (Nat.add_assoc _ k k').le
  | error e c' =>
    rw [hrun] at hx
    exact hx

/-- An action on the heap. -/
theorem lift {g : HeapM α} (hg : ∀ h k, h.Stocked (n + k) → match g h with
    | .ok a h' => h'.Stocked (left a + k)
    | .error e _ => e ≠ .heapExhausted) : Spends n (liftM g : Run α) left := by
  intro c k hs
  have hg := hg c.heap k hs
  show match Context.onHeap g c with
    | .ok a c' => c'.heap.Stocked (left a + k)
    | .error e _ => e ≠ .heapExhausted
  unfold Context.onHeap
  cases hrun : g c.heap <;>
  · rw [hrun] at hg
    exact hg

theorem operation {g : HeapM α} (op : Heap.Operation) (n : Nat)
    (hop : ∀ h, op.perform h = (g >>= fun _ => Pure.pure ()) h) :
    Spends (n + op.births) (liftM g : Run α) fun _ => n := by
  refine lift fun h k hs => ?_
  have hs : h.Stocked (op.births + (n + k)) := hs.le (by omega)
  cases hrun : g h with
  | ok a h' => exact hs.perform ((hop h).trans (run_bind hrun))
  | error e h' =>
    rintro rfl
    exact hs.ne_exhausted op ((hop h).trans (run_bind_error hrun))

theorem cons (x y : Value) (n : Nat) : Spends (n + 1) (liftM (Heap.cons x y) : Run Value) fun _ => n :=
  operation (.cons x y) n fun _ => rfl

theorem str (bytes : ByteArray) (n : Nat) : Spends (n + 1) (Context.str bytes) fun _ => n :=
  operation (.make CoreType.str.id (.text bytes)) n fun _ => rfl

theorem setCdr (v y : Value) (n : Nat) : Spends n (liftM (Heap.setCdr v y) : Run Unit) fun _ => n :=
  operation (.setCdr v y) n fun h => by
    show Heap.setCdr v y h = _
    rw [bind_pure_unit]

theorem setRoot (slot : Nat) (v : Value) (n : Nat) :
    Spends n (liftM (Heap.setRoot slot v) : Run Unit) fun _ => n :=
  operation (.setRoot slot v) n fun h => by
    show Heap.setRoot slot v h = _
    rw [bind_pure_unit]

theorem popRoots (base n : Nat) : Spends n (liftM (Heap.popRoots base) : Run Unit) fun _ => n :=
  operation (.popRoots base) n fun h => by
    show Heap.popRoots base h = _
    rw [bind_pure_unit]

theorem pushRoot (v : Value) (n : Nat) : Spends n (liftM (Heap.pushRoot v) : Run Nat) fun _ => n :=
  operation (.pushRoot v) n fun _ => rfl

theorem rootBase (n : Nat) : Spends n (liftM Heap.rootBase : Run Nat) fun _ => n := fun _ _ hs => hs

theorem root (slot n : Nat) : Spends n (liftM (Heap.root slot) : Run Value) fun _ => n := by
  refine lift fun h k hs => ?_
  unfold Heap.root
  cases h.roots[slot]? with
  | some v => exact hs
  | none => exact nofun

theorem sym (name : String) (n : Nat) : Spends n (Context.sym name) fun _ => n := by
  have hintern : Spends n (Context.intern name) fun _ => n := by
    intro c k hs
    unfold Context.intern
    cases hrun : c.symbols.intern name with
    | ok p => exact hs
    | error e =>
      rintro rfl
      unfold SymbolTable.intern at hrun
      split at hrun <;> cases hrun
  exact hintern.bind fun _ => .pure le_rfl

end Spends

/-! ## 3. What the reader spends -/

namespace Reader

/-- The cells that unfinished values will take: two for each quotation, and one to hand a list to what
    it is in. -/
def owed : List Nest → Nat
  | [] => 0
  | .quotation :: outer => owed outer + 2
  | .elements _ _ :: outer | .dotted _ _ :: outer | .closing _ :: outer => owed outer + 1

/-- The cells left when a token has been met, one of them for a value that has to be handed over. A token
    that is not used up keeps its cells. -/
def Effect.owed : Effect → Nat
  | .value _ nests => Reader.owed nests + 1
  | .more nests => Reader.owed nests
  | .error _ used => if used then 0 else 2

/-- Two cells for each character that is left, after an error, too. -/
def supply {α : Type} (r : Except ReadError α × List Char) : Nat := 2 * r.2.length

end Reader

namespace Spends

open Reader

theorem quotation (v : Value) (n : Nat) : Spends (n + 2) (Reader.quotation v) fun _ => n := by
  unfold Reader.quotation
  refine (rootBase _).bind fun base => (pushRoot v _).bind fun _ => (cons v .nil (n + 1)).bind fun tail => ?_
  refine (sym "quote" _).bind fun quote => (cons quote tail n).bind fun out => ?_
  exact (popRoots base n).bind fun _ => .pure le_rfl

theorem append (base : Nat) (last v : Value) (n : Nat) :
    Spends (n + 1) (Reader.append base last v) fun _ => n := by
  unfold Reader.append
  refine (cons v .nil n).bind fun cell => ?_
  split
  · exact (setRoot base cell n).bind fun _ => .pure le_rfl
  · exact (setCdr last cell n).bind fun _ => .pure le_rfl

/-- **A value is handed over** with a cell for it and the cells for the quotations around it. -/
theorem deliver (v : Value) (nests : List Nest) :
    Spends (owed nests + 1) (Reader.deliver v nests) fun r => owed r.2 := by
  induction nests generalizing v with
  | nil => exact .pure (Nat.zero_le _)
  | cons nest outer ih =>
    cases nest with
    | quotation => exact ((quotation v (owed outer + 1)).weaken le_rfl fun _ => le_rfl).bind ih
    | elements base last => exact (append base last v (owed outer + 1)).bind fun cell => .pure le_rfl
    | dotted base last =>
      exact ((setCdr last v (owed outer + 1)).weaken (Nat.le_succ _) fun _ => le_rfl).bind fun _ =>
        .pure le_rfl
    | closing base => exact .pure (Nat.le_succ _)

theorem close (base n : Nat) : Spends n (Reader.close base) fun _ => n :=
  (root base n).bind fun _ => (popRoots base n).bind fun _ => .pure le_rfl

theorem atomValue (name : List Char) (n : Nat) : Spends n (Reader.atomValue name) fun _ => n := by
  unfold Reader.atomValue
  split
  · exact .pure le_rfl
  · exact sym _ n

/-- A value that a token gives. -/
theorem valued {x : Run Value} {n k : Nat} {nests : List Nest} (hx : Spends n x fun _ => k)
    (hk : owed nests + 1 ≤ k) :
    Spends n (do return Reader.Effect.value (← x) nests) Effect.owed :=
  hx.bind fun _ => .pure hk

/-- **Two cells are enough for a token**, and for what it begins. -/
theorem meet (nests : List Nest) (token : Token) :
    Spends (owed nests + 2) (Reader.meet nests token) Effect.owed := by
  cases token with
  | opening =>
    exact .ite (.pure (Nat.zero_le _)) ((pushRoot .nil _).bind fun base => .pure (Nat.le_succ _))
  | mark => exact .ite (.pure (Nat.zero_le _)) (.pure le_rfl)
  | closing =>
    match nests with
    | .elements base _ :: outer => exact (close base _).valued (Nat.le_add_right (owed outer + 1) 2)
    | [] | .quotation :: _ | .dotted _ _ :: _ | .closing _ :: _ => exact .pure (Nat.zero_le _)
  | text s => exact (str _ (owed nests + 1)).valued le_rfl
  | unclosedText => exact .pure (Nat.zero_le _)
  | atom name =>
    have hatom : ∀ nests, Spends (owed nests + 2)
        (do return Reader.Effect.value (← Reader.atomValue name) nests) Effect.owed :=
      fun nests => (atomValue name _).valued (Nat.le_succ _)
    match nests with
    | .elements base last :: outer =>
      exact .ite (.ite (.pure (Nat.le_add_left 2 _)) (.pure (Nat.le_add_right _ 2))) (hatom _)
    | [] => exact hatom _
    | .quotation :: _ => exact hatom _
    | .dotted _ _ :: _ => exact hatom _
    | .closing _ :: _ => exact hatom _

theorem effect (nests : List Nest) (token : Token) :
    Spends (owed nests + 2) (Reader.effect nests token) Effect.owed := by
  match nests with
  | .closing base :: outer =>
    cases token with
    | closing => exact (close base _).valued (Nat.le_add_right (owed outer + 1) 2)
    | opening | mark | text | unclosedText | atom => exact .pure (Nat.le_add_left 2 _)
  | [] => exact meet [] token
  | .quotation :: outer => exact meet (.quotation :: outer) token
  | .elements base last :: outer => exact meet (.elements base last :: outer) token
  | .dotted base last :: outer => exact meet (.dotted base last :: outer) token

/-- **Two cells for each character are enough**, and for each one that is left two cells are left. -/
theorem readFrom (nests : List Nest) (src : List Char) :
    Spends (owed nests + 2 * src.length) (Reader.readFrom nests src) supply := by
  induction hlen : src.length using Nat.strongRecOn generalizing nests src with
  | ind len ih =>
    rw [Reader.readFrom]
    split
    · exact .pure (Nat.zero_le _)
    · rename_i token rest hnext
      have hlt : rest.length < len := hlen ▸ Token.length_lt_of_next? hnext
      -- all of the cells but those for the token
      refine (((effect nests token).frame (2 * len - 2)).weaken (by omega) fun _ => le_rfl).bind
        fun e => ?_
      cases e with
      | error e used =>
        refine .pure ?_
        cases used with
        | false => show 2 * src.length ≤ 2 + (2 * len - 2); omega
        | true => show 2 * rest.length ≤ 0 + (2 * len - 2); omega
      | more nests₁ => exact (ih _ hlt nests₁ rest rfl).weaken (Nat.add_le_add_left (by omega) _) fun _ => le_rfl
      | value v nests₁ =>
        refine ((deliver v nests₁).frame (2 * len - 2)).bind fun r => ?_
        obtain ⟨v₂, nests₂⟩ := r
        cases nests₂ with
        | nil => exact .pure (show 2 * rest.length ≤ 0 + (2 * len - 2) by omega)
        | cons nest nests₂ =>
          exact (ih _ hlt (nest :: nests₂) rest rfl).weaken (Nat.add_le_add_left (by omega) _) fun _ => le_rfl

theorem read (src : List Char) : Spends (2 * src.length) (Reader.read src) supply := by
  unfold Reader.read
  split
  · exact .pure (Nat.zero_le _)
  · refine (rootBase _).bind fun base => ((readFrom [] src).weaken (Nat.le_of_eq (Nat.zero_add _)) fun _ => le_rfl).bind
      fun r => ?_
    obtain ⟨r, rest⟩ := r
    cases r with
    | ok v => exact .pure le_rfl
    | error e => exact (popRoots base _).bind fun _ => .pure le_rfl

end Spends

/-! ## 4. Contexts with enough cells -/

namespace Heap

variable {h : Heap}

/-- There are heaps of any size. -/
theorem exists_stocked (n : Nat) : ∃ h : Heap, h.Stocked n ∧ h.IsMakeable CoreType.str.id := by
  -- a fresh heap to which so many chunks are added
  have hgrown : ∃ h : Heap, Kept 0 h ∧ n ≤ h.chunkCount ∧ h.IsMakeable CoreType.str.id := by
    induction n with
    | zero =>
      have hcreate : create { chunkCells := 1, growth := .fixed } = .ok _ := rfl
      exact ⟨_, create_kept hcreate, Nat.zero_le _, by decide, rfl⟩
    | succ n ih =>
      obtain ⟨h, hkept, hle, hmake⟩ := ih
      refine ⟨h.grown, ⟨ValidBut.grown hkept.valid, ?_⟩, ?_, hmake⟩
      · rw [allocatedCount_congr (isAllocated_grown hkept.valid)]
        exact hkept.births
      · show n + 1 ≤ h.withChunk.chunkCount
        rw [chunkCount_withChunk]
        omega
  obtain ⟨h, hkept, hle, hmake⟩ := hgrown
  refine ⟨h, ⟨0, hkept, ?_⟩, hmake⟩
  rw [hkept.valid.size, capacity, Nat.zero_add]
  exact hle.trans (Nat.le_mul_of_pos_right _ hkept.valid.chunkCells_pos)

end Heap

/-- There are contexts with as many cells in stock as one likes. -/
theorem Context.exists_stocked (n : Nat) : ∃ c : Context, c.Sane ∧ c.heap.Stocked n := by
  obtain ⟨h, hs, hmake⟩ := Heap.exists_stocked n
  obtain ⟨taken, hkept, -⟩ := id hs
  exact ⟨bare h (.empty 0) 0, ⟨hkept.valid, SymbolTable.sound_empty 0, hmake⟩, hs⟩

namespace Reader

variable {src : List Char} {c : Context} {r : EStateM.Result Fault Context (Option ReadError)}

/-- **With two cells for each character** the heap is not exhausted. -/
theorem Reads.ok_of_stocked (h : Reads src c r) (hc : c.Sane) (hs : c.heap.Stocked (2 * src.length)) :
    ∃ e c', r = .ok e c' := by
  induction h with
  | done => exact ⟨_, _, rfl⟩
  | failed => exact ⟨_, _, rfl⟩
  | @fault src c c' f hrun =>
    have hspends := Spends.read src c 0 hs
    rw [hrun] at hspends
    exact absurd ((Reads.fault hrun).eq_firstError hc) hspends
  | @form src rest c c₁ v r hrun _ ih =>
    have hspends := Spends.read src c 0 hs
    rw [hrun] at hspends
    exact ih ((Attains.read hc src).ok hrun).1 hspends

/-- **There is a context in which a text is read to its first error or to its end.** -/
theorem exists_reads_firstError (src : List Char) :
    ∃ c c', c.Sane ∧ Reads src c (.ok (Datum.firstError src) c') := by
  obtain ⟨c, hc, hs⟩ := Context.exists_stocked (2 * src.length)
  obtain ⟨r, hr⟩ := exists_reads hc src
  obtain ⟨e, c', rfl⟩ := hr.ok_of_stocked hc hs
  obtain ⟨rfl, -⟩ := hr.eq_firstError hc
  exact ⟨_, c', hc, hr⟩

end Reader

end LispMachine
