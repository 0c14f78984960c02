import LispMachine.Proofs.Balance.Yields
import LispMachine.Proofs.Heap.History
import LispMachine.Proofs.Symbols

/-!
# Actions that end in no fault but exhaustion

A fault is the end of everything. Most of them are excluded as long as a context has nothing in it but
what the machine brings along:

* `Fault.IsSpent` -- the heap is exhausted, or the steps of the run are used up;
* `Heap.Standard`, `Context.Standard` -- heap and symbol table are laid out well, and all procedures
  and forms are the machine's own;
* `Secure` -- **an action that leads from a standard context to a standard one, or to such a fault**, and
  the rules for it. The height of the root stack is followed along, since slots are named by number;
* `Secure.cons`, `Secure.func`, `Secure.define`, … -- cells, values and environments.
-/

namespace LispMachine

open Context

/-! ## 1. Standard contexts -/

/-- What a run was given is used up: the heap, or its steps. -/
def Fault.IsSpent (f : Fault) : Prop := f = .heapExhausted ∨ f = .outOfSteps

/-- **A heap of the machine's own**: it is laid out well, objects of every core type may be made, and
    all procedures in it are primitives. -/
structure Heap.Standard (h : Heap) : Prop where
  valid : h.Valid
  types : ∀ t : CoreType, t ≠ .nil → h.IsMakeable t.id
  procedures : ∀ (a : Addr) (t : TypeId) (p : Procedure),
    h.cells[a]? = some (.object t (.procedure p)) → ∃ q, p = .primitive q

namespace Heap.Standard

variable {h g : Heap} {a : Addr} {cell : Cell} {f : Cell → Cell}

/-- Pins and roots do not matter. -/
theorem congr (hs : h.Standard) (hg : g.Valid) (ht : g.types = h.types) (hc : g.cells = h.cells) :
    g.Standard where
  valid := hg
  types t hne := by
    rw [IsMakeable, ht]
    exact hs.types t hne
  procedures a t p hcell := hs.procedures a t p (hc ▸ hcell)

/-- A cell is taken, and filled with something else than a procedure of an embedding program. -/
theorem filled (hs : h.Standard) (ht : Taken h a g) (hal : cell.isAllocated = true)
    (hobj : ∀ t p, cell = .object t p → (∃ k : CoreType, k ≠ .nil ∧ t = k.id) ∧
      ∀ r, p = .procedure r → ∃ q, r = .primitive q) : (g.filled a cell).Standard := by
  have htypes : ∀ k : CoreType, k ≠ .nil → g.IsMakeable k.id := fun k hk => ht.isMakeable (hs.types k hk)
  refine ⟨ht.valid.filled hal fun t p hcell => ?_, htypes, fun b t p hcell => ?_⟩
  · obtain ⟨⟨k, hk, rfl⟩, -⟩ := hobj t p hcell
    exact htypes k hk
  · replace hcell : (g.cells.setIfInBounds a cell)[b]? = some (.object t (.procedure p)) := hcell
    by_cases hab : a = b
    · rw [← hab, Array.getElem?_setIfInBounds_self_of_lt ht.isFree.lt_size, Option.some.injEq] at hcell
      exact (hobj t _ hcell).2 p rfl
    · rw [Array.getElem?_setIfInBounds_ne hab] at hcell
      obtain ⟨-, hsame⟩ := ht.kept b (isAllocated_iff.mpr ⟨_, hcell, rfl⟩)
      exact hs.procedures b t p (hsame.symm.trans hcell)

/-- A slot of a pair is written. -/
theorem write (hs : h.Standard) (hg : { h with cells := h.cells.modify a f }.Valid)
    (hf : ∀ cell t p, f cell = .object t p → cell = .object t p) :
    { h with cells := h.cells.modify a f }.Standard := by
  refine ⟨hg, hs.types, fun b t p hcell => ?_⟩
  replace hcell : (h.cells.modify a f)[b]? = some (.object t (.procedure p)) := hcell
  rw [getElem?_modify_cells] at hcell
  split at hcell
  · obtain ⟨cell, hb, hcell⟩ := Option.map_eq_some_iff.mp hcell
    rw [hf cell _ _ hcell] at hb
    exact hs.procedures b t p hb
  · exact hs.procedures b t p hcell

/-- Cells are freed. -/
theorem collected {n : Nat} (hs : h.Standard) (hc : Collected h true n g) : g.Standard := by
  refine ⟨hc.valid, fun t hne => ?_, fun b t p hcell => ?_⟩
  · rw [IsMakeable, hc.frame]
    exact hs.types t hne
  · have hkept := hc.kept b (isAllocated_iff.mpr ⟨_, hcell, rfl⟩)
    exact hs.procedures b t p (hkept.symm.trans hcell)

end Heap.Standard

/-- **A context of the machine's own**: there is nothing from an embedding program in it. -/
structure Context.Standard (ρ : Value) (c : Context) : Prop where
  heap : c.heap.Standard
  symbols : c.symbols.Sound
  forms : ∀ entry ∈ c.forms, ∃ f, entry.2 = .standard f
  rootEnv : c.rootEnv = ρ

/-- Heap, symbols, forms and root environment are the same. -/
structure Context.SameStore (c c' : Context) : Prop where
  heap : c'.heap = c.heap
  symbols : c'.symbols = c.symbols
  forms : c'.forms = c.forms
  rootEnv : c'.rootEnv = c.rootEnv

theorem Context.Standard.congr {ρ : Value} {c c' : Context} (hc : c.Standard ρ)
    (h : c.SameStore c') : c'.Standard ρ where
  heap := h.heap ▸ hc.heap
  symbols := h.symbols ▸ hc.symbols
  forms := h.forms ▸ hc.forms
  rootEnv := h.rootEnv.trans hc.rootEnv

/-- Every procedure that is found is a primitive. -/
theorem Context.Standard.primitive {ρ v : Value} {c : Context} {p : Procedure} (hc : c.Standard ρ)
    (hp : c.heap.procedure? v = some p) : ∃ q, p = .primitive q := by
  unfold Heap.procedure? at hp
  split at hp
  · rename_i r hpayload
    split at hp
    · cases hp
      cases v with
      | object a =>
        unfold Heap.payload? at hpayload
        dsimp only at hpayload
        split at hpayload
        · rename_i hcell
          cases hpayload
          exact hc.heap.procedures a _ p hcell
        · cases hpayload
      | nil | int n | sym id | pair a => cases hpayload
    · cases hp
  · cases hp

/-- Every form that is found is one of the language. -/
theorem Context.Standard.standardForm {ρ : Value} {c : Context} {id : SymbolId} {form : SpecialForm}
    (hc : c.Standard ρ) (hform : c.forms.lookup id = some form) : ∃ f, form = .standard f := by
  rw [List.lookup_eq_findSome?] at hform
  obtain ⟨entry, hmem, hentry⟩ := List.exists_of_findSome?_eq_some hform
  obtain ⟨f, hf⟩ := hc.forms entry hmem
  rw [hf] at hentry
  split at hentry
  · cases hentry
    exact ⟨f, rfl⟩
  · cases hentry

/-! ## 2. The judgement -/

/-- **A secure action.** In a standard context with a root stack `n` high it ends in no fault but
    exhaustion, and what it leads to is standard again; `Q` holds of the result and of the height of the
    root stack then. -/
structure Secure {α : Type} (ρ : Value) (n : Nat) (x : Run α) (Q : α → Nat → Prop) : Prop where
  yields : ∀ {c : Context}, c.Standard ρ → c.heap.roots.size = n →
    Yields x c fun a c' => c'.Standard ρ ∧ Q a c'.heap.roots.size
  fault : ∀ {c c' : Context} {f : Fault}, c.Standard ρ → c.heap.roots.size = n →
    x c = .error f c' → f.IsSpent

/-- The root stack is `n` high again, and the result has a property. -/
def Level {α : Type} (n : Nat) (P : α → Prop) (a : α) (m : Nat) : Prop := m = n ∧ P a

namespace Secure

variable {α β : Type} {ρ : Value} {m n slot : Nat} {x y : Run α} {f : α → Run β} {v w : Value}
variable {Q Q' : α → Nat → Prop} {R : β → Nat → Prop} {P : α → Prop}

theorem pure {a : α} (h : Q a n) : Secure ρ n (Pure.pure a) Q where
  yields hc hn := .pure ⟨hc, hn.symm ▸ h⟩
  fault _ _ hrun := by cases hrun

theorem bind (hx : Secure ρ n x Q) (hf : ∀ a m, Q a m → Secure ρ m (f a) R) :
    Secure ρ n (x >>= f) R where
  yields hc hn := (hx.yields hc hn).bind fun a _ hq => (hf a _ hq.2).yields hq.1 rfl
  fault {c c' e} hc hn hrun := by
    cases hfirst : x c with
    | ok a c₁ =>
      rw [run_bind hfirst] at hrun
      obtain ⟨hc₁, hq⟩ := hx.yields hc hn a c₁ hfirst
      exact (hf a _ hq).fault hc₁ rfl hrun
    | error e' c₁ =>
      rw [run_bind_error hfirst] at hrun
      cases hrun
      exact hx.fault hc hn hfirst

/-- What goes on at the same height. -/
theorem next (hx : Secure ρ n x (Level n P)) (hf : ∀ a, P a → Secure ρ n (f a) R) :
    Secure ρ n (x >>= f) R :=
  hx.bind fun a m h => by
    obtain ⟨rfl, ha⟩ := h
    exact hf a ha

theorem weaken (hx : Secure ρ n x Q) (h : ∀ a m, Q a m → Q' a m) : Secure ρ n x Q' where
  yields hc hn := (hx.yields hc hn).weaken fun a _ hq => ⟨hq.1, h a _ hq.2⟩
  fault := hx.fault

/-- The result has a property that is known apart from this. -/
theorem and {P : α → Prop} (hx : Secure ρ n x Q) (hi : Idle x P) :
    Secure ρ n x fun a m => Q a m ∧ P a where
  yields hc hn a c' hrun := by
    obtain ⟨hc', hq⟩ := hx.yields hc hn a c' hrun
    exact ⟨hc', hq, (hi.yields (.refl _) a c' hrun).2⟩
  fault := hx.fault

theorem observe {g : Context → α} (h : ∀ c, c.Standard ρ → Secure ρ n (f (g c)) R) :
    Secure ρ n (LispMachine.observe g >>= f) R where
  yields {c} hc hn := (h c hc).yields hc hn
  fault {c _ _} hc hn hrun := (h c hc).fault hc hn hrun

theorem look {g : Heap → α}
    (h : ∀ c : Context, c.Standard ρ → Secure ρ n (f (g c.heap)) R) :
    Secure ρ n (Context.look g >>= f) R := observe h

theorem ite {p : Prop} [Decidable p] (hx : p → Secure ρ n x Q) (hy : ¬ p → Secure ρ n y Q) :
    Secure ρ n (if p then x else y) Q := by
  split
  · exact hx ‹_›
  · exact hy ‹_›

/-- The steps are used up. -/
theorem outOfSteps : Secure ρ n (MonadExcept.throw .outOfSteps : Run α) Q where
  yields _ _ := .throw _
  fault _ _ hrun := by
    cases hrun
    exact .inr rfl

/-- An action that changes no cell. -/
theorem edit {g : Context → Context} (h : ∀ c, c.Standard ρ → (g c).Standard ρ)
    (hroots : ∀ c, (g c).heap.roots = c.heap.roots) :
    Secure ρ n (modify g) (Level n fun _ => True) where
  yields {c} hc hn := .edit ⟨h c hc, (congrArg Array.size (hroots c)).trans hn, trivial⟩
  fault _ _ hrun := by cases hrun

/-- Registers, failure and output do not matter. -/
theorem register {g : Context → Context} (h : ∀ c : Context, c.SameStore (g c)) :
    Secure ρ n (modify g) (Level n fun _ => True) :=
  edit (fun c hc => hc.congr (h c)) fun c => congrArg Heap.roots (h c).heap

theorem forM {γ : Type} {f : γ → Run Unit} (hf : ∀ a, Secure ρ n (f a) (Level n fun _ => True))
    (as : List γ) : Secure ρ n (as.forM f) (Level n fun _ => True) := by
  induction as with
  | nil => exact pure ⟨rfl, trivial⟩
  | cons a as ih => exact (hf a).next fun _ _ => ih

/-! ## 3. The heap -/

/-- An action on the heap. -/
theorem lift {g : HeapM α} (hg : ∀ h : Heap, h.Standard → h.roots.size = n →
      (∃ f h', f.IsSpent ∧ g h = .error f h') ∨
      ∃ a h', h'.Standard ∧ Q a h'.roots.size ∧ g h = .ok a h') :
    Secure ρ n (liftM g : Run α) Q where
  yields {c} hc hn := .lift fun a h hrun => by
    rcases hg c.heap hc.heap hn with ⟨_, _, _, herror⟩ | ⟨_, _, hs, hq, hok⟩
    · rw [herror] at hrun
      cases hrun
    · rw [hok] at hrun
      cases hrun
      exact ⟨⟨hs, hc.symbols, hc.forms, hc.rootEnv⟩, hq⟩
  fault {c c' f} hc hn hrun := by
    replace hrun : Context.onHeap g c = .error f c' := hrun
    rw [Context.onHeap] at hrun
    rcases hg c.heap hc.heap hn with ⟨_, _, hspent, herror⟩ | ⟨_, _, _, _, hok⟩
    · rw [herror] at hrun
      cases hrun
      exact hspent
    · rw [hok] at hrun
      cases hrun

/-- What goes on with the height of the root stack. -/
theorem rootBase {f : Nat → Run β} (h : Secure ρ n (f n) R) :
    Secure ρ n (liftM Heap.rootBase >>= f) R where
  yields {c} hc hn := by
    have hf : Yields (f c.heap.roots.size) c fun b c' => c'.Standard ρ ∧ R b c'.heap.roots.size := by
      rw [hn]
      exact h.yields hc hn
    exact hf
  fault {c c' e} hc hn hrun := by
    replace hrun : f c.heap.roots.size c = .error e c' := hrun
    rw [hn] at hrun
    exact h.fault hc hn hrun

theorem pushRoot : Secure ρ n (liftM (Heap.pushRoot v)) fun i m => i = n ∧ m = n + 1 :=
  lift fun h hs hn => by
    refine .inr ⟨h.roots.size, { h with roots := h.roots.push v }, ?_, ⟨hn, ?_⟩, rfl⟩
    · exact hs.congr (Heap.Operation.valid (.pushRoot v) hs.valid rfl) rfl rfl
    · exact (Array.size_push v).trans (congrArg (· + 1) hn)

/-- What goes on after a push. -/
theorem push {f : Nat → Run β} (h : Secure ρ (n + 1) (f n) R) :
    Secure ρ n (liftM (Heap.pushRoot v) >>= f) R :=
  pushRoot.bind fun i m hi => by
    obtain ⟨rfl, rfl⟩ := hi
    exact h

theorem root (hslot : slot < n) :
    Secure ρ n (liftM (Heap.root slot)) (Level n fun _ => True) :=
  lift fun h hs hn => by
    have hlt : slot < h.roots.size := hn ▸ hslot
    refine .inr ⟨h.roots[slot], h, hs, ⟨hn, trivial⟩, ?_⟩
    rw [Heap.root, Array.getElem?_eq_getElem hlt]

theorem setRoot (hslot : slot < n) :
    Secure ρ n (liftM (Heap.setRoot slot v)) (Level n fun _ => True) :=
  lift fun h hs hn => by
    have hrun : Heap.setRoot slot v h = .ok () { h with roots := h.roots.setIfInBounds slot v } :=
      if_pos (hn ▸ hslot)
    refine .inr ⟨(), _, ?_, ⟨Array.size_setIfInBounds.trans hn, trivial⟩, hrun⟩
    exact hs.congr (Heap.Operation.valid (.setRoot slot v) hs.valid hrun) rfl rfl

theorem popRoots (hslot : slot ≤ n) :
    Secure ρ n (liftM (Heap.popRoots slot)) (Level slot fun _ => True) :=
  lift fun h hs hn => by
    have hle : slot ≤ h.roots.size := hn ▸ hslot
    have hrun : Heap.popRoots slot h = .ok () { h with roots := h.roots.shrink slot } := if_pos hle
    refine .inr ⟨(), _, ?_, ⟨Array.size_shrink.trans (Nat.min_eq_left hle), trivial⟩, hrun⟩
    exact hs.congr (Heap.Operation.valid (.popRoots slot) hs.valid hrun) rfl rfl

/-- What goes on after the root stack has been cut back. -/
theorem pop {f : PUnit → Run β} (hslot : slot ≤ n) (h : Secure ρ slot (f ⟨⟩) R) :
    Secure ρ n (liftM (Heap.popRoots slot) >>= f) R :=
  (popRoots hslot).bind fun _ m hm => by
    obtain ⟨rfl, -⟩ := hm
    exact h

/-- **A fresh pair.** -/
theorem cons (a b : Value) : Secure ρ n (liftM (Heap.cons a b)) (Level n fun v => v.isPair = true) :=
  lift fun h hs hn => by
    rcases Heap.cons_cases hs.valid a b with ⟨i, g, ht, hrun⟩ | ⟨g, hrun⟩
    · have hrooting : (h.rooting a b).Standard := hs.congr (hs.valid.rooting a b) rfl rfl
      have hfilled : (g.filled i (.pair a b)).Standard := hrooting.filled ht rfl nofun
      refine .inr ⟨.pair i, _, hfilled.congr (Heap.Operation.valid (.cons a b) hs.valid ?_) ?_ ?_,
        ⟨?_, rfl⟩, hrun⟩
      · rw [Heap.Operation.perform, run_bind hrun]
        rfl
      · rfl
      · rfl
      · exact hn
    · exact .inl ⟨_, g, .inl rfl, hrun⟩

/-- **A fresh object** of a core type. -/
theorem make {t : CoreType} {p : Payload} (ht : t ≠ .nil)
    (hp : ∀ r, p = .procedure r → ∃ q, r = .primitive q) :
    Secure ρ n (liftM (Heap.make t.id p)) (Level n fun _ => True) :=
  lift fun h hs hn => by
    rcases Heap.make_cases hs.valid t.id p with ⟨_, i, g, htaken, hrun⟩ | ⟨_, g, hrun⟩ | ⟨hnot, _⟩
    · refine .inr ⟨.object i, _, ?_, ⟨?_, trivial⟩, hrun⟩
      · refine hs.filled htaken rfl fun t' p' hcell => ?_
        cases hcell
        exact ⟨⟨t, ht, rfl⟩, hp⟩
      · show g.roots.size = n
        rw [htaken.frame]
        exact hn
    · exact .inl ⟨_, g, .inl rfl, hrun⟩
    · exact absurd (hs.types t ht) hnot

/-- **The first slot of a pair is written.** -/
theorem setCar (hv : v.isPair = true) : Secure ρ n (liftM (Heap.setCar v w)) (Level n fun _ => True) := by
  cases v with
  | pair a =>
    refine lift fun h hs hn => .inr ⟨(), _, hs.write ?_ fun cell t p hcell => ?_, ⟨hn, trivial⟩, rfl⟩
    · exact Heap.Operation.valid (.setCar (.pair a) w) hs.valid rfl
    · cases cell <;> first | exact hcell | cases hcell
  | nil | int n | sym id | object a => cases hv

/-- **The rest slot of a pair is written.** -/
theorem setCdr (hv : v.isPair = true) : Secure ρ n (liftM (Heap.setCdr v w)) (Level n fun _ => True) := by
  cases v with
  | pair a =>
    refine lift fun h hs hn => .inr ⟨(), _, hs.write ?_ fun cell t p hcell => ?_, ⟨hn, trivial⟩, rfl⟩
    · exact Heap.Operation.valid (.setCdr (.pair a) w) hs.valid rfl
    · cases cell <;> first | exact hcell | cases hcell
  | nil | int n | sym id | object a => cases hv

theorem collect : Secure ρ n (liftM (Heap.collect true)) (Level n fun _ => True) :=
  lift fun h hs hn => by
    obtain ⟨freed, g, hrun, hc⟩ := Heap.collect_spec hs.valid true
    refine .inr ⟨freed, g, hs.collected hc, ⟨?_, trivial⟩, hrun⟩
    rw [hc.frame]
    exact hn

theorem pin : Secure ρ n (liftM (Heap.pin v)) (Level n fun _ => True) :=
  lift fun h hs hn => by
    have hrun : Heap.pin v h = .ok () (if v ∈ h.pins then h else { h with pins := v :: h.pins }) := rfl
    refine .inr ⟨(), _, hs.congr (Heap.Operation.valid (.pin v) hs.valid hrun) ?_ ?_, ⟨?_, trivial⟩, hrun⟩
    · split <;> rfl
    · split <;> rfl
    · split <;> exact hn

/-! ## 4. Failure, symbols and output -/

theorem fail (message : String) : Secure ρ n (Context.fail message) (Level n fun v => v = .nil) where
  yields {c} hc hn v c' hrun := by
    unfold Context.fail at hrun
    rw [run_modifyGet] at hrun
    split at hrun
    · cases hrun
      exact ⟨hc, hn, rfl⟩
    · cases hrun
      exact ⟨hc.congr ⟨rfl, rfl, rfl, rfl⟩, hn, rfl⟩
  fault _ _ hrun := by cases hrun

theorem prepend (line : String) : Secure ρ n (Context.prepend line) (Level n fun _ => True) :=
  register fun c => by split <;> exact ⟨rfl, rfl, rfl, rfl⟩

theorem write (s : String) : Secure ρ n (Context.write s) (Level n fun _ => True) :=
  register fun _ => ⟨rfl, rfl, rfl, rfl⟩

theorem reset : Secure ρ n Context.reset (Level n fun _ => True) :=
  register fun _ => ⟨rfl, rfl, rfl, rfl⟩

theorem ofBool (b : Bool) : Secure ρ n (Context.ofBool b) (Level n fun _ => True) where
  yields hc hn := by
    rintro _ _ ⟨⟩
    exact ⟨hc, hn, trivial⟩
  fault _ _ hrun := by cases hrun

/-- **A name is interned**: the symbol table never fills up. -/
theorem intern (name : String) : Secure ρ n (Context.intern name) (Level n fun _ => True) where
  yields {c} hc hn id c' hrun := by
    obtain ⟨_, t, hintern, hsound, -⟩ := hc.symbols.intern name
    rw [Context.intern, hintern] at hrun
    cases hrun
    exact ⟨⟨hc.heap, hsound, hc.forms, hc.rootEnv⟩, hn, trivial⟩
  fault {c c' f} hc hn hrun := by
    obtain ⟨_, t, hintern, -⟩ := hc.symbols.intern name
    rw [Context.intern, hintern] at hrun
    cases hrun

theorem sym (name : String) : Secure ρ n (Context.sym name) (Level n fun v => v.isSym = true) :=
  (intern name).next fun _ _ => pure ⟨rfl, rfl⟩

/-! ## 5. Values of several cells -/

theorem str (bytes : ByteArray) : Secure ρ n (Context.str bytes) (Level n fun _ => True) :=
  make (t := .str) nofun nofun

/-- Values are pushed one after the other. -/
theorem pushAll (vs : List Value) : Secure ρ n
    (vs.forM fun v => do let _ ← Heap.pushRoot v : Run PUnit) (Level (n + vs.length) fun _ => True) := by
  induction vs generalizing n with
  | nil => exact pure ⟨rfl, trivial⟩
  | cons v vs ih =>
    have hpush : Secure ρ n (do let _ ← Heap.pushRoot v : Run PUnit) (Level (n + 1) fun _ => True) :=
      push (pure ⟨rfl, trivial⟩)
    refine hpush.bind fun _ m hm => ?_
    obtain ⟨rfl, -⟩ := hm
    rw [List.length_cons, Nat.add_comm vs.length, ← Nat.add_assoc]
    exact ih

/-- Values are consed onto the list in a slot. -/
theorem consOnto (vs : List Value) (hslot : slot < n) :
    Secure ρ n (Context.consOnto slot vs) (Level n fun _ => True) := by
  induction vs with
  | nil => exact pure ⟨rfl, trivial⟩
  | cons v vs ih =>
    exact (Secure.root hslot).next fun _ _ => (cons _ _).next fun _ _ => (setRoot hslot).next fun _ _ => ih

theorem list (items : List Value) : Secure ρ n (Context.list items) (Level n fun _ => True) := by
  unfold Context.list
  refine rootBase ((pushAll items).bind fun _ m hm => ?_)
  obtain ⟨rfl, -⟩ := hm
  refine push ((consOnto _ (Nat.lt_succ_self _)).next fun _ _ => ?_)
  refine (Secure.root (Nat.lt_succ_self _)).next fun _ _ => pop ?_ (pure ⟨rfl, trivial⟩)
  exact Nat.le_succ_of_le (Nat.le_add_right n _)

theorem func (env params body name : Value) :
    Secure ρ n (Context.func env params body name) (Level n fun _ => True) := by
  unfold Context.func
  refine rootBase ((list _).next fun parts _ => push ?_)
  have hfunc : ∀ r, Payload.closure parts = .procedure r → ∃ q, r = .primitive q := nofun
  refine (make (t := .func) nofun hfunc).next fun _ _ => pop (Nat.le_succ n) (pure ⟨rfl, trivial⟩)

end Secure

/-! ## 6. Environments -/

section Environments

variable {ρ env key value : Value} {n : Nat} {h : Heap}

/-- A binding is a pair. -/
theorem Heap.isPair_of_bindingAmong? {k : Nat} {bindings binding : Value}
    (hb : h.bindingAmong? key k bindings = some binding) : binding.isPair = true := by
  induction k generalizing bindings with
  | zero => cases hb
  | succ k ih =>
    rw [bindingAmong?] at hb
    split at hb
    · dsimp only at hb
      split at hb
      · rename_i hfound
        cases hb
        exact (Bool.and_eq_true_iff.mp hfound).1
      · exact ih hb
    · cases hb

theorem Heap.isPair_of_lookupAmong? {k : Nat} {frame binding : Value}
    (hb : h.lookupAmong? key k frame = some binding) : binding.isPair = true := by
  induction k generalizing frame with
  | zero => cases hb
  | succ k ih =>
    rw [lookupAmong?] at hb
    split at hb
    · split at hb
      · rename_i hfound
        cases hb
        exact isPair_of_bindingAmong? hfound
      · exact ih hb
    · cases hb

namespace Secure

theorem newFrame (parent : Value) :
    Secure ρ n (Context.newFrame parent) (Level n fun v => v.isPair = true) := cons _ _

/-- **A key is bound in a frame**, which is a pair. -/
theorem define (henv : env.isPair = true) :
    Secure ρ n (Context.define env key value) (Level n fun _ => True) := by
  unfold Context.define
  refine .look fun c _ => ?_
  cases hfound : c.heap.bindingIn? env key with
  | some binding => exact setCdr (Heap.isPair_of_bindingAmong? hfound)
  | none =>
    refine rootBase (push ((cons _ _).next fun binding _ => look fun _ _ => ?_))
    refine (cons _ _).next fun bindings _ => (setCdr henv).next fun _ _ => ?_
    exact popRoots (Nat.le_succ n)

theorem unbound (key : Value) : Secure ρ n (Context.unbound key) (Level n fun _ => True) :=
  observe fun _ _ => (fail _).weaken fun _ _ h => ⟨h.1, trivial⟩

theorem valueOf (env key : Value) : Secure ρ n (Context.valueOf env key) (Level n fun _ => True) := by
  unfold Context.valueOf
  refine .look fun c _ => ?_
  cases c.heap.lookup? env key with
  | some binding =>
    have hgive : Secure ρ n (Context.look (·.cdr binding) >>= Pure.pure) (Level n fun _ => True) :=
      .look fun _ _ => pure ⟨rfl, trivial⟩
    exact hgive
  | none => exact unbound key

/-- **The nearest binding of a key is replaced.** -/
theorem assign (env key value : Value) :
    Secure ρ n (Context.assign env key value) (Level n fun _ => True) := by
  unfold Context.assign
  refine .look fun c _ => ?_
  cases hfound : c.heap.lookup? env key with
  | some binding =>
    exact (setCdr (Heap.isPair_of_lookupAmong? hfound)).next fun _ _ => pure ⟨rfl, trivial⟩
  | none => exact unbound key

end Secure

end Environments

end LispMachine
