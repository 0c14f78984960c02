import LispMachine.Environment
import LispMachine.Proofs.Twin.Actions
import LispMachine.Proofs.Twin.Lookup
import LispMachine.Proofs.Twin.Printing

/-!
# Environments, on both sides

* `Leads.newFrame`, `Leads.define` -- a fresh frame, and a binding in a frame. Frames and bindings are
  written here and nowhere else, apart from assignments;
* `Leads.valueOf`, `Leads.assign` -- the nearest binding. A key that is bound nowhere fails with the
  same message (`Couple.Matched.display_eq`).
-/

namespace LispMachine

open World

variable {lex : Lexicon} {γ : Value × Value} {D : Couple} {S : Shape → Prop} {n : Nat}
variable {env env' key key' v v' : Value}

/-- **Corresponding values are displayed alike.** -/
theorem Couple.Matched.display_eq (hD : D.Matched lex γ) (hv : D.world.Same v v') :
    D.left.display v = D.right.display v' :=
  hD.coherent.write_eq hD.names _ _ hv

namespace Leads

/-- A fresh frame. -/
theorem newFrame (hD : D.Matched lex γ) (hn : n ≤ D.height)
    (henv : D.world.Rel (.just .frame) env env') :
    Leads lex S n γ D (Context.newFrame env) (Context.newFrame env')
      (fun D' v v' => D'.height = D.height ∧ D'.world.Rel (.just .frame) v v' ∧
        v.isPair = true) := by
  refine (cons (s := .frame) (o := none) hD hn henv trivial .nil nofun).weaken (fun _ => id)
    (Nat.le_refl n) fun _ _ hq => ?_
  obtain ⟨hheight, a, b, rfl, rfl, hw, _⟩ := hq
  exact ⟨rfl, hheight, .pair hw rfl, rfl⟩

/-- **A binding in a frame.** -/
theorem define (hD : D.Matched lex γ) (hn : n ≤ D.height)
    (henv : D.world.Rel (.just .frame) env env') (hkey : D.world.Rel (.just .inert) key key')
    (hv : D.world.Rel (.just .data) v v') (hframe : ¬ S .frame) (hbinding : ¬ S .binding) :
    Leads lex S n γ D (Context.define env key v) (Context.define env' key' v')
      (fun D' _ _ => D'.height = D.height) := by
  rw [Context.define, Context.define]
  refine look ?_
  have hfound : Option.Rel (D.world.Rel (.just .binding)) (D.left.heap.bindingIn? env key)
      (D.right.heap.bindingIn? env' key') := hD.coherent.bindingIn? henv hkey.same
  generalize D.left.heap.bindingIn? env key = found at hfound ⊢
  generalize D.right.heap.bindingIn? env' key' = found' at hfound ⊢
  cases hfound with
  | some hb =>
    exact (setCdr_rel hD hn hb hv hbinding).weaken (fun _ => id) (Nat.le_refl n) fun _ _ hq =>
      ⟨rfl, hq.2⟩
  | none =>
    -- the frame is rooted while the two cells of the binding are taken
    refine rootBase hD ?_
    refine bind hD (pushRoot hD (Nat.le_refl _) henv.slot) hn fun hD₁ _ hq => ?_
    obtain ⟨rfl, -, -⟩ := hq
    have hroom : D.height + 1 ≤ (D.pushed env env').height := Nat.le_of_eq (D.height_pushed _ _).symm
    have henv₁ := Couple.rooted_pushed (S := S) hD henv
    refine bind hD₁ (cons_rel (s := .binding) hD₁ hroom hkey trivial hv)
      (Nat.le_succ_of_le hn) fun hD₂ ho₂ hq₂ => ?_
    have henv₂ := ho₂.rooted hD₁ hD₂ henv₁ (Nat.le_refl _)
    have hrest := hD₂.coherent.cdr henv₂.rel
    refine look ?_
    refine bind hD₂ (cons_rel (s := .bindings) hD₂ ho₂.heaps.height hq₂.2 trivial hrest)
      (Nat.le_succ_of_le hn) fun hD₃ ho₃ hq₃ => ?_
    have henv₃ := ho₃.rooted hD₂ hD₃ henv₂ (Nat.le_refl _)
    refine bind hD₃ (setCdr_rel hD₃ ho₃.heaps.height henv₃.rel hq₃.2 hframe)
      (Nat.le_succ_of_le hn) fun hD₄ ho₄ _ => ?_
    have hle := Nat.le_succ D.height
    have hbase := (ho₄.slot_eq hle).trans ((ho₃.slot_eq hle).trans (ho₂.slot_eq hle))
    have hb := Nat.le_trans hle ho₄.heaps.height
    rw [← show _ = D.slot D.height from hbase]
    refine (popRoots hD₄ hn hb).weaken (fun _ => id) (Nat.le_refl n) fun _ _ hq => ?_
    subst hq
    exact ⟨rfl, Couple.height_popped hb⟩

/-- The failure on a key that is bound nowhere. -/
theorem unbound (hD : D.Matched lex γ) (hn : n ≤ D.height) (hkey : D.world.Same key key') :
    Leads lex S n γ D (Context.unbound key) (Context.unbound key')
      (fun D' v v' => D'.world.Rel (.just .data) v v') := by
  rw [Context.unbound, Context.unbound]
  refine observe ((fail hD hn ?_).weaken (fun _ => id) (Nat.le_refl n) fun _ _ hq => ?_)
  · rw [hD.display_eq hkey]
  · obtain ⟨_, rfl, rfl⟩ := hq
    exact ⟨rfl, .nil⟩

/-- **The value of the nearest binding.** -/
theorem valueOf (hD : D.Matched lex γ) (hn : n ≤ D.height)
    (henv : D.world.Rel (.just .frame) env env') (hkey : D.world.Same key key') :
    Leads lex S n γ D (Context.valueOf env key) (Context.valueOf env' key')
      (fun D' v v' => D'.world.Rel (.just .data) v v') := by
  rw [Context.valueOf, Context.valueOf]
  refine look ?_
  have hfound : Option.Rel (D.world.Rel (.just .binding)) (D.left.heap.lookup? env key)
      (D.right.heap.lookup? env' key') := hD.coherent.lookup? henv hkey
  generalize D.left.heap.lookup? env key = found at hfound ⊢
  generalize D.right.heap.lookup? env' key' = found' at hfound ⊢
  cases hfound with
  | some hb => exact .ok hD (.refl hn) ⟨rfl, hD.coherent.cdr hb⟩
  | none => exact unbound hD hn hkey

/-- **The nearest binding gets another value.** -/
theorem assign (hD : D.Matched lex γ) (hn : n ≤ D.height)
    (henv : D.world.Rel (.just .frame) env env') (hkey : D.world.Same key key')
    (hv : D.world.Rel (.just .data) v v') (hbinding : ¬ S .binding) :
    Leads lex S n γ D (Context.assign env key v) (Context.assign env' key' v')
      (fun D' v v' => D'.world.Rel (.just .data) v v') := by
  rw [Context.assign, Context.assign]
  refine look ?_
  have hfound : Option.Rel (D.world.Rel (.just .binding)) (D.left.heap.lookup? env key)
      (D.right.heap.lookup? env' key') := hD.coherent.lookup? henv hkey
  generalize D.left.heap.lookup? env key = found at hfound ⊢
  generalize D.right.heap.lookup? env' key' = found' at hfound ⊢
  cases hfound with
  | some hb =>
    refine bind hD (setCdr_rel hD hn hb hv hbinding) (Nat.le_refl n) fun hD' ho hq => ?_
    rw [← hq.1] at hv
    exact pure hD' ho.heaps.height ⟨rfl, hv⟩
  | none => exact unbound hD hn hkey

end Leads

/-! ## 3. One side alone -/

theorem bindingIn?_isPair {h : Heap} {frame binding : Value}
    (hb : h.bindingIn? frame key = some binding) : binding.isPair = true := by
  rw [Heap.bindingIn?, Heap.bindingAmong?_eq] at hb
  generalize h.cells.size = k at hb
  generalize h.cdr frame = v at hb
  induction k generalizing v with
  | zero => cases hb
  | succ k ih =>
    rw [Heap.searchAlong, Heap.bindingHere?] at hb
    split at hb
    · by_cases hhere : ((h.car v).isPair && h.car (h.car v) = key) = true
      · rw [if_pos hhere] at hb
        cases hb
        exact (Bool.and_eq_true_iff.mp hhere).1
      · rw [if_neg hhere] at hb
        exact ih _ hb
    · cases hb

/-- An action on one context that comes to an end and prints nothing, unless the heap is exhausted. -/
def Settles {α : Type} (x : Run α) (c : Context) (Q : α → Context → Prop) : Prop :=
  match x c with
  | .ok a c' => c'.heap.Valid ∧ c'.output = c.output ∧ Q a c'
  | .error e _ => e = .heapExhausted

namespace Settles

variable {α β : Type} {x : Run α} {f : α → Run β} {c : Context} {Q : α → Context → Prop}
variable {R : β → Context → Prop}

theorem bind (hx : Settles x c Q)
    (hf : ∀ a c', c'.heap.Valid → Q a c' → Settles (f a) c' R) : Settles (x >>= f) c R := by
  rw [Settles] at hx ⊢
  cases hr : x c with
  | ok a c' =>
    rw [hr] at hx
    obtain ⟨hv, hout, hq⟩ := hx
    have hrest := hf a c' hv hq
    rw [Settles] at hrest
    rw [run_bind hr]
    generalize f a c' = r at hrest
    cases r with
    | ok b c'' => exact ⟨hrest.1, hrest.2.1.trans hout, hrest.2.2⟩
    | error e c'' => exact hrest
  | error e c' =>
    rw [hr] at hx
    rw [run_bind_error hr]
    exact hx

theorem look {g : Heap → α} (h : Settles (f (g c.heap)) c R) : Settles (Context.look g >>= f) c R :=
  h

/-- An action on the heap that comes to an end. -/
theorem lift {g : HeapM α} {a : α} {h : Heap} (hg : g c.heap = .ok a h) (hv : h.Valid)
    (hq : Q a { c with heap := h }) : Settles (liftM g : Run α) c Q := by
  rw [Settles, Leads.run_lift hg]
  exact ⟨hv, rfl, hq⟩

theorem cons (hv : c.heap.Valid) (first rest : Value) :
    Settles (liftM (Heap.cons first rest)) c fun _ c' => c'.heap.roots = c.heap.roots := by
  rcases Heap.cons_cases hv first rest with ⟨a, g, _, hrun⟩ | ⟨g, hrun⟩
  · exact lift hrun (Heap.Operation.valid (.cons first rest) hv (run_bind hrun)) rfl
  · rw [Settles, Leads.run_lift_error hrun]

/-- A binding in a frame: nothing can go wrong but that the heap is exhausted. -/
theorem define (hv : c.heap.Valid) (a : Addr) (key value : Value) :
    Settles (Context.define (.pair a) key value) c fun _ _ => True := by
  rw [Context.define]
  refine look ?_
  cases hb : c.heap.bindingIn? (.pair a) key with
  | some binding =>
    have hpair := bindingIn?_isPair hb
    cases binding with
    | pair d => exact lift rfl (Heap.Operation.valid (.setCdr (.pair d) value) hv rfl) trivial
    | nil => cases hpair
    | int n => cases hpair
    | sym id => cases hpair
    | object d => cases hpair
  | none =>
    refine bind (lift (Q := fun i c' => c' = c ∧ i = c.heap.roots.size) rfl hv ⟨rfl, rfl⟩)
      fun i c₁ hv₁ hq => ?_
    obtain ⟨rfl, rfl⟩ := hq
    refine bind (lift (Q := fun _ c₂ => c₂.heap.roots.size = c₁.heap.roots.size + 1) rfl
      (Heap.Operation.valid (.pushRoot (.pair a)) hv₁ rfl) (Array.size_push _))
      fun _ c₂ hv₂ hsize => ?_
    refine bind (cons hv₂ key value) fun binding c₃ hv₃ hroots₃ => ?_
    refine look ?_
    refine bind (cons hv₃ binding _) fun bindings c₅ hv₅ hroots₅ => ?_
    refine bind (lift (Q := fun _ c₆ => c₆.heap.roots = c₅.heap.roots) rfl
      (Heap.Operation.valid (.setCdr (.pair a) bindings) hv₅ rfl) rfl)
      fun _ c₆ hv₆ hroots₆ => ?_
    have hle : c₁.heap.roots.size ≤ c₆.heap.roots.size := by
      rw [hroots₆, hroots₅, hroots₃, hsize]
      exact Nat.le_succ _
    have hpop : Heap.popRoots c₁.heap.roots.size c₆.heap = .ok () _ := if_pos hle
    exact lift hpop (Heap.Operation.valid (.popRoots c₁.heap.roots.size) hv₆ hpop) trivial

/-- Bindings in a frame. -/
theorem forM_define (hv : c.heap.Valid) (a : Addr) (bound : List (Value × Value)) :
    Settles (bound.forM fun (name, value) => Context.define (.pair a) name value) c
      fun _ _ => True := by
  induction bound generalizing c with
  | nil => exact ⟨hv, rfl, trivial⟩
  | cons p bound ih => exact bind (define hv a p.1 p.2) fun _ c' hv' _ => ih hv'

end Settles

end LispMachine
