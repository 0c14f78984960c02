import LispMachine.Machine.Call
import LispMachine.Proofs.Balance.Natives
import LispMachine.Proofs.Safety.Secure

/-!
# The native procedures are secure

A native fails where its arguments are not what it needs, and never ends in a fault on that account:

* `Machine.length_takeArguments` -- **a native receives as many arguments as its arity has slots**;
* `Secure.primitive` -- on so many arguments no primitive ends in a fault but exhaustion. Slots of pairs
  are written only after the argument has been checked to be a pair;
* `Native.divide_congr` -- **no divisor is zero**.
-/

namespace LispMachine

/-! ## 1. Arguments -/

namespace Machine

variable {h : Heap} {v rest : Value} {vs : List Value}

theorem length_takeRequired {k : Nat} (hv : takeRequired h k v = some (vs, rest)) : vs.length = k := by
  induction k generalizing v vs with
  | zero =>
    cases hv
    rfl
  | succ k ih =>
    rw [takeRequired] at hv
    split at hv
    · obtain ⟨⟨us, left⟩, hus, hcons⟩ := Option.map_eq_some_iff.mp hv
      cases hcons
      exact congrArg (· + 1) (ih hus)
    · cases hv

theorem length_takeOptional (h : Heap) (k : Nat) (v : Value) : (takeOptional h k v).1.length = k := by
  induction k generalizing v with
  | zero => rfl
  | succ k ih => exact congrArg (· + 1) (ih (h.cdr v))

/-- **As many arguments as there are slots.** -/
theorem length_takeArguments {arity : Arity} (hv : takeArguments h arity v = .ok vs) :
    vs.length = arity.slots := by
  unfold takeArguments at hv
  split at hv
  · cases hv
  · rename_i required rest hrequired
    have hr := length_takeRequired hrequired
    have ho := length_takeOptional h arity.optional rest
    dsimp only at hv
    split at hv
    · rename_i hrest
      cases hv
      rw [List.length_append, List.length_append, hr, ho, Arity.slots, if_pos hrest]
      rfl
    · rename_i hrest
      split at hv
      · cases hv
        rw [List.length_append, hr, ho, Arity.slots, if_neg hrest]
        rfl
      · cases hv

end Machine

/-! ## 2. Division -/

/-- **No divisor is zero**: what an operation does with such a divisor makes no difference. -/
theorem Native.divide_congr {name : String} {op op' : Word → Word → Word}
    (h : ∀ x y, y ≠ 0 → op x y = op' x y) : Native.divide name op = Native.divide name op' := by
  funext a b
  unfold Native.divide
  refine congrArg _ (funext fun x? => congrArg _ (funext fun y? => ?_))
  split
  · split
    · rfl
    · rename_i x y hy
      rw [h x y hy]
  · rfl

/-! ## 3. Primitives -/

namespace Secure

variable {ρ : Value} {n : Nat}

/-! ### Checks of arguments -/

theorem failNext (message : String) : Secure ρ n (Context.failNext message) (Level n fun _ => True) :=
  (fail message).next fun _ _ => pure ⟨rfl, trivial⟩

theorem int? (name : String) (position : Nat) (v : Value) :
    Secure ρ n (Native.int? name position v) (Level n fun _ => True) := by
  unfold Native.int?
  split
  · exact pure ⟨rfl, trivial⟩
  · exact (fail _).next fun _ _ => pure ⟨rfl, trivial⟩

/-- The check of an argument that must be a pair. -/
theorem isPair (name : String) (position : Nat) (v : Value) :
    Secure ρ n (Native.isPair name position v) (Level n fun b => b = true → v.isPair = true) :=
  ite (fun hv => pure ⟨rfl, fun _ => hv⟩) fun _ => (fail _).next fun _ _ => pure ⟨rfl, nofun⟩

theorem length? (name : String) (position : Nat) (v : Value) :
    Secure ρ n (Native.length? name position v) (Level n fun _ => True) := by
  refine .look fun c _ => ?_
  split
  · exact pure ⟨rfl, trivial⟩
  · exact (fail _).next fun _ _ => pure ⟨rfl, trivial⟩
  · exact (fail _).next fun _ _ => pure ⟨rfl, trivial⟩
  · exact outOfSteps

theorem finish {α : Type} (spine : Spine) (result : α) :
    Secure ρ n (Native.finish spine result) (Level n fun _ => True) := by
  unfold Native.finish
  split
  · exact pure ⟨rfl, trivial⟩
  · exact outOfSteps

theorem test (b : Bool) : Secure ρ n (Native.test b) (Level n fun _ => True) :=
  (ofBool b).next fun _ _ => pure ⟨rfl, trivial⟩

/-! ### Integers -/

theorem foldInts {name : String} {op : Word → Word → Word} {position : Nat} {acc : Word}
    (vs : List Value) : Secure ρ n (Native.foldInts name op position acc vs) (Level n fun _ => True) := by
  induction vs generalizing position acc with
  | nil => exact pure ⟨rfl, trivial⟩
  | cons v vs ih =>
    refine (int? _ _ _).next fun n _ => ?_
    split
    · exact ih
    · exact pure ⟨rfl, trivial⟩

theorem foldRest {name : String} {op : Word → Word → Word} {position : Nat} {acc : Word}
    (rest : Value) : Secure ρ n (Native.foldRest name op position acc rest) (Level n fun _ => True) := by
  refine .look fun c _ => (foldInts _).next fun n _ => ?_
  split
  · exact finish _ _
  · exact pure ⟨rfl, trivial⟩

theorem chainInts {name : String} {rel : Word → Word → Bool} {position : Nat} {holds : Bool}
    {previous : Word} (vs : List Value) :
    Secure ρ n (Native.chainInts name rel position holds previous vs) (Level n fun _ => True) := by
  induction vs generalizing position holds previous with
  | nil => exact pure ⟨rfl, trivial⟩
  | cons v vs ih =>
    refine (int? _ _ _).next fun n _ => ?_
    split
    · exact ih
    · exact pure ⟨rfl, trivial⟩

theorem compare {name : String} {rel : Word → Word → Bool} (first rest : Value) :
    Secure ρ n (Native.compare name rel first rest) (Level n fun _ => True) := by
  refine (int? _ _ _).next fun n _ => ?_
  split
  · exact pure ⟨rfl, trivial⟩
  · refine .look fun c _ => (chainInts _).next fun holds _ => ?_
    split
    · exact (ofBool _).next fun _ _ => finish _ _
    · exact pure ⟨rfl, trivial⟩

theorem subtract (first rest : Value) :
    Secure ρ n (Native.subtract first rest) (Level n fun _ => True) := by
  refine (int? _ _ _).next fun n _ => ?_
  split
  · exact pure ⟨rfl, trivial⟩
  · exact ite (fun _ => pure ⟨rfl, trivial⟩) fun _ => foldRest rest

theorem divide {name : String} {op : Word → Word → Word} (a b : Value) :
    Secure ρ n (Native.divide name op a b) (Level n fun _ => True) := by
  refine (int? _ _ _).next fun x _ => (int? _ _ _).next fun y _ => ?_
  split
  · exact ite (fun _ => failNext _) fun _ => pure ⟨rfl, trivial⟩
  · exact pure ⟨rfl, trivial⟩

/-! ### Pairs, lists and everything else -/

theorem slot {name : String} {read : Heap → Value → Value} (p : Value) :
    Secure ρ n (Native.slot name read p) (Level n fun _ => True) :=
  (isPair _ _ _).next fun _ _ => ite (fun _ => .look fun _ _ => pure ⟨rfl, trivial⟩)
    fun _ => pure ⟨rfl, trivial⟩

/-- **A slot is written** if the argument is a pair. -/
theorem setSlot {name : String} {write : Value → Value → HeapM Unit} {p v : Value}
    (hw : p.isPair = true → Secure ρ n (liftM (write p v)) (Level n fun _ => True)) :
    Secure ρ n (Native.setSlot name write p v) (Level n fun _ => True) :=
  (isPair _ _ _).next fun _ hp => ite (fun hb => (hw (hp hb)).next fun _ _ => pure ⟨rfl, trivial⟩)
    fun _ => pure ⟨rfl, trivial⟩

theorem listNth (list index : Value) :
    Secure ρ n (Native.listNth list index) (Level n fun _ => True) := by
  refine (length? _ _ _).next fun length _ => ?_
  split
  · exact pure ⟨rfl, trivial⟩
  · refine (int? _ _ _).next fun i _ => ?_
    split
    · exact pure ⟨rfl, trivial⟩
    · exact ite (fun _ => failNext _) fun _ => .look fun _ _ => pure ⟨rfl, trivial⟩

theorem print (rest : Value) : Secure ρ n (Native.print rest) (Level n fun _ => True) :=
  .look fun _ _ => (finish _ _).next fun _ _ => .observe fun _ _ =>
    (write _).next fun _ _ => pure ⟨rfl, trivial⟩

theorem strLen (v : Value) : Secure ρ n (Native.strLen v) (Level n fun _ => True) := by
  refine .look fun c _ => ?_
  split
  · exact pure ⟨rfl, trivial⟩
  · exact failNext _

theorem apply (func args : Value) : Secure ρ n (Native.apply func args) (Level n fun _ => True) := by
  refine (length? _ _ _).next fun length _ => ?_
  split
  · exact pure ⟨rfl, trivial⟩
  · exact pure ⟨rfl, trivial⟩

theorem gc : Secure ρ n Native.gc (Level n fun _ => True) :=
  collect.next fun _ _ => .look fun _ _ => pure ⟨rfl, trivial⟩

/-- **No primitive misses an argument**, and none ends in a fault but exhaustion. -/
theorem primitive {p : Primitive} {args : List Value} (hargs : args.length = p.arity.slots) :
    Secure ρ n (p.run args) (Level n fun _ => True) := by
  cases p with
  | gc =>
    obtain rfl := List.length_eq_zero_iff.mp hargs
    exact gc
  | add | mul =>
    obtain ⟨rest, rfl⟩ := List.length_eq_one_iff.mp hargs
    exact foldRest rest
  | list =>
    obtain ⟨rest, rfl⟩ := List.length_eq_one_iff.mp hargs
    exact pure ⟨rfl, trivial⟩
  | print =>
    obtain ⟨rest, rfl⟩ := List.length_eq_one_iff.mp hargs
    exact print rest
  | car | cdr =>
    obtain ⟨v, rfl⟩ := List.length_eq_one_iff.mp hargs
    exact slot v
  | length =>
    obtain ⟨v, rfl⟩ := List.length_eq_one_iff.mp hargs
    refine (length? _ _ _).next fun k _ => ?_
    split
    · exact pure ⟨rfl, trivial⟩
    · exact pure ⟨rfl, trivial⟩
  | isNil | isCons | isSym | isInt | not =>
    obtain ⟨v, rfl⟩ := List.length_eq_one_iff.mp hargs
    exact test _
  | isStr | isFunc =>
    obtain ⟨v, rfl⟩ := List.length_eq_one_iff.mp hargs
    exact .look fun _ _ => test _
  | strLen =>
    obtain ⟨v, rfl⟩ := List.length_eq_one_iff.mp hargs
    exact strLen v
  | sub =>
    obtain ⟨first, rest, rfl⟩ := List.length_eq_two.mp hargs
    exact subtract first rest
  | eq | lt | gt | le | ge =>
    obtain ⟨first, rest, rfl⟩ := List.length_eq_two.mp hargs
    exact compare first rest
  | quotient | remainder =>
    obtain ⟨a, b, rfl⟩ := List.length_eq_two.mp hargs
    exact divide a b
  | cons =>
    obtain ⟨a, b, rfl⟩ := List.length_eq_two.mp hargs
    exact (cons a b).next fun _ _ => pure ⟨rfl, trivial⟩
  | setCar =>
    obtain ⟨v, x, rfl⟩ := List.length_eq_two.mp hargs
    exact setSlot setCar
  | setCdr =>
    obtain ⟨v, x, rfl⟩ := List.length_eq_two.mp hargs
    exact setSlot setCdr
  | listRef =>
    obtain ⟨list, index, rfl⟩ := List.length_eq_two.mp hargs
    exact listNth list index
  | same =>
    obtain ⟨a, b, rfl⟩ := List.length_eq_two.mp hargs
    exact test _
  | equal =>
    obtain ⟨a, b, rfl⟩ := List.length_eq_two.mp hargs
    exact .look fun _ _ => test _
  | apply =>
    obtain ⟨func, args, rfl⟩ := List.length_eq_two.mp hargs
    exact apply func args

end Secure

end LispMachine
