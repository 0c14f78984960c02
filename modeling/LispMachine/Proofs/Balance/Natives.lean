import LispMachine.Machine.Native
import LispMachine.Proofs.Balance.Yields

/-!
# The native procedures leave the evaluator as it stands

A primitive either gives a value or asks for an application (`Next.Plain`). Nothing waits for either
on its behalf, and the root stack and the registers are as before (`Idle.primitive`). All primitives
but `apply` give a value (`Idle.primitive_gives`).
-/

namespace LispMachine

/-- A value that is given, or an application. -/
inductive Task.Plain : Task → Prop where
  | give (v : Value) : Plain (.give v)
  | apply (func args : Value) : Plain (.apply func args)

/-- A plain task, and nothing that waits for it. -/
structure Next.Plain (next : Next) : Prop where
  task : next.task.Plain
  pending : next.pending = []

theorem Next.plain_give (v : Value) : (Next.give v).Plain := ⟨.give v, rfl⟩

/-- A value is given, and nothing else is to be done. -/
def Next.Gives (next : Next) : Prop := ∃ v, next = .give v

theorem Next.gives_give (v : Value) : (Next.give v).Gives := ⟨v, rfl⟩

theorem Next.Gives.plain {next : Next} (h : next.Gives) : next.Plain := by
  obtain ⟨v, rfl⟩ := h
  exact plain_give v

namespace Idle

theorem plain {x : Run Next} (hx : Idle x Next.Gives) : Idle x Next.Plain := hx.weaken fun _ h => h.plain

/-! ## 1. Checks of arguments -/

theorem failNext (message : String) : Idle (Context.failNext message) Next.Gives :=
  (fail message).bind fun v _ => pure (Next.gives_give v)

theorem int? (name : String) (position : Nat) (v : Value) :
    Idle (Native.int? name position v) fun _ => True := by
  unfold Native.int?
  split
  · exact pure trivial
  · exact (fail _).bind fun _ _ => pure trivial

theorem isPair (name : String) (position : Nat) (v : Value) :
    Idle (Native.isPair name position v) fun _ => True :=
  ite (fun _ => pure trivial) fun _ => (fail _).bind fun _ _ => pure trivial

theorem length? (name : String) (position : Nat) (v : Value) :
    Idle (Native.length? name position v) fun _ => True := by
  refine look fun count => ?_
  split
  · exact pure trivial
  · exact (fail _).bind fun _ _ => pure trivial
  · exact (fail _).bind fun _ _ => pure trivial
  · exact throw _

theorem finish {α : Type} {Q : α → Prop} (spine : Spine) {result : α} (h : Q result) :
    Idle (Native.finish spine result) Q := by
  unfold Native.finish
  split
  · exact pure h
  · exact throw _

theorem test (b : Bool) : Idle (Native.test b) Next.Gives :=
  (ofBool b).bind fun v _ => pure (Next.gives_give v)

/-! ## 2. Integers -/

theorem foldInts {name : String} {op : Word → Word → Word} {position : Nat} {acc : Word}
    (vs : List Value) : Idle (Native.foldInts name op position acc vs) fun _ => True := by
  induction vs generalizing position acc with
  | nil => exact pure trivial
  | cons v vs ih =>
    refine (int? _ _ _).bind fun n _ => ?_
    split
    · exact ih
    · exact pure trivial

theorem foldRest {name : String} {op : Word → Word → Word} {position : Nat} {acc : Word}
    (rest : Value) : Idle (Native.foldRest name op position acc rest) Next.Gives := by
  refine look fun spine => (foldInts _).bind fun n _ => ?_
  split
  · exact finish _ (Next.gives_give _)
  · exact pure (Next.gives_give _)

theorem chainInts {name : String} {rel : Word → Word → Bool} {position : Nat} {holds : Bool}
    {previous : Word} (vs : List Value) :
    Idle (Native.chainInts name rel position holds previous vs) fun _ => True := by
  induction vs generalizing position holds previous with
  | nil => exact pure trivial
  | cons v vs ih =>
    refine (int? _ _ _).bind fun n _ => ?_
    split
    · exact ih
    · exact pure trivial

theorem compare {name : String} {rel : Word → Word → Bool} (first rest : Value) :
    Idle (Native.compare name rel first rest) Next.Gives := by
  refine (int? _ _ _).bind fun n _ => ?_
  split
  · exact pure (Next.gives_give _)
  · refine look fun spine => (chainInts _).bind fun holds _ => ?_
    split
    · exact (ofBool _).bind fun _ _ => finish _ (Next.gives_give _)
    · exact pure (Next.gives_give _)

theorem subtract (first rest : Value) : Idle (Native.subtract first rest) Next.Gives := by
  refine (int? _ _ _).bind fun n _ => ?_
  split
  · exact pure (Next.gives_give _)
  · exact ite (fun _ => pure (Next.gives_give _)) fun _ => foldRest rest

theorem divide {name : String} {op : Word → Word → Word} (a b : Value) :
    Idle (Native.divide name op a b) Next.Gives := by
  refine (int? _ _ _).bind fun x _ => (int? _ _ _).bind fun y _ => ?_
  split
  · exact ite (fun _ => failNext _) fun _ => pure (Next.gives_give _)
  · exact pure (Next.gives_give _)

/-! ## 3. Pairs, lists and everything else -/

theorem slot {name : String} {read : Heap → Value → Value} (p : Value) :
    Idle (Native.slot name read p) Next.Gives :=
  (isPair _ _ _).bind fun _ _ => ite (fun _ => look fun _ => pure (Next.gives_give _))
    fun _ => pure (Next.gives_give _)

theorem setSlot {name : String} {write : Value → Value → HeapM Unit} {p v : Value}
    (hw : Idle (liftM (write p v)) fun _ => True) : Idle (Native.setSlot name write p v) Next.Gives :=
  (isPair _ _ _).bind fun _ _ => ite (fun _ => hw.bind fun _ _ => pure (Next.gives_give _))
    fun _ => pure (Next.gives_give _)

theorem listNth (list index : Value) : Idle (Native.listNth list index) Next.Gives := by
  refine (length? _ _ _).bind fun length _ => ?_
  split
  · exact pure (Next.gives_give _)
  · refine (int? _ _ _).bind fun i _ => ?_
    split
    · exact pure (Next.gives_give _)
    · exact ite (fun _ => failNext _) fun _ => look fun _ => pure (Next.gives_give _)

theorem print (rest : Value) : Idle (Native.print rest) Next.Gives :=
  look fun _ => (finish (Q := fun _ => True) _ trivial).bind fun _ _ => observe fun _ =>
    (write _).bind fun _ _ => pure (Next.gives_give _)

theorem strLen (v : Value) : Idle (Native.strLen v) Next.Gives := by
  refine look fun bytes => ?_
  split
  · exact pure (Next.gives_give _)
  · exact failNext _

theorem apply (func args : Value) : Idle (Native.apply func args) Next.Plain := by
  refine (length? _ _ _).bind fun length _ => ?_
  split
  · exact pure ⟨.apply func args, rfl⟩
  · exact pure (Next.plain_give _)

theorem gc : Idle Native.gc Next.Gives :=
  collect.bind fun _ _ => look fun _ => pure (Next.gives_give _)

/-- All primitives but one only give a value. -/
theorem primitive_gives {p : Primitive} (args : List Value) (hp : p ≠ .apply) :
    Idle (p.run args) Next.Gives := by
  unfold Primitive.run
  split
  case h_11 => exact (cons _ _).bind fun _ _ => pure (Next.gives_give _)
  case h_14 => exact setSlot (setCar _ _)
  case h_15 => exact setSlot (setCdr _ _)
  case h_16 => exact pure (Next.gives_give _)
  case h_18 =>
    refine (length? _ _ _).bind fun n _ => ?_
    split
    · exact pure (Next.gives_give _)
    · exact pure (Next.gives_give _)
  case h_1 | h_2 => exact foldRest _
  case h_3 => exact subtract _ _
  case h_4 | h_5 => exact divide _ _
  case h_6 | h_7 | h_8 | h_9 | h_10 => exact compare _ _
  case h_12 | h_13 => exact slot _
  case h_17 => exact listNth _ _
  case h_19 | h_20 | h_21 | h_22 | h_25 | h_26 => exact test _
  case h_23 | h_24 | h_27 => exact look fun _ => test _
  case h_28 => exact strLen _
  case h_29 => exact absurd rfl hp
  case h_30 => exact print _
  case h_31 => exact gc
  case h_32 => exact throw _

/-- **No primitive changes the root stack or the registers.** -/
theorem primitive (p : Primitive) (args : List Value) : Idle (p.run args) Next.Plain := by
  by_cases hp : p = .apply
  · subst hp
    match args with
    | [f, list] => exact apply f list
    | [] | [_] | _ :: _ :: _ :: _ => exact throw _
  · exact (primitive_gives args hp).plain

end Idle

end LispMachine
