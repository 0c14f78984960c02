import LispMachine.Proofs.Application.Arity
import LispMachine.Proofs.Primitive.Lists
import LispMachine.Proofs.Recursion.Alone
import LispMachine.Proofs.Safety.Session
import LispMachine.Proofs.Twin.Gathered

/-!
# What the natives are called with

The natives that take any number of arguments walk along the list of them, and do not look out for
circles. They need not:

* `Primitive.completes` -- on a rest list that ends in nil **every primitive comes to an end**;
* `Next.Regular`, `Regularly` -- what a step hands on: no evaluated form to a call of its own, and
  arguments to an application only if they are a proper list;
* `Machine.Listed` -- **the invariant**: what comes to a call, or to an application, is a proper list;
* `Context.natives_finite` -- so a native never walks in circles, whatever a program has tied together.
-/

namespace LispMachine

open Context Machine

/-! ## 1. Primitives on proper lists -/

section Completes

variable {c : Context} {v w rest : Value} {name : String} {position : Nat} {given : List Value}

/-- The spine of a proper list has its pairs, and ends in nil. -/
theorem Heap.Proper.spine {h : Heap} {n : Nat} (hn : h.Proper v n) :
    (h.spine v).ending = .at .nil ∧ (h.spine v).items.length = n := by
  have hcount : (h.spine v).count = .list n := h.count_eq v ▸ hn.count
  unfold Spine.count at hcount
  split at hcount
  · rename_i last hending
    split at hcount
    · rename_i hnil
      cases last with
      | nil => exact ⟨hending, Count.list.inj hcount⟩
      | _ => cases hnil
    · cases hcount
  · cases hcount

/-- An action that comes to an end and leaves the heap as it is, unless the heap is exhausted. -/
abbrev Looks {α : Type} (x : Run α) (c : Context) : Prop := Attains x c fun _ c' => c'.heap = c.heap

/-- An action that comes to an end, unless the heap is exhausted. -/
abbrev Completes {α : Type} (x : Run α) (c : Context) : Prop := Attains x c fun _ _ => True

theorem Looks.completes {α : Type} {x : Run α} (hx : Looks x c) : Completes x c := hx.weaken fun _ _ _ => trivial

namespace Looks

theorem fail (message : String) (c : Context) : Looks (Context.fail message) c := by
  refine .of_ok (run_modifyGet _ _) ?_
  split <;> rfl

theorem failNext (message : String) (c : Context) : Looks (Context.failNext message) c :=
  (fail message c).bind fun _ _ h => .pure h

theorem int? (name : String) (position : Nat) (v : Value) (c : Context) :
    Looks (Native.int? name position v) c := by
  unfold Native.int?
  split
  · exact .pure rfl
  · exact (fail _ c).bind fun _ _ h => .pure h

theorem isPair (name : String) (position : Nat) (v : Value) (c : Context) :
    Attains (Native.isPair name position v) c fun b c' => c'.heap = c.heap ∧ (b = true → v.isPair = true) := by
  unfold Native.isPair
  split
  · exact .pure ⟨rfl, fun _ => ‹_›⟩
  · exact (fail _ c).bind fun _ _ h => .pure ⟨h, nofun⟩

/-- A count is never left unfinished. -/
theorem length? (name : String) (position : Nat) (v : Value) (c : Context) :
    Looks (Native.length? name position v) c := by
  have hcounted := c.heap.counted v
  refine .look_bind rfl ?_
  generalize c.heap.count v = count at hcounted
  cases hcounted with
  | list _ => exact .pure rfl
  | improper _ => exact (fail _ c).bind fun _ _ h => .pure h
  | circular _ => exact (fail _ c).bind fun _ _ h => .pure h

/-- As many integers as there are elements. -/
theorem foldInts {op : Word → Word → Word} {acc : Word} (vs : List Value) (c : Context) :
    Looks (Native.foldInts name op position acc vs) c := by
  induction vs generalizing position acc c with
  | nil => exact .pure rfl
  | cons v vs ih =>
    refine (int? _ _ _ c).bind fun n c' h => ?_
    split
    · exact (ih c').weaken fun _ _ h' => h'.trans h
    · exact .pure h

theorem chainInts {rel : Word → Word → Bool} {holds : Bool} {previous : Word} (vs : List Value)
    (c : Context) : Looks (Native.chainInts name rel position holds previous vs) c := by
  induction vs generalizing position holds previous c with
  | nil => exact .pure rfl
  | cons v vs ih =>
    refine (int? _ _ _ c).bind fun n c' h => ?_
    split
    · exact (ih c').weaken fun _ _ h' => h'.trans h
    · exact .pure h

/-- A walk along a proper list comes to a result. -/
theorem finish {α : Type} {h : Heap} (hv : h.IsProper v) (result : α) (c : Context) :
    Looks (Native.finish (h.spine v) result) c := by
  obtain ⟨n, hn⟩ := hv
  rw [Native.finish, hn.spine.1]
  exact .pure rfl

theorem foldRest {op : Word → Word → Word} {acc : Word} (hrest : c.heap.IsProper rest) :
    Looks (Native.foldRest name op position acc rest) c := by
  refine .look_bind rfl ((foldInts _ c).bind fun n c' h => ?_)
  split
  · exact (finish hrest _ c').weaken fun _ _ h' => h'.trans h
  · exact .pure h

theorem compare {rel : Word → Word → Bool} (hrest : c.heap.IsProper rest) :
    Looks (Native.compare name rel v rest) c := by
  refine (int? _ _ _ c).bind fun n c₁ h₁ => ?_
  split
  · exact .pure h₁
  · refine .look_bind rfl ((chainInts _ c₁).bind fun holds c₂ h₂ => ?_)
    have hrest₁ : c₁.heap.IsProper rest := h₁ ▸ hrest
    split
    · refine Attains.bind (P := fun _ c' => c'.heap = c.heap) (.of_ok rfl (h₂.trans h₁)) fun b c₃ h₃ => ?_
      exact (finish hrest₁ _ c₃).weaken fun _ _ h' => h'.trans h₃
    · exact .pure (h₂.trans h₁)

theorem subtract (hrest : c.heap.IsProper rest) : Looks (Native.subtract v rest) c := by
  refine (int? _ _ _ c).bind fun n c₁ h₁ => ?_
  split
  · exact .pure h₁
  · split
    · exact .pure h₁
    · exact (foldRest (h₁ ▸ hrest)).weaken fun _ _ h => h.trans h₁

theorem divide {op : Word → Word → Word} (v w : Value) (c : Context) : Looks (Native.divide name op v w) c := by
  refine (int? _ _ _ c).bind fun x c₁ h₁ => (int? _ _ _ c₁).bind fun y c₂ h₂ => ?_
  split
  · split
    · exact (failNext _ c₂).weaken fun _ _ h => h.trans (h₂.trans h₁)
    · exact .pure (h₂.trans h₁)
  · exact .pure (h₂.trans h₁)

theorem listNth (v w : Value) (c : Context) : Looks (Native.listNth v w) c := by
  refine (length? _ _ _ c).bind fun n c₁ h₁ => ?_
  split
  · exact .pure h₁
  · refine (int? _ _ _ c₁).bind fun i c₂ h₂ => ?_
    split
    · exact .pure (h₂.trans h₁)
    · split
      · exact (failNext _ c₂).weaken fun _ _ h => h.trans (h₂.trans h₁)
      · exact .look_bind rfl (.pure (h₂.trans h₁))

/-- **A line is printed** once the walk has ended; how a value displays is a text in any heap. -/
theorem print (hrest : c.heap.IsProper rest) : Looks (Native.print rest) c := by
  refine .look_bind rfl ((finish hrest () c).bind fun _ c₁ h₁ => ?_)
  exact .of_ok rfl h₁

theorem strLen (v : Value) (c : Context) : Looks (Native.strLen v) c := by
  refine .look_bind rfl ?_
  split
  · exact .pure rfl
  · exact failNext _ c

theorem slot (read : Heap → Value → Value) : Looks (Native.slot name read v) c := by
  refine (isPair _ _ _ c).bind fun b c₁ h₁ => ?_
  split
  · exact .look_bind rfl (.pure h₁.1)
  · exact .pure h₁.1

theorem test (b : Bool) (c : Context) : Looks (Native.test b) c := .of_ok rfl rfl

theorem apply (v w : Value) (c : Context) : Looks (Native.apply v w) c := by
  refine (length? _ _ _ c).bind fun n c₁ h₁ => ?_
  split
  · exact .pure h₁
  · exact .pure h₁

end Looks

/-- A slot is written if the argument is a pair. -/
theorem Completes.setSlot {write : Value → Value → HeapM Unit}
    (hw : ∀ a h, ∃ h', write (.pair a) w h = .ok () h') : Completes (Native.setSlot name write v w) c := by
  refine (Looks.isPair _ _ _ c).bind fun b c₁ h₁ => ?_
  split
  · obtain ⟨a, rfl⟩ : ∃ a, v = .pair a := by
      have hpair := h₁.2 ‹_›
      cases v with
      | pair a => exact ⟨a, rfl⟩
      | _ => cases hpair
    obtain ⟨h', hrun⟩ := hw a c₁.heap
    exact .lift_bind hrun (.pure trivial)
  · exact .pure trivial

/-- **Every primitive comes to an end** on as many arguments as it takes, the last of which, if it is the
    rest of them, is a proper list. The other arguments may be what they are: circles are found where a list
    is counted, and a text that is displayed is cut off. -/
theorem Primitive.completes {p : Primitive} (hv : c.heap.Valid) (hslots : given.length = p.arity.slots)
    (hrest : p.arity.rest = true → ∀ rest, given.getLast? = some rest → c.heap.IsProper rest) :
    Completes (p.run given) c := by
  cases p with
  | gc =>
    obtain rfl := List.length_eq_zero_iff.mp hslots
    exact .lift_bind rfl (.look_bind rfl (.pure trivial))
  | add | mul =>
    obtain ⟨rest, rfl⟩ := List.length_eq_one_iff.mp hslots
    exact (Looks.foldRest (hrest rfl rest rfl)).completes
  | list =>
    obtain ⟨rest, rfl⟩ := List.length_eq_one_iff.mp hslots
    exact .pure trivial
  | print =>
    obtain ⟨rest, rfl⟩ := List.length_eq_one_iff.mp hslots
    exact (Looks.print (hrest rfl rest rfl)).completes
  | car | cdr =>
    obtain ⟨v, rfl⟩ := List.length_eq_one_iff.mp hslots
    exact (Looks.slot _).completes
  | length =>
    obtain ⟨v, rfl⟩ := List.length_eq_one_iff.mp hslots
    refine (Looks.length? _ _ _ c).bind fun n c₁ _ => ?_
    split
    · exact .pure trivial
    · exact .pure trivial
  | isNil | isCons | isSym | isInt | not =>
    obtain ⟨v, rfl⟩ := List.length_eq_one_iff.mp hslots
    exact (Looks.test _ c).completes
  | isStr | isFunc =>
    obtain ⟨v, rfl⟩ := List.length_eq_one_iff.mp hslots
    exact .look_bind rfl (Looks.test _ c).completes
  | strLen =>
    obtain ⟨v, rfl⟩ := List.length_eq_one_iff.mp hslots
    exact (Looks.strLen v c).completes
  | sub =>
    obtain ⟨v, rest, rfl⟩ := List.length_eq_two.mp hslots
    exact (Looks.subtract (hrest rfl rest rfl)).completes
  | eq | lt | gt | le | ge =>
    obtain ⟨v, rest, rfl⟩ := List.length_eq_two.mp hslots
    exact (Looks.compare (hrest rfl rest rfl)).completes
  | quotient | remainder =>
    obtain ⟨v, w, rfl⟩ := List.length_eq_two.mp hslots
    exact (Looks.divide v w c).completes
  | cons =>
    obtain ⟨v, w, rfl⟩ := List.length_eq_two.mp hslots
    exact (Attains.builds_cons hv v w).bind fun _ _ _ => .pure trivial
  | setCar | setCdr =>
    obtain ⟨v, w, rfl⟩ := List.length_eq_two.mp hslots
    exact Completes.setSlot fun a h => ⟨_, rfl⟩
  | listRef =>
    obtain ⟨v, w, rfl⟩ := List.length_eq_two.mp hslots
    exact (Looks.listNth v w c).completes
  | same =>
    obtain ⟨v, w, rfl⟩ := List.length_eq_two.mp hslots
    exact (Looks.test _ c).completes
  | equal =>
    obtain ⟨v, w, rfl⟩ := List.length_eq_two.mp hslots
    exact .look_bind rfl (Looks.test _ c).completes
  | apply =>
    obtain ⟨v, w, rfl⟩ := List.length_eq_two.mp hslots
    exact (Looks.apply v w c).completes

end Completes

/-! ## 2. What a step hands on -/

/-- A step that waits for an evaluated form. -/
def Pending.isCall : Pending → Bool
  | .call _ => true
  | _ => false

/-- **What a step hands on**: no value to a call that it leaves to be done itself, and no arguments to an
    application but a proper list. -/
structure Next.Regular (next : Next) (c : Context) : Prop where
  give : ∀ v, next.task = .give v → ∀ tail ps, next.pending ≠ .call tail :: ps
  apply : ∀ func args, next.task = .apply func args → c.heap.IsProper args

/-- A step that hands on nothing else, wherever it is taken. -/
def Regularly (x : Run Next) : Prop := ∀ c, Yields x c Next.Regular

namespace Regularly

variable {α : Type} {x y : Run Next} {f : α → Run Next} {env expr args v frame forms rest last : Value}
variable {tail : Bool} {call : Call} {slot : Nat}

theorem give (v : Value) : Regularly (Pure.pure (.give v)) := fun _ => .pure ⟨fun _ _ _ _ => nofun, nofun⟩

theorem eval (env expr : Value) (tail : Bool) (ps : List Pending) :
    Regularly (Pure.pure { task := .eval env expr tail, pending := ps }) := fun _ => .pure ⟨nofun, nofun⟩

theorem evalList (env list : Value) (ps : List Pending) :
    Regularly (Pure.pure { task := .evalList env list, pending := ps }) := fun _ => .pure ⟨nofun, nofun⟩

/-- What comes last hands on. -/
theorem bind {z : Run α} (h : ∀ a, Regularly (f a)) : Regularly (z >>= f) := fun _ =>
  Yields.bind (P := fun _ _ => True) (fun _ _ _ => trivial) fun a c' _ => h a c'

theorem ite {p : Prop} [Decidable p] (hx : Regularly x) (hy : Regularly y) :
    Regularly (if p then x else y) := fun c => .ite (fun _ => hx c) fun _ => hy c

/-- A step that gives a value and nothing else. -/
theorem gives (hx : Idle x Next.Gives) : Regularly x := fun c next c' hrun => by
  obtain ⟨-, v, rfl⟩ := hx.yields (.refl c) next c' hrun
  exact give v c' _ c' rfl

/-- One more step waits behind. -/
theorem andThen {p : Pending} (hx : Regularly x) (hp : p.isCall = false) :
    Regularly (x >>= fun next => Pure.pure (next.andThen p)) := fun c =>
  (hx c).bind fun next c' h => .pure
    { give := fun v hgive tail ps hps => by
        -- what is in front was in front before, or it is the step behind
        rw [Next.andThen] at hps
        cases hpending : next.pending with
        | nil =>
          rw [hpending] at hps
          cases hps
          cases hp
        | cons q qs =>
          rw [hpending] at hps
          cases hps
          exact h.give v hgive _ _ hpending
      apply := h.apply }

/-! ### Natives -/

theorem failNext (message : String) : Regularly (Context.failNext message) := gives (.failNext message)

/-- **The native that applies looks at the list first.** -/
theorem apply (func args : Value) : Regularly (Native.apply func args) := by
  intro c
  have hcounted := c.heap.counted args
  have hlength : Yields (Native.length? Primitive.apply.name 2 args) c
      fun n c' => n.isSome = true → c'.heap.IsProper args := by
    refine .look ?_
    generalize c.heap.count args = count at hcounted
    cases hcounted with
    | list hn => exact .pure fun _ => ⟨_, hn⟩
    | improper _ => exact Yields.bind (P := fun _ _ => True) (fun _ _ _ => trivial) fun _ _ _ => .pure nofun
    | circular _ => exact Yields.bind (P := fun _ _ => True) (fun _ _ _ => trivial) fun _ _ _ => .pure nofun
  refine hlength.bind fun n c' hn => ?_
  cases n with
  | none => exact give .nil c'
  | some n =>
    refine .pure ⟨nofun, ?_⟩
    rintro _ _ ⟨⟩
    exact hn rfl

theorem primitive (p : Primitive) (args : List Value) : Regularly (p.run args) := by
  by_cases hp : p = .apply
  · subst hp
    match args with
    | [f, list] => exact apply f list
    | [] | [_] | _ :: _ :: _ :: _ => exact fun _ => .throw _
  · exact gives (Idle.primitive_gives args hp)

theorem enterNative (func args : Value) : Regularly (Machine.enterNative Host.none func args) := by
  refine bind fun found => ?_
  cases found with
  | none => exact failNext _
  | some p =>
    refine bind fun taken => ?_
    cases taken with
    | error misfit => exact failNext _
    | ok args =>
      cases p with
      | primitive p => exact primitive p args
      | hosted name arity entry => exact failNext _

/-! ### Calls -/

theorem finish (v : Value) : Regularly (Machine.finish call v) := by
  refine bind fun _ => ite (bind fun _ => bind fun _ => ?_) ?_
  · exact bind fun _ => bind fun _ => give v
  · exact bind fun _ => bind fun _ => give v

theorem enterForms (v : Value) : Regularly (Machine.enterForms call frame forms v) :=
  ite (bind fun _ => eval _ _ _ _) (finish v)

theorem enterBody (args : Value) : Regularly (Machine.enterBody call args) := by
  refine bind fun frame => bind fun _ => bind fun _ => bind fun _ => ?_
  exact ite (finish .nil) (enterForms .nil)

theorem resumeBody (v : Value) : Regularly (Machine.resumeBody call frame forms v) := by
  refine bind fun _ => ite (finish .nil) (bind fun _ => ite ?_ (bind fun _ => enterForms v))
  exact bind fun _ => bind fun _ => enterBody v

theorem enterFunction (func args : Value) : Regularly (Machine.enterFunction func args) := by
  refine bind fun _ => bind fun _ => bind fun _ => bind fun _ => bind fun _ => ?_
  exact enterBody args

theorem enterApply (func args : Value) : Regularly (Machine.enterApply Host.none func args) := by
  refine bind fun base => bind fun _ => bind fun type => ite ?_ (ite ?_ ?_)
  · exact andThen (enterFunction func args) rfl
  · exact andThen (enterNative func args) rfl
  · exact andThen (failNext _) rfl

theorem resumeCall (form : Value) : Regularly (Machine.resumeCall Host.none tail form) := by
  refine bind fun _ => ite (give .nil) (bind fun _ => bind fun func => bind fun args => bind fun type => ?_)
  refine ite (bind fun _ => ite (bind fun _ => give args) (enterFunction func args)) (ite ?_ (failNext _))
  exact enterNative func args

/-! ### Forms -/

theorem enterSequence (v : Value) : Regularly (Machine.enterSequence env forms tail v) :=
  ite (bind fun _ => eval _ _ _ _) (give v)

theorem enterConjunction (v : Value) : Regularly (Machine.enterConjunction env forms tail v) :=
  ite (bind fun _ => eval _ _ _ _) (give v)

theorem enterDisjunction : Regularly (Machine.enterDisjunction env forms tail) :=
  ite (bind fun _ => eval _ _ _ _) (give .nil)

theorem enterBindings (bindings : Value) :
    Regularly (Machine.enterBindings env frame args bindings tail) := by
  have hbound : ∀ name expr : Value, Regularly (if !name.isSym then Context.failNext "let: Invalid binding"
      else Pure.pure (.eval env expr false (.binding env frame args bindings name tail))) := fun _ _ =>
    ite (failNext _) (eval _ _ _ _)
  refine ite (bind fun binding => ?_) (bind fun _ => enterSequence .nil)
  exact ite (hbound _ _) (bind fun _ => hbound _ _)

theorem standardForm (form : StandardForm) : Regularly (form.enter env args tail) := by
  cases form with
  | quote => exact bind fun v => give v
  | branch => exact bind fun _ => ite (failNext _) (bind fun _ => eval _ _ _ _)
  | define =>
    refine ite (failNext _) (bind fun _ => bind fun _ => ite (bind fun _ => eval _ _ _ _) (ite ?_ (failNext _)))
    exact bind fun _ => bind fun _ => ite (failNext _) (bind fun _ => bind fun _ => bind fun _ => give .nil)
  | lambda => exact bind fun _ => bind fun _ => ite (failNext _) (bind fun _ => bind fun f => give f)
  | sequence => exact enterSequence .nil
  | conjunction => exact bind fun truth => enterConjunction truth
  | disjunction => exact enterDisjunction
  | binding =>
    refine ite (failNext _) (bind fun base => bind fun frame => bind fun _ => bind fun bindings => ?_)
    exact andThen (enterBindings bindings) rfl
  | assignment => exact bind fun _ => ite (failNext _) (bind fun _ => eval _ _ _ _)

/-! ### Evaluation and source text -/

theorem enterForm (expr : Value) : Regularly (Machine.enterForm Host.none env expr tail) := by
  refine bind fun form => ?_
  split
  · exact bind fun _ => standardForm _
  · exact bind fun _ => failNext _
  · exact evalList _ _ _

theorem enterEval (expr : Value) : Regularly (Machine.enterEval Host.none env expr tail) := by
  cases expr with
  | nil | int n | object a => exact give _
  | sym id => exact bind fun v => give v
  | pair a =>
    refine bind fun _ => ite (failNext _) (bind fun _ => bind fun base => bind fun _ => ?_)
    exact andThen (enterForm _) rfl

theorem enterArguments (rest : Value) : Regularly (Machine.enterArguments env rest slot last) :=
  ite (bind fun _ => eval _ _ _ _) (bind fun out => bind fun _ => give out)

theorem finishExec : Regularly (Machine.finishExec slot) := bind fun out => bind fun _ => give out

theorem enterNextForm (source : List Char) (echo : Bool) :
    Regularly (Machine.enterNextForm source slot echo) := by
  refine bind fun _ => bind fun read => ?_
  split
  · exact bind fun _ => bind fun _ => eval _ _ _ _
  · exact finishExec
  · exact bind fun _ => bind fun _ => finishExec

/-- **A task is done.** -/
theorem step (task : Task) : Regularly (task.step Host.none) := by
  cases task with
  | give v => exact give v
  | eval env expr tail => exact enterEval expr
  | evalList env list => exact bind fun _ => enterArguments list
  | apply func args => exact enterApply func args
  | exec source echo => exact bind fun _ => enterNextForm source echo

/-- **A step that waits goes on.** -/
theorem resume (p : Pending) (v : Value) : Regularly (p.resume Host.none v) := by
  cases p with
  | leave base => exact bind fun _ => bind fun _ => give v
  | release base => exact bind fun _ => give v
  | call tail => exact resumeCall v
  | argument env rest base last =>
    exact bind fun _ => ite (bind fun _ => give .nil) (bind fun _ => bind fun next => enterArguments next)
  | body call frame forms => exact resumeBody v
  | branch env args tail => exact bind fun _ => ite (give .nil) (bind fun _ => eval _ _ _ _)
  | define env name => exact bind fun _ => ite (give .nil) (bind fun _ => give .nil)
  | assign env name => exact bind fun _ => ite (give .nil) (bind fun v => give v)
  | sequence env forms tail => exact bind fun _ => ite (give .nil) (bind fun _ => enterSequence v)
  | conjunction env forms tail => exact bind fun _ => ite (give .nil) (bind fun _ => enterConjunction v)
  | disjunction env forms tail =>
    exact bind fun _ => ite (give .nil) (ite (give v) (bind fun _ => enterDisjunction))
  | binding env frame args bindings name tail =>
    exact bind fun _ => ite (give .nil) (bind fun _ => bind fun rest => enterBindings rest)
  | exec source base echo =>
    refine bind fun _ => bind fun _ => ite finishExec (ite ?_ ?_)
    · exact bind fun _ => bind fun _ => enterNextForm source echo
    · exact enterNextForm source echo

end Regularly

/-- What comes to a call from a step has been handed on to it by the step before. -/
theorem Next.Regular.eq_nil {next : Next} {c : Context} {v : Value} {tail : Bool} {ps qs : List Pending}
    (h : next.Regular c) (hgive : next.task = .give v) (hps : next.pending ++ ps = .call tail :: qs) :
    next.pending = [] ∧ ps = .call tail :: qs := by
  cases hpending : next.pending with
  | nil =>
    rw [hpending] at hps
    exact ⟨rfl, hps⟩
  | cons p rest =>
    rw [hpending] at hps
    cases hps
    exact absurd hpending (h.give v hgive tail rest)

/-! ## 3. The invariant -/

namespace Machine

section Listed

variable {lex : Lexicon} {host : Host} {σ σ' : State} {c c' : Context} {p : Primitive} {args v : Value}

/-- **What comes to a call, or to an application, is a proper list.** -/
structure Listed (lex : Lexicon) (σ : State) : Prop where
  mirrored : Mirrored lex σ
  form : ∀ v tail ps, σ.task = .give v → σ.pending = .call tail :: ps → σ.context.heap.IsProper v
  args : ∀ func args, σ.task = .apply func args → σ.context.heap.IsProper args

/-- **A step keeps it so**: lists of arguments are made of cells that nobody else has, and are handed over
    at once. -/
theorem Listed.step (h : Listed lex σ) (hs : Step Host.none σ σ') : Listed lex σ' := by
  refine ⟨h.mirrored.step hs, ?_, ?_⟩
  · intro v tail qs hgive hpending
    cases hs with
    | @work c c' task ps next htask hrun =>
      obtain ⟨-, rfl⟩ := (Regularly.step task c next c' hrun).eq_nil hgive hpending
      rcases h.mirrored.before_call with ⟨u, rfl⟩ | ⟨env, list, rfl⟩
      · exact absurd rfl (htask u)
      · exact enterEvalList_givesList env list next c' hrun v hgive
    | @resume c c' u p ps next hrun =>
      obtain ⟨-, rfl⟩ := (Regularly.resume p u c next c' hrun).eq_nil hgive hpending
      obtain ⟨env, rest, base, last, rfl⟩ := h.mirrored.resumed_before_call
      exact h.mirrored.argument next c' hrun v hgive
  · intro func args happly
    cases hs with
    | work _ hrun => exact (Regularly.step _ _ _ _ hrun).apply func args happly
    | resume hrun => exact (Regularly.resume _ _ _ _ _ hrun).apply func args happly

/-- The first step of a text begins it. -/
theorem Listed.exec {source : List Char} {echo : Bool} {W : World} (hplain : lex.nested = false)
    (hfull : lex.vacant = none) (hD : (beside W c).Matched lex (.nil, .nil))
    (hlex : Lexical lex (beside W c)) (hs : Step Host.none ⟨c, .exec source echo, []⟩ σ) : Listed lex σ := by
  refine ⟨.exec hplain hfull hD hlex hs, ?_, ?_⟩
  · intro v tail qs hgive hpending
    cases hs with
    | work _ hrun =>
      obtain ⟨-, hps⟩ := (Regularly.step _ _ _ _ hrun).eq_nil hgive hpending
      cases hps
  · intro func args happly
    cases hs with
    | work _ hrun => exact (Regularly.step _ _ _ _ hrun).apply func args happly

/-- **It holds before every step of a text** but the first. -/
theorem listed_of_reaches {source : List Char} {echo : Bool} {W : World} (hplain : lex.nested = false)
    (hfull : lex.vacant = none) (hD : (beside W c).Matched lex (.nil, .nil))
    (hlex : Lexical lex (beside W c)) (hreach : Reaches Host.none ⟨c, .exec source echo, []⟩ σ) :
    σ = ⟨c, .exec source echo, []⟩ ∨ Listed lex σ := by
  induction hreach with
  | refl => exact .inl rfl
  | tail _ hs ih =>
    rcases ih with rfl | h
    · exact .inr (.exec hplain hfull hD hlex hs)
    · exact .inr (h.step hs)

/-! ## 4. Calls of natives -/

/-- **The machine is about to call a primitive** on a list of arguments: it is the head of an evaluated
    form, or what another primitive applies. -/
inductive Calls (p : Primitive) : Value → State → Prop where
  | form {c : Context} {form : Value} {tail : Bool} {ps : List Pending} (hok : c.failing = false)
      (hp : c.heap.procedure? (c.heap.car form) = some (.primitive p)) :
      Calls p (c.heap.cdr form) ⟨c, .give form, .call tail :: ps⟩
  | apply {c : Context} {func args : Value} {ps : List Pending}
      (hp : c.heap.procedure? func = some (.primitive p)) : Calls p args ⟨c, .apply func args, ps⟩

/-- What is called has a proper list for its arguments. -/
theorem Listed.isProper (h : Listed lex σ) (hcalls : Calls p args σ) : σ.context.heap.IsProper args := by
  cases hcalls with
  | form _ _ => exact (h.form _ _ _ rfl rfl).cdr
  | apply _ => exact h.args _ _ rfl

/-- What is left of the arguments is where the walk along them has come to. -/
theorem takeRequired_left {h : Heap} {n : Nat} {given : List Value} {left : Value}
    (htake : takeRequired h n v = some (given, left)) : left = h.cdr^[n] v := by
  induction n generalizing v given with
  | zero =>
    cases htake
    rfl
  | succ n ih =>
    rw [takeRequired] at htake
    split at htake
    · obtain ⟨⟨given', left'⟩, htake', heq⟩ := Option.map_eq_some_iff.mp htake
      cases heq
      rw [Function.iterate_succ_apply]
      exact ih htake'
    · cases htake

/-- **The rest of a proper list of arguments is a proper list.** -/
theorem takeArguments_rest {h : Heap} {arity : Arity} {given : List Value} {rest : Value}
    (hargs : h.IsProper args) (htake : takeArguments h arity args = .ok given)
    (hrest : arity.rest = true) (hlast : given.getLast? = some rest) : h.IsProper rest := by
  unfold takeArguments at htake
  split at htake
  · cases htake
  · rename_i required left hrequired
    dsimp only at htake
    rw [if_pos hrest, takeOptional_eq] at htake
    cases htake
    rw [List.getLast?_concat, Option.some.injEq] at hlast
    rw [← hlast, takeRequired_left hrequired]
    exact (hargs.iterate _).iterate _

/-- **The call of a native comes to an end** on a proper list of arguments, whatever is rooted. -/
theorem enterNative_completes (hv : c.heap.Valid) (hargs : c.heap.IsProper args) {func : Value}
    (hp : c.heap.procedure? func = some (.primitive p)) (roots : Array Value) :
    Completes (enterNative host func args) (c.withRoots roots) := by
  have hp' : (c.withRoots roots).heap.procedure? func = some (.primitive p) := hp
  have hargs' : (c.withRoots roots).heap.IsProper args := hargs.congr rfl
  refine .congr (enterNative_run hp') (d := c.withRoots roots) ?_
  split
  · rename_i given htake
    exact Primitive.completes (hv.withRoots roots) (length_takeArguments htake) fun hrest rest hlast =>
      takeArguments_rest hargs' htake hrest hlast
  · exact (Looks.failNext _ _).completes

/-- A step that comes to an end leads on. -/
theorem resume_or_faults {u : Value} {q : Pending} {ps : List Pending} (hx : Completes (q.resume host u) c) :
    (∃ σ', Step host ⟨c, .give u, q :: ps⟩ σ') ∨ Faults host .heapExhausted ⟨c, .give u, q :: ps⟩ := by
  unfold Completes Attains at hx
  cases hrun : q.resume host u c with
  | ok next c' => exact .inl ⟨_, .resume hrun⟩
  | error f c' =>
    rw [hrun] at hx
    subst hx
    exact .inr (.resume hrun)

theorem work_or_faults {task : Task} {ps : List Pending} (htask : ∀ v, task ≠ .give v)
    (hx : Completes (task.step host) c) :
    (∃ σ', Step host ⟨c, task, ps⟩ σ') ∨ Faults host .heapExhausted ⟨c, task, ps⟩ := by
  unfold Completes Attains at hx
  cases hrun : task.step host c with
  | ok next c' => exact .inl ⟨_, .work htask hrun⟩
  | error f c' =>
    rw [hrun] at hx
    subst hx
    exact .inr (.work htask hrun)

/-- **So does the step that makes the call.** -/
theorem Calls.completes (hcalls : Calls p args σ) (hv : σ.context.heap.Valid)
    (hargs : σ.context.heap.IsProper args) :
    (∃ σ', Step host σ σ') ∨ Faults host .heapExhausted σ := by
  cases hcalls with
  | form hok hp =>
    exact resume_or_faults (.congr (resumeCall_native hok (Heap.typeOf_of_procedure? hp))
      (enterNative_completes hv hargs hp _))
  | apply hp =>
    refine work_or_faults nofun (.congr (enterApply_native (Heap.typeOf_of_procedure? hp)) ?_)
    exact Attains.bind (enterNative_completes hv hargs hp _) fun _ _ _ => .pure trivial

end Listed

end Machine

/-! ## 5. Texts -/

namespace Context

variable {cfg : Config} {c c₁ : Context} {host : Host} {σ : State} {texts : List (String × Bool)}
variable {lex : Lexicon} {ρ : Value}

/-- A context that agrees with itself. -/
def Mirrored (lex : Lexicon) (c : Context) : Prop :=
  ∃ W, (beside W c).Matched lex (.nil, .nil) ∧ Lexical lex (beside W c)

/-- **A fresh context agrees with itself.** -/
theorem exists_mirrored (hc : create cfg = .ok c) :
    ∃ lex, lex.nested = false ∧ lex.vacant = none ∧ Mirrored lex c := by
  obtain ⟨lex, W, slot, hplain, huntouched, hD, hlex⟩ := create_matched rfl hc hc
  have hslot : slot = id := hD.coherent.plain hplain
  subst hslot
  exact ⟨lex, hplain, huntouched.full, W, hD, hlex⟩

/-- The embedding program is not asked. -/
theorem Ready.reaches_none {source : List Char} {echo : Bool} (h : Ready ρ c)
    (hreach : Reaches host ⟨c, .exec source echo, []⟩ σ) : Reaches Host.none ⟨c, .exec source echo, []⟩ σ := by
  induction hreach with
  | refl => exact .refl
  | tail hreach hs ih => exact ih.tail (hs.without (h.guarded hreach).context)

/-- **What comes to a call in any of several texts** is a proper list. -/
theorem Ready.listed {source : List Char} {echo : Bool} (h : Ready ρ c) (hplain : lex.nested = false)
    (hfull : lex.vacant = none) (hself : Mirrored lex c)
    (hreach : Reaches host ⟨c, .exec source echo, []⟩ σ) :
    σ = ⟨c, .exec source echo, []⟩ ∨ Listed lex σ := by
  obtain ⟨W, hD, hlex⟩ := hself
  exact listed_of_reaches hplain hfull hD hlex (h.reaches_none hreach)

/-- Texts that come to an end leave the context in agreement with itself. -/
theorem Ready.mirrored (h : Ready ρ c) (hplain : lex.nested = false) (hfull : lex.vacant = none)
    (hself : Mirrored lex c) (hafter : After host c texts c₁) : Mirrored lex c₁ := by
  induction hafter with
  | nil => exact hself
  | snoc hbefore hreach ih =>
    rcases (h.after hbefore).listed hplain hfull ih hreach with hsame | hlisted
    · cases hsame
    · exact hlisted.mirrored.finished

/-- **Natives never spin.** Whatever texts a standard context has been given, and however far it is in one
    more: where a primitive is called with a list of arguments, as the head of a form or by the primitive
    that applies,

    * the list is proper, and so is what is left of it for the rest: it has finitely many elements, and a
      walk along them ends in nil;
    * the call comes to an end, unless the heap is exhausted. It would run out of steps if a walk did not
      end, or if the count of the pairs of a value did not;
    * that count comes to an end for every value, in whatever shape the program has made it. -/
theorem natives_finite (hc : create cfg = .ok c) (hafter : After host c texts c₁) {source : String}
    {echo : Bool} (hreach : Reaches host ⟨c₁, .exec source.toList echo, []⟩ σ) {p : Primitive} {args : Value}
    (hcalls : Calls p args σ) :
    (∃ n, σ.context.heap.Proper args n) ∧
    (∀ given, takeArguments σ.context.heap p.arity args = .ok given → p.arity.rest = true →
      ∃ rest n, given.getLast? = some rest ∧ σ.context.heap.Proper rest n ∧
        (σ.context.heap.spine rest).ending = .at .nil ∧ (σ.context.heap.spine rest).items.length = n) ∧
    ((∃ σ', Step host σ σ') ∨ Faults host .heapExhausted σ) ∧
    ∀ v, σ.context.heap.count v ≠ .unfinished := by
  obtain ⟨ρ, hready⟩ := exists_ready hc
  obtain ⟨lex, hplain, hfull, hself⟩ := exists_mirrored hc
  have hready₁ := hready.after hafter
  have hargs : σ.context.heap.IsProper args := by
    rcases hready₁.listed hplain hfull (hready.mirrored hplain hfull hself hafter) hreach with rfl | hlisted
    · cases hcalls
    · exact hlisted.isProper hcalls
  have hvalid := (hready₁.guarded hreach).context.heap.valid
  refine ⟨hargs, fun given htake hrest => ?_, hcalls.completes hvalid hargs, fun v hcount => ?_⟩
  · have hslots : given.length = p.arity.slots := length_takeArguments htake
    cases hlast : given.getLast? with
    | none =>
      rw [List.getLast?_eq_none_iff] at hlast
      rw [hlast, Arity.slots, if_pos hrest] at hslots
      cases hslots
    | some rest =>
      obtain ⟨n, hn⟩ := takeArguments_rest hargs htake hrest hlast
      exact ⟨rest, n, rfl, hn, hn.spine⟩
  · have hcounted := σ.context.heap.counted v
    rw [hcount] at hcounted
    cases hcounted

/-- What is called in a state, if it is a primitive. -/
def calls? (σ : State) : Option (Primitive × Value) :=
  match σ.task, σ.pending with
  | .give form, .call _ :: _ =>
    if σ.context.failing then none
    else
      match σ.context.heap.procedure? (σ.context.heap.car form) with
      | some (.primitive p) => some (p, σ.context.heap.cdr form)
      | _ => none
  | .apply func args, _ =>
    match σ.context.heap.procedure? func with
    | some (.primitive p) => some (p, args)
    | _ => none
  | _, _ => none

theorem calls_of_calls? {p : Primitive} {args : Value} (h : calls? σ = some (p, args)) : Calls p args σ := by
  obtain ⟨c, task, ps⟩ := σ
  unfold calls? at h
  dsimp only at h
  split at h
  · split at h
    · cases h
    · rename_i hok
      split at h
      · rename_i hp
        cases h
        exact .form (Bool.eq_false_iff.mpr hok) hp
      · cases h
  · split at h
    · rename_i hp
      cases h
      exact .apply hp
    · cases h
  · cases h

/-- Whether a text in a fresh context prints a list that does not end, in fewer steps than `n`. -/
def printsKnot (cfg : Config) (source : String) (n : Nat) : Bool :=
  match create cfg with
  | .error _ => false
  | .ok c =>
    ((State.mk c (.exec source.toList false) []).trace Host.none n).any fun σ =>
      match calls? σ with
      | some (.print, args) => decide (σ.context.heap.count (σ.context.heap.car args) = .circular)
      | _ => false

theorem exists_of_printsKnot {cfg : Config} {source : String} {n : Nat} (h : printsKnot cfg source n = true) :
    ∃ c σ args, create cfg = .ok c ∧ Reaches Host.none ⟨c, .exec source.toList false, []⟩ σ ∧
      Calls .print args σ ∧ σ.context.heap.Circular (σ.context.heap.car args) := by
  unfold printsKnot at h
  split at h
  · cases h
  · rename_i c hc
    obtain ⟨σ, hmem, hknot⟩ := List.any_eq_true.mp h
    split at hknot
    · rename_i args hcalls
      exact ⟨c, σ, args, hc, Reaches.of_mem_trace hmem, calls_of_calls? hcalls,
        Heap.count_eq_circular_iff.mp (of_decide_eq_true hknot)⟩
    · cases hknot

/-- A list that has been tied to itself is printed: it is an element of the rest list, which is proper. -/
theorem natives_finite_knotted : ∃ c σ args, create compact = .ok c ∧
    Reaches Host.none ⟨c, .exec "(define x (list 1)) (set-cdr! x x) (print x)".toList false, []⟩ σ ∧
    Calls .print args σ ∧ σ.context.heap.Circular (σ.context.heap.car args) ∧
    (∃ n, σ.context.heap.Proper args n) ∧ ((∃ σ', Step Host.none σ σ') ∨ Faults Host.none .heapExhausted σ) := by
  have hprints : printsKnot compact "(define x (list 1)) (set-cdr! x x) (print x)" 60 = true := by decide +kernel
  obtain ⟨c, σ, args, hc, hreach, hcalls, hcircular⟩ := exists_of_printsKnot hprints
  obtain ⟨hproper, -, hx, -⟩ := natives_finite hc .nil hreach hcalls
  exact ⟨c, σ, args, hc, hreach, hcalls, hcircular, hproper, hx⟩

end Context

end LispMachine
