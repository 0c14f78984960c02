import LispMachine.Machine.Call
import LispMachine.Proofs.Action

/-!
# What follows a failure

No action is cut short when it fails: whoever called it has to look at the state of failure. So an
action is safe if, once `Context.fail` has been called, only such actions follow as take the evaluation
down:

* `Aborted` -- **what may change after a failure**: the height of the root stack, the running function,
  the depth, and the lines of traceback in front of the message (`Context.Traceback`);
* `Fails` -- an action calls `Context.fail` on its way, and the context right after that call;
* `Breaks` -- actions that come to an aborted end if they fail, with a result that has a property;
* `Calm` -- actions that do not fail; `Rests` -- actions that change nothing where a failure has
  happened before.

There follow the actions that the evaluator is made of, up to the natives (`Breaks.primitive`).
-/

namespace LispMachine

open Context

/-! ## 1. What may change -/

/-- The messages that lines of traceback make of a failure: each names a function by its symbol. -/
inductive Context.Traceback (c : Context) : String → Prop where
  | cause : Traceback c c.failure
  | line {message : String} (name : Value) (hname : name.isSym = true) (h : Traceback c message) :
      Traceback c ("In " ++ c.display name ++ ":\n" ++ message)

/-- **What may change after a failure**, which has led to the context `c`. -/
structure Aborted (c c' : Context) : Prop where
  failing : c'.failing = true
  traceback : c.Traceback c'.failure
  unchanged : c' =
    { c with
      failing := true
      heap := { c.heap with roots := c'.heap.roots }
      current := c'.current
      depth := c'.depth
      failure := c'.failure }

namespace Aborted

variable {c c₁ c₂ : Context}

theorem refl (hc : c.failing = true) : Aborted c c where
  failing := hc
  traceback := .cause
  unchanged := by rw [← hc]

theorem symbols (h : Aborted c c₁) : c₁.symbols = c.symbols := by rw [h.unchanged]

/-- A symbol is displayed by its name alone. -/
theorem display_sym {name : Value} (hname : name.isSym = true) (h : c₁.symbols = c.symbols) :
    c₁.display name = c.display name := by
  cases name with
  | sym id =>
    show "" ++ Printer.symbolText c₁.symbols id = "" ++ Printer.symbolText c.symbols id
    rw [h]
  | _ => cases hname

theorem trans (h : Aborted c c₁) (h' : Aborted c₁ c₂) : Aborted c c₂ where
  failing := h'.failing
  traceback := by
    have hlines := h'.traceback
    generalize c₂.failure = message at hlines
    induction hlines with
    | cause => exact h.traceback
    | line name hname _ ih =>
      rw [display_sym hname h.symbols]
      exact .line name hname ih
  unchanged := by
    have h₁ := h.unchanged
    have h₂ := h'.unchanged
    rw [h₁] at h₂
    exact h₂

end Aborted

/-! ## 2. Actions that fail -/

/-- **An action fails** on its way: begun in the one context it calls `Context.fail`, which leads to the
    other one. -/
inductive Fails : {α : Type} → Run α → Context → Context → Prop where
  | fail {c : Context} (message : String) (hc : c.failing = false) :
      Fails (Context.fail message) c
        { c with failing := true, failure := Text.clip failureCap message }
  | first {α β : Type} {x : Run α} {f : α → Run β} {c c₁ : Context} (h : Fails x c c₁) :
      Fails (x >>= f) c c₁
  | later {α β : Type} {x : Run α} {f : α → Run β} {c c' c₁ : Context} {a : α}
      (hx : x c = .ok a c') (h : Fails (f a) c' c₁) : Fails (x >>= f) c c₁

/-- **An action that breaks off** where it fails: nothing is changed from there to its end but what may
    change after a failure, and its result has a property. -/
structure Breaks {α : Type} (x : Run α) (Q : α → Prop) : Prop where
  breaks : ∀ {c c' : Context} {a : α}, c.failing = false → x c = .ok a c' → c'.failing = true →
    ∃ c₁, Fails x c c₁ ∧ Aborted c₁ c' ∧ Q a

/-- An action that does not fail. -/
abbrev Calm {α : Type} (x : Run α) : Prop := Breaks x fun _ => False

/-- **An action that rests** where a failure has happened before. -/
structure Rests {α : Type} (x : Run α) (Q : α → Prop) : Prop where
  rests : ∀ {c c' : Context} {a : α}, c.failing = true → x c = .ok a c' → Aborted c c' ∧ Q a

section Rules

variable {α β : Type} {x y : Run α} {f : α → Run β} {P Q : α → Prop} {R : β → Prop}

namespace Calm

/-- An action that leaves the state of failure alone. -/
theorem of_failing (h : ∀ {c c' : Context} {a : α}, c.failing = false → x c = .ok a c' →
    c'.failing = false) : Calm x where
  breaks hc hrun hc' := by
    rw [h hc hrun] at hc'
    cases hc'

theorem failing_eq (h : Calm x) {c c' : Context} {a : α} (hc : c.failing = false)
    (hrun : x c = .ok a c') : c'.failing = false := by
  cases hc' : c'.failing with
  | false => rfl
  | true =>
    obtain ⟨_, _, _, hfalse⟩ := h.breaks hc hrun hc'
    exact hfalse.elim

theorem lift (g : HeapM α) : Calm (liftM g : Run α) := by
  refine of_failing fun {c c' a} hc hrun => ?_
  replace hrun : onHeap g c = .ok a c' := hrun
  unfold onHeap at hrun
  cases hg : g c.heap with
  | ok b h =>
    rw [hg] at hrun
    cases hrun
    exact hc
  | error e h =>
    rw [hg] at hrun
    cases hrun

theorem edit {g : Context → Context} (hg : ∀ c, c.failing = false → (g c).failing = false) :
    Calm (modify g : Run PUnit) := by
  refine of_failing fun {c c' a} hc hrun => ?_
  cases hrun
  exact hg c hc

theorem ofBool (b : Bool) : Calm (ofBool b) := by
  refine of_failing fun {c c' a} hc hrun => ?_
  cases hrun
  exact hc

theorem intern (name : String) : Calm (intern name) := by
  refine of_failing fun {c c' a} hc hrun => ?_
  unfold Context.intern at hrun
  split at hrun
  · cases hrun
    exact hc
  · cases hrun

theorem reset : Calm reset := edit fun _ _ => rfl

theorem write (s : String) : Calm (write s) := edit fun _ h => h

end Calm

namespace Breaks

theorem weaken (hx : Breaks x P) (h : ∀ a, P a → Q a) : Breaks x Q where
  breaks hc hrun hc' := by
    obtain ⟨c₁, hfails, habort, hp⟩ := hx.breaks hc hrun hc'
    exact ⟨c₁, hfails, habort, h _ hp⟩

theorem calm (hx : Calm x) : Breaks x Q := hx.weaken fun _ h => h.elim

theorem pure (a : α) : Breaks (Pure.pure a : Run α) Q :=
  calm (.of_failing fun hc hrun => by cases hrun; exact hc)

theorem throw (e : Fault) : Breaks (MonadExcept.throw e : Run α) Q :=
  calm (.of_failing fun _ hrun => by cases hrun)

/-- **Sequences**: what comes after a failure rests. -/
theorem bind (hx : Breaks x P) (hf : ∀ a, Breaks (f a) R) (hr : ∀ a, P a → Rests (f a) R) :
    Breaks (x >>= f) R where
  breaks {c c' b} hc hrun hc' := by
    obtain ⟨a, c₂, hxrun, hfrun⟩ := bind_eq_ok.mp hrun
    cases hmid : c₂.failing with
    | true =>
      obtain ⟨c₁, hfails, habort, hp⟩ := hx.breaks hc hxrun hmid
      obtain ⟨hrest, hq⟩ := (hr a hp).rests hmid hfrun
      exact ⟨c₁, .first hfails, habort.trans hrest, hq⟩
    | false =>
      obtain ⟨c₁, hfails, habort, hq⟩ := (hf a).breaks hmid hfrun hc'
      exact ⟨c₁, .later hxrun hfails, habort, hq⟩

/-- Sequences whose first action does not fail. -/
theorem after (hx : Calm x) (hf : ∀ a, Breaks (f a) R) : Breaks (x >>= f) R :=
  bind hx hf fun _ h => h.elim

theorem observe {g : Context → α} (h : ∀ a, Breaks (f a) R) :
    Breaks (LispMachine.observe g >>= f) R :=
  after (.of_failing fun hc hrun => by cases hrun; exact hc) h

theorem look {g : Heap → α} (h : ∀ a, Breaks (f a) R) : Breaks (Context.look g >>= f) R :=
  observe h

theorem ite {p : Prop} [Decidable p] (hx : p → Breaks x Q) (hy : ¬ p → Breaks y Q) :
    Breaks (if p then x else y) Q := by
  by_cases h : p
  · rw [if_pos h]
    exact hx h
  · rw [if_neg h]
    exact hy h

/-- An action that looks at the state of failure: where none has happened, it takes the other way. -/
theorem unlessFailing {g : Bool → Run α} (h : Breaks (g false) Q) :
    Breaks (isFailing >>= g) Q where
  breaks {c c' a} hc hrun hc' := by
    have hfalse : isFailing c = .ok false c := by
      show EStateM.Result.ok c.failing c = .ok false c
      rw [hc]
    rw [run_bind hfalse] at hrun
    obtain ⟨c₁, hfails, habort, hq⟩ := h.breaks hc hrun hc'
    exact ⟨c₁, .later hfalse hfails, habort, hq⟩

/-- **A failure** gives nil. -/
theorem fail (message : String) : Breaks (Context.fail message) (· = .nil) where
  breaks {c c' a} hc hrun _ := by
    have hfail : Context.fail message c =
        .ok .nil { c with failing := true, failure := Text.clip failureCap message } := by
      unfold Context.fail
      rw [run_modifyGet, hc]
      rfl
    rw [hfail] at hrun
    cases hrun
    exact ⟨_, .fail message hc, .refl rfl, rfl⟩

end Breaks

namespace Rests

theorem pure {a : α} (h : Q a) : Rests (Pure.pure a : Run α) Q where
  rests hc hrun := by
    cases hrun
    exact ⟨.refl hc, h⟩

theorem bind (hx : Rests x P) (hf : ∀ a, P a → Rests (f a) R) : Rests (x >>= f) R where
  rests {c c' b} hc hrun := by
    obtain ⟨a, c₁, hxrun, hfrun⟩ := bind_eq_ok.mp hrun
    obtain ⟨habort, hp⟩ := hx.rests hc hxrun
    obtain ⟨habort', hq⟩ := (hf a hp).rests habort.failing hfrun
    exact ⟨habort.trans habort', hq⟩

theorem weaken (hx : Rests x P) (h : ∀ a, P a → Q a) : Rests x Q where
  rests hc hrun := by
    obtain ⟨habort, hp⟩ := hx.rests hc hrun
    exact ⟨habort, h _ hp⟩

/-- An action that looks at the state of failure, where one has happened. -/
theorem ifFailing {g : Bool → Run α} (h : Rests (g true) Q) : Rests (isFailing >>= g) Q where
  rests {c c' a} hc hrun := by
    have htrue : isFailing c = .ok true c := by
      show EStateM.Result.ok c.failing c = .ok true c
      rw [hc]
    rw [run_bind htrue] at hrun
    exact h.rests hc hrun

/-- The first message stands. -/
theorem fail (message : String) : Rests (Context.fail message) (· = .nil) where
  rests {c c' a} hc hrun := by
    have hfail : Context.fail message c = .ok .nil c := by
      unfold Context.fail
      rw [run_modifyGet, hc]
      rfl
    rw [hfail] at hrun
    cases hrun
    exact ⟨.refl hc, rfl⟩

end Rests

end Rules

/-! ## 3. Values, environments and text -/

namespace Calm

theorem sym (name : String) : Calm (sym name) := .after (intern name) fun _ => .pure _

theorem consOnto (slot : Nat) (vs : List Value) : Calm (consOnto slot vs) := by
  induction vs with
  | nil => exact .pure _
  | cons v vs ih =>
    exact .after (lift _) fun _ => .after (lift _) fun _ => .after (lift _) fun _ => ih

/-- Something is done for each entry of a list. -/
theorem forM {α : Type} {g : α → Run PUnit} (hg : ∀ a, Calm (g a)) (l : List α) : Calm (l.forM g) := by
  induction l with
  | nil => exact .pure _
  | cons a l ih => exact .after (hg a) fun _ => ih

theorem list (items : List Value) : Calm (list items) := by
  unfold Context.list
  refine .after (lift _) fun _ => .after (forM (fun _ => ?_) items) fun _ => ?_
  · exact .after (lift _) fun _ => .pure _
  · refine .after (lift _) fun _ => .after (consOnto _ _) fun _ => ?_
    exact .after (lift _) fun _ => .after (lift _) fun _ => .pure _

theorem func (env params body name : Value) : Calm (func env params body name) := by
  unfold Context.func
  refine .after (lift _) fun _ => .after (list _) fun _ => ?_
  exact .after (lift _) fun _ => .after (lift _) fun _ => .after (lift _) fun _ => .pure _

theorem define (env key value : Value) : Calm (define env key value) := by
  unfold Context.define
  refine Breaks.look fun found => ?_
  cases found with
  | some binding => exact lift _
  | none =>
    refine .after (lift _) fun _ => .after (lift _) fun _ => .after (lift _) fun _ => .look fun _ => ?_
    exact .after (lift _) fun _ => .after (lift _) fun _ => lift _

theorem newFrame (parent : Value) : Calm (newFrame parent) := lift _

/-! ### The reader -/

theorem quotation (v : Value) : Calm (Reader.quotation v) := by
  unfold Reader.quotation
  refine .after (lift _) fun _ => .after (lift _) fun _ => .after (lift _) fun _ => ?_
  exact .after (sym _) fun _ => .after (lift _) fun _ => .after (lift _) fun _ => .pure _

theorem append (base : Nat) (last v : Value) : Calm (Reader.append base last v) := by
  unfold Reader.append
  refine .after (lift _) fun _ => ?_
  split
  · exact .after (lift _) fun _ => .pure _
  · exact .after (lift _) fun _ => .pure _

theorem close (base : Nat) : Calm (Reader.close base) :=
  .after (lift _) fun _ => .after (lift _) fun _ => .pure _

theorem deliver (v : Value) (nests : List Nest) : Calm (Reader.deliver v nests) := by
  induction nests generalizing v with
  | nil => exact .pure _
  | cons nest nests ih =>
    cases nest with
    | quotation => exact .after (quotation v) fun u => ih u
    | elements base last => exact .after (append _ _ _) fun _ => .pure _
    | dotted base last => exact .after (lift _) fun _ => .pure _
    | closing base => exact .pure _

theorem atomValue (name : List Char) : Calm (Reader.atomValue name) := by
  unfold Reader.atomValue
  split
  · exact .pure _
  · exact sym _

theorem meet (nests : List Nest) (token : Token) : Calm (Reader.meet nests token) := by
  have hatom : ∀ name, Calm (do return Reader.Effect.value (← Reader.atomValue name) nests) :=
    fun name => .after (atomValue name) fun _ => .pure _
  unfold Reader.meet
  split
  · exact .ite (fun _ => .pure _) fun _ => .after (lift _) fun _ => .pure _
  · exact .ite (fun _ => .pure _) fun _ => .pure _
  · split
    · exact .after (close _) fun _ => .pure _
    · exact .pure _
  · exact .after (lift _) fun _ => .pure _
  · exact .pure _
  · split
    · exact .ite (fun _ => .ite (fun _ => .pure _) fun _ => .pure _) fun _ => hatom _
    · exact hatom _

theorem effect (nests : List Nest) (token : Token) : Calm (Reader.effect nests token) := by
  unfold Reader.effect
  split
  · unfold Reader.meetEnd
    split
    · exact .after (close _) fun _ => .pure _
    · exact .pure _
  · exact meet _ _

theorem readFrom (nests : List Nest) (src : List Char) : Calm (Reader.readFrom nests src) := by
  induction hlen : src.length using Nat.strongRecOn generalizing nests src with
  | ind len ih =>
    rw [Reader.readFrom]
    split
    · exact .pure _
    · rename_i token rest hnext
      have hlt : rest.length < len := hlen ▸ Token.length_lt_of_next? hnext
      refine .after (effect nests token) fun e => ?_
      cases e with
      | error e used => exact .pure _
      | more nests₁ => exact ih _ hlt nests₁ rest rfl
      | value v nests₁ =>
        refine .after (deliver v nests₁) fun r => ?_
        obtain ⟨v₂, nests₂⟩ := r
        cases nests₂ with
        | nil => exact .pure _
        | cons nest nests₂ => exact ih _ hlt _ rest rfl

/-- **Reading does not fail**: an error of the reader is a result. -/
theorem read (src : List Char) : Calm (Reader.read src) := by
  unfold Reader.read
  split
  · exact .pure _
  · refine .after (lift _) fun base => .after (readFrom _ _) fun r => ?_
    obtain ⟨r, rest⟩ := r
    cases r with
    | ok v => exact .pure _
    | error e => exact .after (lift _) fun _ => .pure _

end Calm

/-! ## 4. Natives -/

/-- Nil is handed back. -/
def GivesNil (next : Next) : Prop := next.task = .give .nil

theorem givesNil_give : GivesNil (.give .nil) := rfl

/-- An argument is checked, where another one has failed. -/
theorem Rests.int? (name : String) (position : Nat) (v : Value) :
    Rests (Native.int? name position v) fun _ => True := by
  unfold Native.int?
  split
  · exact .pure trivial
  · exact (Rests.fail _).bind fun _ _ => .pure trivial

namespace Breaks

theorem failNext (message : String) : Breaks (failNext message) GivesNil := by
  refine (fail message).bind (fun _ => .pure _) fun v hv => .pure ?_
  rw [hv]
  exact givesNil_give

theorem unbound (key : Value) : Breaks (unbound key) (· = .nil) := observe fun _ => fail _

theorem valueOf (env key : Value) : Breaks (valueOf env key) (· = .nil) := by
  unfold Context.valueOf
  refine look fun found => ?_
  cases found with
  | some binding => exact ⟨fun hc hrun hc' => by cases hrun; rw [hc] at hc'; cases hc'⟩
  | none => exact unbound key

theorem assign (env key value : Value) : Breaks (assign env key value) (· = .nil) := by
  unfold Context.assign
  refine look fun found => ?_
  cases found with
  | some binding => exact after (.lift _) fun _ => pure _
  | none => exact unbound key

/-! ### Checks of arguments -/

theorem int? (name : String) (position : Nat) (v : Value) :
    Breaks (Native.int? name position v) (· = none) := by
  unfold Native.int?
  split
  · exact pure _
  · exact (fail _).bind (fun _ => pure _) fun _ _ => .pure rfl

theorem isPair (name : String) (position : Nat) (v : Value) :
    Breaks (Native.isPair name position v) (· = false) :=
  ite (fun _ => pure _) fun _ => (fail _).bind (fun _ => pure _) fun _ _ => .pure rfl

theorem length? (name : String) (position : Nat) (v : Value) :
    Breaks (Native.length? name position v) (· = none) := by
  unfold Native.length?
  refine look fun count => ?_
  split
  · exact pure _
  · exact (fail _).bind (fun _ => pure _) fun _ _ => .pure rfl
  · exact (fail _).bind (fun _ => pure _) fun _ _ => .pure rfl
  · exact throw _

theorem finish {α : Type} {Q : α → Prop} (spine : Spine) (result : α) :
    Breaks (Native.finish spine result) Q := by
  unfold Native.finish
  split
  · exact pure _
  · exact throw _

theorem test {Q : Next → Prop} (b : Bool) : Breaks (Native.test b) Q :=
  after (.ofBool b) fun _ => pure _

/-! ### Integers -/

theorem foldInts {name : String} {op : Word → Word → Word} {position : Nat} {acc : Word}
    (vs : List Value) : Breaks (Native.foldInts name op position acc vs) (· = none) := by
  induction vs generalizing position acc with
  | nil => exact pure _
  | cons v vs ih =>
    refine (int? name position v).bind (fun n => ?_) fun n hn => ?_
    · cases n with
      | some n => exact ih
      | none => exact pure _
    · subst hn
      exact .pure rfl

theorem foldRest (name : String) (op : Word → Word → Word) (position : Nat) (acc : Word)
    (rest : Value) : Breaks (Native.foldRest name op position acc rest) GivesNil := by
  unfold Native.foldRest
  refine look fun spine => (foldInts _).bind (fun n => ?_) fun n hn => ?_
  · cases n with
    | some n => exact finish _ _
    | none => exact pure _
  · subst hn
    exact .pure givesNil_give

theorem chainInts {name : String} {rel : Word → Word → Bool} {position : Nat} {holds : Bool}
    {previous : Word} (vs : List Value) :
    Breaks (Native.chainInts name rel position holds previous vs) (· = none) := by
  induction vs generalizing position holds previous with
  | nil => exact pure _
  | cons v vs ih =>
    refine (int? name position v).bind (fun n => ?_) fun n hn => ?_
    · cases n with
      | some n => exact ih
      | none => exact pure _
    · subst hn
      exact .pure rfl

theorem compare (name : String) (rel : Word → Word → Bool) (first rest : Value) :
    Breaks (Native.compare name rel first rest) GivesNil := by
  unfold Native.compare
  refine (int? name 1 first).bind (fun n => ?_) fun n hn => ?_
  · cases n with
    | none => exact pure _
    | some n =>
      refine look fun spine => (chainInts _).bind (fun holds => ?_) fun holds hh => ?_
      · cases holds with
        | some holds => exact after (.ofBool holds) fun _ => finish _ _
        | none => exact pure _
      · subst hh
        exact .pure givesNil_give
  · subst hn
    exact .pure givesNil_give

theorem subtract (first rest : Value) : Breaks (Native.subtract first rest) GivesNil := by
  unfold Native.subtract
  refine (int? _ 1 first).bind (fun n => ?_) fun n hn => ?_
  · cases n with
    | none => exact pure _
    | some n => exact ite (fun _ => pure _) fun _ => foldRest _ _ _ _ _
  · subst hn
    exact .pure givesNil_give

/-- Both arguments of a division are checked, the second one also after the first has failed. -/
theorem divide (name : String) (op : Word → Word → Word) (a b : Value) :
    Breaks (Native.divide name op a b) GivesNil := by
  unfold Native.divide
  refine (int? name 1 a).bind (fun x? => (int? name 2 b).bind (fun y? => ?_) fun y? hy => ?_)
    fun x? hx => (Rests.int? name 2 b).bind fun y? _ => ?_
  · split
    · exact ite (fun _ => failNext _) fun _ => pure _
    · exact pure _
  · subst hy
    cases x? <;> exact .pure givesNil_give
  · subst hx
    exact .pure givesNil_give

/-! ### Pairs, lists and everything else -/

theorem slot (name : String) (read : Heap → Value → Value) (p : Value) :
    Breaks (Native.slot name read p) GivesNil := by
  unfold Native.slot
  refine (isPair name 1 p).bind (fun ok => ite (fun _ => look fun _ => pure _) fun _ => pure _)
    fun ok hok => ?_
  subst hok
  exact .pure givesNil_give

/-- **A slot of something that is no pair is not written.** -/
theorem setSlot (name : String) (write : Value → Value → HeapM Unit) (p v : Value) :
    Breaks (Native.setSlot name write p v) GivesNil := by
  unfold Native.setSlot
  refine (isPair name 1 p).bind (fun ok => ite (fun _ => after (.lift _) fun _ => pure _)
    fun _ => pure _) fun ok hok => ?_
  subst hok
  exact .pure givesNil_give

theorem listNth (list index : Value) : Breaks (Native.listNth list index) GivesNil := by
  unfold Native.listNth
  refine (length? _ 1 list).bind (fun length => ?_) fun length hl => ?_
  · cases length with
    | none => exact pure _
    | some length =>
      refine (int? _ 2 index).bind (fun i => ?_) fun i hi => ?_
      · cases i with
        | none => exact pure _
        | some i => exact ite (fun _ => failNext _) fun _ => look fun _ => pure _
      · subst hi
        exact .pure givesNil_give
  · subst hl
    exact .pure givesNil_give

theorem print (rest : Value) : Breaks (Native.print rest) GivesNil := by
  unfold Native.print
  exact look fun spine => after (finish _ _) fun _ => observe fun _ => after (.write _) fun _ => pure _

theorem strLen (v : Value) : Breaks (Native.strLen v) GivesNil := by
  unfold Native.strLen
  refine look fun bytes => ?_
  cases bytes with
  | some bytes => exact pure _
  | none => exact failNext _

theorem apply (func args : Value) : Breaks (Native.apply func args) GivesNil := by
  unfold Native.apply
  refine (length? _ 2 args).bind (fun length => ?_) fun length hl => ?_
  · cases length with
    | some length => exact pure _
    | none => exact pure _
  · subst hl
    exact .pure givesNil_give

theorem gc : Breaks Native.gc GivesNil := after (.lift _) fun _ => look fun _ => pure _

theorem length (name : String) (l : Value) : Breaks (do
    match ← Native.length? name 1 l with
    | some n => Pure.pure (.give (.int (.ofNat n)))
    | none => Pure.pure (.give .nil) : Run Next) GivesNil := by
  refine (length? name 1 l).bind (fun n => ?_) fun n hn => ?_
  · cases n with
    | some n => exact pure _
    | none => exact pure _
  · subst hn
    exact .pure givesNil_give

/-- **Every native breaks off** where it fails. -/
theorem primitive (p : Primitive) (args : List Value) : Breaks (p.run args) GivesNil := by
  unfold Primitive.run
  split
  case h_1 | h_2 => exact foldRest _ _ _ _ _
  case h_3 => exact subtract _ _
  case h_4 | h_5 => exact divide _ _ _ _
  case h_6 | h_7 | h_8 | h_9 | h_10 => exact compare _ _ _ _
  case h_11 => exact after (.lift _) fun _ => pure _
  case h_12 | h_13 => exact slot _ _ _
  case h_14 | h_15 => exact setSlot _ _ _ _
  case h_16 => exact pure _
  case h_17 => exact listNth _ _
  case h_18 => exact length _ _
  case h_19 | h_20 | h_21 | h_22 | h_25 | h_26 => exact test _
  case h_23 | h_24 | h_27 => exact look fun _ => test _
  case h_28 => exact strLen _
  case h_29 => exact apply _ _
  case h_30 => exact print _
  case h_31 => exact gc
  case h_32 => exact throw _

end Breaks

end LispMachine
