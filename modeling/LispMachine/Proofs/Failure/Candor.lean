import LispMachine.Machine.Run
import LispMachine.Proofs.Action

/-!
# What an action says of failure

The state of failure is a flag and a message. Nothing but `Context.fail` and `Context.reset` touches it,
and the line of traceback that a call ends with:

* `Context.verdict` -- the state of failure;
* `Raises` -- an action calls `Context.fail` with a message where nothing has failed before;
* `Says` -- **what an action may make of the state of failure**: nothing, the reset one, or that after a
  message it has raised;
* `Candid` -- actions that make nothing else of it, and the rules for them;
* `Candid.define`, `Candid.read`, `Candid.primitive`, `Candid.standardForm`, … -- one for each action of
  the machine that ends no call. None of these waits inside the body of a function (`Next.Outside`).
-/

namespace LispMachine

open Context

/-! ## 1. The state of failure -/

/-- A state of failure. -/
structure Verdict where
  failing : Bool
  message : String

namespace Context

/-- The state of failure of a context. -/
def verdict (c : Context) : Verdict := { failing := c.failing, message := c.failure }

theorem fail_failing {c : Context} (message : String) (hc : c.failing = true) :
    fail message c = .ok .nil c := by
  unfold fail
  rw [run_modifyGet, hc]
  rfl

theorem fail_raised {c : Context} (message : String) (hc : c.failing = false) :
    fail message c =
      .ok .nil { c with failing := true, failure := Text.clip failureCap message } := by
  unfold fail
  rw [run_modifyGet, hc]
  rfl

end Context

/-! ## 2. Actions that say what they do -/

/-- **An action raises a failure** on its way: begun in the context it calls `Context.fail` with the
    message, and has not been failing until then. -/
inductive Raises (message : String) : {α : Type} → Run α → Context → Prop where
  | fail {c : Context} (hc : c.failing = false) : Raises message (Context.fail message) c
  | first {α β : Type} {x : Run α} {f : α → Run β} {c : Context} (h : Raises message x c) :
      Raises message (x >>= f) c
  | later {α β : Type} {x : Run α} {f : α → Run β} {c c' : Context} {a : α}
      (hx : x c = .ok a c') (h : Raises message (f a) c') : Raises message (x >>= f) c

/-- **What an action says of failure**: the states of failure that it may lead to from a context. -/
inductive Says {α : Type} (x : Run α) (c : Context) : Verdict → Prop where
  /-- The state that there is. -/
  | silent : Says x c c.verdict
  | cleared : Says x c { failing := false, message := "" }
  | raised {message : String} (h : Raises message x c) :
      Says x c { failing := true, message := Text.clip failureCap message }

/-- **A candid action** leads to such a state of failure only, and its result has a property. -/
structure Candid {α : Type} (x : Run α) (Q : α → Prop) : Prop where
  candid : ∀ {c c' : Context} {a : α}, x c = .ok a c' → Says x c c'.verdict ∧ Q a

/-- A candid action, whatever its result. -/
abbrev Truthful {α : Type} (x : Run α) : Prop := Candid x fun _ => True

section Rules

variable {α β : Type} {x y : Run α} {f : α → Run β} {P Q : α → Prop} {R : β → Prop}

/-- What is said first stands, as far as nothing is said later. -/
theorem Says.first {c : Context} {v : Verdict} (hx : Says x c v) : Says (x >>= f) c v := by
  cases hx with
  | silent => exact .silent
  | cleared => exact .cleared
  | raised h => exact .raised (.first h)

/-- What is said later overrules it. -/
theorem Says.later {c c₁ : Context} {a : α} {v : Verdict} (hrun : x c = .ok a c₁)
    (hx : Says x c c₁.verdict) (hf : Says (f a) c₁ v) : Says (x >>= f) c v := by
  cases hf with
  | silent => exact hx.first
  | cleared => exact .cleared
  | raised h => exact .raised (.later hrun h)

namespace Candid

/-- An action that leaves the state of failure alone. -/
theorem silent (h : ∀ {c c' : Context} {a : α}, x c = .ok a c' → c'.verdict = c.verdict ∧ Q a) :
    Candid x Q where
  candid {c c' a} hrun := by
    obtain ⟨hverdict, hq⟩ := h hrun
    rw [hverdict]
    exact ⟨.silent, hq⟩

theorem weaken (hx : Candid x P) (h : ∀ a, P a → Q a) : Candid x Q where
  candid hrun := (hx.candid hrun).imp_right (h _)

theorem pure {a : α} (h : Q a) : Candid (Pure.pure a : Run α) Q := by
  refine silent fun hrun => ?_
  cases hrun
  exact ⟨rfl, h⟩

theorem throw (e : Fault) : Candid (MonadExcept.throw e : Run α) Q := ⟨fun hrun => by cases hrun⟩

/-- **Sequences.** -/
theorem bind (hx : Candid x P) (hf : ∀ a, P a → Candid (f a) R) : Candid (x >>= f) R where
  candid {c c' b} hrun := by
    obtain ⟨a, c₁, hxrun, hfrun⟩ := bind_eq_ok.mp hrun
    obtain ⟨hsaid, hp⟩ := hx.candid hxrun
    obtain ⟨hsaid', hr⟩ := (hf a hp).candid hfrun
    exact ⟨.later hxrun hsaid hsaid', hr⟩

/-- Sequences in which the first result does not matter. -/
theorem after (hx : Truthful x) (hf : ∀ a, Candid (f a) R) : Candid (x >>= f) R :=
  hx.bind fun a _ => hf a

theorem observe {g : Context → α} (h : ∀ a, Candid (f a) R) :
    Candid (LispMachine.observe g >>= f) R := by
  refine after (silent fun hrun => ?_) h
  cases hrun
  exact ⟨rfl, trivial⟩

theorem look {g : Heap → α} (h : ∀ a, Candid (f a) R) : Candid (Context.look g >>= f) R := observe h

theorem ite {p : Prop} [Decidable p] (hx : Candid x Q) (hy : Candid y Q) :
    Candid (if p then x else y) Q := by
  by_cases hp : p
  · rw [if_pos hp]
    exact hx
  · rw [if_neg hp]
    exact hy

theorem lift (g : HeapM α) : Truthful (liftM g : Run α) := by
  refine silent fun {c c' a} hrun => ?_
  replace hrun : onHeap g c = .ok a c' := hrun
  unfold onHeap at hrun
  split at hrun
  · cases hrun
    exact ⟨rfl, trivial⟩
  · cases hrun

/-- Other registers are changed. -/
theorem edit {g : Context → Context} (hg : ∀ c, (g c).verdict = c.verdict) :
    Truthful (modify g : Run PUnit) := by
  refine silent fun {c c' a} hrun => ?_
  cases hrun
  exact ⟨hg c, trivial⟩

/-- Something is done for each entry of a list. -/
theorem forM {g : α → Run PUnit} (hg : ∀ a, Truthful (g a)) (l : List α) : Truthful (l.forM g) := by
  induction l with
  | nil => exact pure trivial
  | cons a l ih => exact after (hg a) fun _ => ih

/-- **A failure is raised**, unless there is one already. -/
theorem fail (message : String) : Candid (Context.fail message) (· = .nil) where
  candid {c c' a} hrun := by
    by_cases hc : c.failing = true
    · rw [fail_failing message hc] at hrun
      cases hrun
      exact ⟨.silent, rfl⟩
    · have hnot : c.failing = false := eq_false_of_ne_true hc
      rw [fail_raised message hnot] at hrun
      cases hrun
      exact ⟨.raised (.fail hnot), rfl⟩

theorem reset : Truthful Context.reset where
  candid hrun := by
    cases hrun
    exact ⟨.cleared, trivial⟩

theorem write (s : String) : Truthful (Context.write s) := edit fun _ => rfl

theorem ofBool (b : Bool) : Truthful (Context.ofBool b) := by
  refine silent fun hrun => ?_
  cases hrun
  exact ⟨rfl, trivial⟩

theorem intern (name : String) : Truthful (Context.intern name) := by
  refine silent fun hrun => ?_
  unfold Context.intern at hrun
  split at hrun
  · cases hrun
    exact ⟨rfl, trivial⟩
  · cases hrun

end Candid

end Rules

namespace Candid

/-! ## 3. Values, environments and the reader -/

theorem sym (name : String) : Truthful (Context.sym name) := after (intern name) fun _ => pure trivial

theorem consOnto (slot : Nat) (vs : List Value) : Truthful (Context.consOnto slot vs) := by
  induction vs with
  | nil => exact pure trivial
  | cons v vs ih =>
    unfold Context.consOnto
    exact after (lift _) fun _ => after (lift _) fun _ => after (lift _) fun _ => ih

theorem list (items : List Value) : Truthful (Context.list items) := by
  unfold Context.list
  refine after (lift _) fun _ => after (forM (fun _ => ?_) items) fun _ => ?_
  · exact after (lift _) fun _ => pure trivial
  · refine after (lift _) fun _ => after (consOnto _ _) fun _ => ?_
    exact after (lift _) fun _ => after (lift _) fun _ => pure trivial

theorem func (env params body name : Value) : Truthful (Context.func env params body name) := by
  unfold Context.func
  refine after (lift _) fun _ => after (list _) fun _ => after (lift _) fun _ => ?_
  exact after (lift _) fun _ => after (lift _) fun _ => pure trivial

theorem define (env key value : Value) : Truthful (Context.define env key value) := by
  unfold Context.define
  refine look fun found => ?_
  cases found with
  | some binding => exact lift _
  | none =>
    refine after (lift _) fun _ => after (lift _) fun _ => after (lift _) fun _ => look fun _ => ?_
    exact after (lift _) fun _ => after (lift _) fun _ => lift _

theorem newFrame (parent : Value) : Truthful (Context.newFrame parent) := lift _

theorem unbound (key : Value) : Candid (Context.unbound key) (· = .nil) := observe fun _ => fail _

theorem valueOf (env key : Value) : Truthful (Context.valueOf env key) := by
  unfold Context.valueOf
  refine look fun found => ?_
  cases found with
  | some binding => exact ⟨fun hrun => by cases hrun; exact ⟨.silent, trivial⟩⟩
  | none => exact (unbound key).weaken fun _ _ => trivial

theorem assign (env key value : Value) : Truthful (Context.assign env key value) := by
  unfold Context.assign
  refine look fun found => ?_
  cases found with
  | some binding => exact after (lift _) fun _ => pure trivial
  | none => exact (unbound key).weaken fun _ _ => trivial

theorem quotation (v : Value) : Truthful (Reader.quotation v) := by
  unfold Reader.quotation
  refine after (lift _) fun _ => after (lift _) fun _ => after (lift _) fun _ => ?_
  exact after (sym _) fun _ => after (lift _) fun _ => after (lift _) fun _ => pure trivial

theorem append (base : Nat) (last v : Value) : Truthful (Reader.append base last v) :=
  after (lift _) fun _ => ite (after (lift _) fun _ => pure trivial) (after (lift _) fun _ => pure trivial)

theorem close (base : Nat) : Truthful (Reader.close base) :=
  after (lift _) fun _ => after (lift _) fun _ => pure trivial

theorem deliver (v : Value) (nests : List Nest) : Truthful (Reader.deliver v nests) := by
  induction nests generalizing v with
  | nil => exact pure trivial
  | cons nest outer ih =>
    cases nest with
    | quotation => exact after (quotation v) fun _ => ih _
    | elements base last => exact after (append _ _ _) fun _ => pure trivial
    | dotted base last => exact after (lift _) fun _ => pure trivial
    | closing base => exact pure trivial

theorem atomValue (name : List Char) : Truthful (Reader.atomValue name) := by
  unfold Reader.atomValue
  split
  · exact pure trivial
  · exact sym _

theorem meet (nests : List Nest) (token : Token) : Truthful (Reader.meet nests token) := by
  have hatom : ∀ name, Truthful (do return Reader.Effect.value (← Reader.atomValue name) nests) :=
    fun name => after (atomValue name) fun _ => pure trivial
  unfold Reader.meet
  split
  · exact ite (pure trivial) (after (lift _) fun _ => pure trivial)
  · exact ite (pure trivial) (pure trivial)
  · split
    · exact after (close _) fun _ => pure trivial
    · exact pure trivial
  · exact after (lift _) fun _ => pure trivial
  · exact pure trivial
  · split
    · exact ite (ite (pure trivial) (pure trivial)) (hatom _)
    · exact hatom _

theorem effect (nests : List Nest) (token : Token) : Truthful (Reader.effect nests token) := by
  unfold Reader.effect
  split
  · unfold Reader.meetEnd
    split
    · exact after (close _) fun _ => pure trivial
    · exact pure trivial
  · exact meet nests token

theorem readFrom (nests : List Nest) (src : List Char) : Truthful (Reader.readFrom nests src) := by
  induction hlen : src.length using Nat.strongRecOn generalizing nests src with
  | ind len ih =>
    rw [Reader.readFrom]
    split
    · exact pure trivial
    · rename_i token rest hnext
      have hlt : rest.length < len := hlen ▸ Token.length_lt_of_next? hnext
      refine after (effect nests token) fun e => ?_
      cases e with
      | error e used => exact pure trivial
      | more nests => exact ih _ hlt nests rest rfl
      | value v nests =>
        refine after (deliver v nests) fun r => ?_
        rcases r with ⟨v, _ | ⟨nest, nests⟩⟩
        · exact pure trivial
        · exact ih _ hlt _ rest rfl

/-- **Reading raises no failure**: an error of the reader is a result. -/
theorem read (src : List Char) : Truthful (Reader.read src) := by
  unfold Reader.read
  split
  · exact pure trivial
  · refine after (lift _) fun _ => after (readFrom _ _) fun r => ?_
    rcases r with ⟨e | v, rest⟩
    · exact after (lift _) fun _ => pure trivial
    · exact pure trivial

end Candid

/-! ## 4. The native procedures -/

/-- The function whose body a step waits in. -/
def Pending.closure? : Pending → Option Closure
  | .body active _ _ => some active.closure
  | _ => none

/-- No step waits inside the body of a function. -/
def Next.Outside (next : Next) : Prop := next.pending.filterMap Pending.closure? = []

theorem Next.Outside.andThen {next : Next} (h : next.Outside) {p : Pending}
    (hp : p.closure? = none) : (next.andThen p).Outside := by
  unfold Next.Outside Next.andThen at *
  rw [List.filterMap_append, h, List.nil_append, List.filterMap_cons_none hp, List.filterMap_nil]

/-- A step that is candid, and leads to no body of a function. -/
abbrev Plain (x : Run Next) : Prop := Candid x Next.Outside

namespace Candid

theorem give (v : Value) : Plain (Pure.pure (.give v)) := pure rfl

theorem failNext (message : String) : Plain (Context.failNext message) :=
  (fail message).bind fun v _ => give v

theorem int? (name : String) (position : Nat) (v : Value) : Truthful (Native.int? name position v) := by
  unfold Native.int?
  split
  · exact pure trivial
  · exact (fail _).bind fun _ _ => pure trivial

theorem isPair (name : String) (position : Nat) (v : Value) :
    Truthful (Native.isPair name position v) :=
  ite (pure trivial) ((fail _).bind fun _ _ => pure trivial)

theorem length? (name : String) (position : Nat) (v : Value) :
    Truthful (Native.length? name position v) := by
  unfold Native.length?
  refine look fun count => ?_
  split
  · exact pure trivial
  · exact (fail _).bind fun _ _ => pure trivial
  · exact (fail _).bind fun _ _ => pure trivial
  · exact throw _

theorem finishSpine {α : Type} {Q : α → Prop} {result : α} (spine : Spine) (h : Q result) :
    Candid (Native.finish spine result) Q := by
  unfold Native.finish
  split
  · exact pure h
  · exact throw _

theorem test (b : Bool) : Plain (Native.test b) := after (ofBool b) fun _ => give _

theorem foldInts {name : String} {op : Word → Word → Word} {position : Nat} {acc : Word}
    (vs : List Value) : Truthful (Native.foldInts name op position acc vs) := by
  induction vs generalizing position acc with
  | nil => exact pure trivial
  | cons v vs ih =>
    refine after (int? name position v) fun n => ?_
    cases n with
    | some n => exact ih
    | none => exact pure trivial

theorem foldRest (name : String) (op : Word → Word → Word) (position : Nat) (acc : Word)
    (rest : Value) : Plain (Native.foldRest name op position acc rest) := by
  unfold Native.foldRest
  refine look fun spine => after (foldInts _) fun n => ?_
  cases n with
  | some n => exact finishSpine spine rfl
  | none => exact give _

theorem chainInts {name : String} {rel : Word → Word → Bool} {position : Nat} {holds : Bool}
    {previous : Word} (vs : List Value) :
    Truthful (Native.chainInts name rel position holds previous vs) := by
  induction vs generalizing position holds previous with
  | nil => exact pure trivial
  | cons v vs ih =>
    refine after (int? name position v) fun n => ?_
    cases n with
    | some n => exact ih
    | none => exact pure trivial

theorem compare (name : String) (rel : Word → Word → Bool) (first rest : Value) :
    Plain (Native.compare name rel first rest) := by
  unfold Native.compare
  refine after (int? name 1 first) fun n => ?_
  cases n with
  | none => exact give _
  | some n =>
    refine look fun spine => after (chainInts _) fun holds => ?_
    cases holds with
    | some holds => exact after (ofBool holds) fun _ => finishSpine spine rfl
    | none => exact give _

theorem subtract (first rest : Value) : Plain (Native.subtract first rest) := by
  unfold Native.subtract
  refine after (int? _ 1 first) fun n => ?_
  cases n with
  | none => exact give _
  | some n => exact ite (give _) (foldRest _ _ _ _ _)

theorem divide (name : String) (op : Word → Word → Word) (a b : Value) :
    Plain (Native.divide name op a b) := by
  unfold Native.divide
  refine after (int? name 1 a) fun x? => after (int? name 2 b) fun y? => ?_
  split
  · exact ite (failNext _) (give _)
  · exact give _

theorem slot (name : String) (read : Heap → Value → Value) (p : Value) :
    Plain (Native.slot name read p) :=
  after (isPair name 1 p) fun _ => ite (look fun _ => give _) (give _)

theorem setSlot (name : String) (write : Value → Value → HeapM Unit) (p v : Value) :
    Plain (Native.setSlot name write p v) :=
  after (isPair name 1 p) fun _ => ite (after (lift _) fun _ => give _) (give _)

theorem listNth (list index : Value) : Plain (Native.listNth list index) := by
  unfold Native.listNth
  refine after (length? _ 1 list) fun length => ?_
  cases length with
  | none => exact give _
  | some length =>
    refine after (int? _ 2 index) fun i => ?_
    cases i with
    | none => exact give _
    | some i => exact ite (failNext _) (look fun _ => give _)

theorem print (rest : Value) : Plain (Native.print rest) := by
  unfold Native.print
  refine look fun spine => after (finishSpine spine trivial) fun _ => observe fun _ => ?_
  exact after (write _) fun _ => give _

theorem strLen (v : Value) : Plain (Native.strLen v) := by
  unfold Native.strLen
  refine look fun bytes => ?_
  cases bytes with
  | some bytes => exact give _
  | none => exact failNext _

theorem apply (func args : Value) : Plain (Native.apply func args) := by
  unfold Native.apply
  refine after (length? _ 2 args) fun length => ?_
  cases length with
  | some length => exact pure rfl
  | none => exact give _

theorem length (name : String) (l : Value) : Plain (do
    match ← Native.length? name 1 l with
    | some n => Pure.pure (.give (.int (.ofNat n)))
    | none => Pure.pure (.give .nil) : Run Next) := by
  refine after (length? name 1 l) fun n => ?_
  cases n with
  | some n => exact give _
  | none => exact give _

/-- **Every primitive is candid.** -/
theorem primitive (p : Primitive) (args : List Value) : Plain (p.run args) := by
  unfold Primitive.run
  split
  case h_1 | h_2 => exact foldRest _ _ _ _ _
  case h_3 => exact subtract _ _
  case h_4 | h_5 => exact divide _ _ _ _
  case h_6 | h_7 | h_8 | h_9 | h_10 => exact compare _ _ _ _
  case h_11 => exact after (lift _) fun _ => give _
  case h_12 | h_13 => exact slot _ _ _
  case h_14 | h_15 => exact setSlot _ _ _ _
  case h_16 => exact give _
  case h_17 => exact listNth _ _
  case h_18 => exact length _ _
  case h_19 | h_20 | h_21 | h_22 | h_25 | h_26 => exact test _
  case h_23 | h_24 | h_27 => exact look fun _ => test _
  case h_28 => exact strLen _
  case h_29 => exact apply _ _
  case h_30 => exact print _
  case h_31 => exact after (lift _) fun _ => look fun _ => give _
  case h_32 => exact throw _

/-! ## 5. Forms -/

variable {env forms args v : Value} {tail : Bool}

theorem enterSequence : Plain (Machine.enterSequence env forms tail v) :=
  ite (look fun _ => pure rfl) (give v)

theorem enterConjunction : Plain (Machine.enterConjunction env forms tail v) :=
  ite (look fun _ => pure rfl) (give v)

theorem enterDisjunction : Plain (Machine.enterDisjunction env forms tail) :=
  ite (look fun _ => pure rfl) (give .nil)

theorem enterDefine : Plain (Machine.enterDefine env args) := by
  unfold Machine.enterDefine
  refine ite (failNext _) (look fun target => look fun name => ?_)
  refine ite (look fun _ => pure rfl) (ite (look fun params => look fun valid => ?_) (failNext _))
  refine ite (failNext _) (look fun body => after (func _ _ _ _) fun _ => ?_)
  exact after (define _ _ _) fun _ => give _

theorem enterLambda : Plain (Machine.enterLambda env args) := by
  unfold Machine.enterLambda
  refine look fun params => look fun valid => ite (failNext _) (look fun body => ?_)
  exact after (func _ _ _ _) fun _ => give _

theorem enterBindings {frame bindings : Value} :
    Plain (Machine.enterBindings env frame args bindings tail) := by
  unfold Machine.enterBindings
  refine ite (look fun binding => ?_) (look fun _ => enterSequence)
  have hbound : ∀ name expr : Value, Plain (if !name.isSym then Context.failNext "let: Invalid binding"
      else Pure.pure (.eval env expr false (.binding env frame args bindings name tail))) :=
    fun _ _ => ite (failNext _) (pure rfl)
  exact ite (hbound _ _) (look fun _ => hbound _ _)

theorem enterLet : Plain (Machine.enterLet env args tail) := by
  unfold Machine.enterLet
  refine ite (failNext _) (after (lift _) fun _ => after (newFrame _) fun _ => ?_)
  refine after (lift _) fun _ => look fun _ => enterBindings.bind fun _ h => ?_
  exact pure (h.andThen rfl)

/-- **Every special form is candid.** -/
theorem standardForm (form : StandardForm) : Plain (form.enter env args tail) := by
  cases form with
  | quote => exact look fun _ => give _
  | branch => exact look fun _ => ite (failNext _) (look fun _ => pure rfl)
  | define => exact enterDefine
  | lambda => exact enterLambda
  | sequence => exact enterSequence
  | conjunction => exact after (ofBool true) fun _ => enterConjunction
  | disjunction => exact enterDisjunction
  | binding => exact enterLet
  | assignment => exact look fun _ => ite (failNext _) (look fun _ => pure rfl)

end Candid

/-! ## 6. Evaluation and source text -/

/-- **The contract of an embedding program**: its procedures and forms touch the state of failure
    through `Context.fail` and `Context.reset` only, and wait in no body of a function. -/
structure Host.Candid (host : Host) : Prop where
  procedure : ∀ (entry : String) (args : List Value), Plain (host.procedure entry args)
  form : ∀ (entry : String) (env args : Value) (tail : Bool), Plain (host.form entry env args tail)

namespace Candid

variable {host : Host} {env rest last func args : Value} {base : Nat} {tail : Bool}

theorem enterNative (hhost : host.Candid) : Plain (Machine.enterNative host func args) := by
  unfold Machine.enterNative
  refine look fun found => ?_
  cases found with
  | none => exact failNext _
  | some p =>
    refine look fun taken => ?_
    cases taken with
    | error misfit => exact failNext _
    | ok args =>
      cases p with
      | primitive p => exact primitive p args
      | hosted name arity entry => exact hhost.procedure entry args

theorem enterForm (hhost : host.Candid) (expr : Value) :
    Plain (Machine.enterForm host env expr tail) := by
  unfold Machine.enterForm
  refine observe fun form => ?_
  split
  · exact look fun _ => standardForm _
  · exact look fun _ => hhost.form _ env _ tail
  · exact pure rfl

theorem enterPair (hhost : host.Candid) (expr : Value) :
    Plain (Machine.enterPair host env expr tail) := by
  unfold Machine.enterPair
  refine observe fun limit => ite (failNext _) (after (edit fun _ => rfl) fun _ => ?_)
  refine after (lift _) fun _ => after (lift _) fun _ => (enterForm hhost expr).bind fun _ h => ?_
  exact pure (h.andThen rfl)

theorem enterEval (hhost : host.Candid) (expr : Value) :
    Plain (Machine.enterEval host env expr tail) := by
  cases expr with
  | sym id => exact after (valueOf env _) fun _ => give _
  | pair a => exact enterPair hhost _
  | _ => exact give _

theorem enterArguments : Plain (Machine.enterArguments env rest base last) :=
  ite (look fun _ => pure rfl) (after (lift _) fun _ => after (lift _) fun _ => give _)

theorem finishExec : Plain (Machine.finishExec base) :=
  after (lift _) fun _ => after (lift _) fun _ => give _

theorem enterNextForm {source : List Char} {echo : Bool} :
    Plain (Machine.enterNextForm source base echo) := by
  unfold Machine.enterNextForm
  refine after reset fun _ => after (read source) fun r => ?_
  rcases r with ⟨e | form, rest⟩
  · exact after (lift _) fun _ => (fail _).bind fun _ _ => finishExec
  · cases form with
    | none => exact finishExec
    | some form => exact after (lift _) fun _ => observe fun _ => pure rfl

/-- A step that goes on unless the state is failing. -/
theorem unlessFailing {x : Run Next} (hx : Plain x) :
    Plain (do if ← Context.isFailing then Pure.pure (.give .nil) else x) :=
  observe fun _ => ite (give _) hx

/-- **A task is candid**, unless it is an application. -/
theorem step (hhost : host.Candid) {task : Task} (htask : ∀ func args, task ≠ .apply func args) :
    Plain (task.step host) := by
  cases task with
  | give v => exact give v
  | eval env expr tail => exact enterEval hhost expr
  | evalList env list => exact after (lift _) fun _ => enterArguments
  | apply func args => exact absurd rfl (htask func args)
  | exec source echo => exact after (lift _) fun _ => enterNextForm

/-- **A step that waits is candid**, unless it is one of a call. -/
theorem resume {p : Pending} {v : Value} (hbody : ∀ active frame forms,
    p ≠ .body active frame forms) (hcall : ∀ tail, p ≠ .call tail) : Plain (p.resume host v) := by
  cases p with
  | leave base => exact after (lift _) fun _ => after (edit fun _ => rfl) fun _ => give v
  | release base => exact after (lift _) fun _ => give v
  | call tail => exact absurd rfl (hcall tail)
  | argument env rest base last =>
    refine observe fun _ => ite (after (lift _) fun _ => give _) ?_
    exact after (append _ _ _) fun _ => look fun _ => enterArguments
  | body active frame forms => exact absurd rfl (hbody active frame forms)
  | branch env args tail => exact unlessFailing (look fun _ => pure rfl)
  | define env name => exact unlessFailing (after (define _ _ _) fun _ => give _)
  | assign env name => exact unlessFailing (after (assign _ _ _) fun _ => give _)
  | sequence env forms tail => exact unlessFailing (look fun _ => enterSequence)
  | conjunction env forms tail => exact observe fun _ => ite (give _) (look fun _ => enterConjunction)
  | disjunction env forms tail =>
    exact unlessFailing (ite (give _) (look fun _ => enterDisjunction))
  | binding env frame args bindings name tail =>
    exact unlessFailing (after (define _ _ _) fun _ => look fun _ => enterBindings)
  | exec source base echo =>
    refine after (lift _) fun _ => observe fun _ => ite finishExec (ite ?_ enterNextForm)
    exact observe fun _ => after (write _) fun _ => enterNextForm

end Candid

end LispMachine
