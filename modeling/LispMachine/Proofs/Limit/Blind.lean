import LispMachine.Machine.Run
import LispMachine.Proofs.Action
import LispMachine.Session

/-!
# What does not look at the limit of depth

Only the evaluation of a pair asks how deep it may be. Everything else does the same with another limit,
and leaves that limit as it is:

* `Context.limited`, `Context.relimit` -- a context, and the end of an action, with another limit;
* `Blind` -- **actions that do not look at the limit**, and the rules for them;
* `Blind.define`, `Blind.read`, `Blind.primitive`, … -- one lemma for each action of the machine;
* `Blind.standardForm`, `Blind.enterFunction`, `Blind.finish`, … -- one for each of its steps;
* `Host.Blind` -- the contract of an embedding program.
-/

namespace LispMachine

open Context

/-! ## 1. Another limit -/

namespace Context

/-- The context with another limit of depth. -/
def limited (c : Context) (d : Nat) : Context := { c with maxDepth := d }

/-- How an action ends, with another limit of depth. -/
def relimit {α : Type} (d : Nat) : EStateM.Result Fault Context α → EStateM.Result Fault Context α
  | .ok a c => .ok a (c.limited d)
  | .error e c => .error e (c.limited d)

end Context

section Relimit

variable {α β : Type} {x : Run α} {f : α → Run β} {a : α} {c c' : Context} {d : Nat}

/-- What goes on alike after an action that does the same. -/
theorem bind_limited (hx : x (c.limited d) = relimit d (x c))
    (hf : ∀ a c', x c = .ok a c' → f a (c'.limited d) = relimit d (f a c')) :
    (x >>= f) (c.limited d) = relimit d ((x >>= f) c) := by
  show EStateM.bind x f (c.limited d) = relimit d (EStateM.bind x f c)
  rw [EStateM.bind, EStateM.bind, hx]
  cases hrun : x c with
  | ok a c' => exact hf a c' hrun
  | error e c' => rfl

/-- An action that does the same with the limit that there is leaves that limit as it is. -/
theorem maxDepth_of_limited (hx : x (c.limited c.maxDepth) = relimit c.maxDepth (x c))
    (hrun : x c = .ok a c') : c'.maxDepth = c.maxDepth := by
  replace hx : x c = relimit c.maxDepth (x c) := hx
  rw [hrun] at hx
  rw [(EStateM.Result.ok.inj hx).2]
  rfl

end Relimit

/-- **An action that does not look at the limit of depth.** -/
structure Blind {α : Type} (x : Run α) : Prop where
  run_limited : ∀ c d, x (c.limited d) = relimit d (x c)

section Rules

variable {α β : Type} {x y : Run α} {f : α → Run β}

namespace Blind

theorem pure (a : α) : Blind (Pure.pure a) := ⟨fun _ _ => rfl⟩

theorem throw (e : Fault) : Blind (MonadExcept.throw e : Run α) := ⟨fun _ _ => rfl⟩

theorem bind (hx : Blind x) (hf : ∀ a, Blind (f a)) : Blind (x >>= f) :=
  ⟨fun c d => bind_limited (hx.run_limited c d) fun a c' _ => (hf a).run_limited c' d⟩

theorem ite {p : Prop} [Decidable p] (hx : Blind x) (hy : Blind y) : Blind (if p then x else y) := by
  split
  · exact hx
  · exact hy

/-- What is read off the context is no limit. -/
theorem observe {g : Context → α} (hg : ∀ c d, g (c.limited d) = g c) :
    Blind (LispMachine.observe g) :=
  ⟨fun c d => congrArg (EStateM.Result.ok · (c.limited d)) (hg c d)⟩

theorem look (g : Heap → α) : Blind (Context.look g) := ⟨fun _ _ => rfl⟩

theorem edit {g : Context → Context} (hg : ∀ c d, g (c.limited d) = (g c).limited d) :
    Blind (modify g : Run PUnit) := by
  refine ⟨fun c d => ?_⟩
  show EStateM.Result.ok PUnit.unit (g (c.limited d)) = .ok PUnit.unit ((g c).limited d)
  rw [hg]

theorem lift (g : HeapM α) : Blind (liftM g : Run α) := by
  refine ⟨fun c d => ?_⟩
  show onHeap g (c.limited d) = relimit d (onHeap g c)
  have hsame : (c.limited d).heap = c.heap := rfl
  rw [onHeap, onHeap, hsame]
  cases g c.heap <;> rfl

theorem forM {g : α → Run PUnit} (h : ∀ a, Blind (g a)) (as : List α) : Blind (as.forM g) := by
  induction as with
  | nil => exact pure _
  | cons a as ih => exact (h a).bind fun _ => ih

end Blind

end Rules

namespace Blind

/-! ## 2. Values and environments -/

theorem isFailing : Blind Context.isFailing := observe fun _ _ => rfl

theorem fail (message : String) : Blind (Context.fail message) := by
  refine ⟨fun c d => ?_⟩
  unfold Context.fail
  have hsame : (c.limited d).failing = c.failing := rfl
  rw [run_modifyGet, run_modifyGet, hsame]
  cases c.failing <;> rfl

theorem prepend (line : String) : Blind (Context.prepend line) := by
  refine edit fun c d => ?_
  have hsame : (c.limited d).failure = c.failure := rfl
  rw [hsame]
  by_cases h : line.utf8ByteSize + c.failure.utf8ByteSize ≤ failureCap
  · rw [if_pos h, if_pos h]
    rfl
  · rw [if_neg h, if_neg h]

theorem reset : Blind Context.reset := edit fun _ _ => rfl

theorem intern (name : String) : Blind (Context.intern name) := by
  refine ⟨fun c d => ?_⟩
  have hsame : (c.limited d).symbols = c.symbols := rfl
  rw [Context.intern, Context.intern, hsame]
  cases c.symbols.intern name <;> rfl

theorem sym (name : String) : Blind (Context.sym name) := (intern name).bind fun _ => pure _

theorem ofBool (b : Bool) : Blind (Context.ofBool b) := ⟨fun _ _ => rfl⟩

theorem write (s : String) : Blind (Context.write s) := edit fun _ _ => rfl

theorem consOnto (slot : Nat) (vs : List Value) : Blind (Context.consOnto slot vs) := by
  induction vs with
  | nil => exact pure _
  | cons v vs ih => exact (lift _).bind fun _ => (lift _).bind fun _ => (lift _).bind fun _ => ih

theorem list (items : List Value) : Blind (Context.list items) :=
  (lift _).bind fun _ => (forM (fun _ => (lift _).bind fun _ => pure _) items).bind fun _ =>
    (lift _).bind fun _ => (consOnto _ _).bind fun _ => (lift _).bind fun _ => (lift _).bind fun _ =>
      pure _

theorem str (bytes : ByteArray) : Blind (Context.str bytes) := lift _

theorem func (env params body name : Value) : Blind (Context.func env params body name) :=
  (lift _).bind fun _ => (list _).bind fun _ => (lift _).bind fun _ => (lift _).bind fun _ =>
    (lift _).bind fun _ => pure _

theorem newFrame (parent : Value) : Blind (Context.newFrame parent) := lift _

theorem define (env key value : Value) : Blind (Context.define env key value) := by
  refine (look _).bind fun found => ?_
  cases found with
  | some binding => exact lift _
  | none =>
    exact (lift _).bind fun _ => (lift _).bind fun _ => (lift _).bind fun _ => (look _).bind fun _ =>
      (lift _).bind fun _ => (lift _).bind fun _ => lift _

theorem unbound (key : Value) : Blind (Context.unbound key) :=
  (observe fun _ _ => rfl).bind fun _ => fail _

theorem valueOf (env key : Value) : Blind (Context.valueOf env key) := by
  refine (look _).bind fun found => ?_
  cases found with
  | some binding => exact look _
  | none => exact unbound key

theorem assign (env key value : Value) : Blind (Context.assign env key value) := by
  refine (look _).bind fun found => ?_
  cases found with
  | some binding => exact (lift _).bind fun _ => pure _
  | none => exact unbound key

/-! ## 3. The reader -/

theorem quotation (v : Value) : Blind (Reader.quotation v) :=
  (lift _).bind fun _ => (lift _).bind fun _ => (lift _).bind fun _ => (sym _).bind fun _ =>
    (lift _).bind fun _ => (lift _).bind fun _ => pure _

theorem append (base : Nat) (last v : Value) : Blind (Reader.append base last v) :=
  (lift _).bind fun _ => ite ((lift _).bind fun _ => pure _) ((lift _).bind fun _ => pure _)

theorem close (base : Nat) : Blind (Reader.close base) :=
  (lift _).bind fun _ => (lift _).bind fun _ => pure _

theorem deliver (v : Value) (nests : List Nest) : Blind (Reader.deliver v nests) := by
  induction nests generalizing v with
  | nil => exact pure _
  | cons nest outer ih =>
    cases nest with
    | quotation => exact (quotation v).bind fun _ => ih _
    | elements base last => exact (append base last v).bind fun _ => pure _
    | dotted base last => exact (lift _).bind fun _ => pure _
    | closing base => exact pure _

theorem atomValue (name : List Char) : Blind (Reader.atomValue name) := by
  unfold Reader.atomValue
  split
  · exact pure _
  · exact sym _

theorem meet (nests : List Nest) (token : Token) : Blind (Reader.meet nests token) := by
  have hatom : ∀ name, Blind (do return Reader.Effect.value (← Reader.atomValue name) nests) :=
    fun name => (atomValue name).bind fun _ => pure _
  cases token with
  | opening => exact .ite (pure _) ((lift _).bind fun _ => pure _)
  | mark => exact .ite (pure _) (pure _)
  | text s => exact (str _).bind fun _ => pure _
  | unclosedText => exact pure _
  | closing =>
    cases nests with
    | nil => exact pure _
    | cons nest outer =>
      cases nest with
      | elements base last => exact (close base).bind fun _ => pure _
      | _ => exact pure _
  | atom name =>
    cases nests with
    | nil => exact hatom name
    | cons nest outer =>
      cases nest with
      | elements base last => exact .ite (.ite (pure _) (pure _)) (hatom name)
      | _ => exact hatom name

theorem effect (nests : List Nest) (token : Token) : Blind (Reader.effect nests token) := by
  unfold Reader.effect
  split
  · unfold Reader.meetEnd
    split
    · exact (close _).bind fun _ => pure _
    · exact pure _
  · exact meet nests token

theorem readFrom (nests : List Nest) (src : List Char) : Blind (Reader.readFrom nests src) := by
  induction hlen : src.length using Nat.strongRecOn generalizing nests src with
  | ind len ih =>
    rw [Reader.readFrom]
    split
    · exact pure _
    · rename_i token rest hnext
      have hlt : rest.length < len := hlen ▸ Token.length_lt_of_next? hnext
      refine (effect nests token).bind fun e => ?_
      cases e with
      | error e used => exact pure _
      | more nests => exact ih _ hlt nests rest rfl
      | value v nests =>
        refine (deliver v nests).bind fun r => ?_
        obtain ⟨v, nests⟩ := r
        cases nests with
        | nil => exact pure _
        | cons nest nests => exact ih _ hlt _ rest rfl

theorem read (src : List Char) : Blind (Reader.read src) := by
  unfold Reader.read
  split
  · exact pure _
  · refine (lift _).bind fun _ => (readFrom [] src).bind fun r => ?_
    obtain ⟨r, rest⟩ := r
    cases r with
    | ok v => exact pure _
    | error e => exact (lift _).bind fun _ => pure _

/-! ## 4. The native procedures -/

theorem failNext (message : String) : Blind (Context.failNext message) :=
  (fail message).bind fun _ => pure _

theorem int? (name : String) (position : Nat) (v : Value) : Blind (Native.int? name position v) := by
  unfold Native.int?
  split
  · exact pure _
  · exact (fail _).bind fun _ => pure _

theorem isPair (name : String) (position : Nat) (v : Value) :
    Blind (Native.isPair name position v) := ite (pure _) ((fail _).bind fun _ => pure _)

theorem length? (name : String) (position : Nat) (v : Value) :
    Blind (Native.length? name position v) := by
  refine (look _).bind fun count => ?_
  split
  · exact pure _
  · exact (fail _).bind fun _ => pure _
  · exact (fail _).bind fun _ => pure _
  · exact throw _

theorem finishSpine {α : Type} (spine : Spine) (result : α) : Blind (Native.finish spine result) := by
  unfold Native.finish
  split
  · exact pure _
  · exact throw _

theorem test (b : Bool) : Blind (Native.test b) := (ofBool b).bind fun _ => pure _

theorem foldInts {name : String} {op : Word → Word → Word} {position : Nat} {acc : Word}
    (vs : List Value) : Blind (Native.foldInts name op position acc vs) := by
  induction vs generalizing position acc with
  | nil => exact pure _
  | cons v vs ih =>
    refine (int? _ _ _).bind fun n => ?_
    cases n with
    | some n => exact ih
    | none => exact pure _

theorem foldRest {name : String} {op : Word → Word → Word} {position : Nat} {acc : Word}
    (rest : Value) : Blind (Native.foldRest name op position acc rest) := by
  refine (look _).bind fun spine => (foldInts _).bind fun n => ?_
  cases n with
  | some n => exact finishSpine _ _
  | none => exact pure _

theorem chainInts {name : String} {rel : Word → Word → Bool} {position : Nat} {holds : Bool}
    {previous : Word} (vs : List Value) :
    Blind (Native.chainInts name rel position holds previous vs) := by
  induction vs generalizing position holds previous with
  | nil => exact pure _
  | cons v vs ih =>
    refine (int? _ _ _).bind fun n => ?_
    cases n with
    | some n => exact ih
    | none => exact pure _

theorem compare {name : String} {rel : Word → Word → Bool} (first rest : Value) :
    Blind (Native.compare name rel first rest) := by
  refine (int? _ _ _).bind fun n => ?_
  cases n with
  | none => exact pure _
  | some n =>
    refine (look _).bind fun spine => (chainInts _).bind fun holds => ?_
    cases holds with
    | some holds => exact (ofBool _).bind fun _ => finishSpine _ _
    | none => exact pure _

theorem subtract (first rest : Value) : Blind (Native.subtract first rest) := by
  refine (int? _ _ _).bind fun n => ?_
  cases n with
  | none => exact pure _
  | some n => exact ite (pure _) (foldRest rest)

theorem divide {name : String} {op : Word → Word → Word} (a b : Value) :
    Blind (Native.divide name op a b) := by
  refine (int? _ _ _).bind fun x => (int? _ _ _).bind fun y => ?_
  split
  · exact ite (failNext _) (pure _)
  · exact pure _

theorem slot {name : String} {read : Heap → Value → Value} (p : Value) :
    Blind (Native.slot name read p) :=
  (isPair _ _ _).bind fun _ => ite ((look _).bind fun _ => pure _) (pure _)

theorem setSlot {name : String} {write : Value → Value → HeapM Unit} (p v : Value) :
    Blind (Native.setSlot name write p v) :=
  (isPair _ _ _).bind fun _ => ite ((lift _).bind fun _ => pure _) (pure _)

theorem listNth (list index : Value) : Blind (Native.listNth list index) := by
  refine (length? _ _ _).bind fun length => ?_
  cases length with
  | none => exact pure _
  | some length =>
    refine (int? _ _ _).bind fun i => ?_
    cases i with
    | none => exact pure _
    | some i => exact ite (failNext _) ((look _).bind fun _ => pure _)

theorem print (rest : Value) : Blind (Native.print rest) :=
  (look _).bind fun _ => (finishSpine _ _).bind fun _ => (observe fun _ _ => rfl).bind fun _ =>
    (write _).bind fun _ => pure _

theorem strLen (v : Value) : Blind (Native.strLen v) := by
  refine (look _).bind fun bytes => ?_
  cases bytes with
  | some bytes => exact pure _
  | none => exact failNext _

theorem apply (func args : Value) : Blind (Native.apply func args) := by
  refine (length? _ _ _).bind fun length => ?_
  cases length with
  | some length => exact pure _
  | none => exact pure _

theorem gc : Blind Native.gc := (lift _).bind fun _ => (look _).bind fun _ => pure _

/-- **No primitive looks at the limit.** -/
theorem primitive (p : Primitive) (args : List Value) : Blind (p.run args) := by
  unfold Primitive.run
  split
  case h_11 => exact (lift _).bind fun _ => pure _
  case h_14 | h_15 => exact setSlot _ _
  case h_16 => exact pure _
  case h_18 =>
    refine (length? _ _ _).bind fun n => ?_
    cases n with
    | some n => exact pure _
    | none => exact pure _
  case h_1 | h_2 => exact foldRest _
  case h_3 => exact subtract _ _
  case h_4 | h_5 => exact divide _ _
  case h_6 | h_7 | h_8 | h_9 | h_10 => exact compare _ _
  case h_12 | h_13 => exact slot _
  case h_17 => exact listNth _ _
  case h_19 | h_20 | h_21 | h_22 | h_25 | h_26 => exact test _
  case h_23 | h_24 | h_27 => exact (look _).bind fun _ => test _
  case h_28 => exact strLen _
  case h_29 => exact apply _ _
  case h_30 => exact print _
  case h_31 => exact gc
  case h_32 => exact throw _

/-! ## 5. Calls -/

theorem bindParams (frame params args : Value) : Blind (Machine.bindParams frame params args) := by
  refine (look _).bind fun paired => ?_
  obtain ⟨bound, fit⟩ := paired
  refine (forM (fun p => define frame p.1 p.2) bound).bind fun _ => ?_
  cases fit with
  | exact => exact pure _
  | tooFew => exact (fail _).bind fun _ => pure _
  | tooMany => exact (fail _).bind fun _ => pure _
  | endless => exact throw _

theorem finish (call : Call) (v : Value) : Blind (Machine.finish call v) := by
  have hleave : Blind (do
      Heap.popRoots call.base
      modify fun c => { c with current := call.caller }
      Pure.pure (Next.give v) : Run Next) :=
    (lift _).bind fun _ => (edit fun _ _ => rfl).bind fun _ => pure _
  refine isFailing.bind fun failing => .ite ?_ hleave
  exact (observe fun _ _ => rfl).bind fun _ => (prepend _).bind fun _ => hleave

theorem enterForms (call : Call) (frame forms v : Value) :
    Blind (Machine.enterForms call frame forms v) :=
  .ite ((look _).bind fun _ => pure _) (finish call v)

theorem enterBody (call : Call) (args : Value) : Blind (Machine.enterBody call args) :=
  (newFrame _).bind fun _ => (lift _).bind fun _ => (bindParams _ _ _).bind fun _ =>
    isFailing.bind fun _ => .ite (finish call .nil) (enterForms call _ _ .nil)

theorem resumeBody (call : Call) (frame forms v : Value) :
    Blind (Machine.resumeBody call frame forms v) := by
  refine isFailing.bind fun _ => .ite (finish call .nil) ?_
  refine (observe fun _ _ => rfl).bind fun _ => .ite ?_ ((look _).bind fun _ => enterForms call _ _ v)
  exact (edit fun _ _ => rfl).bind fun _ => (lift _).bind fun _ => enterBody call v

theorem enterFunction (func args : Value) : Blind (Machine.enterFunction func args) :=
  (observe fun _ _ => rfl).bind fun _ => (edit fun _ _ => rfl).bind fun _ => (look _).bind fun _ =>
    (lift _).bind fun _ => (lift _).bind fun _ => enterBody _ args

/-! ## 6. Forms -/

theorem enterSequence (env forms : Value) (tail : Bool) (v : Value) :
    Blind (Machine.enterSequence env forms tail v) := .ite ((look _).bind fun _ => pure _) (pure _)

theorem enterConjunction (env forms : Value) (tail : Bool) (v : Value) :
    Blind (Machine.enterConjunction env forms tail v) := .ite ((look _).bind fun _ => pure _) (pure _)

theorem enterDisjunction (env forms : Value) (tail : Bool) :
    Blind (Machine.enterDisjunction env forms tail) := .ite ((look _).bind fun _ => pure _) (pure _)

theorem enterBranch (env args : Value) (tail : Bool) : Blind (Machine.enterBranch env args tail) :=
  (look _).bind fun _ => .ite (failNext _) ((look _).bind fun _ => pure _)

theorem enterDefine (env args : Value) : Blind (Machine.enterDefine env args) := by
  refine .ite (failNext _) ((look _).bind fun target => (look _).bind fun name => ?_)
  refine .ite ((look _).bind fun _ => pure _) (.ite ?_ (failNext _))
  refine (look _).bind fun params => (look _).bind fun _ => .ite (failNext _) ?_
  exact (look _).bind fun _ => (func _ _ _ _).bind fun _ => (define _ _ _).bind fun _ => pure _

theorem enterLambda (env args : Value) : Blind (Machine.enterLambda env args) := by
  refine (look _).bind fun _ => (look _).bind fun _ => .ite (failNext _) ?_
  exact (look _).bind fun _ => (func _ _ _ _).bind fun _ => pure _

theorem enterAssignment (env args : Value) : Blind (Machine.enterAssignment env args) :=
  (look _).bind fun _ => .ite (failNext _) ((look _).bind fun _ => pure _)

theorem enterBindings (env frame args bindings : Value) (tail : Bool) :
    Blind (Machine.enterBindings env frame args bindings tail) := by
  have hbound : ∀ name expr : Value, Blind (if !name.isSym then Context.failNext "let: Invalid binding"
      else Pure.pure (.eval env expr false (.binding env frame args bindings name tail))) :=
    fun _ _ => .ite (failNext _) (pure _)
  refine .ite ((look _).bind fun binding => .ite (hbound _ _) ((look _).bind fun _ => hbound _ _)) ?_
  exact (look _).bind fun _ => enterSequence _ _ _ _

theorem enterLet (env args : Value) (tail : Bool) : Blind (Machine.enterLet env args tail) := by
  refine .ite (failNext _) ((lift _).bind fun _ => (newFrame _).bind fun _ => (lift _).bind fun _ => ?_)
  exact (look _).bind fun _ => (enterBindings _ _ _ _ _).bind fun _ => pure _

/-- **No special form looks at the limit.** -/
theorem standardForm (form : StandardForm) (env args : Value) (tail : Bool) :
    Blind (form.enter env args tail) := by
  cases form with
  | quote => exact (look _).bind fun _ => pure _
  | branch => exact enterBranch env args tail
  | define => exact enterDefine env args
  | lambda => exact enterLambda env args
  | sequence => exact enterSequence env args tail .nil
  | conjunction => exact (ofBool _).bind fun _ => enterConjunction env args tail _
  | disjunction => exact enterDisjunction env args tail
  | binding => exact enterLet env args tail
  | assignment => exact enterAssignment env args

end Blind

/-! ## 7. Evaluation -/

/-- **The contract of an embedding program**: it does not look at the limit. -/
structure Host.Blind (host : Host) : Prop where
  procedure : ∀ entry args, LispMachine.Blind (host.procedure entry args)
  form : ∀ entry env args tail, LispMachine.Blind (host.form entry env args tail)

namespace Blind

variable {host : Host}

theorem enterNative (hhost : host.Blind) (func args : Value) :
    Blind (Machine.enterNative host func args) := by
  refine (look _).bind fun found => ?_
  cases found with
  | none => exact failNext _
  | some p =>
    refine (look _).bind fun taken => ?_
    cases taken with
    | error misfit => exact failNext _
    | ok args =>
      cases p with
      | primitive p => exact primitive p args
      | hosted name arity entry => exact hhost.procedure entry args

theorem enterApply (hhost : host.Blind) (func args : Value) :
    Blind (Machine.enterApply host func args) := by
  refine (lift _).bind fun _ => (lift _).bind fun _ => (look _).bind fun _ => .ite ?_ (.ite ?_ ?_)
  · exact (enterFunction func args).bind fun _ => pure _
  · exact (enterNative hhost func args).bind fun _ => pure _
  · exact (failNext _).bind fun _ => pure _

theorem enterForm (hhost : host.Blind) (env expr : Value) (tail : Bool) :
    Blind (Machine.enterForm host env expr tail) := by
  refine (observe fun _ _ => rfl).bind fun form => ?_
  cases form with
  | none => exact pure _
  | some form =>
    cases form with
    | standard f => exact (look _).bind fun _ => standardForm f env _ tail
    | hosted entry => exact (look _).bind fun _ => hhost.form entry env _ tail

theorem resumeCall (hhost : host.Blind) (tail : Bool) (form : Value) :
    Blind (Machine.resumeCall host tail form) := by
  refine isFailing.bind fun _ => .ite (pure _) ((lift _).bind fun _ => (look _).bind fun func => ?_)
  refine (look _).bind fun args => (look _).bind fun _ => .ite ?_ (.ite (enterNative hhost _ _) (failNext _))
  refine (observe fun _ _ => rfl).bind fun _ => .ite ?_ (enterFunction func args)
  exact (edit fun _ _ => rfl).bind fun _ => pure _

theorem enterArguments (env rest : Value) (base : Nat) (last : Value) :
    Blind (Machine.enterArguments env rest base last) :=
  .ite ((look _).bind fun _ => pure _) ((lift _).bind fun _ => (lift _).bind fun _ => pure _)

theorem finishExec (base : Nat) : Blind (Machine.finishExec base) :=
  (lift _).bind fun _ => (lift _).bind fun _ => pure _

theorem enterNextForm (source : List Char) (base : Nat) (echo : Bool) :
    Blind (Machine.enterNextForm source base echo) := by
  refine reset.bind fun _ => (read source).bind fun r => ?_
  obtain ⟨r, rest⟩ := r
  cases r with
  | ok form =>
    cases form with
    | none => exact finishExec base
    | some form => exact (lift _).bind fun _ => (observe fun _ _ => rfl).bind fun _ => pure _
  | error e => exact (lift _).bind fun _ => (fail _).bind fun _ => finishExec base

/-- A step that goes on unless the state is failing. -/
theorem unlessFailing {x : Run Next} (hx : Blind x) :
    Blind (do if ← Context.isFailing then Pure.pure (.give .nil) else x) :=
  isFailing.bind fun _ => .ite (pure _) hx

/-- **No step that waits looks at the limit.** -/
theorem resume (hhost : host.Blind) (p : Pending) (v : Value) : Blind (p.resume host v) := by
  cases p with
  | leave base => exact (lift _).bind fun _ => (edit fun _ _ => rfl).bind fun _ => pure _
  | release base => exact (lift _).bind fun _ => pure _
  | call tail => exact resumeCall hhost tail v
  | argument env rest base last =>
    refine isFailing.bind fun _ => .ite ((lift _).bind fun _ => pure _) ?_
    exact (append _ _ _).bind fun _ => (look _).bind fun _ => enterArguments _ _ _ _
  | body call frame forms => exact resumeBody call frame forms v
  | branch env args tail => exact unlessFailing ((look _).bind fun _ => pure _)
  | define env name => exact unlessFailing ((define _ _ _).bind fun _ => pure _)
  | assign env name => exact unlessFailing ((assign _ _ _).bind fun _ => pure _)
  | sequence env forms tail => exact unlessFailing ((look _).bind fun _ => enterSequence _ _ _ _)
  | conjunction env forms tail =>
    exact isFailing.bind fun _ => .ite (pure _) ((look _).bind fun _ => enterConjunction _ _ _ _)
  | disjunction env forms tail =>
    exact unlessFailing (.ite (pure _) ((look _).bind fun _ => enterDisjunction _ _ _))
  | binding env frame args bindings name tail =>
    exact unlessFailing ((define _ _ _).bind fun _ => (look _).bind fun _ => enterBindings _ _ _ _ _)
  | exec source base echo =>
    refine (lift _).bind fun _ => isFailing.bind fun _ => .ite (finishExec base) (.ite ?_ ?_)
    · exact (observe fun _ _ => rfl).bind fun _ => (write _).bind fun _ => enterNextForm _ _ _
    · exact enterNextForm _ _ _

/-- **No task does**, but the evaluation of a pair. -/
theorem step (hhost : host.Blind) {task : Task} (htask : ∀ env a tail, task ≠ .eval env (.pair a) tail) :
    Blind (task.step host) := by
  cases task with
  | give v => exact pure _
  | eval env expr tail =>
    cases expr with
    | pair a => exact absurd rfl (htask env a tail)
    | sym id => exact (valueOf env (.sym id)).bind fun _ => pure _
    | _ => exact pure _
  | evalList env list => exact (lift _).bind fun _ => enterArguments _ _ _ _
  | apply func args => exact enterApply hhost func args
  | exec source echo => exact (lift _).bind fun _ => enterNextForm _ _ _

/-! ## 8. Sessions -/

theorem defineForm (name : String) (form : SpecialForm) : Blind (Context.defineForm name form) :=
  (intern name).bind fun _ => edit fun _ _ => rfl

theorem defineProcedure (p : Procedure) : Blind (Context.defineProcedure p) :=
  (lift _).bind fun _ => (lift _).bind fun _ => (lift _).bind fun _ => (sym _).bind fun _ =>
    (observe fun _ _ => rfl).bind fun _ => (define _ _ _).bind fun _ => lift _

theorem furnish : Blind Context.furnish := by
  refine (lift _).bind fun env => (lift _).bind fun _ => (edit fun _ _ => rfl).bind fun _ => ?_
  refine (sym _).bind fun truth => (edit fun _ _ => rfl).bind fun _ => (define _ _ _).bind fun _ => ?_
  exact (forM (fun f => defineForm f.name (.standard f)) _).bind fun _ =>
    forM (fun p => defineProcedure (.primitive p)) _

end Blind

end LispMachine
