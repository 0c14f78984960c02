import LispMachine.Context
import LispMachine.Reader.Token

/-!
# The reader

The reader takes one value after the other off a source text and builds it in the heap, token by
token. What it is inside of is a list of `Nest`s, the innermost in front, so reading is one loop
over the tokens:

* `Nest` -- an unfinished list or quotation;
* `Reader.deliver` -- hands a finished value to what it is inside of;
* `Reader.readFrom` -- the loop. Each round takes a token off the text;
* `Reader.read` -- the next value, end of input, or an error (`ReadError`), and the text after
  it. After an error the root stack is as before, and reading may go on.

Lists and quotations together nest at most 512 deep.
-/

namespace LispMachine

/-! ## 1. Errors -/

/-- Why no value could be read. -/
inductive ReadError where
  | unexpectedEnd
  | unexpectedClosing
  | tooDeep
  | misplacedDot
  | unclosedList
  | unclosedText
  deriving DecidableEq, Repr

namespace ReadError

/-- The text of an error. -/
def message : ReadError → String
  | unexpectedEnd => "Unexpected end of input"
  | unexpectedClosing => "Unexpected ')'"
  | tooDeep => "Nesting too deep"
  | misplacedDot => "Misplaced '.'"
  | unclosedList => "Expected ')'"
  | unclosedText => "Missing closing '\"'"

/-- The source ends inside a list or a string. -/
def isIncomplete : ReadError → Bool
  | unclosedList | unclosedText => true
  | unexpectedEnd | unexpectedClosing | tooDeep | misplacedDot => false

end ReadError

/-! ## 2. Unfinished values -/

/-- What a value is being read inside of. A list has its pairs rooted in the slot `base`. -/
inductive Nest where
  /-- After a quote mark. -/
  | quotation
  /-- Among the elements of a list, whose last pair is `last`, nil before the first. -/
  | elements (base : Nat) (last : Value)
  /-- After the dot of a list, whose last pair is `last`. -/
  | dotted (base : Nat) (last : Value)
  /-- After the tail of a list: its parenthesis must follow. -/
  | closing (base : Nat)
  deriving DecidableEq, Repr

namespace Reader

/-- Deepest nesting of lists and quotations. -/
def maxNesting : Nat := 512

/-- The list `(quote v)`. -/
def quotation (v : Value) : Run Value := do
  let base ← Heap.rootBase
  let _ ← Heap.pushRoot v
  let tail ← Heap.cons v .nil
  let quote ← Context.sym "quote"
  let out ← Heap.cons quote tail
  Heap.popRoots base
  pure out

/-- Appends an element to the list rooted in the slot `base`, and gives the new last pair. -/
def append (base : Nat) (last v : Value) : Run Value := do
  let cell ← Heap.cons v .nil
  if last.isNil then Heap.setRoot base cell else Heap.setCdr last cell
  pure cell

/-- Ends the list rooted in the slot `base`. -/
def close (base : Nat) : Run Value := do
  let v ← Heap.root base
  Heap.popRoots base
  pure v

/-- Hands a finished value to the nests it is in: either it is finished as a whole, or there are
    nests left that want more. -/
def deliver (v : Value) : List Nest → Run (Value × List Nest)
  | [] => pure (v, [])
  | .quotation :: outer => do deliver (← quotation v) outer
  | .elements base last :: outer => do
    let cell ← append base last v
    pure (.nil, .elements base cell :: outer)
  | .dotted base last :: outer => do
    Heap.setCdr last v
    pure (.nil, .closing base :: outer)
  | .closing base :: outer => pure (.nil, .closing base :: outer)

/-! ## 3. One value -/

/-- The error at the end of the source. -/
def atEnd : List Nest → ReadError
  | .elements _ _ :: _ => .unclosedList
  | .closing _ :: _ => .unclosedList
  | _ => .unexpectedEnd

/-- What a token does inside of nests. -/
inductive Effect where
  /-- It finishes a value, which is delivered to the given nests. -/
  | value (v : Value) (nests : List Nest)
  /-- More has to come. -/
  | more (nests : List Nest)
  /-- It is an error; the token is used up if `used`. -/
  | error (e : ReadError) (used : Bool)

/-- The value of an atom: an integer, or else a symbol. -/
def atomValue (name : List Char) : Run Value :=
  match Fixnum.decimal? name with
  | some n => pure (.int n)
  | none => Context.sym (String.ofList name)

/-- Meets a token where a value or the end of a list may stand. -/
def meet (nests : List Nest) : Token → Run Effect
  | .opening => do
    if nests.length ≥ maxNesting then pure (.error .tooDeep true)
    else
      let base ← Heap.pushRoot .nil
      pure (.more (.elements base .nil :: nests))
  | .mark =>
    if nests.length ≥ maxNesting then pure (.error .tooDeep true)
    else pure (.more (.quotation :: nests))
  | .closing =>
    match nests with
    | .elements base _ :: outer => do pure (.value (← close base) outer)
    | _ => pure (.error .unexpectedClosing true)
  | .text s => do pure (.value (← Context.str (String.ofList s).toUTF8) nests)
  | .unclosedText => pure (.error .unclosedText true)
  | .atom name =>
    match nests with
    | .elements base last :: outer =>
      if name = ['.'] then
        if last.isNil then pure (.error .misplacedDot false)
        else pure (.more (.dotted base last :: outer))
      else do pure (.value (← atomValue name) nests)
    | _ => do pure (.value (← atomValue name) nests)

/-- Meets a token after the tail of the list rooted in the slot `base`. -/
def meetEnd (base : Nat) (outer : List Nest) : Token → Run Effect
  | .closing => do pure (.value (← close base) outer)
  | _ => pure (.error .misplacedDot false)

/-- What the next token does. -/
def effect (nests : List Nest) (token : Token) : Run Effect :=
  match nests with
  | .closing base :: outer => meetEnd base outer token
  | _ => meet nests token

/-- Reads on until the outermost of the nests is finished, or up to an error; gives the text that
    is left, too. -/
def readFrom (nests : List Nest) (src : List Char) : Run (Except ReadError Value × List Char) :=
  match _h : Token.next? src with
  | none => pure (.error (atEnd nests), [])
  | some (token, rest) => do
    match ← effect nests token with
    | .error e used => pure (.error e, if used then rest else src)
    | .more nests => readFrom nests rest
    | .value v nests =>
      match ← deliver v nests with
      | (v, []) => pure (.ok v, rest)
      | (_, nests) => readFrom nests rest
termination_by src.length
decreasing_by all_goals exact Token.length_lt_of_next? _h

/-- The next value of a text, or none at its end, and the text after it. -/
def read (src : List Char) : Run (Except ReadError (Option Value) × List Char) :=
  match Token.next? src with
  | none => pure (.ok none, [])
  | some _ => do
    let base ← Heap.rootBase
    match ← readFrom [] src with
    | (.ok v, rest) => pure (.ok (some v), rest)
    | (.error e, rest) =>
      Heap.popRoots base
      pure (.error e, rest)

end Reader

end LispMachine
