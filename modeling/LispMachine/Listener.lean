import LispMachine.Reader.Complete
import LispMachine.Session

/-!
# Programs as a whole, and the interactive listener

* `Report`, `evaluate` -- a source text run in a fresh context: what it printed, and its value, its
  failure, or the fault that ended it;
* `Listener.feed` -- the interactive loop line by line. Lines are gathered until the text is
  complete, then run; the prompt tells which of the two is going on;
* `Listener.run` -- the loop over a whole input, with what it printed and the lines it left unread
  when a fault, or a line that is not valid UTF-8, stopped it.
-/

namespace LispMachine

/-! ## 1. Programs -/

/-- How a program ends. -/
inductive Ending where
  | value (text : String)
  | failure (message : String)
  | fault (f : Fault)
  deriving DecidableEq, Repr

/-- How a program ends, and what it printed. -/
structure Report where
  ending : Ending
  output : String
  deriving DecidableEq, Repr

/-- What a context has to say after a run that gave `v`. -/
def Context.ending (c : Context) (v : Value) : Ending :=
  if c.failing then .failure c.failure else .value (c.display v)

/-- Runs a text in a fresh context. -/
def evaluate (host : Host) (cfg : Config) (source : String) : Report :=
  match Context.create cfg with
  | .error f => { ending := .fault f, output := "" }
  | .ok c =>
    match Context.exec host source false c with
    | .ok v c => { ending := c.ending v, output := c.output }
    | .error f c => { ending := .fault f, output := c.output }

/-! ## 2. The listener -/

namespace Listener

open Context

/-- What is printed before a line is read, after the lines `gathered`. -/
def prompt (gathered : String) : String := if gathered.isEmpty then "> " else "  "

/-- Takes a line, with its end; gives the lines that go on being gathered. -/
def feed (host : Host) (gathered line : String) : Run String := do
  let source := gathered ++ line
  if !isComplete source.toList then pure source
  else
    let _ ← exec host source true
    if ← isFailing then write ("Error: " ++ (← observe Context.failure) ++ "\n")
    pure ""

/-- Cuts bytes into lines with their ends, after the bytes `line` of the current one in
    reverse. -/
def linesFrom (line : List UInt8) : List UInt8 → List (List UInt8)
  | [] => if line.isEmpty then [] else [line.reverse]
  | b :: bs =>
    if b = 10 then (b :: line).reverse :: linesFrom [] bs else linesFrom (b :: line) bs

/-- The lines of an input, each with its end. -/
def lines (input : ByteArray) : List (List UInt8) := linesFrom [] input.toList

/-- Why the listener stopped. -/
inductive Stop where
  /-- At the end of its input. -/
  | ended
  /-- At a line that is not valid UTF-8. -/
  | notText
  | fault (f : Fault)
  deriving DecidableEq, Repr

/-- Why the listener stopped, what it printed, and the lines it left unread. -/
structure Transcript where
  stop : Stop
  output : String
  unread : List (List UInt8)
  deriving DecidableEq, Repr

/-- Goes through lines, after the lines `gathered`. -/
def loop (host : Host) (gathered : String) (c : Context) : List (List UInt8) → Transcript
  | [] => { stop := .ended, output := c.output ++ prompt gathered ++ "\n", unread := [] }
  | line :: rest =>
    match String.fromUTF8? ⟨line.toArray⟩ with
    | none => { stop := .notText, output := c.output ++ prompt gathered, unread := rest }
    | some line =>
      match (do write (prompt gathered); feed host gathered line : Run String) c with
      | .ok gathered c => loop host gathered c rest
      | .error f c => { stop := .fault f, output := c.output, unread := rest }

/-- Goes through an input in a context. -/
def run (host : Host) (c : Context) (input : ByteArray) : Transcript :=
  loop host "" c (lines input)

end Listener

end LispMachine
