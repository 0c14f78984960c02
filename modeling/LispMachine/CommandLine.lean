import LispMachine.FileTree
import LispMachine.Listener

/-!
# The command line

* `CommandLine.Command` -- what the arguments ask for: the listener, a file, or a text. An
  argument `-v` in front of it is passed over;
* `CommandLine.run` -- the outcome for given standard input and files: exit status, standard
  output and standard error.
-/

namespace LispMachine.CommandLine

/-- What the arguments ask for. -/
inductive Command where
  | listen
  | file (path : String)
  | eval (source : String)
  | usage
  deriving DecidableEq, Repr

/-- Drops the argument that asks for more messages. -/
def dropVerbose : List String → List String
  | "-v" :: args => args
  | args => args

/-- The command of some arguments. -/
def command (args : List String) : Command :=
  match dropVerbose args with
  | [] => .listen
  | ["repl"] => .listen
  | ["file", path] => .file path
  | ["eval", source] => .eval source
  | _ => .usage

/-- The usage line. -/
def usageLine : String := "usage: skiff [-v] (repl | file <path> | eval <source>)"

/-- Deep recursion is allowed on the command line. -/
def config : Config := { maxDepth := 20000 }

/-- The text of what was read of a file. -/
def fileText (content : Except FileError ByteArray) : Except FileError String := do
  match String.fromUTF8? (← content) with
  | some s => pure s
  | none => throw .notText

/-- Exit status, standard output and standard error. -/
structure Outcome where
  code : Nat
  output : String := ""
  errors : String := ""
  deriving DecidableEq, Repr

/-- A host without procedures or forms. -/
def noHost : Host :=
  { procedure := fun _ _ => Context.failNext "apply: Invalid native"
    form := fun _ _ _ _ => Context.failNext "eval: Invalid application" }

/-- The exit status after a fault. -/
def faultCode : Nat := 101

/-- The outcome of a program. -/
def ofReport (r : Report) : Outcome :=
  match r.ending with
  | .value text => { code := 0, output := r.output ++ text ++ "\n" }
  | .failure message => { code := 1, output := r.output ++ "Error: " ++ message ++ "\n" }
  | .fault _ => { code := faultCode, output := r.output }

/-- Runs a text. -/
def runText (source : String) : Outcome := ofReport (evaluate noHost config source)

/-- Runs the text of a file. -/
def runFile (content : Except FileError ByteArray) : Outcome :=
  match fileText content with
  | .ok source => runText source
  | .error e => { code := 1, output := "Error: " ++ e.message ++ "\n" }

/-- The exit status of the listener. -/
def stopCode : Listener.Stop → Nat
  | .ended => 0
  | .notText => 1
  | .fault _ => faultCode

/-- Runs the listener over an input, in a fresh context. -/
def listen (input : ByteArray) : Outcome :=
  match Context.create config with
  | .error _ => { code := faultCode }
  | .ok c =>
    let transcript := Listener.run noHost c input
    { code := stopCode transcript.stop, output := transcript.output }

/-- What the command line does, given what reading each file gives. -/
def run (args : List String) (input : ByteArray)
    (readFile : String → Except FileError ByteArray) : Outcome :=
  match command args with
  | .listen => listen input
  | .file path => runFile (readFile path)
  | .eval source => runText source
  | .usage => { code := 2, errors := usageLine ++ "\n" }

end LispMachine.CommandLine
