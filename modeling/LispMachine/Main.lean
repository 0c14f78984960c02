import LispMachine.CommandLine

/-!
# The program

`main` runs the command line on the real standard input, files and standard output. The listener
answers each line as it comes; everything else is computed as a whole.
-/

namespace LispMachine.CommandLine

/-- Prints an outcome and gives its exit status. -/
def emit (outcome : Outcome) : IO UInt32 := do
  let out ← IO.getStdout
  out.putStr outcome.output
  out.flush
  let err ← IO.getStderr
  err.putStr outcome.errors
  pure outcome.code.toUInt32

/-- Why the system did not read a file. Some of its numbers come with a minus sign. -/
def fileError : IO.Error → FileError
  | .noFileOrDirectory _ code _ | .permissionDenied _ code _ | .inappropriateType _ code _
  | .invalidArgument _ code _ | .resourceExhausted _ code _ => .ofCode (min code (-code)).toNat
  | _ => .missing

/-- What reading a file gives. -/
def contentOf (path : String) : IO (Except FileError ByteArray) := do
  try
    pure (.ok (← IO.FS.readBinFile path))
  catch e => pure (.error (fileError e))

/-- A line of input with its end, empty at the end of the input. -/
partial def readLine (input : IO.FS.Stream) (line : ByteArray) : IO ByteArray := do
  let b ← input.read 1
  if b.isEmpty then pure line
  else
    let line := line ++ b
    if b.data.contains 10 then pure line else readLine input line

/-- Answers line after line. -/
partial def converse (input output : IO.FS.Stream) (gathered : String) (c : Context) :
    IO UInt32 := do
  output.putStr (Listener.prompt gathered)
  output.flush
  let line ← readLine input .empty
  if line.isEmpty then
    output.putStr "\n"
    pure 0
  else
    match String.fromUTF8? line with
    | none => pure (stopCode .notText).toUInt32
    | some line =>
      match (do
          let gathered ← Listener.feed noHost gathered line
          let text ← Context.takeOutput
          pure (gathered, text) : Run (String × String)) c with
      | .ok (gathered, text) c =>
        output.putStr text
        converse input output gathered c
      | .error f c =>
        output.putStr c.output
        output.flush
        pure (stopCode (.fault f)).toUInt32

/-- Runs the listener on standard input. -/
def listenHere : IO UInt32 := do
  match Context.create config with
  | .ok c => converse (← IO.getStdin) (← IO.getStdout) "" c
  | .error f => pure (stopCode (.fault f)).toUInt32

/-- Does what the arguments ask for. -/
def start (args : List String) : IO UInt32 := do
  match command args with
  | .listen => listenHere
  | .file path =>
    let content ← contentOf path
    emit (run args .empty fun _ => content)
  | .eval _ | .usage => emit (run args .empty fun _ => .error .missing)

end LispMachine.CommandLine

/-- The entry of the program. -/
def main (args : List String) : IO UInt32 := LispMachine.CommandLine.start args
