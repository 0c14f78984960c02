/-!
# Files by their paths

What reading a file gives, with the files as a value:

* `FileError` -- why a file has no text, and the wording (`FileError.message`);
* `FileTree` -- what stands at each place below the root, and the place that relative paths start
  from;
* `FileTree.locate` -- the walk along the names of a path. Names are taken one at a time, so the
  first one that cannot be taken decides the error: only a directory can be walked through, and a
  name may not be longer than `FileTree.longestName`;
* `FileTree.read` -- the content of the file that a path leads to.
-/

namespace LispMachine

/-! ## 1. Errors -/

/-- Why a file has no text. -/
inductive FileError where
  | missing
  | denied
  | notDirectory
  | isDirectory
  | nameTooLong
  | linkCycle
  | notText
  deriving DecidableEq, Repr

namespace FileError

/-- The errors that have a number in the system. -/
def all : List FileError := [missing, denied, notDirectory, isDirectory, nameTooLong, linkCycle]

/-- The number of an error in the system, none if the content is at fault. -/
def code? : FileError → Option Nat
  | missing => some 2
  | denied => some 13
  | notDirectory => some 20
  | isDirectory => some 21
  | nameTooLong => some 36
  | linkCycle => some 40
  | notText => none

/-- The error of a number; an unknown number says that the file is not there. -/
def ofCode (code : Nat) : FileError := (all.find? (·.code? = some code)).getD missing

/-- What an error says. -/
def description : FileError → String
  | missing => "No such file or directory"
  | denied => "Permission denied"
  | notDirectory => "Not a directory"
  | isDirectory => "Is a directory"
  | nameTooLong => "File name too long"
  | linkCycle => "Too many levels of symbolic links"
  | notText => "stream did not contain valid UTF-8"

/-- The text of an error. -/
def message (e : FileError) : String :=
  match e.code? with
  | some code => "io: " ++ e.description ++ " (os error " ++ toString code ++ ")"
  | none => "io: " ++ e.description

end FileError

/-! ## 2. Trees -/

/-- What stands at a place. -/
inductive FileNode where
  | directory
  | file (content : ByteArray)

/-- A place, as the names on the way from the root. -/
abbrev Place := List String

/-- Directories and files. The root is a directory of every tree. -/
structure FileTree where
  nodes : List (Place × FileNode)
  /-- The place where relative paths start. -/
  here : Place := []

namespace FileTree

/-- The most bytes in a name. -/
def longestName : Nat := 255

/-- The most bytes in a path. -/
def longestPath : Nat := 4095

/-- What stands at a place, if anything. -/
def node? (t : FileTree) (place : Place) : Option FileNode :=
  if place.isEmpty || place = t.here then some .directory else t.nodes.lookup place

/-- The place that some names lead to from a directory; an empty name stands between two slashes
    or at the end of the path. -/
def locate (t : FileTree) (place : Place) : List String → Except FileError (FileNode × Place)
  | [] =>
    match t.node? place with
    | some node => .ok (node, place)
    | none => .error .missing
  | name :: names =>
    match t.node? place with
    | none => .error .missing
    | some (.file _) => .error .notDirectory
    | some .directory =>
      if name = "" || name = "." then locate t place names
      else if name = ".." then locate t place.dropLast names
      else if longestName < name.utf8ByteSize then .error .nameTooLong
      else locate t (place ++ [name]) names

/-- The content of the file at a path. -/
def read (t : FileTree) (path : String) : Except FileError ByteArray :=
  if path.isEmpty then .error .missing
  else if longestPath < path.utf8ByteSize then .error .nameTooLong
  else
    match t.locate (if path.startsWith "/" then [] else t.here) (path.splitOn "/") with
    | .ok (.file content, _) => .ok content
    | .ok (.directory, _) => .error .isDirectory
    | .error e => .error e

end FileTree

end LispMachine
