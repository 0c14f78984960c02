import LispMachine.Printer
import LispMachine.Proofs.Twin.Reading

/-!
# Corresponding values have the same text

Addresses leave no trace in a text: it is made of immediates, names, types and bytes
(`Coherent.write_eq`).
-/

namespace LispMachine.Twin

open World

variable {lex : Lexicon} {T : Twin} {v v' : Value} {t t' : SymbolTable}

theorem symbolText_eq (ht : t.names = t'.names) (id : SymbolId) :
    Printer.symbolText t id = Printer.symbolText t' id := by
  rw [Printer.symbolText, Printer.symbolText, SymbolTable.name?, SymbolTable.name?, ht]

namespace Coherent

/-- An object is written by its type. -/
theorem objectText_eq (hT : T.Coherent lex) (ht : t.names = t'.names) (h : T.world.Same v v') :
    Printer.objectText T.left t v = Printer.objectText T.right t' v' := by
  have hname : t.name? = t'.name? := by
    funext id
    rw [SymbolTable.name?, SymbolTable.name?, ht]
  have hparts := hT.same_nth (hT.closureParts h).same 3
  rw [Printer.objectText, Printer.objectText, hT.typeOf_eq h, hT.bytes?_eq h,
    (hT.procedure?_eq h).1, hparts.sym?_eq, hname, hT.types_left, hT.types_right]

/-- **Corresponding values have the same text.** -/
theorem write_eq (hT : T.Coherent lex) (ht : t.names = t'.names) (room : Nat) (out : String)
    (h : T.world.Same v v') :
    Printer.write T.left t room out v = Printer.write T.right t' room out v' := by
  refine hT.similar.write_eq (fun {i j} hsym => ?_) (fun hobject => hT.objectText_eq ht hobject) room out h
  cases hsym
  exact symbolText_eq ht i

end Coherent

end LispMachine.Twin
