/-!
# Fixnums: the integers of the machine

An integer is thirty bits wide, a bit vector read in two's complement. It is computed with in a
machine word, which is two bits wider:

* `Fixnum`, `Word` -- the integers and the words. Addition, subtraction, multiplication and negation
  are those of words, and so are quotient and remainder (`BitVec.sdiv`, `BitVec.srem`), which
  truncate toward zero;
* `Fixnum.toWord`, `Fixnum.ofWord` -- an integer in a word, and a word cut to an integer;
* `Fixnum.ofInt`, `Fixnum.ofNat` -- wrapping of a mathematical integer and of a count;
* `Fixnum.decimal?` -- the value of an optional sign and decimal digits, of any length;
* `Fixnum.text` -- the decimal text.
-/

namespace LispMachine

/-- A thirty-bit integer. -/
abbrev Fixnum := BitVec 30

/-- What is computed with. -/
abbrev Word := BitVec 32

namespace Fixnum

/-! ## 1. Bounds and wrapping -/

/-- Width of an integer in bits. -/
def width : Nat := 30

/-- The largest integer. -/
def greatest : Int := (BitVec.intMax 30).toInt

/-- The smallest integer. -/
def least : Int := (BitVec.intMin 30).toInt

/-- The representative of a mathematical integer modulo `2 ^ 30`. -/
def ofInt (n : Int) : Fixnum := BitVec.ofInt 30 n

/-- The representative of a count modulo `2 ^ 30`. -/
def ofNat (n : Nat) : Fixnum := BitVec.ofNat 30 n

/-- An integer in a word, with its sign. -/
def toWord (n : Fixnum) : Word := n.signExtend 32

/-- The low bits of a word. -/
def ofWord (w : Word) : Fixnum := w.setWidth 30

/-! ## 2. Decimal text -/

/-- The value of decimal digits after the digits whose value is `acc`. -/
def digitsFrom (acc : Word) : List Char → Word
  | [] => acc
  | c :: cs => digitsFrom (acc * 10 + BitVec.ofNat 32 (c.toNat - '0'.toNat)) cs

/-- Digits, at least one and nothing else. -/
def digits? (cs : List Char) : Option Word :=
  if cs.isEmpty || !cs.all Char.isDigit then none else some (digitsFrom 0 cs)

/-- An optional sign followed by digits; anything else is no integer. -/
def signed? : List Char → Option Word
  | '-' :: cs => (digits? cs).map (- ·)
  | '+' :: cs => digits? cs
  | cs => digits? cs

/-- The integer that a text is. -/
def decimal? (cs : List Char) : Option Fixnum := (signed? cs).map ofWord

/-- The decimal text of an integer. -/
def text (n : Fixnum) : String := toString n.toInt

end Fixnum

end LispMachine
