import LispMachine.Printer
import LispMachine.Proofs.Word
import LispMachine.Reader.Token
import Mathlib.Data.List.TakeWhile

/-!
# Data and their written form

A datum is what a source text says, whatever heap it is read into: a finite tree of integers, symbols,
texts and pairs.

* `Datum.chars` -- **the written form**: what the printer makes of a value that stands for the datum.
  `Datum.tailChars` is what follows an element of a list;
* `Datum.depth`, `Datum.breadth` -- the measures that the printer limits;
* `IsName`, `Datum.Legible` -- symbols that are read as such;
* `Datum.Undotted` -- no element of a list is the symbol of a lone dot, which would be read as the dot
  in front of a tail;
* `Token.next?_opening`, …, `Token.next?_name`, `Token.next?_quoted` -- the tokens of written forms.
-/

namespace LispMachine

/-! ## 1. Data -/

/-- A finite tree. -/
inductive Datum where
  | nil
  | int (n : Fixnum)
  | sym (name : String)
  | text (s : String)
  | pair (first rest : Datum)
  deriving DecidableEq, Repr

/-- A text that is read as a symbol: not empty, without white space, parentheses, quotes and semicolons,
    and no integer. -/
def IsName (name : String) : Prop :=
  name.toList ≠ [] ∧ (∀ c ∈ name.toList, endsAtom c = false) ∧ Fixnum.decimal? name.toList = none

instance (name : String) : Decidable (IsName name) :=
  @instDecidableAnd _ _ inferInstance (@instDecidableAnd _ _ (List.decidableBAll _ _) inferInstance)

namespace Datum

/-! ### Written forms -/

/-- A tail that is no list, and the end of the list. -/
def dotted (cs : List Char) : List Char := ' ' :: '.' :: ' ' :: (cs ++ [')'])

mutual

/-- The written form. -/
def chars : Datum → List Char
  | nil => ['(', ')']
  | int n => n.text.toList
  | sym name => name.toList
  | text s => (Printer.quoted s).toList
  | pair d e => '(' :: (d.chars ++ e.tailChars)

/-- The rest of a list after an element. -/
def tailChars : Datum → List Char
  | nil => [')']
  | int n => dotted n.text.toList
  | sym name => dotted name.toList
  | text s => dotted (Printer.quoted s).toList
  | pair d e => ' ' :: (d.chars ++ e.tailChars)

end

/-- What is no pair and not nil follows a list after a dot. -/
theorem tailChars_eq_dotted {d : Datum} (hnil : d ≠ nil) (hpair : ∀ x y, d ≠ pair x y) :
    d.tailChars = dotted d.chars := by
  cases d with
  | nil => exact absurd rfl hnil
  | int n => rfl
  | sym name => rfl
  | text s => rfl
  | pair x y => exact absurd rfl (hpair x y)

/-! ### Measures -/

/-- How many levels there are below a datum. Elements of a list lie one deeper than the list, and so does
    a tail that is no list; the rest of a list does not. -/
def depth : Datum → Nat
  | pair d e => max (d.depth + 1) e.depth
  | _ => 0

/-- The number of pairs of a list. -/
def length : Datum → Nat
  | pair _ e => e.length + 1
  | _ => 0

/-- The greatest number of pairs of a list in the datum. -/
def breadth : Datum → Nat
  | pair d e => max (e.length + 1) (max d.breadth e.breadth)
  | _ => 0

/-! ### Symbols -/

/-- All symbols are read as such. -/
def Legible : Datum → Prop
  | sym name => IsName name
  | pair d e => d.Legible ∧ e.Legible
  | _ => True

/-- The first slot of no pair holds the symbol of a lone dot. -/
def Undotted : Datum → Prop
  | pair d e => d ≠ sym "." ∧ d.Undotted ∧ e.Undotted
  | _ => True

instance decidableLegible : DecidablePred Legible
  | nil => isTrue trivial
  | int _ => isTrue trivial
  | sym name => inferInstanceAs (Decidable (IsName name))
  | text _ => isTrue trivial
  | pair d e => @instDecidableAnd _ _ (decidableLegible d) (decidableLegible e)

instance decidableUndotted : DecidablePred Undotted
  | nil => isTrue trivial
  | int _ => isTrue trivial
  | sym _ => isTrue trivial
  | text _ => isTrue trivial
  | pair d e =>
    @instDecidableAnd _ _ inferInstance
      (@instDecidableAnd _ _ (decidableUndotted d) (decidableUndotted e))

end Datum

/-! ## 2. Integers -/

namespace Fixnum

theorem ofNat_mul_add (n m : Nat) :
    (BitVec.ofNat 32 n * 10 + BitVec.ofNat 32 m : Word) = BitVec.ofNat 32 (10 * n + m) := by
  rw [BitVec.ofNat_add, BitVec.ofNat_mul, BitVec.mul_comm]
  rfl

theorem digitsFrom_cons (acc : Word) (c : Char) (cs : List Char) :
    digitsFrom acc (c :: cs) = digitsFrom (acc * 10 + BitVec.ofNat 32 (c.toNat - '0'.toNat)) cs := by
  rfl

/-- Digits are read modulo the width of a word. -/
theorem digitsFrom_ofNat (n : Nat) (cs : List Char) :
    digitsFrom (BitVec.ofNat 32 n) cs = BitVec.ofNat 32 (Nat.ofDigitChars 10 cs n) := by
  induction cs generalizing n with
  | nil => rfl
  | cons c cs ih =>
    rw [digitsFrom_cons, ofNat_mul_add, ih, Nat.ofDigitChars_cons]

theorem isDigit_of_mem_repr {n : Nat} {c : Char} (hc : c ∈ n.repr.toList) : c.isDigit = true := by
  rw [Nat.toList_repr] at hc
  exact Nat.isDigit_of_mem_toDigits (by decide) (by decide) hc

/-- The decimal digits of a number are read as it. -/
theorem digits?_repr (n : Nat) : digits? n.repr.toList = some (BitVec.ofNat 32 n) := by
  have hall : n.repr.toList.all Char.isDigit = true :=
    List.all_eq_true.mpr fun c hc => isDigit_of_mem_repr hc
  have hne : n.repr.toList.isEmpty = false := by
    rw [Nat.toList_repr]
    exact List.isEmpty_eq_false_iff.mpr Nat.toDigits_ne_nil
  have hvalue : digitsFrom 0 n.repr.toList = BitVec.ofNat 32 n := by
    show digitsFrom (BitVec.ofNat 32 0) n.repr.toList = BitVec.ofNat 32 n
    rw [digitsFrom_ofNat, Nat.toList_repr, Nat.ofDigitChars_toDigits (by decide) (by decide)]
  rw [digits?, hall, hne, hvalue]
  rfl

/-- **An integer is read as it was written.** -/
theorem decimal?_text (n : Fixnum) : decimal? n.text.toList = some n := by
  have hn : BitVec.ofInt 30 n.toInt = n := BitVec.ofInt_toInt
  unfold text
  rw [Int.toString_eq_repr]
  cases h : n.toInt with
  | ofNat m =>
    have hm : ofNat m = n := by
      rw [h] at hn
      exact hn
    show decimal? m.repr.toList = some n
    have hdigits : (digits? m.repr.toList).map ofWord = some n := by
      rw [digits?_repr, Option.map_some, ofWord_ofNat, hm]
    unfold decimal? signed?
    split
    · rename_i cs hcs
      have hminus : '-' ∈ m.repr.toList := hcs ▸ List.mem_cons_self
      exact absurd (isDigit_of_mem_repr hminus) (by decide)
    · rename_i cs hcs
      have hplus : '+' ∈ m.repr.toList := hcs ▸ List.mem_cons_self
      exact absurd (isDigit_of_mem_repr hplus) (by decide)
    · exact hdigits
  | negSucc m =>
    have hm : - ofNat (m + 1) = n := by
      rw [h, Int.negSucc_eq, BitVec.ofInt_neg] at hn
      exact hn
    show decimal? ("-" ++ (m + 1).repr).toList = some n
    rw [String.toList_append]
    show ((digits? (m + 1).repr.toList).map (- ·)).map ofWord = some n
    rw [digits?_repr, Option.map_some, Option.map_some, ofWord_neg, ofWord_ofNat, hm]

/-- No digit ends an atom. -/
theorem endsAtom_of_isDigit {c : Char} (hc : c.isDigit = true) : endsAtom c = false := by
  simp only [Char.isDigit, Bool.and_eq_true, decide_eq_true_eq] at hc
  cases hend : endsAtom c with
  | false => rfl
  | true =>
    simp only [endsAtom, isBlank, Bool.or_eq_true, decide_eq_true_eq] at hend
    rcases hend with (((((((((rfl | rfl) | rfl) | rfl) | rfl) | rfl) | rfl) | rfl) | rfl) | rfl) <;>
      exact absurd hc (by decide)

/-- An integer is written without characters that end an atom. -/
theorem text_atom (n : Fixnum) : n.text.toList ≠ [] ∧ ∀ c ∈ n.text.toList, endsAtom c = false := by
  unfold text
  rw [Int.toString_eq_repr]
  cases n.toInt with
  | ofNat m =>
    show m.repr.toList ≠ [] ∧ ∀ c ∈ m.repr.toList, endsAtom c = false
    refine ⟨?_, fun c hc => endsAtom_of_isDigit (isDigit_of_mem_repr hc)⟩
    rw [Nat.toList_repr]
    exact Nat.toDigits_ne_nil
  | negSucc m =>
    show ("-" ++ (m + 1).repr).toList ≠ [] ∧ ∀ c ∈ ("-" ++ (m + 1).repr).toList, endsAtom c = false
    rw [String.toList_append]
    refine ⟨by simp, fun c hc => ?_⟩
    rcases List.mem_append.mp hc with hc | hc
    · have hminus : c = '-' := by simpa using hc
      subst hminus
      decide
    · exact endsAtom_of_isDigit (isDigit_of_mem_repr hc)

end Fixnum

/-! ## 3. Tokens of written forms -/

/-- A text at which an atom ends. -/
def Bounded (cs : List Char) : Prop := ∀ c ∈ cs.head?, endsAtom c = true

theorem bounded_nil : Bounded [] := by
  intro c hc
  cases hc

/-- A token starts with a character that is no blank and starts no comment. -/
theorem start_of_skipBlankFrom {inComment : Bool} {src cs : List Char} {c : Char}
    (h : skipBlankFrom inComment src = c :: cs) : isBlank c = false ∧ c ≠ ';' := by
  induction src generalizing inComment with
  | nil => cases h
  | cons x src ih =>
    unfold skipBlankFrom at h
    by_cases hcomment : inComment = true
    · rw [if_pos hcomment] at h
      exact ih h
    · rw [if_neg hcomment] at h
      by_cases hblank : isBlank x = true
      · rw [if_pos hblank] at h
        exact ih h
      · rw [if_neg hblank] at h
        by_cases hsemi : x = ';'
        · rw [if_pos hsemi] at h
          exact ih h
        · rw [if_neg hsemi] at h
          cases h
          exact ⟨Bool.eq_false_iff.mpr hblank, hsemi⟩

namespace Token

theorem next?_blank (cs : List Char) : next? (' ' :: cs) = next? cs := rfl

theorem next?_opening (cs : List Char) : next? ('(' :: cs) = some (.opening, cs) := rfl

theorem next?_closing (cs : List Char) : next? (')' :: cs) = some (.closing, cs) := rfl

/-- **An atom** ends where a text begins at which it has to. -/
theorem next?_name {name rest : List Char} (hne : name ≠ [])
    (hname : ∀ c ∈ name, endsAtom c = false) (hrest : Bounded rest) :
    next? (name ++ rest) = some (.atom name, rest) := by
  cases name with
  | nil => exact absurd rfl hne
  | cons c cs =>
    have hc : endsAtom c = false := hname c List.mem_cons_self
    simp only [endsAtom, Bool.or_eq_false_iff, decide_eq_false_iff_not] at hc
    obtain ⟨⟨⟨⟨⟨hblank, hopen⟩, hclose⟩, hquote⟩, hsemi⟩, hmark⟩ := hc
    have hskip : skipBlank (c :: cs ++ rest) = c :: (cs ++ rest) := by
      simp [skipBlank, skipBlankFrom, hblank, hsemi]
    have hall : ∀ x ∈ cs, (!endsAtom x) = true := fun x hx => by
      rw [hname x (List.mem_cons_of_mem c hx)]
      rfl
    have hstop : rest.takeWhile (!endsAtom ·) = [] ∧ rest.dropWhile (!endsAtom ·) = rest := by
      cases rest with
      | nil => exact ⟨rfl, rfl⟩
      | cons r rest =>
        have hr : endsAtom r = true := hrest r rfl
        simp [hr]
    have hstart : startingWith c (cs ++ rest) = (.atom (c :: cs), rest) := by
      simp only [startingWith, hopen, hclose, hmark, hquote, if_false]
      rw [List.takeWhile_append_of_pos hall, List.dropWhile_append_of_pos hall, hstop.1, hstop.2,
        List.append_nil]
    rw [next?, hskip]
    exact congrArg some hstart

/-- The characters of a string are read as they were escaped. -/
theorem textOnto_escape (acc cs rest : List Char) :
    textOnto acc (cs.flatMap Printer.escapeChar ++ '"' :: rest) = some (acc.reverse ++ cs, rest) := by
  induction cs generalizing acc with
  | nil => simp [textOnto]
  | cons c cs ih =>
    have hcons : textOnto acc (Printer.escapeChar c ++ (cs.flatMap Printer.escapeChar ++ '"' :: rest)) =
        textOnto (c :: acc) (cs.flatMap Printer.escapeChar ++ '"' :: rest) := by
      generalize cs.flatMap Printer.escapeChar ++ '"' :: rest = more
      unfold Printer.escapeChar
      split
      · rw [List.cons_append, List.cons_append, List.nil_append, textOnto]
        rfl
      · rw [List.cons_append, List.cons_append, List.nil_append, textOnto]
        rfl
      · rw [List.cons_append, List.cons_append, List.nil_append, textOnto]
        rfl
      · rw [List.cons_append, List.cons_append, List.nil_append, textOnto]
        rfl
      · rename_i hquote hback _ _
        rw [List.singleton_append]
        rw [textOnto.eq_def]
        split
        · rename_i heq
          cases heq
        · rename_i heq
          cases heq
          exact absurd rfl hquote
        · rename_i heq
          cases heq
          exact absurd rfl hback
        · rename_i heq
          cases heq
          exact if_neg hback
    rw [List.flatMap_cons, List.append_assoc, hcons, ih, List.reverse_cons, List.append_assoc,
      List.singleton_append]

/-- **A string** is read as it was written. -/
theorem next?_quoted (s : String) (rest : List Char) :
    next? ((Printer.quoted s).toList ++ rest) = some (.text s.toList, rest) := by
  have hchars : (Printer.quoted s).toList ++ rest =
      '"' :: (s.toList.flatMap Printer.escapeChar ++ '"' :: rest) := by
    simp [Printer.quoted, String.toList_append]
  rw [hchars]
  show some (startingWith '"' (s.toList.flatMap Printer.escapeChar ++ '"' :: rest)) = _
  unfold startingWith
  rw [textOnto_escape]
  rfl

/-- An atom is not empty, and none of its characters ends one. -/
theorem name_of_next? {src name rest : List Char} (h : next? src = some (.atom name, rest)) :
    name ≠ [] ∧ ∀ c ∈ name, endsAtom c = false := by
  unfold next? at h
  split at h
  · cases h
  · rename_i c cs hskip
    obtain ⟨hblank, hsemi⟩ := start_of_skipBlankFrom hskip
    have hstart : startingWith c cs = (.atom name, rest) := Option.some.inj h
    unfold startingWith at hstart
    by_cases hopen : c = '('
    · rw [if_pos hopen] at hstart
      cases hstart
    by_cases hclose : c = ')'
    · rw [if_neg hopen, if_pos hclose] at hstart
      cases hstart
    by_cases hmark : c = '\x27'
    · rw [if_neg hopen, if_neg hclose, if_pos hmark] at hstart
      cases hstart
    by_cases hquote : c = '"'
    · rw [if_neg hopen, if_neg hclose, if_neg hmark, if_pos hquote] at hstart
      split at hstart <;> cases hstart
    rw [if_neg hopen, if_neg hclose, if_neg hmark, if_neg hquote] at hstart
    cases hstart
    refine ⟨List.cons_ne_nil _ _, fun x hx => ?_⟩
    rcases List.mem_cons.mp hx with rfl | hx
    · simp [endsAtom, hblank, hopen, hclose, hmark, hquote, hsemi]
    · have hall := List.mem_takeWhile_imp hx
      rwa [Bool.not_eq_true'] at hall

end Token

end LispMachine
