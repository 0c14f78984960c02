import LispMachine.Fixnum
import Mathlib.Data.Int.ModEq

/-!
# Words and integers

An integer is computed with in a word that is two bits wider, and what comes out is cut to its width
again:

* `Fixnum.toWord_eq` -- the word of an integer stands for it;
* `Fixnum.ofWord_ofInt` -- a word that stands for a mathematical integer, however it has wrapped, is cut
  to the representative of that integer;
* `Fixnum.ofInt_modEq` -- which is the same modulo `2 ^ 30`.
-/

namespace LispMachine.Fixnum

/-- A word stands for the integer that it is. -/
theorem toWord_eq (n : Fixnum) : n.toWord = BitVec.ofInt 32 n.toInt := rfl

theorem toInt_toWord (n : Fixnum) : n.toWord.toInt = n.toInt := BitVec.toInt_signExtend_of_le (by decide)

/-- **A word is cut to the representative of what it stands for.** -/
theorem ofWord_ofInt (k : Int) : ofWord (BitVec.ofInt 32 k) = ofInt k := by
  apply BitVec.eq_of_toInt_eq
  rw [ofWord, ofInt, BitVec.toInt_setWidth, BitVec.toInt_ofInt, BitVec.toNat_ofInt,
    Int.toNat_of_nonneg (Int.emod_nonneg k (by decide))]
  -- the smaller modulus divides the larger one
  have hmod : k % (2 ^ 32 : Nat) % (2 ^ 30 : Nat) = k % (2 ^ 30 : Nat) :=
    Int.emod_emod_of_dvd k (by decide)
  rw [← Int.emod_bmod, hmod, Int.emod_bmod]

/-- **A representative is the same modulo `2 ^ 30`.** -/
theorem ofInt_modEq (k : Int) : (ofInt k).toInt ≡ k [ZMOD 2 ^ 30] := by
  rw [ofInt, BitVec.toInt_ofInt]
  exact Int.bmod_emod

theorem ofWord_eq (w : Word) : ofWord w = ofInt w.toInt := by
  conv_lhs => rw [← BitVec.ofInt_toInt (x := w)]
  exact ofWord_ofInt w.toInt

theorem ofWord_toWord (n : Fixnum) : ofWord n.toWord = n := by
  rw [toWord_eq, ofWord_ofInt]
  exact BitVec.ofInt_toInt

theorem ofWord_ofNat (n : Nat) : ofWord (BitVec.ofNat 32 n) = ofNat n :=
  BitVec.setWidth_ofNat_of_le (by decide) n

theorem ofWord_neg (w : Word) : ofWord (-w) = -ofWord w := BitVec.setWidth_neg_of_le (by decide)

end LispMachine.Fixnum
