/-!
# Bytes as text

Strings of the machine are bytes. Valid UTF-8 reads as the text it encodes; in any other byte
sequence each maximal part that cannot be continued to a character reads as U+FFFD:

* `Text.firstChar` -- the character, or the replacement, at the head of a nonempty sequence, and
  the bytes after it;
* `Text.lossyChars` -- the whole sequence;
* `Text.ofBytes` -- the text of a byte array, exact for valid UTF-8.
-/

namespace LispMachine.Text

/-! ## 1. One character -/

/-- Stands for bytes that are no character. -/
def replacement : Char := '\uFFFD'

/-- A byte between `lo` and `hi`. -/
def inRange (lo hi : UInt8) (b : UInt8) : Bool := lo ≤ b && b ≤ hi

/-- A byte that may continue a character. -/
def isContinuation (b : UInt8) : Bool := inRange 0x80 0xBF b

/-- What a first byte announces: how many bytes follow it, which first of them are allowed, and
    the bits that it contributes. -/
structure Lead where
  more : Nat
  lo : UInt8
  hi : UInt8
  bits : Nat

/-- The first bytes of characters of two to four bytes; overlong forms, surrogates and code
    points past the last one are cut off by the range of the second byte. -/
def lead? (b : UInt8) : Option Lead :=
  if inRange 0xC2 0xDF b then some ⟨1, 0x80, 0xBF, b.toNat - 0xC0⟩
  else if b = 0xE0 then some ⟨2, 0xA0, 0xBF, 0⟩
  else if b = 0xED then some ⟨2, 0x80, 0x9F, 0xD⟩
  else if inRange 0xE1 0xEF b then some ⟨2, 0x80, 0xBF, b.toNat - 0xE0⟩
  else if b = 0xF0 then some ⟨3, 0x90, 0xBF, 0⟩
  else if inRange 0xF1 0xF3 b then some ⟨3, 0x80, 0xBF, b.toNat - 0xF0⟩
  else if b = 0xF4 then some ⟨3, 0x80, 0x8F, 4⟩
  else none

/-- Takes `n` continuation bytes onto the bits `acc`; without them all, the replacement. -/
def continuation (acc : Nat) : Nat → List UInt8 → Char × List UInt8
  | 0, bs => (Char.ofNat acc, bs)
  | _ + 1, [] => (replacement, [])
  | n + 1, b :: bs =>
    if isContinuation b then continuation (acc * 64 + (b.toNat - 0x80)) n bs
    else (replacement, b :: bs)

/-- The character that starts with byte `b`, and the bytes after it. -/
def firstChar (b : UInt8) (bs : List UInt8) : Char × List UInt8 :=
  if b < 0x80 then (Char.ofNat b.toNat, bs)
  else
    match lead? b, bs with
    | some l, c :: cs =>
      if inRange l.lo l.hi c then continuation (l.bits * 64 + (c.toNat - 0x80)) (l.more - 1) cs
      else (replacement, bs)
    | _, _ => (replacement, bs)

theorem length_continuation_le (acc n : Nat) (bs : List UInt8) :
    (continuation acc n bs).2.length ≤ bs.length := by
  induction n generalizing acc bs with
  | zero => simp [continuation]
  | succ n ih =>
    cases bs with
    | nil => simp [continuation]
    | cons b bs =>
      unfold continuation
      split
      · exact Nat.le_trans (ih _ _) (Nat.le_succ _)
      · exact Nat.le_refl _

/-- Reading a character never gives bytes back. -/
theorem length_firstChar_le (b : UInt8) (bs : List UInt8) :
    (firstChar b bs).2.length ≤ bs.length := by
  unfold firstChar
  split
  · exact Nat.le_refl _
  · split
    · split
      · exact Nat.le_trans (length_continuation_le _ _ _) (Nat.le_succ _)
      · exact Nat.le_refl _
    · exact Nat.le_refl _

/-! ## 2. Texts -/

/-- The text of any bytes, in front of `acc` reversed. -/
def lossyCharsOnto (acc : List Char) : List UInt8 → List Char
  | [] => acc.reverse
  | b :: bs => lossyCharsOnto ((firstChar b bs).1 :: acc) (firstChar b bs).2
termination_by bs => bs.length
decreasing_by exact Nat.lt_succ_of_le (length_firstChar_le b bs)

/-- The text of any bytes. -/
def lossyChars (bs : List UInt8) : List Char := lossyCharsOnto [] bs

/-- The text of a byte array: the one it encodes, if it is valid. -/
def ofBytes (bytes : ByteArray) : String :=
  match String.fromUTF8? bytes with
  | some s => s
  | none => String.ofList (lossyChars bytes.toList)

end LispMachine.Text
