import LispMachine.Listener
import LispMachine.Proofs.Datum.Denotes

/-!
# The lines of an input

The listener cuts its input into lines byte by byte, and decodes each line. Of a text that is the same as
cutting it at its newlines, since no other character has the byte of a newline in it:

* `textLines` -- the lines of a text, each with its end;
* `Ruled` -- lines that all end with a newline but the last one, as those of a text do;
* `Listener.lines_toUTF8` -- **the lines of an encoded text are the encoded lines of the text**.
-/

namespace LispMachine

variable {line cs : List Char} {bs bytes : List UInt8}

/-! ## 1. Lines of text -/

/-- Cuts a text into lines with their ends, after the characters `line` of the current one in reverse. -/
def textLinesFrom (line : List Char) : List Char → List String
  | [] => if line.isEmpty then [] else [.ofList line.reverse]
  | c :: cs =>
    if c = '\n' then .ofList (c :: line).reverse :: textLinesFrom [] cs
    else textLinesFrom (c :: line) cs

/-- The lines of a text, each with its end. -/
def textLines (text : String) : List String := textLinesFrom [] text.toList

/-- All the characters of some lines. -/
def charsOf (lines : List String) : List Char := lines.flatMap String.toList

theorem charsOf_cons (line : String) (lines : List String) :
    charsOf (line :: lines) = line.toList ++ charsOf lines := List.flatMap_cons

/-- No character is lost. -/
theorem charsOf_textLinesFrom (line cs : List Char) :
    charsOf (textLinesFrom line cs) = line.reverse ++ cs := by
  induction cs generalizing line with
  | nil =>
    rw [textLinesFrom]
    cases line with
    | nil => rfl
    | cons c line => simp [charsOf]
  | cons c cs ih =>
    rw [textLinesFrom]
    split
    · rename_i hc
      subst hc
      have hlater := ih []
      simp only [charsOf, List.flatMap_cons, String.toList_ofList] at hlater ⊢
      rw [hlater]
      simp
    · rw [ih]
      simp

theorem charsOf_textLines (text : String) : charsOf (textLines text) = text.toList :=
  charsOf_textLinesFrom [] text.toList

/-- Lines that all end with a newline but the last one. -/
inductive Ruled : List String → Prop where
  | nil : Ruled []
  | last (line : String) : Ruled [line]
  | more {line : String} {lines : List String} (hend : line.toList.getLast? = some '\n')
      (h : Ruled lines) : Ruled (line :: lines)

/-- A line ends with a newline if there are more lines. -/
theorem Ruled.of_cons {line : String} {lines : List String} (h : Ruled (line :: lines)) :
    (lines = [] ∨ line.toList.getLast? = some '\n') ∧ Ruled lines := by
  cases h with
  | last => exact ⟨.inl rfl, .nil⟩
  | more hend h => exact ⟨.inr hend, h⟩

theorem ruled_textLinesFrom (line cs : List Char) : Ruled (textLinesFrom line cs) := by
  induction cs generalizing line with
  | nil =>
    rw [textLinesFrom]
    split
    · exact .nil
    · exact .last _
  | cons c cs ih =>
    rw [textLinesFrom]
    split
    · rename_i hc
      subst hc
      exact .more (by simp) (ih [])
    · exact ih _

/-! ## 2. Lines of bytes -/

namespace Listener

/-- The bytes of a text. -/
def encoded (text : String) : List UInt8 := text.toUTF8.data.toList

theorem encoded_ofList (cs : List Char) :
    encoded (.ofList cs) = cs.flatMap String.utf8EncodeChar := by
  show (String.ofList cs).toByteArray.data.toList = _
  rw [String.toByteArray_ofList, List.utf8Encode, List.toList_data_toByteArray]

theorem encoded_eq (text : String) : encoded text = text.toList.flatMap String.utf8EncodeChar := by
  rw [← encoded_ofList, String.ofList_toList]

/-- The bytes of an array, gone through from an index on. -/
theorem toList_loop_eq (bytes : ByteArray) (i : Nat) (acc : List UInt8) :
    ByteArray.toList.loop bytes i acc = acc.reverse ++ bytes.data.toList.drop i := by
  fun_induction ByteArray.toList.loop bytes i acc with
  | case1 i acc hi ih =>
    have hlt : i < bytes.data.toList.length := hi
    have hget : bytes.get! i = bytes.data.toList[i] := getElem!_pos bytes.data i hi
    rw [ih, List.drop_eq_getElem_cons hlt, hget, List.reverse_cons, List.append_assoc,
      List.singleton_append]
  | case2 i acc hi =>
    rw [List.drop_eq_nil_of_le (Nat.le_of_not_lt hi), List.append_nil]

theorem toList_eq_data_toList (bytes : ByteArray) : bytes.toList = bytes.data.toList :=
  toList_loop_eq bytes 0 []

/-- An encoded text is decoded. -/
theorem fromUTF8?_encoded (text : String) : String.fromUTF8? ⟨(encoded text).toArray⟩ = some text :=
  Text.fromUTF8?_toUTF8 text

/-- Only a newline has its byte. -/
theorem eq_newline_of_mem {c : Char} (h : (10 : UInt8) ∈ String.utf8EncodeChar c) : c = '\n' := by
  -- every byte of a longer encoding is at least 128
  have hne : ∀ n : Nat, 128 ≤ n → n < 256 → ¬ (10 : UInt8) = UInt8.ofNat n := fun n hn hlt e => by
    have heq : (10 : Nat) = n := (congrArg UInt8.toNat e).trans (UInt8.toNat_ofNat_of_lt' hlt)
    omega
  unfold String.utf8EncodeChar at h
  dsimp only at h
  generalize hn : c.val.toNat = n at h
  split at h
  · rename_i hle
    have hlt : n < UInt8.size := Nat.lt_of_le_of_lt hle (by decide)
    have heq : 10 = n :=
      (congrArg UInt8.toNat (List.mem_singleton.mp h)).trans (UInt8.toNat_ofNat_of_lt' hlt)
    exact Char.ext (UInt32.toNat_inj.mp (hn.trans heq.symm))
  · split at h
    · simp only [List.mem_cons, List.not_mem_nil, or_false] at h
      rcases h with h | h <;> exact absurd h (hne _ (by omega) (by omega))
    · split at h
      · simp only [List.mem_cons, List.not_mem_nil, or_false] at h
        rcases h with h | h | h <;> exact absurd h (hne _ (by omega) (by omega))
      · simp only [List.mem_cons, List.not_mem_nil, or_false] at h
        rcases h with h | h | h | h <;> exact absurd h (hne _ (by omega) (by omega))

/-- Other bytes belong to the line. -/
theorem linesFrom_append (h : (10 : UInt8) ∉ bytes) (acc bs : List UInt8) :
    linesFrom acc (bytes ++ bs) = linesFrom (bytes.reverse ++ acc) bs := by
  induction bytes generalizing acc with
  | nil => rfl
  | cons b bytes ih =>
    rw [List.mem_cons, not_or] at h
    rw [List.cons_append, linesFrom, if_neg (Ne.symm h.1), ih h.2]
    simp

theorem linesFrom_flatMap (line cs : List Char) :
    linesFrom (line.reverse.flatMap String.utf8EncodeChar).reverse
        (cs.flatMap String.utf8EncodeChar) = (textLinesFrom line cs).map encoded := by
  induction cs generalizing line with
  | nil =>
    rw [textLinesFrom, List.flatMap_nil, linesFrom]
    cases line with
    | nil => rfl
    | cons c line => simp [encoded_eq]
  | cons c cs ih =>
    rw [textLinesFrom, List.flatMap_cons]
    split
    · rename_i hc
      subst hc
      have hbytes : String.utf8EncodeChar '\n' = [10] := rfl
      rw [hbytes, List.cons_append, List.nil_append, linesFrom, if_pos rfl, List.map_cons, ← ih []]
      simp [encoded_eq, hbytes]
    · rename_i hc
      rw [linesFrom_append fun hmem => hc (eq_newline_of_mem hmem), ← ih]
      simp

/-- **The lines of an encoded text are the encoded lines of the text.** -/
theorem lines_toUTF8 (text : String) : lines text.toUTF8 = (textLines text).map encoded := by
  rw [lines, toList_eq_data_toList, textLines, ← linesFrom_flatMap, ← encoded_eq]
  rfl

end Listener

end LispMachine
