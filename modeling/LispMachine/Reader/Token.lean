/-!
# Tokens

Source text is a sequence of tokens with blanks and comments between them:

* `isBlank`, `endsAtom` -- white space, and the characters that an atom stops at;
* `skipBlank` -- the text from the next token on. A comment runs from a semicolon to the end of
  its line;
* `Token.next?` -- the next token and the text after it, which is shorter
  (`Token.length_lt_of_next?`).

Strings and atoms are text here; what an atom means is up to the reader.
-/

namespace LispMachine

/-- White space: space, tab, newline, form feed and carriage return. -/
def isBlank (c : Char) : Bool :=
  c = ' ' || c = '\t' || c = '\n' || c = '\x0c' || c = '\r'

/-- A character that no atom contains. -/
def endsAtom (c : Char) : Bool :=
  isBlank c || c = '(' || c = ')' || c = '"' || c = ';' || c = '\x27'

/-- The piece of source text that is read as one. -/
inductive Token where
  /-- An opening parenthesis. -/
  | opening
  /-- A closing parenthesis. -/
  | closing
  /-- The quote mark. -/
  | mark
  /-- A string, without its quotes and escapes. -/
  | text (s : List Char)
  /-- A string that the end of the source cuts off. -/
  | unclosedText
  /-- Anything else up to a character that ends it. -/
  | atom (name : List Char)
  deriving DecidableEq, Repr

/-! ## 1. Blanks -/

/-- Skips the rest of a comment, if in one, then blanks and further comments. -/
def skipBlankFrom (inComment : Bool) : List Char → List Char
  | [] => []
  | c :: cs =>
    if inComment then skipBlankFrom (c != '\n') cs
    else if isBlank c then skipBlankFrom false cs
    else if c = ';' then skipBlankFrom true cs
    else c :: cs

/-- The text from the next token on. -/
def skipBlank (cs : List Char) : List Char := skipBlankFrom false cs

theorem length_skipBlankFrom_le (inComment : Bool) (cs : List Char) :
    (skipBlankFrom inComment cs).length ≤ cs.length := by
  induction cs generalizing inComment with
  | nil => simp [skipBlankFrom]
  | cons c cs ih =>
    unfold skipBlankFrom
    split
    · exact Nat.le_trans (ih _) (Nat.le_succ _)
    · split
      · exact Nat.le_trans (ih _) (Nat.le_succ _)
      · split
        · exact Nat.le_trans (ih _) (Nat.le_succ _)
        · exact Nat.le_refl _

/-! ## 2. Strings -/

/-- What an escaped character stands for. -/
def unescape : Char → Char
  | 'n' => '\n'
  | 't' => '\t'
  | c => c

/-- The rest of a string, after the characters `acc` in reverse, and the text after it; none if
    the string is not closed. -/
def textOnto (acc : List Char) : List Char → Option (List Char × List Char)
  | [] => none
  | '"' :: cs => some (acc.reverse, cs)
  | '\\' :: c :: cs => textOnto (unescape c :: acc) cs
  | c :: cs => if c = '\\' then none else textOnto (c :: acc) cs

theorem length_le_of_textOnto {acc cs s rest : List Char}
    (h : textOnto acc cs = some (s, rest)) : rest.length < cs.length := by
  fun_induction textOnto acc cs with
  | case1 => simp at h
  | case2 acc cs =>
    obtain ⟨_, rfl⟩ := Prod.mk.injEq .. ▸ Option.some.inj h
    simp
  | case3 acc c cs ih => exact Nat.lt_trans (ih h) (by simp only [List.length_cons]; omega)
  | case4 => simp at h
  | case5 acc c cs _ _ _ ih => exact Nat.lt_trans (ih h) (by simp)

/-! ## 3. The next token -/

namespace Token

/-- The token that starts with `c`, which is no blank, and the text after it. -/
def startingWith (c : Char) (cs : List Char) : Token × List Char :=
  if c = '(' then (.opening, cs)
  else if c = ')' then (.closing, cs)
  else if c = '\x27' then (.mark, cs)
  else if c = '"' then
    match textOnto [] cs with
    | some (s, rest) => (.text s, rest)
    | none => (.unclosedText, [])
  else (.atom (c :: cs.takeWhile (!endsAtom ·)), cs.dropWhile (!endsAtom ·))

/-- The next token and the text after it; none at the end. -/
def next? (src : List Char) : Option (Token × List Char) :=
  match skipBlank src with
  | [] => none
  | c :: cs => some (startingWith c cs)

theorem length_startingWith_le (c : Char) (cs : List Char) :
    (startingWith c cs).2.length ≤ cs.length := by
  unfold startingWith
  split
  · exact Nat.le_refl _
  · split
    · exact Nat.le_refl _
    · split
      · exact Nat.le_refl _
      · split
        · split
          · rename_i h
            exact Nat.le_of_lt (length_le_of_textOnto h)
          · exact Nat.zero_le _
        · exact (List.dropWhile_sublist _).length_le

/-- Every token is taken off the text, so what is left is shorter. -/
theorem length_lt_of_next? {src rest : List Char} {token : Token}
    (h : next? src = some (token, rest)) : rest.length < src.length := by
  unfold next? at h
  split at h
  · simp at h
  · rename_i c cs hs
    have hle := length_skipBlankFrom_le false src
    rw [skipBlank] at hs
    rw [hs] at hle
    have hrest : rest = (startingWith c cs).2 := by
      rw [Option.some.inj h]
    rw [hrest]
    exact Nat.lt_of_lt_of_le (Nat.lt_succ_of_le (length_startingWith_le c cs)) hle

end Token

end LispMachine
