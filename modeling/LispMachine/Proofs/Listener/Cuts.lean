import LispMachine.Proofs.Datum.Basic
import LispMachine.Reader.Complete

/-!
# Where a text may be cut

The listener cuts its input at the ends of lines, where `isComplete` finds nothing open. The tokens of
the text up to there are the same whatever follows:

* `tokens` -- all tokens of a text, and `Token.listsAfter`, the number of open lists after one;
* `Lined` -- a text that ends with a line, if it is not empty;
* `Token.next?_append`, `Token.next?_blank_append` -- **the next token of such a text is the next token
  of any longer one**, unless it is a string that is not closed;
* `Scan.foldl_of_next?` -- the scan of `isComplete`, **token by token**;
* `Cut` -- a text that may be cut off from what follows. It does not end in a quote mark, which would
  wait for its value, though nothing is open. Tokens and scan begin anew behind it
  (`Cut.tokens_append`, `Cut.isComplete_append`).
-/

namespace LispMachine

/-- All tokens of a text. -/
def tokens (src : List Char) : List Token :=
  match _h : Token.next? src with
  | none => []
  | some (token, rest) => token :: tokens rest
termination_by src.length
decreasing_by exact Token.length_lt_of_next? _h

variable {src cs rest after : List Char} {c : Char} {token : Token} {n : Nat}

theorem tokens_none (h : Token.next? src = none) : tokens src = [] := by
  rw [tokens]
  split
  · rfl
  · rename_i hsome
    rw [h] at hsome
    cases hsome

theorem tokens_some (h : Token.next? src = some (token, rest)) : tokens src = token :: tokens rest := by
  rw [tokens]
  split
  · rename_i hnone
    rw [h] at hnone
    cases hnone
  · rename_i hsome
    rw [h] at hsome
    cases hsome
    rfl

/-! ## 1. Lines -/

/-- A text that is empty or ends with a line. -/
def Lined (src : List Char) : Prop := ∀ c ∈ src.getLast?, c = '\n'

theorem Lined.suffix (h : Lined src) (hs : rest <:+ src) : Lined rest := by
  obtain ⟨before, rfl⟩ := hs
  intro c hc
  refine h c ?_
  rw [List.getLast?_append, Option.mem_def.mp hc]
  rfl

theorem Lined.tail (h : Lined (c :: cs)) : Lined cs := h.suffix (List.suffix_cons c cs)

/-- After any other character there is at least the end of the line. -/
theorem Lined.newline_mem (h : Lined (c :: cs)) (hc : c ≠ '\n') : '\n' ∈ cs := by
  have hne : cs ≠ [] := by
    rintro rfl
    exact hc (h c rfl)
  rw [← h.tail _ (List.getLast?_eq_some_getLast hne)]
  exact List.getLast_mem hne

/-! ## 2. The next token -/

theorem skipBlankFrom_suffix (inComment : Bool) (src : List Char) :
    skipBlankFrom inComment src <:+ src := by
  induction src generalizing inComment with
  | nil => exact List.suffix_refl []
  | cons c cs ih =>
    unfold skipBlankFrom
    split_ifs with hcomment hblank hsemi
    · exact (ih _).trans (List.suffix_cons c cs)
    · exact (ih _).trans (List.suffix_cons c cs)
    · exact (ih _).trans (List.suffix_cons c cs)
    · exact List.suffix_refl _

theorem skipBlank_suffix (src : List Char) : skipBlank src <:+ src := skipBlankFrom_suffix false src

theorem skipBlankFrom_append {inComment : Bool} (h : skipBlankFrom inComment src = c :: cs) :
    skipBlankFrom inComment (src ++ after) = c :: (cs ++ after) := by
  induction src generalizing inComment with
  | nil => cases h
  | cons x src ih =>
    rw [List.cons_append]
    unfold skipBlankFrom at h ⊢
    split_ifs at h ⊢ with hcomment hblank hsemi
    · exact ih h
    · exact ih h
    · exact ih h
    · cases h
      rfl

/-- Blanks and comments up to the end of a line are skipped as a whole. -/
theorem skipBlankFrom_blank_append {inComment : Bool} (hl : Lined src)
    (hopen : src = [] → inComment = false) (h : skipBlankFrom inComment src = []) :
    skipBlankFrom inComment (src ++ after) = skipBlank after := by
  induction src generalizing inComment with
  | nil => rw [hopen rfl, List.nil_append, skipBlank]
  | cons x src ih =>
    have hline : src = [] → x = '\n' := fun e => by
      subst e
      exact hl x rfl
    rw [List.cons_append]
    unfold skipBlankFrom at h ⊢
    split_ifs at h ⊢ with hcomment hblank hsemi
    · refine ih hl.tail (fun e => ?_) h
      rw [hline e]
      rfl
    · exact ih hl.tail (fun _ => rfl) h
    · refine ih hl.tail (fun e => ?_) h
      rw [hline e] at hblank
      exact absurd rfl hblank

theorem textOnto_cons {acc : List Char} (hquote : c ≠ '"') (hback : c ≠ '\\') :
    textOnto acc (c :: cs) = textOnto (c :: acc) cs := by
  rw [textOnto.eq_def]
  split <;> simp_all

theorem textOnto_suffix {acc s : List Char} (h : textOnto acc cs = some (s, rest)) : rest <:+ cs := by
  fun_induction textOnto acc cs with
  | case1 => cases h
  | case2 acc cs =>
    cases h
    exact List.suffix_cons _ _
  | case3 acc c cs ih => exact (ih h).trans ⟨['\\', c], rfl⟩
  | case4 => cases h
  | case5 acc c cs _ _ _ ih => exact (ih h).trans (List.suffix_cons _ _)

theorem textOnto_append {acc s : List Char} (h : textOnto acc cs = some (s, rest)) :
    textOnto acc (cs ++ after) = some (s, rest ++ after) := by
  fun_induction textOnto acc cs with
  | case1 => cases h
  | case2 acc cs =>
    cases h
    rfl
  | case3 acc c cs ih => exact ih h
  | case4 => cases h
  | case5 acc c cs hquote _ hback ih =>
    rw [List.cons_append, textOnto_cons hquote hback]
    exact ih h

namespace Token

/-- An atom is not longer if it has ended. -/
theorem name_append (hend : '\n' ∈ cs) :
    (cs ++ after).takeWhile (!endsAtom ·) = cs.takeWhile (!endsAtom ·) ∧
      (cs ++ after).dropWhile (!endsAtom ·) = cs.dropWhile (!endsAtom ·) ++ after := by
  have hdrop : cs.dropWhile (!endsAtom ·) ≠ [] := fun h => by
    have hall := List.dropWhile_eq_nil_iff.mp h '\n' hend
    cases hall
  have htake : (cs.takeWhile (!endsAtom ·)).length ≠ cs.length := fun h => by
    have hsum := congrArg List.length (List.takeWhile_append_dropWhile (p := (!endsAtom ·)) (l := cs))
    rw [List.length_append] at hsum
    exact hdrop (List.eq_nil_of_length_eq_zero (by omega))
  rw [List.takeWhile_append, if_neg htake, List.dropWhile_append, if_neg (by simpa using hdrop)]
  exact ⟨rfl, rfl⟩

theorem startingWith_append (hend : '\n' ∈ cs) (h : startingWith c cs = (token, rest))
    (htoken : token ≠ .unclosedText) : startingWith c (cs ++ after) = (token, rest ++ after) := by
  unfold startingWith at h ⊢
  split_ifs at h ⊢ with hopen hclose hmark hquote
  · cases h
    rfl
  · cases h
    rfl
  · cases h
    rfl
  · cases htext : textOnto [] cs with
    | none =>
      rw [htext] at h
      cases h
      exact absurd rfl htoken
    | some p =>
      obtain ⟨s, r⟩ := p
      rw [htext] at h
      cases h
      rw [textOnto_append htext]
  · cases h
    rw [(name_append hend).1, (name_append hend).2]

/-- **The next token does not depend on what follows the line.** -/
theorem next?_append (hl : Lined src) (h : next? src = some (token, rest))
    (htoken : token ≠ .unclosedText) : next? (src ++ after) = some (token, rest ++ after) := by
  unfold next? at h ⊢
  cases hskip : skipBlank src with
  | nil =>
    rw [hskip] at h
    cases h
  | cons c cs =>
    rw [hskip] at h
    have hend : '\n' ∈ cs := by
      refine (hl.suffix (hskip ▸ skipBlank_suffix src)).newline_mem ?_
      rintro rfl
      cases (start_of_skipBlankFrom hskip).1
    rw [skipBlank, skipBlankFrom_append hskip]
    exact congrArg some (startingWith_append hend (Option.some.inj h) htoken)

theorem next?_eq_none_iff : next? src = none ↔ skipBlank src = [] := by
  unfold next?
  cases skipBlank src <;> simp

/-- Where there is no token, the next one is that of what follows. -/
theorem next?_blank_append (hl : Lined src) (h : next? src = none) :
    next? (src ++ after) = next? after := by
  have hskip : skipBlank (src ++ after) = skipBlank after :=
    skipBlankFrom_blank_append hl (fun _ => rfl) (next?_eq_none_iff.mp h)
  unfold next?
  rw [hskip]

/-! ## 3. The scan -/

/-- What a token starts with, and what it is. -/
inductive Starts (c : Char) (cs : List Char) : Token → List Char → Prop where
  | opening (hc : c = '(') : Starts c cs .opening cs
  | closing (hc : c = ')') : Starts c cs .closing cs
  | mark (hc : c = '\x27') : Starts c cs .mark cs
  | text {s rest : List Char} (hc : c = '"') (h : textOnto [] cs = some (s, rest)) :
      Starts c cs (.text s) rest
  | unclosedText (hc : c = '"') (h : textOnto [] cs = none) : Starts c cs .unclosedText []
  | atom (hc : endsAtom c = false) :
      Starts c cs (.atom (c :: cs.takeWhile (!endsAtom ·))) (cs.dropWhile (!endsAtom ·))

theorem starts_of_startingWith (hblank : isBlank c = false) (hsemi : c ≠ ';')
    (h : startingWith c cs = (token, rest)) : Starts c cs token rest := by
  unfold startingWith at h
  split_ifs at h with hopen hclose hmark hquote
  · cases h
    exact .opening hopen
  · cases h
    exact .closing hclose
  · cases h
    exact .mark hmark
  · split at h
    · cases h
      exact .text hquote ‹_›
    · cases h
      exact .unclosedText hquote ‹_›
  · cases h
    exact .atom (by simp [endsAtom, hblank, hopen, hclose, hmark, hquote, hsemi])

theorem starts_of_next? (h : next? src = some (token, rest)) :
    ∃ c cs, skipBlank src = c :: cs ∧ Starts c cs token rest := by
  unfold next? at h
  split at h
  · cases h
  · rename_i c cs hskip
    obtain ⟨hblank, hsemi⟩ := start_of_skipBlankFrom hskip
    exact ⟨c, cs, hskip, starts_of_startingWith hblank hsemi (Option.some.inj h)⟩

theorem suffix_of_next? (h : next? src = some (token, rest)) : rest <:+ src := by
  obtain ⟨c, cs, hskip, hstarts⟩ := starts_of_next? h
  refine List.IsSuffix.trans ?_ (hskip ▸ skipBlank_suffix src)
  refine List.IsSuffix.trans ?_ (List.suffix_cons c cs)
  cases hstarts with
  | opening | closing | mark => exact List.suffix_refl _
  | text _ htext => exact textOnto_suffix htext
  | unclosedText => exact List.nil_suffix
  | atom => exact List.dropWhile_suffix _

/-- The number of open lists after a token. -/
def listsAfter (lists : Nat) : Token → Nat
  | .opening => lists + 1
  | .closing => lists - 1
  | _ => lists

end Token

namespace Scan

/-- A scan between two tokens. -/
def skipping (n : Nat) (inComment : Bool) : Scan :=
  { lists := n, region := if inComment then .comment else .code }

theorem step_comment (n : Nat) (c : Char) :
    (skipping n true).step c = skipping n (c != '\n') := by
  by_cases hc : c = '\n'
  · subst hc
    rfl
  · simp only [skipping, step, if_pos, if_neg hc, bne_iff_ne.mpr hc]

/-- No comment goes on in the next line. -/
theorem region_step_newline (s : Scan) : (s.step '\n').region ≠ .comment := by
  obtain ⟨lists, region⟩ := s
  cases region <;> exact Region.noConfusion

theorem step_blank (hc : isBlank c = true) : (skipping n false).step c = skipping n false := by
  simp only [isBlank, Bool.or_eq_true, decide_eq_true_eq] at hc
  rcases hc with (((rfl | rfl) | rfl) | rfl) | rfl <;> rfl

theorem step_name (hc : endsAtom c = false) : (skipping n false).step c = skipping n false := by
  simp only [endsAtom, Bool.or_eq_false_iff, decide_eq_false_iff_not] at hc
  obtain ⟨⟨⟨⟨⟨_, hopen⟩, hclose⟩, hquote⟩, hsemi⟩, _⟩ := hc
  simp [skipping, step, hopen, hclose, hquote, hsemi]

/-- Skipping blanks and comments opens and closes nothing: up to a token, -/
theorem foldl_skipBlankFrom {inComment : Bool} (h : skipBlankFrom inComment src = c :: cs) :
    src.foldl step (skipping n inComment) = (c :: cs).foldl step (skipping n false) := by
  induction src generalizing inComment with
  | nil => cases h
  | cons x src ih =>
    unfold skipBlankFrom at h
    split_ifs at h with hcomment hblank hsemi
    · rw [hcomment, List.foldl_cons, step_comment]
      exact ih h
    · rw [Bool.eq_false_iff.mpr hcomment, List.foldl_cons, step_blank hblank]
      exact ih h
    · rw [Bool.eq_false_iff.mpr hcomment, hsemi]
      exact ih h
    · cases h
      rw [Bool.eq_false_iff.mpr hcomment]

/-- and up to the end of the text. -/
theorem foldl_skipBlankFrom_nil {inComment : Bool} (h : skipBlankFrom inComment src = []) :
    ∃ still, src.foldl step (skipping n inComment) = skipping n still := by
  induction src generalizing inComment with
  | nil => exact ⟨inComment, rfl⟩
  | cons x src ih =>
    unfold skipBlankFrom at h
    split_ifs at h with hcomment hblank hsemi
    · rw [hcomment, List.foldl_cons, step_comment]
      exact ih h
    · rw [Bool.eq_false_iff.mpr hcomment, List.foldl_cons, step_blank hblank]
      exact ih h
    · rw [Bool.eq_false_iff.mpr hcomment, hsemi]
      exact ih h

theorem foldl_name (hall : ∀ x ∈ cs, endsAtom x = false) :
    cs.foldl step (skipping n false) = skipping n false := by
  induction cs with
  | nil => rfl
  | cons x cs ih =>
    obtain ⟨hx, hcs⟩ := List.forall_mem_cons.mp hall
    rw [List.foldl_cons, step_name hx, ih hcs]

/-- A scan inside of a string. -/
def inText (n : Nat) : Scan := { lists := n, region := .text }

theorem step_text (hquote : c ≠ '"') (hback : c ≠ '\\') : (inText n).step c = inText n := by
  simp [inText, step, hquote, hback]

theorem foldl_textOnto {acc s : List Char} (h : textOnto acc cs = some (s, rest)) :
    cs.foldl step (inText n) = rest.foldl step (skipping n false) := by
  fun_induction textOnto acc cs with
  | case1 => cases h
  | case2 acc cs =>
    cases h
    rfl
  | case3 acc c cs ih => exact ih h
  | case4 => cases h
  | case5 acc c cs hquote _ hback ih =>
    rw [List.foldl_cons, step_text hquote hback]
    exact ih h

/-- A string that is not closed is open at the end. -/
theorem isClosed_foldl_textOnto {acc : List Char} (h : textOnto acc cs = none) :
    (cs.foldl step (inText n)).isClosed = false := by
  fun_induction textOnto acc cs with
  | case1 => simp [inText, isClosed]
  | case2 => cases h
  | case3 acc c cs ih => exact ih h
  | case4 acc cs _ hescape =>
    cases cs with
    | nil => simp [inText, step, isClosed]
    | cons x cs => exact absurd rfl (hescape x cs rfl)
  | case5 acc c cs hquote _ hback ih =>
    rw [List.foldl_cons, step_text hquote hback]
    exact ih h

/-- **The scan follows the tokens.** -/
theorem foldl_of_next? (h : Token.next? src = some (token, rest)) (htoken : token ≠ .unclosedText) :
    src.foldl step (skipping n false) = rest.foldl step (skipping (token.listsAfter n) false) := by
  obtain ⟨c, cs, hskip, hstarts⟩ := Token.starts_of_next? h
  rw [foldl_skipBlankFrom hskip]
  cases hstarts with
  | opening hc => rw [hc]; rfl
  | closing hc => rw [hc]; rfl
  | mark hc => rw [hc]; rfl
  | text hc htext =>
    rw [hc]
    exact foldl_textOnto htext
  | unclosedText => exact absurd rfl htoken
  | atom hc =>
    have hname : ∀ x ∈ cs.takeWhile (!endsAtom ·), endsAtom x = false := fun x hx => by
      simpa using List.mem_takeWhile_imp hx
    calc (c :: cs).foldl step (skipping n false)
      _ = cs.foldl step (skipping n false) := by rw [List.foldl_cons, step_name hc]
      _ = (cs.takeWhile (!endsAtom ·) ++ cs.dropWhile (!endsAtom ·)).foldl step
          (skipping n false) := by rw [List.takeWhile_append_dropWhile]
      _ = _ := by rw [List.foldl_append, foldl_name hname]; rfl

/-- A string that is not closed leaves the text open. -/
theorem isClosed_of_unclosedText (h : Token.next? src = some (.unclosedText, rest)) :
    (src.foldl step (skipping n false)).isClosed = false := by
  obtain ⟨c, cs, hskip, hstarts⟩ := Token.starts_of_next? h
  rw [foldl_skipBlankFrom hskip]
  cases hstarts with
  | unclosedText hc htext =>
    rw [hc]
    exact isClosed_foldl_textOnto htext

/-- Without a token nothing is open unless it has been before. -/
theorem isClosed_of_next?_none (h : Token.next? src = none) :
    (src.foldl step (skipping n false)).isClosed = decide (n = 0) := by
  obtain ⟨still, heq⟩ := foldl_skipBlankFrom_nil (n := n) (Token.next?_eq_none_iff.mp h)
  rw [heq]
  cases still <;> simp [skipping, isClosed]

end Scan

/-! ## 4. Cuts -/

/-- Whole tokens lead from a text, with `n` lists open, to what is left, with `m` of them. -/
structure Passes (n : Nat) (src : List Char) (m : Nat) (rest : List Char) : Prop where
  suffix : rest <:+ src
  suffix_tokens : tokens rest <:+ tokens src
  scan : src.foldl Scan.step (.skipping n false) = rest.foldl Scan.step (.skipping m false)

namespace Passes

variable {k m : Nat} {left : List Char}

theorem trans (h : Passes n src m rest) (h' : Passes m rest k left) : Passes n src k left :=
  ⟨h'.suffix.trans h.suffix, h'.suffix_tokens.trans h.suffix_tokens, h.scan.trans h'.scan⟩

theorem of_next? (h : Token.next? src = some (token, rest)) (htoken : token ≠ .unclosedText) :
    Passes n src (token.listsAfter n) rest where
  suffix := Token.suffix_of_next? h
  suffix_tokens := by
    rw [tokens_some h]
    exact List.suffix_cons _ _
  scan := Scan.foldl_of_next? h htoken

end Passes

/-- **A text that may be cut off** from what follows it, with some lists open before it: it ends with
    a line, with nothing open, and not in a quote mark. -/
structure Cut (n : Nat) (src : List Char) : Prop where
  lined : Lined src
  closed : (src.foldl Scan.step (.skipping n false)).isClosed = true
  unmarked : (tokens src).getLast? ≠ some .mark

namespace Cut

variable {m : Nat}

/-- What is left behind some tokens may be cut off, too. -/
theorem passes (h : Cut n src) (hpasses : Passes n src m rest) : Cut m rest where
  lined := h.lined.suffix hpasses.suffix
  closed := hpasses.scan ▸ h.closed
  unmarked hlast := by
    obtain ⟨before, hbefore⟩ := hpasses.suffix_tokens
    refine h.unmarked ?_
    rw [← hbefore, List.getLast?_append, hlast]
    rfl

theorem ne_unclosedText (h : Cut n src) (hnext : Token.next? src = some (token, rest)) :
    token ≠ .unclosedText := by
  rintro rfl
  have hopen := Scan.isClosed_of_unclosedText (n := n) hnext
  rw [h.closed] at hopen
  cases hopen

/-- Behind a quote mark there is a token. -/
theorem next?_ne_none (h : Cut n src) (hnext : Token.next? src = some (.mark, rest)) :
    Token.next? rest ≠ none := fun hnone => by
  refine h.unmarked ?_
  rw [tokens_some hnext, tokens_none hnone]
  rfl

/-- At the end no list is open. -/
theorem eq_zero (h : Cut n src) (hnone : Token.next? src = none) : n = 0 := by
  have hclosed := Scan.isClosed_of_next?_none (n := n) hnone
  rw [h.closed] at hclosed
  exact of_decide_eq_true hclosed.symm

/-- The next token is the same whatever follows. -/
theorem next?_append (h : Cut n src) (hnext : Token.next? src = some (token, rest)) :
    Token.next? (src ++ after) = some (token, rest ++ after) :=
  Token.next?_append h.lined hnext (h.ne_unclosedText hnext)

/-- Behind a cut the scan is as at the beginning: a comment has ended with its line. -/
theorem scan_eq (h : Cut n src) : src.foldl Scan.step (.skipping n false) = .skipping 0 false := by
  have hregion : (src.foldl Scan.step (.skipping n false)).region ≠ .comment := by
    rcases List.eq_nil_or_concat src with rfl | ⟨before, c, rfl⟩
    · exact Region.noConfusion
    · obtain rfl : c = '\n' := h.lined c (by simp)
      rw [List.concat_eq_append, List.foldl_append]
      exact Scan.region_step_newline _
  have hclosed := h.closed
  generalize src.foldl Scan.step (.skipping n false) = s at hregion hclosed
  obtain ⟨lists, region⟩ := s
  rw [Scan.isClosed, Bool.and_eq_true, Bool.or_eq_true, decide_eq_true_eq, decide_eq_true_eq,
    decide_eq_true_eq] at hclosed
  obtain ⟨rfl, rfl | hcomment⟩ := hclosed
  · rfl
  · exact absurd hcomment hregion

/-- What follows a cut is complete on its own, or not at all. -/
theorem isComplete_append (h : Cut 0 src) (after : List Char) :
    isComplete (src ++ after) = isComplete after := by
  show ((src ++ after).foldl Scan.step (.skipping 0 false)).isClosed = _
  rw [List.foldl_append, h.scan_eq]
  rfl

/-- The tokens on both sides of a cut are those of the whole. -/
theorem tokens_append (h : Cut n src) (after : List Char) :
    tokens (src ++ after) = tokens src ++ tokens after := by
  induction hlen : src.length using Nat.strongRecOn generalizing n src with
  | ind len ih =>
    cases hnext : Token.next? src with
    | some p =>
      obtain ⟨token, rest⟩ := p
      have hlt : rest.length < len := hlen ▸ Token.length_lt_of_next? hnext
      have hrest := h.passes (.of_next? hnext (h.ne_unclosedText hnext))
      rw [tokens_some (h.next?_append hnext), tokens_some hnext, ih _ hlt hrest rfl, List.cons_append]
    | none =>
      have hsame : Token.next? (src ++ after) = Token.next? after :=
        Token.next?_blank_append h.lined hnext
      rw [tokens_none hnext, List.nil_append]
      cases hafter : Token.next? after with
      | none => rw [tokens_none (hsame.trans hafter), tokens_none hafter]
      | some p => rw [tokens_some (hsame.trans hafter), tokens_some hafter]

end Cut

end LispMachine
