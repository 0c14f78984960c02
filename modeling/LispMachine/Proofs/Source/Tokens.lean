import LispMachine.Proofs.Listener.Cuts

/-!
# Tokens of a text that goes on

More text behind a text changes its tokens at the end only: it may lengthen the last atom, or close a
string.

* `Token.next?_bounded_append` -- **a token is the same whatever follows**, unless it is an atom that
  goes on, or a string that is not closed;
* `tokens_newline_append` -- **a newline keeps the tokens of two texts apart**;
* `Token.next?_close`, `tokens_close` -- a string that is not closed **can be closed**.
-/

namespace LispMachine

variable {src cs rest after : List Char} {c : Char} {token : Token}

/-! ## 1. Atoms that have ended -/

theorem bounded_newline (after : List Char) : Bounded ('\n' :: after) := by
  intro c hc
  cases hc
  rfl

/-- What has ended an atom ends it whatever follows. -/
theorem Bounded.append (h : Bounded rest) (hne : rest ≠ []) : Bounded (rest ++ after) := by
  cases rest with
  | nil => exact absurd rfl hne
  | cons c rest => exact h

namespace Token

theorem takeWhile_bounded (cs : List Char) (hafter : Bounded (cs.dropWhile (!endsAtom ·) ++ after)) :
    (cs ++ after).takeWhile (!endsAtom ·) = cs.takeWhile (!endsAtom ·) ∧
      (cs ++ after).dropWhile (!endsAtom ·) = cs.dropWhile (!endsAtom ·) ++ after := by
  induction cs with
  | nil =>
    cases after with
    | nil => exact ⟨rfl, rfl⟩
    | cons c after =>
      have hc : endsAtom c = true := hafter c rfl
      simp [hc]
  | cons x cs ih =>
    cases hx : endsAtom x with
    | true => simp [hx]
    | false =>
      have hdrop : (x :: cs).dropWhile (!endsAtom ·) = cs.dropWhile (!endsAtom ·) := by simp [hx]
      obtain ⟨htake, hrest⟩ := ih (hdrop ▸ hafter)
      simp only [List.cons_append, List.takeWhile_cons, List.dropWhile_cons, hx, Bool.not_false,
        if_true, htake, hrest, and_self]

/-- An atom ends where it has to, or with the text. -/
theorem bounded_of_next? {name : List Char} (h : next? src = some (.atom name, rest)) :
    Bounded rest := by
  obtain ⟨c, cs, -, hstarts⟩ := starts_of_next? h
  cases hstarts with
  | atom =>
    intro x hx
    have hstop := List.head?_dropWhile_not (p := (!endsAtom ·)) (l := cs)
    rw [Option.mem_def.mp hx] at hstop
    simpa using hstop

/-- **A token is the same whatever follows**, if what follows does not go on with an atom. -/
theorem next?_bounded_append (h : next? src = some (token, rest)) (htoken : token ≠ .unclosedText)
    (hafter : ∀ name, token = .atom name → Bounded (rest ++ after)) :
    next? (src ++ after) = some (token, rest ++ after) := by
  unfold next? at h ⊢
  cases hskip : skipBlank src with
  | nil =>
    rw [hskip] at h
    cases h
  | cons c cs =>
    rw [hskip] at h
    have hstart : startingWith c cs = (token, rest) := Option.some.inj h
    rw [skipBlank, skipBlankFrom_append hskip]
    refine congrArg some ?_
    unfold startingWith at hstart ⊢
    split_ifs at hstart ⊢ with hopen hclose hmark hquote
    · cases hstart
      rfl
    · cases hstart
      rfl
    · cases hstart
      rfl
    · cases htext : textOnto [] cs with
      | none =>
        rw [htext] at hstart
        cases hstart
        exact absurd rfl htoken
      | some p =>
        obtain ⟨s, r⟩ := p
        rw [htext] at hstart
        cases hstart
        rw [textOnto_append htext]
    · cases hstart
      obtain ⟨htake, hdrop⟩ := takeWhile_bounded cs (hafter _ rfl)
      rw [htake, hdrop]

/-- A token that has ended in front of more text is the same whatever follows. -/
theorem next?_append_of_ne_nil (h : next? src = some (token, rest)) (htoken : token ≠ .unclosedText)
    (hne : rest ≠ []) : next? (src ++ after) = some (token, rest ++ after) :=
  next?_bounded_append h htoken fun _ hname => (bounded_of_next? (hname ▸ h)).append hne

/-- A newline ends every token. -/
theorem next?_newline_append (h : next? src = some (token, rest)) (htoken : token ≠ .unclosedText) :
    next? (src ++ '\n' :: after) = some (token, rest ++ '\n' :: after) := by
  refine next?_bounded_append h htoken fun _ hname => ?_
  cases rest with
  | nil => exact bounded_newline after
  | cons c rest => exact (bounded_of_next? (hname ▸ h)).append (List.cons_ne_nil c rest)

end Token

/-! ## 2. Texts with a newline between them -/

theorem skipBlankFrom_newline_append {inComment : Bool} (h : skipBlankFrom inComment src = []) :
    skipBlankFrom inComment (src ++ '\n' :: after) = skipBlank after := by
  induction src generalizing inComment with
  | nil => cases inComment <;> rfl
  | cons x src ih =>
    rw [List.cons_append]
    unfold skipBlankFrom at h ⊢
    split_ifs at h ⊢ with hcomment hblank hsemi
    · exact ih h
    · exact ih h
    · exact ih h

/-- Behind a text without a token the next one is that of what follows the newline. -/
theorem Token.next?_newline_of_none (h : Token.next? src = none) :
    Token.next? (src ++ '\n' :: after) = Token.next? after := by
  have hskip : skipBlank (src ++ '\n' :: after) = skipBlank after :=
    skipBlankFrom_newline_append (Token.next?_eq_none_iff.mp h)
  unfold Token.next?
  rw [hskip]

theorem tokens_congr (h : Token.next? src = Token.next? after) : tokens src = tokens after := by
  cases hafter : Token.next? after with
  | none => rw [tokens_none (h.trans hafter), tokens_none hafter]
  | some p => rw [tokens_some (h.trans hafter), tokens_some hafter]

/-- **A newline keeps the tokens of two texts apart**, if all strings of the first one are closed. -/
theorem tokens_newline_append (hsrc : .unclosedText ∉ tokens src) (after : List Char) :
    tokens (src ++ '\n' :: after) = tokens src ++ tokens after := by
  induction hlen : src.length using Nat.strongRecOn generalizing src with
  | ind len ih =>
    cases hnext : Token.next? src with
    | none => rw [tokens_none hnext, List.nil_append, tokens_congr (Token.next?_newline_of_none hnext)]
    | some p =>
      obtain ⟨token, rest⟩ := p
      have hlt : rest.length < len := hlen ▸ Token.length_lt_of_next? hnext
      rw [tokens_some hnext, List.mem_cons, not_or] at hsrc
      rw [tokens_some (Token.next?_newline_append hnext (Ne.symm hsrc.1)), tokens_some hnext,
        ih _ hlt hsrc.2 rfl, List.cons_append]

/-! ## 3. Strings that are not closed -/

/-- **A string that is not closed can be closed**: by a quote, or by two of them after a backslash. -/
theorem textOnto_close {acc : List Char} (h : textOnto acc cs = none) :
    ∃ close s, ∀ after, textOnto acc (cs ++ (close ++ after)) = some (s, after) := by
  fun_induction textOnto acc cs with
  | case1 acc => exact ⟨['"'], acc.reverse, fun _ => rfl⟩
  | case2 => cases h
  | case3 acc c cs ih => exact ih h
  | case4 acc cs _ hescape =>
    cases cs with
    | nil => exact ⟨['"', '"'], _, fun _ => rfl⟩
    | cons x cs => exact absurd rfl (hescape x cs rfl)
  | case5 acc c cs hquote _ hback ih =>
    obtain ⟨close, s, hclose⟩ := ih h
    refine ⟨close, s, fun after => ?_⟩
    rw [List.cons_append, textOnto_cons hquote hback]
    exact hclose after

theorem Token.next?_close (h : Token.next? src = some (.unclosedText, rest)) :
    ∃ close s, ∀ after, Token.next? (src ++ (close ++ after)) = some (.text s, after) := by
  obtain ⟨c, cs, hskip, hstarts⟩ := Token.starts_of_next? h
  cases hstarts with
  | unclosedText hc htext =>
    obtain ⟨close, s, hclose⟩ := textOnto_close htext
    refine ⟨close, s, fun after => ?_⟩
    unfold Token.next?
    rw [skipBlank, skipBlankFrom_append hskip, hc]
    show some (Token.startingWith '"' (cs ++ (close ++ after))) = _
    unfold Token.startingWith
    rw [hclose]
    rfl

end LispMachine
