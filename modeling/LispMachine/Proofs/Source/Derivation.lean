import LispMachine.Proofs.Source.Grammar
import LispMachine.Proofs.Source.Tokens

/-!
# Nothing else is read

The reader reads the forms of the grammar, and these only:

* `Grammar.exists_gap`, `Grammar.exists_escaped`, `Grammar.Spaced.of_next?` -- a token that is found is
  written there, behind white space and comments;
* `Grammar.Derived` -- what is read has been a form, or the rest of a list, and not too deep;
* `Grammar.exists_phrase_of_read` -- **whatever has been read is a form**, and its value stands for what the
  form denotes.
-/

namespace LispMachine

namespace Grammar

variable {c : Char} {cs src mid rest : List Char} {token : Token} {ts us : List Token}

/-! ## 1. Tokens that are found -/

/-- **What is passed over is a gap**, or the rest of a comment and a gap. -/
theorem exists_gap_from {inComment : Bool} (h : skipBlankFrom inComment src = c :: cs) :
    if inComment then ∃ body gap, '\n' ∉ body ∧ Gap gap ∧ src = body ++ '\n' :: (gap ++ c :: cs)
    else ∃ gap, Gap gap ∧ src = gap ++ c :: cs := by
  induction src generalizing inComment with
  | nil => cases h
  | cons x src ih =>
    rw [skipBlankFrom] at h
    cases inComment with
    | true =>
      by_cases hx : x = '\n'
      · subst hx
        obtain ⟨gap, hgap, rfl⟩ := @ih false h
        exact ⟨[], gap, List.not_mem_nil, hgap, rfl⟩
      · have hline : (x != '\n') = true := bne_iff_ne.mpr hx
        rw [if_pos rfl, hline] at h
        obtain ⟨body, gap, hbody, hgap, rfl⟩ := ih h
        refine ⟨x :: body, gap, fun hmem => ?_, hgap, rfl⟩
        rcases List.mem_cons.mp hmem with heq | hmem
        · exact hx heq.symm
        · exact hbody hmem
    | false =>
      rw [if_neg Bool.false_ne_true] at h
      split_ifs at h with hblank hsemi
      · obtain ⟨gap, hgap, rfl⟩ := ih h
        exact ⟨x :: gap, .blank (blank_iff.mpr hblank) hgap, rfl⟩
      · subst hsemi
        obtain ⟨body, gap, hbody, hgap, rfl⟩ := ih h
        exact ⟨_, .comment hbody hgap, by simp⟩
      · cases h
        exact ⟨[], .nil, rfl⟩

theorem exists_gap (h : skipBlank src = c :: cs) : ∃ gap, Gap gap ∧ src = gap ++ c :: cs :=
  exists_gap_from h

/-- What a character behind a backslash is written for. -/
theorem escaped_cons {s raw : List Char} (h : Escaped s raw) (c : Char) :
    Escaped (unescape c :: s) ('\\' :: c :: raw) := by
  unfold unescape
  split
  · exact .newline h
  · exact .tab h
  · rename_i hn ht
    exact .itself hn ht h

/-- **A string that is found is written there.** -/
theorem exists_escaped {acc s : List Char} (h : textOnto acc cs = some (s, rest)) :
    ∃ s' raw, Escaped s' raw ∧ s = acc.reverse ++ s' ∧ cs = raw ++ '"' :: rest := by
  fun_induction textOnto acc cs with
  | case1 => cases h
  | case2 acc cs =>
    cases h
    exact ⟨[], [], .nil, by simp, rfl⟩
  | case3 acc c cs ih =>
    obtain ⟨s', raw, hraw, rfl, rfl⟩ := ih h
    exact ⟨unescape c :: s', '\\' :: c :: raw, escaped_cons hraw c, by simp, rfl⟩
  | case4 => cases h
  | case5 acc c cs hquote _ hback ih =>
    obtain ⟨s', raw, hraw, rfl, rfl⟩ := ih h
    exact ⟨c :: s', c :: raw, .plain hquote hback hraw, by simp, rfl⟩

/-- **A token that is found is written there.** -/
theorem Spaced.of_next? (hnext : Token.next? src = some (token, cs)) (htoken : token ≠ .unclosedText)
    (h : Spaced ts cs rest) : Spaced (token :: ts) src rest := by
  obtain ⟨c, tail, hskip, hstarts⟩ := Token.starts_of_next? hnext
  obtain ⟨gap, hgap, rfl⟩ := exists_gap hskip
  have hother : (∀ name, token ≠ .atom name) → Follows token cs :=
    fun hne name _ heq => absurd heq (hne name)
  cases hstarts with
  | opening hc => exact hc ▸ .cons hgap .opening (hother nofun) h
  | closing hc => exact hc ▸ .cons hgap .closing (hother nofun) h
  | mark hc => exact hc ▸ .cons hgap .mark (hother nofun) h
  | @text s _ hc htext =>
    obtain ⟨s', raw, hraw, rfl, rfl⟩ := exists_escaped htext
    have hspaced := Spaced.cons hgap (.text hraw) (hother nofun) h
    rw [List.cons_append, List.cons_append, List.append_assoc, List.singleton_append] at hspaced
    rw [hc]
    exact hspaced
  | unclosedText => exact absurd rfl htoken
  | atom hc =>
    have hends := Token.bounded_of_next? hnext
    have hall : (c :: tail.takeWhile (!endsAtom ·)).all (!endsAtom ·) = true := by
      simp [hc]
    have hspaced := Spaced.cons hgap (.of_all (List.cons_ne_nil _ _) hall)
      (fun name x _ hx => delimiter_iff.mpr (hends x hx)) h
    rw [List.cons_append, List.takeWhile_append_dropWhile] at hspaced
    exact hspaced

theorem Spaced.append (h : Spaced ts src mid) (h' : Spaced us mid rest) : Spaced (ts ++ us) src rest := by
  induction h with
  | nil => exact h'
  | cons hgap hlexeme hfollows _ ih => exact .cons hgap hlexeme hfollows (ih h')

/-! ## 2. Forms that have been read -/

variable {frames outer : List Frame} {seen : List Datum} {d : Datum}

/-- **The tokens of a form**, or of the rest of a list, have been read, and reading has gone on behind them.
    They are not too deep inside of so many frames. -/
def Derived (place : Place) (ts : List Token) (depth : Nat) (src : List Char)
    (go : Datum → List Char → Except ReadError (Datum × List Char)) (r : Datum × List Char) : Prop :=
  ∃ d n mid, Phrase place ts d n ∧ Spaced ts src mid ∧ mid.length < src.length ∧
    depth + n ≤ Reader.maxNesting ∧ go d mid = .ok r

/-- Whatever is read where a datum must follow is a form. -/
def DerivesForm (src : List Char) : Prop := ∀ (frames : List Frame) (r : Datum × List Char),
  Datum.Accepts frames → (∀ seen outer, frames ≠ .elements seen :: outer) →
    frames.length ≤ Reader.maxNesting → Datum.parseFrom frames src = .ok r →
      ∃ ts, Derived .form ts frames.length src (Datum.finish · frames) r

/-- Whatever is read among the elements of a list is the rest of one. -/
def DerivesRest (src : List Char) : Prop := ∀ (seen : List Datum) (outer : List Frame) (r : Datum × List Char),
  outer.length < Reader.maxNesting → Datum.parseFrom (.elements seen :: outer) src = .ok r →
    ∃ ts, Derived (.rest !seen.isEmpty) ts (outer.length + 1) src
      (fun d mid => Datum.finish (Datum.onto d seen) outer mid) r

section Cases

variable {r : Datum × List Char}

/-- One token that is a form. -/
theorem derived_token (hnext : Token.next? src = some (token, cs)) (htoken : token ≠ .unclosedText)
    (hphrase : Phrase .form [token] d 0) (hlen : frames.length ≤ Reader.maxNesting)
    (hr : Datum.finish d frames cs = .ok r) :
    Derived .form [token] frames.length src (Datum.finish · frames) r :=
  ⟨d, 0, cs, hphrase, .of_next? hnext htoken .nil, Token.length_lt_of_next? hnext, hlen, hr⟩

/-- An atom is a number or a symbol. -/
theorem phrase_atom (name : List Char) : Phrase .form [.atom name] (Datum.ofAtom name) 0 := by
  by_cases h : ∃ k, Numeral name k
  · obtain ⟨k, hk⟩ := h
    exact ofAtom_numeral hk ▸ .integer hk
  · have hnone : ∀ k, ¬ Numeral name k := fun k hk => h ⟨k, hk⟩
    exact ofAtom_symbol hnone ▸ .symbol hnone

/-- A token at which a frame is opened, and what has been read in it. -/
theorem lt_of_opens (frame : Frame) (hopen : Datum.Accepts frames)
    (hnext : Token.next? src = some (token, cs))
    (hmeet : Datum.meet frames token =
      if frames.length ≥ Reader.maxNesting then .error .tooDeep else .more (frame :: frames))
    (hr : Datum.parseFrom frames src = .ok r) :
    frames.length < Reader.maxNesting ∧ Datum.parseFrom (frame :: frames) cs = .ok r := by
  rw [parseFrom_opens frame hopen hnext hmeet] at hr
  split at hr
  · cases hr
  · rename_i hdeep
    exact ⟨Nat.lt_of_not_ge hdeep, hr⟩

/-- **What begins with a token**, no parenthesis and no dot among the elements of a list, is a form. -/
theorem derives_first (hform : ∀ left : List Char, left.length < src.length → DerivesForm left)
    (hrest : ∀ left : List Char, left.length < src.length → DerivesRest left)
    (hnext : Token.next? src = some (token, cs)) (hopen : Datum.Accepts frames)
    (hfirst : ∀ seen outer, frames = .elements seen :: outer → token ≠ .closing ∧ token ≠ dot)
    (hlen : frames.length ≤ Reader.maxNesting) (hr : Datum.parseFrom frames src = .ok r) :
    ∃ ts, Derived .form (token :: ts) frames.length src (Datum.finish · frames) r := by
  have hlt := Token.length_lt_of_next? hnext
  have heffect := Datum.effect_eq_meet hopen token
  cases token with
  | opening =>
    obtain ⟨hdeep, hr⟩ := lt_of_opens (.elements []) hopen hnext rfl hr
    obtain ⟨ts, d, n, mid, hphrase, hts, hmid, hn, hgo⟩ := hrest cs hlt [] frames r hdeep hr
    exact ⟨ts, d, n + 1, mid, .list hphrase, .of_next? hnext nofun hts, hmid.trans hlt, by omega, hgo⟩
  | mark =>
    obtain ⟨hdeep, hr⟩ := lt_of_opens .quotation hopen hnext rfl hr
    obtain ⟨ts, d, n, mid, hphrase, hts, hmid, hn, hgo⟩ :=
      hform cs hlt (.quotation :: frames) r (Datum.accepts_quotation frames) nofun hdeep hr
    rw [List.length_cons] at hn
    exact ⟨ts, d.quoted, n + 1, mid, .quotation hphrase, .of_next? hnext nofun hts, hmid.trans hlt,
      by omega, hgo⟩
  | text s =>
    rw [Datum.parseFrom_value hnext heffect] at hr
    exact ⟨[], derived_token hnext nofun (.text s) hlen hr⟩
  | atom name =>
    have hvalue : Datum.effect frames (.atom name) = .value (Datum.ofAtom name) frames :=
      effect_atom hopen fun hdot seen outer hframes =>
        (hfirst seen outer hframes).2 (List.cons.inj hdot).1
    rw [Datum.parseFrom_value hnext hvalue] at hr
    exact ⟨[], derived_token hnext nofun (phrase_atom name) hlen hr⟩
  | unclosedText =>
    rw [Datum.parseFrom_some hnext, heffect] at hr
    cases hr
  | closing =>
    have herror : Datum.meet frames .closing = .error .unexpectedClosing := by
      cases frames with
      | nil => rfl
      | cons frame outer =>
        cases frame with
        | elements seen => exact absurd rfl (hfirst seen outer rfl).1
        | quotation | dotted seen | closing whole => rfl
    rw [Datum.parseFrom_some hnext, heffect, herror] at hr
    cases hr

theorem derives_form (hform : ∀ left : List Char, left.length < src.length → DerivesForm left)
    (hrest : ∀ left : List Char, left.length < src.length → DerivesRest left) : DerivesForm src := by
  intro frames r hopen hfirst hlen hr
  cases hnext : Token.next? src with
  | none =>
    rw [Datum.parseFrom_none hnext] at hr
    cases hr
  | some p =>
    obtain ⟨token, cs⟩ := p
    have hnot : ∀ seen outer, frames = .elements seen :: outer → token ≠ .closing ∧ token ≠ dot :=
      fun seen outer h => absurd h (hfirst seen outer)
    obtain ⟨ts, h⟩ := derives_first hform hrest hnext hopen hnot hlen hr
    exact ⟨token :: ts, h⟩

/-- The tail of a list, behind a dot, and its parenthesis. -/
theorem derives_tail (hform : ∀ left : List Char, left.length < src.length → DerivesForm left)
    (hnext : Token.next? src = some (dot, cs)) (hlen : outer.length < Reader.maxNesting)
    (hr : Datum.parseFrom (.elements seen :: outer) src = .ok r) :
    ∃ ts, Derived (.rest !seen.isEmpty) ts (outer.length + 1) src
      (fun d mid => Datum.finish (Datum.onto d seen) outer mid) r := by
  cases seen with
  | nil =>
    have herror : Datum.effect (.elements [] :: outer) dot = .error .misplacedDot := rfl
    rw [Datum.parseFrom_some hnext, herror] at hr
    cases hr
  | cons x seen =>
    have hmore : Datum.effect (.elements (x :: seen) :: outer) dot = .more (.dotted (x :: seen) :: outer) := rfl
    rw [Datum.parseFrom_more hnext hmore] at hr
    have hlt := Token.length_lt_of_next? hnext
    obtain ⟨ts, d, n, mid, hphrase, hts, hmid, hn, hgo⟩ :=
      hform cs hlt (.dotted (x :: seen) :: outer) r (Datum.accepts_dotted _ _) nofun hlen hr
    replace hgo : Datum.parseFrom (.closing (Datum.onto d (x :: seen)) :: outer) mid = .ok r := hgo
    cases hend : Token.next? mid with
    | none =>
      rw [Datum.parseFrom_none hend] at hgo
      cases hgo
    | some p =>
      obtain ⟨token, left⟩ := p
      rw [Datum.parseFrom_some hend] at hgo
      cases token with
      | closing =>
        have hclosing : Spaced [.closing] mid left := .of_next? hend nofun .nil
        show ∃ ts, Derived (.rest true) ts (outer.length + 1) src _ r
        refine ⟨dot :: (ts ++ [.closing]), d, n, left, .tail hphrase,
          .of_next? hnext nofun (hts.append hclosing), ?_, hn, hgo⟩
        exact (Token.length_lt_of_next? hend).trans (hmid.trans hlt)
      | _ => cases hgo

theorem derives_rest (hform : ∀ left : List Char, left.length < src.length → DerivesForm left)
    (hrest : ∀ left : List Char, left.length < src.length → DerivesRest left) : DerivesRest src := by
  intro seen outer r hlen hr
  cases hnext : Token.next? src with
  | none =>
    rw [Datum.parseFrom_none hnext] at hr
    cases hr
  | some p =>
    obtain ⟨token, cs⟩ := p
    by_cases hclosing : token = .closing
    · subst hclosing
      have hvalue : Datum.effect (.elements seen :: outer) .closing = .value (Datum.onto .nil seen) outer := rfl
      rw [Datum.parseFrom_value hnext hvalue] at hr
      exact ⟨[.closing], .nil, 0, cs, .closing, .of_next? hnext nofun .nil,
        Token.length_lt_of_next? hnext, hlen, hr⟩
    · by_cases hdot : token = dot
      · subst hdot
        exact derives_tail hform hnext hlen hr
      · -- an element, and the rest of the list behind it
        obtain ⟨ts, d, n, mid, hphrase, hts, hmid, hn, hgo⟩ :=
          derives_first hform hrest hnext (Datum.accepts_elements seen outer)
            (fun _ _ _ => ⟨hclosing, hdot⟩) hlen hr
        obtain ⟨us, e, m, left, hphrase', hus, hleft, hm, hgo'⟩ := hrest mid hmid (d :: seen) outer r hlen hgo
        have hne : token :: ts ≠ [dot] := fun h => hdot (List.cons.inj h).1
        rw [List.length_cons] at hn
        exact ⟨token :: ts ++ us, .pair d e, max n m, left, .element hphrase hne hphrase', hts.append hus,
          hleft.trans hmid, by omega, hgo'⟩

end Cases

/-- **Whatever is read is derived**, by induction on the length of the text. -/
theorem derives (src : List Char) : DerivesForm src ∧ DerivesRest src := by
  induction hlen : src.length using Nat.strongRecOn generalizing src with
  | ind len ih =>
    subst hlen
    have hform : ∀ left : List Char, left.length < src.length → DerivesForm left :=
      fun left hlt => (ih _ hlt left rfl).1
    have hrest : ∀ left : List Char, left.length < src.length → DerivesRest left :=
      fun left hlt => (ih _ hlt left rfl).2
    exact ⟨derives_form hform hrest, derives_rest hform hrest⟩

/-- **What a text says is a form of the grammar.** -/
theorem exists_phrase_of_parse (h : Datum.parse src = .ok (some d, rest)) :
    ∃ ts n, Phrase .form ts d n ∧ Spaced ts src rest ∧ n ≤ Reader.maxNesting := by
  obtain ⟨ts, e, n, mid, hphrase, hts, -, hn, hgo⟩ := (derives src).1 [] (d, rest) Datum.accepts_nil nofun
    (Nat.zero_le _) (Datum.parseFrom_of_parse h)
  cases hgo
  exact ⟨ts, n, hphrase, hts, by simpa using hn⟩

/-- **Whatever has been read is a form**, and its value stands for what the form denotes. -/
theorem exists_phrase_of_read {c c' : Context} {v : Value} (hc : c.Sane)
    (hrun : Reader.read src c = .ok (.ok (some v), rest) c') :
    ∃ ts d n, Phrase .form ts d n ∧ Spaced ts src rest ∧ n ≤ Reader.maxNesting ∧ c'.Denotes v d := by
  obtain ⟨-, -, hanswer⟩ := (Attains.read hc src).ok hrun
  generalize hsaid : Datum.parse src = said at hanswer
  cases hanswer with
  | @some v d rest hv =>
    obtain ⟨ts, n, hphrase, hts, hn⟩ := exists_phrase_of_parse hsaid
    exact ⟨ts, d, n, hphrase, hts, hn, hv⟩

end Grammar

end LispMachine
