import LispMachine.Proofs.Source.Supply

/-!
# The grammar of the source

What a source text may look like, said apart from how it is read, in two layers:

* `Grammar.Gap`, `Grammar.Lexeme`, `Grammar.Spaced` -- **tokens and what may stand between them**: white
  space and comments, and nothing at all where no atom would run on;
* `Grammar.Numeral`, `Grammar.Phrase` -- **forms and the data that they denote**: integers, symbols,
  strings, quotations and lists, with the depth of their nesting.

And that the reader accepts it:

* `Grammar.Spaced.next?` -- the tokens are found one after the other;
* `Grammar.Accepted`, `Grammar.Phrase.accepted` -- a form is read as what it denotes inside of whatever
  is unfinished, or it nests too deep;
* `Grammar.Phrase.read_spaced` -- **so it is by the reader**, wherever it stands in a text and however its tokens
  are set apart.
-/

namespace LispMachine

namespace Grammar

/-! ## 1. Tokens in a text -/

/-- White space. -/
def Blank (c : Char) : Prop := c ∈ [' ', '\t', '\n', '\x0c', '\r']

/-- A character at which an atom ends. -/
def Delimiter (c : Char) : Prop := Blank c ∨ c ∈ ['(', ')', '"', ';', '\x27']

instance (c : Char) : Decidable (Blank c) := inferInstanceAs (Decidable (c ∈ _))

instance (c : Char) : Decidable (Delimiter c) := inferInstanceAs (Decidable (_ ∨ _))

/-- **What may stand between two tokens**: white space, and comments from a semicolon to the end of a
    line. -/
inductive Gap : List Char → Prop where
  | nil : Gap []
  | blank {c : Char} {cs : List Char} (hc : Blank c) (h : Gap cs) : Gap (c :: cs)
  | comment {body cs : List Char} (hbody : '\n' ∉ body) (h : Gap cs) :
      Gap (';' :: body ++ '\n' :: cs)

/-- The characters of a string, and how they are written between its quotes. -/
inductive Escaped : List Char → List Char → Prop where
  | nil : Escaped [] []
  | plain {c : Char} {s raw : List Char} (hquote : c ≠ '"') (hback : c ≠ '\\') (h : Escaped s raw) :
      Escaped (c :: s) (c :: raw)
  | newline {s raw : List Char} (h : Escaped s raw) : Escaped ('\n' :: s) ('\\' :: 'n' :: raw)
  | tab {s raw : List Char} (h : Escaped s raw) : Escaped ('\t' :: s) ('\\' :: 't' :: raw)
  /-- Quotes, backslashes and all other characters stand for themselves behind a backslash. -/
  | itself {c : Char} {s raw : List Char} (hn : c ≠ 'n') (ht : c ≠ 't') (h : Escaped s raw) :
      Escaped (c :: s) ('\\' :: c :: raw)

/-- **How a token is written.** -/
inductive Lexeme : Token → List Char → Prop where
  | opening : Lexeme .opening ['(']
  | closing : Lexeme .closing [')']
  | mark : Lexeme .mark ['\x27']
  | text {s raw : List Char} (h : Escaped s raw) : Lexeme (.text s) ('"' :: raw ++ ['"'])
  | atom {name : List Char} (hne : name ≠ []) (hname : ∀ c ∈ name, ¬ Delimiter c) :
      Lexeme (.atom name) name

/-- What may follow a token: an atom must not run on. -/
def Follows (token : Token) (cs : List Char) : Prop :=
  ∀ name c, token = .atom name → cs.head? = some c → Delimiter c

/-- **A text begins with tokens**, set apart in some way, and goes on with another text. -/
inductive Spaced : List Token → List Char → List Char → Prop where
  | nil {rest : List Char} : Spaced [] rest rest
  | cons {token : Token} {ts : List Token} {gap lexeme cs rest : List Char} (hgap : Gap gap)
      (hlexeme : Lexeme token lexeme) (hfollows : Follows token cs) (h : Spaced ts cs rest) :
      Spaced (token :: ts) (gap ++ (lexeme ++ cs)) rest

/-! ## 2. Forms -/

/-- An integer in decimal digits, with or without a sign. -/
inductive Numeral : List Char → Int → Prop where
  | unsigned {ds : List Char} (hne : ds ≠ []) (hds : ∀ c ∈ ds, c.isDigit = true) :
      Numeral ds (Nat.ofDigitChars 10 ds 0)
  | plus {ds : List Char} (hne : ds ≠ []) (hds : ∀ c ∈ ds, c.isDigit = true) :
      Numeral ('+' :: ds) (Nat.ofDigitChars 10 ds 0)
  | minus {ds : List Char} (hne : ds ≠ []) (hds : ∀ c ∈ ds, c.isDigit = true) :
      Numeral ('-' :: ds) (-(Nat.ofDigitChars 10 ds 0 : Int))

/-- Where tokens stand: they are a form, or the rest of a list, of which something may have been before. -/
inductive Place where
  | form
  | rest (begun : Bool)

/-- The dot in front of the last tail of a list. -/
def dot : Token := .atom ['.']

/-- **The forms**, the data that they denote, and how deep lists and quotations are nested in them. -/
inductive Phrase : Place → List Token → Datum → Nat → Prop where
  | integer {name : List Char} {k : Int} (h : Numeral name k) :
      Phrase .form [.atom name] (.int (Fixnum.ofInt k)) 0
  /-- Any other atom is a symbol. -/
  | symbol {name : List Char} (h : ∀ k, ¬ Numeral name k) :
      Phrase .form [.atom name] (.sym (String.ofList name)) 0
  | text (s : List Char) : Phrase .form [.text s] (.text (String.ofList s)) 0
  | quotation {ts : List Token} {d : Datum} {n : Nat} (h : Phrase .form ts d n) :
      Phrase .form (.mark :: ts) (.pair (.sym "quote") (.pair d .nil)) (n + 1)
  | list {ts : List Token} {d : Datum} {n : Nat} (h : Phrase (.rest false) ts d n) :
      Phrase .form (.opening :: ts) d (n + 1)
  | closing {begun : Bool} : Phrase (.rest begun) [.closing] .nil 0
  /-- An element of a list, which is no lone dot, and the rest of it. -/
  | element {begun : Bool} {ts us : List Token} {d e : Datum} {n m : Nat} (hd : Phrase .form ts d n)
      (hdot : ts ≠ [dot]) (he : Phrase (.rest true) us e m) :
      Phrase (.rest begun) (ts ++ us) (.pair d e) (max n m)
  /-- A dot and the tail of a list. -/
  | tail {ts : List Token} {d : Datum} {n : Nat} (h : Phrase .form ts d n) :
      Phrase (.rest true) (dot :: (ts ++ [.closing])) d n

/-! ## 3. Tokens are found -/

variable {c : Char} {gap lexeme cs src rest name : List Char} {token : Token} {ts us : List Token}

theorem blank_iff : Blank c ↔ isBlank c = true := by
  simp [Blank, isBlank, or_assoc]

theorem delimiter_iff : Delimiter c ↔ endsAtom c = true := by
  simp [Delimiter, endsAtom, blank_iff, or_assoc]

/-- Any characters but those at which an atom ends. -/
theorem Lexeme.of_all (hne : name ≠ []) (hname : name.all (!endsAtom ·) = true) : Lexeme (.atom name) name :=
  .atom hne fun c hc hend => by simpa [delimiter_iff.mp hend] using List.all_eq_true.mp hname c hc

/-- The rest of a line is passed over. -/
theorem skip_comment {body : List Char} (hbody : '\n' ∉ body) (cs : List Char) :
    skipBlankFrom true (body ++ '\n' :: cs) = skipBlankFrom false cs := by
  induction body with
  | nil => rfl
  | cons c body ih =>
    have hc : c ≠ '\n' := fun h => hbody (h ▸ List.mem_cons_self)
    rw [List.cons_append, skipBlankFrom, if_pos rfl, bne_iff_ne.mpr hc]
    exact ih fun h => hbody (List.mem_cons_of_mem c h)

theorem Gap.skip (hgap : Gap gap) (cs : List Char) : skipBlank (gap ++ cs) = skipBlank cs := by
  unfold skipBlank
  induction hgap with
  | nil => rfl
  | blank hc _ ih =>
    rw [List.cons_append, skipBlankFrom, if_neg Bool.false_ne_true, if_pos (blank_iff.mp hc)]
    exact ih
  | @comment body more hbody _ ih =>
    rw [List.cons_append, List.cons_append, List.append_assoc, List.cons_append, skipBlankFrom,
      if_neg Bool.false_ne_true, if_neg (by decide), if_pos rfl, skip_comment hbody]
    exact ih

theorem Escaped.textOnto {s raw : List Char} (h : Escaped s raw) (acc cs : List Char) :
    textOnto acc (raw ++ '"' :: cs) = some (acc.reverse ++ s, cs) := by
  induction h generalizing acc with
  | nil => simp [LispMachine.textOnto]
  | plain hquote hback _ ih =>
    rw [List.cons_append, textOnto_cons hquote hback, ih]
    simp
  | newline _ ih =>
    rw [List.cons_append, List.cons_append, LispMachine.textOnto, ih]
    simp [unescape]
  | tab _ ih =>
    rw [List.cons_append, List.cons_append, LispMachine.textOnto, ih]
    simp [unescape]
  | itself hn ht _ ih =>
    have hsame : ∀ c, c ≠ 'n' → c ≠ 't' → unescape c = c := by
      intro c hn ht
      unfold unescape
      split
      · exact absurd rfl hn
      · exact absurd rfl ht
      · rfl
    rw [List.cons_append, List.cons_append, LispMachine.textOnto, hsame _ hn ht, ih]
    simp

/-- **A token is found** where it is written, if it does not run on. -/
theorem Lexeme.next? (hlexeme : Lexeme token lexeme) (hfollows : Follows token cs) :
    Token.next? (lexeme ++ cs) = some (token, cs) := by
  cases hlexeme with
  | opening => rfl
  | closing => rfl
  | mark => rfl
  | @text s raw h =>
    have hstart : Token.startingWith '"' (raw ++ '"' :: cs) = (.text s, cs) := by
      unfold Token.startingWith
      rw [h.textOnto]
      rfl
    rw [List.append_assoc, List.cons_append, List.singleton_append]
    exact congrArg some hstart
  | atom hne hname =>
    refine Token.next?_name hne (fun c hc => ?_) fun c hc => ?_
    · exact Bool.eq_false_iff.mpr fun h => hname c hc (delimiter_iff.mpr h)
    · exact delimiter_iff.mp (hfollows _ c rfl hc)

theorem Spaced.next? (h : Spaced (token :: ts) src rest) :
    ∃ cs, Token.next? src = some (token, cs) ∧ Spaced ts cs rest := by
  cases h with
  | @cons _ _ gap lexeme cs _ hgap hlexeme hfollows h =>
    refine ⟨cs, ?_, h⟩
    rw [← hlexeme.next? hfollows, Token.next?, Token.next?, hgap.skip]

/-- Tokens one after the other. -/
theorem Spaced.split (h : Spaced (ts ++ us) src rest) :
    ∃ mid, Spaced ts src mid ∧ Spaced us mid rest := by
  induction ts generalizing src with
  | nil => exact ⟨src, .nil, h⟩
  | cons token ts ih =>
    cases h with
    | cons hgap hlexeme hfollows h =>
      obtain ⟨mid, hts, hus⟩ := ih h
      exact ⟨mid, .cons hgap hlexeme hfollows hts, hus⟩

/-! ## 4. Atoms -/

theorem digits?_eq (hne : cs ≠ []) (hcs : ∀ c ∈ cs, c.isDigit = true) :
    Fixnum.digits? cs = some (BitVec.ofInt 32 (Nat.ofDigitChars 10 cs 0 : Int)) := by
  have hvalue : Fixnum.digitsFrom 0 cs = BitVec.ofInt 32 (Nat.ofDigitChars 10 cs 0 : Int) :=
    (Fixnum.digitsFrom_ofNat 0 cs).trans (BitVec.ofInt_natCast 32 _).symm
  rw [Fixnum.digits?, List.isEmpty_eq_false_iff.mpr hne, List.all_eq_true.mpr hcs, hvalue]
  rfl

theorem of_digits? {w : Word} (h : Fixnum.digits? cs = some w) :
    cs ≠ [] ∧ ∀ c ∈ cs, c.isDigit = true := by
  unfold Fixnum.digits? at h
  split at h
  · cases h
  · rename_i hcond
    simp only [Bool.or_eq_true, not_or, Bool.not_eq_true, Bool.not_eq_false', List.isEmpty_eq_false_iff,
      List.all_eq_true] at hcond
    exact hcond

theorem Numeral.signed? {k : Int} (h : Numeral name k) :
    Fixnum.signed? name = some (BitVec.ofInt 32 k) := by
  cases h with
  | unsigned hne hds =>
    unfold Fixnum.signed?
    split
    · exact absurd (hds _ List.mem_cons_self) (by decide)
    · exact absurd (hds _ List.mem_cons_self) (by decide)
    · exact digits?_eq hne hds
  | plus hne hds => exact digits?_eq hne hds
  | minus hne hds =>
    rw [Fixnum.signed?, digits?_eq hne hds]
    exact congrArg some (BitVec.ofInt_neg).symm

theorem Numeral.decimal? {k : Int} (h : Numeral name k) :
    Fixnum.decimal? name = some (Fixnum.ofInt k) := by
  rw [Fixnum.decimal?, h.signed?, Option.map_some, Fixnum.ofWord_ofInt]

theorem numeral_of_decimal? {n : Fixnum} (h : Fixnum.decimal? name = some n) : ∃ k, Numeral name k := by
  obtain ⟨w, h, -⟩ := Option.map_eq_some_iff.mp h
  unfold Fixnum.signed? at h
  split at h
  · obtain ⟨m, hm, -⟩ := Option.map_eq_some_iff.mp h
    obtain ⟨hne, hds⟩ := of_digits? hm
    exact ⟨_, .minus hne hds⟩
  · obtain ⟨hne, hds⟩ := of_digits? h
    exact ⟨_, .plus hne hds⟩
  · obtain ⟨hne, hds⟩ := of_digits? h
    exact ⟨_, .unsigned hne hds⟩

theorem not_numeral (h : Fixnum.decimal? name = none) (k : Int) : ¬ Numeral name k := by
  intro hk
  rw [hk.decimal?] at h
  cases h

theorem ofAtom_numeral {k : Int} (h : Numeral name k) :
    Datum.ofAtom name = .int (Fixnum.ofInt k) := by
  rw [Datum.ofAtom, h.decimal?]

theorem ofAtom_symbol (h : ∀ k, ¬ Numeral name k) : Datum.ofAtom name = .sym (String.ofList name) := by
  cases hname : Fixnum.decimal? name with
  | none => rw [Datum.ofAtom, hname]
  | some n =>
    obtain ⟨k, hk⟩ := numeral_of_decimal? hname
    exact absurd hk (h k)

/-! ## 5. Forms are read -/

variable {d e : Datum} {n m : Nat} {frames outer : List Frame} {seen : List Datum} {begun : Bool}

/-- What follows a datum inside of frames, with `depth` of them at the deepest. -/
def outcome (depth : Nat) (d : Datum) (frames : List Frame) (rest : List Char) :
    Except ReadError (Datum × List Char) :=
  if depth ≤ Reader.maxNesting then Datum.finish d frames rest else .error .tooDeep

theorem outcome_of_le {depth : Nat} {d : Datum} {frames : List Frame} {rest : List Char}
    (h : depth ≤ Reader.maxNesting) : outcome depth d frames rest = Datum.finish d frames rest := if_pos h

theorem outcome_of_lt {depth : Nat} {d : Datum} {frames : List Frame} {rest : List Char}
    (h : Reader.maxNesting < depth) : outcome depth d frames rest = .error .tooDeep :=
  if_neg (Nat.not_le_of_lt h)

/-- **Tokens are read as the datum that they denote**, however they are set apart, or are too deep: as a
    datum inside of whatever is unfinished, but for a lone dot among the elements of a list, and as the rest
    of a list. -/
def Accepted : Place → List Token → Datum → Nat → Prop
  | .form, ts, d, n => ∀ (frames : List Frame) (src rest : List Char), Datum.Accepts frames →
      (ts = [dot] → ∀ seen outer, frames ≠ .elements seen :: outer) →
      frames.length ≤ Reader.maxNesting → Spaced ts src rest →
      Datum.parseFrom frames src = outcome (frames.length + n) d frames rest
  | .rest begun, ts, d, n => ∀ (seen : List Datum) (outer : List Frame) (src rest : List Char),
      (begun = true → seen ≠ []) → outer.length < Reader.maxNesting → Spaced ts src rest →
      Datum.parseFrom (.elements seen :: outer) src =
        outcome (outer.length + 1 + n) (Datum.onto d seen) outer rest

theorem effect_atom (hopen : Datum.Accepts frames)
    (hdot : [Token.atom name] = [dot] → ∀ seen outer, frames ≠ .elements seen :: outer) :
    Datum.effect frames (.atom name) = .value (Datum.ofAtom name) frames := by
  rw [Datum.effect_eq_meet hopen]
  cases frames with
  | nil => rfl
  | cons frame outer =>
    cases frame with
    | elements seen => exact if_neg fun hname => hdot (by rw [hname]; rfl) seen outer rfl
    | quotation | dotted seen | closing whole => rfl

/-- One token that is a datum. -/
theorem accepted_token (heffect : ∀ frames, Datum.Accepts frames →
    ([token] = [dot] → ∀ seen outer, frames ≠ .elements seen :: outer) →
      Datum.effect frames token = .value d frames) : Accepted .form [token] d 0 := by
  intro frames src rest hopen hdot hlen hsrc
  obtain ⟨cs, hnext, hcs⟩ := hsrc.next?
  cases hcs
  rw [Datum.parseFrom_value hnext (heffect frames hopen hdot), Nat.add_zero, outcome_of_le hlen]

/-- A token that opens a frame is one too deep, or the frame is read in. -/
theorem parseFrom_opens (frame : Frame) {cs : List Char} (hopen : Datum.Accepts frames)
    (hnext : Token.next? src = some (token, cs))
    (hmeet : Datum.meet frames token =
      if frames.length ≥ Reader.maxNesting then .error .tooDeep else .more (frame :: frames)) :
    Datum.parseFrom frames src =
      if frames.length ≥ Reader.maxNesting then .error .tooDeep else Datum.parseFrom (frame :: frames) cs := by
  rw [Datum.parseFrom_some hnext, Datum.effect_eq_meet hopen, hmeet]
  by_cases hdeep : frames.length ≥ Reader.maxNesting
  · rw [if_pos hdeep, if_pos hdeep]
  · rw [if_neg hdeep, if_neg hdeep]

theorem Accepted.quotation (h : Accepted .form ts d n) : Accepted .form (.mark :: ts) d.quoted (n + 1) := by
  intro frames src rest hopen _ hlen hsrc
  obtain ⟨cs, hnext, hcs⟩ := hsrc.next?
  rw [parseFrom_opens .quotation hopen hnext rfl]
  by_cases hdeep : frames.length ≥ Reader.maxNesting
  · rw [if_pos hdeep, outcome_of_lt (by omega)]
  · rw [if_neg hdeep, h _ _ _ (Datum.accepts_quotation frames) (fun _ => nofun) (by simp; omega) hcs]
    rw [List.length_cons, Nat.add_right_comm, Nat.add_assoc]
    rfl

theorem Accepted.list (h : Accepted (.rest false) ts d n) : Accepted .form (.opening :: ts) d (n + 1) := by
  intro frames src rest hopen _ hlen hsrc
  obtain ⟨cs, hnext, hcs⟩ := hsrc.next?
  rw [parseFrom_opens (.elements []) hopen hnext rfl]
  by_cases hdeep : frames.length ≥ Reader.maxNesting
  · rw [if_pos hdeep, outcome_of_lt (by omega)]
  · rw [if_neg hdeep, h [] frames cs rest nofun (by omega) hcs, Nat.add_right_comm, Nat.add_assoc]
    rfl

theorem Accepted.closing : Accepted (.rest begun) [.closing] .nil 0 := by
  intro seen outer src rest _ hlen hsrc
  obtain ⟨cs, hnext, hcs⟩ := hsrc.next?
  cases hcs
  have heffect : Datum.effect (.elements seen :: outer) .closing = .value (Datum.onto .nil seen) outer := rfl
  rw [Datum.parseFrom_value hnext heffect, outcome_of_le (by omega)]

theorem Accepted.element (hd : Accepted .form ts d n) (hdot : ts ≠ [dot])
    (he : Accepted (.rest true) us e m) : Accepted (.rest begun) (ts ++ us) (.pair d e) (max n m) := by
  intro seen outer src rest _ hlen hsrc
  obtain ⟨mid, hts, hus⟩ := hsrc.split
  rw [hd _ _ _ (Datum.accepts_elements seen outer) (fun h => absurd h hdot) (by simp; omega) hts,
    List.length_cons]
  by_cases hdeep : outer.length + 1 + n ≤ Reader.maxNesting
  · have hrest := he (d :: seen) outer mid rest nofun hlen hus
    rw [outcome_of_le hdeep]
    show Datum.parseFrom (.elements (d :: seen) :: outer) mid = _
    rw [hrest]
    by_cases hdeep' : outer.length + 1 + m ≤ Reader.maxNesting
    · rw [outcome_of_le hdeep', outcome_of_le (by omega)]
      rfl
    · rw [outcome_of_lt (Nat.lt_of_not_le hdeep'), outcome_of_lt (by omega)]
  · rw [outcome_of_lt (Nat.lt_of_not_le hdeep), outcome_of_lt (by omega)]

theorem Accepted.tail (h : Accepted .form ts d n) :
    Accepted (.rest true) (dot :: (ts ++ [.closing])) d n := by
  intro seen outer src rest hseen hlen hsrc
  obtain ⟨cs, hnext, hcs⟩ := hsrc.next?
  obtain ⟨mid, hts, hend⟩ := hcs.split
  obtain ⟨left, hclose, hleft⟩ := hend.next?
  cases hleft
  have heffect : Datum.effect (.elements seen :: outer) dot = .more (.dotted seen :: outer) :=
    if_neg (hseen rfl)
  rw [Datum.parseFrom_more hnext heffect,
    h _ _ _ (Datum.accepts_dotted seen outer) (fun _ => nofun) (by simp; omega) hts, List.length_cons,
    outcome, outcome]
  by_cases hdeep : outer.length + 1 + n ≤ Reader.maxNesting
  · rw [if_pos hdeep, if_pos hdeep]
    show Datum.parseFrom (.closing (Datum.onto d seen) :: outer) mid = _
    exact Datum.parseFrom_value hclose rfl
  · rw [if_neg hdeep, if_neg hdeep]

/-- **Every form is read as what it denotes**, or is too deep; by induction on the form. -/
theorem Phrase.accepted {place : Place} (h : Phrase place ts d n) : Accepted place ts d n := by
  induction h with
  | integer hname =>
    rw [← ofAtom_numeral hname]
    exact accepted_token fun frames hopen hdot => effect_atom hopen hdot
  | symbol hname =>
    rw [← ofAtom_symbol hname]
    exact accepted_token fun frames hopen hdot => effect_atom hopen hdot
  | text s => exact accepted_token fun frames hopen _ => Datum.effect_eq_meet hopen _
  | quotation _ ih => exact ih.quotation
  | list _ ih => exact ih.list
  | closing => exact .closing
  | element _ hdot _ ihd ihe => exact ihd.element hdot ihe
  | tail _ ih => exact ih.tail

/-- **What reading a form gives** that nests `n` deep: its datum, with the text after it left, or an error if
    it nests too deep. -/
structure Said (d : Datum) (n : Nat) (rest : List Char) (r : Except ReadError (Option Value) × List Char)
    (c' : Context) : Prop where
  value : n ≤ 512 → ∃ v, r = (.ok (some v), rest) ∧ c'.Denotes v d
  tooDeep : 512 < n → ∃ e left, r = (.error e, left) ∧ e.message = "Nesting too deep" ∧
    e.isIncomplete = false

/-- The text of a form says the datum, or that it nests too deep. -/
theorem Phrase.parse (h : Phrase .form ts d n) (hsrc : Spaced ts src rest) :
    Datum.parse src =
      if n ≤ Reader.maxNesting then .ok (some d, rest) else .error .tooDeep := by
  have hrun := h.accepted [] src rest Datum.accepts_nil (fun _ => nofun) (Nat.zero_le _) hsrc
  rw [List.length_nil, Nat.zero_add] at hrun
  have hnext : ∃ p, Token.next? src = some p := by
    cases ts with
    | nil => cases h
    | cons token ts =>
      obtain ⟨cs, hnext, -⟩ := hsrc.next?
      exact ⟨_, hnext⟩
  obtain ⟨p, hp⟩ := hnext
  rw [Datum.parse, hp]
  show (Datum.parseFrom [] src).map _ = _
  rw [hrun]
  by_cases hdeep : n ≤ Reader.maxNesting
  · rw [outcome_of_le hdeep, if_pos hdeep]
    rfl
  · rw [outcome_of_lt (Nat.lt_of_not_le hdeep), if_neg hdeep]
    rfl

/-- **A form is read as what it denotes**, up to its last token, or it nests too deep. Its tokens alone say
    which: how they are set apart in a text, and what the text goes on with, does not matter. There is an
    answer unless the heap is exhausted, which it is not with two cells for each character. -/
theorem Phrase.read_spaced (h : Phrase .form ts d n) (src rest : List Char) (hsrc : Spaced ts src rest)
    (c : Context) (hc : c.Sane) :
    Attains (Reader.read src) c (Said d n rest) ∧
      (c.heap.Stocked (2 * src.length) → ∃ r c', Reader.read src c = .ok r c') := by
  constructor
  · refine (Attains.read hc src).weaken fun r c' hread => ?_
    obtain ⟨-, -, hanswer⟩ := hread
    rw [h.parse hsrc] at hanswer
    by_cases hdeep : n ≤ Reader.maxNesting
    · rw [if_pos hdeep] at hanswer
      cases hanswer with
      | some hv => exact ⟨fun _ => ⟨_, rfl, hv⟩, fun hn => absurd hdeep (Nat.not_le_of_lt hn)⟩
    · rw [if_neg hdeep] at hanswer
      cases hanswer with
      | error => exact ⟨fun hn => absurd hn hdeep, fun _ => ⟨_, _, rfl, rfl, rfl⟩⟩
  · intro hs
    cases hrun : Reader.read src c with
    | ok r c' => exact ⟨r, c', rfl⟩
    | error f c' =>
      have hspends := Spends.read src c 0 hs
      have hattains := Attains.read hc src
      rw [hrun] at hspends
      rw [Attains, hrun] at hattains
      exact absurd hattains hspends

/-- The tokens of `'(a "\"" -7 . .b)`. -/
def sampler : List Token :=
  [.mark, .opening, .atom ['a'], .text ['"'], .atom ['-', '7'], dot, .atom ['.', 'b'], .closing]

/-- What they denote. -/
def sampled : Datum :=
  .quoted (.pair (.sym "a") (.pair (.text "\"") (.pair (.int (-7)) (.sym ".b"))))

theorem phrase_sampler : Phrase .form sampler sampled 2 := by
  have ha : Phrase .form [.atom ['a']] (.sym "a") 0 := .symbol (not_numeral rfl)
  have hb : Phrase .form [.atom ['.', 'b']] (.sym ".b") 0 := .symbol (not_numeral rfl)
  have hseven : Phrase .form [.atom ['-', '7']] (.int (-7)) 0 :=
    .integer (.minus (List.cons_ne_nil '7' []) (List.forall_mem_singleton.mpr rfl))
  have htail : Phrase (.rest true) (dot :: ([.atom ['.', 'b']] ++ [.closing])) (.sym ".b") 0 := .tail hb
  exact .quotation (.list (.element ha nofun (.element (.text ['"']) nofun (.element hseven nofun htail))))

/-- A comment behind the quote mark, a string right behind an atom, and a tail that begins with a dot. -/
theorem spaced_sampler :
    Spaced sampler "'; so\n(a\"\\\"\" -7\t. .b))x".toList ")x".toList := by
  have hends : ∀ {name : List Char} {c : Char} {cs : List Char}, Delimiter c →
      Follows (.atom name) (c :: cs) := by
    intro name c cs hc _ _ _ hhead
    cases hhead
    exact hc
  have hspace : Gap [' '] := .blank (by decide) .nil
  have htab : Gap ['\t'] := .blank (by decide) .nil
  have hcomment : Gap [';', ' ', 's', 'o', '\n'] := @Gap.comment [' ', 's', 'o'] [] (by decide) .nil
  have hclosing := @Spaced.cons .closing [] [] _ [')', 'x'] _ .nil .closing nofun .nil
  have hb := Spaced.cons hspace (@Lexeme.of_all ['.', 'b'] nofun rfl) (hends (by decide)) hclosing
  have hdot := Spaced.cons htab (@Lexeme.of_all ['.'] nofun rfl) (hends (by decide)) hb
  have hseven := Spaced.cons hspace (@Lexeme.of_all ['-', '7'] nofun rfl) (hends (by decide)) hdot
  have hquote : Escaped ['"'] ['\\', '"'] := .itself (by decide) (by decide) .nil
  have htext := Spaced.cons .nil (.text hquote) nofun hseven
  have ha := Spaced.cons .nil (@Lexeme.of_all ['a'] nofun rfl) (hends (by decide)) htext
  exact .cons .nil .mark nofun (.cons hcomment .opening nofun ha)

/-- That form in that text. -/
theorem Phrase.read_spaced_sampler : ∃ c : Context, c.Sane ∧ Phrase .form sampler sampled 2 ∧
    Spaced sampler "'; so\n(a\"\\\"\" -7\t. .b))x".toList ")x".toList ∧
    ∃ v c', Reader.read "'; so\n(a\"\\\"\" -7\t. .b))x".toList c = .ok (.ok (some v), ")x".toList) c' ∧
      c'.Denotes v sampled := by
  obtain ⟨c, hc, hs⟩ := Context.exists_stocked (2 * "'; so\n(a\"\\\"\" -7\t. .b))x".toList.length)
  obtain ⟨hattains, hok⟩ := phrase_sampler.read_spaced _ _ spaced_sampler _ hc
  obtain ⟨r, c', hrun⟩ := hok hs
  obtain ⟨v, rfl, hv⟩ := (hattains.ok hrun).value (by decide)
  exact ⟨_, hc, phrase_sampler, spaced_sampler, v, c', hrun, hv⟩

end Grammar

end LispMachine
