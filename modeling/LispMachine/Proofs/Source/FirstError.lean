import LispMachine.Proofs.Datum.Reading
import LispMachine.Proofs.Source.Tokens

/-!
# The first error of a text

A text is read form by form, by one reader, up to the first error or to its end. What comes of that
depends on the tokens of the text alone:

* `Datum.step`, `Datum.verdict` -- what a token does to the unfinished data, with none between two
  forms, and **the first error of some tokens**;
* `Datum.openLists`, `Datum.Settled` -- the lists that are open, and where one of them may end;
* `Datum.firstError` -- **the first error of a text**, form by form (`Datum.firstError_eq`);
* `Reader.Reads` -- a run of the reader over a text. There is one of every text
  (`Reader.exists_reads`), and **it ends with the first error of the text**
  (`Reader.Reads.eq_firstError`), unless the heap is exhausted.
-/

namespace LispMachine

/-! ## 1. Tokens in a row -/

namespace Datum

variable {frames frames' : List Frame} {src rest : List Char} {token : Token} {d d' : Datum}
variable {e : ReadError}

/-- What is unfinished behind a complete datum. -/
def handOver (d : Datum) (frames : List Frame) : List Frame :=
  match deliver d frames with
  | .inl _ => []
  | .inr frames => frames

/-- What is unfinished behind a token, or the error of the token. -/
def step (frames : List Frame) (token : Token) : Except ReadError (List Frame) :=
  match effect frames token with
  | .error e => .error e
  | .more frames => .ok frames
  | .value d frames => .ok (handOver d frames)

/-- The error at the end of a text, if something is unfinished there. -/
def ending : List Frame → Option ReadError
  | [] => none
  | frame :: outer => some (atEnd (frame :: outer))

/-- **The first error of some tokens**, if there is one. -/
def verdict (frames : List Frame) : List Token → Option ReadError
  | [] => ending frames
  | token :: ts =>
    match step frames token with
    | .error e => some e
    | .ok frames => verdict frames ts

/-- The first error of a text. -/
def firstError (src : List Char) : Option ReadError := verdict [] (tokens src)

theorem verdict_error (h : step frames token = .error e) (ts : List Token) :
    verdict frames (token :: ts) = some e := by rw [verdict, h]

theorem verdict_ok (h : step frames token = .ok frames') (ts : List Token) :
    verdict frames (token :: ts) = verdict frames' ts := by rw [verdict, h]

/-! ## 2. Open lists -/

/-- The number of lists that are open. -/
def openLists : List Frame → Nat
  | [] => 0
  | .quotation :: outer => openLists outer
  | .elements _ :: outer | .dotted _ :: outer | .closing _ :: outer => openLists outer + 1

/-- A list is open that may end here. -/
def Settled : List Frame → Prop
  | .elements _ :: _ | .closing _ :: _ => True
  | _ => False

theorem Settled.ne_nil (h : Settled frames) : frames ≠ [] := by
  rintro rfl
  exact h

/-- **A complete datum** closes no list, and ends up in one unless it is whole. -/
theorem settled_of_deliver (h : deliver d frames = .inr frames') :
    Settled frames' ∧ openLists frames' = openLists frames := by
  induction frames generalizing d with
  | nil => cases h
  | cons frame outer ih =>
    cases frame with
    | quotation => exact ih h
    | elements seen | dotted seen | closing whole =>
      cases h
      exact ⟨trivial, rfl⟩

theorem openLists_of_deliver (h : deliver d frames = .inl d') : openLists frames = 0 := by
  induction frames generalizing d with
  | nil => rfl
  | cons frame outer ih =>
    cases frame with
    | quotation => exact ih h
    | elements seen | dotted seen | closing whole => cases h

theorem handOver_cases (d : Datum) (frames : List Frame) :
    (handOver d frames = [] ∨ Settled (handOver d frames)) ∧
      openLists (handOver d frames) = openLists frames := by
  unfold handOver
  cases h : deliver d frames with
  | inl whole => exact ⟨.inl rfl, (openLists_of_deliver h).symm⟩
  | inr frames' => exact ⟨.inr (settled_of_deliver h).1, (settled_of_deliver h).2⟩

theorem accepts_quotation (outer : List Frame) : Accepts (.quotation :: outer) := by
  intro whole outer h
  cases h

/-- **What a token does**, case by case. -/
inductive Acts : List Frame → Token → Effect → Prop where
  | opening {frames : List Frame} (h : Accepts frames) :
      Acts frames .opening (.more (.elements [] :: frames))
  | mark {frames : List Frame} (h : Accepts frames) : Acts frames .mark (.more (.quotation :: frames))
  | tooDeep {frames : List Frame} {token : Token} (h : token = .opening ∨ token = .mark) :
      Acts frames token (.error .tooDeep)
  | text {frames : List Frame} (h : Accepts frames) (s : List Char) :
      Acts frames (.text s) (.value (.text (String.ofList s)) frames)
  | unclosedText {frames : List Frame} (h : Accepts frames) :
      Acts frames .unclosedText (.error .unclosedText)
  | atom {frames : List Frame} (h : Accepts frames) (name : List Char) :
      Acts frames (.atom name) (.value (ofAtom name) frames)
  | dot {seen : List Datum} {outer : List Frame} (h : seen ≠ []) :
      Acts (.elements seen :: outer) (.atom ['.']) (.more (.dotted seen :: outer))
  | leadingDot {outer : List Frame} : Acts (.elements [] :: outer) (.atom ['.']) (.error .misplacedDot)
  | closing {seen : List Datum} {outer : List Frame} :
      Acts (.elements seen :: outer) .closing (.value (onto nil seen) outer)
  | ended {whole : Datum} {outer : List Frame} :
      Acts (.closing whole :: outer) .closing (.value whole outer)
  | notEnded {whole : Datum} {outer : List Frame} {token : Token} (h : token ≠ .closing) :
      Acts (.closing whole :: outer) token (.error .misplacedDot)
  | unexpected {frames : List Frame} (h : ¬ Settled frames) :
      Acts frames .closing (.error .unexpectedClosing)

theorem acts_meet (h : Accepts frames) (token : Token) : Acts frames token (meet frames token) := by
  cases token with
  | opening =>
    show Acts _ _ (if _ then _ else _)
    split
    · exact .tooDeep (.inl rfl)
    · exact .opening h
  | mark =>
    show Acts _ _ (if _ then _ else _)
    split
    · exact .tooDeep (.inr rfl)
    · exact .mark h
  | text s => exact .text h s
  | unclosedText => exact .unclosedText h
  | closing =>
    match frames with
    | .elements seen :: outer => exact .closing
    | .closing whole :: outer => exact absurd rfl (h whole outer)
    | [] => exact .unexpected id
    | .quotation :: outer => exact .unexpected id
    | .dotted seen :: outer => exact .unexpected id
  | atom name =>
    match frames with
    | .elements seen :: outer =>
      show Acts _ _ (if name = ['.'] then _ else _)
      by_cases hdot : name = ['.']
      · subst hdot
        rw [if_pos rfl]
        by_cases hseen : seen = []
        · subst hseen
          exact .leadingDot
        · rw [if_neg hseen]
          exact .dot hseen
      · rw [if_neg hdot]
        exact .atom h name
    | [] => exact .atom h name
    | .quotation :: outer => exact .atom h name
    | .dotted seen :: outer => exact .atom h name
    | .closing whole :: outer => exact absurd rfl (h whole outer)

theorem acts (frames : List Frame) (token : Token) : Acts frames token (effect frames token) := by
  match frames with
  | .closing whole :: outer =>
    cases token with
    | closing => exact .ended
    | _ => exact .notEnded nofun
  | [] => exact acts_meet accepts_nil token
  | .quotation :: outer => exact acts_meet (accepts_quotation outer) token
  | .elements seen :: outer => exact acts_meet (accepts_elements seen outer) token
  | .dotted seen :: outer => exact acts_meet (accepts_dotted seen outer) token

/-- **A token that is no error** opens and closes the lists that it says. -/
theorem openLists_step (h : step frames token = .ok frames') :
    token ≠ .unclosedText ∧ openLists frames' = token.listsAfter (openLists frames) := by
  have hacts := acts frames token
  unfold step at h
  generalize effect frames token = e at h hacts
  cases hacts with
  | opening | mark | dot =>
    cases h
    exact ⟨nofun, rfl⟩
  | text | atom | closing | ended =>
    cases h
    exact ⟨nofun, (handOver_cases _ _).2⟩
  | tooDeep | unclosedText | leadingDot | notEnded | unexpected => cases h

/-! ## 3. Form by form -/

/-- Where more has to come something is unfinished. -/
theorem ne_nil_of_effect (h : effect frames token = .more frames') : frames' ≠ [] := by
  have hacts := acts frames token
  rw [h] at hacts
  cases hacts <;> exact List.cons_ne_nil _ _

/-- **A form is the first error, or leaves the verdict to what follows it.** -/
theorem verdict_eq (hne : frames = [] → Token.next? src ≠ none) :
    verdict frames (tokens src) =
      match parseFrom frames src with
      | .error e => some e
      | .ok (_, rest) => firstError rest := by
  induction hlen : src.length using Nat.strongRecOn generalizing frames src with
  | ind len ih =>
    cases hnext : Token.next? src with
    | none =>
      rw [tokens_none hnext, parseFrom_none hnext]
      cases frames with
      | nil => exact absurd hnext (hne rfl)
      | cons frame outer => rfl
    | some p =>
      obtain ⟨token, rest⟩ := p
      have hlt : rest.length < len := hlen ▸ Token.length_lt_of_next? hnext
      rw [tokens_some hnext, parseFrom_some hnext, verdict, step]
      cases heff : effect frames token with
      | error e => rfl
      | more frames₁ => exact ih _ hlt (fun hnil => absurd hnil (ne_nil_of_effect heff)) rfl
      | value d frames₁ =>
        simp only [handOver, finish]
        cases hd : deliver d frames₁ with
        | inl whole => rfl
        | inr frames₂ =>
          exact ih _ hlt (fun hnil => absurd hnil (settled_of_deliver hd).1.ne_nil) rfl

/-- **The first error of a text is that of its first form**, or else that of the text behind it. -/
theorem firstError_eq (src : List Char) :
    firstError src =
      match parse src with
      | .error e => some e
      | .ok (none, _) => none
      | .ok (some _, rest) => firstError rest := by
  unfold parse
  cases hnext : Token.next? src with
  | none =>
    rw [firstError, tokens_none hnext]
    rfl
  | some p =>
    have hne : ([] : List Frame) = [] → Token.next? src ≠ none := fun _ h => by
      rw [hnext] at h
      cases h
    rw [firstError, verdict_eq hne]
    cases parseFrom [] src <;> rfl

/-- A form takes something off the text. -/
theorem length_lt_of_parseFrom (h : parseFrom frames src = .ok (d, rest)) :
    rest.length < src.length := by
  induction hlen : src.length using Nat.strongRecOn generalizing frames src with
  | ind len ih =>
    cases hnext : Token.next? src with
    | none =>
      rw [parseFrom_none hnext] at h
      cases h
    | some p =>
      obtain ⟨token, rest₁⟩ := p
      have hlt : rest₁.length < len := hlen ▸ Token.length_lt_of_next? hnext
      rw [parseFrom_some hnext] at h
      split at h
      · cases h
      · exact (ih _ hlt h rfl).trans hlt
      · unfold finish at h
        split at h
        · cases h
          exact hlt
        · exact (ih _ hlt h rfl).trans hlt

end Datum

/-! ## 4. Runs of the reader -/

namespace Reader

variable {src rest : List Char} {c c' : Context} {r : EStateM.Result Fault Context (Option ReadError)}

/-- **A text is read form by form**, by one reader, up to the first error or to its end. -/
inductive Reads : List Char → Context → EStateM.Result Fault Context (Option ReadError) → Prop where
  | done {src rest : List Char} {c c' : Context} (h : read src c = .ok (.ok none, rest) c') :
      Reads src c (.ok none c')
  | failed {src rest : List Char} {c c' : Context} {e : ReadError}
      (h : read src c = .ok (.error e, rest) c') : Reads src c (.ok (some e) c')
  | fault {src : List Char} {c c' : Context} {f : Fault} (h : read src c = .error f c') :
      Reads src c (.error f c')
  | form {src rest : List Char} {c c' : Context} {v : Value}
      {r : EStateM.Result Fault Context (Option ReadError)}
      (h : read src c = .ok (.ok (some v), rest) c') (hrest : Reads rest c' r) : Reads src c r

/-- Every text is read to an end. -/
theorem exists_reads (hc : c.Sane) (src : List Char) : ∃ r, Reads src c r := by
  induction hlen : src.length using Nat.strongRecOn generalizing src c with
  | ind len ih =>
    cases hrun : read src c with
    | error f c' => exact ⟨_, .fault hrun⟩
    | ok p c' =>
      obtain ⟨hc', -, hanswer⟩ := (Attains.read hc src).ok hrun
      generalize hsaid : Datum.parse src = said at hanswer
      cases hanswer with
      | none => exact ⟨_, .done hrun⟩
      | error => exact ⟨_, .failed hrun⟩
      | @some v d rest hv =>
        have hlt : rest.length < len :=
          hlen ▸ Datum.length_lt_of_parseFrom (Datum.parseFrom_of_parse hsaid)
        obtain ⟨r, hr⟩ := ih _ hlt hc' rest rfl
        exact ⟨r, .form hrun hr⟩

/-- What a run of the reader over a text may end with. -/
def Ends (src : List Char) : EStateM.Result Fault Context (Option ReadError) → Prop
  | .ok e c' => e = Datum.firstError src ∧ c'.Sane
  | .error f _ => f = .heapExhausted

/-- **The reader meets the first error of the text**, or its end if there is none, unless the heap is
    exhausted. -/
theorem Reads.eq_firstError (hc : c.Sane) (h : Reads src c r) : Ends src r := by
  induction h with
  | done hrun =>
    obtain ⟨hc', -, hanswer⟩ := (Attains.read hc _).ok hrun
    rw [Ends, Datum.firstError_eq]
    generalize Datum.parse _ = said at hanswer
    cases hanswer
    exact ⟨rfl, hc'⟩
  | failed hrun =>
    obtain ⟨hc', -, hanswer⟩ := (Attains.read hc _).ok hrun
    rw [Ends, Datum.firstError_eq]
    generalize Datum.parse _ = said at hanswer
    cases hanswer
    exact ⟨rfl, hc'⟩
  | @fault src c c' f hrun =>
    have hattains := Attains.read hc src
    rw [Attains, hrun] at hattains
    exact hattains
  | form hrun _ ih =>
    obtain ⟨hc', -, hanswer⟩ := (Attains.read hc _).ok hrun
    have hends := ih hc'
    unfold Ends at hends ⊢
    rw [Datum.firstError_eq]
    generalize Datum.parse _ = said at hanswer
    cases hanswer
    exact hends

end Reader

end LispMachine
