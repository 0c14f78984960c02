import LispMachine.Proofs.Source.Completeness

/-!
# Texts that more text can finish

A text whose first error is that it ends too early can be finished: strings, quotations and lists are
closed one after the other. Any other error stays whatever follows:

* `Datum.verdict_closers`, `Datum.exists_finish` -- the tokens that finish what is unfinished;
* `Datum.exists_continuation` -- **a text that ends too early can be finished**;
* `Datum.firstError_append` -- **an error in front of the end stays**, but for a dot that more text may
  make part of a longer atom;
* `Reader.Reads.isIncomplete_iff` -- an error says that the source ends inside of a list or a string
  just if it does and more text can finish it, **unless a quote mark or a dot is what it ends with**;
* `Reader.reads_dot` -- such a source.
-/

namespace LispMachine

/-- The source ends too early. -/
def ReadError.isEnd : ReadError → Bool
  | unexpectedEnd | unclosedList | unclosedText => true
  | unexpectedClosing | tooDeep | misplacedDot => false

variable {frames frames' : List Frame} {src rest after : List Char} {token : Token} {e : ReadError}

namespace Datum

/-! ## 1. Finishing what is unfinished -/

theorem step_value {d : Datum} (h : effect frames token = .value d frames') :
    step frames token = .ok (handOver d frames') := by rw [step, h]

/-- A list that may end here ends, and so one less is open. -/
theorem step_closing (h : Settled frames) : ∃ frames', step frames .closing = .ok frames' ∧
    (frames' = [] ∨ Settled frames') ∧ openLists frames = openLists frames' + 1 := by
  match frames with
  | .elements seen :: outer =>
    obtain ⟨hsettled, hlists⟩ := handOver_cases (onto nil seen) outer
    exact ⟨_, rfl, hsettled, congrArg (· + 1) hlists.symm⟩
  | .closing whole :: outer =>
    obtain ⟨hsettled, hlists⟩ := handOver_cases whole outer
    exact ⟨_, rfl, hsettled, congrArg (· + 1) hlists.symm⟩

/-- **A parenthesis for each open list finishes all of them.** -/
theorem verdict_closers (h : frames = [] ∨ Settled frames) :
    verdict frames (List.replicate (openLists frames) .closing) = none := by
  induction hn : openLists frames generalizing frames with
  | zero =>
    rcases h with rfl | h
    · rfl
    · obtain ⟨_, -, -, hlists⟩ := step_closing h
      omega
  | succ n ih =>
    rcases h with rfl | h
    · cases hn
    · obtain ⟨frames', hstep, hsettled, hlists⟩ := step_closing h
      rw [List.replicate_succ, verdict_ok hstep]
      exact ih hsettled (by omega)

theorem tokens_closers (n : Nat) :
    tokens (List.replicate n ')') = List.replicate n .closing := by
  induction n with
  | zero => exact tokens_none rfl
  | succ n ih =>
    rw [List.replicate_succ, List.replicate_succ, tokens_some (Token.next?_closing _), ih]

/-- Where a datum has been handed over parentheses are enough. -/
theorem exists_finish_handOver (d : Datum) (frames : List Frame) :
    ∃ n, verdict (handOver d frames) (tokens (List.replicate n ')')) = none := by
  refine ⟨openLists (handOver d frames), ?_⟩
  rw [tokens_closers]
  exact verdict_closers (handOver_cases d frames).1

/-- **What is unfinished can be finished**: by a datum, where one is missing, and parentheses. -/
theorem exists_finish (frames : List Frame) : ∃ after, verdict frames (tokens after) = none := by
  have hdatum : effect frames (.atom ['0']) = .value (ofAtom ['0']) frames →
      ∃ after, verdict frames (tokens after) = none := fun heff => by
    obtain ⟨n, hn⟩ := exists_finish_handOver (ofAtom ['0']) frames
    have hbounded : Bounded (List.replicate n ')') := by
      cases n with
      | zero => exact bounded_nil
      | succ n =>
        intro c hc
        cases hc
        rfl
    have hnext := Token.next?_name (List.cons_ne_nil '0' []) (List.forall_mem_singleton.mpr rfl) hbounded
    exact ⟨_, by rw [tokens_some hnext, verdict_ok (step_value heff), hn]⟩
  match frames with
  | [] => exact ⟨[], by rw [tokens_none rfl]; rfl⟩
  | .quotation :: outer => exact hdatum rfl
  | .dotted seen :: outer => exact hdatum rfl
  | .elements seen :: outer =>
    exact ⟨_, by rw [tokens_closers]; exact verdict_closers (.inr trivial)⟩
  | .closing whole :: outer =>
    exact ⟨_, by rw [tokens_closers]; exact verdict_closers (.inr trivial)⟩

/-! ## 2. Continuations -/

/-- The error of a token that leaves its place to others is that of a string that is not closed. -/
theorem unclosedText_of_step (h : step frames token = .error e) (he : e.isEnd = true) :
    token = .unclosedText ∧ Accepts frames := by
  have hacts := acts frames token
  unfold step at h
  generalize effect frames token = eff at h hacts
  cases hacts with
  | unclosedText haccepts => exact ⟨rfl, haccepts⟩
  | tooDeep | leadingDot | notEnded | unexpected =>
    cases h
    cases he
  | opening | mark | text | atom | dot | closing | ended => cases h

/-- **A text that ends too early can be finished.** -/
theorem exists_continuation (h : ∀ e, verdict frames (tokens src) = some e → e.isEnd = true) :
    ∃ after, (src = [] → Bounded after) ∧ verdict frames (tokens (src ++ after)) = none := by
  induction hlen : src.length using Nat.strongRecOn generalizing frames src with
  | ind len ih =>
    cases hnext : Token.next? src with
    | none =>
      obtain ⟨after, hafter⟩ := exists_finish frames
      refine ⟨'\n' :: after, fun _ => bounded_newline after, ?_⟩
      rw [tokens_congr (Token.next?_newline_of_none hnext), hafter]
    | some p =>
      obtain ⟨token, rest⟩ := p
      have hlt : rest.length < len := hlen ▸ Token.length_lt_of_next? hnext
      have hne : src ≠ [] := by
        rintro rfl
        cases hnext
      rw [tokens_some hnext] at h
      cases hstep : step frames token with
      | error e =>
        obtain ⟨rfl, haccepts⟩ := unclosedText_of_step hstep (h e (verdict_error hstep _))
        obtain ⟨close, s, hclose⟩ := Token.next?_close hnext
        have heff : effect frames (.text s) = .value (.text (String.ofList s)) frames :=
          effect_eq_meet haccepts _
        obtain ⟨n, hn⟩ := exists_finish_handOver (.text (String.ofList s)) frames
        refine ⟨close ++ List.replicate n ')', fun heq => absurd heq hne, ?_⟩
        rw [tokens_some (hclose _), verdict_ok (step_value heff), hn]
      | ok frames₁ =>
        rw [verdict_ok hstep] at h
        obtain ⟨after, hbounded, hafter⟩ := ih _ hlt h rfl
        refine ⟨after, fun heq => absurd heq hne, ?_⟩
        have hmore := Token.next?_bounded_append hnext (openLists_step hstep).1 fun name hname => by
          by_cases hrest : rest = []
          · rw [hrest]
            exact hbounded hrest
          · exact (Token.bounded_of_next? (hname ▸ hnext)).append hrest
        rw [tokens_some hmore, verdict_ok hstep, hafter]

/-! ## 3. Errors that stay -/

/-- An atom at the end of a text is what the text ends with. -/
theorem suffix_of_next?_atom {name : List Char} (h : Token.next? src = some (.atom name, [])) :
    name <:+ src := by
  obtain ⟨c, cs, hskip, hstarts⟩ := Token.starts_of_next? h
  generalize hrest : ([] : List Char) = rest at hstarts
  cases hstarts with
  | atom hc =>
    have hall := List.takeWhile_append_dropWhile (p := (!endsAtom ·)) (l := cs)
    rw [← hrest, List.append_nil] at hall
    rw [hall, ← hskip]
    exact skipBlank_suffix src

/-- More text makes no closing parenthesis of another token. -/
theorem next?_append_ne_closing (h : Token.next? src = some (token, rest)) (htoken : token ≠ .closing)
    (after : List Char) :
    ∃ token' rest', Token.next? (src ++ after) = some (token', rest') ∧ token' ≠ .closing := by
  obtain ⟨c, cs, hskip, hstarts⟩ := Token.starts_of_next? h
  have hc : c ≠ ')' := by
    rintro rfl
    cases hstarts with
    | closing => exact htoken rfl
    | opening hc | mark hc | text hc | unclosedText hc | atom hc => cases hc
  refine ⟨_, _, by rw [Token.next?, skipBlank, skipBlankFrom_append hskip], fun hclosing => ?_⟩
  unfold Token.startingWith at hclosing
  split_ifs at hclosing
  split at hclosing <;> cases hclosing

/-- **An error of a token stays** whatever follows, unless it is a dot at the end of the text. -/
theorem step_append (hnext : Token.next? src = some (token, rest)) (h : step frames token = .error e)
    (he : e.isEnd = false) (hdot : e = .misplacedDot → src.getLast? ≠ some '.') (after : List Char) :
    ∃ token' rest', Token.next? (src ++ after) = some (token', rest') ∧
      step frames token' = .error e := by
  have hsame : token ≠ .unclosedText → (∀ name, token = .atom name → rest ≠ []) →
      ∃ token' rest', Token.next? (src ++ after) = some (token', rest') ∧
        step frames token' = .error e := fun htoken hrest =>
    ⟨token, rest ++ after, Token.next?_bounded_append hnext htoken fun name hname =>
      (Token.bounded_of_next? (hname ▸ hnext)).append (hrest name hname), h⟩
  have hacts := acts frames token
  have hstep := h
  unfold step at h
  generalize effect frames token = eff at h hacts
  cases hacts with
  | tooDeep htoken =>
    cases h
    rcases htoken with rfl | rfl
    · exact hsame nofun nofun
    · exact hsame nofun nofun
  | unexpected =>
    cases h
    exact hsame nofun nofun
  | leadingDot =>
    cases h
    refine hsame nofun fun name hname hrest => ?_
    cases hname
    subst hrest
    obtain ⟨before, rfl⟩ := suffix_of_next?_atom hnext
    exact hdot rfl (by simp)
  | notEnded htoken =>
    cases h
    obtain ⟨token', rest', hmore, hne⟩ := next?_append_ne_closing hnext htoken after
    refine ⟨token', rest', hmore, ?_⟩
    cases token' with
    | closing => exact absurd rfl hne
    | opening | mark | text | unclosedText | atom => rfl
  | unclosedText =>
    cases h
    cases he
  | opening | mark | text | atom | dot | closing | ended => cases h

/-- An error in front of the end is one of some token. -/
theorem ne_nil_of_verdict (h : verdict frames (tokens src) = some e) (he : e.isEnd = false) :
    src ≠ [] := by
  rintro rfl
  rw [tokens_none rfl] at h
  match frames with
  | .quotation :: _ | .elements _ :: _ | .dotted _ :: _ | .closing _ :: _ =>
    cases h
    cases he

/-- **An error in front of the end stays** whatever follows, unless it is a dot that the text ends
    with. -/
theorem verdict_append (h : verdict frames (tokens src) = some e) (he : e.isEnd = false)
    (hdot : e = .misplacedDot → src.getLast? ≠ some '.') (after : List Char) :
    verdict frames (tokens (src ++ after)) = some e := by
  induction hlen : src.length using Nat.strongRecOn generalizing frames src with
  | ind len ih =>
    cases hnext : Token.next? src with
    | none =>
      rw [tokens_none hnext] at h
      match frames with
      | .quotation :: _ | .elements _ :: _ | .dotted _ :: _ | .closing _ :: _ =>
        cases h
        cases he
    | some p =>
      obtain ⟨token, rest⟩ := p
      have hlt : rest.length < len := hlen ▸ Token.length_lt_of_next? hnext
      rw [tokens_some hnext] at h
      cases hstep : step frames token with
      | error e' =>
        rw [verdict_error hstep] at h
        cases h
        obtain ⟨token', rest', hmore, hstep'⟩ := step_append hnext hstep he hdot after
        rw [tokens_some hmore, verdict_error hstep']
      | ok frames₁ =>
        rw [verdict_ok hstep] at h
        have hne := ne_nil_of_verdict h he
        obtain ⟨before, rfl⟩ := Token.suffix_of_next? hnext
        have hlast : e = .misplacedDot → rest.getLast? ≠ some '.' := fun heq => by
          have hsrc := hdot heq
          rwa [List.getLast?_append_of_ne_nil _ hne] at hsrc
        rw [tokens_some (Token.next?_append_of_ne_nil hnext (openLists_step hstep).1 hne),
          verdict_ok hstep]
        exact ih _ hlt h hlast rfl

theorem firstError_append (h : firstError src = some e) (he : e.isEnd = false)
    (hdot : e = .misplacedDot → src.getLast? ≠ some '.') (after : List Char) :
    firstError (src ++ after) = some e := verdict_append h he hdot after

end Datum

/-! ## 4. The reader -/

namespace Reader

variable {c c' : Context} {x : Option ReadError}

/-- **A text can be read to its end without error**, in some context with the room for it. -/
def Readable (src : List Char) : Prop := ∃ c c', c.Sane ∧ Reads src c (.ok none c')

theorem readable_iff : Readable src ↔ Datum.firstError src = none := by
  constructor
  · rintro ⟨c, c', hc, hr⟩
    exact (hr.eq_firstError hc).1.symm
  · intro h
    obtain ⟨c, c', hc, hr⟩ := exists_reads_firstError src
    exact ⟨c, c', hc, h ▸ hr⟩

/-- A text whose first error is that it ends too early can be finished. -/
theorem Reads.exists_readable (hc : c.Sane) (h : Reads src c (.ok (some e) c'))
    (he : e.isEnd = true) : ∃ after, Readable (src ++ after) := by
  obtain ⟨hfirst, -⟩ := h.eq_firstError hc
  have hend : ∀ e', Datum.verdict [] (tokens src) = some e' → e'.isEnd = true := fun e' he' => by
    cases hfirst.trans he'
    exact he
  obtain ⟨after, -, hafter⟩ := Datum.exists_continuation hend
  exact ⟨after, readable_iff.mpr hafter⟩

/-- **The first error of a text says that the text ends inside of a list or a string just if that is so
    and more text can finish it** -- unless the text ends behind a quote mark or the dot of a list,
    where the error is that of an unexpected end, or with a dot right behind a parenthesis. -/
theorem Reads.isIncomplete_iff (hc : c.Sane) (h : Reads src c (.ok x c')) :
    (∃ e, x = some e ∧ e.isIncomplete = true) ↔
      isComplete src = false ∧ (∃ after, Readable (src ++ after)) ∧ x ≠ some .unexpectedEnd ∧
        ¬ (x = some .misplacedDot ∧ src.getLast? = some '.') := by
  have hagrees : Agrees src (.ok x c') := (isComplete_of_reads hc src).2 _ h
  constructor
  · rintro ⟨e, rfl, hincomplete⟩
    refine ⟨hagrees hincomplete, h.exists_readable hc ?_, ?_, ?_⟩
    · cases e <;> first | rfl | cases hincomplete
    · rintro ⟨⟩
      cases hincomplete
    · rintro ⟨⟨⟩, -⟩
      cases hincomplete
  · rintro ⟨hopen, ⟨after, hafter⟩, hend, hdot⟩
    cases x with
    | none =>
      rw [show isComplete src = true from hagrees] at hopen
      cases hopen
    | some e =>
      refine ⟨e, rfl, ?_⟩
      by_contra hincomplete
      have he : e.isEnd = false := by
        cases e with
        | unexpectedEnd => exact absurd rfl hend
        | unclosedList | unclosedText => exact absurd rfl hincomplete
        | unexpectedClosing | tooDeep | misplacedDot => rfl
      have hstays := Datum.firstError_append (h.eq_firstError hc).1.symm he
        (fun heq hlast => hdot ⟨congrArg some heq, hlast⟩) after
      rw [readable_iff.mp hafter] at hstays
      cases hstays

/-- A string that is not closed, inside of a list. -/
theorem isIncomplete_iff_string : ∃ c c', c.Sane ∧
    Reads "b (a \"c".toList c (.ok (some .unclosedText) c') ∧
      isComplete "b (a \"c".toList = false ∧ ∃ after, Readable ("b (a \"c".toList ++ after) := by
  obtain ⟨c, c', hc, hr⟩ := exists_reads_firstError "b (a \"c".toList
  have herror : Datum.firstError "b (a \"c".toList = some .unclosedText := by with_unfolding_all rfl
  rw [herror] at hr
  obtain ⟨hopen, hafter, -⟩ := (hr.isIncomplete_iff hc).mp ⟨_, rfl, rfl⟩
  exact ⟨c, c', hc, hr, hopen, hafter⟩

/-- **Behind the dot of a list the end of a source is no such error**, though the list is open and may be
    finished. -/
theorem reads_dot : ∃ c c', c.Sane ∧ Reads "(a .".toList c (.ok (some .unexpectedEnd) c') ∧
    ReadError.unexpectedEnd.isIncomplete = false ∧ isComplete "(a .".toList = false ∧
      Readable ("(a .".toList ++ " b)".toList) := by
  obtain ⟨c, c', hc, hr⟩ := exists_reads_firstError "(a .".toList
  have herror : Datum.firstError "(a .".toList = some .unexpectedEnd := by with_unfolding_all rfl
  rw [herror] at hr
  exact ⟨c, c', hc, hr, rfl, by decide, readable_iff.mpr (by with_unfolding_all rfl)⟩

end Reader

end LispMachine
