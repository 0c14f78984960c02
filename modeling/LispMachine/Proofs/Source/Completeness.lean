import LispMachine.Proofs.Source.Supply

/-!
# Complete texts and the reader

`isComplete` counts parentheses without reading. The reader has the same lists open between any two
tokens, as long as it has met no error:

* `Datum.isClosed_of_verdict` -- **where the tokens end without error nothing is open, and where they end
  inside of a list or a string something is**;
* `Reader.isComplete_of_reads` -- the same of a text and `isComplete`.
-/

namespace LispMachine

variable {frames : List Frame} {src : List Char} {e : ReadError}

namespace Datum

/-- Inside of a list that may end there is a list open. -/
theorem openLists_pos_of_atEnd {frame : Frame} {outer : List Frame}
    (h : (atEnd (frame :: outer)).isIncomplete = true) : 0 < openLists (frame :: outer) := by
  cases frame with
  | elements | closing => exact Nat.succ_pos _
  | quotation | dotted => cases h

/-- **The scan agrees with the first error**: it ends closed if there is none, and open if the text ends
    inside of a list or a string. -/
theorem isClosed_of_verdict (frames : List Frame) (src : List Char) :
    (verdict frames (tokens src) = none →
      (src.foldl Scan.step (.skipping (openLists frames) false)).isClosed = true) ∧
    ∀ e, verdict frames (tokens src) = some e → e.isIncomplete = true →
      (src.foldl Scan.step (.skipping (openLists frames) false)).isClosed = false := by
  induction hlen : src.length using Nat.strongRecOn generalizing frames src with
  | ind len ih =>
    cases hnext : Token.next? src with
    | none =>
      rw [tokens_none hnext, Scan.isClosed_of_next?_none hnext]
      cases frames with
      | nil => exact ⟨fun _ => rfl, nofun⟩
      | cons frame outer =>
        refine ⟨nofun, fun e he hincomplete => decide_eq_false ?_⟩
        cases he
        exact (openLists_pos_of_atEnd hincomplete).ne'
    | some p =>
      obtain ⟨token, rest⟩ := p
      have hlt : rest.length < len := hlen ▸ Token.length_lt_of_next? hnext
      rw [tokens_some hnext]
      cases hstep : step frames token with
      | ok frames₁ =>
        obtain ⟨htoken, hlists⟩ := openLists_step hstep
        rw [verdict_ok hstep, Scan.foldl_of_next? hnext htoken, ← hlists]
        exact ih _ hlt frames₁ rest rfl
      | error e =>
        rw [verdict_error hstep]
        refine ⟨nofun, fun e he hincomplete => ?_⟩
        cases he
        have hacts := acts frames token
        unfold step at hstep
        generalize effect frames token = eff at hstep hacts
        -- the one error of a token that says that more may follow
        cases hacts with
        | unclosedText => exact Scan.isClosed_of_unclosedText hnext
        | tooDeep | leadingDot | notEnded | unexpected =>
          cases hstep
          cases hincomplete
        | opening | mark | text | atom | dot | closing | ended => cases hstep

end Datum

namespace Reader

variable {c : Context} {r : EStateM.Result Fault Context (Option ReadError)}

/-- What `isComplete` says of a text that a run of the reader ends with. -/
def Agrees (src : List Char) : EStateM.Result Fault Context (Option ReadError) → Prop
  | .ok none _ => isComplete src = true
  | .ok (some e) _ => e.isIncomplete = true → isComplete src = false
  | .error f _ => f = .heapExhausted

/-- **`isComplete` agrees with the reader.** Every text is read form by form to an end, if the heap is not
    exhausted. If that is the end of the text, the text is complete; if it is an error that says that
    the text ends inside of a list or a string, it is not. -/
theorem isComplete_of_reads (hc : c.Sane) (src : List Char) :
    (∃ r, Reads src c r) ∧ ∀ r, Reads src c r → Agrees src r := by
  refine ⟨exists_reads hc src, fun r hr => ?_⟩
  have hends := hr.eq_firstError hc
  have hclosed := Datum.isClosed_of_verdict [] src
  cases r with
  | error f c' => exact hends
  | ok e c' =>
    cases e with
    | none => exact hclosed.1 hends.1.symm
    | some e => exact hclosed.2 e hends.1.symm

/-- A parenthesis in a string, and one in a comment. -/
theorem isComplete_of_reads_unclosed : ∃ c c', c.Sane ∧
    Reads "a (\"(\" b ; )".toList c (.ok (some .unclosedList) c') ∧
      isComplete "a (\"(\" b ; )".toList = false := by
  obtain ⟨c, c', hc, hr⟩ := exists_reads_firstError "a (\"(\" b ; )".toList
  have herror : Datum.firstError "a (\"(\" b ; )".toList = some .unclosedList := by with_unfolding_all rfl
  rw [herror] at hr
  exact ⟨c, c', hc, hr, (isComplete_of_reads hc _).2 _ hr rfl⟩

end Reader

end LispMachine
