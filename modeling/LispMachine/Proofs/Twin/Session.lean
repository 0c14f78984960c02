import LispMachine.Probe
import LispMachine.Proofs.Twin.Creation

/-!
# What can be seen of a session

Texts are given to a context one after the other, and after each of them the caller looks at what it
came to. Nothing of what is seen depends on how large the heap and the symbol table were made:

* `Context.Report` -- what a caller sees after one text;
* `Context.session` -- several texts, and the report after each;
* `Context.seen` -- the reports and the printed text, or the fault that ended the session;
* `Leads.session` -- matched contexts lead to the same reports, by induction on the texts;
* `Context.seen_session_eq` -- **collections cannot be seen**.
-/

namespace LispMachine

variable {lex : Lexicon} {γ : Value × Value} {D : Couple} {host : Host} {v v' : Value}

namespace Context

/-! ## 1. Sessions -/

/-- What a caller sees after a text. -/
structure Report where
  /-- The printed form of the value. -/
  text : String
  failing : Bool
  /-- The failure message. -/
  failure : String
  deriving DecidableEq, Repr

/-- What is seen with the value of a text. -/
def report (v : Value) (c : Context) : Report where
  text := c.display v
  failing := c.failing
  failure := c.failure

/-- Runs texts one after the other, each with or without an echo of its values, and reports after
    each. -/
def session (host : Host) : List (String × Bool) → Run (List Report)
  | [] => pure []
  | (source, echo) :: texts => do
    let v ← exec host source echo
    let seen ← observe (report v)
    let later ← session host texts
    pure (seen :: later)

/-- What is done after a text has been run. -/
def goOn (host : Host) (texts : List (String × Bool)) (v : Value) : Run (List Report) := do
  let seen ← observe (report v)
  let later ← session host texts
  pure (seen :: later)

theorem session_cons (host : Host) (source : String) (echo : Bool) (texts : List (String × Bool)) :
    session host ((source, echo) :: texts) = exec host source echo >>= goOn host texts := rfl

/-- What can be seen of a run from outside: what it gave, and what has been printed. -/
def seen {α : Type} : EStateM.Result Fault Context α → Except Fault α × String
  | .ok a c => (.ok a, c.output)
  | .error e c => (.error e, c.output)

/-- The reports after a value and one that corresponds to it are the same. -/
theorem report_eq (hplain : lex.nested = false) (hD : D.Matched lex γ)
    (hv : D.world.Rel (.just .data) v v') : report v D.left = report v' D.right := by
  unfold report
  rw [hD.display_eq hv.same, hD.failing, hD.failure.plain hplain]

end Context

/-! ## 2. Both sides -/

namespace Leads

/-- The same is reported after a text, if that is so of the texts behind it. -/
theorem goOn {texts : List (String × Bool)} (hplain : lex.nested = false)
    (hD : D.Matched lex (.nil, .nil)) (hv : D.world.Rel (.just .data) v v')
    (hlater : Steps lex Shape.Fixed 0 D (Context.session host texts) (Context.session host texts)
      (fun _ _ seen seen' => seen = seen')) :
    Steps lex Shape.Fixed 0 D (Context.goOn host texts v) (Context.goOn host texts v')
      (fun _ _ seen seen' => seen = seen') := by
  refine observe (andThen hD hlater (Nat.le_refl 0) fun {γ₂ D₂ _ _} hD₂ _ hq => ?_)
  subst hq
  exact pure hD₂ (Nat.zero_le _) (congrArg (· :: _) (Context.report_eq hplain hD hv))

/-- **The same is reported on both sides.** -/
theorem session (texts : List (String × Bool)) (hplain : lex.nested = false)
    (hfull : lex.vacant = none) (hD : D.Matched lex (.nil, .nil)) (hlex : Lexical lex D) :
    Steps lex Shape.Fixed 0 D (Context.session host texts) (Context.session host texts)
      (fun _ _ seen seen' => seen = seen') := by
  induction texts generalizing D with
  | nil => exact pure hD (Nat.zero_le _) rfl
  | cons text texts ih =>
    obtain ⟨source, echo⟩ := text
    rw [Context.session_cons]
    refine andThen hD (exec hplain hfull hD hlex source echo) (Nat.le_refl 0)
      fun {γ₁ D₁ v v'} hD₁ _ hq => ?_
    obtain ⟨rfl, hlex₁, hv⟩ := hq
    exact goOn hplain hD₁ hv (ih hD₁ hlex₁)

end Leads

/-- Outcomes that agree look the same, unless a heap was exhausted, if the same had been printed
    before. -/
theorem Agree.seen_eq_of_said {α : Type} {S : Shape → Prop} {n : Nat}
    {P : Value × Value → Couple → α → α → Prop} {r r' : EStateM.Result Fault Context α}
    (h : Agree lex S n D P r r') (hsaid : lex.said.1 = lex.said.2)
    (hP : ∀ {γ D a a'}, P γ D a a' → a = a') (hr : (Context.seen r).1 ≠ .error .heapExhausted)
    (hr' : (Context.seen r').1 ≠ .error .heapExhausted) : Context.seen r = Context.seen r' := by
  cases h with
  | ok hg _ hq =>
    obtain rfl := hP hq
    exact congrArg (Prod.mk _) (hg.output.eq hsaid)
  | fault hout => simp only [Context.seen, hout.eq hsaid]
  | exhausted_left _ => exact absurd rfl hr
  | exhausted_right => exact absurd rfl hr'

/-- So it is if nothing had been printed. -/
theorem Agree.seen_eq {α : Type} {S : Shape → Prop} {n : Nat}
    {P : Value × Value → Couple → α → α → Prop} {r r' : EStateM.Result Fault Context α}
    (h : Agree lex S n D P r r') (hsaid : lex.said = ("", ""))
    (hP : ∀ {γ D a a'}, P γ D a a' → a = a') (hr : (Context.seen r).1 ≠ .error .heapExhausted)
    (hr' : (Context.seen r').1 ≠ .error .heapExhausted) : Context.seen r = Context.seen r' :=
  h.seen_eq_of_said (by rw [hsaid]) hP hr hr'

namespace Context

variable {cfg cfg' : Config} {c c' : Context}

/-- **Collections cannot be seen.** Two standard contexts that allow the same depth report and print
    the same, whatever chunks, growth and symbol tables they were made with. -/
theorem seen_session_eq (hdepth : cfg.maxDepth = cfg'.maxDepth) (hc : create cfg = .ok c)
    (hc' : create cfg' = .ok c') (texts : List (String × Bool))
    (hleft : (seen (session host texts c)).1 ≠ .error .heapExhausted)
    (hright : (seen (session host texts c')).1 ≠ .error .heapExhausted) :
    seen (session host texts c) = seen (session host texts c') := by
  obtain ⟨lex, W, σ, hplain, huntouched, hD, hlex⟩ := create_matched hdepth hc hc'
  exact (Leads.session texts hplain huntouched.full hD hlex).seen_eq huntouched.said id hleft hright

/-- A heap of one chunk. -/
def compact : Config where
  chunkCells := 128
  growth := .fixed
  symbolCapacity := 64

/-- A heap that grows, after a collection, while the context is made. -/
def scattered : Config where
  chunkCells := 64
  growth := .upTo 2

/-- A text that collects, and prints how many cells are in use. -/
def collecting : List (String × Bool) := [("(gc)", true)]

/-- A context can be made, and has room for texts. -/
def HasRoom (cfg : Config) (texts : List (String × Bool)) : Prop :=
  ∃ c, create cfg = .ok c ∧ (seen (session Probe.host texts c)).1 ≠ .error .heapExhausted

theorem hasRoom_iff {texts : List (String × Bool)} :
    HasRoom cfg texts ↔ (create cfg).toOption.any (fun c =>
      (seen (session Probe.host texts c)).1 ≠ .error .heapExhausted) = true := by
  unfold HasRoom
  cases create cfg <;> simp [Except.toOption]

instance (texts : List (String × Bool)) : Decidable (HasRoom cfg texts) :=
  decidable_of_iff' _ hasRoom_iff

theorem seen_session_eq_collecting :
    compact.maxDepth = scattered.maxDepth ∧ HasRoom compact collecting ∧
      HasRoom scattered collecting ∧ ∃ c c', create compact = .ok c ∧ create scattered = .ok c' ∧
        seen (session Probe.host collecting c) = seen (session Probe.host collecting c') := by
  have hleft : HasRoom compact collecting := by decide +kernel
  have hright : HasRoom scattered collecting := by decide +kernel
  have hdepth : compact.maxDepth = scattered.maxDepth := rfl
  refine ⟨hdepth, hleft, hright, ?_⟩
  obtain ⟨c, hc, hroom⟩ := hleft
  obtain ⟨c', hc', hroom'⟩ := hright
  exact ⟨c, c', hc, hc', seen_session_eq hdepth hc hc' collecting hroom hroom'⟩

/-- The natives do not fit into a heap of one cell. -/
example : ¬ HasRoom { compact with chunkCells := 1 } [] := by decide +kernel

end Context

end LispMachine
