import LispMachine.Proofs.Failure.Lines
import Mathlib.Data.String.Basic

/-!
# What the message of a failure says

A program may run for long, with any messages and any names, and the embedding program may fail, reset
and go on in between. Whenever the state is failing:

* `Text.clipped_clip` -- a text is clipped to its longest prefix that fits and ends between characters;
* `Machine.Stride`, `Machine.Strides` -- steps of the machine, and what the embedding program does between
  two runs; `Machine.Raised` -- the stride that a failure comes from;
* `Machine.Unwound` -- the lines that have come to the message since;
* `Machine.Account`, `Machine.Account.stride` -- **the invariant of a failing state**: the message is these
  lines, the outermost function in front, and then the text of the failure, clipped;
* `Machine.Strides.account` -- so it is in every failing state, which a later failure does not change.
-/

namespace LispMachine

open Context

/-! ## 1. Clipping -/

/-- **A text clipped to a number of bytes**: its longest prefix that is no longer. Prefixes end between
    two characters. -/
structure Text.Clipped (cap : Nat) (s clipped : String) : Prop where
  cut : ∃ rest, s = clipped ++ rest
  fits : clipped.utf8ByteSize ≤ cap
  longest : ∀ t rest, s = t ++ rest → t.utf8ByteSize ≤ cap → ∃ more, clipped = t ++ more

namespace Text

open String (utf8Len)

theorem clipChars_cons (room : Nat) (c : Char) (cs : List Char) : clipChars room (c :: cs) =
    if c.utf8Size ≤ room then c :: clipChars (room - c.utf8Size) cs else [] := rfl

theorem clipChars_prefix (room : Nat) (cs : List Char) : clipChars room cs <+: cs := by
  induction cs generalizing room with
  | nil => exact List.prefix_rfl
  | cons c cs ih =>
    rw [clipChars_cons]
    split
    · exact (List.prefix_cons_inj c).mpr (ih _)
    · exact List.nil_prefix

theorem utf8Len_clipChars_le (room : Nat) (cs : List Char) : utf8Len (clipChars room cs) ≤ room := by
  induction cs generalizing room with
  | nil => exact Nat.zero_le room
  | cons c cs ih =>
    rw [clipChars_cons]
    split
    · have hrest := ih (room - c.utf8Size)
      rw [String.utf8Len_cons]
      omega
    · exact Nat.zero_le room

theorem prefix_clipChars {room : Nat} {t cs : List Char} (ht : t <+: cs) (hfits : utf8Len t ≤ room) :
    t <+: clipChars room cs := by
  induction t generalizing room cs with
  | nil => exact List.nil_prefix
  | cons c t ih =>
    obtain ⟨rest, rfl⟩ := ht
    rw [String.utf8Len_cons] at hfits
    rw [List.cons_append, clipChars_cons, if_pos (by omega)]
    exact (List.prefix_cons_inj c).mpr (ih ⟨rest, rfl⟩ (by omega))

theorem clipped_clip (cap : Nat) (s : String) : Clipped cap s (clip cap s) where
  cut := by
    obtain ⟨rest, hrest⟩ := clipChars_prefix cap s.toList
    refine ⟨String.ofList rest, ?_⟩
    rw [clip, ← String.ofList_append, hrest, String.ofList_toList]
  fits := by
    rw [clip, String.utf8ByteSize_ofList]
    exact utf8Len_clipChars_le cap s.toList
  longest t rest hs hfits := by
    have ht : t.toList <+: s.toList := ⟨rest.toList, by rw [hs, String.toList_append]⟩
    have hlen : utf8Len t.toList ≤ cap := by
      rwa [← String.utf8ByteSize_ofList, String.ofList_toList]
    obtain ⟨more, hmore⟩ := prefix_clipChars ht hlen
    refine ⟨String.ofList more, ?_⟩
    rw [clip, ← hmore, String.ofList_append, String.ofList_toList]

end Text

namespace Machine

/-! ## 2. Strides -/

/-- **A step of the machine, or what the embedding program does between two runs**: when nothing waits
    for the value, it may do whatever touches the state of failure through `Context.fail` and
    `Context.reset` only, and give the machine another task. -/
inductive Stride (host : Host) : State → State → Prop where
  | step {σ σ' : State} (h : Step host σ σ') : Stride host σ σ'
  | between {α : Type} {x : Run α} {a : α} {c c' : Context} {v : Value} {task : Task}
      (hx : Truthful x) (hrun : x c = .ok a c') : Stride host ⟨c, .give v, []⟩ ⟨c', task, []⟩

/-- Strides lead from one state to the other. -/
abbrev Strides (host : Host) : State → State → Prop := Relation.ReflTransGen (Stride host)

/-- **A stride that raises a failure** with a message, where nothing has failed before. -/
inductive Raised (host : Host) (message : String) : State → State → Prop where
  | step {σ σ' : State} (h : Step host σ σ') (hraises : Raises message (σ.action host) σ.context) :
      Raised host message σ σ'
  | between {α : Type} {x : Run α} {a : α} {c c' : Context} {v : Value} {task : Task}
      (hx : Truthful x) (hrun : x c = .ok a c') (hraises : Raises message x c) :
      Raised host message ⟨c, .give v, []⟩ ⟨c', task, []⟩

/-- **What a stride says of failure**, as an action does. -/
inductive Tells (host : Host) (σ σ' : State) : Verdict → Prop where
  | silent : Tells host σ σ' σ.context.verdict
  | cleared : Tells host σ σ' { failing := false, message := "" }
  | raised {message : String} (h : Raised host message σ σ') :
      Tells host σ σ' { failing := true, message := Text.clip failureCap message }

section Strides

variable {host : Host} {origin σ σ' σ₁ : State} {message : String}

/-- A run of the machine is made of strides. -/
theorem Strides.of_reaches (h : Reaches host σ σ') : Strides host σ σ' := h.lift id fun _ _ hs => .step hs

/-- **Every stride settles** what it says of failure. -/
theorem Stride.settles (hhost : host.Candid) (hm : Stride host σ σ') :
    ∃ v, Tells host σ σ' v ∧ Settles v σ σ' := by
  cases hm with
  | step hs =>
    obtain ⟨v, hsaid, hsettles⟩ := hs.settles hhost
    refine ⟨v, ?_, hsettles⟩
    cases hsaid with
    | silent => exact .silent
    | cleared => exact .cleared
    | raised h => exact .raised (.step hs h)
  | @between α x a c c' v task hx hrun =>
    refine ⟨c'.verdict, ?_, .stays rfl rfl rfl⟩
    have hsaid := (hx.candid hrun).1
    generalize c'.verdict = w at hsaid
    cases hsaid with
    | silent => exact .silent
    | cleared => exact .cleared
    | raised h => exact .raised (.between hx hrun h)

/-! ## 3. Lines of functions -/

/-- A line of traceback: the name of the function that was over, and the functions that it ran in, the
    innermost in front. -/
structure Line where
  name : String
  around : List Closure

/-- The text of a line. -/
def Line.text (l : Line) : String := line l.name

/-- A stride with the line that comes in front of the message, if one does: it is that of the innermost
    function that is running. -/
inductive Leaves (host : Host) : State → List Line → State → Prop where
  | silent {σ σ' : State} (hm : Stride host σ σ') (hfailing : σ'.context.failing = true) :
      Leaves host σ [] σ'
  | line {σ σ' : State} {f : Closure} {around : List Closure} (hm : Stride host σ σ')
      (hfailing : σ'.context.failing = true) (hrunning : σ.running = f :: around)
      (hname : f.name.isSym = true) :
      Leaves host σ [{ name := σ'.context.display f.name, around }] σ'

/-- **A failure is on its way out**: it has been raised in the first state, the state has been failing
    since, and these lines have come to the message, the last one in front. -/
inductive Unwound (host : Host) (message : String) (σ₁ : State) : List Line → State → Prop where
  | raised {lines : List Line} {σ : State} (hraised : Raised host message σ₁ σ)
      (hp : Leaves host σ₁ lines σ) : Unwound host message σ₁ lines σ
  | stride {lines new : List Line} {ρ σ : State} (h : Unwound host message σ₁ lines ρ)
      (hp : Leaves host ρ new σ) : Unwound host message σ₁ (new ++ lines) σ

/-- **What is true of a failing state**: its message is the lines that have come since the failure, in
    which no function stands behind one that it ran around, and then the text of the failure. -/
structure Account (host : Host) (message : String) (σ₁ : State) (lines : List Line) (σ : State) :
    Prop where
  unwound : Unwound host message σ₁ lines σ
  outermost_first : lines.Pairwise fun front behind => front.around <:+ behind.around
  /-- What runs now ran around all that is over. -/
  within : ∀ l ∈ lines, σ.bodies <:+ l.around
  text : σ.context.failure = String.join (lines.map Line.text) ++ Text.clip failureCap message
  bounded : σ.context.failure.utf8ByteSize ≤ failureCap

/-- What a stride makes of a failing state: a line may come, and no function begins that is not over. -/
theorem Settles.passes {v : Verdict} (hm : Stride host σ σ') (hsettles : Settles v σ σ')
    (hfailing : σ'.context.failing = true) : v.failing = true ∧ σ'.bodies <:+ σ.bodies ∧
      ((Leaves host σ [] σ' ∧ σ'.context.failure = v.message) ∨
        ∃ l : Line, Leaves host σ [l] σ' ∧ l.around <:+ σ.bodies ∧ σ'.bodies = l.around ∧
          σ'.context.failure = l.text ++ v.message ∧ σ'.context.failure.utf8ByteSize ≤ failureCap) := by
  have hsilent : Leaves host σ [] σ' := .silent hm hfailing
  cases hsettles with
  | stays hrunning hverdict hbodies =>
    subst hverdict
    exact ⟨hfailing, hbodies ▸ List.suffix_rfl, .inl ⟨hsilent, rfl⟩⟩
  | @leaves f around hrunning hverdict hbodies =>
    have hv : v.failing = true := by
      rw [← Verdict.leaving_failing, ← hverdict]
      exact hfailing
    have haround : around <:+ σ.bodies := State.suffix_bodies hrunning
    have hmessage : σ'.context.failure = (v.leaving σ'.context f).message := by
      rw [← hverdict]
      rfl
    refine ⟨hv, hbodies hfailing ▸ haround, ?_⟩
    unfold Verdict.leaving Verdict.under at hmessage
    split at hmessage
    · rename_i hname
      split at hmessage
      · rename_i hfits
        refine .inr ⟨_, .line hm hfailing hrunning hname, haround, hbodies hfailing, hmessage, ?_⟩
        rw [hmessage, String.utf8ByteSize_append]
        exact hfits.2
      · exact .inl ⟨hsilent, hmessage⟩
    · exact .inl ⟨hsilent, hmessage⟩

namespace Account

variable {lines : List Line}

/-- **A failure is raised.** -/
theorem of_raised (hraised : Raised host message σ σ') (hsettles : Settles
      { failing := true, message := Text.clip failureCap message } σ σ')
    (hm : Stride host σ σ') (hfailing : σ'.context.failing = true) :
    ∃ lines, Account host message σ lines σ' := by
  obtain ⟨-, -, ⟨hp, htext⟩ | ⟨l, hp, -, hbodies, htext, hsize⟩⟩ := hsettles.passes hm hfailing
  · refine ⟨[], .raised hraised hp, .nil, by simp, by simpa using htext, ?_⟩
    rw [htext]
    exact (Text.clipped_clip failureCap message).fits
  · refine ⟨[l], .raised hraised hp, List.pairwise_singleton _ l, ?_, ?_, hsize⟩
    · intro l' hl'
      obtain rfl := List.mem_singleton.mp hl'
      exact hbodies ▸ List.suffix_rfl
    · simpa using htext

/-- **A failing state stays so**, or a line comes. -/
theorem stride (h : Account host message σ₁ lines σ) (hm : Stride host σ σ')
    (hsettles : Settles σ.context.verdict σ σ') (hfailing : σ'.context.failing = true) :
    ∃ lines', Account host message σ₁ lines' σ' := by
  obtain ⟨-, hfewer, ⟨hp, htext⟩ | ⟨l, hp, haround, hbodies, htext, hsize⟩⟩ :=
    hsettles.passes hm hfailing
  · refine ⟨lines, h.unwound.stride hp, h.outermost_first, ?_, htext.trans h.text, ?_⟩
    · exact fun l hl => hfewer.trans (h.within l hl)
    · rw [htext]
      exact h.bounded
  · refine ⟨l :: lines, h.unwound.stride hp, ?_, ?_, ?_, hsize⟩
    · exact List.pairwise_cons.mpr
        ⟨fun behind hb => haround.trans (h.within behind hb), h.outermost_first⟩
    · intro l' hl'
      rcases List.mem_cons.mp hl' with rfl | hl'
      · exact hbodies ▸ List.suffix_rfl
      · exact hfewer.trans (h.within l' hl')
    · rw [htext, List.map_cons, String.join_cons, String.append_assoc]
      exact congrArg (l.text ++ ·) h.text

end Account

/-! ## 4. Every failing state -/

/-- **The invariant.** -/
theorem Strides.exists_account (hhost : host.Candid) (hstart : origin.context.failing = false)
    (hstrides : Strides host origin σ) (hfailing : σ.context.failing = true) :
    ∃ σ₁ message lines, Strides host origin σ₁ ∧ Account host message σ₁ lines σ := by
  induction hstrides with
  | refl =>
    rw [hstart] at hfailing
    cases hfailing
  | @tail ρ σ hρ hm ih =>
    obtain ⟨v, htells, hsettles⟩ := hm.settles hhost
    obtain ⟨hv, -⟩ := hsettles.passes hm hfailing
    cases htells with
    | silent =>
      obtain ⟨σ₁, message, lines, hσ₁, h⟩ := ih hv
      obtain ⟨lines', h'⟩ := h.stride hm hsettles hfailing
      exact ⟨σ₁, message, lines', hσ₁, h'⟩
    | cleared => cases hv
    | @raised message hraised =>
      obtain ⟨lines, h⟩ := Account.of_raised hraised hsettles hm hfailing
      exact ⟨ρ, message, lines, hρ, h⟩

/-- **Messages keep their cause, and stay short.** Whatever has been done since the machine was not
    failing, with texts, tasks and names of any kind: in a failing state the message is, behind the
    lines of functions that were running, outermost first, the text of the failure, clipped to its
    longest prefix that fits; it is no longer than the cap, and it is UTF-8. A later failure changes
    nothing. -/
theorem Strides.account {start : Context} {task : Task} (hhost : host.Candid)
    (hstart : start.failing = false) (hstrides : Strides host ⟨start, task, []⟩ σ)
    (hfailing : σ.context.failing = true) :
    ∃ σ₁ message lines, Strides host ⟨start, task, []⟩ σ₁ ∧ Account host message σ₁ lines σ ∧
      Text.Clipped failureCap message (Text.clip failureCap message) ∧
      σ.context.failure.toByteArray.IsValidUTF8 ∧
      ∀ later, Context.fail later σ.context = .ok .nil σ.context := by
  obtain ⟨σ₁, message, lines, hσ₁, h⟩ := Strides.exists_account hhost hstart hstrides hfailing
  exact ⟨σ₁, message, lines, hσ₁, h, Text.clipped_clip _ _, σ.context.failure.isValidUTF8,
    fun later => fail_failing later hfailing⟩

end Strides

end Machine

/-- An embedding program whose procedures fail with the text of their entry. -/
def Host.complaining : Host := { Host.none with procedure := fun entry _ => failNext entry }

theorem Host.candid_complaining : Host.complaining.Candid where
  procedure entry _ := .failNext entry
  form _ _ _ _ := .failNext _

/-- A context with a function `outer`, whose body calls a function `inner`, whose body calls a
    procedure. -/
def Context.nested : Context :=
  { Context.within with
    heap :=
      { Heap.bare { chunkCells := 24 } with
        cells := #[.object CoreType.func.id (.closure (.pair 1)), .pair .nil (.pair 2),
          .pair .nil (.pair 3), .pair (.pair 5) (.pair 4), .pair (.sym 0) .nil, .pair (.pair 6) .nil,
          .pair (.object 7) .nil,
          .object CoreType.func.id (.closure (.pair 8)), .pair .nil (.pair 9), .pair .nil (.pair 10),
          .pair (.pair 12) (.pair 11), .pair (.sym 1) .nil, .pair (.pair 13) .nil,
          .pair (.object 14) .nil,
          .object CoreType.native.id (.procedure (.hosted "read"
            { required := 0, optional := 0, rest := false } "Gerät nicht bereit")),
          .free (some 16), .free (some 17), .free (some 18), .free (some 19), .free (some 20),
          .free (some 21), .free (some 22), .free (some 23), .free none]
        chunks := #[{ head := some 15, freeCount := 9 }] }
    symbols := { names := #["outer", "inner"], slots := #[] }
    maxDepth := 4 }

/-- The procedure fails inside of both functions. -/
theorem Machine.Strides.account_nested : ∃ σ σ₁ message lines,
    Strides Host.complaining ⟨Context.nested, .apply (.object 0) .nil, []⟩ σ ∧
      σ.context.failing = true ∧
      σ.context.failure = "In outer:\nIn inner:\nGerät nicht bereit" ∧
      Strides Host.complaining ⟨Context.nested, .apply (.object 0) .nil, []⟩ σ₁ ∧
      Account Host.complaining message σ₁ lines σ ∧
      Text.Clipped failureCap message (Text.clip failureCap message) ∧
      σ.context.failure.toByteArray.IsValidUTF8 ∧
      ∀ later, Context.fail later σ.context = .ok .nil σ.context := by
  have hend : endsWith (run Host.complaining 24 (.apply (.object 0) .nil) []) Context.nested
      (fun _ c => c.failing && c.failure == "In outer:\nIn inner:\nGerät nicht bereit") = true := by
    decide +kernel
  obtain ⟨v, c, hrun, hfail⟩ := exists_of_endsWith hend
  obtain ⟨hfailing, htext⟩ := Bool.and_eq_true_iff.mp hfail
  have hstrides : Strides Host.complaining ⟨Context.nested, .apply (.object 0) .nil, []⟩
      ⟨c, .give v, []⟩ := .of_reaches (reaches_of_run hrun)
  obtain ⟨σ₁, message, lines, h⟩ :=
    Strides.account Host.candid_complaining (by decide) hstrides hfailing
  exact ⟨_, σ₁, message, lines, hstrides, hfailing, eq_of_beq htext, h⟩

end LispMachine
