import LispMachine.Proofs.Listener.Lines
import LispMachine.Proofs.Listener.Pieces
import LispMachine.Proofs.Twin.Session

/-!
# A conversation with the listener

A text that is given to the listener line by line prints what it prints as a whole, in between of the
prompts. What can go wrong is a quote mark at the end of a line: the listener takes the line for complete,
while the form that is quoted is still to come.

* `HasDanglingMark` -- a line ends, outside of all lists and strings, in a quote mark;
* `conversation` -- prompts, and what each line prints;
* `Listener.loopText_eq_conversation` -- **the loop goes through a conversation**, by induction on the
  lines;
* `Listener.converses_of_exec` -- **the listener prints what a run of the whole text prints**.
-/

namespace LispMachine

variable {host : Host} {cfg : Config} {lex : Lexicon} {n : Nat} {src rest : List Char}
variable {c c' d' : Context} {v w : Value} {text g : String}

/-! ## 1. Dangling quote marks -/

/-- A line ends, outside of all lists and strings, in a quote mark: nothing but blanks and comments is
    between the two. -/
def HasDanglingMark (src : List Char) : Prop :=
  ∃ before, before <+: src ∧ before.getLast? = some '\n' ∧ isComplete before = true ∧
    (tokens before).getLast? = some .mark

instance (src : List Char) : Decidable (HasDanglingMark src) :=
  decidable_of_iff (∃ before ∈ src.inits, before.getLast? = some '\n' ∧ isComplete before = true ∧
    (tokens before).getLast? = some .mark) (by simp only [HasDanglingMark, List.mem_inits])

/-- What follows a cut may have them on its own. -/
theorem HasDanglingMark.append (h : HasDanglingMark rest) (hcut : Cut 0 src) :
    HasDanglingMark (src ++ rest) := by
  obtain ⟨before, hprefix, hend, hcomplete, hlast⟩ := h
  refine ⟨src ++ before, (List.prefix_append_right_inj src).mpr hprefix, ?_, ?_, ?_⟩
  · rw [List.getLast?_append, hend]
    rfl
  · rw [hcut.isComplete_append, hcomplete]
  · rw [hcut.tokens_append, List.getLast?_append, hlast]
    rfl

/-- Without them, a text may be cut wherever a line ends and nothing is open. -/
theorem cut_of_not_hasDanglingMark (h : ¬ HasDanglingMark (src ++ rest))
    (hend : src.getLast? = some '\n') (hcomplete : isComplete src = true) : Cut 0 src where
  lined x hx := by
    rw [hend] at hx
    exact (Option.some.inj hx).symm
  closed := hcomplete
  unmarked hlast := h ⟨src, List.prefix_append src rest, hend, hcomplete, hlast⟩

namespace Listener

/-! ## 2. Conversations -/

/-- What is on the screen, if each line prints something: prompts, and what has been printed. The first of
    the lines follows the lines `gathered`. -/
def conversation (gathered : String) : List (String × String) → String
  | [] => prompt gathered ++ "\n"
  | (line, out) :: lines =>
    prompt gathered ++ out ++
      conversation (if isComplete (gathered ++ line).toList then "" else gathered ++ line) lines

/-- Every prompt is two characters long, and so the listener prints two for each line, and three more. -/
theorem length_conversation (gathered : String) (lines : List (String × String)) :
    (conversation gathered lines).length =
      (String.join (lines.map Prod.snd)).length + 2 * lines.length + 3 := by
  have hprompt : ∀ g, (prompt g).length = 2 := fun g => by
    unfold prompt
    split <;> rfl
  induction lines generalizing gathered with
  | nil => rw [conversation, String.length_append, hprompt]; rfl
  | cons line lines ih =>
    rw [conversation, String.length_append, String.length_append, hprompt, ih, List.map_cons,
      String.join_cons, String.length_append, List.length_cons]
    omega

/-- A prompt, and then a line. -/
theorem turn_eq (host : Host) (g line : String) (c : Context) :
    (do Context.write (prompt g); feed host g line : Run String) c =
      feed host g line { c with output := c.output ++ prompt g } := rfl

/-- An incomplete text goes on being gathered. -/
theorem feed_incomplete {line : String} (h : isComplete (g ++ line).toList = false) :
    feed host g line c = .ok (g ++ line) c := by
  unfold feed
  rw [h]
  rfl

/-- A complete text is run, and then gathering begins again. -/
theorem feed_complete {line : String} (h : isComplete (g ++ line).toList = true)
    (hexec : Context.exec host (g ++ line) true c = .ok v c') (hgoing : c'.failing = false) :
    feed host g line c = .ok "" c' := by
  have hnot : Context.isFailing c' = .ok false c' := congrArg (EStateM.Result.ok · c') hgoing
  unfold feed
  rw [h]
  show (Context.exec host (g ++ line) true >>= _) c = _
  rw [run_bind hexec, run_bind hnot]
  rfl

/-- The loop over lines of text. -/
def loopText (host : Host) (gathered : String) (c : Context) : List String → Transcript
  | [] => { stop := .ended, output := c.output ++ prompt gathered ++ "\n", unread := [] }
  | line :: lines =>
    match feed host gathered line { c with output := c.output ++ prompt gathered } with
    | .ok gathered c => loopText host gathered c lines
    | .error f c => { stop := .fault f, output := c.output, unread := lines.map encoded }

/-- **The listener goes through the lines of a text**, whatever bytes they come in. -/
theorem run_toUTF8 (host : Host) (c : Context) (text : String) :
    run host c text.toUTF8 = loopText host "" c (textLines text) := by
  rw [run, lines_toUTF8]
  generalize textLines text = lines
  generalize "" = g
  induction lines generalizing g c with
  | nil => rfl
  | cons line lines ih =>
    rw [List.map_cons, loop, loopText, fromUTF8?_encoded]
    dsimp only
    rw [turn_eq]
    cases feed host g line { c with output := c.output ++ prompt g } with
    | ok g' c' => exact ih c' g'
    | error f c' => rfl

/-- **The loop goes through a conversation** while the text is run as a whole beside it. -/
theorem loopText_eq_conversation {lines : List String} (hruled : Ruled lines) (h : Beside lex c c')
    (hopen : g ≠ "" → isComplete g.toList = false)
    (hright : Machine.forms host n (g.toList ++ charsOf lines) c.heap.roots.size true c' = .ok w d')
    (hgoing : d'.failing = false) (hle : n ≤ Machine.ample - 1)
    (hmark : ¬ HasDanglingMark (g.toList ++ charsOf lines)) :
    ∃ outs : List String, outs.length = lines.length ∧
      loopText host g c lines =
        { stop := .ended, output := c.output ++ conversation g (lines.zip outs), unread := [] } ∧
      d'.output = c'.output ++ String.join outs := by
  induction lines generalizing g c c' n with
  | nil =>
    have hcomplete : isComplete g.toList = true := by
      have h := Machine.isComplete_of_forms hright hgoing
      rwa [charsOf, List.flatMap_nil, List.append_nil] at h
    obtain rfl : g = "" := by
      by_contra hne
      rw [hopen hne] at hcomplete
      cases hcomplete
    have hend : d'.output = c'.output := by
      cases Machine.course_of_forms hright hgoing with
      | ends _ _ _ hend =>
        rw [hend]
        rfl
      | form _ hread _ _ _ _ _ => cases hread
    refine ⟨[], rfl, ?_, ?_⟩
    · show Transcript.mk .ended (c.output ++ prompt "" ++ "\n") [] = _
      rw [String.append_assoc]
      rfl
    · rw [hend, String.join_nil, String.append_empty]
  | cons line lines ih =>
    obtain ⟨hnewline, hlater⟩ := hruled.of_cons
    have hchars : g.toList ++ charsOf (line :: lines) = (g ++ line).toList ++ charsOf lines := by
      rw [charsOf_cons, String.toList_append, List.append_assoc]
    rw [hchars] at hright hmark
    rw [loopText]
    cases hcomplete : isComplete (g ++ line).toList with
    | false =>
      obtain ⟨outs, hlength, hloop, hout⟩ :=
        ih hlater (h.print (c.output ++ prompt g)) (fun _ => hcomplete) hright hle hmark
      refine ⟨"" :: outs, congrArg (· + 1) hlength, ?_, ?_⟩
      · rw [feed_incomplete hcomplete]
        refine hloop.trans ?_
        rw [List.zip_cons_cons, conversation, hcomplete, if_neg Bool.false_ne_true, String.append_empty,
          ← String.append_assoc]
      · rw [hout, String.join_cons, String.empty_append]
    | true =>
      have hsevered : Severed (g ++ line).toList (charsOf lines) := by
        rcases hnewline with rfl | hend
        · exact .inr rfl
        · refine .inl (cut_of_not_hasDanglingMark hmark ?_ hcomplete)
          rw [String.toList_append, List.getLast?_append, hend]
          rfl
      obtain ⟨m, u, d, e', out, hexec, hd, hm, hbeside, hlast, hout, hout'⟩ :=
        (h.print (c.output ++ prompt g)).exec hsevered hle hright hgoing
      have hmark' : ¬ HasDanglingMark ("".toList ++ charsOf lines) := fun hdangling => by
        rcases hsevered with hcut | hnil
        · exact hmark (hdangling.append hcut)
        · rw [hnil] at hdangling
          obtain ⟨before, hprefix, hend, -⟩ := hdangling
          rw [List.prefix_nil.mp hprefix] at hend
          cases hend
      obtain ⟨outs, hlength, hloop, hlater'⟩ :=
        ih hlater hbeside (fun hne => absurd rfl hne) hlast (Nat.le_trans hm hle) hmark'
      refine ⟨out :: outs, congrArg (· + 1) hlength, ?_, ?_⟩
      · rw [feed_complete hcomplete hexec hd]
        refine hloop.trans ?_
        rw [hout, List.zip_cons_cons, conversation, hcomplete, if_pos rfl, ← String.append_assoc,
          ← String.append_assoc]
      · rw [hlater', hout', String.join_cons, String.append_assoc]

/-! ## 3. The whole text -/

/-- The listener goes through a text to its end, each line prints a part of what a run of the whole text
    has printed between two contexts, and all of them print all of it. -/
def Converses (host : Host) (text : String) (c c' : Context) : Prop :=
  ∃ outs : List String, outs.length = (textLines text).length ∧
    run host c text.toUTF8 =
      { stop := .ended, output := c.output ++ conversation "" ((textLines text).zip outs),
        unread := [] } ∧
    c'.output = c.output ++ String.join outs

theorem Converses.length_eq (h : Converses host text c c') :
    (run host c text.toUTF8).output.length = c'.output.length + 2 * (textLines text).length + 3 := by
  obtain ⟨outs, hlength, hrun, hout⟩ := h
  rw [hrun, hout, String.length_append, String.length_append, length_conversation,
    List.map_snd_zip (Nat.le_of_eq hlength), List.length_zip, hlength, Nat.min_self]
  omega

/-- **The listener prints what a run of the whole text prints**, with prompts in between and a newline at
    the end, if that run comes to its end without failure, and no line of the text ends in a quote mark
    outside of all lists and strings. -/
theorem converses_of_exec (hc : Context.create cfg = .ok c)
    (hexec : Context.exec host text true c = .ok v c') (hgoing : c'.failing = false)
    (hmark : ¬ HasDanglingMark text.toList) : Converses host text c c' := by
  obtain ⟨lex, hbeside⟩ := Context.exists_beside hc
  rw [Context.exec_eq_opened, ← charsOf_textLines] at hexec
  rw [← charsOf_textLines] at hmark
  have hloop := loopText_eq_conversation (ruled_textLinesFrom [] text.toList) hbeside
    (fun hne => absurd rfl hne) hexec hgoing (Nat.le_refl _) hmark
  rw [Converses, run_toUTF8]
  exact hloop

/-- A text runs in a fresh context without failure, with a property of the contexts before and after. -/
def runsWell (host : Host) (cfg : Config) (text : String) (p : Context → Context → Bool) : Bool :=
  match Context.create cfg with
  | .error _ => false
  | .ok c =>
    match Context.exec host text true c with
    | .error _ _ => false
    | .ok _ c' => !c'.failing && p c c'

theorem exists_of_runsWell {p : Context → Context → Bool} (h : runsWell host cfg text p = true) :
    ∃ c v c', Context.create cfg = .ok c ∧ Context.exec host text true c = .ok v c' ∧
      c'.failing = false ∧ p c c' = true := by
  unfold runsWell at h
  split at h
  · cases h
  · rename_i c hc
    split at h
    · cases h
    · rename_i v c' hexec
      rw [Bool.and_eq_true, Bool.not_eq_true'] at h
      exact ⟨c, v, c', hc, hexec, h.1, h.2⟩

/-- Forms that are spread over lines, with a quote mark at the end of one of them, in front of a
    comment, inside of a list. -/
def spread : String := "(define x (list '; one\n  (1\n 2)))\nx 'y\n"

theorem converses_of_exec_spread : ¬ HasDanglingMark spread.toList ∧ ∃ c v c',
    Context.create Context.compact = .ok c ∧ Context.exec Probe.host spread true c = .ok v c' ∧
      c'.failing = false ∧ Converses Probe.host spread c c' := by
  have hmark : ¬ HasDanglingMark spread.toList := by decide +kernel
  have hruns : runsWell Probe.host Context.compact spread (fun _ _ => true) = true := by decide +kernel
  obtain ⟨c, v, c', hc, hexec, hgoing, -⟩ := exists_of_runsWell hruns
  exact ⟨hmark, c, v, c', hc, hexec, hgoing, converses_of_exec hc hexec hgoing hmark⟩

/-- The first of these lines ends in a mark. -/
example : HasDanglingMark "'\n5\n".toList := by decide +kernel

/-- A line that ends in a quote mark is taken for complete, and the form that is quoted comes too late. -/
theorem not_converses_mark : ∃ c v c', Context.create Context.compact = .ok c ∧
    Context.exec Probe.host "'\n5\n" true c = .ok v c' ∧ c'.failing = false ∧
      ¬ Converses Probe.host "'\n5\n" c c' := by
  have hruns : runsWell Probe.host Context.compact "'\n5\n" (fun c c' =>
      c'.output = "5\n" && (run Probe.host c "'\n5\n".toUTF8).output =
        "> Error: Unexpected end of input\n> 5\n> \n") = true := by decide +kernel
  obtain ⟨c, v, c', hc, hexec, hgoing, hp⟩ := exists_of_runsWell hruns
  simp only [Bool.and_eq_true, decide_eq_true_eq] at hp
  obtain ⟨hout, hprinted⟩ := hp
  refine ⟨c, v, c', hc, hexec, hgoing, fun hconverses => ?_⟩
  have hlength := hconverses.length_eq
  have hlines : (textLines "'\n5\n").length = 2 := by decide
  rw [hout, hprinted, hlines] at hlength
  exact absurd hlength (by decide)

end Listener

end LispMachine
