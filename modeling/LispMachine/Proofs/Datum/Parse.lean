import LispMachine.Proofs.Datum.Basic
import LispMachine.Reader.Basic

/-!
# What a source text says

The reader builds values in a heap. What it makes of a text can be said without one:

* `Frame`, `Datum.parse` -- unfinished data, and **the next datum of a text**;
* `Datum.finish` -- what follows when a datum is complete;
* `Datum.ReadsBack` -- a written form is read as what was written, whatever follows it; one lemma for
  each kind of datum;
* `Datum.parse_chars` -- **printing and reading again is the identity**;
* `Datum.legible_of_parse` -- every symbol that is read may be read again.
-/

namespace LispMachine

/-! ## 1. Reading without a heap -/

/-- What a datum is being read inside of; the elements of a list are in reverse. -/
inductive Frame where
  | quotation
  | elements (seen : List Datum)
  | dotted (seen : List Datum)
  | closing (whole : Datum)
  deriving DecidableEq, Repr

/-- Everything in a frame is legible. -/
def Frame.Legible : Frame → Prop
  | .quotation => True
  | .elements seen | .dotted seen => ∀ d ∈ seen, d.Legible
  | .closing whole => whole.Legible

namespace Datum

/-- Elements, in reverse, in front of a tail. -/
def onto (tail : Datum) : List Datum → Datum
  | [] => tail
  | d :: seen => onto (pair d tail) seen

theorem onto_concat (tail d : Datum) (seen : List Datum) :
    onto tail (seen ++ [d]) = pair d (onto tail seen) := by
  induction seen generalizing tail with
  | nil => rfl
  | cons x seen ih => exact ih (pair x tail)

/-- The datum that a quote mark makes. -/
def quoted (d : Datum) : Datum := pair (sym "quote") (pair d nil)

/-- A complete datum is handed to what it is inside of. -/
def deliver (d : Datum) : List Frame → Datum ⊕ List Frame
  | [] => .inl d
  | .quotation :: outer => deliver d.quoted outer
  | .elements seen :: outer => .inr (.elements (d :: seen) :: outer)
  | .dotted seen :: outer => .inr (.closing (onto d seen) :: outer)
  | .closing whole :: outer => .inr (.closing whole :: outer)

/-- What a token does inside of frames. -/
inductive Effect where
  | value (d : Datum) (frames : List Frame)
  | more (frames : List Frame)
  | error (e : ReadError)
  deriving DecidableEq, Repr

/-- The datum of an atom. -/
def ofAtom (name : List Char) : Datum :=
  match Fixnum.decimal? name with
  | some n => int n
  | none => sym (String.ofList name)

/-- Meets a token where a datum or the end of a list may stand. -/
def meet (frames : List Frame) : Token → Effect
  | .opening =>
    if frames.length ≥ Reader.maxNesting then .error .tooDeep else .more (.elements [] :: frames)
  | .mark => if frames.length ≥ Reader.maxNesting then .error .tooDeep else .more (.quotation :: frames)
  | .closing =>
    match frames with
    | .elements seen :: outer => .value (onto nil seen) outer
    | _ => .error .unexpectedClosing
  | .text s => .value (text (String.ofList s)) frames
  | .unclosedText => .error .unclosedText
  | .atom name =>
    match frames with
    | .elements seen :: outer =>
      if name = ['.'] then
        if seen = [] then .error .misplacedDot else .more (.dotted seen :: outer)
      else .value (ofAtom name) frames
    | _ => .value (ofAtom name) frames

/-- Meets a token after the tail of a list. -/
def meetEnd (whole : Datum) (outer : List Frame) : Token → Effect
  | .closing => .value whole outer
  | _ => .error .misplacedDot

/-- What the next token does. -/
def effect (frames : List Frame) (token : Token) : Effect :=
  match frames with
  | .closing whole :: outer => meetEnd whole outer token
  | _ => meet frames token

/-- The error at the end of the source. -/
def atEnd : List Frame → ReadError
  | .elements _ :: _ => .unclosedList
  | .closing _ :: _ => .unclosedList
  | _ => .unexpectedEnd

/-- Reads on until the outermost of the frames is complete, or up to an error. -/
def parseFrom (frames : List Frame) (src : List Char) : Except ReadError (Datum × List Char) :=
  match _h : Token.next? src with
  | none => .error (atEnd frames)
  | some (token, rest) =>
    match effect frames token with
    | .error e => .error e
    | .more frames => parseFrom frames rest
    | .value d frames =>
      match deliver d frames with
      | .inl d => .ok (d, rest)
      | .inr frames => parseFrom frames rest
termination_by src.length
decreasing_by all_goals exact Token.length_lt_of_next? _h

/-- **The next datum of a text**, or none at its end, and the text after it. -/
def parse (src : List Char) : Except ReadError (Option Datum × List Char) :=
  match Token.next? src with
  | none => .ok (none, [])
  | some _ => (parseFrom [] src).map fun (d, rest) => (some d, rest)

/-- What follows when a datum is complete. -/
def finish (d : Datum) (frames : List Frame) (rest : List Char) : Except ReadError (Datum × List Char) :=
  match deliver d frames with
  | .inl d => .ok (d, rest)
  | .inr frames => parseFrom frames rest

/-! ## 2. One token -/

variable {frames frames' : List Frame} {src rest : List Char} {token : Token} {d e : Datum}
variable {seen : List Datum}

theorem parseFrom_none (hnone : Token.next? src = none) (frames : List Frame) :
    parseFrom frames src = .error (atEnd frames) := by
  rw [parseFrom.eq_def]
  split
  · rfl
  · rename_i hsome
    rw [hsome] at hnone
    cases hnone

theorem parseFrom_some (hnext : Token.next? src = some (token, rest)) (frames : List Frame) :
    parseFrom frames src =
      match effect frames token with
      | .error e => .error e
      | .more frames => parseFrom frames rest
      | .value d frames => finish d frames rest := by
  rw [parseFrom.eq_def]
  split
  · rename_i hnone
    rw [hnone] at hnext
    cases hnext
  · rename_i hsome
    rw [hsome] at hnext
    cases hnext
    rfl

theorem parseFrom_value (hnext : Token.next? src = some (token, rest))
    (h : effect frames token = .value d frames') : parseFrom frames src = finish d frames' rest := by
  rw [parseFrom_some hnext, h]

theorem parseFrom_more (hnext : Token.next? src = some (token, rest))
    (h : effect frames token = .more frames') : parseFrom frames src = parseFrom frames' rest := by
  rw [parseFrom_some hnext, h]

/-- White space in front of a datum does not matter. -/
theorem parseFrom_blank (frames : List Frame) (cs : List Char) :
    parseFrom frames (' ' :: cs) = parseFrom frames cs := by
  rw [parseFrom.eq_def, parseFrom.eq_def frames cs]
  rw [Token.next?_blank]

/-- The innermost frame is still open. -/
def Accepts (frames : List Frame) : Prop := ∀ whole outer, frames ≠ .closing whole :: outer

theorem accepts_nil : Accepts [] := by
  intro whole outer h
  cases h

theorem accepts_elements (seen : List Datum) (outer : List Frame) :
    Accepts (.elements seen :: outer) := by
  intro whole outer h
  cases h

theorem accepts_dotted (seen : List Datum) (outer : List Frame) : Accepts (.dotted seen :: outer) := by
  intro whole outer h
  cases h

theorem effect_eq_meet (h : Accepts frames) (token : Token) : effect frames token = meet frames token := by
  unfold effect
  split
  · exact absurd rfl (h _ _)
  · rfl

/-! ## 3. Printing and reading again -/

/-- An atom is read as what it says, but for a dot among the elements of a list. -/
theorem parseFrom_atom {name : List Char} (hne : name ≠ [])
    (hname : ∀ c ∈ name, endsAtom c = false) (hopen : Accepts frames)
    (hdot : name = ['.'] → ∀ seen outer, frames ≠ .elements seen :: outer) (hrest : Bounded rest) :
    parseFrom frames (name ++ rest) = finish (ofAtom name) frames rest := by
  refine parseFrom_value (Token.next?_name hne hname hrest) ?_
  rw [effect_eq_meet hopen]
  cases frames with
  | nil => rfl
  | cons frame outer =>
    cases frame with
    | elements seen => exact if_neg fun h => hdot h seen outer rfl
    | quotation => rfl
    | dotted seen => rfl
    | closing whole => rfl

/-- **A written form is read as what was written**, whatever follows it: as a datum, and as the rest of a
    list. -/
structure ReadsBack (d : Datum) : Prop where
  whole : ∀ {frames : List Frame} {rest : List Char}, Accepts frames →
    frames.length + d.depth < Reader.maxNesting →
    (d = sym "." → ∀ seen outer, frames ≠ .elements seen :: outer) → Bounded rest →
    parseFrom frames (d.chars ++ rest) = finish d frames rest
  tail : ∀ {seen : List Datum} {outer : List Frame} (rest : List Char), seen ≠ [] →
    outer.length + 1 + d.depth ≤ Reader.maxNesting →
    parseFrom (.elements seen :: outer) (d.tailChars ++ rest) = finish (onto d seen) outer rest

/-- What is read in one token is read back also after the dot of a list. -/
theorem ReadsBack.of_atom (hnil : d ≠ nil) (hpair : ∀ x y, d ≠ pair x y)
    (hatom : ∀ {frames : List Frame} {rest : List Char}, Accepts frames →
      (d = sym "." → ∀ seen outer, frames ≠ .elements seen :: outer) → Bounded rest →
      parseFrom frames (d.chars ++ rest) = finish d frames rest) : d.ReadsBack where
  whole hopen _ hlone hrest := hatom hopen hlone hrest
  tail := by
    intro seen outer rest hne _
    have hdot : ∀ cs : List Char, Token.next? ('.' :: ' ' :: cs) = some (.atom ['.'], ' ' :: cs) :=
      fun cs => Token.next?_name (List.cons_ne_nil '.' []) (List.forall_mem_singleton.mpr rfl)
        (by intro c hc; cases hc; rfl)
    have hmeet : effect (.elements seen :: outer) (.atom ['.']) = .more (.dotted seen :: outer) := by
      simp [effect, meet, hne]
    have hclose : Bounded (')' :: rest) := by
      intro c hc
      cases hc
      rfl
    rw [tailChars_eq_dotted hnil hpair]
    show parseFrom _ (' ' :: '.' :: ' ' :: (d.chars ++ [')'] ++ rest)) = _
    rw [parseFrom_blank, parseFrom_more (hdot _) hmeet, parseFrom_blank, List.append_assoc,
      List.singleton_append, hatom (accepts_dotted seen outer) (fun _ => nofun) hclose]
    exact parseFrom_value (Token.next?_closing rest) rfl

theorem ofAtom_text (n : Fixnum) : ofAtom n.text.toList = int n := by
  rw [ofAtom, Fixnum.decimal?_text]

theorem ofAtom_name {name : String} (h : IsName name) : ofAtom name.toList = sym name := by
  rw [ofAtom, h.2.2, String.ofList_toList]

/-- An integer. -/
theorem readsBack_int (n : Fixnum) : (int n).ReadsBack := by
  refine .of_atom nofun nofun fun {frames rest} hopen _ hrest => ?_
  have hdot : n.text.toList = ['.'] → ∀ seen outer, frames ≠ .elements seen :: outer := by
    intro htext
    have hn := Fixnum.decimal?_text n
    rw [htext] at hn
    cases hn
  have hrun := parseFrom_atom n.text_atom.1 n.text_atom.2 hopen hdot hrest
  rwa [ofAtom_text] at hrun

/-- A symbol; that of a lone dot is one everywhere but among the elements of a list. -/
theorem readsBack_sym {name : String} (h : IsName name) : (sym name).ReadsBack := by
  refine .of_atom nofun nofun fun {frames rest} hopen hlone hrest => ?_
  have hdot : name.toList = ['.'] → ∀ seen outer, frames ≠ .elements seen :: outer := by
    intro htext
    refine hlone (congrArg sym ?_)
    rw [← String.toList_inj, htext]
    rfl
  have hrun := parseFrom_atom h.1 h.2.1 hopen hdot hrest
  rwa [ofAtom_name h] at hrun

/-- A string. -/
theorem readsBack_text (s : String) : (text s).ReadsBack := by
  refine .of_atom nofun nofun fun {frames rest} hopen _ _ => ?_
  refine parseFrom_value (Token.next?_quoted s rest) ?_
  rw [effect_eq_meet hopen]
  exact congrArg (fun s => Effect.value (text s) frames) String.ofList_toList

/-- A list is begun. -/
theorem effect_opening (hopen : Accepts frames) (hlen : frames.length < Reader.maxNesting) :
    effect frames .opening = .more (.elements [] :: frames) :=
  (effect_eq_meet hopen _).trans (if_neg (Nat.not_le_of_lt hlen))

/-- The empty list, which ends a list without a dot. -/
theorem readsBack_nil : nil.ReadsBack where
  whole := by
    intro frames rest hopen hlen _ _
    have hlt : frames.length < Reader.maxNesting := Nat.lt_of_le_of_lt (Nat.le_add_right _ _) hlen
    show parseFrom frames ('(' :: ')' :: rest) = _
    rw [parseFrom_more (Token.next?_opening _) (effect_opening hopen hlt)]
    exact parseFrom_value (Token.next?_closing rest) rfl
  tail rest _ _ := parseFrom_value (Token.next?_closing rest) rfl

theorem bounded_tailChars (e : Datum) (rest : List Char) : Bounded (e.tailChars ++ rest) := by
  intro c hc
  cases e <;>
  · cases hc
    rfl

/-- A pair: its first slot is an element of the list, and the rest follows it. -/
theorem readsBack_pair (hlone : d ≠ sym ".") (hd : d.ReadsBack) (he : e.ReadsBack) :
    (pair d e).ReadsBack := by
  have helement : ∀ {seen : List Datum} {outer : List Frame} (rest : List Char),
      outer.length + 1 + (pair d e).depth ≤ Reader.maxNesting →
      parseFrom (.elements seen :: outer) (d.chars ++ (e.tailChars ++ rest)) =
        finish (onto (pair d e) seen) outer rest := by
    intro seen outer rest hlen
    simp only [depth] at hlen
    have hdepth : (Frame.elements seen :: outer).length + d.depth < Reader.maxNesting := by
      rw [List.length_cons]
      omega
    rw [hd.whole (accepts_elements seen outer) hdepth (fun h => absurd h hlone) (bounded_tailChars e rest)]
    exact he.tail rest (List.cons_ne_nil d seen) (by omega)
  constructor
  · intro frames rest hopen hlen _ _
    rw [chars, List.cons_append, List.append_assoc,
      parseFrom_more (Token.next?_opening _) (effect_opening hopen (by omega))]
    have hdepth : (pair d e).depth = max (d.depth + 1) e.depth := rfl
    exact helement rest (by omega)
  · intro seen outer rest _ hlen
    rw [tailChars, List.cons_append, List.append_assoc, parseFrom_blank]
    exact helement rest hlen

/-- **Whatever is legible is read back**, if no element of a list is a lone dot. -/
theorem readsBack (d : Datum) (hd : d.Legible) (hdot : d.Undotted) : d.ReadsBack := by
  induction d with
  | nil => exact readsBack_nil
  | int n => exact readsBack_int n
  | sym name => exact readsBack_sym hd
  | text s => exact readsBack_text s
  | pair d e ihd ihe => exact readsBack_pair hdot.1 (ihd hd.1 hdot.2.1) (ihe hd.2 hdot.2.2)

/-- Something is written. -/
theorem next?_chars (hd : d.Legible) : ∃ token rest, Token.next? d.chars = some (token, rest) := by
  have hatom : ∀ cs : List Char, cs ≠ [] → (∀ c ∈ cs, endsAtom c = false) →
      ∃ token rest, Token.next? cs = some (token, rest) := by
    intro cs hne hcs
    have hname := Token.next?_name hne hcs bounded_nil
    rw [List.append_nil] at hname
    exact ⟨_, _, hname⟩
  cases d with
  | nil => exact ⟨_, _, Token.next?_opening _⟩
  | int n => exact hatom _ n.text_atom.1 n.text_atom.2
  | sym name => exact hatom _ hd.1 hd.2.1
  | text s =>
    have hquoted := Token.next?_quoted s []
    rw [List.append_nil] at hquoted
    exact ⟨_, _, hquoted⟩
  | pair x y => exact ⟨_, _, Token.next?_opening _⟩

/-- **Printing and reading again is the identity**, and nothing of the text is left. -/
theorem parse_chars (hd : d.Legible) (hdot : d.Undotted) (hdepth : d.depth < Reader.maxNesting) :
    parse d.chars = .ok (some d, []) := by
  obtain ⟨token, rest, hnext⟩ := next?_chars hd
  have hlen : ([] : List Frame).length + d.depth < Reader.maxNesting := by
    rwa [List.length_nil, Nat.zero_add]
  have hrun := (readsBack d hd hdot).whole accepts_nil hlen (fun _ => nofun) bounded_nil
  rw [List.append_nil] at hrun
  rw [parse, hnext]
  show (parseFrom [] d.chars).map _ = _
  rw [hrun]
  rfl

/-! ## 4. What is read may be read again -/

theorem legible_ofAtom {name : List Char} (hne : name ≠ []) (hname : ∀ c ∈ name, endsAtom c = false) :
    (ofAtom name).Legible := by
  unfold ofAtom
  split
  · trivial
  · rename_i hint
    have hchars : (String.ofList name).toList = name := String.toList_ofList
    refine ⟨?_, ?_, ?_⟩
    · rwa [hchars]
    · rwa [hchars]
    · rwa [hchars]

theorem legible_onto (he : e.Legible) (hseen : ∀ d ∈ seen, d.Legible) : (onto e seen).Legible := by
  induction seen generalizing e with
  | nil => exact he
  | cons d seen ih =>
    have hd : d.Legible := hseen d List.mem_cons_self
    exact ih ⟨hd, he⟩ fun x hx => hseen x (List.mem_cons_of_mem d hx)

/-- A complete datum is handed on legibly. -/
theorem legible_deliver (hd : d.Legible) (hframes : ∀ f ∈ frames, f.Legible) :
    match deliver d frames with
    | .inl d => d.Legible
    | .inr frames => ∀ f ∈ frames, f.Legible := by
  induction frames generalizing d with
  | nil => exact hd
  | cons frame outer ih =>
    have houter : ∀ f ∈ outer, f.Legible := fun f hf => hframes f (List.mem_cons_of_mem frame hf)
    have hframe : frame.Legible := hframes frame List.mem_cons_self
    have hpush : ∀ {g : Frame}, g.Legible → ∀ f ∈ g :: outer, f.Legible := by
      intro g hg f hf
      rcases List.mem_cons.mp hf with rfl | hf
      · exact hg
      · exact houter f hf
    cases frame with
    | quotation => exact ih ⟨by decide, hd, trivial⟩ houter
    | elements seen =>
      refine hpush fun x hx => ?_
      rcases List.mem_cons.mp hx with rfl | hx
      · exact hd
      · exact hframe x hx
    | dotted seen => exact hpush (legible_onto hd hframe)
    | closing whole => exact hframes

/-- What a token does is legible. -/
def Effect.Legible : Effect → Prop
  | .error _ => True
  | .more frames => ∀ f ∈ frames, f.Legible
  | .value d frames => d.Legible ∧ ∀ f ∈ frames, f.Legible

theorem legible_meet (hnext : Token.next? src = some (token, rest))
    (hframes : ∀ f ∈ frames, f.Legible) : (meet frames token).Legible := by
  -- one more frame around the others
  have hpush : ∀ {g : Frame} {outer : List Frame}, g.Legible → (∀ f ∈ outer, f.Legible) →
      ∀ f ∈ g :: outer, f.Legible := by
    intro g outer hg houter f hf
    rcases List.mem_cons.mp hf with rfl | hf
    · exact hg
    · exact houter f hf
  have hopening : ∀ g : Frame, g.Legible → Effect.Legible
      (if frames.length ≥ Reader.maxNesting then .error .tooDeep else .more (g :: frames)) := by
    intro g hg
    by_cases hdeep : frames.length ≥ Reader.maxNesting
    · rw [if_pos hdeep]
      trivial
    · rw [if_neg hdeep]
      exact hpush hg hframes
  cases token with
  | opening =>
    refine hopening (.elements []) fun d hd => ?_
    cases hd
  | mark => exact hopening .quotation trivial
  | text s => exact ⟨trivial, hframes⟩
  | unclosedText => trivial
  | closing =>
    cases frames with
    | nil => trivial
    | cons frame outer =>
      have houter : ∀ f ∈ outer, f.Legible := fun f hf => hframes f (List.mem_cons_of_mem frame hf)
      cases frame with
      | elements seen => exact ⟨legible_onto trivial (hframes _ List.mem_cons_self), houter⟩
      | _ => trivial
  | atom name =>
    obtain ⟨hne, hname⟩ := Token.name_of_next? hnext
    have hvalue : Effect.Legible (.value (ofAtom name) frames) := ⟨legible_ofAtom hne hname, hframes⟩
    cases frames with
    | nil => exact hvalue
    | cons frame outer =>
      cases frame with
      | elements seen =>
        have houter : ∀ f ∈ outer, f.Legible := fun f hf => hframes f (List.mem_cons_of_mem _ hf)
        have hseen : Frame.Legible (.dotted seen) := hframes (.elements seen) List.mem_cons_self
        show Effect.Legible (if name = ['.'] then _ else _)
        by_cases hdot : name = ['.']
        · rw [if_pos hdot]
          by_cases hfirst : seen = []
          · rw [if_pos hfirst]
            trivial
          · rw [if_neg hfirst]
            exact hpush hseen houter
        · rw [if_neg hdot]
          exact hvalue
      | _ => exact hvalue

/-- **A token makes legible data.** -/
theorem legible_effect (hnext : Token.next? src = some (token, rest))
    (hframes : ∀ f ∈ frames, f.Legible) : (effect frames token).Legible := by
  have hmeet := legible_meet hnext hframes
  cases frames with
  | nil => exact hmeet
  | cons frame outer =>
    have houter : ∀ f ∈ outer, f.Legible := fun f hf => hframes f (List.mem_cons_of_mem frame hf)
    cases frame with
    | closing whole =>
      cases token with
      | closing => exact ⟨hframes _ List.mem_cons_self, houter⟩
      | _ => trivial
    | _ => exact hmeet

/-- **Data that are read are legible.** -/
theorem legible_of_parseFrom (hframes : ∀ f ∈ frames, f.Legible)
    (h : parseFrom frames src = .ok (d, rest)) : d.Legible := by
  induction hlen : src.length using Nat.strongRecOn generalizing frames src with
  | ind len ih =>
    cases hnext : Token.next? src with
    | none =>
      rw [parseFrom_none hnext] at h
      cases h
    | some next =>
      obtain ⟨token, rest'⟩ := next
      have hlt : rest'.length < len := hlen ▸ Token.length_lt_of_next? hnext
      have heffect := legible_effect hnext hframes
      rw [parseFrom_some hnext] at h
      split at h
      · cases h
      · rename_i frames' heq
        rw [heq] at heffect
        exact ih _ hlt heffect h rfl
      · rename_i d' frames' heq
        rw [heq] at heffect
        have hdeliver := legible_deliver heffect.1 heffect.2
        unfold finish at h
        split at h
        · rename_i whole heq'
          rw [heq'] at hdeliver
          cases h
          exact hdeliver
        · rename_i frames₂ heq'
          rw [heq'] at hdeliver
          exact ih _ hlt hdeliver h rfl

theorem parseFrom_of_parse (h : parse src = .ok (some d, rest)) : parseFrom [] src = .ok (d, rest) := by
  unfold parse at h
  split at h
  · cases h
  · cases hfrom : parseFrom [] src with
    | error e =>
      rw [hfrom] at h
      cases h
    | ok r =>
      rw [hfrom] at h
      cases h
      rfl

theorem legible_of_parse (h : parse src = .ok (some d, rest)) : d.Legible :=
  legible_of_parseFrom (fun _ hf => absurd hf List.not_mem_nil) (parseFrom_of_parse h)

end Datum

end LispMachine
