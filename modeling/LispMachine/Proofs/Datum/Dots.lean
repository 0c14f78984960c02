import LispMachine.Proofs.Datum.Parse

/-!
# Dots among the elements of a list

Among the elements of a list a lone dot is no symbol, unless a quote mark stands in front of it. The
printer writes no quote marks, so what it writes is never read as a list with such an element:

* `Markless` -- a text without quote marks outside of its strings; `Datum.markless_chars` -- written forms
  are such texts;
* `Frame.Plain` -- no lone dot has been seen, and none is expected as an element;
* `Datum.undotted_of_parse` -- **what a text without quote marks says has no lone dot as an element**.
-/

namespace LispMachine

/-! ## 1. Texts without quote marks -/

/-- **None of the tokens of a text is a quote mark.** -/
inductive Markless : List Char → Prop where
  | done {src : List Char} (hnext : Token.next? src = none) : Markless src
  | more {src rest : List Char} {token : Token} (hnext : Token.next? src = some (token, rest))
      (hne : token ≠ .mark) (hrest : Markless rest) : Markless src

theorem markless_nil : Markless [] := .done rfl

theorem Markless.blank {cs : List Char} (h : Markless cs) : Markless (' ' :: cs) := by
  cases h with
  | done hnext => exact .done hnext
  | more hnext hne hrest => exact .more hnext hne hrest

variable {d e : Datum} {rest : List Char}

namespace Datum

/-- What follows an element, where it is an atom. -/
theorem markless_dotted {cs : List Char} (hcs : ∀ rest, Bounded rest → Markless rest → Markless (cs ++ rest))
    (hrest : Markless rest) : Markless (dotted cs ++ rest) := by
  have hdot : Token.next? ('.' :: ' ' :: (cs ++ ')' :: rest)) = some (.atom ['.'], ' ' :: (cs ++ ')' :: rest)) :=
    Token.next?_name (List.cons_ne_nil '.' []) (List.forall_mem_singleton.mpr rfl)
      (by intro c hc; cases hc; rfl)
  have hend : Bounded (')' :: rest) := by
    intro c hc
    cases hc
    rfl
  have hclose : Markless (')' :: rest) := .more (Token.next?_closing rest) nofun hrest
  have hform : dotted cs ++ rest = ' ' :: '.' :: ' ' :: (cs ++ ')' :: rest) := by simp [dotted]
  rw [hform]
  exact .blank (.more hdot nofun (.blank (hcs _ hend hclose)))

/-- **Written forms have no quote marks**, as data and as the rest of a list. -/
theorem markless_append (hd : d.Legible) :
    (∀ rest, Bounded rest → Markless rest → Markless (d.chars ++ rest)) ∧
      ∀ rest, Markless rest → Markless (d.tailChars ++ rest) := by
  have hatom : ∀ {cs : List Char}, cs ≠ [] → (∀ c ∈ cs, endsAtom c = false) →
      ∀ rest, Bounded rest → Markless rest → Markless (cs ++ rest) :=
    fun hne hcs _ hbound hrest => .more (Token.next?_name hne hcs hbound) nofun hrest
  induction d with
  | nil =>
    refine ⟨fun rest _ hrest => ?_, fun rest hrest => .more (Token.next?_closing rest) nofun hrest⟩
    exact .more (Token.next?_opening _) nofun (.more (Token.next?_closing rest) nofun hrest)
  | int n =>
    have hn := hatom n.text_atom.1 n.text_atom.2
    exact ⟨hn, fun rest hrest => markless_dotted hn hrest⟩
  | sym name =>
    have hname := hatom hd.1 hd.2.1
    exact ⟨hname, fun rest hrest => markless_dotted hname hrest⟩
  | text s =>
    have hs : ∀ rest, Bounded rest → Markless rest → Markless ((Printer.quoted s).toList ++ rest) :=
      fun rest _ hrest => .more (Token.next?_quoted s rest) nofun hrest
    exact ⟨hs, fun rest hrest => markless_dotted hs hrest⟩
  | pair d e ihd ihe =>
    have hboth : ∀ rest, Markless rest → Markless (d.chars ++ e.tailChars ++ rest) := by
      intro rest hrest
      rw [List.append_assoc]
      exact (ihd hd.1).1 _ (bounded_tailChars e rest) ((ihe hd.2).2 rest hrest)
    exact ⟨fun rest _ hrest => .more (Token.next?_opening _) nofun (hboth rest hrest),
      fun rest hrest => .blank (hboth rest hrest)⟩

theorem markless_chars (hd : d.Legible) : Markless d.chars := by
  have h := (markless_append hd).1 [] bounded_nil markless_nil
  rwa [List.append_nil] at h

end Datum

/-! ## 2. Reading such a text -/

/-- A datum that may be an element: no element of it is a lone dot, and it is none itself. -/
def Datum.Plain (d : Datum) : Prop := d ≠ .sym "." ∧ d.Undotted

/-- What has been seen may be elements. -/
def Frame.Plain : Frame → Prop
  | .quotation => False
  | .elements seen => ∀ d ∈ seen, d.Plain
  | .dotted seen => seen ≠ [] ∧ ∀ d ∈ seen, d.Plain
  | .closing whole => whole.Plain

namespace Datum

variable {frames frames' : List Frame} {src : List Char} {seen : List Datum} {token : Token}

/-- Elements in front of a tail. -/
theorem undotted_onto (he : e.Undotted) (hseen : ∀ d ∈ seen, d.Plain) : (onto e seen).Undotted := by
  induction seen generalizing e with
  | nil => exact he
  | cons d seen ih =>
    obtain ⟨hne, hd⟩ := hseen d List.mem_cons_self
    exact ih ⟨hne, hd, he⟩ fun x hx => hseen x (List.mem_cons_of_mem d hx)

theorem onto_ne_sym {name : String} (he : e ≠ sym name) : onto e seen ≠ sym name := by
  induction seen generalizing e with
  | nil => exact he
  | cons d seen ih => exact ih nofun

theorem onto_cons_ne_sym {name : String} (hne : seen ≠ []) : onto e seen ≠ sym name := by
  cases seen with
  | nil => exact absurd rfl hne
  | cons d seen => exact onto_ne_sym (e := pair d e) nofun

/-- A complete datum may be an element if it is to be one. -/
def Fits (d : Datum) (frames : List Frame) : Prop :=
  d.Undotted ∧ (d = sym "." → ∀ seen outer, frames ≠ .elements seen :: outer)

/-- Data are handed on. -/
theorem plain_deliver (hd : d.Fits frames) (hframes : ∀ f ∈ frames, f.Plain) :
    match deliver d frames with
    | .inl d => d.Undotted
    | .inr frames => ∀ f ∈ frames, f.Plain := by
  cases frames with
  | nil => exact hd.1
  | cons frame outer =>
    obtain ⟨hframe, houter⟩ := List.forall_mem_cons.mp hframes
    cases frame with
    | quotation => exact hframe.elim
    | elements seen =>
      have hne : d ≠ sym "." := fun h => hd.2 h seen outer rfl
      exact List.forall_mem_cons.mpr ⟨List.forall_mem_cons.mpr ⟨⟨hne, hd.1⟩, hframe⟩, houter⟩
    | dotted seen =>
      exact List.forall_mem_cons.mpr
        ⟨⟨onto_cons_ne_sym hframe.1, undotted_onto hd.1 hframe.2⟩, houter⟩
    | closing whole => exact hframes

/-- What a token does keeps lone dots out. -/
def Effect.Plain : Effect → Prop
  | .error _ => True
  | .more frames => ∀ f ∈ frames, f.Plain
  | .value d frames => d.Fits frames ∧ ∀ f ∈ frames, f.Plain

theorem undotted_ofAtom (name : List Char) : (ofAtom name).Undotted := by
  unfold ofAtom
  split <;> trivial

theorem ofAtom_ne_dot {name : List Char} (h : name ≠ ['.']) : ofAtom name ≠ sym "." := by
  unfold ofAtom
  split
  · exact nofun
  · intro heq
    have hname := congrArg String.toList (Datum.sym.inj heq)
    rw [String.toList_ofList] at hname
    exact h hname

/-- **A token that is no quote mark** keeps lone dots out of the elements. -/
theorem plain_meet (hmark : token ≠ .mark) (hframes : ∀ f ∈ frames, f.Plain) :
    (meet frames token).Plain := by
  cases token with
  | mark => exact absurd rfl hmark
  | opening =>
    show Effect.Plain (if _ then _ else _)
    split
    · trivial
    · exact List.forall_mem_cons.mpr ⟨fun d hd => absurd hd List.not_mem_nil, hframes⟩
  | text s => exact ⟨⟨trivial, nofun⟩, hframes⟩
  | unclosedText => trivial
  | closing =>
    cases frames with
    | nil => trivial
    | cons frame outer =>
      obtain ⟨hframe, houter⟩ := List.forall_mem_cons.mp hframes
      cases frame with
      | elements seen =>
        exact ⟨⟨undotted_onto trivial hframe, fun h => absurd h (onto_ne_sym nofun)⟩, houter⟩
      | _ => trivial
  | atom name =>
    have hvalue : (∀ seen outer, frames ≠ .elements seen :: outer) → Effect.Plain (.value (ofAtom name) frames) :=
      fun h => ⟨⟨undotted_ofAtom name, fun _ => h⟩, hframes⟩
    cases frames with
    | nil => exact hvalue nofun
    | cons frame outer =>
      cases frame with
      | elements seen =>
        obtain ⟨hframe, houter⟩ := List.forall_mem_cons.mp hframes
        show Effect.Plain (if name = ['.'] then _ else _)
        by_cases hdot : name = ['.']
        · rw [if_pos hdot]
          by_cases hfirst : seen = []
          · rw [if_pos hfirst]
            trivial
          · rw [if_neg hfirst]
            exact List.forall_mem_cons.mpr ⟨⟨hfirst, hframe⟩, houter⟩
        · rw [if_neg hdot]
          exact ⟨⟨undotted_ofAtom name, fun h => absurd h (ofAtom_ne_dot hdot)⟩, hframes⟩
      | _ => exact hvalue nofun

theorem plain_effect (hmark : token ≠ .mark) (hframes : ∀ f ∈ frames, f.Plain) :
    (effect frames token).Plain := by
  have hmeet := plain_meet hmark hframes
  cases frames with
  | nil => exact hmeet
  | cons frame outer =>
    cases frame with
    | closing whole =>
      obtain ⟨hframe, houter⟩ := List.forall_mem_cons.mp hframes
      cases token with
      | closing => exact ⟨⟨hframe.2, fun h => absurd h hframe.1⟩, houter⟩
      | _ => trivial
    | _ => exact hmeet

/-- **Where no quote mark is read, no element is a lone dot.** -/
theorem undotted_of_parseFrom (hsrc : Markless src) (hframes : ∀ f ∈ frames, f.Plain)
    (h : parseFrom frames src = .ok (d, rest)) : d.Undotted := by
  induction hsrc generalizing frames with
  | done hnext =>
    rw [parseFrom_none hnext] at h
    cases h
  | @more src rest' token hnext hmark hrest ih =>
    have heffect := plain_effect hmark hframes
    rw [parseFrom_some hnext] at h
    split at h
    · cases h
    · rename_i frames' heq
      rw [heq] at heffect
      exact ih heffect h
    · rename_i d' frames' heq
      rw [heq] at heffect
      have hdeliver := plain_deliver heffect.1 heffect.2
      unfold finish at h
      split at h
      · rename_i whole heq'
        rw [heq'] at hdeliver
        cases h
        exact hdeliver
      · rename_i frames₂ heq'
        rw [heq'] at hdeliver
        exact ih hdeliver h

/-- **What a text without quote marks says has no lone dot as an element.** -/
theorem undotted_of_parse (hsrc : Markless src) (h : parse src = .ok (some d, rest)) : d.Undotted :=
  undotted_of_parseFrom hsrc (fun _ hf => absurd hf List.not_mem_nil) (parseFrom_of_parse h)

end Datum

end LispMachine
