import LispMachine.Proofs.Datum.Dots
import LispMachine.Proofs.Datum.Reading
import LispMachine.Proofs.Twin.Session

/-!
# Printing and reading again

* `Couple.Matched.sane`, `Context.create_sane`, `Context.sane_of_session` -- contexts that are made, and
  those that texts lead to, keep the invariants;
* `Context.Rereads` -- the text of a value is read as a value that is equal in structure;
* `Context.read_display` -- **a printed value is read back**;
* `Context.reread_iff` -- **what has been read is read back from its text just if no element of a list is
  the symbol of a lone dot**.
-/

namespace LispMachine

variable {cfg : Config} {c c' : Context} {v v' : Value} {d d' : Datum}

/-! ## 1. Contexts -/

theorem Couple.Matched.sane {lex : Lexicon} {γ : Value × Value} {D : Couple} (hD : D.Matched lex γ) :
    D.left.Sane where
  valid := hD.valid_left
  sound := hD.sound_left
  strings := by
    have htypes : D.left.heap.types = .core := hD.coherent.types_left
    rw [Heap.IsMakeable, htypes]
    exact ⟨by decide, rfl⟩

namespace Context

/-- A context without an environment. -/
theorem sane_bare {h : Heap} {t : SymbolTable} (hh : Heap.create cfg = .ok h)
    (ht : SymbolTable.create cfg.symbolCapacity = .ok t) : (bare h t cfg.maxDepth).Sane := by
  have hD : (Couple.mk (fun _ _ _ => False) (bare h t cfg.maxDepth) (bare h t cfg.maxDepth) id).Matched
      { forms := fun _ => none, natives := fun _ => False, nested := false, uncounted := nofun }
      (.nil, .nil) :=
    Couple.matched_bare (fun _ => rfl) rfl (fun _ => rfl) hh hh ht ht
  exact hD.sane

/-- The standard context. -/
theorem create_sane (hc : create cfg = .ok c) : c.Sane := by
  obtain ⟨_, _, _, _, _, hD, _⟩ := create_matched rfl hc hc
  exact hD.sane

/-- **Texts lead to contexts that keep the invariants.** -/
theorem sane_of_session {host : Host} {texts : List (String × Bool)} {seen : List Report}
    (hc : create cfg = .ok c) (hrun : session host texts c = .ok seen c') : c'.Sane := by
  obtain ⟨lex, W, σ, hplain, huntouched, hD, hlex⟩ := create_matched rfl hc hc
  have hsteps : Steps lex Shape.Fixed 0 ⟨W, c, c, σ⟩ (session host texts) (session host texts) _ :=
    Leads.session texts hplain huntouched.full hD hlex
  rw [Steps, hrun] at hsteps
  cases hsteps with
  | ok hD' _ _ => exact hD'.sane

/-! ## 2. Reading again -/

/-- Values that are equal in structure stand for the same datum. -/
theorem Denotes.eq_of_alike (hv : c.Denotes v d) (hv' : c'.Denotes v' d') (h : c.Alike c' v v')
    (hnames : c'.symbols.Extends c.symbols) : d = d' := by
  induction h generalizing d d' with
  | nil =>
    cases hv
    cases hv'
    rfl
  | int n =>
    cases hv
    cases hv'
    rfl
  | sym id =>
    cases hv with
    | sym hname =>
      cases hv' with
      | sym hname' =>
        rw [hnames _ _ hname] at hname'
        exact congrArg Datum.sym (Option.some.inj hname')
  | str hcell hcell' =>
    cases hv with
    | text hs =>
      cases hv' with
      | text hs' =>
        rw [hcell] at hs
        rw [hcell'] at hs'
        cases hs
        have hbytes := Payload.text.inj (Cell.object.inj (Option.some.inj hs')).2
        exact congrArg Datum.text (String.toByteArray_inj.mp hbytes)
  | pair hcell hcell' _ _ ihx ihy =>
    cases hv with
    | pair hs hx hy =>
      cases hv' with
      | pair hs' hx' hy' =>
        rw [hcell] at hs
        rw [hcell'] at hs'
        cases hs
        cases hs'
        rw [ihx hx hx', ihy hy hy']

/-- **The text is read as a value that is equal in structure**, nothing of it is left, and then there is
    the end of the text. -/
def Rereads (c : Context) (v : Value) (r : Except ReadError (Option Value) × List Char) (c' : Context) :
    Prop :=
  ∃ v', r = (.ok (some v'), []) ∧ c.Alike c' v v' ∧ Reader.read [] c' = .ok (.ok none, []) c'

/-- **A printed value is read back.** The value is a tree of integers, symbols that are read as such,
    strings of valid text and pairs, within the limits of the printer, and no element of a list is the
    symbol of a lone dot. -/
theorem read_display (hc : c.Sane) (hv : c.Denotes v d) (hd : d.Legible) (hdot : d.Undotted)
    (hdepth : d.depth ≤ Printer.maxDepth) (hbreadth : d.breadth ≤ Printer.maxElements) :
    Attains (Reader.read (c.display v).toList) c (c.Rereads v) := by
  have hnesting : d.depth < Reader.maxNesting := Nat.lt_of_le_of_lt hdepth (by decide)
  refine (Attains.read hc _).weaken fun r c' h => ?_
  obtain ⟨hc', hnames, hanswer⟩ := h
  rw [hv.display_eq hdepth hbreadth, String.toList_ofList, Datum.parse_chars hd hdot hnesting] at hanswer
  cases hanswer with
  | some hv' => exact ⟨_, rfl, hv.alike hv' hc'.sound hnames, rfl⟩

/-- A heap and a symbol table for a few values. -/
def leaflet : Config where
  chunkCells := 16
  growth := .fixed
  symbolCapacity := 8

/-- There is room to read a text in such a context. -/
def IsReadable (src : List Char) : Prop :=
  ∃ h t, Heap.create leaflet = .ok h ∧ SymbolTable.create leaflet.symbolCapacity = .ok t ∧
    ∃ r c', Reader.read src (bare h t leaflet.maxDepth) = .ok r c'

/-- The value of a text that says a datum. -/
theorem IsReadable.exists_denotes {src : List Char} {rest : List Char} (h : IsReadable src)
    (hsaid : Datum.parse src = .ok (some d, rest)) :
    ∃ c₀ c v, c₀.Sane ∧ Reader.read src c₀ = .ok (.ok (some v), rest) c ∧ c.Sane ∧ c.Denotes v d := by
  obtain ⟨heap, t, hh, ht, r, c, hrun⟩ := h
  have hsane := sane_bare hh ht
  obtain ⟨hc, _, hanswer⟩ := (Attains.read hsane src).ok hrun
  rw [hsaid] at hanswer
  cases hanswer with
  | some hv => exact ⟨_, c, _, hsane, hrun, hc, hv⟩

instance (src : List Char) : Decidable (IsReadable src) :=
  decidable_of_iff
    ((match Heap.create leaflet, SymbolTable.create leaflet.symbolCapacity with
      | .ok h, .ok t =>
        match Reader.read src (bare h t leaflet.maxDepth) with
        | .ok _ _ => true
        | .error _ _ => false
      | _, _ => false) = true) (by
    unfold IsReadable
    cases Heap.create leaflet with
    | error e => simp
    | ok h =>
      cases SymbolTable.create leaflet.symbolCapacity with
      | error e => simp
      | ok t =>
        cases hrun : Reader.read src (bare h t leaflet.maxDepth) with
        | error e c' => simp [hrun]
        | ok r c' => simpa [hrun] using ⟨r.1, r.2, rfl⟩)

/-- A tree with every kind of part: a string that needs escapes, an integer at the bound, a dotted pair,
    the empty list as an element, and a tail that is a string. -/
def sampler : Datum :=
  .pair (.sym "λ->x") (.pair (.text "\"\\\n") (.pair (.pair (.int (-536870912)) (.sym ".."))
    (.pair .nil (.text "é"))))

theorem read_display_sampler : ∃ c v, c.Sane ∧ c.Denotes v sampler ∧ sampler.Legible ∧
    sampler.Undotted ∧ sampler.depth ≤ Printer.maxDepth ∧ sampler.breadth ≤ Printer.maxElements ∧
      Attains (Reader.read (c.display v).toList) c (c.Rereads v) := by
  have hd : sampler.Legible := by decide
  have hdot : sampler.Undotted := by decide
  have hreadable : IsReadable sampler.chars := by decide +kernel
  obtain ⟨_, c, v, _, _, hc, hv⟩ :=
    hreadable.exists_denotes (Datum.parse_chars hd hdot (by decide))
  exact ⟨c, v, hc, hv, hd, hdot, by decide, by decide,
    read_display hc hv hd hdot (by decide) (by decide)⟩

/-- **Whatever has been read is read back from its text**, within the limits of the printer, just if no
    element of a list is the symbol of a lone dot. -/
theorem reread_iff (hc : c.Sane) (src : List Char) : Attains (Reader.read src) c fun r c' =>
    ∀ v, r.1 = .ok (some v) → ∃ d, c'.Denotes v d ∧ d.Legible ∧
      (d.depth ≤ Printer.maxDepth → d.breadth ≤ Printer.maxElements →
        Attains (Reader.read (c'.display v).toList) c' fun r' c'' => c'.Rereads v r' c'' ↔ d.Undotted) := by
  refine (Attains.read hc src).weaken fun r c₁ h v hr => ?_
  obtain ⟨hc₁, _, hanswer⟩ := h
  generalize hsaid : Datum.parse src = said at hanswer
  cases hanswer with
  | none => cases hr
  | error => cases hr
  | @some v d rest hv =>
    cases hr
    have hd : d.Legible := Datum.legible_of_parse hsaid
    refine ⟨d, hv, hd, fun hdepth hbreadth => ?_⟩
    by_cases hdot : d.Undotted
    · exact (read_display hc₁ hv hd hdot hdepth hbreadth).weaken fun r' c₂ h => iff_of_true h hdot
    · -- what is read from a text without quote marks is another datum
      refine (Attains.read hc₁ _).weaken fun r' c₂ h => iff_of_false ?_ hdot
      obtain ⟨hc₂, hnames, hanswer'⟩ := h
      rw [hv.display_eq hdepth hbreadth, String.toList_ofList] at hanswer'
      rintro ⟨v', rfl, halike, -⟩
      generalize hsaid' : Datum.parse d.chars = said' at hanswer'
      cases hanswer' with
      | some hv' =>
        have heq := hv.eq_of_alike hv' halike hnames
        have hundotted := Datum.undotted_of_parse (Datum.markless_chars hd) hsaid'
        rw [← heq] at hundotted
        exact hdot hundotted

/-- A quote mark and a dotted pair; a comment and a symbol are left. -/
theorem reread_iff_quoted : ∃ c v c', c.Sane ∧
    Reader.read "'(a . \"x\") ; y\n b".toList c = .ok (.ok (some v), " ; y\n b".toList) c' ∧
      ∃ d, c'.Denotes v d ∧ d.Legible ∧
        (d.depth ≤ Printer.maxDepth → d.breadth ≤ Printer.maxElements →
          Attains (Reader.read (c'.display v).toList) c' fun r' c'' =>
            c'.Rereads v r' c'' ↔ d.Undotted) := by
  have hsaid : Datum.parse "'(a . \"x\") ; y\n b".toList =
      .ok (some (.quoted (.pair (.sym "a") (.text "x"))), " ; y\n b".toList) := by with_unfolding_all rfl
  have hreadable : IsReadable "'(a . \"x\") ; y\n b".toList := by decide +kernel
  obtain ⟨c, c', v, hc, hrun, _, _⟩ := hreadable.exists_denotes hsaid
  exact ⟨c, v, c', hc, hrun, (reread_iff hc _).ok hrun v rfl⟩

/-- **A quoted dot is not read back**: its text `(quote .)` is an error. -/
theorem not_rereads_dot : ∃ c₀ c v, c₀.Sane ∧ Reader.read "'.".toList c₀ = .ok (.ok (some v), []) c ∧
    c.display v = "(quote .)" ∧
      Attains (Reader.read (c.display v).toList) c fun r c' => r.1 = .error .unexpectedClosing ∧
        ¬ c.Rereads v r c' := by
  have hsaid : Datum.parse "'.".toList = .ok (some (.quoted (.sym ".")), []) := by with_unfolding_all rfl
  have hreadable : IsReadable "'.".toList := by decide +kernel
  obtain ⟨c₀, c, v, hc₀, hrun, hc, hv⟩ := hreadable.exists_denotes hsaid
  have htext : c.display v = "(quote .)" := by
    rw [hv.display_eq (by decide) (by decide)]
    decide
  refine ⟨c₀, c, v, hc₀, hrun, htext, (Attains.read hc _).weaken fun r c' h => ?_⟩
  obtain ⟨_, _, hanswer⟩ := h
  have herror : Datum.parse "(quote .)".toList = .error .unexpectedClosing := by with_unfolding_all rfl
  rw [htext, herror] at hanswer
  cases hanswer with
  | error => exact ⟨rfl, fun ⟨_, heq, _⟩ => by cases heq⟩

end Context

end LispMachine
