import LispMachine.Proofs.Balance.Evaluation
import LispMachine.Proofs.Listener.Emptied
import LispMachine.Proofs.Twin.Execution

/-!
# A text in pieces, and as a whole

The right one of two contexts runs a text as a whole, the left one piece by piece. Before each of its
pieces the left one has dropped the value of the last form, which the right one keeps.

* `Agree.of_right` -- of two heaps of the same sizes, the left one is not exhausted before the right one;
* `Couple.Matched.eval_of_right` -- **what the right side evaluates, the left side evaluates**, and both
  are left as they have been but for the heap;
* `Abreast` -- two contexts that run the same text: what the right side reads, evaluates and keeps, so
  does the left side;
* `Between`, `Between.form` -- **two contexts between two forms**, and from one form to the next;
* `Between.forms` -- **a piece of a text is run alike** on its own and with the rest of the text behind
  it, by induction on the budget of the whole.
-/

namespace LispMachine

open World Machine Context

variable {lex : Lexicon} {host : Host} {D : Couple} {budget n base : Nat} {u u' v v' : Value}
variable {src rest more : List Char} {echo : Bool} {said : String × String} {c c' d' c₁' c₂' c₃' : Context}

/-! ## 1. What the right side can do -/

/-- **Of two heaps of the same sizes, the left one is not exhausted before the right one**: where the
    right side comes to an end, the left one does. -/
theorem Agree.of_right {α α' : Type} {S : Shape → Prop} {r : EStateM.Result Fault Context α} {a' : α'}
    {Q : Value × Value → Couple → α → α' → Prop} (h : Agree lex S n D Q r (.ok a' c'))
    (hlevel : lex.level) : ∃ γ W σ c a, r = .ok a c ∧ (Couple.mk W c c' σ).Matched lex γ ∧
      D.Onward S n ⟨W, c, c', σ⟩ ∧ Q γ ⟨W, c, c', σ⟩ a a' := by
  cases h with
  | ok hg ho hq => exact ⟨_, _, _, _, _, rfl, hg, ho, hq⟩
  | exhausted_left himp =>
    obtain ⟨e, c'', h⟩ := himp hlevel
    cases h

/-- Contexts that stand alike: as high a root stack, and as deep an evaluation. -/
structure Context.Stands (n : Nat) (κ : Registers) (c : Context) : Prop where
  height : c.heap.roots.size = n
  depth : c.depth = κ.depth
  maxDepth : c.maxDepth = κ.maxDepth
  peakDepth : c.peakDepth ≤ κ.maxDepth

/-- Whatever is on the root stack may be below what matters. -/
theorem Stance.above (h : c.heap.roots.size = n) : Stance #[] n c.registers c :=
  ⟨Nat.zero_le n, h, fun _ hi => absurd hi (Nat.not_lt_zero _), rfl⟩

theorem Stance.stands {κ : Registers} (h : Stance #[] n κ c) (hpeak : κ.peakDepth ≤ κ.maxDepth) :
    c.Stands n κ where
  height := h.height
  depth := h.registers ▸ rfl
  maxDepth := h.registers ▸ rfl
  peakDepth := h.registers ▸ hpeak

/-- A machine in order that has come to an end stands as it has stood at the start. -/
theorem InOrder.stands {start : State} (h : InOrder host start ⟨c, .give v, []⟩) :
    c.Stands start.context.heap.roots.size start.context.registers := by
  obtain ⟨n, κ, _, hc, how, -, hmax, -, hpeak, -⟩ := h
  have hregisters := hc.registers
  subst hregisters
  replace how : Owing _ _ _ _ n c.registers.depth c.registers.current _ [] := how
  generalize hk : c.registers.depth = k at how
  generalize c.registers.current = g at how
  cases how with
  | nil =>
    exact
      { height := hc.height
        depth := hk
        maxDepth := hmax
        peakDepth := Nat.le_trans hpeak (Nat.le_of_eq hmax) }

/-- Without an embedding program, a task is done in balance. -/
theorem Machine.stands_of_run {task : Task} (hlooping : c.looping = false)
    (hdepth : c.depth ≤ c.maxDepth) (hpeak : c.peakDepth ≤ c.maxDepth)
    (hexec : ∀ source echo, task = .exec source echo → c.current = .nil)
    (hrun : run Host.none budget task [] c = .ok u d') :
    d'.Stands c.heap.roots.size c.registers := by
  have hstart : InOrder Host.none ⟨c, task, []⟩ ⟨c, task, []⟩ := .refl hlooping hdepth hpeak hexec
  exact (hstart.reaches Host.balanced_none (reaches_of_run hrun)).stands

/-- **What the right side can evaluate, the left one can**, and both stand afterwards as the left one has
    stood before. No program of a standard context gets hold of what its embedding program supplies, so
    that it may as well be none. -/
theorem Couple.Matched.eval_of_right {env env' expr expr' : Value} {c'' : Context}
    (hplain : lex.nested = false) (hfull : lex.vacant = none) (hlevel : lex.level) (hD : D.Matched lex (.nil, .nil))
    (hlex : Lexical lex D) (henv : D.world.Rel (.just .frame) env env')
    (hexpr : D.world.Rel .code expr expr') (hlooping : D.left.looping = false)
    (hdepth : D.left.depth ≤ D.left.maxDepth) (hpeak : D.left.peakDepth ≤ D.left.maxDepth)
    (hright : run host budget (.eval env' expr' false) [] D.right = .ok u' c'') :
    ∃ W σ u c, run host budget (.eval env expr false) [] D.left = .ok u c ∧
      (Couple.mk W c c'' σ).Matched lex (.nil, .nil) ∧ Lexical lex ⟨W, c, c'', σ⟩ ∧
      W.Rel (.just .data) u u' ∧ c.Stands D.height D.left.registers := by
  have hboth : Together lex (.nil, .nil) D (.eval env expr false) [] (.eval env' expr' false) [] :=
    .task (Nat.zero_le _) (.eval_inner henv hexpr) (.nil (n := 0))
  have hrun : ∀ host₀ : Host, Steps lex Shape.Fixed 0 D
      (run host₀ budget (.eval env expr false) []) (run host budget (.eval env' expr' false) [])
      (Leads.Ended lex) := fun host₀ => Leads.run budget hplain hfull hD hlex hboth
  have hnone := hrun Host.none
  have hhost := hrun host
  rw [Steps, hright] at hnone hhost
  obtain ⟨_, W₀, σ₀, d, w, hd, hD₀, -, -⟩ := hnone.of_right hlevel
  obtain ⟨γ, W, σ, c, u, hc, hD', -, rfl, hlex', hu⟩ := hhost.of_right hlevel
  refine ⟨W, σ, u, c, hc, hD', hlex', hu, ?_⟩
  have hexec : ∀ source echo, Task.eval env expr false = .exec source echo → D.left.current = .nil :=
    fun _ _ h => by cases h
  have hstands := stands_of_run hlooping hdepth hpeak hexec hd
  have hσ₀ : σ₀ = id := hD₀.coherent.plain hplain
  have hσ : σ = id := hD'.coherent.plain hplain
  have hheight₀ : c''.heap.roots.size = σ₀ d.heap.roots.size := hD₀.height_eq
  have hheight : c''.heap.roots.size = σ c.heap.roots.size := hD'.height_eq
  rw [hσ₀] at hheight₀
  rw [hσ] at hheight
  exact
    { height := (hheight.symm.trans hheight₀).trans hstands.height
      depth := ((hD'.depth hplain).trans (hD₀.depth hplain).symm).trans hstands.depth
      maxDepth := ((hD'.maxDepth hplain).trans (hD₀.maxDepth hplain).symm).trans hstands.maxDepth
      peakDepth := by
        have hsame := (hD'.peakDepth hplain).trans (hD₀.peakDepth hplain).symm
        exact Nat.le_trans (Nat.le_of_eq hsame) hstands.peakDepth }

/-- A value is kept and printed alike. -/
theorem Leads.keep {S : Shape → Prop} (hD : D.Matched lex γ) (hb : base < D.height)
    (hv : D.world.Rel (.just .data) v v') :
    Leads lex S base γ D (Machine.keep base echo v) (Machine.keep (D.slot base) echo v') fun _ _ _ => True := by
  unfold Machine.keep
  refine bind hD (setRoot hD (Nat.le_refl base) hb hv.slot) (Nat.le_refl base)
    fun {D₁ _ _} hD₁ ho₁ hq => ?_
  subst hq
  have hv₁ : (D.slotSet base v v').world.Rel (.just .data) v v' := hv
  have hle := ho₁.heaps.height
  generalize D.slotSet base v v' = D₁ at *
  refine ite (by rw [hv₁.same.isNil_eq]) (fun _ => ?_) fun _ => pure hD₁ hle ⟨rfl, trivial⟩
  have hline := congrArg (· ++ "\n") (hD₁.display_eq hv₁.same)
  exact observe ((write hD₁ hle hline).weaken (fun _ => id) (Nat.le_refl _) fun _ _ _ => ⟨rfl, trivial⟩)

/-- A value is kept where there is a slot for it, and all else stands as before. -/
theorem Yields.keep {bottom : Array Value} {κ : Registers} (hc : Stance bottom n κ c)
    (hb : bottom.size ≤ base) :
    Yields (Machine.keep base echo v) c fun _ c' => Stance bottom n κ c' := by
  unfold Machine.keep
  refine (setRoot hc hb).bind fun _ c₁ hc₁ => .ite (fun _ => ?_) fun _ => .pure hc₁
  exact ((Idle.write _).yields hc₁).weaken fun _ _ h => h.1

/-! ## 2. Forms -/

/-- **Two contexts that run the same text**, each in the slot `base`. -/
structure Abreast (lex : Lexicon) (base : Nat) (D : Couple) : Prop where
  plain : lex.nested = false
  level : lex.level
  matched : D.Matched lex (.nil, .nil)
  lexical : Lexical lex D
  height : D.height = base + 1
  depth : D.left.depth ≤ D.left.maxDepth
  peakDepth : D.left.peakDepth ≤ D.left.maxDepth

namespace Abreast

theorem slot_eq (h : Abreast lex base D) : D.slot = id := h.matched.coherent.plain h.plain

theorem lt_height (h : Abreast lex base D) : base < D.height := h.height ▸ Nat.lt_succ_self base

/-- What leaves the left context as it stands lets the two go on. -/
theorem of_stands {D' : Couple} (h : Abreast lex base D) (hD : D'.Matched lex (.nil, .nil))
    (hlex : Lexical lex D') (hstands : D'.left.Stands (base + 1) D.left.registers) :
    Abreast lex base D' where
  plain := h.plain
  level := h.level
  matched := hD
  lexical := hlex
  height := hstands.height
  depth := by
    rw [hstands.depth, hstands.maxDepth]
    exact h.depth
  peakDepth := by
    rw [hstands.maxDepth]
    exact hstands.peakDepth

/-- Every form that the right side reads, the left side reads. -/
theorem read {form' : Value} (h : Abreast lex base D)
    (hread : Reader.read src D.right = .ok (.ok (some form'), rest) c₁') :
    ∃ W c₁ form, Reader.read src D.left = .ok (.ok (some form), rest) c₁ ∧
      Abreast lex base ⟨W, c₁, c₁', id⟩ ∧ c₁.looping = D.left.looping ∧ W.Rel .code form form' := by
  have hleads := Leads.read (S := fun _ => False) h.matched h.lexical src
  rw [Leads, Steps, hread] at hleads
  obtain ⟨_, W, σ, c₁, ⟨r, rest'⟩, hleft, hD, ho, rfl, hrest, hagree⟩ := hleads.of_right h.level
  obtain rfl : σ = id := hD.coherent.plain h.plain
  cases hrest
  cases hagree with
  | @form form _ hform =>
    have hstance : Stance #[] (base + 1) D.left.registers c₁ :=
      ((Idle.read src).yields (.above h.height) _ _ hleft).1
    have hlooping : c₁.looping = D.left.looping := congrArg Registers.looping hstance.registers
    exact ⟨W, c₁, form, hleft, h.of_stands hD (h.lexical.onward ho) (hstance.stands h.peakDepth),
      hlooping, hform⟩

/-- The form comes into the slot. -/
theorem fill {ρ : Role} (h : Abreast (lex.after (some base) said) base D) (hv : D.world.Rel ρ v v') :
    Abreast (lex.after none said) base (D.slotSet base v v') where
  plain := h.plain
  level := h.level
  matched := h.matched.fill h.lt_height hv.slot
  lexical := ⟨h.lexical.forms, h.lexical.quote⟩
  height := (Couple.height_slotSet D base v v').trans h.height
  depth := h.depth
  peakDepth := h.peakDepth

/-- Every expression that the right side evaluates, the left side evaluates. -/
theorem eval {env env' expr expr' : Value} {c'' : Context} (h : Abreast lex base D)
    (hfull : lex.vacant = none) (hlooping : D.left.looping = false)
    (henv : D.world.Rel (.just .frame) env env') (hexpr : D.world.Rel .code expr expr')
    (hright : run host budget (.eval env' expr' false) [] D.right = .ok u' c'') :
    ∃ W u c, run host budget (.eval env expr false) [] D.left = .ok u c ∧
      Abreast lex base ⟨W, c, c'', id⟩ ∧ W.Rel (.just .data) u u' := by
  obtain ⟨W, σ, u, c, hleft, hD, hlex, hu, hstands⟩ := h.matched.eval_of_right h.plain hfull h.level
    h.lexical henv hexpr hlooping h.depth h.peakDepth hright
  obtain rfl : σ = id := hD.coherent.plain h.plain
  exact ⟨W, u, c, hleft, h.of_stands hD hlex (h.height ▸ hstands), hu⟩

/-- Every value that the right side keeps and prints, the left side does. -/
theorem keep {c'' : Context} (h : Abreast lex base D) (hu : D.world.Rel (.just .data) u u')
    (hright : Machine.keep base echo u' D.right = .ok () c'') :
    ∃ W c, Machine.keep base echo u D.left = .ok () c ∧ Abreast lex base ⟨W, c, c'', id⟩ := by
  have hleads : Leads lex (fun _ => False) base _ D (Machine.keep base echo u)
      (Machine.keep (D.slot base) echo u') _ := Leads.keep h.matched h.lt_height hu
  rw [Leads, Steps, h.slot_eq, id, hright] at hleads
  obtain ⟨_, W, σ, c, _, hleft, hD, ho, rfl, -⟩ := hleads.of_right h.level
  obtain rfl : σ = id := hD.coherent.plain h.plain
  have hstance : Stance #[] (base + 1) D.left.registers c :=
    Yields.keep (.above h.height) (Nat.zero_le base) _ _ hleft
  exact ⟨W, c, hleft, h.of_stands hD (h.lexical.onward ho) (hstance.stands h.peakDepth)⟩

end Abreast

/-! ## 3. Between two forms -/

/-- **Two contexts between two forms of a text.** The left one may have dropped what is in the slot, and a
    failure is left behind by the next form. -/
def Between (lex : Lexicon) (base : Nat) (c c' : Context) : Prop :=
  ∃ W, Abreast (lex.after (some base) (c.output, c'.output)) base ⟨W, c.quiet, c'.quiet, id⟩

/-- After a form the next one may come. -/
theorem Abreast.between (h : Abreast lex base D) (hfull : lex.vacant = none) :
    Between lex base D.left D.right := by
  refine ⟨D.world, ?_⟩
  have hD := h.matched.quiet
  rw [h.slot_eq] at hD
  exact
    { plain := h.plain
      level := h.level
      matched := hD.vacate (.inl hfull) (Couple.printed_now _ _)
      lexical := ⟨h.lexical.forms, h.lexical.quote⟩
      height := h.height
      depth := h.depth
      peakDepth := h.peakDepth }

/-- A piece of a text and the rest of it, with a cut between them, if there is a rest. -/
def Severed (src more : List Char) : Prop := Cut 0 src ∨ more = []

namespace Severed

theorem passes (h : Severed src more) (hpasses : Passes 0 src 0 rest) : Severed rest more :=
  h.imp_left fun hcut => hcut.passes hpasses

/-- Before the piece ends, nothing of the rest is read. -/
theorem read (h : Severed src more) (hnext : Token.next? src ≠ none) :
    Reader.read (src ++ more) c = Reader.followedBy more (Reader.read src) c := by
  rcases h with hcut | rfl
  · exact Reader.read_append hcut hnext
  · rw [List.append_nil]
    cases hread : Reader.read src c with
    | ok p d => rw [Reader.followedBy_ok hread, List.append_nil]
    | error e d => rw [Reader.followedBy_error hread]

theorem next?_ne_none (h : Severed src more) (hnext : Token.next? src ≠ none) :
    Token.next? (src ++ more) ≠ none := by
  rcases h with hcut | rfl
  · obtain ⟨⟨token, rest⟩, hsome⟩ := Option.ne_none_iff_exists'.mp hnext
    rw [hcut.next?_append hsome]
    exact Option.some_ne_none _
  · rwa [List.append_nil]

/-- When the piece has ended, the rest goes on. -/
theorem forms_end (h : Severed src more) (hnone : Token.next? src = none) :
    forms host budget (src ++ more) base echo c = forms host budget more base echo c := by
  rcases h with hcut | rfl
  · exact forms_blank_append hcut.lined hnone
  · rw [List.append_nil]
    exact run_bind_congr_left ((enterNextForm_end hnone).trans (enterNextForm_end rfl).symm)

end Severed

namespace Between

/-- **A form is read, evaluated, kept and printed alike.** -/
theorem form {form' : Value} {s : Nat} (h : Between lex base c c')
    (hread : Reader.read src c'.quiet = .ok (.ok (some form'), rest) c₁')
    (hrun : run host (s + 1) (.eval c₁'.rootEnv form' false) [] (c₁'.slotted base form') = .ok u' c₂')
    (hkeep : Machine.keep base echo u' c₂' = .ok () c₃') :
    ∃ form u c₁ c₂ c₃ out, Reader.read src c.quiet = .ok (.ok (some form), rest) c₁ ∧
      base < c₁.heap.roots.size ∧
      run host (s + 1) (.eval c₁.rootEnv form false) [] (c₁.slotted base form) = .ok u c₂ ∧
      c₂.failing = c₂'.failing ∧ Machine.keep base echo u c₂ = .ok () c₃ ∧ Between lex base c₃ c₃' ∧
      c₃.output = c.output ++ out ∧ c₃'.output = c'.output ++ out := by
  obtain ⟨W, h⟩ := h
  obtain ⟨W₁, c₁, form, hread₁, h₁, hlooping, hform⟩ := h.read hread
  have h₂ := h₁.fill hform
  obtain ⟨W₂, u, c₂, hrun₂, h₃, hu⟩ := h₂.eval rfl hlooping h₂.matched.rootEnv.rel hform hrun
  obtain ⟨W₃, c₃, hkeep₃, h₄⟩ := h₃.keep hu hkeep
  obtain ⟨out, hout, hout'⟩ := h₄.matched.output
  have hbetween := h₄.between rfl
  exact ⟨form, u, c₁, c₂, c₃, out, hread₁, h₁.lt_height, hrun₂, h₃.matched.failing, hkeep₃, hbetween,
    hout, hout'⟩

theorem height (h : Between lex base c c') : c.heap.roots.size = base + 1 := by
  obtain ⟨_, h⟩ := h
  exact h.height

/-- **A piece of a text is run alike**, on its own and with the rest of the text behind it. -/
theorem forms {w : Value} (h : Between lex base c c') (hcut : Severed src more)
    (hright : forms host n (src ++ more) base echo c' = .ok w d') (hgoing : d'.failing = false) :
    ∃ m v d e' out, m ≤ n ∧ Machine.forms host n src base echo c = .ok v (d.quiet.cut base) ∧
      Machine.forms host m more base echo e' = .ok w d' ∧ Between lex base d e' ∧
      d.output = c.output ++ out ∧ e'.output = c'.output ++ out := by
  induction n using Nat.strongRecOn generalizing src c c' with
  | ind n ih =>
    by_cases hnext : Token.next? src = none
    · have hslot : c.heap.roots[base]? = some _ :=
        Array.getElem?_eq_getElem (h.height ▸ Nat.lt_succ_self base)
      have hends : Machine.Course host n src base echo c _ (c.quiet.cut base) :=
        .ends (course_of_forms hright hgoing).pos hnext hslot rfl
      rw [hcut.forms_end hnext] at hright
      exact ⟨n, _, c, c', "", Nat.le_refl n, hends.forms_run, hright, h, String.append_empty.symm,
        String.append_empty.symm⟩
    · cases course_of_forms hright hgoing with
      | ends _ hnone _ _ => exact absurd hnone (hcut.next?_ne_none hnext)
      | @form form' u' left c₁' c₂' c₃' s m hbudget hread _ hrun hgoing₂ hkeep hlater =>
        rw [hcut.read hnext] at hread
        obtain ⟨rest, hread', rfl⟩ := Reader.of_followedBy hread
        obtain ⟨form, u, c₁, c₂, c₃, out, hread₁, hslot, hrun₁, hsame, hkeep₁, h₃, hout, hout'⟩ :=
          h.form hread' hrun hkeep
        have hrest := hcut.passes (Reader.read_passes src _ c₁' hread' form' rfl)
        obtain ⟨k, v, d, e', later, hle, hforms, hlast, hd, hlate, hlate'⟩ :=
          ih m (by omega) h₃ hrest hlater
        have hcourse : Machine.Course host n src base echo c v (d.quiet.cut base) :=
          .form hbudget hread₁ hslot hrun₁ (hsame.trans hgoing₂) hkeep₁ hforms
        refine ⟨k, v, d, e', out ++ later, by omega, hcourse.forms_run, hlast, hd, ?_, ?_⟩
        · rw [hlate, hout, String.append_assoc]
        · rw [hlate', hout', String.append_assoc]

end Between

end LispMachine
