import LispMachine.Proofs.Trampoline.Alone

/-!
# Arguments on their way back

A self tail call hands its arguments to the call that is under way. On the left side they go past the
steps in tail position; on the right side a call of its own begins at once, and those steps stay.

* `Machine.Bringing` -- the evaluator stands as the steps that arguments are handed to need it;
* `Returning.arrives` -- **the arguments come to the body**, by induction on the steps in tail position, and
  the same steps are what the right side has alone from now on.
-/

namespace LispMachine

open World Context Machine Relation

variable {lex : Lexicon} {D : Couple} {γ : Value × Value} {host : Host} {b m n top base base' depth : Nat}
variable {f g v env' forms forms' : Value} {tail : Bool} {call call' : Call} {p : Pending}
variable {ps ps' : List Pending} {c : Context} {next : Next}

/-! ## 1. The evaluator stands in order -/

namespace Machine

/-- The evaluator stands as a task and the steps behind it need it. -/
def Upright (σ : State) : Prop :=
  ∃ base d f t n κ τ, Stance base n κ σ.context ∧ Owing base d f t n κ.depth κ.current τ σ.pending ∧
    σ.task.Suits κ.current τ

/-- It stands as steps need it that the arguments of a self tail call are handed to. -/
def Bringing (c : Context) (ps : List Pending) : Prop :=
  ∃ base d f t n κ, Stance base n κ c ∧ Owing base d f t n κ.depth κ.current true ps

/-- The root stack is as high as the call under way left it. -/
theorem Upright.height_body {frame : Value}
    (h : Upright ⟨c, .give v, .body call frame forms :: ps⟩) : c.heap.roots.size = call.base + 2 := by
  obtain ⟨base, d, f, t, n, κ, τ, hc, how, -⟩ := h
  rw [hc.height]
  generalize κ.depth = k at how
  generalize κ.current = g at how
  cases how
  rfl

theorem Upright.of_goes {base : Array Value} {d : Nat} {t : Bool} {κ : Context.Registers}
    (h : Goes base d f t κ ps next c) : Upright ⟨c, next.task, next.pending ++ ps⟩ := by
  obtain ⟨n, κ', τ, hc, -, how, ht⟩ := h
  exact ⟨base, d, f, t, n, κ', τ, hc, how, ht⟩

/-- A step in tail position keeps it so. -/
theorem Bringing.handsOn {c' : Context} (h : Bringing c (p :: ps)) (hgoing : c.failing = false)
    (hmore : p.hasMore c.heap = false) (hrun : p.resume host v c = .ok next c')
    (hlooping : c'.looping = true) : Bringing c' ps := by
  obtain ⟨base, d, f, t, n, κ, hc, how⟩ := h
  rcases LispMachine.handsOn hc how hgoing hmore next c' hrun with hoff | ⟨-, -, n', κ', hc', -, -, how'⟩
  · rw [hlooping] at hoff
    cases hoff
  · exact ⟨base, d, f, t, n', κ', hc', how'⟩

end Machine

/-! ## 2. The way back -/

namespace Context

theorem cut_cut (h : m ≤ n) : (c.cut n).cut m = c.cut m := by
  unfold cut
  have hroots : (c.heap.roots.shrink n).shrink m = c.heap.roots.shrink m := by
    simp [Array.shrink_eq_take, Nat.min_eq_left h]
  rw [hroots]

theorem cut_self (h : c.heap.roots.size = n) : c.cut n = c := by
  unfold cut
  subst h
  simp

/-- Arguments are on their way back, at a height of the root stack, in a heap with the same pairs. -/
structure HandsBack (c : Context) (h : Heap) (m : Nat) (ps : List Pending) : Prop where
  height : c.heap.roots.size = m
  cells : c.heap.cells = h.cells
  going : c.failing = false
  looping : c.looping = true
  bringing : Machine.Bringing c ps

end Context

/-- One more step that the right side has alone. -/
theorem Behind.cons {qs : List Pending} (h : Behind lex D n base' γ qs ps')
    (hp : ∀ {f g extra}, Unwinds lex D n base' f g extra → Unwinds lex D n top f g (p :: extra)) :
    Behind lex D n top γ qs (p :: ps') := by
  obtain ⟨g, extra, qs', rfl, hextra, hw⟩ := h
  exact ⟨g, p :: extra, qs', rfl, hp hextra, hw⟩

/-- The body that arguments have come back to, and the steps behind it. -/
structure Recalled (lex : Lexicon) (D : Couple) (b top : Nat) (γ : Value × Value) (call call' : Call)
    (qs ps' : List Pending) : Prop where
  base : call.base = b
  calls : CallAgree D call call'
  funcs : D.Kept b (.just .data) γ.1 γ.2
  closure : call'.closure = D.right.heap.closure γ.2
  /-- The right side has the steps in tail position and the body behind its own call. -/
  behind : Behind lex D b top (call.caller, γ.2) qs ps'

/-- A value is handed on to the body that it comes back to, on the left side. -/
def Arrives (host : Host) (lex : Lexicon) (D : Couple) (b top : Nat) (γ : Value × Value) (v : Value)
    (c : Context) (ps ps' : List Pending) : Prop :=
  ∃ call call' frame forms qs depth, Recalled lex D b top γ call call' qs ps' ∧
    ReflTransGen (Moves host true) ⟨c, .give v, ps⟩
      ⟨{ c.cut (b + 2) with depth }, .give v, .body call frame forms :: qs⟩ ∧
    Bringing { c.cut (b + 2) with depth } (.body call frame forms :: qs)

/-- A step in tail position hands the arguments on. -/
theorem Context.HandsBack.pass {h : Heap} (hc : c.HandsBack h m (p :: ps)) (hb : base ≤ m)
    (hmore : p.hasMore c.heap = false)
    (hrun : p.resume host v c = .ok (.give v) { c.cut base with depth }) :
    ({ c.cut base with depth } : Context).HandsBack h base ps where
  height := by
    show (c.heap.roots.shrink base).size = base
    rw [Array.size_shrink, hc.height, Nat.min_eq_left hb]
  cells := hc.cells
  going := hc.going
  looping := hc.looping
  bringing := hc.bringing.handsOn hc.going hmore hrun hc.looping

/-- So they arrive where the steps behind it hand them. -/
theorem Arrives.pass {p' : Pending}
    (h : Arrives host lex D b base' γ v { c.cut base with depth } ps ps') (hb : b + 2 ≤ base)
    (hrun : p.resume host v c = .ok (.give v) { c.cut base with depth })
    (hp : ∀ {f g extra}, Unwinds lex D b base' f g extra → Unwinds lex D b top f g (p' :: extra)) :
    Arrives host lex D b top γ v c (p :: ps) (p' :: ps') := by
  obtain ⟨call, call', frame, forms, qs, k, hr, hmoves, hup⟩ := h
  have hcut : ({ ({ c.cut base with depth } : Context).cut (b + 2) with depth := k } : Context) =
      { c.cut (b + 2) with depth := k } := by
    show ({ (c.cut base).cut (b + 2) with depth := k } : Context) = _
    rw [cut_cut hb]
  rw [hcut] at hmoves hup
  refine ⟨call, call', frame, forms, qs, k, { hr with behind := hr.behind.cons hp }, ?_, hup⟩
  exact .head (.give ((congrFun (Pending.resumeBy_true host v p) c).trans hrun)) hmoves

/-- **The arguments of a self tail call come back to the body** of the call that is under way. -/
theorem Returning.arrives (hD : D.Matched lex γ) (hnested : lex.nested = true)
    (h : Returning D b m ps ps') (hw : Waiting lex D n γ (.just .data) ps ps') (htop : D.slot m ≤ top)
    (hc : c.HandsBack D.left.heap m ps) : Arrives host lex D b top γ v c ps ps' := by
  have hslots : ∀ {base}, b + 2 ≤ base → ∀ i < b, D.slot i < D.slot base := fun hb i hi =>
    hD.coherent.slots (by omega)
  -- steps with no more forms leave the context as it is
  have hlast : ∀ {c : Context} {m ps forms forms'}, c.HandsBack D.left.heap m ps →
      LastForm D b forms forms' → (c.heap.cdr forms).isPair = false := fun hc hforms => by
    unfold Heap.cdr
    rw [hc.cells]
    exact hforms.last
  have hgoing : ∀ {c : Context} {m ps}, c.HandsBack D.left.heap m ps → c.failing = true → v = .nil :=
    fun hc hf => by
      rw [hc.going] at hf
      cases hf
  have stays : ∀ {c : Context} {m p ps}, c.HandsBack D.left.heap m (p :: ps) →
      p.resume host v c = .ok (.give v) c →
      p.resume host v c = .ok (.give v) { c.cut m with depth := c.depth } := fun hc hrun => by
    rw [cut_self hc.height]
    exact hrun
  induction h generalizing n c top with
  | @body call call' frame frame' forms forms' ps ps' hb hforms =>
    cases hw with
    | @body _ _ _ _ _ _ _ _ g extra _ qs' hcall hbn hγ hfunc hframe hforms' hextra hw =>
      subst hb
      have hself : ({ c.cut (call.base + 2) with depth := c.depth } : Context) = c := cut_self hc.height
      refine ⟨call, call', frame, forms, ps, c.depth, ⟨rfl, hcall, hγ, hfunc, ?_⟩, ?_, ?_⟩
      · have hslot : D.slot call.base ≤ D.slot (call.base + 2) :=
          hD.coherent.slots.monotone (Nat.le_add_right _ 2)
        refine ⟨g, .body call' frame' forms' :: extra, qs', rfl, ?_, hw⟩
        refine .body hnested ?_ (fun i hi => ?_) hforms hextra
        · rw [hcall.base]
          exact Nat.le_trans hslot htop
        · rw [hcall.base]
          exact hD.coherent.slots hi
      · rw [hself]
      · rw [hself]
        exact hc.bringing
  | @leave m base base' ps ps' hm h ih =>
    cases hw with
    | leave _ hb' hw =>
      have hrun : Pending.resume host v (.leave base) c =
          .ok (.give v) { c.cut base with depth := c.depth - 1 } :=
        resumeLeave_run (hc.height ▸ Nat.le_of_lt hm)
      have hle : D.slot base ≤ top := Nat.le_trans (hD.coherent.slots.monotone (Nat.le_of_lt hm)) htop
      subst hb'
      exact (ih hw (Nat.le_refl _) (hc.pass (Nat.le_of_lt hm) rfl hrun)).pass h.base_le hrun
        (.leave hnested hle (hslots h.base_le))
  | @release m base base' ps ps' hm h ih =>
    cases hw with
    | release _ hb' hw =>
      have hrun : Pending.resume host v (.release base) c =
          .ok (.give v) { c.cut base with depth := c.depth } :=
        resumeRelease_run (hc.height ▸ Nat.le_of_lt hm)
      have hle : D.slot base ≤ top := Nat.le_trans (hD.coherent.slots.monotone (Nat.le_of_lt hm)) htop
      subst hb'
      exact (ih hw (Nat.le_refl _) (hc.pass (Nat.le_of_lt hm) rfl hrun)).pass h.base_le hrun
        (.release hnested hle (hslots h.base_le))
  | sequence hforms h ih =>
    cases hw with
    | sequence _ _ _ hw =>
      have hrun := stays hc (resumeSequence_run (hlast hc hforms) (hgoing hc))
      exact (ih hw htop (hc.pass (Nat.le_refl _) (hlast hc hforms) hrun)).pass h.base_le hrun
        (.sequence hnested hforms)
  | conjunction hforms h ih =>
    cases hw with
    | conjunction _ _ _ hw =>
      have hrun := stays hc (resumeConjunction_run (hlast hc hforms) (hgoing hc))
      exact (ih hw htop (hc.pass (Nat.le_refl _) (hlast hc hforms) hrun)).pass h.base_le hrun
        (.conjunction hnested hforms)
  | disjunction hforms h ih =>
    cases hw with
    | disjunction _ _ _ hw =>
      have hrun := stays hc (resumeDisjunction_run (hlast hc hforms) (hgoing hc))
      exact (ih hw htop (hc.pass (Nat.le_refl _) (hlast hc hforms) hrun)).pass h.base_le hrun
        (.disjunction hnested hforms)

end LispMachine
