import LispMachine.Proofs.Listener.Emptied
import LispMachine.Proofs.Trampoline.Course
import LispMachine.Proofs.Twin.Execution

/-!
# Steps of one side alone

Where the right side has more calls under way, a value goes back through their steps before the two sides
go on alike. Each of these steps hands the value on:

* `Context.backed` -- a context after such a step;
* `Couple.aside`, `Couple.Matched.aside` -- **the two sides still correspond** when the right one drops
  slots of its own;
* `Unwinds.step` -- each step of the right side alone, by its constructor;
* `Behind.settle` -- **the right side catches up**, by induction on these steps.
-/

namespace LispMachine

open World Context Machine Relation

variable {lex : Lexicon} {D : Couple} {γ : Value × Value} {host : Host} {top depth base : Nat}
variable {f g v v' env forms frame : Value} {tail : Bool} {call : Call} {failure : String} {p : Pending}
variable {ps ps' extra : List Pending} {c : Context}

/-! ## 1. The right side drops slots -/

/-- A context with fewer slots, another function running, and another message. -/
def Context.backed (c : Context) (top depth : Nat) (failure : String) (g : Value) : Context :=
  { c.cut top with depth, failure, current := g }

/-- The right side has dropped slots of its own. -/
def Couple.aside (D : Couple) (top : Nat) (c' : Context) : Couple :=
  ⟨D.world.released D.height, D.left, c', Twin.cut D.slot D.height top⟩

namespace Couple

theorem twin_aside : (D.aside top (D.right.backed top depth failure g)).twin =
    D.twin.trimmed D.height top := by
  have hleft : D.left.heap.roots.shrink D.height = D.left.heap.roots := by
    unfold height
    simp
  unfold twin aside Twin.trimmed
  dsimp only
  rw [hleft]
  rfl

/-- **What corresponded still does.** -/
theorem Matched.aside (hD : D.Matched lex γ) (hnested : lex.nested = true)
    (htop : top ≤ D.right.heap.roots.size) (hslots : ∀ i < D.height, D.slot i < top)
    (hfailure : SameFailure lex D.left.failure failure) :
    (D.aside top (D.right.backed top depth failure g)).Matched lex (γ.1, g) ∧
      D.twin.Onward Shape.Fixed D.height (D.aside top (D.right.backed top depth failure g)).twin := by
  have hplain : ∀ {p : Prop}, lex.nested = false → p := fun h => by
    rw [hnested] at h
    cases h
  have hT : (D.twin.trimmed D.height top).Coherent lex :=
    hD.coherent.trimmed (Nat.le_refl _) htop hslots hplain
  have ho : D.twin.Onward Shape.Fixed D.height (D.twin.trimmed D.height top) :=
    .trimmed hD.coherent (Nat.le_refl _) hslots
  have hpop : Heap.popRoots top D.right.heap = .ok () (D.right.backed top depth failure g).heap :=
    if_pos htop
  refine ⟨?_, ?_⟩
  · exact
      { hD with
        coherent := twin_aside ▸ hT
        valid_right := (Heap.Operation.succeeds (.popRoots top) hD.valid_right hpop).valid
        rootEnv := by
          rw [twin_aside]
          exact hD.rootEnv.onward hD.coherent hT (ho.mono (fun _ h => h.elim) (Nat.zero_le _))
            (Nat.le_refl 0)
        current_right := rfl
        failure := hfailure
        depth := hplain
        maxDepth := hplain
        peakDepth := hplain
        level := fun h => hplain (lex.even h) }
  · exact twin_aside ▸ ho

end Couple

/-! ## 2. Each of its steps -/

namespace Machine

theorem popRoots_run (h : base ≤ c.heap.roots.size) :
    (liftM (Heap.popRoots base) : Run Unit) c = .ok () (c.cut base) := by
  show onHeap (Heap.popRoots base) c = _
  rw [onHeap, Heap.popRoots, if_pos h]
  rfl

theorem resumeRelease_run (h : base ≤ c.heap.roots.size) :
    resumeRelease base v c = .ok (.give v) (c.cut base) :=
  run_bind (popRoots_run h)

theorem resumeLeave_run (h : base ≤ c.heap.roots.size) :
    resumeLeave base v c = .ok (.give v) { c.cut base with depth := c.depth - 1 } :=
  run_bind (popRoots_run h)

/-- A call ends, perhaps with one more line of traceback. -/
theorem finish_run {cause : String} (h : call.base ≤ c.heap.roots.size)
    (hcause : Traced cause c.failure) : ∃ failure, Traced cause failure ∧
      finish call v c = .ok (.give v) (c.backed call.base c.depth failure call.caller) := by
  have hleave : ∀ failure : String, (do
      Heap.popRoots call.base
      modify fun c => { c with current := call.caller }
      pure (Next.give v) : Run Next) { c with failure } =
      .ok (.give v) (c.backed call.base c.depth failure call.caller) := fun failure =>
    run_bind (popRoots_run (c := { c with failure }) h)
  unfold finish
  rw [run_bind (show isFailing c = .ok c.failing c from rfl)]
  dsimp only
  split
  · let line := "In " ++ c.display call.closure.name ++ ":\n"
    refine ⟨if line.utf8ByteSize + c.failure.utf8ByteSize ≤ failureCap then line ++ c.failure
      else c.failure, hcause.prepend _, ?_⟩
    rw [run_bind (run_observe _ c), run_bind (Leads.prepend_run _ c)]
    exact hleave _
  · exact ⟨c.failure, hcause, hleave _⟩

/-- Behind the last form of a sequence, its value is handed on. -/
theorem resumeSequence_run (hlast : (c.heap.cdr forms).isPair = false)
    (hfail : c.failing = true → v = .nil) :
    resumeSequence env forms tail v c = .ok (.give v) c := by
  unfold resumeSequence
  rw [run_bind (show isFailing c = .ok c.failing c from rfl)]
  split
  · rw [hfail ‹_›]
    rfl
  · rw [run_bind (show look (·.cdr forms) c = .ok (c.heap.cdr forms) c from rfl), enterSequence,
      if_neg (by rw [hlast]; exact Bool.false_ne_true)]
    rfl

theorem resumeConjunction_run (hlast : (c.heap.cdr forms).isPair = false)
    (hfail : c.failing = true → v = .nil) :
    resumeConjunction env forms tail v c = .ok (.give v) c := by
  unfold resumeConjunction
  rw [run_bind (show isFailing c = .ok c.failing c from rfl)]
  split
  · rename_i h
    obtain rfl : v = .nil := by
      rcases Bool.or_eq_true_iff.mp h with h | h
      · exact hfail h
      · cases v <;> first | rfl | cases h
    rfl
  · rw [run_bind (show look (·.cdr forms) c = .ok (c.heap.cdr forms) c from rfl), enterConjunction,
      if_neg (by rw [hlast]; exact Bool.false_ne_true)]
    rfl

theorem resumeDisjunction_run (hlast : (c.heap.cdr forms).isPair = false)
    (hfail : c.failing = true → v = .nil) :
    resumeDisjunction env forms tail v c = .ok (.give v) c := by
  unfold resumeDisjunction
  rw [run_bind (show isFailing c = .ok c.failing c from rfl)]
  split
  · rw [hfail ‹_›]
    rfl
  · split
    · rfl
    · rename_i h
      obtain rfl : v = .nil := by
        cases v <;> first | rfl | exact absurd rfl h
      rw [run_bind (show look (·.cdr forms) c = .ok (c.heap.cdr forms) c from rfl), enterDisjunction,
        if_neg (by rw [hlast]; exact Bool.false_ne_true)]
      rfl

/-- Behind the last form of a body, the call ends. -/
theorem resumeBody_run {cause : String} (h : call.base ≤ c.heap.roots.size)
    (hlast : (c.heap.cdr forms).isPair = false) (hlooping : c.looping = false)
    (hfail : c.failing = true → v = .nil) (hcause : Traced cause c.failure) :
    ∃ failure, Traced cause failure ∧ resumeBody call frame forms v c =
      .ok (.give v) (c.backed call.base c.depth failure call.caller) := by
  unfold resumeBody
  rw [run_bind (show isFailing c = .ok c.failing c from rfl)]
  split
  · rw [hfail ‹_›]
    exact finish_run h hcause
  · rw [run_bind (run_observe Context.looping c), hlooping, if_neg Bool.false_ne_true,
      run_bind (show look (·.cdr forms) c = .ok (c.heap.cdr forms) c from rfl), enterForms,
      if_neg (by rw [hlast]; exact Bool.false_ne_true)]
    exact finish_run h hcause

end Machine

/-! ## 3. The right side catches up -/

/-- The left side has stood still, with a value at hand, while the right one went on alone. -/
structure Couple.Aside (lex : Lexicon) (D D' : Couple) (γ γ' : Value × Value) (v v' : Value) : Prop where
  left : D'.left = D.left
  matched : D'.Matched lex γ'
  running : γ'.1 = γ.1
  onward : D.twin.Onward Shape.Fixed D.height D'.twin
  value : D'.world.Rel (.just .data) v v'

namespace Couple.Aside

variable {D' D'' : Couple} {γ' γ'' : Value × Value}

theorem refl (hD : D.Matched lex γ) (hv : D.world.Rel (.just .data) v v') : Aside lex D D γ γ v v' :=
  ⟨rfl, hD, rfl, .refl (Nat.le_refl _), hv⟩

theorem height_eq (h : Aside lex D D' γ γ' v v') : D'.height = D.height :=
  congrArg (fun c : Context => c.heap.roots.size) h.left

theorem trans (h : Aside lex D D' γ γ' v v') (h' : Aside lex D' D'' γ' γ'' v v') (hD : D.Matched lex γ) :
    Aside lex D D'' γ γ'' v v' where
  left := h'.left.trans h.left
  matched := h'.matched
  running := h'.running.trans h.running
  onward := h.onward.trans (h.height_eq ▸ h'.onward) hD.coherent h.matched.coherent
  value := h'.value

/-- The right side has dropped slots of its own. -/
theorem backed (hD : D.Matched lex γ) (hv : D.world.Rel (.just .data) v v') (hnested : lex.nested = true)
    (htop : top ≤ D.right.heap.roots.size) (hslots : ∀ i < D.height, D.slot i < top)
    (hfailure : ∃ cause, Traced cause D.left.failure ∧ Traced cause failure) :
    Aside lex D (D.aside top (D.right.backed top depth failure g)) γ (γ.1, g) v v' := by
  have hplain : lex.nested = false → D.left.failure = failure := fun h => by
    rw [hnested] at h
    cases h
  obtain ⟨hmatched, honward⟩ := hD.aside hnested htop hslots ⟨hplain, hfailure⟩
  exact ⟨rfl, hmatched, rfl, honward, Twin.Rel.released hv⟩

end Couple.Aside

theorem Couple.size_backed (h : top ≤ c.heap.roots.size) :
    (c.backed top depth failure g).heap.roots.size = top := by
  show (c.heap.roots.shrink top).size = top
  rw [Array.size_shrink, Nat.min_eq_left h]

/-- **A step of the right side alone** hands the value on. -/
theorem Unwinds.step (hD : D.Matched lex γ) (hv : D.world.Rel (.just .data) v v')
    (hfail : D.left.failing = true → v = .nil)
    (h : Unwinds lex D D.height D.right.heap.roots.size γ.2 g (p :: extra)) :
    ∃ D' f, D.Aside lex D' γ (γ.1, f) v v' ∧ p.resumeBy host false v' D.right = .ok (.give v') D'.right ∧
      Unwinds lex D' D.height D'.right.heap.roots.size f g extra := by
  have hnil : D.right.failing = true → v' = .nil := fun hf => by
    rw [hfail (hD.failing.trans hf)] at hv
    cases hv
    rfl
  obtain ⟨-, cause, hleft, hright⟩ := hD.failure
  -- a step that drops slots, and one that leaves the context as it is
  have hdrop : ∀ {x : Run Next} {top depth failure f}, top ≤ D.right.heap.roots.size → lex.nested = true →
      (∀ i < D.height, D.slot i < top) → Traced cause failure →
      x D.right = .ok (.give v') (D.right.backed top depth failure f) →
      Unwinds lex D D.height top f g extra → ∃ D' f, D.Aside lex D' γ (γ.1, f) v v' ∧
        x D.right = .ok (.give v') D'.right ∧
        Unwinds lex D' D.height D'.right.heap.roots.size f g extra := by
    intro x top depth failure f htop hn hslots hcause hrun h
    have haside : D.Aside lex (D.aside top (D.right.backed top depth failure f)) γ (γ.1, f) v v' :=
      .backed hD hv hn htop hslots ⟨cause, hleft, hcause⟩
    refine ⟨_, f, haside, hrun, ?_⟩
    rw [show (D.aside top (D.right.backed top depth failure f)).right.heap.roots.size = top from
      Couple.size_backed htop]
    exact h.onward hD haside.matched haside.onward (Nat.le_refl _)
  have hidle : ∀ {x : Run Next}, x D.right = .ok (.give v') D.right →
      Unwinds lex D D.height D.right.heap.roots.size γ.2 g extra → ∃ D' f, D.Aside lex D' γ (γ.1, f) v v' ∧
        x D.right = .ok (.give v') D'.right ∧
        Unwinds lex D' D.height D'.right.heap.roots.size f g extra := fun hrun h =>
    ⟨D, γ.2, .refl hD hv, hrun, h⟩
  have hlast : ∀ {b forms forms'}, LastForm D b forms forms' → (D.right.heap.cdr forms').isPair = false :=
    fun h => (hD.coherent.cdr h.kept.rel).same.isPair_eq.symm.trans h.last
  have hcurrent : ∀ {top depth}, ({ D.right.cut top with depth } : Context) =
      D.right.backed top depth D.right.failure γ.2 := fun {top depth} => by
    rw [← hD.current_right]
    rfl
  cases h with
  | leave hn hbase hslots h =>
    exact hdrop hbase hn hslots hright ((resumeLeave_run hbase).trans (congrArg _ hcurrent)) h
  | release hn hbase hslots h =>
    exact hdrop hbase hn hslots hright ((resumeRelease_run hbase).trans (congrArg _ hcurrent)) h
  | sequence hn hforms h => exact hidle (resumeSequence_run (hlast hforms) hnil) h
  | conjunction hn hforms h => exact hidle (resumeConjunction_run (hlast hforms) hnil) h
  | disjunction hn hforms h => exact hidle (resumeDisjunction_run (hlast hforms) hnil) h
  | body hn hbase hslots hforms h =>
    have hlooping : D.right.looping = false := hD.looping.symm.trans (hD.settled hn)
    obtain ⟨failure, hcause, hrun⟩ := resumeBody_run hbase (hlast hforms) hlooping hnil hright
    exact hdrop hbase hn hslots hcause hrun h

/-- **The right side catches up**: it hands the value on until both sides have the same steps to go on
    with. -/
theorem Behind.settle (hD : D.Matched lex γ) (hv : D.world.Rel (.just .data) v v')
    (hfail : D.left.failing = true → v = .nil)
    (h : Behind lex D D.height D.right.heap.roots.size γ ps ps') :
    ∃ D' γ' qs', D.Aside lex D' γ γ' v v' ∧ Waiting lex D' D'.height γ' (.just .data) ps qs' ∧
      ReflTransGen (Moves host false) ⟨D.right, .give v', ps'⟩ ⟨D'.right, .give v', qs'⟩ := by
  obtain ⟨g, extra, qs', rfl, hextra, hw⟩ := h
  induction extra generalizing D γ with
  | nil =>
    cases hextra
    exact ⟨D, γ, qs', .refl hD hv, hw, .refl⟩
  | cons p extra ih =>
    obtain ⟨D₁, f, haside, hrun, hextra₁⟩ := hextra.step hD hv hfail
    have hw₁ : Waiting lex D₁ D₁.height (γ.1, g) (.just .data) ps qs' :=
      haside.height_eq ▸ hw.onward hD haside.matched haside.onward
    rw [← haside.height_eq] at hextra₁
    obtain ⟨D₂, γ₂, rs', haside₂, hw₂, hmoves⟩ :=
      ih haside.matched haside.value (fun hf => hfail (haside.left ▸ hf)) hextra₁ hw₁
    exact ⟨D₂, γ₂, rs', haside.trans haside₂ hD, hw₂, .head (.give hrun) hmoves⟩

end LispMachine
