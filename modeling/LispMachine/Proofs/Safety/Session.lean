import LispMachine.Probe
import LispMachine.Proofs.Listener.Pieces
import LispMachine.Proofs.Safety.Runs
import LispMachine.Proofs.Twin.Session

/-!
# No text crashes the machine

* `Context.Ready` -- a standard context between two texts;
* `Secure.furnish`, `Context.exists_ready` -- **a fresh context is one**;
* `Context.Ready.next`, `Context.Ready.after` -- texts lead from one to the next;
* `Machine.Sure` -- **what is true before every step**: it ends in no fault but exhaustion, and no count
  falls below zero;
* `Context.session_sure` -- **whatever the texts are**, and whatever the sizes.
-/

namespace LispMachine

open Machine Context

/-! ## 1. Fresh contexts -/

/-- A fresh heap has no procedure in it. -/
theorem Heap.standard_create {cfg : Config} {h : Heap} (hc : Heap.create cfg = .ok h) : h.Standard := by
  obtain ⟨hvalid, hbirths⟩ := create_kept hc
  obtain ⟨rfl, -⟩ := create_eq hc
  have hnone : ∀ a, (bare cfg).withChunk.isAllocated a = false := fun a => by
    rw [Bool.eq_false_iff]
    intro hal
    have hzero : (bare cfg).withChunk.allocatedCount = 0 := hbirths
    exact List.countP_eq_zero.mp hzero a (List.mem_range.mpr (lt_size_of_isAllocated hal)) hal
  refine ⟨hvalid, fun t hne => ?_, fun a t p hcell => ?_⟩
  · cases t <;> first | exact absurd rfl hne | exact ⟨by decide, rfl⟩
  · have hal := isAllocated_iff.mpr ⟨_, hcell, rfl⟩
    rw [hnone a] at hal
    cases hal

namespace Secure

variable {ρ : Value} {n : Nat}

theorem defineForm (name : String) (f : StandardForm) :
    Secure ρ n (Context.defineForm name (.standard f)) (Level n fun _ => True) :=
  (intern name).next fun _ _ => edit
    (fun _ hc => ⟨hc.heap, hc.symbols, List.forall_mem_cons.mpr ⟨⟨f, rfl⟩, hc.forms⟩, hc.rootEnv⟩)
    fun _ => rfl

theorem definePrimitive (p : Primitive) (hρ : ρ.isPair = true) :
    Secure ρ n (Context.defineProcedure (.primitive p)) (Level n fun _ => True) := by
  unfold Context.defineProcedure
  refine (make (t := .native) nofun fun r hr => ?_).next fun native _ => rootBase (push ?_)
  · cases hr
    exact ⟨p, rfl⟩
  · refine (sym _).next fun key _ => .observe fun c hc => ?_
    have henv : c.rootEnv.isPair = true := hc.rootEnv ▸ hρ
    exact (define henv).next fun _ _ => popRoots (Nat.le_succ n)

end Secure

namespace Context

variable {ρ v : Value} {host : Host} {cfg : Config} {c c' : Context}

/-- What a fresh context is furnished with is the machine's own. -/
theorem standard_furnish (hc : c.Standard .nil) :
    Yields furnish c fun _ c' => ∃ ρ, ρ.isPair = true ∧ c'.Standard ρ := by
  unfold furnish
  refine ((Secure.cons _ _).yields hc rfl).bind fun env c₁ h₁ => ?_
  obtain ⟨hc₁, hn₁, henv⟩ := h₁
  refine (Secure.pin.yields hc₁ hn₁).bind fun _ c₂ h₂ => ?_
  obtain ⟨hc₂, hn₂, -⟩ := h₂
  refine Yields.bind (P := fun _ c₃ => c₃.Standard env ∧ c₃.heap.roots.size = c.heap.roots.size)
    (.edit ⟨⟨hc₂.heap, hc₂.symbols, hc₂.forms, rfl⟩, hn₂⟩) fun _ c₃ h₃ => ?_
  have hrest : Secure env c.heap.roots.size (do
      let truth ← sym "t"
      modify fun c => { c with truth }
      define env truth truth
      StandardForm.all.forM fun f => defineForm f.name (.standard f)
      Primitive.all.forM fun p => defineProcedure (.primitive p))
      (Level c.heap.roots.size fun _ => True) := by
    refine (Secure.sym _).next fun truth _ => ?_
    refine Secure.next (.register fun _ => ⟨rfl, rfl, rfl, rfl⟩) fun _ _ => ?_
    refine (Secure.define henv).next fun _ _ => (Secure.forM (fun f => ?_) _).next fun _ _ => ?_
    · exact .defineForm _ f
    · exact .forM (fun p => .definePrimitive p henv) _
  exact (hrest.yields h₃.1 h₃.2).weaken fun _ _ h => ⟨env, henv, h.1⟩

/-- **A standard context between two texts.** -/
structure Ready (ρ : Value) (c : Context) : Prop where
  env : ρ.isPair = true
  standard : c.Standard ρ
  depth : c.depth ≤ c.maxDepth
  peakDepth : c.peakDepth ≤ c.maxDepth

/-- **A fresh context is ready.** -/
theorem exists_ready (hc : create cfg = .ok c) : ∃ ρ, Ready ρ c := by
  obtain ⟨hdepth, hpeak⟩ := registers_create hc
  rw [create_eq_createWith] at hc
  obtain ⟨h, t, hh, ht, hfurnish⟩ := createWith_eq hc
  have hbare : (bare h t cfg.maxDepth).Standard .nil :=
    ⟨Heap.standard_create hh, SymbolTable.sound_create ht, List.forall_mem_nil _, rfl⟩
  obtain ⟨ρ, hρ, hstandard⟩ := standard_furnish hbare _ _ hfurnish
  exact ⟨ρ,
    { env := hρ
      standard := hstandard
      depth := Nat.le_trans (Nat.le_of_eq hdepth) (Nat.zero_le _)
      peakDepth := Nat.le_trans (Nat.le_of_eq hpeak) (Nat.zero_le _) }⟩

/-! ## 2. Texts -/

/-- **Texts that come to an end** one after the other, each of them in as many steps as it takes. -/
inductive After (host : Host) (c : Context) : List (String × Bool) → Context → Prop where
  | nil : After host c [] c
  | snoc {texts : List (String × Bool)} {source : String} {echo : Bool} {v : Value} {c₁ c₂ : Context}
      (h : After host c texts c₁)
      (hreach : Reaches host ⟨c₁, .exec source.toList echo, []⟩ ⟨c₂, .give v, []⟩) :
      After host c (texts ++ [(source, echo)]) c₂

theorem goOn_run (texts : List (String × Bool)) : goOn host texts v c =
    (session host texts >>= fun later => pure (report v c :: later)) c := rfl

namespace Ready

variable {source : String} {echo : Bool} {texts : List (String × Bool)} {f : Fault} {σ : State}

/-- The invariant holds before every step. -/
theorem guarded (h : Ready ρ c) {source : List Char}
    (hreach : Reaches host ⟨c, .exec source echo, []⟩ σ) : Guarded ρ σ :=
  guarded_of_reaches h.env h.standard h.depth h.peakDepth hreach

/-- **A text that comes to an end** leaves the context ready for the next one. -/
theorem next (h : Ready ρ c) {source : List Char}
    (hreach : Reaches host ⟨c, .exec source echo, []⟩ ⟨c', .give v, []⟩) : Ready ρ c' := by
  rcases inOrder_of_reaches h.env h.standard h.depth h.peakDepth hreach with
    hsame | ⟨horder, hguarded⟩
  · cases hsame
  · have hstands := horder.stands
    exact
      { env := h.env
        standard := hguarded.context
        depth := hstands.depth.trans_le (h.depth.trans_eq hstands.maxDepth.symm)
        peakDepth := hstands.peakDepth.trans_eq hstands.maxDepth.symm }

/-- So do several. -/
theorem after (h : Ready ρ c) (hafter : After host c texts c') : Ready ρ c' := by
  induction hafter with
  | nil => exact h
  | snoc _ hreach ih => exact ih.next hreach

/-- **A text that does not** has used up the heap, or the steps. -/
theorem isSpent_of_exec (h : Ready ρ c) (hrun : Context.exec host source echo c = .error f c') :
    f.IsSpent := by
  rcases exists_faults hrun with rfl | ⟨σ, hreach, hfaults⟩
  · exact .inr rfl
  · exact (h.guarded hreach).isSpent h.env hfaults

/-- One of several texts that does not come to an end has used up the heap, or the steps. -/
theorem isSpent_of_session (h : Ready ρ c) (hrun : Context.session host texts c = .error f c') :
    f.IsSpent := by
  induction texts generalizing c with
  | nil => cases hrun
  | cons text texts ih =>
    obtain ⟨source, echo⟩ := text
    rw [session_cons] at hrun
    cases hexec : Context.exec host source echo c with
    | error e c₁ =>
      rw [run_bind_error hexec] at hrun
      cases hrun
      exact h.isSpent_of_exec hexec
    | ok v c₁ =>
      rw [run_bind hexec, goOn_run] at hrun
      cases hlater : Context.session host texts c₁ with
      | error e c₂ =>
        rw [run_bind_error hlater] at hrun
        cases hrun
        exact ih (h.next (reaches_of_run hexec)) hlater
      | ok later c₂ =>
        rw [run_bind hlater] at hrun
        cases hrun

end Ready

end Context

/-! ## 3. Every step -/

/-- **What is true of the machine before every step.** -/
structure Machine.Sure (host : Host) (σ : State) : Prop where
  /-- The step ends in no fault but exhaustion. -/
  fault : ∀ f, Faults host f σ → f = .heapExhausted ∨ f = .outOfSteps
  /-- There is a level to go back to where a pair is left. -/
  depth : ∀ base ps, σ.pending = .leave base :: ps → 0 < σ.context.depth
  /-- The cell that is to be taken from a chunk is counted among its free ones, and these are no more
      than it has. -/
  free : ∀ chunk ∈ σ.context.heap.chunks, chunk.freeCount ≤ σ.context.heap.chunkCells ∧
    (chunk.head ≠ none → 0 < chunk.freeCount)
  /-- No more cells are in use than there are. -/
  live : σ.context.heap.liveCount ≤ σ.context.heap.capacity

theorem Machine.Guarded.sure {ρ : Value} {host : Host} {σ : State} (h : Guarded ρ σ)
    (hρ : ρ.isPair = true) : Sure host σ := by
  have hlaid : σ.context.heap.Laid none := h.context.heap.valid.toLaid
  refine ⟨fun f hf => h.isSpent hρ hf, h.deep, fun chunk hchunk => ?_, ?_⟩
  · obtain ⟨k, hk, rfl⟩ := Array.mem_iff_getElem.mp hchunk
    have hget := Array.getElem?_eq_getElem hk
    exact ⟨hlaid.freeCount_le hget, hlaid.freeCount_pos hget⟩
  · rw [hlaid.liveCount_eq, ← hlaid.size]
    exact Heap.allocatedCount_le_size _

namespace Context

/-- **No text crashes the machine.** Whatever sizes a standard context was made with, and whatever the
    texts are that it is given, with or without an echo, and whatever an embedding program supplies:

    * the only fault that they end in is that the heap is exhausted, or that the steps which a run may
      take are used up, as they are by one that would never come back;
    * before every step of a text that comes after them, however many it takes, `Machine.Sure` holds;
    * no integer is divided by zero. -/
theorem session_sure {cfg : Config} {c : Context} (hc : create cfg = .ok c) (host : Host)
    (texts : List (String × Bool)) :
    (∀ f c', session host texts c = .error f c' → f = .heapExhausted ∨ f = .outOfSteps) ∧
    (∀ (c₁ : Context) (source : String) (echo : Bool) (σ : State), After host c texts c₁ →
      Reaches host ⟨c₁, .exec source.toList echo, []⟩ σ → Sure host σ) ∧
    ∀ name op op', (∀ x y, y ≠ 0 → op x y = op' x y) → Native.divide name op = Native.divide name op' := by
  obtain ⟨ρ, hready⟩ := exists_ready hc
  refine ⟨fun f c' hrun => hready.isSpent_of_session hrun, ?_, fun _ _ _ h => Native.divide_congr h⟩
  intro c₁ source echo σ hafter hreach
  have hready₁ := hready.after hafter
  exact (hready₁.guarded hreach).sure hready₁.env

/-- A heap that a fresh context all but fills. -/
def brimful : Config where
  chunkCells := 100
  growth := .fixed
  symbolCapacity := 64

/-- Whether texts end in a fault, in a fresh context. -/
def faults (cfg : Config) (texts : List (String × Bool)) : Bool :=
  match create cfg with
  | .error _ => false
  | .ok c =>
    match session Probe.host texts c with
    | .ok _ _ => false
    | .error _ _ => true

theorem exists_of_faults {cfg : Config} {texts : List (String × Bool)} (h : faults cfg texts = true) :
    ∃ c f c', create cfg = .ok c ∧ session Probe.host texts c = .error f c' := by
  unfold faults at h
  split at h
  · cases h
  · rename_i c hc
    split at h
    · cases h
    · rename_i f c' hrun
      exact ⟨c, f, c', hc, hrun⟩

theorem session_sure_brimful : ∃ c f c', create brimful = .ok c ∧
    session Probe.host [("'(0 0 0 0)", true)] c = .error f c' ∧ (f = .heapExhausted ∨ f = .outOfSteps) := by
  have hfaults : faults brimful [("'(0 0 0 0)", true)] = true := by decide +kernel
  obtain ⟨c, f, c', hc, hrun⟩ := exists_of_faults hfaults
  exact ⟨c, f, c', hc, hrun, (session_sure hc Probe.host _).1 f c' hrun⟩

end Context

end LispMachine
