import LispMachine.Proofs.Listener.Abreast
import LispMachine.Proofs.Twin.Creation

/-!
# Piece after piece

* `Beside`, `Between.beside` -- the left context between two pieces, where **the next piece begins where
  the last one has ended**;
* `Beside.exec` -- **a piece prints what the whole text prints up to there**;
* `Context.Rested` -- contexts that texts may be given to, such as a fresh one (`Context.exists_rested`).
  Each **stands beside itself** (`Context.Rested.beside`).
-/

namespace LispMachine

open Machine Context

variable {lex : Lexicon} {host : Host} {n base : Nat} {more : List Char} {echo : Bool} {c c' d' : Context}

/-! ## 1. The next piece -/

namespace Context

/-- A fresh root slot. -/
def opened (c : Context) : Context :=
  { c with heap := { c.heap with roots := c.heap.roots.push .nil } }

theorem exec_eq_opened (host : Host) (source : String) (echo : Bool) (c : Context) :
    exec host source echo c =
      Machine.forms host (ample - 1) source.toList c.heap.roots.size echo c.opened := by
  rw [exec_eq]
  rfl

theorem size_cut (h : base ≤ c.heap.roots.size) : (c.cut base).heap.roots.size = base :=
  Array.size_shrink.trans (Nat.min_eq_left h)

/-- A slot that is dropped and opened again has been emptied. -/
theorem opened_cut (h : c.heap.roots.size = base + 1) : (c.cut base).opened = c.slotted base .nil := by
  have hsize : (c.heap.roots.shrink base).size = base := size_cut (h ▸ Nat.le_succ base)
  have hroots : (c.heap.roots.shrink base).push .nil = c.heap.roots.setIfInBounds base .nil := by
    refine Array.ext_getElem? fun i => ?_
    rw [Array.getElem?_push, hsize, Array.getElem?_setIfInBounds, Twin.getElem?_shrink]
    rcases Nat.lt_trichotomy i base with hi | rfl | hi
    · rw [if_neg (Nat.ne_of_lt hi), if_pos hi, if_neg (Nat.ne_of_gt hi)]
    · rw [if_pos rfl, if_pos rfl, if_pos (h ▸ Nat.lt_succ_self i)]
    · rw [if_neg (Nat.ne_of_gt hi), if_neg (Nat.not_lt_of_gt hi), if_neg (Nat.ne_of_lt hi),
        Array.getElem?_eq_none (by omega)]
  unfold opened cut slotted
  rw [hroots]

end Context

/-- Two contexts, the left one between two pieces of a text that the right one runs as a whole. -/
def Beside (lex : Lexicon) (c c' : Context) : Prop := Between lex c.heap.roots.size c.opened c'

/-- **The next piece begins where the last one has ended**, whatever is printed in between. -/
theorem Between.beside (h : Between lex base c c') (out : String) :
    Beside lex { c.quiet.cut base with output := out } c' := by
  have hheight : c.quiet.heap.roots.size = base + 1 := h.height
  have hsize : (c.quiet.cut base).heap.roots.size = base := size_cut (hheight ▸ Nat.le_succ base)
  have hopened : ({ c.quiet.cut base with output := out } : Context).opened =
      { c.quiet.slotted base .nil with output := out } :=
    congrArg (fun d : Context => { d with output := out }) (opened_cut hheight)
  obtain ⟨W, h⟩ := h
  unfold Beside
  rw [hopened, show ({ c.quiet.cut base with output := out } : Context).heap.roots.size = base from hsize]
  exact ⟨W,
    { plain := h.plain
      level := h.level
      matched := h.matched.emptied rfl h.lt_height out
      lexical := ⟨h.lexical.forms, h.lexical.quote⟩
      height := Array.size_setIfInBounds.trans h.height
      depth := h.depth
      peakDepth := h.peakDepth }⟩

namespace Beside

/-- Something is printed in between. -/
theorem print (h : Beside lex c c') (out : String) : Beside lex { c with output := out } c' := by
  have hroots : (c.heap.roots.push .nil).shrink c.heap.roots.size = c.heap.roots := by
    refine Array.ext_getElem? fun i => ?_
    rw [Twin.getElem?_shrink]
    split
    · rename_i hi
      rw [Array.getElem?_push_lt hi, Array.getElem?_eq_getElem hi]
    · exact (Array.getElem?_eq_none (by omega)).symm
  have hcut : c.opened.quiet.cut c.heap.roots.size = c.quiet := by
    unfold opened quiet cut
    rw [hroots]
  have hbeside := Between.beside h out
  rw [hcut] at hbeside
  exact hbeside

/-- **A piece of a text is run as the whole text has it run**: what it prints is the same. -/
theorem exec {source : String} {w : Value} (h : Beside lex c c')
    (hcut : Severed source.toList more) (hle : n ≤ ample - 1)
    (hright : forms host n (source.toList ++ more) c.heap.roots.size echo c' = .ok w d')
    (hgoing : d'.failing = false) :
    ∃ m v d e' out, Context.exec host source echo c = .ok v d ∧ d.failing = false ∧ m ≤ n ∧
      Beside lex d e' ∧ forms host m more d.heap.roots.size echo e' = .ok w d' ∧
      d.output = c.output ++ out ∧ e'.output = c'.output ++ out := by
  obtain ⟨m, v, d, e', out, hm, hforms, hlast, hd, hout, hout'⟩ := Between.forms h hcut hright hgoing
  have hsize : (d.quiet.cut c.heap.roots.size).heap.roots.size = c.heap.roots.size :=
    size_cut (show c.heap.roots.size ≤ d.heap.roots.size from hd.height ▸ Nat.le_succ _)
  refine ⟨m, v, d.quiet.cut c.heap.roots.size, e', out, ?_, rfl, hm, hd.beside d.output, ?_, hout, hout'⟩
  · rw [exec_eq_opened]
    exact forms_mono hforms hle
  · rw [hsize]
    exact hlast

end Beside

/-! ## 2. Fresh contexts -/

theorem Idle.defineForm (name : String) (form : SpecialForm) :
    Idle (Context.defineForm name form) fun _ => True :=
  .bind (.intern name) fun _ _ => .edit (fun _ => rfl) fun _ => rfl

theorem Idle.defineProcedure (p : Procedure) : Idle (Context.defineProcedure p) fun _ => True := by
  refine ⟨fun {bottom n κ c} hc => ?_⟩
  unfold Context.defineProcedure
  refine ((Idle.make _ _).yields hc).bind fun native c₁ hc₁ => ?_
  refine .rootBase hc₁.1 ((Yields.pushRoot hc₁.1).bind fun _ c₂ hc₂ => ?_)
  refine ((Idle.sym _).yields hc₂.2).bind fun key c₃ hc₃ => ?_
  refine ((Idle.define c₃.rootEnv key native).yields hc₃.1).bind fun _ c₄ hc₄ => ?_
  exact (Yields.popRoots hc₄.1 hc.le).weaken fun _ _ hc₅ => ⟨hc₅, trivial⟩

theorem Idle.forM {α : Type} {f : α → Run Unit} (hf : ∀ a, Idle (f a) fun _ => True) (as : List α) :
    Idle (as.forM f) fun _ => True := by
  induction as with
  | nil => exact .pure trivial
  | cons a as ih => exact .bind (hf a) fun _ _ => ih

/-- The evaluator of a fresh context is at rest. -/
theorem Idle.furnish : Idle Context.furnish fun _ => True := by
  unfold Context.furnish
  refine .bind (.cons _ _) fun env _ => .bind (.lift fun h => .edit ?_) fun _ _ => ?_
  · split <;> rfl
  · refine .bind (.edit (fun _ => rfl) fun _ => rfl) fun _ _ => .bind (.sym _) fun truth _ => ?_
    refine .bind (.edit (fun _ => rfl) fun _ => rfl) fun _ _ => .bind (.define _ _ _) fun _ _ => ?_
    exact .bind (.forM (fun f => .defineForm _ _) _) fun _ _ => .forM (fun p => .defineProcedure _) _

theorem Context.registers_create {cfg : Config} (hc : create cfg = .ok c) :
    c.depth = 0 ∧ c.peakDepth = 0 := by
  rw [create_eq_createWith] at hc
  obtain ⟨h, t, -, -, hfurnish⟩ := createWith_eq hc
  have hregisters : c.registers = (bare h t cfg.maxDepth).registers :=
    (Idle.furnish.yields (.above rfl) _ _ hfurnish).1.registers
  exact ⟨congrArg Registers.depth hregisters, congrArg Registers.peakDepth hregisters⟩

/-- **A standard context at rest**, as it is between two texts. A failure of the last one may still be
    there, since the next text leaves it behind. -/
structure Context.Rested (lex : Lexicon) (c : Context) : Prop where
  plain : lex.nested = false
  full : lex.vacant = none
  level : lex.level
  matched : ∃ W, (Couple.mk W c.quiet c.quiet id).Matched lex (.nil, .nil) ∧
    Lexical lex ⟨W, c.quiet, c.quiet, id⟩
  depth : c.depth ≤ c.maxDepth
  peakDepth : c.peakDepth ≤ c.maxDepth

/-- A fresh context is at rest. -/
theorem Context.exists_rested {cfg : Config} (hc : create cfg = .ok c) : ∃ lex, Rested lex c := by
  obtain ⟨lex, W, σ, hplain, huntouched, hD, hlex⟩ := create_matched rfl hc hc
  obtain rfl : σ = id := hD.coherent.plain hplain
  obtain ⟨hdepth, hpeak⟩ := registers_create hc
  exact ⟨lex,
    { plain := hplain
      full := huntouched.full
      level := huntouched.level.mpr ⟨hplain, rfl⟩
      matched := ⟨W, hD.quiet, hlex.forms, hlex.quote⟩
      depth := Nat.le_trans (Nat.le_of_eq hdepth) (Nat.zero_le _)
      peakDepth := Nat.le_trans (Nat.le_of_eq hpeak) (Nat.zero_le _) }⟩

/-- **A context at rest stands beside itself**, to run a text in pieces on the left, and as a whole on the
    right. -/
theorem Context.Rested.beside (h : Rested lex c) : Beside lex c c.opened := by
  obtain ⟨W, hD, hlex⟩ := h.matched
  have hpush : Agree lex (fun _ => False) 0 ⟨W, c.quiet, c.quiet, id⟩ _ _
      (.ok c.heap.roots.size c.quiet.opened) := Leads.pushNil hD (Nat.zero_le _)
  obtain ⟨_, W', σ, d, _, hleft, hD', ho, rfl, -⟩ := hpush.of_right h.level
  cases hleft
  have habreast : Abreast lex c.heap.roots.size ⟨W', c.quiet.opened, c.quiet.opened, σ⟩ :=
    { plain := h.plain
      level := h.level
      matched := hD'
      lexical := hlex.onward ho
      height := Array.size_push _
      depth := h.depth
      peakDepth := h.peakDepth }
  exact habreast.between h.full

/-- **A fresh context stands beside itself.** -/
theorem Context.exists_beside {cfg : Config} (hc : create cfg = .ok c) :
    ∃ lex, Beside lex c c.opened := by
  obtain ⟨lex, h⟩ := exists_rested hc
  exact ⟨lex, h.beside⟩

end LispMachine
