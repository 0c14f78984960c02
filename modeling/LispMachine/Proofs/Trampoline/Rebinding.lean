import LispMachine.Proofs.Trampoline.Return

/-!
# One call begins anew, another one begins

When the arguments of a self tail call have come back, the body begins again on the left side, in the two
slots of the call that is under way. On the right side it begins in the two slots of a new call:

* `Twin.rebound`, `Twin.Coherent.rebound` -- **the two slots correspond to the two new ones**. Until the
  new frame is there, one side holds the old frame and the other one nil;
* `Leads.rebindBody` -- the body begins on both sides;
* `Leads.selfCall` -- **a self tail call** on one side, and a call on the other.
-/

namespace LispMachine

open World Context Machine Relation

variable {lex : Lexicon} {D : Couple} {T : Twin} {γ : Value × Value} {host host' : Host} {b n : Nat}
variable {S : Shape → Prop} {ρ : Role} {args args' form form' v : Value} {call call' : Call}
variable {ps ps' qs : List Pending} {c : Context} {said : String × String}

/-! ## 1. The slots of the two calls -/

namespace Twin

/-- The left side goes back to the two slots of a call, and puts arguments into the first of them. The right
    side pushes a form, and the two slots of another call. -/
def rebound (T : Twin) (b : Nat) (args form' args' : Value) : Twin :=
  ⟨T.world.released b, { T.left with roots := (T.left.roots.shrink (b + 2)).setIfInBounds b args },
    { T.right with roots := ((T.right.roots.push form').push args').push .nil },
    cut T.slot b (T.right.roots.size + 1)⟩

/-- A slot below the call on the left side. -/
theorem rebound_left_of_lt {i : Nat} (hi : i < b) :
    (T.rebound b args form' args').left.roots[i]? = T.left.roots[i]? := by
  show ((T.left.roots.shrink (b + 2)).setIfInBounds b args)[i]? = _
  rw [Array.getElem?_setIfInBounds_ne (by omega), getElem?_shrink, if_pos (by omega)]

/-- A slot that was there on the right side. -/
theorem rebound_right_of_lt {i : Nat} (hi : i < T.right.roots.size) :
    (T.rebound b args form' args').right.roots[i]? = T.right.roots[i]? := by
  show (((T.right.roots.push form').push args').push .nil)[i]? = _
  simp only [Array.getElem?_push, Array.size_push]
  rw [if_neg (by omega), if_neg (by omega), if_neg (by omega)]

/-- The arguments are in corresponding slots. -/
theorem rebound_left_self (hb : b + 2 ≤ T.left.roots.size) :
    (T.rebound b args form' args').left.roots[b]? = some args := by
  show ((T.left.roots.shrink (b + 2)).setIfInBounds b args)[b]? = _
  rw [Array.getElem?_setIfInBounds_self_of_lt]
  rw [Array.size_shrink]
  omega

theorem rebound_right_self :
    (T.rebound b args form' args').right.roots[T.right.roots.size + 1]? = some args' := by
  show (((T.right.roots.push form').push args').push .nil)[T.right.roots.size + 1]? = _
  simp only [Array.getElem?_push, Array.size_push]
  rw [if_neg (by omega), if_pos trivial]

theorem size_rebound_left (hb : b + 2 ≤ T.left.roots.size) :
    (T.rebound b args form' args').left.roots.size = b + 2 := by
  show ((T.left.roots.shrink (b + 2)).setIfInBounds b args).size = b + 2
  rw [Array.size_setIfInBounds, Array.size_shrink, Nat.min_eq_left hb]

theorem size_rebound_right : (T.rebound b args form' args').right.roots.size = T.right.roots.size + 3 := by
  show (((T.right.roots.push form').push args').push .nil).size = _
  simp only [Array.size_push]

/-- **The two slots correspond**, but for the frame that is still to come. -/
theorem Coherent.rebound (hT : T.Coherent lex) (hnested : lex.nested = true) (hfull : lex.vacant = none)
    (hb : b + 2 ≤ T.left.roots.size) (hargs : T.world.Rel ρ args args') :
    (T.rebound b args form' args').Coherent (lex.after (some (b + 1)) said) := by
  have hslots : ∀ i < b, T.slot i < T.right.roots.size := fun i hi => hT.slot_lt (by omega)
  have hplain : lex.nested = false → T.right.roots.size = b := fun h => by
    rw [hnested] at h
    cases h
  have hcut := hT.trimmed (show b ≤ T.left.roots.size by omega) (Nat.le_refl _) hslots hplain
  refine
    { hcut with
      cells := fun hw => ?_
      owned := fun hw => ?_
      slots := strictMono_cut hT.slots fun i hi => Nat.lt_succ_of_lt (hslots i hi)
      height := fun k => ?_
      plain := fun h => ?_
      roots := fun {i v v'} hl hr => ?_ }
  · obtain ⟨cell, cell', hl, hr, hcell⟩ := hcut.cells hw
    exact ⟨cell, cell', hl, hr, hcell.after⟩
  · obtain ⟨j, hw, hj⟩ := hw
    rw [size_rebound_left hb]
    exact Nat.lt_add_right 2 (release_eq_owned hj).2
  · rw [size_rebound_left hb, size_rebound_right, Nat.add_assoc]
    exact (cut_add T.slot b _ (2 + k)).trans (by omega)
  · rw [show lex.nested = false from h] at hnested
    cases hnested
  · rcases Nat.lt_trichotomy i b with hi | rfl | hi
    · have hslot : (T.rebound b args form' args').slot i = T.slot i := cut_of_lt hi
      rw [rebound_left_of_lt hi] at hl
      rw [hslot, rebound_right_of_lt (hslots i hi)] at hr
      rcases hT.roots hl hr with hslot | ⟨hvacant, -⟩
      · exact .inl (Slot.released hslot)
      · rw [hfull] at hvacant
        cases hvacant
    · have hslot : (T.rebound i args form' args').slot i = T.right.roots.size + 1 := cut_add T.slot i _ 0
      rw [rebound_left_self hb] at hl
      rw [hslot, rebound_right_self] at hr
      cases hl
      cases hr
      exact .inl (Rel.released hargs).slot
    · have hlt : i < b + 2 := by
        have := (Array.getElem?_eq_some_iff.mp hl).1
        rwa [size_rebound_left hb] at this
      obtain rfl : i = b + 1 := by omega
      exact .inr ⟨rfl, .inl hnested⟩

theorem Onward.rebound (hT : T.Coherent lex) (hb : b + 2 ≤ T.left.roots.size) :
    Onward S b T (T.rebound b args form' args') :=
  have hslots : ∀ i < b, T.slot i < T.right.roots.size := fun i hi => hT.slot_lt (by omega)
  have hcut : Onward S b T (T.trimmed b T.right.roots.size) := .trimmed hT (by omega) hslots
  { height := by rw [size_rebound_left hb]; omega
    roots_left := fun i hi => rebound_left_of_lt hi
    slots := fun i hi => cut_of_lt hi
    roots_right := fun i hi => rebound_right_of_lt (hslots i hi)
    pins := hcut.pins
    kinds := hcut.kinds
    cells := hcut.cells }

end Twin

/-- A context whose call under way begins anew with other arguments. -/
def Context.rebound (c : Context) (b : Nat) (args : Value) (depth : Nat) : Context :=
  { c with
    heap := { c.heap with roots := (c.heap.roots.shrink (b + 2)).setIfInBounds b args }
    depth
    looping := false }

/-- A context in which a call has begun, with a form and the two slots of the call rooted. -/
def Context.calling (c : Context) (form args : Value) : Context :=
  { c with heap := { c.heap with roots := ((c.heap.roots.push form).push args).push .nil } }

namespace Couple

/-- A call begins anew on the left side, and another one on the right. -/
def rebound (D : Couple) (b : Nat) (args form' args' : Value) (depth : Nat) : Couple :=
  ⟨D.world.released b, D.left.rebound b args depth, D.right.calling form' args',
    Twin.cut D.slot b (D.right.heap.roots.size + 1)⟩

theorem twin_rebound (D : Couple) (b : Nat) (args form' args' : Value) (depth : Nat) :
    (D.rebound b args form' args' depth).twin = D.twin.rebound b args form' args' := rfl

variable {depth : Nat}

/-- **What corresponded still does**, but for the slot of the frame. -/
theorem Matched.rebound (hD : D.Matched lex γ) (hnested : lex.nested = true) (hfull : lex.vacant = none)
    (hb : b + 2 ≤ D.height) (hargs : D.world.Rel ρ args args') :
    (D.rebound b args form' args' depth).Matched (lex.after (some (b + 1)) lex.said) γ := by
  have hplain : ∀ {p : Prop}, lex.nested = false → p := fun h => by
    rw [hnested] at h
    cases h
  have hD' : D.Matched (lex.after (some (b + 1)) lex.said) γ := hD.vacate (.inl hfull) hD.output
  have hT : (D.twin.rebound b args form' args').Coherent (lex.after (some (b + 1)) lex.said) :=
    hD.coherent.rebound hnested hfull hb hargs
  have ho : D.twin.Onward (fun _ => False) b (D.twin.rebound b args form' args') :=
    .rebound hD.coherent hb
  have hpop : Heap.popRoots (b + 2) D.left.heap = .ok () (D.left.cut (b + 2)).heap := if_pos hb
  have hset : Heap.setRoot b args (D.left.cut (b + 2)).heap = .ok () (D.left.rebound b args depth).heap := by
    refine if_pos ?_
    show b < (D.left.heap.roots.shrink (b + 2)).size
    rw [Array.size_shrink]
    exact Nat.lt_min.mpr ⟨Nat.lt_add_of_pos_right Nat.two_pos, Nat.lt_of_lt_of_le (by omega) hb⟩
  have hvalid := (Heap.Operation.succeeds (.popRoots _) hD.valid_left hpop).valid
  have hvalid₁ := (Heap.Operation.succeeds (.pushRoot form') hD.valid_right rfl).valid
  have hvalid₂ := (Heap.Operation.succeeds (.pushRoot args') hvalid₁ rfl).valid
  exact
    { hD' with
      coherent := hT
      valid_left := (Heap.Operation.succeeds (.setRoot b args) hvalid hset).valid
      valid_right := (Heap.Operation.succeeds (.pushRoot .nil) hvalid₂ rfl).valid
      rootEnv := hD'.rootEnv.onward hD'.coherent hT (ho.mono (fun _ h => h) (Nat.zero_le b))
        (Nat.le_refl 0)
      looping := (hD.settled hnested).symm.trans hD.looping
      settled := fun _ => rfl
      depth := hplain
      level := fun h => hplain (lex.even h) }

end Couple

/-! ## 2. The two bodies -/

/-- No slot is emptied. -/
theorem Lexicon.after_none (hfull : lex.vacant = none) : lex.after none lex.said = lex := by
  obtain ⟨⟩ := lex
  cases hfull
  rfl

namespace Leads

/-- **A body begins** in the slots of the call under way on one side, and of another one on the other. -/
theorem rebindBody (hfull : lex.vacant = none)
    (hD : D.Matched (lex.after (some call.frameSlot) lex.said) γ) (hcall : Running lex D γ call call')
    (hslot : D.slot call.frameSlot = call'.frameSlot)
    (hargs : D.twin.Rooted Shape.Still (call.base + 1) (.just .data) args args') :
    Steps lex Shape.Still call.base D (Machine.enterBody call args) (Machine.enterBody call' args')
      (ProceedsIn lex call call') := by
  have hle : call.base ≤ call.base + 2 := Nat.le_add_right _ 2
  have hstill : ∀ s, Shape.Fixed s → Shape.Still s := fun _ hs => hs.still
  have hcall' : Running (lex.after (some call.frameSlot) lex.said) D γ call call' :=
    ⟨hcall.calls, hcall.height, hcall.exact, hcall.funcs, hcall.closure⟩
  rw [Machine.enterBody, Machine.enterBody, ← hslot]
  refine andThenAs hD rfl id (newFrame hD hcall.height hcall.calls.parts.env.rel) hle
    fun {γ₁ D₁ _ _} hD₁ ho₁ hq => ?_
  obtain ⟨rfl, hheight₁, hframe, hpair⟩ := hq
  have hcall₁ := hcall'.onward hD hD₁ (ho₁.mono hstill hle) hheight₁
  have hargs₁ := ho₁.rooted hD hD₁ hargs (Nat.le_succ _)
  have hlt : call.frameSlot < D₁.height := hcall₁.height
  rw [show D.slot call.frameSlot = D₁.slot call.frameSlot from (ho₁.slot_eq (Nat.le_succ _)).symm]
  refine andThenAs hD₁ rfl id (setRoot hD₁ (Nat.le_refl call.frameSlot) hlt hframe.slot) (Nat.le_succ _)
    fun {γ₂ D₂ _ _} hD₂ ho₂ hq => ?_
  obtain ⟨rfl, hq⟩ := hq
  have hfilled : D₂.Matched lex γ₂ := by
    have hfill := hD₁.fill hlt hframe.slot
    rwa [← hq, Lexicon.after_none hfull] at hfill
  have hframe₂ : D₂.Kept (call.base + 2) (.just .frame) _ _ :=
    hq ▸ Couple.rooted_slotSet hD₁ hlt hframe
  have hcall₂ := hcall₁.onward hD₁ hD₂ (ho₂.mono hstill (Nat.le_succ _))
    (hq ▸ Couple.height_slotSet _ _ _ _)
  exact bindForms hfilled ⟨hcall₂.calls, hcall₂.height, hcall₂.exact, hcall₂.funcs, hcall₂.closure⟩
    hframe₂ hpair (ho₂.rooted hD₁ hD₂ hargs₁ (Nat.le_refl _))

end Leads

/-! ## 3. A self tail call, and a call -/

/-- A context in which arguments are on their way back, with their form rooted. -/
def Context.handing (c : Context) (form : Value) : Context :=
  { c with heap := { c.heap with roots := c.heap.roots.push form }, looping := true }

namespace Machine

/-- The head of a form that is called is the running function, and its arguments are handed back. -/
theorem resumeCall_self (h : IsSelfCall c form) :
    resumeCall host true form c = .ok (.give (c.heap.cdr form)) (c.handing form) := by
  unfold resumeCall
  rw [run_bind (show isFailing c = .ok c.failing c from rfl), if_neg (Bool.eq_false_iff.mp h.going)]
  show (if c.heap.typeOf (c.heap.car form) = CoreType.func.id then _ else _ : Run Next)
    { c with heap := { c.heap with roots := c.heap.roots.push form } } = _
  rw [if_pos h.isFunc]
  show (if true && decide (c.heap.car form = c.current) then _ else _ : Run Next)
    { c with heap := { c.heap with roots := c.heap.roots.push form } } = _
  rw [Bool.true_and, if_pos (decide_eq_true h.same)]
  rfl

/-- Without the trampoline it is a call like any other. -/
theorem resumeCall_plain (hgoing : c.failing = false)
    (hfunc : c.heap.typeOf (c.heap.car form) = CoreType.func.id) :
    resumeCall host false form c =
      enterBody ⟨c.heap.closure (c.heap.car form), c.heap.roots.size + 1, c.current⟩ (c.heap.cdr form)
        { c.calling form (c.heap.cdr form) with current := c.heap.car form } := by
  unfold resumeCall
  rw [run_bind (show isFailing c = .ok c.failing c from rfl), if_neg (Bool.eq_false_iff.mp hgoing)]
  show (if c.heap.typeOf (c.heap.car form) = CoreType.func.id then _ else _ : Run Next)
    { c with heap := { c.heap with roots := c.heap.roots.push form } } = _
  rw [if_pos hfunc]
  have hsize : (c.heap.roots.push form).size = c.heap.roots.size + 1 := Array.size_push form
  rw [← hsize]
  rfl

/-- A body takes the arguments of a self tail call. -/
theorem resumeBody_self {frame forms : Value} (hgoing : c.failing = false) (hlooping : c.looping = true)
    (hb : call.base < c.heap.roots.size) : resumeBody call frame forms args c =
      enterBody call args ({ c with looping := false }.slotted call.base args) := by
  unfold resumeBody
  rw [run_bind (show isFailing c = .ok c.failing c from rfl), if_neg (Bool.eq_false_iff.mp hgoing),
    run_bind (run_observe Context.looping c), if_pos hlooping, run_bind (run_modify _ c)]
  exact run_bind (setRoot_run (c := { c with looping := false }) hb args)

/-- The evaluator stands in order while the arguments are on their way. -/
theorem Upright.bringing (hhost : host.Balanced) (h : Upright ⟨c, .give form, .call true :: ps⟩)
    (hsettled : c.looping = false) (hself : IsSelfCall c form) : Bringing (c.handing form) ps := by
  obtain ⟨base, d, f, t, n, κ, τ, hc, how, -⟩ := h
  rcases Goes.resume hhost hc how _ _ (resumeCall_self hself) with ⟨_, κ', _, hc', hκ, -⟩ | ⟨-, hback⟩
  · have hlooping := hκ.looping (congrArg Registers.looping hc'.registers).symm
    rw [← hc.registers] at hlooping
    exact absurd (hsettled.symm.trans hlooping) Bool.false_ne_true
  · obtain ⟨n', hc', how'⟩ := hback.stance
    exact ⟨base, d, f, t, n', _, hc', how'⟩

end Machine

/-- What has been pushed is cut off again. -/
theorem shrink_push {α : Type} {xs : Array α} {x : α} {k : Nat} (hk : k ≤ xs.size) :
    (xs.push x).shrink k = xs.shrink k := by
  refine Array.ext_getElem? fun i => ?_
  rw [Twin.getElem?_shrink, Twin.getElem?_shrink]
  split
  · rw [Array.getElem?_push, if_neg (by omega)]
  · rfl

/-- The context in which the body begins again. -/
theorem Context.slotted_cut_eq {depth : Nat} (hb : b + 2 ≤ c.heap.roots.size) :
    { { (c.handing form).cut (b + 2) with depth } with looping := false }.slotted b args =
      c.rebound b args depth := by
  unfold Context.slotted Context.cut Context.rebound Context.handing
  dsimp only
  rw [shrink_push hb]

namespace Leads

/-- The body begins again on the left side, and in front of the steps that stay on the right one. -/
theorem rebind {depth : Nat} (hD : D.Matched lex γ) (hnested : lex.nested = true)
    (hfull : lex.vacant = none) (hb : b + 2 ≤ D.height)
    (hr : Recalled lex D b (D.right.heap.roots.size + 1) γ call call' qs ps')
    (hargs : D.world.Rel (.just .data) args args') :
    Steps lex Shape.Fixed 0 (D.rebound b args form' args' depth) (Machine.enterBody call args)
      (Machine.enterBody ⟨D.right.heap.closure γ.2, D.right.heap.roots.size + 1, γ.2⟩ args')
      (Continues lex qs ps') := by
  obtain rfl := hr.base
  have hD₀ : D.Matched (lex.after (some (call.base + 1)) lex.said) γ := hD.vacate (.inl hfull) hD.output
  have hD₁ : (D.rebound call.base args form' args' depth).Matched _ γ :=
    hD.rebound hnested hfull hb hargs
  have ho : D.twin.Onward Shape.Fixed call.base (D.rebound call.base args form' args' depth).twin :=
    .rebound hD.coherent hb
  have kept : ∀ {ρ v v'}, D.Kept call.base ρ v v' →
      (D.rebound call.base args form' args' depth).Kept call.base ρ v v' := fun h =>
    h.onward hD₀.coherent hD₁.coherent ho (Nat.le_refl _)
  have hslot : ∀ k, (D.rebound call.base args form' args' depth).slot (call.base + k) =
      D.right.heap.roots.size + 1 + k := Twin.cut_add D.slot call.base _
  have hheight : (D.twin.rebound call.base args form' args').left.roots.size = call.base + 2 :=
    Twin.size_rebound_left hb
  have hparts := hr.calls.parts
  rw [hr.closure] at hparts
  have hrunning : Running lex (D.rebound call.base args form' args' depth) γ call
      ⟨D.right.heap.closure γ.2, D.right.heap.roots.size + 1, γ.2⟩ :=
    { calls := ⟨(hslot 0).symm, ⟨kept hparts.env, kept hparts.params, kept hparts.body, kept hparts.name⟩⟩
      height := Nat.le_of_eq hheight.symm
      exact := fun _ => hheight
      funcs := kept hr.funcs
      closure := (ho.closure_eq hD.coherent (fun _ hs => hs) hr.funcs).2.symm }
  have hleft : (D.twin.rebound call.base args form' args').left.roots[call.base]? = some args :=
    Twin.rebound_left_self hb
  have hright : (D.twin.rebound call.base args form' args').right.roots[
      (D.twin.rebound call.base args form' args').slot call.base]? = some args' := by
    rw [show (D.twin.rebound call.base args form' args').slot call.base = _ from hslot 0]
    exact Twin.rebound_right_self
  have hrooted : (D.twin.rebound call.base args form' args').Rooted Shape.Still (call.base + 1)
      (.just .data) args args' :=
    .root (Nat.lt_succ_self _) hleft hright (Twin.Rel.released hargs)
  rw [← D.twin_rebound call.base args form' args' depth] at hrooted
  have hframe := hslot 1
  generalize D.rebound call.base args form' args' depth = D₁ at hD₁ ho hrunning hrooted hframe
  refine relax (rebindBody hfull hD₁ hrunning hframe hrooted) (fun _ hs => hs.still) (Nat.zero_le _)
    fun {γ₂ D₂ _ _} hD₂ ho₂ hq => hq _ _ ?_
  have ho₂' : D₁.twin.Onward Shape.Fixed call.base D₂.twin :=
    ho₂.heaps.mono (fun _ hs => hs.still) (Nat.le_refl _)
  exact hr.behind.onward hD hD₂ (ho.trans ho₂' hD₀.coherent hD₁.coherent)

/-- **A self tail call** hands its arguments back on the left side, past the steps in tail position, and the
    body begins again; on the right side another call begins in front of these steps. The two bodies go on
    alike. -/
theorem selfCall (host' : Host) (hhost : host.Balanced) (hD : D.Matched lex γ) (hnested : lex.nested = true)
    (hfull : lex.vacant = none) (hn : n ≤ D.height) (hform : D.world.Rel (.just .form) form form')
    (hself : IsSelfCall D.left form)
    (hw : Waiting lex D n γ (.just .form) (.call true :: ps) (.call true :: ps'))
    (hup : Upright ⟨D.left, .give form, .call true :: ps⟩) :
    ∃ c v call frame forms qs D' x x',
      TransGen (Moves host true) ⟨D.left, .give form, .call true :: ps⟩
        ⟨c, .give v, .body call frame forms :: qs⟩ ∧
      Bringing c (.body call frame forms :: qs) ∧ c.failing = false ∧
      Pending.resume host v (.body call frame forms) c = x D'.left ∧
      Pending.resumeBy host' false form' (.call true) D.right = x' D'.right ∧
      D'.left.forms = D.left.forms ∧ D'.left.symbols = D.left.symbols ∧
      Steps lex Shape.Fixed 0 D' x x' (Continues lex qs ps') := by
  have hcurrent := hw.current
  cases hw with
  | call ht hw =>
    obtain ⟨b, hreturning, -⟩ := ht (by rw [hnested]; rfl)
    have hreturning := hreturning (D.height + 1) (Nat.le_succ_of_le hn)
    have hb : b + 2 ≤ D.height := Nat.le_trans (hw.base_le hreturning) hn
    have hargs : D.world.Rel (.just .data) (D.left.heap.cdr form) (D.right.heap.cdr form') :=
      hD.coherent.cdr hform
    -- the same function is called on the right side
    have hcar : D.right.heap.car form' = γ.2 := by
      refine hD.coherent.one.left_eq (hD.coherent.car hform).same ?_
      rw [show D.twin.left.car form = γ.1 from hself.same.trans hD.current_left]
      exact hcurrent.rel.same
    have htype : D.right.heap.typeOf (D.right.heap.car form') = CoreType.func.id := by
      rw [← show D.left.heap.typeOf (D.left.heap.car form) = D.right.heap.typeOf (D.right.heap.car form')
        from hD.coherent.typeOf_eq (hD.coherent.car hform).same]
      exact hself.isFunc
    have hback : (D.left.handing form).HandsBack D.left.heap (D.height + 1) ps :=
      { height := Array.size_push form
        cells := rfl
        going := hself.going
        looping := rfl
        bringing := hup.bringing hhost (hD.settled hnested) hself }
    obtain ⟨call, call', frame, forms, qs, depth, hr, hmoves, hup⟩ :=
      hreturning.arrives hD hnested hw (Nat.le_of_eq (hD.slot_add 1)) hback
    refine ⟨_, D.left.heap.cdr form, call, frame, forms, qs,
      D.rebound b (D.left.heap.cdr form) form' (D.right.heap.cdr form') depth, _, _, ?_, hup, hself.going,
      ?_, ?_, rfl, rfl, rebind hD hnested hfull hb hr hargs⟩
    · refine .head' (.give ?_) hmoves
      exact (congrFun (Pending.resumeBy_true host form (.call true)) D.left).trans (resumeCall_self hself)
    · obtain rfl := hr.base
      have hsize : call.base < ((D.left.handing form).cut (call.base + 2)).heap.roots.size := by
        show call.base < ((D.left.heap.roots.push form).shrink (call.base + 2)).size
        rw [shrink_push hb, Array.size_shrink]
        exact Nat.lt_min.mpr ⟨by omega, Nat.lt_of_lt_of_le (by omega) hb⟩
      have hgoing : ({ (D.left.handing form).cut (call.base + 2) with depth } : Context).failing = false :=
        hself.going
      exact (resumeBody_self hgoing rfl hsize).trans (congrArg _ (Context.slotted_cut_eq hb))
    · refine (resumeCall_plain (hD.failing.symm.trans hself.going) htype).trans ?_
      rw [hcar, ← hD.current_right]
      rfl

end Leads

end LispMachine
