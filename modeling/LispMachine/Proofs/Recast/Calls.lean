import LispMachine.Proofs.Recast.Forms
import LispMachine.Proofs.Recast.Natives

/-!
# Arguments and calls of recast code

* `Both.enterArguments` -- **the elements of a list are evaluated** into fresh lists that correspond;
* `Recast.exists_bindParams` -- parameters are bound alike;
* `Both.enterFunction`, `Both.exists_resumeCall` -- **functions that correspond are called**: their bodies are
  rows of recast code;
* `Applies` -- applications come to values that correspond, as far as `n` steps.
-/

namespace LispMachine

open Context Machine

variable {n : Nat} {D D₀ D₁ D₂ : Duet} {K : Concord} {ps ps' : List Pending}
variable {v v' w w' env env' args args' func func' : Value}

/-! ## 1. Lists of arguments -/

/-- The root stacks are what they were, with one value more on top. -/
structure Duet.Topped (D D' : Duet) (w w' : Value) : Prop where
  left : D'.left.heap.roots = D.left.heap.roots.push w
  right : D'.right.heap.roots = D.right.heap.roots.push w'

namespace Duet.Topped

theorem still (h : D.Topped D₁ w w') (still : D₁.Still D₂) : D.Topped D₂ w w' :=
  ⟨still.left.trans h.left, still.right.trans h.right⟩

theorem atop (h : D.Topped D₁ w w') : D.Atop D₁ := ⟨⟨#[w], h.left⟩, #[w'], h.right⟩

/-- The value on top is replaced. -/
theorem set (h : D.Topped D₁ w w') (v v' : Value) : D.Topped (D₁.withRoots
    (D₁.left.heap.roots.setIfInBounds D.left.heap.roots.size v)
    (D₁.right.heap.roots.setIfInBounds D.right.heap.roots.size v')) v v' := by
  constructor
  · show D₁.left.heap.roots.setIfInBounds D.left.heap.roots.size v = _
    rw [h.left, setIfInBounds_push_size]
  · show D₁.right.heap.roots.setIfInBounds D.right.heap.roots.size v' = _
    rw [h.right, setIfInBounds_push_size]

end Duet.Topped

namespace Both

/-- **A value is appended to lists that are rooted on top.** -/
theorem append {last last' : Value} (hD : D.Sound) (htop : D₀.Topped D w w') (hw : D.concord.Rel w w')
    (hlast : D.concord.Rel last last') (hv : D.concord.Rel v v') :
    Both D 1 (Reader.append D₀.left.heap.roots.size last v) (Reader.append D₀.right.heap.roots.size last' v')
      fun D' cell cell' => D'.concord.Rel cell cell' ∧ D'.left.failing = D.left.failing ∧
        ∃ w w', D₀.Topped D' w w' ∧ D'.concord.Rel w w' := by
  rw [Reader.append, Reader.append]
  refine (cons hD hv .nil).bind (m := 0) fun D₁ _ _ hD₁ later hq => ?_
  obtain ⟨a, b, rfl, rfl, hlink, calm⟩ := hq
  have htop₁ := htop.still calm.toStill
  refine ite (by rw [hlast.kindred.isNil_eq]) (fun _ => ?_) fun _ => ?_
  · exact setRoot _ _ (by rw [htop₁.left]; simp) (by rw [htop₁.right]; simp)
      (pure hD₁.withRoots ⟨.pair hlink, calm.failing, _, _, htop₁.set _ _, .pair hlink⟩)
  · refine (setCdr hD₁ (hlast.mono later.le) (.pair hlink)).bind (m := 0) fun D₂ _ _ hD₂ later₂ hq => pure hD₂ ?_
    have later' := later.trans later₂
    exact ⟨.pair (later₂.le.link _ _ hlink), hq.2.failing.trans calm.failing, w, w', htop₁.still hq.2.toStill,
      hw.mono later'.le⟩

variable (hn : Evals n)
include hn

/-- **The elements of a list are evaluated.** The lists of their values are rooted on top. -/
theorem enterArguments {rest rest' : Value} (hrest : K.Recast .exprs rest rest') :
    ∀ (D : Duet) (w w' last last' : Value), D.Sound → D.left.failing = false → K.Le D.concord → D₀.Later D →
      D₀.Topped D w w' → D.concord.Rel env env' → D.concord.Rel w w' → D.concord.Rel last last' →
      Both D 0 (Machine.enterArguments env rest D₀.left.heap.roots.size last)
        (Machine.enterArguments env' rest' D₀.right.heap.roots.size last') (D₀.Yields n ps ps') := by
  refine LispMachine.Recast.list_induction (p := .exprs) (motive := fun rest rest' => ∀ (D : Duet)
    (w w' last last' : Value), D.Sound → D.left.failing = false → K.Le D.concord → D₀.Later D → D₀.Topped D w w' →
      D.concord.Rel env env' → D.concord.Rel w w' → D.concord.Rel last last' →
      Both D 0 (Machine.enterArguments env rest D₀.left.heap.roots.size last)
        (Machine.enterArguments env' rest' D₀.right.heap.roots.size last') (D₀.Yields n ps ps')) trivial rfl
    (fun rest rest' hlone hrel D w w' last last' hD _ _ later htop _ hw _ => ?_)
    (fun rest x y rest' x' y' hpair hpair' first _ ih D w w' last last' hD hgo le later htop henv hw hlast => ?_) hrest
  · have hpair : rest.isPair = false := hlone
    have hpair' : rest'.isPair = false := (hrel.kindred.isPair_eq).symm.trans hlone
    rw [Machine.enterArguments, Machine.enterArguments, hpair, hpair']
    have hslot : D.left.heap.roots[D₀.left.heap.roots.size]? = some w := by rw [htop.left]; simp
    have hslot' : D.right.heap.roots[D₀.right.heap.roots.size]? = some w' := by rw [htop.right]; simp
    refine root hslot hslot' ?_
    exact unwind htop.atop (pure hD.withRoots (Duet.yields_give hD.withRoots later.withRoots ⟨rfl, rfl⟩ hw))
  · obtain ⟨hp, hp', hcar, -, hcar', -⟩ := Concord.Recast.car_cdr hD le hpair hpair'
    rw [Machine.enterArguments, Machine.enterArguments, if_pos hp, if_pos hp']
    refine look ?_
    rw [hcar, hcar']
    refine wait hn hD hgo henv (Concord.Recast.mono first le) 1 fun D₁ v v' hD₁ later₁ still₁ hv => ?_
    have htop₁ := htop.still still₁
    refine isFailing hD₁ (ite Iff.rfl (fun _ => ?_) fun hgo₁ => ?_)
    · refine mono (unwind htop₁.atop (pure hD₁.withRoots ?_)) (Nat.zero_le 1)
      exact Duet.yields_give hD₁.withRoots (later.trans later₁).withRoots ⟨rfl, rfl⟩ .nil
    · refine (append hD₁ htop₁ (hw.mono later₁.le) (hlast.mono later₁.le) hv).bind (m := 0)
        fun D₂ cell cell' hD₂ later₂ hq => look ?_
      obtain ⟨hcell, hfailing, u, u', htop₂, hu⟩ := hq
      have later' := later₁.trans later₂
      have le₂ := le.trans later'.le
      obtain ⟨-, -, -, hcdr, -, hcdr'⟩ := Concord.Recast.car_cdr hD₂ le₂ hpair hpair'
      rw [hcdr, hcdr']
      exact ih D₂ u u' cell cell' hD₂ (hfailing.trans (Bool.eq_false_iff.mpr hgo₁)) le₂ (later.trans later') htop₂
        (henv.mono later'.le) hu hcell

/-- **A list is evaluated.** -/
theorem enterEvalList {list list' : Value} (hD : D.Sound) (hgo : D.left.failing = false)
    (henv : D.concord.Rel env env') (hlist : D.concord.Recast .exprs list list') :
    Both D 0 (Machine.enterEvalList env list) (Machine.enterEvalList env' list') (D.Yields n ps ps') :=
  pushRoot _ _ (enterArguments hn hlist _ .nil .nil .nil .nil hD.withRoots hgo (.refl _)
    (Duet.Later.refl D).withRoots ⟨rfl, rfl⟩ henv .nil .nil)

end Both

/-! ## 2. Functions -/

/-- **Calls that correspond**, over root stacks that have grown since `D₀`. -/
structure Duet.Calling (D₀ D : Duet) (call call' : Call) : Prop where
  parts : D.concord.Parts call.closure call'.closure
  base : call.base = D₀.left.heap.roots.size
  base' : call'.base = D₀.right.heap.roots.size
  later : D₀.Later D
  atop : D₀.Atop D

variable {call call' : Call}

theorem Duet.Calling.onward (h : D₀.Calling D₁ call call') (later : D₁.Later D₂) (still : D₁.Still D₂) :
    D₀.Calling D₂ call call' :=
  ⟨h.parts.mono later.le, h.base, h.base', h.later.trans later, h.atop.still still⟩

/-- The frames are rooted. -/
theorem Duet.Calling.framed (h : D₀.Calling D call call') (v v' : Value) : D₀.Calling (D.withRoots
    (D.left.heap.roots.setIfInBounds call.frameSlot v) (D.right.heap.roots.setIfInBounds call'.frameSlot v'))
    call call' where
  parts := h.parts
  base := h.base
  base' := h.base'
  later := h.later.withRoots
  atop := h.atop.set (h.base ▸ Nat.le_succ call.base) (h.base' ▸ Nat.le_succ call'.base) v v'

namespace Both

/-- Names are bound to values that correspond. -/
theorem forM_define {frame frame' : Value} {bound bound' : List (Value × Value)}
    (h : List.Forall₂ (fun q q' => K.Rel q.1 q'.1 ∧ K.Rel q.2 q'.2) bound bound') (hD : D.Sound)
    (le : K.Le D.concord) (hframe : D.concord.Rel frame frame') :
    Both D (2 * bound.length) (bound.forM fun (name, value) => Context.define frame name value)
      (bound'.forM fun (name, value) => Context.define frame' name value) fun D' _ _ => D.Still D' := by
  induction h generalizing D with
  | nil => exact pure hD (.refl D)
  | cons hfirst _ ih =>
    rw [List.length_cons, Nat.mul_add, Nat.add_comm]
    refine (define hD hframe (hfirst.1.mono le) (hfirst.2.mono le)).bind fun D₁ _ _ hD₁ later calm => ?_
    exact (ih hD₁ (le.trans later.le) (hframe.mono later.le)).weaken le_rfl fun _ _ _ _ _ h => calm.toStill.trans h

/-- **Parameters are bound alike.** How many cells that takes is known from the list of parameters. -/
theorem exists_bindParams {params params' : Value} (h : K.Recast .params params params') :
    ∃ m, ∀ (D : Duet) (frame frame' args args' : Value), D.Sound → K.Le D.concord → D.concord.Rel frame frame' →
      D.concord.Rel args args' → Both D m (Machine.bindParams frame params args)
        (Machine.bindParams frame' params' args') fun D' _ _ => D.Still D' := by
  obtain ⟨k, hk⟩ := Concord.Recast.exists_paired h
  refine ⟨2 * k, fun D frame frame' args args' hD le hframe hargs => ?_⟩
  obtain ⟨bound, bound', fit, hleft, hright, hfit, hlength, hbound⟩ := hk D hD le args args' hargs
  rw [Machine.bindParams, Machine.bindParams]
  refine look ?_
  rw [hleft, hright]
  refine ((forM_define hbound hD (.refl _) hframe).mono (Nat.mul_le_mul_left 2 hlength)).bind (m := 0)
    fun D₁ _ _ hD₁ _ still => ?_
  have hfail : ∀ message, Both D₁ 0 (do let _ ← Context.fail message) (do let _ ← Context.fail message)
      fun D' _ _ => D.Still D' := fun message => (fail hD₁ message).bind (m := 0)
    fun _ _ _ hD₂ _ hq => pure hD₂ (still.trans hq.2.2.2)
  cases fit with
  | exact => exact pure hD₁ still
  | tooFew => exact hfail _
  | tooMany => exact hfail _
  | endless => exact absurd rfl hfit

/-- **A call ends.** A failure that goes through a function with a name gets a line. -/
theorem finish (hD : D.Sound) (hcall : D₀.Calling D call call') (hv : D.concord.Rel v v') :
    Both D 0 (Machine.finish call v) (Machine.finish call' v') (D₀.Yields n ps ps') := by
  have hrest : ∀ D₁, D₁.Sound → D.Later D₁ → D.Still D₁ → Both D₁ 0
      (do Heap.popRoots call.base; modify fun c => { c with current := call.caller }; Pure.pure (Next.give v))
      (do Heap.popRoots call'.base; modify fun c => { c with current := call'.caller }; Pure.pure (Next.give v'))
      (D₀.Yields n ps ps') := fun D₁ hD₁ later still => by
    have hcall₁ := hcall.onward later still
    rw [hcall.base, hcall.base']
    refine unwind hcall₁.atop (aside (fun c => ⟨_, _, _, rfl⟩) (fun c => ⟨_, _, _, rfl⟩) hD₁.withRoots
      fun D₂ hD₂ later₂ still₂ hK _ _ => pure hD₂ ?_)
    exact Duet.yields_give (D := D₀) hD₂ (hcall₁.later.withRoots.trans later₂) ⟨still₂.left, still₂.right⟩
      (hK ▸ hv.mono later.le)
  have hname := hcall.parts.name
  rw [Machine.finish, Machine.finish]
  refine isFailing hD (ite ?_ (fun _ => ?_) fun _ => hrest D hD (.refl D) (.refl D))
  · rw [hname.kindred.isSym_eq]
  · refine observe ?_
    rw [hD.display_eq hname]
    exact (prepend hD _).bind (m := 0) fun D₁ _ _ hD₁ later hq => hrest D₁ hD₁ later hq.2

/-- The forms of a body. -/
theorem enterForms {frame frame' : Value} (hn : Evals n) (hD : D.Sound) (hcall : D₀.Calling D call call')
    (hgo : D.left.failing = false) (hframe : D.concord.Rel frame frame') :
    Both D 0 (Machine.enterForms call frame call.closure.body .nil)
      (Machine.enterForms call' frame' call'.closure.body .nil) (D₀.Yields n ps ps') := by
  rw [Row.enterForms_eq, Row.enterForms_eq]
  exact row hn (.body call frame) (.body call' frame') rfl hcall.parts.body hD hgo (.refl _) hframe .nil
    fun D₁ u u' hD₁ later still hu => finish hD₁ (hcall.onward later still) hu

/-- **A body begins** in a fresh frame. -/
theorem enterBody {m : Nat} (hn : Evals n) (hD : D.Sound) (hcall : D₀.Calling D call call')
    (hslot : call.frameSlot < D.left.heap.roots.size) (hslot' : call'.frameSlot < D.right.heap.roots.size)
    (hargs : D.concord.Rel args args') (hbind : ∀ (D₁ : Duet) (frame frame' : Value), D₁.Sound →
      D.concord.Le D₁.concord → D₁.concord.Rel frame frame' → D₁.concord.Rel args args' →
      Both D₁ m (Machine.bindParams frame call.closure.params args)
        (Machine.bindParams frame' call'.closure.params args') fun D' _ _ => D₁.Still D') :
    Both D (1 + m) (Machine.enterBody call args) (Machine.enterBody call' args') (D₀.Yields n ps ps') := by
  rw [Machine.enterBody, Machine.enterBody]
  refine (cons hD hcall.parts.env .nil).bind fun D₁ _ _ hD₁ later₁ hq => ?_
  obtain ⟨a, b, rfl, rfl, hlink, calm₁⟩ := hq
  have still₁ := calm₁.toStill
  have hcall₁ := hcall.onward later₁ still₁
  refine setRoot _ _ (by rwa [still₁.left]) (by rwa [still₁.right]) ?_
  have hcall₂ := hcall₁.framed (.pair a) (.pair b)
  have hframed : (D₁.withRoots (D₁.left.heap.roots.setIfInBounds call.frameSlot (.pair a))
    (D₁.right.heap.roots.setIfInBounds call'.frameSlot (.pair b))).Sound := hD₁.withRoots
  refine (hbind _ _ _ hframed later₁.le (.pair hlink) (hargs.mono later₁.le)).bind (m := 0)
    fun D₃ _ _ hD₃ later₃ still₃ => ?_
  have hcall₃ := hcall₂.onward later₃ still₃
  exact isFailing hD₃ (ite Iff.rfl (fun _ => finish hD₃ hcall₃ .nil) fun hgo =>
    enterForms hn hD₃ hcall₃ (Bool.eq_false_iff.mpr hgo) (.pair (later₃.le.link _ _ hlink)))

/-- **A function is called.** -/
theorem enterFunction {m : Nat} {f f' : Closure} (hn : Evals n) (hD : D.Sound) (hparts : D.concord.Parts f f')
    (hf : D.left.heap.closure func = f) (hf' : D.right.heap.closure func' = f') (hargs : D.concord.Rel args args')
    (hbind : ∀ (D₁ : Duet) (frame frame' args args' : Value), D₁.Sound → D.concord.Le D₁.concord →
      D₁.concord.Rel frame frame' → D₁.concord.Rel args args' → Both D₁ m (Machine.bindParams frame f.params args)
        (Machine.bindParams frame' f'.params args') fun D' _ _ => D₁.Still D') :
    Both D (1 + m) (Machine.enterFunction func args) (Machine.enterFunction func' args') (D.Yields n ps ps') := by
  rw [Machine.enterFunction, Machine.enterFunction]
  refine observe (aside (fun c => ⟨_, _, _, rfl⟩) (fun c => ⟨_, _, _, rfl⟩) hD
    fun D₁ hD₁ later calm hK hheap hheap' => look ?_)
  have still := calm.toStill
  rw [hheap, hheap', hf, hf']
  refine pushRoot _ _ (pushRoot _ _ ?_)
  have hatop := (((Duet.Atop.refl D).still still).push args args').push .nil .nil
  have le : D.concord.Le D₁.concord := later.le
  refine enterBody hn hD₁.withRoots.withRoots ?_ ?_ ?_ (hargs.mono le)
    fun D₂ frame frame' hD₂ le₂ hframe hargs => hbind D₂ frame frame' args args' hD₂ (le.trans le₂) hframe hargs
  · exact ⟨hparts.mono le, congrArg Array.size still.left, congrArg Array.size still.right,
      later.withRoots.withRoots, hatop⟩
  · simp [Call.frameSlot, Duet.withRoots, Context.withRoots]
  · simp [Call.frameSlot, Duet.withRoots, Context.withRoots]

end Both

/-! ## 3. Applications -/

/-- Applies a function or a native; `message` is for what is neither. -/
def Machine.dispatch (message : String) (func args : Value) : Run Next := do
  let type ← look (·.typeOf func)
  if type = CoreType.func.id then enterFunction func args
  else if type = CoreType.native.id then enterNative Host.none func args
  else failNext message

/-- Where every call is started, the head of an evaluated form is called at once. -/
theorem Machine.resumeBy_call (tail : Bool) (form : Value) :
    (Pending.call tail).resumeBy Host.none false form = (do
      if ← isFailing then pure (.give .nil)
      else
        let _ ← (liftM (Heap.pushRoot form) : Run Nat)
        let func ← look (·.car form)
        let args ← look (·.cdr form)
        dispatch "eval: Invalid application" func args) := by
  show resumeCall Host.none (tail && false) form = _
  rw [Bool.and_false]
  rfl

theorem Machine.enterApply_eq (func args : Value) : enterApply Host.none func args = (do
    let base ← (liftM (Heap.pushRoot func) : Run Nat)
    let _ ← (liftM (Heap.pushRoot args) : Run Nat)
    let next ← dispatch "apply: Invalid application" func args
    pure (next.andThen (.release base))) := by
  refine bind_congr fun base => bind_congr fun _ => ?_
  rw [dispatch, bind_assoc]
  refine bind_congr fun type => ?_
  dsimp only
  split
  · rfl
  · split <;> rfl

/-- **Applications come to values that correspond**, or last for `n` steps. -/
def Applies (n : Nat) : Prop :=
  ∀ (D : Duet) (func func' args args' : Value) (ps ps' : List Pending), D.Sound → D.concord.Rel func func' →
    D.concord.Rel args args' →
    Meets n ⟨D.left, .apply func args, ps⟩ ⟨D.right, .apply func' args', ps'⟩
      (D.Gives D.left.heap.roots D.right.heap.roots ps ps')

namespace Both

/-- What a native hands back. -/
theorem yields_hands (ha : Applies n) {next next' : Next} (hD₁ : D₁.Sound) (later : D.Later D₁)
    (h : D.Hands D₁ next next') : D.Yields n ps ps' D₁ next next' := by
  cases h with
  | give still hv => exact Duet.yields_give hD₁ later still hv
  | apply still hf hargs =>
    exact Duet.Yields.base later still (ha D₁ _ _ _ _ ps ps' hD₁ hf hargs)

/-- **A function or a native is applied**, or what is neither. -/
theorem exists_dispatch (ps ps' : List Pending) (hn : Evals n) (ha : Applies n) (message : String) (hD : D.Sound)
    (hf : D.concord.Rel func func') (hargs : D.concord.Rel args args') :
    ∃ m, ∀ D₁ : Duet, D₁.Sound → D.Alike D₁ →
      Both D₁ m (Machine.dispatch message func args) (Machine.dispatch message func' args') (D₁.Yields n ps ps') := by
  unfold Machine.dispatch
  by_cases ht : D.left.heap.typeOf func = CoreType.func.id
  · obtain ⟨f, f', hparts, heq⟩ := hD.exists_parts hf ht
    obtain ⟨m, hbind⟩ := exists_bindParams hparts.params
    refine ⟨1 + m, fun D₁ hD₁ hsame => look ?_⟩
    obtain ⟨hl, hr⟩ := heq D₁ hD₁ hsame
    rw [← (hsame.same hD hf).1] at ht
    rw [← hsame.concord] at hf hargs hparts hbind
    rw [← hD₁.typeOf_eq hf, if_pos ht, if_pos ht]
    exact enterFunction hn hD₁ hparts hl hr hargs fun D₂ frame frame' args args' hD₂ le hframe hargs =>
      hbind D₂ frame frame' args args' hD₂ le hframe hargs
  · refine ⟨1, fun D₁ hD₁ hsame => look ?_⟩
    rw [← (hsame.same hD hf).1] at ht
    rw [← hsame.concord] at hf hargs
    rw [← hD₁.typeOf_eq hf, if_neg ht, if_neg ht]
    exact ite Iff.rfl (fun _ => (enterNative hD₁ hf hargs).weaken le_rfl
      fun _ _ _ hD₂ later h => yields_hands ha hD₂ later h) fun _ => failYields hD₁ _

/-- **The head of an evaluated form is called.** The form stays on the root stack. -/
theorem exists_resumeCall {tail tail' : Bool} (hn : Evals n) (ha : Applies n) (hD : D.Sound)
    (hv : D.concord.Rel v v') : ∃ m, ∀ D₁, D.Roomier D₁ → Both D₁ m
      ((Pending.call tail).resumeBy Host.none false v) ((Pending.call tail').resumeBy Host.none false v')
      fun D₂ next next' => ∃ D₃ : Duet, D₁.Later D₃ ∧ D₁.Atop D₃ ∧ D₃.Yields n ps ps' D₂ next next' := by
  obtain ⟨m, hm⟩ := exists_dispatch ps ps' hn ha "eval: Invalid application" hD (hD.similar.car hv)
    (hD.similar.cdr hv)
  refine ⟨m, fun D₁ hroom => ?_⟩
  have hD₁ := hroom.sound hD
  obtain ⟨-, hcar, hcdr, hcar', hcdr'⟩ := (hroom.alike hD).same hD hv
  rw [Machine.resumeBy_call, Machine.resumeBy_call]
  refine isFailing hD₁ (ite Iff.rfl (fun _ => (pure hD₁ ?_).mono (Nat.zero_le m)) fun _ => ?_)
  · exact ⟨D₁, .refl D₁, .refl D₁, Duet.yields_give hD₁ (.refl D₁) (.refl D₁) .nil⟩
  · refine pushRoot v v' (look (look ?_))
    have hatop := (Duet.Atop.refl D₁).push v v'
    have hD₂ : (D₁.withRoots (D₁.left.heap.roots.push v) (D₁.right.heap.roots.push v')).Sound := hD₁.withRoots
    rw [← hcar, ← hcdr, ← hcar', ← hcdr'] at hm
    exact (hm _ hD₂ ((hroom.alike hD).withRoots _ _)).weaken le_rfl fun _ _ _ _ _ h =>
      ⟨_, (Duet.Later.refl D₁).withRoots, hatop, h⟩

/-- **A value is applied to arguments.** -/
theorem exists_enterApply (hn : Evals n) (ha : Applies n) (hD : D.Sound) (hf : D.concord.Rel func func')
    (hargs : D.concord.Rel args args') : ∃ m, ∀ D₁, D.Roomier D₁ → Both D₁ m
      (Machine.enterApply Host.none func args) (Machine.enterApply Host.none func' args') (D₁.Yields n ps ps') := by
  obtain ⟨m, hm⟩ := exists_dispatch (.release D.left.heap.roots.size :: ps)
    (.release D.right.heap.roots.size :: ps') hn ha "apply: Invalid application" hD hf hargs
  refine ⟨m, fun D₁ hroom => ?_⟩
  have hD₁ := hroom.sound hD
  have still := hroom.still hD
  rw [Machine.enterApply_eq, Machine.enterApply_eq]
  refine pushRoot _ _ (pushRoot _ _ ?_)
  have hatop := ((Duet.Atop.refl D₁).push func func').push args args'
  rw [← still.left, ← still.right] at hm
  have hD₂ : ((D₁.withRoots (D₁.left.heap.roots.push func) (D₁.right.heap.roots.push func')).withRoots
    ((D₁.left.heap.roots.push func).push args) ((D₁.right.heap.roots.push func').push args')).Sound :=
    hD₁.withRoots.withRoots
  refine (hm _ hD₂ (((hroom.alike hD).withRoots _ _).withRoots _ _)).bind (m := 0)
    fun D₃ next next' hD₃ _ hnext => pure hD₃ ?_
  exact unwinding (g := id) (fun c => ⟨_, _, _, rfl⟩) (fun _ => rfl) (fun _ => rfl)
    (Duet.Later.refl D₁).withRoots.withRoots hatop hnext

end Both

end LispMachine
