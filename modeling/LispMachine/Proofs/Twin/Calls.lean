import LispMachine.Proofs.Twin.Binding
import LispMachine.Proofs.Twin.Waiting

/-!
# Calls, on both sides

* `Leads.bindParams` -- parameters are bound alike. The arguments are data, which nobody writes while
  they are bound (`Shape.Still`);
* `Leads.finish` -- the end of a call: the function that was running before runs again;
* `Leads.enterBody`, `Leads.resumeBody` -- **a body goes on**, with one form after the other, or anew
  with the arguments of a self tail call;
* `Leads.enterFunction` -- a call starts.
-/

namespace LispMachine

open World

/-- Cells of the shape are not written while names are bound. -/
def Shape.Still (s : Shape) : Prop := s ≠ .frame ∧ s ≠ .binding

theorem Shape.Fixed.still {s : Shape} (hs : s.Fixed) : s.Still := by
  refine ⟨?_, ?_⟩
  · rintro rfl
    cases hs
  · rintro rfl
    cases hs

/-- A line of traceback, if there is room for it. -/
theorem Traced.prepend {cause message : String} (h : Traced cause message) (name : String)
    {p : Prop} [Decidable p] :
    Traced cause (if p then "In " ++ name ++ ":\n" ++ message else message) := by
  split
  · exact .line name h
  · exact h

namespace Leads

variable {lex : Lexicon} {γ : Value × Value} {D : Couple} {S : Shape → Prop} {n : Nat}
variable {call call' : Call} {frame frame' params params' args args' v v' : Value}

/-! ## 1. Parameters -/

/-- Names that are paired with values are bound. -/
theorem forM_define {bound bound' : List (Value × Value)} (hD : D.Matched lex γ) (hn : n ≤ D.height)
    (hframe : D.twin.Rooted Shape.Still n (.just .frame) frame frame')
    (hb : List.Forall₂ (D.twin.NamedAgree Shape.Still n) bound bound') :
    Leads lex Shape.Still n γ D (bound.forM fun (name, value) => Context.define frame name value)
      (bound'.forM fun (name, value) => Context.define frame' name value)
      (fun D' _ _ => D'.height = D.height) := by
  induction bound generalizing D bound' with
  | nil =>
    cases hb
    exact pure hD hn ⟨rfl, rfl⟩
  | cons p bound ih =>
    cases hb with
    | cons hp hb =>
      refine bind hD (define hD hn hframe.rel hp.name.rel hp.value.rel (fun h => h.1 rfl)
        fun h => h.2 rfl) (Nat.le_refl n) fun hD₁ ho₁ hheight => ?_
      have hbound := hb.imp fun _ _ h => Twin.NamedAgree.mk
        (ho₁.rooted hD hD₁ h.name (Nat.le_refl n)) (ho₁.rooted hD hD₁ h.value (Nat.le_refl n))
      refine (ih hD₁ ho₁.heaps.height (ho₁.rooted hD hD₁ hframe (Nat.le_refl n)) hbound).weaken
        (fun _ => id) (Nat.le_refl n) fun _ _ hq => ?_
      exact ⟨rfl, hq.trans hheight⟩

/-- What is bound on each side for itself, before both walks turn out not to end. -/
theorem outOfSteps_of_settles {x x' : Run Unit} {P : Value × Value → Couple → Unit → Unit → Prop}
    (hD : D.Matched lex γ) (hx : Settles x D.left fun _ _ => True)
    (hx' : Settles x' D.right fun _ _ => True) :
    Steps lex S n D (x >>= fun _ => (MonadExcept.throw .outOfSteps : Run Unit))
      (x' >>= fun _ => (MonadExcept.throw .outOfSteps : Run Unit)) P := by
  rw [Settles] at hx hx'
  rw [Steps]
  cases hr : x D.left with
  | error e c =>
    rw [hr] at hx
    rw [run_bind_error hr, hx]
    refine .exhausted_left fun _ => ?_
    cases hr' : x' D.right with
    | error e' c' => exact ⟨e', c', run_bind_error hr'⟩
    | ok a' c' => exact ⟨_, c', run_bind hr'⟩
  | ok a c =>
    rw [hr] at hx
    rw [run_bind hr]
    cases hr' : x' D.right with
    | error e c' =>
      rw [hr'] at hx'
      rw [run_bind_error hr', hx']
      exact .exhausted_right
    | ok a' c' =>
      rw [hr'] at hx'
      rw [run_bind hr']
      obtain ⟨out, hl, hr⟩ := hD.output
      exact .fault ⟨out, hx.2.1.trans hl, hx'.2.1.trans hr⟩

/-- **Parameters are bound alike.** -/
theorem bindParams (hD : D.Matched lex γ) (hn : n ≤ D.height)
    (hframe : D.twin.Rooted Shape.Still n (.just .frame) frame frame') (hpair : frame.isPair = true)
    (hparams : D.twin.Rooted Shape.Still n (.just .inert) params params')
    (hargs : D.twin.Rooted Shape.Still n (.just .data) args args') :
    Leads lex Shape.Still n γ D (Machine.bindParams frame params args)
      (Machine.bindParams frame' params' args') (fun D' _ _ => D'.height = D.height) := by
  have hpair' : frame'.isPair = true := hframe.rel.same.isPair_eq ▸ hpair
  have hinert : Shape.inert.Still := ⟨nofun, nofun⟩
  have hdata : Shape.data.Still := ⟨nofun, nofun⟩
  have hpaired := hD.coherent.pairUp hinert hdata hparams hargs
  rw [Machine.bindParams, Machine.bindParams]
  refine look ?_
  replace hpaired : D.twin.Paired Shape.Still n
    (Machine.pairUp D.left.heap (D.left.heap.cells.size + 1) params args)
    (Machine.pairUp D.right.heap (D.right.heap.cells.size + 1) params' args') := hpaired
  generalize Machine.pairUp D.left.heap _ params args = p at hpaired ⊢
  generalize Machine.pairUp D.right.heap _ params' args' = p' at hpaired ⊢
  cases hpaired with
  | ends fit hb =>
    refine bind hD (forM_define hD hn hframe hb) (Nat.le_refl n) fun {D₁ _ _} hD₁ ho₁ hheight => ?_
    have hfail : ∀ message : String, Leads lex Shape.Still n γ D₁
        (Context.fail message >>= fun _ => (Pure.pure () : Run Unit))
        (Context.fail message >>= fun _ => (Pure.pure () : Run Unit))
        (fun D' _ _ => D'.height = D.height) := fun message =>
      bind hD₁ (fail hD₁ ho₁.heaps.height rfl) (Nat.le_refl n) fun hD₂ ho₂ hq =>
        pure hD₂ ho₂.heaps.height ⟨rfl, (Couple.height_eq hq.1).trans hheight⟩
    cases fit with
    | exact => exact pure hD₁ ho₁.heaps.height ⟨rfl, hheight⟩
    | tooFew => exact hfail _
    | tooMany => exact hfail _
    | endless => exact throw hD₁ _
  | endless bound bound' =>
    obtain ⟨a, rfl⟩ : ∃ a, frame = .pair a := by
      cases frame <;> first | exact ⟨_, rfl⟩ | cases hpair
    obtain ⟨b, rfl⟩ : ∃ b, frame' = .pair b := by
      cases frame' <;> first | exact ⟨_, rfl⟩ | cases hpair'
    exact outOfSteps_of_settles hD (Settles.forM_define hD.valid_left a bound)
      (Settles.forM_define hD.valid_right b bound')

/-! ## 2. The end of a call -/

/-- The functions that are running from now on. -/
theorem setCurrent (hD : D.Matched lex γ) (hn : n ≤ D.height) (func func' : Value) :
    Leads lex S n (func, func') D (modify fun c => { c with current := func })
      (modify fun c => { c with current := func' })
      (fun D' _ _ => D'.twin = D.twin ∧ D'.left.failing = D.left.failing) :=
  .ok (W := D.world) (σ := D.slot) { hD with current_left := rfl, current_right := rfl }
    ⟨.refl hn, rfl, rfl, fun _ _ h => h⟩ ⟨rfl, rfl, rfl⟩

/-- The value on its way back is no list of arguments of a self tail call any more. -/
theorem unsetLooping (hD : D.Matched lex γ) (hn : n ≤ D.height) :
    Leads lex S n γ D (modify fun c => { c with looping := false })
      (modify fun c => { c with looping := false }) (fun D' _ _ => D'.twin = D.twin) :=
  .ok (W := D.world) (σ := D.slot) { hD with looping := rfl, settled := fun _ => rfl }
    ⟨.refl hn, rfl, rfl, fun _ _ h => h⟩ ⟨rfl, rfl⟩

/-- The value is a list of arguments of a self tail call, on both sides. -/
theorem setLooping (hD : D.Matched lex γ) (hplain : lex.nested = false) (hn : n ≤ D.height) :
    Leads lex S n γ D (modify fun c => { c with looping := true })
      (modify fun c => { c with looping := true }) (fun D' _ _ => D'.twin = D.twin) := by
  have hsettled : lex.nested = true → true = false := fun h => absurd h (Bool.eq_false_iff.mp hplain)
  exact .ok (W := D.world) (σ := D.slot) { hD with looping := rfl, settled := hsettled }
    ⟨.refl hn, rfl, rfl, fun _ _ h => h⟩ ⟨rfl, rfl⟩

/-- The text of a message after a line of traceback, unless that is too long. -/
theorem prepend_run (line : String) (c : Context) : Context.prepend line c = .ok ⟨⟩ { c with
    failure := if line.utf8ByteSize + c.failure.utf8ByteSize ≤ Context.failureCap
      then line ++ c.failure else c.failure } := by
  rw [Context.prepend, run_modify]
  split <;> rfl

/-- One more line of traceback. -/
theorem prepend {name name' : String} (hD : D.Matched lex γ) (hn : n ≤ D.height)
    (hname : name = name') :
    Leads lex S n γ D (Context.prepend ("In " ++ name ++ ":\n"))
      (Context.prepend ("In " ++ name' ++ ":\n"))
      (fun D' _ _ => D'.twin = D.twin ∧ D'.left.failing = D.left.failing) := by
  subst hname
  obtain ⟨hplain, cause, hleft, hright⟩ := hD.failure
  rw [Leads, Steps, prepend_run, prepend_run]
  refine .ok (W := D.world) (σ := D.slot) { hD with failure := ⟨fun hn => ?_, cause, ?_, ?_⟩ }
    ⟨.refl hn, rfl, rfl, fun _ _ h => h⟩ ⟨rfl, rfl, rfl⟩
  · rw [hplain hn]
  · exact hleft.prepend name
  · exact hright.prepend name

/-- **A call ends**, and both root stacks are cut back to where it began. -/
theorem finish (hD : D.Matched lex γ) (hcall : CallAgree D call call')
    (hh : call.base ≤ D.height) (hv : D.world.Rel (.just .data) v v')
    (hfail : D.left.failing = true → v = .nil) :
    Steps lex S call.base D (Machine.finish call v) (Machine.finish call' v')
      (ProceedsIn lex call call') := by
  have hname := hcall.parts.name.rel.same
  have hleave : ∀ {D₁ : Couple}, D₁.Matched lex γ → D₁.twin = D.twin ∧ D₁.left.failing = D.left.failing →
      Steps lex S call.base D₁ (do
          Heap.popRoots call.base
          modify fun c => { c with current := call.caller }
          Pure.pure (Next.give v))
        (do
          Heap.popRoots call'.base
          modify fun c => { c with current := call'.caller }
          Pure.pure (Next.give v'))
        (ProceedsIn lex call call') := fun {D₁} hD₁ hsame => by
    have hslot : call'.base = D₁.slot call.base := hcall.base.trans (congrFun (Couple.slot_eq hsame.1) _).symm
    have hb : call.base ≤ D₁.height := (Couple.height_eq hsame.1).symm ▸ hh
    rw [hslot]
    refine bind hD₁ (popRoots hD₁ (Nat.le_refl _) hb) (Nat.le_refl _) fun {D₂ _ _} hD₂ ho₂ hq => ?_
    have hheight₂ : D₂.height = call.base := hq ▸ Couple.height_popped hb
    have hv₂ : D₂.world.Rel (.just .data) v v' := by
      rw [hq]
      rw [← Couple.world_eq hsame.1] at hv
      exact Twin.Rel.released hv
    have hfail₂ : D₂.left.failing = D.left.failing := by
      rw [hq]
      exact hsame.2
    refine bind hD₂ (setCurrent hD₂ ho₂.heaps.height _ _) (Nat.le_refl _)
      fun {D₃ _ _} hD₃ ho₃ hq => ?_
    have hheight₃ : D₃.height = call.base := (Couple.height_eq hq.1).trans hheight₂
    have hsize : D₃.right.heap.roots.size = call'.base := by
      rw [hD₃.height_eq, hheight₃, ho₃.top, ho₂.top, hslot]
    refine pure hD₃ ho₃.heaps.height fun ps ps' hbehind => .back ?_ ?_ ?_
    · rw [Couple.world_eq hq.1]
      exact hv₂
    · exact fun hf => hfail (hfail₂ ▸ hq.2 ▸ hf)
    · rw [hheight₃, hsize]
      exact hbehind
  rw [Machine.finish, Machine.finish]
  refine isFailing hD (ite ?_ (fun _ => ?_) fun _ => ?_)
  · rw [hname.isSym_eq]
  · refine observe ?_
    exact bind hD (prepend hD hh (hD.display_eq hname)) (Nat.le_refl _) fun hD₁ _ hq => hleave hD₁ hq
  · exact hleave hD ⟨rfl, rfl⟩

/-! ## 3. Bodies -/

/-- A call is under way on both sides: its two slots are there, and the functions are kept. -/
structure Running (lex : Lexicon) (D : Couple) (γ : Value × Value) (call call' : Call) : Prop where
  calls : CallAgree D call call'
  height : call.base + 2 ≤ D.height
  /-- Nothing else is there. -/
  exact : lex.nested = true → D.height = call.base + 2
  funcs : D.Kept call.base (.just .data) γ.1 γ.2
  closure : call'.closure = D.right.heap.closure γ.2

theorem Running.onward {D' : Couple} {β β' : Value × Value} (h : Running lex D γ call call')
    (hD : D.Matched lex β) (hD' : D'.Matched lex β')
    (ho : D.Onward Shape.Fixed call.base D') (hh : D'.height = D.height) :
    Running lex D' γ call call' where
  calls := h.calls.onward hD hD' ho.heaps ho.top (Nat.le_refl _)
  height := hh.symm ▸ h.height
  exact hn := hh.trans (h.exact hn)
  funcs := ho.rooted hD hD' h.funcs (Nat.le_refl _)
  closure := h.closure.trans (ho.heaps.closure_eq hD.coherent (fun _ hs => hs) h.funcs).2.symm

theorem Running.base_le (h : Running lex D γ call call') : call.base ≤ D.height :=
  Nat.le_trans (Nat.le_add_right _ 2) h.height

/-- **The forms of a body**, from a pair of them on. -/
theorem enterForms {forms forms' : Value} (hD : D.Matched lex γ) (hcall : Running lex D γ call call')
    (hframe : D.Kept (call.base + 2) (.just .frame) frame frame')
    (hforms : D.Kept call.base (.just .exprs) forms forms')
    (hv : D.world.Rel (.just .data) v v') (hfail : D.left.failing = true → v = .nil) :
    Steps lex S call.base D (Machine.enterForms call frame forms v)
      (Machine.enterForms call' frame' forms' v') (ProceedsIn lex call call') := by
  have hlast : (!(D.right.heap.cdr forms').isPair) = !(D.left.heap.cdr forms).isPair :=
    congrArg (!·) (hD.coherent.cdr hforms.rel).same.isPair_eq.symm
  rw [Machine.enterForms, Machine.enterForms]
  refine ite (by rw [hforms.rel.same.isPair_eq]) (fun _ => look ?_) fun _ => ?_
  · refine pure hD hcall.base_le fun ps ps' hbehind => ?_
    obtain ⟨g, extra, qs', rfl, hextra, hw⟩ := hbehind
    have hbody : Waiting lex D (call.base + 2) γ (.just .data) (.body call frame forms :: ps)
        (.body call' frame' forms' :: (extra ++ qs')) :=
      .body hcall.calls (Nat.le_refl _) hcall.funcs hcall.closure hframe hforms hextra hw
    refine .task hcall.height (.eval_last hlast hframe.rel (hD.coherent.car hforms.rel) fun ht => ?_)
      hbody
    obtain ⟨hnested, hend⟩ := Bool.and_eq_true_iff.mp ht
    refine ⟨call.base, ?_, hforms.car hD.coherent rfl⟩
    rw [hcall.exact hnested]
    exact .body rfl ⟨hforms, (Bool.not_eq_true' _).mp hend⟩
  · exact finish hD hcall.calls hcall.base_le hv hfail

/-- A body begins in a new frame: its parameters are bound, and its forms follow. -/
theorem bindForms (hD : D.Matched lex γ) (hcall : Running lex D γ call call')
    (hframe : D.Kept (call.base + 2) (.just .frame) frame frame') (hpair : frame.isPair = true)
    (hargs : D.twin.Rooted Shape.Still (call.base + 1) (.just .data) args args') :
    Steps lex Shape.Still call.base D (do
        Machine.bindParams frame call.closure.params args
        if ← Context.isFailing then Machine.finish call .nil
        else Machine.enterForms call frame call.closure.body .nil)
      (do
        Machine.bindParams frame' call'.closure.params args'
        if ← Context.isFailing then Machine.finish call' .nil
        else Machine.enterForms call' frame' call'.closure.body .nil)
      (ProceedsIn lex call call') := by
  have hle : call.base ≤ call.base + 2 := Nat.le_add_right _ 2
  have hstill : ∀ s, Shape.Fixed s → Shape.Still s := fun _ hs => hs.still
  refine bind hD (bindParams hD hcall.height (hframe.mono hstill (Nat.le_refl _)) hpair
    (hcall.calls.parts.params.mono hstill hle) (hargs.lift (Nat.le_succ _))) hle
    fun {D₁ _ _} hD₁ ho₁ hheight => ?_
  have hcall₁ := hcall.onward hD hD₁ (ho₁.mono hstill hle) hheight
  refine isFailing hD₁ (ite Iff.rfl (fun _ => ?_) fun _ => ?_)
  · exact finish hD₁ hcall₁.calls hcall₁.base_le .nil fun _ => rfl
  · exact enterForms hD₁ hcall₁
      ((ho₁.mono hstill (Nat.le_refl _)).rooted hD hD₁ hframe (Nat.le_refl _))
      hcall₁.calls.parts.body .nil fun _ => rfl

/-- **A body begins** with fresh bindings. -/
theorem enterBody (hD : D.Matched lex γ) (hcall : Running lex D γ call call')
    (hslot : D.slot call.frameSlot = call'.frameSlot)
    (hargs : D.twin.Rooted Shape.Still (call.base + 1) (.just .data) args args') :
    Steps lex Shape.Still call.base D (Machine.enterBody call args)
      (Machine.enterBody call' args') (ProceedsIn lex call call') := by
  have hle : call.base ≤ call.base + 2 := Nat.le_add_right _ 2
  have hstill : ∀ s, Shape.Fixed s → Shape.Still s := fun _ hs => hs.still
  rw [Machine.enterBody, Machine.enterBody, ← hslot, Call.frameSlot]
  refine bind hD (newFrame hD hcall.height hcall.calls.parts.env.rel) hle
    fun {D₁ _ _} hD₁ ho₁ hq => ?_
  obtain ⟨hheight₁, hframe, hpair⟩ := hq
  have hcall₁ := hcall.onward hD hD₁ (ho₁.mono hstill hle) hheight₁
  have hargs₁ := ho₁.rooted hD hD₁ hargs (Nat.le_succ _)
  have hlt : call.base + 1 < D₁.height := hcall₁.height
  rw [← ho₁.slot_eq (Nat.le_succ _)]
  refine bind hD₁ (setRoot hD₁ (Nat.le_refl (call.base + 1)) hlt hframe.slot) (Nat.le_succ _)
    fun {D₂ _ _} hD₂ ho₂ hq => ?_
  have hframe₂ : D₂.Kept (call.base + 2) (.just .frame) _ _ :=
    hq ▸ Couple.rooted_slotSet hD₁ hlt hframe
  have hcall₂ := hcall₁.onward hD₁ hD₂ (ho₂.mono hstill (Nat.le_succ _))
    (hq ▸ Couple.height_slotSet _ _ _ _)
  exact bindForms hD₂ hcall₂ hframe₂ hpair (ho₂.rooted hD₁ hD₂ hargs₁ (Nat.le_refl _))

/-- **A body goes on** after one of its forms. -/
theorem resumeBody {forms forms' : Value} (hD : D.Matched lex γ) (hcall : Running lex D γ call call')
    (hframe : D.Kept (call.base + 2) (.just .frame) frame frame')
    (hforms : D.Kept call.base (.just .exprs) forms forms')
    (hv : D.world.Rel (.just .data) v v') :
    Steps lex Shape.Fixed call.base D (Machine.resumeBody call frame forms v)
      (Machine.resumeBody call' frame' forms' v') (ProceedsIn lex call call') := by
  rw [Machine.resumeBody, Machine.resumeBody]
  refine isFailing hD (ite Iff.rfl (fun _ => ?_) fun hnot => observe (ite ?_ (fun hlooping => ?_) fun _ => ?_))
  · exact finish hD hcall.calls hcall.base_le .nil fun _ => rfl
  · rw [hD.looping]
  · -- both sides hand arguments back, so that their root stacks are the same
    have hplain : lex.nested = false := by
      cases hnested : lex.nested with
      | false => rfl
      | true => rw [hD.settled hnested] at hlooping; cases hlooping
    have hslot : D.slot = id := hD.coherent.plain hplain
    refine bind hD (unsetLooping hD hcall.base_le) (Nat.le_refl _) fun {D₁ _ _} hD₁ ho₁ hq => ?_
    have hcall₁ := hcall.onward hD hD₁ ho₁ (Couple.height_eq hq)
    have hslot₁ : D₁.slot = id := (Couple.slot_eq hq).trans hslot
    rw [← Couple.world_eq hq] at hv
    have hlt : call.base < D₁.height := Nat.lt_of_lt_of_le (Nat.lt_add_of_pos_right Nat.two_pos) hcall₁.height
    rw [hcall₁.calls.base]
    refine bind hD₁ (setRoot hD₁ (Nat.le_refl _) hlt hv.slot) (Nat.le_refl _)
      fun {D₂ _ _} hD₂ ho₂ hq => ?_
    have hargs : D₂.twin.Rooted Shape.Still (call.base + 1) (.just .data) v v' :=
      hq ▸ Couple.rooted_slotSet hD₁ hlt hv
    have hcall₂ := hcall₁.onward hD₁ hD₂ ho₂ (hq ▸ Couple.height_slotSet _ _ _ _)
    have hslot₂ : D₂.slot = id := by
      rw [hq]
      exact hslot₁
    have hframeSlot : D₂.slot call.frameSlot = call'.frameSlot := by
      rw [Call.frameSlot, Call.frameSlot, hcall₂.calls.base, hslot₂]
      rfl
    exact relax (enterBody hD₂ hcall₂ hframeSlot hargs) (fun _ hs => hs.still) (Nat.le_refl _)
      fun _ _ hq => hq
  · refine look (enterForms hD hcall hframe (hforms.cdr hD.coherent rfl) hv fun hf => absurd hf hnot)

/-- **A call starts.** -/
theorem enterFunction {func func' : Value} (hD : D.Matched lex γ) (hn : n ≤ D.height)
    (hfunc : D.Kept n (.just .data) func func')
    (hargs : D.world.Rel (.just .data) args args') :
    Steps lex Shape.Fixed n D (Machine.enterFunction func args) (Machine.enterFunction func' args')
      (Proceeds lex n γ (.just .data)) := by
  rw [Machine.enterFunction, Machine.enterFunction]
  refine observe ?_
  rw [hD.current_left, hD.current_right]
  refine bind hD (setCurrent hD (Nat.le_refl _) func func') hn fun {D₁ _ _} hD₁ ho₁ hq => ?_
  have hworld : D₁.world = D.world := Couple.world_eq hq.1
  have hheight : D₁.height = D.height := Couple.height_eq hq.1
  have hfunc₁ := ho₁.rooted hD hD₁ (hfunc.lift hn) (Nat.le_refl _)
  rw [← hworld] at hargs
  rw [← hheight] at hn hfunc₁
  refine look (bind hD₁ (pushRoot hD₁ (Nat.le_refl _) hargs.slot) hn fun {D₂ _ _} hD₂ ho₂ hq => ?_)
  obtain ⟨hD₂eq, rfl, rfl⟩ := hq
  have hargs₂ : D₂.Kept (D₁.height + 1) (.just .data) args args' :=
    hD₂eq ▸ Couple.rooted_pushed hD₁ hargs
  have hheight₂ : D₂.height = D₁.height + 1 := hD₂eq ▸ D₁.height_pushed _ _
  refine bind hD₂ (pushNil hD₂ (Nat.le_refl _)) (by omega) fun {D₃ _ _} hD₃ ho₃ hq => ?_
  obtain ⟨hD₃eq, -, -⟩ := hq
  have hheight₃ : D₃.height = D₂.height + 1 := hD₃eq ▸ D₂.height_pushed _ _
  have ho : D₁.Onward Shape.Fixed D₁.height D₃ :=
    ho₂.trans (ho₃.lower (hheight₂.symm ▸ Nat.le_succ _)) hD₁ hD₂
  have hargs₃ := (ho₃.rooted hD₂ hD₃ hargs₂ (Nat.le_of_eq hheight₂.symm)).mono
    (fun _ hs => hs.still) (Nat.le_refl _)
  have hslots : D₃.slot = D₁.slot := by
    rw [hD₃eq, hD₂eq]
    rfl
  have hcalls : CallAgree D₁ ⟨D₁.left.heap.closure func, D₁.height, γ.1⟩
      ⟨D₁.right.heap.closure func', D₁.slot D₁.height, γ.2⟩ :=
    ⟨rfl, hD₁.coherent.closure (fun _ hs => hs) hfunc₁⟩
  have hcall₃ : Running lex D₃ (func, func') ⟨D₁.left.heap.closure func, D₁.height, γ.1⟩
      ⟨D₁.right.heap.closure func', D₁.slot D₁.height, γ.2⟩ :=
    { calls := hcalls.onward hD₁ hD₃ ho.heaps ho.top (Nat.le_refl _)
      height := Nat.le_of_eq (by rw [hheight₃, hheight₂])
      exact := fun _ => by rw [hheight₃, hheight₂]
      funcs := ho.rooted hD₁ hD₃ hfunc₁ (Nat.le_refl _)
      closure := (ho.heaps.closure_eq hD₁.coherent (fun _ hs => hs) hfunc₁).2.symm }
  have hframeSlot : D₃.slot (D₁.height + 1) = D₁.slot D₁.height + 1 := by
    rw [hslots, hD₁.slot_add, hD₁.height_eq]
  -- what waits behind the call is not disturbed by its own two slots
  refine relax (enterBody hD₃ hcall₃ hframeSlot hargs₃) (fun _ hs => hs.still) hn
    fun _ _ hq ps ps' hw => hq ps ps' (.of_waiting (hw.mono hn))

end Leads

end LispMachine
