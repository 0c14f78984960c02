import LispMachine.Proofs.Recast.Head

/-!
# What one side does by itself

* `Machine.into_argument`, `Machine.gets_list` -- one more argument, and the last one;
* `Machine.into_call` -- **a function is called on one side**, up to its body: its frame lies in cells that
  have been taken for it;
* `Machine.gets_nil`, `Machine.gets_released`, `Machine.serves_finish` -- what waits is left after a failure,
  a frame is dropped, and a call ends.
-/

namespace LispMachine

open Context Machine

variable {L M : Codebook} {c d e : Context} {v w u last env form frame names values : Value} {xs : List Value}
variable {as : List Addr} {roots : Array Value} {base : Nat} {tail : Bool} {qs : List Pending}

/-! ## 1. Arguments -/

/-- An action that comes to an end without a cell, and what follows. -/
theorem Machine.Into.after {α : Type} {x : Run α} {f : α → Run Next} {a : α} {m : Nat}
    {R : Run Next → Context → Prop} (hrun : x c = .ok a d) (hs : ∀ k, c.heap.Stocked k → d.heap.Stocked k)
    (h : Into m (f a) d R) : Into m (x >>= f) c R :=
  .of_eq (run_bind hrun) hs h

theorem Machine.Into.weaken {m : Nat} {x : Run Next} {R Q : Run Next → Context → Prop} (h : Into m x c R)
    (hrq : ∀ y d, R y d → Q y d) : Into m x c Q := fun k hs => by
  obtain ⟨y, d, hrun, hs, hr⟩ := h k hs
  exact ⟨y, d, hrun, hs, hrq y d hr⟩

/-- What has become of a context in which a list is made longer. -/
structure Context.Appended (c : Context) (as : List Addr) (w last : Value) (xs : List Value) (as' : List Addr)
    (roots : Array Value) (d : Context) : Prop where
  valid : d.heap.Valid
  chained : d.heap.Chained w last xs as'
  cells : ∀ a ∈ as', a ∈ as ∨ c.heap.content a = none
  alters : c.Alters (· ∈ as') d
  roots : d.heap.roots = roots

theorem Context.Appended.withRoots {as' : List Addr} (h : c.Appended as w last xs as' roots d)
    (roots' : Array Value) : c.Appended as w last xs as' roots' (d.withRoots roots') where
  valid := h.valid.withRoots roots'
  chained := { h.chained with lists := h.chained.lists.congr fun _ _ => rfl }
  cells := h.cells
  alters := h.alters.withRoots roots'
  roots := rfl

/-- A context with more room. -/
theorem Context.Appended.of_roomy {as' : List Addr} (hv : c.heap.Valid) {i j : Nat}
    (h : (c.roomy i j).Appended as w last xs as' roots d) : c.Appended as w last xs as' roots d where
  valid := h.valid
  chained := h.chained
  cells a ha := (h.cells a ha).imp_right fun hnone => by rwa [content_roomy hv] at hnone
  alters := ((Alters.roomy hv i j _).trans h.alters).mono fun _ => or_self_iff.mp
  roots := h.roots

namespace Machine

/-- An argument is appended, while nothing fails. -/
theorem into_argument (hgo : c.failing = false) (hl : c.heap.Chained w last xs as)
    (hroots : c.heap.roots = roots.push w) (rest : Value) :
    Into 1 (resumeArgument env rest roots.size last v) c fun x d => ∃ w' cell as',
      x = enterArguments env (d.heap.cdr rest) roots.size cell ∧
        c.Appended as w' cell (xs ++ [v]) as' (roots.push w') d := by
  refine .after (a := c.failing) rfl (fun _ => id) ?_
  rw [hgo, if_neg Bool.false_ne_true]
  refine Into.serves (m := 0) (Serves.append hl hroots) fun cell d hv h => ?_
  obtain ⟨a, w', rfl, hl', hroots', hfresh, halters⟩ := h
  refine .of_eq (y := enterArguments env (d.heap.cdr rest) roots.size (.pair a)) rfl (fun _ => id)
    (.done ⟨w', _, _, rfl, hv, hl', fun b hb => ?_, halters, hroots'⟩)
  rcases List.mem_append.mp hb with hb | hb
  · exact .inl hb
  · exact .inr (List.mem_singleton.mp hb ▸ hfresh)

/-- **The last argument is appended**, and the list is handed back. -/
theorem gets_list (hv : c.heap.Valid) (hgo : c.failing = false) (hl : c.heap.Chained w last xs as)
    (hroots : c.heap.roots = roots.push w) {rest : Value} (hrest : ∀ d, d.heap.Valid → c.Alters
      (fun a => a ∈ as ∨ c.heap.content a = none) d → (d.heap.cdr rest).isPair = false) :
    Gets 0 ⟨c, .give v, .argument env rest roots.size last :: qs⟩ fun τ => ∃ d w' last' as',
      τ = ⟨d, .give w', qs⟩ ∧ c.Appended as w' last' (xs ++ [v]) as' roots d := by
  refine Gets.resume hv 1 fun i j => ?_
  have hgo₁ : (c.roomy i j).failing = false := hgo
  have hadds : c.Adds [] (c.roomy i j) := ⟨Alters.roomy hv i j _, nofun, nofun, List.nodup_nil⟩
  have hl₁ : (c.roomy i j).heap.Chained w last xs as := { hl with lists := hl.lists.kept hadds }
  intro k hs
  obtain ⟨x, d, hrun, hs, w', cell, as', rfl, happended⟩ :=
    into_argument hgo₁ hl₁ ((roots_roomy hv i j).trans hroots) rest k hs
  have happended := happended.of_roomy hv
  have hpair := hrest d happended.valid (happended.alters.mono happended.cells)
  have hroot : d.heap.roots[roots.size]? = some w' := by
    rw [happended.roots]
    exact Array.getElem?_push_size
  refine ⟨.give w', d.withRoots roots, hrun.trans ?_, hs.withRoots roots, Gets.done ⟨_, w', cell, as', rfl,
    happended.withRoots roots⟩⟩
  rw [enterArguments, if_neg (Bool.eq_false_iff.mp hpair)]
  have hread : (liftM (Heap.root roots.size) : Run Value) d = .ok w' d := by
    show onHeap (Heap.root roots.size) d = _
    rw [onHeap, Heap.root, hroot]
  refine (run_bind hread).trans ?_
  have hpop : (liftM (Heap.popRoots roots.size) : Run Unit) d = .ok () (d.withRoots roots) := by
    show onHeap (Heap.popRoots roots.size) d = _
    rw [onHeap, Heap.popRoots_eq_ok.mpr ⟨by rw [happended.roots]; simp, rfl⟩, happended.roots, shrink_push_size]
    rfl
  exact run_bind hpop

/-! ## 2. Calls -/

/-- Names and values in lists of the same length are paired. -/
theorem pairUp_lists {h : Heap} {bs : Binds} {names values : Value} {as as' : List Addr} {n : Nat}
    (hnames : h.Lists names (bs.map Prod.fst) as) (hvalues : h.Lists values (bs.map Prod.snd) as')
    (hn : bs.length < n) : pairUp h n names values = (bs, .exact) := by
  induction bs generalizing names values as as' n with
  | nil =>
    obtain ⟨n, rfl⟩ : ∃ k, n = k + 1 := ⟨n - 1, by omega⟩
    cases hnames
    cases hvalues
    rfl
  | cons b bs ih =>
    obtain ⟨n, rfl⟩ : ∃ k, n = k + 1 := ⟨n - 1, by omega⟩
    rw [List.map_cons] at hnames hvalues
    cases hnames with
    | cons hx hnames =>
      cases hvalues with
      | cons hy hvalues =>
        rw [pairUp, if_pos (show (Value.pair _).isPair = true from rfl),
          if_pos (show (Value.pair _).isPair = true from rfl),
          Heap.car_of_cell hx, Heap.cdr_of_cell hx, Heap.car_of_cell hy, Heap.cdr_of_cell hy,
          ih hnames hvalues (Nat.lt_of_succ_lt_succ hn)]

/-- **Names are bound in a frame of their own**, each to its value. -/
theorem serves_bindParams {s : Scope} {bs : Binds} {as' : List Addr} (hs : s.Lies c.heap)
    (hnames : c.heap.Lists names (bs.map Prod.fst) as) (hvalues : c.heap.Lists values (bs.map Prod.snd) as') :
    Serves (2 * bs.length) (bindParams (.pair s.frame) names values) c fun _ d =>
      ∃ s', Filled c s (bs.puts s.bound) s' d := by
  have hlength := hnames.length_le rfl
  rw [List.length_map] at hlength
  unfold bindParams
  refine Serves.look ?_
  rw [pairUp_lists hnames hvalues (Nat.lt_succ_of_le hlength)]
  refine (Serves.forM_define hs rfl).bind (m := 0) fun _ d h => Serves.pure ?_
  exact ⟨h.choose, h.choose_spec.1⟩

/-- What has become of a context in which a function has been called: its frame lies in fresh cells. -/
structure Opened (c : Context) (s : Scope) (roots : Array Value) (d : Context) : Prop where
  valid : d.heap.Valid
  lies : s.Lies d.heap
  fresh : ∀ b ∈ s.cells, c.heap.content b = none
  alters : c.Alters (· ∈ s.cells) d
  roots : d.heap.roots = roots

/-- **A body begins**, in a frame with the arguments for the parameters. -/
theorem into_body {call : Call} {bs : Binds} {as' : List Addr} (hgo : c.failing = false)
    (hslot : c.heap.roots.size = call.frameSlot + 1)
    (hnames : c.heap.Lists call.closure.params (bs.map Prod.fst) as)
    (hvalues : c.heap.Lists values (bs.map Prod.snd) as') :
    Into (1 + 2 * bs.length) (enterBody call values) c fun x d => ∃ s : Scope,
      x = (Row.body call (.pair s.frame)).enter call.closure.body .nil ∧ s.parent = call.closure.env ∧
        s.bound = bs.puts [] ∧ Opened c s (c.heap.roots.setIfInBounds call.frameSlot (.pair s.frame)) d := by
  unfold enterBody
  refine Into.serves (Serves.newFrame call.closure.env) fun v d hv h => ?_
  obtain ⟨a, rfl, hlies, hmade⟩ := h
  have hslot₁ : call.frameSlot < d.heap.roots.size := by
    rw [hmade.roots, hslot]
    exact Nat.lt_succ_self _
  have hlies₂ : Scope.Lies _ (d.withRoots (d.heap.roots.setIfInBounds call.frameSlot (.pair a))).heap :=
    hlies.congr fun _ _ => rfl
  refine .after (a := ()) (d := d.withRoots (d.heap.roots.setIfInBounds call.frameSlot (.pair a))) ?_
    (fun k hs => hs.withRoots _) ?_
  · show onHeap (Heap.setRoot call.frameSlot (.pair a)) d = _
    rw [onHeap, Heap.setRoot_eq_ok.mpr ⟨hslot₁, rfl⟩]
    rfl
  · refine Into.serves (m := 0) (serves_bindParams hlies₂ ((hnames.kept hmade.adds).congr fun _ _ => rfl)
      ((hvalues.kept hmade.adds).congr fun _ _ => rfl)) fun _ e he h => ?_
    obtain ⟨s, hfilled⟩ := h
    have hframe : s.frame = a := hfilled.frame
    have halters := hmade.adds.alters.trans hfilled.alters.rooted
    refine .after (a := e.failing) rfl (fun _ => id) ?_
    rw [halters.rest.failing, hgo, if_neg Bool.false_ne_true]
    refine .done ⟨s, ?_, hfilled.parent, hfilled.bound, he, hfilled.lies, fun b hb => ?_,
      halters.mono fun b hb => ?_, ?_⟩
    · rw [hframe]
      rfl
    · rcases hfilled.cells b hb with hb | hb
      · exact hmade.adds.fresh b hb
      · by_contra hne
        obtain ⟨x, hx⟩ := Option.ne_none_iff_exists'.mp hne
        exact Option.some_ne_none x ((hmade.adds.kept hx).symm.trans hb)
    · rcases hb with hb | hb
      · rw [List.mem_singleton.mp hb, ← hframe]
        exact Scope.frame_mem_cells
      · exact hb
    · rw [hfilled.roots, hframe, ← hmade.roots]
      rfl

/-- **A function at the head of an evaluated form is called**, up to its body. -/
theorem into_call {o : Addr} {f : Closure} {bs : Binds} {as' : List Addr} (hgo : c.failing = false)
    (hform : c.heap.Lists form (.object o :: bs.map Prod.snd) as)
    (htype : c.heap.typeOf (.object o) = CoreType.func.id) (hclosure : c.heap.closure (.object o) = f)
    (hparams : c.heap.Lists f.params (bs.map Prod.fst) as') :
    Into (1 + 2 * bs.length) ((Pending.call tail).resumeBy Host.none false form) c fun x d => ∃ call s args,
      x = (Row.body call (.pair s.frame)).enter f.body .nil ∧ call.closure = f ∧ call.base = c.heap.roots.size + 1 ∧
        s.parent = f.env ∧ s.bound = bs.puts [] ∧
        Opened c s (((c.heap.roots.push form).push args).push (.pair s.frame)) d := by
  cases hform with
  | @cons a _ args _ _ as hcell hargs =>
    rw [resumeBy_call]
    refine .after (a := c.failing) rfl (fun _ => id) ?_
    rw [hgo, if_neg Bool.false_ne_true]
    let c₁ := c.withRoots (c.heap.roots.push (.pair a))
    have hcell : c₁.heap.cells[a]? = some (.pair (.object o) args) := hcell
    refine .after (a := c.heap.roots.size) (d := c₁) rfl (fun k hs => hs.withRoots _) ?_
    refine .after (a := .object o) (d := c₁) (congrArg (EStateM.Result.ok · c₁) (Heap.car_of_cell hcell))
      (fun _ => id) ?_
    refine .after (a := args) (d := c₁) (congrArg (EStateM.Result.ok · c₁) (Heap.cdr_of_cell hcell)) (fun _ => id) ?_
    refine .after (a := CoreType.func.id) (d := c₁) (congrArg (EStateM.Result.ok · c₁) htype) (fun _ => id) ?_
    rw [if_pos rfl]
    let c₂ : Context := { c₁ with current := .object o }
    refine .after (a := c.current) (d := c₁) rfl (fun _ => id) ?_
    refine .after (a := ()) (d := c₂) rfl (fun _ => id) ?_
    refine .after (a := f) (d := c₂) (congrArg (EStateM.Result.ok · c₂) hclosure) (fun _ => id) ?_
    let c₃ := c₂.withRoots (c₂.heap.roots.push args)
    refine .after (a := c₂.heap.roots.size) (d := c₃) rfl (fun k hs => hs.withRoots (c := c₂) _) ?_
    let c₄ := c₃.withRoots (c₃.heap.roots.push .nil)
    refine .after (a := c₃.heap.roots.size) (d := c₄) rfl (fun k hs => hs.withRoots (c := c₃) _) ?_
    have hslot : c₄.heap.roots.size = (Call.mk f c₂.heap.roots.size c.current).frameSlot + 1 := by
      simp [c₄, c₃, Call.frameSlot, withRoots]
    refine (into_body (c := c₄) hgo hslot (hparams.congr fun _ _ => rfl)
      (hargs.congr fun _ _ => rfl)).weaken fun x d h => ?_
    obtain ⟨s, rfl, hparent, hbound, hopened⟩ := h
    refine ⟨_, s, args, rfl, rfl, ?_, hparent, hbound, hopened.valid, hopened.lies, hopened.fresh,
      ⟨{ hopened.alters.rest with }, hopened.alters.types, hopened.alters.content⟩, hopened.roots.trans ?_⟩
    · exact Array.size_push _
    · have hbase : (c.heap.roots.push (.pair a)).size + 1 = ((c.heap.roots.push (.pair a)).push args).size :=
        (Array.size_push _).symm
      show ((((c.heap.roots.push (.pair a)).push args).push .nil).setIfInBounds
        ((c.heap.roots.push (.pair a)).size + 1) _) = _
      rw [hbase, setIfInBounds_push_size]

/-! ## 3. The way out -/

/-- A call of a function without a name ends. -/
theorem serves_finish {call : Call} (hname : call.closure.name = .nil) (hv : c.heap.Valid) {xs : Array Value}
    (hroots : c.heap.roots = roots ++ xs) (hbase : call.base = roots.size) :
    Serves 0 (finish call v) c fun next d => next = .give v ∧ c.Turned [] roots d := by
  have hrun : finish call v c = (do
      Heap.popRoots call.base
      modify fun c => { c with current := call.caller }
      pure (Next.give v) : Run Next) c := by
    rw [finish, hname]
    show (if (c.failing && false) = true then _ else _ : Run Next) c = _
    rw [Bool.and_false]
    rfl
  refine Serves.of_eq hrun (fun _ => id) (Serves.popRoots (by rw [hbase, hroots]; simp) ?_)
  have hshrink : c.heap.roots.shrink call.base = roots := by
    rw [hbase, hroots]
    exact shrink_eq (by simp) fun _ hi => Array.getElem?_append_left hi
  rw [hshrink]
  refine Serves.after (d := { c.withRoots roots with current := call.caller }) rfl (fun _ => id) (Serves.pure ⟨rfl, ?_⟩)
  exact ((Turned.refl hv).withRoots roots).alter ⟨{ Steady.refl _ with }, rfl, fun _ _ => rfl⟩ (hv.withRoots roots) rfl

/-- A frame is dropped. -/
theorem gets_released (hv : c.heap.Valid) {xs : Array Value} (hroots : c.heap.roots = roots ++ xs) :
    Gets 0 ⟨c, .give v, .release roots.size :: qs⟩ fun τ => ∃ d, τ = ⟨d, .give v, qs⟩ ∧ c.Turned [] roots d := by
  refine Gets.resume hv 0 fun i j => ?_
  have hroots₁ := (roots_roomy hv i j).trans hroots
  refine Serves.popRoots (by rw [hroots₁]; simp) (Serves.pure (.done ⟨_, rfl, ?_⟩))
  rw [hroots₁, shrink_eq (by simp) fun _ hi => Array.getElem?_append_left hi]
  exact ((Turned.refl hv).roomy i j).withRoots roots

/-- While a failure comes up nothing is bound, and nothing is called. -/
theorem gets_nil {p : Pending} (hv : c.heap.Valid) (hgo : c.failing = true)
    (hp : ∀ d, d.failing = true → p.resumeBy Host.none false v d = .ok (.give .nil) d) :
    Gets 0 ⟨c, .give v, p :: qs⟩ fun τ => ∃ d, τ = ⟨d, .give .nil, qs⟩ ∧ c.Turned [] c.heap.roots d :=
  Gets.resume hv 0 fun i j k hs => ⟨_, _, hp (c.roomy i j) hgo, hs.le (Nat.zero_add k).ge, .done
    ⟨_, rfl, (Turned.refl hv).roomy i j⟩⟩

/-- While a failure comes up arguments are dropped. -/
theorem gets_dropped (hv : c.heap.Valid) (hgo : c.failing = true) {rest : Value}
    (hroots : c.heap.roots = roots.push w) :
    Gets 0 ⟨c, .give v, .argument env rest roots.size last :: qs⟩ fun τ => ∃ d, τ = ⟨d, .give .nil, qs⟩ ∧
      c.Turned [] roots d := by
  refine Gets.resume hv 0 fun i j => ?_
  have hroots₁ := (roots_roomy hv i j).trans hroots
  refine Serves.of_eq (y := do Heap.popRoots roots.size; pure (.give .nil)) ?_ (fun _ => id)
    (Serves.popRoots (by rw [hroots₁]; simp) (Serves.pure (.done ⟨_, rfl, ?_⟩)))
  · show (if c.failing = true then _ else _ : Run Next) _ = _
    rw [if_pos hgo]
  · rw [hroots₁, shrink_push_size]
    exact ((Turned.refl hv).roomy i j).withRoots roots

end Machine

end LispMachine
