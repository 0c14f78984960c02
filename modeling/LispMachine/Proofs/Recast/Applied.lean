import LispMachine.Proofs.Recast.Alone

/-!
# Local bindings against an applied function

On the left side `(let ((name expr)...) body...)` is evaluated, on the right side
`((lambda (name...) body...) expr...)`:

* `Concord.Split` -- the bindings, taken apart;
* `Meets.lockstep` -- **the expressions are evaluated side by side**. The left side binds their values at
  once, in a frame of its own, and the right side gathers them. The induction is on the bindings;
* `Meets.bodies` -- then the right side makes its frame, the frames are one frame from then on, and the bodies
  are rows of recast code;
* `Meets.applied` -- the form as a whole.
-/

namespace LispMachine

open Context Machine

variable {K : Concord} {L M : Codebook} {c d : Context} {env expr v v' b x e y body args frame last : Value}
variable {names : List Value} {tail : Bool} {n : Nat}

/-! ## 1. Bindings -/

/-- One of several bindings: a name alone, or a name with an expression. -/
def Codebook.Binds (L : Codebook) (b x e : Value) : Prop :=
  b = x ∧ e = .nil ∨ ∃ z w, L.code.pair b x z ∧ L.code.pair z e w

/-- **Bindings on the left side**, the names of the parameters, and the arguments on the right side. -/
inductive Concord.Split (K : Concord) : List Value → Value → Value → Prop where
  | nil : K.Split [] .nil .nil
  | cons {names : List Value} {v b x e y v' x' e' y' : Value} (hv : K.left.code.pair v b y)
      (hv' : K.right.code.pair v' e' y') (hb : K.left.Binds b x e) (hx : x.isSym = true) (hname : K.Rel x x')
      (hexpr : K.Recast .expr e e') (rest : K.Split names y y') : K.Split (x' :: names) v v'

/-- Recast bindings are taken apart. -/
theorem Concord.Recast.exists_split {params : Value} (h : K.Recast (.split params) v v') :
    ∃ names, K.right.Lists params names ∧ (∀ x ∈ names, x.isSym = true) ∧ K.Split names v v' := by
  generalize hp : Segment.split params = p at h
  induction h generalizing params with
  | splitNil hv hnames hv' =>
    cases hp
    cases hv
    cases hnames
    cases hv'
    exact ⟨[], .nil, nofun, .nil⟩
  | splitBare hv hnames hv' hx hname he' _ ih =>
    cases hp
    obtain ⟨names, hl, hsym, hsplit⟩ := ih rfl
    obtain ⟨a, rfl, hcell⟩ := hnames
    have hx' := hname.kindred.isSym_eq.symm.trans hx
    cases he'
    exact ⟨_, .cons hcell hl, List.forall_mem_cons.mpr ⟨hx', hsym⟩,
      .cons hv hv' (.inl ⟨rfl, rfl⟩) hx hname (.atom (.inr rfl) rfl .nil) hsplit⟩
  | splitPair hv hb hz _ hnames hv' hx hname hexpr _ _ ih =>
    cases hp
    obtain ⟨names, hl, hsym, hsplit⟩ := ih rfl
    obtain ⟨a, rfl, hcell⟩ := hnames
    have hx' := hname.kindred.isSym_eq.symm.trans hx
    exact ⟨_, .cons hcell hl, List.forall_mem_cons.mpr ⟨hx', hsym⟩,
      .cons hv hv' (.inr ⟨_, _, hb, hz⟩) hx hname hexpr hsplit⟩
  | atom hp' _ _ =>
    cases hp
    exact (hp'.elim id nofun).elim
  | list hp' _ _ _ _ _ _ =>
    cases hp
    exact hp'.elim
  | _ => cases hp

/-- The name and the expression of a binding. -/
def Heap.binding (h : Heap) (b : Value) : Value × Value :=
  if b.isSym then (b, .nil) else (h.car b, h.nth b 1)

theorem Codebook.Binds.eq (hc : Side M c) (le : L.Le M) (hb : L.Binds b x e) (hx : x.isSym = true) :
    c.heap.binding b = (x, e) := by
  rcases hb with ⟨rfl, rfl⟩ | ⟨z, w, hb, hz⟩
  · rw [Heap.binding, if_pos hx]
  · obtain ⟨-, hcar, hcdr⟩ := hc.car_cdr le hb
    have hnth : c.heap.nth b 1 = c.heap.car (c.heap.cdr b) := rfl
    rw [Heap.binding, if_neg (by obtain ⟨a, rfl, -⟩ := hb; exact Bool.false_ne_true), hcar, hnth, hcdr,
      (hc.car_cdr le hz).2.1]

/-- The expression of a binding is evaluated in the outer environment. -/
theorem Machine.enterBindings_eq (hc : Side M c) (le : L.Le M) (hv : L.code.pair v b y) (hb : L.Binds b x e)
    (hx : x.isSym = true) : enterBindings env frame args v tail c =
      .ok (.eval env e false (.binding env frame args v x tail)) c := by
  obtain ⟨hpair, hcar, -⟩ := hc.car_cdr le hv
  have hrun : enterBindings env frame args v tail c =
      (if !(c.heap.binding (c.heap.car v)).1.isSym then failNext "let: Invalid binding"
      else pure (.eval env (c.heap.binding (c.heap.car v)).2 false
        (.binding env frame args v (c.heap.binding (c.heap.car v)).1 tail)) : Run Next) c := by
    rw [enterBindings, if_pos hpair, Heap.binding]
    show (if (c.heap.car v).isSym = true then _ else _ : Run Next) c = _
    split <;> rfl
  rw [hrun, hcar, hb.eq hc le hx, hx]
  rfl

/-- With no bindings left the body begins. -/
theorem Machine.enterBindings_nil (hc : Side M c) (le : L.Le M) (hargs : L.code.pair args b body) :
    enterBindings env frame args .nil tail c = (Row.sequence frame tail).enter body .nil c := by
  rw [← (hc.car_cdr le hargs).2.2]
  rfl

/-- The next argument is evaluated. -/
theorem Machine.enterArguments_eq {base : Nat} (hc : Side M c) (le : L.Le M) (hv : L.code.pair v e y) :
    enterArguments env v base last c = .ok (.eval env e false (.argument env v base last)) c := by
  obtain ⟨hpair, hcar, -⟩ := hc.car_cdr le hv
  rw [enterArguments, if_pos hpair, ← hcar]
  rfl

/-! ## 2. Halfway -/

/-- What follows an action. -/
theorem Machine.Into.bind {m : Nat} {x : Run Next} {f : Next → Run Next} {R : Run Next → Context → Prop}
    (h : Into m x c R) : Into m (x >>= f) c fun y d => ∃ z, R z d ∧ y = z >>= f := fun k hs => by
  obtain ⟨z, d, hrun, hs, hr⟩ := h k hs
  refine ⟨z >>= f, d, ?_, hs, z, hr, rfl⟩
  show EStateM.bind x f c = EStateM.bind z f d
  rw [EStateM.bind, EStateM.bind, hrun]

section

variable {D D₀ D₁ : Duet} {s : Scope} {w : Value} {xs : List Value} {as : List Addr} {o : Addr} {f : Closure}
variable {a : Addr} {roots roots' : Array Value}

namespace Duet

/-- A cell that is not taken now had not been taken before. -/
theorem Later.fresh_left (later : D₀.Later D) (hD : D.Sound) (h : D.left.heap.content a = none) :
    D₀.left.heap.content a = none := by
  by_contra hne
  obtain ⟨x, hx⟩ := Option.ne_none_iff_exists'.mp hne
  by_cases hused : D₀.concord.UsedLeft a
  · exact hD.unused_left h (hused.imp (fun ⟨b, hl⟩ => ⟨b, later.le.link _ _ hl⟩)
      fun ⟨y, z, hp⟩ => ⟨y, z, later.le.left.pair _ _ _ hp⟩)
  · exact Option.some_ne_none x ((later.left hx hused).1.symm.trans h)

theorem Later.fresh_right (later : D₀.Later D) (hD : D.Sound) (h : D.right.heap.content a = none) :
    D₀.right.heap.content a = none := by
  by_contra hne
  obtain ⟨x, hx⟩ := Option.ne_none_iff_exists'.mp hne
  by_cases hused : D₀.concord.UsedRight a
  · exact hD.unused_right h (hused.imp (fun ⟨b, hl⟩ => ⟨b, later.le.link _ _ hl⟩)
      fun ⟨y, z, hp⟩ => ⟨y, z, later.le.right.pair _ _ _ hp⟩)
  · exact Option.some_ne_none x ((later.right hx hused).1.symm.trans h)

/-- Nothing has been written on either side. -/
theorem Sound.turned {c c' : Context} (hD : D.Sound) (hl : D.left.Turned [] roots c)
    (hr : D.right.Turned [] roots' c') :
    Sound ⟨D.concord, c, c'⟩ ∧ D.Later ⟨D.concord, c, c'⟩ :=
  ⟨hD.apart hl.adds.alters hr.adds.alters hl.valid hr.valid nofun nofun,
    (Later.refl D).alter hl.adds.alters hr.adds.alters nofun nofun⟩

/-- **With any room the left side comes to the bindings that are left**, in a frame with those that have been
    made. Its cells are in no use on the right side, and have been taken since `D₀`. -/
def Binding (D₀ D : Duet) (env args rest : Value) (tail : Bool) (roots : Array Value) (bs : Binds) (task : Task)
    (qs rs : List Pending) : Prop :=
  ∃ m, ∀ i j, (D.left.roomy i j).depth < (D.left.roomy i j).maxDepth →
    Into m (advance Host.none false task qs) (D.left.roomy i j) fun y d => ∃ s : Scope,
      y = (do
        let next ← enterBindings env (.pair s.frame) args rest tail
        pure { next with pending := next.pending ++ rs }) ∧
      s.parent = env ∧ s.bound = bs.puts [] ∧ s.Lies d.heap ∧
      (∀ b ∈ s.cells, ¬ D.concord.UsedLeft b ∧ D₀.left.heap.content b = none) ∧
      D.left.Alters (· ∈ s.cells) d ∧ d.heap.roots = roots.push (.pair s.frame)

end Duet

/-! ## 3. The body -/

variable {rs ps ps' qs : List Pending} {name rest rest' : Value} {tail' : Bool} {left right : Array Value} {task : Task}
variable {σ' : State} {j k : Nat} {bs bs' : Binds}

namespace Machine.Meets

/-- **A failure half way through the bindings.** Nothing more is bound, and nothing is called. -/
theorem abort (hD : D.Sound) (later : D₀.Later D) (hgo : D.left.failing = true)
    (hl : D.left.heap.roots = (D₀.left.heap.roots ++ left).push frame)
    (hr : D.right.heap.roots = (D₀.right.heap.roots ++ right).push w) :
    Meets n ⟨D.left, .give v, .binding env frame args rest name tail :: .release (D₀.left.heap.roots ++ left).size ::
        .leave D₀.left.heap.roots.size :: ps⟩
      ⟨D.right, .give v', .argument e rest' (D₀.right.heap.roots ++ right).size last :: .call tail' ::
        .leave D₀.right.heap.roots.size :: ps'⟩
      (D₀.Gives D₀.left.heap.roots D₀.right.heap.roots ps ps') := by
  have hgo' : D.right.failing = true := hD.failing.symm.trans hgo
  have hskip : ∀ d : Context, d.failing = true → ∀ x : Run Next,
      (Context.isFailing >>= fun b => if b = true then Pure.pure (Next.give .nil) else x) d = .ok (.give .nil) d :=
    fun d hd x => by
      show (if d.failing = true then _ else _ : Run Next) d = _
      rw [if_pos hd]
      rfl
  refine .onLeft (gets_nil hD.left.valid hgo fun d hd => hskip d hd _) ?_
  rintro _ ⟨c, rfl, hc⟩
  have hcroots : c.heap.roots = (D₀.left.heap.roots ++ left) ++ #[frame] := hc.roots.trans (hl.trans (by simp))
  refine .onLeft (gets_released hc.valid hcroots) ?_
  rintro _ ⟨c₁, rfl, hc₁⟩
  refine .onRight (gets_dropped hD.right.valid hgo' hr) ?_
  rintro _ ⟨d, rfl, hd⟩
  refine .onRight (gets_nil hd.valid (hd.adds.alters.rest.failing.trans hgo') fun d hd => hskip d hd _) ?_
  rintro _ ⟨d₁, rfl, hd₁⟩
  obtain ⟨sound, later₁⟩ := hD.turned (hc.trans hc₁.adds hc₁.valid hc₁.roots) (hd.trans hd₁.adds hd₁.valid hd₁.roots)
  exact .unwound (g := fun c => { c with depth := c.depth - 1 }) (fun c => ⟨_, _, _, rfl⟩) rfl rfl sound
    (later.trans later₁) ⟨⟨left, hc₁.roots⟩, right, hd₁.roots.trans hd.roots⟩ .nil

/-- **The bodies have come to values.** The right side puts away its function and its frame, and the left side its
    frame. -/
theorem closes {u u' : Value} {call : Call} {xs : Array Value} (hname : call.closure.name = .nil) (hD : D.Sound)
    (later : D₀.Later D) (hbase : call.base = (D₀.right.heap.roots ++ right).size)
    (hl : D.left.heap.roots = (D₀.left.heap.roots ++ left).push frame)
    (hr : D.right.heap.roots = (D₀.right.heap.roots ++ right) ++ xs) (hu : D.concord.Rel u u') :
    Both D 0 (Pure.pure (Next.give u)) (finish call u')
      (Duet.Onto n (.release (D₀.left.heap.roots ++ left).size :: .leave D₀.left.heap.roots.size :: ps)
        (.leave D₀.right.heap.roots.size :: ps') (D₀.Gives D₀.left.heap.roots D₀.right.heap.roots ps ps')) := by
  refine Both.of_serves (P := fun next c => next = .give u ∧ c = D.left) (.pure ⟨rfl, rfl⟩)
    (serves_finish hname hD.right.valid hr hbase) ?_
  rintro _ c _ c' - - ⟨rfl, rfl⟩ ⟨rfl, hc'⟩
  obtain ⟨hD₁, later₁⟩ := hD.turned (.refl hD.left.valid) hc'
  refine ⟨D.concord, hD₁, later₁, ?_⟩
  have hroots : D.left.heap.roots = (D₀.left.heap.roots ++ left) ++ #[frame] := hl
  refine Machine.Meets.onLeft (gets_released hD.left.valid hroots) ?_
  rintro _ ⟨c, rfl, hc⟩
  obtain ⟨hD₂, later₂⟩ := hD.turned hc hc'
  exact .unwound (g := fun c => { c with depth := c.depth - 1 }) (fun c => ⟨_, _, _, rfl⟩) rfl rfl hD₂
    (later.trans later₂) ⟨⟨left, hc.roots⟩, right, hc'.roots⟩ hu

/-- **The bodies.** The right side makes its frame, the frames are one frame from then on, and the bodies are
    rows of recast code. -/
theorem bodies (hn : Evals n) (hD : D.Sound) (later : D₀.Later D) (hgo : D.left.failing = false)
    (hargs : D.concord.left.code.pair args b body) (hbody : D.concord.Recast .exprs body f.body)
    (henv : D.concord.Rel env f.env) (hname : f.name = .nil)
    (hleft : D₀.Binding D env args .nil tail (D₀.left.heap.roots ++ left) bs task qs
      (.release (D₀.left.heap.roots ++ left).size :: .leave D₀.left.heap.roots.size :: ps))
    (hunfinished : Unfinished task qs) (hlist : D₀.Gathered D w last (.object o :: bs'.map Prod.snd) as)
    (hfunc : D.Held o f) (hroots : D.right.heap.roots = D₀.right.heap.roots ++ right)
    (hparams : D.concord.right.Lists f.params (bs'.map Prod.fst)) (hbs : List.Forall₂ D.concord.RelBind bs bs')
    (hahead : Glides j σ' ⟨D.right, .give w, .call tail' :: .leave D₀.right.heap.roots.size :: ps'⟩)
    (hw : k ≤ task.weight ∧ k ≤ j) :
    Meets (k + n) ⟨D.left, task, qs⟩ σ' (D₀.Gives D₀.left.heap.roots D₀.right.heap.roots ps ps') := by
  obtain ⟨m, hleft⟩ := hleft
  refine jointly (x := advance Host.none false task qs) hD hahead hunfinished (.inl (List.cons_ne_nil _ _))
    (append_nil_pending _) rfl ⟨hw.1, hw.2.trans (Nat.le_add_right j _)⟩ (m + (1 + 2 * bs'.length + 0))
    fun D₁ hroom => ?_
  have hD₁ := hroom.sound hD
  have later₁ := hroom.later hD
  have hlist₁ := hlist.later later₁
  have hfunc₁ := hfunc.later later₁
  have hroots₁ := (hroom.still hD).right.trans hroots
  obtain ⟨as', hparams₁⟩ := (hparams.mono later₁.le.right).exists_links hD₁.right
  have hgo₁ : D₁.right.failing = false := hD₁.failing.symm.trans ((hroom.calm hD).failing.trans hgo)
  obtain ⟨i, l, hi⟩ := hroom.left
  have hinto := hleft i l (hi ▸ hroom.deep_left)
  rw [← hi] at hinto
  refine .intoLeft hinto fun y d hv h => ?_
  obtain ⟨s, rfl, hparent, hbound, hlies, hcells, halters, hroots₂⟩ := h
  refine .intoRight (into_call hgo₁ hlist₁.chained.lists hfunc₁.typeOf_eq (hfunc₁.closure_eq hD₁) hparams₁)
    fun y d' hv' h => ?_
  obtain ⟨call, s', args', rfl, rfl, hbase, hparent', hbound', hopened⟩ := h
  obtain ⟨i', l', hi'⟩ := hroom.right
  have halters' : D.right.Alters (· ∈ s'.cells) d' :=
    ((Alters.roomy hD.right.valid i' l' _).trans (hi' ▸ hopened.alters)).mono fun _ => or_self_iff.mp
  have hfresh' : ∀ b ∈ s'.cells, D.right.heap.content b = none := fun b hb =>
    ((hroom.alike hD).right b).symm.trans (hopened.fresh b hb)
  have hD₂ : Duet.Sound ⟨D.concord, d, d'⟩ := hD.apart halters halters' hv hv' (fun b hb => (hcells b hb).1)
    fun b hb => hD.unused_right (hfresh' b hb)
  have later₂ : D₀.Later ⟨D.concord, d, d'⟩ := later.alter halters halters' (fun b hb => .inl (hcells b hb).2)
    fun b hb => .inl (later.fresh_right hD (hfresh' b hb))
  obtain ⟨K, hD₃, later₃, le, hlink⟩ := hD₂.linkFrames (s := s) later₂
    ⟨hlies, fun b hb => (hcells b hb).1, fun b hb => (hcells b hb).2⟩ hopened.lies
    (fun b hb => hD.unused_right (hfresh' b hb)) (fun b hb => later.fresh_right hD (hfresh' b hb))
    (by rw [hparent, hparent']; exact henv) (by rw [hbound, hbound']; exact hD.puts hbs .nil)
  refine .congr (y := do
    let next ← (Row.sequence (.pair s.frame) tail).enter body .nil
    Pure.pure { next with pending := next.pending ++ (.release (D₀.left.heap.roots ++ left).size ::
      .leave D₀.left.heap.roots.size :: ps) }) ?_ rfl ?_
  · have hd : Side D.concord.left d := hD₂.left
    show EStateM.bind _ _ _ = EStateM.bind _ _ _
    rw [EStateM.bind, EStateM.bind, enterBindings_nil hd (.refl _) hargs]
  · refine .mapLeft
      (fun next => ⟨rfl, List.append_nil _⟩) (.of_both (D := ⟨K, d, d'⟩) ?_)
    refine Both.row hn (.sequence (.pair s.frame) tail) (.body call (.pair s'.frame)) rfl hbody hD₃ ?_ le
      (.pair hlink) .nil fun D₄ u u' hD₄ later₄ still₄ hu => ?_
    · exact halters.rest.failing.trans hgo
    · have hroots₄ : D₄.left.heap.roots = (D₀.left.heap.roots ++ left).push (.pair s.frame) :=
        still₄.left.trans hroots₂
      have hroots₄' : D₄.right.heap.roots = (D₀.right.heap.roots ++ right.push w) ++ #[args', .pair s'.frame] := by
        rw [still₄.right, hopened.roots, hroots₁, Array.append_push]
        rfl
      have hbase' : call.base = (D₀.right.heap.roots ++ right.push w).size := by
        rw [hbase, Array.append_push, ← hroots₁, Array.size_push]
      exact closes hname hD₄ (later₃.trans later₄) hbase' hroots₄ hroots₄' hu

end Machine.Meets

/-! ## 4. The bindings -/

/-- A binding on the left side of the value of its expression. -/
theorem Duet.binding_resume {y z : Value} (hD : D.Sound) (later : D₀.Later D) (hgo : D.left.failing = false)
    (hs : D₀.Framed D s) (hparent : s.parent = env) (hbound : s.bound = bs.puts [])
    (hv : D.concord.left.code.pair rest y z) (hroots : D.left.heap.roots = roots.push (.pair s.frame)) :
    D₀.Binding D env args z tail roots (bs ++ [(name, v)]) (.give v)
      (.binding env (.pair s.frame) args rest name tail :: rs) rs := by
  refine ⟨2 + 0, fun i j _ => ?_⟩
  have hlies : s.Lies (D.left.roomy i j).heap := hs.lies.congr fun b hb => by
    obtain ⟨x, hx⟩ := hs.lies.exists_content b hb
    rw [Heap.cell_of_content hx, Heap.cell_of_content ((content_roomy hD.left.valid i j b).trans hx)]
  have hx : resumeBinding env (.pair s.frame) args rest name tail v (D.left.roomy i j) = (do
      define (.pair s.frame) name v
      enterBindings env (.pair s.frame) args (← look (·.cdr rest)) tail) (D.left.roomy i j) := by
    show (if D.left.failing = true then _ else _ : Run Next) _ = _
    rw [hgo]
    rfl
  have hcells : ∀ {bs s' d}, Filled (D.left.roomy i j) s bs s' d → ∀ b ∈ s'.cells, ¬ D.concord.UsedLeft b ∧
      D₀.left.heap.content b = none := fun hfilled b hb => by
    rcases hfilled.cells b hb with hb | hb
    · exact ⟨hs.apart b hb, hs.fresh b hb⟩
    · rw [content_roomy hD.left.valid] at hb
      exact ⟨hD.unused_left hb, later.fresh_left hD hb⟩
  have halters : ∀ {bs s' d}, Filled (D.left.roomy i j) s bs s' d → D.left.Alters (· ∈ s'.cells) d := fun hfilled =>
    ((Alters.roomy hD.left.valid i j _).trans hfilled.alters).mono fun _ => or_self_iff.mp
  refine (Into.bind (x := resumeBinding env (.pair s.frame) args rest name tail v)
    (R := fun y d => y = enterBindings env (.pair s.frame) args z tail ∧
      ∃ s', Filled (D.left.roomy i j) s (s.bound.put name v) s' d)
    (.of_eq hx (fun _ => id) (Into.serves (Serves.define hlies name v) fun _ d hd h => ?_))).weaken fun y d h => ?_
  · obtain ⟨s', hfilled, -⟩ := h
    have hside : Side D.concord.left d := hD.left.alter (halters hfilled) hd fun b x y hb hp =>
      (hcells hfilled b hb).1 (.inr ⟨x, y, hp⟩)
    exact .of_eq (congrArg (fun w => enterBindings env (.pair s.frame) args w tail d)
      (hside.car_cdr (.refl _) hv).2.2) (fun _ => id) (.done ⟨rfl, s', hfilled⟩)
  · obtain ⟨_, ⟨rfl, s', hfilled⟩, rfl⟩ := h
    refine ⟨s', ?_, hfilled.parent.trans hparent, ?_, hfilled.lies, hcells hfilled, halters hfilled, ?_⟩
    · rw [hfilled.frame]
    · rw [hfilled.bound, hbound, Binds.puts, Binds.puts, List.foldl_append]
      rfl
    · rw [hfilled.roots, roots_roomy hD.left.valid, hroots, hfilled.frame]

/-- **The left side writes its frame and the right side makes its list longer.** -/
theorem Duet.Sound.appended {S : Addr → Prop} {d d' : Context} {w' last' : Value} {xs' : List Value} {as' : List Addr}
    (hD : D.Sound) (later : D₀.Later D) (hlist : D₀.Gathered D w last xs as) (hfunc : D.Held o f)
    (hl : D.left.Alters S d) (hv : d.heap.Valid)
    (hs : ∀ a, S a → ¬ D.concord.UsedLeft a ∧ D₀.left.heap.content a = none)
    (happended : D.right.Appended as w' last' xs' as' roots d') : Duet.Sound ⟨D.concord, d, d'⟩ ∧
      D₀.Later ⟨D.concord, d, d'⟩ ∧ D₀.Gathered ⟨D.concord, d, d'⟩ w' last' xs' as' ∧
      Duet.Held ⟨D.concord, d, d'⟩ o f := by
  have hcells : ∀ a ∈ as', ¬ D.concord.UsedRight a ∧ D₀.right.heap.content a = none := fun a ha => by
    rcases happended.cells a ha with ha | ha
    · exact ⟨hlist.apart a ha, hlist.fresh a ha⟩
    · exact ⟨hD.unused_right ha, later.fresh_right hD ha⟩
  obtain ⟨⟨parts, ho, hparts⟩, hapart⟩ := hfunc
  have hnot : o ∉ as' := fun hmem => by
    rcases happended.cells o hmem with hmem | hnone
    · obtain ⟨x, y, hx⟩ := hlist.chained.lists.exists_pair o hmem
      rw [hx] at ho
      cases ho
    · rw [hnone] at ho
      cases ho
  refine ⟨hD.apart hl happended.alters hv happended.valid (fun a ha => (hs a ha).1) fun a ha => (hcells a ha).1,
    later.alter hl happended.alters (fun a ha => .inl (hs a ha).2) fun a ha => .inl (hcells a ha).2,
    ⟨happended.chained, fun a ha => (hcells a ha).1, fun a ha => (hcells a ha).2⟩,
    ⟨parts, (happended.alters.content o hnot).trans ho, hparts⟩, hapart⟩

/-- **The expressions are evaluated side by side.** The left side binds each value at once, and the right side
    appends it to its arguments. The induction is on the bindings. -/
theorem Machine.Meets.lockstep {exprs arg r z : Value} (hn : Evals n) (hsplit : K.Split names rest exprs)
    (hargs : K.left.code.pair args b body) (hbody : K.Recast .exprs body f.body) (hname : f.name = .nil)
    (hD : D.Sound) (le : K.Le D.concord) (later : D₀.Later D) (hgo : D.left.failing = false)
    (henv : D.concord.Rel env f.env)
    (hleft : D₀.Binding D env args rest tail (D₀.left.heap.roots ++ left) bs task qs
      (.release (D₀.left.heap.roots ++ left).size :: .leave D₀.left.heap.roots.size :: ps))
    (hunfinished : Unfinished task qs) (hlist : D₀.Gathered D w last xs as) (hfunc : D.Held o f)
    (hroots : D.right.heap.roots = (D₀.right.heap.roots ++ right).push w)
    (harg : xs ++ [arg] = .object o :: bs'.map Prod.snd) (hparams : K.right.Lists f.params (bs'.map Prod.fst ++ names))
    (hbs : List.Forall₂ D.concord.RelBind bs bs') (hr : K.right.code.pair r z exprs)
    (hahead : Glides j σ' ⟨D.right, .give arg, .argument f.env r (D₀.right.heap.roots ++ right).size last ::
      .call tail' :: .leave D₀.right.heap.roots.size :: ps'⟩)
    (hw : k ≤ task.weight ∧ k ≤ j) :
    Meets (k + n) ⟨D.left, task, qs⟩ σ' (D₀.Gives D₀.left.heap.roots D₀.right.heap.roots ps ps') := by
  have hgo' : D.right.failing = false := hD.failing.symm.trans hgo
  induction hsplit generalizing D bs bs' w last xs as arg r z task qs σ' j k with
  | nil =>
    rw [List.append_nil] at hparams
    have hrest : ∀ d : Context, d.heap.Valid → D.right.Alters (fun a => a ∈ as ∨ D.right.heap.content a = none) d →
        (d.heap.cdr r).isPair = false := fun d hv ha => by
      have hside : Side D.concord.right d := hD.right.alter ha hv fun a y z ha hp => by
        rcases ha with ha | ha
        · exact hlist.apart a ha (.inr ⟨y, z, hp⟩)
        · exact hD.unused_right ha (.inr ⟨y, z, hp⟩)
      rw [(hside.car_cdr le.right hr).2.2]
      rfl
    obtain ⟨l, _, hglide, -, d', w', last', as', rfl, happended⟩ :=
      gets_list hD.right.valid hgo' hlist.chained hroots hrest
    obtain ⟨hD₁, later₁, hlist₁, hfunc₁⟩ := hD.appended (S := fun _ => False) later hlist hfunc (.refl D.left _)
      hD.left.valid nofun happended
    rw [harg] at hlist₁
    exact bodies (D := ⟨D.concord, D.left, d'⟩) hn hD₁ later₁ hgo (le.left.code.pair _ _ _ hargs)
      (Concord.Recast.mono hbody le) henv hname hleft hunfinished hlist₁ hfunc₁ happended.roots
      (hparams.mono le.right) hbs (hahead.trans hglide) ⟨hw.1, hw.2.trans (Nat.le_add_right j l)⟩
  | @cons names v b x e y v' x' e' y' hv hv' hb hx hrel hexpr rest ih =>
    obtain ⟨m, hleft⟩ := hleft
    refine jointly (x := advance Host.none false task qs) hD hahead hunfinished (.inl (List.cons_ne_nil _ _))
      (append_nil_pending _) rfl ⟨hw.1, hw.2.trans (Nat.le_add_right j _)⟩ (m + (1 + 0)) fun D₁ hroom => ?_
    obtain ⟨-, ⟨i, l, hi⟩, ⟨i', l', hi'⟩, hdeep, -⟩ := hroom
    rw [hi] at hdeep
    rw [hi, hi']
    refine .intoLeft (hleft i l hdeep) fun y d hd h => ?_
    obtain ⟨s, rfl, hparent, hbound, hlies, hcells, halters, hroots₁⟩ := h
    have hadds : D.right.Adds [] (D.right.roomy i' l') :=
      ⟨Alters.roomy hD.right.valid i' l' _, nofun, nofun, List.nodup_nil⟩
    refine .intoRight (into_argument (c := D.right.roomy i' l') hgo'
      { hlist.chained with lists := hlist.chained.lists.kept hadds }
      ((roots_roomy hD.right.valid i' l').trans hroots) r)
      fun y d' _ h => ?_
    obtain ⟨w₁, cell, as', rfl, happended⟩ := h
    obtain ⟨hD₁, later₁, hlist₁, hfunc₁⟩ := hD.appended later hlist hfunc halters hd hcells
      (happended.of_roomy hD.right.valid)
    have hside : Side D.concord.left d := hD₁.left
    have hside' : Side D.concord.right d' := hD₁.right
    rw [(hside'.car_cdr le.right hr).2.2]
    refine .congr (y := Pure.pure { Next.eval env e false (.binding env (.pair s.frame) args v x tail) with
        pending := .binding env (.pair s.frame) args v x tail :: .release (D₀.left.heap.roots ++ left).size ::
          .leave D₀.left.heap.roots.size :: ps })
      (run_bind (enterBindings_eq hside le.left hv hb hx)) (enterArguments_eq hside' le.right hv') (.pure ?_)
    have hgo₁ : d.failing = false := halters.rest.failing.trans hgo
    refine (List.append_nil _).symm ▸ ((hn ⟨D.concord, d, d'⟩ env f.env e e' false false _ _ hD₁ hgo₁ henv
      (Concord.Recast.mono hexpr le)).andThen fun D₂ u u' hD₂ later₂ hroots₂ hroots₂' hu => ?_)
    have later' := later₁.trans later₂
    have le₂ : D.concord.Le D₂.concord := later₂.le
    have hroots₂ := hroots₂.trans hroots₁
    have hroots₂' := hroots₂'.trans happended.roots
    cases hfail : D₂.left.failing with
    | true => exact abort hD₂ later' hfail hroots₂ hroots₂'
    | false =>
      have hframed : D₀.Framed ⟨D.concord, d, d'⟩ s :=
        ⟨hlies, fun b hb => (hcells b hb).1, fun b hb => (hcells b hb).2⟩
      have hbs' : List.Forall₂ D₂.concord.RelBind (bs ++ [(x, u)]) (bs' ++ [(x', u')]) :=
        List.rel_append (hbs.imp fun _ _ hq => ⟨hq.1.mono le₂, hq.2.mono le₂⟩)
          (.cons ⟨hrel.mono (le.trans le₂), hu⟩ .nil)
      have harg' : (xs ++ [arg]) ++ [u'] = .object o :: (bs' ++ [(x', u')]).map Prod.snd := by
        rw [harg]
        simp
      have hparams' : K.right.Lists f.params ((bs' ++ [(x', u')]).map Prod.fst ++ names) := by
        simpa using hparams
      have hmeets := ih (k := 0) hD₂ (le.trans le₂) later' hfail (henv.mono le₂)
        (Duet.binding_resume hD₂ later' hfail (hframed.later later₂) hparent hbound
          ((le.trans le₂).left.code.pair _ _ _ hv) hroots₂)
        (.inl (List.cons_ne_nil _ _)) (hlist₁.later later₂) (hfunc₁.later later₂) hroots₂' harg'
        hparams' hbs' hv' (.refl _) ⟨Nat.zero_le _, Nat.zero_le _⟩ (hD₂.failing.symm.trans hfail)
      rwa [Nat.zero_add] at hmeets

/-! ## 5. The form as a whole -/

/-- A form with local bindings makes a frame first. -/
theorem Machine.into_let {y z : Value} (hc : Side L c) (hargs : L.code.pair args y z) :
    Into 1 (enterLet env args tail) c fun x d => ∃ a,
      x = (do
        let next ← enterBindings env (.pair a) args y tail
        pure (next.andThen (.release c.heap.roots.size))) ∧
      Scope.Lies ⟨a, env, []⟩ d.heap ∧ c.Adds [a] d ∧ d.heap.roots = c.heap.roots.push (.pair a) := by
  unfold enterLet
  rw [(hc.car_cdr (.refl _) hargs).1]
  refine .after (a := c.heap.roots.size) (d := c) rfl (fun _ => id) ?_
  refine Into.serves (m := 0) (Serves.newFrame env) fun _ d hv h => ?_
  obtain ⟨a, rfl, hlies, hmade⟩ := h
  have hadds := hmade.adds.withRoots (d.heap.roots.push (.pair a))
  have ht := (Turned.refl hc.valid).trans hadds (hv.withRoots _) (congrArg (·.push (.pair a)) hmade.roots)
  refine .after (a := d.heap.roots.size) (d := d.withRoots (d.heap.roots.push (.pair a))) rfl
    (fun k hs => hs.withRoots _) ?_
  refine .after (a := y) (d := d.withRoots (d.heap.roots.push (.pair a))) ?_ (fun _ => id) (.done
    ⟨a, rfl, hlies.congr fun _ _ => rfl, hadds, ht.roots⟩)
  exact congrArg (EStateM.Result.ok · _) ((ht.side hc).car_cdr (.refl _) hargs).2.1

/-- The evaluation of the form comes to its bindings. -/
theorem Duet.binding_let {y z : Value} (hD : D.Sound) (later : D₀.Later D) (hc : Side L D.left)
    (hv : L.code.pair v head args) (hargs : L.code.pair args y z) (hf : L.code.form head .binding)
    (hroots : D.left.heap.roots = D₀.left.heap.roots) :
    D₀.Binding D env args y tail (D₀.left.heap.roots ++ #[env, v]) [] (.eval env v tail) ps
      (.release (D₀.left.heap.roots ++ #[env, v]).size :: .leave D₀.left.heap.roots.size :: ps) := by
  refine ⟨1, fun i j hdeep => ?_⟩
  have ht := ((Turned.refl hc.valid).roomy i j).entered env v
  have hc₁ := ht.side hc
  have hroots₁ : (D.left.roomy i j).heap.roots = D₀.left.heap.roots := (roots_roomy hc.valid i j).trans hroots
  have hroots₂ : ((D.left.roomy i j).entered env v).heap.roots = D₀.left.heap.roots ++ #[env, v] :=
    congrArg (fun roots : Array Value => (roots.push env).push v) hroots₁
  have hform : enterForm Host.none env v tail ((D.left.roomy i j).entered env v) =
      enterLet env args tail ((D.left.roomy i j).entered env v) := by
    rw [enterForm_eq_form Host.none (hc₁.specialForm?_eq (.refl _) hv hf), (hc₁.car_cdr (.refl _) hv).2.2]
    rfl
  have hinto : Into 1 (enterEval Host.none env v tail) (D.left.roomy i j) _ :=
    .of_eq (enterEval_eq Host.none ((hc.car_cdr (.refl _) hv).1) hdeep) (fun k hs => hs.entered env v)
      (.bind (.of_eq hform (fun _ => id) (into_let hc₁ hargs)))
  have hstart : ∀ u, Task.eval env v tail ≠ .give u := nofun
  rw [advance_task hstart]
  refine hinto.bind.weaken fun y d h => ?_
  obtain ⟨_, ⟨_, ⟨a, rfl, hlies, hadds, hroots⟩, rfl⟩, rfl⟩ := h
  have hadds' := ht.adds.trans hadds
  have hfresh : ∀ b ∈ [a], D.left.heap.content b = none := hadds'.fresh
  refine ⟨⟨a, env, []⟩, ?_, rfl, rfl, hlies,
    fun b hb => ⟨hD.unused_left (hfresh b hb), later.fresh_left hD (hfresh b hb)⟩,
    hadds'.alters, hroots.trans (by rw [hroots₂])⟩
  rw [hroots₁, hroots₂]
  simp [Next.andThen]

/-- **A form with local bindings comes to the same value as the applied function.** -/
theorem Machine.Meets.applied {func head' args' names body' exprs env' bindings : Value} (hn : Evals n) (hD : D.Sound)
    (hgo : D.left.failing = false) (henv : D.concord.Rel env env') (hv : D.concord.left.code.pair v head args)
    (hargs : D.concord.left.code.pair args bindings body) (hf : D.concord.left.code.form head .binding)
    (hv' : D.concord.right.code.pair v' func exprs) (hfunc : D.concord.right.code.pair func head' args')
    (hargs' : D.concord.right.code.pair args' names body') (hf' : D.concord.right.code.form head' .lambda)
    (hsplit : D.concord.Recast (.split names) bindings exprs) (hbody : D.concord.Recast .exprs body body') :
    Meets (n + 1) ⟨D.left, .eval env v tail, ps⟩ ⟨D.right, .eval env' v' tail', ps'⟩
      (D.Gives D.left.heap.roots D.right.heap.roots ps ps') := by
  obtain ⟨params, hnames, hsym, hsplit⟩ := hsplit.exists_split
  obtain ⟨j, _, hglide, hj, d, o, parts, as, rfl, ho, hparts, ht⟩ :=
    gets_head hD.right (.refl _) env' tail' ps' hv' hfunc hargs' hf' hnames hsym
  have hfresh : ∀ a ∈ o :: as, D.right.heap.content a = none := ht.adds.fresh
  have hD₁ : Duet.Sound ⟨D.concord, D.left, d⟩ := hD.apart (.refl D.left fun _ => False) ht.adds.alters hD.left.valid
    ht.valid nofun fun a ha => hD.unused_right (hfresh a ha)
  have later₁ : D.Later ⟨D.concord, D.left, d⟩ := (Duet.Later.refl D).alter (.refl D.left fun _ => False)
    ht.adds.alters nofun fun a ha => .inl (hfresh a ha)
  -- The parts of the function are code from now on.
  have hjoins : Duet.Joins ⟨D.concord, D.left, d⟩ [] [] as :=
    { nodup_left := List.nodup_nil
      nodup_right := (List.nodup_cons.mp ht.adds.nodup).2
      unused_left := nofun
      unused_right := fun a ha => hD.unused_right (hfresh a (List.mem_cons_of_mem o ha))
      cells := nofun }
  have hD₂ := hD₁.join hjoins
  have later₂ : D.Later ⟨Duet.joined ⟨D.concord, D.left, d⟩ [] [] as, D.left, d⟩ :=
    later₁.join nofun fun a ha => hfresh a (List.mem_cons_of_mem o ha)
  have le := Duet.le_joined ⟨D.concord, D.left, d⟩ [] [] as
  have hheld : Duet.Held ⟨Duet.joined ⟨D.concord, D.left, d⟩ [] [] as, D.left, d⟩ o ⟨env', names, body', .nil⟩ := by
    refine ⟨⟨parts, ho, hparts.code rfl fun a x y ha hx => .inr ⟨ha, hx⟩⟩, ?_⟩
    rintro (⟨a, hl | hl⟩ | ⟨x, y, hp | ⟨hmem, -⟩⟩)
    · exact hD.unused_right (hfresh o List.mem_cons_self) (.inl ⟨a, hl⟩)
    · cases hl
    · exact hD.unused_right (hfresh o List.mem_cons_self) (.inr ⟨x, y, hp⟩)
    · exact (List.nodup_cons.mp ht.adds.nodup).1 hmem
  have hlist : D.Gathered ⟨Duet.joined ⟨D.concord, D.left, d⟩ [] [] as, D.left, d⟩ .nil .nil [] [] :=
    ⟨.nil _, nofun, nofun⟩
  have hahead : Glides j ⟨D.right, .eval env' v' tail', ps'⟩ ⟨d, .give (.object o), .argument env' v'
      (D.right.heap.roots ++ #[env', v']).size .nil :: .call tail' :: .leave D.right.heap.roots.size :: ps'⟩ := by
    simpa using hglide
  have hparams : D.concord.right.Lists names (([] : Binds).map Prod.fst ++ params) := hnames
  rw [Nat.add_comm n 1]
  exact lockstep (D := ⟨Duet.joined ⟨D.concord, D.left, d⟩ [] [] as, D.left, d⟩) hn hsplit hargs hbody rfl hD₂ le
    later₂ hgo (henv.mono le)
    (Duet.binding_let hD₂ later₂ hD.left hv hargs hf rfl) (.inr nofun) hlist hheld ht.roots rfl hparams .nil hv' hahead
    ⟨le_rfl, hj⟩

end

end LispMachine
