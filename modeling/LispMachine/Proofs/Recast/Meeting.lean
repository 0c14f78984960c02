import LispMachine.Proofs.Quiet.Course
import LispMachine.Proofs.Recast.Actions

/-!
# Runs of recast code

* `Duet.Roomier` -- the same two contexts with more room, and `Duet.Sound.exists_roomier`;
* `Duet.Onto`, `Duet.Gives` -- what is known after an action, and when a value has come back;
* `Machine.Jointly`, `Meets.jointly` -- **a step on both sides**, which may write cells that are in use on one
  side only; `Meets.resume`, `Meets.start` -- steps of actions that agree;
* `Machine.Gets` -- one side alone goes on.
-/

namespace LispMachine

open Context Machine

namespace Duet

variable {D D' D₁ : Duet} {v v' : Value} {n : Nat}

/-! ## 1. Room -/

/-- The cells hold the same, and the same corresponds. -/
structure Alike (D D₁ : Duet) : Prop where
  concord : D₁.concord = D.concord
  left : ∀ a, D₁.left.heap.content a = D.left.heap.content a
  right : ∀ b, D₁.right.heap.content b = D.right.heap.content b

theorem Alike.withRoots (h : D.Alike D₁) (roots roots' : Array Value) : D.Alike (D₁.withRoots roots roots') :=
  ⟨h.concord, h.left, h.right⟩

/-- Values are of the types that they were of, and pairs hold what they held. -/
theorem Alike.same (h : D.Alike D₁) (hD : D.Sound) (hv : D.concord.Rel v v') :
    D₁.left.heap.typeOf v = D.left.heap.typeOf v ∧ D₁.left.heap.car v = D.left.heap.car v ∧
      D₁.left.heap.cdr v = D.left.heap.cdr v ∧ D₁.right.heap.car v' = D.right.heap.car v' ∧
      D₁.right.heap.cdr v' = D.right.heap.cdr v' := by
  have hcell : ∀ {a b}, D.concord.link a b → D₁.left.heap.cells[a]? = D.left.heap.cells[a]? ∧
      D₁.right.heap.cells[b]? = D.right.heap.cells[b]? := fun hl => by
    obtain ⟨x, x', hx, hx', -⟩ := hD.cells hl
    rw [Heap.cell_of_content hx, Heap.cell_of_content hx', Heap.cell_of_content ((h.left _).trans hx),
      Heap.cell_of_content ((h.right _).trans hx')]
    exact ⟨rfl, rfl⟩
  cases hv with
  | pair hl =>
    obtain ⟨hl, hr⟩ := hcell hl
    simp only [Heap.typeOf, Heap.car, Heap.cdr, hl, hr, and_self]
  | object hl =>
    obtain ⟨hl, -⟩ := hcell hl
    simp only [Heap.typeOf, Heap.car, Heap.cdr, hl, and_self]
  | _ => exact ⟨rfl, rfl, rfl, rfl, rfl⟩

/-- **The same contexts with more room**, enough for one more evaluation. -/
structure Roomier (D D₁ : Duet) : Prop where
  concord : D₁.concord = D.concord
  left : ∃ k m, D₁.left = D.left.roomy k m
  right : ∃ k m, D₁.right = D.right.roomy k m
  deep_left : D₁.left.depth < D₁.left.maxDepth
  deep_right : D₁.right.depth < D₁.right.maxDepth

end Duet

/-- What more room leaves as it is. -/
theorem Context.content_roomy {c : Context} (hv : c.heap.Valid) (k m : Nat) (a : Addr) :
    (c.roomy k m).heap.content a = c.heap.content a :=
  (Heap.grown_iterate hv k).2.1 a

theorem Context.roots_roomy {c : Context} (hv : c.heap.Valid) (k m : Nat) :
    (c.roomy k m).heap.roots = c.heap.roots :=
  (Heap.grown_iterate hv k).2.2.1

theorem Context.valid_roomy {c : Context} (hv : c.heap.Valid) (k m : Nat) : (c.roomy k m).heap.Valid :=
  (Heap.grown_iterate hv k).1

theorem Context.Alters.roomy {c : Context} (hv : c.heap.Valid) (k m : Nat) (S : Addr → Prop) :
    c.Alters S (c.roomy k m) where
  rest := { Context.Steady.refl c with }
  types := (Heap.grown_iterate hv k).2.2.2
  content a _ := content_roomy hv k m a

/-- **A context is given room**, as much as one likes. -/
theorem Context.exists_roomy {c : Context} (hv : c.heap.Valid) (n : Nat) : ∃ k m,
    (c.roomy k m).heap.Stocked n ∧ (c.roomy k m).depth < (c.roomy k m).maxDepth := by
  obtain ⟨k, hk⟩ := Heap.exists_stocked_grown hv n
  refine ⟨k, c.depth + 1, hk, ?_⟩
  show c.depth < c.maxDepth + (c.depth + 1)
  omega

namespace Duet

variable {D D' D₁ : Duet} {n : Nat}

namespace Roomier

theorem sound (h : D.Roomier D₁) (hD : D.Sound) : D₁.Sound := by
  obtain ⟨K₁, c₁, c₁'⟩ := D₁
  obtain ⟨rfl, ⟨k, m, rfl⟩, ⟨k', m', rfl⟩, -, -⟩ := h
  exact hD.apart (.roomy hD.left.valid k m (fun _ => False)) (.roomy hD.right.valid k' m' (fun _ => False))
    (valid_roomy hD.left.valid k m) (valid_roomy hD.right.valid k' m') nofun nofun

theorem later (h : D.Roomier D₁) (hD : D.Sound) : D.Later D₁ := by
  obtain ⟨K₁, c₁, c₁'⟩ := D₁
  obtain ⟨rfl, ⟨k, m, rfl⟩, ⟨k', m', rfl⟩, -, -⟩ := h
  exact (Later.refl D).alter (.roomy hD.left.valid k m (fun _ => False))
    (.roomy hD.right.valid k' m' (fun _ => False)) nofun nofun

theorem calm (h : D.Roomier D₁) (hD : D.Sound) : D.Calm D₁ := by
  obtain ⟨-, ⟨k, m, hc⟩, ⟨k', m', hc'⟩, -, -⟩ := h
  exact ⟨⟨by rw [hc, roots_roomy hD.left.valid], by rw [hc', roots_roomy hD.right.valid]⟩, by rw [hc]; rfl⟩

theorem still (h : D.Roomier D₁) (hD : D.Sound) : D.Still D₁ := (h.calm hD).toStill

theorem alike (h : D.Roomier D₁) (hD : D.Sound) : D.Alike D₁ := by
  obtain ⟨hK, ⟨k, m, hc⟩, ⟨k', m', hc'⟩, -, -⟩ := h
  exact ⟨hK, fun a => by rw [hc, content_roomy hD.left.valid], fun b => by rw [hc', content_roomy hD.right.valid]⟩

end Roomier

theorem Sound.exists_roomier (hD : D.Sound) (n : Nat) : ∃ D₁, D.Roomier D₁ ∧ D₁.left.heap.Stocked n ∧
    D₁.right.heap.Stocked n := by
  obtain ⟨k, m, hs, hdeep⟩ := exists_roomy hD.left.valid n
  obtain ⟨k', m', hs', hdeep'⟩ := exists_roomy hD.right.valid n
  exact ⟨⟨D.concord, D.left.roomy k m, D.right.roomy k' m'⟩, ⟨rfl, ⟨k, m, rfl⟩, ⟨k', m', rfl⟩, hdeep, hdeep'⟩, hs, hs'⟩

/-! ## 2. What comes of a step -/

/-- What the steps lead to goes on to states that are related. -/
def Onto (n : Nat) (ps ps' : List Pending) (P : State → State → Prop) (D : Duet) (next next' : Next) : Prop :=
  Meets n ⟨D.left, next.task, next.pending ++ ps⟩ ⟨D.right, next'.task, next'.pending ++ ps'⟩ P

/-- **Values have come back** in contexts that agree, with these root stacks, and what has been there before
    stays. -/
def Gives (D : Duet) (roots roots' : Array Value) (ps ps' : List Pending) (τ τ' : State) : Prop :=
  ∃ K c c' v v', τ = ⟨c, .give v, ps⟩ ∧ τ' = ⟨c', .give v', ps'⟩ ∧ Sound ⟨K, c, c'⟩ ∧ D.Later ⟨K, c, c'⟩ ∧
    c.heap.roots = roots ∧ c'.heap.roots = roots' ∧ K.Rel v v'

theorem Gives.later {roots roots' : Array Value} {ps ps' : List Pending} {τ τ' : State} (later : D.Later D₁)
    (h : D₁.Gives roots roots' ps ps' τ τ') : D.Gives roots roots' ps ps' τ τ' := by
  obtain ⟨K, c, c', v, v', hτ, hτ', sound, later', hrest⟩ := h
  exact ⟨K, c, c', v, v', hτ, hτ', sound, later.trans later', hrest⟩

end Duet

namespace Machine

open Duet

variable {D : Duet} {m n k : Nat} {P Q : State → State → Prop} {ps ps' qs qs' : List Pending}
variable {c c' : Context} {x x' : Run Next}

/-- **With `m` cells in stock an action comes down to another one**, from a context that it has come to. -/
def Into (m : Nat) (x : Run Next) (c : Context) (R : Run Next → Context → Prop) : Prop :=
  ∀ k, c.heap.Stocked (m + k) → ∃ y d, x c = y d ∧ d.heap.Stocked k ∧ R y d

namespace Into

variable {R : Run Next → Context → Prop}

theorem done (h : R x c) : Into 0 x c R := fun k hs => ⟨x, c, rfl, Nat.zero_add k ▸ hs, h⟩

/-- The same action in a context with as many cells in stock. -/
theorem of_eq {y : Run Next} {d : Context} (hrun : x c = y d) (hs : ∀ k, c.heap.Stocked k → d.heap.Stocked k)
    (h : Into m y d R) : Into m x c R := fun k hk => hrun ▸ h k (hs _ hk)

/-- An action that serves, and what follows. -/
theorem serves {α : Type} {p : Run α} {f : α → Run Next} {Q : α → Context → Prop} (hp : Serves k p c Q)
    (hf : ∀ a d, d.heap.Valid → Q a d → Into m (f a) d R) : Into (k + m) (p >>= f) c R := fun j hs => by
  obtain ⟨a, d, hrun, hs, hq⟩ := hp (m + j) (Nat.add_assoc k m j ▸ hs)
  obtain ⟨_, hkept, -⟩ := id hs
  rw [run_bind hrun]
  exact hf a d hkept.valid hq j hs

end Into

/-- **With `m` cells in stock two actions lead to states that go on alike**, or both are stuck. Cells that
    are in use on one side only may have been written. -/
def Jointly (n : Nat) (ps ps' : List Pending) (P : State → State → Prop) (m : Nat) (c c' : Context)
    (x x' : Run Next) : Prop :=
  c.heap.Stocked m → c'.heap.Stocked m →
    (∃ next d next' d', x c = .ok next d ∧ x' c' = .ok next' d' ∧
      Meets n ⟨d, next.task, next.pending ++ ps⟩ ⟨d', next'.task, next'.pending ++ ps'⟩ P) ∨
    ∃ e d e' d', x c = .error e d ∧ x' c' = .error e' d' ∧ e ≠ .heapExhausted ∧ e' ≠ .heapExhausted

namespace Jointly

theorem of_both (h : Both D m x x' (Onto n ps ps' P)) : Jointly n ps ps' P m D.left D.right x x' := fun hs hs' => by
  have hends := h 0 hs hs'
  generalize x D.left = r at hends ⊢
  generalize x' D.right = r' at hends ⊢
  cases hends with
  | ok _ _ _ _ hq => exact .inl ⟨_, _, _, _, rfl, rfl, hq⟩
  | fault he he' => exact .inr ⟨_, _, _, _, rfl, rfl, he, he'⟩

theorem congr {y y' : Run Next} (hx : x c = y c) (hx' : x' c' = y' c') (h : Jointly n ps ps' P m c c' y y') :
    Jointly n ps ps' P m c c' x x' := by
  unfold Jointly at *
  rwa [hx, hx']

theorem pure {next next' : Next} (h : Meets n ⟨c, next.task, next.pending ++ ps⟩
    ⟨c', next'.task, next'.pending ++ ps'⟩ P) : Jointly n ps ps' P m c c' (Pure.pure next) (Pure.pure next') :=
  fun _ _ => .inl ⟨next, c, next', c', rfl, rfl, h⟩

/-- The left side comes down to another action. -/
theorem intoLeft {R : Run Next → Context → Prop} (hx : Into k x c R)
    (hf : ∀ y d, d.heap.Valid → R y d → Jointly n ps ps' P m d c' y x') : Jointly n ps ps' P (k + m) c c' x x' :=
  fun hs hs' => by
    obtain ⟨y, d, hrun, hs, hr⟩ := hx m hs
    obtain ⟨_, hkept, -⟩ := id hs
    rw [hrun]
    exact hf y d hkept.valid hr hs (hs'.le (Nat.le_add_left m k))

/-- The right side comes down to another action. -/
theorem intoRight {R : Run Next → Context → Prop} (hx : Into k x' c' R)
    (hf : ∀ y d, d.heap.Valid → R y d → Jointly n ps ps' P m c d x y) : Jointly n ps ps' P (k + m) c c' x x' :=
  fun hs hs' => by
    obtain ⟨y, d, hrun, hs', hr⟩ := hx m hs'
    obtain ⟨_, hkept, -⟩ := id hs'
    rw [hrun]
    exact hf y d hkept.valid hr (hs.le (Nat.le_add_left m k)) hs'

/-- Pending steps that the left side puts behind. -/
theorem mapLeft {g : Next → Next} (hg : ∀ next, (g next).task = next.task ∧ (g next).pending ++ qs = next.pending ++ ps)
    (h : Jointly n ps ps' P m c c' x x') : Jointly n qs ps' P m c c' (x >>= fun next => Pure.pure (g next)) x' :=
  fun hs hs' => by
    rcases h hs hs' with ⟨next, d, next', d', hr, hr', hmeets⟩ | ⟨e, d, e', d', hr, hr', he, he'⟩
    · refine .inl ⟨g next, d, next', d', run_bind hr, hr', ?_⟩
      rwa [(hg next).1, (hg next).2]
    · exact .inr ⟨e, d, e', d', run_bind_error hr, hr', he, he'⟩

end Jointly

theorem advance_task {task : Task} {rs : List Pending} (ht : ∀ v, task ≠ .give v) :
    advance Host.none false task rs = (do
      let next ← task.step Host.none
      Pure.pure { next with pending := next.pending ++ rs }) := by
  cases task with
  | give v => exact absurd rfl (ht v)
  | _ => rfl

/-- Nothing more waits behind. -/
theorem append_nil_pending (x : Run Next) : x = (do
    let next ← x
    Pure.pure { next with pending := next.pending ++ [] }) := by
  simp

theorem one_le_weight {task : Task} (ht : ∀ v, task ≠ .give v) : 1 ≤ task.weight := by
  cases task with
  | give v => exact absurd rfl (ht v)
  | _ => exact le_rfl

/-- **A run comes to a state with a property**, and so many of its steps count. -/
def Gets (k : Nat) (σ : State) (Q : State → Prop) : Prop := ∃ j τ, Glides j σ τ ∧ k ≤ j ∧ Q τ

namespace Gets

variable {σ : State} {Q R : State → Prop} {task : Task}

theorem done (h : Q σ) : Gets 0 σ Q := ⟨0, σ, .refl σ, le_rfl, h⟩

/-- **Sequences.** -/
theorem trans (h : Gets k σ Q) (hf : ∀ τ, Q τ → Gets m τ R) : Gets (k + m) σ R := by
  obtain ⟨j, τ, hglide, hj, hq⟩ := h
  obtain ⟨j', υ, hglide', hj', hr⟩ := hf τ hq
  exact ⟨j + j', υ, hglide.trans hglide', Nat.add_le_add hj hj', hr⟩

theorem weaken (h : Gets k σ Q) (hf : ∀ τ, Q τ → R τ) : Gets k σ R := by
  obtain ⟨j, τ, hglide, hj, hq⟩ := h
  exact ⟨j, τ, hglide, hj, hf τ hq⟩

theorem mono {j : Nat} (h : Gets k σ Q) (hjk : j ≤ k) : Gets j σ Q := by
  obtain ⟨i, τ, hglide, hi, hq⟩ := h
  exact ⟨i, τ, hglide, hjk.trans hi, hq⟩

/-- A step. -/
theorem step (hv : c.heap.Valid) (hgo : Unfinished task qs) (hx : advance Host.none false task qs = (do
      let next ← x
      Pure.pure { next with pending := next.pending ++ ps })) (m : Nat)
    (h : ∀ i j, (c.roomy i j).depth < (c.roomy i j).maxDepth →
      Serves m x (c.roomy i j) fun next d => Gets k ⟨d, next.task, next.pending ++ ps⟩ Q) :
    Gets (task.weight + k) ⟨c, task, qs⟩ Q := by
  obtain ⟨i, j, hs, hdeep⟩ := exists_roomy hv m
  obtain ⟨next, d, hrun, -, l, τ, hglide, hl, hq⟩ := h i j hdeep 0 hs
  have hmove : Moves Host.none false ⟨c.roomy i j, task, qs⟩ ⟨d, next.task, next.pending ++ ps⟩ :=
    .step hgo (by rw [hx, run_bind hrun]; rfl)
  have hroom : State.HasRoom ⟨c.roomy i j, task, qs⟩ := hdeep
  refine ⟨l + task.weight, τ, .room i j (.move hroom hmove hglide), ?_, hq⟩
  rw [Nat.add_comm]
  exact Nat.add_le_add_right hl _

/-- A task is begun. -/
theorem start (hv : c.heap.Valid) (ht : ∀ v, task ≠ .give v) (m : Nat)
    (h : ∀ i j, (c.roomy i j).depth < (c.roomy i j).maxDepth →
      Serves m (task.step Host.none) (c.roomy i j) fun next d => Gets k ⟨d, next.task, next.pending ++ ps⟩ Q) :
    Gets (1 + k) ⟨c, task, ps⟩ Q :=
  (step hv (.inr ht) (advance_task ht) m h).mono (Nat.add_le_add_right (one_le_weight ht) k)

/-- A step that waits goes on. -/
theorem resume {p : Pending} {v : Value} (hv : c.heap.Valid) (m : Nat)
    (h : ∀ i j, Serves m (p.resumeBy Host.none false v) (c.roomy i j)
      fun next d => Gets k ⟨d, next.task, next.pending ++ ps⟩ Q) : Gets k ⟨c, .give v, p :: ps⟩ Q :=
  (step hv (.inl (List.cons_ne_nil _ _)) rfl m fun i j _ => h i j).mono (Nat.le_add_left k _)

end Gets

namespace Meets

variable {p p' : Pending} {v v' : Value} {task task' : Task} {σ σ' : State}

/-- **A step on both sides**, when the right side may have gone on before by steps that count. -/
theorem jointly {j : Nat} (hD : D.Sound) (hahead : Glides j σ' ⟨D.right, task', qs'⟩) (hgo : Unfinished task qs)
    (hgo' : Unfinished task' qs') (hx : advance Host.none false task qs = (do
      let next ← x
      Pure.pure { next with pending := next.pending ++ ps }))
    (hx' : advance Host.none false task' qs' = (do
      let next ← x'
      Pure.pure { next with pending := next.pending ++ ps' }))
    (hw : k ≤ task.weight ∧ k ≤ j + task'.weight) (m : Nat)
    (h : ∀ D₁, D.Roomier D₁ → Jointly n ps ps' P m D₁.left D₁.right x x') :
    Meets (k + n) ⟨D.left, task, qs⟩ σ' P := by
  obtain ⟨D₁, hroom, hs, hs'⟩ := hD.exists_roomier m
  have hends := h D₁ hroom hs hs'
  obtain ⟨-, ⟨i, l, hleft⟩, ⟨i', l', hright⟩, hdeep, hdeep'⟩ := hroom
  rw [hleft, hright] at hends
  rw [hleft] at hdeep
  rw [hright] at hdeep'
  rcases hends with ⟨next, d, next', d', hr, hr', hq⟩ | ⟨e, d, e', d', hr, hr', he, he'⟩
  · have hmove : Moves Host.none false ⟨D.left.roomy i l, task, qs⟩ ⟨d, next.task, next.pending ++ ps⟩ :=
      .step hgo (by rw [hx, run_bind hr]; rfl)
    have hmove' : Moves Host.none false ⟨D.right.roomy i' l', task', qs'⟩ ⟨d', next'.task, next'.pending ++ ps'⟩ :=
      .step hgo' (by rw [hx', run_bind hr']; rfl)
    refine after (.room i l (.move hdeep hmove (.refl _))) (hahead.trans (.room i' l' (.move hdeep' hmove' (.refl _))))
      ⟨by rw [Nat.zero_add]; exact hw.1, by rw [Nat.zero_add]; exact hw.2⟩ hq
  · have hstuck : Stuck ⟨D.left.roomy i l, task, qs⟩ :=
      ⟨hdeep, hgo, _, _, (congrFun hx _).trans (run_bind_error hr), he⟩
    have hstuck' : Stuck ⟨D.right.roomy i' l', task', qs'⟩ :=
      ⟨hdeep', hgo', _, _, (congrFun hx' _).trans (run_bind_error hr'), he'⟩
    exact stuck (.room i l (.refl _)) (hahead.trans (.room i' l' (.refl _))) hstuck hstuck'

/-- Steps that wait go on. -/
theorem resume (hD : D.Sound) (m : Nat) (h : ∀ D₁, D.Roomier D₁ →
      Both D₁ m (p.resumeBy Host.none false v) (p'.resumeBy Host.none false v') (Onto n ps ps' P)) :
    Meets n ⟨D.left, .give v, p :: ps⟩ ⟨D.right, .give v', p' :: ps'⟩ P := by
  rw [← Nat.zero_add n]
  exact jointly hD (.refl _) (.inl (List.cons_ne_nil _ _)) (.inl (List.cons_ne_nil _ _)) rfl rfl
    ⟨Nat.zero_le _, Nat.zero_le _⟩ m fun D₁ hroom => .of_both (h D₁ hroom)

/-- Less to last. -/
theorem mono (h : Meets n σ σ' P) (hkn : k ≤ n) : Meets k σ σ' P :=
  h.imp id fun hlasts => ⟨hlasts.1.mono hkn, hlasts.2.mono hkn⟩

/-- Tasks are begun. They count. -/
theorem start (hD : D.Sound) (ht : ∀ v, task ≠ .give v) (ht' : ∀ v, task' ≠ .give v) (m : Nat)
    (h : ∀ D₁, D.Roomier D₁ → Both D₁ m (task.step Host.none) (task'.step Host.none) (Onto n ps ps' P)) :
    Meets (n + 1) ⟨D.left, task, ps⟩ ⟨D.right, task', ps'⟩ P := by
  rw [Nat.add_comm]
  exact jointly hD (.refl _) (.inr ht) (.inr ht') (advance_task ht) (advance_task ht')
    ⟨one_le_weight ht, (Nat.zero_add task'.weight).symm ▸ one_le_weight ht'⟩ m fun D₁ hroom => .of_both (h D₁ hroom)

/-- Values have come back. -/
theorem given {roots roots' : Array Value} (hD : D.Sound) (hroots : D.left.heap.roots = roots)
    (hroots' : D.right.heap.roots = roots') (hv : D.concord.Rel v v') :
    Meets n ⟨D.left, .give v, ps⟩ ⟨D.right, .give v', ps'⟩ (D.Gives roots roots' ps ps') :=
  done ⟨D.concord, D.left, D.right, v, v', rfl, rfl, hD, .refl D, hroots, hroots', hv⟩

/-- **What comes after a value has come back.** -/
theorem andThen {roots roots' : Array Value} (h : Meets n σ σ' (D.Gives roots roots' ps ps'))
    (hf : ∀ (D₁ : Duet) v v', D₁.Sound → D.Later D₁ → D₁.left.heap.roots = roots →
      D₁.right.heap.roots = roots' → D₁.concord.Rel v v' →
      Meets n ⟨D₁.left, .give v, ps⟩ ⟨D₁.right, .give v', ps'⟩ P) : Meets n σ σ' P :=
  h.trans fun τ τ' hgives => by
    obtain ⟨K, c, c', v, v', rfl, rfl, sound, later, hroots, hroots', hv⟩ := hgives
    exact hf ⟨K, c, c'⟩ v v' sound later hroots hroots' hv

/-- **The left side alone goes on.** -/
theorem onLeft {R : State → Prop} (h : Gets 0 σ R) (hf : ∀ τ, R τ → Meets n τ σ' P) : Meets n σ σ' P := by
  obtain ⟨_, τ, hglide, -, hr⟩ := h
  exact left hglide (hf τ hr)

/-- **The right side alone goes on.** -/
theorem onRight {R : State → Prop} (h : Gets 0 σ' R) (hf : ∀ τ, R τ → Meets n σ τ P) : Meets n σ σ' P := by
  obtain ⟨_, τ, hglide, -, hr⟩ := h
  exact right hglide (hf τ hr)

end Meets

end Machine

end LispMachine
