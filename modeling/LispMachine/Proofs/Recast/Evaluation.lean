import LispMachine.Proofs.Recast.Applied

/-!
# Evaluations of recast code

* `Meets.entered` -- the evaluation of pairs, one level deeper on both sides;
* `evals_and_applies` -- **evaluations and applications of recast code come to values that correspond**, or last
  for as many steps as one likes. The induction is on the steps, and the cases are those of recast code.
-/

namespace LispMachine

open Context Machine

variable {D D₁ : Duet} {m n : Nat} {env env' expr expr' func func' args args' : Value} {tail tail' : Bool}
variable {ps ps' : List Pending}

/-! ## 1. Pairs -/

/-- Two contexts in which the evaluation of pairs has begun. -/
def Duet.entered (D : Duet) (env expr env' expr' : Value) : Duet :=
  ⟨D.concord, D.left.entered env expr, D.right.entered env' expr'⟩

theorem Duet.Sound.entered (hD : D.Sound) (env expr env' expr' : Value) : (D.entered env expr env' expr').Sound ∧
    D.Later (D.entered env expr env' expr') ∧ D.Atop (D.entered env expr env' expr') :=
  ⟨hD.apart (.entered D.left env expr fun _ => False) (.entered D.right env' expr' fun _ => False)
      (valid_entered hD.left.valid env expr) (valid_entered hD.right.valid env' expr') nofun nofun,
    (Duet.Later.refl D).alter (.entered D.left env expr fun _ => False) (.entered D.right env' expr' fun _ => False)
      nofun nofun, ⟨⟨#[env, expr], rfl⟩, #[env', expr'], rfl⟩⟩

/-- The same actions in contexts with as many cells in stock. -/
theorem Both.of_eq {α α' : Type} {x y : Run α} {x' y' : Run α'} {Q : Duet → α → α' → Prop} (later : D.Later D₁)
    (hrun : x D.left = y D₁.left) (hrun' : x' D.right = y' D₁.right)
    (hs : ∀ k, D.left.heap.Stocked k → D₁.left.heap.Stocked k)
    (hs' : ∀ k, D.right.heap.Stocked k → D₁.right.heap.Stocked k) (h : Both D₁ m y y' Q) :
    Both D m x x' Q := fun k hk hk' => by
  rw [hrun, hrun']
  have hends := h k (hs _ hk) (hs' _ hk')
  generalize y D₁.left = r at hends ⊢
  generalize y' D₁.right = r' at hends ⊢
  cases hends with
  | ok sound later' hs hs' hq => exact .ok sound (later.trans later') hs hs' hq
  | fault he he' => exact .fault he he'

theorem Duet.Atop.trans {D₂ : Duet} (h : D.Atop D₁) (h' : D₁.Atop D₂) : D.Atop D₂ := by
  obtain ⟨⟨xs, hl⟩, ys, hr⟩ := h
  obtain ⟨⟨xs', hl'⟩, ys', hr'⟩ := h'
  exact ⟨⟨xs ++ xs', by rw [hl', hl, Array.append_assoc]⟩, ys ++ ys', by rw [hr', hr, Array.append_assoc]⟩

/-- What a step of the evaluation of pairs leads to: values of the pairs. -/
def Duet.Evaluates (D : Duet) (n : Nat) (ps ps' : List Pending) : Duet → Next → Next → Prop :=
  Duet.Onto n (.leave D.left.heap.roots.size :: ps) (.leave D.right.heap.roots.size :: ps')
    (D.Gives D.left.heap.roots D.right.heap.roots ps ps')

/-- A level is left when the values have come back. -/
theorem Duet.Yields.evaluates {D₂ : Duet} {next next' : Next} (later : D.Later D₁) (hatop : D.Atop D₁)
    (h : D₁.Yields n (.leave D.left.heap.roots.size :: ps) (.leave D.right.heap.roots.size :: ps') D₂ next next') :
    D.Evaluates n ps ps' D₂ next next' :=
  Machine.Meets.andThen h fun _ _ _ hD₃ later₃ hroots hroots' hv =>
    .unwound (g := fun c => { c with depth := c.depth - 1 }) (fun _ => ⟨_, _, _, rfl⟩) rfl rfl hD₃ (later.trans later₃)
      (hatop.still ⟨hroots, hroots'⟩) hv

/-- **Pairs are evaluated one level deeper.** -/
theorem Machine.Meets.entered (hD : D.Sound) (hexpr : expr.isPair = true) (hexpr' : expr'.isPair = true)
    (h : ∀ D₁, D₁.Sound → D.Later D₁ → D.Atop D₁ → D₁.left.failing = D.left.failing →
      Both D₁ m (enterForm Host.none env expr tail) (enterForm Host.none env' expr' tail') (D.Evaluates n ps ps')) :
    Meets (n + 1) ⟨D.left, .eval env expr tail, ps⟩ ⟨D.right, .eval env' expr' tail', ps'⟩
      (D.Gives D.left.heap.roots D.right.heap.roots ps ps') := by
  refine .start hD nofun nofun (m + 0) fun D₁ hroom => ?_
  have hD₁ := hroom.sound hD
  have still := hroom.still hD
  obtain ⟨hD₂, later, hatop⟩ := hD₁.entered env expr env' expr'
  refine .of_eq later (enterEval_eq Host.none hexpr hroom.deep_left) (enterEval_eq Host.none hexpr' hroom.deep_right)
    (fun k hs => hs.entered env expr) (fun k hs => hs.entered env' expr') ?_
  refine (h _ hD₂ ((hroom.later hD).trans later) (((Duet.Atop.refl D).still still).trans hatop)
    (hroom.calm hD).failing).bind fun D₃ next next' hD₃ _ hnext => .pure hD₃ ?_
  rw [still.left, still.right]
  unfold Duet.Evaluates Duet.Onto at hnext
  unfold Duet.Onto Next.andThen
  rw [List.append_assoc, List.append_assoc]
  exact hnext

/-! ## 2. All code -/

/-- **A list is evaluated, and its head is called.** -/
theorem Duet.evaluates_call (hn : Evals n) (ha : Applies n) {list list' : Value} (hD₁ : D₁.Sound) (later : D.Later D₁)
    (hatop : D.Atop D₁) (hgo : D₁.left.failing = false) (henv : D₁.concord.Rel env env')
    (hlist : D₁.concord.Recast .exprs list list') :
    D.Evaluates n ps ps' D₁ { task := .evalList env list, pending := [.call tail] }
      { task := .evalList env' list', pending := [.call tail'] } := by
  have hevaluates : Meets n
      ⟨D₁.left, .evalList env list, .call tail :: .leave D.left.heap.roots.size :: ps⟩
      ⟨D₁.right, .evalList env' list', .call tail' :: .leave D.right.heap.roots.size :: ps'⟩
      (D₁.Gives D₁.left.heap.roots D₁.right.heap.roots (.call tail :: .leave D.left.heap.roots.size :: ps)
        (.call tail' :: .leave D.right.heap.roots.size :: ps')) := by
    refine Machine.Meets.mono (.start hD₁ nofun nofun 0 fun D₂ hroom => ?_) (Nat.le_succ n)
    have later₂ := hroom.later hD₁
    exact (Both.enterEvalList hn (hroom.sound hD₁) ((hroom.calm hD₁).failing.trans hgo) (henv.mono later₂.le)
      (Concord.Recast.mono hlist later₂.le)).weaken le_rfl fun _ _ _ _ _ h => h.base later₂ (hroom.still hD₁)
  refine hevaluates.andThen fun D₂ v v' hD₂ later₂ hroots hroots' hv => ?_
  obtain ⟨m, hm⟩ := Both.exists_resumeCall hn ha hD₂ hv
  refine .resume hD₂ m fun D₃ hroom => (hm D₃ hroom).weaken le_rfl fun _ _ _ _ _ h => ?_
  obtain ⟨D₄, later₄, hatop₄, hyields⟩ := h
  exact hyields.evaluates (((later.trans later₂).trans (hroom.later hD₂)).trans later₄)
    (((hatop.still ⟨hroots, hroots'⟩).still (hroom.still hD₂)).trans hatop₄)

/-- Evaluations come to values that correspond. -/
theorem Evals.succ (hn : Evals n) (ha : Applies n) : Evals (n + 1) := by
  intro D env env' expr expr' tail tail' ps ps' hD hgo henv hexpr
  cases hexpr with
  | atom _ hlone hrel =>
    refine .start hD nofun nofun 0 fun D₁ hroom => ?_
    have hD₁ := hroom.sound hD
    have hgive : ∀ {D₂ : Duet} {v v' : Value}, D₂.Sound → D₁.Later D₂ → D₁.Still D₂ → D₂.concord.Rel v v' →
        D.Yields n ps ps' D₂ (.give v) (.give v') := fun hD₂ later still hv =>
      (Duet.yields_give (D := D₁) hD₂ later still hv).base (hroom.later hD) (hroom.still hD)
    rw [← hroom.concord] at hrel henv
    cases hrel with
    | sym hi hj =>
      exact (Both.valueOf hD₁ henv (.sym hi hj)).bind (m := 0) fun D₂ v v' hD₂ later hq =>
        .pure hD₂ (hgive hD₂ later hq.2 hq.1)
    | pair _ => cases hlone
    | nil => exact .pure hD₁ (hgive hD₁ (.refl D₁) (.refl D₁) .nil)
    | int k => exact .pure hD₁ (hgive hD₁ (.refl D₁) (.refl D₁) (.int k))
    | object hl => exact .pure hD₁ (hgive hD₁ (.refl D₁) (.refl D₁) (.object hl))
  | list hp => exact hp.elim
  | @special f _ x y _ x' y' hv hv' hf hf' hargs =>
    obtain ⟨hpair, hpair', -⟩ := Concord.Recast.car_cdr hD (.refl _) hv hv'
    refine .entered (m := 7) hD hpair hpair' fun D₁ hD₁ later hatop hfailing => ?_
    obtain ⟨-, -, -, hcdr, -, hcdr'⟩ := Concord.Recast.car_cdr hD₁ later.le hv hv'
    have hform : enterForm Host.none env expr tail D₁.left = f.enter env (D₁.left.heap.cdr expr) tail D₁.left :=
      enterForm_eq_form Host.none (hD₁.left.specialForm?_eq later.le.left hv hf)
    have hform' : enterForm Host.none env' expr' tail' D₁.right =
        f.enter env' (D₁.right.heap.cdr expr') tail' D₁.right :=
      enterForm_eq_form Host.none (hD₁.right.specialForm?_eq later.le.right hv' hf')
    rw [hcdr] at hform
    rw [hcdr'] at hform'
    refine .of_eq (.refl D₁) hform hform' (fun _ => id) (fun _ => id) ?_
    exact (Both.standardForm hn f hD₁ (hfailing.trans hgo) (henv.mono later.le)
      (Concord.Recast.mono hargs later.le)).weaken le_rfl fun _ _ _ _ _ h => h.evaluates later hatop
  | call hv hv' hx hx' head hargs =>
    obtain ⟨hpair, hpair', -⟩ := Concord.Recast.car_cdr hD (.refl _) hv hv'
    refine .entered (m := 0) hD hpair hpair' fun D₁ hD₁ later hatop hfailing => ?_
    exact .of_eq (.refl D₁) (enterForm_eq_call Host.none (hD₁.left.specialForm?_eq_none later.le.left hv hx))
      (enterForm_eq_call Host.none (hD₁.right.specialForm?_eq_none later.le.right hv' hx')) (fun _ => id) (fun _ => id)
      (.pure hD₁ (Duet.evaluates_call hn ha hD₁ later hatop (hfailing.trans hgo) (henv.mono later.le)
        (Concord.Recast.mono (.list (p := .exprs) trivial hv hv' head hargs) later.le)))
  | applied hv hargs hf hv' hplain hfunc hargs' hf' hsplit hbody =>
    exact .applied hn hD hgo henv hv hargs hf hv' hfunc hargs' hf' hsplit hbody

/-- Applications come to values that correspond. -/
theorem Evals.applies (hn : Evals n) (ha : Applies n) : Applies (n + 1) := by
  intro D func func' args args' ps ps' hD hf hargs
  obtain ⟨m, hm⟩ := Both.exists_enterApply hn ha hD hf hargs
  exact .start hD nofun nofun m fun D₁ hroom => (hm D₁ hroom).weaken le_rfl fun _ _ _ _ _ h =>
    h.base (hroom.later hD) (hroom.still hD)

/-- **Evaluations and applications of recast code come to values that correspond**, or last as long as one
    likes. -/
theorem evals_and_applies (n : Nat) : Evals n ∧ Applies n := by
  induction n with
  | zero => exact ⟨fun _ _ _ _ _ _ _ _ _ _ _ _ _ => .zero _ _ _, fun _ _ _ _ _ _ _ _ _ _ => .zero _ _ _⟩
  | succ n ih => exact ⟨ih.1.succ ih.2, ih.1.applies ih.2⟩

end LispMachine
