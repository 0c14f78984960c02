import LispMachine.Proofs.Recast.Built
import LispMachine.Proofs.Recast.Evaluation

/-!
# Source texts whose forms are recast

* `RecastText` -- two texts whose forms are recast, one after the other, up to the same end;
* `Both.read` -- **both sides read forms that correspond**, each in fresh cells of its own, or come to the
  end of the text, or to the same error;
* `Both.GoThrough` -- both sides go through the rest of the text (`GoThrough.of_recast`). The induction is on the
  forms;
* `Machine.Meets.exec` -- **the runs of recast texts come to values that correspond**, or last.
-/

namespace LispMachine

open Context Machine

/-- **Texts whose forms are recast**, one after the other. Both end with the same error, if any. -/
inductive RecastText : List Char → List Char → Prop where
  | done {src src' : List Char} (h : Datum.parse src = .ok (none, [])) (h' : Datum.parse src' = .ok (none, [])) :
      RecastText src src'
  | error {src src' : List Char} {e : ReadError} (h : Datum.parse src = .error e)
      (h' : Datum.parse src' = .error e) : RecastText src src'
  | form {src src' rest rest' : List Char} {d d' : Datum} (h : Datum.parse src = .ok (some d, rest))
      (h' : Datum.parse src' = .ok (some d', rest')) (hd : Datum.Recast .expr d d')
      (hrest : RecastText rest rest') : RecastText src src'

/-- Texts with the same end, or with next forms that are recast and something known of what follows them. -/
inductive NextForm (Q : List Char → List Char → Prop) (src src' : List Char) : Prop where
  | done (h : Datum.parse src = .ok (none, [])) (h' : Datum.parse src' = .ok (none, [])) : NextForm Q src src'
  | error {e : ReadError} (h : Datum.parse src = .error e) (h' : Datum.parse src' = .error e) : NextForm Q src src'
  | form {rest rest' : List Char} {d d' : Datum} (h : Datum.parse src = .ok (some d, rest))
      (h' : Datum.parse src' = .ok (some d', rest')) (hd : Datum.Recast .expr d d') (hrest : Q rest rest') :
      NextForm Q src src'

/-- What has been read on both sides. -/
inductive Concord.ReadAlike (K : Concord) (Q : List Char → List Char → Prop) :
    Except ReadError (Option Value) × List Char → Except ReadError (Option Value) × List Char → Prop where
  | done : K.ReadAlike Q (.ok none, []) (.ok none, [])
  | error (e : ReadError) (left left' : List Char) : K.ReadAlike Q (.error e, left) (.error e, left')
  | form {v v' : Value} {rest rest' : List Char} (hv : K.Recast .expr v v') (hrest : Q rest rest') :
      K.ReadAlike Q (.ok (some v), rest) (.ok (some v'), rest')

/-- The root stacks are those of `D`, with a slot on top. -/
structure Duet.Slot (D D' : Duet) (v v' : Value) : Prop where
  left : D'.left.heap.roots = D.left.heap.roots.push v
  right : D'.right.heap.roots = D.right.heap.roots.push v'

theorem Duet.Slot.still {D D₁ D₂ : Duet} {v v' : Value} (h : D.Slot D₁ v v') (still : D₁.Still D₂) :
    D.Slot D₂ v v' :=
  ⟨still.left.trans h.left, still.right.trans h.right⟩

theorem Duet.Slot.atop {D D₁ : Duet} {v v' : Value} (h : D.Slot D₁ v v') : D.Atop D₁ :=
  ⟨⟨#[v], h.left⟩, #[v'], h.right⟩

namespace Both

variable {D D₁ : Duet} {m n : Nat} {v v' w w' : Value} {src src' : List Char} {echo : Bool} {ps ps' : List Pending}
variable {α α' β β' : Type} {R : Duet → β → β' → Prop}

/-! ## 1. The next form -/

/-- **Forms that correspond are read on both sides**, or the texts have the same end. -/
theorem read {Q : List Char → List Char → Prop} (hD : D.Sound) (h : NextForm Q src src') :
    Both D (src.length * (2 * src.length + 2) + src'.length * (2 * src'.length + 2)) (Reader.read src)
      (Reader.read src') fun D₁ r r' => D₁.concord.ReadAlike Q r r' ∧ D.Calm D₁ := by
  refine of_serves ((Serves.read hD.left.strings hD.left.sound src).weaken (Nat.le_add_right _ _) fun _ _ => id)
    ((Serves.read hD.right.strings hD.right.sound src').weaken (Nat.le_add_left _ _) fun _ _ => id) ?_
  rintro r c r' c' hv hv' ⟨hscans, hroots, hr⟩ ⟨hscans', hroots', hr'⟩
  have calm : ∀ K, D.Calm ⟨K, c, c'⟩ := fun _ => ⟨⟨hroots, hroots'⟩, hscans.alters.rest.failing⟩
  cases h with
  | done h h' =>
    rw [h] at hr
    rw [h'] at hr'
    cases hr
    cases hr'
    obtain ⟨hD₁, later⟩ := hD.learn hscans hscans' hv hv'
    exact ⟨_, hD₁, later, .done, calm _⟩
  | error h h' =>
    rw [h] at hr
    rw [h'] at hr'
    cases hr
    cases hr'
    obtain ⟨hD₁, later⟩ := hD.learn hscans hscans' hv hv'
    exact ⟨_, hD₁, later, .error _ _ _, calm _⟩
  | form h h' hd hrest =>
    rw [h] at hr
    rw [h'] at hr'
    cases hr with
    | some hb hnodup hfresh =>
      cases hr' with
      | some hb' hnodup' hfresh' =>
        have hzip := Recasts.of_recast hd hb hb' .expr
        rw [add_zero] at hzip
        obtain ⟨K, hD₁, later, hform⟩ := hD.zip hscans hscans' hv hv' hzip hnodup hnodup' hfresh hfresh'
        exact ⟨K, hD₁, later, .form hform hrest, calm K⟩

/-- Each side is put in order. -/
theorem reset {f : Unit → Run β} {f' : Unit → Run β'} (hD : D.Sound)
    (hf : ∀ D₁, D₁.Sound → D.Later D₁ → D.Still D₁ → D₁.left.failing = false → Both D₁ n (f ()) (f' ()) R) :
    Both D n (Context.reset >>= f) (Context.reset >>= f') R := by
  have later : ∀ c c' : Context, c.heap = D.left.heap → c'.heap = D.right.heap → D.Later ⟨D.concord, c, c'⟩ :=
    fun _ _ hc hc' => ⟨.refl _, fun h hu => ⟨hc ▸ h, hu⟩, fun h hu => ⟨hc' ▸ h, hu⟩⟩
  refine after rfl rfl (fun _ => id) (fun _ => id) (later _ _ rfl rfl) (hf ⟨D.concord, _, _⟩ ?_ (later _ _ rfl rfl)
    ⟨rfl, rfl⟩ rfl)
  exact { hD with
    left := { hD.left with settled := rfl }
    right := { hD.right with settled := rfl }
    failing := rfl
    failure := rfl }

/-- The slot is set. -/
theorem setTop {f : Unit → Run β} {f' : Unit → Run β'} (hD₁ : D₁.Sound) (hslot : D.Slot D₁ v v') (w w' : Value)
    (hf : ∀ D₂, D₂.Sound → D₁.Later D₂ → D.Slot D₂ w w' → D₂.left.failing = D₁.left.failing →
      D₂.concord = D₁.concord → Both D₂ n (f ()) (f' ()) R) :
    Both D₁ n ((liftM (Heap.setRoot D.left.heap.roots.size w) : Run Unit) >>= f)
      ((liftM (Heap.setRoot D.right.heap.roots.size w') : Run Unit) >>= f') R := by
  have hset : ∀ (xs : Array Value) (u u' : Value), (xs.push u).setIfInBounds xs.size u' = xs.push u' :=
    fun xs u u' => by rw [Array.push_eq_append, Array.setIfInBounds_append_right le_rfl, Nat.sub_self]; rfl
  refine setRoot w w' (by rw [hslot.left, Array.size_push]; omega) (by rw [hslot.right, Array.size_push]; omega) ?_
  refine hf _ hD₁.withRoots (Duet.Later.refl D₁).withRoots ⟨?_, ?_⟩ rfl rfl
  · show D₁.left.heap.roots.setIfInBounds _ w = _
    rw [hslot.left, hset]
  · show D₁.right.heap.roots.setIfInBounds _ w' = _
    rw [hslot.right, hset]

/-! ## 2. Runs of source texts -/

/-- Both runs of source text end with the values in their slots. -/
theorem finishExec (hD₁ : D₁.Sound) (later : D.Later D₁) (hslot : D.Slot D₁ v v') (hv : D₁.concord.Rel v v') :
    Both D₁ 0 (finishExec D.left.heap.roots.size) (finishExec D.right.heap.roots.size)
      (Duet.Onto n ps ps' (D.Gives D.left.heap.roots D.right.heap.roots ps ps')) :=
  root (by rw [hslot.left, Array.getElem?_push_size]) (by rw [hslot.right, Array.getElem?_push_size])
    (unwind hslot.atop (pure hD₁.withRoots (Meets.mono (.done ⟨_, _, _, _, _, rfl, rfl, hD₁.withRoots,
      later.withRoots, rfl, rfl, hv⟩) le_rfl)))

/-- Both print the value of a form, or none. -/
theorem echoed {f : Unit → Run β} {f' : Unit → Run β'} (hD : D.Sound) (hv : D.concord.Rel v v') (echo : Bool)
    (hf : ∀ D₁, D₁.Sound → D.Later D₁ → D.Still D₁ → Both D₁ n (f ()) (f' ()) R) :
    Both D n
      (if (echo && !v.isNil) = true then do
        let r ← Context.write ((← LispMachine.observe (·.display v)) ++ "\n")
        f r
      else f ())
      (if (echo && !v'.isNil) = true then do
        let r ← Context.write ((← LispMachine.observe (·.display v')) ++ "\n")
        f' r
      else f' ()) R := by
  refine ite (by rw [hv.kindred.isNil_eq]) (fun _ => observe ?_) fun _ => hf D hD (.refl D) (.refl D)
  rw [hD.display_eq hv, ← Nat.zero_add n]
  exact (write hD _).bind fun D₁ _ _ hD₁ later h => hf D₁ hD₁ later h.2

/-- Both sides go on with the rest of the texts, whatever values are in their slots. -/
def GoThrough (D : Duet) (n : Nat) (echo : Bool) (ps ps' : List Pending) (src src' : List Char) : Prop :=
  ∃ m, ∀ D₁ v v', D₁.Sound → D.Later D₁ → D.Slot D₁ v v' → D₁.concord.Rel v v' →
    Both D₁ m (enterNextForm src D.left.heap.roots.size echo) (enterNextForm src' D.right.heap.roots.size echo)
      (Duet.Onto n ps ps' (D.Gives D.left.heap.roots D.right.heap.roots ps ps'))

/-- A form is evaluated on both sides, and both go on behind it. -/
theorem form (hn : Evals n) (hrest : GoThrough D n echo ps ps' src src') (hD₁ : D₁.Sound)
    (hgo : D₁.left.failing = false) (later : D.Later D₁) (hslot : D.Slot D₁ v v') (hw : D₁.concord.Recast .expr w w') :
    Both D₁ 0 (do
        let env ← LispMachine.observe Context.rootEnv
        Pure.pure (Next.eval env w false (.exec src D.left.heap.roots.size echo)))
      (do
        let env ← LispMachine.observe Context.rootEnv
        Pure.pure (Next.eval env w' false (.exec src' D.right.heap.roots.size echo)))
      (Duet.Onto n ps ps' (D.Gives D.left.heap.roots D.right.heap.roots ps ps')) := by
  obtain ⟨m, hrest⟩ := hrest
  refine observe (wait hn hD₁ hgo hD₁.rootEnv hw m fun D₂ u u' hD₂ later₂ still hu => ?_)
  have later₂ := later.trans later₂
  refine setTop hD₂ (hslot.still still) u u' fun D₃ hD₃ later₃ hslot₃ _ hK => ?_
  have later₃ := later₂.trans later₃
  have hu₃ : D₃.concord.Rel u u' := hK ▸ hu
  refine isFailing hD₃ (ite Iff.rfl (fun _ => (finishExec hD₃ later₃ hslot₃ hu₃).mono (Nat.zero_le m)) fun _ =>
    echoed hD₃ hu₃ echo fun D₄ hD₄ later₄ still₄ =>
      hrest D₄ u u' hD₄ (later₃.trans later₄) (hslot₃.still still₄) (hu₃.mono later₄.le))

/-- The next forms, and what follows them. -/
theorem GoThrough.next (hn : Evals n) (h : NextForm (GoThrough D n echo ps ps') src src') :
    GoThrough D n echo ps ps' src src' := by
  refine ⟨_, fun D₁ v v' hD₁ later hslot hv => reset hD₁ fun D₂ hD₂ later₂ still hgo =>
    (read hD₂ h).bind (m := 0) fun D₃ r r' hD₃ later₃ hq => ?_⟩
  obtain ⟨hr, calm⟩ := hq
  have later₃ := later₂.trans later₃
  have hslot₃ := hslot.still (still.trans calm.toStill)
  cases hr with
  | done => exact finishExec hD₃ (later.trans later₃) hslot₃ (hv.mono later₃.le)
  | error e left left' =>
    refine setTop hD₃ hslot₃ .nil .nil fun D₄ hD₄ later₄ hslot₄ _ _ => ?_
    refine (fail hD₄ e.message).bind (m := 0) fun D₅ _ _ hD₅ later₅ hq => ?_
    exact finishExec hD₅ (later.trans (later₃.trans (later₄.trans later₅))) (hslot₄.still hq.2.2.2) .nil
  | form hform hrest =>
    refine setTop hD₃ hslot₃ _ _ fun D₄ hD₄ later₄ hslot₄ hfailing hK => ?_
    exact form hn hrest hD₄ (hfailing.trans (calm.failing.trans hgo)) (later.trans (later₃.trans later₄)) hslot₄
      (hK ▸ hform)

/-- **Both sides go through recast texts.** -/
theorem GoThrough.of_recast (hn : Evals n) (h : RecastText src src') : GoThrough D n echo ps ps' src src' := by
  induction h with
  | done h h' => exact .next hn (.done h h')
  | error h h' => exact .next hn (.error h h')
  | form h h' hd _ ih => exact .next hn (.form h h' hd ih)

end Both

/-- **The runs of recast texts come to values that correspond**, or last as long as one likes. -/
theorem Machine.Meets.exec {D : Duet} {src src' : List Char} (hD : D.Sound) (h : RecastText src src') (echo : Bool)
    (n : Nat) (ps ps' : List Pending) :
    Meets n ⟨D.left, .exec src echo, ps⟩ ⟨D.right, .exec src' echo, ps'⟩
      (D.Gives D.left.heap.roots D.right.heap.roots ps ps') := by
  obtain ⟨m, hm⟩ := Both.GoThrough.of_recast (D := D) (evals_and_applies n).1 h
  refine Meets.mono (.start hD nofun nofun m fun D₁ hroom => ?_) (Nat.le_succ n)
  have still := hroom.still hD
  refine Both.pushRoot .nil .nil ?_
  rw [still.left, still.right]
  exact hm _ .nil .nil (hroom.sound hD).withRoots (hroom.later hD).withRoots ⟨rfl, rfl⟩ .nil

end LispMachine
