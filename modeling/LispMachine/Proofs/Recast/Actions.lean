import LispMachine.Proofs.Quiet.Frame
import LispMachine.Proofs.Recast.Duet

/-!
# Actions on two contexts with recast code

* `Both` -- **with enough cells in stock, two actions come to an end in contexts that agree**, or to a
  fault on either side. The rules are those of sequences;
* `Both.of_serves` -- what each side does by itself;
* `Both.cons`, `Both.func`, `Both.setCar`, `Both.setCdr` -- cells that correspond are made and written;
* `Both.fail`, `Both.prepend`, `Both.write` -- failures and output.
-/

namespace LispMachine

open Context

/-- A list whose pairs become code. -/
theorem Heap.Links.code {h : Heap} {L : Codebook} {v e : Value} {xs : List Value} {as : List Addr}
    (hl : h.Links v xs as e) (he : e = .nil)
    (hL : ∀ a x y, a ∈ as → h.content a = some (.pair x y) → L.pair a x y) : L.Lists v xs := by
  induction hl with
  | nil => exact he ▸ .nil
  | cons hcell _ ih =>
    exact .cons (hL _ _ _ List.mem_cons_self (Heap.content_pair.mpr hcell))
      (ih he fun a x y ha => hL a x y (List.mem_cons_of_mem _ ha))

/-! ## 1. Sequences -/

/-- Two actions from contexts that agree have ended alike, and so many cells are left. -/
inductive Duet.Ends {α α' : Type} (D : Duet) (k : Nat) (Q : Duet → α → α' → Prop) :
    EStateM.Result Fault Context α → EStateM.Result Fault Context α' → Prop where
  | ok {K : Concord} {c c' : Context} {a : α} {a' : α'} (sound : Duet.Sound ⟨K, c, c'⟩)
      (later : D.Later ⟨K, c, c'⟩) (hs : c.heap.Stocked k) (hs' : c'.heap.Stocked k) (hq : Q ⟨K, c, c'⟩ a a') :
      Ends D k Q (.ok a c) (.ok a' c')
  | fault {e e' : Fault} {c c' : Context} (he : e ≠ .heapExhausted) (he' : e' ≠ .heapExhausted) :
      Ends D k Q (.error e c) (.error e' c')

/-- **With `n` cells in stock on each side, two actions end alike**, and take no more than these. -/
def Both {α α' : Type} (D : Duet) (n : Nat) (x : Run α) (x' : Run α') (Q : Duet → α → α' → Prop) : Prop :=
  ∀ k, D.left.heap.Stocked (n + k) → D.right.heap.Stocked (n + k) → D.Ends k Q (x D.left) (x' D.right)

/-- The root stacks are what they were, with more on top. -/
structure Duet.Atop (D D' : Duet) : Prop where
  left : ∃ xs, D'.left.heap.roots = D.left.heap.roots ++ xs
  right : ∃ xs, D'.right.heap.roots = D.right.heap.roots ++ xs

/-- The same contexts with other root stacks. -/
def Duet.withRoots (D : Duet) (roots roots' : Array Value) : Duet :=
  ⟨D.concord, D.left.withRoots roots, D.right.withRoots roots'⟩

section Roots

variable {D D' : Duet} {roots roots' : Array Value}

theorem Side.withRoots {L : Codebook} {c : Context} (h : Side L c) (roots : Array Value) :
    Side L (c.withRoots roots) :=
  { h with valid := h.valid.withRoots roots }

theorem Duet.Sound.withRoots (hD : D.Sound) : (D.withRoots roots roots').Sound :=
  { hD with
    left := hD.left.withRoots roots
    right := hD.right.withRoots roots' }

theorem Duet.Later.withRoots (h : D.Later D') : D.Later (D'.withRoots roots roots') := ⟨h.le, h.left, h.right⟩

theorem Duet.Atop.refl (D : Duet) : D.Atop D := ⟨⟨#[], by simp⟩, #[], by simp⟩

theorem Duet.Atop.still {D'' : Duet} (h : D.Atop D') (still : D'.Still D'') : D.Atop D'' :=
  ⟨still.left ▸ h.left, still.right ▸ h.right⟩

theorem Duet.Atop.push (h : D.Atop D') (v v' : Value) :
    D.Atop (D'.withRoots (D'.left.heap.roots.push v) (D'.right.heap.roots.push v')) := by
  obtain ⟨⟨xs, hl⟩, ys, hr⟩ := h
  refine ⟨⟨xs.push v, ?_⟩, ys.push v', ?_⟩
  · show D'.left.heap.roots.push v = _
    rw [hl, Array.append_push]
  · show D'.right.heap.roots.push v' = _
    rw [hr, Array.append_push]

/-- A slot above is set. -/
theorem Duet.Atop.set (h : D.Atop D') {slot slot' : Nat} (hslot : D.left.heap.roots.size ≤ slot)
    (hslot' : D.right.heap.roots.size ≤ slot') (v v' : Value) :
    D.Atop (D'.withRoots (D'.left.heap.roots.setIfInBounds slot v) (D'.right.heap.roots.setIfInBounds slot' v')) := by
  obtain ⟨⟨xs, hl⟩, ys, hr⟩ := h
  refine ⟨⟨xs.setIfInBounds (slot - D.left.heap.roots.size) v, ?_⟩,
    ys.setIfInBounds (slot' - D.right.heap.roots.size) v', ?_⟩
  · show D'.left.heap.roots.setIfInBounds slot v = _
    rw [hl, Array.setIfInBounds_append_right hslot]
  · show D'.right.heap.roots.setIfInBounds slot' v' = _
    rw [hr, Array.setIfInBounds_append_right hslot']

theorem Heap.Stocked.withRoots {c : Context} {n : Nat} (hs : c.heap.Stocked n) (roots : Array Value) :
    (c.withRoots roots).heap.Stocked n := by
  obtain ⟨taken, hkept, hle⟩ := hs
  exact ⟨taken, hkept.congr hkept.valid.pins_nodup, hle⟩

end Roots

namespace Both

variable {α α' β β' : Type} {D D' : Duet} {m n : Nat} {x : Run α} {x' : Run α'} {f : α → Run β}
variable {f' : α' → Run β'} {P Q : Duet → α → α' → Prop} {R : Duet → β → β' → Prop}

theorem pure {a : α} {a' : α'} (hD : D.Sound) (hq : Q D a a') :
    Both D 0 (Pure.pure a) (Pure.pure a') Q := fun k hs hs' =>
  .ok hD (.refl D) (Nat.zero_add k ▸ hs) (Nat.zero_add k ▸ hs') hq

/-- **Sequences.** -/
theorem bind (hx : Both D n x x' P)
    (hf : ∀ D' a a', D'.Sound → D.Later D' → P D' a a' → Both D' m (f a) (f' a') R) :
    Both D (n + m) (x >>= f) (x' >>= f') R := by
  intro k hs hs'
  have hx := hx (m + k) (Nat.add_assoc n m k ▸ hs) (Nat.add_assoc n m k ▸ hs')
  generalize hr : x D.left = r at hx
  generalize hr' : x' D.right = r' at hx
  cases hx with
  | ok sound later hs hs' hq =>
    rw [run_bind hr, run_bind hr']
    have hrest := hf _ _ _ sound later hq k hs hs'
    dsimp only at hrest
    generalize f _ _ = r at hrest
    generalize f' _ _ = r' at hrest
    cases hrest with
    | ok sound' later' hs hs' hr => exact .ok sound' (later.trans later') hs hs' hr
    | fault he he' => exact .fault he he'
  | fault he he' =>
    rw [run_bind_error hr, run_bind_error hr']
    exact .fault he he'

theorem weaken (hx : Both D m x x' P) (hmn : m ≤ n)
    (h : ∀ D' a a', D'.Sound → D.Later D' → P D' a a' → Q D' a a') : Both D n x x' Q := by
  intro k hs hs'
  have hx := hx k (hs.le (Nat.add_le_add_right hmn k)) (hs'.le (Nat.add_le_add_right hmn k))
  generalize x D.left = r at hx
  generalize x' D.right = r' at hx
  cases hx with
  | ok sound later hs hs' hq => exact .ok sound later hs hs' (h _ _ _ sound later hq)
  | fault he he' => exact .fault he he'

theorem mono (hx : Both D m x x' P) (hmn : m ≤ n) : Both D n x x' P := hx.weaken hmn fun _ _ _ _ _ => id

theorem look {g : Heap → α} {g' : Heap → α'} (h : Both D n (f (g D.left.heap)) (f' (g' D.right.heap)) R) :
    Both D n (Context.look g >>= f) (Context.look g' >>= f') R := h

theorem observe {g : Context → α} {g' : Context → α'} (h : Both D n (f (g D.left)) (f' (g' D.right)) R) :
    Both D n (LispMachine.observe g >>= f) (LispMachine.observe g' >>= f') R := h

theorem throw {e e' : Fault} (he : e ≠ .heapExhausted) (he' : e' ≠ .heapExhausted) :
    Both D n (MonadExcept.throw e : Run α) (MonadExcept.throw e' : Run α') Q := fun _ _ _ => .fault he he'

theorem ite {p p' : Prop} [Decidable p] [Decidable p'] {y : Run α} {y' : Run α'} (hp : p ↔ p')
    (hx : p → Both D n x x' Q) (hy : ¬ p → Both D n y y' Q) :
    Both D n (if p then x else y) (if p' then x' else y') Q := by
  by_cases h : p
  · rw [if_pos h, if_pos (hp.mp h)]
    exact hx h
  · rw [if_neg h, if_neg fun e => h (hp.mpr e)]
    exact hy h

theorem isFailing {f : Bool → Run β} {f' : Bool → Run β'} (hD : D.Sound)
    (h : Both D n (f D.left.failing) (f' D.left.failing) R) :
    Both D n (Context.isFailing >>= f) (Context.isFailing >>= f') R := by
  have hrun : Both D n (Context.isFailing >>= f) (Context.isFailing >>= f') R ↔
      Both D n (f D.left.failing) (f' D.right.failing) R := Iff.rfl
  rw [hrun, ← hD.failing]
  exact h

/-- **Each side by itself.** -/
theorem of_serves {P : α → Context → Prop} {P' : α' → Context → Prop} (hx : Serves n x D.left P)
    (hx' : Serves n x' D.right P') (h : ∀ a c a' c', c.heap.Valid → c'.heap.Valid → P a c → P' a' c' →
      ∃ K, Duet.Sound ⟨K, c, c'⟩ ∧ D.Later ⟨K, c, c'⟩ ∧ Q ⟨K, c, c'⟩ a a') : Both D n x x' Q := by
  intro k hs hs'
  obtain ⟨a, c, hrun, hs, hp⟩ := hx k hs
  obtain ⟨a', c', hrun', hs', hp'⟩ := hx' k hs'
  obtain ⟨_, hkept, -⟩ := id hs
  obtain ⟨_, hkept', -⟩ := id hs'
  obtain ⟨K, sound, later, hq⟩ := h a c a' c' hkept.valid hkept'.valid hp hp'
  rw [hrun, hrun']
  exact .ok sound later hs hs' hq

/-- Actions that come to an end without a cell, and what follows. -/
theorem after {a : α} {a' : α'} {c c' : Context} (hrun : x D.left = .ok a c) (hrun' : x' D.right = .ok a' c')
    (hs : ∀ k, D.left.heap.Stocked k → c.heap.Stocked k) (hs' : ∀ k, D.right.heap.Stocked k → c'.heap.Stocked k)
    (later : D.Later ⟨D.concord, c, c'⟩) (hf : Both ⟨D.concord, c, c'⟩ n (f a) (f' a') R) :
    Both D n (x >>= f) (x' >>= f') R := by
  intro k hk hk'
  have hf := hf k (hs _ hk) (hs' _ hk')
  rw [run_bind hrun, run_bind hrun']
  dsimp only at hf
  generalize f a c = r at hf
  generalize f' a' c' = r' at hf
  cases hf with
  | ok sound later' hs hs' hq => exact .ok sound (later.trans later') hs hs' hq
  | fault he he' => exact .fault he he'

/-- What is running, and how deep, is no concern of what corresponds. -/
theorem aside {g g' : Context → Context} {f : Unit → Run β} {f' : Unit → Run β'}
    (hg : ∀ c, ∃ current depth peak, g c = { c with current := current, depth := depth, peakDepth := peak })
    (hg' : ∀ c, ∃ current depth peak, g' c = { c with current := current, depth := depth, peakDepth := peak })
    (hD : D.Sound)
    (hf : ∀ D', D'.Sound → D.Later D' → D.Calm D' → D'.concord = D.concord → D'.left.heap = D.left.heap →
      D'.right.heap = D.right.heap → Both D' n (f ()) (f' ()) R) :
    Both D n ((modify g : Run Unit) >>= f) ((modify g' : Run Unit) >>= f') R := by
  obtain ⟨current, depth, peak, hc⟩ := hg D.left
  obtain ⟨current', depth', peak', hc'⟩ := hg' D.right
  have hheap : (g D.left).heap = D.left.heap := by rw [hc]
  have hheap' : (g' D.right).heap = D.right.heap := by rw [hc']
  have later : D.Later ⟨D.concord, g D.left, g' D.right⟩ := by
    rw [hc, hc']
    exact ⟨.refl _, fun h hu => ⟨h, hu⟩, fun h hu => ⟨h, hu⟩⟩
  refine after rfl rfl (fun k hs => hheap ▸ hs) (fun k hs => hheap' ▸ hs) later
    (hf _ ?_ later ⟨⟨congrArg Heap.roots hheap, congrArg Heap.roots hheap'⟩, ?_⟩ rfl hheap hheap')
  · rw [hc, hc']
    exact { hD with left := { hD.left with }, right := { hD.right with } }
  · show (g D.left).failing = _
    rw [hc]

/-! ### Roots -/

theorem rooting {a : α} {a' : α'} {roots roots' : Array Value} (hrun : x D.left = .ok a (D.left.withRoots roots))
    (hrun' : x' D.right = .ok a' (D.right.withRoots roots'))
    (hf : Both (D.withRoots roots roots') n (f a) (f' a') R) : Both D n (x >>= f) (x' >>= f') R :=
  after hrun hrun' (fun _ hs => hs.withRoots _) (fun _ hs => hs.withRoots _) (Duet.Later.refl D).withRoots hf

theorem rootBase {f : Nat → Run β} {f' : Nat → Run β'}
    (h : Both D n (f D.left.heap.roots.size) (f' D.right.heap.roots.size) R) :
    Both D n ((liftM Heap.rootBase : Run Nat) >>= f) ((liftM Heap.rootBase : Run Nat) >>= f') R := h

theorem pushRoot {f : Nat → Run β} {f' : Nat → Run β'} (v v' : Value)
    (hf : Both (D.withRoots (D.left.heap.roots.push v) (D.right.heap.roots.push v')) n
      (f D.left.heap.roots.size) (f' D.right.heap.roots.size) R) :
    Both D n ((liftM (Heap.pushRoot v) : Run Nat) >>= f) ((liftM (Heap.pushRoot v') : Run Nat) >>= f') R :=
  rooting rfl rfl hf

theorem root {f : Value → Run β} {f' : Value → Run β'} {slot slot' : Nat} {v v' : Value}
    (hroot : D.left.heap.roots[slot]? = some v) (hroot' : D.right.heap.roots[slot']? = some v')
    (hf : Both D n (f v) (f' v') R) :
    Both D n ((liftM (Heap.root slot) : Run Value) >>= f) ((liftM (Heap.root slot') : Run Value) >>= f') R := by
  refine after ?_ ?_ (fun _ => id) (fun _ => id) (.refl D) hf
  · show onHeap (Heap.root slot) D.left = _
    rw [onHeap, Heap.root, hroot]
  · show onHeap (Heap.root slot') D.right = _
    rw [onHeap, Heap.root, hroot']

theorem setRoot {f : Unit → Run β} {f' : Unit → Run β'} {slot slot' : Nat} (v v' : Value)
    (hslot : slot < D.left.heap.roots.size) (hslot' : slot' < D.right.heap.roots.size)
    (hf : Both (D.withRoots (D.left.heap.roots.setIfInBounds slot v)
      (D.right.heap.roots.setIfInBounds slot' v')) n (f ()) (f' ()) R) :
    Both D n ((liftM (Heap.setRoot slot v) : Run Unit) >>= f)
      ((liftM (Heap.setRoot slot' v') : Run Unit) >>= f') R := by
  refine rooting ?_ ?_ hf
  · show onHeap (Heap.setRoot slot v) D.left = _
    rw [onHeap, Heap.setRoot_eq_ok.mpr ⟨hslot, rfl⟩]
    rfl
  · show onHeap (Heap.setRoot slot' v') D.right = _
    rw [onHeap, Heap.setRoot_eq_ok.mpr ⟨hslot', rfl⟩]
    rfl

theorem popRoots {f : Unit → Run β} {f' : Unit → Run β'} {base base' : Nat}
    (hbase : base ≤ D.left.heap.roots.size) (hbase' : base' ≤ D.right.heap.roots.size)
    (hf : Both (D.withRoots (D.left.heap.roots.shrink base) (D.right.heap.roots.shrink base')) n (f ()) (f' ()) R) :
    Both D n ((liftM (Heap.popRoots base) : Run Unit) >>= f)
      ((liftM (Heap.popRoots base') : Run Unit) >>= f') R := by
  refine rooting ?_ ?_ hf
  · show onHeap (Heap.popRoots base) D.left = _
    rw [onHeap, Heap.popRoots_eq_ok.mpr ⟨hbase, rfl⟩]
    rfl
  · show onHeap (Heap.popRoots base') D.right = _
    rw [onHeap, Heap.popRoots_eq_ok.mpr ⟨hbase', rfl⟩]
    rfl

/-- What has been pushed is dropped. -/
theorem unwind {D₀ : Duet} {f : Unit → Run β} {f' : Unit → Run β'} (h : D₀.Atop D)
    (hf : Both (D.withRoots D₀.left.heap.roots D₀.right.heap.roots) n (f ()) (f' ()) R) :
    Both D n ((liftM (Heap.popRoots D₀.left.heap.roots.size) : Run Unit) >>= f)
      ((liftM (Heap.popRoots D₀.right.heap.roots.size) : Run Unit) >>= f') R := by
  have hshrink : ∀ xs ys : Array Value, (xs ++ ys).shrink xs.size = xs := fun xs ys =>
    shrink_eq (by simp) fun _ hi => Array.getElem?_append_left hi
  obtain ⟨⟨xs, hl⟩, ys, hr⟩ := h
  refine popRoots (by rw [hl]; simp) (by rw [hr]; simp) ?_
  rw [hl, hr, hshrink, hshrink]
  exact hf

/-! ## 2. Cells -/

variable {v v' y y' w w' : Value}

/-- **Fresh pairs**, which correspond. -/
theorem cons (hD : D.Sound) (hw : D.concord.Rel w w') (hy : D.concord.Rel y y') :
    Both D 1 (liftM (Heap.cons w y) : Run Value) (liftM (Heap.cons w' y') : Run Value) fun D' v v' =>
      ∃ a b, v = .pair a ∧ v' = .pair b ∧ D'.concord.link a b ∧ D.Calm D' := by
  refine of_serves (Serves.cons w y) (Serves.cons w' y') fun v c v' c' hv hv' h h' => ?_
  obtain ⟨a, rfl, ha⟩ := h
  obtain ⟨b, rfl, hb⟩ := h'
  have hfresh : D.left.heap.content a = none := ha.adds.fresh a (List.mem_singleton_self a)
  have hfresh' : D.right.heap.content b = none := hb.adds.fresh b (List.mem_singleton_self b)
  have sound : Duet.Sound ⟨D.concord, c, c'⟩ := hD.apart ha.adds.alters hb.adds.alters hv hv'
    (fun x hx => hD.unused_left (ha.adds.fresh x hx)) fun x hx => hD.unused_right (hb.adds.fresh x hx)
  have later : D.Later ⟨D.concord, c, c'⟩ := (Duet.Later.refl D).alter ha.adds.alters hb.adds.alters
    (fun x hx => .inl (ha.adds.fresh x hx)) fun x hx => .inl (hb.adds.fresh x hx)
  have hjoins : Duet.Joins ⟨D.concord, c, c'⟩ [(a, b)] [] [] :=
    { nodup_left := List.nodup_singleton a
      nodup_right := List.nodup_singleton b
      unused_left := fun x hx => List.mem_singleton.mp hx ▸ hD.unused_left hfresh
      unused_right := fun x hx => List.mem_singleton.mp hx ▸ hD.unused_right hfresh'
      cells := fun p hp => by
        obtain rfl := List.mem_singleton.mp hp
        have hle := Duet.le_joined ⟨D.concord, c, c'⟩ [(a, b)] [] []
        exact ⟨_, _, ha.holds, hb.holds, .pair (hw.mono hle) (hy.mono hle)⟩ }
  exact ⟨_, sound.join hjoins, later.join (fun x hx => List.mem_singleton.mp hx ▸ hfresh)
    fun x hx => List.mem_singleton.mp hx ▸ hfresh', a, b, rfl, rfl, .inr (List.mem_singleton_self _),
    ⟨ha.roots, hb.roots⟩, ha.adds.alters.rest.failing⟩

/-- A cell is written on each side. -/
theorem modifyCell {a b : Addr} {t t' : Cell → Cell} {g g' : HeapM Unit} (op op' : Heap.Operation) (hD : D.Sound)
    (h : D.concord.link a b) (ht : ∀ x, (t x).isAllocated = x.isAllocated)
    (ht' : ∀ x, (t' x).isAllocated = x.isAllocated)
    (hcontent : ∀ x x', D.concord.Content x x' → D.concord.Content (t x) (t' x')) (hbirths : op.births = 0)
    (hbirths' : op'.births = 0)
    (hop : op.perform D.left.heap = .ok () { D.left.heap with cells := D.left.heap.cells.modify a t })
    (hop' : op'.perform D.right.heap = .ok () { D.right.heap with cells := D.right.heap.cells.modify b t' })
    (hg : g D.left.heap = op.perform D.left.heap) (hg' : g' D.right.heap = op'.perform D.right.heap) :
    Both D 0 (liftM g : Run Unit) (liftM g' : Run Unit) fun D' _ _ =>
      D'.concord = D.concord ∧ D.Calm D' := by
  have hleft : Serves 0 (liftM g >>= Pure.pure) D.left fun _ d =>
      d = { D.left with heap := { D.left.heap with cells := D.left.heap.cells.modify a t } } :=
    Serves.operation op hbirths hop (hg.trans hop) (.pure rfl)
  have hright : Serves 0 (liftM g' >>= Pure.pure) D.right fun _ d =>
      d = { D.right with heap := { D.right.heap with cells := D.right.heap.cells.modify b t' } } :=
    Serves.operation op' hbirths' hop' (hg'.trans hop') (.pure rfl)
  rw [bind_pure] at hleft hright
  obtain ⟨x, x', hx, hx', hc⟩ := hD.cells h
  refine of_serves hleft hright ?_
  rintro _ c _ c' hv hv' rfl rfl
  have hl := Context.Alters.modify D.left a ht
  have hr := Context.Alters.modify D.right b ht'
  have hx₁ : ({ D.left.heap with cells := D.left.heap.cells.modify a t } : Heap).content a = some (t x) := by
    rw [Heap.content_modify ht, if_pos rfl, hx]
    rfl
  have hx₁' : ({ D.right.heap with cells := D.right.heap.cells.modify b t' } : Heap).content b =
      some (t' x') := by
    rw [Heap.content_modify ht', if_pos rfl, hx']
    rfl
  exact ⟨D.concord, hD.write h hl hr hv hv' hx₁ hx₁' (hcontent x x' hc),
    (Duet.Later.refl D).alter hl hr (fun _ hx => .inr (hx ▸ .inl ⟨b, h⟩)) fun _ hx => .inr (hx ▸ .inl ⟨a, h⟩),
    rfl, ⟨rfl, rfl⟩, rfl⟩

/-- **The rest slots of corresponding values are written**, or those of none. -/
theorem setCdr (hD : D.Sound) (hv : D.concord.Rel v v') (hy : D.concord.Rel y y') :
    Both D 0 (liftM (Heap.setCdr v y) : Run Unit) (liftM (Heap.setCdr v' y') : Run Unit) fun D' _ _ =>
      D'.concord = D.concord ∧ D.Calm D' := by
  cases hv with
  | @pair a b h =>
    refine modifyCell (.setCdr (.pair a) y) (.setCdr (.pair b) y') hD h (fun x => by cases x <;> rfl)
      (fun x => by cases x <;> rfl) (fun x x' hc => ?_) rfl rfl rfl rfl rfl rfl
    cases hc with
    | pair first _ => exact .pair first hy
    | text bytes => exact .text bytes
    | native hp => exact .native hp
    | closure hl hr hparts => exact .closure hl hr hparts
  | _ => exact fun _ _ _ => .fault nofun nofun

/-- **The first slots of corresponding values are written**, or those of none. -/
theorem setCar (hD : D.Sound) (hv : D.concord.Rel v v') (hy : D.concord.Rel y y') :
    Both D 0 (liftM (Heap.setCar v y) : Run Unit) (liftM (Heap.setCar v' y') : Run Unit) fun D' _ _ =>
      D'.concord = D.concord ∧ D.Calm D' := by
  cases hv with
  | @pair a b h =>
    refine modifyCell (.setCar (.pair a) y) (.setCar (.pair b) y') hD h (fun x => by cases x <;> rfl)
      (fun x => by cases x <;> rfl) (fun x x' hc => ?_) rfl rfl rfl rfl rfl rfl
    cases hc with
    | pair _ rest => exact .pair hy rest
    | text bytes => exact .text bytes
    | native hp => exact .native hp
    | closure hl hr hparts => exact .closure hl hr hparts
  | _ => exact fun _ _ _ => .fault nofun nofun

/-- **Fresh functions**, which correspond if their parts do. -/
theorem func {env env' params params' body body' name name' : Value} (hD : D.Sound)
    (h : D.concord.Parts ⟨env, params, body, name⟩ ⟨env', params', body', name'⟩) :
    Both D 5 (Context.func env params body name) (Context.func env' params' body' name') fun D' v v' =>
      D'.concord.Rel v v' ∧ D.Still D' := by
  refine of_serves (Serves.func hD.left.funcs env params body name)
    (Serves.func hD.right.funcs env' params' body' name') fun v c v' c' hv hv' hp hp' => ?_
  obtain ⟨o, parts, as, rfl, ho, hl, hroots, hadds⟩ := hp
  obtain ⟨o', parts', as', rfl, ho', hl', hroots', hadds'⟩ := hp'
  have sound : Duet.Sound ⟨D.concord, c, c'⟩ := hD.apart hadds.alters hadds'.alters hv hv'
    (fun x hx => hD.unused_left (hadds.fresh x hx)) fun x hx => hD.unused_right (hadds'.fresh x hx)
  have later : D.Later ⟨D.concord, c, c'⟩ := (Duet.Later.refl D).alter hadds.alters hadds'.alters
    (fun x hx => .inl (hadds.fresh x hx)) fun x hx => .inl (hadds'.fresh x hx)
  have hle := Duet.le_joined ⟨D.concord, c, c'⟩ [(o, o')] as as'
  have hparts : (Duet.joined ⟨D.concord, c, c'⟩ [(o, o')] as as').left.Lists parts [env, params, body, name] :=
    hl.code rfl fun _ _ _ ha hx => .inr ⟨ha, hx⟩
  have hparts' : (Duet.joined ⟨D.concord, c, c'⟩ [(o, o')] as as').right.Lists parts'
      [env', params', body', name'] := hl'.code rfl fun _ _ _ ha hx => .inr ⟨ha, hx⟩
  have hjoins : Duet.Joins ⟨D.concord, c, c'⟩ [(o, o')] as as' :=
    { nodup_left := hadds.nodup
      nodup_right := hadds'.nodup
      unused_left := fun x hx => hD.unused_left (hadds.fresh x hx)
      unused_right := fun x hx => hD.unused_right (hadds'.fresh x hx)
      cells := fun p hp => by
        obtain rfl := List.mem_singleton.mp hp
        exact ⟨_, _, ho, ho', .closure hparts hparts' (h.mono hle)⟩ }
  exact ⟨_, sound.join hjoins, later.join hadds.fresh hadds'.fresh, .object (.inr (List.mem_singleton_self _)),
    ⟨hroots, hroots'⟩⟩

/-! ## 3. Failure and output -/

/-- **Both sides fail with the same message.** -/
theorem fail (hD : D.Sound) (message : String) :
    Both D 0 (Context.fail message) (Context.fail message) fun D' v v' => v = .nil ∧ v' = .nil ∧
      D'.concord = D.concord ∧ D.Still D' := by
  intro k hs hs'
  have hrun : ∀ c : Context, Context.fail message c = .ok .nil (if c.failing then c else
      { c with failing := true, failure := Text.clip failureCap message }) := fun c => by
    show EStateM.Result.ok _ _ = _
    cases c.failing <;> rfl
  rw [Nat.zero_add] at hs hs'
  rw [hrun, hrun, ← hD.failing]
  by_cases hf : D.left.failing = true
  · rw [if_pos hf, if_pos hf]
    exact .ok (K := D.concord) hD (.refl D) hs hs' ⟨rfl, rfl, rfl, .refl D⟩
  · rw [if_neg hf, if_neg hf]
    refine .ok (K := D.concord) ?_ ⟨.refl _, fun h hu => ⟨h, hu⟩, fun h hu => ⟨h, hu⟩⟩ hs hs' ⟨rfl, rfl, rfl, rfl, rfl⟩
    exact { hD with left := { hD.left with }, right := { hD.right with }, failing := rfl, failure := rfl }

theorem failNext (hD : D.Sound) (message : String) :
    Both D 0 (Context.failNext message) (Context.failNext message) fun D' next next' =>
      next = .give .nil ∧ next' = .give .nil ∧ D.Still D' :=
  (fail hD message).bind (m := 0) fun D' v v' hD' _ hq => by
    obtain ⟨rfl, rfl, -, hstill⟩ := hq
    exact pure hD' ⟨rfl, rfl, hstill⟩

/-- **Both sides put the same line in front of the message.** -/
theorem prepend (hD : D.Sound) (line : String) :
    Both D 0 (Context.prepend line) (Context.prepend line) fun D' _ _ => D'.concord = D.concord ∧ D.Still D' := by
  intro k hs hs'
  rw [Nat.zero_add] at hs hs'
  have hrun : ∀ c : Context, Context.prepend line c = .ok ()
      (if line.utf8ByteSize + c.failure.utf8ByteSize ≤ failureCap then { c with failure := line ++ c.failure }
        else c) := fun _ => rfl
  rw [hrun, hrun, ← hD.failure]
  by_cases hle : line.utf8ByteSize + D.left.failure.utf8ByteSize ≤ failureCap
  · rw [if_pos hle, if_pos hle]
    refine .ok (K := D.concord) ?_ ⟨.refl _, fun h hu => ⟨h, hu⟩, fun h hu => ⟨h, hu⟩⟩ hs hs' ⟨rfl, rfl, rfl⟩
    exact { hD with left := { hD.left with }, right := { hD.right with }, failure := rfl }
  · rw [if_neg hle, if_neg hle]
    exact .ok (K := D.concord) hD (.refl D) hs hs' ⟨rfl, .refl D⟩

/-- **Both sides print the same.** -/
theorem write (hD : D.Sound) (out : String) :
    Both D 0 (Context.write out) (Context.write out) fun D' _ _ => D'.concord = D.concord ∧ D.Still D' := by
  intro k hs hs'
  rw [Nat.zero_add] at hs hs'
  refine .ok (K := D.concord) ?_ ⟨.refl _, fun h hu => ⟨h, hu⟩, fun h hu => ⟨h, hu⟩⟩ hs hs' ⟨rfl, rfl, rfl⟩
  exact { hD with
    left := { hD.left with }
    right := { hD.right with }
    output := congrArg (· ++ out) hD.output }

/-- A truth value. -/
theorem ofBool {b b' : Bool} {f : Value → Run β} {f' : Value → Run β'} (hb : b = b') (hD : D.Sound)
    (h : ∀ v v', D.concord.Rel v v' → Both D n (f v) (f' v') R) :
    Both D n (Context.ofBool b >>= f) (Context.ofBool b' >>= f') R := by
  subst hb
  refine after (a := if b then D.left.truth else .nil) rfl rfl
    (fun _ => id) (fun _ => id) (.refl D) (h _ _ ?_)
  cases b with
  | true => exact hD.truth
  | false => exact .nil

end Both

end LispMachine
