import LispMachine.Proofs.Recast.Frames
import LispMachine.Proofs.Twin.Natives

/-!
# The natives, in contexts with recast code

* `Duet.Hands` -- a value is handed back on both sides, or a function is applied;
* `Both.primitive` -- **a primitive does the same on both sides**;
* `Both.enterNative` -- its arguments are laid out alike before.
-/

namespace LispMachine

open Context

variable {D : Duet} {v v' w w' rest rest' : Value} {spine spine' : Spine}

/-- **Values that correspond are handed back**, or functions are applied that do. -/
inductive Duet.Hands (D D' : Duet) : Next → Next → Prop where
  | give {v v' : Value} (still : D.Still D') (h : D'.concord.Rel v v') : Hands D D' (.give v) (.give v')
  | apply {func func' args args' : Value} (still : D.Still D') (hf : D'.concord.Rel func func')
      (ha : D'.concord.Rel args args') :
      Hands D D' { task := .apply func args } { task := .apply func' args' }

theorem Duet.Hands.trans {D₁ D₂ : Duet} {next next' : Next} (still : D.Still D₁) (h : D₁.Hands D₂ next next') :
    D.Hands D₂ next next' := by
  cases h with
  | give s h => exact .give (still.trans s) h
  | apply s hf ha => exact .apply (still.trans s) hf ha

namespace Both

/-! ## 1. Walks and checks -/

theorem give (hD : D.Sound) (hv : D.concord.Rel v v') :
    Both D 0 (Pure.pure (Next.give v)) (Pure.pure (Next.give v')) D.Hands :=
  pure hD (.give (.refl D) hv)

/-- An action and what hands on its result. -/
theorem then_hands {α α' : Type} {x : Run α} {x' : Run α'} {f : α → Run Next} {f' : α' → Run Next}
    {P : Duet → α → α' → Prop} {m : Nat} (hx : Both D m x x' fun D' a a' => D.Still D' ∧ P D' a a')
    (hf : ∀ D' a a', D'.Sound → D.concord.Le D'.concord → P D' a a' → Both D' 0 (f a) (f' a') D'.Hands) :
    Both D m (x >>= f) (x' >>= f') D.Hands :=
  hx.bind (m := 0) fun D' a a' hD' later hq =>
    (hf D' a a' hD' later.le hq.2).weaken le_rfl fun _ _ _ _ _ h => h.trans hq.1

theorem failHands (hD : D.Sound) (message : String) :
    Both D 0 (Context.failNext message) (Context.failNext message) D.Hands :=
  (failNext hD message).weaken le_rfl fun _ _ _ _ _ hq => by
    obtain ⟨rfl, rfl, still⟩ := hq
    exact .give still .nil

/-- A check that fails. -/
theorem failNone {α α' : Type} (hD : D.Sound) (message : String) {P : Duet → Option α → Option α' → Prop}
    (hP : ∀ D', P D' none none) :
    Both D 0 (Context.fail message >>= fun _ => Pure.pure none) (Context.fail message >>= fun _ => Pure.pure none)
      fun D' o o' => D.Still D' ∧ P D' o o' :=
  (fail hD message).bind (m := 0) fun D' _ _ hD' _ hq => pure hD' ⟨hq.2.2.2, hP D'⟩

theorem int? (hD : D.Sound) (name : String) (position : Nat) (hv : D.concord.Rel v v') :
    Both D 0 (Native.int? name position v) (Native.int? name position v')
      fun D' o o' => D.Still D' ∧ o' = o := by
  cases hv with
  | int k => exact pure hD ⟨.refl D, rfl⟩
  | _ => exact failNone hD _ fun _ => rfl

theorem isPair (hD : D.Sound) (name : String) (position : Nat) (hv : D.concord.Rel v v') :
    Both D 0 (Native.isPair name position v) (Native.isPair name position v')
      fun D' b b' => D.Still D' ∧ b' = b := by
  rw [Native.isPair, Native.isPair]
  refine ite (by rw [hv.kindred.isPair_eq]) (fun _ => pure hD ⟨.refl D, rfl⟩) fun _ => ?_
  exact (fail hD _).bind (m := 0) fun D' _ _ hD' _ hq => pure hD' ⟨hq.2.2.2, rfl⟩

theorem length? (hD : D.Sound) (name : String) (position : Nat) (hv : D.concord.Rel v v') :
    Both D 0 (Native.length? name position v) (Native.length? name position v')
      fun D' o o' => D.Still D' ∧ o' = o := by
  rw [Native.length?, Native.length?]
  refine look ?_
  rw [← hD.similar.count_eq hv]
  cases D.left.heap.count v with
  | list length => exact pure hD ⟨.refl D, rfl⟩
  | improper => exact failNone hD _ fun _ => rfl
  | circular => exact failNone hD _ fun _ => rfl
  | unfinished => exact throw (by decide) (by decide)

/-- A walk over integers comes to the same, unless the list does not end. -/
theorem walkInts {σ : Type} (hD : D.Sound) (hs : Spine.Similar D.concord.Rel spine spine') (name : String)
    (step : σ → Word → σ) (position : Nat) (acc : σ) :
    Both D 0 (Native.walkInts name step position acc spine.items)
      (Native.walkInts name step position acc spine'.items)
      fun D' o o' => D.Still D' ∧ o.isSome = o'.isSome ∧ (spine.ending ≠ .endless → o = o') := by
  have hfind := hs.findIdx?_eq (p := Native.isOther) fun _ _ h => congrArg (!·) h.kindred.isInt_eq
  cases hk : spine.items.findIdx? Native.isOther with
  | some k =>
    rw [Native.walkInts_other hk, Native.walkInts_other (hfind ▸ hk)]
    exact failNone hD _ fun _ => ⟨rfl, fun _ => rfl⟩
  | none =>
    obtain ⟨a, ha⟩ := Native.walkInts_ints name step position acc hk
    obtain ⟨a', ha'⟩ := Native.walkInts_ints name step position acc (hfind ▸ hk)
    rw [ha, ha']
    refine pure hD ⟨.refl D, rfl, fun hend => ?_⟩
    cases hs with
    | «at» hi _ =>
      rw [show _ = _ from Spine.ints_eq (fun _ _ h => h.kindred) hi hk] at ha'
      exact congrFun (ha.symm.trans ha') D.left |> fun h => by cases h; rfl
    | endless _ => exact absurd rfl hend

/-- A walk that does not end does not come to a result. -/
theorem finishWalk {α α' : Type} {r : α} {r' : α'} {R : Value → Value → Prop} {Q : Duet → α → α' → Prop}
    (hD : D.Sound) (hs : Spine.Similar R spine spine') (hr : spine.ending ≠ .endless → Q D r r') :
    Both D 0 (Native.finish spine r) (Native.finish spine' r') Q := by
  cases hs with
  | «at» _ _ => exact pure hD (hr nofun)
  | endless _ => exact throw (by decide) (by decide)

/-! ## 2. Integers -/

theorem foldRest (hD : D.Sound) (name : String) (op : Word → Word → Word) (position : Nat) (acc : Word)
    (hrest : D.concord.Rel rest rest') :
    Both D 0 (Native.foldRest name op position acc rest) (Native.foldRest name op position acc rest')
      D.Hands := by
  have hspine := hD.similar.spine hrest
  rw [Native.foldRest, Native.foldRest]
  refine look ?_
  rw [Native.foldInts_eq, Native.foldInts_eq]
  refine then_hands (walkInts hD hspine name op position acc) fun D₁ o o' hD₁ le hq => ?_
  obtain ⟨hsome, heq⟩ := hq
  cases o with
  | none =>
    cases o' with
    | none => exact give hD₁ .nil
    | some a' => cases hsome
  | some a =>
    cases o' with
    | none => cases hsome
    | some a' =>
      refine finishWalk hD₁ hspine fun hend => ?_
      cases heq hend
      exact .give (.refl D₁) (.int _)

theorem chainInts (hD : D.Sound) (hs : Spine.Similar D.concord.Rel spine spine') (name : String)
    (rel : Word → Word → Bool) (previous : Word) :
    Both D 0 (Native.chainInts name rel 2 true previous spine.items)
      (Native.chainInts name rel 2 true previous spine'.items)
      fun D' o o' => D.Still D' ∧ o.isSome = o'.isSome ∧ (spine.ending ≠ .endless → o = o') := by
  rw [Native.chainInts_eq, Native.chainInts_eq]
  refine (walkInts hD hs name _ 2 (true, previous)).bind (m := 0) fun D₁ o o' hD₁ _ hq => ?_
  obtain ⟨still, hsome, heq⟩ := hq
  refine pure hD₁ ⟨still, ?_, fun hend => congrArg _ (heq hend)⟩
  rw [Option.isSome_map, Option.isSome_map, hsome]

theorem compare (hD : D.Sound) (name : String) (rel : Word → Word → Bool) (hv : D.concord.Rel v v')
    (hrest : D.concord.Rel rest rest') :
    Both D 0 (Native.compare name rel v rest) (Native.compare name rel v' rest') D.Hands := by
  rw [Native.compare, Native.compare]
  refine then_hands (int? hD name 1 hv) fun D₁ _ o hD₁ le hq => ?_
  subst hq
  cases o with
  | none => exact give hD₁ .nil
  | some k =>
    have hspine := hD₁.similar.spine (hrest.mono le)
    refine look ?_
    generalize D₁.left.heap.spine rest = spine at hspine ⊢
    generalize D₁.right.heap.spine rest' = spine' at hspine ⊢
    refine then_hands (chainInts hD₁ hspine name rel k) fun D₂ o o' hD₂ le₂ hq => ?_
    obtain ⟨hsome, heq⟩ := hq
    cases o with
    | none =>
      cases o' with
      | none => exact give hD₂ .nil
      | some b' => cases hsome
    | some b =>
      cases o' with
      | none => cases hsome
      | some b' =>
        cases hspine with
        | «at» _ _ =>
          cases heq (by simp)
          exact ofBool rfl hD₂ fun u u' hu => give hD₂ hu
        | endless _ => exact fun _ _ _ => .fault (by decide) (by decide)

theorem subtract (hD : D.Sound) (hv : D.concord.Rel v v') (hrest : D.concord.Rel rest rest') :
    Both D 0 (Native.subtract v rest) (Native.subtract v' rest') D.Hands := by
  rw [Native.subtract, Native.subtract]
  refine then_hands (int? hD _ 1 hv) fun D₁ _ o hD₁ le hq => ?_
  subst hq
  cases o with
  | none => exact give hD₁ .nil
  | some k =>
    exact ite (by rw [hrest.kindred.isNil_eq]) (fun _ => give hD₁ (.int _)) fun _ =>
      foldRest hD₁ _ _ _ _ (hrest.mono le)

theorem divide (hD : D.Sound) (name : String) (op : Word → Word → Word) (hv : D.concord.Rel v v')
    (hw : D.concord.Rel w w') :
    Both D 0 (Native.divide name op v w) (Native.divide name op v' w') D.Hands := by
  rw [Native.divide, Native.divide]
  refine then_hands (int? hD name 1 hv) fun D₁ _ x hD₁ le hq => ?_
  subst hq
  refine then_hands (int? hD₁ name 2 (hw.mono le)) fun D₂ _ y hD₂ _ hq => ?_
  subst hq
  cases x with
  | none => exact give hD₂ .nil
  | some a =>
    cases y with
    | none => exact give hD₂ .nil
    | some b => exact ite Iff.rfl (fun _ => failHands hD₂ _) fun _ => give hD₂ (.int _)

/-! ## 3. Pairs and lists -/

theorem slot {read : Heap → Value → Value} (hD : D.Sound) (name : String) (hv : D.concord.Rel v v')
    (hread : ∀ D' : Duet, D'.Sound → D'.concord.Rel v v' →
      D'.concord.Rel (read D'.left.heap v) (read D'.right.heap v')) :
    Both D 0 (Native.slot name read v) (Native.slot name read v') D.Hands := by
  rw [Native.slot, Native.slot]
  refine then_hands (isPair hD name 1 hv) fun D₁ _ b hD₁ le hq => ?_
  subst hq
  exact ite Iff.rfl (fun _ => look (give hD₁ (hread D₁ hD₁ (hv.mono le)))) fun _ => give hD₁ .nil

/-- A slot of values that correspond is written. -/
theorem setSlot {write : Value → Value → HeapM Unit} (hD : D.Sound) (name : String)
    (hv : D.concord.Rel v v') (hw : D.concord.Rel w w')
    (hwrite : ∀ {D₁ : Duet}, D₁.Sound → D₁.concord.Rel v v' → D₁.concord.Rel w w' →
      Both D₁ 0 (liftM (write v w) : Run Unit) (liftM (write v' w') : Run Unit)
        fun D' _ _ => D'.concord = D₁.concord ∧ D₁.Calm D') :
    Both D 0 (Native.setSlot name write v w) (Native.setSlot name write v' w') D.Hands := by
  rw [Native.setSlot, Native.setSlot]
  refine then_hands (isPair hD name 1 hv) fun D₁ _ b hD₁ le hq => ?_
  subst hq
  refine ite Iff.rfl (fun _ => ?_) fun _ => give hD₁ .nil
  exact (hwrite hD₁ (hv.mono le) (hw.mono le)).bind (m := 0) fun D₂ _ _ hD₂ _ hq => pure hD₂ (.give hq.2.toStill .nil)

theorem listNth (hD : D.Sound) (hv : D.concord.Rel v v') (hw : D.concord.Rel w w') :
    Both D 0 (Native.listNth v w) (Native.listNth v' w') D.Hands := by
  rw [Native.listNth, Native.listNth]
  refine then_hands (length? hD _ 1 hv) fun D₁ _ o hD₁ le hq => ?_
  subst hq
  cases o with
  | none => exact give hD₁ .nil
  | some length =>
    refine then_hands (int? hD₁ _ 2 (hw.mono le)) fun D₂ _ i hD₂ le₂ hq => ?_
    subst hq
    cases i with
    | none => exact give hD₂ .nil
    | some i =>
      exact ite Iff.rfl (fun _ => failHands hD₂ _) fun _ =>
        look (give hD₂ (hD₂.similar.nth ((hv.mono le).mono le₂) _))

/-! ## 4. Everything else -/

theorem test {b b' : Bool} (hD : D.Sound) (hb : b = b') :
    Both D 0 (Native.test b) (Native.test b') D.Hands :=
  ofBool hb hD fun _ _ hu => give hD hu

theorem printed_eq (hD : D.Sound) (hv : D.concord.Rel v v') :
    Native.printed D.left v = Native.printed D.right v' := by
  rw [Native.printed, Native.printed, hD.bytes?_eq hv, hD.display_eq hv]

theorem map_printed {items items' : List Value} (hD : D.Sound) (h : List.Forall₂ D.concord.Rel items items') :
    items.map (Native.printed D.left) = items'.map (Native.printed D.right) := by
  induction h with
  | nil => rfl
  | cons hv _ ih => rw [List.map_cons, List.map_cons, printed_eq hD hv, ih]

theorem print (hD : D.Sound) (hrest : D.concord.Rel rest rest') :
    Both D 0 (Native.print rest) (Native.print rest') D.Hands := by
  have hspine := hD.similar.spine hrest
  rw [Native.print, Native.print]
  refine look ?_
  generalize D.left.heap.spine rest = spine at hspine ⊢
  generalize D.right.heap.spine rest' = spine' at hspine ⊢
  cases hspine with
  | endless _ => exact fun _ _ _ => .fault (by decide) (by decide)
  | «at» hi _ =>
    refine observe (observe ?_)
    rw [map_printed hD hi]
    exact (write hD _).bind (m := 0) fun D₁ _ _ hD₁ _ hq => pure hD₁ (.give hq.2 .nil)

theorem strLen (hD : D.Sound) (hv : D.concord.Rel v v') :
    Both D 0 (Native.strLen v) (Native.strLen v') D.Hands := by
  rw [Native.strLen, Native.strLen]
  refine look ?_
  rw [hD.bytes?_eq hv]
  cases D.right.heap.bytes? v' with
  | none => exact failHands hD _
  | some bytes => exact give hD (.int _)

theorem applyList (hD : D.Sound) (hv : D.concord.Rel v v') (hw : D.concord.Rel w w') :
    Both D 0 (Native.apply v w) (Native.apply v' w') D.Hands := by
  rw [Native.apply, Native.apply]
  refine then_hands (length? hD _ 2 hw) fun D₁ _ o hD₁ le hq => ?_
  subst hq
  cases o with
  | none => exact give hD₁ .nil
  | some _ => exact pure hD₁ (.apply (.refl D₁) (hv.mono le) (hw.mono le))

/-! ## 5. All of them -/

theorem primitive_one (hD : D.Sound) (p : Primitive) (hv : D.concord.Rel v v') :
    Both D 0 (p.run [v]) (p.run [v']) D.Hands := by
  have hkind := hv.kindred
  cases p with
  | add => exact foldRest hD _ _ _ _ hv
  | mul => exact foldRest hD _ _ _ _ hv
  | car => exact slot hD _ hv fun D' hD' h => hD'.similar.car h
  | cdr => exact slot hD _ hv fun D' hD' h => hD'.similar.cdr h
  | list => exact give hD hv
  | length =>
    refine then_hands (length? hD _ 1 hv) fun D₁ _ o hD₁ le hq => ?_
    subst hq
    cases o with
    | none => exact give hD₁ .nil
    | some k => exact give hD₁ (.int _)
  | isNil => exact test hD hkind.isNil_eq
  | isCons => exact test hD hkind.isPair_eq
  | isSym => exact test hD hkind.isSym_eq
  | isInt => exact test hD hkind.isInt_eq
  | isStr => exact look (test hD (congrArg (fun t => decide (t = _)) (hD.typeOf_eq hv)))
  | isFunc =>
    exact look (test hD (congrArg (fun t => decide (t = _) || decide (t = _)) (hD.typeOf_eq hv)))
  | not => exact test hD hkind.isNil_eq
  | strLen => exact strLen hD hv
  | print => exact print hD hv
  | _ => exact throw (by decide) (by decide)

theorem primitive_two (hD : D.Sound) (p : Primitive) (hv : D.concord.Rel v v') (hw : D.concord.Rel w w') :
    Both D 1 (p.run [v, w]) (p.run [v', w']) D.Hands := by
  have hcells : ∀ {x x' : Run Next}, Both D 0 x x' D.Hands → Both D 1 x x' D.Hands := fun h => h.mono (Nat.zero_le 1)
  cases p with
  | sub => exact hcells (subtract hD hv hw)
  | quotient => exact hcells (divide hD _ _ hv hw)
  | remainder => exact hcells (divide hD _ _ hv hw)
  | eq => exact hcells (compare hD _ _ hv hw)
  | lt => exact hcells (compare hD _ _ hv hw)
  | gt => exact hcells (compare hD _ _ hv hw)
  | le => exact hcells (compare hD _ _ hv hw)
  | ge => exact hcells (compare hD _ _ hv hw)
  | cons =>
    refine (cons hD hv hw).bind (m := 0) fun D₁ _ _ hD₁ _ hq => ?_
    obtain ⟨a, b, rfl, rfl, hlink, still⟩ := hq
    exact pure hD₁ (.give still.toStill (.pair hlink))
  | setCar => exact hcells (setSlot hD _ hv hw setCar)
  | setCdr => exact hcells (setSlot hD _ hv hw setCdr)
  | listRef => exact hcells (listNth hD hv hw)
  | same => exact hcells (test hD (decide_eq_decide.mpr (hD.eq_iff hv hw)))
  | equal => exact hcells (look (test hD (hD.equal_eq hv hw)))
  | apply => exact hcells (applyList hD hv hw)
  | _ => exact throw (by decide) (by decide)

/-- **A primitive does the same on both sides**, unless it counts cells. -/
theorem primitive {args args' : List Value} (hD : D.Sound) {p : Primitive} (hp : p ≠ .gc)
    (hargs : List.Forall₂ D.concord.Rel args args') : Both D 1 (p.run args) (p.run args') D.Hands := by
  rcases hargs with _ | ⟨hv, _ | ⟨hw, _ | ⟨_, _⟩⟩⟩
  · cases p with
    | gc => exact absurd rfl hp
    | _ => exact throw (by decide) (by decide)
  · exact (primitive_one hD p hv).mono (Nat.zero_le 1)
  · exact primitive_two hD p hv hw
  · cases p <;> exact throw (by decide) (by decide)

/-- **A native is applied.** -/
theorem enterNative (hD : D.Sound) (hv : D.concord.Rel v v') (hw : D.concord.Rel w w') :
    Both D 1 (Machine.enterNative Host.none v w) (Machine.enterNative Host.none v' w') D.Hands := by
  obtain ⟨hsame, hprimitive⟩ := hD.procedure?_eq hv
  rw [Machine.enterNative, Machine.enterNative]
  refine look ?_
  rw [← hsame]
  cases hp : D.left.heap.procedure? v with
  | none => exact (failHands hD _).mono (Nat.zero_le 1)
  | some p =>
    obtain ⟨q, rfl, hq⟩ := hprimitive p hp
    have hargs := hD.similar.takeArguments (Procedure.primitive q).arity hw
    refine look ?_
    generalize Machine.takeArguments D.left.heap _ w = args at hargs ⊢
    generalize Machine.takeArguments D.right.heap _ w' = args' at hargs ⊢
    cases hargs with
    | fit ha => exact primitive hD hq ha
    | misfit e => exact (failHands hD _).mono (Nat.zero_le 1)

end Both

end LispMachine
