import LispMachine.Proofs.Heap.Exhaustion
import LispMachine.Proofs.Twin.Holding

/-!
# Collections, on either side

A collection may strike on one side only, or on both at different times. What is left corresponds
where both cells are left:

* `Heap.Freed` -- cells have been freed, none of which the roots or an allocated cell refer to;
* `World.within`, `Coherent.freed` -- **the cells left on both sides hold corresponding values**, and
  what the root stack leads to is among them (`Onward.freed`);
* `Coherent.reaches_left`, `Coherent.inUse_le` -- whatever a collection reaches on the left has its
  counterpart on the right, so that no more cells are in use on the left;
* `Coherent.reaches_right`, `Coherent.allocatedCount_eq` -- if the root stacks have the same slots, and
  none has been emptied on one side only, collections on both sides leave equally many cells.
-/

namespace LispMachine

/-! ## 1. Freed cells -/

/-- Cells have been freed that nothing refers to. -/
structure Heap.Freed (h h' : Heap) : Prop where
  kept : ∀ a : Nat, h'.isAllocated a = true → h.isAllocated a = true ∧ h'.cells[a]? = h.cells[a]?
  survives : ∀ a, h.isAllocated a = true → h.Reaches (h.rootValues true) a →
    h'.isAllocated a = true
  closed : ∀ a b, h'.isAllocated a = true → h.Refers a b → h.isAllocated b = true →
    h'.isAllocated b = true
  roots : h'.roots = h.roots
  pins : h'.pins = h.pins
  types : h'.types = h.types
  holdings : h'.holdings = h.holdings

namespace Heap

variable {h h' : Heap} {a n : Nat}

/-- Taking a cell frees others, perhaps. -/
theorem Taken.freed (ht : Taken h a h') : h.Freed h' where
  kept := ht.kept
  survives := ht.survives
  closed := ht.closed
  roots := by rw [ht.frame]
  pins := by rw [ht.frame]
  types := by rw [ht.frame]
  holdings := by rw [ht.frame]

theorem Collected.freed (hc : Collected h true n h') : h.Freed h' where
  kept b hb := ⟨((hc.isAllocated_iff b).mp hb).1, hc.kept b hb⟩
  survives b hb hr := (hc.isAllocated_iff b).mpr ⟨hb, hr⟩
  closed := hc.closed
  roots := by rw [hc.frame]
  pins := by rw [hc.frame]
  types := by rw [hc.frame]
  holdings := by rw [hc.frame]

end Heap

namespace Twin

open World

variable {lex : Lexicon} {T : Twin} {S : Shape → Prop} {n : Nat} {v v' : Value} {g g' : Heap}

theorem Coherent.isAllocated (hT : T.Coherent lex) {a b : Addr} {k : Kind} (hw : T.world a b k) :
    T.left.isAllocated a = true ∧ T.right.isAllocated b = true := by
  cases k with
  | object =>
    obtain ⟨t, p, p', hl, hr, _⟩ := hT.objects hw
    exact ⟨Heap.isAllocated_iff.mpr ⟨_, hl, rfl⟩, Heap.isAllocated_iff.mpr ⟨_, hr, rfl⟩⟩
  | pair s o =>
    obtain ⟨x, y, x', y', hp⟩ := hT.pairs hw
    exact ⟨Heap.isAllocated_iff.mpr ⟨_, hp.left, rfl⟩, Heap.isAllocated_iff.mpr ⟨_, hp.right, rfl⟩⟩

/-- **A kept value is reached** on both sides. -/
theorem Held.reaches (h : T.Held S n v v') (hT : T.Coherent lex) :
    (∀ a, v.addr? = some a → T.left.Reaches (T.left.rootValues true) a) ∧
      ∀ b, v'.addr? = some b → T.right.Reaches (T.right.rootValues true) b := by
  induction h with
  | atom hv =>
    refine ⟨fun a ha => ?_, fun b hb => ?_⟩
    · rw [hv] at ha
      cases ha
    · rw [hv] at hb
      cases hb
  | root _ hl hr _ =>
    exact ⟨fun a => .root (Heap.mem_rootValues_of_root hl),
      fun b => .root (Heap.mem_rootValues_of_root hr)⟩
  | pin hp =>
    have hmem := List.of_mem_zip hp
    exact ⟨fun a => .root (Heap.mem_rootValues_of_pin hmem.1),
      fun b => .root (Heap.mem_rootValues_of_pin hmem.2)⟩
  | @car u u' hu _ ih =>
    refine ⟨fun a ha => ?_, fun b hb => ?_⟩
    · obtain ⟨c, hc⟩ : ∃ c, u.addr? = some c := by
        cases u <;> first | exact ⟨_, rfl⟩ | cases ha
      exact .step (ih.1 c hc) (Heap.refers_car hc ha)
    · obtain ⟨c, hc⟩ : ∃ c, u'.addr? = some c := by
        cases u' <;> first | exact ⟨_, rfl⟩ | cases hb
      exact .step (ih.2 c hc) (Heap.refers_car hc hb)
  | @cdr u u' hu _ ih =>
    refine ⟨fun a ha => ?_, fun b hb => ?_⟩
    · obtain ⟨c, hc⟩ : ∃ c, u.addr? = some c := by
        cases u <;> first | exact ⟨_, rfl⟩ | cases ha
      exact .step (ih.1 c hc) (Heap.refers_cdr hc ha)
    · obtain ⟨c, hc⟩ : ∃ c, u'.addr? = some c := by
        cases u' <;> first | exact ⟨_, rfl⟩ | cases hb
      exact .step (ih.2 c hc) (Heap.refers_cdr hc hb)
  | @parts u u' hu ih =>
    cases hu.same hT with
    | atom hv =>
      have hnil : ∀ g : Heap, g.closureParts u = .nil := fun g => by
        cases u <;> first | rfl | cases hv
      rw [hnil, hnil]
      exact ⟨by rintro _ ⟨⟩, by rintro _ ⟨⟩⟩
    | pair _ => exact ⟨by rintro _ ⟨⟩, by rintro _ ⟨⟩⟩
    | object hw =>
      obtain ⟨t, p, p', hl, hr, ha⟩ := hT.objects hw
      rw [Heap.closureParts, Heap.closureParts, Heap.payload?, Heap.payload?, hl, hr]
      cases ha with
      | func _ =>
        exact ⟨fun a ha => .step (ih.1 _ rfl) (Heap.refers_parts (by rw [hT.types_left]; rfl) hl ha),
          fun b hb => .step (ih.2 _ rfl) (Heap.refers_parts (by rw [hT.types_right]; rfl) hr hb)⟩
      | native _ => exact ⟨by rintro _ ⟨⟩, by rintro _ ⟨⟩⟩
      | str _ => exact ⟨by rintro _ ⟨⟩, by rintro _ ⟨⟩⟩

end Twin

/-! ## 2. What is left on both sides -/

/-- A cell refers to what it mentions. -/
theorem Heap.refers_of_mentions {lex : Lexicon} {W : World} {h : Heap} {k : Kind} {c c' : Cell}
    {a b : Nat} (hc : W.Content lex k c c' ∨ W.Content lex k c' c) (ht : h.types = .core)
    (ha : h.cells[a]? = some c) (hb : c.Mentions b) : h.Refers a b := by
  cases c with
  | free next => cases hb
  | pair x y =>
    rcases hb with hb | hb
    · exact .car ha hb
    · exact .cdr ha hb
  | object t p =>
    cases p with
    | closure parts =>
      have hfunc : t = CoreType.func.id := by
        rcases hc with hc | hc
        · cases hc with
          | object halike => cases halike; rfl
        · cases hc with
          | object halike => cases halike; rfl
      subst hfunc
      exact refers_parts (by rw [ht]; rfl) ha hb
    | word n => cases hb
    | procedure p => cases hb
    | text bytes => cases hb

/-- The corresponding cells that are allocated in two heaps. -/
def World.within (W : World) (g g' : Heap) : World := fun a b k =>
  W a b k ∧ g.isAllocated a = true ∧ g'.isAllocated b = true

namespace Twin

open World

variable {lex : Lexicon} {T : Twin} {S : Shape → Prop} {n : Nat} {v v' : Value} {g g' : Heap}

/-- Two heaps after cells have been freed. -/
def freed (T : Twin) (g g' : Heap) : Twin := ⟨T.world.within g g', g, g', T.slot⟩

/-- **What is left on both sides corresponds.** -/
theorem Coherent.freed (hT : T.Coherent lex) (hl : T.left.Freed g) (hr : T.right.Freed g') :
    (T.freed g g').Coherent lex where
  one := ⟨fun hw hw' => hT.one.left hw.1 hw'.1, fun hw hw' => hT.one.right hw.1 hw'.1⟩
  cells := by
    rintro a b k ⟨hw, ha, hb⟩
    obtain ⟨c, c', hcl, hcr, hcont⟩ := hT.cells hw
    refine ⟨c, c', (hl.kept a ha).2.trans hcl, (hr.kept b hb).2.trans hcr,
      hcont.transfer fun d e j hd he hw' => ⟨hw', ?_, ?_⟩⟩
    · exact hl.closed a d ha (Heap.refers_of_mentions (.inl hcont) hT.types_left hcl hd) (hT.isAllocated hw').1
    · exact hr.closed b e hb (Heap.refers_of_mentions (.inr hcont) hT.types_right hcr he) (hT.isAllocated hw').2
  owned hw := by
    show _ < g.roots.size
    rw [hl.roots]
    exact hT.owned hw.1
  slots := hT.slots
  height k := by
    show T.slot (g.roots.size + k) = g'.roots.size + k
    rw [hl.roots, hr.roots]
    exact hT.height k
  plain := hT.plain
  roots := by
    intro i v v' hv hv'
    replace hv : g.roots[i]? = some v := hv
    replace hv' : g'.roots[T.slot i]? = some v' := hv'
    rw [hl.roots] at hv
    rw [hr.roots] at hv'
    refine (hT.roots hv hv').imp_left fun hs => hs.transfer fun c d k hc hd hw => ⟨hw, ?_, ?_⟩
    · exact hl.survives c (hT.isAllocated hw).1 (.root (Heap.mem_rootValues_of_root hv) hc)
    · exact hr.survives d (hT.isAllocated hw).2 (.root (Heap.mem_rootValues_of_root hv') hd)
  pins := by
    show List.Forall₂ _ g.pins g'.pins
    rw [hl.pins, hr.pins, List.forall₂_iff_zip]
    refine ⟨hT.pins.length_eq, fun {v v'} hmem => ?_⟩
    have hpinned := List.of_mem_zip hmem
    refine (List.forall₂_zip hT.pins hmem).transfer fun c d k hc hd hw => ⟨hw, ?_, ?_⟩
    · exact hl.survives c (hT.isAllocated hw).1 (.root (Heap.mem_rootValues_of_pin hpinned.1) hc)
    · exact hr.survives d (hT.isAllocated hw).2 (.root (Heap.mem_rootValues_of_pin hpinned.2) hd)
  types_left := hl.types.trans hT.types_left
  types_right := hr.types.trans hT.types_right
  holdings_left := hl.holdings.trans hT.holdings_left
  holdings_right := hr.holdings.trans hT.holdings_right

/-- **Nothing that is kept is freed.** -/
theorem Onward.freed (hT : T.Coherent lex) (hl : T.left.Freed g) (hr : T.right.Freed g')
    (hn : n ≤ T.left.roots.size) : Onward S n T (T.freed g g') where
  height := by
    show n ≤ g.roots.size
    rw [hl.roots]
    exact hn
  roots_left i _ := by
    show g.roots[i]? = _
    rw [hl.roots]
  slots _ _ := rfl
  roots_right i _ := by
    show g'.roots[T.slot i]? = _
    rw [hr.roots]
  pins p hp := by
    show p ∈ g.pins.zip g'.pins
    rw [hl.pins, hr.pins]
    exact hp
  kinds hv ha hb hw := ⟨hw, hl.survives _ (hT.isAllocated hw).1 ((hv.reaches hT).1 _ ha),
    hr.survives _ (hT.isAllocated hw).2 ((hv.reaches hT).2 _ hb)⟩
  cells hv ha hb hw _ :=
    ⟨(hl.kept _ (hl.survives _ (hT.isAllocated hw).1 ((hv.reaches hT).1 _ ha))).2,
      (hr.kept _ (hr.survives _ (hT.isAllocated hw).2 ((hv.reaches hT).2 _ hb))).2⟩

/-! ## 3. Equally many cells -/

/-- Two cells correspond. -/
def Partners (W : World) (a b : Addr) : Prop := ∃ k, W a b k

/-- An entry of a list has its counterpart. -/
theorem exists_of_forall₂ {α β : Type} {R : α → β → Prop} {l : List α} {l' : List β}
    (h : List.Forall₂ R l l') :
    (∀ a ∈ l, ∃ b ∈ l', R a b) ∧ ∀ b ∈ l', ∃ a ∈ l, R a b := by
  induction h with
  | nil => exact ⟨by rintro _ ⟨⟩, by rintro _ ⟨⟩⟩
  | @cons a b l l' hab _ ih =>
    refine ⟨fun c hc => ?_, fun d hd => ?_⟩
    · rcases List.mem_cons.mp hc with rfl | hc
      · exact ⟨b, List.mem_cons_self, hab⟩
      · obtain ⟨d, hd, hcd⟩ := ih.1 c hc
        exact ⟨d, List.mem_cons_of_mem _ hd, hcd⟩
    · rcases List.mem_cons.mp hd with rfl | hd
      · exact ⟨a, List.mem_cons_self, hab⟩
      · obtain ⟨c, hc, hcd⟩ := ih.2 d hd
        exact ⟨c, List.mem_cons_of_mem _ hc, hcd⟩

theorem partners_addrs {W : World} {vs vs' : List Value} (h : List.Forall₂ W.Same vs vs') :
    List.Forall₂ (Partners W) (vs.filterMap Value.addr?) (vs'.filterMap Value.addr?) := by
  induction h with
  | nil => exact .nil
  | cons hv _ ih =>
    cases hv with
    | atom hatom =>
      rw [List.filterMap_cons_none hatom, List.filterMap_cons_none hatom]
      exact ih
    | object hw => exact .cons ⟨_, hw⟩ ih
    | pair hw => exact .cons ⟨_, hw⟩ ih

/-- Corresponding cells refer to corresponding cells. -/
theorem Coherent.outgoing (hT : T.Coherent lex) {a b : Addr} (hw : Partners T.world a b) :
    ∃ c c', T.left.cells[a]? = some c ∧ T.right.cells[b]? = some c' ∧
      List.Forall₂ (Partners T.world) (T.left.outgoing c) (T.right.outgoing c') := by
  obtain ⟨k, hw⟩ := hw
  cases k with
  | pair s o =>
    obtain ⟨x, y, x', y', hp⟩ := hT.pairs hw
    exact ⟨_, _, hp.left, hp.right, partners_addrs (.cons hp.first.same (.cons hp.rest.same .nil))⟩
  | object =>
    obtain ⟨t, p, p', hl, hr, ha⟩ := hT.objects hw
    refine ⟨_, _, hl, hr, ?_⟩
    have hcore : ∀ h : Heap, h.types = .core → h.heldBy = Heap.heldBy { h with types := .core } :=
      fun h ht => Heap.heldBy_congr ht rfl
    rw [Heap.outgoing, Heap.outgoing, hcore _ hT.types_left, hcore _ hT.types_right]
    cases ha with
    | func hparts => exact partners_addrs (.cons hparts.same .nil)
    | native _ => exact .nil
    | str bytes => exact .nil

/-- Values of two lists that correspond lead to corresponding cells. -/
theorem partner_of_mem {W : World} {vs vs' : List Value} (h : List.Forall₂ W.Same vs vs')
    (hv : v ∈ vs) {a : Addr} (ha : v.addr? = some a) :
    ∃ v' ∈ vs', ∃ b, v'.addr? = some b ∧ Partners W a b := by
  obtain ⟨v', hv', hsame⟩ := (exists_of_forall₂ h).1 v hv
  cases hsame with
  | atom hatom =>
    rw [hatom] at ha
    cases ha
  | object hw =>
    cases ha
    exact ⟨_, hv', _, rfl, _, hw⟩
  | pair hw =>
    cases ha
    exact ⟨_, hv', _, rfl, _, hw⟩

/-- **What is reached on the left has a counterpart** that is reached on the right. -/
theorem Coherent.reaches_left (hT : T.Coherent lex) (hplain : lex.nested = false) {vs vs' : List Value}
    (hvs : List.Forall₂ T.world.Same vs vs') {a : Addr}
    (h : T.left.Reaches (T.left.rootValues true ++ vs) a) :
    ∃ b, Partners T.world a b ∧ T.right.Reaches (T.right.rootValues true ++ vs') b := by
  induction h with
  | @root v a hv ha =>
    rcases List.mem_append.mp hv with hroot | hv
    · rw [Heap.rootValues, if_pos rfl] at hroot
      rcases List.mem_append.mp hroot with hpin | hslot
      · obtain ⟨v', hv', b, hb, hab⟩ := partner_of_mem (hT.pins.imp fun _ _ hv => hv.same) hpin ha
        exact ⟨b, hab, .root (List.mem_append_left _ (Heap.mem_rootValues_of_pin hv')) hb⟩
      · obtain ⟨i, hi, hiv⟩ := Array.mem_iff_getElem.mp (Array.mem_toList_iff.mp hslot)
        have hl : T.left.roots[i]? = some v := by rw [Array.getElem?_eq_getElem hi, hiv]
        have hr := Array.getElem?_eq_getElem (hT.slot_lt hi)
        rcases hT.roots hl hr with hs | ⟨_, hnested | rfl⟩
        · obtain ⟨v', hv', b, hb, hab⟩ :=
            partner_of_mem (.cons hs.same .nil) List.mem_cons_self ha
          cases List.mem_singleton.mp hv'
          exact ⟨b, hab, .root (List.mem_append_left _ (Heap.mem_rootValues_of_root hr)) hb⟩
        · exact absurd hnested (Bool.eq_false_iff.mp hplain)
        · cases ha
    · obtain ⟨v', hv', b, hb, hab⟩ := partner_of_mem hvs hv ha
      exact ⟨b, hab, .root (List.mem_append_right _ hv') hb⟩
  | step _ hac ih =>
    obtain ⟨b, hab, hrb⟩ := ih
    obtain ⟨c, c', hl, hr, hout⟩ := hT.outgoing hab
    obtain ⟨d, hd, hcd⟩ := (exists_of_forall₂ hout).1 _ ((Heap.refers_iff hl).mp hac)
    exact ⟨d, hcd, .step hrb ((Heap.refers_iff hr).mpr hd)⟩

/-- **No more cells are in use on the left** than on the right. -/
theorem Coherent.inUse_le (hT : T.Coherent lex) (hplain : lex.nested = false) {vs vs' : List Value}
    (hvs : List.Forall₂ T.world.Same vs vs') :
    T.left.inUse (T.left.rootValues true ++ vs) ≤ T.right.inUse (T.right.rootValues true ++ vs') := by
  have hto : ∀ a : Addr, T.left.isAllocated a = true ∧ T.left.Reaches (T.left.rootValues true ++ vs) a →
      ∃ b : Addr, (T.right.isAllocated b = true ∧
        T.right.Reaches (T.right.rootValues true ++ vs') b) ∧ Partners T.world a b := fun a ha => by
    obtain ⟨b, hab, hb⟩ := hT.reaches_left hplain hvs ha.2
    exact ⟨b, ⟨(hT.isAllocated hab.choose_spec).2, hb⟩, hab⟩
  choose! f hf using hto
  refine Set.ncard_le_ncard_of_injOn f (fun a ha => (hf a ha).1) (fun a ha c hc hac => ?_)
    ((Set.finite_lt_nat T.right.cells.size).subset fun _ hb => Heap.lt_size_of_isAllocated hb.1)
  obtain ⟨k, hk⟩ := (hf a ha).2
  obtain ⟨k', hk'⟩ := (hf c hc).2
  rw [hac] at hk
  exact (hT.one.right hk hk').1

/-- Without an emptied slot the roots correspond one by one. -/
theorem Coherent.rootValues (hT : T.Coherent lex) (hplain : lex.nested = false)
    (hfull : lex.vacant = none) :
    List.Forall₂ T.world.Same (T.left.rootValues true) (T.right.rootValues true) := by
  rw [Heap.rootValues, Heap.rootValues, if_pos rfl, if_pos rfl]
  refine List.rel_append (hT.pins.imp fun _ _ hv => hv.same) ?_
  rw [List.forall₂_iff_get]
  have hid : T.slot = id := hT.plain hplain
  have hsize : T.left.roots.size = T.right.roots.size := by
    rw [← hT.slot_height, hid]
    rfl
  refine ⟨hsize, fun i hi hi' => ?_⟩
  have hslot : T.world.Slot i (T.left.roots.toList.get ⟨i, hi⟩) (T.right.roots.toList.get ⟨i, hi'⟩) := by
    refine (hT.roots (i := i) ?_ ?_).resolve_right fun h => ?_
    · rw [← Array.getElem?_toList, List.getElem?_eq_getElem hi]
      rfl
    · rw [hid, id, ← Array.getElem?_toList, List.getElem?_eq_getElem hi']
      rfl
    · rw [hfull] at h
      cases h.1
  exact hslot.same

/-- Then what is reached on the right has a counterpart, too. -/
theorem Coherent.reaches_right (hT : T.Coherent lex) (hplain : lex.nested = false)
    (hfull : lex.vacant = none) {b : Addr} (h : T.right.Reaches (T.right.rootValues true) b) :
    ∃ a, Partners T.world a b ∧ T.left.Reaches (T.left.rootValues true) a := by
  induction h with
  | @root v b hv hb =>
    obtain ⟨a, ha, hab⟩ := (exists_of_forall₂ (partners_addrs (hT.rootValues hplain hfull))).2 b
      (List.mem_filterMap.mpr ⟨v, hv, hb⟩)
    obtain ⟨v', hv', ha'⟩ := List.mem_filterMap.mp ha
    exact ⟨a, hab, .root hv' ha'⟩
  | step _ hbd ih =>
    obtain ⟨a, hab, hra⟩ := ih
    obtain ⟨c, c', hl, hr, hout⟩ := hT.outgoing hab
    obtain ⟨d, hd, hcd⟩ := (exists_of_forall₂ hout).2 _ ((Heap.refers_iff hr).mp hbd)
    exact ⟨d, hcd, .step hra ((Heap.refers_iff hl).mpr hd)⟩

/-- **Collections on both sides leave equally many cells.** -/
theorem Coherent.allocatedCount_eq (hT : T.Coherent lex) (hplain : lex.nested = false)
    (hfull : lex.vacant = none) {m m' : Nat} (hl : T.left.Collected true m g)
    (hr : T.right.Collected true m' g') : g.allocatedCount = g'.allocatedCount := by
  refine Nat.le_antisymm ?_ ?_
  · rw [← hl.inUse_eq, ← hr.inUse_eq]
    have hle := hT.inUse_le hplain .nil
    rwa [List.append_nil, List.append_nil] at hle
  have hfrom : ∀ b : Addr, g'.isAllocated b = true →
      ∃ a : Addr, g.isAllocated a = true ∧ Partners T.world a b := fun b hb => by
    obtain ⟨a, hab, ha⟩ := hT.reaches_right hplain hfull ((hr.isAllocated_iff b).mp hb).2
    exact ⟨a, (hl.isAllocated_iff a).mpr ⟨(hT.isAllocated hab.choose_spec).1, ha⟩, hab⟩
  choose! f hf using hfrom
  rw [← Heap.ncard_isAllocated, ← Heap.ncard_isAllocated]
  refine Set.ncard_le_ncard_of_injOn f (fun b hb => (hf b hb).1) (fun b hb d hd hbd => ?_)
    ((Set.finite_lt_nat g.cells.size).subset fun _ ha => Heap.lt_size_of_isAllocated ha)
  obtain ⟨k, hk⟩ := (hf b hb).2
  obtain ⟨k', hk'⟩ := (hf d hd).2
  rw [hbd] at hk
  exact (hT.one.left hk hk').1

end Twin

end LispMachine
