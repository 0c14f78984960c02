import LispMachine.Proofs.Recast.Calls

/-!
# What one side has for itself

While the bindings of a local frame are made on the left side, the right side gathers the arguments of a
call. Until the body begins the frame is in no use on the right side, and neither are the function and the
list of its arguments on the left side:

* `Duet.Framed`, `Duet.Gathered`, `Duet.Held` -- a frame, a list of values, and a function, in cells of one
  side. **They stay as they are** as long as only the other cells are written;
* `Sound.linkFrames` -- **frames with bindings that correspond** are one frame from then on.
-/

namespace LispMachine

open Context Machine

variable {D D₀ D₁ D₂ : Duet} {s s' : Scope} {c : Context} {a o : Addr} {v w last : Value} {xs : List Value}
variable {as : List Addr} {f : Closure}

namespace Duet

/-! ## 1. A frame on the left side -/

/-- **A frame in cells that are in no use on the right side**, and that have been taken since `D₀`. -/
structure Framed (D₀ D : Duet) (s : Scope) : Prop where
  lies : s.Lies D.left.heap
  apart : ∀ b ∈ s.cells, ¬ D.concord.UsedLeft b
  fresh : ∀ b ∈ s.cells, D₀.left.heap.content b = none

theorem Framed.later (h : D₀.Framed D₁ s) (later : D₁.Later D₂) : D₀.Framed D₂ s where
  lies := h.lies.congr fun b hb => by
    obtain ⟨x, hx⟩ := h.lies.exists_content b hb
    rw [Heap.cell_of_content hx, Heap.cell_of_content (later.left hx (h.apart b hb)).1]
  apart b hb := by
    obtain ⟨x, hx⟩ := h.lies.exists_content b hb
    exact (later.left hx (h.apart b hb)).2
  fresh := h.fresh

/-! ## 2. A list and a function on the right side -/

/-- **A list of values in cells that are in no use on the left side**, and that have been taken since `D₀`. -/
structure Gathered (D₀ D : Duet) (w last : Value) (xs : List Value) (as : List Addr) : Prop where
  chained : D.right.heap.Chained w last xs as
  apart : ∀ b ∈ as, ¬ D.concord.UsedRight b
  fresh : ∀ b ∈ as, D₀.right.heap.content b = none

theorem Gathered.later (h : D₀.Gathered D₁ w last xs as) (later : D₁.Later D₂) : D₀.Gathered D₂ w last xs as where
  chained :=
    { h.chained with
      lists := h.chained.lists.congr fun b hb => by
        obtain ⟨x, y, hx⟩ := h.chained.lists.exists_pair b hb
        rw [Heap.cell_of_content hx, Heap.cell_of_content (later.right hx (h.apart b hb)).1] }
  apart b hb := by
    obtain ⟨x, y, hx⟩ := h.chained.lists.exists_pair b hb
    exact (later.right hx (h.apart b hb)).2
  fresh := h.fresh

/-- **A function in a cell that is in no use on the left side.** Its parts are code. -/
structure Held (D : Duet) (o : Addr) (f : Closure) : Prop where
  content : ∃ parts, D.right.heap.content o = some (.object CoreType.func.id (.closure parts)) ∧
    D.concord.right.Lists parts [f.env, f.params, f.body, f.name]
  apart : ¬ D.concord.UsedRight o

theorem Held.later (h : D₁.Held o f) (later : D₁.Later D₂) : D₂.Held o f := by
  obtain ⟨⟨parts, ho, hl⟩, hapart⟩ := h
  obtain ⟨ho', hapart'⟩ := later.right ho hapart
  exact ⟨⟨parts, ho', hl.mono later.le.right⟩, hapart'⟩

theorem Held.typeOf_eq (h : D.Held o f) : D.right.heap.typeOf (.object o) = CoreType.func.id := by
  obtain ⟨⟨parts, ho, -⟩, -⟩ := h
  rw [Heap.typeOf, Heap.cell_of_content ho]

theorem Held.closure_eq (hD : D.Sound) (h : D.Held o f) : D.right.heap.closure (.object o) = f := by
  obtain ⟨⟨parts, ho, hl⟩, -⟩ := h
  exact hl.closure_eq hD.right (by rw [Heap.closureParts, Heap.payload?, Heap.cell_of_content ho])

end Duet

/-! ## 3. Frames that correspond -/

/-- Names that correspond, with values that do. -/
def Concord.RelBind (K : Concord) (q q' : Value × Value) : Prop := K.Rel q.1 q'.1 ∧ K.Rel q.2 q'.2

/-- A name that is bound on one side is bound on the other one. -/
theorem Duet.Sound.mem_names {bs bs' : Binds} {key key' : Value} (hD : D.Sound) (hkey : D.concord.Rel key key')
    (h : List.Forall₂ D.concord.RelBind bs bs') : key ∈ bs.map Prod.fst ↔ key' ∈ bs'.map Prod.fst := by
  induction h with
  | nil => simp
  | cons hq _ ih => rw [List.map_cons, List.map_cons, List.mem_cons, List.mem_cons, hD.eq_iff hkey hq.1, ih]

/-- **Bindings that correspond are made in lists that correspond.** -/
theorem Duet.Sound.put {bs bs' : Binds} {q q' : Value × Value} (hD : D.Sound) (hq : D.concord.RelBind q q')
    (h : List.Forall₂ D.concord.RelBind bs bs') :
    List.Forall₂ D.concord.RelBind (bs.put q.1 q.2) (bs'.put q'.1 q'.2) := by
  rw [Binds.put, Binds.put]
  by_cases hmem : q.1 ∈ bs.map Prod.fst
  · rw [if_pos hmem, if_pos ((hD.mem_names hq.1 h).mp hmem)]
    clear hmem
    induction h with
    | nil => exact .nil
    | @cons p p' bs bs' hp hrest ih =>
      have hsame := hD.eq_iff hp.1 hq.1
      simp only [List.replaceF]
      by_cases hk : p.1 = q.1
      · simp only [if_pos hk, if_pos (hsame.mp hk)]
        exact .cons hq hrest
      · simp only [if_neg hk, if_neg fun e => hk (hsame.mpr e)]
        exact .cons hp ih
  · rw [if_neg hmem, if_neg fun e => hmem ((hD.mem_names hq.1 h).mpr e)]
    exact .cons hq h

theorem Duet.Sound.puts {new new' bs bs' : Binds} (hD : D.Sound) (hnew : List.Forall₂ D.concord.RelBind new new')
    (h : List.Forall₂ D.concord.RelBind bs bs') :
    List.Forall₂ D.concord.RelBind (new.puts bs) (new'.puts bs') := by
  induction hnew generalizing bs bs' with
  | nil => exact h
  | cons hq _ ih => exact ih (hD.put hq h)

namespace Entry

variable {es es' : List Entry}

/-- The cells of two lists of bindings, side by side. -/
def beside : List Entry → List Entry → List (Addr × Addr)
  | e :: es, e' :: es' => (e.link, e'.link) :: (e.cell, e'.cell) :: beside es es'
  | _, _ => []

theorem map_beside {R : Entry → Entry → Prop} (h : List.Forall₂ R es es') :
    (beside es es').map Prod.fst = cells es ∧ (beside es es').map Prod.snd = cells es' := by
  induction h with
  | nil => exact ⟨rfl, rfl⟩
  | cons _ _ ih => exact ⟨congrArg (_ :: _ :: ·) ih.1, congrArg (_ :: _ :: ·) ih.2⟩

/-- Lists of bindings that correspond, once their cells do. -/
theorem content_beside {K : Concord} {h h' : Heap} (hl : h.Holds (contents es)) (hr : h'.Holds (contents es'))
    (hes : List.Forall₂ (fun e e' => K.RelBind (e.key, e.value) (e'.key, e'.value)) es es')
    (hlink : ∀ p ∈ beside es es', K.link p.1 p.2) : K.Rel (list es) (list es') ∧
      ∀ p ∈ beside es es', ∃ x x', h.content p.1 = some x ∧ h'.content p.2 = some x' ∧ K.Content x x' := by
  induction hes with
  | nil => exact ⟨.nil, nofun⟩
  | @cons e e' es es' he _ ih =>
    obtain ⟨hl₁, hl⟩ := Heap.holds_cons.mp hl
    obtain ⟨hl₂, hl⟩ := Heap.holds_cons.mp hl
    obtain ⟨hr₁, hr⟩ := Heap.holds_cons.mp hr
    obtain ⟨hr₂, hr⟩ := Heap.holds_cons.mp hr
    obtain ⟨hlink₁, hlink⟩ := List.forall_mem_cons.mp hlink
    obtain ⟨hlink₂, hlink⟩ := List.forall_mem_cons.mp hlink
    obtain ⟨hlist, hcells⟩ := ih hl hr hlink
    refine ⟨.pair hlink₁, List.forall_mem_cons.mpr ⟨?_, List.forall_mem_cons.mpr ⟨?_, hcells⟩⟩⟩
    · exact ⟨_, _, Heap.content_pair.mpr hl₁, Heap.content_pair.mpr hr₁, .pair (.pair hlink₂) hlist⟩
    · exact ⟨_, _, Heap.content_pair.mpr hl₂, Heap.content_pair.mpr hr₂, .pair he.1 he.2⟩

end Entry

/-- **Frames with bindings that correspond are one frame from now on.** -/
theorem Duet.Sound.linkFrames (hD : D.Sound) (later : D₀.Later D) (hs : D₀.Framed D s) (hs' : s'.Lies D.right.heap)
    (hapart : ∀ b ∈ s'.cells, ¬ D.concord.UsedRight b) (hfresh : ∀ b ∈ s'.cells, D₀.right.heap.content b = none)
    (hparent : D.concord.Rel s.parent s'.parent) (hbound : List.Forall₂ D.concord.RelBind s.bound s'.bound) :
    ∃ K, Sound ⟨K, D.left, D.right⟩ ∧ D₀.Later ⟨K, D.left, D.right⟩ ∧ D.concord.Le K ∧
      K.link s.frame s'.frame := by
  let ls := (s.frame, s'.frame) :: Entry.beside s.entries s'.entries
  have hle := D.le_joined ls [] []
  have hes : List.Forall₂ (fun e e' => (D.joined ls [] []).RelBind (Entry.key e, Entry.value e)
      (Entry.key e', Entry.value e')) s.entries s'.entries := by
    rw [Scope.bound, Scope.bound, List.forall₂_map_left_iff, List.forall₂_map_right_iff] at hbound
    exact hbound.imp fun _ _ hq => ⟨hq.1.mono hle, hq.2.mono hle⟩
  obtain ⟨hfst, hsnd⟩ := Entry.map_beside hes
  have hfst : ls.map Prod.fst ++ [] = s.cells := (List.append_nil _).trans (congrArg (s.frame :: ·) hfst)
  have hsnd : ls.map Prod.snd ++ [] = s'.cells := (List.append_nil _).trans (congrArg (s'.frame :: ·) hsnd)
  obtain ⟨hlist, hcells⟩ := Entry.content_beside hs.lies.holds hs'.holds hes fun p hp =>
    .inr (List.mem_cons_of_mem _ hp)
  have hjoins : D.Joins ls [] [] :=
    { nodup_left := hfst ▸ hs.lies.nodup
      nodup_right := hsnd ▸ hs'.nodup
      unused_left := hfst ▸ hs.apart
      unused_right := hsnd ▸ hapart
      cells := List.forall_mem_cons.mpr ⟨⟨_, _, Heap.content_pair.mpr hs.lies.frame_cell,
        Heap.content_pair.mpr hs'.frame_cell, .pair (hparent.mono hle) hlist⟩, hcells⟩ }
  exact ⟨D.joined ls [] [], hD.join hjoins, later.join (hfst ▸ hs.fresh) (hsnd ▸ hfresh), hle,
    .inr List.mem_cons_self⟩

end LispMachine
