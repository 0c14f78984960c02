import LispMachine.Proofs.Quiet.Tree

/-!
# Reading into a heap that is never collected

What the reader gives of a text stands for what the text says (`Datum.parse`), and lies in fresh cells that
nothing else lies in:

* `Context.Scans` -- **cells have been taken and names learnt**, and nothing else has changed;
* `Context.Scan`, `Context.Held` -- the state of the reader, and a value that is handed on;
* `Serves.deliver`, `Serves.effect`, `Serves.readFrom` -- one round of the reader, and all of them;
* `Serves.read` -- **the next value of a text**.
-/

namespace LispMachine

open Context

/-! ## 1. The state of the reader -/

/-- **Fresh cells have been taken and names learnt**, and nothing else has changed but the root stack. -/
structure Context.Scans (c d : Context) : Prop where
  sound : d.symbols.Sound
  names : d.symbols.Extends c.symbols
  alters : ({ c with symbols := d.symbols } : Context).Alters (c.heap.content · = none) d

/-- **While the reader runs**: cells under construction, and cells of a value that is complete. -/
structure Context.Scan (c₀ : Context) (roots : Array Value) (nests : List Nest) (frames : List Frame)
    (as bs : Multiset Addr) (c : Context) : Prop where
  scans : c₀.Scans c
  nesting : c.Nesting c₀.heap.roots roots nests frames as
  taken : ∀ a ∈ bs + as, ∃ x, c.heap.content a = some x
  nodup : (bs + as).Nodup
  fresh : ∀ a ∈ bs + as, c₀.heap.content a = none

/-- The reader has nothing in its hands. -/
def Context.Scanning (c₀ : Context) (nests : List Nest) (frames : List Frame) (c : Context) : Prop :=
  ∃ as, c₀.Scan c.heap.roots nests frames as 0 c

/-- **The reader has a value in its hands.** -/
def Context.Held (c₀ : Context) (nests : List Nest) (frames : List Frame) (v : Value) (d : Datum)
    (c : Context) : Prop :=
  ∃ as bs, c₀.Scan c.heap.roots nests frames as bs c ∧ c.Built v d bs

variable {c₀ c c' : Context} {roots : Array Value} {nests : List Nest} {frames : List Frame} {as bs : Multiset Addr}
variable {a last : Addr} {v x y : Value} {d : Datum} {t : SymbolTable} {S : Addr → Prop} {cell : Cell}

namespace Context.Scans

theorem refl (hs : c.symbols.Sound) : c.Scans c := ⟨hs, .refl _, .refl _ _⟩

/-- What has not been taken now had not been taken before. -/
theorem content (h : c₀.Scans c) {x : Cell} (hx : c₀.heap.content a = some x) : c.heap.content a = some x :=
  (h.alters.content a fun hnone => Option.some_ne_none x (hx.symm.trans hnone)).trans hx

theorem fresh (h : c₀.Scans c) (ha : c.heap.content a = none) : c₀.heap.content a = none := by
  by_contra hne
  obtain ⟨x, hx⟩ := Option.ne_none_iff_exists'.mp hne
  exact Option.some_ne_none x ((h.content hx).symm.trans ha)

theorem alter (h : c₀.Scans c) (ha : c.Alters S c') (hs : ∀ a, S a → c₀.heap.content a = none) : c₀.Scans c' where
  sound := ha.rest.symbols ▸ h.sound
  names := ha.rest.symbols ▸ h.names
  alters := by
    rw [ha.rest.symbols]
    exact (h.alters.trans ha).mono fun a hor => hor.elim id (hs a)

theorem learn (h : c₀.Scans c) (ht : t.Sound) (hnames : t.Extends c.symbols) : c₀.Scans { c with symbols := t } where
  sound := ht
  names := hnames.trans h.names
  alters := ⟨{ h.alters.rest with symbols := rfl }, h.alters.types, h.alters.content⟩

end Context.Scans

namespace Context.Scan

theorem withRoots (h : c₀.Scan roots nests frames as bs c) (roots' : Array Value) :
    c₀.Scan roots nests frames as bs (c.withRoots roots') :=
  { h with
    scans := h.scans.alter ((Alters.refl c fun _ => False).withRoots roots') nofun
    nesting := h.nesting.kept ⟨.refl _, fun _ _ _ => id⟩ }

/-- More names. -/
theorem learn (h : c₀.Scan roots nests frames as bs c) (ht : t.Sound) (hnames : t.Extends c.symbols) :
    c₀.Scan roots nests frames as bs { c with symbols := t } :=
  { h with
    scans := h.scans.learn ht hnames
    nesting := h.nesting.kept ⟨hnames, fun _ _ _ => id⟩ }

/-- **A cell is taken.** -/
theorem made (h : c₀.Scan roots nests frames as bs c) (hm : Serves.Made c a cell c') :
    c₀.Scan roots nests frames as (a ::ₘ bs) c' ∧ c.Retains (bs + as) c' := by
  have hnone : c.heap.content a = none := hm.adds.fresh a (List.mem_singleton_self a)
  have hnot : a ∉ bs + as := fun ha => by
    obtain ⟨x, hx⟩ := h.taken a ha
    exact Option.some_ne_none x (hx.symm.trans hnone)
  have hretains : c.Retains (bs + as) c' :=
    ⟨by rw [hm.adds.alters.rest.symbols]; exact .refl _, fun b _ x hx => hm.adds.kept hx⟩
  refine ⟨⟨h.scans.alter hm.adds.alters fun b hb => h.scans.fresh (hm.adds.fresh b hb), h.nesting.kept hretains.right,
    ?_, ?_, ?_⟩, hretains⟩
  · rw [Multiset.cons_add]
    intro b hb
    rcases Multiset.mem_cons.mp hb with rfl | hb
    · exact ⟨cell, hm.holds⟩
    · obtain ⟨x, hx⟩ := h.taken b hb
      exact ⟨x, hm.adds.kept hx⟩
  · rw [Multiset.cons_add]
    exact Multiset.nodup_cons.mpr ⟨hnot, h.nodup⟩
  · rw [Multiset.cons_add]
    intro b hb
    rcases Multiset.mem_cons.mp hb with rfl | hb
    · exact h.scans.fresh hnone
    · exact h.fresh b hb

/-- The same cells, in other hands. -/
theorem repack {roots' : Array Value} {nests' : List Nest} {frames' : List Frame} {as' bs' : Multiset Addr}
    (h : c₀.Scan roots nests frames as bs c) (hn : c.Nesting c₀.heap.roots roots' nests' frames' as')
    (hcells : bs' + as' = bs + as) : c₀.Scan roots' nests' frames' as' bs' c where
  scans := h.scans
  nesting := hn
  taken := hcells ▸ h.taken
  nodup := hcells ▸ h.nodup
  fresh := hcells ▸ h.fresh

/-- A value is dropped. -/
theorem drop (h : c₀.Scan roots nests frames as bs c) : c₀.Scan roots nests frames as 0 c where
  scans := h.scans
  nesting := h.nesting
  taken a ha := h.taken a (Multiset.mem_add.mpr (.inr (zero_add as ▸ ha)))
  nodup := (zero_add as).symm ▸ (Multiset.nodup_add.mp h.nodup).2.1
  fresh a ha := h.fresh a (Multiset.mem_add.mpr (.inr (zero_add as ▸ ha)))

/-- **One of the cells is written**, and the cells are in other hands. -/
theorem wrote {roots' : Array Value} {nests' : List Nest} {frames' : List Frame} {as' bs' : Multiset Addr}
    (h : c₀.Scan roots nests frames as bs c) (hw : Serves.Wrote c a cell c') (ha : a ∈ bs + as)
    (hn : c'.Nesting c₀.heap.roots roots' nests' frames' as') (hcells : bs' + as' = bs + as) :
    c₀.Scan roots' nests' frames' as' bs' c' where
  scans := h.scans.alter hw.alters fun b hb => hb ▸ h.fresh a ha
  nesting := hn
  taken := hcells ▸ fun b hb => by
    by_cases hba : b = a
    · exact ⟨cell, hba ▸ hw.holds⟩
    · obtain ⟨x, hx⟩ := h.taken b hb
      exact ⟨x, (hw.alters.content b hba).trans hx⟩
  nodup := hcells ▸ h.nodup
  fresh := hcells ▸ h.fresh

end Context.Scan

/-- The last pair of a list is written. -/
theorem Serves.Wrote.continues (hw : Serves.Wrote c last (.pair x y) c')
    (hcell : c.heap.content last = some (.pair x .nil)) (as : Multiset Addr) : Context.Continues c last y as c' where
  names := hw.alters.rest.symbols ▸ .refl _
  cells a _ hne z hz := (hw.alters.content a hne).trans hz
  written u hu := by
    rw [hcell] at hu
    cases hu
    exact hw.holds

namespace Serves

/-- **A symbol.** -/
theorem sym {β : Type} {m : Nat} {f : Value → Run β} {R : β → Context → Prop} (hs : c.symbols.Sound) (name : String)
    (hf : ∀ i t, t.Sound → t.Extends c.symbols → t.names[i]? = some name →
      Serves m (f (.sym i)) { c with symbols := t } R) : Serves m (Context.sym name >>= f) c R := by
  obtain ⟨i, t, hrun, hsound, hextends, hname⟩ := run_sym hs name
  exact after hrun (fun _ => id) (hf i t hsound hextends hname)

/-! ## 2. Values in nests -/

/-- A datum under a quote mark. -/
theorem quotation (h : c₀.Held nests frames v d c) : Serves 2 (Reader.quotation v) c
    fun u c' => c₀.Held nests frames u d.quoted c' := by
  obtain ⟨as, bs, hscan, hv⟩ := h
  unfold Reader.quotation
  refine rootBase (pushRoot v ((cons v .nil).bind (m := 1) fun _ c₁ h₁ => ?_))
  obtain ⟨a, rfl, ha⟩ := h₁
  obtain ⟨hscan₁, hretains₁⟩ := (hscan.withRoots _).made ha
  have hv₁ : c₁.Built v d bs := (hv.withRoots _).kept hretains₁.left
  refine sym hscan₁.scans.sound "quote" fun i t ht hnames hname => ?_
  have hscan₂ := hscan₁.learn ht hnames
  refine (cons (.sym i) (.pair a)).bind (m := 0) fun _ c₃ h₃ => ?_
  obtain ⟨b, rfl, hb⟩ := h₃
  obtain ⟨hscan₃, hretains₃⟩ := hscan₂.made hb
  have hname₃ : c₃.symbols.names[i]? = some "quote" := by
    rw [hb.adds.alters.rest.symbols]
    exact hname
  have htail : ({ c₁ with symbols := t } : Context).Built (.pair a) (.pair d .nil) (a ::ₘ (bs + 0)) :=
    .pair ha.holds (hv₁.kept ⟨hnames, fun _ _ _ => id⟩) .nil
  rw [add_zero] at htail
  have hout : c₃.Built (.pair b) d.quoted (b ::ₘ (0 + (a ::ₘ bs))) :=
    .pair hb.holds (.sym hname₃) (htail.kept hretains₃.left)
  rw [zero_add] at hout
  have hroots : c₃.heap.roots = c.heap.roots.push v := hb.roots.trans ha.roots
  refine popRoots (by rw [hroots]; simp) (pure ⟨as, b ::ₘ a ::ₘ bs, ?_, hout.withRoots _⟩)
  rw [hroots, shrink_push_size]
  exact hscan₃.withRoots _

/-- **An element is appended to a list.** -/
theorem appendElement {slot : Nat} {last : Value} {seen : List Datum}
    (h : c₀.Held (.elements slot last :: nests) (.elements seen :: frames) v d c) :
    Serves 1 (Reader.append slot last v) c fun u c' =>
      c₀.Scanning (.elements slot u :: nests) (.elements (d :: seen) :: frames) c' := by
  obtain ⟨as, bs, hscan, hv⟩ := h
  generalize hroots : c.heap.roots = roots at hscan
  unfold Reader.append
  refine (cons v .nil).bind (m := 0) fun _ c₁ h₁ => ?_
  obtain ⟨a, rfl, ha⟩ := h₁
  obtain ⟨hscan₁, hretains₁⟩ := hscan.made ha
  have hv₁ : c₁.Built v d bs := hv.kept hretains₁.left
  have hroots₁ := ha.roots.trans hroots
  have hnesting := hscan₁.nesting
  cases hnesting with
  | @empty roots _ _ as h =>
    refine setRoot (.pair a) (by rw [hroots₁]; simp) (pure ⟨(a ::ₘ bs) + as, ?_⟩)
    show Context.Scan _ (c₁.heap.roots.setIfInBounds roots.size (.pair a)) _ _ _ _ _
    rw [hroots₁, setIfInBounds_push_size]
    have hchain : (c₁.withRoots (roots.push (.pair a))).Strand (.pair a) [d] a (a ::ₘ bs) :=
      .last ha.holds (hv₁.withRoots _)
    exact (hscan₁.withRoots _).repack (.elements (h.withRoots _) hchain) (zero_add _)
  | @elements roots _ _ as bs' w ds last h hds =>
    have hnodup := hscan₁.nodup
    obtain ⟨z, hlast⟩ := hds.last_cell
    have hmem : last ∈ (a ::ₘ bs) + (bs' + as) :=
      Multiset.mem_add.mpr (.inr (Multiset.mem_add.mpr (.inl hds.last_mem)))
    refine setCdr hlast (.pair a) fun c₂ hw => pure ⟨bs' + (a ::ₘ bs) + as, ?_⟩
    have hcontinues := hw.continues hlast
    rw [hw.roots, hroots₁]
    obtain ⟨-, hnodup', hdisjoint⟩ := Multiset.nodup_add.mp hnodup
    obtain ⟨hnodup'', -, hdisjoint'⟩ := Multiset.nodup_add.mp hnodup'
    have hnot : last ∉ a ::ₘ bs := fun hm =>
      Multiset.disjoint_left.mp hdisjoint hm (Multiset.mem_add.mpr (.inl hds.last_mem))
    have hnot' : last ∉ as := Multiset.disjoint_left.mp hdisjoint' hds.last_mem
    have hout := ((hcontinues (a ::ₘ bs)).retains hnot)
    have hchain := hds.append hnodup'' (hcontinues bs') (hout.cells a (Multiset.mem_cons_self a bs) _ ha.holds)
      (hv₁.kept (hout.mono fun _ => Multiset.mem_cons_of_mem))
    have hn := Context.Nesting.elements (h.kept ((hcontinues as).retains hnot')) hchain
    rw [List.reverse_concat] at hn
    refine hscan₁.wrote hw hmem hn ?_
    rw [zero_add, add_comm bs', add_assoc]

/-- **The tail of a list follows its dot.** -/
theorem setTail {slot : Nat} {last : Value} {seen : List Datum}
    (h : c₀.Held (.dotted slot last :: nests) (.dotted seen :: frames) v d c) :
    Serves 0 (liftM (Heap.setCdr last v) : Run Unit) c fun _ c' =>
      c₀.Scanning (.closing slot :: nests) (.closing (Datum.onto d seen) :: frames) c' := by
  obtain ⟨as, bs, hscan, hv⟩ := h
  generalize hroots : c.heap.roots = roots at hscan
  have hnesting := hscan.nesting
  cases hnesting with
  | @dotted roots _ _ as bs' w ds last h hds =>
    obtain ⟨z, hlast⟩ := hds.last_cell
    have hmem : last ∈ bs + (bs' + as) := Multiset.mem_add.mpr (.inr (Multiset.mem_add.mpr (.inl hds.last_mem)))
    rw [← bind_pure (liftM (Heap.setCdr (.pair last) v) : Run Unit)]
    refine setCdr hlast v fun c₂ hw => pure ⟨bs' + bs + as, ?_⟩
    have hcontinues := hw.continues hlast
    rw [hw.roots, hroots]
    obtain ⟨-, hnodup', hdisjoint⟩ := Multiset.nodup_add.mp hscan.nodup
    obtain ⟨hnodup'', -, hdisjoint'⟩ := Multiset.nodup_add.mp hnodup'
    have hnot : last ∉ bs := fun hm =>
      Multiset.disjoint_left.mp hdisjoint hm (Multiset.mem_add.mpr (.inl hds.last_mem))
    have hnot' : last ∉ as := Multiset.disjoint_left.mp hdisjoint' hds.last_mem
    have hwhole := hds.finish hnodup'' (hcontinues bs') (hv.kept ((hcontinues bs).retains hnot))
    refine hscan.wrote hw hmem (.closing (h.kept ((hcontinues as).retains hnot')) hwhole) ?_
    rw [zero_add, add_comm bs', add_assoc]

/-- What has become of a value that is handed to its nests. -/
def HandedOn (c₀ : Context) (r : Value × List Nest) (c : Context) : Datum ⊕ List Frame → Prop
  | .inl d => r.2 = [] ∧ c₀.Held [] [] r.1 d c
  | .inr frames => r.2 ≠ [] ∧ c₀.Scanning r.2 frames c

/-- **A finished value is handed to its nests.** -/
theorem deliver (h : c₀.Held nests frames v d c) :
    Serves (2 * nests.length + 1) (Reader.deliver v nests) c fun r c' =>
      HandedOn c₀ r c' (d.deliver frames) ∧ r.2.length ≤ nests.length := by
  induction nests generalizing frames v d c with
  | nil =>
    obtain ⟨as, bs, hscan, hv⟩ := id h
    generalize hroots : c.heap.roots = roots at hscan
    have hnesting := hscan.nesting
    cases hnesting
    exact (pure ⟨⟨rfl, h⟩, le_rfl⟩).weaken (Nat.zero_le _) fun _ _ => id
  | cons nest outer ih =>
    obtain ⟨as, bs, hscan, hv⟩ := id h
    generalize hroots : c.heap.roots = roots at hscan
    have hnesting := hscan.nesting
    cases hnesting with
    | quotation hn =>
      have hheld : c₀.Held outer _ v d c := ⟨as, bs, hroots ▸ hscan.repack hn rfl, hv⟩
      refine ((quotation hheld).bind fun u c₁ h₁ => ih h₁).weaken ?_ fun _ _ h' => ⟨h'.1, Nat.le_succ_of_le h'.2⟩
      rw [List.length_cons]
      omega
    | empty _ =>
      exact ((appendElement h).bind (m := 0) fun _ _ h' => pure ⟨⟨List.cons_ne_nil _ _, h'⟩, le_rfl⟩).weaken (by omega)
        fun _ _ => id
    | elements _ _ =>
      exact ((appendElement h).bind (m := 0) fun _ _ h' => pure ⟨⟨List.cons_ne_nil _ _, h'⟩, le_rfl⟩).weaken (by omega)
        fun _ _ => id
    | dotted _ _ =>
      exact ((setTail h).bind (m := 0) fun _ _ h' => pure ⟨⟨List.cons_ne_nil _ _, h'⟩, le_rfl⟩).weaken (by omega)
        fun _ _ => id
    | closing hn hw =>
      exact (pure ⟨⟨List.cons_ne_nil _ _, _, hroots ▸ hscan.drop⟩, le_rfl⟩).weaken (Nat.zero_le _) fun _ _ => id

/-! ## 3. One token -/

/-- A token has done to the nests what it does to the frames. -/
inductive Agrees (c₀ : Context) (n : Nat) (c : Context) : Reader.Effect → Datum.Effect → Prop where
  | value {v : Value} {d : Datum} {nests : List Nest} {frames : List Frame} (h : c₀.Held nests frames v d c)
      (hn : nests.length ≤ n) : Agrees c₀ n c (.value v nests) (.value d frames)
  | more {nests : List Nest} {frames : List Frame} (h : c₀.Scanning nests frames c) (hn : nests.length ≤ n + 1) :
      Agrees c₀ n c (.more nests) (.more frames)
  | error {nests : List Nest} {frames : List Frame} {e : ReadError} {used : Bool} (h : c₀.Scanning nests frames c) :
      Agrees c₀ n c (.error e used) (.error e)

variable {n : Nat}

/-- A list is closed. -/
theorem close (hroots : c.heap.roots = roots.push v) (hv : c.Built v d bs) (h : c₀.Scan roots nests frames as bs c) :
    Serves 0 (Reader.close roots.size) c fun u c' => c₀.Held nests frames u d c' := by
  unfold Reader.close
  refine root (by rw [hroots]; exact Array.getElem?_push_size)
    (popRoots (by rw [hroots]; simp) (pure ⟨as, bs, ?_, hv.withRoots _⟩))
  rw [hroots, shrink_push_size]
  exact h.withRoots _

/-- The value of an atom. -/
theorem atomValue (h : c₀.Scanning nests frames c) (name : List Char) :
    Serves 0 (Reader.atomValue name) c fun v c' => c₀.Held nests frames v (Datum.ofAtom name) c' := by
  obtain ⟨as, hscan⟩ := h
  unfold Reader.atomValue Datum.ofAtom
  cases Fixnum.decimal? name with
  | some n => exact pure ⟨as, 0, hscan, .int n⟩
  | none =>
    rw [← bind_pure (Context.sym _)]
    exact sym hscan.scans.sound _ fun i t ht hnames hname => pure ⟨as, 0, hscan.learn ht hnames, .sym hname⟩

/-- A string. -/
theorem textValue (hmake : c.heap.IsMakeable CoreType.str.id) (h : c₀.Scanning nests frames c) (s : String) :
    Serves 1 (Context.str s.toUTF8) c fun v c' => c₀.Held nests frames v (.text s) c' := by
  obtain ⟨as, hscan⟩ := h
  refine (make hmake _).weaken le_rfl fun _ c₁ h₁ => ?_
  obtain ⟨a, rfl, ha⟩ := h₁
  refine ⟨as, {a}, ?_, .text ha.holds⟩
  rw [ha.roots]
  exact (hscan.made ha).1

/-- One more nest, where there may be one. -/
theorem enter {x : Run Reader.Effect} {frame : Frame} (h : c₀.Scanning nests frames c)
    (hx : Serves 0 x c fun r c' => Agrees c₀ n c' r (.more (frame :: frames))) :
    Serves 0 (if nests.length ≥ Reader.maxNesting then Pure.pure (.error .tooDeep true) else x) c
      fun r c' => Agrees c₀ n c' r
        (if frames.length ≥ Reader.maxNesting then .error .tooDeep else .more (frame :: frames)) := by
  obtain ⟨as, hscan⟩ := id h
  rw [← hscan.nesting.length_eq]
  by_cases hdeep : nests.length ≥ Reader.maxNesting
  · simp only [if_pos hdeep]
    exact pure (.error h)
  · simp only [if_neg hdeep]
    exact hx

/-- **A token does to the nests what it does to the frames**, where a datum or the end of a list may
    stand. -/
theorem meet (hmake : c.heap.IsMakeable CoreType.str.id) (h : c₀.Scanning nests frames c) (token : Token) :
    Serves 1 (Reader.meet nests token) c fun r c' => Agrees c₀ nests.length c' r (Datum.meet frames token) := by
  obtain ⟨as, hscan⟩ := id h
  generalize hroots : c.heap.roots = roots at hscan
  have hnesting := hscan.nesting
  cases token with
  | opening =>
    refine (enter h (pushRoot .nil (pure (.more ⟨as, ?_⟩ le_rfl)))).weaken (Nat.zero_le 1) fun _ _ => id
    show Context.Scan _ (c.heap.roots.push .nil) _ _ _ _ _
    rw [hroots]
    exact (hscan.withRoots _).repack (.empty (hnesting.withRoots _)) rfl
  | mark =>
    refine (enter h (pure (.more ⟨as, ?_⟩ le_rfl))).weaken (Nat.zero_le 1) fun _ _ => id
    rw [hroots]
    exact hscan.repack (.quotation hnesting) rfl
  | text s => exact (textValue hmake h (String.ofList s)).bind (m := 0) fun _ _ h' => pure (.value h' le_rfl)
  | unclosedText => exact (pure (.error h)).weaken (Nat.zero_le 1) fun _ _ => id
  | closing =>
    have herror : Serves 1 (Pure.pure (Reader.Effect.error .unexpectedClosing true)) c fun r c' =>
        Agrees c₀ nests.length c' r (.error .unexpectedClosing) :=
      (pure (.error h)).weaken (Nat.zero_le 1) fun _ _ => id
    cases hnesting with
    | empty hn =>
      exact ((close hroots .nil (hscan.repack hn rfl)).bind (m := 0) fun _ _ h' =>
        pure (.value h' (Nat.le_succ _))).weaken (Nat.zero_le 1) fun _ _ => id
    | elements hn hds =>
      have hnodup := (Multiset.nodup_add.mp (Multiset.nodup_add.mp hscan.nodup).2.1).1
      have hwhole := hds.finish hnodup (.refl c _ _) .nil
      rw [add_zero] at hwhole
      exact ((close hroots hwhole (hscan.repack hn (zero_add _).symm)).bind (m := 0) fun _ _ h' =>
        pure (.value h' (Nat.le_succ _))).weaken (Nat.zero_le 1) fun _ _ => id
    | outermost => exact herror
    | quotation _ => exact herror
    | dotted _ _ => exact herror
    | closing _ _ => exact herror
  | atom name =>
    have hatom : Serves 1 (do return Reader.Effect.value (← Reader.atomValue name) nests) c
        fun r c' => Agrees c₀ nests.length c' r (.value (Datum.ofAtom name) frames) :=
      ((atomValue h name).bind (m := 0) fun _ _ h' => pure (.value h' le_rfl)).weaken (Nat.zero_le 1) fun _ _ => id
    cases hnesting with
    | empty hn =>
      simp only [Reader.meet, Datum.meet]
      by_cases hdot : name = ['.']
      · simp only [if_pos hdot]
        exact (pure (.error h)).weaken (Nat.zero_le 1) fun _ _ => id
      · simp only [if_neg hdot]
        exact hatom
    | @elements _ _ _ _ _ v ds last hn hds =>
      simp only [Reader.meet, Datum.meet]
      by_cases hdot : name = ['.']
      · have hne : ds.reverse ≠ [] := fun e => hds.ne_nil (List.reverse_eq_nil_iff.mp e)
        simp only [if_pos hdot, if_neg hne]
        exact (pure (.more ⟨_, hroots ▸ hscan.repack (.dotted hn hds) rfl⟩ (Nat.le_succ _))).weaken (Nat.zero_le 1)
          fun _ _ => id
      · simp only [if_neg hdot]
        exact hatom
    | outermost => exact hatom
    | quotation _ => exact hatom
    | dotted _ _ => exact hatom
    | closing _ _ => exact hatom

/-- **What the next token does.** -/
theorem effect (hmake : c.heap.IsMakeable CoreType.str.id) (h : c₀.Scanning nests frames c) (token : Token) :
    Serves 1 (Reader.effect nests token) c fun r c' => Agrees c₀ nests.length c' r (Datum.effect frames token) := by
  have hmeet := meet hmake h token
  obtain ⟨as, hscan⟩ := id h
  generalize hroots : c.heap.roots = roots at hscan
  have hnesting := hscan.nesting
  cases hnesting with
  | @closing roots nests _ _ _ _ _ hn hw =>
    have herror : Serves 1 (Pure.pure (Reader.Effect.error .misplacedDot false)) c fun r c' =>
        Agrees c₀ (nests.length + 1) c' r (.error .misplacedDot) :=
      (pure (.error h)).weaken (Nat.zero_le 1) fun _ _ => id
    cases token with
    | closing =>
      exact ((close hroots hw (hscan.repack hn (zero_add _).symm)).bind (m := 0) fun _ _ h' =>
        pure (.value h' (Nat.le_succ _))).weaken (Nat.zero_le 1) fun _ _ => id
    | _ => exact herror
  | _ => exact hmeet

/-! ## 4. The reader -/

/-- What the reader gives of a text is what the text says. -/
inductive Given (c₀ c : Context) :
    Except ReadError Value × List Char → Except ReadError (Datum × List Char) → Prop where
  | ok {v : Value} {d : Datum} {rest : List Char} (h : c₀.Held [] [] v d c) : Given c₀ c (.ok v, rest) (.ok (d, rest))
  | error {nests : List Nest} {frames : List Frame} {e : ReadError} {left : List Char}
      (h : c₀.Scanning nests frames c) : Given c₀ c (.error e, left) (.error e)

/-- **The loop gives what the text says**, or its error. -/
theorem readFrom (hmake : c₀.heap.IsMakeable CoreType.str.id) (h : c₀.Scanning nests frames c) (src : List Char) :
    Serves (src.length * (2 * (src.length + nests.length) + 2)) (Reader.readFrom nests src) c
      fun r c' => Given c₀ c' r (Datum.parseFrom frames src) := by
  induction hlen : src.length using Nat.strongRecOn generalizing nests frames c src with
  | ind len ih =>
    rw [Reader.readFrom]
    obtain ⟨as, hscan⟩ := id h
    have hmake' : c.heap.IsMakeable CoreType.str.id := by
      rw [Heap.IsMakeable, hscan.scans.alters.types]
      exact hmake
    split
    · rename_i hnone
      rw [Datum.parseFrom_none hnone, hscan.nesting.atEnd_eq]
      exact (pure (.error h)).weaken (Nat.zero_le _) fun _ _ => id
    · rename_i token rest hnext
      have hlt : rest.length < len := hlen ▸ Token.length_lt_of_next? hnext
      rw [Datum.parseFrom_some hnext]
      -- The rest of the text, when so many nests are left.
      have hrest : ∀ {nests' frames' c'}, c₀.Scanning nests' frames' c' → nests'.length ≤ nests.length + 1 →
          Serves ((len - 1) * (2 * (len + nests.length) + 2)) (Reader.readFrom nests' rest) c'
            fun r c' => Given c₀ c' r (Datum.parseFrom frames' rest) := fun h' hn => by
        refine (ih _ hlt h' rest rfl).weaken (Nat.mul_le_mul ?_ ?_) fun _ _ => id
        · omega
        · omega
      obtain ⟨l, rfl⟩ : ∃ l, len = l + 1 := ⟨len - 1, by omega⟩
      rw [Nat.add_sub_cancel] at hrest
      have hbudget : (l + 1) * (2 * (l + 1 + nests.length) + 2) =
          1 + ((2 * nests.length + 1) + (l * (2 * (l + 1 + nests.length) + 2) + 2 * (l + 1))) := by
        rw [Nat.succ_mul]
        omega
      rw [hbudget]
      refine (effect hmake' h token).bind fun r c₁ hagrees => ?_
      generalize Datum.effect frames token = e at hagrees
      cases hagrees with
      | error h₁ => exact (pure (.error h₁)).weaken (Nat.zero_le _) fun _ _ => id
      | more h₁ hn => exact (hrest h₁ hn).weaken (by omega) fun _ _ => id
      | @value _ d nests₁ frames₁ h₁ hn =>
        refine ((deliver h₁).bind (m := l * (2 * (l + 1 + nests.length) + 2)) fun r c₂ hdel => ?_).weaken (by omega)
          fun _ _ => id
        obtain ⟨u, nests₂⟩ := r
        obtain ⟨hdel, hn₂⟩ := hdel
        simp only [Datum.finish]
        cases hd : d.deliver frames₁ with
        | inl whole =>
          rw [hd] at hdel
          obtain ⟨rfl, hu⟩ := hdel
          exact (pure (.ok hu)).weaken (Nat.zero_le _) fun _ _ => id
        | inr frames₂ =>
          rw [hd] at hdel
          obtain ⟨hne, h₂⟩ := hdel
          cases nests₂ with
          | nil => exact absurd rfl hne
          | cons nest nests₂ => exact hrest h₂ (hn₂.trans (hn.trans (Nat.le_succ _)))

/-- What `Reader.read` gives of a text is what the text says: **a value in fresh cells of its own**. -/
inductive Answers (c₀ c : Context) : Except ReadError (Option Value) × List Char →
    Except ReadError (Option Datum × List Char) → Prop where
  | none : Answers c₀ c (.ok none, []) (.ok (none, []))
  | some {v : Value} {d : Datum} {rest : List Char} {as : Multiset Addr} (hv : c.Built v d as) (hnodup : as.Nodup)
      (hfresh : ∀ a ∈ as, c₀.heap.content a = none) : Answers c₀ c (.ok (some v), rest) (.ok (some d, rest))
  | error {e : ReadError} {left : List Char} : Answers c₀ c (.error e, left) (.error e)

/-- **The next value of a text.** -/
theorem read (hmake : c.heap.IsMakeable CoreType.str.id) (hs : c.symbols.Sound) (src : List Char) :
    Serves (src.length * (2 * src.length + 2)) (Reader.read src) c fun r c' =>
      c.Scans c' ∧ c'.heap.roots = c.heap.roots ∧ Answers c c' r (Datum.parse src) := by
  unfold Reader.read Datum.parse
  cases Token.next? src with
  | none => exact (pure ⟨.refl hs, rfl, .none⟩).weaken (Nat.zero_le _) fun _ _ => id
  | some next =>
    have hscan : c.Scanning [] [] c := ⟨0, .refl hs, .outermost, fun _ ha => absurd ha (by simp), by simp, by simp⟩
    refine rootBase (((readFrom hmake hscan src).bind (m := 0) fun r c₁ hgiven => ?_).weaken (by simp) fun _ _ => id)
    generalize Datum.parseFrom [] src = said at hgiven
    cases hgiven with
    | ok h =>
      obtain ⟨as, bs, hscan₁, hv⟩ := h
      generalize hroots : c₁.heap.roots = roots at hscan₁
      have hnesting := hscan₁.nesting
      cases hnesting
      have hnodup := hscan₁.nodup
      have hfresh := hscan₁.fresh
      rw [add_zero] at hnodup hfresh
      exact pure ⟨hscan₁.scans, hroots, .some hv hnodup hfresh⟩
    | error h =>
      obtain ⟨as, hscan₁⟩ := h
      obtain ⟨xs, hroots⟩ := hscan₁.nesting.exists_roots
      refine popRoots (by rw [hroots]; simp) (pure ⟨?_, ?_, .error⟩)
      · exact hscan₁.scans.alter ((Alters.refl c₁ fun _ => False).withRoots _) nofun
      · show c₁.heap.roots.shrink c.heap.roots.size = _
        rw [hroots]
        exact shrink_eq (by simp) fun _ hi => Array.getElem?_append_left hi

end Serves

end LispMachine
