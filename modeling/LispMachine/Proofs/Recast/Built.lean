import LispMachine.Proofs.Quiet.Reading
import LispMachine.Proofs.Recast.Code

/-!
# Recast texts that are read on two sides

Values that are read from texts lie in fresh cells of their own. If the texts are recast, then so are the
values, once some of these cells correspond and others are code:

* `Zips` -- **what comes of cells on two sides**, whatever else corresponds. The rules are those of pairs;
* `Zips.data` -- data that are the same;
* `Recasts.of_recast` -- **data that are recast**, from one lemma for each form;
* `Sound.zip` -- contexts that agree go on to agree, and the values correspond.
-/

namespace LispMachine

open Context

variable {c c' : Context} {as as' bs bs' : Multiset Addr} {P Q : Concord → Prop} {K : Concord} {a b : Addr}
variable {v v' x x' y y' : Value} {d d' : Datum}

/-! ## 1. Cells on two sides -/

/-- These cells correspond, these are code, and the symbols are known by their names. -/
structure Concord.Fits (K : Concord) (c c' : Context) (ls : List (Addr × Addr)) (ts ts' : List Addr) : Prop where
  link : ∀ q ∈ ls, K.link q.1 q.2
  left : ∀ a ∈ ts, ∀ x y, c.heap.content a = some (.pair x y) → K.left.pair a x y
  right : ∀ b ∈ ts', ∀ x y, c'.heap.content b = some (.pair x y) → K.right.pair b x y
  names_left : K.left.names = c.symbols.names
  names_right : K.right.names = c'.symbols.names

/-- **What comes of cells on two sides**: some correspond from now on, and hold what corresponds, and the others
    are code. -/
def Zips (c c' : Context) (as as' : Multiset Addr) (P : Concord → Prop) : Prop :=
  ∃ (ls : List (Addr × Addr)) (ts ts' : List Addr), as = ↑(ls.map Prod.fst ++ ts) ∧ as' = ↑(ls.map Prod.snd ++ ts') ∧
    ∀ K : Concord, K.Fits c c' ls ts ts' → P K ∧ ∀ q ∈ ls, ∃ x x', c.heap.content q.1 = some x ∧
      c'.heap.content q.2 = some x' ∧ K.Content x x'

namespace Zips

theorem weaken (h : Zips c c' as as' P) (hpq : ∀ K : Concord, K.left.names = c.symbols.names →
    K.right.names = c'.symbols.names → P K → Q K) : Zips c c' as as' Q := by
  obtain ⟨ls, ts, ts', hl, hr, hk⟩ := h
  exact ⟨ls, ts, ts', hl, hr, fun K hfits => ⟨hpq K hfits.names_left hfits.names_right (hk K hfits).1, (hk K hfits).2⟩⟩

/-- The same cells. -/
theorem congr (h : Zips c c' as as' P) (hl : as = bs) (hr : as' = bs') : Zips c c' bs bs' P := hl ▸ hr ▸ h

/-- No cells. -/
theorem empty (h : ∀ K : Concord, K.left.names = c.symbols.names → K.right.names = c'.symbols.names → P K) :
    Zips c c' 0 0 P :=
  ⟨[], [], [], rfl, rfl, fun K hfits => ⟨h K hfits.names_left hfits.names_right, nofun⟩⟩

/-- **Cells of two values.** -/
theorem and (h : Zips c c' as as' P) (h' : Zips c c' bs bs' Q) :
    Zips c c' (as + bs) (as' + bs') fun K => P K ∧ Q K := by
  obtain ⟨ls, ts, ts', rfl, rfl, hk⟩ := h
  obtain ⟨ms, us, us', rfl, rfl, hk'⟩ := h'
  refine ⟨ls ++ ms, ts ++ us, ts' ++ us', ?_, ?_, fun K hfits => ?_⟩
  · rw [Multiset.coe_add, Multiset.coe_eq_coe, List.map_append, List.append_assoc, List.append_assoc]
    exact List.Perm.append_left _ (List.perm_append_comm_assoc ts _ us)
  · rw [Multiset.coe_add, Multiset.coe_eq_coe, List.map_append, List.append_assoc, List.append_assoc]
    exact List.Perm.append_left _ (List.perm_append_comm_assoc ts' _ us')
  · obtain ⟨hp, hcells⟩ := hk K ⟨fun q hq => hfits.link q (List.mem_append_left _ hq),
      fun a ha => hfits.left a (List.mem_append_left _ ha), fun b hb => hfits.right b (List.mem_append_left _ hb),
      hfits.names_left, hfits.names_right⟩
    obtain ⟨hq, hcells'⟩ := hk' K ⟨fun q hq => hfits.link q (List.mem_append_right _ hq),
      fun a ha => hfits.left a (List.mem_append_right _ ha), fun b hb => hfits.right b (List.mem_append_right _ hb),
      hfits.names_left, hfits.names_right⟩
    exact ⟨⟨hp, hq⟩, fun q hm => (List.mem_append.mp hm).elim (hcells q) (hcells' q)⟩

/-- **A pair on the left side is code.** -/
theorem code_left (hcell : c.heap.content a = some (.pair x y)) (h : Zips c c' as as' P) :
    Zips c c' (a ::ₘ as) as' fun K => K.left.pair a x y ∧ P K := by
  obtain ⟨ls, ts, ts', rfl, hr, hk⟩ := h
  refine ⟨ls, a :: ts, ts', ?_, hr, fun K hfits => ?_⟩
  · rw [Multiset.cons_coe, Multiset.coe_eq_coe]
    exact List.perm_middle.symm
  · obtain ⟨hp, hcells⟩ := hk K { hfits with left := fun b hb => hfits.left b (List.mem_cons_of_mem a hb) }
    exact ⟨⟨hfits.left a List.mem_cons_self _ _ hcell, hp⟩, hcells⟩

/-- **A pair on the right side is code.** -/
theorem code_right (hcell : c'.heap.content b = some (.pair x y)) (h : Zips c c' as as' P) :
    Zips c c' as (b ::ₘ as') fun K => K.right.pair b x y ∧ P K := by
  obtain ⟨ls, ts, ts', hl, rfl, hk⟩ := h
  refine ⟨ls, ts, b :: ts', hl, ?_, fun K hfits => ?_⟩
  · rw [Multiset.cons_coe, Multiset.coe_eq_coe]
    exact List.perm_middle.symm
  · obtain ⟨hp, hcells⟩ := hk K { hfits with right := fun b hb => hfits.right b (List.mem_cons_of_mem _ hb) }
    exact ⟨⟨hfits.right b List.mem_cons_self _ _ hcell, hp⟩, hcells⟩

/-- **Cells that correspond.** -/
theorem link {z z' : Cell} (hcell : c.heap.content a = some z) (hcell' : c'.heap.content b = some z')
    (h : Zips c c' as as' fun K => K.Content z z') : Zips c c' (a ::ₘ as) (b ::ₘ as') fun K => K.link a b := by
  obtain ⟨ls, ts, ts', rfl, rfl, hk⟩ := h
  refine ⟨(a, b) :: ls, ts, ts', rfl, rfl, fun K hfits => ⟨hfits.link _ List.mem_cons_self, ?_⟩⟩
  obtain ⟨hcontent, hcells⟩ := hk K { hfits with link := fun q hq => hfits.link q (List.mem_cons_of_mem _ hq) }
  exact List.forall_mem_cons.mpr ⟨⟨z, z', hcell, hcell', hcontent⟩, hcells⟩

/-- **The same datum on both sides** corresponds. -/
theorem data (h : c.Built v d as) (h' : c'.Built v' d as') : Zips c c' as as' fun K => K.Rel v v' := by
  induction h generalizing v' as' with
  | nil =>
    cases h'
    exact empty fun _ _ _ => .nil
  | int n =>
    cases h'
    exact empty fun _ _ _ => .int n
  | sym hname =>
    cases h' with
    | sym hname' => exact empty fun K hl hr => .sym (hl ▸ hname) (hr ▸ hname')
  | text hcell =>
    cases h' with
    | text hcell' => exact (link hcell hcell' (empty fun _ _ _ => .text _)).weaken fun _ _ _ => .object
  | pair hcell _ _ ihx ihy =>
    cases h' with
    | pair hcell' hx' hy' =>
      exact (link hcell hcell' (((ihx hx').and (ihy hy')).weaken fun _ _ _ h => .pair h.1 h.2)).weaken
        fun _ _ _ => .pair

end Zips

/-! ## 2. Recast data -/

/-- A piece of a text and a piece of a value. The names of bindings that are taken apart lie in cells of the right
    side. -/
inductive Segment.Built (c' : Context) : Segment Datum → Segment Value → Multiset Addr → Prop where
  | expr : Built c' .expr .expr 0
  | exprs : Built c' .exprs .exprs 0
  | params : Built c' .params .params 0
  | headed : Built c' .headed .headed 0
  | bindings : Built c' .bindings .bindings 0
  | binder : Built c' .binder .binder 0
  | data : Built c' .data .data 0
  | split {v : Value} {d : Datum} {as : Multiset Addr} (h : c'.Built v d as) : Built c' (.split d) (.split v) as

namespace Segment.Built

variable {p : Segment Datum} {q : Segment Value} {cs : Multiset Addr}

theorem isList (h : Built c' p q cs) (hp : p.IsList) : q.IsList := by
  cases h <;> exact hp

/-- The pieces of a piece that is a list. -/
theorem pieces (h : Built c' p q cs) (hp : p.IsList) :
    cs = 0 ∧ Built c' p.first q.first 0 ∧ Built c' p.rest q.rest 0 := by
  cases h with
  | exprs => exact ⟨rfl, .expr, .exprs⟩
  | params => exact ⟨rfl, .data, .params⟩
  | headed => exact ⟨rfl, .params, .exprs⟩
  | bindings => exact ⟨rfl, .headed, .bindings⟩
  | binder => exact ⟨rfl, .bindings, .exprs⟩
  | _ => exact hp.elim

theorem operands (f : StandardForm) : Built c' (.operands f) (.operands f) 0 := by
  cases f with
  | quote => exact .data
  | define | lambda | assignment => exact .headed
  | binding => exact .binder
  | _ => exact .exprs

end Segment.Built

/-- A pair stands for a pair. -/
theorem Context.Built.pair_cases (h : c.Built v (.pair d d') as) : ∃ a x y bs bs', v = .pair a ∧
    c.heap.content a = some (.pair x y) ∧ c.Built x d bs ∧ c.Built y d' bs' ∧ as = a ::ₘ (bs + bs') := by
  cases h with
  | pair hcell hx hy => exact ⟨_, _, _, _, _, rfl, hcell, hx, hy, rfl⟩

theorem Context.Built.sym_cases {name : String} (h : c.Built v (.sym name) as) :
    ∃ i, v = .sym i ∧ c.symbols.names[i]? = some name ∧ as = 0 := by
  cases h with
  | sym hname => exact ⟨_, rfl, hname, rfl⟩

theorem Context.Built.nil_cases (h : c.Built v .nil as) : v = .nil ∧ as = 0 := by
  cases h
  exact ⟨rfl, rfl⟩

/-- What is no pair in a text is no pair in the heap. -/
theorem Context.Built.isPair_eq (h : c.Built v d as) (hd : Datum.code.lone d) : v.isPair = false := by
  cases h with
  | pair _ _ _ => exact absurd rfl (hd _ _)
  | _ => rfl

/-- A special form in a text is one in the heap. -/
theorem Context.Built.form {f : StandardForm} {L : Codebook} (h : c.Built v d as) (hd : Datum.code.form d f)
    (hnames : L.names = c.symbols.names) : L.code.form v f := by
  obtain rfl : d = .sym f.name := hd
  obtain ⟨i, rfl, hi, -⟩ := h.sym_cases
  exact ⟨i, rfl, hnames ▸ hi⟩

theorem Context.Built.plain {L : Codebook} (h : c.Built v d as) (hd : Datum.code.plain d)
    (hnames : L.names = c.symbols.names) : L.code.plain v := by
  rintro i rfl
  cases h with
  | sym hname => exact ⟨_, hnames ▸ hname, fun f e => hd f (congrArg Datum.sym e)⟩

/-- **Values of these data are recast code** once their cells are. -/
def Recasts (c c' : Context) (p : Segment Datum) (d d' : Datum) : Prop :=
  ∀ {v v' : Value} {as as' cs : Multiset Addr} {q : Segment Value}, c.Built v d as → c'.Built v' d' as' →
    p.Built c' q cs → Zips c c' as (as' + cs) fun K => K.Recast q v v'

namespace Recasts

variable {p : Segment Datum} {e e' z z' ds names body body' exprs : Datum}

theorem data (d : Datum) : Recasts c c' .data d d := by
  intro v v' as as' cs q hv hv' hq
  cases hq
  rw [add_zero]
  exact (Zips.data hv hv').weaken fun _ _ _ => .data

theorem atom (hp : p.IsList ∨ p = .expr) (hlone : Datum.code.lone d) : Recasts c c' p d d := by
  intro v v' as as' cs q hv hv' hq
  have hcs : cs = 0 ∧ (q.IsList ∨ q = .expr) := by
    rcases hp with hp | rfl
    · exact ⟨(hq.pieces hp).1, .inl (hq.isList hp)⟩
    · cases hq
      exact ⟨rfl, .inr rfl⟩
  rw [hcs.1, add_zero]
  exact (Zips.data hv hv').weaken fun _ _ _ hrel => .atom hcs.2 (hv.isPair_eq hlone) hrel

theorem list (hp : p.IsList) (hx : Recasts c c' p.first d e) (hy : Recasts c c' p.rest d' e') :
    Recasts c c' p (.pair d d') (.pair e e') := by
  intro v v' as as' cs q hv hv' hq
  obtain ⟨rfl, hfirst, hrest⟩ := hq.pieces hp
  obtain ⟨a, u, w, bs, ds, rfl, hcell, hu, hw, rfl⟩ := hv.pair_cases
  obtain ⟨b, u', w', bs', ds', rfl, hcell', hu', hw', rfl⟩ := hv'.pair_cases
  refine (((((hx hu hu' hfirst).and (hy hw hw' hrest)).code_left hcell).code_right hcell').weaken
    fun K _ _ ⟨hb, ha, hx, hy⟩ => .list (hq.isList hp) ⟨a, rfl, ha⟩ ⟨b, rfl, hb⟩ hx hy).congr rfl ?_
  simp only [add_zero]

theorem special (f : StandardForm) (hargs : Recasts c c' (.operands f) d d') :
    Recasts c c' .expr (.pair (.sym f.name) d) (.pair (.sym f.name) d') := by
  intro v v' as as' cs q hv hv' hq
  cases hq
  obtain ⟨a, u, w, bs, ds, rfl, hcell, hu, hw, rfl⟩ := hv.pair_cases
  obtain ⟨b, u', w', bs', ds', rfl, hcell', hu', hw', rfl⟩ := hv'.pair_cases
  obtain ⟨i, rfl, hi, rfl⟩ := hu.sym_cases
  obtain ⟨j, rfl, hj, rfl⟩ := hu'.sym_cases
  refine ((((hargs hw hw' (.operands f)).code_left hcell).code_right hcell').weaken fun K hl hr ⟨hb, ha, hargs⟩ =>
    .special ⟨a, rfl, ha⟩ ⟨b, rfl, hb⟩ ⟨i, rfl, hl ▸ hi⟩ ⟨j, rfl, hr ▸ hj⟩ hargs).congr ?_ ?_
  · rw [zero_add]
  · simp only [add_zero, zero_add]

theorem call (hplain : Datum.code.plain d) (hplain' : Datum.code.plain e) (hx : Recasts c c' .expr d e)
    (hy : Recasts c c' .exprs d' e') : Recasts c c' .expr (.pair d d') (.pair e e') := by
  intro v v' as as' cs q hv hv' hq
  cases hq
  obtain ⟨a, u, w, bs, ds, rfl, hcell, hu, hw, rfl⟩ := hv.pair_cases
  obtain ⟨b, u', w', bs', ds', rfl, hcell', hu', hw', rfl⟩ := hv'.pair_cases
  refine (((((hx hu hu' .expr).and (hy hw hw' .exprs)).code_left hcell).code_right hcell').weaken
    fun K hl hr ⟨hb, ha, hhead, hargs⟩ => .call ⟨a, rfl, ha⟩ ⟨b, rfl, hb⟩ (hu.plain hplain hl) (hu'.plain hplain' hr)
      hhead hargs).congr rfl ?_
  simp only [add_zero]

/-- **A `let` form and an applied function.** -/
theorem applied (hsplit : Recasts c c' (.split names) ds exprs) (hbody : Recasts c c' .exprs body body') :
    Recasts c c' .expr (.pair (.sym StandardForm.binding.name) (.pair ds body))
      (.pair (.pair (.sym StandardForm.lambda.name) (.pair names body')) exprs) := by
  intro v v' as as' cs q hv hv' hq
  cases hq
  obtain ⟨a, u, w, _, _, rfl, hcell, hu, hw, rfl⟩ := hv.pair_cases
  obtain ⟨a₁, w₁, w₂, bs, ws, rfl, hcell₁, hbs, hforms, rfl⟩ := hw.pair_cases
  obtain ⟨b, u', w', _, es, rfl, hcell', hu', hexprs, rfl⟩ := hv'.pair_cases
  obtain ⟨b₁, u₁, w₁', _, _, rfl, hcell₁', hu₁, hw₁, rfl⟩ := hu'.pair_cases
  obtain ⟨b₂, n, w₂', ns, ws', rfl, hcell₂, hnames, hforms', rfl⟩ := hw₁.pair_cases
  obtain ⟨i, rfl, hi, rfl⟩ := hu.sym_cases
  obtain ⟨j, rfl, hj, rfl⟩ := hu₁.sym_cases
  have hzip := (hsplit hbs hexprs (.split hnames)).and (hbody hforms hforms' .exprs)
  refine ((((((hzip.code_left hcell₁).code_left hcell).code_right hcell₂).code_right hcell₁').code_right
    hcell').weaken fun K hl hr ⟨hb, hb₁, hb₂, ha, ha₁, hsplit, hforms⟩ =>
      .applied ⟨a, rfl, ha⟩ ⟨a₁, rfl, ha₁⟩ ⟨i, rfl, hl ▸ hi⟩ ⟨b, rfl, hb⟩
        nofun ⟨b₁, rfl, hb₁⟩ ⟨b₂, rfl, hb₂⟩ ⟨j, rfl, hr ▸ hj⟩ hsplit hforms).congr ?_ ?_
  · rw [zero_add]
  · simp only [add_zero, zero_add, Multiset.cons_add]
    rw [add_comm (ns + ws') es, add_assoc]

theorem splitNil : Recasts c c' (.split .nil) .nil .nil := by
  intro v v' as as' cs q hv hv' hq
  cases hq with
  | split hn =>
    obtain ⟨rfl, rfl⟩ := hv.nil_cases
    obtain ⟨rfl, rfl⟩ := hv'.nil_cases
    obtain ⟨rfl, rfl⟩ := hn.nil_cases
    exact (Zips.empty fun _ _ _ => .splitNil rfl rfl rfl).congr rfl (zero_add 0).symm

/-- A name alone. -/
theorem splitBare (name : String) (hrest : Recasts c c' (.split names) d d') :
    Recasts c c' (.split (.pair (.sym name) names)) (.pair (.sym name) d) (.pair .nil d') := by
  intro v v' as as' cs q hv hv' hq
  cases hq with
  | split hn =>
    obtain ⟨a, u, w, _, ds, rfl, hcell, hu, hw, rfl⟩ := hv.pair_cases
    obtain ⟨b, u', w', _, ds', rfl, hcell', hu', hw', rfl⟩ := hv'.pair_cases
    obtain ⟨n, x, ms, _, ns, rfl, hcelln, hx, hms, rfl⟩ := hn.pair_cases
    obtain ⟨i, rfl, hi, rfl⟩ := hu.sym_cases
    obtain ⟨j, rfl, hj, rfl⟩ := hx.sym_cases
    obtain ⟨rfl, rfl⟩ := hu'.nil_cases
    refine (((((hrest hw hw' (.split hms)).code_left hcell).code_right hcelln).code_right hcell').weaken
      fun K hl hr ⟨hb, hn, ha, hrest⟩ => .splitBare ⟨a, rfl, ha⟩ ⟨n, rfl, hn⟩ ⟨b, rfl, hb⟩ rfl
        (.sym (hl ▸ hi) (hr ▸ hj)) rfl hrest).congr ?_ ?_
    · rw [zero_add]
    · simp only [zero_add, Multiset.cons_add, Multiset.add_cons]
      exact Multiset.cons_swap b n _

/-- A name with an expression. -/
theorem splitPair (name : String) (hexpr : Recasts c c' .expr e e') (hrest : Recasts c c' (.split names) d d') :
    Recasts c c' (.split (.pair (.sym name) names)) (.pair (.pair (.sym name) (.pair e .nil)) d) (.pair e' d') := by
  intro v v' as as' cs q hv hv' hq
  cases hq with
  | split hn =>
    obtain ⟨a, u, w, _, ds, rfl, hcell, hu, hw, rfl⟩ := hv.pair_cases
    obtain ⟨a₁, s, t, _, _, rfl, hcell₁, hs, ht, rfl⟩ := hu.pair_cases
    obtain ⟨a₂, o, r, es, _, rfl, hcell₂, ho, hr, rfl⟩ := ht.pair_cases
    obtain ⟨b, u', w', es', ds', rfl, hcell', hu', hw', rfl⟩ := hv'.pair_cases
    obtain ⟨n, x, ms, _, ns, rfl, hcelln, hx, hms, rfl⟩ := hn.pair_cases
    obtain ⟨i, rfl, hi, rfl⟩ := hs.sym_cases
    obtain ⟨j, rfl, hj, rfl⟩ := hx.sym_cases
    obtain ⟨rfl, rfl⟩ := hr.nil_cases
    have hzip := (hexpr ho hu' .expr).and (hrest hw hw' (.split hms))
    refine ((((((hzip.code_left hcell₂).code_left hcell₁).code_left hcell).code_right hcelln).code_right
      hcell').weaken fun K hl hr ⟨hb, hn, ha, ha₁, ha₂, hexpr, hrest⟩ =>
        .splitPair ⟨a, rfl, ha⟩ ⟨a₁, rfl, ha₁⟩ ⟨a₂, rfl, ha₂⟩ rfl
          ⟨n, rfl, hn⟩ ⟨b, rfl, hb⟩ rfl (.sym (hl ▸ hi) (hr ▸ hj)) hexpr hrest).congr ?_ ?_
    · simp only [zero_add, add_zero, Multiset.cons_add]
    · simp only [zero_add, add_zero, Multiset.cons_add, Multiset.add_cons, add_assoc]
      exact Multiset.cons_swap b n _

/-- **Recast data**, one case for each form. -/
theorem of_recast (h : Datum.Recast p d d') : Recasts c c' p d d' := by
  induction h with
  | data h =>
    subst h
    exact data _
  | atom hp hlone h =>
    subst h
    exact atom hp hlone
  | list hp hd hd' _ _ ihx ihy =>
    cases hd
    cases hd'
    exact list hp ihx ihy
  | special hd hd' hf hf' _ ih =>
    cases hd
    cases hd'
    cases hf
    cases hf'
    exact special _ ih
  | call hd hd' hplain hplain' _ _ ihx ihy =>
    cases hd
    cases hd'
    exact call hplain hplain' ihx ihy
  | applied hd hargs hf hd' _ hfunc hargs' hf' _ _ ihsplit ihbody =>
    cases hd
    cases hargs
    cases hf
    cases hd'
    cases hfunc
    cases hargs'
    cases hf'
    exact applied ihsplit ihbody
  | splitNil hd hnames hd' =>
    cases hd
    cases hnames
    cases hd'
    exact splitNil
  | splitBare hd hnames hd' hx hname he' _ ih =>
    obtain ⟨name, rfl⟩ := hx
    cases hd
    cases hnames
    cases hd'
    cases hname
    cases he'
    exact splitBare name ih
  | splitPair hd hb hz hw hnames hd' hx hname _ _ ihe ih =>
    obtain ⟨name, rfl⟩ := hx
    cases hd
    cases hb
    cases hz
    cases hw
    cases hnames
    cases hd'
    cases hname
    exact splitPair name ihe ih

end Recasts

/-! ## 3. Contexts that agree -/

theorem StandardForm.exists_of_named {name : String} (h : named name ≠ none) : ∃ f : StandardForm, name = f.name := by
  by_contra hnone
  exact h (named_eq_none (not_exists.mp hnone))

/-- **A side learns names.** None of them is the name of a special form. -/
theorem Side.learn {L : Codebook} (hc : Side L c) (h : c.Scans c') (hv : c'.heap.Valid) :
    Side ⟨L.pair, c'.symbols.names⟩ c' := by
  have hforms : c'.forms = c.forms := h.alters.rest.forms
  have hnames : ∀ {i name}, L.names[i]? = some name → c'.symbols.names[i]? = some name := fun {i name} hi =>
    h.names i name (hc.names.symm ▸ hi)
  refine
    { valid := hv
      code := fun hp => h.content (hc.code hp)
      names := rfl
      sound := h.sound
      forms := fun {i name} hi => ?_
      known := fun f => (hc.known f).imp fun _ => hnames
      bare := fun {i} hi => ?_
      settled := h.alters.rest.looping.trans hc.settled
      types := h.alters.types.trans hc.types }
  · rw [hforms]
    cases hold : L.names[i]? with
    | some other =>
      obtain rfl := Option.some.inj ((hnames hold).symm.trans hi)
      exact hc.forms hold
    | none =>
      have hnew : StandardForm.named name = none := by
        by_contra hne
        obtain ⟨f, rfl⟩ := StandardForm.exists_of_named hne
        obtain ⟨j, hj⟩ := hc.known f
        obtain rfl := h.sound.one _ _ _ hi (hnames hj)
        rw [hj] at hold
        cases hold
      rw [hc.bare hold, hnew]
      rfl
  · rw [hforms]
    cases hold : L.names[i]? with
    | some name => exact absurd ((hnames hold).symm.trans hi) nofun
    | none => exact hc.bare hold

namespace Duet

variable {D : Duet}

/-- What corresponds, with the names of other contexts. -/
def learned (D : Duet) (c c' : Context) : Concord where
  link := D.concord.link
  left := ⟨D.concord.left.pair, c.symbols.names⟩
  right := ⟨D.concord.right.pair, c'.symbols.names⟩

/-- **Contexts that agree learn names**, and take cells for themselves. -/
theorem Sound.learn (hD : D.Sound) (hl : D.left.Scans c) (hr : D.right.Scans c') (hv : c.heap.Valid)
    (hv' : c'.heap.Valid) : Sound ⟨D.learned c c', c, c'⟩ ∧ D.Later ⟨D.learned c c', c, c'⟩ := by
  have hle : D.concord.Le (D.learned c c') :=
    { link := fun _ _ => id
      left := ⟨fun _ _ _ => id, fun i name hi => hl.names i name (hD.left.names.symm ▸ hi)⟩
      right := ⟨fun _ _ _ => id, fun i name hi => hr.names i name (hD.right.names.symm ▸ hi)⟩ }
  refine ⟨
    { left := hD.left.learn hl hv
      right := hD.right.learn hr hv'
      one_left := hD.one_left
      one_right := hD.one_right
      cells := fun h => ?_
      apart_left := hD.apart_left
      apart_right := hD.apart_right
      rootEnv := ?_
      truth := ?_
      failing := hl.alters.rest.failing.trans (hD.failing.trans hr.alters.rest.failing.symm)
      failure := hl.alters.rest.failure.trans (hD.failure.trans hr.alters.rest.failure.symm)
      output := hl.alters.rest.output.trans (hD.output.trans hr.alters.rest.output.symm) },
    hle, fun hx hu => ⟨hl.content hx, hu⟩, fun hx hu => ⟨hr.content hx, hu⟩⟩
  · obtain ⟨x, x', hx, hx', hcontent⟩ := hD.cells h
    exact ⟨x, x', hl.content hx, hr.content hx', hcontent.mono hle⟩
  · show (D.learned c c').Rel c.rootEnv c'.rootEnv
    rw [hl.alters.rest.rootEnv, hr.alters.rest.rootEnv]
    exact hD.rootEnv.mono hle
  · show (D.learned c c').Rel c.truth c'.truth
    rw [hl.alters.rest.truth, hr.alters.rest.truth]
    exact hD.truth.mono hle

/-- **Values of recast texts correspond** once some of their cells do, and others are code. -/
theorem Sound.zip (hD : D.Sound) (hl : D.left.Scans c) (hr : D.right.Scans c') (hv : c.heap.Valid)
    (hv' : c'.heap.Valid) (hzip : Zips c c' as as' P) (hnodup : as.Nodup) (hnodup' : as'.Nodup)
    (hfresh : ∀ a ∈ as, D.left.heap.content a = none) (hfresh' : ∀ b ∈ as', D.right.heap.content b = none) :
    ∃ K, Sound ⟨K, c, c'⟩ ∧ D.Later ⟨K, c, c'⟩ ∧ P K := by
  obtain ⟨hD₁, later₁⟩ := hD.learn hl hr hv hv'
  obtain ⟨ls, ts, ts', rfl, rfl, hk⟩ := hzip
  have hjoined := hk (Duet.joined ⟨D.learned c c', c, c'⟩ ls ts ts')
    { link := fun _ hq => .inr hq
      left := fun a ha x y hx => .inr ⟨ha, hx⟩
      right := fun b hb x y hx => .inr ⟨hb, hx⟩
      names_left := rfl
      names_right := rfl }
  have hjoins : Duet.Joins ⟨D.learned c c', c, c'⟩ ls ts ts' :=
    { nodup_left := Multiset.coe_nodup.mp hnodup
      nodup_right := Multiset.coe_nodup.mp hnodup'
      unused_left := fun a ha => hD.unused_left (hfresh a ha)
      unused_right := fun b hb => hD.unused_right (hfresh' b hb)
      cells := hjoined.2 }
  exact ⟨_, hD₁.join hjoins, later₁.join hfresh hfresh', hjoined.1⟩

end Duet

end LispMachine
