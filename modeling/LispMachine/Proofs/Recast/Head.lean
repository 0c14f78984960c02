import LispMachine.Proofs.Recast.Local

/-!
# A function at the head of a form

* `Context.entered`, `Machine.enterEval_eq` -- the evaluation of a pair begins;
* `Context.Turned` -- what has become of a context while nothing of what it held was written;
* `Machine.gets_head` -- **a function at the head of a form is made**, on one side alone.
-/

namespace LispMachine

open Context Machine

/-! ## 1. Evaluations of pairs -/

/-- A context in which the evaluation of a pair has begun. -/
def Context.entered (env expr : Value) (c : Context) : Context :=
  { c with
    heap := { c.heap with roots := (c.heap.roots.push env).push expr }
    depth := c.depth + 1
    peakDepth := max c.peakDepth (c.depth + 1) }

section

variable {c d : Context} {env expr v : Value} {tail : Bool} {n : Nat}

theorem Context.Alters.entered (c : Context) (env expr : Value) (S : Addr → Prop) :
    c.Alters S (c.entered env expr) where
  rest := { Context.Steady.refl c with }
  types := rfl
  content _ _ := rfl

theorem Context.valid_entered (hv : c.heap.Valid) (env expr : Value) : (c.entered env expr).heap.Valid :=
  hv.withRoots _

theorem Heap.Stocked.entered (hs : c.heap.Stocked n) (env expr : Value) : (c.entered env expr).heap.Stocked n :=
  hs.withRoots _

namespace Machine

/-- A pair is evaluated where there is room. -/
theorem enterEval_eq (host : Host) (hexpr : expr.isPair = true) (hdeep : c.depth < c.maxDepth) :
    enterEval host env expr tail c = (do
      let next ← enterForm host env expr tail
      pure (next.andThen (.leave c.heap.roots.size))) (c.entered env expr) := by
  cases expr with
  | pair a =>
    show (if isAtLimit c = true then _ else _ : Run Next) c = _
    rw [if_neg (by simpa [isAtLimit] using hdeep)]
    rfl
  | _ => cases hexpr

theorem enterForm_eq_call (host : Host) (h : specialForm? c expr = none) :
    enterForm host env expr tail c = .ok { task := .evalList env expr, pending := [.call tail] } c := by
  rw [enterForm, run_bind (run_observe _ _), h]
  rfl

theorem enterForm_eq_form (host : Host) {f : StandardForm} (h : specialForm? c expr = some (.standard f)) :
    enterForm host env expr tail c = f.enter env (c.heap.cdr expr) tail c := by
  rw [enterForm, run_bind (run_observe _ _), h]
  rfl

end Machine

end

/-! ## 2. A function at the head of a form -/

/-- Cells have been taken since, and these are the roots. -/
structure Context.Turned (c : Context) (as : List Addr) (roots : Array Value) (d : Context) : Prop where
  adds : c.Adds as d
  valid : d.heap.Valid
  roots : d.heap.roots = roots

namespace Context.Turned

variable {c d : Context} {as : List Addr} {roots roots' : Array Value} {L : Codebook}

theorem refl (hv : c.heap.Valid) : c.Turned [] c.heap.roots c := ⟨.refl c, hv, rfl⟩

theorem withRoots (h : c.Turned as roots d) (roots' : Array Value) : c.Turned as roots' (d.withRoots roots') :=
  ⟨h.adds.withRoots roots', h.valid.withRoots roots', rfl⟩

/-- A context with more room, in which nothing has been written. -/
theorem alter {e : Context} (h : c.Turned as roots d) (ha : d.Alters (fun _ => False) e) (hv : e.heap.Valid)
    (hroots : e.heap.roots = roots') : c.Turned as roots' e := by
  have hadds : c.Adds (as ++ []) e := h.adds.trans ⟨ha.mono nofun, nofun, nofun, List.nodup_nil⟩
  rw [List.append_nil] at hadds
  exact ⟨hadds, hv, hroots⟩

theorem trans {e : Context} {bs : List Addr} (h : c.Turned as roots d) (h' : d.Adds bs e) (hv : e.heap.Valid)
    (hroots : e.heap.roots = roots') : c.Turned (as ++ bs) roots' e :=
  ⟨h.adds.trans h', hv, hroots⟩

theorem roomy (h : c.Turned as roots d) (i j : Nat) : c.Turned as roots (d.roomy i j) :=
  h.alter (.roomy h.valid i j _) (valid_roomy h.valid i j) ((roots_roomy h.valid i j).trans h.roots)

theorem entered (h : c.Turned as roots d) (env expr : Value) :
    c.Turned as ((roots.push env).push expr) (d.entered env expr) :=
  h.alter (.entered d env expr _) (valid_entered h.valid env expr) (h.roots ▸ rfl)

/-- Code is not written. -/
theorem side (h : c.Turned as roots d) (hc : Side L c) : Side L d :=
  hc.alter h.adds.alters h.valid fun a x y ha hp => by
    have hfresh := h.adds.fresh a ha
    rw [hc.code hp] at hfresh
    cases hfresh

end Context.Turned

section

variable {L M : Codebook} {c : Context} {env expr v func exprs head args names body : Value} {xs : List Value}
variable {as : List Addr} {roots : Array Value} {tail : Bool} {n : Nat} {ps : List Pending}

/-- A list of code lies in the heap. -/
theorem Codebook.Lists.exists_links (hc : Side L c) (h : L.Lists v xs) : ∃ as, c.heap.Lists v xs as := by
  induction h with
  | nil => exact ⟨[], .nil⟩
  | @cons a _ _ _ hcell _ ih =>
    obtain ⟨as, hl⟩ := ih
    exact ⟨a :: as, .cons (Heap.cell_of_content (hc.code hcell)) hl⟩

theorem Heap.Links.paramsValid {h : Heap} {as : List Addr} {e : Value} (hl : h.Links v xs as e) (he : e = .nil)
    (hsym : ∀ x ∈ xs, x.isSym = true) (hn : xs.length ≤ n) : paramsValid h n v = true := by
  induction hl generalizing n with
  | nil =>
    rw [he]
    cases n <;> rfl
  | @cons a x y e xs as hc _ ih =>
    obtain ⟨m, rfl⟩ : ∃ m, n = m + 1 := ⟨n - 1, by rw [List.length_cons] at hn; omega⟩
    obtain ⟨hx, hxs⟩ := List.forall_mem_cons.mp hsym
    rw [Machine.paramsValid, if_pos (show (Value.pair a).isPair = true from rfl), Heap.car_of_cell hc,
      Heap.cdr_of_cell hc, hx, Bool.true_and]
    exact ih he hxs (Nat.le_of_succ_le_succ hn)

/-- Symbols make up a list of parameters. -/
theorem Heap.Links.isParameterList {h : Heap} {as : List Addr} (hl : h.Lists v xs as)
    (hsym : ∀ x ∈ xs, x.isSym = true) : isParameterList h v = true :=
  hl.paramsValid rfl hsym (hl.length_le rfl)

namespace Machine

variable {c₀ : Context}

/-- A form whose head is no special form is evaluated as a list. -/
theorem gets_evalList (hc : Side M c) (le : L.Le M) (hv : L.code.pair v func exprs) (hplain : L.code.plain func)
    (ht : c₀.Turned as roots c) : Gets 1 ⟨c, .eval env v tail, ps⟩ fun τ => ∃ d,
      τ = ⟨d, .evalList env v, .call tail :: .leave roots.size :: ps⟩ ∧ Side M d ∧
        c₀.Turned as ((roots.push env).push v) d := by
  refine Gets.start (k := 0) hc.valid (by nofun) 0 fun i j hdeep => ?_
  have ht₁ := (ht.roomy i j).entered env v
  have hc₁ := (((Turned.refl hc.valid).roomy i j).entered env v).side hc
  refine Serves.of_eq (enterEval_eq Host.none (hc.car_cdr le hv).1 hdeep) (fun k hs => hs.entered env v)
    (Serves.after (enterForm_eq_call Host.none (hc₁.specialForm?_eq_none le hv hplain)) (fun _ => id)
      (Serves.pure (.done ⟨_, ?_, hc₁, ht₁⟩)))
  rw [(ht.roomy i j).roots]
  rfl

/-- The first element of a list is evaluated first. -/
theorem gets_first (hc : Side M c) (le : L.Le M) (hv : L.code.pair v func exprs) (ht : c₀.Turned as roots c) :
    Gets 1 ⟨c, .evalList env v, ps⟩ fun τ => ∃ d,
      τ = ⟨d, .eval env func false, .argument env v roots.size .nil :: ps⟩ ∧ Side M d ∧
        c₀.Turned as (roots.push .nil) d := by
  refine Gets.start (k := 0) hc.valid (by nofun) 0 fun i j _ => ?_
  have hroots := (ht.roomy i j).roots
  have ht₁ := (ht.roomy i j).withRoots (roots.push .nil)
  have hc₁ := (((Turned.refl hc.valid).roomy i j).withRoots (roots.push .nil)).side hc
  obtain ⟨hpair, hcar, -⟩ := hc₁.car_cdr le hv
  refine Serves.pushRoot .nil ?_
  rw [hroots, enterArguments, if_pos hpair]
  refine Serves.look (Serves.pure (.done ⟨_, ?_, hc₁, ht₁⟩))
  rw [hcar]
  rfl

/-- **A function is made** in the place of a form. -/
theorem gets_lambda (hc : Side M c) (le : L.Le M) (hfunc : L.code.pair func head args)
    (hargs : L.code.pair args names body) (hf : L.code.form head .lambda) (hnames : L.Lists names xs)
    (hsym : ∀ x ∈ xs, x.isSym = true) (ht : c₀.Turned [] roots c) :
    Gets 1 ⟨c, .eval env func tail, ps⟩ fun τ => ∃ d o parts as, τ = ⟨d, .give (.object o), ps⟩ ∧
      d.heap.content o = some (.object CoreType.func.id (.closure parts)) ∧
      d.heap.Lists parts [env, names, body, .nil] as ∧ c₀.Turned (o :: as) roots d := by
  refine Gets.start (k := 0) hc.valid (by nofun) 5 fun i j hdeep => ?_
  have ht₁ := (ht.roomy i j).entered env func
  have hc₁ := (((Turned.refl hc.valid).roomy i j).entered env func).side hc
  have hroots := (ht.roomy i j).roots
  obtain ⟨hpair, hcar, -⟩ := hc₁.car_cdr le hargs
  obtain ⟨as, hl⟩ := (hnames.mono le).exists_links hc₁
  refine Serves.of_eq (enterEval_eq Host.none (hc.car_cdr le hfunc).1 hdeep) (fun k hs => hs.entered env func) ?_
  refine Serves.bind (P := fun next d => ∃ o parts as, next = .give (.object o) ∧
    d.heap.content o = some (.object CoreType.func.id (.closure parts)) ∧
    d.heap.Lists parts [env, names, body, .nil] as ∧
    c₀.Turned (o :: as) ((roots.push env).push func) d) (m := 0) ?_ fun next d h => Serves.pure ?_
  · refine Serves.of_eq (enterForm_eq_form Host.none (hc₁.specialForm?_eq le hfunc hf)) (fun _ => id) ?_
    rw [(hc₁.car_cdr le hfunc).2.2]
    show Serves 5 (enterLambda env args) _ _
    unfold enterLambda
    refine Serves.look (Serves.look ?_)
    rw [hcar, hpair, hl.isParameterList hsym]
    refine Serves.look ?_
    rw [(hc₁.car_cdr le hargs).2.2]
    refine (Serves.func hc₁.funcs env names body .nil).valid.bind (m := 0) fun o d h => Serves.pure ?_
    obtain ⟨hvalid, o, parts, as, rfl, ho, hl, hroots₂, hadds⟩ := h
    exact ⟨o, parts, as, rfl, ho, hl, ht₁.trans hadds hvalid (hroots₂.trans ht₁.roots)⟩
  · obtain ⟨o, parts, as, rfl, ho, hl, ht₂⟩ := h
    refine Gets.resume ht₂.valid 0 fun i' j' => ?_
    have hroots₃ := (ht₂.roomy i' j').roots
    have hshrink : (d.roomy i' j').heap.roots.shrink (c.roomy i j).heap.roots.size = roots := by
      rw [hroots₃, hroots]
      simp [Array.shrink_eq_take]
    refine Serves.popRoots (by rw [hroots₃, hroots]; simp; omega) ?_
    rw [hshrink]
    let left : Context := (d.roomy i' j').withRoots roots
    have hleft : d.Adds [] { left with depth := left.depth - 1 } := by
      have halters := (Alters.roomy ht₂.valid i' j' (· ∈ [])).withRoots roots
      exact ⟨⟨{ halters.rest with }, halters.types, halters.content⟩, nofun, nofun, List.nodup_nil⟩
    refine Serves.after (d := { left with depth := left.depth - 1 }) rfl (fun k hs => hs) (Serves.pure (.done
      ⟨_, o, parts, as, rfl, hleft.kept ho, hl.kept hleft, ?_⟩))
    have ht₃ := ht₂.trans hleft ((valid_roomy ht₂.valid i' j').withRoots roots) rfl
    rwa [List.append_nil] at ht₃

end Machine

/-- **A function at the head of a form is made**, for the arguments that follow. -/
theorem Machine.gets_head (hc : Side M c) (le : L.Le M) (env : Value) (tail : Bool) (ps : List Pending)
    (hv : L.code.pair v func exprs) (hfunc : L.code.pair func head args) (hargs : L.code.pair args names body)
    (hf : L.code.form head .lambda) (hnames : L.Lists names xs) (hsym : ∀ x ∈ xs, x.isSym = true) :
    Gets 1 ⟨c, .eval env v tail, ps⟩ fun τ => ∃ d o parts as, τ = ⟨d, .give (.object o),
        .argument env v (c.heap.roots.size + 2) .nil :: .call tail :: .leave c.heap.roots.size :: ps⟩ ∧
      d.heap.content o = some (.object CoreType.func.id (.closure parts)) ∧
      d.heap.Lists parts [env, names, body, .nil] as ∧
      c.Turned (o :: as) (((c.heap.roots.push env).push v).push .nil) d := by
  have hplain : L.code.plain func := by
    obtain ⟨a, rfl, -⟩ := hfunc
    exact nofun
  refine ((gets_evalList hc le hv hplain (.refl hc.valid)).trans (m := 0) fun τ h => ?_)
  obtain ⟨d, rfl, hd, ht⟩ := h
  refine Gets.mono ((gets_first hd le hv ht).trans (m := 0) fun τ h => ?_) (Nat.zero_le 1)
  obtain ⟨d, rfl, hd, ht⟩ := h
  refine Gets.mono ((gets_lambda hd le hfunc hargs hf hnames hsym ht).weaken fun τ h => ?_) (Nat.zero_le 1)
  obtain ⟨d, o, parts, as, rfl, ho, hl, ht⟩ := h
  refine ⟨d, o, parts, as, ?_, ho, hl, ht⟩
  simp

end

end LispMachine
