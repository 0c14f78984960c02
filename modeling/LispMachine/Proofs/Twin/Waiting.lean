import LispMachine.Proofs.Trampoline.Drive
import LispMachine.Proofs.Twin.Tail

/-!
# Steps that wait, on both sides

A pending step holds values in registers while whatever is above it on the stack is done. What it has
rooted is below a height; what happens meanwhile happens above it (`Couple.Onward`).

* `Waiting` -- **pending steps that agree**: each says which slots keep its registers, which function
  is running when it goes on, and in what role it takes the value it waits for. One that goes on in
  tail position says what waits behind it (`TailFrom`). Behind a body, steps of the right side alone may
  come first (`Behind`);
* `TaskAgree`, `Together` -- tasks that agree, and two machines that do: with a task in front of steps
  that wait, or with a value that the right side hands on first;
* `Proceeds` -- what a step leads to: a task, and steps in front of whatever waits already.
-/

namespace LispMachine

/-- A list whose elements are evaluated one after the other. -/
structure Shape.Listed (s : Shape) : Prop where
  first : s.first = .code
  rest : s.rest = .exprs
  fixed : s.Fixed

theorem Shape.listed_call : Shape.call.Listed := ⟨rfl, rfl, rfl⟩

theorem Shape.listed_exprs : Shape.exprs.Listed := ⟨rfl, rfl, rfl⟩

/-- Calls that agree, and are under way. -/
structure CallAgree (D : Couple) (call call' : Call) : Prop where
  base : call'.base = D.slot call.base
  parts : D.twin.PartsAgree Shape.Fixed call.base call.closure call'.closure

/-! ## 1. Pending steps -/

/-- **Pending steps that agree**: their registers are kept by the first `n` slots, `γ` are the
    functions that are running, and the first of them takes a value in the role `ρ`. -/
inductive Waiting (lex : Lexicon) (D : Couple) :
    Nat → Value × Value → Role → List Pending → List Pending → Prop where
  | nil {n : Nat} : Waiting lex D n (.nil, .nil) (.just .data) [] []
  | exec {n base base' : Nat} {source : List Char} {echo : Bool} {ps ps' : List Pending}
      (hb : base < n) (hb' : base' = D.slot base)
      (h : Waiting lex D base (.nil, .nil) (.just .data) ps ps') :
      Waiting lex D n (.nil, .nil) (.just .data) (.exec source base echo :: ps)
        (.exec source base' echo :: ps')
  | leave {n base base' : Nat} {γ : Value × Value} {ps ps' : List Pending} (hb : base < n)
      (hb' : base' = D.slot base) (h : Waiting lex D base γ (.just .data) ps ps') :
      Waiting lex D n γ (.just .data) (.leave base :: ps) (.leave base' :: ps')
  | release {n base base' : Nat} {γ : Value × Value} {ps ps' : List Pending} (hb : base < n)
      (hb' : base' = D.slot base) (h : Waiting lex D base γ (.just .data) ps ps') :
      Waiting lex D n γ (.just .data) (.release base :: ps) (.release base' :: ps')
  | call {n : Nat} {γ : Value × Value} {tail : Bool} {ps ps' : List Pending}
      (ht : TailFrom D n (lex.nested && tail) ps ps' .code .nil .nil)
      (h : Waiting lex D n γ (.just .data) ps ps') :
      Waiting lex D n γ (.just .form) (.call tail :: ps) (.call tail :: ps')
  | argument {n base base' : Nat} {γ : Value × Value} {s : Shape} {σ : Option Shape}
      {env env' rest rest' last last' : Value} {ps ps' : List Pending} (hb : base < n)
      (hb' : base' = D.slot base) (henv : D.Kept base (.just .frame) env env') (hs : s.Listed)
      (hrest : D.Kept base (.just s) rest rest')
      (hσ : ∀ t, σ = some t → t.rest = .data)
      (hlast : D.twin.Building Shape.Fixed base (.just .form) σ last last')
      (h : Waiting lex D base γ (.just .form) ps ps') :
      Waiting lex D n γ (.just .data) (.argument env rest base last :: ps)
        (.argument env' rest' base' last' :: ps')
  | body {n : Nat} {γ : Value × Value} {call call' : Call} {frame frame' forms forms' g : Value}
      {extra ps ps' : List Pending} (hcall : CallAgree D call call') (hb : call.base + 2 ≤ n)
      (hγ : D.Kept call.base (.just .data) γ.1 γ.2)
      (hfunc : call'.closure = D.right.heap.closure γ.2)
      (hframe : D.Kept (call.base + 2) (.just .frame) frame frame')
      (hforms : D.Kept call.base (.just .exprs) forms forms')
      (hextra : Unwinds lex D call.base call'.base call'.caller g extra)
      (h : Waiting lex D call.base (call.caller, g) (.just .data) ps ps') :
      Waiting lex D n γ (.just .data) (.body call frame forms :: ps)
        (.body call' frame' forms' :: (extra ++ ps'))
  | branch {n : Nat} {γ : Value × Value} {env env' args args' : Value} {tail : Bool}
      {ps ps' : List Pending} (henv : D.Kept n (.just .frame) env env')
      (hargs : D.Kept n (.just .exprs) args args')
      (ht : TailFrom D n (lex.nested && tail) ps ps' (.just .exprs) args args')
      (h : Waiting lex D n γ (.just .data) ps ps') :
      Waiting lex D n γ (.just .data) (.branch env args tail :: ps) (.branch env' args' tail :: ps')
  | define {n : Nat} {γ : Value × Value} {env env' name name' : Value} {ps ps' : List Pending}
      (henv : D.Kept n (.just .frame) env env')
      (hname : D.Kept n (.just .inert) name name')
      (h : Waiting lex D n γ (.just .data) ps ps') :
      Waiting lex D n γ (.just .data) (.define env name :: ps) (.define env' name' :: ps')
  | assign {n : Nat} {γ : Value × Value} {env env' name name' : Value} {ps ps' : List Pending}
      (henv : D.Kept n (.just .frame) env env')
      (hname : D.Kept n (.just .inert) name name')
      (h : Waiting lex D n γ (.just .data) ps ps') :
      Waiting lex D n γ (.just .data) (.assign env name :: ps) (.assign env' name' :: ps')
  | sequence {n : Nat} {γ : Value × Value} {env env' forms forms' : Value} {tail : Bool}
      {ps ps' : List Pending} (henv : D.Kept n (.just .frame) env env')
      (hforms : D.Kept n (.just .exprs) forms forms')
      (ht : TailFrom D n (lex.nested && tail) ps ps' (.just .exprs) forms forms')
      (h : Waiting lex D n γ (.just .data) ps ps') :
      Waiting lex D n γ (.just .data) (.sequence env forms tail :: ps)
        (.sequence env' forms' tail :: ps')
  | conjunction {n : Nat} {γ : Value × Value} {env env' forms forms' : Value} {tail : Bool}
      {ps ps' : List Pending} (henv : D.Kept n (.just .frame) env env')
      (hforms : D.Kept n (.just .exprs) forms forms')
      (ht : TailFrom D n (lex.nested && tail) ps ps' (.just .exprs) forms forms')
      (h : Waiting lex D n γ (.just .data) ps ps') :
      Waiting lex D n γ (.just .data) (.conjunction env forms tail :: ps)
        (.conjunction env' forms' tail :: ps')
  | disjunction {n : Nat} {γ : Value × Value} {env env' forms forms' : Value} {tail : Bool}
      {ps ps' : List Pending} (henv : D.Kept n (.just .frame) env env')
      (hforms : D.Kept n (.just .exprs) forms forms')
      (ht : TailFrom D n (lex.nested && tail) ps ps' (.just .exprs) forms forms')
      (h : Waiting lex D n γ (.just .data) ps ps') :
      Waiting lex D n γ (.just .data) (.disjunction env forms tail :: ps)
        (.disjunction env' forms' tail :: ps')
  | binding {n : Nat} {γ : Value × Value} {env env' frame frame' args args' : Value}
      {bindings bindings' name name' : Value} {tail : Bool} {ps ps' : List Pending}
      (henv : D.Kept n (.just .frame) env env')
      (hframe : D.Kept n (.just .frame) frame frame')
      (hargs : D.Kept n (.just .letArgs) args args')
      (hbindings : D.Kept n (.just .letBindings) bindings bindings')
      (hname : D.Kept n (.just .inert) name name')
      (ht : TailFrom D n (lex.nested && tail) ps ps' (.just .letArgs) args args')
      (h : Waiting lex D n γ (.just .data) ps ps') :
      Waiting lex D n γ (.just .data) (.binding env frame args bindings name tail :: ps)
        (.binding env' frame' args' bindings' name' tail :: ps')

/-- Steps that agree, behind those that the right side alone has, which begin at the height `top`. -/
def Behind (lex : Lexicon) (D : Couple) (n top : Nat) (γ : Value × Value)
    (ps ps' : List Pending) : Prop :=
  ∃ g extra qs', ps' = extra ++ qs' ∧ Unwinds lex D n top γ.2 g extra ∧
    Waiting lex D n (γ.1, g) (.just .data) ps qs'

variable {lex : Lexicon} {γ γ' : Value × Value} {D D' : Couple} {b m n top : Nat} {ρ ρ' : Role}
variable {ps ps' : List Pending} {call call' : Call} {v v' : Value} {tail : Bool}

theorem CallAgree.onward (h : CallAgree D call call') (hD : D.Matched lex γ)
    (hD' : D'.Matched lex γ') (ho : D.twin.Onward Shape.Fixed n D'.twin)
    (hslot : D'.slot call.base = D.slot call.base) (hn : call.base ≤ n) : CallAgree D' call call' where
  base := h.base.trans hslot.symm
  parts :=
    { env := h.parts.env.onward hD.coherent hD'.coherent ho hn
      params := h.parts.params.onward hD.coherent hD'.coherent ho hn
      body := h.parts.body.onward hD.coherent hD'.coherent ho hn
      name := h.parts.name.onward hD.coherent hD'.coherent ho hn }

namespace Waiting

/-- More slots keep the same. -/
theorem mono (h : Waiting lex D m γ ρ ps ps') (hmn : m ≤ n) : Waiting lex D n γ ρ ps ps' := by
  induction h generalizing n with
  | nil => exact .nil
  | exec hb hb' h _ => exact .exec (Nat.lt_of_lt_of_le hb hmn) hb' h
  | leave hb hb' h _ => exact .leave (Nat.lt_of_lt_of_le hb hmn) hb' h
  | release hb hb' h _ => exact .release (Nat.lt_of_lt_of_le hb hmn) hb' h
  | call ht _ ih => exact .call (ht.mono hmn) (ih hmn)
  | argument hb hb' henv hs hrest hσ hlast h _ =>
    exact .argument (Nat.lt_of_lt_of_le hb hmn) hb' henv hs hrest hσ hlast h
  | body hcall hb hγ hfunc hframe hforms hextra h _ =>
    exact .body hcall (Nat.le_trans hb hmn) hγ hfunc hframe hforms hextra h
  | branch henv hargs ht _ ih =>
    exact .branch (henv.lift hmn) (hargs.lift hmn) (ht.mono hmn)
      (ih hmn)
  | define henv hname _ ih => exact .define (henv.lift hmn) (hname.lift hmn) (ih hmn)
  | assign henv hname _ ih => exact .assign (henv.lift hmn) (hname.lift hmn) (ih hmn)
  | sequence henv hforms ht _ ih =>
    exact .sequence (henv.lift hmn) (hforms.lift hmn) (ht.mono hmn)
      (ih hmn)
  | conjunction henv hforms ht _ ih =>
    exact .conjunction (henv.lift hmn) (hforms.lift hmn)
      (ht.mono hmn) (ih hmn)
  | disjunction henv hforms ht _ ih =>
    exact .disjunction (henv.lift hmn) (hforms.lift hmn)
      (ht.mono hmn) (ih hmn)
  | binding henv hframe hargs hbindings hname ht _ ih =>
    exact .binding (henv.lift hmn) (hframe.lift hmn) (hargs.lift hmn) (hbindings.lift hmn)
      (hname.lift hmn) (ht.mono hmn) (ih hmn)

/-- **Steps that wait are not disturbed** by what happens above them. -/
theorem onward {β β' : Value × Value} (h : Waiting lex D n γ ρ ps ps') (hD : D.Matched lex β)
    (hD' : D'.Matched lex β') (ho : D.twin.Onward Shape.Fixed n D'.twin) :
    Waiting lex D' n γ ρ ps ps' := by
  have kept : ∀ {k m : Nat} {ρ : Role} {v v' : Value}, D.twin.Onward Shape.Fixed k D'.twin →
      D.Kept m ρ v v' → m ≤ k → D'.Kept m ρ v v' :=
    fun ho hv hmk => hv.onward hD.coherent hD'.coherent ho hmk
  have slot : ∀ {k base base' : Nat}, D.twin.Onward Shape.Fixed k D'.twin → base < k →
      base' = D.slot base → base' = D'.slot base := fun ho hk hb' =>
    hb'.trans (ho.slots _ hk).symm
  have lower : ∀ {k m : Nat}, D.twin.Onward Shape.Fixed k D'.twin → m ≤ k →
      D.twin.Onward Shape.Fixed m D'.twin := fun ho hmk => ho.mono (fun _ => id) hmk
  induction h with
  | nil => exact .nil
  | exec hb hb' _ ih => exact .exec hb (slot ho hb hb') (ih (lower ho (Nat.le_of_lt hb)))
  | leave hb hb' _ ih => exact .leave hb (slot ho hb hb') (ih (lower ho (Nat.le_of_lt hb)))
  | release hb hb' _ ih => exact .release hb (slot ho hb hb') (ih (lower ho (Nat.le_of_lt hb)))
  | call ht _ ih => exact .call (ht.onward hD hD' ho) (ih ho)
  | argument hb hb' henv hs hrest hσ hlast _ ih =>
    have hle := Nat.le_of_lt hb
    exact .argument hb (slot ho hb hb') (kept ho henv hle) hs (kept ho hrest hle) hσ
      (hlast.onward hD.coherent hD'.coherent ho hb) (ih (lower ho hle))
  | @body n γ call call' _ _ _ _ _ _ _ _ hcall hb hγ hfunc hframe hforms hextra _ ih =>
    have hlt : call.base < n := by omega
    have hle := Nat.le_of_lt hlt
    have hclosure : D'.right.heap.closure γ.2 = D.right.heap.closure γ.2 :=
      ((lower ho hle).closure_eq hD.coherent (fun _ hs => hs) hγ).2
    exact .body (hcall.onward hD hD' ho (ho.slots _ hlt) hle) hb (kept ho hγ hle)
      (hfunc.trans hclosure.symm) (kept ho hframe hb) (kept ho hforms hle)
      (hextra.onward hD hD' ho hle) (ih (lower ho hle))
  | branch henv hargs ht _ ih =>
    exact .branch (kept ho henv (Nat.le_refl _)) (kept ho hargs (Nat.le_refl _))
      (ht.onward hD hD' ho) (ih ho)
  | define henv hname _ ih =>
    exact .define (kept ho henv (Nat.le_refl _)) (kept ho hname (Nat.le_refl _)) (ih ho)
  | assign henv hname _ ih =>
    exact .assign (kept ho henv (Nat.le_refl _)) (kept ho hname (Nat.le_refl _)) (ih ho)
  | sequence henv hforms ht _ ih =>
    exact .sequence (kept ho henv (Nat.le_refl _)) (kept ho hforms (Nat.le_refl _))
      (ht.onward hD hD' ho) (ih ho)
  | conjunction henv hforms ht _ ih =>
    exact .conjunction (kept ho henv (Nat.le_refl _)) (kept ho hforms (Nat.le_refl _))
      (ht.onward hD hD' ho) (ih ho)
  | disjunction henv hforms ht _ ih =>
    exact .disjunction (kept ho henv (Nat.le_refl _)) (kept ho hforms (Nat.le_refl _))
      (ht.onward hD hD' ho) (ih ho)
  | binding henv hframe hargs hbindings hname ht _ ih =>
    exact .binding (kept ho henv (Nat.le_refl _)) (kept ho hframe (Nat.le_refl _))
      (kept ho hargs (Nat.le_refl _)) (kept ho hbindings (Nat.le_refl _))
      (kept ho hname (Nat.le_refl _)) (ht.onward hD hD' ho) (ih ho)

/-- The functions that are running are kept, too. -/
theorem current (h : Waiting lex D n γ ρ ps ps') :
    D.Kept n (.just .data) γ.1 γ.2 := by
  induction h with
  | nil => exact .atom rfl
  | exec _ _ _ _ => exact .atom rfl
  | leave hb _ _ ih => exact ih.lift (Nat.le_of_lt hb)
  | release hb _ _ ih => exact ih.lift (Nat.le_of_lt hb)
  | argument hb _ _ _ _ _ _ _ ih => exact ih.lift (Nat.le_of_lt hb)
  | body _ hb hγ _ _ _ _ _ _ => exact hγ.lift (Nat.le_trans (Nat.le_add_right _ 2) hb)
  | call _ _ ih | branch _ _ _ _ ih | define _ _ _ ih | assign _ _ _ ih | sequence _ _ _ _ ih
  | conjunction _ _ _ _ ih | disjunction _ _ _ _ ih | binding _ _ _ _ _ _ _ ih => exact ih

/-- The slots of a body that a value is handed on to are below those that keep what waits. -/
theorem base_le (hw : Waiting lex D n γ ρ ps ps') (h : Returning D b m ps ps') : b + 2 ≤ n := by
  induction h generalizing n γ ρ with
  | body hb _ =>
    cases hw with
    | body _ hn => exact hb ▸ hn
  | leave _ h _ =>
    cases hw with
    | leave hn _ _ => exact Nat.le_trans h.base_le (Nat.le_of_lt hn)
  | release _ h _ =>
    cases hw with
    | release hn _ _ => exact Nat.le_trans h.base_le (Nat.le_of_lt hn)
  | sequence _ _ ih =>
    cases hw with
    | sequence _ _ _ hw => exact ih hw
  | conjunction _ _ ih =>
    cases hw with
    | conjunction _ _ _ hw => exact ih hw
  | disjunction _ _ ih =>
    cases hw with
    | disjunction _ _ _ hw => exact ih hw

/-- Text goes on being in tail position. -/
theorem inTail_onward {β β' : Value × Value} (hw : Waiting lex D n γ ρ' ps ps')
    (h : InTail D m ps ps' ρ v v') (hD : D.Matched lex β) (hD' : D'.Matched lex β')
    (ho : D.twin.Onward Shape.Fixed n D'.twin) : InTail D' m ps ps' ρ v v' := by
  obtain ⟨b, hreturning, hkept⟩ := h
  have hb := hw.base_le hreturning
  exact ⟨b, hreturning.onward hD hD' ho (by omega),
    hkept.onward hD.coherent hD'.coherent ho (by omega)⟩

end Waiting

namespace Behind

theorem of_waiting (h : Waiting lex D n γ (.just .data) ps ps') : Behind lex D n top γ ps ps' :=
  ⟨γ.2, [], ps', rfl, .nil, h⟩

theorem onward {β β' : Value × Value} (h : Behind lex D n top γ ps ps') (hD : D.Matched lex β)
    (hD' : D'.Matched lex β') (ho : D.twin.Onward Shape.Fixed n D'.twin) :
    Behind lex D' n top γ ps ps' := by
  obtain ⟨g, extra, qs', hps, hextra, hw⟩ := h
  exact ⟨g, extra, qs', hps, hextra.onward hD hD' ho (Nat.le_refl n), hw.onward hD hD' ho⟩

end Behind

/-! ## 2. Tasks -/

/-- Tasks that agree in front of what waits, and the role of the value that they come to. -/
inductive TaskAgree (lex : Lexicon) (D : Couple) (n : Nat) (ps ps' : List Pending) :
    Role → Task → Task → Prop where
  | give {ρ : Role} {v v' : Value} (hv : D.world.Rel ρ v v') :
      TaskAgree lex D n ps ps' ρ (.give v) (.give v')
  | eval {env env' expr expr' : Value} {tail : Bool} (henv : D.world.Rel (.just .frame) env env')
      (hexpr : D.world.Rel .code expr expr')
      (ht : (lex.nested && tail) = true → InTail D D.height ps ps' .code expr expr') :
      TaskAgree lex D n ps ps' (.just .data) (.eval env expr tail) (.eval env' expr' tail)
  | evalList {s : Shape} {env env' list list' : Value}
      (henv : D.Kept n (.just .frame) env env') (hs : s.Listed)
      (hlist : D.Kept n (.just s) list list') :
      TaskAgree lex D n ps ps' (.just .form) (.evalList env list) (.evalList env' list')
  | apply {func func' args args' : Value} (hfunc : D.world.Rel (.just .data) func func')
      (hargs : D.world.Rel (.just .data) args args') :
      TaskAgree lex D n ps ps' (.just .data) (.apply func args) (.apply func' args')

/-- An expression out of tail position. -/
theorem TaskAgree.eval_inner {lex : Lexicon} {D : Couple} {n : Nat} {ps ps' : List Pending}
    {env env' expr expr' : Value} (henv : D.world.Rel (.just .frame) env env')
    (hexpr : D.world.Rel .code expr expr') :
    TaskAgree lex D n ps ps' (.just .data) (.eval env expr false) (.eval env' expr' false) := by
  refine .eval henv hexpr fun ht => ?_
  rw [Bool.and_false] at ht
  cases ht

/-- An expression that is in tail position on both sides, or on neither. -/
theorem TaskAgree.eval_last {lex : Lexicon} {D : Couple} {n : Nat} {ps ps' : List Pending}
    {env env' expr expr' : Value} {tail tail' : Bool} (htail : tail' = tail)
    (henv : D.world.Rel (.just .frame) env env') (hexpr : D.world.Rel .code expr expr')
    (ht : (lex.nested && tail) = true → InTail D D.height ps ps' .code expr expr') :
    TaskAgree lex D n ps ps' (.just .data) (.eval env expr tail) (.eval env' expr' tail') := by
  subst htail
  exact .eval henv hexpr ht

/-- There is something to do on both sides, or on neither. -/
theorem TaskAgree.unfinished {lex : Lexicon} {D : Couple} {γ : Value × Value} {n : Nat} {ρ : Role}
    {task task' : Task} {ps ps' : List Pending} (h : TaskAgree lex D n ps ps' ρ task task')
    (hw : Waiting lex D n γ ρ ps ps') (hgo : Machine.Unfinished task ps) :
    Machine.Unfinished task' ps' := by
  cases h with
  | give hv =>
    rcases hgo with hps | hgive
    · cases hw with
      | nil => exact absurd rfl hps
      | _ => exact .inl (List.cons_ne_nil _ _)
    · exact absurd rfl (hgive _)
  | _ => exact .inr nofun

/-- **Two machines that go on alike**, with a task in front of steps that wait. -/
inductive Together (lex : Lexicon) (γ : Value × Value) (D : Couple) :
    Task → List Pending → Task → List Pending → Prop where
  | task {n : Nat} {ρ : Role} {task task' : Task} {ps ps' : List Pending} (hn : n ≤ D.height)
      (ht : TaskAgree lex D n ps ps' ρ task task') (hw : Waiting lex D n γ ρ ps ps') :
      Together lex γ D task ps task' ps'
  /-- A value goes back to steps that the right side has alone. -/
  | back {v v' : Value} {ps ps' : List Pending} (hv : D.world.Rel (.just .data) v v')
      (hfail : D.left.failing = true → v = .nil)
      (hw : Behind lex D D.height D.right.heap.roots.size γ ps ps') :
      Together lex γ D (.give v) ps (.give v') ps'

/-- What two steps lead to goes on, with the pending steps behind it. -/
def Continues (lex : Lexicon) (ps ps' : List Pending) (γ : Value × Value) (D : Couple)
    (next next' : Next) : Prop :=
  Together lex γ D next.task (next.pending ++ ps) next'.task (next'.pending ++ ps')

/-- **What two steps lead to goes on, whatever waits behind it** below a height, for a value in a
    role, and with certain functions running. -/
def Proceeds (lex : Lexicon) (n : Nat) (β : Value × Value) (ρ : Role) (γ : Value × Value)
    (D : Couple) (next next' : Next) : Prop :=
  ∀ ps ps', Waiting lex D n β ρ ps ps' → Continues lex ps ps' γ D next next'

/-- The same for what is done with text that may be in tail position. -/
def ProceedsFrom (lex : Lexicon) (n : Nat) (β : Value × Value) (tail : Bool) (ρ : Role)
    (v v' : Value) (γ : Value × Value) (D : Couple) (next next' : Next) : Prop :=
  ∀ ps ps', Waiting lex D n β (.just .data) ps ps' → TailFrom D n (lex.nested && tail) ps ps' ρ v v' →
    Continues lex ps ps' γ D next next'

/-- The same for an expression at the height `m`. -/
def ProceedsAt (lex : Lexicon) (n m : Nat) (β : Value × Value) (tail : Bool) (v v' : Value)
    (γ : Value × Value) (D : Couple) (next next' : Next) : Prop :=
  ∀ ps ps', Waiting lex D n β (.just .data) ps ps' →
    ((lex.nested && tail) = true → InTail D m ps ps' .code v v') →
    Continues lex ps ps' γ D next next'

/-- The same for a call that is under way. -/
def ProceedsIn (lex : Lexicon) (call call' : Call) (γ : Value × Value) (D : Couple)
    (next next' : Next) : Prop :=
  ∀ ps ps', Behind lex D call.base call'.base (call.caller, call'.caller) ps ps' →
    Continues lex ps ps' γ D next next'

namespace Proceeds

/-- A value is handed back. -/
theorem give (hn : n ≤ D.height) (hv : D.world.Rel ρ v v') :
    Proceeds lex n γ ρ γ D (.give v) (.give v') := fun _ _ hw => .task hn (.give hv) hw

/-- An expression is evaluated out of tail position, and one more step waits for its value. -/
theorem eval {env env' expr expr' : Value} {p p' : Pending}
    (hm : m ≤ D.height) (henv : D.world.Rel (.just .frame) env env')
    (hexpr : D.world.Rel .code expr expr')
    (hp : ∀ ps ps', Waiting lex D n γ ρ ps ps' →
      Waiting lex D m γ' (.just .data) (p :: ps) (p' :: ps')) :
    Proceeds lex n γ ρ γ' D (.eval env expr false p) (.eval env' expr' false p') := fun ps ps' hw =>
  .task hm (.eval_inner henv hexpr) (hp ps ps' hw)

/-- What goes on above more slots goes on above fewer. -/
theorem lower {next next' : Next} (h : Proceeds lex m γ ρ γ' D next next') (hnm : n ≤ m) :
    Proceeds lex n γ ρ γ' D next next' := fun ps ps' hw => h ps ps' (hw.mono hnm)

end Proceeds

/-- Whether the text is in tail position may not matter. -/
theorem ProceedsFrom.of_proceeds {next next' : Next}
    (h : Proceeds lex n γ (.just .data) γ' D next next') :
    ProceedsFrom lex n γ tail ρ v v' γ' D next next' := fun ps ps' hw _ => h ps ps' hw

theorem ProceedsAt.of_proceeds {next next' : Next}
    (h : Proceeds lex n γ (.just .data) γ' D next next') :
    ProceedsAt lex n m γ tail v v' γ' D next next' := fun ps ps' hw _ => h ps ps' hw

/-- One more step waits behind the others. -/
theorem Continues.andThen {next next' : Next} {p p' : Pending}
    (h : Continues lex (p :: ps) (p' :: ps') γ D next next') :
    Continues lex ps ps' γ D (next.andThen p) (next'.andThen p') := by
  rw [Continues, Next.andThen, Next.andThen, List.append_assoc, List.append_assoc]
  exact h

end LispMachine
