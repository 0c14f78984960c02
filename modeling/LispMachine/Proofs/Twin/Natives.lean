import LispMachine.Proofs.Twin.Binding
import LispMachine.Proofs.Twin.Calls

/-!
# The natives, on both sides

* `Native.walkInts` -- folds and comparisons of integers are walks that stop at the first value that
  is no integer. On a list that does not end both sides stop there, or neither comes to a result
  (`Leads.walkInts`);
* `Leads.primitive` -- **a primitive does the same on both sides**, one lemma for each kind of them;
* `Leads.enterNative` -- its arguments are laid out alike before.
-/

namespace LispMachine

open World

/-! ## 1. Walks over integers -/

namespace Native

/-- A walk over integers: each is combined with what those before it have come to. -/
def walkInts {σ : Type} (name : String) (step : σ → Word → σ) (position : Nat) (acc : σ) :
    List Value → Run (Option σ)
  | [] => pure (some acc)
  | v :: vs => do
    match ← int? name position v with
    | some n => walkInts name step (position + 1) (step acc n) vs
    | none => pure none

theorem foldInts_eq (name : String) (op : Word → Word → Word) (position : Nat) (acc : Word)
    (vs : List Value) : foldInts name op position acc vs = walkInts name op position acc vs := by
  induction vs generalizing position acc with
  | nil => rfl
  | cons v vs ih =>
    cases v with
    | int n => exact ih (position + 1) (op acc n.toWord)
    | _ => rfl

theorem chainInts_eq (name : String) (rel : Word → Word → Bool) (position : Nat) (holds : Bool)
    (previous : Word) (vs : List Value) : chainInts name rel position holds previous vs =
      (do pure ((← walkInts name (fun p n => (p.1 && rel p.2 n, n)) position (holds, previous)
        vs).map Prod.fst)) := by
  induction vs generalizing position holds previous with
  | nil => rfl
  | cons v vs ih =>
    cases v with
    | int n => exact ih (position + 1) (holds && rel previous n.toWord) n.toWord
    | _ => rfl

/-- Not an integer. -/
def isOther (v : Value) : Bool := !v.isInt

theorem walkInts_ints {σ : Type} (name : String) (step : σ → Word → σ) (position : Nat) (acc : σ)
    {vs : List Value} (hvs : vs.findIdx? isOther = none) :
    ∃ a, walkInts name step position acc vs = pure (some a) := by
  induction vs generalizing position acc with
  | nil => exact ⟨acc, rfl⟩
  | cons v vs ih =>
    rw [List.findIdx?_cons] at hvs
    cases v with
    | int n =>
      exact ih (position + 1) (step acc n.toWord) (Option.map_eq_none_iff.mp hvs)
    | _ => cases hvs

theorem walkInts_other {σ : Type} {name : String} {step : σ → Word → σ} {position : Nat} {acc : σ}
    {vs : List Value} {k : Nat} (hvs : vs.findIdx? isOther = some k) :
    walkInts name step position acc vs = (do
      let _ ← Context.fail (argumentText name (position + k) "not an int")
      pure none) := by
  induction vs generalizing position acc k with
  | nil => cases hvs
  | cons v vs ih =>
    rw [List.findIdx?_cons] at hvs
    cases v with
    | int n =>
      obtain ⟨j, hj, rfl⟩ := Option.map_eq_some_iff.mp hvs
      rw [← Nat.add_assoc, Nat.add_right_comm]
      exact ih hj
    | _ =>
      cases hvs
      rfl

end Native

namespace Spine

variable {R : Value → Value → Prop} {spine spine' : Spine} {items items' : List Value}

theorem findIdx?_congr {p : Value → Bool} (h : List.Forall₂ R items items')
    (hp : ∀ u u', R u u' → p u = p u') : items.findIdx? p = items'.findIdx? p := by
  induction h with
  | nil => rfl
  | cons hv _ ih => rw [List.findIdx?_cons, List.findIdx?_cons, hp _ _ hv, ih]

/-- Integers are the same on both sides. -/
theorem ints_eq (hR : ∀ u u', R u u' → u.Kindred u') (h : List.Forall₂ R items items')
    (hints : items.findIdx? Native.isOther = none) : items' = items := by
  induction h with
  | nil => rfl
  | @cons v v' vs vs' hv _ ih =>
    rw [List.findIdx?_cons] at hints
    cases hR _ _ hv with
    | int n => rw [ih (Option.map_eq_none_iff.mp hints)]
    | _ => cases hints

theorem Similar.findIdx?_eq {p : Value → Bool} (h : Spine.Similar R spine spine')
    (hp : ∀ u u', R u u' → p u = p u') : spine.items.findIdx? p = spine'.items.findIdx? p := by
  cases h with
  | «at» hi _ => exact findIdx?_congr hi hp
  | endless hf => exact hf p hp

end Spine

namespace Leads

variable {lex : Lexicon} {γ : Value × Value} {D : Couple} {S : Shape → Prop} {n : Nat}
variable {v v' w w' rest rest' : Value} {spine spine' : Spine} {ρ : Role}

/-- A walk over integers comes to the same, unless the list does not end. -/
theorem walkInts {σ : Type} (hD : D.Matched lex γ) (hn : n ≤ D.height)
    (hs : Spine.Similar D.world.Same spine spine') (name : String) (step : σ → Word → σ)
    (position : Nat) (acc : σ) :
    Leads lex S n γ D (Native.walkInts name step position acc spine.items)
      (Native.walkInts name step position acc spine'.items)
      (fun D' o o' => D'.twin = D.twin ∧ o.isSome = o'.isSome ∧
        (spine.ending ≠ .endless → o = o')) := by
  have hfind := Spine.Similar.findIdx?_eq (p := Native.isOther) hs fun _ _ h =>
    congrArg (!·) (Twin.kindred_of_same h).isInt_eq
  cases hk : spine.items.findIdx? Native.isOther with
  | some k =>
    rw [Native.walkInts_other hk, Native.walkInts_other (hfind ▸ hk)]
    refine bind hD (fail hD hn rfl) (Nat.le_refl n) fun hD₁ ho₁ hq => ?_
    exact pure hD₁ ho₁.heaps.height ⟨rfl, hq.1, rfl, fun _ => rfl⟩
  | none =>
    cases hs with
    | «at» hi _ =>
      obtain ⟨a, ha⟩ := Native.walkInts_ints name step position acc hk
      rw [show _ = _ from Spine.ints_eq (fun _ _ => Twin.kindred_of_same) hi hk]
      dsimp only at ha ⊢
      rw [ha]
      exact pure hD hn ⟨rfl, rfl, rfl, fun _ => rfl⟩
    | endless _ =>
      obtain ⟨a, ha⟩ := Native.walkInts_ints name step position acc hk
      obtain ⟨a', ha'⟩ := Native.walkInts_ints name step position acc (hfind ▸ hk)
      rw [ha, ha']
      exact pure hD hn ⟨rfl, rfl, rfl, fun h => absurd rfl h⟩

/-- A walk that does not end does not come to a result. -/
theorem finishWalk {α α' : Type} {r : α} {r' : α'} {P : Value × Value → Couple → α → α' → Prop}
    (hD : D.Matched lex γ) (hn : n ≤ D.height) (hs : Spine.Similar D.world.Same spine spine')
    (hr : spine.ending ≠ .endless → P γ D r r') :
    Steps lex S n D (Native.finish spine r) (Native.finish spine' r') P := by
  cases hs with
  | «at» _ _ => exact pure hD hn (hr nofun)
  | endless _ => exact throw hD _

/-! ## 2. Checks of arguments -/

theorem failNext {message message' : String} (hD : D.Matched lex γ) (hn : n ≤ D.height)
    (hm : message = message') :
    Steps lex S n D (Context.failNext message) (Context.failNext message') (Proceeds lex n γ ρ) := by
  rw [Context.failNext, Context.failNext]
  refine bind hD (fail hD hn hm) (Nat.le_refl n) fun hD₁ ho₁ hq => ?_
  obtain ⟨_, rfl, rfl⟩ := hq
  exact pure hD₁ ho₁.heaps.height (.give ho₁.heaps.height .nil)

/-- A value is handed back. -/
theorem give (hD : D.Matched lex γ) (hn : n ≤ D.height) (hv : D.world.Rel ρ v v') :
    Steps lex S n D (Pure.pure (Next.give v)) (Pure.pure (Next.give v')) (Proceeds lex n γ ρ) :=
  pure hD hn (.give hn hv)

theorem int? (hD : D.Matched lex γ) (hn : n ≤ D.height) (name : String) (position : Nat)
    (hv : D.world.Same v v') :
    Leads lex S n γ D (Native.int? name position v) (Native.int? name position v')
      (fun D' o o' => D'.twin = D.twin ∧ o' = o) := by
  have hother : Leads lex S n γ D
      (Context.fail (Native.argumentText name position "not an int") >>= fun _ =>
        (Pure.pure none : Run (Option Word)))
      (Context.fail (Native.argumentText name position "not an int") >>= fun _ =>
        (Pure.pure none : Run (Option Word)))
      (fun D' o o' => D'.twin = D.twin ∧ o' = o) :=
    bind hD (fail hD hn rfl) (Nat.le_refl n) fun hD₁ ho₁ hq =>
      pure hD₁ ho₁.heaps.height ⟨rfl, hq.1, rfl⟩
  cases hv with
  | atom hv =>
    cases v with
    | int k => exact pure hD hn ⟨rfl, rfl, rfl⟩
    | nil => exact hother
    | sym id => exact hother
    | pair a => cases hv
    | object a => cases hv
  | object _ => exact hother
  | pair _ => exact hother

theorem isPair (hD : D.Matched lex γ) (hn : n ≤ D.height) (name : String) (position : Nat)
    (hv : D.world.Same v v') :
    Leads lex S n γ D (Native.isPair name position v) (Native.isPair name position v')
      (fun D' b b' => D'.twin = D.twin ∧ b' = b) := by
  rw [Native.isPair, Native.isPair]
  refine ite (by rw [hv.isPair_eq]) (fun _ => pure hD hn ⟨rfl, rfl, rfl⟩) fun _ => ?_
  exact bind hD (fail hD hn rfl) (Nat.le_refl n) fun hD₁ ho₁ hq =>
    pure hD₁ ho₁.heaps.height ⟨rfl, hq.1, rfl⟩

theorem length? (hD : D.Matched lex γ) (hn : n ≤ D.height) (name : String) (position : Nat)
    (hv : D.world.Same v v') :
    Leads lex S n γ D (Native.length? name position v) (Native.length? name position v')
      (fun D' o o' => D'.twin = D.twin ∧ o' = o) := by
  have hfail : ∀ problem : String, Leads lex S n γ D
      (Context.fail (Native.argumentText name position problem) >>= fun _ =>
        (Pure.pure none : Run (Option Nat)))
      (Context.fail (Native.argumentText name position problem) >>= fun _ =>
        (Pure.pure none : Run (Option Nat)))
      (fun D' o o' => D'.twin = D.twin ∧ o' = o) := fun _ =>
    bind hD (fail hD hn rfl) (Nat.le_refl n) fun hD₁ ho₁ hq =>
      pure hD₁ ho₁.heaps.height ⟨rfl, hq.1, rfl⟩
  rw [Native.length?, Native.length?]
  refine look ?_
  have hcount : D.left.heap.count v = D.right.heap.count v' := hD.coherent.count hv
  rw [← hcount]
  cases D.left.heap.count v with
  | list length => exact pure hD hn ⟨rfl, rfl, rfl⟩
  | improper => exact hfail _
  | circular => exact hfail _
  | unfinished => exact throw hD _

/-! ## 3. Integers -/

theorem foldRest (hD : D.Matched lex γ) (hn : n ≤ D.height) (name : String)
    (op : Word → Word → Word) (position : Nat) (acc : Word) (hrest : D.world.Same rest rest') :
    Steps lex S n D (Native.foldRest name op position acc rest)
      (Native.foldRest name op position acc rest') (Proceeds lex n γ (.just .data)) := by
  have hspine := hD.coherent.spine hrest
  rw [Native.foldRest, Native.foldRest]
  refine look ?_
  rw [Native.foldInts_eq, Native.foldInts_eq]
  refine bind hD (walkInts hD hn hspine name op position acc) (Nat.le_refl n)
    fun {D₁ o o'} hD₁ ho₁ hq => ?_
  obtain ⟨htwin, hsome, heq⟩ := hq
  have hworld := Couple.world_eq htwin
  cases o with
  | none =>
    cases o' with
    | none => exact give hD₁ ho₁.heaps.height .nil
    | some a' => cases hsome
  | some a =>
    cases o' with
    | none => cases hsome
    | some a' =>
      refine finishWalk hD₁ ho₁.heaps.height (hworld ▸ hspine) fun hend => ?_
      cases heq hend
      exact .give ho₁.heaps.height (.int _)

theorem chainInts (hD : D.Matched lex γ) (hn : n ≤ D.height)
    (hs : Spine.Similar D.world.Same spine spine') (name : String) (rel : Word → Word → Bool)
    (previous : Word) :
    Leads lex S n γ D (Native.chainInts name rel 2 true previous spine.items)
      (Native.chainInts name rel 2 true previous spine'.items)
      (fun D' o o' => D'.twin = D.twin ∧ o.isSome = o'.isSome ∧
        (spine.ending ≠ .endless → o = o')) := by
  rw [Native.chainInts_eq, Native.chainInts_eq]
  refine bind hD (walkInts hD hn hs name _ 2 (true, previous)) (Nat.le_refl n)
    fun {D₁ o o'} hD₁ ho₁ hq => ?_
  obtain ⟨htwin, hsome, heq⟩ := hq
  refine pure hD₁ ho₁.heaps.height ⟨rfl, htwin, ?_, fun hend => congrArg _ (heq hend)⟩
  rw [Option.isSome_map, Option.isSome_map, hsome]

theorem compare (hD : D.Matched lex γ) (hn : n ≤ D.height) (name : String)
    (rel : Word → Word → Bool) (hv : D.world.Same v v') (hrest : D.world.Same rest rest') :
    Steps lex S n D (Native.compare name rel v rest) (Native.compare name rel v' rest')
      (Proceeds lex n γ (.just .data)) := by
  rw [Native.compare, Native.compare]
  refine bind hD (int? hD hn name 1 hv) (Nat.le_refl n) fun {D₁ _ o} hD₁ ho₁ hq => ?_
  obtain ⟨htwin, rfl⟩ := hq
  rw [← Couple.world_eq htwin] at hrest
  have hn₁ := ho₁.heaps.height
  cases o with
  | none => exact give hD₁ hn₁ .nil
  | some k =>
    have hspine : Spine.Similar D₁.world.Same (D₁.left.heap.spine rest) (D₁.right.heap.spine rest') :=
      hD₁.coherent.spine hrest
    refine look ?_
    generalize D₁.left.heap.spine rest = spine at hspine ⊢
    generalize D₁.right.heap.spine rest' = spine' at hspine ⊢
    refine bind hD₁ (chainInts hD₁ hn₁ hspine name rel k) (Nat.le_refl n)
      fun {D₂ o o'} hD₂ ho₂ hq => ?_
    obtain ⟨-, hsome, heq⟩ := hq
    have hn₂ := ho₂.heaps.height
    cases o with
    | none =>
      cases o' with
      | none => exact give hD₂ hn₂ .nil
      | some b' => cases hsome
    | some b =>
      cases o' with
      | none => cases hsome
      | some b' =>
        cases hspine with
        | «at» _ _ =>
          cases heq nofun
          exact ofBool hD₂ rfl fun u hu => give hD₂ hn₂ (.atom hu)
        | endless _ => exact .fault hD₂.output

theorem subtract (hD : D.Matched lex γ) (hn : n ≤ D.height) (hv : D.world.Same v v')
    (hrest : D.world.Same rest rest') :
    Steps lex S n D (Native.subtract v rest) (Native.subtract v' rest')
      (Proceeds lex n γ (.just .data)) := by
  rw [Native.subtract, Native.subtract]
  refine bind hD (int? hD hn _ 1 hv) (Nat.le_refl n) fun {D₁ _ o} hD₁ ho₁ hq => ?_
  obtain ⟨htwin, rfl⟩ := hq
  rw [← Couple.world_eq htwin] at hrest
  have hn₁ := ho₁.heaps.height
  cases o with
  | none => exact give hD₁ hn₁ .nil
  | some k =>
    refine ite (by rw [hrest.isNil_eq]) (fun _ => give hD₁ hn₁ (.int _)) fun _ => ?_
    exact foldRest hD₁ hn₁ _ _ _ _ hrest

theorem divide (hD : D.Matched lex γ) (hn : n ≤ D.height) (name : String)
    (op : Word → Word → Word) (hv : D.world.Same v v') (hw : D.world.Same w w') :
    Steps lex S n D (Native.divide name op v w) (Native.divide name op v' w')
      (Proceeds lex n γ (.just .data)) := by
  rw [Native.divide, Native.divide]
  refine bind hD (int? hD hn name 1 hv) (Nat.le_refl n) fun {D₁ _ x} hD₁ ho₁ hq => ?_
  obtain ⟨htwin, rfl⟩ := hq
  rw [← Couple.world_eq htwin] at hw
  refine bind hD₁ (int? hD₁ ho₁.heaps.height name 2 hw) (Nat.le_refl n)
    fun {D₂ _ y} hD₂ ho₂ hq => ?_
  obtain ⟨-, rfl⟩ := hq
  have hn₂ := ho₂.heaps.height
  cases x with
  | none => exact give hD₂ hn₂ .nil
  | some a =>
    cases y with
    | none => exact give hD₂ hn₂ .nil
    | some b =>
      exact ite Iff.rfl (fun _ => failNext hD₂ hn₂ rfl) fun _ => give hD₂ hn₂ (.int _)

/-! ## 4. Pairs and lists -/

theorem slot {read : Heap → Value → Value} (hD : D.Matched lex γ) (hn : n ≤ D.height) (name : String)
    (hv : D.world.Same v v')
    (hread : D.world.Rel (.just .data) (read D.left.heap v) (read D.right.heap v')) :
    Steps lex S n D (Native.slot name read v) (Native.slot name read v')
      (Proceeds lex n γ (.just .data)) := by
  rw [Native.slot, Native.slot]
  refine bind hD (isPair hD hn name 1 hv) (Nat.le_refl n) fun {D₁ _ b} hD₁ ho₁ hq => ?_
  obtain ⟨htwin, rfl⟩ := hq
  have hn₁ := ho₁.heaps.height
  refine ite Iff.rfl (fun _ => look (give hD₁ hn₁ ?_)) fun _ => give hD₁ hn₁ .nil
  have hl : D₁.left.heap = D.left.heap := congrArg Twin.left htwin
  have hr : D₁.right.heap = D.right.heap := congrArg Twin.right htwin
  rw [hl, hr, Couple.world_eq htwin]
  exact hread

/-- A slot of corresponding data is written. -/
theorem setSlot {write : Value → Value → HeapM Unit} (hD : D.Matched lex γ) (hn : n ≤ D.height)
    (name : String) (hv : D.world.Rel (.just .data) v v') (hw : D.world.Rel (.just .data) w w')
    (hwrite : ∀ {D₁ : Couple}, D₁.Matched lex γ → n ≤ D₁.height →
      D₁.world.Rel (.just .data) v v' → D₁.world.Rel (.just .data) w w' →
      Leads lex S n γ D₁ (liftM (write v w)) (liftM (write v' w')) (fun _ _ _ => True)) :
    Steps lex S n D (Native.setSlot name write v w) (Native.setSlot name write v' w')
      (Proceeds lex n γ (.just .data)) := by
  rw [Native.setSlot, Native.setSlot]
  refine bind hD (isPair hD hn name 1 hv.same) (Nat.le_refl n) fun {D₁ _ b} hD₁ ho₁ hq => ?_
  obtain ⟨htwin, rfl⟩ := hq
  rw [← Couple.world_eq htwin] at hv hw
  have hn₁ := ho₁.heaps.height
  refine ite Iff.rfl (fun _ => ?_) fun _ => give hD₁ hn₁ .nil
  exact bind hD₁ (hwrite hD₁ hn₁ hv hw) (Nat.le_refl n) fun hD₂ ho₂ _ =>
    give hD₂ ho₂.heaps.height .nil

theorem listNth (hD : D.Matched lex γ) (hn : n ≤ D.height) (hv : D.world.Rel (.just .data) v v')
    (hw : D.world.Same w w') :
    Steps lex S n D (Native.listNth v w) (Native.listNth v' w') (Proceeds lex n γ (.just .data)) := by
  rw [Native.listNth, Native.listNth]
  refine bind hD (length? hD hn _ 1 hv.same) (Nat.le_refl n) fun {D₁ _ o} hD₁ ho₁ hq => ?_
  obtain ⟨htwin, rfl⟩ := hq
  rw [← Couple.world_eq htwin] at hv hw
  have hn₁ := ho₁.heaps.height
  cases o with
  | none => exact give hD₁ hn₁ .nil
  | some length =>
    refine bind hD₁ (int? hD₁ hn₁ _ 2 hw) (Nat.le_refl n) fun {D₂ _ i} hD₂ ho₂ hq => ?_
    obtain ⟨htwin₂, rfl⟩ := hq
    rw [← Couple.world_eq htwin₂] at hv
    have hn₂ := ho₂.heaps.height
    cases i with
    | none => exact give hD₂ hn₂ .nil
    | some i =>
      refine ite Iff.rfl (fun _ => failNext hD₂ hn₂ rfl) fun _ => look (give hD₂ hn₂ ?_)
      exact hD₂.coherent.nth rfl hv _

/-! ## 5. Everything else -/

theorem test {b b' : Bool} (hD : D.Matched lex γ) (hn : n ≤ D.height) (hb : b = b') :
    Steps lex S n D (Native.test b) (Native.test b') (Proceeds lex n γ (.just .data)) :=
  ofBool hD hb fun _ hu => give hD hn (.atom hu)

theorem printed_eq (hD : D.Matched lex γ) (hv : D.world.Same v v') :
    Native.printed D.left v = Native.printed D.right v' := by
  have hbytes : D.left.heap.bytes? v = D.right.heap.bytes? v' := hD.coherent.bytes?_eq hv
  rw [Native.printed, Native.printed, hbytes, hD.display_eq hv]

theorem map_printed {items items' : List Value} (hD : D.Matched lex γ)
    (h : List.Forall₂ D.world.Same items items') :
    items.map (Native.printed D.left) = items'.map (Native.printed D.right) := by
  induction h with
  | nil => rfl
  | cons hv _ ih => rw [List.map_cons, List.map_cons, printed_eq hD hv, ih]

theorem print (hD : D.Matched lex γ) (hn : n ≤ D.height) (hrest : D.world.Same rest rest') :
    Steps lex S n D (Native.print rest) (Native.print rest') (Proceeds lex n γ (.just .data)) := by
  have hspine : Spine.Similar D.world.Same (D.left.heap.spine rest) (D.right.heap.spine rest') :=
    hD.coherent.spine hrest
  rw [Native.print, Native.print]
  refine look ?_
  generalize D.left.heap.spine rest = spine at hspine ⊢
  generalize D.right.heap.spine rest' = spine' at hspine ⊢
  have hwalk : Leads lex S n γ D (Native.finish spine ()) (Native.finish spine' ())
      (fun D' _ _ => D'.left = D.left ∧ D'.right = D.right ∧
        List.Forall₂ D.world.Same spine.items spine'.items) := by
    cases hspine with
    | endless _ => exact throw hD _
    | «at» hi _ => exact pure hD hn ⟨rfl, rfl, rfl, hi⟩
  refine bind hD hwalk (Nat.le_refl n) fun {D₁ _ _} hD₁ ho₁ hq => ?_
  obtain ⟨hl, hr, hitems⟩ := hq
  have hline := map_printed hD hitems
  refine observe (bind hD₁ (write hD₁ ho₁.heaps.height ?_) (Nat.le_refl n) fun hD₂ ho₂ _ =>
    give hD₂ ho₂.heaps.height .nil)
  rw [hl, hr, hline]

theorem strLen (hD : D.Matched lex γ) (hn : n ≤ D.height) (hv : D.world.Same v v') :
    Steps lex S n D (Native.strLen v) (Native.strLen v') (Proceeds lex n γ (.just .data)) := by
  have hbytes : D.left.heap.bytes? v = D.right.heap.bytes? v' := hD.coherent.bytes?_eq hv
  rw [Native.strLen, Native.strLen]
  refine look ?_
  rw [hbytes]
  cases D.right.heap.bytes? v' with
  | none => exact failNext hD hn rfl
  | some bytes => exact give hD hn (.int _)

theorem applyList (hD : D.Matched lex γ) (hn : n ≤ D.height) (hv : D.world.Rel (.just .data) v v')
    (hw : D.world.Rel (.just .data) w w') :
    Steps lex S n D (Native.apply v w) (Native.apply v' w') (Proceeds lex n γ (.just .data)) := by
  rw [Native.apply, Native.apply]
  refine bind hD (length? hD hn _ 2 hw.same) (Nat.le_refl n) fun {D₁ _ o} hD₁ ho₁ hq => ?_
  obtain ⟨htwin, rfl⟩ := hq
  rw [← Couple.world_eq htwin] at hv hw
  have hn₁ := ho₁.heaps.height
  cases o with
  | none => exact give hD₁ hn₁ .nil
  | some _ => exact pure hD₁ hn₁ fun _ _ hwait => .task hn₁ (.apply hv hw) hwait

/-- **The number of cells that are left** is the same. -/
theorem gc (hD : D.Matched lex γ) (hgc : lex.natives .gc) (hfull : lex.vacant = none)
    (hn : n ≤ D.height) :
    Steps lex S n D Native.gc Native.gc (Proceeds lex n γ (.just .data)) := by
  rw [Native.gc]
  have hplain : lex.nested = false := Bool.eq_false_iff.mpr fun h => lex.uncounted h hgc
  refine bind hD (collect hD hplain hfull hn) (Nat.le_refl n) fun hD₁ ho₁ hq => look ?_
  rw [hq.1]
  exact give hD₁ ho₁.heaps.height (.int _)

/-! ## 6. All of them -/

theorem primitive_one (hD : D.Matched lex γ) (hn : n ≤ D.height) (p : Primitive)
    (hv : D.world.Rel (.just .data) v v') :
    Steps lex Shape.Fixed n D (p.run [v]) (p.run [v']) (Proceeds lex n γ (.just .data)) := by
  have hsame := hv.same
  cases p with
  | add => exact foldRest hD hn _ _ _ _ hsame
  | mul => exact foldRest hD hn _ _ _ _ hsame
  | car => exact slot hD hn _ hsame (hD.coherent.car hv)
  | cdr => exact slot hD hn _ hsame (hD.coherent.cdr hv)
  | list => exact give hD hn hv
  | length =>
    refine bind hD (length? hD hn _ 1 hsame) (Nat.le_refl n) fun {D₁ _ o} hD₁ ho₁ hq => ?_
    obtain ⟨-, rfl⟩ := hq
    cases o with
    | none => exact give hD₁ ho₁.heaps.height .nil
    | some k => exact give hD₁ ho₁.heaps.height (.int _)
  | isNil => exact test hD hn hsame.isNil_eq
  | isCons => exact test hD hn hsame.isPair_eq
  | isSym => exact test hD hn hsame.isSym_eq
  | isInt => exact test hD hn hsame.isInt_eq
  | isStr => exact look (test hD hn (congrArg (fun t => decide (t = _)) (hD.coherent.typeOf_eq hsame)))
  | isFunc =>
    exact look (test hD hn (congrArg (fun t => decide (t = _) || decide (t = _))
      (hD.coherent.typeOf_eq hsame)))
  | not => exact test hD hn hsame.isNil_eq
  | strLen => exact strLen hD hn hsame
  | print => exact print hD hn hsame
  | _ => exact throw hD _

theorem primitive_two (hD : D.Matched lex γ) (hn : n ≤ D.height) (p : Primitive)
    (hv : D.world.Rel (.just .data) v v') (hw : D.world.Rel (.just .data) w w') :
    Steps lex Shape.Fixed n D (p.run [v, w]) (p.run [v', w']) (Proceeds lex n γ (.just .data)) := by
  cases p with
  | sub => exact subtract hD hn hv.same hw.same
  | quotient => exact divide hD hn _ _ hv.same hw.same
  | remainder => exact divide hD hn _ _ hv.same hw.same
  | eq => exact compare hD hn _ _ hv.same hw.same
  | lt => exact compare hD hn _ _ hv.same hw.same
  | gt => exact compare hD hn _ _ hv.same hw.same
  | le => exact compare hD hn _ _ hv.same hw.same
  | ge => exact compare hD hn _ _ hv.same hw.same
  | cons =>
    exact bind hD (cons_rel (s := .data) hD hn hv trivial hw) (Nat.le_refl n) fun hD₁ ho₁ hq =>
      give hD₁ ho₁.heaps.height hq.2
  | setCar =>
    exact setSlot hD hn _ hv hw fun hD₁ hn₁ hv₁ hw₁ => (setCar_rel hD₁ hn₁ hv₁ hw₁ nofun).weaken
      (fun _ => id) (Nat.le_refl n) fun _ _ _ => ⟨rfl, trivial⟩
  | setCdr =>
    exact setSlot hD hn _ hv hw fun hD₁ hn₁ hv₁ hw₁ => (setCdr_rel hD₁ hn₁ hv₁ hw₁ nofun).weaken
      (fun _ => id) (Nat.le_refl n) fun _ _ _ => ⟨rfl, trivial⟩
  | listRef => exact listNth hD hn hv hw.same
  | same => exact test hD hn (decide_eq_decide.mpr (hD.coherent.one.eq_iff hv.same hw.same))
  | equal => exact look (test hD hn (hD.coherent.equal_eq hv.same hw.same))
  | apply => exact applyList hD hn hv hw
  | _ => exact throw hD _

/-- **A primitive does the same on both sides.** -/
theorem primitive {args args' : List Value} (hD : D.Matched lex γ) (hfull : lex.vacant = none)
    (hn : n ≤ D.height) {p : Primitive} (hp : lex.natives p)
    (hargs : List.Forall₂ (D.world.Rel (.just .data)) args args') :
    Steps lex Shape.Fixed n D (p.run args) (p.run args') (Proceeds lex n γ (.just .data)) := by
  rcases hargs with _ | ⟨hv, _ | ⟨hw, _ | ⟨_, _⟩⟩⟩
  · cases p with
    | gc => exact gc hD hp hfull hn
    | _ => exact throw hD _
  · exact primitive_one hD hn p hv
  · exact primitive_two hD hn p hv hw
  · cases p <;> exact throw hD _

/-- **A native is applied.** -/
theorem enterNative (host host' : Host) (hD : D.Matched lex γ) (hfull : lex.vacant = none)
    (hn : n ≤ D.height)
    (hv : D.world.Same v v') (hw : D.world.Rel (.just .data) w w') :
    Steps lex Shape.Fixed n D (Machine.enterNative host v w) (Machine.enterNative host' v' w')
      (Proceeds lex n γ (.just .data)) := by
  have hproc : D.left.heap.procedure? v = D.right.heap.procedure? v' ∧
      ∀ p, D.left.heap.procedure? v = some p → ∃ q, p = .primitive q ∧ lex.natives q :=
    hD.coherent.procedure?_eq hv
  obtain ⟨hsame, hprimitive⟩ := hproc
  rw [Machine.enterNative, Machine.enterNative]
  refine look ?_
  rw [← hsame]
  cases hp : D.left.heap.procedure? v with
  | none => exact failNext hD hn rfl
  | some p =>
    obtain ⟨q, rfl, hq⟩ := hprimitive p hp
    have hargs : Twin.ArgumentsAgree D.world
        (Machine.takeArguments D.left.heap (Procedure.primitive q).arity w)
        (Machine.takeArguments D.right.heap (Procedure.primitive q).arity w') :=
      hD.coherent.takeArguments _ hw
    refine look ?_
    generalize Machine.takeArguments D.left.heap _ w = args at hargs ⊢
    generalize Machine.takeArguments D.right.heap _ w' = args' at hargs ⊢
    cases hargs with
    | fit ha => exact primitive hD hfull hn hq ha
    | misfit e => exact failNext hD hn rfl

end Leads

end LispMachine
