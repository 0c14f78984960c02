import LispMachine.Proofs.Application.Arity
import LispMachine.Proofs.Listener.Reading
import LispMachine.Proofs.Primitive.Lists
import LispMachine.Proofs.Source.Grammar
import LispMachine.Proofs.Twin.Natives

/-!
# Integers are exact modulo `2 ^ 30`

Words wrap while a sum, a product or the value of a literal is built up, and are cut to the width of an
integer in the end:

* `Native.foldInts_ints`, `Native.foldInts_other` -- a fold of integers is a fold of mathematical ones, and
  stops at the first value that is none;
* `Primitive.exact` -- what `+`, `*` and `-` are meant to give;
* `Fixnum.quotient_remainder` -- division toward zero;
* `Native.integers_exact` -- **all of these are exact modulo `2 ^ 30`**, and so is every literal.
-/

namespace LispMachine

open Context

variable {c : Context} {host : Host} {func args rest : Value} {name : String} {vs : List Value}
variable {ns : List Fixnum} {cells : List Addr} {position i : Nat}

namespace Native

variable (op : Word → Word → Word) (f : Int → Int → Int)

/-! ## 1. Folds -/

/-- A fold of integers in words is one of mathematical integers, if each step is. -/
theorem foldInts_ints (hop : ∀ a b : Int, op (BitVec.ofInt 32 a) (BitVec.ofInt 32 b) = BitVec.ofInt 32 (f a b))
    (name : String) (position : Nat) (k : Int) (ns : List Fixnum) :
    foldInts name op position (BitVec.ofInt 32 k) (ns.map .int) =
      pure (some (BitVec.ofInt 32 ((ns.map BitVec.toInt).foldl f k))) := by
  induction ns generalizing position k with
  | nil => rfl
  | cons n ns ih =>
    have hstep : op (BitVec.ofInt 32 k) n.toWord = BitVec.ofInt 32 (f k n.toInt) := by
      rw [Fixnum.toWord_eq, hop]
    show foldInts name op (position + 1) (op (BitVec.ofInt 32 k) n.toWord) (ns.map .int) = _
    rw [hstep, ih]
    rfl

/-- A rest list of integers is folded to the representative of what they come to. -/
theorem foldRest_ints (hop : ∀ a b : Int, op (BitVec.ofInt 32 a) (BitVec.ofInt 32 b) = BitVec.ofInt 32 (f a b))
    (hrest : c.heap.Lists rest (ns.map .int) cells) (name : String) (position : Nat) (k : Int) :
    foldRest name op position (BitVec.ofInt 32 k) rest c =
      .ok (.give (.int (.ofInt ((ns.map BitVec.toInt).foldl f k)))) c := by
  have hspine : look (·.spine rest) c = .ok { items := ns.map .int, ending := .at .nil } c :=
    run_look (hrest.spine rfl)
  refine (run_bind hspine).trans ?_
  rw [foldInts_ints op f hop, ← Fixnum.ofWord_ofInt]
  rfl

/-- The first value of a rest list that is no integer is a failure at its position. -/
theorem foldRest_other (hok : c.failing = false) (hrest : c.heap.Lists rest vs cells)
    (hi : vs.findIdx? isOther = some i) (name : String) (position : Nat) (acc : Word) :
    foldRest name op position acc rest c =
      .ok (.give .nil) (c.failedWith (argumentText name (position + i) "not an int")) := by
  have hspine : look (·.spine rest) c = .ok { items := vs, ending := .at .nil } c :=
    run_look (hrest.spine rfl)
  refine (run_bind hspine).trans ?_
  rw [foldInts_eq, walkInts_other hi]
  exact run_bind (refuse_run hok _)

theorem foldl_add (k : Int) (ks : List Int) : ks.foldl (· + ·) k = k + ks.sum := by
  induction ks generalizing k with
  | nil => simp
  | cons l ks ih => rw [List.foldl_cons, ih, List.sum_cons, add_assoc]

theorem foldl_mul (k : Int) (ks : List Int) : ks.foldl (· * ·) k = k * ks.prod := by
  induction ks generalizing k with
  | nil => simp
  | cons l ks ih => rw [List.foldl_cons, ih, List.prod_cons, mul_assoc]

theorem foldl_sub (k : Int) (ks : List Int) : ks.foldl (· - ·) k = k - ks.sum := by
  induction ks generalizing k with
  | nil => simp
  | cons l ks ih => rw [List.foldl_cons, ih, List.sum_cons, sub_sub]

theorem ofInt_sub (a b : Int) :
    (BitVec.ofInt 32 a - BitVec.ofInt 32 b : Word) = BitVec.ofInt 32 (a - b) := by
  rw [Int.sub_eq_add_neg, BitVec.sub_eq_add_neg, BitVec.ofInt_add, BitVec.ofInt_neg]

end Native

/-! ## 2. Sums, products and differences -/

/-- What `+`, `*` and `-` are meant to give for mathematical integers; `-` negates a single one. -/
def Primitive.exact : Primitive → List Int → Int
  | .add, ks => ks.sum
  | .mul, ks => ks.prod
  | .sub, [k] => -k
  | .sub, k :: ks => k - ks.sum
  | _, _ => 0

/-- A primitive runs on what its arity makes of a list of arguments. -/
theorem Machine.enterNative_primitive {p : Primitive} (hp : c.heap.procedure? func = some (.primitive p))
    (hargs : c.heap.Lists args vs cells) (htakes : p.arity.Takes vs.length) :
    Machine.enterNative host func args c =
      p.run (p.arity.given vs (c.heap.cdr^[p.arity.required + p.arity.optional] args)) c := by
  have harity : (Procedure.primitive p).arity = p.arity := rfl
  rw [Machine.enterNative_run hp, Machine.takeArguments_proper hargs, harity, if_pos htakes]
  rfl

theorem Arity.given_rest (vs : List Value) (rest : Value) : Arity.given ⟨0, 0, true⟩ vs rest = [rest] := by
  simp [Arity.given]

theorem Arity.given_first_rest (v : Value) (vs : List Value) (rest : Value) :
    Arity.given ⟨1, 0, true⟩ (v :: vs) rest = [v, rest] := by
  simp [Arity.given]

namespace Native

/-- A difference. -/
theorem subtract_ints {n : Fixnum} (hrest : c.heap.Lists rest (ns.map .int) cells) :
    subtract (.int n) rest c =
      .ok (.give (.int (.ofInt (Primitive.sub.exact (n.toInt :: ns.map BitVec.toInt))))) c := by
  cases ns with
  | nil =>
    cases hrest
    have hneg : Fixnum.ofWord (-n.toWord) = .ofInt (-n.toInt) := by
      rw [Fixnum.toWord_eq, ← BitVec.ofInt_neg, Fixnum.ofWord_ofInt]
    exact congrArg (fun m => EStateM.Result.ok (Next.give (.int m)) c) hneg
  | cons m ns =>
    have hfold := foldRest_ints (· - ·) (· - ·) ofInt_sub hrest Primitive.sub.name 2 n.toInt
    rw [foldl_sub] at hfold
    cases hrest
    exact hfold

/-- A difference fails at the first value that is no integer. -/
theorem subtract_other {v : Value} (hok : c.failing = false) (hrest : c.heap.Lists rest vs cells)
    (hi : (v :: vs).findIdx? isOther = some i) : subtract v rest c =
      .ok (.give .nil) (c.failedWith (argumentText Primitive.sub.name (i + 1) "not an int")) := by
  rw [List.findIdx?_cons] at hi
  cases hv : v.isInt with
  | false =>
    rw [if_pos (by rw [isOther, hv]; rfl)] at hi
    cases hi
    exact run_bind (int?_of_not_isInt hok hv _ _)
  | true =>
    rw [if_neg (by rw [isOther, hv]; exact Bool.false_ne_true)] at hi
    obtain ⟨j, hj, rfl⟩ := Option.map_eq_some_iff.mp hi
    have hfold := fun acc => foldRest_other (· - ·) hok hrest hj Primitive.sub.name 2 acc
    rw [Nat.add_comm 2 j] at hfold
    cases v with
    | int n =>
      cases hrest with
      | nil => cases hj
      | cons _ _ => exact hfold _
    | _ => cases hv

/-- What a primitive makes of a list of arguments: the representative of what it is meant to give, or the
    failure of the first one that is no integer. -/
structure Exact (p : Primitive) (c : Context) (vs : List Value) (x : Run Next) : Prop where
  ints : ∀ ns : List Fixnum, vs = ns.map .int →
    x c = .ok (.give (.int (.ofInt (p.exact (ns.map BitVec.toInt))))) c
  other : ∀ i, vs.findIdx? isOther = some i →
    x c = .ok (.give .nil) (c.failedWith (argumentText p.name (i + 1) "not an int"))

theorem add_exact (hok : c.failing = false) (hrest : c.heap.Lists rest vs cells) :
    Exact .add c vs (foldRest Primitive.add.name (· + ·) 1 0 rest) where
  ints ns hns := by
    rw [hns] at hrest
    have hfold := foldRest_ints (· + ·) (· + ·) (fun a b => (BitVec.ofInt_add a b).symm) hrest
      Primitive.add.name 1 0
    rw [foldl_add, zero_add] at hfold
    exact hfold
  other i hi := by
    rw [Nat.add_comm]
    exact foldRest_other _ hok hrest hi _ 1 _

theorem mul_exact (hok : c.failing = false) (hrest : c.heap.Lists rest vs cells) :
    Exact .mul c vs (foldRest Primitive.mul.name (· * ·) 1 1 rest) where
  ints ns hns := by
    rw [hns] at hrest
    have hfold := foldRest_ints (· * ·) (· * ·) (fun a b => (BitVec.ofInt_mul a b).symm) hrest
      Primitive.mul.name 1 1
    rw [foldl_mul, one_mul] at hfold
    exact hfold
  other i hi := by
    rw [Nat.add_comm]
    exact foldRest_other _ hok hrest hi _ 1 _

theorem sub_exact {v : Value} (hok : c.failing = false) (hrest : c.heap.Lists rest vs cells) :
    Exact .sub c (v :: vs) (subtract v rest) where
  ints ns hns := by
    cases ns with
    | nil => cases hns
    | cons n ns =>
      cases hns
      exact subtract_ints hrest
  other i hi := subtract_other hok hrest hi

/-- **`+`, `*` and `-` are exact modulo `2 ^ 30`**, or fail at the first argument that is no integer. -/
theorem arithmetic_exact {p : Primitive} (hok : c.failing = false) (hmem : p = .add ∨ p = .mul ∨ p = .sub)
    (hp : c.heap.procedure? func = some (.primitive p)) (hargs : c.heap.Lists args vs cells)
    (htakes : p.arity.Takes vs.length) : Exact p c vs (Machine.enterNative host func args) := by
  suffices hrun : Exact p c vs
      (p.run (p.arity.given vs (c.heap.cdr^[p.arity.required + p.arity.optional] args))) by
    have henter := @Machine.enterNative_primitive _ host _ _ _ _ _ hp hargs htakes
    exact ⟨fun ns hns => henter.trans (hrun.ints ns hns), fun i hi => henter.trans (hrun.other i hi)⟩
  rcases hmem with rfl | rfl | rfl
  · rw [show Primitive.add.arity = ⟨0, 0, true⟩ from rfl, Arity.given_rest]
    exact add_exact hok hargs
  · rw [show Primitive.mul.arity = ⟨0, 0, true⟩ from rfl, Arity.given_rest]
    exact mul_exact hok hargs
  · cases hargs with
    | nil => exact absurd htakes (by decide)
    | @cons a v y _ vs cells hcell hrest =>
      have hcdr : c.heap.cdr^[Primitive.sub.arity.required + Primitive.sub.arity.optional] (.pair a) = y :=
        Heap.cdr_of_cell hcell
      rw [hcdr, show Primitive.sub.arity = ⟨1, 0, true⟩ from rfl, Arity.given_first_rest]
      exact sub_exact hok hrest

end Native

/-! ## 3. Literals -/

namespace Grammar

variable {name gap after : List Char} {k : Int}

/-- A literal ends where an atom ends. -/
theorem Numeral.lexeme (h : Numeral name k) : Lexeme (.atom name) name := by
  have hdigit : ∀ d : Char, d.isDigit = true → ¬ Delimiter d := by
    intro d hd hend
    rw [delimiter_iff, Fixnum.endsAtom_of_isDigit hd] at hend
    cases hend
  cases h with
  | unsigned hne hds => exact .atom hne fun d hd => hdigit d (hds d hd)
  | plus _ hds | minus _ hds =>
    exact .atom (List.cons_ne_nil _ _)
      (List.forall_mem_cons.mpr ⟨by decide, fun d hd => hdigit d (hds d hd)⟩)

/-- A literal is a finished value wherever a value may stand. -/
theorem Numeral.effect {nests : List Nest} (h : Numeral name k)
    (hnests : ∀ base outer, nests ≠ .closing base :: outer) :
    Reader.effect nests (.atom name) = pure (.value (.int (.ofInt k)) nests) := by
  have hvalue : (do pure (Reader.Effect.value (← Reader.atomValue name) nests) : Run Reader.Effect) =
      pure (.value (.int (.ofInt k)) nests) := by
    rw [Reader.atomValue, h.decimal?]
    rfl
  rcases nests with _ | ⟨nest, outer⟩
  · exact hvalue
  · cases nest with
    | quotation | dotted _ _ => exact hvalue
    | closing base => exact absurd rfl (hnests base outer)
    | elements base last =>
      have hdot : name ≠ ['.'] := by
        rintro rfl
        exact not_numeral rfl k h
      exact (if_neg hdot).trans hvalue

/-- **A literal of any number of digits, with any sign, is read as the representative of its decimal
    value**, whatever follows it. -/
theorem Numeral.read (h : Numeral name k) (hgap : Gap gap)
    (hafter : ∀ d, after.head? = some d → Delimiter d) (c : Context) :
    Reader.read (gap ++ (name ++ after)) c = .ok (.ok (some (.int (.ofInt k))), after) c := by
  have hspaced : Spaced [.atom name] (gap ++ (name ++ after)) after :=
    .cons hgap h.lexeme (fun _ d _ hd => hafter d hd) .nil
  obtain ⟨left, hnext, hleft⟩ := hspaced.next?
  cases hleft
  rw [Reader.read_some hnext, Reader.readFrom_some hnext, h.effect fun _ _ => (List.cons_ne_nil _ _).symm]
  rfl

end Grammar

/-! ## 4. Division -/

namespace Fixnum

variable {a b : Fixnum}

theorem natAbs_toInt_le (a : Fixnum) : a.toInt.natAbs ≤ 2 ^ 29 := by
  have hlow := BitVec.le_toInt a
  have hhigh := BitVec.toInt_lt (x := a)
  omega

theorem toInt_ne_zero (hb : b ≠ 0) : b.toInt ≠ 0 := by
  intro h
  exact hb (BitVec.eq_of_toInt_eq (by rw [h]; rfl))

/-- The quotient in words is cut to the representative of the mathematical one. -/
theorem ofWord_sdiv (a b : Fixnum) : ofWord (a.toWord.sdiv b.toWord) = ofInt (a.toInt.tdiv b.toInt) := by
  have hword : a.toWord.sdiv b.toWord = BitVec.ofInt 32 (a.toInt.tdiv b.toInt) := by
    apply BitVec.eq_of_toInt_eq
    rw [BitVec.toInt_sdiv, BitVec.toInt_ofInt, toInt_toWord, toInt_toWord]
  rw [hword, ofWord_ofInt]

theorem ofWord_srem (a b : Fixnum) : ofWord (a.toWord.srem b.toWord) = ofInt (a.toInt.tmod b.toInt) := by
  rw [ofWord_eq, BitVec.toInt_srem, toInt_toWord, toInt_toWord]

/-- A remainder is an integer as it is. -/
theorem toInt_ofInt_tmod (hb : b ≠ 0) : (ofInt (a.toInt.tmod b.toInt)).toInt = a.toInt.tmod b.toInt := by
  have hsmall : (a.toInt.tmod b.toInt).natAbs < 2 ^ 29 := by
    rw [Int.natAbs_tmod]
    have hlt := Nat.mod_lt a.toInt.natAbs (Int.natAbs_pos.mpr (toInt_ne_zero hb))
    have hle := natAbs_toInt_le b
    omega
  rw [ofInt, BitVec.toInt_ofInt]
  exact Int.bmod_eq_of_le (by omega) (by omega)

/-- **The laws of division toward zero**, modulo `2 ^ 30`. -/
structure Divides (a b q r : Fixnum) : Prop where
  /-- The quotient is truncated. It does not fit for the least integer and minus one only. -/
  quotient : q = ofInt (a.toInt.tdiv b.toInt)
  remainder : r.toInt = a.toInt.tmod b.toInt
  whole : q.toInt * b.toInt + r.toInt ≡ a.toInt [ZMOD 2 ^ 30]
  smaller : r.toInt.natAbs < b.toInt.natAbs
  sign : r.toInt = 0 ∨ r.toInt.sign = a.toInt.sign

theorem divides (hb : b ≠ 0) : Divides a b (ofWord (a.toWord.sdiv b.toWord)) (ofWord (a.toWord.srem b.toWord)) := by
  have hremainder : (ofWord (a.toWord.srem b.toWord)).toInt = a.toInt.tmod b.toInt := by
    rw [ofWord_srem, toInt_ofInt_tmod hb]
  have hb' := toInt_ne_zero hb
  refine ⟨ofWord_sdiv a b, hremainder, ?_, ?_, ?_⟩
  · rw [hremainder, ofWord_sdiv]
    have hquotient := ofInt_modEq (a.toInt.tdiv b.toInt)
    have hwhole := (hquotient.mul_right b.toInt).add_right (a.toInt.tmod b.toInt)
    rwa [Int.tdiv_mul_add_tmod] at hwhole
  · rw [hremainder, Int.natAbs_tmod]
    exact Nat.mod_lt _ (Int.natAbs_pos.mpr hb')
  · rw [hremainder]
    by_cases hdvd : b.toInt ∣ a.toInt
    · exact .inl (Int.tmod_eq_zero_of_dvd hdvd)
    · right
      rw [Int.sign_tmod, if_neg hdvd]

end Fixnum

namespace Native

/-! ## 5. All of them -/

theorem divide_ints {a b : Fixnum} (hb : b ≠ 0) (name : String) (op : Word → Word → Word) :
    divide name op (.int a) (.int b) c = .ok (.give (.int (.ofWord (op a.toWord b.toWord)))) c := by
  have hword : b.toWord ≠ 0 := by
    intro h
    apply Fixnum.toInt_ne_zero hb
    rw [← Fixnum.toInt_toWord, h]
    rfl
  exact congrFun (if_neg hword) c

/-- **Integers are exact modulo `2 ^ 30`.** For every list of arguments, `+`, `*` and `-` give the
    representative of the sum, the product and the difference of the mathematical integers, or fail with the
    position of the first argument that is none. Every literal is read as the representative of its decimal
    value, by itself and wherever it stands inside of something. Quotient and remainder obey the laws of
    division toward zero. -/
theorem integers_exact (host : Host) (hok : c.failing = false) :
    (∀ (p : Primitive) func args vs cells, p = .add ∨ p = .mul ∨ p = .sub →
      c.heap.procedure? func = some (.primitive p) → c.heap.Lists args vs cells → p.arity.Takes vs.length →
      Exact p c vs (Machine.enterNative host func args)) ∧
    (∀ name k, Grammar.Numeral name k →
      (∀ gap after, Grammar.Gap gap → (∀ d, after.head? = some d → Grammar.Delimiter d) →
        Reader.read (gap ++ (name ++ after)) c = .ok (.ok (some (.int (.ofInt k))), after) c) ∧
      ∀ nests, (∀ base outer, nests ≠ .closing base :: outer) →
        Reader.effect nests (.atom name) c = .ok (.value (.int (.ofInt k)) nests) c) ∧
    ∀ (a b : Fixnum) args cells, b ≠ 0 → c.heap.Lists args [.int a, .int b] cells →
      ∃ q r, Fixnum.Divides a b q r ∧
        (∀ func, c.heap.procedure? func = some (.primitive .quotient) →
          Machine.enterNative host func args c = .ok (.give (.int q)) c) ∧
        ∀ func, c.heap.procedure? func = some (.primitive .remainder) →
          Machine.enterNative host func args c = .ok (.give (.int r)) c := by
  refine ⟨fun p func args vs cells hmem hp hargs htakes => arithmetic_exact hok hmem hp hargs htakes,
    fun name k h => ⟨fun gap after hgap hafter => h.read hgap hafter c,
      fun nests hnests => congrFun (h.effect hnests) c⟩, fun a b args cells hb hargs => ?_⟩
  have htakes : Arity.Takes ⟨2, 0, false⟩ 2 := by decide
  refine ⟨_, _, Fixnum.divides hb, fun func hp => ?_, fun func hp => ?_⟩
  · exact (Machine.enterNative_primitive hp hargs htakes).trans (divide_ints hb _ _)
  · exact (Machine.enterNative_primitive hp hargs htakes).trans (divide_ints hb _ _)

/-- A heap with `+` and `quotient`, with a list of the least integer and minus one, and with one of an integer
    and nil. -/
def numbered : Context :=
  { Context.within with
    heap := { Context.within.heap with
      cells := #[.object CoreType.native.id (.procedure (.primitive .add)),
        .object CoreType.native.id (.procedure (.primitive .quotient)), .pair (.int (-1)) .nil,
        .pair (.int (.ofInt (-536870912))) (.pair 2), .pair .nil .nil, .pair (.int 1) (.pair 4)] } }

/-- A sum and a quotient that wrap, a failure, and a literal that is too large. -/
theorem integers_exact_numbered :
    Machine.enterNative Host.none (.object 0) (.pair 3) numbered = .ok (.give (.int 536870911)) numbered ∧
    Machine.enterNative Host.none (.object 1) (.pair 3) numbered =
      .ok (.give (.int (-536870912))) numbered ∧
    Machine.enterNative Host.none (.object 0) (.pair 5) numbered =
      .ok (.give .nil) (numbered.failedWith "+: argument 2 is not an int") ∧
    Reader.read "-1073741825)".toList numbered = .ok (.ok (some (.int (-1))), [')']) numbered := by
  obtain ⟨harithmetic, hliterals, hdivision⟩ := integers_exact (c := numbered) Host.none rfl
  have hleast : numbered.heap.Lists (.pair 3) [.int (.ofInt (-536870912)), .int (-1)] [3, 2] :=
    .cons rfl (.cons rfl .nil)
  have hmixed : numbered.heap.Lists (.pair 5) [.int 1, .nil] [5, 4] := .cons rfl (.cons rfl .nil)
  have hsum := harithmetic .add (.object 0) _ _ _ (.inl rfl) rfl hleast (by decide)
  have hfails := harithmetic .add (.object 0) _ _ _ (.inl rfl) rfl hmixed (by decide)
  obtain ⟨q, r, hlaws, hquotient, -⟩ := hdivision _ _ _ _ (by decide) hleast
  have hq : q = -536870912 := hlaws.quotient.trans (by decide)
  have hnumeral : Grammar.Numeral "-1073741825".toList (-1073741825) :=
    .minus (by decide) (List.all_eq_true.mp (by decide))
  refine ⟨(hsum.ints [_, _] rfl).trans ?_, (hquotient (.object 1) rfl).trans (hq ▸ rfl),
    (hfails.other 1 rfl).trans rfl, ?_⟩
  · rfl
  · have hread := (hliterals _ _ hnumeral).1 [] [')'] .nil ?_
    · exact hread.trans rfl
    · rintro d hd
      cases hd
      decide

end Native

end LispMachine
