import LispMachine.Machine.Native
import LispMachine.Proofs.Attains
import LispMachine.Proofs.Balance.Evaluation
import LispMachine.Proofs.Failure.Candor
import LispMachine.Proofs.Race
import LispMachine.Proofs.Word

/-!
# Procedures that want a proper list

`length`, `list-ref` and `apply` check one of their arguments to be a proper list before they use it:

* `Native.length?_of_proper`, `Native.length?_of_unlisted` -- what the check does;
* `Native.Refuses` -- what a procedure does that begins with it;
* `Native.proper_lists` -- **the check tells proper lists from others and from lists that do not end**,
  and each of the three procedures accepts exactly the proper ones.
-/

namespace LispMachine

open Context

variable {c : Context} {v f index out : Value} {name problem : String} {position n : Nat}

/-- A context after the first failure. -/
def Context.failedWith (c : Context) (message : String) : Context :=
  { c with failing := true, failure := Text.clip failureCap message }

/-- A check that finds something wrong. -/
theorem Context.refuse_run {α : Type} (hok : c.failing = false) (text : String) :
    (do
      let _ ← fail text
      pure none : Run (Option α)) c = .ok none (c.failedWith text) :=
  run_bind (fail_raised text hok)

namespace Heap

variable {h : Heap}

/-! ## 1. Kinds of lists -/

theorem count_eq_list_iff : h.count v = .list n ↔ h.Proper v n := by
  refine ⟨fun hcount => ?_, Proper.count⟩
  have hcounted := h.counted v
  rw [hcount] at hcounted
  cases hcounted with
  | list hn => exact hn

theorem count_eq_improper_iff : h.count v = .improper ↔ h.Dotted v := by
  refine ⟨fun hcount => ?_, Dotted.count⟩
  have hcounted := h.counted v
  rw [hcount] at hcounted
  cases hcounted with
  | improper hd => exact hd

theorem count_eq_circular_iff : h.count v = .circular ↔ h.Circular v := by
  refine ⟨fun hcount => ?_, Circular.count⟩
  have hcounted := h.counted v
  rw [hcount] at hcounted
  cases hcounted with
  | circular hc => exact hc

/-- What is wrong with a value that is no proper list, in words. -/
inductive Unlisted (h : Heap) (v : Value) : String → Prop where
  | circular (hc : h.Circular v) : h.Unlisted v "a circular list"
  | improper (hd : h.Dotted v) : h.Unlisted v "not a list"

/-- A value is a proper list, or something is wrong with it. -/
theorem proper_or_unlisted (h : Heap) (v : Value) :
    (∃ n, h.Proper v n) ∨ ∃ problem, h.Unlisted v problem := by
  have hcounted := h.counted v
  generalize h.count v = count at hcounted
  cases hcounted with
  | list hn => exact .inl ⟨_, hn⟩
  | improper hd => exact .inr ⟨_, .improper hd⟩
  | circular hc => exact .inr ⟨_, .circular hc⟩

theorem Proper.not_unlisted (hn : h.Proper v n) : ¬ h.Unlisted v problem := by
  rintro (hc | hd)
  · exact hn.not_circular hc
  · exact hn.not_dotted hd

theorem nth_eq (h : Heap) (v : Value) (i : Nat) : h.nth v i = h.car (h.cdr^[i] v) := by
  induction i generalizing v with
  | zero => rfl
  | succ i ih => exact ih (h.cdr v)

end Heap

namespace Native

variable {α : Type} {k : Nat → Run Next}

/-! ## 2. The check -/

/-- A proper list has a length. -/
theorem length?_of_proper (hn : c.heap.Proper v n) (name : String) (position : Nat) :
    length? name position v c = .ok (some n) c := by
  have hcount : look (·.count v) c = .ok (.list n) c := run_look hn.count
  exact run_bind hcount

/-- Anything else is a failure that says what is wrong. -/
theorem length?_of_unlisted (hok : c.failing = false) (hv : c.heap.Unlisted v problem) (name : String)
    (position : Nat) : length? name position v c =
      .ok none (c.failedWith (argumentText name position problem)) := by
  cases hv with
  | circular hc =>
    have hcount : look (·.count v) c = .ok .circular c := run_look hc.count
    exact (run_bind hcount).trans (refuse_run hok _)
  | improper hd =>
    have hcount : look (·.count v) c = .ok .improper c := run_look hd.count
    exact (run_bind hcount).trans (refuse_run hok _)

/-- What is no integer is a failure of the argument at its position. -/
theorem int?_of_not_isInt (hok : c.failing = false) (hv : v.isInt = false) (name : String)
    (position : Nat) :
    int? name position v c = .ok none (c.failedWith (argumentText name position "not an int")) := by
  cases v with
  | int i => cases hv
  | _ => exact refuse_run hok _

/-- A procedure refuses what does not end, and what ends in something else than nil, each with a
    failure of its own. -/
structure Refuses (c : Context) (v : Value) (name : String) (position : Nat) (x : Run Next) : Prop where
  circular : x c = .ok (.give .nil) (c.failedWith (argumentText name position "a circular list")) ↔
    c.heap.Circular v
  improper : x c = .ok (.give .nil) (c.failedWith (argumentText name position "not a list")) ↔
    c.heap.Dotted v

variable {x : Run Next}

/-- A procedure that goes on with a proper list only, and fails with something else if at all. -/
theorem Refuses.of_length? (hok : c.failing = false)
    (hrun : ∀ c', length? name position v c = .ok none c' → x c = .ok (.give .nil) c')
    (hgo : ∀ n problem, c.heap.Proper v n → problem = "a circular list" ∨ problem = "not a list" →
      x c ≠ .ok (.give .nil) (c.failedWith (argumentText name position problem)))
    (htext : Text.clip failureCap (argumentText name position "a circular list") ≠
      Text.clip failureCap (argumentText name position "not a list")) :
    Refuses c v name position x := by
  have hrefused : ∀ problem, c.heap.Unlisted v problem →
      x c = .ok (.give .nil) (c.failedWith (argumentText name position problem)) := fun problem hv =>
    hrun _ (length?_of_unlisted hok hv name position)
  have hkinds := c.heap.proper_or_unlisted v
  constructor
  · refine ⟨fun hx => ?_, fun hc => hrefused _ (.circular hc)⟩
    rcases hkinds with ⟨n, hn⟩ | ⟨problem, hc | hd⟩
    · exact absurd hx (hgo n _ hn (.inl rfl))
    · exact hc
    · rw [hrefused _ (.improper hd)] at hx
      injection hx with _ hcontext
      exact absurd (congrArg Context.failure hcontext).symm htext
  · refine ⟨fun hx => ?_, fun hd => hrefused _ (.improper hd)⟩
    rcases hkinds with ⟨n, hn⟩ | ⟨problem, hc | hd⟩
    · exact absurd hx (hgo n _ hn (.inr rfl))
    · rw [hrefused _ (.circular hc)] at hx
      injection hx with _ hcontext
      exact absurd (congrArg Context.failure hcontext) htext
    · exact hd

/-- What has not failed has not failed with a message. -/
theorem ok_ne_failedWith (hok : c.failing = false) {next next' : Next} {message : String} :
    (EStateM.Result.ok next c : EStateM.Result Fault Context Next) ≠ .ok next' (c.failedWith message) := by
  intro heq
  injection heq with _ hcontext
  rw [hcontext] at hok
  cases hok

/-- What such a procedure accepts are proper lists. -/
theorem Refuses.accepts_iff {next : Next} {P : Nat → Prop} (h : Refuses c v name position x)
    (hok : c.failing = false) (hproper : ∀ n, c.heap.Proper v n → (x c = .ok next c ↔ P n)) :
    x c = .ok next c ↔ ∃ n, c.heap.Proper v n ∧ P n := by
  constructor
  · intro hx
    rcases c.heap.proper_or_unlisted v with ⟨n, hn⟩ | ⟨problem, hc | hd⟩
    · exact ⟨n, hn, (hproper n hn).mp hx⟩
    · exact absurd (hx.symm.trans (h.circular.mpr hc)) (ok_ne_failedWith hok)
    · exact absurd (hx.symm.trans (h.improper.mpr hd)) (ok_ne_failedWith hok)
  · rintro ⟨n, hn, hnext⟩
    exact (hproper n hn).mpr hnext

theorem ok_eq_iff {next next' : Next} :
    (EStateM.Result.ok next c : EStateM.Result Fault Context Next) = .ok next' c ↔ next' = next := by
  refine ⟨fun heq => ?_, fun heq => heq ▸ rfl⟩
  injection heq with hnext
  exact hnext.symm

/-! ## 3. The procedures -/

theorem length_of_proper (hn : c.heap.Proper v n) :
    Primitive.length.run [v] c = .ok (.give (.int (.ofNat n))) c :=
  run_bind (length?_of_proper hn _ _)

theorem length_refuses (hok : c.failing = false) : Refuses c v "length" 1 (Primitive.length.run [v]) := by
  refine .of_length? hok (fun c' hlength => run_bind hlength) (fun n problem hn _ => ?_) (by decide)
  rw [length_of_proper hn]
  exact ok_ne_failedWith hok

theorem apply_of_proper (hn : c.heap.Proper v n) :
    Primitive.apply.run [f, v] c = .ok { task := .apply f v } c :=
  run_bind (length?_of_proper hn _ _)

theorem apply_refuses (hok : c.failing = false) : Refuses c v "apply" 2 (Primitive.apply.run [f, v]) := by
  refine .of_length? hok (fun c' hlength => run_bind hlength) (fun n problem hn _ => ?_) (by decide)
  rw [apply_of_proper hn]
  exact ok_ne_failedWith hok

/-- Whether an index is one of a list of so many elements. -/
def InRange (i : Fixnum) (n : Nat) : Prop := 0 ≤ i.toInt ∧ i.toInt < n

/-- An index in range gives the element there. -/
theorem listRef_of_inRange {i : Fixnum} (hn : c.heap.Proper v n) (hi : InRange i n) :
    Primitive.listRef.run [v, .int i] c = .ok (.give (c.heap.car (c.heap.cdr^[i.toInt.toNat] v))) c := by
  obtain ⟨hlow, hhigh⟩ := hi
  have hin : ¬ (i.toWord.toInt < 0 || n ≤ i.toWord.toInt.toNat) = true := by
    rw [Fixnum.toInt_toWord]
    simp only [Bool.or_eq_true, decide_eq_true_eq]
    omega
  refine (run_bind (length?_of_proper hn _ _)).trans ?_
  rw [← c.heap.nth_eq, ← Fixnum.toInt_toWord]
  show (if i.toWord.toInt < 0 || n ≤ i.toWord.toInt.toNat then failNext _ else _ : Run Next) c = _
  rw [if_neg hin]
  rfl

/-- An index that is none fails, and so does one out of range. -/
theorem listRef_of_not_inRange (hok : c.failing = false) (hn : c.heap.Proper v n)
    (hindex : ∀ i, index = .int i → ¬ InRange i n) :
    Primitive.listRef.run [v, index] c = .ok (.give .nil) (c.failedWith
      (if index.isInt then "list-ref: Index out of range" else argumentText "list-ref" 2 "not an int")) := by
  refine (run_bind (length?_of_proper hn _ _)).trans ?_
  cases hint : index.isInt with
  | false => exact run_bind (int?_of_not_isInt hok hint _ _)
  | true =>
    obtain ⟨i, rfl⟩ : ∃ i, index = .int i := by
      cases index with
      | int i => exact ⟨i, rfl⟩
      | _ => cases hint
    have hout : (i.toWord.toInt < 0 || n ≤ i.toWord.toInt.toNat) = true := by
      have hnot := hindex i rfl
      rw [InRange] at hnot
      rw [Fixnum.toInt_toWord]
      simp only [Bool.or_eq_true, decide_eq_true_eq]
      omega
    show (if i.toWord.toInt < 0 || n ≤ i.toWord.toInt.toNat then failNext _ else _ : Run Next) c = _
    rw [if_pos hout]
    exact run_bind (fail_raised _ hok)

theorem listRef_refuses (hok : c.failing = false) :
    Refuses c v "list-ref" 1 (Primitive.listRef.run [v, index]) := by
  refine .of_length? hok (fun c' hlength => run_bind hlength) (fun n problem hn hproblem => ?_) (by decide)
  by_cases hin : ∃ i, index = .int i ∧ InRange i n
  · obtain ⟨i, rfl, hi⟩ := hin
    rw [listRef_of_inRange hn hi]
    exact ok_ne_failedWith hok
  · rw [listRef_of_not_inRange hok hn fun i hi hr => hin ⟨i, hi, hr⟩]
    intro heq
    injection heq with _ hcontext
    have htext : Text.clip failureCap (if index.isInt then "list-ref: Index out of range"
        else argumentText "list-ref" 2 "not an int") =
        Text.clip failureCap (argumentText "list-ref" 1 problem) := congrArg Context.failure hcontext
    -- no other failure of the procedure reads like one of the two
    generalize index.isInt = isInt at htext
    rcases hproblem with rfl | rfl <;> cases isInt <;> revert htext <;> decide

/-- **Lists that end in nil, lists that end in something else and lists that do not end are told apart**,
    whatever the heap. The count of the pairs always comes to an end, however many pairs lead to a
    circle and however many there are in it. So the check of an argument finds the number of pairs of
    exactly the proper lists, and refuses the others, each kind in its own words; `length`, `list-ref`
    and `apply` accept exactly the proper lists, and `list-ref` gives the element at exactly the indices
    that are in range. -/
theorem proper_lists (hok : c.failing = false) (v f index : Value) :
    ((∀ n, c.heap.count v = .list n ↔ c.heap.Proper v n) ∧
      (c.heap.count v = .circular ↔ c.heap.Circular v) ∧
      (c.heap.count v = .improper ↔ c.heap.Dotted v) ∧ c.heap.count v ≠ .unfinished) ∧
    (∀ name position,
      (∀ n, length? name position v c = .ok (some n) c ↔ c.heap.Proper v n) ∧
      ∀ problem, c.heap.Unlisted v problem →
        length? name position v c = .ok none (c.failedWith (argumentText name position problem))) ∧
    (Refuses c v "length" 1 (Primitive.length.run [v]) ∧
      ∀ next, Primitive.length.run [v] c = .ok next c ↔
        ∃ n, c.heap.Proper v n ∧ next = .give (.int (.ofNat n))) ∧
    (Refuses c v "list-ref" 1 (Primitive.listRef.run [v, index]) ∧
      ∀ next, Primitive.listRef.run [v, index] c = .ok next c ↔
        ∃ n, c.heap.Proper v n ∧ ∃ i, index = .int i ∧ InRange i n ∧
          next = .give (c.heap.car (c.heap.cdr^[i.toInt.toNat] v))) ∧
    (Refuses c v "apply" 2 (Primitive.apply.run [f, v]) ∧
      ∀ next, Primitive.apply.run [f, v] c = .ok next c ↔
        ∃ n, c.heap.Proper v n ∧ next = { task := .apply f v }) := by
  refine ⟨⟨fun n => Heap.count_eq_list_iff, Heap.count_eq_circular_iff, Heap.count_eq_improper_iff, ?_⟩,
    fun name position => ⟨fun n => ⟨fun hx => ?_, fun hn => length?_of_proper hn name position⟩,
      fun problem hv => length?_of_unlisted hok hv name position⟩,
    ⟨length_refuses hok, fun next => ?_⟩, ⟨listRef_refuses hok, fun next => ?_⟩,
    ⟨apply_refuses hok, fun next => ?_⟩⟩
  · have hcounted := c.heap.counted v
    intro hunfinished
    rw [hunfinished] at hcounted
    cases hcounted
  · rcases c.heap.proper_or_unlisted v with ⟨k, hk⟩ | ⟨problem, hv⟩
    · rw [length?_of_proper hk] at hx
      cases hx
      exact hk
    · rw [length?_of_unlisted hok hv] at hx
      cases hx
  · refine (length_refuses hok).accepts_iff hok fun n hn => ?_
    rw [length_of_proper hn]
    exact ok_eq_iff
  · refine (listRef_refuses hok).accepts_iff hok fun n hn => ?_
    by_cases hin : ∃ i, index = .int i ∧ InRange i n
    · obtain ⟨i, rfl, hi⟩ := hin
      rw [listRef_of_inRange hn hi, ok_eq_iff]
      refine ⟨fun hnext => ⟨i, rfl, hi, hnext⟩, ?_⟩
      rintro ⟨j, hj, -, hnext⟩
      cases hj
      exact hnext
    · rw [listRef_of_not_inRange hok hn fun i hi hr => hin ⟨i, hi, hr⟩]
      refine ⟨fun hx => absurd hx.symm (ok_ne_failedWith hok), ?_⟩
      rintro ⟨i, hi, hr, -⟩
      exact absurd ⟨i, hi, hr⟩ hin
  · refine (apply_refuses hok).accepts_iff hok fun n hn => ?_
    rw [apply_of_proper hn]
    exact ok_eq_iff

/-- A pair that leads to a circle of two. -/
def knotted : Context :=
  { Context.within with
    heap := { Context.within.heap with
      cells := #[.pair (.int 7) (.pair 1), .pair (.int 8) (.pair 2), .pair (.int 9) (.pair 1)] } }

/-- Its length is refused, and so is a call with it for the arguments. -/
theorem proper_lists_knotted : knotted.heap.Circular (.pair 0) ∧
    Primitive.length.run [.pair 0] knotted =
      .ok (.give .nil) (knotted.failedWith "length: argument 1 is a circular list") ∧
    Primitive.apply.run [.sym 0, .pair 0] knotted =
      .ok (.give .nil) (knotted.failedWith "apply: argument 2 is a circular list") := by
  obtain ⟨⟨-, hcircular, -⟩, -, ⟨hlength, -⟩, -, ⟨happly, -⟩⟩ :=
    proper_lists (c := knotted) rfl (.pair 0) (.sym 0) .nil
  have hc : knotted.heap.Circular (.pair 0) := hcircular.mp (by decide)
  exact ⟨hc, hlength.circular.mpr hc, happly.circular.mpr hc⟩

end Native

end LispMachine
