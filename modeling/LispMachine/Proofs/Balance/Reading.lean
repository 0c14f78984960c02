import LispMachine.Proofs.Balance.Yields
import LispMachine.Reader.Basic

/-!
# The reader leaves the root stack as it was

Each unfinished list has a slot of its own, which is cut off when the list is closed:

* `Open` -- the height of the root stack while nests are open;
* `Yields.effect`, `Yields.deliver` -- one token, and one value;
* `Yields.readFrom` -- **what is left open when reading ends**: nothing after a value, slots above the
  bottom after an error;
* `Idle.read` -- reading as a whole, which cuts them off.
-/

namespace LispMachine

variable {base : Array Value} {m n : Nat} {κ : Context.Registers} {c : Context} {v : Value}

/-- **The height at which nests are open**, if the outermost was opened at height `m`: every list has
    the slot below its elements. -/
inductive Open (m : Nat) : Nat → List Nest → Prop where
  | outermost : Open m m []
  | quotation {n : Nat} {nests : List Nest} (h : Open m n nests) : Open m n (.quotation :: nests)
  | elements {slot : Nat} {last : Value} {nests : List Nest} (h : Open m slot nests) :
      Open m (slot + 1) (.elements slot last :: nests)
  | dotted {slot : Nat} {last : Value} {nests : List Nest} (h : Open m slot nests) :
      Open m (slot + 1) (.dotted slot last :: nests)
  | closing {slot : Nat} {nests : List Nest} (h : Open m slot nests) :
      Open m (slot + 1) (.closing slot :: nests)

theorem Open.le {nests : List Nest} (h : Open m n nests) : m ≤ n := by
  induction h with
  | outermost => exact Nat.le_refl m
  | quotation _ ih => exact ih
  | elements _ ih => exact Nat.le_succ_of_le ih
  | dotted _ ih => exact Nat.le_succ_of_le ih
  | closing _ ih => exact Nat.le_succ_of_le ih

namespace Idle

theorem quotation (v : Value) : Idle (Reader.quotation v) fun _ => True := by
  refine ⟨fun {base n κ c} hc => ?_⟩
  unfold Reader.quotation
  refine .rootBase hc ((Yields.pushRoot hc).bind fun _ _ hc₁ => ?_)
  refine ((cons _ _).yields hc₁.2).bind fun tail _ hc₂ => ?_
  refine ((sym _).yields hc₂.1).bind fun quote _ hc₃ => ((cons _ _).yields hc₃.1).bind fun out _ hc₄ => ?_
  exact (Yields.popRoots hc₄.1 hc.le).bind fun _ _ hc₅ => .pure ⟨hc₅, trivial⟩

theorem atomValue (name : List Char) : Idle (Reader.atomValue name) fun _ => True := by
  unfold Reader.atomValue
  split
  · exact pure trivial
  · exact sym _

end Idle

namespace Yields

/-- An element is appended to a list in a slot above the bottom. -/
theorem append {slot : Nat} (last : Value) (hc : Stance base n κ c) (hs : base.size ≤ slot) :
    Yields (Reader.append slot last v) c fun _ c' => Stance base n κ c' := by
  unfold Reader.append
  refine ((Idle.cons _ _).yields hc).bind fun cell _ hc₁ => ?_
  split
  · exact (Yields.setRoot hc₁.1 hs).bind fun _ _ hc₂ => .pure hc₂
  · exact ((Idle.setCdr _ _).yields hc₁.1).bind fun _ _ hc₂ => .pure hc₂.1

/-- A list is closed, and its slot is cut off. -/
theorem close {slot : Nat} (hc : Stance base n κ c) (hs : base.size ≤ slot) :
    Yields (Reader.close slot) c fun _ c' => Stance base slot κ c' := by
  unfold Reader.close
  refine Yields.root.bind fun v _ hv => ?_
  subst hv
  exact (Yields.popRoots hc hs).bind fun _ _ hc₁ => .pure hc₁

/-- How the evaluator stands while nests are open. -/
def Reads (base : Array Value) (m : Nat) (κ : Context.Registers) (nests : List Nest) (c : Context) :
    Prop :=
  ∃ n, Stance base n κ c ∧ Open m n nests

/-- **A finished value is handed to its nests.** -/
theorem deliver {nests : List Nest} (hm : base.size ≤ m) (hc : Stance base n κ c)
    (h : Open m n nests) :
    Yields (Reader.deliver v nests) c fun r c' => Reads base m κ r.2 c' := by
  induction h generalizing v c with
  | outermost => exact .pure ⟨_, hc, .outermost⟩
  | quotation h ih => exact ((Idle.quotation v).yields hc).bind fun _ _ hc₁ => ih hc₁.1
  | elements h =>
    exact (append _ hc (Nat.le_trans hm h.le)).bind fun cell _ hc₁ => .pure ⟨_, hc₁, .elements h⟩
  | dotted h => exact ((Idle.setCdr _ _).yields hc).bind fun _ _ hc₁ => .pure ⟨_, hc₁.1, .closing h⟩
  | closing h => exact .pure ⟨_, hc, .closing h⟩

/-- How the evaluator stands after a token. -/
def Meets (base : Array Value) (m : Nat) (κ : Context.Registers) : Reader.Effect → Context → Prop
  | .value _ nests, c => Reads base m κ nests c
  | .more nests, c => Reads base m κ nests c
  | .error _ _, c => ∃ n, Stance base n κ c

theorem meet {nests : List Nest} {token : Token} (hm : base.size ≤ m) (hc : Stance base n κ c)
    (h : Open m n nests) : Yields (Reader.meet nests token) c (Meets base m κ) := by
  cases token with
  | opening =>
    refine .ite (fun _ => .pure ⟨n, hc⟩) fun _ => ?_
    refine (Yields.pushRoot hc).bind fun slot _ hc₁ => .pure ?_
    obtain ⟨rfl, hc₁⟩ := hc₁
    exact ⟨_, hc₁, .elements h⟩
  | mark => exact .ite (fun _ => .pure ⟨n, hc⟩) fun _ => .pure ⟨n, hc, .quotation h⟩
  | closing =>
    cases h with
    | elements h => exact (close hc (Nat.le_trans hm h.le)).bind fun _ _ hc₁ => .pure ⟨_, hc₁, h⟩
    | outermost => exact .pure ⟨_, hc⟩
    | quotation _ => exact .pure ⟨_, hc⟩
    | dotted _ => exact .pure ⟨_, hc⟩
    | closing _ => exact .pure ⟨_, hc⟩
  | text s => exact ((Idle.str _).yields hc).bind fun _ _ hc₁ => .pure ⟨n, hc₁.1, h⟩
  | unclosedText => exact .pure ⟨n, hc⟩
  | atom name =>
    have hatom : Yields (do return Reader.Effect.value (← Reader.atomValue name) nests) c
        (Meets base m κ) :=
      ((Idle.atomValue name).yields hc).bind fun _ _ hc₁ => .pure ⟨n, hc₁.1, h⟩
    cases h with
    | elements h =>
      refine .ite (fun _ => .ite (fun _ => .pure ⟨_, hc⟩) fun _ => .pure ⟨_, hc, .dotted h⟩) ?_
      exact fun _ => hatom
    | outermost => exact hatom
    | quotation _ => exact hatom
    | dotted _ => exact hatom
    | closing _ => exact hatom

/-- **A token is met.** -/
theorem effect {nests : List Nest} {token : Token} (hm : base.size ≤ m) (hc : Stance base n κ c)
    (h : Open m n nests) : Yields (Reader.effect nests token) c (Meets base m κ) := by
  cases h with
  | closing h =>
    cases token with
    | closing => exact (close hc (Nat.le_trans hm h.le)).bind fun _ _ hc₁ => .pure ⟨_, hc₁, h⟩
    | opening => exact .pure ⟨_, hc⟩
    | mark => exact .pure ⟨_, hc⟩
    | text s => exact .pure ⟨_, hc⟩
    | unclosedText => exact .pure ⟨_, hc⟩
    | atom name => exact .pure ⟨_, hc⟩
  | outermost => exact meet hm hc .outermost
  | quotation h => exact meet hm hc (.quotation h)
  | elements h => exact meet hm hc (.elements h)
  | dotted h => exact meet hm hc (.dotted h)

/-- **Where reading ends**, the root stack is as it was, or higher after an error. -/
theorem readFrom {nests : List Nest} (hm : base.size ≤ m) (hc : Stance base n κ c)
    (h : Open m n nests) (src : List Char) :
    Yields (Reader.readFrom nests src) c fun r c' =>
      match r.1 with
      | .ok _ => Stance base m κ c'
      | .error _ => ∃ n', Stance base n' κ c' := by
  induction hlen : src.length using Nat.strongRecOn generalizing n c nests src with
  | ind len ih =>
    rw [Reader.readFrom]
    split
    · exact .pure ⟨n, hc⟩
    · rename_i token rest hnext
      have hlt : rest.length < len := hlen ▸ Token.length_lt_of_next? hnext
      refine (effect hm hc h).bind fun e c₁ he => ?_
      cases e with
      | error e used => exact .pure he
      | more nests₁ =>
        obtain ⟨n₁, hc₁, h₁⟩ := he
        exact ih _ hlt hc₁ h₁ rest rfl
      | value v nests₁ =>
        obtain ⟨n₁, hc₁, h₁⟩ := he
        refine (deliver hm hc₁ h₁).bind fun r c₂ hr => ?_
        obtain ⟨n₂, hc₂, h₂⟩ := hr
        obtain ⟨v₂, nests₂⟩ := r
        cases nests₂ with
        | nil =>
          cases h₂
          exact .pure hc₂
        | cons nest nests₂ => exact ih _ hlt hc₂ h₂ rest rfl

end Yields

/-- **Reading leaves the root stack as it was**, whether there is a value or an error. -/
theorem Idle.read (src : List Char) : Idle (Reader.read src) fun _ => True := by
  refine ⟨fun {base n κ c} hc => ?_⟩
  unfold Reader.read
  split
  · exact .pure ⟨hc, trivial⟩
  · refine .rootBase hc ((Yields.readFrom hc.le hc .outermost src).bind fun r c₁ hr => ?_)
    obtain ⟨r, rest⟩ := r
    cases r with
    | ok v => exact .pure ⟨hr, trivial⟩
    | error e =>
      obtain ⟨n₁, hc₁⟩ := hr
      exact (Yields.popRoots hc₁ hc.le).bind fun _ _ hc₂ => .pure ⟨hc₂, trivial⟩

end LispMachine
