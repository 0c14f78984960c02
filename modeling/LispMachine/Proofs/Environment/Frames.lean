import LispMachine.Value
import Mathlib.Data.List.Find
import Mathlib.Logic.Function.Basic

/-!
# Frames as maps

What environments stand for, without a heap: a frame is a map from keys to values above a parent,
and a stack of frames is read through the chain of its parents.

* `FrameMap`, `Frames` -- one frame, and the frames there are by their address, the newest in front. A
  frame is newer than its parent;
* `Frames.own?` -- the value of a key in a frame itself;
* `Frames.chain` -- a frame, its parent, and so on to a frame whose parent is no frame;
* `Frames.nearest?`, `Frames.get?` -- the first frame of a chain that gives a key a value, and that
  value;
* `Frames.put`, `Frames.assign` -- a value given to a key in one frame, and in the nearest frame that
  gives it one (`own?_put`, `get?_put`).
-/

namespace LispMachine

/-! ## 1. Frames and their chains -/

/-- What a frame stands for. -/
structure FrameMap where
  parent : Value
  own : Value → Option Value

/-- Frames by their address, the newest in front. -/
abbrev Frames := List (Addr × FrameMap)

namespace Frames

variable {fs : Frames} {a b : Addr} {key k value : Value}

/-- The addresses of the frames there are. -/
def addresses (fs : Frames) : List Addr := fs.map Prod.fst

/-- The value that a frame itself gives to a key. -/
def own? (fs : Frames) (a : Addr) (key : Value) : Option Value :=
  (fs.lookup a).bind fun f => f.own key

/-- A frame, its parent, the parent of that, and so on. -/
def chain : Frames → Addr → List Addr
  | [], _ => []
  | (b, f) :: fs, a =>
    if b = a then
      a :: match f.parent with
        | .pair p => chain fs p
        | _ => []
    else chain fs a

/-- The first frame of a chain that gives a key a value. -/
def nearest? (fs : Frames) (a : Addr) (key : Value) : Option Addr :=
  (fs.chain a).find? fun b => (fs.own? b key).isSome

/-- The value of a key in the first frame of a chain that gives it one. -/
def get? (fs : Frames) (a : Addr) (key : Value) : Option Value :=
  (fs.nearest? a key).bind fun b => fs.own? b key

/-- A key has a value in one frame, whatever it had there. -/
def put (fs : Frames) (a : Addr) (key value : Value) : Frames :=
  fs.map fun p =>
    if p.1 = a then (p.1, { p.2 with own := Function.update p.2.own key (some value) }) else p

/-- A key has a value in the nearest frame that gives it one, if there is such a frame. -/
def assign (fs : Frames) (a : Addr) (key value : Value) : Frames :=
  match fs.nearest? a key with
  | some b => fs.put b key value
  | none => fs

/-! ## 2. What a new value changes -/

@[simp] theorem addresses_cons (p : Addr × FrameMap) (fs : Frames) :
    addresses (p :: fs) = p.1 :: fs.addresses := rfl

@[simp] theorem addresses_put : (fs.put a key value).addresses = fs.addresses := by
  rw [addresses, addresses, put, List.map_map]
  refine List.map_congr_left fun p _ => ?_
  show (if p.1 = a then _ else p).1 = p.1
  split <;> rfl

theorem own?_cons_self {f : FrameMap} : own? ((a, f) :: fs) a key = f.own key := by
  rw [own?, List.lookup_cons_self, Option.bind_some]

theorem own?_cons_ne {f : FrameMap} (hb : b ≠ a) : own? ((a, f) :: fs) b key = fs.own? b key := by
  rw [own?, own?, List.lookup_cons, beq_false_of_ne hb]

theorem chain_cons_self {f : FrameMap} : chain ((a, f) :: fs) a =
    a :: match f.parent with
      | .pair p => chain fs p
      | _ => [] := if_pos rfl

theorem chain_cons_ne {f : FrameMap} (hb : b ≠ a) : chain ((b, f) :: fs) a = chain fs a := if_neg hb

theorem put_cons (f : FrameMap) : put ((b, f) :: fs) a key value =
    (b, if b = a then { f with own := Function.update f.own key (some value) } else f) ::
      put fs a key value := by
  rw [put, List.map_cons]
  split <;> rfl

/-- **A new value changes the map of one frame, at one key.** -/
theorem own?_put (hb : b ∈ fs.addresses) :
    (fs.put a key value).own? b k = if b = a ∧ k = key then some value else fs.own? b k := by
  induction fs with
  | nil => cases hb
  | cons p fs ih =>
    obtain ⟨c, f⟩ := p
    rw [put_cons]
    by_cases hbc : b = c
    · subst hbc
      rw [own?_cons_self, own?_cons_self]
      by_cases hba : b = a
      · simp only [hba, if_true, true_and]
        exact Function.update_apply f.own key (some value) k
      · rw [if_neg hba, if_neg fun e => hba e.1]
    · rw [own?_cons_ne hbc, own?_cons_ne hbc]
      exact ih ((List.mem_cons.mp hb).resolve_left hbc)

/-- A new value changes no parent. -/
@[simp] theorem chain_put : (fs.put a key value).chain b = fs.chain b := by
  induction fs generalizing b with
  | nil => rfl
  | cons p fs ih =>
    obtain ⟨c, f⟩ := p
    have hparent : (if c = a then { f with own := Function.update f.own key (some value) }
        else f).parent = f.parent := by split <;> rfl
    rw [put_cons]
    by_cases hcb : c = b
    · subst hcb
      rw [chain_cons_self, chain_cons_self, hparent]
      split
      · rw [ih]
      · rfl
    · rw [chain_cons_ne hcb, chain_cons_ne hcb, ih]

/-- The frames of a chain are among the frames there are. -/
theorem mem_addresses_of_chain (hb : b ∈ fs.chain a) : b ∈ fs.addresses := by
  induction fs generalizing a with
  | nil => cases hb
  | cons p fs ih =>
    obtain ⟨c, f⟩ := p
    by_cases hca : c = a
    · subst hca
      rw [chain_cons_self] at hb
      rcases List.mem_cons.mp hb with rfl | hb
      · exact List.mem_cons_self
      · split at hb
        · exact List.mem_cons_of_mem _ (ih hb)
        · cases hb
    · rw [chain_cons_ne hca] at hb
      exact List.mem_cons_of_mem _ (ih hb)

theorem mem_addresses_of_nearest? (hb : fs.nearest? a key = some b) : b ∈ fs.addresses :=
  mem_addresses_of_chain (List.mem_of_find?_eq_some hb)

/-- What is read from a frame on depends on the frames of its chain. -/
theorem get?_congr {fs' : Frames} (hc : fs'.chain b = fs.chain b)
    (ho : ∀ d ∈ fs.chain b, fs'.own? d k = fs.own? d k) : fs'.get? b k = fs.get? b k := by
  have hnear : fs'.nearest? b k = fs.nearest? b k := by
    rw [nearest?, nearest?, hc]
    exact List.find?_congr fun d hd => by rw [ho d hd]
  rw [get?, get?, hnear]
  exact Option.bind_congr fun d hd => ho d (List.mem_of_find?_eq_some hd)

/-- **A new value is read at its key only, and through its frame only.** -/
theorem get?_put (hk : k ≠ key ∨ a ∉ fs.chain b) : (fs.put a key value).get? b k = fs.get? b k := by
  refine get?_congr chain_put fun d hd => ?_
  rw [own?_put (mem_addresses_of_chain hd), if_neg]
  rintro ⟨rfl, rfl⟩
  exact hk.elim (fun e => e rfl) fun e => e hd

/-- A new frame is read from itself on only. -/
theorem get?_cons {f : FrameMap} (ha : a ∉ fs.addresses) (hb : b ∈ fs.addresses) :
    get? ((a, f) :: fs) b k = fs.get? b k := by
  have hne : ∀ d ∈ fs.addresses, d ≠ a := fun d hd e => ha (e ▸ hd)
  refine get?_congr ?_ fun d hd => own?_cons_ne (hne d (mem_addresses_of_chain hd))
  exact chain_cons_ne (hne b hb).symm

end Frames

end LispMachine
