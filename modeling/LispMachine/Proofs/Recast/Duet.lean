import LispMachine.Proofs.Quiet.Effect
import LispMachine.Proofs.Recast.Text
import LispMachine.Proofs.Similar
import LispMachine.Proofs.Symbols

/-!
# Two contexts with recast code

Two contexts run code that is the same but for `let` forms that have become applied functions. Nothing is
collected, so that every cell keeps its address:

* `Codebook` -- the code of one side: pairs that are never written, and the names of symbols;
* `Concord` -- **what corresponds**: cells of data, one to one, and the code of both sides. `Concord.Rel`,
  `Concord.Content` are about values and cells, and `Concord.Recast` is about code;
* `Duet`, `Duet.Sound` -- two contexts that agree;
* `Duet.Later` -- what has been there stays: whatever corresponds, and **cells that are in no use on the
  other side**;
* `Sound.apart`, `Sound.join`, `Sound.write` -- a change on either side alone, cells that correspond from
  now on, and a change on both sides.
-/

namespace LispMachine

/-! ## 1. What corresponds -/

/-- The code of one side. -/
structure Codebook where
  /-- Pairs of code, with what they hold. -/
  pair : Addr → Value → Value → Prop
  /-- The names of the symbols. -/
  names : Array String

namespace Codebook

/-- A list of code. -/
inductive Lists (L : Codebook) : Value → List Value → Prop where
  | nil : L.Lists .nil []
  | cons {a : Addr} {x y : Value} {xs : List Value} (hcell : L.pair a x y) (rest : L.Lists y xs) :
      L.Lists (.pair a) (x :: xs)

/-- The code of a heap. -/
def code (L : Codebook) : Script Value where
  pair v x y := ∃ a, v = .pair a ∧ L.pair a x y
  lone v := v.isPair = false
  nil v := v = .nil
  symbol v := v.isSym = true
  form v f := ∃ i, v = .sym i ∧ L.names[i]? = some f.name
  plain v := ∀ i, v = .sym i → ∃ name, L.names[i]? = some name ∧ ∀ f : StandardForm, name ≠ f.name

/-- More code, and more names. -/
structure Le (L M : Codebook) : Prop where
  pair : ∀ a x y, L.pair a x y → M.pair a x y
  names : ∀ (i : SymbolId) (name : String), L.names[i]? = some name → M.names[i]? = some name

variable {L M N : Codebook} {v : Value} {xs : List Value}

theorem Le.refl (L : Codebook) : L.Le L := ⟨fun _ _ _ => id, fun _ _ => id⟩

theorem Le.trans (h : L.Le M) (h' : M.Le N) : L.Le N :=
  ⟨fun a x y hp => h'.pair a x y (h.pair a x y hp), fun i name hi => h'.names i name (h.names i name hi)⟩

theorem Le.code (h : L.Le M) : L.code.Le M.code where
  pair := fun _ _ _ ⟨a, hv, hp⟩ => ⟨a, hv, h.pair _ _ _ hp⟩
  lone _ := id
  nil _ := id
  symbol _ := id
  form := fun _ _ ⟨i, hv, hi⟩ => ⟨i, hv, h.names _ _ hi⟩
  plain v hv i hi := by
    obtain ⟨name, hname, hne⟩ := hv i hi
    exact ⟨name, h.names _ _ hname, hne⟩

theorem Lists.mono (h : L.Lists v xs) (hle : L.Le M) : M.Lists v xs := by
  induction h with
  | nil => exact .nil
  | cons hcell _ ih => exact .cons (hle.pair _ _ _ hcell) ih

end Codebook

/-- What corresponds on two sides. -/
structure Concord where
  /-- Cells of data. -/
  link : Addr → Addr → Prop
  left : Codebook
  right : Codebook

namespace Concord

/-- More that corresponds. -/
structure Le (K M : Concord) : Prop where
  link : ∀ a b, K.link a b → M.link a b
  left : K.left.Le M.left
  right : K.right.Le M.right

/-- Values that correspond. -/
inductive Rel (K : Concord) : Value → Value → Prop where
  | nil : K.Rel .nil .nil
  | int (n : Fixnum) : K.Rel (.int n) (.int n)
  | sym {i j : SymbolId} {name : String} (hi : K.left.names[i]? = some name)
      (hj : K.right.names[j]? = some name) : K.Rel (.sym i) (.sym j)
  | pair {a b : Addr} (h : K.link a b) : K.Rel (.pair a) (.pair b)
  | object {a b : Addr} (h : K.link a b) : K.Rel (.object a) (.object b)

/-- Code that corresponds. -/
abbrev Recast (K : Concord) (p : Segment Value) (v v' : Value) : Prop :=
  LispMachine.Recast K.left.code K.right.code K.Rel p v v'

/-- Functions that correspond. -/
structure Parts (K : Concord) (f f' : Closure) : Prop where
  env : K.Rel f.env f'.env
  params : K.Recast .params f.params f'.params
  body : K.Recast .exprs f.body f'.body
  name : K.Rel f.name f'.name

/-- Cells that correspond hold what corresponds. No native counts cells. -/
inductive Content (K : Concord) : Cell → Cell → Prop where
  | pair {x y x' y' : Value} (first : K.Rel x x') (rest : K.Rel y y') : K.Content (.pair x y) (.pair x' y')
  | text (bytes : ByteArray) :
      K.Content (.object CoreType.str.id (.text bytes)) (.object CoreType.str.id (.text bytes))
  | native {p : Primitive} (hp : p ≠ .gc) : K.Content (.object CoreType.native.id (.procedure (.primitive p)))
      (.object CoreType.native.id (.procedure (.primitive p)))
  | closure {parts parts' : Value} {f f' : Closure}
      (hl : K.left.Lists parts [f.env, f.params, f.body, f.name])
      (hr : K.right.Lists parts' [f'.env, f'.params, f'.body, f'.name]) (h : K.Parts f f') :
      K.Content (.object CoreType.func.id (.closure parts)) (.object CoreType.func.id (.closure parts'))

/-- A cell of the left side that is in use on both sides, or code. -/
def UsedLeft (K : Concord) (a : Addr) : Prop := (∃ b, K.link a b) ∨ ∃ x y, K.left.pair a x y

/-- A cell of the right side that is in use on both sides, or code. -/
def UsedRight (K : Concord) (b : Addr) : Prop := (∃ a, K.link a b) ∨ ∃ x y, K.right.pair b x y

variable {K M N : Concord} {v v' : Value} {p : Segment Value}

namespace Le

theorem refl (K : Concord) : K.Le K := ⟨fun _ _ => id, .refl _, .refl _⟩

theorem trans (h : K.Le M) (h' : M.Le N) : K.Le N :=
  ⟨fun a b hl => h'.link a b (h.link a b hl), h.left.trans h'.left, h.right.trans h'.right⟩

end Le

theorem Rel.mono (h : K.Rel v v') (hle : K.Le M) : M.Rel v v' := by
  cases h with
  | nil => exact .nil
  | int n => exact .int n
  | sym hi hj => exact .sym (hle.left.names _ _ hi) (hle.right.names _ _ hj)
  | pair h => exact .pair (hle.link _ _ h)
  | object h => exact .object (hle.link _ _ h)

theorem Recast.mono (h : K.Recast p v v') (hle : K.Le M) : M.Recast p v v' :=
  LispMachine.Recast.mono hle.left.code hle.right.code (fun _ _ hd => hd.mono hle) h

theorem Parts.mono {f f' : Closure} (h : K.Parts f f') (hle : K.Le M) : M.Parts f f' :=
  ⟨h.env.mono hle, Recast.mono h.params hle, Recast.mono h.body hle, h.name.mono hle⟩

theorem Content.mono {x x' : Cell} (h : K.Content x x') (hle : K.Le M) : M.Content x x' := by
  cases h with
  | pair first rest => exact .pair (first.mono hle) (rest.mono hle)
  | text bytes => exact .text bytes
  | native hp => exact .native hp
  | closure hl hr h => exact .closure (hl.mono hle.left) (hr.mono hle.right) (h.mono hle)

theorem Rel.kindred (h : K.Rel v v') : v.Kindred v' := by
  cases h with
  | nil => exact .nil
  | int n => exact .int n
  | sym _ _ => exact .sym _ _
  | pair _ => exact .pair _ _
  | object _ => exact .object _ _

end Concord

/-! ## 2. Contexts that agree -/

/-- A name makes a symbol a special form, or none. -/
def StandardForm.named (name : String) : Option StandardForm := all.find? fun f => f.name = name

/-- **One side**: its code is there, and its symbols are known by their names. -/
structure Side (L : Codebook) (c : Context) : Prop where
  valid : c.heap.Valid
  code : ∀ {a x y}, L.pair a x y → c.heap.content a = some (.pair x y)
  names : c.symbols.names = L.names
  sound : c.symbols.Sound
  forms : ∀ {i : SymbolId} {name : String}, L.names[i]? = some name →
    c.forms.lookup i = (StandardForm.named name).map .standard
  known : ∀ f : StandardForm, ∃ i : SymbolId, L.names[i]? = some f.name
  bare : ∀ {i : SymbolId}, L.names[i]? = none → c.forms.lookup i = none
  settled : c.looping = false
  types : c.heap.types = .core

theorem Side.funcs {L : Codebook} {c : Context} (hc : Side L c) : c.heap.IsMakeable CoreType.func.id := by
  rw [Heap.IsMakeable, hc.types]
  exact ⟨by decide, rfl⟩

theorem Side.strings {L : Codebook} {c : Context} (hc : Side L c) : c.heap.IsMakeable CoreType.str.id := by
  rw [Heap.IsMakeable, hc.types]
  exact ⟨by decide, rfl⟩

/-- A side whose code is not written. -/
theorem Side.alter {L : Codebook} {c c' : Context} {S : Addr → Prop} (hc : Side L c) (h : c.Alters S c')
    (hv : c'.heap.Valid) (hcode : ∀ a x y, S a → ¬ L.pair a x y) : Side L c' where
  valid := hv
  code {a x y} hp := (h.content a fun hs => hcode a x y hs hp).trans (hc.code hp)
  names := (congrArg SymbolTable.names h.rest.symbols).trans hc.names
  sound := h.rest.symbols ▸ hc.sound
  forms hi := h.rest.forms ▸ hc.forms hi
  known := hc.known
  bare hi := h.rest.forms ▸ hc.bare hi
  settled := h.rest.looping.trans hc.settled
  types := h.types.trans hc.types

/-- Two contexts, and what corresponds. -/
structure Duet where
  concord : Concord
  left : Context
  right : Context

namespace Duet

/-- **Two contexts that agree.** -/
structure Sound (D : Duet) : Prop where
  left : Side D.concord.left D.left
  right : Side D.concord.right D.right
  one_left : ∀ {a b b'}, D.concord.link a b → D.concord.link a b' → b = b'
  one_right : ∀ {a a' b}, D.concord.link a b → D.concord.link a' b → a = a'
  cells : ∀ {a b}, D.concord.link a b → ∃ x x', D.left.heap.content a = some x ∧
    D.right.heap.content b = some x' ∧ D.concord.Content x x'
  apart_left : ∀ {a b x y}, D.concord.link a b → ¬ D.concord.left.pair a x y
  apart_right : ∀ {a b x y}, D.concord.link a b → ¬ D.concord.right.pair b x y
  rootEnv : D.concord.Rel D.left.rootEnv D.right.rootEnv
  truth : D.concord.Rel D.left.truth D.right.truth
  failing : D.left.failing = D.right.failing
  failure : D.left.failure = D.right.failure
  output : D.left.output = D.right.output

/-- **What has been there stays.** Cells that are in no use on the other side keep what they hold. -/
structure Later (D D' : Duet) : Prop where
  le : D.concord.Le D'.concord
  left : ∀ {a x}, D.left.heap.content a = some x → ¬ D.concord.UsedLeft a →
    D'.left.heap.content a = some x ∧ ¬ D'.concord.UsedLeft a
  right : ∀ {b x}, D.right.heap.content b = some x → ¬ D.concord.UsedRight b →
    D'.right.heap.content b = some x ∧ ¬ D'.concord.UsedRight b

/-- The root stacks are as they were. -/
structure Still (D D' : Duet) : Prop where
  left : D'.left.heap.roots = D.left.heap.roots
  right : D'.right.heap.roots = D.right.heap.roots

/-- Nor has a failure come up. -/
structure Calm (D D' : Duet) : Prop extends D.Still D' where
  failing : D'.left.failing = D.left.failing

variable {D D' D'' : Duet} {v v' u u' : Value} {a b : Addr}

theorem Later.refl (D : Duet) : D.Later D := ⟨.refl _, fun h hu => ⟨h, hu⟩, fun h hu => ⟨h, hu⟩⟩

theorem Later.trans (h : D.Later D') (h' : D'.Later D'') : D.Later D'' where
  le := h.le.trans h'.le
  left hc hu := by
    obtain ⟨hc, hu⟩ := h.left hc hu
    exact h'.left hc hu
  right hc hu := by
    obtain ⟨hc, hu⟩ := h.right hc hu
    exact h'.right hc hu

theorem Still.refl (D : Duet) : D.Still D := ⟨rfl, rfl⟩

theorem Still.trans (h : D.Still D') (h' : D'.Still D'') : D.Still D'' :=
  ⟨h'.left.trans h.left, h'.right.trans h.right⟩

theorem Calm.refl (D : Duet) : D.Calm D := ⟨.refl D, rfl⟩

theorem Calm.trans (h : D.Calm D') (h' : D'.Calm D'') : D.Calm D'' :=
  ⟨h.toStill.trans h'.toStill, h'.failing.trans h.failing⟩

namespace Sound

theorem lt_left (hD : D.Sound) (h : D.concord.link a b) : a < D.left.heap.cells.size := by
  obtain ⟨x, -, hx, -⟩ := hD.cells h
  exact Heap.lt_size_of_content hx

theorem lt_right (hD : D.Sound) (h : D.concord.link a b) : b < D.right.heap.cells.size := by
  obtain ⟨-, x, -, hx, -⟩ := hD.cells h
  exact Heap.lt_size_of_content hx

/-- A cell that is not taken is in no use. -/
theorem unused_left (hD : D.Sound) (ha : D.left.heap.content a = none) : ¬ D.concord.UsedLeft a := by
  rintro (⟨b, h⟩ | ⟨x, y, h⟩)
  · obtain ⟨x, -, hx, -⟩ := hD.cells h
    rw [ha] at hx
    cases hx
  · rw [hD.left.code h] at ha
    cases ha

theorem unused_right (hD : D.Sound) (hb : D.right.heap.content b = none) : ¬ D.concord.UsedRight b := by
  rintro (⟨a, h⟩ | ⟨x, y, h⟩)
  · obtain ⟨-, x, -, hx, -⟩ := hD.cells h
    rw [hb] at hx
    cases hx
  · rw [hD.right.code h] at hb
    cases hb

/-- **Values are the same on one side if they are on the other one.** -/
theorem eq_iff (hD : D.Sound) (h : D.concord.Rel v v') (hu : D.concord.Rel u u') : v = u ↔ v' = u' := by
  cases h with
  | nil => cases hu <;> simp
  | int n => cases hu <;> simp
  | sym hi hj =>
    cases hu with
    | @sym i' j' name' hi' hj' =>
      rw [Value.sym.injEq, Value.sym.injEq]
      constructor
      · rintro rfl
        obtain rfl := Option.some.inj (hi.symm.trans hi')
        exact hD.right.sound.one _ _ _ (hD.right.names ▸ hj) (hD.right.names ▸ hj')
      · rintro rfl
        obtain rfl := Option.some.inj (hj.symm.trans hj')
        exact hD.left.sound.one _ _ _ (hD.left.names ▸ hi) (hD.left.names ▸ hi')
    | _ => simp
  | pair h =>
    cases hu with
    | pair h' =>
      rw [Value.pair.injEq, Value.pair.injEq]
      exact ⟨fun e => hD.one_left (e ▸ h) h', fun e => hD.one_right (e ▸ h) h'⟩
    | _ => simp
  | object h =>
    cases hu with
    | object h' =>
      rw [Value.object.injEq, Value.object.injEq]
      exact ⟨fun e => hD.one_left (e ▸ h) h', fun e => hD.one_right (e ▸ h) h'⟩
    | _ => simp

/-- **The heaps look alike from values that correspond.** -/
theorem similar (hD : D.Sound) : Heap.Similar D.concord.Rel D.left.heap D.right.heap where
  kindred := Concord.Rel.kindred
  car h := by
    cases h with
    | pair h =>
      obtain ⟨x, x', hx, hx', hcontent⟩ := hD.cells h
      rw [Heap.car, Heap.car, Heap.cell_of_content hx, Heap.cell_of_content hx']
      cases hcontent with
      | pair first _ => exact first
      | _ => exact .nil
    | _ => exact .nil
  cdr h := by
    cases h with
    | pair h =>
      obtain ⟨x, x', hx, hx', hcontent⟩ := hD.cells h
      rw [Heap.cdr, Heap.cdr, Heap.cell_of_content hx, Heap.cell_of_content hx']
      cases hcontent with
      | pair _ rest => exact rest
      | _ => exact .nil
    | _ => exact .nil
  inside h := by
    cases h with
    | pair h => exact ⟨hD.lt_left h, hD.lt_right h⟩

theorem typeOf_eq (hD : D.Sound) (h : D.concord.Rel v v') :
    D.left.heap.typeOf v = D.right.heap.typeOf v' := by
  cases h with
  | object h =>
    obtain ⟨x, x', hx, hx', hcontent⟩ := hD.cells h
    rw [Heap.typeOf, Heap.typeOf, Heap.cell_of_content hx, Heap.cell_of_content hx']
    cases hcontent <;> rfl
  | _ => rfl

theorem bytes?_eq (hD : D.Sound) (h : D.concord.Rel v v') :
    D.left.heap.bytes? v = D.right.heap.bytes? v' := by
  have htype := hD.typeOf_eq h
  cases h with
  | object h =>
    obtain ⟨x, x', hx, hx', hcontent⟩ := hD.cells h
    rw [Heap.bytes?, Heap.bytes?, Heap.payload?, Heap.payload?, Heap.cell_of_content hx,
      Heap.cell_of_content hx', htype]
    cases hcontent <;> rfl
  | _ => rfl

theorem equal_eq (hD : D.Sound) (h : D.concord.Rel v v') (hu : D.concord.Rel u u') :
    D.left.heap.equal v u = D.right.heap.equal v' u' := by
  rw [Heap.equal, Heap.equal, hD.bytes?_eq h, hD.bytes?_eq hu, decide_eq_decide.mpr (hD.eq_iff h hu)]

/-- **A native is the same one on both sides.** -/
theorem procedure?_eq (hD : D.Sound) (h : D.concord.Rel v v') :
    D.left.heap.procedure? v = D.right.heap.procedure? v' ∧
      ∀ p, D.left.heap.procedure? v = some p → ∃ q, p = .primitive q ∧ q ≠ .gc := by
  have htype := hD.typeOf_eq h
  cases h with
  | object h =>
    obtain ⟨x, x', hx, hx', hcontent⟩ := hD.cells h
    rw [Heap.procedure?, Heap.procedure?, Heap.payload?, Heap.payload?, Heap.cell_of_content hx,
      Heap.cell_of_content hx', htype]
    cases hcontent with
    | native hp =>
      refine ⟨rfl, fun p h => ?_⟩
      dsimp only at h
      split at h
      · cases h
        exact ⟨_, rfl, hp⟩
      · cases h
    | _ => exact ⟨rfl, fun p hp => by simp at hp⟩
  | _ => exact ⟨rfl, fun p hp => by cases hp⟩

end Sound

/-! ## 3. Changes -/

variable {S S' : Addr → Prop} {c c' : Context} {x x' : Cell} {ls : List (Addr × Addr)} {ts ts' : List Addr}

/-- **Cells are written**, and those that correspond hold what corresponds. -/
theorem Sound.alter (hD : D.Sound) (hl : D.left.Alters S c) (hr : D.right.Alters S' c') (hv : c.heap.Valid)
    (hv' : c'.heap.Valid) (hcode : ∀ a x y, S a → ¬ D.concord.left.pair a x y)
    (hcode' : ∀ b x y, S' b → ¬ D.concord.right.pair b x y)
    (hcells : ∀ {a b}, D.concord.link a b → S a ∨ S' b → ∃ x x', c.heap.content a = some x ∧
      c'.heap.content b = some x' ∧ D.concord.Content x x') : Sound ⟨D.concord, c, c'⟩ :=
  { hD with
    left := hD.left.alter hl hv hcode
    right := hD.right.alter hr hv' hcode'
    cells := fun {a b} h => by
      by_cases hs : S a ∨ S' b
      · exact hcells h hs
      · rw [not_or] at hs
        obtain ⟨x, x', hx, hx', hc⟩ := hD.cells h
        exact ⟨x, x', (hl.content a hs.1).trans hx, (hr.content b hs.2).trans hx', hc⟩
    rootEnv := by
      show D.concord.Rel c.rootEnv c'.rootEnv
      rw [hl.rest.rootEnv, hr.rest.rootEnv]
      exact hD.rootEnv
    truth := by
      show D.concord.Rel c.truth c'.truth
      rw [hl.rest.truth, hr.rest.truth]
      exact hD.truth
    failing := hl.rest.failing.trans (hD.failing.trans hr.rest.failing.symm)
    failure := hl.rest.failure.trans (hD.failure.trans hr.rest.failure.symm)
    output := hl.rest.output.trans (hD.output.trans hr.rest.output.symm) }

/-- **Each side writes cells that are in no use on the other one.** -/
theorem Sound.apart (hD : D.Sound) (hl : D.left.Alters S c) (hr : D.right.Alters S' c') (hv : c.heap.Valid)
    (hv' : c'.heap.Valid) (hs : ∀ a, S a → ¬ D.concord.UsedLeft a)
    (hs' : ∀ b, S' b → ¬ D.concord.UsedRight b) : Sound ⟨D.concord, c, c'⟩ :=
  hD.alter hl hr hv hv' (fun a x y ha hp => hs a ha (.inr ⟨x, y, hp⟩))
    (fun b x y hb hp => hs' b hb (.inr ⟨x, y, hp⟩)) fun {a b} h hab => hab.elim
      (fun ha => absurd (.inl ⟨b, h⟩) (hs a ha)) fun hb => absurd (.inl ⟨a, h⟩) (hs' b hb)

/-- **Cells that correspond are written.** -/
theorem Sound.write (hD : D.Sound) (h : D.concord.link a b) (hl : D.left.Alters (· = a) c)
    (hr : D.right.Alters (· = b) c') (hv : c.heap.Valid) (hv' : c'.heap.Valid)
    (hx : c.heap.content a = some x) (hx' : c'.heap.content b = some x') (hc : D.concord.Content x x') :
    Sound ⟨D.concord, c, c'⟩ :=
  hD.alter hl hr hv hv' (fun _ _ _ ha => ha ▸ hD.apart_left h) (fun _ _ _ hb => hb ▸ hD.apart_right h)
    fun {a₁ b₁} h₁ hab => by
      obtain ⟨rfl, rfl⟩ : a₁ = a ∧ b₁ = b := by
        rcases hab with rfl | rfl
        · exact ⟨rfl, hD.one_left h₁ h⟩
        · exact ⟨hD.one_right h₁ h, rfl⟩
      exact ⟨x, x', hx, hx', hc⟩

/-- What has been there stays if only fresh cells are written, or cells that are in use on both sides. -/
theorem Later.alter (h : D.Later D') (hl : D'.left.Alters S c) (hr : D'.right.Alters S' c')
    (hs : ∀ a, S a → D.left.heap.content a = none ∨ D'.concord.UsedLeft a)
    (hs' : ∀ b, S' b → D.right.heap.content b = none ∨ D'.concord.UsedRight b) :
    D.Later ⟨D'.concord, c, c'⟩ where
  le := h.le
  left {a x} hx hu := by
    obtain ⟨hx', hu'⟩ := h.left hx hu
    refine ⟨(hl.content a fun ha => ?_).trans hx', hu'⟩
    rcases hs a ha with hnone | hused
    · rw [hx] at hnone
      cases hnone
    · exact hu' hused
  right {b x} hx hu := by
    obtain ⟨hx', hu'⟩ := h.right hx hu
    refine ⟨(hr.content b fun hb => ?_).trans hx', hu'⟩
    rcases hs' b hb with hnone | hused
    · rw [hx] at hnone
      cases hnone
    · exact hu' hused

/-- More cells that correspond, and more cells of code. -/
def joined (D : Duet) (ls : List (Addr × Addr)) (ts ts' : List Addr) : Concord where
  link a b := D.concord.link a b ∨ (a, b) ∈ ls
  left :=
    { pair := fun a x y => D.concord.left.pair a x y ∨ a ∈ ts ∧ D.left.heap.content a = some (.pair x y)
      names := D.concord.left.names }
  right :=
    { pair := fun b x y => D.concord.right.pair b x y ∨ b ∈ ts' ∧ D.right.heap.content b = some (.pair x y)
      names := D.concord.right.names }

theorem le_joined (D : Duet) (ls : List (Addr × Addr)) (ts ts' : List Addr) :
    D.concord.Le (D.joined ls ts ts') :=
  ⟨fun _ _ => .inl, ⟨fun _ _ _ => .inl, fun _ _ => id⟩, ⟨fun _ _ _ => .inl, fun _ _ => id⟩⟩

/-- Cells that may correspond from now on, or become code: each once, and none is in use. -/
structure Joins (D : Duet) (ls : List (Addr × Addr)) (ts ts' : List Addr) : Prop where
  nodup_left : (ls.map Prod.fst ++ ts).Nodup
  nodup_right : (ls.map Prod.snd ++ ts').Nodup
  unused_left : ∀ a ∈ ls.map Prod.fst ++ ts, ¬ D.concord.UsedLeft a
  unused_right : ∀ b ∈ ls.map Prod.snd ++ ts', ¬ D.concord.UsedRight b
  cells : ∀ p ∈ ls, ∃ x x', D.left.heap.content p.1 = some x ∧ D.right.heap.content p.2 = some x' ∧
    (D.joined ls ts ts').Content x x'

/-- **Cells correspond from now on.** -/
theorem Sound.join (hD : D.Sound) (h : D.Joins ls ts ts') : Sound ⟨D.joined ls ts ts', D.left, D.right⟩ := by
  have hle := D.le_joined ls ts ts'
  have hfst : ∀ {a b}, (a, b) ∈ ls → a ∈ ls.map Prod.fst := List.mem_map_of_mem
  have hsnd : ∀ {a b}, (a, b) ∈ ls → b ∈ ls.map Prod.snd := List.mem_map_of_mem
  have hleft : ∀ {a b}, (a, b) ∈ ls → ¬ D.concord.UsedLeft a := fun hp =>
    h.unused_left _ (List.mem_append_left _ (hfst hp))
  have hright : ∀ {a b}, (a, b) ∈ ls → ¬ D.concord.UsedRight b := fun hp =>
    h.unused_right _ (List.mem_append_left _ (hsnd hp))
  have hcode : ∀ {a x y}, (D.joined ls ts ts').left.pair a x y → D.left.heap.content a = some (.pair x y) :=
    fun hp => hp.elim hD.left.code (·.2)
  have hcode' : ∀ {b x y}, (D.joined ls ts ts').right.pair b x y → D.right.heap.content b = some (.pair x y) :=
    fun hp => hp.elim hD.right.code (·.2)
  refine
    { hD with
      left := { hD.left with code := hcode }
      right := { hD.right with code := hcode' }
      one_left := ?_
      one_right := ?_
      cells := ?_
      apart_left := ?_
      apart_right := ?_
      rootEnv := hD.rootEnv.mono hle
      truth := hD.truth.mono hle }
  · rintro a b b' (hab | hab) (hab' | hab')
    · exact hD.one_left hab hab'
    · exact absurd (.inl ⟨b, hab⟩) (hleft hab')
    · exact absurd (.inl ⟨b', hab'⟩) (hleft hab)
    · exact congrArg Prod.snd (List.inj_on_of_nodup_map (List.Nodup.of_append_left h.nodup_left) hab hab' rfl)
  · rintro a a' b (hab | hab) (hab' | hab')
    · exact hD.one_right hab hab'
    · exact absurd (.inl ⟨a, hab⟩) (hright hab')
    · exact absurd (.inl ⟨a', hab'⟩) (hright hab)
    · exact congrArg Prod.fst (List.inj_on_of_nodup_map (List.Nodup.of_append_left h.nodup_right) hab hab' rfl)
  · rintro a b (hab | hab)
    · obtain ⟨x, x', hx, hx', hc⟩ := hD.cells hab
      exact ⟨x, x', hx, hx', hc.mono hle⟩
    · exact h.cells _ hab
  · rintro a b x y (hab | hab) (hp | ⟨ha, -⟩)
    · exact hD.apart_left hab hp
    · exact h.unused_left a (List.mem_append_right _ ha) (.inl ⟨b, hab⟩)
    · exact hleft hab (.inr ⟨x, y, hp⟩)
    · exact List.disjoint_of_nodup_append h.nodup_left (hfst hab) ha
  · rintro a b x y (hab | hab) (hp | ⟨hb, -⟩)
    · exact hD.apart_right hab hp
    · exact h.unused_right b (List.mem_append_right _ hb) (.inl ⟨a, hab⟩)
    · exact hright hab (.inr ⟨x, y, hp⟩)
    · exact List.disjoint_of_nodup_append h.nodup_right (hsnd hab) hb

/-- Cells that had not been taken before may correspond. -/
theorem Later.join (h : D.Later D') (hl : ∀ a ∈ ls.map Prod.fst ++ ts, D.left.heap.content a = none)
    (hr : ∀ b ∈ ls.map Prod.snd ++ ts', D.right.heap.content b = none) :
    D.Later ⟨D'.joined ls ts ts', D'.left, D'.right⟩ where
  le := h.le.trans (D'.le_joined ls ts ts')
  left {a x} hx hu := by
    obtain ⟨hx', hu'⟩ := h.left hx hu
    have hnot : a ∉ ls.map Prod.fst ++ ts := fun ha => by
      rw [hl a ha] at hx
      cases hx
    refine ⟨hx', ?_⟩
    rintro (⟨b, hab | hab⟩ | ⟨y, z, hp | ⟨ha, -⟩⟩)
    · exact hu' (.inl ⟨b, hab⟩)
    · exact hnot (List.mem_append_left _ (List.mem_map_of_mem hab))
    · exact hu' (.inr ⟨y, z, hp⟩)
    · exact hnot (List.mem_append_right _ ha)
  right {b x} hx hu := by
    obtain ⟨hx', hu'⟩ := h.right hx hu
    have hnot : b ∉ ls.map Prod.snd ++ ts' := fun hb => by
      rw [hr b hb] at hx
      cases hx
    refine ⟨hx', ?_⟩
    rintro (⟨a, hab | hab⟩ | ⟨y, z, hp | ⟨hb, -⟩⟩)
    · exact hu' (.inl ⟨a, hab⟩)
    · exact hnot (List.mem_append_left _ (List.mem_map_of_mem hab))
    · exact hu' (.inr ⟨y, z, hp⟩)
    · exact hnot (List.mem_append_right _ hb)

end Duet

end LispMachine
