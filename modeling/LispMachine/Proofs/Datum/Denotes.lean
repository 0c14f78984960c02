import LispMachine.Proofs.Datum.Basic
import LispMachine.Proofs.Symbols

/-!
# Values that stand for data

* `Context.Denotes` -- **a value of a context stands for a datum**: it is a finite tree of pairs,
  immediates and strings of valid text;
* `Context.Alike` -- two values of two contexts are equal in structure, symbol by symbol;
  `Denotes.alike`: so are values that stand for the same datum, as long as no symbol loses its name;
* `Denotes.display_eq` -- **the text of such a value is the written form of the datum**, within the
  limits of the printer.
-/

namespace LispMachine

open Printer

/-! ## 1. Values and data -/

/-- **A value stands for a datum.** -/
inductive Context.Denotes (c : Context) : Value → Datum → Prop where
  | nil : Denotes c .nil .nil
  | int (n : Fixnum) : Denotes c (.int n) (.int n)
  | sym {id : SymbolId} {name : String} (hname : c.symbols.names[id]? = some name) :
      Denotes c (.sym id) (.sym name)
  | text {a : Addr} {s : String}
      (hcell : c.heap.cells[a]? = some (.object CoreType.str.id (.text s.toUTF8))) :
      Denotes c (.object a) (.text s)
  | pair {a : Addr} {x y : Value} {d e : Datum} (hcell : c.heap.cells[a]? = some (.pair x y))
      (hx : Denotes c x d) (hy : Denotes c y e) : Denotes c (.pair a) (.pair d e)

/-- **Values of two contexts that are equal in structure**: the same integers, identical symbols, strings
    of the same bytes, and pairs of such values. -/
inductive Context.Alike (c c' : Context) : Value → Value → Prop where
  | nil : Alike c c' .nil .nil
  | int (n : Fixnum) : Alike c c' (.int n) (.int n)
  | sym (id : SymbolId) : Alike c c' (.sym id) (.sym id)
  | str {a b : Addr} {bytes : ByteArray}
      (hcell : c.heap.cells[a]? = some (.object CoreType.str.id (.text bytes)))
      (hcell' : c'.heap.cells[b]? = some (.object CoreType.str.id (.text bytes))) :
      Alike c c' (.object a) (.object b)
  | pair {a b : Addr} {x y x' y' : Value} (hcell : c.heap.cells[a]? = some (.pair x y))
      (hcell' : c'.heap.cells[b]? = some (.pair x' y')) (hx : Alike c c' x x') (hy : Alike c c' y y') :
      Alike c c' (.pair a) (.pair b)

/-- Names are interned, and none is lost. -/
def SymbolTable.Extends (t' t : SymbolTable) : Prop :=
  ∀ (id : SymbolId) (name : String), t.names[id]? = some name → t'.names[id]? = some name

theorem SymbolTable.Extends.refl (t : SymbolTable) : t.Extends t := fun _ _ h => h

theorem SymbolTable.Extends.trans {t t' t'' : SymbolTable} (h' : t''.Extends t') (h : t'.Extends t) :
    t''.Extends t := fun id name hname => h' id name (h id name hname)

namespace Context.Denotes

variable {c c' : Context} {v v' : Value} {d e : Datum}

/-- **Values that stand for the same datum are equal in structure.** -/
theorem alike (hv : c.Denotes v d) (hv' : c'.Denotes v' d) (hsound : c'.symbols.Sound)
    (hnames : c'.symbols.Extends c.symbols) : c.Alike c' v v' := by
  induction hv generalizing v' with
  | nil =>
    cases hv'
    exact .nil
  | int n =>
    cases hv'
    exact .int n
  | sym hname =>
    cases hv' with
    | sym hname' =>
      rw [hsound.one _ _ _ hname' (hnames _ _ hname)]
      exact .sym _
  | text hcell =>
    cases hv' with
    | text hcell' => exact .str hcell hcell'
  | pair hcell _ _ ihx ihy =>
    cases hv' with
    | pair hcell' hx' hy' => exact .pair hcell hcell' (ihx hx') (ihy hy')

/-- A datum is a list just when its value is a pair. -/
theorem isPair_eq (h : c.Denotes v d) : v.isPair = true ↔ ∃ x y, d = .pair x y := by
  cases h with
  | pair _ _ _ => exact iff_of_true rfl ⟨_, _, rfl⟩
  | nil => exact iff_of_false Bool.false_ne_true (by simp)
  | int n => exact iff_of_false Bool.false_ne_true (by simp)
  | sym _ => exact iff_of_false Bool.false_ne_true (by simp)
  | text _ => exact iff_of_false Bool.false_ne_true (by simp)

end Context.Denotes

/-! ## 2. Text -/

/-- What has been encoded is valid. -/
theorem Text.fromUTF8?_toUTF8 (s : String) : String.fromUTF8? s.toUTF8 = some s := by
  unfold String.fromUTF8?
  exact dif_pos s.isValidUTF8

/-- The text of valid bytes is what they encode. -/
theorem Text.ofBytes_toUTF8 (s : String) : Text.ofBytes s.toUTF8 = s := by
  rw [Text.ofBytes, Text.fromUTF8?_toUTF8]

namespace Context.Denotes

variable {c : Context} {v : Value} {d e : Datum}

theorem objectText_eq {a : Addr} {s : String}
    (hcell : c.heap.cells[a]? = some (.object CoreType.str.id (.text s.toUTF8))) :
    objectText c.heap c.symbols (.object a) = quoted s := by
  have htype : c.heap.typeOf (.object a) = CoreType.str.id := by rw [Heap.typeOf, hcell]
  have hbytes : c.heap.bytes? (.object a) = some s.toUTF8 := by
    rw [Heap.bytes?, Heap.payload?, hcell]
    exact if_pos htype
  rw [objectText, htype, hbytes]
  show quoted (Text.ofBytes s.toUTF8) = quoted s
  rw [Text.ofBytes_toUTF8]

/-- An action that writes the values of which no part lies `room` levels deep. -/
def Writes (c : Context) (room : Nat) (item : String → Value → String) : Prop :=
  ∀ (out : String) (u : Value) (x : Datum), c.Denotes u x → x.depth < room → x.breadth ≤ maxElements →
    item out u = out ++ String.ofList x.chars

/-- The last pair of a list. -/
theorem writeSpine_last {item : String → Value → String} {more : Nat} {out : String}
    (hlast : (c.heap.cdr v).isPair = false) : writeSpine c.heap item more out v =
      writeEnd item (item out (c.heap.car v)) (c.heap.cdr v) := by
  have hnot : ¬ (c.heap.cdr v).isPair = true := by
    rw [hlast]
    exact Bool.false_ne_true
  cases more with
  | zero => rw [writeSpine, if_neg hnot]
  | succ more => rw [writeSpine, if_neg hnot]

variable {item : String → Value → String} {room more : Nat}

/-- The end of a list, after the elements that have been written. -/
theorem writeEnd_eq (hitem : Writes c room item) (out : String) (hy : c.Denotes v e)
    (hatom : ∀ x y, e ≠ .pair x y) (hdepth : e.depth < room) (hbreadth : e.breadth ≤ maxElements) :
    writeEnd item out v = out ++ String.ofList e.tailChars := by
  by_cases hnil : e = .nil
  · subst hnil
    cases hy
    rfl
  · have hnot : v.isNil = false := by
      cases hy with
      | nil => exact absurd rfl hnil
      | _ => rfl
    rw [writeEnd, hnot, Datum.tailChars_eq_dotted hnil hatom]
    show item (out ++ " . ") v ++ ")" = _
    rw [hitem _ v e hy hdepth hbreadth, ← String.toList_inj]
    simp [Datum.dotted, String.toList_append]

/-- **A list is written pair by pair.** -/
theorem writeSpine_eq (hitem : Writes c room item) (out : String) (hv : c.Denotes v (.pair d e))
    (hdepth : (Datum.pair d e).depth ≤ room) (hbreadth : (Datum.pair d e).breadth ≤ maxElements)
    (hlength : e.length ≤ more) :
    writeSpine c.heap item more out v = out ++ String.ofList (d.chars ++ e.tailChars) := by
  induction e generalizing v d more out with
  | pair d' e' _ ih =>
    cases hv with
    | @pair a x y _ _ hcell hx hy =>
      simp only [Datum.depth, Datum.breadth, Datum.length] at hdepth hbreadth hlength
      obtain ⟨more, rfl⟩ : ∃ m, more = m + 1 := ⟨more - 1, by omega⟩
      have hcar : c.heap.car (.pair a) = x := by rw [Heap.car, hcell]
      have hcdr : c.heap.cdr (.pair a) = y := by rw [Heap.cdr, hcell]
      have hpair : y.isPair = true := hy.isPair_eq.mpr ⟨_, _, rfl⟩
      have hrest := ih ((out ++ String.ofList d.chars).push ' ') hy (by simp only [Datum.depth]; omega)
        (by simp only [Datum.breadth]; omega) (show e'.length ≤ more by omega)
      rw [writeSpine, hcar, hcdr, if_pos hpair, hitem out x d hx (by omega) (by omega)]
      show writeSpine c.heap item more _ y = _
      rw [hrest, ← String.toList_inj]
      simp [Datum.tailChars]
  | nil | int _ | sym _ | text _ =>
    cases hv with
    | @pair a x y _ _ hcell hx hy =>
      simp only [Datum.depth, Datum.breadth] at hdepth hbreadth
      have hcar : c.heap.car (.pair a) = x := by rw [Heap.car, hcell]
      have hcdr : c.heap.cdr (.pair a) = y := by rw [Heap.cdr, hcell]
      have hlast : (c.heap.cdr (.pair a)).isPair = false := by
        rw [hcdr]
        cases hy
        rfl
      have hfirst := hitem out x d hx (by omega) (by omega)
      have hend := writeEnd_eq hitem (out ++ String.ofList d.chars) hy nofun
        (by simp only [Datum.depth]; omega) (Nat.zero_le _)
      rw [writeSpine_last hlast, hcar, hcdr, hfirst, hend, ← String.toList_inj]
      simp [String.toList_append]

/-- **A value that stands for a datum is written as it**, if there is room below it. -/
theorem write_eq (room : Nat) : Writes c room (Printer.write c.heap c.symbols room) := by
  induction room with
  | zero => exact fun _ _ _ _ hdepth => absurd hdepth (Nat.not_lt_zero _)
  | succ room ih =>
    intro out v d hv hdepth hbreadth
    cases hv with
    | nil => rfl
    | int n => rw [Printer.write, Datum.chars, String.ofList_toList]
    | @sym id name hname =>
      have htext : symbolText c.symbols id = name := by rw [symbolText, SymbolTable.name?, hname]
      rw [Printer.write, htext, Datum.chars, String.ofList_toList]
    | text hcell => rw [Printer.write, objectText_eq hcell, Datum.chars, String.ofList_toList]
    | @pair a x y d e hcell hx hy =>
      have hlength : e.length ≤ maxElements - 1 := by
        simp only [Datum.breadth] at hbreadth
        omega
      rw [Printer.write, writeSpine_eq ih _ (.pair hcell hx hy) (Nat.le_of_lt_succ hdepth) hbreadth hlength,
        ← String.toList_inj]
      simp [Datum.chars]

/-- **The text of a value is the written form of its datum**, within the limits of the printer. -/
theorem display_eq (hv : c.Denotes v d) (hdepth : d.depth ≤ Printer.maxDepth) (hbreadth : d.breadth ≤ maxElements) :
    c.display v = String.ofList d.chars := by
  rw [Context.display, write_eq (Printer.maxDepth + 1) "" v d hv (Nat.lt_succ_of_le hdepth) hbreadth,
    String.empty_append]

end Context.Denotes

end LispMachine
