import LispMachine.Proofs.Trampoline.Simulation
import LispMachine.Proofs.Twin.Creation

/-!
# The trampoline cannot be seen

Two standard contexts, one with the trampoline and one without it, are given the same text:

* `Value.Renamed`, `Cell.Renamed`, `Context.Renames` -- **the same but for addresses**: a one-to-one
  correspondence of cells, from the root environment on, under which each holds what the other one holds;
* `Machine.EndsAs` -- ends that are the same but for addresses and for the lines of traceback that stand
  in front of a failure;
* `Machine.exec_as_plain` -- **both evaluators come to the same end, or neither comes to one**.
-/

namespace LispMachine

variable {lex : Lexicon} {W : World} {r : Addr → Addr → Prop} {c c' : Context} {v v' : Value}

/-! ## 1. Renamed cells -/

/-- Values that are the same but for addresses. -/
inductive Value.Renamed (r : Addr → Addr → Prop) : Value → Value → Prop where
  | atom {v : Value} (hv : v.addr? = none) : Renamed r v v
  | pair {a b : Addr} (h : r a b) : Renamed r (.pair a) (.pair b)
  | object {a b : Addr} (h : r a b) : Renamed r (.object a) (.object b)

/-- Cells that hold the same but for addresses. -/
inductive Cell.Renamed (r : Addr → Addr → Prop) : Cell → Cell → Prop where
  | pair {x y x' y' : Value} (first : x.Renamed r x') (rest : y.Renamed r y') :
      Renamed r (.pair x y) (.pair x' y')
  | closure {parts parts' : Value} (t : TypeId) (h : parts.Renamed r parts') :
      Renamed r (.object t (.closure parts)) (.object t (.closure parts'))
  | procedure (t : TypeId) (p : Procedure) :
      Renamed r (.object t (.procedure p)) (.object t (.procedure p))
  | text (t : TypeId) (bytes : ByteArray) :
      Renamed r (.object t (.text bytes)) (.object t (.text bytes))

/-- **A renaming of the cells of one context**: those of the other one hold the same, and so do the
    environments. -/
structure Context.Renames (r : Addr → Addr → Prop) (c c' : Context) : Prop where
  left : ∀ {a b b'}, r a b → r a b' → b = b'
  right : ∀ {a a' b}, r a b → r a' b → a = a'
  cells : ∀ {a b : Addr}, r a b → ∃ x x', c.heap.cells[a]? = some x ∧ c'.heap.cells[b]? = some x' ∧
    x.Renamed r x'
  rootEnv : c.rootEnv.Renamed r c'.rootEnv

namespace World

/-- Cells of two heaps that correspond, whatever they are. -/
def Renames (W : World) (a b : Addr) : Prop := ∃ k, W a b k

theorem Same.renamed (h : W.Same v v') : v.Renamed W.Renames v' := by
  cases h with
  | atom hv => exact .atom hv
  | object hw => exact .object ⟨_, hw⟩
  | pair hw => exact .pair ⟨_, hw⟩

theorem Content.renamed {k : Kind} {x x' : Cell} (h : W.Content lex k x x') : x.Renamed W.Renames x' := by
  cases h with
  | pair first _ rest => exact .pair first.same.renamed rest.same.renamed
  | object ha =>
    cases ha with
    | func hp => exact .closure _ hp.same.renamed
    | native _ => exact .procedure _ _
    | str bytes => exact .text _ bytes

end World

/-- Contexts that correspond are the same but for addresses. -/
theorem Couple.Matched.renames {γ : Value × Value} {s : Nat → Nat}
    (hD : (Couple.mk W c c' s).Matched lex γ) : c.Renames W.Renames c' where
  left := fun ⟨_, hw⟩ ⟨_, hw'⟩ => (hD.coherent.one.left hw hw').1
  right := fun ⟨_, hw⟩ ⟨_, hw'⟩ => (hD.coherent.one.right hw hw').1
  cells := fun ⟨_, hw⟩ => by
    obtain ⟨x, x', hl, hr, hcontent⟩ := hD.coherent.cells hw
    exact ⟨x, x', hl, hr, hcontent.renamed⟩
  rootEnv := hD.rootEnv.rel.same.renamed

/-! ## 2. The same end -/

namespace Machine

variable {cfg cfg' : Config}

/-- **Two runs have come to the same end**, but for addresses and for the lines of traceback in front of
    the cause of a failure. -/
structure EndsAs (v : Value) (c : Context) (v' : Value) (c' : Context) : Prop where
  /-- The same value, bindings and contents. -/
  renamed : ∃ r : Addr → Addr → Prop, c.Renames r c' ∧ v.Renamed r v'
  names : c.symbols.names = c'.symbols.names
  output : c.output = c'.output
  failing : c.failing = c'.failing
  cause : ∃ cause, Traced cause c.failure ∧ Traced cause c'.failure

theorem EndedAlike.endsAs (h : EndedAlike lex v c v' c') (hsaid : lex.said = ("", "")) :
    EndsAs v c v' c' := by
  obtain ⟨W, s, hD, hv⟩ := h
  exact
    { renamed := ⟨W.Renames, hD.renames, hv.same.renamed⟩
      names := hD.names
      output := hD.output.eq (by rw [hsaid])
      failing := hD.failing
      cause := hD.failure.cause }

/-- **The trampoline cannot be seen.** A text of the standard forms and of natives that count no cells
    comes to an end with the trampoline just when it does so without, and to the same, provided that
    neither run reaches the limit of depth nor exhausts the heap. -/
theorem exec_as_plain {natives : List Primitive} (huncounted : .gc ∉ natives)
    (hc : Context.createWith natives cfg = .ok c) (hc' : Context.createWith natives cfg' = .ok c')
    (source : List Char) (echo : Bool) (hclear : Unhindered Host.none true ⟨c, .exec source echo, []⟩)
    (hclear' : Unhindered Host.none false ⟨c', .exec source echo, []⟩) :
    (∀ budget v d, run Host.none budget (.exec source echo) [] c = .ok v d →
      ∃ budget' v' d', drive Host.none false budget' (.exec source echo) [] c' = .ok v' d' ∧
        EndsAs v d v' d') ∧
    ∀ budget' v' d', drive Host.none false budget' (.exec source echo) [] c' = .ok v' d' →
      ∃ budget v d, run Host.none budget (.exec source echo) [] c = .ok v d ∧ EndsAs v d v' d' := by
  obtain ⟨lex, W, s, hnested, huntouched, hD, hlex⟩ :=
    Context.createWith_matched (fun _ : true = true => huncounted) nofun hc hc'
  have hhost := Host.balanced_none
  have hgo : GoesOn lex Host.none Host.none ⟨c, .exec source echo, []⟩ ⟨c', .exec source echo, []⟩ :=
    (exec_stepsOn hhost hnested hD hlex hclear hclear'.free).goesOn
  obtain ⟨hends, hends'⟩ := hgo.ends hhost hnested huntouched.full hclear hclear'
  constructor
  · intro budget v d hrun
    rw [← drive_true] at hrun
    obtain ⟨v', d', ⟨budget', hrun'⟩, halike⟩ := hends v d ⟨budget, hrun⟩
    exact ⟨budget', v', d', hrun', halike.endsAs huntouched.said⟩
  · intro budget' v' d' hrun'
    obtain ⟨v, d, ⟨budget, hrun⟩, halike⟩ := hends' v' d' ⟨budget', hrun'⟩
    refine ⟨budget, v, d, ?_, halike.endsAs huntouched.said⟩
    rw [← drive_true]
    exact hrun

/-- A function that calls itself in tail position from within other forms, and hands on functions that
    refer to the bindings of the calls before. -/
def countdown : String :=
  "(define (f n k) (if (= n 0) (k) (let ((m (- n 1))) (f m (lambda () (cons n (k)))))))
   (f 1 (lambda () ()))"

/-- Cells for the few natives that it takes. -/
def small : Config where
  chunkCells := 64
  growth := .upTo 4
  symbolCapacity := 32
  maxDepth := 50

theorem exec_as_plain_countdown :
    .gc ∉ [Primitive.eq, .sub, .cons] ∧
      ∃ c, Context.createWith [.eq, .sub, .cons] small = .ok c ∧
        Unhindered Host.none true ⟨c, .exec countdown.toList false, []⟩ ∧
        Unhindered Host.none false ⟨c, .exec countdown.toList false, []⟩ ∧
        ∃ budget v d budget' v' d',
          run Host.none budget (.exec countdown.toList false) [] c = .ok v d ∧
          drive Host.none false budget' (.exec countdown.toList false) [] c = .ok v' d' ∧
          EndsAs v d v' d' := by
  have huncounted : .gc ∉ [Primitive.eq, .sub, .cons] := by decide
  have hfree : (Context.createWith [.eq, .sub, .cons] small).toOption.any (fun c =>
      State.endsFreely Host.none true 120 ⟨c, .exec countdown.toList false, []⟩ &&
        State.endsFreely Host.none false 120 ⟨c, .exec countdown.toList false, []⟩) = true := by
    decide +kernel
  cases hc : Context.createWith [.eq, .sub, .cons] small with
  | error e =>
    rw [hc] at hfree
    cases hfree
  | ok c =>
    rw [hc] at hfree
    obtain ⟨hfree, hfree'⟩ := Bool.and_eq_true_iff.mp hfree
    obtain ⟨hclear, v, d, budget, hrun⟩ := unhindered_of_endsFreely hfree
    obtain ⟨hclear', -⟩ := unhindered_of_endsFreely hfree'
    have hrun' : run Host.none budget (.exec countdown.toList false) [] c = .ok v d :=
      (congrFun (drive_true _ _ _ _) c).symm.trans hrun
    obtain ⟨budget', v', d', hplain, hends⟩ :=
      (exec_as_plain huncounted hc hc countdown.toList false hclear hclear').1 budget v d hrun'
    exact ⟨huncounted, c, rfl, hclear, hclear', budget, v, d, budget', v', d', hrun', hplain, hends⟩

end Machine

end LispMachine
