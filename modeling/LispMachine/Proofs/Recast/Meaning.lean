import LispMachine.Proofs.Recast.Creation
import LispMachine.Proofs.Recast.Reading
import LispMachine.Proofs.Recast.Renaming

/-!
# A local frame is an applied function

Two standard contexts are given texts that are the same but for evaluated forms `(let ((name expr)...) body...)`
of the one that are forms `((lambda (name...) body...) expr...)` in the other one:

* `Text.lastLine` -- the last line of a message, behind all lines of traceback;
* `Machine.EndsRecast` -- ends that are the same but for addresses, for these forms in the bodies of functions, and
  for lines of traceback;
* `Machine.exec_let_as_lambda` -- **both texts come to the same end, or neither comes to one**.
-/

namespace LispMachine

/-! ## 1. Causes -/

/-- What stands behind the last newline of a text. -/
def Text.lastLine (text : String) : List Char := (text.toList.reverse.takeWhile (· != '\n')).reverse

/-- A line in front is not the last one. -/
theorem Text.lastLine_append {line : String} {cs : List Char} (hline : line.toList = cs ++ ['\n']) (text : String) :
    lastLine (line ++ text) = lastLine text := by
  have hsplit : (line ++ text).toList.reverse = text.toList.reverse ++ '\n' :: cs.reverse := by
    simp [hline]
  rw [lastLine, lastLine, hsplit, List.takeWhile_append]
  split
  · rename_i hall
    rw [List.takeWhile_cons_of_neg (by decide), List.append_nil, (List.takeWhile_prefix _).eq_of_length hall]
  · rfl

/-- Lines of traceback leave the last line as it is. -/
theorem Traced.lastLine_eq {cause message : String} (h : Traced cause message) :
    Text.lastLine message = Text.lastLine cause := by
  induction h with
  | bare => rfl
  | line name _ ih =>
    have hline : ("In " ++ name ++ ":\n").toList = ("In ".toList ++ name.toList ++ [':']) ++ ['\n'] := by simp
    rw [Text.lastLine_append hline, ih]

/-! ## 2. The same end -/

namespace Machine

open Relation

variable {cfg cfg' : Config} {c c' d d' q q' : Context} {u u' v v' : Value} {lex lex' : Lexicon} {K : Concord}
variable {natives : List Primitive} {source source' : List Char} {echo : Bool}

/-- **Two runs have come to the same end**, but for addresses, for `let` forms in the bodies of functions that have
    become applied functions, and for lines of traceback. -/
structure EndsRecast (v : Value) (c : Context) (v' : Value) (c' : Context) : Prop where
  /-- The same value, bindings and contents, symbols being known by their names. -/
  recast : ∃ r : Addr → Addr → Prop, c.RecastAs r c' ∧ (Concord.mk r c.book c'.book).Rel v v'
  output : c.output = c'.output
  failing : c.failing = c'.failing
  /-- The same message stands behind both of them, less some lines of traceback. -/
  message : ∃ message, (∃ cause, Traced cause c.failure ∧ Traced cause message) ∧
    ∃ cause, Traced cause message ∧ Traced cause c'.failure
  /-- Causes have no newlines, so that the last line is the cause. -/
  cause : Text.lastLine c.failure = Text.lastLine c'.failure

/-- Ends that are led by ends that agree. -/
theorem EndedAlike.endsRecast (h : EndedAlike lex v c u q) (h' : EndedAlike lex' v' c' u' q')
    (hK : Duet.Sound ⟨K, q, q'⟩) (hu : K.Rel u u') (hsaid : lex.said = ("", "")) (hsaid' : lex'.said = ("", "")) :
    EndsRecast v c v' c' := by
  obtain ⟨W, s, hD, hv⟩ := h
  obtain ⟨W', s', hD', hv'⟩ := h'
  obtain ⟨cause, hc, hq⟩ := hD.failure.cause
  obtain ⟨cause', hc', hq'⟩ := hD'.failure.cause
  rw [show (Couple.mk W c q s).right.failure = q'.failure from hK.failure] at hq
  exact
    { recast := ⟨_, Duet.Sound.recastAs hD hD' hK, .through hD hD' hK hv.same hv'.same hu⟩
      output := (hD.output.eq (by rw [hsaid])).trans (hK.output.trans (hD'.output.eq (by rw [hsaid'])).symm)
      failing := hD.failing.trans (hK.failing.trans hD'.failing.symm)
      message := ⟨q'.failure, ⟨cause, hc, hq⟩, cause', hq', hc'⟩
      cause := by rw [hc.lastLine_eq, ← hq.lastLine_eq, hq'.lastLine_eq, hc'.lastLine_eq] }

section

variable {D : Duet} {roots roots' : Array Value} {σ σ' τ τ' υ υ' : State} {m m' : Nat}
variable (h : LedAlong σ τ) (h' : LedAlong σ' τ') (hclear : Unhindered Host.none true σ)
variable (hclear' : Unhindered Host.none true σ')
include h h' hclear hclear'

/-- Where the runs that lead them come to values that correspond, two runs come to the same end. -/
theorem Glides.endsRecast (hglide : Glides m τ υ) (hglide' : Glides m' τ' υ')
    (hgives : D.Gives roots roots' [] [] υ υ') :
    ∃ v d v' d', ReflTransGen (Moves Host.none true) σ ⟨d, .give v, []⟩ ∧
      ReflTransGen (Moves Host.none true) σ' ⟨d', .give v', []⟩ ∧ EndsRecast v d v' d' := by
  obtain ⟨lex, hnested, hfull, hsaid, h⟩ := h
  obtain ⟨lex', hnested', hfull', hsaid', h'⟩ := h'
  obtain ⟨K, q, q', u, u', rfl, rfl, hK, -, -, -, hu⟩ := hgives
  obtain ⟨v, d, hmoves, halike⟩ := h.ends Host.balanced_none hnested hfull hglide hclear
  obtain ⟨v', d', hmoves', halike'⟩ := h'.ends Host.balanced_none hnested' hfull' hglide' hclear'
  exact ⟨v, d, v', d', hmoves, hmoves', halike.endsRecast halike' hK hu hsaid hsaid'⟩

/-- **If either run comes to an end, both do**, and to the same. -/
theorem Meets.endsRecast (hmeets : ∀ n, Meets n τ τ' (D.Gives roots roots' [] []))
    (hends : (∃ v d, Comes Host.none true σ v d) ∨ ∃ v d, Comes Host.none true σ' v d) :
    ∃ v d v' d', ReflTransGen (Moves Host.none true) σ ⟨d, .give v, []⟩ ∧
      ReflTransGen (Moves Host.none true) σ' ⟨d', .give v', []⟩ ∧ EndsRecast v d v' d' := by
  have hlasts : ∃ n, ¬ (Lasts n τ ∧ Lasts n τ') := by
    rcases hends with ⟨v, d, budget, hrun⟩ | ⟨v, d, budget, hrun⟩
    · obtain ⟨lex, hnested, hfull, -, h⟩ := h
      exact ⟨budget + 1, fun hlasts => h.not_lasts Host.balanced_none hnested hfull hclear hrun hlasts.1⟩
    · obtain ⟨lex, hnested, hfull, -, h'⟩ := h'
      exact ⟨budget + 1, fun hlasts => h'.not_lasts Host.balanced_none hnested hfull hclear' hrun hlasts.2⟩
  obtain ⟨n, hnot⟩ := hlasts
  rcases hmeets n with ⟨m, m', υ, υ', hglide, hglide', hgives⟩ | hlasts
  · exact Glides.endsRecast h h' hclear hclear' hglide hglide' hgives
  · exact absurd hlasts hnot

end

/-- **A form with local bindings is an applied function.** Texts of the standard forms and of natives that count no
    cells come to an end together if some of the evaluated `let` forms of the one are applied functions in the
    other one, and to the same, provided that neither run reaches the limit of depth nor exhausts the heap. -/
theorem exec_let_as_lambda (huncounted : .gc ∉ natives) (hc : Context.createWith natives cfg = .ok c)
    (hc' : Context.createWith natives cfg' = .ok c') (hrecast : RecastText source source') (echo : Bool)
    (hclear : Unhindered Host.none true ⟨c, .exec source echo, []⟩)
    (hclear' : Unhindered Host.none true ⟨c', .exec source' echo, []⟩) :
    (∀ budget v d, run Host.none budget (.exec source echo) [] c = .ok v d →
      ∃ budget' v' d', run Host.none budget' (.exec source' echo) [] c' = .ok v' d' ∧ EndsRecast v d v' d') ∧
    ∀ budget' v' d', run Host.none budget' (.exec source' echo) [] c' = .ok v' d' →
      ∃ budget v d, run Host.none budget (.exec source echo) [] c = .ok v d ∧ EndsRecast v d v' d' := by
  obtain ⟨q, hq, hled, hled'⟩ := Context.exists_newborn huncounted hc hc'
  have hends := Meets.endsRecast (hled source echo) (hled' source' echo) hclear hclear' fun n =>
    Meets.exec hq hrecast echo n [] []
  simp only [← drive_true]
  constructor
  · intro budget v d hrun
    have hcomes : Comes Host.none true ⟨c, .exec source echo, []⟩ v d := ⟨budget, hrun⟩
    obtain ⟨v₁, d₁, v', d', hmoves, hmoves', hends⟩ := hends (.inl ⟨v, d, hcomes⟩)
    obtain ⟨rfl, rfl⟩ := (hcomes.after hmoves).eq_of_finished
    obtain ⟨budget', hrun'⟩ := (comes_finished v' d').of_moves hmoves'
    exact ⟨budget', v', d', hrun', hends⟩
  · intro budget' v' d' hrun'
    have hcomes : Comes Host.none true ⟨c', .exec source' echo, []⟩ v' d' := ⟨budget', hrun'⟩
    obtain ⟨v, d, v₁, d₁, hmoves, hmoves', hends⟩ := hends (.inr ⟨v', d', hcomes⟩)
    obtain ⟨rfl, rfl⟩ := (hcomes.after hmoves').eq_of_finished
    obtain ⟨budget, hrun⟩ := (comes_finished v d).of_moves hmoves
    exact ⟨budget, v, d, hrun, hends⟩

/-- A program around one form. -/
def shadowing (form : Datum) : Datum :=
  .listed [.sym "begin", .listed [.sym "define", .sym "x", .int 1], form]

/-- The `x` of the second binding is not that of the first one. -/
def shadowingBindings : List (String × Option Datum) :=
  [("x", some (.int 2)), ("y", some (.sym "x")), ("z", none)]

def shadowingBody : Datum :=
  .listed [.listed [.sym "cons", .sym "x", .listed [.sym "cons", .sym "y", .sym "z"]]]

def shadowingText : String := "(begin (define x 1) (let ((x 2) (y x) z) (cons x (cons y z))))"

def shadowingApplied : String := "(begin (define x 1) ((lambda (x y z) (cons x (cons y z))) 2 x ()))"

theorem recastText_shadowing : RecastText shadowingText.toList shadowingApplied.toList := by
  have hparse : Datum.parse shadowingText.toList =
      .ok (some (shadowing (.letForm shadowingBindings shadowingBody)), []) := by decide +kernel
  have hparse' : Datum.parse shadowingApplied.toList =
      .ok (some (shadowing (.appliedForm shadowingBindings shadowingBody)), []) := by decide +kernel
  have hexprs : ∀ d : Datum, Datum.Recast .exprs d d := fun d => Datum.Recast.refl d _ (.inl trivial)
  have hlet : Datum.Recast .expr (.letForm shadowingBindings shadowingBody)
      (.appliedForm shadowingBindings shadowingBody) := .letForm shadowingBindings (hexprs shadowingBody)
  have hdefine : Datum.Recast .expr (.listed [.sym "define", .sym "x", .int 1])
      (.listed [.sym "define", .sym "x", .int 1]) := Datum.Recast.refl _ _ (.inr (.inl rfl))
  have hform : Datum.Recast .expr (shadowing (.letForm shadowingBindings shadowingBody))
      (shadowing (.appliedForm shadowingBindings shadowingBody)) :=
    .special rfl rfl (show Datum.code.form _ .sequence from rfl) rfl
      (.list trivial rfl rfl hdefine (.list trivial rfl rfl hlet (hexprs .nil)))
  exact .form hparse hparse' hform (.done (by decide +kernel) (by decide +kernel))

theorem exec_let_as_lambda_shadowing :
    .gc ∉ [Primitive.cons] ∧ RecastText shadowingText.toList shadowingApplied.toList ∧
      ∃ c, Context.createWith [.cons] small = .ok c ∧
        Unhindered Host.none true ⟨c, .exec shadowingText.toList false, []⟩ ∧
        Unhindered Host.none true ⟨c, .exec shadowingApplied.toList false, []⟩ ∧
        ∃ budget v d budget' v' d',
          run Host.none budget (.exec shadowingText.toList false) [] c = .ok v d ∧
          run Host.none budget' (.exec shadowingApplied.toList false) [] c = .ok v' d' ∧
          EndsRecast v d v' d' := by
  have huncounted : .gc ∉ [Primitive.cons] := by decide
  have hfree : (Context.createWith [.cons] small).toOption.any (fun c =>
      State.endsFreely Host.none true 120 ⟨c, .exec shadowingText.toList false, []⟩ &&
        State.endsFreely Host.none true 120 ⟨c, .exec shadowingApplied.toList false, []⟩) = true := by
    decide +kernel
  cases hc : Context.createWith [.cons] small with
  | error e =>
    rw [hc] at hfree
    cases hfree
  | ok c =>
    rw [hc] at hfree
    obtain ⟨hfree, hfree'⟩ := Bool.and_eq_true_iff.mp hfree
    obtain ⟨hclear, v, d, budget, hrun⟩ := unhindered_of_endsFreely hfree
    obtain ⟨hclear', -⟩ := unhindered_of_endsFreely hfree'
    have hrun' : run Host.none budget (.exec shadowingText.toList false) [] c = .ok v d :=
      (congrFun (drive_true _ _ _ _) c).symm.trans hrun
    obtain ⟨budget', v', d', happlied, hends⟩ :=
      (exec_let_as_lambda huncounted hc hc recastText_shadowing false hclear hclear').1 budget v d hrun'
    exact ⟨huncounted, recastText_shadowing, c, rfl, hclear, hclear', budget, v, d, budget', v', d', hrun',
      happlied, hends⟩

end Machine

end LispMachine
