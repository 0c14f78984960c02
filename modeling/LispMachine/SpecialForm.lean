/-!
# Special forms

A special form receives its arguments unevaluated. It is known by the symbol at the head of the
form, in every environment:

* `StandardForm` -- the forms of the language, with the names they have in every context;
* `SpecialForm` -- one of them, or one that the embedding program supplies under a name.

What they do is in `LispMachine.Machine.Form`.
-/

namespace LispMachine

/-- The forms of the language. -/
inductive StandardForm where
  /-- Gives its argument as it stands: `(quote x)`. -/
  | quote
  /-- Chooses between two expressions: `(if test then else?)`. -/
  | branch
  /-- Binds a value or a function: `(define x expr)`, `(define (f params...) body...)`. -/
  | define
  /-- Makes a function: `(lambda params body...)`. -/
  | lambda
  /-- Evaluates forms in order: `(begin forms...)`. -/
  | sequence
  /-- Evaluates forms up to the first false one: `(and forms...)`. -/
  | conjunction
  /-- Evaluates forms up to the first true one: `(or forms...)`. -/
  | disjunction
  /-- Binds names for a body: `(let ((name expr)...) body...)`. -/
  | binding
  /-- Replaces the value of a name: `(set! name expr)`. -/
  | assignment
  deriving DecidableEq, Repr

namespace StandardForm

/-- The forms in the order in which a new context names them. -/
def all : List StandardForm :=
  [quote, branch, define, lambda, sequence, conjunction, disjunction, binding, assignment]

/-- The symbol a form is known by. -/
def name : StandardForm → String
  | quote => "quote"
  | branch => "if"
  | define => "define"
  | lambda => "lambda"
  | sequence => "begin"
  | conjunction => "and"
  | disjunction => "or"
  | binding => "let"
  | assignment => "set!"

end StandardForm

/-- A special form. -/
inductive SpecialForm where
  | standard (f : StandardForm)
  /-- One that the embedding program supplies under `entry`. -/
  | hosted (entry : String)
  deriving DecidableEq, Repr

end LispMachine
