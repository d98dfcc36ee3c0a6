import DistanceField.Eval
import DistanceField.Expr.Parser
import DistanceField.Operation.Resolve
import DistanceField.Shape
import DistanceField.Token.Lexer

/-!
# Programs

A program is one expression. It is read, parsed and resolved before it runs.

* `Program.ofSource`: a program from its source text, or what is wrong with the text.
* `Program.run`: the value of a program.
* `Shape.ofSource?`: the shape that a source text denotes.
-/

namespace DistanceField

/-- The expression of a list of tokens, which must not be empty. -/
def parseTokens (tokens : List Token) : Except (Failure (List Diagnostic)) Expr :=
  match Stream.ofList? tokens with
  | none => .error .outOfBounds
  | some s =>
    match parse s with
    | .ok e => .ok e
    | .error d => .error (.report [d])

/-- A resolved program. -/
structure Program where
  main : Lambda

namespace Program

/-- **A program from its source text**, or the errors of the first stage that fails. -/
def ofSource (source : String) : Except (Failure (List Diagnostic)) Program := do
  let tokens ← (tokenize source).mapError .report
  let e ← parseTokens tokens
  let main ← e.toLambda.mapError .report
  return ⟨main⟩

/-- **The value of a program.** Closures of runs with different serial numbers are
different. -/
def run (p : Program) (options : Options) (serial : Nat) : Except (Failure EvalError) Value :=
  (Closure.mk p.main [] [serial]).call options.maxDepth [serial] []

end Program

/-- The shape that a source text denotes: the text is read and run without an error, and
its value is a record. -/
def Shape.ofSource? (source : String) (options : Options) (serial : Nat) : Option Shape :=
  match Program.ofSource source with
  | .error _ => none
  | .ok p =>
    match p.run options serial with
    | .error _ => none
    | .ok v => Shape.ofValue? v

end DistanceField
