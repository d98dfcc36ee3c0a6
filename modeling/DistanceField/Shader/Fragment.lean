import DistanceField.Shader.Run

/-!
# Fragments

The product of a compilation: the input that it reads, its statements, and the value
that holds the result.

* `Fragment.function`: the fragment as a shader function.
* `Fragment.evaluate`: its value at an input.
-/

namespace DistanceField.Shader

structure Fragment where
  input : Typed
  statements : List Statement
  result : Typed

namespace Fragment

/-- **The shader function** with a given name, whose only parameter is the input. -/
def function (f : Fragment) (name : String) : String :=
  f.result.ty.name ++ " " ++ name ++ "(" ++ f.input.text ++ ") \x7b\n" ++
    String.join (f.statements.map fun s => "    " ++ s.text ++ "\n") ++
    "    return " ++ f.result.code.text ++ ";\n\x7d\n"

/-- The statements and the result, line by line. -/
def text (f : Fragment) : String :=
  String.join (f.statements.map fun s => s.text ++ "\n") ++ "result: " ++ f.result.text

/-- **The value of the fragment** at an input. -/
def evaluate (f : Fragment) (point : Value) : Except (Failure Fault) Value :=
  match f.input.code with
  | .var name =>
    match runStatements f.statements [(name, point)] with
    | .ok () s => f.result.code.eval s
    | .error e _ => .error e
  | _ => .error (.report .inputNotVariable)

end Fragment

end DistanceField.Shader
