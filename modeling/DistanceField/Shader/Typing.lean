import DistanceField.Error

/-!
# Typing of shader code

Which operand types operators and builtin functions accept in shader code, and the
types of their results.

* `widest`: the common type of numeric operands, where floats go with vectors.
* `Builtin.typing`: result types of builtin functions, and the type to which floats
  are widened.
* `BinaryOp.typing`, `UnaryOp.typing`: result types of operators.
-/

namespace DistanceField

namespace Shader

/-- Extends the common type of some operands by one more operand. -/
def widen (what : String) (common t : Ty) : Except Fault Ty :=
  if !t.isNumeric then .error (.notFloats what t)
  else if t.isVector then
    if common.isVector && common != t then .error (.incompatible what common t) else .ok t
  else .ok common

/-- The common type of operands that combine component by component: floats, or
vectors of one size mixed with floats. -/
def widest (what : String) (types : List Ty) : Except Fault Ty :=
  types.foldlM (widen what) .float

end Shader

open Shader

/-- The type of a call of a builtin function, and the vector type to which its float
arguments have to be widened, if any. -/
def Builtin.typing (b : Builtin) (types : List Ty) : Except Fault (Ty × Option Ty) :=
  if types.length ≠ b.arity then .error (.arity b.name b.arity types.length)
  else if b.shaderName?.isNone then .error (.unsupported (.builtin b.name))
  else do
    let common ← widest b.name types
    let promote := if common.isVector && types.any (!·.isVector) then some common else none
    match b with
    | .length | .dot => return (.float, promote)
    | _ => return (common, promote)

/-- The type of an expression with a binary operator. -/
def BinaryOp.typing (op : BinaryOp) (l r : Ty) : Except Fault Ty :=
  match op with
  | add | sub | mul | div | mod => widest op.symbol [l, r]
  | lt | le | gt | ge =>
    if l = .float ∧ r = .float then .ok .bool else .error (.notOrderedTypes op.symbol l r)
  | eq | ne => if l = r then .ok .bool else .error (.differentTypes op.symbol l r)
  | and | or =>
    if l = .bool ∧ r = .bool then .ok .bool else .error (.notBoolTypes op.symbol l r)

/-- The type of an expression with a unary operator. -/
def UnaryOp.typing (op : UnaryOp) (t : Ty) : Except Fault Ty :=
  match op with
  | neg => if t.isNumeric then .ok t else .error (.negatedType t)
  | not => if t = .bool then .ok .bool else .error (.notBoolType t)

end DistanceField
