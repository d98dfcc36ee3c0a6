import DistanceField.Error

/-!
# Shader code

Expressions of shader code, values that are known by their type and their code, and
statements.

* `Code.text`: the written form of an expression.
* `Typed.ofValue?`: the literal form of a value.
* `Statement.text`: the written form of a statement.
-/

namespace DistanceField.Shader

/-- An expression of shader code. -/
inductive Code where
  | var (name : String)
  | num (x : Float)
  | bool (b : Bool)
  /-- A vector from its components, or from one float for all of them. -/
  | construct (ty : Ty) (parts : List Code)
  | unary (op : UnaryOp) (operand : Code)
  | binary (op : BinaryOp) (left right : Code)
  | call (builtin : Builtin) (args : List Code)
  /-- A component with a known place. -/
  | component (target : Code) (place : Nat)
  /-- A component whose place is computed. -/
  | index (target place : Code)
  | select (condition yes no : Code)

namespace Code

mutual

/-- Whether the code is a literal: a number, a boolean, or a vector of literals. -/
def isLiteral : Code → Bool
  | num _ | bool _ => true
  | construct _ parts => allLiteral parts
  | _ => false

def allLiteral : List Code → Bool
  | [] => true
  | c :: cs => isLiteral c && allLiteral cs

end

/-- The number form of shader code: it always has a point or an exponent, an exponent
outside of `[1e-5, 1e7)`, and parentheses around a sign. Infinities and NaN are
quotients. -/
def literalText (x : Float) : String :=
  if x.isNaN then "(0.0/0.0)"
  else if x.isInf then if x > 0 then "(1.0/0.0)" else "(-1.0/0.0)"
  else
    let magnitude := x.abs
    let d := Decimal.shortest magnitude
    let text :=
      if magnitude != 0 && (magnitude < 1e-5 || magnitude >= 1e7) then d.scientific
      else
        let plain := d.positional
        if plain.contains '.' then plain else plain ++ ".0"
    if x < 0 then "(-" ++ text ++ ")" else text

/-- The operator symbols of shader code. -/
def binarySymbol : BinaryOp → String
  | .and => "&&"
  | .or => "||"
  | op => op.symbol

def unarySymbol : UnaryOp → String
  | .neg => "-"
  | .not => "!"

mutual

/-- **The written form of an expression.** -/
def text : Code → String
  | var name => name
  | num x => literalText x
  | bool b => toString b
  | construct ty parts => ty.name ++ "(" ++ ", ".intercalate (textOfAll parts) ++ ")"
  | unary op e => unarySymbol op ++ text e
  | binary op l r => text l ++ " " ++ binarySymbol op ++ " " ++ text r
  | call b args =>
    b.shaderName?.getD b.name ++ "(" ++ ", ".intercalate (textOfAll args) ++ ")"
  | component e i => text e ++ "[" ++ toString i ++ "]"
  | index e i => text e ++ "[int(" ++ text i ++ ")]"
  | select c a b => text c ++ " ? " ++ text a ++ " : " ++ text b

def textOfAll : List Code → List String
  | [] => []
  | c :: cs => text c :: textOfAll cs

end

end Code

/-- A value of shader code: its type, and code that denotes it. -/
structure Typed where
  ty : Ty
  code : Code

namespace Typed

/-- A variable that is given from outside. -/
def input (ty : Ty) (name : String) : Typed :=
  ⟨ty, .var name⟩

/-- The literal form of a value: numbers, booleans, and lists of two to four numbers
have one. -/
def ofValue? (v : Value) : Option Typed :=
  match v with
  | .num x => some ⟨.float, .num x⟩
  | .bool b => some ⟨.bool, .bool b⟩
  | v => do
    let xs ← v.vector?
    let ty ← Ty.vector? xs.length
    return ⟨ty, .construct ty (xs.map Code.num)⟩

/-- The code of a value where a value of type `ty` is wanted: a float is widened to a
vector. -/
def widenTo (v : Typed) (ty : Ty) : Code :=
  if ty.isVector && v.ty == .float then .construct ty [v.code] else v.code

def text (v : Typed) : String :=
  v.ty.name ++ " " ++ v.code.text

end Typed

/-- The declaration of a variable with its value. -/
structure Statement where
  name : String
  ty : Ty
  code : Code

def Statement.text (s : Statement) : String :=
  s.ty.name ++ " " ++ s.name ++ " = " ++ s.code.text ++ ";"

end DistanceField.Shader
