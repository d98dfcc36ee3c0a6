import DistanceField.Pos

/-!
# Expressions

The expression trees of the language, as written: names are not resolved. Every
node carries a position, which errors report.
-/

namespace DistanceField

inductive BinaryOp where
  | add | sub | mul | div | mod
  | eq | ne
  | lt | le | gt | ge
  | and | or
deriving DecidableEq, Repr

namespace BinaryOp

def all : List BinaryOp :=
  [add, sub, mul, div, mod, eq, ne, lt, le, gt, ge, and, or]

def symbol : BinaryOp → String
  | add => "+"
  | sub => "-"
  | mul => "*"
  | div => "/"
  | mod => "%"
  | eq => "=="
  | ne => "!="
  | lt => "<"
  | le => "<="
  | gt => ">"
  | ge => ">="
  | and => "and"
  | or => "or"

/-- The operators that work component by component on numbers and lists of numbers. -/
def isArithmetic : BinaryOp → Bool
  | add | sub | mul | div | mod => true
  | _ => false

/-- The operators that compare two numbers by size. -/
def isOrdering : BinaryOp → Bool
  | lt | le | gt | ge => true
  | _ => false

end BinaryOp

inductive UnaryOp where
  | neg | not
deriving DecidableEq, Repr

namespace UnaryOp

def all : List UnaryOp := [neg, not]

def symbol : UnaryOp → String
  | neg => "-"
  | not => "not"

end UnaryOp

/-- Values that are written directly. -/
inductive Literal where
  | null
  | bool (b : Bool)
  | num (x : Float)
  | str (s : String)

/-- A name with its position: a parameter of a function. -/
structure Param where
  name : String
  pos : Pos
deriving DecidableEq, Repr

/-- A name with its position and what it stands for: a binding of a `let`, or a
field of a record. -/
structure Named (α : Type) where
  name : String
  pos : Pos
  value : α

inductive Expr where
  | lit (value : Literal) (pos : Pos)
  | ident (name : String) (pos : Pos)
  | unary (op : UnaryOp) (operand : Expr) (pos : Pos)
  | binary (op : BinaryOp) (left right : Expr) (pos : Pos)
  | cond (condition yes no : Expr) (pos : Pos)
  | call (callee : Expr) (args : List Expr) (pos : Pos)
  | index (target index : Expr) (pos : Pos)
  | field (target : Expr) (name : String) (pos : Pos)
  | list (items : List Expr) (pos : Pos)
  | record (fields : List (Named Expr)) (pos : Pos)
  | lambda (params : List Param) (body : Expr) (pos : Pos)
  | letIn (bindings : List (Named Expr)) (body : Expr) (pos : Pos)

def Expr.pos : Expr → Pos
  | lit _ p => p
  | ident _ p => p
  | unary _ _ p => p
  | binary _ _ _ p => p
  | cond _ _ _ p => p
  | call _ _ p => p
  | index _ _ p => p
  | field _ _ p => p
  | list _ p => p
  | record _ p => p
  | lambda _ _ p => p
  | letIn _ _ p => p

end DistanceField
