import DistanceField.Builtin
import DistanceField.Expr

/-!
# Operations

Resolved expressions. Names are gone: a name of the function itself is a slot of its
frame, a name of an enclosing function is a place among the values that the function
captured when it was made. Both evaluators run operations.
-/

namespace DistanceField

/-- What a name means inside a function: a slot of the frame, or a captured value. -/
inductive Reference where
  | slot (i : Nat)
  | captured (i : Nat)
deriving DecidableEq, Repr

/-- A function without its body: the parameters take the first `arity` of `slots`
frame slots, and `captures` says where the maker of a closure finds the values to
capture. -/
structure Signature where
  name : Option String
  arity : Nat
  slots : Nat
  captures : List Reference
  pos : Pos
deriving DecidableEq, Repr

inductive Operation where
  | const (value : Literal) (pos : Pos)
  | load (ref : Reference) (pos : Pos)
  | lambda (signature : Signature) (body : Operation)
  | call (callee : Operation) (args : List Operation) (pos : Pos)
  | builtin (builtin : Builtin) (args : List Operation) (pos : Pos)
  | unary (op : UnaryOp) (operand : Operation) (pos : Pos)
  | binary (op : BinaryOp) (left right : Operation) (pos : Pos)
  | cond (condition yes no : Operation) (pos : Pos)
  | letIn (bindings : List (Nat × Operation)) (body : Operation) (pos : Pos)
  | list (items : List Operation) (pos : Pos)
  | record (fields : List (String × Operation)) (pos : Pos)
  | field (target : Operation) (name : String) (pos : Pos)
  | index (target index : Operation) (pos : Pos)

def Operation.pos : Operation → Pos
  | const _ p => p
  | load _ p => p
  | lambda s _ => s.pos
  | call _ _ p => p
  | builtin _ _ p => p
  | unary _ _ p => p
  | binary _ _ _ p => p
  | cond _ _ _ p => p
  | letIn _ _ p => p
  | list _ p => p
  | record _ p => p
  | field _ _ p => p
  | index _ _ p => p

/-- A resolved function. -/
structure Lambda where
  signature : Signature
  body : Operation

end DistanceField
