import DistanceField.Error
import DistanceField.Number.Scalar

/-!
# Kernels

What operators and builtin functions do to values. The evaluator of programs and the
evaluator of shader code share these definitions.

* `Operand`: a number or a list of numbers; a number meets a list by broadcasting.
* `Builtin.apply`, `BinaryOp.apply`, `UnaryOp.apply`: functions and operators.
* `Value.condition`: the test of a condition.
-/

namespace DistanceField

/-- A number, or the components of a list of numbers. -/
inductive Operand where
  | scalar (x : Float)
  | vector (xs : List Float)

namespace Operand

/-- The operand that a value is for `what`. -/
def ofValue (what : String) (v : Value) : Except Fault Operand :=
  match v with
  | .num x => .ok (.scalar x)
  | v =>
    match v.vector? with
    | some xs => .ok (.vector xs)
    | none => .error (.notNumeric what v.tag)

def toValue : Operand → Value
  | scalar x => .num x
  | vector xs => .vector xs

def components : Operand → List Float
  | scalar x => [x]
  | vector xs => xs

/-- The Euclidean length. -/
def norm (a : Operand) : Float :=
  (Scalar.total (a.components.map fun x => x * x)).sqrt

def map (f : Float → Float) : Operand → Operand
  | scalar x => scalar (f x)
  | vector xs => vector (xs.map f)

/-- Combines two operands component by component. A number meets every component of a
list; lists have to be equally long. -/
def zip (what : String) (f : Float → Float → Float) : Operand → Operand → Except Fault Operand
  | scalar a, scalar b => .ok (scalar (f a b))
  | scalar a, vector bs => .ok (vector (bs.map fun b => f a b))
  | vector as, scalar b => .ok (vector (as.map fun a => f a b))
  | vector as, vector bs =>
    if as.length = bs.length then .ok (vector (List.zipWith f as bs))
    else .error (.lengths what as.length bs.length)

end Operand

/-! ## Builtin functions -/

/-- The functions of one number that work component by component. -/
def Builtin.unary? : Builtin → Option (Float → Float)
  | .sqrt => some Float.sqrt
  | .abs => some Float.abs
  | .floor => some Float.floor
  | .ceil => some Float.ceil
  | .fract => some Scalar.fract
  | .sign => some Scalar.sign
  | .sin => some Float.sin
  | .cos => some Float.cos
  | .tan => some Float.tan
  | .exp => some Float.exp
  | .log => some Float.log
  | _ => none

/-- The functions of two numbers that work component by component. -/
def Builtin.binary? : Builtin → Option (Float → Float → Float)
  | .atan2 => some Float.atan2
  | .pow => some Float.pow
  | .mod => some Scalar.floorMod
  | .min => some Scalar.lesser
  | .max => some Scalar.greater
  | _ => none

namespace Builtin

/-- The number of elements of a list, or of characters of a string. -/
def countOf (v : Value) : Except Fault Value :=
  match v with
  | .list items => .ok (.num (Float.ofNat items.length))
  | .str s => .ok (.num (Float.ofNat s.length))
  | v => .error (.notCountable v.tag)

/-- A function of one argument. -/
def apply1 (b : Builtin) (v : Value) : Except Fault Value :=
  if b = .count then countOf v
  else do
    let a ← Operand.ofValue b.name v
    match b.unary? with
    | some f => return (a.map f).toValue
    | none =>
      let length := a.norm
      if b = .normalize then return (a.map fun x => x / length).toValue
      else return .num length

/-- A function of two arguments. -/
def apply2 (b : Builtin) (v w : Value) : Except Fault Value := do
  let x ← Operand.ofValue b.name v
  let y ← Operand.ofValue b.name w
  match b.binary? with
  | some f => return (← x.zip b.name f y).toValue
  | none =>
    let products ← x.zip b.name (fun a b => a * b) y
    return .num (Scalar.total products.components)

/-- The nearest number between two bounds. -/
def clampOf (v lo hi : Value) : Except Fault Value := do
  let what := clamp.name
  let x ← Operand.ofValue what v
  let lo ← Operand.ofValue what lo
  let raised ← x.zip what Scalar.greater lo
  let hi ← Operand.ofValue what hi
  return (← raised.zip what Scalar.lesser hi).toValue

/-- The weighted mean of two arguments, with the weight of the second. -/
def mixOf (v w weight : Value) : Except Fault Value := do
  let what := mix.name
  let t ← Operand.ofValue what weight
  let x ← Operand.ofValue what v
  let a ← x.zip what (fun x t => x * (1 - t)) t
  let y ← Operand.ofValue what w
  let b ← y.zip what (fun y t => y * t) t
  return (← a.zip what (fun a b => a + b) b).toValue

/-- **A builtin function on values.** -/
def apply (b : Builtin) (args : List Value) : Except Fault Value :=
  if args.length ≠ b.arity then .error (.arity b.name b.arity args.length)
  else
    match args with
    | [v] => b.apply1 v
    | [v, w] => b.apply2 v w
    | [v, w, u] => if b = .clamp then clampOf v w u else mixOf v w u
    | _ => .error (.arity b.name b.arity args.length)

end Builtin

/-! ## Operators -/

namespace BinaryOp

/-- An arithmetic operator, component by component. -/
def applyArithmetic (op : BinaryOp) (f : Float → Float → Float) (l r : Value) :
    Except Fault Value := do
  let a ← Operand.ofValue op.symbol l
  let b ← Operand.ofValue op.symbol r
  return (← a.zip op.symbol f b).toValue

/-- A comparison of two numbers. -/
def applyOrdering (op : BinaryOp) (f : Float → Float → Bool) : Value → Value → Except Fault Value
  | .num a, .num b => .ok (.bool (f a b))
  | l, r => .error (.notOrdered op.symbol l.tag r.tag)

/-- A connective of two booleans. -/
def applyLogic (op : BinaryOp) (f : Bool → Bool → Bool) : Value → Value → Except Fault Value
  | .bool a, .bool b => .ok (.bool (f a b))
  | l, r => .error (.notBools op.symbol l.tag r.tag)

/-- **A binary operator on values**, both of which are given; `and` and `or` need both
of them to be booleans. -/
def apply (op : BinaryOp) (l r : Value) : Except Fault Value :=
  match op with
  | add => op.applyArithmetic (fun a b => a + b) l r
  | sub => op.applyArithmetic (fun a b => a - b) l r
  | mul => op.applyArithmetic (fun a b => a * b) l r
  | div => op.applyArithmetic (fun a b => a / b) l r
  | mod => op.applyArithmetic Scalar.floorMod l r
  | eq => .ok (.bool (l.equals r))
  | ne => .ok (.bool !(l.equals r))
  | lt => op.applyOrdering (fun a b => a < b) l r
  | le => op.applyOrdering (fun a b => a ≤ b) l r
  | gt => op.applyOrdering (fun a b => a > b) l r
  | ge => op.applyOrdering (fun a b => a ≥ b) l r
  | and => op.applyLogic (fun a b => a && b) l r
  | or => op.applyLogic (fun a b => a || b) l r

end BinaryOp

/-- **A unary operator on a value.** -/
def UnaryOp.apply (op : UnaryOp) (v : Value) : Except Fault Value :=
  match op with
  | .neg => do return ((← Operand.ofValue "-" v).map fun x => -x).toValue
  | .not =>
    match v with
    | .bool b => .ok (.bool !b)
    | v => .error (.notBool v.tag)

/-- The test of a condition: only booleans decide. -/
def Value.condition (v : Value) : Except Fault Bool :=
  match v with
  | .bool b => .ok b
  | v => .error (.condition v.tag)

/-! ## Components -/

/-- The component that a field name of a list denotes. -/
def componentOf? (name : String) : Option Nat :=
  if name == "x" then some 0
  else if name == "y" then some 1
  else if name == "z" then some 2
  else if name == "w" then some 3
  else none

/-- A field of a value: of a record by its name, of a list by a component name. -/
def Value.field (v : Value) (name : String) : Except Fault Value :=
  match v with
  | .record fields =>
    match Fields.get? fields name with
    | some w => .ok w
    | none => .error (.noField name)
  | .list items =>
    match componentOf? name with
    | none => .error (.noFieldOfList name)
    | some i =>
      match items[i]? with
      | some w => .ok w
      | none => .error (.shortList name items.length)
  | v => .error (.fieldOf name v.tag)

/-- The element of a list at a whole number within the list. -/
def Value.index (v i : Value) : Except Fault Value :=
  match v with
  | .list items =>
    match i with
    | .num n =>
      match (Scalar.index? n items.length).bind fun k => items[k]? with
      | some w => .ok w
      | none => .error (.indexRange n items.length)
    | i => .error (.indexTag i.tag)
  | v => .error (.notIndexable v.tag)

end DistanceField
