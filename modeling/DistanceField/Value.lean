import DistanceField.Number.Decimal
import DistanceField.Operation
import DistanceField.Text.Quoted
import DistanceField.Value.Fields

/-!
# Values

What a program computes. A function value is a closure: resolved code together with
the values that it captured when it was made.

* `Origin`: the identity of a closure.
* `Value.equals`: structural equality, by identity on functions.
* `Value.text`: the printed form.
-/

namespace DistanceField

/-- The place in an evaluation at which a closure was made: the steps that lead to
it, the last one first. Every evaluation step has a place of its own, so two closures
are the same exactly if they have the same origin. -/
abbrev Origin := List Nat

inductive Value where
  | null
  | bool (b : Bool)
  | num (x : Float)
  | str (s : String)
  | list (items : List Value)
  | record (fields : List (String × Value))
  | function (code : Lambda) (captured : List Value) (origin : Origin)

/-- A function value. -/
structure Closure where
  code : Lambda
  captured : List Value
  origin : Origin

namespace Closure

def toValue (f : Closure) : Value :=
  .function f.code f.captured f.origin

def name (f : Closure) : Option String := f.code.signature.name

def arity (f : Closure) : Nat := f.code.signature.arity

def slots (f : Closure) : Nat := f.code.signature.slots

def pos (f : Closure) : Pos := f.code.signature.pos

def body (f : Closure) : Operation := f.code.body

/-- The name in messages. -/
def label (f : Closure) : String :=
  f.name.getD "<lambda>"

end Closure

/-- The kinds of values. -/
inductive Tag where
  | null | bool | number | string | list | record | function
deriving DecidableEq, Repr

def Tag.name : Tag → String
  | null => "null"
  | bool => "bool"
  | number => "number"
  | string => "string"
  | list => "list"
  | record => "record"
  | function => "function"

namespace Value

def tag : Value → Tag
  | null => .null
  | bool _ => .bool
  | num _ => .number
  | str _ => .string
  | list _ => .list
  | record _ => .record
  | function _ _ _ => .function

def ofLiteral : Literal → Value
  | .null => null
  | .bool b => bool b
  | .num x => num x
  | .str s => str s

/-- A list of numbers. -/
def vector (xs : List Float) : Value :=
  list (xs.map num)

def bool? : Value → Option Bool
  | bool b => some b
  | _ => none

def num? : Value → Option Float
  | num x => some x
  | _ => none

def str? : Value → Option String
  | str s => some s
  | _ => none

def list? : Value → Option (List Value)
  | list items => some items
  | _ => none

def record? : Value → Option (List (String × Value))
  | record fields => some fields
  | _ => none

def closure? : Value → Option Closure
  | function code captured origin => some ⟨code, captured, origin⟩
  | _ => none

/-- The components of a list of numbers. -/
def vector? : Value → Option (List Float)
  | list items => items.mapM num?
  | _ => none

mutual

/-- Equality of values: by structure, except that functions are equal only to
themselves. NaN equals nothing. -/
def equals : Value → Value → Bool
  | null, null => true
  | bool a, bool b => a == b
  | num a, num b => a == b
  | str a, str b => a == b
  | list as, list bs => equalsAll as bs
  | record as, record bs => equalsFields as bs
  | function _ _ a, function _ _ b => a == b
  | _, _ => false

def equalsAll : List Value → List Value → Bool
  | [], [] => true
  | a :: as, b :: bs => equals a b && equalsAll as bs
  | _, _ => false

/-- Fields are kept in order of their names, so equal records have equal fields
place by place. -/
def equalsFields : List (String × Value) → List (String × Value) → Bool
  | [], [] => true
  | (m, a) :: as, (n, b) :: bs => m == n && equals a b && equalsFields as bs
  | _, _ => false

end

mutual

/-- **The printed form of a value.** -/
def text : Value → String
  | null => "null"
  | bool b => toString b
  | num x => numberText x
  | str s => Text.quoted s
  | list items => "[" ++ ", ".intercalate (textOfAll items) ++ "]"
  | record fields => "\x7b" ++ ", ".intercalate (textOfFields fields) ++ "\x7d"
  | function code _ _ =>
    match code.signature.name with
    | some name => "<function " ++ name ++ ">"
    | none => "<function>"

def textOfAll : List Value → List String
  | [] => []
  | v :: vs => text v :: textOfAll vs

def textOfFields : List (String × Value) → List String
  | [] => []
  | (name, v) :: fs => (name ++ ": " ++ text v) :: textOfFields fs

end

end Value

end DistanceField
