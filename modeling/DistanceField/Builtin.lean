/-!
# Builtin functions

The functions that every program can call without defining them, their arities, and
their names in shader code.
-/

namespace DistanceField

inductive Builtin where
  | sqrt | abs | floor | ceil | fract | sign
  | sin | cos | tan | exp | log
  | atan2 | pow | mod | min | max | clamp | mix
  | length | dot | normalize
  | count
deriving DecidableEq, Repr

namespace Builtin

def all : List Builtin :=
  [sqrt, abs, floor, ceil, fract, sign, sin, cos, tan, exp, log, atan2, pow, mod, min, max, clamp,
    mix, length, dot, normalize, count]

def name : Builtin → String
  | sqrt => "sqrt"
  | abs => "abs"
  | floor => "floor"
  | ceil => "ceil"
  | fract => "fract"
  | sign => "sign"
  | sin => "sin"
  | cos => "cos"
  | tan => "tan"
  | exp => "exp"
  | log => "log"
  | atan2 => "atan2"
  | pow => "pow"
  | mod => "mod"
  | min => "min"
  | max => "max"
  | clamp => "clamp"
  | mix => "mix"
  | length => "length"
  | dot => "dot"
  | normalize => "normalize"
  | count => "count"

/-- The number of arguments. -/
def arity : Builtin → Nat
  | clamp | mix => 3
  | atan2 | pow | mod | min | max | dot => 2
  | _ => 1

def ofName? (name : String) : Option Builtin :=
  all.find? (·.name == name)

/-- The name of the same function in shader code. Counting has none. -/
def shaderName? : Builtin → Option String
  | atan2 => some "atan"
  | count => none
  | b => some b.name

end Builtin

end DistanceField
