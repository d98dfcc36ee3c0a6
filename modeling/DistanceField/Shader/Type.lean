/-!
# Shader types

The types of shader code: booleans, floats, and vectors of two to four floats.
-/

namespace DistanceField.Shader

inductive Ty where
  | bool | float | vec2 | vec3 | vec4
deriving DecidableEq, Repr

namespace Ty

def all : List Ty := [bool, float, vec2, vec3, vec4]

def name : Ty → String
  | bool => "bool"
  | float => "float"
  | vec2 => "vec2"
  | vec3 => "vec3"
  | vec4 => "vec4"

/-- The number of float components. A boolean has none. -/
def count : Ty → Nat
  | bool => 0
  | float => 1
  | vec2 => 2
  | vec3 => 3
  | vec4 => 4

/-- The type with a number of float components. -/
def ofCount? : Nat → Option Ty
  | 1 => some float
  | 2 => some vec2
  | 3 => some vec3
  | 4 => some vec4
  | _ => none

/-- The vector type with a number of components. -/
def vector? : Nat → Option Ty
  | 2 => some vec2
  | 3 => some vec3
  | 4 => some vec4
  | _ => none

def isNumeric (t : Ty) : Bool := t != bool

def isVector (t : Ty) : Bool := 1 < t.count

end Ty

end DistanceField.Shader
