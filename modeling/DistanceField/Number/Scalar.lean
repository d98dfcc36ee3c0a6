/-!
# Scalars

Numbers are IEEE doubles. This module names the operations on them that the
language and its shader code share:

* `floorMod`: the remainder that has the sign of the divisor;
* `sign`, `lesser`, `greater`, `fract`, `total`: the small numeric functions;
* `isWhole`, `truncate`, `position?`: reading a number as a position in a list.
-/

namespace DistanceField.Scalar

/-- The remainder of `x` by `y`, with the sign of `y`. -/
def floorMod (x y : Float) : Float :=
  x - y * (x / y).floor

/-- One with the sign of `x`; zeros and NaN are their own sign. -/
def sign (x : Float) : Float :=
  if x > 0 then 1 else if x < 0 then -1 else x

/-- The distance of `x` from the whole number below it. -/
def fract (x : Float) : Float :=
  x - x.floor

/-- The smaller of two numbers, or the one that is a number. -/
def lesser (x y : Float) : Float :=
  if x.isNaN then y else if y.isNaN then x else if y < x then y else x

/-- The larger of two numbers, or the one that is a number. -/
def greater (x y : Float) : Float :=
  if x.isNaN then y else if y.isNaN then x else if y > x then y else x

/-- The sum from left to right. It starts from `-0.0`, the neutral element of
addition, so the empty sum is `-0.0`. -/
def total (xs : List Float) : Float :=
  xs.foldl (· + ·) (-0.0)

/-- The exponent field of a double. Doubles below one have a field below 1023; from 1075
on there is no place for a fraction. -/
def exponentField (x : Float) : Nat :=
  x.toBits.toNat / Nat.pow 2 52 % Nat.pow 2 11

/-- The bits of a double that are worth less than one, for magnitudes of at least one. -/
def fractionField (x : Float) : Nat :=
  x.toBits.toNat % Nat.pow 2 (1075 - exponentField x)

/-- A finite number without fractional part. -/
def isWhole (x : Float) : Bool :=
  x == 0 || (x.isFinite && 1023 ≤ exponentField x && fractionField x == 0)

/-- Drops the fractional part. What is left of a number between minus one and one is a
zero with its sign. -/
def truncate (x : Float) : Float :=
  if isWhole x then x
  else if exponentField x < 1023 then Float.ofBits (x.toBits >>> 63 <<< 63)
  else Float.ofBits (x.toBits - (fractionField x).toUInt64)

theorem truncate_of_isWhole {x : Float} (h : isWhole x = true) : truncate x = x := by
  simp [truncate, h]

/-- The list position that a truncated number denotes. Negative numbers denote
none; NaN denotes the first position. -/
def position? (x : Float) : Option Nat :=
  if x < 0 then none else some x.toUInt64.toNat

/-- The position that an index denotes in a list of `len` elements: the index
has to be whole and within the list. -/
def index? (x : Float) (len : Nat) : Option Nat :=
  if isWhole x then (position? x).filter (· < len) else none

end DistanceField.Scalar
