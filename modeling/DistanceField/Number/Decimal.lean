/-!
# Shortest decimals

A finite double is written with the fewest decimal digits that read back as the
same double; among those, with the digits nearest to its exact value, and of two
equally near ones with the larger.

* `Window.ofFloat`: the reals that read back as a given double.
* `Decimal.shortest`: the first decimal grid that meets the window.
* `Decimal.positional`, `Decimal.scientific`: the two layouts of a decimal.
-/

namespace DistanceField

/-- The reals that round to a positive double, as multiples of `2 ^ scale`: from
`lo` to `hi`, around the exact value `mid`. The ends belong to it iff `closed`. -/
structure Window where
  lo : Nat
  mid : Nat
  hi : Nat
  scale : Int
  closed : Bool

/-- The window of a positive finite double. Below a power of two the neighbour is
half as far away as above it. -/
def Window.ofFloat (x : Float) : Window :=
  let bits := x.toBits.toNat
  let fraction : Nat := bits % Nat.pow 2 52
  let biased : Nat := bits / Nat.pow 2 52 % Nat.pow 2 11
  let m : Nat := if biased = 0 then fraction else Nat.pow 2 52 + fraction
  let below := if fraction = 0 ∧ 1 < biased then 1 else 2
  { lo := 4 * m - below
    mid := 4 * m
    hi := 4 * m + 2
    scale := (if biased = 0 then 1 else (biased : Int)) - 1077
    closed := m % 2 = 0 }

/-- A window against the grid of multiples of `10 ^ k`: window and grid step as
integers in one unit. -/
structure Grid where
  lo : Nat
  mid : Nat
  hi : Nat
  unit : Nat
  closed : Bool

def Window.onGrid (w : Window) (k : Int) : Grid :=
  let grow := Nat.pow 2 w.scale.toNat * Nat.pow 10 (-k).toNat
  { lo := w.lo * grow
    mid := w.mid * grow
    hi := w.hi * grow
    unit := Nat.pow 10 k.toNat * Nat.pow 2 (-w.scale).toNat
    closed := w.closed }

/-- Whether the `j`-th grid point lies in the window. -/
def Grid.contains (g : Grid) (j : Nat) : Bool :=
  let x := j * g.unit
  if g.closed then g.lo ≤ x && x ≤ g.hi else g.lo < x && x < g.hi

/-- The grid point in the window that is nearest to its exact value. -/
def Grid.nearest? (g : Grid) : Option Nat :=
  let j := g.mid / g.unit
  match g.contains j, g.contains (j + 1) with
  | true, true => some (if g.mid - j * g.unit < (j + 1) * g.unit - g.mid then j else j + 1)
  | true, false => some j
  | false, true => some (j + 1)
  | false, false => none

/-- Decimal digits of a natural number. -/
def decimalDigits (n : Nat) : List Char :=
  Nat.toDigits 10 n

/-- The least `p` such that the exact value of the window is below `10 ^ p`. -/
def Window.magnitude (w : Window) : Int :=
  let g := w.onGrid 0
  if g.unit ≤ g.mid then ((decimalDigits (g.mid / g.unit)).length : Int)
  else 1 - ((decimalDigits (g.unit / g.mid)).length : Int)

/-- The number `0.d₁d₂d₃… · 10 ^ point` for the digits `d₁d₂d₃…`. -/
structure Decimal where
  digits : List Char
  point : Int

namespace Decimal

def zero : Decimal := ⟨['0'], 1⟩

/-- The number `j · 10 ^ k`, without zeros at its end. -/
def ofScaled (j : Nat) (k : Int) : Decimal :=
  let ds := decimalDigits j
  ⟨(ds.reverse.dropWhile (· == '0')).reverse, ds.length + k⟩

/-- The shortest decimal of a finite magnitude. Seventeen digits always suffice. -/
def shortest (x : Float) : Decimal :=
  if x == 0 then zero
  else
    let w := Window.ofFloat x
    let p := w.magnitude
    let found := (List.range 17).findSome? fun n =>
      let k := p - (n + 1 : Nat)
      (w.onGrid k).nearest?.map fun j => ofScaled j k
    found.getD zero

/-- Digits around a decimal point, without exponent: `0.05`, `1.5`, `300`. -/
def positional (d : Decimal) : String :=
  let n := d.point.toNat
  if d.point ≤ 0 then
    "0." ++ String.ofList (List.replicate (-d.point).toNat '0' ++ d.digits)
  else if d.digits.length ≤ n then
    String.ofList (d.digits ++ List.replicate (n - d.digits.length) '0')
  else
    String.ofList (d.digits.take n) ++ "." ++ String.ofList (d.digits.drop n)

/-- One digit before the point and an exponent: `1e300`, `2.5e-8`. -/
def scientific (d : Decimal) : String :=
  let mantissa := match d.digits with
    | [] => "0"
    | [c] => String.ofList [c]
    | c :: cs => String.ofList (c :: '.' :: cs)
  mantissa ++ "e" ++ toString (d.point - 1)

end Decimal

/-- Whether the sign bit is set; `-0.0` has it. -/
def isSigned (x : Float) : Bool :=
  x.toBits.toNat / Nat.pow 2 63 == 1

/-- **The text of a number** in values and messages: the shortest decimal, never
with an exponent, and without a point when it is whole. -/
def numberText (x : Float) : String :=
  if x.isNaN then "NaN"
  else (if isSigned x then "-" else "") ++
    (if x.isInf then "inf" else (Decimal.shortest x.abs).positional)

end DistanceField
