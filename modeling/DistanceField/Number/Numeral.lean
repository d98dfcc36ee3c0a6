import DistanceField.Number.Decimal

/-!
# Numerals

A numeral is a run of digits, an optional fraction and an optional exponent. Its
value is the double nearest to the decimal it spells.

* `Numeral.split`: the longest numeral at the start of a text.
* `Numeral.value`: the double it denotes.
-/

namespace DistanceField

/-- The exponent part of a numeral: its mark, an optional sign and its digits. -/
structure Exponent where
  mark : Char
  sign : Option Char
  digits : List Char

def Exponent.text (e : Exponent) : List Char :=
  e.mark :: e.sign.toList ++ e.digits

/-- The spelling of a number, in its parts. -/
structure Numeral where
  whole : List Char
  fraction : Option (List Char)
  exponent : Option Exponent

namespace Numeral

def text (n : Numeral) : List Char :=
  n.whole ++ (n.fraction.map ('.' :: ·)).getD [] ++ (n.exponent.map Exponent.text).getD []

/-- A point belongs to the numeral only when a digit follows it. -/
def splitFraction : List Char → Option (List Char) × List Char
  | '.' :: c :: cs =>
    if c.isDigit then (some (c :: cs.takeWhile Char.isDigit), cs.dropWhile Char.isDigit)
    else (none, '.' :: c :: cs)
  | cs => (none, cs)

/-- An exponent mark belongs to the numeral only when digits follow it, after an
optional sign. -/
def splitExponent : List Char → Option Exponent × List Char
  | [] => (none, [])
  | mark :: cs =>
    if mark == 'e' || mark == 'E' then
      match cs with
      | [] => (none, [mark])
      | c :: cs' =>
        if c == '+' || c == '-' then
          if cs'.head?.any Char.isDigit then
            (some ⟨mark, some c, cs'.takeWhile Char.isDigit⟩, cs'.dropWhile Char.isDigit)
          else (none, mark :: c :: cs')
        else if c.isDigit then
          (some ⟨mark, none, (c :: cs').takeWhile Char.isDigit⟩, (c :: cs').dropWhile Char.isDigit)
        else (none, mark :: c :: cs')
    else (none, mark :: cs)

/-- The numeral at the start of a text, and what follows it. -/
def split (cs : List Char) : Numeral × List Char :=
  let (fraction, afterFraction) := splitFraction (cs.dropWhile Char.isDigit)
  let (exponent, rest) := splitExponent afterFraction
  (⟨cs.takeWhile Char.isDigit, fraction, exponent⟩, rest)

theorem splitFraction_append (cs : List Char) :
    (((splitFraction cs).1.map ('.' :: ·)).getD []) ++ (splitFraction cs).2 = cs := by
  fun_cases splitFraction cs <;> simp

theorem splitExponent_append (cs : List Char) :
    (((splitExponent cs).1.map Exponent.text).getD []) ++ (splitExponent cs).2 = cs := by
  fun_cases splitExponent cs <;> simp [Exponent.text]

/-- **Nothing is lost** when a numeral is cut off. -/
theorem text_append_rest (cs : List Char) : (split cs).1.text ++ (split cs).2 = cs := by
  have hf := splitFraction_append (cs.dropWhile Char.isDigit)
  have he := splitExponent_append (splitFraction (cs.dropWhile Char.isDigit)).2
  simp only [split, text, List.append_assoc]
  rw [he, hf]
  exact List.takeWhile_append_dropWhile

/-- The number that decimal digits spell. -/
def natOfDigits (cs : List Char) : Nat :=
  cs.foldl (fun n c => 10 * n + (c.toNat - '0'.toNat)) 0

/-- The decimal exponent that the numeral gives explicitly. -/
def power (n : Numeral) : Int :=
  match n.exponent with
  | none => 0
  | some e =>
    let k : Int := natOfDigits e.digits
    if e.sign = some '-' then -k else k

/-- The double nearest to `m · 10 ^ e`. Magnitudes of 400 decimal places or more
are beyond the doubles on either side. -/
def nearest (m : Nat) (e : Int) : Float :=
  let top := (decimalDigits m).length + e
  if m = 0 then 0
  else if top > 400 then 1 / 0
  else if top < -400 then 0
  else Float.ofScientific m (e < 0) e.natAbs

def value (n : Numeral) : Float :=
  let fraction := n.fraction.getD []
  nearest (natOfDigits (n.whole ++ fraction)) (n.power - fraction.length)

end Numeral

end DistanceField
