import DistanceField.Text.Quoted

/-!
# Names

Names of fields and functions are compared by their characters and sorted by code
points.
-/

namespace DistanceField.Text

/-- Names in increasing order. -/
def sortNames (names : List String) : List String :=
  names.mergeSort fun a b => !(b < a)

/-- For each name the place at which it first occurs. -/
def firstPlaces (names : List String) : List Nat :=
  names.map fun name => names.findIdx (· == name)

/-- How a name is shown on its own. -/
def nameLabel (name : String) : String :=
  "Atom(" ++ quoted name ++ ")"

end DistanceField.Text
