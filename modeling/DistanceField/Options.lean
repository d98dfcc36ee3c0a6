/-!
# Options

What the caller of a run or of a compilation can choose.
-/

namespace DistanceField

structure Options where
  /-- The number of calls that may be under way below the outermost. -/
  maxDepth : Nat
  /-- The name of the point in shader code. -/
  inputName : String
deriving DecidableEq, Repr

/-- The options in force where none are given. -/
def Options.standard : Options := ⟨256, "P"⟩

end DistanceField
