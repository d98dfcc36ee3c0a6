/-!
# Source positions

A position is a line and a column, both counted from one. Columns count Unicode
scalar values.
-/

namespace DistanceField

structure Pos where
  line : Nat
  column : Nat
deriving DecidableEq, Repr

namespace Pos

/-- The position of the first character of a source text. -/
def start : Pos := ⟨1, 1⟩

/-- The position after a character that stands at `p`. -/
def next (p : Pos) (c : Char) : Pos :=
  if c = '\n' then ⟨p.line + 1, 1⟩ else ⟨p.line, p.column + 1⟩

/-- The position after a text that starts at `p`. -/
def after (p : Pos) (cs : List Char) : Pos :=
  cs.foldl next p

@[simp] theorem after_nil (p : Pos) : p.after [] = p := rfl

@[simp] theorem after_append (p : Pos) (as bs : List Char) :
    p.after (as ++ bs) = (p.after as).after bs := by
  simp [after]

/-- `line:column`. -/
def text (p : Pos) : String :=
  s!"{p.line}:{p.column}"

end Pos

end DistanceField
