import DistanceField.Shader.Code

/-!
# Emission

Shader code is emitted statement by statement, each with a fresh name. An attempt
keeps its statements only if it succeeds; the names that it used are never used again.

* `Emission.freshName`, `emit`: names and statements.
* `attempt`: a tentative emission.
-/

namespace DistanceField.Shader

/-- The statements emitted so far, and the number of names given out. -/
structure Emission where
  nextName : Nat
  statements : List Statement

namespace Emission

def empty : Emission := ⟨0, []⟩

/-- The `n`-th generated name. -/
def nameOf (n : Nat) : String :=
  "r" ++ toString n

/-- Gives out a name. -/
def freshName (e : Emission) : String × Emission :=
  (nameOf e.nextName, { e with nextName := e.nextName + 1 })

/-- Appends a statement with a fresh name. The new variable is the value. -/
def emit (e : Emission) (ty : Ty) (code : Code) : Typed × Emission :=
  let (name, e') := e.freshName
  (⟨ty, .var name⟩, { e' with statements := e'.statements ++ [⟨name, ty, code⟩] })

@[simp] theorem emit_fst (e : Emission) (ty : Ty) (code : Code) :
    (e.emit ty code).1 = ⟨ty, .var (nameOf e.nextName)⟩ := rfl

@[simp] theorem nextName_emit (e : Emission) (ty : Ty) (code : Code) :
    (e.emit ty code).2.nextName = e.nextName + 1 := rfl

@[simp] theorem statements_emit (e : Emission) (ty : Ty) (code : Code) :
    (e.emit ty code).2.statements = e.statements ++ [⟨nameOf e.nextName, ty, code⟩] := rfl

end Emission

/-- Runs an emission on an empty list of statements. On success its statements are
appended to those before it, on failure they are dropped. -/
def attempt {ε α : Type} (body : EStateM ε Emission α) : EStateM ε Emission α := fun e =>
  match body { e with statements := [] } with
  | .ok a e' => .ok a ⟨e'.nextName, e.statements ++ e'.statements⟩
  | .error err e' => .error err ⟨e'.nextName, e.statements⟩

theorem attempt_of_ok {ε α : Type} {body : EStateM ε Emission α} {e e' : Emission} {a : α}
    (h : body ⟨e.nextName, []⟩ = .ok a e') :
    attempt body e = .ok a ⟨e'.nextName, e.statements ++ e'.statements⟩ := by
  simp only [attempt, h]

theorem attempt_of_error {ε α : Type} {body : EStateM ε Emission α} {e e' : Emission} {err : ε}
    (h : body ⟨e.nextName, []⟩ = .error err e') :
    attempt body e = .error err ⟨e'.nextName, e.statements⟩ := by
  simp only [attempt, h]

end DistanceField.Shader
