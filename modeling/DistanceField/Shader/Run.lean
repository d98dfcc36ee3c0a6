import DistanceField.Kernel
import DistanceField.Shader.Code

/-!
# Running shader code

Evaluation of shader code over values. It uses the kernels of the language; `and` and
`or` evaluate both operands, and a computed place is truncated toward zero.

* `Code.eval`: the value of an expression.
* `runStatements`: the variables after statements.
-/

namespace DistanceField.Shader

/-- The variables that have a value, the last assigned first. -/
abbrev Store := List (String × Value)

/-- The variables after the assignment of one. -/
def Store.assign (s : Store) (name : String) (v : Value) : Store :=
  (name, v) :: s

/-- The floats that a value contributes to a vector of type `ty`. Elements of a list
that are no numbers contribute nothing. -/
def partsOf (ty : Ty) (v : Value) : Except (Failure Fault) (List Float) :=
  match v with
  | .num x => .ok [x]
  | .list items => .ok (items.filterMap Value.num?)
  | v => .error (.report (.part ty v.tag))

/-- The vector with the given floats; a single float stands for all components. -/
def vectorOf (ty : Ty) (xs : List Float) : Value :=
  match xs with
  | [x] => .vector (List.replicate ty.count x)
  | xs => .vector xs

/-- The element of a list at a known place. -/
def elementAt (v : Value) (i : Nat) : Except (Failure Fault) Value :=
  match v with
  | .list items =>
    match items[i]? with
    | some w => .ok w
    | none => .error (.report (.componentRange (Float.ofNat i) items.length))
  | v => .error (.report (.notIndexable v.tag))

/-- The element of a list at a computed place. NaN is the first place, even of a list
that has none. -/
def elementAtNumber (v : Value) (n : Float) : Except (Failure Fault) Value :=
  match v with
  | .list items =>
    let place := Scalar.truncate n
    match (Scalar.position? place).bind fun i => items[i]? with
    | some w => .ok w
    | none =>
      if n.isNaN then .error .outOfBounds
      else .error (.report (.componentRange place items.length))
  | v => .error (.report (.notIndexable v.tag))

/-- The result of a kernel. -/
def reported {α : Type} : Except Fault α → Except (Failure Fault) α
  | .ok a => .ok a
  | .error fault => .error (.report fault)

mutual

/-- **The value of an expression** of shader code. -/
def Code.eval (s : Store) : Code → Except (Failure Fault) Value
  | .var name =>
    match s.lookup name with
    | some v => .ok v
    | none => .error (.report (.unboundVariable name))
  | .num x => .ok (.num x)
  | .bool b => .ok (.bool b)
  | .construct ty parts => do return vectorOf ty (← evalParts s ty parts)
  | .unary op e => do
    let v ← e.eval s
    reported (op.apply v)
  | .binary op l r => do
    let a ← l.eval s
    let b ← r.eval s
    reported (op.apply a b)
  | .call b args => do
    let vs ← evalCodes s args
    reported (b.apply vs)
  | .component e i => do
    let v ← e.eval s
    elementAt v i
  | .index e i => do
    match (← i.eval s).num? with
    | some n =>
      let v ← e.eval s
      elementAtNumber v n
    | none => .error (.report .vectorIndex)
  | .select c a b => do
    let v ← c.eval s
    if ← reported v.condition then a.eval s else b.eval s

def evalCodes (s : Store) : List Code → Except (Failure Fault) (List Value)
  | [] => .ok []
  | c :: cs => do
    let v ← c.eval s
    let vs ← evalCodes s cs
    return v :: vs

/-- The floats of all parts of a vector of type `ty`. -/
def evalParts (s : Store) (ty : Ty) : List Code → Except (Failure Fault) (List Float)
  | [] => .ok []
  | c :: cs => do
    let v ← c.eval s
    let xs ← partsOf ty v
    let ys ← evalParts s ty cs
    return xs ++ ys

end

/-- **The variables after statements.** A failure keeps the variables that were
assigned before it. -/
def runStatements : List Statement → EStateM (Failure Fault) Store Unit
  | [], s => .ok () s
  | stmt :: stmts, s =>
    match stmt.code.eval s with
    | .ok v => runStatements stmts (s.assign stmt.name v)
    | .error e => .error e s

end DistanceField.Shader
