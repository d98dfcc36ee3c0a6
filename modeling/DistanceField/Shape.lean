import DistanceField.Eval
import DistanceField.Shader.Compile
import DistanceField.Shader.Fragment

/-!
# Shapes

A shape is a record with a field `dist`: a function from a point to its signed distance
from the boundary of the shape.

* `Shape.distance`: the distance at a point, by evaluation.
* `Shape.emitDistance`: the distance of a typed point, as code in an emission.
* `Shape.compile`: the distance as a fragment of shader code.
-/

namespace DistanceField

open Shader

/-- The stages of the compilation of a shape. -/
inductive Stage where
  | unvalidated | validated | compiling | compiled | failed
deriving DecidableEq, Repr

namespace Stage

def all : List Stage := [unvalidated, validated, compiling, compiled, failed]

def name : Stage → String
  | unvalidated => "unvalidated"
  | validated => "validated"
  | compiling => "compiling"
  | compiled => "compiled"
  | failed => "failed"

end Stage

structure Shape where
  fields : List (String × Value)

namespace Shape

/-- Every record is a shape, and nothing else. -/
def ofValue? (v : Value) : Option Shape :=
  v.record?.map Shape.mk

def text (s : Shape) : String :=
  "shape2d" ++ (Value.record s.fields).text

def get? (s : Shape) (name : String) : Option Value :=
  Fields.get? s.fields name

/-- The distance function: it has to be there, to be a function, and to have one
parameter. -/
def dist (s : Shape) : Except EvalError Closure :=
  match s.get? "dist" with
  | none => .error ⟨.noDist, .nowhere⟩
  | some v =>
    match v.closure? with
    | none => .error ⟨.distTag v.tag, .nowhere⟩
    | some f => if f.arity = 1 then .ok f else .error ⟨.distArity f.arity, .ofPos f.pos⟩

/-- **The distance at a point**, by evaluation. -/
def distance (s : Shape) (options : Options) (origin : Origin) (point : Value) :
    Except (Failure EvalError) Float :=
  match s.dist with
  | .error e => .error (.report e)
  | .ok f => do
    match ← f.call options.maxDepth origin [point] with
    | .num d => return d
    | v => .error (.report ⟨.distResult v.tag, .ofPos f.pos⟩)

/-- The distance function in a frame at the end of a chain of calls. Its result has to
be a float. -/
def compileDist (f : Closure) (limit : Nat) (chain : Chain) : Compile Typed := do
  let v ← f.expand limit chain
  if v.ty = .float then return v else Compile.fail chain f.body.pos (.distResultType v.ty)

/-- **The distance of a typed point as code**, inside the calls of a chain. Statements
are added only if all of it compiles. -/
def emitDistance (s : Shape) (limit : Nat) (point : Typed) (chain : Chain) :
    EStateM (Failure EvalError) Emission Typed :=
  match s.dist with
  | .error e => throw (.report (e.within chain))
  | .ok f =>
    let inner : Chain := ⟨f.name, some f.pos⟩ :: chain
    attempt (inFrame (compileDist f limit inner) (Slots.ofArgs? f.slots [point]))

/-- **The distance function as a fragment** over a point with the name given by the
options. -/
def compile (s : Shape) (options : Options) : Except (Failure EvalError) Fragment :=
  match s.dist with
  | .error e => .error (.report e)
  | .ok _ =>
    let input := Typed.input .vec2 options.inputName
    match s.emitDistance options.maxDepth input [.root] .empty with
    | .ok result e => .ok ⟨input, e.statements, result⟩
    | .error err _ => .error err

/-- The stages that a compilation passes, the last of which tells how it ended. -/
def stages (s : Shape) (options : Options) : List Stage :=
  match s.dist, s.compile options with
  | .error _, _ => [.unvalidated, .failed]
  | .ok _, .ok _ => [.unvalidated, .validated, .compiling, .compiled]
  | .ok _, .error _ => [.unvalidated, .validated, .compiling, .failed]

end Shape

end DistanceField
