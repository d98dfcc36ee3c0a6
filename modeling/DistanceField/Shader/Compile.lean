import DistanceField.Kernel
import DistanceField.Shader.Emission
import DistanceField.Shader.Typing
import DistanceField.Slots

/-!
# Compilation to shader code

Evaluation of operations over typed values, which emits shader code. Numbers, vectors,
records and functions that a closure captured are known and become literals; conditions
that are literals select their branch at once; calls of known functions are expanded in
place. All else becomes a statement, or has no form in shader code.

As for evaluation, `Operation.compileWith` follows one body and is told how calls are
expanded, and `expandWithin` limits the nesting of calls.

* `Draft`: the slots of a frame together with the emission.
* `Operation.known?`: values that are known before the code runs.
* `Closure.expand`: the code of a call.
-/

namespace DistanceField

open Shader

/-- The slots of a frame over typed values, and the code emitted so far. -/
structure Draft where
  slots : Slots Typed
  emission : Emission

/-- Compilation of a body: it changes a draft, also when it fails. -/
abbrev Compile (α : Type) := EStateM (Failure EvalError) Draft α

namespace Compile

def fail {α : Type} (chain : Chain) (pos : Pos) (fault : Fault) : Compile α :=
  throw (fault.atPos pos chain)

/-- The result of a typing rule, with its fault placed in a chain of calls. -/
def locate {α : Type} (chain : Chain) (pos : Pos) : Except Fault α → Compile α
  | .ok a => return a
  | .error fault => fail chain pos fault

/-- Emits a statement. The new variable is the value. -/
def emit (ty : Ty) (code : Code) : Compile Typed := fun d =>
  let (v, e) := d.emission.emit ty code
  .ok v { d with emission := e }

/-- Fills a slot of the frame. -/
def setSlot (slot : Nat) (v : Typed) : Compile Unit := fun d =>
  match d.slots.set? slot v with
  | some slots => .ok () { d with slots := slots }
  | none => .error .outOfBounds d

/-- The literal form of a known value. -/
def literal (chain : Chain) (pos : Pos) (v : Value) : Compile Typed :=
  match Typed.ofValue? v with
  | some t => return t
  | none => fail chain pos (.unsupported (.constant v.tag))

/-- The code of a field of a vector. -/
def component (chain : Chain) (pos : Pos) (v : Typed) (name : String) : Compile Typed :=
  if !v.ty.isVector then fail chain pos (.fieldOfType name v.ty)
  else
    match componentOf? name with
    | none => fail chain pos (.noFieldOfVector name v.ty)
    | some i =>
      if i < v.ty.count then emit .float (.component v.code i)
      else fail chain pos (.shortVector name v.ty)

/-- The code of an element of a vector. An index that is a literal is checked now. -/
def element (chain : Chain) (pos : Pos) (v i : Typed) : Compile Typed :=
  if !v.ty.isVector then fail chain pos (.notIndexableType v.ty)
  else if i.ty ≠ .float then fail chain pos (.indexType i.ty)
  else
    match i.code with
    | .num n =>
      match Scalar.index? n v.ty.count with
      | some k => emit .float (.component v.code k)
      | none => fail chain pos (.indexRangeOfType n v.ty)
    | code => emit .float (.index v.code code)

/-- The code of a call of a builtin function. -/
def builtin (chain : Chain) (pos : Pos) (b : Builtin) (args : List Typed) : Compile Typed := do
  let (ty, promote) ← locate chain pos (b.typing (args.map Typed.ty))
  let codes := match promote with
    | some wide => args.map (·.widenTo wide)
    | none => args.map Typed.code
  emit ty (.call b codes)

/-- The code of a binary operator. The remainder is a function in shader code. -/
def binary (chain : Chain) (pos : Pos) (op : BinaryOp) (l r : Typed) : Compile Typed := do
  let ty ← locate chain pos (op.typing l.ty r.ty)
  if op = .mod then emit ty (.call .mod [l.widenTo ty, r.widenTo ty])
  else emit ty (.binary op l.code r.code)

/-- The code of a vector from its components. A vector of literals is a literal. -/
def vector (ty : Ty) (parts : List Code) : Compile Typed :=
  let code := Code.construct ty parts
  if code.isLiteral then return ⟨ty, code⟩ else emit ty code

end Compile

/-- The value of an operation that is known before the code runs: literals, captured
values, and fields of known records. -/
def Operation.known? (captured : List Value) : Operation → Option Value
  | .const value _ => some (.ofLiteral value)
  | .load (.captured i) _ => captured[i]?
  | .field target name _ =>
    match target.known? captured with
    | some (.record fields) => Fields.get? fields name
    | _ => none
  | _ => none

/-- A call whose code is expanded in place: where it stands, the calls under way, the
closure and its arguments. -/
structure Expansion where
  pos : Pos
  chain : Chain
  callee : Closure
  args : List Typed

section

variable (expand : Expansion → EStateM (Failure EvalError) Emission Typed)

/-- Expands a call in a frame of its own: of the draft only the emission changes. -/
def Compile.call (x : Expansion) : Compile Typed := fun d =>
  match expand x d.emission with
  | .ok v e => .ok v { d with emission := e }
  | .error err e => .error err { d with emission := e }

mutual

/-- The typed value of an operation in the body of a closure with the given captured
values. -/
def Operation.compileWith (captured : List Value) (chain : Chain) : Operation → Compile Typed
  | .const value pos => Compile.literal chain pos (.ofLiteral value)
  | .load (.slot i) pos => do
    match (← get).slots.get? i with
    | some v => return v
    | none => Compile.fail chain pos .unsetSlot
  | .load (.captured i) pos =>
    match captured[i]? with
    | some v => Compile.literal chain pos v
    | none => Compile.fail chain pos .missingCapture
  | .lambda signature _ => Compile.fail chain signature.pos (.unsupported .functionMaking)
  | .call callee args pos =>
    match (callee.known? captured).bind Value.closure? with
    | some f => do
      let vs ← compileAll captured chain args
      Compile.call expand ⟨pos, chain, f, vs⟩
    | none => Compile.fail chain pos (.unsupported .computedCall)
  | .builtin b args pos => do
    let vs ← compileAll captured chain args
    Compile.builtin chain pos b vs
  | .unary op operand pos => do
    let v ← operand.compileWith captured chain
    let ty ← Compile.locate chain pos (op.typing v.ty)
    Compile.emit ty (.unary op v.code)
  | .binary op left right pos => do
    let l ← left.compileWith captured chain
    let r ← right.compileWith captured chain
    Compile.binary chain pos op l r
  | .cond condition yes no pos => do
    let c ← condition.compileWith captured chain
    if c.ty ≠ .bool then Compile.fail chain pos (.conditionType c.ty)
    else
      match c.code with
      | .bool true => yes.compileWith captured chain
      | .bool false => no.compileWith captured chain
      | code =>
        let a ← yes.compileWith captured chain
        let b ← no.compileWith captured chain
        if a.ty = b.ty then Compile.emit a.ty (.select code a.code b.code)
        else Compile.fail chain pos (.branchTypes a.ty b.ty)
  | .letIn bindings body _ => do
    compileBindings captured chain bindings
    body.compileWith captured chain
  | .list items pos =>
    match Ty.vector? items.length with
    | some ty => do
      let parts ← compileParts captured chain items
      Compile.vector ty parts
    | none => Compile.fail chain pos (.unsupported (.listOf items.length))
  | .record _ pos => Compile.fail chain pos (.unsupported .recordMaking)
  | .field target name pos =>
    match (Operation.field target name pos).known? captured with
    | some v => Compile.literal chain pos v
    | none =>
      match target.known? captured with
      | some (.record _) => Compile.fail chain pos (.noField name)
      | _ => do
        let v ← target.compileWith captured chain
        Compile.component chain pos v name
  | .index target index pos => do
    let v ← target.compileWith captured chain
    let i ← index.compileWith captured chain
    Compile.element chain pos v i

def compileAll (captured : List Value) (chain : Chain) : List Operation → Compile (List Typed)
  | [] => return []
  | op :: ops => do
    let v ← op.compileWith captured chain
    let vs ← compileAll captured chain ops
    return v :: vs

def compileBindings (captured : List Value) (chain : Chain) :
    List (Nat × Operation) → Compile Unit
  | [] => return ()
  | (slot, op) :: bs => do
    let v ← op.compileWith captured chain
    Compile.setSlot slot v
    compileBindings captured chain bs

/-- The components of a vector, all of which have to be floats. -/
def compileParts (captured : List Value) (chain : Chain) : List Operation → Compile (List Code)
  | [] => return []
  | op :: ops => do
    let v ← op.compileWith captured chain
    if v.ty = .float then
      let codes ← compileParts captured chain ops
      return v.code :: codes
    else Compile.fail chain op.pos (.componentType v.ty)

end

end

/-- Compiles a body in a frame of its own, of which only the emission is kept. -/
def inFrame (body : Compile Typed) (slots : Option (Slots Typed)) :
    EStateM (Failure EvalError) Emission Typed := fun e =>
  match slots with
  | some slots =>
    match body ⟨slots, e⟩ with
    | .ok v d => .ok v d.emission
    | .error err d => .error err d.emission
  | none => .error .outOfBounds e

/-- Expands a call in a new frame, given how the body of a closure is compiled. The
number of arguments is checked first. -/
def Expansion.enterWith (compile : Closure → Chain → Compile Typed) (x : Expansion) :
    EStateM (Failure EvalError) Emission Typed := fun e =>
  let f := x.callee
  if x.args.length ≠ f.arity then
    .error ((Fault.arity f.label f.arity x.args.length).atPos x.pos x.chain) e
  else inFrame (compile f (⟨f.name, some x.pos⟩ :: x.chain)) (Slots.ofArgs? f.slots x.args) e

/-- The code of a body in a frame that holds the arguments, when `budget` frames may be
nested, this one included. The frame is checked first. -/
def expandWithin (limit : Nat) : (budget : Nat) → Closure → Chain → Compile Typed
  | budget, f, chain => do
    let d ← get
    let given := d.slots.given f.arity
    if d.slots.length ≠ f.slots then
      Compile.fail chain f.pos (.frameSize f.label f.slots d.slots.length)
    else if given ≠ f.arity then
      Compile.fail chain f.pos (.arity f.label f.arity given)
    else
      match budget with
      | 0 => Compile.fail chain f.pos (.callDepth limit)
      | budget + 1 =>
        f.body.compileWith (Expansion.enterWith (expandWithin limit budget)) f.captured chain

/-- **The code of a call**, in a frame at the end of a chain of calls that holds the
arguments. -/
def Closure.expand (f : Closure) (limit : Nat) (chain : Chain) : Compile Typed :=
  expandWithin limit (limit + 1 - chain.depth) f chain

end DistanceField
