import DistanceField.Kernel
import DistanceField.Options
import DistanceField.Slots

/-!
# Evaluation

Evaluation of operations over values. The recursion follows the operation; a call
continues in the body of a closure, and the number of calls under way is limited. So
evaluation is defined in two steps: `Operation.evalWith` follows one body and is told
how calls are made, and `applyWithin` makes a call with a limit that falls by one from
each call to the calls inside it.

* `Frame`: the slots and captured values that a body sees.
* `Operation.evalWith`: the value of an operation.
* `Closure.call`: a call from outside.
-/

namespace DistanceField

/-- What the body of a function sees while it runs, and the calls that led to it. -/
structure Frame where
  slots : Slots Value
  captured : List Value
  chain : Chain

namespace Frame

def get? (fr : Frame) : Reference → Option Value
  | .slot i => fr.slots.get? i
  | .captured i => fr.captured[i]?

/-- Fills a slot of the frame. -/
def set (fr : Frame) (slot : Nat) (v : Value) : Except (Failure EvalError) Frame :=
  match fr.slots.set? slot v with
  | some slots => .ok { fr with slots := slots }
  | none => .error .outOfBounds

/-- The frame of a call. -/
def enter (f : Closure) (args : List Value) (chain : Chain) : Except (Failure EvalError) Frame :=
  match Slots.ofArgs? f.slots args with
  | some slots => .ok ⟨slots, f.captured, chain⟩
  | none => .error .outOfBounds

/-- The result of a kernel, with its fault placed in the frame. -/
def locate {α : Type} (fr : Frame) (pos : Pos) : Except Fault α → Except (Failure EvalError) α
  | .ok a => .ok a
  | .error fault => .error (fault.atPos pos fr.chain)

def fail {α : Type} (fr : Frame) (pos : Pos) (fault : Fault) : Except (Failure EvalError) α :=
  .error (fault.atPos pos fr.chain)

end Frame

/-- The fault of reading a name that has no value. -/
def Reference.unset : Reference → Fault
  | .slot _ => .unsetSlot
  | .captured _ => .missingCapture

/-- A call inside an evaluation: where it stands, the calls under way, the step of the
evaluation, the closure and its arguments. -/
structure Call where
  pos : Pos
  chain : Chain
  origin : Origin
  callee : Closure
  args : List Value

/-- The values that a closure captures when it is made. -/
def captureAll (fr : Frame) (pos : Pos) : List Reference → Except (Failure EvalError) (List Value)
  | [] => .ok []
  | ref :: refs =>
    match fr.get? ref with
    | some v => do return v :: (← captureAll fr pos refs)
    | none => fr.fail pos .unsetCapture

/-- The value that decides `and` or `or` without their second operand. -/
def BinaryOp.decisive? : BinaryOp → Option Bool
  | .and => some false
  | .or => some true
  | _ => none

section

variable (apply : Call → Except (Failure EvalError) Value)

mutual

/-- The value of an operation in a frame, at a step of the evaluation. -/
def Operation.evalWith (fr : Frame) (origin : Origin) :
    Operation → Except (Failure EvalError) Value
  | .const value _ => .ok (.ofLiteral value)
  | .load ref pos =>
    match fr.get? ref with
    | some v => .ok v
    | none => fr.fail pos ref.unset
  | .lambda signature body => do
    let captured ← captureAll fr signature.pos signature.captures
    return .function ⟨signature, body⟩ captured origin
  | .call callee args pos => do
    let f ← callee.evalWith fr (0 :: origin)
    match f.closure? with
    | some f =>
      let vs ← evalAll fr origin 1 args
      apply ⟨pos, fr.chain, (args.length + 1) :: origin, f, vs⟩
    | none => fr.fail pos (.notCallable f.tag)
  | .builtin b args pos => do
    let vs ← evalAll fr origin 0 args
    fr.locate pos (b.apply vs)
  | .unary op operand pos => do
    let v ← operand.evalWith fr (0 :: origin)
    fr.locate pos (op.apply v)
  | .binary op left right pos => do
    let l ← left.evalWith fr (0 :: origin)
    match op.decisive? with
    | some decisive =>
      let b ← fr.locate pos l.condition
      if b = decisive then return .bool b
      else
        let r ← right.evalWith fr (1 :: origin)
        return .bool (← fr.locate pos r.condition)
    | none =>
      let r ← right.evalWith fr (1 :: origin)
      fr.locate pos (op.apply l r)
  | .cond condition yes no pos => do
    let c ← condition.evalWith fr (0 :: origin)
    if ← fr.locate pos c.condition then yes.evalWith fr (1 :: origin)
    else no.evalWith fr (2 :: origin)
  | .letIn bindings body _ => do
    let inner ← evalBindings fr origin 1 bindings
    body.evalWith inner (0 :: origin)
  | .list items _ => do return .list (← evalAll fr origin 0 items)
  | .record fields _ => do return .record (Fields.ofList (← evalFields fr origin 0 fields))
  | .field target name pos => do
    let v ← target.evalWith fr (0 :: origin)
    fr.locate pos (v.field name)
  | .index target index pos => do
    let v ← target.evalWith fr (0 :: origin)
    let i ← index.evalWith fr (1 :: origin)
    fr.locate pos (v.index i)

/-- The values of operations from left to right; the first is the `n`-th step. -/
def evalAll (fr : Frame) (origin : Origin) (n : Nat) :
    List Operation → Except (Failure EvalError) (List Value)
  | [] => .ok []
  | op :: ops => do
    let v ← op.evalWith fr (n :: origin)
    let vs ← evalAll fr origin (n + 1) ops
    return v :: vs

/-- The frame after bindings, each of which sees the ones before it. -/
def evalBindings (fr : Frame) (origin : Origin) (n : Nat) :
    List (Nat × Operation) → Except (Failure EvalError) Frame
  | [] => .ok fr
  | (slot, op) :: bs => do
    let v ← op.evalWith fr (n :: origin)
    let fr' ← fr.set slot v
    evalBindings fr' origin (n + 1) bs

def evalFields (fr : Frame) (origin : Origin) (n : Nat) :
    List (String × Operation) → Except (Failure EvalError) (List (String × Value))
  | [] => .ok []
  | (name, op) :: fs => do
    let v ← op.evalWith fr (n :: origin)
    let vs ← evalFields fr origin (n + 1) fs
    return (name, v) :: vs

end

/-- Runs the body of a closure. -/
def Closure.enterWith (f : Closure) (chain : Chain) (origin : Origin) (args : List Value) :
    Except (Failure EvalError) Value := do
  let fr ← Frame.enter f args chain
  f.body.evalWith apply fr origin

end

/-- A call inside an evaluation, when `budget` more calls may be nested. The number of
arguments is checked first. -/
def applyWithin (limit : Nat) : (budget : Nat) → Call → Except (Failure EvalError) Value
  | budget, c =>
    if c.args.length ≠ c.callee.arity then
      .error ((Fault.arity c.callee.label c.callee.arity c.args.length).atPos c.pos c.chain)
    else
      match budget with
      | 0 => .error ((Fault.callDepth limit).atPos c.pos c.chain)
      | budget + 1 =>
        c.callee.enterWith (applyWithin limit budget) (⟨c.callee.name, some c.pos⟩ :: c.chain)
          c.origin c.args

/-- **A call from outside.** The closures that it makes have origins that extend
`origin`; the calls inside it may be nested up to `limit`. -/
def Closure.call (f : Closure) (limit : Nat) (origin : Origin) (args : List Value) :
    Except (Failure EvalError) Value :=
  if args.length ≠ f.arity then
    .error (.report ⟨.arity f.label f.arity args.length, .ofPos f.pos⟩)
  else f.enterWith (applyWithin limit limit) [⟨f.name, none⟩] origin args

end DistanceField
