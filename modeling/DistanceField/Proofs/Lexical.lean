import DistanceField.Eval
import DistanceField.Operation.Resolve

/-!
# Lexical evaluation

The meaning of expressions as they are written, without slots, captures or resolved
code. An environment gives names their values, and a function keeps the whole
environment in which it was made. The order of evaluation, the limit on nested calls
and the places of errors are those of resolved code.

* `Lexical.Value`: values; a function is its text together with an environment.
* `Lexical.Value.outline`: what operators and builtin functions see of a value.
* `Expr.evalIn`: the value of an expression in an environment.
* `Lexical.run`, `Lexical.Closure.call`: a whole program, and a call from outside.
-/

namespace DistanceField

/-- A function of which nothing is known but its identity. -/
def Value.identity (origin : Origin) : Value :=
  .function ⟨⟨none, 0, 0, [], ⟨0, 0⟩⟩, .const .null ⟨0, 0⟩⟩ [] origin

namespace Lexical

/-! ## Values -/

/-- A function as it is written, with the name that its place gives it. -/
structure Abstraction where
  name : Option String
  params : List Param
  body : Expr
  pos : Pos

inductive Value where
  | null
  | bool (b : Bool)
  | num (x : Float)
  | str (s : String)
  | list (items : List Value)
  | record (fields : List (String × Value))
  | function (code : Abstraction) (env : List (String × Value)) (origin : Origin)

/-- The values of names, the innermost first. -/
abbrev Env := List (String × Value)

/-- A function value. -/
structure Closure where
  code : Abstraction
  env : Env
  origin : Origin

namespace Closure

def toValue (f : Closure) : Value :=
  .function f.code f.env f.origin

def arity (f : Closure) : Nat := f.code.params.length

/-- The name in messages. -/
def label (f : Closure) : String :=
  f.code.name.getD "<lambda>"

end Closure

namespace Value

def closure? : Value → Option Closure
  | function code env origin => some ⟨code, env, origin⟩
  | _ => none

mutual

/-- What operators and builtin functions see of a value: all of it, except that a
function is no more than its identity. -/
def outline : Value → DistanceField.Value
  | null => .null
  | bool b => .bool b
  | num x => .num x
  | str s => .str s
  | list items => .list (outlineAll items)
  | record fields => .record (outlineFields fields)
  | function _ _ origin => .identity origin

def outlineAll : List Value → List DistanceField.Value
  | [] => []
  | v :: vs => v.outline :: outlineAll vs

def outlineFields : List (String × Value) → List (String × DistanceField.Value)
  | [] => []
  | (name, v) :: fs => (name, v.outline) :: outlineFields fs

end

mutual

/-- What operators and builtin functions return. They return no functions. -/
def ofData : DistanceField.Value → Value
  | .null => null
  | .bool b => bool b
  | .num x => num x
  | .str s => str s
  | .list items => list (ofDataAll items)
  | .record fields => record (ofDataFields fields)
  | .function _ _ _ => null

def ofDataAll : List DistanceField.Value → List Value
  | [] => []
  | v :: vs => ofData v :: ofDataAll vs

def ofDataFields : List (String × DistanceField.Value) → List (String × Value)
  | [] => []
  | (name, v) :: fs => (name, ofData v) :: ofDataFields fs

end

/-- A field of a value: of a record by its name, of a list by a component name. -/
def field (v : Value) (name : String) : Except Fault Value :=
  match v with
  | record fields =>
    match Fields.get? fields name with
    | some w => .ok w
    | none => .error (.noField name)
  | list items =>
    match componentOf? name with
    | none => .error (.noFieldOfList name)
    | some i =>
      match items[i]? with
      | some w => .ok w
      | none => .error (.shortList name items.length)
  | v => .error (.fieldOf name v.outline.tag)

/-- The element of a list at a whole number within the list. -/
def index (v i : Value) : Except Fault Value :=
  match v with
  | list items =>
    match i with
    | num n =>
      match (Scalar.index? n items.length).bind fun k => items[k]? with
      | some w => .ok w
      | none => .error (.indexRange n items.length)
    | i => .error (.indexTag i.outline.tag)
  | v => .error (.notIndexable v.outline.tag)

end Value

/-! ## Evaluation -/

/-- A fault at a position inside the calls of a chain. -/
def errorAt (fault : Fault) (pos : Pos) (chain : Chain) : EvalError :=
  ⟨fault, .within (some pos) chain⟩

/-- The result of a kernel, with its fault placed inside the calls of a chain. -/
def locate {α : Type} (pos : Pos) (chain : Chain) : Except Fault α → Except EvalError α
  | .ok a => .ok a
  | .error fault => .error (errorAt fault pos chain)

/-- A call inside an evaluation. -/
structure Call where
  pos : Pos
  chain : Chain
  origin : Origin
  callee : Closure
  args : List Value

/-- The environment of a function's body. Of two parameters with one name the later is
seen. -/
def Env.enter (env : Env) (params : List Param) (args : List Value) : Env :=
  ((params.map Param.name).zip args).reverse ++ env

/-- A name that is used as a value. A name without a value may be a constant. -/
def lookup (env : Env) (name : String) (pos : Pos) (chain : Chain) : Except EvalError Value :=
  match env.lookup name with
  | some v => .ok v
  | none =>
    match namedConstant? name with
    | some x => .ok (.num x)
    | none => .error (errorAt .unsetSlot pos chain)

/-- The builtin function that a called expression names, unless the name has a value. -/
def calledBuiltin? (env : Env) : Expr → Option Builtin
  | .ident name _ => if (env.lookup name).isSome then none else Builtin.ofName? name
  | _ => none

end Lexical

section

variable (apply : Lexical.Call → Except EvalError Lexical.Value)

mutual

/-- **The value of an expression in an environment**, inside the calls of a chain and at a
step of the evaluation. A function that is made here gets the name `label`. -/
def Expr.evalIn (env : Lexical.Env) (chain : Chain) (origin : Origin) (label : Option String) :
    Expr → Except EvalError Lexical.Value
  | .lit value _ => .ok (.ofData (.ofLiteral value))
  | .ident name pos => Lexical.lookup env name pos chain
  | .unary op operand pos => do
    let v ← operand.evalIn env chain (0 :: origin) none
    let r ← Lexical.locate pos chain (op.apply v.outline)
    return .ofData r
  | .binary op left right pos => do
    let l ← left.evalIn env chain (0 :: origin) none
    match op.decisive? with
    | some decisive =>
      let b ← Lexical.locate pos chain l.outline.condition
      if b = decisive then return .bool b
      else
        let r ← right.evalIn env chain (1 :: origin) none
        return .bool (← Lexical.locate pos chain r.outline.condition)
    | none =>
      let r ← right.evalIn env chain (1 :: origin) none
      let v ← Lexical.locate pos chain (op.apply l.outline r.outline)
      return .ofData v
  | .cond condition yes no pos => do
    let c ← condition.evalIn env chain (0 :: origin) none
    if ← Lexical.locate pos chain c.outline.condition then yes.evalIn env chain (1 :: origin) none
    else no.evalIn env chain (2 :: origin) none
  | .call callee args pos =>
    match Lexical.calledBuiltin? env callee with
    | some b => do
      let vs ← evalAllIn env chain origin 0 args
      let r ← Lexical.locate pos chain (b.apply (Lexical.Value.outlineAll vs))
      return .ofData r
    | none => do
      let f ← callee.evalIn env chain (0 :: origin) none
      match f.closure? with
      | some f =>
        let vs ← evalAllIn env chain origin 1 args
        apply ⟨pos, chain, (args.length + 1) :: origin, f, vs⟩
      | none => .error (Lexical.errorAt (.notCallable f.outline.tag) pos chain)
  | .index target index pos => do
    let v ← target.evalIn env chain (0 :: origin) none
    let i ← index.evalIn env chain (1 :: origin) none
    Lexical.locate pos chain (v.index i)
  | .field target name pos => do
    let v ← target.evalIn env chain (0 :: origin) none
    Lexical.locate pos chain (v.field name)
  | .list items _ => do return .list (← evalAllIn env chain origin 0 items)
  | .record fields _ => do return .record (Fields.ofList (← evalFieldsIn env chain origin 0 fields))
  | .lambda params body pos => .ok (.function ⟨label, params, body, pos⟩ env origin)
  | .letIn bindings body _ => do
    let inner ← evalBindingsIn env chain origin 1 bindings
    body.evalIn inner chain (0 :: origin) none

/-- The values of expressions from left to right; the first is the `n`-th step. -/
def evalAllIn (env : Lexical.Env) (chain : Chain) (origin : Origin) (n : Nat) :
    List Expr → Except EvalError (List Lexical.Value)
  | [] => .ok []
  | e :: es => do
    let v ← e.evalIn env chain (n :: origin) none
    let vs ← evalAllIn env chain origin (n + 1) es
    return v :: vs

def evalFieldsIn (env : Lexical.Env) (chain : Chain) (origin : Origin) (n : Nat) :
    List (Named Expr) → Except EvalError (List (String × Lexical.Value))
  | [] => .ok []
  | ⟨name, _, e⟩ :: fs => do
    let v ← e.evalIn env chain (n :: origin) (some name)
    let vs ← evalFieldsIn env chain origin (n + 1) fs
    return (name, v) :: vs

/-- The environment after bindings, each of which sees the ones before it. -/
def evalBindingsIn (env : Lexical.Env) (chain : Chain) (origin : Origin) (n : Nat) :
    List (Named Expr) → Except EvalError Lexical.Env
  | [] => .ok env
  | ⟨name, _, e⟩ :: bs => do
    let v ← e.evalIn env chain (n :: origin) (some name)
    evalBindingsIn ((name, v) :: env) chain origin (n + 1) bs

end

/-- The value of a function's body, in the environment of the function. -/
def Lexical.Closure.enterWith (f : Lexical.Closure) (chain : Chain) (origin : Origin)
    (args : List Lexical.Value) : Except EvalError Lexical.Value :=
  f.code.body.evalIn apply (f.env.enter f.code.params args) chain origin none

end

namespace Lexical

/-- A call inside an evaluation, when `budget` more calls may be nested. -/
def applyWithin (limit : Nat) : (budget : Nat) → Call → Except EvalError Value
  | budget, c =>
    if c.args.length ≠ c.callee.arity then
      .error (errorAt (.arity c.callee.label c.callee.arity c.args.length) c.pos c.chain)
    else
      match budget with
      | 0 => .error (errorAt (.callDepth limit) c.pos c.chain)
      | budget + 1 =>
        c.callee.enterWith (applyWithin limit budget) (⟨c.callee.code.name, some c.pos⟩ :: c.chain)
          c.origin c.args

/-- A call from outside, inside which calls may be nested up to `limit`. -/
def Closure.call (f : Closure) (limit : Nat) (origin : Origin) (args : List Value) :
    Except EvalError Value :=
  if args.length ≠ f.arity then
    .error ⟨.arity f.label f.arity args.length, .ofPos f.code.pos⟩
  else f.enterWith (applyWithin limit limit) [⟨f.code.name, none⟩] origin args

/-- **The meaning of a program**: its value where no name has one. -/
def run (program : Expr) (limit serial : Nat) : Except EvalError Value :=
  program.evalIn (applyWithin limit limit) [] [.root] [serial] none

end Lexical

end DistanceField
