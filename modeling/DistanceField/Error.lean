import DistanceField.Shader.Type
import DistanceField.Value

/-!
# Errors of evaluation

What can go wrong when a program runs or is compiled to shader code. A fault is a
cause; an error is a fault with the place where it arose: a position, and the calls
that led there.

* `Fault.kind`, `Fault.message`: the class of a fault and its wording.
* `Site`, `Chain`: calls that are under way.
* `EvalError.text`: the printed form.
* `Failure`: an error, or an access outside the bounds of a store.
-/

namespace DistanceField

inductive ErrorKind where
  | missingField
  | wrongType
  | wrongArity
  | unsupportedOperation
  | typeMismatch
  | undefined
  | outOfRange
  | recursionLimit
deriving DecidableEq, Repr

namespace ErrorKind

def all : List ErrorKind :=
  [missingField, wrongType, wrongArity, unsupportedOperation, typeMismatch, undefined, outOfRange,
    recursionLimit]

def text : ErrorKind → String
  | missingField => "missing field"
  | wrongType => "wrong type"
  | wrongArity => "wrong arity"
  | unsupportedOperation => "unsupported operation"
  | typeMismatch => "type mismatch"
  | undefined => "undefined"
  | outOfRange => "out of range"
  | recursionLimit => "recursion limit"

end ErrorKind

/-- What has no form in shader code. -/
inductive Construct where
  | constant (got : Tag)
  | builtin (name : String)
  | functionMaking
  | recordMaking
  | computedCall
  | listOf (count : Nat)
  | other (text : String)

def Construct.text : Construct → String
  | constant .null => "null"
  | constant .string => "string value"
  | constant .list => "list value"
  | constant .record => "record value"
  | constant .function => "function value"
  | constant _ => "value"
  | builtin name => "builtin `" ++ name ++ "`"
  | functionMaking => "function construction"
  | recordMaking => "record construction"
  | computedCall => "call of a computed function"
  | listOf count => s!"list of {count} elements"
  | other text => text

/-- Causes of errors. `what` is the operator or function at work. -/
inductive Fault where
  -- names
  | unsetSlot
  | missingCapture
  | unsetCapture
  -- calls
  | notCallable (got : Tag)
  | arity (callee : String) (expected given : Nat)
  | frameSize (callee : String) (expected given : Nat)
  | callDepth (limit : Nat)
  -- operators and builtin functions
  | notNumeric (what : String) (got : Tag)
  | lengths (what : String) (left right : Nat)
  | notCountable (got : Tag)
  | notOrdered (what : String) (left right : Tag)
  | notBools (what : String) (left right : Tag)
  | notBool (got : Tag)
  | condition (got : Tag)
  -- fields and indices
  | noField (name : String)
  | noFieldOfList (name : String)
  | shortList (name : String) (count : Nat)
  | fieldOf (name : String) (got : Tag)
  | notIndexable (got : Tag)
  | indexTag (got : Tag)
  | indexRange (index : Float) (count : Nat)
  -- shader types
  | unsupported (construct : Construct)
  | notFloats (what : String) (got : Shader.Ty)
  | incompatible (what : String) (left right : Shader.Ty)
  | notOrderedTypes (what : String) (left right : Shader.Ty)
  | differentTypes (what : String) (left right : Shader.Ty)
  | notBoolTypes (what : String) (left right : Shader.Ty)
  | negatedType (got : Shader.Ty)
  | notBoolType (got : Shader.Ty)
  | conditionType (got : Shader.Ty)
  | branchTypes (yes no : Shader.Ty)
  | componentType (got : Shader.Ty)
  | fieldOfType (name : String) (got : Shader.Ty)
  | noFieldOfVector (name : String) (got : Shader.Ty)
  | shortVector (name : String) (got : Shader.Ty)
  | notIndexableType (got : Shader.Ty)
  | indexType (got : Shader.Ty)
  | indexRangeOfType (index : Float) (got : Shader.Ty)
  -- shader code
  | unboundVariable (name : String)
  | part (wanted : Shader.Ty) (got : Tag)
  | vectorIndex
  | componentRange (index : Float) (count : Nat)
  | inputNotVariable
  -- shapes
  | noDist
  | distTag (got : Tag)
  | distArity (given : Nat)
  | distResult (got : Tag)
  | distResultType (got : Shader.Ty)
  /-- A fault that the embedding program raises itself. -/
  | raised (kind : ErrorKind) (message : String)

/-- The ending of a counted noun. -/
def pluralEnding (n : Nat) : String :=
  if n = 1 then "" else "s"

namespace Fault

def kind : Fault → ErrorKind
  | unsetSlot => .undefined
  | missingCapture => .undefined
  | unsetCapture => .undefined
  | notCallable _ => .wrongType
  | arity _ _ _ => .wrongArity
  | frameSize _ _ _ => .wrongArity
  | callDepth _ => .recursionLimit
  | notNumeric _ _ => .wrongType
  | lengths _ _ _ => .wrongType
  | notCountable _ => .wrongType
  | notOrdered _ _ _ => .wrongType
  | notBools _ _ _ => .wrongType
  | notBool _ => .wrongType
  | condition _ => .wrongType
  | noField _ => .missingField
  | noFieldOfList _ => .wrongType
  | shortList _ _ => .outOfRange
  | fieldOf _ _ => .wrongType
  | notIndexable _ => .wrongType
  | indexTag _ => .wrongType
  | indexRange _ _ => .outOfRange
  | unsupported _ => .unsupportedOperation
  | notFloats _ _ => .typeMismatch
  | incompatible _ _ _ => .typeMismatch
  | notOrderedTypes _ _ _ => .typeMismatch
  | differentTypes _ _ _ => .typeMismatch
  | notBoolTypes _ _ _ => .typeMismatch
  | negatedType _ => .typeMismatch
  | notBoolType _ => .typeMismatch
  | conditionType _ => .typeMismatch
  | branchTypes _ _ => .typeMismatch
  | componentType _ => .typeMismatch
  | fieldOfType _ _ => .typeMismatch
  | noFieldOfVector _ _ => .typeMismatch
  | shortVector _ _ => .outOfRange
  | notIndexableType _ => .typeMismatch
  | indexType _ => .typeMismatch
  | indexRangeOfType _ _ => .outOfRange
  | unboundVariable _ => .undefined
  | part _ _ => .wrongType
  | vectorIndex => .wrongType
  | componentRange _ _ => .outOfRange
  | inputNotVariable => .wrongType
  | noDist => .missingField
  | distTag _ => .wrongType
  | distArity _ => .wrongArity
  | distResult _ => .wrongType
  | distResultType _ => .typeMismatch
  | raised kind _ => kind

def message : Fault → String
  | unsetSlot => "binding used before it has a value"
  | missingCapture => "missing captured value"
  | unsetCapture => "captured binding has no value yet"
  | notCallable got => "cannot call a " ++ got.name
  | arity callee expected given =>
    s!"`{callee}` expects {expected} argument{pluralEnding expected}, got {given}"
  | frameSize callee expected given =>
    s!"`{callee}` needs a frame of {expected} slot{pluralEnding expected}, got {given}"
  | callDepth limit => s!"call depth exceeds {limit}"
  | notNumeric what got =>
    "`" ++ what ++ "` expects a number or a list of numbers, got " ++ got.name
  | lengths what left right => s!"`{what}` operands have mismatched lengths {left} and {right}"
  | notCountable got => "`count` expects a list or string, got " ++ got.name
  | notOrdered what left right =>
    "`" ++ what ++ "` compares numbers, got " ++ left.name ++ " and " ++ right.name
  | notBools what left right =>
    "`" ++ what ++ "` expects bools, got " ++ left.name ++ " and " ++ right.name
  | notBool got => "`not` expects bool, got " ++ got.name
  | condition got => "condition must be bool, got " ++ got.name
  | noField name => "record has no field `" ++ name ++ "`"
  | noFieldOfList name => "lists have no field `" ++ name ++ "`"
  | shortList name count => s!"`.{name}` on a list of {count} elements"
  | fieldOf name got => "cannot access field `" ++ name ++ "` of a " ++ got.name
  | notIndexable got => "cannot index a " ++ got.name
  | indexTag got => "index must be a number, got " ++ got.name
  | indexRange index count =>
    s!"index {numberText index} out of range for a list of {count} elements"
  | unsupported construct => construct.text ++ " is not supported in shader code"
  | notFloats what got => "`" ++ what ++ "` expects float or vector operands, got " ++ got.name
  | incompatible what left right =>
    "`" ++ what ++ "` operands have incompatible types " ++ left.name ++ " and " ++ right.name
  | notOrderedTypes what left right =>
    "`" ++ what ++ "` compares floats, got " ++ left.name ++ " and " ++ right.name
  | differentTypes what left right =>
    "`" ++ what ++ "` operands have different types " ++ left.name ++ " and " ++ right.name
  | notBoolTypes what left right =>
    "`" ++ what ++ "` expects bool operands, got " ++ left.name ++ " and " ++ right.name
  | negatedType got => "unary `-` on " ++ got.name
  | notBoolType got => "`not` expects bool, got " ++ got.name
  | conditionType got => "condition must be bool, got " ++ got.name
  | branchTypes yes no => "branches have different types " ++ yes.name ++ " and " ++ no.name
  | componentType got => "vector components must be float, got " ++ got.name
  | fieldOfType name got => "cannot access field `" ++ name ++ "` of " ++ got.name
  | noFieldOfVector name got => got.name ++ " has no field `" ++ name ++ "`"
  | shortVector name got => "`." ++ name ++ "` on " ++ got.name
  | notIndexableType got => "cannot index " ++ got.name
  | indexType got => "index must be float, got " ++ got.name
  | indexRangeOfType index got => "index " ++ numberText index ++ " out of range for " ++ got.name
  | unboundVariable name => "unbound shader variable `" ++ name ++ "`"
  | part wanted got => "cannot build " ++ wanted.name ++ " from " ++ got.name
  | vectorIndex => "vector index must be float"
  | componentRange index count => s!"component {numberText index} of a {count}-vector"
  | inputNotVariable => "fragment input is not a variable"
  | noDist => "dist function is missing"
  | distTag got => "dist is not a function, got " ++ got.name
  | distArity given => s!"dist function does not have 1 parameter, it has {given}"
  | distResult got => "dist function returns " ++ got.name
  | distResultType got => "dist function returns " ++ got.name
  | raised _ message => message

/-- `[kind] message`. -/
def text (f : Fault) : String :=
  "[" ++ f.kind.text ++ "] " ++ f.message

end Fault

/-! ## Places -/

/-- A call that is under way: the function that runs, and the expression that calls
it. -/
structure Site where
  name : Option String
  pos : Option Pos
deriving DecidableEq, Repr

/-- The start of a run has neither a name nor a calling expression. -/
def Site.root : Site := ⟨none, none⟩

def Site.isRoot (s : Site) : Bool :=
  s.name.isNone && s.pos.isNone

def Site.text (s : Site) : String :=
  "in `" ++ s.name.getD "<lambda>" ++ "`" ++
    (s.pos.map fun p => " called at " ++ p.text).getD ""

/-- The calls that are under way, the innermost first. -/
abbrev Chain := List Site

/-- The number of calls below the outermost. -/
def Chain.depth (chain : Chain) : Nat :=
  chain.length - 1

/-- Where an error arose. -/
structure Context where
  pos : Option Pos
  backtrace : List Site
deriving DecidableEq, Repr

namespace Context

/-- No place is known. -/
def nowhere : Context := ⟨none, []⟩

/-- A position outside of all calls. -/
def ofPos (pos : Pos) : Context := ⟨some pos, []⟩

/-- A position inside the calls of a chain. The start of a run is not listed. -/
def within (pos : Option Pos) (chain : Chain) : Context :=
  ⟨pos, chain.filter fun s => !s.isRoot⟩

def text (c : Context) : String :=
  (c.pos.map Pos.text).getD "<unknown>" ++ String.join (c.backtrace.map fun s => ", " ++ s.text)

end Context

/-- A fault and its place. -/
structure EvalError where
  fault : Fault
  context : Context

namespace EvalError

/-- `[kind] place: message`. -/
def text (e : EvalError) : String :=
  "[" ++ e.fault.kind.text ++ "] " ++ e.context.text ++ ": " ++ e.fault.message

/-- Adds the calls of a chain to an error that lists none. -/
def within (e : EvalError) (chain : Chain) : EvalError :=
  if e.context.backtrace.isEmpty then { e with context := .within e.context.pos chain } else e

end EvalError

/-- How an evaluation fails: with an error that is reported, or because a store was
used outside its bounds. -/
inductive Failure (ε : Type) where
  | report (e : ε)
  | outOfBounds

/-- The failure with a fault at a position inside the calls of a chain. -/
def Fault.atPos (f : Fault) (pos : Pos) (chain : Chain) : Failure EvalError :=
  .report ⟨f, .within (some pos) chain⟩

end DistanceField
