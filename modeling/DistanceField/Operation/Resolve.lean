import DistanceField.Diagnostic
import DistanceField.Operation

/-!
# Name resolution

Scoping is lexical. Parameters and `let` bindings of a function get slots of its
frame in the order in which they are met; a slot is never used twice. A function
captures the names that are free in it and bound around it, each once, in the order
of their first use. A name that is bound nowhere may be a constant, or a builtin
function where it is called.

* `Expr.free`: the free names of an expression, in the order of their use.
* `Scope`: the names that a function can see.
* `Expr.resolve`: an expression as an operation, with all scope errors.
* `Expr.toLambda`: a whole program as a function without parameters.
-/

namespace DistanceField

/-! ## Free names -/

mutual

/-- The free names of an expression, each as often as it is used. The arguments of a
call come before the function that is called. -/
def Expr.free : Expr → List String
  | .lit _ _ => []
  | .ident name _ => [name]
  | .unary _ e _ => e.free
  | .binary _ l r _ => l.free ++ r.free
  | .cond c a b _ => c.free ++ a.free ++ b.free
  | .call f args _ => freeOfAll args ++ f.free
  | .index e i _ => e.free ++ i.free
  | .field e _ _ => e.free
  | .list items _ => freeOfAll items
  | .record fields _ => freeOfFields fields
  | .lambda params body _ => body.free.filter fun x => !(params.map Param.name).contains x
  | .letIn bindings body _ => freeOfBindings bindings body.free

def freeOfAll : List Expr → List String
  | [] => []
  | e :: es => e.free ++ freeOfAll es

def freeOfFields : List (Named Expr) → List String
  | [] => []
  | ⟨_, _, e⟩ :: fs => e.free ++ freeOfFields fs

/-- The free names of bindings before a body that uses the names `rest`: each name is
bound in the values after its own and in the body. -/
def freeOfBindings : List (Named Expr) → List String → List String
  | [], rest => rest
  | ⟨name, _, e⟩ :: bs, rest => e.free ++ (freeOfBindings bs rest).filter (· != name)

end

/-! ## Scopes -/

/-- The names that a function can see: its own, the innermost first, with their
slots; and the captured ones in order. -/
structure Scope where
  locals : List (String × Nat)
  captured : List String

namespace Scope

/-- What a name means in this scope. -/
def find? (s : Scope) (name : String) : Option Reference :=
  match s.locals.lookup name with
  | some slot => some (.slot slot)
  | none => (s.captured.findIdx? (· == name)).map .captured

def bind (s : Scope) (name : String) (slot : Nat) : Scope :=
  { s with locals := (name, slot) :: s.locals }

/-- The scope of a program, in which nothing is bound. -/
def empty : Scope := ⟨[], []⟩

/-- The names that a function made in this scope captures, if `free` are its free
names. -/
def capturedBy (s : Scope) (free : List String) : List String :=
  free.eraseDups.filter fun x => (s.find? x).isSome

end Scope

/-- The parameters of a function with their slots, the last one first, so that of two
with one name the later is seen. -/
def paramSlots (params : List Param) : List (String × Nat) :=
  (params.map Param.name).zipIdx.reverse

/-- The errors of a parameter list: one for each repetition of an earlier name. -/
def duplicateParams (seen : List String) : List Param → List Diagnostic
  | [] => []
  | p :: ps =>
    (if seen.contains p.name then [⟨.duplicateParameter p.name, p.pos⟩] else []) ++
      duplicateParams (p.name :: seen) ps

/-- The constants that every program can use. -/
def namedConstant? (name : String) : Option Float :=
  if name == "pi" then some 3.141592653589793
  else if name == "tau" then some 6.283185307179586
  else none

/-! ## Resolution -/

/-- A resolved expression, the first slot that it leaves unused, and its errors. -/
structure Resolved (α : Type) where
  value : α
  next : Nat
  errors : List Diagnostic

/-- A name that is used as a value. -/
def resolveName (s : Scope) (name : String) (pos : Pos) : Operation × List Diagnostic :=
  match s.find? name with
  | some ref => (.load ref pos, [])
  | none =>
    match namedConstant? name with
    | some x => (.const (.num x) pos, [])
    | none =>
      if (Builtin.ofName? name).isSome then (.const .null pos, [⟨.builtinAsValue name, pos⟩])
      else (.const .null pos, [⟨.undefinedName name, pos⟩])

/-- The builtin function that a called expression names, unless the name is bound. -/
def calledBuiltin? (s : Scope) (callee : Expr) : Option Builtin :=
  match callee with
  | .ident name _ => if (s.find? name).isSome then none else Builtin.ofName? name
  | _ => none

mutual

/-- An expression as an operation. Slots from `next` on are unused; a function that
is made here gets the name `label`. -/
def Expr.resolve (s : Scope) (next : Nat) (label : Option String) : Expr → Resolved Operation
  | .lit value pos => ⟨.const value pos, next, []⟩
  | .ident name pos =>
    let (op, errors) := resolveName s name pos
    ⟨op, next, errors⟩
  | .unary op e pos =>
    let r := e.resolve s next none
    ⟨.unary op r.value pos, r.next, r.errors⟩
  | .binary op left right pos =>
    let l := left.resolve s next none
    let r := right.resolve s l.next none
    ⟨.binary op l.value r.value pos, r.next, l.errors ++ r.errors⟩
  | .cond condition yes no pos =>
    let c := condition.resolve s next none
    let a := yes.resolve s c.next none
    let b := no.resolve s a.next none
    ⟨.cond c.value a.value b.value pos, b.next, c.errors ++ a.errors ++ b.errors⟩
  | .call callee args pos =>
    let as := resolveAll s next args
    match calledBuiltin? s callee with
    | some b => ⟨.builtin b as.value pos, as.next, as.errors⟩
    | none =>
      let f := callee.resolve s as.next none
      ⟨.call f.value as.value pos, f.next, as.errors ++ f.errors⟩
  | .index target index pos =>
    let t := target.resolve s next none
    let i := index.resolve s t.next none
    ⟨.index t.value i.value pos, i.next, t.errors ++ i.errors⟩
  | .field target name pos =>
    let t := target.resolve s next none
    ⟨.field t.value name pos, t.next, t.errors⟩
  | .list items pos =>
    let r := resolveAll s next items
    ⟨.list r.value pos, r.next, r.errors⟩
  | .record fields pos =>
    let r := resolveFields s next [] fields
    ⟨.record r.value pos, r.next, r.errors⟩
  | .lambda params body pos =>
    let captured := s.capturedBy (Expr.lambda params body pos).free
    let b := body.resolve ⟨paramSlots params, captured⟩ params.length none
    let signature : Signature :=
      { name := label
        arity := params.length
        slots := b.next
        captures := captured.filterMap s.find?
        pos := pos }
    ⟨.lambda signature b.value, next, duplicateParams [] params ++ b.errors⟩
  | .letIn bindings body pos =>
    let (bs, inner) := resolveBindings s next bindings
    let b := body.resolve inner bs.next none
    ⟨.letIn bs.value b.value pos, b.next, bs.errors ++ b.errors⟩

def resolveAll (s : Scope) (next : Nat) : List Expr → Resolved (List Operation)
  | [] => ⟨[], next, []⟩
  | e :: es =>
    let r := e.resolve s next none
    let rs := resolveAll s r.next es
    ⟨r.value :: rs.value, rs.next, r.errors ++ rs.errors⟩

/-- The fields of a record, after fields with the names `seen`. -/
def resolveFields (s : Scope) (next : Nat) (seen : List String) :
    List (Named Expr) → Resolved (List (String × Operation))
  | [] => ⟨[], next, []⟩
  | ⟨name, pos, e⟩ :: fs =>
    let r := e.resolve s next (some name)
    let rs := resolveFields s r.next (name :: seen) fs
    let repeated : List Diagnostic :=
      if seen.contains name then [⟨.duplicateField name, pos⟩] else []
    ⟨(name, r.value) :: rs.value, rs.next, repeated ++ r.errors ++ rs.errors⟩

/-- The bindings of a `let`, and the scope after them. A binding takes its slot after
its value has taken its own. -/
def resolveBindings (s : Scope) (next : Nat) :
    List (Named Expr) → Resolved (List (Nat × Operation)) × Scope
  | [] => (⟨[], next, []⟩, s)
  | ⟨name, _, e⟩ :: bs =>
    let r := e.resolve s next (some name)
    let (rs, inner) := resolveBindings (s.bind name r.next) (r.next + 1) bs
    (⟨(r.next, r.value) :: rs.value, rs.next, r.errors ++ rs.errors⟩, inner)

end

/-- **A program as a function without parameters**, or all its scope errors. -/
def Expr.toLambda (program : Expr) : Except (List Diagnostic) Lambda :=
  let r := program.resolve .empty 0 none
  match r.errors with
  | [] => .ok ⟨⟨none, 0, r.next, [], program.pos⟩, r.value⟩
  | errors => .error errors

end DistanceField
