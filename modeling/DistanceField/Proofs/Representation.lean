import DistanceField.Proofs.Lexical
import DistanceField.Proofs.ScopedRuns

/-!
# Values of resolved code and of lexical evaluation

A value of resolved code represents a value of lexical evaluation if they are equal up to
their functions, and each function of the one is the resolved code of the function of the
other, with captured values that represent what the environment says of the captured names.

* `Corresponds`: two computations that end alike.
* `Value.outline`: operators and builtin functions see no more of a function than its identity.
* `Represents`: the relation between values.
* `Represents.outline_eq`, `Represents.field`, `Represents.index`: kernels do not tell the two apart.
-/

namespace DistanceField

/-! ## Computations that end alike -/

section

variable {ε ε' α β γ δ : Type}

/-- Both computations have results, related by `R`, or both have errors, related by `E`. -/
def Corresponds (E : ε → ε' → Prop) (R : α → β → Prop) : Except ε α → Except ε' β → Prop
  | .ok a, .ok b => R a b
  | .error e, .error e' => E e e'
  | _, _ => False

namespace Corresponds

variable {E : ε → ε' → Prop} {R : α → β → Prop} {Q : γ → δ → Prop} {x : Except ε α} {y : Except ε' β}

theorem bind {f : α → Except ε γ} {g : β → Except ε' δ} (h : Corresponds E R x y)
    (hfg : ∀ a b, R a b → Corresponds E Q (f a) (g b)) : Corresponds E Q (x >>= f) (y >>= g) := by
  cases x with
  | ok a =>
    cases y with
    | ok b => exact hfg a b h
    | error e' => exact h.elim
  | error e =>
    cases y with
    | ok b => exact h.elim
    | error e' => exact h

theorem mono {Q : α → β → Prop} (h : Corresponds E R x y) (hRQ : ∀ a b, R a b → Q a b) :
    Corresponds E Q x y := by
  cases x with
  | ok a =>
    cases y with
    | ok b => exact hRQ a b h
    | error e' => exact h.elim
  | error e =>
    cases y with
    | ok b => exact h.elim
    | error e' => exact h

theorem ite {x' : Except ε α} {y' : Except ε' β} {c : Prop} [Decidable c]
    (hpos : c → Corresponds E R x y) (hneg : ¬c → Corresponds E R x' y') :
    Corresponds E R (if c then x else x') (if c then y else y') := by
  by_cases hc : c
  · rw [if_pos hc, if_pos hc]
    exact hpos hc
  · rw [if_neg hc, if_neg hc]
    exact hneg hc

theorem refl (x : Except ε α) : Corresponds Eq Eq x x := by
  cases x with
  | ok a => exact rfl
  | error e => exact rfl

end Corresponds

end

/-- The errors of resolved code are reported ones, and they are the errors of lexical
evaluation: with the same fault, position and calls under way. -/
def Reports (failure : Failure EvalError) (e : EvalError) : Prop :=
  failure = .report e

/-- Both computations end with related results, or with one error. -/
abbrev SameOutcome {α β : Type} (R : α → β → Prop) :
    Except (Failure EvalError) α → Except EvalError β → Prop :=
  Corresponds Reports R

/-- A fault of a kernel is placed alike. -/
theorem Frame.locate_corresponds {α β : Type} {R : α → β → Prop} {r : Except Fault α}
    {r' : Except Fault β} (h : Corresponds Eq R r r') (fr : Frame) (pos : Pos) :
    SameOutcome R (fr.locate pos r) (Lexical.locate pos fr.chain r') := by
  cases r with
  | ok a =>
    cases r' with
    | ok b => exact h
    | error f' => exact h.elim
  | error f =>
    cases r' with
    | ok b => exact h.elim
    | error f' =>
      cases h
      exact rfl

/-! ## Outlines -/

namespace Value

mutual

/-- What kernels see of a value: all of it, except that a function is no more than its
identity. -/
def outline : Value → Value
  | null => null
  | bool b => bool b
  | num x => num x
  | str s => str s
  | list items => list (outlineAll items)
  | record fields => record (outlineFields fields)
  | function _ _ origin => identity origin

def outlineAll : List Value → List Value
  | [] => []
  | v :: vs => v.outline :: outlineAll vs

def outlineFields : List (String × Value) → List (String × Value)
  | [] => []
  | (name, v) :: fs => (name, v.outline) :: outlineFields fs

end

theorem outlineAll_eq_map (vs : List Value) : outlineAll vs = vs.map outline := by
  induction vs with
  | nil => rfl
  | cons v vs ih => rw [outlineAll, ih, List.map_cons]

@[simp] theorem tag_outline (v : Value) : v.outline.tag = v.tag := by
  cases v <;> rfl

@[simp] theorem num?_outline (v : Value) : v.outline.num? = v.num? := by
  cases v <;> rfl

@[simp] theorem vector?_outline (v : Value) : v.outline.vector? = v.vector? := by
  cases v with
  | list items =>
    change (outlineAll items).mapM num? = items.mapM num?
    induction items with
    | nil => rfl
    | cons v vs ih => rw [outlineAll, List.mapM_cons, List.mapM_cons, num?_outline, ih]
  | _ => rfl

@[simp] theorem condition_outline (v : Value) : v.outline.condition = v.condition := by
  cases v <;> rfl

theorem equalsAll_outline {vs : List Value}
    (ih : ∀ v ∈ vs, ∀ w, v.outline.equals w.outline = v.equals w) (ws : List Value) :
    equalsAll (outlineAll vs) (outlineAll ws) = equalsAll vs ws := by
  induction vs generalizing ws with
  | nil => cases ws <;> rfl
  | cons v vs ihs =>
    cases ws with
    | nil => rfl
    | cons w ws =>
      rw [outlineAll, outlineAll, equalsAll, equalsAll, ih v List.mem_cons_self,
        ihs fun u hu => ih u (List.mem_cons_of_mem _ hu)]

theorem equalsFields_outline {fs : List (String × Value)}
    (ih : ∀ f ∈ fs, ∀ w, f.2.outline.equals w.outline = f.2.equals w) (gs : List (String × Value)) :
    equalsFields (outlineFields fs) (outlineFields gs) = equalsFields fs gs := by
  induction fs generalizing gs with
  | nil => cases gs <;> rfl
  | cons f fs ihs =>
    cases gs with
    | nil => rfl
    | cons g gs =>
      rw [outlineFields, outlineFields, equalsFields, equalsFields, ih f List.mem_cons_self,
        ihs fun u hu => ih u (List.mem_cons_of_mem _ hu)]

/-- Functions are compared by their identity, so outlines are equal where values are. -/
theorem equals_outline (v w : Value) : v.outline.equals w.outline = v.equals w := by
  induction v generalizing w with
  | null => cases w <;> rfl
  | bool b => cases w <;> rfl
  | num x => cases w <;> rfl
  | str s => cases w <;> rfl
  | function code captured origin => cases w <;> rfl
  | list items ih =>
    cases w with
    | list others => exact equalsAll_outline ih others
    | _ => rfl
  | record fields ih =>
    cases w with
    | record others => exact equalsFields_outline ih others
    | _ => rfl

end Value

theorem Operand.ofValue_outline (what : String) (v : Value) :
    Operand.ofValue what v.outline = Operand.ofValue what v := by
  cases v with
  | num x => rfl
  | list items =>
    unfold Operand.ofValue
    rw [Value.outline]
    dsimp only
    rw [← Value.outline, Value.vector?_outline, Value.tag_outline]
  | _ => rfl

theorem UnaryOp.apply_outline (op : UnaryOp) (v : Value) : op.apply v.outline = op.apply v := by
  cases op with
  | neg => rw [UnaryOp.apply, UnaryOp.apply, Operand.ofValue_outline]
  | not => cases v <;> rfl

theorem BinaryOp.apply_outline (op : BinaryOp) (l r : Value) :
    op.apply l.outline r.outline = op.apply l r := by
  have arithmetic : ∀ f, op.applyArithmetic f l.outline r.outline = op.applyArithmetic f l r := by
    intro f
    rw [BinaryOp.applyArithmetic, BinaryOp.applyArithmetic, Operand.ofValue_outline,
      Operand.ofValue_outline]
  have ordering : ∀ f, op.applyOrdering f l.outline r.outline = op.applyOrdering f l r := by
    intro f
    cases l <;> cases r <;> rfl
  have logic : ∀ f, op.applyLogic f l.outline r.outline = op.applyLogic f l r := by
    intro f
    cases l <;> cases r <;> rfl
  cases op with
  | add => exact arithmetic _
  | sub => exact arithmetic _
  | mul => exact arithmetic _
  | div => exact arithmetic _
  | mod => exact arithmetic _
  | eq => rw [BinaryOp.apply, BinaryOp.apply, Value.equals_outline]
  | ne => rw [BinaryOp.apply, BinaryOp.apply, Value.equals_outline]
  | lt => exact ordering _
  | le => exact ordering _
  | gt => exact ordering _
  | ge => exact ordering _
  | and => exact logic _
  | or => exact logic _

theorem Builtin.countOf_outline (v : Value) : Builtin.countOf v.outline = Builtin.countOf v := by
  cases v with
  | list items =>
    change Except.ok (Value.num (Float.ofNat (Value.outlineAll items).length)) = _
    rw [Value.outlineAll_eq_map, List.length_map]
    rfl
  | _ => rfl

theorem Builtin.apply_outline (b : Builtin) (args : List Value) :
    b.apply (Value.outlineAll args) = b.apply args := by
  rw [Value.outlineAll_eq_map]
  unfold Builtin.apply
  rw [List.length_map]
  split
  · rfl
  · match args with
    | [] => rfl
    | [v] =>
      change b.apply1 v.outline = b.apply1 v
      rw [Builtin.apply1, Builtin.apply1, Builtin.countOf_outline, Operand.ofValue_outline]
    | [v, w] =>
      change b.apply2 v.outline w.outline = b.apply2 v w
      rw [Builtin.apply2, Builtin.apply2, Operand.ofValue_outline, Operand.ofValue_outline]
    | [v, w, u] =>
      have hclamp : Builtin.clampOf v.outline w.outline u.outline = Builtin.clampOf v w u := by
        simp only [Builtin.clampOf, Operand.ofValue_outline]
      have hmix : Builtin.mixOf v.outline w.outline u.outline = Builtin.mixOf v w u := by
        simp only [Builtin.mixOf, Operand.ofValue_outline]
      change (if b = .clamp then Builtin.clampOf _ _ _ else Builtin.mixOf _ _ _) = _
      rw [hclamp, hmix]
    | _ :: _ :: _ :: _ :: _ => rfl

/-! ## Representation -/

/-- The function as an expression. -/
def Lexical.Abstraction.toExpr (a : Lexical.Abstraction) : Expr :=
  .lambda a.params a.body a.pos

/-- The body of the function resolved where `names` are captured. -/
def Lexical.Abstraction.resolveBody (a : Lexical.Abstraction) (names : List String) :
    Resolved Operation :=
  a.body.resolve ⟨paramSlots a.params, names⟩ a.params.length none

/-- The code is the function, resolved without errors where it captures `names`. -/
structure Lexical.Abstraction.ResolvesTo (a : Lexical.Abstraction) (names : List String)
    (code : Lambda) : Prop where
  errors : (a.resolveBody names).errors = []
  body : code.body = (a.resolveBody names).value
  slots : code.signature.slots = (a.resolveBody names).next
  arity : code.signature.arity = a.params.length
  name : code.signature.name = a.name
  pos : code.signature.pos = a.pos

/-- Two fields with one name and related values. -/
inductive SameField {α β : Type} (R : α → β → Prop) : String × α → String × β → Prop
  | intro (name : String) {a : α} {b : β} : R a b → SameField R (name, a) (name, b)

/-- **A value of resolved code represents a value of lexical evaluation.** Values without
functions represent themselves, lists and records are related element by element. A
closure represents a function with the same identity if its code is the resolved function,
if the values it captured represent those of the captured names in the environment of the
function, and if the other free names of the function have none there. -/
inductive Represents : Value → Lexical.Value → Prop
  | null : Represents .null .null
  | bool (b : Bool) : Represents (.bool b) (.bool b)
  | num (x : Float) : Represents (.num x) (.num x)
  | str (s : String) : Represents (.str s) (.str s)
  | list {vs : List Value} {ws : List Lexical.Value} : List.Forall₂ Represents vs ws →
      Represents (.list vs) (.list ws)
  | record {fs : List (String × Value)} {gs : List (String × Lexical.Value)} :
      List.Forall₂ (SameField Represents) fs gs → Represents (.record fs) (.record gs)
  | function {code : Lambda} {captured : List Value} {a : Lexical.Abstraction} {env : Lexical.Env}
      {origin : Origin} {names : List String} {ws : List Lexical.Value} : a.ResolvesTo names code →
      names.map (fun x => env.lookup x) = ws.map some → List.Forall₂ Represents captured ws →
      (∀ x ∈ a.toExpr.free, x ∉ names → env.lookup x = none) →
      Represents (.function code captured origin) (.function a env origin)

theorem Represents.ofLiteral (l : Literal) : Represents (.ofLiteral l) (.ofData (.ofLiteral l)) := by
  cases l with
  | null => exact .null
  | bool b => exact .bool b
  | num x => exact .num x
  | str s => exact .str s

theorem Represents.ofPlain {v : Value} (h : v.Plain) : Represents v (.ofData v) := by
  cases h with
  | bool b => exact .bool b
  | num x => exact .num x
  | vector xs =>
    refine .list ?_
    induction xs with
    | nil => exact .nil
    | cons x xs ih => exact .cons (.num x) ih

theorem outlineAll_eq {vs : List Value} {ws : List Lexical.Value}
    (ih : ∀ v ∈ vs, ∀ w, Represents v w → v.outline = w.outline) (h : List.Forall₂ Represents vs ws) :
    Value.outlineAll vs = Lexical.Value.outlineAll ws := by
  induction h with
  | nil => rfl
  | cons hvw _ ihs =>
    rw [Value.outlineAll, Lexical.Value.outlineAll, ih _ List.mem_cons_self _ hvw,
      ihs fun v hv => ih v (List.mem_cons_of_mem _ hv)]

theorem outlineFields_eq {fs : List (String × Value)} {gs : List (String × Lexical.Value)}
    (ih : ∀ f ∈ fs, ∀ w, Represents f.2 w → f.2.outline = w.outline)
    (h : List.Forall₂ (SameField Represents) fs gs) :
    Value.outlineFields fs = Lexical.Value.outlineFields gs := by
  induction h with
  | nil => rfl
  | cons hfg _ ihs =>
    obtain ⟨name, hvw⟩ := hfg
    rw [Value.outlineFields, Lexical.Value.outlineFields, ih _ List.mem_cons_self _ hvw,
      ihs fun f hf => ih f (List.mem_cons_of_mem _ hf)]

/-- **Kernels see the same of both values.** -/
theorem Represents.outline_eq {v : Value} {w : Lexical.Value} (h : Represents v w) :
    v.outline = w.outline := by
  induction v generalizing w with
  | null => cases h; rfl
  | bool b => cases h; rfl
  | num x => cases h; rfl
  | str s => cases h; rfl
  | list items ih =>
    cases h with
    | list hitems => exact congrArg Value.list (outlineAll_eq (fun v hv w => ih v hv) hitems)
  | record fields ih =>
    cases h with
    | record hfields => exact congrArg Value.record (outlineFields_eq (fun f hf w => ih f hf) hfields)
  | function code captured origin => cases h; rfl

theorem Represents.tag_eq {v : Value} {w : Lexical.Value} (h : Represents v w) :
    w.outline.tag = v.tag := by
  rw [← h.outline_eq, Value.tag_outline]

theorem Represents.condition_eq {v : Value} {w : Lexical.Value} (h : Represents v w) :
    w.outline.condition = v.condition := by
  rw [← h.outline_eq, Value.condition_outline]

theorem Represents.builtin_eq {vs : List Value} {ws : List Lexical.Value}
    (h : List.Forall₂ Represents vs ws) (b : Builtin) :
    b.apply (Lexical.Value.outlineAll ws) = b.apply vs := by
  rw [← outlineAll_eq (fun _ _ _ hvw => hvw.outline_eq) h, Builtin.apply_outline]

/-! ## Parts of values -/

namespace Fields

variable {α β : Type} {R : α → β → Prop} {fs : List (String × α)} {gs : List (String × β)}

theorem get?_rel (h : List.Forall₂ (SameField R) fs gs) (name : String) :
    Option.Rel R (get? fs name) (get? gs name) := by
  induction h with
  | nil => exact .none
  | cons hfg _ ih =>
    obtain ⟨n, hab⟩ := hfg
    rw [get?, get?, List.lookup_cons, List.lookup_cons]
    cases name == n with
    | true => exact .some hab
    | false => exact ih

theorem insert_rel (h : List.Forall₂ (SameField R) fs gs) (name : String) {a : α} {b : β}
    (hab : R a b) : List.Forall₂ (SameField R) (insert name a fs) (insert name b gs) := by
  induction h with
  | nil => exact .cons (.intro name hab) .nil
  | cons hfg hrest ih =>
    obtain ⟨n, hvw⟩ := hfg
    unfold insert
    split
    · exact .cons (.intro name hab) (.cons (.intro n hvw) hrest)
    · split
      · exact .cons (.intro name hab) hrest
      · exact .cons (.intro n hvw) ih

theorem ofList_rel (h : List.Forall₂ (SameField R) fs gs) :
    List.Forall₂ (SameField R) (ofList fs) (ofList gs) := by
  -- the accumulators of the two folds stay related
  have hfold : ∀ accs accs', List.Forall₂ (SameField R) accs accs' →
      List.Forall₂ (SameField R) (fs.foldl (fun acc e => insert e.1 e.2 acc) accs)
        (gs.foldl (fun acc e => insert e.1 e.2 acc) accs') := by
    induction h with
    | nil => exact fun _ _ hacc => hacc
    | cons hfg _ ih =>
      intro accs accs' hacc
      obtain ⟨n, hvw⟩ := hfg
      exact ih _ _ (insert_rel hacc n hvw)
  exact hfold [] [] .nil

end Fields

theorem Represents.field {v : Value} {w : Lexical.Value} (h : Represents v w) (name : String) :
    Corresponds Eq Represents (v.field name) (w.field name) := by
  cases h with
  | @record fs gs hfields =>
    have hget := Fields.get?_rel hfields name
    rw [Value.field, Lexical.Value.field]
    generalize Fields.get? fs name = a at hget ⊢
    generalize Fields.get? gs name = b at hget ⊢
    cases hget with
    | some hvw => exact hvw
    | none => exact rfl
  | @list vs ws hitems =>
    have hlen := hitems.length_eq
    rw [Value.field, Lexical.Value.field]
    cases componentOf? name with
    | none => exact rfl
    | some i =>
      have hget := getElem?_rel hitems i
      dsimp only
      generalize vs[i]? = a at hget ⊢
      generalize ws[i]? = b at hget ⊢
      cases hget with
      | some hvw => exact hvw
      | none => exact congrArg (Fault.shortList name) hlen
  | null => exact rfl
  | bool b => exact rfl
  | num x => exact rfl
  | str s => exact rfl
  | function => exact rfl

theorem Represents.index {v i : Value} {w j : Lexical.Value} (h : Represents v w)
    (hi : Represents i j) : Corresponds Eq Represents (v.index i) (w.index j) := by
  cases h with
  | @list vs ws hitems =>
    cases hi with
    | num n =>
      have hlen := hitems.length_eq
      have hget : Option.Rel Represents ((Scalar.index? n vs.length).bind fun k => vs[k]?)
          ((Scalar.index? n ws.length).bind fun k => ws[k]?) := by
        rw [hlen]
        cases Scalar.index? n ws.length with
        | none => exact .none
        | some k => exact getElem?_rel hitems k
      rw [Value.index, Lexical.Value.index]
      generalize ((Scalar.index? n vs.length).bind fun k => vs[k]?) = a at hget ⊢
      generalize ((Scalar.index? n ws.length).bind fun k => ws[k]?) = b at hget ⊢
      cases hget with
      | some hvw => exact hvw
      | none => exact congrArg (Fault.indexRange n) hlen
    | null => exact rfl
    | bool b => exact rfl
    | str s => exact rfl
    | list _ => exact rfl
    | record _ => exact rfl
    | function => exact rfl
  | null => exact rfl
  | bool b => exact rfl
  | num x => exact rfl
  | str s => exact rfl
  | record _ => exact rfl
  | function => exact rfl

/-- A closure represents a function that can be called alike; other values can not be called. -/
theorem Represents.closure? {v : Value} {w : Lexical.Value} (h : Represents v w) :
    Option.Rel (fun f g => Represents f.toValue g.toValue) v.closure? w.closure? := by
  cases h with
  | function hcode hnames hcaptured hunbound =>
    exact .some (.function hcode hnames hcaptured hunbound)
  | null => exact .none
  | bool b => exact .none
  | num x => exact .none
  | str s => exact .none
  | list _ => exact .none
  | record _ => exact .none

end DistanceField
