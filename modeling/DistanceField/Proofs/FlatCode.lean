import DistanceField.Proofs.KernelTyping
import DistanceField.Shader.Emission

/-!
# Flat code

Straight-line code over declared variables: every statement applies one operator,
function or constructor to atoms, which are variables and literals, and uses only
variables that are declared before it.

* `Code.IsAtom`, `Code.IsFlat`: atoms and flat expressions of a type.
* `StraightLine`: lists of statements of this form.
* `Code.IsFlat.mem_declared`: the variables of a flat expression are declared.
-/

namespace DistanceField.Shader

/-! ## Variables -/

namespace Code

mutual

/-- The variables of an expression. -/
def vars : Code → List String
  | var x => [x]
  | num _ => []
  | bool _ => []
  | construct _ parts => varsOfAll parts
  | unary _ e => e.vars
  | binary _ l r => l.vars ++ r.vars
  | call _ args => varsOfAll args
  | component e _ => e.vars
  | index e i => e.vars ++ i.vars
  | select c a b => c.vars ++ a.vars ++ b.vars

def varsOfAll : List Code → List String
  | [] => []
  | c :: cs => c.vars ++ varsOfAll cs

end

theorem mem_varsOfAll {x : String} {cs : List Code} : x ∈ varsOfAll cs ↔ ∃ c ∈ cs, x ∈ c.vars := by
  induction cs with
  | nil => simp [varsOfAll]
  | cons c cs ih => simp [varsOfAll, ih]

end Code

/-! ## Atoms and flat expressions -/

/-- Variables with their types. A variable that is declared more than once has each of
the types that it is declared with. -/
abbrev Declared := List (String × Ty)

/-- What a statement declares. -/
def Statement.declared (s : Statement) : String × Ty := (s.name, s.ty)

namespace Code

/-- **Atoms of a type**: declared variables, numbers, booleans, and vectors of numbers. -/
inductive IsAtom (Γ : Declared) : Code → Ty → Prop
  | var {x : String} {ty : Ty} (h : (x, ty) ∈ Γ) : IsAtom Γ (.var x) ty
  | num (x : Float) : IsAtom Γ (.num x) .float
  | bool (b : Bool) : IsAtom Γ (.bool b) .bool
  | vector {ty : Ty} {xs : List Float} (hty : ty.isVector = true) (hlen : xs.length = ty.count) :
      IsAtom Γ (.construct ty (xs.map .num)) ty

/-- Arguments of a function: atoms, and float atoms that are widened to a vector. -/
inductive IsArgument (Γ : Declared) : Code → Ty → Prop
  | atom {c : Code} {ty : Ty} (h : c.IsAtom Γ ty) : IsArgument Γ c ty
  | widened {c : Code} {ty : Ty} (h : c.IsAtom Γ .float) (hty : ty.isVector = true) :
      IsArgument Γ (.construct ty [c]) ty

/-- **Flat expressions of a type**: one operator, function or constructor on atoms. The
remainder is no operator of shader code. -/
inductive IsFlat (Γ : Declared) : Code → Ty → Prop
  | unary {op : UnaryOp} {a : Code} {t ty : Ty} (ha : a.IsAtom Γ t) (hty : op.typing t = .ok ty) :
      IsFlat Γ (.unary op a) ty
  | binary {op : BinaryOp} {l r : Code} {s t ty : Ty} (hop : op ≠ .mod) (hl : l.IsAtom Γ s)
      (hr : r.IsAtom Γ t) (hty : op.typing s t = .ok ty) : IsFlat Γ (.binary op l r) ty
  | call {b : Builtin} {args : List Code} {types : List Ty} {ty : Ty}
      (hargs : List.Forall₂ (IsArgument Γ) args types) (hty : b.typing types = .ok (ty, none)) :
      IsFlat Γ (.call b args) ty
  | select {c a b : Code} {ty : Ty} (hc : c.IsAtom Γ .bool) (ha : a.IsAtom Γ ty)
      (hb : b.IsAtom Γ ty) : IsFlat Γ (.select c a b) ty
  | component {a : Code} {ty : Ty} {i : Nat} (ha : a.IsAtom Γ ty) (hty : ty.isVector = true)
      (hi : i < ty.count) : IsFlat Γ (.component a i) .float
  | index {a i : Code} {ty : Ty} (ha : a.IsAtom Γ ty) (hty : ty.isVector = true)
      (hi : i.IsAtom Γ .float) : IsFlat Γ (.index a i) .float
  | construct {ty : Ty} {parts : List Code} (hty : ty.isVector = true)
      (hlen : parts.length = ty.count) (hparts : ∀ c ∈ parts, c.IsAtom Γ .float) :
      IsFlat Γ (.construct ty parts) ty

theorem IsAtom.mono {Γ Δ : Declared} (h : Γ ⊆ Δ) {c : Code} {ty : Ty} (hc : c.IsAtom Γ ty) :
    c.IsAtom Δ ty := by
  cases hc with
  | var hx => exact .var (h hx)
  | num x => exact .num x
  | bool b => exact .bool b
  | vector hty hlen => exact .vector hty hlen

theorem varsOfAll_num (xs : List Float) : varsOfAll (xs.map Code.num) = [] := by
  induction xs with
  | nil => rfl
  | cons x xs ih => rw [List.map_cons, varsOfAll, vars, ih]; rfl

theorem IsAtom.mem_declared {Γ : Declared} {c : Code} {ty : Ty} (hc : c.IsAtom Γ ty) {x : String}
    (hx : x ∈ c.vars) : ∃ t, (x, t) ∈ Γ := by
  cases hc with
  | var h =>
    obtain rfl : x = _ := by simpa [vars] using hx
    exact ⟨_, h⟩
  | num y => simp [vars] at hx
  | bool b => simp [vars] at hx
  | vector hty hlen => simp [vars, varsOfAll_num] at hx

theorem IsArgument.mem_declared {Γ : Declared} {c : Code} {ty : Ty} (hc : c.IsArgument Γ ty)
    {x : String} (hx : x ∈ c.vars) : ∃ t, (x, t) ∈ Γ := by
  cases hc with
  | atom h => exact h.mem_declared hx
  | widened h hty => exact h.mem_declared (by simpa [vars, varsOfAll] using hx)

theorem forall₂_argument_mem_declared {Γ : Declared} {args : List Code} {types : List Ty}
    (h : List.Forall₂ (IsArgument Γ) args types) {x : String} (hx : x ∈ varsOfAll args) :
    ∃ t, (x, t) ∈ Γ := by
  induction h with
  | nil => simp [varsOfAll] at hx
  | cons hc _ ih =>
    rcases List.mem_append.1 hx with hx | hx
    · exact hc.mem_declared hx
    · exact ih hx

/-- **The variables of a flat expression are declared.** -/
theorem IsFlat.mem_declared {Γ : Declared} {c : Code} {ty : Ty} (hc : c.IsFlat Γ ty) {x : String}
    (hx : x ∈ c.vars) : ∃ t, (x, t) ∈ Γ := by
  cases hc with
  | unary ha _ => exact ha.mem_declared hx
  | binary _ hl hr _ =>
    rcases List.mem_append.1 hx with hx | hx
    · exact hl.mem_declared hx
    · exact hr.mem_declared hx
  | call hargs _ => exact forall₂_argument_mem_declared hargs hx
  | select hc ha hb =>
    rcases List.mem_append.1 hx with hx | hx
    · rcases List.mem_append.1 hx with hx | hx
      · exact hc.mem_declared hx
      · exact ha.mem_declared hx
    · exact hb.mem_declared hx
  | component ha _ _ => exact ha.mem_declared hx
  | index ha _ hi =>
    rcases List.mem_append.1 hx with hx | hx
    · exact ha.mem_declared hx
    · exact hi.mem_declared hx
  | construct _ _ hparts =>
    obtain ⟨c, hc, hx⟩ := mem_varsOfAll.1 hx
    exact (hparts c hc).mem_declared hx

end Code

/-! ## Statements -/

/-- **Straight-line code**: each statement is flat over the variables declared before it. -/
def StraightLine : Declared → List Statement → Prop
  | _, [] => True
  | Γ, s :: ss => s.code.IsFlat Γ s.ty ∧ StraightLine (Γ ++ [s.declared]) ss

theorem straightLine_append {Γ : Declared} {ss ts : List Statement} :
    StraightLine Γ (ss ++ ts) ↔
      StraightLine Γ ss ∧ StraightLine (Γ ++ ss.map Statement.declared) ts := by
  induction ss generalizing Γ with
  | nil => simp [StraightLine]
  | cons s ss ih => simp [StraightLine, ih, and_assoc]

theorem StraightLine.isFlat {Γ : Declared} {ss : List Statement} (h : StraightLine Γ ss) {k : Nat}
    (hk : k < ss.length) :
    ss[k].code.IsFlat (Γ ++ (ss.take k).map Statement.declared) ss[k].ty := by
  rw [← List.take_append_drop k ss, straightLine_append, List.drop_eq_getElem_cons hk] at h
  exact h.2.1

end DistanceField.Shader
