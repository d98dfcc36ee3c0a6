import DistanceField.Proofs.Denotation

/-!
# Widened operands

A number among lists of `n` numbers stands for the list of `n` copies of it: whichever way an
arithmetic operator or a builtin function combines its operands, it makes no difference whether
the copies are made before or where the number meets a list. This is why shader code, in which
the operands of a function have one type, computes what the functions of the language do.

* `Value.copies`: a number, widened to a list.
* `Builtin.apply_copies`, `BinaryOp.apply_copies`: operands may be widened.
* `Shader.Code.eval_call_widenTo`: so may the code of operands.
* `broadcasting_widens`: all of this.
-/

namespace DistanceField

open Shader

/-! ## Values -/

namespace Value

variable {n : Nat} {v w : Value}

/-- A number, or a list of `n` numbers. -/
inductive Spans (n : Nat) : Value → Prop
  | num (x : Float) : Spans n (.num x)
  | vector {xs : List Float} (hlen : xs.length = n) : Spans n (.vector xs)

/-- **A number becomes the list of `n` copies of it.** -/
def copies (n : Nat) : Value → Value
  | .num x => .vector (List.replicate n x)
  | v => v

/-- A list of numbers. -/
def IsVector (v : Value) : Prop :=
  ∃ xs, v = .vector xs

theorem copies_toValue (n : Nat) (a : Operand) : a.toValue.copies n = (a.spread n).toValue := by
  cases a <;> rfl

theorem Spans.exists_operand (h : v.Spans n) : ∃ a : Operand, v = a.toValue ∧ a.Fits n := by
  cases h with
  | num x => exact ⟨.scalar x, rfl, trivial⟩
  | @vector xs hlen => exact ⟨.vector xs, rfl, hlen⟩

theorem isVector_toValue {a : Operand} (h : a.toValue.IsVector) : a.isVector = true := by
  obtain ⟨xs, hxs⟩ := h
  cases a with
  | scalar x => cases hxs
  | vector ys => rfl

theorem exists_operands {vs : List Value} (h : ∀ v ∈ vs, v.Spans n) :
    ∃ os : List Operand, vs = os.map Operand.toValue ∧ ∀ a ∈ os, a.Fits n := by
  induction vs with
  | nil => exact ⟨[], rfl, by simp⟩
  | cons v vs ih =>
    obtain ⟨a, rfl, ha⟩ := (h v List.mem_cons_self).exists_operand
    obtain ⟨os, rfl, hos⟩ := ih fun w hw => h w (List.mem_cons_of_mem _ hw)
    refine ⟨a :: os, rfl, ?_⟩
    simpa using ⟨ha, hos⟩

/-- Widening to a vector type makes as many copies as the type has components. -/
theorem widenTo_eq_copies {ty : Ty} (hty : ty.isVector = true) (v : Value) :
    v.widenTo ty = v.copies ty.count := by
  cases v with
  | num x => rw [widenTo, if_pos hty, copies]
  | _ => rfl

theorem HasTy.spans {t ty : Ty} (h : v.HasTy t) (ht : t = .float ∨ t = ty)
    (hty : ty.isVector = true) : v.Spans ty.count := by
  rcases ht with rfl | rfl
  · obtain ⟨x, rfl⟩ := h.eq_num
    exact .num x
  · obtain ⟨xs, rfl, hlen⟩ := h.eq_vector hty
    exact .vector hlen

end Value

/-! ## Functions and operators -/

/-- **The operands of a builtin function may be widened** if one of them is a list. -/
theorem Builtin.apply_copies {b : Builtin} (hb : b ≠ .count) {n : Nat} {vs : List Value}
    (hlen : vs.length = b.arity) (hspans : ∀ v ∈ vs, v.Spans n) (hlist : ∃ v ∈ vs, v.IsVector) :
    ∃ r, b.apply vs = .ok r ∧ b.apply (vs.map (Value.copies n)) = .ok r := by
  obtain ⟨os, rfl, hfits⟩ := Value.exists_operands hspans
  rw [List.length_map] at hlen
  obtain ⟨c, hc, -, hspread⟩ := apply_operands hb hlen hfits
  have hany : os.any Operand.isVector = true := by
    obtain ⟨v, hv, hvector⟩ := hlist
    obtain ⟨a, ha, rfl⟩ := List.mem_map.1 hv
    exact List.any_eq_true.2 ⟨a, ha, Value.isVector_toValue hvector⟩
  have hmap : (os.map Operand.toValue).map (Value.copies n) = os.map fun a => (a.spread n).toValue := by
    rw [List.map_map]
    exact List.map_congr_left fun a _ => Value.copies_toValue n a
  refine ⟨c.toValue, hc, ?_⟩
  rw [hmap, hspread hany]

theorem BinaryOp.exists_arithmetic {op : BinaryOp} (h : op.isArithmetic = true) :
    ∃ f, op.arithmetic? = some f := by
  cases op with
  | add | sub | mul | div | mod => exact ⟨_, rfl⟩
  | _ => cases h

/-- **So may the operands of an arithmetic operator.** -/
theorem BinaryOp.apply_copies {op : BinaryOp} (hop : op.isArithmetic = true) {n : Nat} {v w : Value}
    (hv : v.Spans n) (hw : w.Spans n) (hlist : v.IsVector ∨ w.IsVector) :
    ∃ r, op.apply v w = .ok r ∧ op.apply (v.copies n) (w.copies n) = .ok r := by
  obtain ⟨f, hf⟩ := exists_arithmetic hop
  obtain ⟨a, rfl, ha⟩ := hv.exists_operand
  obtain ⟨b, rfl, hb⟩ := hw.exists_operand
  obtain ⟨c, hc, -, hvec, hspread⟩ := Operand.zip_spread ha hb f
  have hcv : c.isVector = true := by
    rw [hvec, Bool.or_eq_true]
    exact hlist.imp Value.isVector_toValue Value.isVector_toValue
  rw [Operand.spread_of_isVector hcv] at hspread
  refine ⟨c.toValue, ?_, ?_⟩
  · rw [apply_of_arithmetic? hf, applyArithmetic_toValue hc]
  · rw [Value.copies_toValue, Value.copies_toValue, apply_of_arithmetic? hf,
      applyArithmetic_toValue hspread]

/-! ## Code -/

section

variable {σ : Store} {ty : Ty} {args : List Typed} {vs : List Value}

/-- The values of operands that are floats, or vectors of one type. -/
theorem spans_of_typed (hargs : List.Forall₂ (fun t v => v.HasTy t.ty ∧ t.code.eval σ = .ok v) args vs)
    (hty : ty.isVector = true) (heach : ∀ t ∈ args, t.ty = .float ∨ t.ty = ty) :
    ∀ v ∈ vs, v.Spans ty.count := by
  intro v hv
  obtain ⟨i, hi⟩ := List.mem_iff_getElem?.1 hv
  have hflip : List.Forall₂ (fun (v : Value) (t : Typed) => v.HasTy t.ty ∧ t.code.eval σ = .ok v) vs args :=
    hargs.flip
  obtain ⟨t, ht, hhas, -⟩ := exists_of_rel_some (getElem?_rel hflip i) hi
  exact hhas.spans (heach t (List.mem_of_getElem? ht)) hty

theorem exists_isVector_of_typed
    (hargs : List.Forall₂ (fun t v => v.HasTy t.ty ∧ t.code.eval σ = .ok v) args vs)
    (hty : ty.isVector = true) (hsome : ∃ t ∈ args, t.ty = ty) : ∃ v ∈ vs, v.IsVector := by
  obtain ⟨t, ht, rfl⟩ := hsome
  obtain ⟨i, hi⟩ := List.mem_iff_getElem?.1 ht
  obtain ⟨v, hv, hhas, -⟩ := exists_of_rel_some (getElem?_rel hargs i) hi
  obtain ⟨xs, hxs, -⟩ := hhas.eq_vector hty
  exact ⟨v, List.mem_of_getElem? hv, xs, hxs⟩

/-- **The code of a call with widened operands** has the value of the function. -/
theorem Shader.Code.eval_call_widenTo {b : Builtin} (hb : b ≠ .count) (hlen : args.length = b.arity)
    (hargs : List.Forall₂ (fun t v => v.HasTy t.ty ∧ t.code.eval σ = .ok v) args vs)
    (hty : ty.isVector = true) (heach : ∀ t ∈ args, t.ty = .float ∨ t.ty = ty)
    (hsome : ∃ t ∈ args, t.ty = ty) :
    ∃ r, b.apply vs = .ok r ∧ (Code.call b (args.map (·.widenTo ty))).eval σ = .ok r := by
  have hspans := spans_of_typed hargs hty heach
  have hlist := exists_isVector_of_typed hargs hty hsome
  have harity : vs.length = b.arity := hargs.length_eq.symm.trans hlen
  obtain ⟨r, hr, hcopies⟩ := Builtin.apply_copies hb harity hspans hlist
  have hwidened : vs.map (·.widenTo ty) = vs.map (Value.copies ty.count) :=
    List.map_congr_left fun v _ => Value.widenTo_eq_copies hty v
  refine ⟨r, hr, ?_⟩
  rw [Code.eval, evalCodes_widenTo hargs ty, Except.ok_bind, hwidened, hcopies]
  rfl

/-- The remainder is a function in shader code, and so are its operands widened. -/
theorem Shader.Code.eval_mod_widenTo {l r : Typed} {v w : Value} (hv : v.HasTy l.ty)
    (hl : l.code.eval σ = .ok v) (hw : w.HasTy r.ty) (hr : r.code.eval σ = .ok w)
    (h : BinaryOp.mod.typing l.ty r.ty = .ok ty) :
    ∃ u, BinaryOp.mod.apply v w = .ok u ∧
      (Code.call .mod [l.widenTo ty, r.widenTo ty]).eval σ = .ok u := by
  obtain ⟨u, hu, -⟩ := BinaryOp.apply_typed h hv hw
  have hmod := (Builtin.mod_widened h hv hw).trans hu
  refine ⟨u, hu, ?_⟩
  simp only [Code.eval, evalCodes, Typed.eval_widenTo hv hl, Typed.eval_widenTo hw hr, Except.ok_bind]
  exact congrArg reported hmod

end

/-- **Broadcasting equals widening.** Take a builtin function other than `count`, or an
arithmetic operator, and as many operands as it has, each a number or a list of `n` numbers and
at least one of them a list. It has a result, and the same one if each number is replaced by the
list of `n` copies of it. So shader code in which the floats among the operands of a call are
widened to the vector type of the others has the value that the function has on the values of
the operands; and so has the call that stands for the operator `%`. -/
theorem broadcasting_widens :
    (∀ (n : Nat) (b : Builtin) (vs : List Value), b ≠ .count → vs.length = b.arity →
      (∀ v ∈ vs, v.Spans n) → (∃ v ∈ vs, v.IsVector) →
        ∃ r, b.apply vs = .ok r ∧ b.apply (vs.map (Value.copies n)) = .ok r) ∧
    (∀ (n : Nat) (op : BinaryOp) (v w : Value), op.isArithmetic = true → v.Spans n → w.Spans n →
      v.IsVector ∨ w.IsVector →
        ∃ r, op.apply v w = .ok r ∧ op.apply (v.copies n) (w.copies n) = .ok r) ∧
    (∀ (σ : Store) (ty : Ty) (b : Builtin) (args : List Typed) (vs : List Value), b ≠ .count →
      args.length = b.arity →
      List.Forall₂ (fun t v => v.HasTy t.ty ∧ t.code.eval σ = .ok v) args vs →
      ty.isVector = true → (∀ t ∈ args, t.ty = .float ∨ t.ty = ty) → (∃ t ∈ args, t.ty = ty) →
        ∃ r, b.apply vs = .ok r ∧ (Code.call b (args.map (·.widenTo ty))).eval σ = .ok r) ∧
    ∀ (σ : Store) (ty : Ty) (l r : Typed) (v w : Value), v.HasTy l.ty → l.code.eval σ = .ok v →
      w.HasTy r.ty → r.code.eval σ = .ok w → BinaryOp.mod.typing l.ty r.ty = .ok ty →
        ∃ u, BinaryOp.mod.apply v w = .ok u ∧
          (Code.call .mod [l.widenTo ty, r.widenTo ty]).eval σ = .ok u := by
  refine ⟨?_, ?_, ?_, ?_⟩
  · intro n b vs hb hlen hspans hlist
    exact Builtin.apply_copies hb hlen hspans hlist
  · intro n op v w hop hv hw hlist
    exact BinaryOp.apply_copies hop hv hw hlist
  · intro σ ty b args vs hb hlen hargs hty heach hsome
    exact Code.eval_call_widenTo hb hlen hargs hty heach hsome
  · intro σ ty l r v w hv hl hw hr hmod
    exact Code.eval_mod_widenTo hv hl hw hr hmod

/-- A number and a vector are mixed by a number, with the copies made or not, and in code. -/
theorem broadcasting_widens_mix :
    (∃ r, Builtin.mix.apply [.num 1, .vector [3, 4], .num 2] = .ok r ∧
      Builtin.mix.apply [.vector [1, 1], .vector [3, 4], .vector [2, 2]] = .ok r) ∧
    ∃ r, Builtin.mix.apply [.num 1, .vector [3, 4], .num 2] = .ok r ∧
      (Code.call .mix [.construct .vec2 [.num 1], .var "p", .construct .vec2 [.num 2]]).eval
        [("p", .vector [3, 4])] = .ok r := by
  obtain ⟨hvalues, -, hcode, -⟩ := broadcasting_widens
  have hspans : ∀ v ∈ [Value.num 1, .vector [3, 4], .num 2], v.Spans 2 := by
    simpa using ⟨.num 1, .vector rfl, .num 2⟩
  refine ⟨hvalues 2 .mix _ (by decide) rfl hspans ⟨.vector [3, 4], by simp, _, rfl⟩, ?_⟩
  have htyped : List.Forall₂ (fun (t : Typed) v =>
      v.HasTy t.ty ∧ t.code.eval [("p", Value.vector [3, 4])] = .ok v)
      [⟨.float, .num 1⟩, ⟨.vec2, .var "p"⟩, ⟨.float, .num 2⟩]
      [.num 1, .vector [3, 4], .num 2] :=
    .cons ⟨.num 1, rfl⟩ (.cons ⟨.vector rfl rfl, rfl⟩ (.cons ⟨.num 2, rfl⟩ .nil))
  exact hcode _ .vec2 .mix _ _ (by decide) rfl htyped rfl (by simp) ⟨⟨.vec2, .var "p"⟩, by simp, rfl⟩

end DistanceField
