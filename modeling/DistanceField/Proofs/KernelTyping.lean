import DistanceField.Proofs.Broadcast
import DistanceField.Shader.Typing

/-!
# Typing of kernels

The typing rules of shader code are sound for the kernels: an operator or a builtin
function whose typing rule accepts the types of some values has a result on the values
themselves, and the result has the type that the rule gives.

* `Value.HasTy`: the values of a shader type.
* `widest_eq_ok`: what the common type of some operands is.
* `Builtin.apply_typed`, `BinaryOp.apply_typed`, `UnaryOp.apply_typed`: soundness.
-/

namespace DistanceField

open Shader

/-- **The values of a shader type**: booleans, numbers, and lists of as many numbers as
the type has components. -/
inductive Value.HasTy : Value → Ty → Prop
  | bool (b : Bool) : HasTy (.bool b) .bool
  | num (x : Float) : HasTy (.num x) .float
  | vector {ty : Ty} {xs : List Float} (hty : ty.isVector = true) (hlen : xs.length = ty.count) :
      HasTy (.list (xs.map .num)) ty

namespace Value

theorem HasTy.eq_bool {v : Value} (h : v.HasTy .bool) : ∃ b, v = .bool b := by
  cases h with
  | bool b => exact ⟨b, rfl⟩
  | vector hty _ => cases hty

theorem HasTy.eq_num {v : Value} (h : v.HasTy .float) : ∃ x, v = .num x := by
  cases h with
  | num x => exact ⟨x, rfl⟩
  | vector hty _ => cases hty

theorem HasTy.eq_vector {v : Value} {ty : Ty} (h : v.HasTy ty) (hty : ty.isVector = true) :
    ∃ xs, v = .vector xs ∧ xs.length = ty.count := by
  cases h with
  | bool b => cases hty
  | num x => cases hty
  | vector _ hlen => exact ⟨_, rfl, hlen⟩

theorem HasTy.eq_operand {v : Value} {ty : Ty} (h : v.HasTy ty) (hty : ty ≠ .bool) :
    ∃ a : Operand, v = a.toValue := by
  cases h with
  | bool b => exact absurd rfl hty
  | num x => exact ⟨.scalar x, rfl⟩
  | vector _ _ => exact ⟨.vector _, rfl⟩

/-- The value that code of this value becomes where a value of type `ty` is wanted. -/
def widenTo (v : Value) (ty : Ty) : Value :=
  match v with
  | .num x => if ty.isVector then .vector (List.replicate ty.count x) else .num x
  | v => v

theorem widenTo_of_not_isVector {ty : Ty} (h : ty.isVector = false) (v : Value) : v.widenTo ty = v := by
  cases v <;> simp [widenTo, h]

theorem widenTo_toValue {ty : Ty} (h : ty.isVector = true) (a : Operand) :
    a.toValue.widenTo ty = (a.spread ty.count).toValue := by
  cases a with
  | scalar x => simp only [Operand.toValue, widenTo, h, if_true, Operand.spread]
  | vector xs => rfl

end Value

namespace Operand

theorem isVector_of_hasTy {a : Operand} {ty : Ty} (h : a.toValue.HasTy ty) :
    a.isVector = ty.isVector := by
  cases a with
  | scalar x => cases h; rfl
  | vector xs =>
    generalize hv : (vector xs).toValue = v at h
    cases h with
    | bool b => cases hv
    | num x => cases hv
    | vector hty _ => exact hty.symm

theorem fits_of_hasTy {a : Operand} {t u : Ty} (h : a.toValue.HasTy t) (ht : t = .float ∨ t = u) :
    a.Fits u.count := by
  cases a with
  | scalar x => trivial
  | vector xs =>
    have hvec : t.isVector = true := (isVector_of_hasTy h).symm
    rcases ht with rfl | rfl
    · cases hvec
    · obtain ⟨ys, hys, hlen⟩ := h.eq_vector hvec
      have hmap : xs.map Value.num = ys.map Value.num := by simpa [toValue, Value.vector] using hys
      have : xs.length = ys.length := by simpa using congrArg List.length hmap
      exact this.trans hlen

theorem hasTy_of_fits {a : Operand} {u : Ty} (hfit : a.Fits u.count) (hvec : a.isVector = u.isVector)
    (hu : u ≠ .bool) : a.toValue.HasTy u := by
  cases a with
  | scalar x =>
    have hf : u = .float := by cases u <;> simp_all [isVector, Ty.isVector, Ty.count]
    rw [hf]
    exact .num x
  | vector xs => exact .vector hvec.symm hfit

end Operand

/-! ## Common types -/

namespace Shader

/-- `u` is the common type of operands that are floats or all of one vector type. -/
structure Common (types : List Ty) (u : Ty) : Prop where
  each : ∀ t ∈ types, t = .float ∨ t = u
  attained : u = .float ∨ u ∈ types
  numeric : u ≠ .bool

theorem widen_eq_ok {what : String} {c t u : Ty} (hc : c ≠ .bool) (h : widen what c t = .ok u) :
    t = .float ∧ u = c ∨ t = u ∧ (c = .float ∨ c = u) ∧ u ≠ .bool := by
  unfold widen at h
  cases c <;> cases t <;> simp [Ty.isNumeric, Ty.isVector, Ty.count] at h hc <;> subst h <;> simp

/-- Each step of the fold keeps the operands before it under the type it ends with. -/
theorem foldlM_widen_eq_ok {what : String} {types : List Ty} {c u : Ty} (hc : c ≠ .bool)
    (h : types.foldlM (widen what) c = .ok u) :
    (∀ t ∈ types, t = .float ∨ t = u) ∧ (c = .float ∨ c = u) ∧ (u = c ∨ u ∈ types) ∧ u ≠ .bool := by
  induction types generalizing c with
  | nil =>
    obtain rfl : c = u := by simpa [pure, Except.pure] using h
    exact ⟨by simp, .inr rfl, .inl rfl, hc⟩
  | cons t types ih =>
    rw [List.foldlM_cons, Except.bind_eq_ok] at h
    obtain ⟨d, hd, hrest⟩ := h
    rcases widen_eq_ok hc hd with ⟨rfl, rfl⟩ | ⟨rfl, hcd, hne⟩
    · obtain ⟨h1, h2, h3, h4⟩ := ih hc hrest
      refine ⟨?_, h2, ?_, h4⟩
      · simpa using h1
      · rcases h3 with h3 | h3
        · exact .inl h3
        · exact .inr (List.mem_cons_of_mem _ h3)
    · obtain ⟨h1, h2, h3, h4⟩ := ih hne hrest
      refine ⟨?_, ?_, ?_, h4⟩
      · simpa using ⟨h2, h1⟩
      · rcases hcd with hcd | rfl
        · exact .inl hcd
        · exact h2
      · rcases h3 with h3 | h3
        · exact .inr (by simp [h3])
        · exact .inr (List.mem_cons_of_mem _ h3)

theorem widen_of_common {what : String} {c u : Ty} (hc : c = .float ∨ c = u) (hu : u ≠ .bool) :
    widen what c u = .ok u := by
  cases u <;> rcases hc with rfl | rfl <;> simp_all [widen, Ty.isNumeric, Ty.isVector, Ty.count]

theorem foldlM_widen_of_common {what : String} {types : List Ty} {c u : Ty}
    (heach : ∀ t ∈ types, t = .float ∨ t = u) (hc : c = .float ∨ c = u) (hu : u = c ∨ u ∈ types)
    (hne : u ≠ .bool) : types.foldlM (widen what) c = .ok u := by
  induction types generalizing c with
  | nil =>
    obtain rfl : u = c := by simpa using hu
    rfl
  | cons t types ih =>
    have hrest : ∀ t ∈ types, t = .float ∨ t = u := fun t ht => heach t (by simp [ht])
    rw [List.foldlM_cons]
    by_cases ht : t = u
    · rw [ht, widen_of_common hc hne, Except.ok_bind]
      exact ih hrest (.inr rfl) (.inl rfl)
    · obtain rfl : t = .float := (heach t (by simp)).resolve_right ht
      have hmem : u = c ∨ u ∈ types := by
        rcases hu with hu | hu
        · exact .inl hu
        · exact .inr ((List.mem_cons.1 hu).resolve_left fun h => ht h.symm)
      exact ih hrest hc hmem

/-- **The common type of operands** is that of the vectors among them, else float. -/
theorem widest_eq_ok {what : String} {types : List Ty} {u : Ty} :
    widest what types = .ok u ↔ Common types u := by
  constructor
  · intro h
    obtain ⟨h1, -, h3, h4⟩ := foldlM_widen_eq_ok (by decide) h
    exact ⟨h1, h3, h4⟩
  · intro h
    exact foldlM_widen_of_common h.each (.inl rfl) h.attained h.numeric

theorem Common.ne_bool {types : List Ty} {t u : Ty} (h : Common types u) (ht : t ∈ types) :
    t ≠ .bool := by
  rcases h.each t ht with rfl | rfl
  · decide
  · exact h.numeric

/-- The type of an operand that is widened to a common type. -/
def widenTy (u t : Ty) : Ty :=
  if u.isVector && t == .float then u else t

/-- Operands that are widened to their common type need no widening. -/
theorem Common.widened {types : List Ty} {u : Ty} (h : Common types u) :
    Common (types.map (widenTy u)) u ∧
      (u.isVector && (types.map (widenTy u)).any (!·.isVector)) = false := by
  have heach : ∀ t ∈ types, u.isVector = true → widenTy u t = u := by
    intro t ht huv
    rcases h.each t ht with rfl | rfl <;> simp [widenTy, huv]
  refine ⟨⟨?_, ?_, h.numeric⟩, ?_⟩
  · intro s hs
    obtain ⟨t, ht, rfl⟩ := List.mem_map.1 hs
    cases huv : u.isVector with
    | true => exact .inr (heach t ht huv)
    | false => simpa [widenTy, huv] using h.each t ht
  · refine h.attained.imp_right fun hmem => List.mem_map.2 ⟨u, hmem, ?_⟩
    cases huv : u.isVector <;> simp [widenTy, huv]
  · cases huv : u.isVector with
    | false => rfl
    | true =>
      rw [Bool.true_and, List.any_eq_false]
      intro s hs
      obtain ⟨t, ht, rfl⟩ := List.mem_map.1 hs
      simp [heach t ht huv, huv]

theorem Common.any_isVector {types : List Ty} {u : Ty} (h : Common types u) :
    types.any Ty.isVector = u.isVector := by
  rcases h.attained with rfl | hmem
  · rw [show Ty.float.isVector = false from rfl, List.any_eq_false]
    intro t ht
    rcases h.each t ht with rfl | rfl <;> decide
  · cases hu : u.isVector with
    | true => exact List.any_eq_true.2 ⟨u, hmem, hu⟩
    | false =>
      rw [List.any_eq_false]
      intro t ht
      rcases h.each t ht with rfl | rfl
      · decide
      · simp [hu]

end Shader

/-! ## Soundness of the typing rules -/

/-- Values of types with a common one are operands that fit together. -/
theorem operands_of_hasTy {vs : List Value} {types : List Ty} {u : Ty}
    (hv : List.Forall₂ Value.HasTy vs types) (hu : u ≠ .bool)
    (heach : ∀ t ∈ types, t = .float ∨ t = u) :
    ∃ os : List Operand, vs = os.map Operand.toValue ∧ (∀ a ∈ os, a.Fits u.count) ∧
      os.any Operand.isVector = types.any Ty.isVector ∧ os.length = types.length := by
  induction hv with
  | nil => exact ⟨[], rfl, by simp, rfl, rfl⟩
  | @cons v t vs types h hs ih =>
    have ht := heach t (by simp)
    have hne : t ≠ .bool := by rcases ht with rfl | rfl; decide; exact hu
    obtain ⟨os, rfl, hfit, hany, hlen⟩ := ih fun s hs => heach s (by simp [hs])
    obtain ⟨a, rfl⟩ := h.eq_operand hne
    refine ⟨a :: os, rfl, ?_, ?_, by simp [hlen]⟩
    · simpa using ⟨Operand.fits_of_hasTy h ht, hfit⟩
    · simp only [List.any_cons, hany, Operand.isVector_of_hasTy h]

namespace Builtin

theorem typing_eq_ok {b : Builtin} {types : List Ty} {ty : Ty} {promote : Option Ty}
    (h : b.typing types = .ok (ty, promote)) :
    types.length = b.arity ∧ b ≠ .count ∧ ∃ u, Common types u ∧
      ty = (if b.isReduction then .float else u) ∧
      promote = (if u.isVector && types.any (!·.isVector) then some u else none) := by
  unfold typing at h
  split at h
  · cases h
  · next hlen =>
    split at h
    · cases h
    · next hname =>
      obtain ⟨u, hu, hrest⟩ := Except.bind_eq_ok.1 h
      have hc : b ≠ .count := by rintro rfl; exact hname rfl
      have hty : ty = (if b.isReduction then .float else u) ∧
          promote = (if u.isVector && types.any (!·.isVector) then some u else none) := by
        dsimp only at hrest
        split at hrest <;> cases hrest
        · exact ⟨rfl, rfl⟩
        · exact ⟨rfl, rfl⟩
        · next hl hd =>
          have hr : b.isReduction = false := by cases b <;> first | rfl | contradiction
          rw [hr]
          exact ⟨rfl, rfl⟩
      exact ⟨not_not.1 hlen, hc, u, widest_eq_ok.1 hu, hty⟩

theorem typing_of_common {b : Builtin} {types : List Ty} {u : Ty} (hlen : types.length = b.arity)
    (hb : b ≠ .count) (hu : Common types u) :
    b.typing types = .ok (if b.isReduction then .float else u,
      if u.isVector && types.any (!·.isVector) then some u else none) := by
  have hname : b.shaderName?.isNone = false := by cases b <;> first | rfl | exact absurd rfl hb
  unfold typing
  simp only [hlen, ne_eq, not_true_eq_false, if_false, hname, Bool.false_eq_true, if_false,
    widest_eq_ok.2 hu, Except.ok_bind]
  split
  · rfl
  · rfl
  · have hr : b.isReduction = false := by cases b <;> first | rfl | contradiction
    rw [hr]
    rfl

/-- **Builtin functions are typed.** Their typing rule accepts no values on which they
fail, and floats may be widened where it says so. -/
theorem apply_typed {b : Builtin} {types : List Ty} {ty : Ty} {promote : Option Ty} {vs : List Value}
    (h : b.typing types = .ok (ty, promote)) (hv : List.Forall₂ Value.HasTy vs types) :
    ∃ w, b.apply vs = .ok w ∧ w.HasTy ty ∧
      ∀ wide, promote = some wide → b.apply (vs.map (·.widenTo wide)) = .ok w := by
  obtain ⟨hlen, hcount, u, hu, rfl, rfl⟩ := typing_eq_ok h
  obtain ⟨os, rfl, hfit, hany, hos⟩ := operands_of_hasTy hv hu.numeric hu.each
  obtain ⟨c, hc, hcomb, hs⟩ := apply_operands hcount (hos.trans hlen) hfit
  rw [hu.any_isVector] at hany
  refine ⟨c.toValue, hc, ?_, ?_⟩
  · have hvec := hcomb.isVector
    cases hr : b.isReduction with
    | true =>
      obtain ⟨x, rfl⟩ := Operand.eq_scalar_of_isVector (by simpa [hr] using hvec)
      exact .num x
    | false => exact Operand.hasTy_of_fits hcomb.fits (by simpa [hr, hany] using hvec) hu.numeric
  · intro wide hwide
    split at hwide
    · next hp =>
      obtain rfl : u = wide := Option.some.inj hwide
      have huv : u.isVector = true := (Bool.and_eq_true_iff.1 hp).1
      rw [List.map_map]
      simpa only [Function.comp_def, Value.widenTo_toValue huv] using hs (hany.trans huv)
    · cases hwide

/-- The remainder of values that are widened to their common type is that of the values. -/
theorem mod_widened {what : String} {l r ty : Ty} {v w : Value} (h : widest what [l, r] = .ok ty)
    (hv : v.HasTy l) (hw : w.HasTy r) :
    Builtin.mod.apply [v.widenTo ty, w.widenTo ty] = BinaryOp.mod.apply v w := by
  have hu := widest_eq_ok.1 h
  obtain ⟨a, rfl⟩ := hv.eq_operand (hu.ne_bool (by simp))
  obtain ⟨b, rfl⟩ := hw.eq_operand (hu.ne_bool (by simp))
  have ha := Operand.fits_of_hasTy hv (hu.each l (by simp))
  have hb := Operand.fits_of_hasTy hw (hu.each r (by simp))
  obtain ⟨c, hc, -, hvec, hs⟩ := Operand.zip_spread ha hb Scalar.floorMod
  have happly : ∀ x y z : Operand, (∀ what, x.zip what Scalar.floorMod y = .ok z) →
      Builtin.mod.apply [x.toValue, y.toValue] = .ok z.toValue := by
    intro x y z hz
    simp [apply, arity, apply2, binary?, hz, pure, Except.pure]
  rw [BinaryOp.apply_of_arithmetic? rfl, BinaryOp.applyArithmetic_toValue hc]
  cases hty : ty.isVector with
  | false =>
    rw [Value.widenTo_of_not_isVector hty, Value.widenTo_of_not_isVector hty]
    exact happly a b c hc
  | true =>
    have hcv : c.isVector = true := by
      rw [hvec, Operand.isVector_of_hasTy hv, Operand.isVector_of_hasTy hw]
      simpa [hty] using hu.any_isVector
    rw [Value.widenTo_toValue hty, Value.widenTo_toValue hty]
    rw [Operand.spread_of_isVector hcv] at hs
    exact happly _ _ c hs

end Builtin

namespace BinaryOp

theorem arithmetic_typed {op : BinaryOp} {f : Float → Float → Float} (hf : op.arithmetic? = some f)
    {l r ty : Ty} {v w : Value} (h : widest op.symbol [l, r] = .ok ty) (hv : v.HasTy l)
    (hw : w.HasTy r) : ∃ u, op.apply v w = .ok u ∧ u.HasTy ty := by
  have hu := widest_eq_ok.1 h
  obtain ⟨a, rfl⟩ := hv.eq_operand (hu.ne_bool (by simp))
  obtain ⟨b, rfl⟩ := hw.eq_operand (hu.ne_bool (by simp))
  have ha := Operand.fits_of_hasTy hv (hu.each l (by simp))
  have hb := Operand.fits_of_hasTy hw (hu.each r (by simp))
  obtain ⟨c, hc, hfit, hvec, -⟩ := Operand.zip_spread ha hb f
  refine ⟨c.toValue, ?_, Operand.hasTy_of_fits hfit ?_ hu.numeric⟩
  · rw [apply_of_arithmetic? hf, applyArithmetic_toValue hc]
  · rw [hvec, Operand.isVector_of_hasTy hv, Operand.isVector_of_hasTy hw]
    simpa using hu.any_isVector

/-- **Binary operators are typed.** -/
theorem apply_typed {op : BinaryOp} {l r ty : Ty} {v w : Value} (h : op.typing l r = .ok ty)
    (hv : v.HasTy l) (hw : w.HasTy r) : ∃ u, op.apply v w = .ok u ∧ u.HasTy ty := by
  cases op with
  | add | sub | mul | div | mod => exact arithmetic_typed rfl h hv hw
  | eq | ne =>
    simp only [typing] at h
    split at h <;> cases h
    exact ⟨_, rfl, .bool _⟩
  | lt | le | gt | ge =>
    simp only [typing] at h
    split at h <;> cases h
    next hlr =>
    obtain ⟨rfl, rfl⟩ := hlr
    obtain ⟨x, rfl⟩ := hv.eq_num
    obtain ⟨y, rfl⟩ := hw.eq_num
    exact ⟨_, rfl, .bool _⟩
  | and | or =>
    simp only [typing] at h
    split at h <;> cases h
    next hlr =>
    obtain ⟨rfl, rfl⟩ := hlr
    obtain ⟨x, rfl⟩ := hv.eq_bool
    obtain ⟨y, rfl⟩ := hw.eq_bool
    exact ⟨_, rfl, .bool _⟩

end BinaryOp

/-- **Unary operators are typed.** -/
theorem UnaryOp.apply_typed {op : UnaryOp} {t ty : Ty} {v : Value} (h : op.typing t = .ok ty)
    (hv : v.HasTy t) : ∃ w, op.apply v = .ok w ∧ w.HasTy ty := by
  cases op with
  | neg =>
    simp only [typing] at h
    split at h <;> cases h
    next ht =>
    have hne : t ≠ .bool := by rintro rfl; cases ht
    obtain ⟨a, rfl⟩ := hv.eq_operand hne
    refine ⟨(a.map fun x => -x).toValue, ?_, ?_⟩
    · simp only [apply, Operand.ofValue_toValue, Except.ok_bind]; rfl
    · refine Operand.hasTy_of_fits ((Operand.fits_of_hasTy hv (.inr rfl)).map _) ?_ hne
      rw [Operand.isVector_map, Operand.isVector_of_hasTy hv]
  | not =>
    simp only [typing] at h
    split at h <;> cases h
    next ht =>
    subst ht
    obtain ⟨b, rfl⟩ := hv.eq_bool
    exact ⟨_, rfl, .bool _⟩

end DistanceField
