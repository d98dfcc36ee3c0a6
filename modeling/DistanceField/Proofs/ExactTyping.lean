import DistanceField.Proofs.KernelTyping

/-!
# Exact typing rules

The typing rules of shader code refuse nothing that the kernels can do. On booleans, numbers
and vectors a kernel has a result exactly if the rule gives it a type. The two go different
ways: a rule folds the types of all operands, while a kernel finds out about their lengths
two by two, in an order of its own.

* `Common.splice`: the common type of some operands stands for them among others.
* `Operand.zip_common`: operands that combine have a common type.
* `Builtin.exists_common`: the operands of a builtin function that has a result.
* `kernels_exact`: builtin functions and operators.
-/

namespace DistanceField

open Shader

/-! ## Common types -/

namespace Shader.Common

variable {types types' : List Ty} {t u : Ty}

/-- Neither the order of operands nor their number matters. -/
theorem congr (h : Common types u) (hmem : ∀ t, t ∈ types ↔ t ∈ types') : Common types' u := by
  refine ⟨fun t ht => h.each t ((hmem t).2 ht), ?_, h.numeric⟩
  exact h.attained.imp_right (hmem u).1

theorem singleton (h : t ≠ .bool) : Common [t] t :=
  ⟨fun _ hs => .inr (List.mem_singleton.1 hs), .inr (List.mem_singleton.2 rfl), h⟩

theorem pair (ht : t ≠ .bool) (hu : u ≠ .bool) (h : t = .float ∨ u = .float ∨ t = u) :
    ∃ common, Common [t, u] common := by
  rcases h with rfl | rfl | rfl
  · exact ⟨u, by simp, by simp, hu⟩
  · exact ⟨t, by simp, by simp, ht⟩
  · exact ⟨t, by simp, by simp, ht⟩

/-- Operands may be put in the place of their common type. -/
theorem splice (h : Common types t) (h' : Common (t :: types') u) : Common (types ++ types') u := by
  have ht : t = .float ∨ t = u := h'.each t List.mem_cons_self
  refine ⟨fun s hs => ?_, ?_, h'.numeric⟩
  · rcases List.mem_append.1 hs with hs | hs
    · rcases h.each s hs with hs | rfl
      · exact .inl hs
      · exact ht
    · exact h'.each s (List.mem_cons_of_mem t hs)
  · rcases h'.attained with hu | hu
    · exact .inl hu
    · rcases List.mem_cons.1 hu with rfl | hu
      · exact h.attained.imp_right (List.mem_append_left types')
      · exact .inr (List.mem_append_right _ hu)

end Shader.Common

/-! ## Operands -/

namespace Operand

variable {a b c : Operand} {t u : Ty}

theorem ne_bool_of_hasTy (h : a.toValue.HasTy t) : t ≠ .bool := by
  rintro rfl
  obtain ⟨b, hb⟩ := h.eq_bool
  cases a <;> cases hb

/-- A typed value that is read as an operand is one. -/
theorem eq_toValue_of_hasTy {what : String} {v : Value} (hv : v.HasTy t) (h : ofValue what v = .ok a) :
    v = a.toValue := by
  by_cases ht : t = .bool
  · subst ht
    obtain ⟨b, rfl⟩ := hv.eq_bool
    cases h
  · obtain ⟨a', rfl⟩ := hv.eq_operand ht
    rw [ofValue_toValue] at h
    cases h
    rfl

/-- Vector types with equally many components are the same. -/
theorem eq_of_count_eq (ht : t.isVector = true) (h : t.count = u.count) : t = u := by
  cases t <;> cases u <;> simp_all [Ty.isVector, Ty.count]

/-- Of two operands that combine, one is a number, or both are lists of one length. -/
theorem float_or_eq {what : String} {f : Float → Float → Float} (ha : a.toValue.HasTy t)
    (hb : b.toValue.HasTy u) (h : a.zip what f b = .ok c) : t = .float ∨ u = .float ∨ t = u := by
  cases a with
  | scalar x =>
    cases ha
    exact .inl rfl
  | vector xs =>
    cases b with
    | scalar y =>
      cases hb
      exact .inr (.inl rfl)
    | vector ys =>
      have hxs : xs.length = t.count := fits_of_hasTy ha (.inr rfl)
      have hys : ys.length = u.count := fits_of_hasTy hb (.inr rfl)
      have hvec : t.isVector = true := (isVector_of_hasTy ha).symm
      rw [zip] at h
      split_ifs at h with hlen
      have hcount : t.count = u.count := by omega
      exact .inr (.inr (eq_of_count_eq hvec hcount))

/-- **Operands that combine have a common type**, and it is that of the result. -/
theorem zip_common {what : String} {f : Float → Float → Float} (ha : a.toValue.HasTy t)
    (hb : b.toValue.HasTy u) (h : a.zip what f b = .ok c) :
    ∃ common, Common [t, u] common ∧ c.toValue.HasTy common := by
  obtain ⟨common, hcommon⟩ := Common.pair (ne_bool_of_hasTy ha) (ne_bool_of_hasTy hb) (float_or_eq ha hb h)
  have hfita := fits_of_hasTy ha (hcommon.each t (by simp))
  have hfitb := fits_of_hasTy hb (hcommon.each u (by simp))
  obtain ⟨c', hc', hfit, hvec, -⟩ := zip_spread hfita hfitb f
  rw [hc' what] at h
  cases h
  refine ⟨common, hcommon, hasTy_of_fits hfit ?_ hcommon.numeric⟩
  rw [hvec, isVector_of_hasTy ha, isVector_of_hasTy hb]
  simpa using hcommon.any_isVector

end Operand

/-! ## Builtin functions -/

namespace Builtin

variable {b : Builtin} {t₁ t₂ t₃ : Ty} {v₁ v₂ v₃ w : Value}

theorem apply1_numeric (hb : b ≠ .count) (hv : v₁.HasTy t₁) (h : b.apply1 v₁ = .ok w) : t₁ ≠ .bool := by
  rw [apply1, if_neg hb] at h
  obtain ⟨a, ha, -⟩ := Except.bind_eq_ok.1 h
  obtain rfl := Operand.eq_toValue_of_hasTy hv ha
  exact Operand.ne_bool_of_hasTy hv

theorem apply2_common (h₁ : v₁.HasTy t₁) (h₂ : v₂.HasTy t₂) (h : b.apply2 v₁ v₂ = .ok w) :
    ∃ u, Common [t₁, t₂] u := by
  obtain ⟨x, hx, hrest⟩ := Except.bind_eq_ok.1 h
  obtain ⟨y, hy, hresult⟩ := Except.bind_eq_ok.1 hrest
  have hzip : ∃ f c, x.zip b.name f y = .ok c := by
    cases hf : b.binary? with
    | some f =>
      rw [hf] at hresult
      obtain ⟨c, hc, -⟩ := Except.bind_eq_ok.1 hresult
      exact ⟨f, c, hc⟩
    | none =>
      rw [hf] at hresult
      obtain ⟨c, hc, -⟩ := Except.bind_eq_ok.1 hresult
      exact ⟨_, c, hc⟩
  obtain ⟨f, c, hc⟩ := hzip
  rw [Operand.eq_toValue_of_hasTy h₁ hx] at h₁
  rw [Operand.eq_toValue_of_hasTy h₂ hy] at h₂
  obtain ⟨u, hu, -⟩ := Operand.zip_common h₁ h₂ hc
  exact ⟨u, hu⟩

/-- The first two operands are combined, and then the third. -/
theorem clampOf_common (h₁ : v₁.HasTy t₁) (h₂ : v₂.HasTy t₂) (h₃ : v₃.HasTy t₃)
    (h : clampOf v₁ v₂ v₃ = .ok w) : ∃ u, Common [t₁, t₂, t₃] u := by
  obtain ⟨x, hx, h⟩ := Except.bind_eq_ok.1 h
  obtain ⟨lo, hlo, h⟩ := Except.bind_eq_ok.1 h
  obtain ⟨raised, hraised, h⟩ := Except.bind_eq_ok.1 h
  obtain ⟨hi, hhi, h⟩ := Except.bind_eq_ok.1 h
  obtain ⟨c, hc, -⟩ := Except.bind_eq_ok.1 h
  obtain rfl := Operand.eq_toValue_of_hasTy h₁ hx
  obtain rfl := Operand.eq_toValue_of_hasTy h₂ hlo
  obtain rfl := Operand.eq_toValue_of_hasTy h₃ hhi
  obtain ⟨u, hu, hraisedTy⟩ := Operand.zip_common h₁ h₂ hraised
  obtain ⟨u', hu', -⟩ := Operand.zip_common hraisedTy h₃ hc
  exact ⟨u', hu.splice hu'⟩

/-- The third operand is combined with each of the others, and then the two results. -/
theorem mixOf_common (h₁ : v₁.HasTy t₁) (h₂ : v₂.HasTy t₂) (h₃ : v₃.HasTy t₃)
    (h : mixOf v₁ v₂ v₃ = .ok w) : ∃ u, Common [t₁, t₂, t₃] u := by
  obtain ⟨t, ht, h⟩ := Except.bind_eq_ok.1 h
  obtain ⟨x, hx, h⟩ := Except.bind_eq_ok.1 h
  obtain ⟨a, ha, h⟩ := Except.bind_eq_ok.1 h
  obtain ⟨y, hy, h⟩ := Except.bind_eq_ok.1 h
  obtain ⟨b, hb, h⟩ := Except.bind_eq_ok.1 h
  obtain ⟨c, hc, -⟩ := Except.bind_eq_ok.1 h
  obtain rfl := Operand.eq_toValue_of_hasTy h₁ hx
  obtain rfl := Operand.eq_toValue_of_hasTy h₂ hy
  obtain rfl := Operand.eq_toValue_of_hasTy h₃ ht
  obtain ⟨ua, hua, haTy⟩ := Operand.zip_common h₁ h₃ ha
  obtain ⟨ub, hub, hbTy⟩ := Operand.zip_common h₂ h₃ hb
  obtain ⟨u, hu, -⟩ := Operand.zip_common haTy hbTy hc
  have hleft : Common [ub, t₁, t₃] u := by
    refine (hua.splice hu).congr fun s => ?_
    simp only [List.mem_append, List.mem_cons]
    tauto
  have hall : Common [t₁, t₂, t₃] u := by
    refine (hub.splice hleft).congr fun s => ?_
    simp only [List.mem_append, List.mem_cons]
    tauto
  exact ⟨u, hall⟩

/-- **Where a builtin function has a result, its operands have a common type.** -/
theorem exists_common (hb : b ≠ .count) {vs : List Value} {types : List Ty}
    (hv : List.Forall₂ Value.HasTy vs types) (h : b.apply vs = .ok w) :
    types.length = b.arity ∧ ∃ u, Common types u := by
  have harity : vs.length = b.arity := by
    by_contra hne
    unfold apply at h
    rw [if_pos hne] at h
    cases h
  refine ⟨hv.length_eq.symm.trans harity, ?_⟩
  unfold apply at h
  rw [if_neg (not_not.2 harity)] at h
  rcases b.arity_cases with hone | htwo | ⟨hthree, -⟩
  · obtain ⟨v₁, rfl⟩ := List.length_eq_one_iff.1 (harity.trans hone)
    rcases hv with _ | ⟨h₁, _ | _⟩
    exact ⟨_, .singleton (apply1_numeric hb h₁ h)⟩
  · obtain ⟨v₁, v₂, rfl⟩ := List.length_eq_two.1 (harity.trans htwo)
    rcases hv with _ | ⟨h₁, _ | ⟨h₂, _ | _⟩⟩
    exact apply2_common h₁ h₂ h
  · obtain ⟨v₁, v₂, v₃, rfl⟩ := List.length_eq_three.1 (harity.trans hthree)
    rcases hv with _ | ⟨h₁, _ | ⟨h₂, _ | ⟨h₃, _ | _⟩⟩⟩
    dsimp only at h
    split_ifs at h
    · exact clampOf_common h₁ h₂ h₃ h
    · exact mixOf_common h₁ h₂ h₃ h

end Builtin

/-! ## Exact rules -/

/-- **A typing rule is exact** for what a kernel does to some values: it gives a type
exactly if the kernel gives a value, and the value has the type. -/
structure Exact (rule : Except Fault Ty) (result : Except Fault Value) : Prop where
  isOk_iff : rule.isOk = true ↔ result.isOk = true
  hasTy : ∀ ty v, rule = .ok ty → result = .ok v → v.HasTy ty

/-- A rule is exact if it is sound and accepts whatever has a result. -/
theorem Exact.intro {rule : Except Fault Ty} {result : Except Fault Value}
    (hsound : ∀ ty, rule = .ok ty → ∃ v, result = .ok v ∧ v.HasTy ty)
    (hcomplete : ∀ v, result = .ok v → ∃ ty, rule = .ok ty) : Exact rule result := by
  refine ⟨⟨fun hok => ?_, fun hok => ?_⟩, fun ty v hty hv => ?_⟩
  · obtain ⟨ty, hty⟩ := Except.isOk_iff.1 hok
    obtain ⟨v, hv, -⟩ := hsound ty hty
    exact Except.isOk_iff.2 ⟨v, hv⟩
  · obtain ⟨v, hv⟩ := Except.isOk_iff.1 hok
    exact Except.isOk_iff.2 (hcomplete v hv)
  · obtain ⟨v', hv', hhas⟩ := hsound ty hty
    rw [hv] at hv'
    cases hv'
    exact hhas

theorem Builtin.typing_exact {b : Builtin} (hb : b ≠ .count) {vs : List Value} {types : List Ty}
    (hv : List.Forall₂ Value.HasTy vs types) : Exact ((b.typing types).map Prod.fst) (b.apply vs) := by
  refine .intro (fun ty hty => ?_) (fun w hw => ?_)
  · cases hrule : b.typing types with
    | error fault => rw [hrule] at hty; cases hty
    | ok sig =>
      rw [hrule] at hty
      cases hty
      obtain ⟨w, hw, hhas, -⟩ := apply_typed hrule hv
      exact ⟨w, hw, hhas⟩
  · obtain ⟨hlen, u, hu⟩ := exists_common hb hv hw
    rw [typing_of_common hlen hb hu]
    exact ⟨_, rfl⟩

theorem UnaryOp.typing_exact (op : UnaryOp) {t : Ty} {v : Value} (hv : v.HasTy t) :
    Exact (op.typing t) (op.apply v) := by
  refine .intro (fun ty hty => op.apply_typed hty hv) (fun w hw => ?_)
  cases op with
  | neg =>
    obtain ⟨a, ha, -⟩ := Except.bind_eq_ok.1 hw
    rw [Operand.eq_toValue_of_hasTy hv ha] at hv
    have hnumeric : t.isNumeric = true := bne_iff_ne.2 (Operand.ne_bool_of_hasTy hv)
    exact ⟨t, if_pos hnumeric⟩
  | not =>
    cases hv with
    | bool b => exact ⟨.bool, rfl⟩
    | num x => cases hw
    | vector hty hlen => cases hw

namespace BinaryOp

variable {op : BinaryOp} {l r : Ty} {v w u : Value}

theorem arithmetic_common {f : Float → Float → Float} (hv : v.HasTy l) (hw : w.HasTy r)
    (h : op.applyArithmetic f v w = .ok u) : ∃ common, Common [l, r] common := by
  obtain ⟨a, ha, hrest⟩ := Except.bind_eq_ok.1 h
  obtain ⟨b, hb, hresult⟩ := Except.bind_eq_ok.1 hrest
  obtain ⟨c, hc, -⟩ := Except.bind_eq_ok.1 hresult
  rw [Operand.eq_toValue_of_hasTy hv ha] at hv
  rw [Operand.eq_toValue_of_hasTy hw hb] at hw
  obtain ⟨common, hcommon, -⟩ := Operand.zip_common hv hw hc
  exact ⟨common, hcommon⟩

theorem ordering_floats {f : Float → Float → Bool} (hv : v.HasTy l) (hw : w.HasTy r)
    (h : op.applyOrdering f v w = .ok u) : l = .float ∧ r = .float := by
  cases hv with
  | num x =>
    cases hw with
    | num y => exact ⟨rfl, rfl⟩
    | bool b => cases h
    | vector hty hlen => cases h
  | bool b => cases h
  | vector hty hlen => cases h

theorem logic_bools {f : Bool → Bool → Bool} (hv : v.HasTy l) (hw : w.HasTy r)
    (h : op.applyLogic f v w = .ok u) : l = .bool ∧ r = .bool := by
  cases hv with
  | bool a =>
    cases hw with
    | bool b => exact ⟨rfl, rfl⟩
    | num x => cases h
    | vector hty hlen => cases h
  | num x => cases h
  | vector hty hlen => cases h

theorem typing_exact (heq : op ≠ .eq) (hne : op ≠ .ne) (hv : v.HasTy l) (hw : w.HasTy r) :
    Exact (op.typing l r) (op.apply v w) := by
  refine .intro (fun ty hty => op.apply_typed hty hv hw) (fun u hu => ?_)
  cases op with
  | add | sub | mul | div | mod =>
    obtain ⟨common, hcommon⟩ := arithmetic_common hv hw hu
    exact ⟨common, widest_eq_ok.2 hcommon⟩
  | lt | le | gt | ge => exact ⟨.bool, if_pos (ordering_floats hv hw hu)⟩
  | and | or => exact ⟨.bool, if_pos (logic_bools hv hw hu)⟩
  | eq => exact absurd rfl heq
  | ne => exact absurd rfl hne

end BinaryOp

/-- **The typing rules are exact for the kernels.** Take any values of shader types. The rule
of a builtin function that has a form in shader code accepts their types, however many there
are, exactly if the function has a result on them, and it gives the type of the result. So do
the rules of all operators but equality and its negation, which compare values of any types:
they give a boolean, of the type that their rule gives, wherever it accepts the types. -/
theorem kernels_exact :
    (∀ (b : Builtin) (vs : List Value) (types : List Ty), b ≠ .count →
      List.Forall₂ Value.HasTy vs types → Exact ((b.typing types).map Prod.fst) (b.apply vs)) ∧
    (∀ (op : UnaryOp) (v : Value) (t : Ty), v.HasTy t → Exact (op.typing t) (op.apply v)) ∧
    (∀ (op : BinaryOp) (v w : Value) (l r : Ty), v.HasTy l → w.HasTy r → op ≠ .eq → op ≠ .ne →
      Exact (op.typing l r) (op.apply v w)) ∧
    ∀ (op : BinaryOp) (v w : Value) (l r ty : Ty), v.HasTy l → w.HasTy r → op = .eq ∨ op = .ne →
      op.typing l r = .ok ty → ty = .bool ∧ ∃ b, op.apply v w = .ok (.bool b) := by
  refine ⟨fun b vs types hb hv => Builtin.typing_exact hb hv, fun op v t hv => op.typing_exact hv,
    fun op v w l r hv hw heq hne => BinaryOp.typing_exact heq hne hv hw, ?_⟩
  intro op v w l r ty hv hw hop hty
  have hresult : ∃ b, op.apply v w = .ok (.bool b) := by
    rcases hop with rfl | rfl <;> exact ⟨_, rfl⟩
  obtain ⟨b, hb⟩ := hresult
  obtain ⟨u, hu, hhas⟩ := op.apply_typed hty hv hw
  rw [hb] at hu
  cases hu
  cases hhas
  exact ⟨rfl, b, hb⟩

/-- A vector of two numbers is bounded by a number and by a vector like itself; with one of
three numbers it is not mixed, not even through a number. -/
theorem kernels_exact_lengths :
    List.Forall₂ Value.HasTy [.vector [3, 4], .num 0, .vector [1, 2]] [.vec2, .float, .vec2] ∧
    (∃ v, Builtin.clamp.apply [.vector [3, 4], .num 0, .vector [1, 2]] = .ok v ∧ v.HasTy .vec2) ∧
    List.Forall₂ Value.HasTy [.vector [3, 4], .vector [1, 2, 3], .num 0] [.vec2, .vec3, .float] ∧
    (Builtin.mix.apply [.vector [3, 4], .vector [1, 2, 3], .num 0]).isOk = false := by
  obtain ⟨hbuiltin, -⟩ := kernels_exact
  have hclamp : List.Forall₂ Value.HasTy [.vector [3, 4], .num 0, .vector [1, 2]] [.vec2, .float, .vec2] :=
    .cons (.vector rfl rfl) (.cons (.num 0) (.cons (.vector rfl rfl) .nil))
  have hmix : List.Forall₂ Value.HasTy [.vector [3, 4], .vector [1, 2, 3], .num 0] [.vec2, .vec3, .float] :=
    .cons (.vector rfl rfl) (.cons (.vector rfl rfl) (.cons (.num 0) .nil))
  have hexact := hbuiltin .clamp _ _ (by decide) hclamp
  obtain ⟨v, hv⟩ := Except.isOk_iff.1 (hexact.isOk_iff.1 rfl)
  refine ⟨hclamp, ⟨v, hv, hexact.hasTy .vec2 v rfl hv⟩, hmix, ?_⟩
  exact Bool.eq_false_iff.2 fun hok => Bool.false_ne_true ((hbuiltin .mix _ _ (by decide) hmix).isOk_iff.2 hok)

end DistanceField
