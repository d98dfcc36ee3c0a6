import DistanceField.Proofs.FragmentRuns
import DistanceField.Proofs.ScopedRuns
import Mathlib.Data.List.Forall2

/-!
# What typed values denote

A typed value denotes a value: its code has this value in every store that solves the
equations of the compiled statements. If the operands of a step denote values on which
evaluation takes the same step, then so does its result. The two can differ at an index
that is computed: evaluation fails if it is out of range, and then the code of an index
is among the statements.

* `Denotes`: a typed value and the value that it stands for.
* `Compile.builtin_denotes`, `Compile.element_denotes`, …: the steps that emit code.
-/

namespace DistanceField

open Shader

/-! ## Typed values and what they denote -/

/-- **The typed value denotes the value**: it has its type, and its code has this value
in the stores of `P`, or in all stores if it is a literal. -/
structure Denotes (P : Store → Prop) (t : Typed) (v : Value) : Prop where
  hasTy : v.HasTy t.ty
  eval : ∀ σ, t.code.isLiteral = true ∨ P σ → t.code.eval σ = .ok v

theorem Value.mapM_num?_eq_some {items : List Value} {xs : List Float}
    (h : items.mapM Value.num? = some xs) : items = xs.map Value.num := by
  induction items generalizing xs with
  | nil => cases h; rfl
  | cons v items ih =>
    rw [List.mapM_cons] at h
    obtain ⟨x, hx, h⟩ := Option.bind_eq_some_iff.1 h
    obtain ⟨ys, hys, h⟩ := Option.bind_eq_some_iff.1 h
    cases h
    cases v with
    | num y => cases hx; rw [List.map_cons, ih hys]
    | null => cases hx
    | bool => cases hx
    | str => cases hx
    | list => cases hx
    | record => cases hx
    | function => cases hx

theorem Value.vector?_eq_some {v : Value} {xs : List Float} (h : v.vector? = some xs) :
    v = .vector xs := by
  cases v with
  | list items => exact congrArg Value.list (Value.mapM_num?_eq_some h)
  | null => cases h
  | bool => cases h
  | num => cases h
  | str => cases h
  | record => cases h
  | function => cases h

/-- Code that is widened to a type has the value that is widened to it. -/
theorem Shader.Typed.eval_widenTo {t : Typed} {v : Value} {σ : Store} (hv : v.HasTy t.ty)
    (heval : t.code.eval σ = .ok v) (ty : Ty) : (t.widenTo ty).eval σ = .ok (v.widenTo ty) := by
  unfold Typed.widenTo
  split
  · next hcond =>
    simp only [Bool.and_eq_true, beq_iff_eq] at hcond
    obtain ⟨x, rfl⟩ := (hcond.2 ▸ hv : v.HasTy .float).eq_num
    simp only [eval_construct_one heval, Value.widenTo, hcond.1, if_true]
  · next hcond =>
    rw [heval]
    cases hty : ty.isVector with
    | false => rw [Value.widenTo_of_not_isVector hty]
    | true =>
      have hfloat : t.ty ≠ .float := by simpa [hty] using hcond
      generalize t.ty = u at hv hfloat
      cases hv with
      | bool b => rfl
      | num x => exact absurd rfl hfloat
      | vector _ _ => rfl

theorem evalCodes_widenTo {args : List Typed} {vs : List Value} {σ : Store}
    (h : List.Forall₂ (fun t v => v.HasTy t.ty ∧ t.code.eval σ = .ok v) args vs) (ty : Ty) :
    evalCodes σ (args.map (·.widenTo ty)) = .ok (vs.map (·.widenTo ty)) := by
  induction h with
  | nil => rfl
  | cons ha _ ih =>
    rw [List.map_cons, evalCodes, Typed.eval_widenTo ha.1 ha.2, Except.ok_bind, ih]
    rfl

namespace Denotes

variable {P : Store → Prop} {t : Typed} {v : Value}

/-- The literal form of a value denotes it. -/
theorem of_literal (h : Typed.ofValue? v = some t) : Denotes P t v := by
  unfold Typed.ofValue? at h
  split at h
  · cases h; exact ⟨.num _, fun σ _ => rfl⟩
  · cases h; exact ⟨.bool _, fun σ _ => rfl⟩
  · obtain ⟨xs, hxs, h⟩ := Option.bind_eq_some_iff.1 h
    obtain ⟨ty, hty, h⟩ := Option.bind_eq_some_iff.1 h
    cases h
    obtain rfl := Value.vector?_eq_some hxs
    obtain ⟨hvec, hlen⟩ := Ty.vector?_eq_some hty
    exact ⟨.vector hvec hlen, fun σ _ => eval_construct_num hvec hlen⟩

/-- The input denotes the point. -/
theorem input {name : String} {x y : Float}
    (h : ∀ σ, P σ → σ.lookup name = some (.vector [x, y])) :
    Denotes P (.input .vec2 name) (.vector [x, y]) := by
  refine ⟨.vector rfl rfl, fun σ hσ => ?_⟩
  rcases hσ with hlit | hσ
  · cases hlit
  · rw [Typed.input, Code.eval, h σ hσ]

theorem eq_of_code_num {n : Float} (h : Denotes P t v) (hcode : t.code = .num n) : v = .num n := by
  have heval := h.eval [] (.inl (by rw [hcode]; rfl))
  rw [hcode] at heval
  exact (Except.ok.inj heval).symm

theorem eq_of_code_bool {b : Bool} (h : Denotes P t v) (hcode : t.code = .bool b) : v = .bool b := by
  have heval := h.eval [] (.inl (by rw [hcode]; rfl))
  rw [hcode] at heval
  exact (Except.ok.inj heval).symm

theorem eval_widenTo (h : Denotes P t v) (ty : Ty) {σ : Store} (hσ : P σ) :
    (t.widenTo ty).eval σ = .ok (v.widenTo ty) :=
  Typed.eval_widenTo h.hasTy (h.eval σ (.inr hσ)) ty

end Denotes

/-- Evaluation fails only because an index is out of range, and only if the code of an
index is among the statements. -/
def RangeFailure (L : List Statement) (e : Failure EvalError) : Prop :=
  (∃ s ∈ L, s.code.isIndex = true) ∧ Failure.OutOfRange EvalError.fault e

/-- An index in the code is one that evaluation accepts: it finds an element there. -/
def Shader.Code.InRange (σ : Store) : Code → Prop
  | .index target place =>
    ∃ v i w, target.eval σ = .ok v ∧ place.eval σ = .ok i ∧ v.index i = .ok w
  | _ => True

/-- Evaluation fails only because an index is out of range, and only if the code of this
index is among the statements. -/
def IndexFailure (P : Store → Prop) (L : List Statement) (e : Failure EvalError) : Prop :=
  (∃ s ∈ L, s.code.isIndex = true ∧ ∀ σ, P σ → ¬ s.code.InRange σ) ∧
    Failure.OutOfRange EvalError.fault e

theorem IndexFailure.rangeFailure {P : Store → Prop} {L : List Statement} {e : Failure EvalError}
    (h : IndexFailure P L e) : RangeFailure L e := by
  obtain ⟨⟨s, hs, hindex, -⟩, hrange⟩ := h
  exact ⟨⟨s, hs, hindex⟩, hrange⟩

/-! ## Steps that emit code -/

section

variable {P : Store → Prop} {L : List Statement} (hP : ∀ σ, P σ → σ.Solves L)
  {chain : Chain} {pos : Pos} {d d' : Draft} {t : Typed} {fr : Frame}

include hP in
/-- A new variable denotes the only value that its code can have. -/
theorem Compile.emit_denotes {ty : Ty} {code : Code} (h : Compile.emit ty code d = .ok t d')
    (hL : d'.emission.statements ⊆ L) {v : Value} (hv : v.HasTy ty)
    (hcode : ∀ σ, P σ → ∀ w, code.eval σ = .ok w → w = v) : Denotes P t v := by
  obtain ⟨rfl, rfl⟩ := Compile.emit_eq_ok.1 h
  refine ⟨hv, fun σ hσ => ?_⟩
  rcases hσ with hlit | hσ
  · cases hlit
  · have hmem : (⟨Emission.nameOf d.emission.nextName, ty, code⟩ : Statement) ∈ L :=
      hL (List.mem_append_right _ (List.mem_singleton_self _))
    obtain ⟨w, hw, hlookup⟩ := hP σ hσ _ hmem
    rw [Code.eval, hlookup, hcode σ hσ w hw]

include hP in
theorem Compile.unary_denotes {op : UnaryOp} {u : Typed} {ty : Ty} {v : Value} (hv : Denotes P u v)
    (hty : op.typing u.ty = .ok ty) (h : Compile.emit ty (.unary op u.code) d = .ok t d')
    (hL : d'.emission.statements ⊆ L) :
    Ends (IndexFailure P L) (Denotes P t) (fr.locate pos (op.apply v)) := by
  obtain ⟨w, hw, hwt⟩ := UnaryOp.apply_typed hty hv.hasTy
  rw [hw]
  refine Compile.emit_denotes hP h hL hwt fun σ hσ r hr => ?_
  rw [Code.eval, hv.eval σ (.inr hσ), Except.ok_bind, hw] at hr
  exact (Except.ok.inj hr).symm

include hP in
theorem Compile.component_denotes {u : Typed} {name : String} {v : Value} (hv : Denotes P u v)
    (h : Compile.component chain pos u name d = .ok t d') (hL : d'.emission.statements ⊆ L) :
    Ends (IndexFailure P L) (Denotes P t) (fr.locate pos (v.field name)) := by
  obtain ⟨hvec, i, hi, hlt, h⟩ := Compile.component_eq_ok h
  obtain ⟨xs, rfl, hlen⟩ := hv.hasTy.eq_vector hvec
  have hlt' : i < xs.length := hlen ▸ hlt
  have hfield : (Value.vector xs).field name = .ok (.num xs[i]) := by
    simp only [Value.field, Value.vector, hi, List.getElem?_map, List.getElem?_eq_getElem hlt',
      Option.map_some]
  rw [hfield]
  refine Compile.emit_denotes hP h hL (.num _) fun σ hσ r hr => ?_
  rw [Code.eval, hv.eval σ (.inr hσ), Except.ok_bind, elementAt_vector hlt'] at hr
  exact (Except.ok.inj hr).symm

theorem evalCodes_denotes {args : List Typed} {vs : List Value} (h : List.Forall₂ (Denotes P) args vs)
    {σ : Store} (hσ : P σ) : evalCodes σ (args.map Typed.code) = .ok vs := by
  induction h with
  | nil => rfl
  | cons ha _ ih =>
    rw [List.map_cons, evalCodes, ha.eval σ (.inr hσ), Except.ok_bind, ih]
    rfl

theorem evalCodes_widened {args : List Typed} {vs : List Value} (h : List.Forall₂ (Denotes P) args vs)
    (ty : Ty) {σ : Store} (hσ : P σ) :
    evalCodes σ (args.map (·.widenTo ty)) = .ok (vs.map (·.widenTo ty)) := by
  refine evalCodes_widenTo (h.imp ?_) ty
  intro t v ht
  exact ⟨ht.hasTy, ht.eval σ (.inr hσ)⟩

theorem hasTy_of_denotes {args : List Typed} {vs : List Value} (h : List.Forall₂ (Denotes P) args vs) :
    List.Forall₂ Value.HasTy vs (args.map Typed.ty) := by
  induction h with
  | nil => exact .nil
  | cons ha _ ih => exact .cons ha.hasTy ih

include hP in
theorem Compile.builtin_denotes {b : Builtin} {args : List Typed} {vs : List Value}
    (hvs : List.Forall₂ (Denotes P) args vs) (h : Compile.builtin chain pos b args d = .ok t d')
    (hL : d'.emission.statements ⊆ L) :
    Ends (IndexFailure P L) (Denotes P t) (fr.locate pos (b.apply vs)) := by
  obtain ⟨ty, promote, hty, h⟩ := Compile.builtin_eq_ok h
  obtain ⟨w, hw, hwt, hwide⟩ := Builtin.apply_typed hty (hasTy_of_denotes hvs)
  rw [hw]
  refine Compile.emit_denotes hP h hL hwt fun σ hσ r hr => ?_
  cases promote with
  | none =>
    rw [Code.eval, Compile.widenedCodes, evalCodes_denotes hvs hσ, Except.ok_bind, hw] at hr
    exact (Except.ok.inj hr).symm
  | some wide =>
    rw [Code.eval, Compile.widenedCodes, evalCodes_widened hvs wide hσ, Except.ok_bind,
      hwide wide rfl] at hr
    exact (Except.ok.inj hr).symm

include hP in
theorem Compile.binary_denotes {op : BinaryOp} {l r : Typed} {v w : Value} (hv : Denotes P l v)
    (hw : Denotes P r w) (h : Compile.binary chain pos op l r d = .ok t d')
    (hL : d'.emission.statements ⊆ L) :
    Ends (IndexFailure P L) (Denotes P t) (fr.locate pos (op.apply v w)) := by
  obtain ⟨ty, hty, hop⟩ := Compile.binary_eq_ok h
  obtain ⟨u, hu, hut⟩ := BinaryOp.apply_typed hty hv.hasTy hw.hasTy
  rw [hu]
  rcases hop with ⟨rfl, hemit⟩ | ⟨-, hemit⟩
  · -- the remainder becomes a call, whose floats are widened
    refine Compile.emit_denotes hP hemit hL hut fun σ hσ z hz => ?_
    simp only [Code.eval, evalCodes, hv.eval_widenTo ty hσ, hw.eval_widenTo ty hσ,
      Except.ok_bind] at hz
    have hmod := (Builtin.mod_widened hty hv.hasTy hw.hasTy).trans hu
    exact (Except.ok.inj ((congrArg reported hmod).symm.trans hz)).symm
  · refine Compile.emit_denotes hP hemit hL hut fun σ hσ z hz => ?_
    rw [Code.eval, hv.eval σ (.inr hσ), Except.ok_bind, hw.eval σ (.inr hσ), Except.ok_bind, hu] at hz
    exact (Except.ok.inj hz).symm

/-! ### Conditions -/

theorem BinaryOp.typing_of_decisive? {op : BinaryOp} {b : Bool} (hop : op.decisive? = some b)
    {l r ty : Ty} (h : op.typing l r = .ok ty) : l = .bool ∧ r = .bool ∧ ty = .bool ∧ op ≠ .mod := by
  cases op with
  | and | or =>
    simp only [BinaryOp.typing] at h
    split at h
    · next hlr => cases h; exact ⟨hlr.1, hlr.2, rfl, by decide⟩
    · cases h
  | _ => cases hop

theorem BinaryOp.apply_decisive {op : BinaryOp} {b : Bool} (hop : op.decisive? = some b)
    {v w : Value} (h : op.apply (.bool b) v = .ok w) : w = .bool b := by
  cases op with
  | and | or =>
    cases hop
    cases v with
    | bool c => cases h; rfl
    | _ => cases h
  | _ => cases hop

theorem BinaryOp.apply_not_decisive {op : BinaryOp} {b c : Bool} (hop : op.decisive? = some b)
    (hc : c ≠ b) (e : Bool) : op.apply (.bool c) (.bool e) = .ok (.bool e) := by
  cases op with
  | and | or => cases hop; cases c <;> first | rfl | exact absurd rfl hc
  | _ => cases hop

include hP in
/-- The first operand decides. The code evaluates the second one too, and does not fail. -/
theorem Compile.decided_denotes {op : BinaryOp} {b : Bool} (hop : op.decisive? = some b) {l r : Typed}
    (hv : Denotes P l (.bool b)) (h : Compile.binary chain pos op l r d = .ok t d')
    (hL : d'.emission.statements ⊆ L) : Denotes P t (.bool b) := by
  obtain ⟨ty, hty, hcases⟩ := Compile.binary_eq_ok h
  obtain ⟨-, -, rfl, hmod⟩ := BinaryOp.typing_of_decisive? hop hty
  rcases hcases with ⟨heq, -⟩ | ⟨-, hemit⟩
  · exact absurd heq hmod
  · refine Compile.emit_denotes hP hemit hL (.bool b) fun σ hσ z hz => ?_
    rw [Code.eval, hv.eval σ (.inr hσ), Except.ok_bind] at hz
    obtain ⟨w, -, hz⟩ := Except.bind_eq_ok.1 hz
    cases happly : op.apply (.bool b) w with
    | error f => rw [happly] at hz; cases hz
    | ok u =>
      rw [happly] at hz
      cases hz
      exact BinaryOp.apply_decisive hop happly

include hP in
/-- A selection has the value of the branch that is taken. -/
theorem Compile.select_denotes {c a b : Typed} {test : Bool} {v : Value}
    (hc : Denotes P c (.bool test)) (hv : Denotes P (if test then a else b) v) (hty : a.ty = b.ty)
    (h : Compile.emit a.ty (.select c.code a.code b.code) d = .ok t d')
    (hL : d'.emission.statements ⊆ L) : Denotes P t v := by
  have hvt : v.HasTy a.ty := by
    cases test with
    | true => exact hv.hasTy
    | false => exact hty ▸ hv.hasTy
  refine Compile.emit_denotes hP h hL hvt fun σ hσ z hz => ?_
  have hbranch := hv.eval σ (.inr hσ)
  rw [Code.eval, hc.eval σ (.inr hσ), Except.ok_bind] at hz
  cases test with
  | true => exact (Except.ok.inj (hbranch.symm.trans hz)).symm
  | false => exact (Except.ok.inj (hbranch.symm.trans hz)).symm

/-! ### Vectors and their elements -/

theorem evalParts_denotes {ty : Ty} {codes : List Code} {xs : List Float}
    (h : List.Forall₂ (fun c x => Denotes P ⟨.float, c⟩ (.num x)) codes xs) {σ : Store}
    (hσ : (∀ c ∈ codes, c.isLiteral = true) ∨ P σ) : evalParts σ ty codes = .ok xs := by
  induction h with
  | nil => rfl
  | cons hc _ ih =>
    have hhead := hc.eval σ (hσ.imp_left fun hlit => hlit _ List.mem_cons_self)
    have htail := ih (hσ.imp_left fun hlit c hc => hlit c (List.mem_cons_of_mem _ hc))
    rw [evalParts, hhead, Except.ok_bind, partsOf, Except.ok_bind, htail]
    rfl

theorem numbers_of_denotes {codes : List Code} {vs : List Value}
    (h : List.Forall₂ (fun c v => Denotes P ⟨.float, c⟩ v) codes vs) :
    ∃ xs, vs = xs.map Value.num ∧
      List.Forall₂ (fun c x => Denotes P ⟨.float, c⟩ (.num x)) codes xs := by
  induction h with
  | nil => exact ⟨[], rfl, .nil⟩
  | cons hc _ ih =>
    obtain ⟨x, rfl⟩ := hc.hasTy.eq_num
    obtain ⟨xs, rfl, hxs⟩ := ih
    exact ⟨x :: xs, rfl, .cons hc hxs⟩

include hP in
theorem Compile.vector_denotes {ty : Ty} {codes : List Code} {vs : List Value}
    (hvs : List.Forall₂ (fun c v => Denotes P ⟨.float, c⟩ v) codes vs)
    (hty : Ty.vector? codes.length = some ty) (h : Compile.vector ty codes d = .ok t d')
    (hL : d'.emission.statements ⊆ L) : Denotes P t (.list vs) := by
  obtain ⟨xs, rfl, hxs⟩ := numbers_of_denotes hvs
  obtain ⟨hvec, hcount⟩ := Ty.vector?_eq_some hty
  have hlen : xs.length = ty.count := hxs.length_eq.symm.trans hcount
  have heval : ∀ σ, (∀ c ∈ codes, c.isLiteral = true) ∨ P σ →
      (Code.construct ty codes).eval σ = .ok (.vector xs) := by
    intro σ hσ
    rw [Code.eval, evalParts_denotes hxs hσ, Except.ok_bind, vectorOf_eq hvec hlen]
    rfl
  rcases Compile.vector_eq_ok h with ⟨hlit, rfl, rfl⟩ | ⟨-, hemit⟩
  · exact ⟨.vector hvec hlen, fun σ _ => heval σ (.inl (Code.allLiteral_iff.1 hlit))⟩
  · refine Compile.emit_denotes hP hemit hL (.vector hvec hlen) fun σ hσ z hz => ?_
    exact (Except.ok.inj ((heval σ (.inr hσ)).symm.trans hz)).symm

theorem Value.index_vector {n : Float} {xs : List Float} {k : Nat}
    (h : Scalar.index? n xs.length = some k) (hk : k < xs.length) :
    (Value.vector xs).index (.num n) = .ok (.num xs[k]) := by
  simp only [Value.index, Value.vector, List.length_map, h, Option.bind_some, List.getElem?_map,
    List.getElem?_eq_getElem hk, Option.map_some]

/-- An index that is in range is whole, so truncation leaves it as it is. -/
theorem elementAtNumber_of_index? {n : Float} {xs : List Float} {k : Nat}
    (h : Scalar.index? n xs.length = some k) (hk : k < xs.length) :
    elementAtNumber (.vector xs) n = .ok (.num xs[k]) := by
  unfold Scalar.index? at h
  split at h
  · next hwhole =>
    have hpos := (Option.filter_eq_some_iff.1 h).1
    simp only [elementAtNumber, Value.vector, Scalar.truncate_of_isWhole hwhole, hpos,
      Option.bind_some, List.getElem?_map, List.getElem?_eq_getElem hk, Option.map_some]
  · cases h

include hP in
theorem Compile.element_denotes {u i : Typed} {v w : Value} (hv : Denotes P u v) (hw : Denotes P i w)
    (h : Compile.element chain pos u i d = .ok t d') (hL : d'.emission.statements ⊆ L) :
    Ends (IndexFailure P L) (Denotes P t) (fr.locate pos (v.index w)) := by
  obtain ⟨hvec, hfloat, hcases⟩ := Compile.element_eq_ok h
  obtain ⟨xs, rfl, hlen⟩ := hv.hasTy.eq_vector hvec
  obtain ⟨n, rfl⟩ := (hfloat ▸ hw.hasTy : w.HasTy .float).eq_num
  rcases hcases with ⟨m, k, hcode, hk, hemit⟩ | ⟨-, hemit⟩
  · obtain rfl : n = m := Value.num.inj (hw.eq_of_code_num hcode)
    have hlt : k < xs.length := hlen ▸ Scalar.index?_lt hk
    rw [Value.index_vector (hlen ▸ hk) hlt]
    refine Compile.emit_denotes hP hemit hL (.num _) fun σ hσ z hz => ?_
    rw [Code.eval, hv.eval σ (.inr hσ), Except.ok_bind, elementAt_vector hlt] at hz
    exact (Except.ok.inj hz).symm
  · cases hk : Scalar.index? n xs.length with
    | some k =>
      have hlt := Scalar.index?_lt hk
      rw [Value.index_vector hk hlt]
      refine Compile.emit_denotes hP hemit hL (.num _) fun σ hσ z hz => ?_
      simp only [Code.eval, hw.eval σ (.inr hσ), Except.ok_bind, Value.num?, hv.eval σ (.inr hσ),
        elementAtNumber_of_index? hk hlt] at hz
      exact (Except.ok.inj hz).symm
    | none =>
      have hindex : (Value.vector xs).index (.num n) = .error (.indexRange n xs.length) := by
        simp only [Value.index, Value.vector, List.length_map, hk, Option.bind_none]
      obtain ⟨rfl, rfl⟩ := Compile.emit_eq_ok.1 hemit
      rw [hindex]
      refine ⟨⟨_, hL (List.mem_append_right _ (List.mem_singleton_self _)), rfl, fun σ hσ hin => ?_⟩, rfl⟩
      obtain ⟨v, j, r, hv', hj, hr⟩ := hin
      rw [hv.eval σ (.inr hσ)] at hv'
      rw [hw.eval σ (.inr hσ)] at hj
      cases hv'
      cases hj
      rw [hindex] at hr
      cases hr

end

end DistanceField
