import DistanceField.Proofs.StraightLine

/-!
# Runs of straight-line code

Straight-line code over an input of the declared type runs without type errors: every
statement gives its variable a value of the declared type. The only fault it can make is
an index that is out of range. After a whole run each variable holds what its code gives.

* `Store.Types`: variables hold values of their declared types.
* `Code.IsFlat.eval_ends`, `runStatements_types`: flat code and statements are type safe.
* `runStatements_solves`: the variables after a run solve the equations of the code.
-/

namespace DistanceField

open Shader

namespace Scalar

open Float.Model.UnpackedFloat in
theorem eq_packedNaN_of_isNaN {format : Float.Model.Format} {b : BitVec format.numBits} (hvalid : format.Valid b)
    (h : (unpack format b).isNaN = true) : b = packedNaN format := by
  delta unpack at h
  dsimp only at h
  by_cases hexponent : unpackExponent b = -1#_
  · rw [if_pos hexponent] at h
    refine hvalid.eq_packedNaN hexponent fun hmantissa => ?_
    rw [if_pos hmantissa] at h
    cases h
  · rw [if_neg hexponent] at h
    by_cases hzero : unpackExponent b = 0#_
    · rw [if_pos hzero] at h
      by_cases hmantissa : unpackMantissa b = 0#_
      · rw [dif_pos hmantissa] at h
        cases h
      · rw [dif_neg hmantissa] at h
        cases h
    · rw [if_neg hzero] at h
      cases h

/-- There is one NaN. -/
theorem eq_nan_of_isNaN {x : Float} (h : x.isNaN = true) : x = 0 / 0 := by
  have hbits := eq_packedNaN_of_isNaN x.toModel.valid h
  have hnan := eq_packedNaN_of_isNaN (0 / 0 : Float).toModel.valid (by decide +kernel)
  obtain ⟨⟨bits, hvalid⟩⟩ := x
  have heq : bits = (0 / 0 : Float).toModel.toBits := UInt64.toBitVec_inj.1 (hbits.trans hnan.symm)
  subst heq
  rfl

theorem position?_truncate_of_isNaN {x : Float} (h : x.isNaN = true) :
    position? (truncate x) = some 0 := by
  rw [eq_nan_of_isNaN h]
  decide +kernel

end Scalar

/-- The failure is reported, as an index that is out of range. -/
def Failure.OutOfRange {ε : Type} (fault : ε → Fault) : Failure ε → Prop
  | .report e => (fault e).kind = .outOfRange
  | .outOfBounds => False

namespace Shader

/-- **The variables hold values of the types that they are declared with.** -/
def Store.Types (σ : Store) (Γ : Declared) : Prop :=
  ∀ x ty, (x, ty) ∈ Γ → ∃ v, σ.lookup x = some v ∧ v.HasTy ty

/-- The place of a component is computed where the code runs. -/
def Code.isIndex : Code → Bool
  | .index _ _ => true
  | _ => false

/-! ## Atoms -/

variable {σ : Store} {Γ : Declared}

-- The lemmas below all open the evaluator: its equations are made here, once for all of them.
attribute [local simp] Code.eval evalCodes evalParts

theorem evalParts_num (σ : Store) (ty : Ty) (xs : List Float) :
    evalParts σ ty (xs.map Code.num) = .ok xs := by
  induction xs with
  | nil => rfl
  | cons x xs ih =>
    simp only [List.map_cons, evalParts, Code.eval, partsOf, Except.ok_bind, ih]
    rfl

theorem vectorOf_eq {ty : Ty} {xs : List Float} (hty : ty.isVector = true)
    (hlen : xs.length = ty.count) : vectorOf ty xs = .vector xs := by
  unfold vectorOf
  split
  · next x =>
    have hone : 1 = ty.count := hlen
    rw [Ty.isVector, ← hone] at hty
    cases hty
  · rfl

theorem eval_construct_num {ty : Ty} {xs : List Float} (hty : ty.isVector = true)
    (hlen : xs.length = ty.count) :
    (Code.construct ty (xs.map .num)).eval σ = .ok (.vector xs) := by
  rw [Code.eval, evalParts_num, Except.ok_bind, vectorOf_eq hty hlen]
  rfl

theorem Code.IsAtom.eval_typed {c : Code} {ty : Ty} (h : c.IsAtom Γ ty) (hσ : σ.Types Γ) :
    ∃ v, c.eval σ = .ok v ∧ v.HasTy ty := by
  cases h with
  | var hx =>
    obtain ⟨v, hv, hty⟩ := hσ _ _ hx
    exact ⟨v, by rw [Code.eval, hv], hty⟩
  | num x => exact ⟨_, rfl, .num x⟩
  | bool b => exact ⟨_, rfl, .bool b⟩
  | vector hty hlen => exact ⟨_, eval_construct_num hty hlen, .vector hty hlen⟩

/-- A float that is widened to a vector. -/
theorem eval_construct_one {c : Code} {x : Float} (h : c.eval σ = .ok (.num x)) (ty : Ty) :
    (Code.construct ty [c]).eval σ = .ok (.vector (List.replicate ty.count x)) := by
  simp only [Code.eval, evalParts, h, partsOf, Except.ok_bind]
  rfl

theorem Code.IsArgument.eval_typed {c : Code} {ty : Ty} (h : c.IsArgument Γ ty) (hσ : σ.Types Γ) :
    ∃ v, c.eval σ = .ok v ∧ v.HasTy ty := by
  cases h with
  | atom ha => exact ha.eval_typed hσ
  | widened ha hty =>
    obtain ⟨v, hv, hfloat⟩ := ha.eval_typed hσ
    obtain ⟨x, rfl⟩ := hfloat.eq_num
    exact ⟨_, eval_construct_one hv ty, .vector hty (List.length_replicate ..)⟩

theorem evalCodes_typed {args : List Code} {types : List Ty}
    (h : List.Forall₂ (Code.IsArgument Γ) args types) (hσ : σ.Types Γ) :
    ∃ vs, evalCodes σ args = .ok vs ∧ List.Forall₂ Value.HasTy vs types := by
  induction h with
  | nil => exact ⟨[], rfl, .nil⟩
  | cons hc _ ih =>
    obtain ⟨v, hv, hty⟩ := hc.eval_typed hσ
    obtain ⟨vs, hvs, htys⟩ := ih
    exact ⟨v :: vs, by rw [evalCodes, hv, hvs]; rfl, .cons hty htys⟩

theorem evalParts_typed {ty : Ty} {parts : List Code} (h : ∀ c ∈ parts, c.IsAtom Γ .float)
    (hσ : σ.Types Γ) : ∃ xs, evalParts σ ty parts = .ok xs ∧ xs.length = parts.length := by
  induction parts with
  | nil => exact ⟨[], rfl, rfl⟩
  | cons c cs ih =>
    obtain ⟨v, hv, hty⟩ := (h c List.mem_cons_self).eval_typed hσ
    obtain ⟨x, rfl⟩ := hty.eq_num
    obtain ⟨xs, hxs, hlen⟩ := ih fun c hc => h c (List.mem_cons_of_mem _ hc)
    exact ⟨x :: xs, by rw [evalParts, hv, Except.ok_bind, partsOf, Except.ok_bind, hxs]; rfl,
      congrArg Nat.succ hlen⟩

/-! ## Flat code -/

theorem elementAt_vector {xs : List Float} {i : Nat} (h : i < xs.length) :
    elementAt (.vector xs) i = .ok (.num xs[i]) := by
  unfold elementAt Value.vector
  simp only [List.getElem?_map, List.getElem?_eq_getElem h, Option.map_some]

/-- NaN is the first place, which every vector has. So the bounds of a vector are checked
wherever they are crossed. -/
theorem elementAtNumber_vector {ty : Ty} {xs : List Float} (hty : ty.isVector = true)
    (hlen : xs.length = ty.count) (n : Float) :
    Ends (Failure.OutOfRange id) (Value.HasTy · .float) (elementAtNumber (.vector xs) n) := by
  unfold elementAtNumber Value.vector
  dsimp only
  split
  · next w hw =>
    obtain ⟨i, -, hi⟩ := Option.bind_eq_some_iff.1 hw
    obtain ⟨x, -, rfl⟩ := List.mem_map.1 (List.mem_of_getElem? hi)
    exact .num x
  · next hnone =>
    split
    · next hnan =>
      have hpos : 0 < xs.length := by
        have : 1 < ty.count := of_decide_eq_true hty
        omega
      rw [Scalar.position?_truncate_of_isNaN hnan, Option.bind_some, List.getElem?_map,
        List.getElem?_eq_getElem hpos] at hnone
      cases hnone
    · rfl

/-- **Flat code is type safe.** It has a value of its type, or it is an index that is out
of range. -/
theorem Code.IsFlat.eval_ends {c : Code} {ty : Ty} (h : c.IsFlat Γ ty) (hσ : σ.Types Γ) :
    Ends (fun e => c.isIndex = true ∧ Failure.OutOfRange id e) (Value.HasTy · ty) (c.eval σ) := by
  cases h with
  | unary ha hty =>
    obtain ⟨v, hv, hvt⟩ := ha.eval_typed hσ
    obtain ⟨w, hw, hwt⟩ := UnaryOp.apply_typed hty hvt
    rw [Code.eval, hv, Except.ok_bind, hw]
    exact hwt
  | binary _ hl hr hty =>
    obtain ⟨v, hv, hvt⟩ := hl.eval_typed hσ
    obtain ⟨w, hw, hwt⟩ := hr.eval_typed hσ
    obtain ⟨u, hu, hut⟩ := BinaryOp.apply_typed hty hvt hwt
    rw [Code.eval, hv, Except.ok_bind, hw, Except.ok_bind, hu]
    exact hut
  | call hargs hty =>
    obtain ⟨vs, hvs, htys⟩ := evalCodes_typed hargs hσ
    obtain ⟨w, hw, hwt, -⟩ := Builtin.apply_typed hty htys
    rw [Code.eval, hvs, Except.ok_bind, hw]
    exact hwt
  | select hc ha hb =>
    obtain ⟨v, hv, hvt⟩ := hc.eval_typed hσ
    obtain ⟨t, rfl⟩ := hvt.eq_bool
    rw [Code.eval, hv, Except.ok_bind]
    cases t with
    | true =>
      obtain ⟨w, hw, hwt⟩ := ha.eval_typed hσ
      simp only [Value.condition, reported, Except.ok_bind, if_true, hw]
      exact hwt
    | false =>
      obtain ⟨w, hw, hwt⟩ := hb.eval_typed hσ
      simp only [Value.condition, reported, Except.ok_bind, Bool.false_eq_true, if_false, hw]
      exact hwt
  | component ha hty hi =>
    obtain ⟨v, hv, hvt⟩ := ha.eval_typed hσ
    obtain ⟨xs, rfl, hlen⟩ := hvt.eq_vector hty
    rw [Code.eval, hv, Except.ok_bind, elementAt_vector (hlen ▸ hi)]
    exact .num _
  | index ha hty hi =>
    obtain ⟨v, hv, hvt⟩ := ha.eval_typed hσ
    obtain ⟨w, hw, hwt⟩ := hi.eval_typed hσ
    obtain ⟨xs, rfl, hlen⟩ := hvt.eq_vector hty
    obtain ⟨n, rfl⟩ := hwt.eq_num
    simp only [Code.eval, hw, Except.ok_bind, Value.num?, hv]
    -- the one kind of flat code that can fail
    have helem := elementAtNumber_vector hty hlen n
    cases hx : elementAtNumber (.vector xs) n with
    | ok u => rw [hx] at helem; exact helem
    | error e => rw [hx] at helem; exact ⟨rfl, helem⟩
  | construct hty hlen hparts =>
    obtain ⟨xs, hxs, hxlen⟩ := evalParts_typed hparts hσ
    rw [Code.eval, hxs, Except.ok_bind, vectorOf_eq hty (hxlen.trans hlen)]
    exact .vector hty (hxlen.trans hlen)

/-! ## Statements -/

theorem lookup_assign_self (σ : Store) (x : String) (v : Value) : (σ.assign x v).lookup x = some v := by
  simp [Store.assign]

theorem lookup_assign_of_ne {x y : String} (h : y ≠ x) (σ : Store) (v : Value) :
    (σ.assign x v).lookup y = σ.lookup y := by
  simp [Store.assign, List.lookup_cons, beq_false_of_ne h]

theorem Store.Types.assign (hσ : σ.Types Γ) {s : Statement} (hfresh : s.name ∉ Γ.map Prod.fst)
    {v : Value} (hv : v.HasTy s.ty) : (σ.assign s.name v).Types (Γ ++ [s.declared]) := by
  intro x ty hx
  rcases List.mem_append.1 hx with hx | hx
  · have hne : x ≠ s.name := by
      rintro rfl
      exact hfresh (List.mem_map.2 ⟨_, hx, rfl⟩)
    rw [lookup_assign_of_ne hne]
    exact hσ x ty hx
  · obtain ⟨rfl, rfl⟩ := Prod.mk.inj (List.mem_singleton.1 hx)
    exact ⟨v, lookup_assign_self .., hv⟩

/-- The names that the statements give are new and different. -/
def Fresh (Γ : Declared) (ss : List Statement) : Prop :=
  (Γ.map Prod.fst ++ ss.map Statement.name).Nodup

theorem Fresh.head {s : Statement} {ss : List Statement} (h : Fresh Γ (s :: ss)) :
    s.name ∉ Γ.map Prod.fst := by
  intro hmem
  exact (List.nodup_append.1 h).2.2 _ hmem _ List.mem_cons_self rfl

theorem Fresh.tail {s : Statement} {ss : List Statement} (h : Fresh Γ (s :: ss)) :
    Fresh (Γ ++ [s.declared]) ss := by
  simpa [Fresh, Statement.declared] using h

/-- **Statements are type safe.** They run to the end and give every variable a value of
its declared type, or an index among them is out of range. -/
theorem runStatements_types {ss : List Statement} (h : StraightLine Γ ss) (hfresh : Fresh Γ ss)
    (hσ : σ.Types Γ) :
    match runStatements ss σ with
    | .ok _ σ' => σ'.Types (Γ ++ ss.map Statement.declared)
    | .error e _ => (∃ s ∈ ss, s.code.isIndex = true) ∧ Failure.OutOfRange id e := by
  induction ss generalizing σ Γ with
  | nil => simpa [runStatements] using hσ
  | cons s ss ih =>
    have hcode := h.1.eval_ends hσ
    unfold runStatements
    cases hv : s.code.eval σ with
    | error e =>
      rw [hv] at hcode
      exact ⟨⟨s, List.mem_cons_self, hcode.1⟩, hcode.2⟩
    | ok v =>
      rw [hv] at hcode
      have hrest := ih h.2 hfresh.tail (hσ.assign hfresh.head hcode)
      dsimp only
      cases hrun : runStatements ss (σ.assign s.name v) with
      | ok u σ' =>
        rw [hrun] at hrest
        simpa using hrest
      | error e σ' =>
        rw [hrun] at hrest
        obtain ⟨⟨t, ht, hindex⟩, hrange⟩ := hrest
        exact ⟨⟨t, List.mem_cons_of_mem _ ht, hindex⟩, hrange⟩

/-! ## Equations after a run -/

theorem evalCodes_congr {σ τ : Store} {cs : List Code} (h : ∀ c ∈ cs, c.eval σ = c.eval τ) :
    evalCodes σ cs = evalCodes τ cs := by
  induction cs with
  | nil => rfl
  | cons c cs ih =>
    rw [evalCodes, evalCodes, h c List.mem_cons_self, ih fun d hd => h d (List.mem_cons_of_mem _ hd)]

theorem evalParts_congr {σ τ : Store} {ty : Ty} {cs : List Code} (h : ∀ c ∈ cs, c.eval σ = c.eval τ) :
    evalParts σ ty cs = evalParts τ ty cs := by
  induction cs with
  | nil => rfl
  | cons c cs ih =>
    rw [evalParts, evalParts, h c List.mem_cons_self, ih fun d hd => h d (List.mem_cons_of_mem _ hd)]

/-- The value of an expression depends on its variables only. -/
theorem Code.eval_congr {σ τ : Store} {c : Code} (h : ∀ x ∈ c.vars, σ.lookup x = τ.lookup x) :
    c.eval σ = c.eval τ := by
  induction c with
  | var x => rw [Code.eval, Code.eval, h x List.mem_cons_self]
  | num x => rfl
  | bool b => rfl
  | construct ty parts ih =>
    have hparts : ∀ c ∈ parts, c.eval σ = c.eval τ :=
      fun c hc => ih c hc fun x hx => h x (Code.mem_varsOfAll.2 ⟨c, hc, hx⟩)
    rw [Code.eval, Code.eval, evalParts_congr hparts]
  | unary op e ih => rw [Code.eval, Code.eval, ih h]
  | binary op l r ihl ihr =>
    rw [Code.eval, Code.eval, ihl fun x hx => h x (List.mem_append_left _ hx),
      ihr fun x hx => h x (List.mem_append_right _ hx)]
  | call b args ih =>
    have hargs : ∀ c ∈ args, c.eval σ = c.eval τ :=
      fun c hc => ih c hc fun x hx => h x (Code.mem_varsOfAll.2 ⟨c, hc, hx⟩)
    rw [Code.eval, Code.eval, evalCodes_congr hargs]
  | component e i ih => rw [Code.eval, Code.eval, ih h]
  | index e i ihe ihi =>
    rw [Code.eval, Code.eval, ihe fun x hx => h x (List.mem_append_left _ hx),
      ihi fun x hx => h x (List.mem_append_right _ hx)]
  | select c a b ihc iha ihb =>
    rw [Code.eval, Code.eval,
      ihc fun x hx => h x (List.mem_append_left _ (List.mem_append_left _ hx)),
      iha fun x hx => h x (List.mem_append_left _ (List.mem_append_right _ hx)),
      ihb fun x hx => h x (List.mem_append_right _ hx)]

/-- **The variables solve the equations of the statements**: each holds the value that
its code has. -/
def Store.Solves (σ : Store) (ss : List Statement) : Prop :=
  ∀ s ∈ ss, ∃ v, s.code.eval σ = .ok v ∧ σ.lookup s.name = some v

theorem lookup_runStatements {ss : List Statement} {σ σ' : Store} {u : Unit}
    (h : runStatements ss σ = .ok u σ') {x : String} (hx : x ∉ ss.map Statement.name) :
    σ'.lookup x = σ.lookup x := by
  induction ss generalizing σ with
  | nil => cases h; rfl
  | cons s ss ih =>
    rw [List.map_cons, List.mem_cons, not_or] at hx
    unfold runStatements at h
    split at h
    · rw [ih h hx.2, lookup_assign_of_ne hx.1]
    · cases h

/-- **A run solves the equations of its statements.** Later statements change no variable
that an earlier one uses. -/
theorem runStatements_solves {ss : List Statement} {σ σ' : Store} {u : Unit} (h : StraightLine Γ ss)
    (hfresh : Fresh Γ ss) (hrun : runStatements ss σ = .ok u σ') : σ'.Solves ss := by
  induction ss generalizing σ Γ with
  | nil => exact fun s hs => nomatch hs
  | cons s ss ih =>
    have hname : ∀ x ∈ (Γ ++ [s.declared]).map Prod.fst, x ∉ ss.map Statement.name :=
      fun x hx hmem => (List.nodup_append.1 hfresh.tail).2.2 x hx x hmem rfl
    unfold runStatements at hrun
    split at hrun
    · next v hv =>
      refine List.forall_mem_cons.2 ⟨⟨v, ?_, ?_⟩, ih h.2 hfresh.tail hrun⟩
      · rw [← hv]
        -- the code reads declared variables, which neither this statement nor a later one assigns
        refine Code.eval_congr fun x hx => ?_
        obtain ⟨t, ht⟩ := h.1.mem_declared hx
        have hdecl : x ∈ Γ.map Prod.fst := List.mem_map.2 ⟨_, ht, rfl⟩
        have hne : x ≠ s.name := fun heq => hfresh.head (heq ▸ hdecl)
        rw [lookup_runStatements hrun (hname x (by simp [hdecl])), lookup_assign_of_ne hne]
      · rw [lookup_runStatements hrun (hname _ (by simp [Statement.declared])), lookup_assign_self]
    · cases hrun

end Shader

/-! ## Fragments -/

theorem Shader.Emission.nameOf_injective {m n : Nat} (h : Emission.nameOf m = Emission.nameOf n) :
    m = n := by
  have hlist := congrArg String.toList h
  simp only [Emission.nameOf, String.toList_append, List.append_cancel_left_eq,
    Nat.toString_eq_ofList_toDigits, String.toList_ofList] at hlist
  rw [← Nat.ofDigitChars_ten_toDigits (n := m), hlist, Nat.ofDigitChars_ten_toDigits]

/-- The input and the statements of a fragment have different names, unless a statement
has the name of the input. -/
theorem Shape.compile_fresh {s : Shape} {options : Options} {F : Fragment}
    (h : s.compile options = .ok F) (hinput : ∀ st ∈ F.statements, st.name ≠ options.inputName) :
    Fresh [(options.inputName, .vec2)] F.statements := by
  have hnames := (Shape.compile_sound h).2.2
  refine List.nodup_cons.2 ⟨fun hmem => ?_, ?_⟩
  · obtain ⟨st, hst, hname⟩ := List.mem_map.1 hmem
    exact hinput st hst hname
  · change (F.statements.map Statement.name).Nodup
    rw [hnames]
    exact List.pairwise_map.2 (List.nodup_range.imp fun hne heq => hne (Emission.nameOf_injective heq))

/-- A point has the type of the input. -/
theorem input_types (input : String) (x y : Float) :
    Store.Types [(input, .vector [x, y])] [(input, .vec2)] := by
  intro z ty hz
  obtain ⟨rfl, rfl⟩ := Prod.mk.inj (List.mem_singleton.1 hz)
  have hpoint : (Value.vector [x, y]).HasTy .vec2 := .vector rfl rfl
  exact ⟨_, List.lookup_cons_self, hpoint⟩

end DistanceField
