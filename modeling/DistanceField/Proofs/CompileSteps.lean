import DistanceField.Proofs.Induction
import DistanceField.Shape
import Mathlib.Tactic.SplitIfs

/-!
# Steps of the compiler

What it means for one step of the compiler to succeed: which parts succeeded before it,
what was emitted, and how the draft changed. Proofs about compilation go by these
lemmas and do not look into the definitions.

* `Compile.emit_eq_ok`, `Compile.element_eq_ok`, …: the steps that emit code.
* `Operation.compile_unary_ok`, …: one lemma for each form of operation.
* `expandWithin_eq_ok`, `Expansion.enterWith_eq_ok`: calls.
* `Shape.compile_eq_ok`: a whole shape.
-/

namespace DistanceField

open Shader

namespace Compile

variable {α : Type} {chain : Chain} {pos : Pos} {d d' : Draft} {t : Typed}

@[simp] theorem fail_eq_ok {fault : Fault} {a : α} : (fail chain pos fault d = .ok a d') ↔ False := by
  refine ⟨fun h => ?_, False.elim⟩
  change EStateM.Result.error (fault.atPos pos chain) d = _ at h
  cases h

theorem locate_eq_ok {r : Except Fault α} {a : α} :
    locate chain pos r d = .ok a d' ↔ r = .ok a ∧ d' = d := by
  cases r with
  | ok b => simp [locate, EStateM.pure_eq_ok, eq_comm]
  | error f => simp [locate]

theorem emit_eq_ok {ty : Ty} {code : Code} :
    emit ty code d = .ok t d' ↔ t = ⟨ty, .var (Emission.nameOf d.emission.nextName)⟩ ∧
      d' = { d with emission := (d.emission.emit ty code).2 } := by
  simp only [emit, EStateM.Result.ok.injEq, Emission.emit_fst, eq_comm]

theorem setSlot_eq_ok {slot : Nat} {u : Unit} :
    setSlot slot t d = .ok u d' ↔
      ∃ slots, d.slots.set? slot t = some slots ∧ d' = { d with slots := slots } := by
  unfold setSlot
  cases d.slots.set? slot t with
  | some slots => simp [eq_comm]
  | none => simp

theorem literal_eq_ok {v : Value} :
    literal chain pos v d = .ok t d' ↔ Typed.ofValue? v = some t ∧ d' = d := by
  unfold literal
  cases Typed.ofValue? v with
  | some u => simp [EStateM.pure_eq_ok, eq_comm]
  | none => simp

theorem component_eq_ok {v : Typed} {name : String} (h : component chain pos v name d = .ok t d') :
    v.ty.isVector = true ∧ ∃ i, componentOf? name = some i ∧ i < v.ty.count ∧
      emit .float (.component v.code i) d = .ok t d' := by
  unfold component at h
  split at h
  · simp at h
  · next hvec =>
    refine ⟨by simpa using hvec, ?_⟩
    cases hi : componentOf? name with
    | none => simp [hi] at h
    | some i =>
      simp only [hi] at h
      split at h
      · next hlt => exact ⟨i, rfl, hlt, h⟩
      · simp at h

theorem element_eq_ok {v i : Typed} (h : element chain pos v i d = .ok t d') :
    v.ty.isVector = true ∧ i.ty = .float ∧
      ((∃ n k, i.code = .num n ∧ Scalar.index? n v.ty.count = some k ∧
          emit .float (.component v.code k) d = .ok t d') ∨
        (∀ n, i.code ≠ .num n) ∧ emit .float (.index v.code i.code) d = .ok t d') := by
  unfold element at h
  split at h
  · simp at h
  · next hvec =>
    split at h
    · simp at h
    · next hty =>
      refine ⟨by simpa using hvec, by simpa using hty, ?_⟩
      cases hi : i.code with
      | num n =>
        cases hk : Scalar.index? n v.ty.count with
        | none => simp [hi, hk] at h
        | some k =>
          simp only [hi, hk] at h
          exact .inl ⟨n, k, rfl, hk, h⟩
      | _ =>
        simp only [hi] at h
        exact .inr ⟨by simp, h⟩

/-- The codes of arguments, floats widened if there is a type to widen them to. -/
def widenedCodes (promote : Option Ty) (args : List Typed) : List Code :=
  match promote with
  | some wide => args.map (·.widenTo wide)
  | none => args.map Typed.code

theorem builtin_eq_ok {b : Builtin} {args : List Typed} (h : builtin chain pos b args d = .ok t d') :
    ∃ ty promote, b.typing (args.map Typed.ty) = .ok (ty, promote) ∧
      emit ty (.call b (widenedCodes promote args)) d = .ok t d' := by
  unfold builtin at h
  obtain ⟨⟨ty, promote⟩, d₁, h1, h2⟩ := EStateM.bind_eq_ok.1 h
  obtain ⟨htyping, rfl⟩ := locate_eq_ok.1 h1
  exact ⟨ty, promote, htyping, h2⟩

theorem binary_eq_ok {op : BinaryOp} {l r : Typed} (h : binary chain pos op l r d = .ok t d') :
    ∃ ty, op.typing l.ty r.ty = .ok ty ∧
      (op = .mod ∧ emit ty (.call .mod [l.widenTo ty, r.widenTo ty]) d = .ok t d' ∨
        op ≠ .mod ∧ emit ty (.binary op l.code r.code) d = .ok t d') := by
  unfold binary at h
  obtain ⟨ty, d₁, h1, h2⟩ := EStateM.bind_eq_ok.1 h
  obtain ⟨htyping, rfl⟩ := locate_eq_ok.1 h1
  refine ⟨ty, htyping, ?_⟩
  split at h2
  · next hmod => exact .inl ⟨hmod, h2⟩
  · next hmod => exact .inr ⟨hmod, h2⟩

theorem vector_eq_ok {ty : Ty} {parts : List Code} (h : vector ty parts d = .ok t d') :
    (Code.construct ty parts).isLiteral = true ∧ t = ⟨ty, .construct ty parts⟩ ∧ d' = d ∨
      (Code.construct ty parts).isLiteral = false ∧ emit ty (.construct ty parts) d = .ok t d' := by
  unfold vector at h
  split at h
  · next hlit => exact .inl ⟨hlit, EStateM.pure_eq_ok.1 h⟩
  · next hlit => exact .inr ⟨by simpa using hlit, h⟩

theorem call_eq_ok {expand : Expansion → EStateM (Failure EvalError) Emission Typed} {x : Expansion} :
    call expand x d = .ok t d' ↔
      ∃ e, expand x d.emission = .ok t e ∧ d' = { d with emission := e } := by
  unfold call
  cases expand x d.emission with
  | ok v e => simp only [EStateM.Result.ok.injEq]; grind
  | error err e => simp

end Compile

section

variable {expand : Expansion → EStateM (Failure EvalError) Emission Typed} {captured : List Value}
  {chain : Chain} {d d' : Draft} {t : Typed} {pos : Pos}

namespace Operation

theorem compile_slot_ok {i : Nat}
    (h : (Operation.load (.slot i) pos).compileWith expand captured chain d = .ok t d') :
    d.slots.get? i = some t ∧ d' = d := by
  simp only [compileWith, EStateM.bind_eq_ok, EStateM.get_eq_ok] at h
  obtain ⟨_, _, ⟨rfl, rfl⟩, h⟩ := h
  cases hs : d.slots.get? i with
  | none => simp [hs] at h
  | some u =>
    simp only [hs, EStateM.pure_eq_ok] at h
    exact ⟨by rw [h.1], h.2⟩

theorem compile_captured_ok {i : Nat}
    (h : (Operation.load (.captured i) pos).compileWith expand captured chain d = .ok t d') :
    ∃ v, captured[i]? = some v ∧ Typed.ofValue? v = some t ∧ d' = d := by
  simp only [compileWith] at h
  cases hv : captured[i]? with
  | none => simp [hv] at h
  | some v =>
    simp only [hv, Compile.literal_eq_ok] at h
    exact ⟨v, rfl, h⟩

theorem compile_lambda_ok {signature : Signature} {body : Operation} :
    ((Operation.lambda signature body).compileWith expand captured chain d = .ok t d') ↔ False := by
  simp [compileWith]

theorem compile_call_ok {callee : Operation} {args : List Operation}
    (h : (Operation.call callee args pos).compileWith expand captured chain d = .ok t d') :
    ∃ f vs d₁, callee.known? captured = some (Closure.toValue f) ∧
      compileAll expand captured chain args d = .ok vs d₁ ∧
      Compile.call expand ⟨pos, chain, f, vs⟩ d₁ = .ok t d' := by
  simp only [compileWith] at h
  cases hk : callee.known? captured with
  | none => simp [hk] at h
  | some v =>
    cases v with
    | function code cap origin =>
      simp only [hk, Option.bind_some, Value.closure?, EStateM.bind_eq_ok] at h
      obtain ⟨vs, d₁, h1, h2⟩ := h
      exact ⟨⟨code, cap, origin⟩, vs, d₁, rfl, h1, h2⟩
    | _ => simp [hk, Value.closure?] at h

theorem compile_builtin_ok {b : Builtin} {args : List Operation} :
    (Operation.builtin b args pos).compileWith expand captured chain d = .ok t d' ↔
      ∃ vs d₁, compileAll expand captured chain args d = .ok vs d₁ ∧
        Compile.builtin chain pos b vs d₁ = .ok t d' := by
  simp only [compileWith, EStateM.bind_eq_ok]

theorem compile_unary_ok {op : UnaryOp} {operand : Operation}
    (h : (Operation.unary op operand pos).compileWith expand captured chain d = .ok t d') :
    ∃ v d₁ ty, operand.compileWith expand captured chain d = .ok v d₁ ∧ op.typing v.ty = .ok ty ∧
      Compile.emit ty (.unary op v.code) d₁ = .ok t d' := by
  simp only [compileWith, EStateM.bind_eq_ok, Compile.locate_eq_ok] at h
  obtain ⟨v, d₁, h1, ty, _, ⟨hty, rfl⟩, h2⟩ := h
  exact ⟨v, _, ty, h1, hty, h2⟩

theorem compile_binary_ok {op : BinaryOp} {left right : Operation} :
    (Operation.binary op left right pos).compileWith expand captured chain d = .ok t d' ↔
      ∃ l d₁, left.compileWith expand captured chain d = .ok l d₁ ∧
        ∃ r d₂, right.compileWith expand captured chain d₁ = .ok r d₂ ∧
          Compile.binary chain pos op l r d₂ = .ok t d' := by
  simp only [compileWith, EStateM.bind_eq_ok]

/-- A condition is a literal and one branch is compiled, or both are and the value is
selected where the code runs. -/
theorem compile_cond_ok {condition yes no : Operation}
    (h : (Operation.cond condition yes no pos).compileWith expand captured chain d = .ok t d') :
    ∃ c d₁, condition.compileWith expand captured chain d = .ok c d₁ ∧ c.ty = .bool ∧
      ((∃ b, c.code = .bool b ∧ (if b then yes else no).compileWith expand captured chain d₁ = .ok t d') ∨
        ∃ a d₂ b d₃, yes.compileWith expand captured chain d₁ = .ok a d₂ ∧
          no.compileWith expand captured chain d₂ = .ok b d₃ ∧ a.ty = b.ty ∧
          Compile.emit a.ty (.select c.code a.code b.code) d₃ = .ok t d') := by
  simp only [compileWith, EStateM.bind_eq_ok] at h
  obtain ⟨c, d₁, hc, h⟩ := h
  refine ⟨c, d₁, hc, ?_⟩
  split at h
  · simp at h
  · next hty =>
    refine ⟨Classical.not_not.1 hty, ?_⟩
    cases hcode : c.code with
    | bool b =>
      cases b with
      | true => exact .inl ⟨true, rfl, by simpa [hcode] using h⟩
      | false => exact .inl ⟨false, rfl, by simpa [hcode] using h⟩
    | _ =>
      simp only [hcode, EStateM.bind_eq_ok] at h
      obtain ⟨a, d₂, ha, b, d₃, hb, h⟩ := h
      split at h
      · next heq => exact .inr ⟨a, d₂, b, d₃, ha, hb, heq, h⟩
      · simp at h

theorem compile_letIn_ok {bindings : List (Nat × Operation)} {body : Operation} :
    (Operation.letIn bindings body pos).compileWith expand captured chain d = .ok t d' ↔
      ∃ u d₁, compileBindings expand captured chain bindings d = .ok u d₁ ∧
        body.compileWith expand captured chain d₁ = .ok t d' := by
  simp only [compileWith, EStateM.bind_eq_ok]

theorem compile_list_ok {items : List Operation}
    (h : (Operation.list items pos).compileWith expand captured chain d = .ok t d') :
    ∃ ty parts d₁, Ty.vector? items.length = some ty ∧
      compileParts expand captured chain items d = .ok parts d₁ ∧
      Compile.vector ty parts d₁ = .ok t d' := by
  simp only [compileWith] at h
  cases hty : Ty.vector? items.length with
  | none => simp [hty] at h
  | some ty =>
    simp only [hty, EStateM.bind_eq_ok] at h
    obtain ⟨parts, d₁, h1, h2⟩ := h
    exact ⟨ty, parts, d₁, rfl, h1, h2⟩

theorem compile_record_ok {fields : List (String × Operation)} :
    ((Operation.record fields pos).compileWith expand captured chain d = .ok t d') ↔ False := by
  simp [compileWith]

/-- A field is known before the code runs, or it is a component of a vector. -/
theorem compile_field_ok {target : Operation} {name : String}
    (h : (Operation.field target name pos).compileWith expand captured chain d = .ok t d') :
    (∃ v, (Operation.field target name pos).known? captured = some v ∧ Typed.ofValue? v = some t ∧
        d' = d) ∨
      ∃ v d₁, target.compileWith expand captured chain d = .ok v d₁ ∧
        Compile.component chain pos v name d₁ = .ok t d' := by
  rw [compileWith] at h
  cases hk : (Operation.field target name pos).known? captured with
  | some v =>
    simp only [hk, Compile.literal_eq_ok] at h
    exact .inl ⟨v, rfl, h⟩
  | none =>
    simp only [hk] at h
    refine .inr ?_
    cases ht : target.known? captured with
    | none => exact EStateM.bind_eq_ok.1 (by simpa only [ht] using h)
    | some u =>
      cases u with
      | record fields => simp [ht] at h
      | _ => exact EStateM.bind_eq_ok.1 (by simpa only [ht] using h)

theorem compile_index_ok {target index : Operation} :
    (Operation.index target index pos).compileWith expand captured chain d = .ok t d' ↔
      ∃ v d₁, target.compileWith expand captured chain d = .ok v d₁ ∧
        ∃ i d₂, index.compileWith expand captured chain d₁ = .ok i d₂ ∧
          Compile.element chain pos v i d₂ = .ok t d' := by
  simp only [compileWith, EStateM.bind_eq_ok]

end Operation

/-! ## Lists of operations -/

theorem compileAll_nil_ok {vs : List Typed} :
    compileAll expand captured chain [] d = .ok vs d' ↔ vs = [] ∧ d' = d := by
  simp only [compileAll, EStateM.pure_eq_ok]

theorem compileAll_cons_ok {op : Operation} {ops : List Operation} {vs : List Typed}
    (h : compileAll expand captured chain (op :: ops) d = .ok vs d') :
    ∃ v d₁ ws, op.compileWith expand captured chain d = .ok v d₁ ∧
      compileAll expand captured chain ops d₁ = .ok ws d' ∧ vs = v :: ws := by
  simp only [compileAll, EStateM.bind_eq_ok, EStateM.pure_eq_ok] at h
  obtain ⟨v, d₁, h1, ws, _, h2, rfl, rfl⟩ := h
  exact ⟨v, d₁, ws, h1, h2, rfl⟩

theorem compileBindings_nil_ok {u : Unit} :
    compileBindings expand captured chain [] d = .ok u d' ↔ d' = d := by
  simp only [compileBindings, EStateM.pure_eq_ok, true_and]

theorem compileBindings_cons_ok {slot : Nat} {op : Operation} {bs : List (Nat × Operation)} {u : Unit}
    (h : compileBindings expand captured chain ((slot, op) :: bs) d = .ok u d') :
    ∃ v d₁ slots, op.compileWith expand captured chain d = .ok v d₁ ∧
      d₁.slots.set? slot v = some slots ∧
      compileBindings expand captured chain bs { d₁ with slots := slots } = .ok u d' := by
  simp only [compileBindings, EStateM.bind_eq_ok, Compile.setSlot_eq_ok] at h
  obtain ⟨v, d₁, h1, _, _, ⟨slots, hset, rfl⟩, h2⟩ := h
  exact ⟨v, d₁, slots, h1, hset, h2⟩

theorem compileParts_nil_ok {codes : List Code} :
    compileParts expand captured chain [] d = .ok codes d' ↔ codes = [] ∧ d' = d := by
  simp only [compileParts, EStateM.pure_eq_ok]

theorem compileParts_cons_ok {op : Operation} {ops : List Operation} {codes : List Code}
    (h : compileParts expand captured chain (op :: ops) d = .ok codes d') :
    ∃ v d₁ rest, op.compileWith expand captured chain d = .ok v d₁ ∧ v.ty = .float ∧
      compileParts expand captured chain ops d₁ = .ok rest d' ∧ codes = v.code :: rest := by
  simp only [compileParts, EStateM.bind_eq_ok] at h
  obtain ⟨v, d₁, h1, h⟩ := h
  split at h
  · next hty =>
    simp only [EStateM.bind_eq_ok, EStateM.pure_eq_ok] at h
    obtain ⟨rest, _, h2, rfl, rfl⟩ := h
    exact ⟨v, d₁, rest, h1, hty, h2, rfl⟩
  · simp at h

/-- Components are compiled as other operations are. -/
theorem compileParts_eq_ok {ops : List Operation} {codes : List Code}
    (h : compileParts expand captured chain ops d = .ok codes d') :
    ∃ vs, compileAll expand captured chain ops d = .ok vs d' := by
  induction ops generalizing d codes with
  | nil =>
    obtain ⟨-, rfl⟩ := compileParts_nil_ok.1 h
    exact ⟨[], compileAll_nil_ok.2 ⟨rfl, rfl⟩⟩
  | cons op ops ih =>
    obtain ⟨v, d₁, rest, hv, -, hrest, rfl⟩ := compileParts_cons_ok h
    obtain ⟨vs, hvs⟩ := ih hrest
    refine ⟨v :: vs, ?_⟩
    simp only [compileAll, EStateM.bind_eq_ok, EStateM.pure_eq_ok]
    exact ⟨v, d₁, hv, vs, d', hvs, rfl, rfl⟩

end

/-! ## Calls -/

theorem inFrame_eq_ok {body : Compile Typed} {slots : Option (Slots Typed)} {e e' : Emission} {t : Typed} :
    inFrame body slots e = .ok t e' ↔
      ∃ s d, slots = some s ∧ body ⟨s, e⟩ = .ok t d ∧ e' = d.emission := by
  cases slots with
  | none => simp [inFrame]
  | some s =>
    simp only [inFrame, Option.some.injEq]
    cases hb : body ⟨s, e⟩ with
    | ok v d => simp only [EStateM.Result.ok.injEq]; grind
    | error err d => simp only [reduceCtorEq]; grind

theorem Expansion.enterWith_eq_ok {compile : Closure → Chain → Compile Typed} {x : Expansion}
    {e e' : Emission} {t : Typed} (h : x.enterWith compile e = .ok t e') :
    x.args.length = x.callee.arity ∧ ∃ slots d, Slots.ofArgs? x.callee.slots x.args = some slots ∧
      compile x.callee (⟨x.callee.name, some x.pos⟩ :: x.chain) ⟨slots, e⟩ = .ok t d ∧
      e' = d.emission := by
  unfold enterWith at h
  dsimp only at h
  split at h
  · cases h
  · next hlen => exact ⟨Classical.not_not.1 hlen, inFrame_eq_ok.1 h⟩

theorem expandWithin_eq_ok {limit budget : Nat} {f : Closure} {chain : Chain} {d d' : Draft} {t : Typed}
    (h : expandWithin limit budget f chain d = .ok t d') :
    d.slots.length = f.slots ∧ d.slots.given f.arity = f.arity ∧ ∃ rest, budget = rest + 1 ∧
      f.body.compileWith (Expansion.enterWith (expandWithin limit rest)) f.captured chain d = .ok t d' := by
  cases budget with
  | zero =>
    simp only [expandWithin, EStateM.bind_eq_ok, EStateM.get_eq_ok] at h
    obtain ⟨_, _, ⟨rfl, rfl⟩, h⟩ := h
    split_ifs at h <;> simp at h
  | succ rest =>
    simp only [expandWithin, EStateM.bind_eq_ok, EStateM.get_eq_ok] at h
    obtain ⟨_, _, ⟨rfl, rfl⟩, h⟩ := h
    split_ifs at h with hsize hgiven
    · simp at h
    · simp at h
    · exact ⟨Classical.not_not.1 hsize, Classical.not_not.1 hgiven, rest, rfl, h⟩

/-! ## Shapes -/

theorem attempt_eq_ok {ε α : Type} {body : EStateM ε Emission α} {e e' : Emission} {a : α}
    (h : attempt body e = .ok a e') :
    ∃ e₁, body ⟨e.nextName, []⟩ = .ok a e₁ ∧ e' = ⟨e₁.nextName, e.statements ++ e₁.statements⟩ := by
  cases hb : body ⟨e.nextName, []⟩ with
  | error err e₁ => simp [attempt_of_error hb] at h
  | ok b e₁ =>
    simp only [attempt_of_ok hb, EStateM.Result.ok.injEq] at h
    exact ⟨e₁, by rw [h.1], h.2.symm⟩

/-- The distance function of a shape that compiles is expanded in a frame that holds the
input, one call below the start of the run. -/
theorem Shape.compile_eq_ok {s : Shape} {options : Options} {F : Fragment}
    (h : s.compile options = .ok F) :
    ∃ f slots d, s.dist = .ok f ∧
      Slots.ofArgs? f.slots [Typed.input .vec2 options.inputName] = some slots ∧
      expandWithin options.maxDepth options.maxDepth f [⟨f.name, some f.pos⟩, .root]
        ⟨slots, .empty⟩ = .ok F.result d ∧
      F.result.ty = .float ∧ F.statements = d.emission.statements ∧
      F.input = .input .vec2 options.inputName := by
  unfold compile at h
  cases hf : s.dist with
  | error e => simp [hf] at h
  | ok f =>
    simp only [hf] at h
    cases hx : s.emitDistance options.maxDepth (.input .vec2 options.inputName) [.root] .empty with
    | error err e => simp [hx] at h
    | ok t e =>
      simp only [hx, Except.ok.injEq] at h
      simp only [emitDistance, hf] at hx
      obtain ⟨e₁, hframe, rfl⟩ := attempt_eq_ok hx
      obtain ⟨slots, d, hslots, hbody, rfl⟩ := inFrame_eq_ok.1 hframe
      obtain ⟨v, d₁, hv, hty⟩ := EStateM.bind_eq_ok.1 hbody
      split_ifs at hty with hfloat
      · obtain ⟨rfl, rfl⟩ := EStateM.pure_eq_ok.1 hty
        subst h
        exact ⟨f, slots, d, rfl, hslots, hv, hfloat, rfl, rfl⟩
      · simp at hty

end DistanceField
