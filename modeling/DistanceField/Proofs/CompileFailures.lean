import DistanceField.Proofs.DepthLimit
import DistanceField.Proofs.ScopedCompilation

/-!
# How compilation fails

The compilation of a body fails in one of three ways: with a fault of its own, which names
the calls under way and is not about their number; because a slot is not there; or because
a call in it fails. Nothing is assumed about the body.

* `FailsIn`: a computation that fails only with errors of some kind.
* `Operation.compileWith_failsIn`: the errors of a body.
* `Expansion.enterWith_failsIn`: the errors of a call.
-/

namespace DistanceField

open Shader

/-- The computation fails only with errors in `E`. -/
def FailsIn {ε σ α : Type} (E : ε → Prop) (x : EStateM ε σ α) : Prop :=
  ∀ s e t, x s = .error e t → E e

namespace FailsIn

variable {ε σ α β : Type} {E : ε → Prop} {x : EStateM ε σ α}

theorem pure (a : α) : FailsIn E (Pure.pure a : EStateM ε σ α) := by
  intro s e t h
  cases h

theorem bind {f : α → EStateM ε σ β} (hx : FailsIn E x) (hf : ∀ a, FailsIn E (f a)) :
    FailsIn E (x >>= f) := by
  intro s e t h
  simp only [Bind.bind, EStateM.bind] at h
  cases hs : x s with
  | ok a u =>
    rw [hs] at h
    exact hf a u e t h
  | error err u =>
    rw [hs] at h
    cases h
    exact hx s e t hs

/-- A computation that looks at the state. -/
theorem get {f : σ → EStateM ε σ β} (h : ∀ s, FailsIn E (f s)) : FailsIn E (MonadState.get >>= f) :=
  fun s => h s s

end FailsIn

/-! ## Steps of compilation -/

section

variable {E : Failure EvalError → Prop} {chain : Chain}
  (hfault : ∀ pos (fault : Fault), fault.kind ≠ .recursionLimit → E (fault.atPos pos chain))

include hfault in
theorem Compile.fail_failsIn {α : Type} (pos : Pos) {fault : Fault} (h : fault.kind ≠ .recursionLimit) :
    FailsIn E (Compile.fail chain pos fault : Compile α) := by
  intro d e d' hfail
  cases hfail
  exact hfault pos fault h

include hfault in
theorem Compile.locate_failsIn {α : Type} (pos : Pos) {r : Except Fault α}
    (h : Ends Fault.OfTypes (fun _ => True) r) : FailsIn E (Compile.locate chain pos r) := by
  cases r with
  | ok a => exact .pure a
  | error fault =>
    refine Compile.fail_failsIn hfault pos fun hlimit => ?_
    have hkind : fault.OfTypes := h
    simp [Fault.OfTypes, hlimit] at hkind

theorem Compile.emit_failsIn (ty : Ty) (code : Code) : FailsIn E (Compile.emit ty code) := by
  intro d e d' h
  cases h

theorem Compile.setSlot_failsIn (hbounds : E .outOfBounds) (slot : Nat) (v : Typed) :
    FailsIn E (Compile.setSlot slot v) := by
  intro d e d' h
  unfold Compile.setSlot at h
  cases hset : d.slots.set? slot v with
  | some slots => rw [hset] at h; cases h
  | none =>
    rw [hset] at h
    cases h
    exact hbounds

include hfault in
theorem Compile.literal_failsIn (pos : Pos) (v : Value) : FailsIn E (Compile.literal chain pos v) := by
  unfold Compile.literal
  cases Typed.ofValue? v with
  | some t => exact .pure t
  | none => exact Compile.fail_failsIn hfault pos (of_decide_eq_true rfl)

include hfault in
theorem Compile.component_failsIn (pos : Pos) (v : Typed) (name : String) :
    FailsIn E (Compile.component chain pos v name) := by
  unfold Compile.component
  cases componentOf? name with
  | none => split_ifs <;> exact Compile.fail_failsIn hfault pos (of_decide_eq_true rfl)
  | some i =>
    dsimp only
    split_ifs
    · exact Compile.fail_failsIn hfault pos (of_decide_eq_true rfl)
    · exact Compile.emit_failsIn _ _
    · exact Compile.fail_failsIn hfault pos (of_decide_eq_true rfl)

include hfault in
theorem Compile.element_failsIn (pos : Pos) (v i : Typed) : FailsIn E (Compile.element chain pos v i) := by
  unfold Compile.element
  split_ifs
  · exact Compile.fail_failsIn hfault pos (of_decide_eq_true rfl)
  · exact Compile.fail_failsIn hfault pos (of_decide_eq_true rfl)
  · split
    · split
      · exact Compile.emit_failsIn _ _
      · exact Compile.fail_failsIn hfault pos (of_decide_eq_true rfl)
    · exact Compile.emit_failsIn _ _

include hfault in
theorem Compile.builtin_failsIn (pos : Pos) (b : Builtin) (args : List Typed) :
    FailsIn E (Compile.builtin chain pos b args) :=
  (Compile.locate_failsIn hfault pos (b.typing_ends _)).bind fun _ => Compile.emit_failsIn _ _

include hfault in
theorem Compile.binary_failsIn (pos : Pos) (op : BinaryOp) (l r : Typed) :
    FailsIn E (Compile.binary chain pos op l r) := by
  refine (Compile.locate_failsIn hfault pos (op.typing_ends l.ty r.ty)).bind fun ty => ?_
  split_ifs <;> exact Compile.emit_failsIn _ _

theorem Compile.vector_failsIn (ty : Ty) (parts : List Code) : FailsIn E (Compile.vector ty parts) := by
  unfold Compile.vector
  dsimp only
  split_ifs
  · exact .pure _
  · exact Compile.emit_failsIn _ _

/-! ## Bodies -/

variable {expand : Expansion → EStateM (Failure EvalError) Emission Typed} {captured : List Value}

theorem Compile.call_failsIn {x : Expansion} (h : FailsIn E (expand x)) :
    FailsIn E (Compile.call expand x) := by
  intro d e d' hcall
  unfold Compile.call at hcall
  cases hx : expand x d.emission with
  | ok v t => rw [hx] at hcall; cases hcall
  | error err t =>
    rw [hx] at hcall
    cases hcall
    exact h _ _ _ hx

theorem compileAll_failsIn {ops : List Operation}
    (ih : ∀ op ∈ ops, FailsIn E (op.compileWith expand captured chain)) :
    FailsIn E (compileAll expand captured chain ops) := by
  induction ops with
  | nil => exact .pure _
  | cons op ops ihs =>
    have htail := ihs fun o ho => ih o (List.mem_cons_of_mem _ ho)
    rw [compileAll]
    exact (ih op List.mem_cons_self).bind fun v => htail.bind fun vs => .pure _

include hfault in
theorem compileParts_failsIn {ops : List Operation}
    (ih : ∀ op ∈ ops, FailsIn E (op.compileWith expand captured chain)) :
    FailsIn E (compileParts expand captured chain ops) := by
  induction ops with
  | nil => exact .pure _
  | cons op ops ihs =>
    have htail := ihs fun o ho => ih o (List.mem_cons_of_mem _ ho)
    rw [compileParts]
    refine (ih op List.mem_cons_self).bind fun v => ?_
    split_ifs
    · exact htail.bind fun codes => .pure _
    · exact Compile.fail_failsIn hfault _ (of_decide_eq_true rfl)

theorem compileBindings_failsIn (hbounds : E .outOfBounds) {bs : List (Nat × Operation)}
    (ih : ∀ b ∈ bs, FailsIn E (b.2.compileWith expand captured chain)) :
    FailsIn E (compileBindings expand captured chain bs) := by
  induction bs with
  | nil => exact .pure _
  | cons b bs ihs =>
    have htail := ihs fun o ho => ih o (List.mem_cons_of_mem _ ho)
    rw [compileBindings]
    refine (ih b List.mem_cons_self).bind fun v => ?_
    exact (Compile.setSlot_failsIn hbounds b.1 v).bind fun _ => htail

include hfault in
/-- **A body fails with its own faults, or as its calls do.** -/
theorem Operation.compileWith_failsIn (hbounds : E .outOfBounds) (op : Operation)
    (hexpand : ∀ x : Expansion, x.callee ∈ op.callees captured → x.chain = chain → FailsIn E (expand x)) :
    FailsIn E (op.compileWith expand captured chain) := by
  induction op with
  | const value pos =>
    rw [compileWith]
    exact Compile.literal_failsIn hfault pos _
  | load ref pos =>
    cases ref with
    | slot i =>
      rw [compileWith]
      refine .get fun d => ?_
      cases d.slots.get? i with
      | some v => exact .pure v
      | none => exact Compile.fail_failsIn hfault pos (of_decide_eq_true rfl)
    | captured i =>
      rw [compileWith]
      cases captured[i]? with
      | some v => exact Compile.literal_failsIn hfault pos v
      | none => exact Compile.fail_failsIn hfault pos (of_decide_eq_true rfl)
  | lambda signature body _ =>
    rw [compileWith]
    exact Compile.fail_failsIn hfault _ (of_decide_eq_true rfl)
  | call callee args pos _ ihs =>
    simp only [Operation.callees, List.mem_append, Option.mem_toList, mem_calleesOfAll] at hexpand
    have hargs := compileAll_failsIn fun a ha => ihs a ha fun x hx => hexpand x (.inr ⟨a, ha, hx⟩)
    rw [compileWith]
    cases hf : (callee.known? captured).bind Value.closure? with
    | none => exact Compile.fail_failsIn hfault pos (of_decide_eq_true rfl)
    | some f => exact hargs.bind fun vs => Compile.call_failsIn (hexpand _ (.inl hf) rfl)
  | builtin b args pos ihs =>
    simp only [Operation.callees, mem_calleesOfAll] at hexpand
    have hargs := compileAll_failsIn fun a ha => ihs a ha fun x hx => hexpand x ⟨a, ha, hx⟩
    rw [compileWith]
    exact hargs.bind fun vs => Compile.builtin_failsIn hfault pos b vs
  | unary op operand pos ih =>
    rw [compileWith]
    refine (ih hexpand).bind fun v => ?_
    exact (Compile.locate_failsIn hfault pos (op.typing_ends v.ty)).bind fun ty => Compile.emit_failsIn _ _
  | binary op left right pos ihl ihr =>
    simp only [Operation.callees, List.mem_append] at hexpand
    have hright := ihr fun x hx => hexpand x (.inr hx)
    rw [compileWith]
    refine (ihl fun x hx => hexpand x (.inl hx)).bind fun l => hright.bind fun r => ?_
    exact Compile.binary_failsIn hfault pos op l r
  | cond condition yes no pos ihc iha ihb =>
    simp only [Operation.callees, List.mem_append] at hexpand
    have hyes := iha fun x hx => hexpand x (.inl (.inr hx))
    have hno := ihb fun x hx => hexpand x (.inr hx)
    rw [compileWith]
    refine (ihc fun x hx => hexpand x (.inl (.inl hx))).bind fun c => ?_
    split_ifs
    · exact Compile.fail_failsIn hfault pos (of_decide_eq_true rfl)
    · split
      · exact hyes
      · exact hno
      · refine hyes.bind fun a => hno.bind fun b => ?_
        split_ifs
        · exact Compile.emit_failsIn _ _
        · exact Compile.fail_failsIn hfault pos (of_decide_eq_true rfl)
  | letIn bindings body pos ihs ih =>
    simp only [Operation.callees, List.mem_append, mem_calleesOfBindings] at hexpand
    have hbindings := compileBindings_failsIn hbounds fun b hb =>
      ihs b hb fun x hx => hexpand x (.inl ⟨b, hb, hx⟩)
    rw [compileWith]
    exact hbindings.bind fun _ => ih fun x hx => hexpand x (.inr hx)
  | list items pos ihs =>
    simp only [Operation.callees, mem_calleesOfAll] at hexpand
    have hitems := compileParts_failsIn hfault fun a ha => ihs a ha fun x hx => hexpand x ⟨a, ha, hx⟩
    rw [compileWith]
    cases Ty.vector? items.length with
    | none => exact Compile.fail_failsIn hfault pos (of_decide_eq_true rfl)
    | some ty => exact hitems.bind fun parts => Compile.vector_failsIn ty parts
  | record fields pos _ =>
    rw [compileWith]
    exact Compile.fail_failsIn hfault pos (of_decide_eq_true rfl)
  | field target name pos ih =>
    rw [compileWith]
    cases (Operation.field target name pos).known? captured with
    | some v => exact Compile.literal_failsIn hfault pos v
    | none =>
      dsimp only
      split
      · exact Compile.fail_failsIn hfault pos (of_decide_eq_true rfl)
      · exact (ih hexpand).bind fun v => Compile.component_failsIn hfault pos v name
  | index target index pos iht ihi =>
    simp only [Operation.callees, List.mem_append] at hexpand
    have hindex := ihi fun x hx => hexpand x (.inr hx)
    rw [compileWith]
    refine (iht fun x hx => hexpand x (.inl hx)).bind fun v => hindex.bind fun i => ?_
    exact Compile.element_failsIn hfault pos v i

/-! ## Calls -/

theorem inFrame_failsIn (hbounds : E .outOfBounds) {body : Compile Typed} (h : FailsIn E body)
    (slots : Option (Slots Typed)) : FailsIn E (inFrame body slots) := by
  intro e err e' hrun
  cases slots with
  | none =>
    cases hrun
    exact hbounds
  | some s =>
    simp only [inFrame] at hrun
    cases hbody : body ⟨s, e⟩ with
    | ok v d => rw [hbody] at hrun; cases hrun
    | error err' d =>
      rw [hbody] at hrun
      cases hrun
      exact h _ _ _ hbody

include hfault in
/-- A call fails before its frame is opened, or in its frame. -/
theorem Expansion.enterWith_failsIn (hbounds : E .outOfBounds) {compile : Closure → Chain → Compile Typed}
    {x : Expansion} (hx : x.chain = chain)
    (h : FailsIn E (compile x.callee (⟨x.callee.name, some x.pos⟩ :: chain))) :
    FailsIn E (x.enterWith compile) := by
  subst hx
  intro e err e' hrun
  unfold Expansion.enterWith at hrun
  dsimp only at hrun
  split_ifs at hrun
  · cases hrun
    exact hfault _ _ (of_decide_eq_true rfl)
  · exact inFrame_failsIn hbounds h _ _ _ _ hrun

end

end DistanceField
