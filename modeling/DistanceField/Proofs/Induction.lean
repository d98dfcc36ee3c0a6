import DistanceField.Shader.Code
import Mathlib.Data.List.Forall2

/-!
# Induction on trees

Expressions, operations, values and shader code hold lists of their own kind. These
are their induction principles with one hypothesis for each element of such a list,
and the inversion of sequential composition in the two monads that run them.

* `Operation.induction`, `Expr.induction`, `Value.induction`, `Code.induction`: used by
  the tactic `induction`.
* `Except.bind_eq_ok`, `EStateM.bind_eq_ok`: a composition succeeds exactly if both of
  its parts do.
* `Ends`: what a computation ends with, whether it succeeds or not.
* `getElem?_rel`: places of lists that are related element by element.
-/

namespace DistanceField

@[elab_as_elim, induction_eliminator]
theorem Operation.induction {motive : Operation → Prop}
    (const : ∀ value pos, motive (.const value pos))
    (load : ∀ ref pos, motive (.load ref pos))
    (lambda : ∀ signature body, motive body → motive (.lambda signature body))
    (call : ∀ callee args pos, motive callee → (∀ a ∈ args, motive a) →
      motive (.call callee args pos))
    (builtin : ∀ b args pos, (∀ a ∈ args, motive a) → motive (.builtin b args pos))
    (unary : ∀ op operand pos, motive operand → motive (.unary op operand pos))
    (binary : ∀ op left right pos, motive left → motive right → motive (.binary op left right pos))
    (cond : ∀ condition yes no pos, motive condition → motive yes → motive no →
      motive (.cond condition yes no pos))
    (letIn : ∀ bindings body pos, (∀ b ∈ bindings, motive b.2) → motive body →
      motive (.letIn bindings body pos))
    (list : ∀ items pos, (∀ a ∈ items, motive a) → motive (.list items pos))
    (record : ∀ fields pos, (∀ f ∈ fields, motive f.2) → motive (.record fields pos))
    (field : ∀ target name pos, motive target → motive (.field target name pos))
    (index : ∀ target index pos, motive target → motive index → motive (.index target index pos))
    (op : Operation) : motive op :=
  @Operation.rec motive (fun as => ∀ a ∈ as, motive a) (fun bs => ∀ b ∈ bs, motive b.2)
    (fun fs => ∀ f ∈ fs, motive f.2) (fun b => motive b.2) (fun f => motive f.2)
    const load lambda call builtin unary binary cond letIn list record field index
    (List.forall_mem_nil _) (fun _ _ h hs => List.forall_mem_cons.2 ⟨h, hs⟩)
    (List.forall_mem_nil _) (fun _ _ h hs => List.forall_mem_cons.2 ⟨h, hs⟩)
    (List.forall_mem_nil _) (fun _ _ h hs => List.forall_mem_cons.2 ⟨h, hs⟩)
    (fun _ _ h => h) (fun _ _ h => h) op

@[elab_as_elim, induction_eliminator]
theorem Expr.induction {motive : Expr → Prop}
    (lit : ∀ value pos, motive (.lit value pos))
    (ident : ∀ name pos, motive (.ident name pos))
    (unary : ∀ op operand pos, motive operand → motive (.unary op operand pos))
    (binary : ∀ op left right pos, motive left → motive right → motive (.binary op left right pos))
    (cond : ∀ condition yes no pos, motive condition → motive yes → motive no →
      motive (.cond condition yes no pos))
    (call : ∀ callee args pos, motive callee → (∀ a ∈ args, motive a) →
      motive (.call callee args pos))
    (index : ∀ target index pos, motive target → motive index → motive (.index target index pos))
    (field : ∀ target name pos, motive target → motive (.field target name pos))
    (list : ∀ items pos, (∀ a ∈ items, motive a) → motive (.list items pos))
    (record : ∀ fields pos, (∀ f ∈ fields, motive f.value) → motive (.record fields pos))
    (lambda : ∀ params body pos, motive body → motive (.lambda params body pos))
    (letIn : ∀ bindings body pos, (∀ b ∈ bindings, motive b.value) → motive body →
      motive (.letIn bindings body pos))
    (e : Expr) : motive e :=
  @Expr.rec motive (fun as => ∀ a ∈ as, motive a) (fun bs => ∀ b ∈ bs, motive b.value)
    (fun b => motive b.value)
    lit ident unary binary cond call index field list record lambda letIn
    (List.forall_mem_nil _) (fun _ _ h hs => List.forall_mem_cons.2 ⟨h, hs⟩)
    (List.forall_mem_nil _) (fun _ _ h hs => List.forall_mem_cons.2 ⟨h, hs⟩)
    (fun _ _ _ h => h) e

@[elab_as_elim, induction_eliminator]
theorem Value.induction {motive : Value → Prop}
    (null : motive .null) (bool : ∀ b, motive (.bool b)) (num : ∀ x, motive (.num x))
    (str : ∀ s, motive (.str s))
    (list : ∀ items, (∀ v ∈ items, motive v) → motive (.list items))
    (record : ∀ fields, (∀ f ∈ fields, motive f.2) → motive (.record fields))
    (function : ∀ code captured origin, (∀ v ∈ captured, motive v) →
      motive (.function code captured origin))
    (v : Value) : motive v :=
  @Value.rec motive (fun vs => ∀ v ∈ vs, motive v) (fun fs => ∀ f ∈ fs, motive f.2)
    (fun f => motive f.2)
    null bool num str list record function
    (List.forall_mem_nil _) (fun _ _ h hs => List.forall_mem_cons.2 ⟨h, hs⟩)
    (List.forall_mem_nil _) (fun _ _ h hs => List.forall_mem_cons.2 ⟨h, hs⟩)
    (fun _ _ h => h) v

@[elab_as_elim, induction_eliminator]
theorem Shader.Code.induction {motive : Shader.Code → Prop}
    (var : ∀ name, motive (.var name)) (num : ∀ x, motive (.num x)) (bool : ∀ b, motive (.bool b))
    (construct : ∀ ty parts, (∀ c ∈ parts, motive c) → motive (.construct ty parts))
    (unary : ∀ op operand, motive operand → motive (.unary op operand))
    (binary : ∀ op left right, motive left → motive right → motive (.binary op left right))
    (call : ∀ b args, (∀ c ∈ args, motive c) → motive (.call b args))
    (component : ∀ target place, motive target → motive (.component target place))
    (index : ∀ target place, motive target → motive place → motive (.index target place))
    (select : ∀ condition yes no, motive condition → motive yes → motive no →
      motive (.select condition yes no))
    (c : Shader.Code) : motive c :=
  @Shader.Code.rec motive (fun cs => ∀ c ∈ cs, motive c)
    var num bool construct unary binary call component index select
    (List.forall_mem_nil _) (fun _ _ h hs => List.forall_mem_cons.2 ⟨h, hs⟩) c

/-! ## Sequential composition -/

section

variable {ε σ α β : Type}

@[simp] theorem Except.ok_bind (a : α) (f : α → Except ε β) : (Except.ok a >>= f) = f a := rfl

@[simp] theorem Except.error_bind (e : ε) (f : α → Except ε β) :
    (Except.error e >>= f) = .error e := rfl

theorem Except.bind_eq_ok {x : Except ε α} {f : α → Except ε β} {b : β} :
    (x >>= f) = .ok b ↔ ∃ a, x = .ok a ∧ f a = .ok b := by
  cases x with
  | ok a => simp
  | error e => simp

theorem Except.isOk_iff {x : Except ε α} : x.isOk = true ↔ ∃ a, x = .ok a := by
  cases x with
  | ok a => exact ⟨fun _ => ⟨a, rfl⟩, fun _ => rfl⟩
  | error e => exact ⟨fun h => (nomatch h), fun ⟨_, h⟩ => (nomatch h)⟩

theorem EStateM.bind_eq_ok {x : EStateM ε σ α} {f : α → EStateM ε σ β} {b : β} {s t : σ} :
    (x >>= f) s = .ok b t ↔ ∃ a u, x s = .ok a u ∧ f a u = .ok b t := by
  simp only [bind, EStateM.bind]
  cases x s with
  | ok a u =>
    simp only [EStateM.Result.ok.injEq]
    exact ⟨fun h => ⟨a, u, ⟨rfl, rfl⟩, h⟩, fun ⟨_, _, ⟨rfl, rfl⟩, h⟩ => h⟩
  | error e u => simp

theorem EStateM.pure_eq_ok {a b : α} {s t : σ} :
    (pure a : EStateM ε σ α) s = .ok b t ↔ b = a ∧ t = s := by
  simp only [pure, EStateM.pure, EStateM.Result.ok.injEq, eq_comm]

theorem EStateM.get_eq_ok {s t u : σ} : (get : EStateM ε σ σ) s = .ok t u ↔ s = t ∧ s = u := by
  change (EStateM.Result.ok s s : EStateM.Result ε σ σ) = .ok t u ↔ _
  rw [EStateM.Result.ok.injEq]

end

/-! ## Outcomes -/

/-- The computation ends with a result in `P`, or with an error in `E`. -/
def Ends {ε α : Type} (E : ε → Prop) (P : α → Prop) : Except ε α → Prop
  | .ok a => P a
  | .error e => E e

namespace Ends

variable {ε α β : Type} {E : ε → Prop} {P : α → Prop} {Q : β → Prop} {x : Except ε α}

theorem of_eq_ok (h : Ends E P x) {a : α} (hx : x = .ok a) : P a := by
  subst hx
  exact h

theorem of_eq_error (h : Ends E P x) {e : ε} (hx : x = .error e) : E e := by
  subst hx
  exact h

theorem bind {f : α → Except ε β} (hx : Ends E P x) (hf : ∀ a, P a → Ends E Q (f a)) :
    Ends E Q (x >>= f) := by
  cases x with
  | ok a => exact hf a hx
  | error e => exact hx

theorem mono {Q : α → Prop} (h : Ends E P x) (hPQ : ∀ a, P a → Q a) : Ends E Q x := by
  cases x with
  | ok a => exact hPQ a h
  | error e => exact h

theorem mono_error {E' : ε → Prop} (h : Ends E P x) (hE : ∀ e, E e → E' e) : Ends E' P x := by
  cases x with
  | ok a => exact h
  | error e => exact hE e h

end Ends

/-! ## Related lists -/

section

variable {α β : Type} {R : α → β → Prop}

theorem getElem?_rel {as : List α} {bs : List β} (h : List.Forall₂ R as bs) (i : Nat) :
    Option.Rel R as[i]? bs[i]? := by
  induction h generalizing i with
  | nil => exact .none
  | cons hab _ ih =>
    cases i with
    | zero => exact .some hab
    | succ i => exact ih i

theorem exists_of_rel_some {x : Option α} {y : Option β} (h : Option.Rel R x y) {a : α}
    (hx : x = some a) : ∃ b, y = some b ∧ R a b := by
  cases h with
  | some hab => cases hx; exact ⟨_, rfl, hab⟩
  | none => cases hx

theorem eq_none_of_rel {x : Option α} {y : Option β} (h : Option.Rel R x y) (hx : x = none) :
    y = none := by
  cases h with
  | some hab => cases hx
  | none => rfl

end

end DistanceField
