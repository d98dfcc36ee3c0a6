import DistanceField.Proofs.Induction
import DistanceField.Shader.Compile
import Mathlib.Tactic.SplitIfs

/-!
# How compilation changes a draft

Compilation emits statements and fills the slots of the `let` bindings that it meets.
Whatever these two steps do to a draft, any compilation does, whether it succeeds or not.

* `Moves`, `draftLeft`: what a computation does to a draft, and the draft that it leaves.
* `Operation.writes`: the slots that an operation fills.
* `Operation.compileWith_moves`: a relation that emitting, calling and filling these
  slots respect is respected by the whole compilation.
* `compileWith_grows`, `expandWithin_grows`: statements are only added, with the names
  that follow.
* `compileWith_keeps`: slots that are not filled keep their values.
-/

namespace DistanceField

open Shader

/-! ## Steps that respect a relation -/

/-- The computation leads only to states that are related to the one it starts in, also
when it fails. -/
def Moves {ε σ α : Type} (R : σ → σ → Prop) (x : EStateM ε σ α) : Prop :=
  ∀ s, match x s with
    | .ok _ t => R s t
    | .error _ t => R s t

namespace Moves

variable {ε σ α β : Type} {R : σ → σ → Prop} {x : EStateM ε σ α}

theorem ok (h : Moves R x) {s t : σ} {a : α} (hx : x s = .ok a t) : R s t := by
  have := h s
  rwa [hx] at this

theorem error (h : Moves R x) {s t : σ} {e : ε} (hx : x s = .error e t) : R s t := by
  have := h s
  rwa [hx] at this

theorem bind (trans : ∀ a b c, R a b → R b c → R a c) {f : α → EStateM ε σ β} (hx : Moves R x)
    (hf : ∀ a, Moves R (f a)) : Moves R (x >>= f) := by
  intro s
  simp only [Bind.bind, EStateM.bind]
  cases hs : x s with
  | error e t => exact hx.error hs
  | ok a t =>
    dsimp only
    cases ht : f a t with
    | ok b u => exact trans _ _ _ (hx.ok hs) ((hf a).ok ht)
    | error e u => exact trans _ _ _ (hx.ok hs) ((hf a).error ht)

theorem pure (refl : ∀ a, R a a) (a : α) : Moves R (Pure.pure a : EStateM ε σ α) :=
  fun s => refl s

end Moves

/-- The draft that a computation leaves, whether it succeeds or not. -/
def draftLeft {α : Type} : EStateM.Result (Failure EvalError) Draft α → Draft
  | .ok _ d => d
  | .error _ d => d

theorem Moves.draftLeft {α : Type} {R : Draft → Draft → Prop} {x : Compile α} (h : Moves R x) (d : Draft) :
    R d (draftLeft (x d)) := by
  have hstep := h d
  cases hx : x d with
  | ok v d' => rwa [hx] at hstep
  | error err d' => rwa [hx] at hstep

/-! ## The slots that an operation fills -/

mutual

/-- The slots of the `let` bindings of an operation, those of functions that it makes
apart. The arguments of a call come before the function that is called. -/
def Operation.writes : Operation → List Nat
  | .const _ _ => []
  | .load _ _ => []
  | .lambda _ _ => []
  | .call callee args _ => writesOfAll args ++ callee.writes
  | .builtin _ args _ => writesOfAll args
  | .unary _ e _ => e.writes
  | .binary _ l r _ => l.writes ++ r.writes
  | .cond c a b _ => c.writes ++ a.writes ++ b.writes
  | .letIn bindings body _ => writesOfBindings bindings ++ body.writes
  | .list items _ => writesOfAll items
  | .record fields _ => writesOfFields fields
  | .field e _ _ => e.writes
  | .index e i _ => e.writes ++ i.writes

def writesOfAll : List Operation → List Nat
  | [] => []
  | op :: ops => op.writes ++ writesOfAll ops

def writesOfBindings : List (Nat × Operation) → List Nat
  | [] => []
  | (slot, op) :: bs => op.writes ++ slot :: writesOfBindings bs

def writesOfFields : List (String × Operation) → List Nat
  | [] => []
  | (_, op) :: fs => op.writes ++ writesOfFields fs

end

section

variable {R : Draft → Draft → Prop} (refl : ∀ d, R d d) (trans : ∀ a b c, R a b → R b c → R a c)
  {expand : Expansion → EStateM (Failure EvalError) Emission Typed} {captured : List Value}
  {chain : Chain}

include refl in
theorem Compile.fail_moves {α : Type} (pos : Pos) (fault : Fault) :
    Moves R (Compile.fail chain pos fault : Compile α) :=
  fun d => refl d

include refl in
theorem Compile.locate_moves {α : Type} (pos : Pos) (r : Except Fault α) :
    Moves R (Compile.locate chain pos r) := by
  cases r with
  | ok a => exact Moves.pure refl a
  | error f => exact Compile.fail_moves refl pos f

include refl in
theorem Compile.literal_moves (pos : Pos) (v : Value) : Moves R (Compile.literal chain pos v) := by
  unfold Compile.literal
  cases Typed.ofValue? v with
  | some t => exact Moves.pure refl t
  | none => exact Compile.fail_moves refl pos _

variable (hemit : ∀ ty code, Moves R (Compile.emit ty code))

include refl hemit in
theorem Compile.component_moves (pos : Pos) (v : Typed) (name : String) :
    Moves R (Compile.component chain pos v name) := by
  unfold Compile.component
  cases componentOf? name with
  | none => split_ifs <;> exact Compile.fail_moves refl pos _
  | some i =>
    dsimp only
    split_ifs
    · exact Compile.fail_moves refl pos _
    · exact hemit _ _
    · exact Compile.fail_moves refl pos _

include refl hemit in
theorem Compile.element_moves (pos : Pos) (v i : Typed) : Moves R (Compile.element chain pos v i) := by
  unfold Compile.element
  split_ifs
  · exact Compile.fail_moves refl pos _
  · exact Compile.fail_moves refl pos _
  · split
    · split
      · exact hemit _ _
      · exact Compile.fail_moves refl pos _
    · exact hemit _ _

include refl trans hemit in
theorem Compile.builtin_moves (pos : Pos) (b : Builtin) (args : List Typed) :
    Moves R (Compile.builtin chain pos b args) :=
  (Compile.locate_moves refl pos _).bind trans fun _ => hemit _ _

include refl trans hemit in
theorem Compile.binary_moves (pos : Pos) (op : BinaryOp) (l r : Typed) :
    Moves R (Compile.binary chain pos op l r) := by
  refine (Compile.locate_moves refl pos _).bind trans fun ty => ?_
  split_ifs
  · exact hemit _ _
  · exact hemit _ _

include refl hemit in
theorem Compile.vector_moves (ty : Ty) (parts : List Code) : Moves R (Compile.vector ty parts) := by
  unfold Compile.vector
  dsimp only
  split_ifs
  · exact Moves.pure refl _
  · exact hemit _ _

/-! ## Lists of operations -/

include refl trans in
theorem compileAll_moves {ops : List Operation}
    (h : ∀ op ∈ ops, Moves R (op.compileWith expand captured chain)) :
    Moves R (compileAll expand captured chain ops) := by
  induction ops with
  | nil => exact Moves.pure refl _
  | cons op ops ih =>
    rw [compileAll]
    refine (h op (by simp)).bind trans fun v => ?_
    exact (ih fun o ho => h o (by simp [ho])).bind trans fun vs => Moves.pure refl _

include refl trans in
theorem compileParts_moves {ops : List Operation}
    (h : ∀ op ∈ ops, Moves R (op.compileWith expand captured chain)) :
    Moves R (compileParts expand captured chain ops) := by
  induction ops with
  | nil => exact Moves.pure refl _
  | cons op ops ih =>
    rw [compileParts]
    refine (h op (by simp)).bind trans fun v => ?_
    split_ifs
    · exact (ih fun o ho => h o (by simp [ho])).bind trans fun vs => Moves.pure refl _
    · exact Compile.fail_moves refl _ _

include refl trans in
theorem compileBindings_moves {bs : List (Nat × Operation)}
    (h : ∀ b ∈ bs, Moves R (b.2.compileWith expand captured chain))
    (hset : ∀ slot ∈ writesOfBindings bs, ∀ v, Moves R (Compile.setSlot slot v)) :
    Moves R (compileBindings expand captured chain bs) := by
  induction bs with
  | nil => exact Moves.pure refl _
  | cons b bs ih =>
    obtain ⟨slot, op⟩ := b
    rw [compileBindings]
    refine (h (slot, op) (by simp)).bind trans fun v => ?_
    refine (hset slot (by simp [writesOfBindings]) v).bind trans fun _ => ?_
    exact ih (fun b hb => h b (by simp [hb])) fun s hs => hset s (by simp [writesOfBindings, hs])

theorem writes_subset_writesOfAll {op : Operation} {ops : List Operation} (h : op ∈ ops) :
    op.writes ⊆ writesOfAll ops := by
  induction h with
  | head ops => simp [writesOfAll]
  | tail o _ ih => exact fun s hs => by simp [writesOfAll, ih hs]

theorem writes_subset_writesOfBindings {b : Nat × Operation} {bs : List (Nat × Operation)}
    (h : b ∈ bs) : b.2.writes ⊆ writesOfBindings bs := by
  induction h with
  | head bs => simp [writesOfBindings]
  | tail o _ ih => exact fun s hs => by simp [writesOfBindings, ih hs]

include refl trans hemit in
/-- **Compilation does to a draft what its steps do.** -/
theorem Operation.compileWith_moves (hcall : ∀ x, Moves R (Compile.call expand x)) (op : Operation)
    (hset : ∀ slot ∈ op.writes, ∀ v, Moves R (Compile.setSlot slot v)) :
    Moves R (op.compileWith expand captured chain) := by
  induction op with
  | const value pos =>
    rw [compileWith]
    exact Compile.literal_moves refl pos _
  | load ref pos =>
    cases ref with
    | slot i =>
      rw [compileWith]
      refine Moves.bind trans (fun d => refl d) fun d => ?_
      cases d.slots.get? i with
      | some v => exact Moves.pure refl v
      | none => exact Compile.fail_moves refl pos _
    | captured i =>
      rw [compileWith]
      cases captured[i]? with
      | some v => exact Compile.literal_moves refl pos v
      | none => exact Compile.fail_moves refl pos _
  | lambda signature body ih =>
    rw [compileWith]
    exact Compile.fail_moves refl _ _
  | call callee args pos _ ih =>
    rw [compileWith]
    cases (callee.known? captured).bind Value.closure? with
    | none => exact Compile.fail_moves refl pos _
    | some f =>
      refine Moves.bind trans (compileAll_moves refl trans fun a ha => ?_) fun vs => hcall _
      refine ih a ha fun s hs => hset s ?_
      simp [writes, writes_subset_writesOfAll ha hs]
  | builtin b args pos ih =>
    rw [compileWith]
    refine Moves.bind trans (compileAll_moves refl trans fun a ha => ?_) fun vs =>
      Compile.builtin_moves refl trans hemit pos b vs
    exact ih a ha fun s hs => hset s (by simp [writes, writes_subset_writesOfAll ha hs])
  | unary op operand pos ih =>
    rw [compileWith]
    refine (ih fun s hs => hset s (by simpa [writes] using hs)).bind trans fun v => ?_
    exact (Compile.locate_moves refl pos _).bind trans fun ty => hemit _ _
  | binary op left right pos ihl ihr =>
    rw [compileWith]
    refine (ihl fun s hs => hset s (by simp [writes, hs])).bind trans fun l => ?_
    refine (ihr fun s hs => hset s (by simp [writes, hs])).bind trans fun r => ?_
    exact Compile.binary_moves refl trans hemit pos op l r
  | cond condition yes no pos ihc iha ihb =>
    rw [compileWith]
    have ha := iha fun s hs => hset s (by simp [writes, hs])
    have hb := ihb fun s hs => hset s (by simp [writes, hs])
    refine (ihc fun s hs => hset s (by simp [writes, hs])).bind trans fun c => ?_
    split_ifs
    · exact Compile.fail_moves refl pos _
    · split
      · exact ha
      · exact hb
      · refine ha.bind trans fun a => hb.bind trans fun b => ?_
        split_ifs
        · exact hemit _ _
        · exact Compile.fail_moves refl pos _
  | letIn bindings body pos ihs ih =>
    rw [compileWith]
    refine Moves.bind trans (compileBindings_moves refl trans (fun b hb => ?_) fun s hs =>
      hset s (by simp [writes, hs])) fun _ => ih fun s hs => hset s (by simp [writes, hs])
    exact ihs b hb fun s hs => hset s (by simp [writes, writes_subset_writesOfBindings hb hs])
  | list items pos ih =>
    rw [compileWith]
    cases Ty.vector? items.length with
    | none => exact Compile.fail_moves refl pos _
    | some ty =>
      refine Moves.bind trans (compileParts_moves refl trans fun a ha => ?_) fun parts =>
        Compile.vector_moves refl hemit ty parts
      exact ih a ha fun s hs => hset s (by simp [writes, writes_subset_writesOfAll ha hs])
  | record fields pos ih =>
    rw [compileWith]
    exact Compile.fail_moves refl pos _
  | field target name pos ih =>
    rw [compileWith]
    have hcomponent : Moves R (target.compileWith expand captured chain >>= fun v =>
        Compile.component chain pos v name) :=
      (ih fun s hs => hset s (by simpa [writes] using hs)).bind trans fun v =>
        Compile.component_moves refl hemit pos v name
    cases (Operation.field target name pos).known? captured with
    | some v => exact Compile.literal_moves refl pos v
    | none =>
      dsimp only
      split
      · exact Compile.fail_moves refl pos _
      · exact hcomponent
  | index target index pos iht ihi =>
    rw [compileWith]
    refine (iht fun s hs => hset s (by simp [writes, hs])).bind trans fun v => ?_
    refine (ihi fun s hs => hset s (by simp [writes, hs])).bind trans fun i => ?_
    exact Compile.element_moves refl hemit pos v i

end

/-! ## Statements are only added -/

namespace Shader.Emission

/-- Statements were added, named by the numbers that follow. -/
def Grows (e e' : Emission) : Prop :=
  ∃ new : List Statement, e'.statements = e.statements ++ new ∧
    e'.nextName = e.nextName + new.length ∧
    new.map Statement.name = (List.range' e.nextName new.length).map nameOf

theorem Grows.refl (e : Emission) : e.Grows e := ⟨[], by simp⟩

theorem Grows.trans {a b c : Emission} (hab : a.Grows b) (hbc : b.Grows c) : a.Grows c := by
  obtain ⟨new, hs, hn, hnames⟩ := hab
  obtain ⟨new', hs', hn', hnames'⟩ := hbc
  refine ⟨new ++ new', ?_, ?_, ?_⟩
  · rw [hs', hs, List.append_assoc]
  · rw [hn', hn, List.length_append]; omega
  · rw [List.map_append, hnames, hnames', hn, List.length_append, ← List.map_append,
      List.range'_append_1]

theorem grows_emit (e : Emission) (ty : Ty) (code : Code) : e.Grows (e.emit ty code).2 :=
  ⟨[⟨nameOf e.nextName, ty, code⟩], rfl, rfl, rfl⟩

theorem Grows.subset {e e' : Emission} (h : e.Grows e') : e.statements ⊆ e'.statements := by
  obtain ⟨new, hs, -, -⟩ := h
  rw [hs]
  exact List.subset_append_left _ _

theorem Grows.within {e e' : Emission} (h : e.Grows e') {L : List Statement} (hL : e'.statements ⊆ L) :
    e.statements ⊆ L :=
  List.Subset.trans h.subset hL

end Shader.Emission

/-- Statements were added to the draft, and its frame has as many slots as before. -/
structure Draft.Grows (d d' : Draft) : Prop where
  emission : d.emission.Grows d'.emission
  length : d'.slots.length = d.slots.length

theorem Draft.Grows.refl (d : Draft) : d.Grows d := ⟨.refl _, rfl⟩

theorem Draft.Grows.trans (a b c : Draft) (hab : a.Grows b) (hbc : b.Grows c) : a.Grows c :=
  ⟨hab.emission.trans hbc.emission, hbc.length.trans hab.length⟩

/-- What holds all statements of the later draft holds those of the earlier one. -/
theorem Draft.Grows.within {d d' : Draft} (h : d.Grows d') {L : List Statement}
    (hL : d'.emission.statements ⊆ L) : d.emission.statements ⊆ L :=
  h.emission.within hL

theorem Compile.emit_grows (ty : Ty) (code : Code) : Moves Draft.Grows (Compile.emit ty code) :=
  fun d => ⟨Emission.grows_emit d.emission ty code, rfl⟩

theorem Compile.setSlot_grows (slot : Nat) (v : Typed) : Moves Draft.Grows (Compile.setSlot slot v) := by
  intro d
  unfold Compile.setSlot
  cases hset : d.slots.set? slot v with
  | none => exact .refl d
  | some slots => exact ⟨.refl _, Slots.length_set? hset⟩

section

variable {expand : Expansion → EStateM (Failure EvalError) Emission Typed} {captured : List Value}
  {chain : Chain}

theorem Compile.call_grows {x : Expansion} (h : Moves Emission.Grows (expand x)) :
    Moves Draft.Grows (Compile.call expand x) := by
  intro d
  unfold Compile.call
  cases hx : expand x d.emission with
  | ok v e => exact ⟨h.ok hx, rfl⟩
  | error err e => exact ⟨h.error hx, rfl⟩

theorem compileWith_grows (h : ∀ x, Moves Emission.Grows (expand x)) (op : Operation) :
    Moves Draft.Grows (op.compileWith expand captured chain) :=
  op.compileWith_moves Draft.Grows.refl Draft.Grows.trans Compile.emit_grows
    (fun x => Compile.call_grows (h x)) fun slot _ v => Compile.setSlot_grows slot v

end

theorem inFrame_grows {body : Compile Typed} (h : Moves Draft.Grows body) (slots : Option (Slots Typed)) :
    Moves Emission.Grows (inFrame body slots) := by
  intro e
  cases slots with
  | none => exact .refl e
  | some s =>
    simp only [inFrame]
    cases hb : body ⟨s, e⟩ with
    | ok v d => exact (h.ok hb).emission
    | error err d => exact (h.error hb).emission

theorem Expansion.enterWith_grows {compile : Closure → Chain → Compile Typed}
    (h : ∀ f chain, Moves Draft.Grows (compile f chain)) (x : Expansion) :
    Moves Emission.Grows (x.enterWith compile) := by
  intro e
  unfold Expansion.enterWith
  dsimp only
  split_ifs
  · exact .refl e
  · exact inFrame_grows (h _ _) _ e

/-- **The expansion of a call only adds statements**, also when it fails. -/
theorem expandWithin_grows (limit : Nat) :
    ∀ budget f chain, Moves Draft.Grows (expandWithin limit budget f chain) := by
  intro budget
  induction budget with
  | zero =>
    intro f chain
    rw [expandWithin]
    refine Moves.bind Draft.Grows.trans (fun d => .refl d) fun d => ?_
    dsimp only
    split_ifs <;> exact Compile.fail_moves .refl _ _
  | succ budget ih =>
    intro f chain
    rw [expandWithin]
    refine Moves.bind Draft.Grows.trans (fun d => .refl d) fun d => ?_
    dsimp only
    split_ifs
    · exact Compile.fail_moves .refl _ _
    · exact Compile.fail_moves .refl _ _
    · exact compileWith_grows (fun x => Expansion.enterWith_grows ih x) f.body

/-! ## Slots that are not filled keep their values -/

/-- The slots of a scope hold in the second draft what they hold in the first. -/
def Draft.Keeps (scope : List Nat) (d d' : Draft) : Prop :=
  ∀ i ∈ scope, d'.slots.get? i = d.slots.get? i

theorem compileWith_keeps {expand : Expansion → EStateM (Failure EvalError) Emission Typed}
    {captured : List Value} {chain : Chain} {scope : List Nat} {op : Operation}
    (h : ∀ slot ∈ op.writes, slot ∉ scope) :
    Moves (Draft.Keeps scope) (op.compileWith expand captured chain) := by
  refine op.compileWith_moves ?_ ?_ ?_ ?_ ?_
  · exact fun d i _ => rfl
  · exact fun a b c hab hbc i hi => (hbc i hi).trans (hab i hi)
  · exact fun ty code d i _ => rfl
  · intro x d
    unfold Compile.call
    cases expand x d.emission with
    | ok v e => exact fun i _ => rfl
    | error err e => exact fun i _ => rfl
  · intro slot hslot v d
    unfold Compile.setSlot
    cases hset : d.slots.set? slot v with
    | none => exact fun i _ => rfl
    | some slots =>
      intro i hi
      refine Slots.get?_set?_of_ne hset ?_
      rintro rfl
      exact h slot hslot hi

end DistanceField
