import DistanceField.Proofs.StraightLine

/-!
# Compilation commutes with renaming

Compilation looks at the types of values and at their literals, and never at the names of
variables. So it does the same in a draft whose variables are renamed, also when the
generated names there start at another number and when other statements stand before:
statements, results and slots come out renamed, and errors are the same.

* `Renaming`: renamings of variables that shift the generated names.
* `Commutes`: a computation that does the same in renamed states.
* `expandWithin_commutes`: the code of a call.
* `Shape.emitDistance_commutes`: the code of a distance.
-/

namespace DistanceField

open Shader

/-! ## Renamed code -/

mutual

/-- The expression with every variable renamed. -/
def Shader.Code.rename (f : String → String) : Code → Code
  | .var x => .var (f x)
  | .num x => .num x
  | .bool b => .bool b
  | .construct ty parts => .construct ty (renameAll f parts)
  | .unary op e => .unary op (e.rename f)
  | .binary op l r => .binary op (l.rename f) (r.rename f)
  | .call b args => .call b (renameAll f args)
  | .component e i => .component (e.rename f) i
  | .index e i => .index (e.rename f) (i.rename f)
  | .select c a b => .select (c.rename f) (a.rename f) (b.rename f)

def Shader.Code.renameAll (f : String → String) : List Code → List Code
  | [] => []
  | c :: cs => c.rename f :: renameAll f cs

end

def Shader.Typed.rename (f : String → String) (v : Typed) : Typed :=
  ⟨v.ty, v.code.rename f⟩

def Shader.Statement.rename (f : String → String) (st : Statement) : Statement :=
  ⟨f st.name, st.ty, st.code.rename f⟩

section

variable {f : String → String}

theorem Shader.Code.renameAll_eq_map (cs : List Code) : Code.renameAll f cs = cs.map (Code.rename f) := by
  induction cs with
  | nil => rfl
  | cons c cs ih => rw [renameAll, ih, List.map_cons]

@[simp] theorem Shader.Code.isLiteral_rename (c : Code) : (c.rename f).isLiteral = c.isLiteral := by
  induction c with
  | construct ty parts ih =>
    rw [rename, isLiteral, isLiteral, Bool.eq_iff_iff, allLiteral_iff,
      allLiteral_iff, renameAll_eq_map, List.forall_mem_map]
    exact forall₂_congr fun c hc => by rw [ih c hc]
  | _ => rfl

@[simp] theorem Shader.Typed.ty_rename (v : Typed) : (v.rename f).ty = v.ty := rfl

@[simp] theorem Shader.Typed.code_rename (v : Typed) : (v.rename f).code = v.code.rename f := rfl

theorem Shader.Typed.widenTo_rename (v : Typed) (ty : Ty) :
    (v.rename f).widenTo ty = (v.widenTo ty).rename f := by
  unfold widenTo
  rw [ty_rename, code_rename]
  split <;> rfl

/-- Literals have no variables. -/
theorem Shader.Typed.rename_of_ofValue? {v : Value} {t : Typed} (h : Typed.ofValue? v = some t) :
    t.rename f = t := by
  unfold ofValue? at h
  split at h
  · cases h
    rfl
  · cases h
    rfl
  · obtain ⟨xs, -, h⟩ := Option.bind_eq_some_iff.1 h
    obtain ⟨ty, -, h⟩ := Option.bind_eq_some_iff.1 h
    cases h
    have hparts : Code.renameAll f (xs.map Code.num) = xs.map Code.num := by
      rw [Code.renameAll_eq_map, List.map_map]
      rfl
    rw [rename, Code.rename, hparts]

end

/-! ## Computations on renamed states -/

/-- On renamed states, `y` does what `x` does, with a renamed result. -/
def Commutes {ε σ α : Type} (m : σ → σ) (g : α → α) (x y : EStateM ε σ α) : Prop :=
  ∀ s, y (m s) = match x s with
    | .ok a t => .ok (g a) (m t)
    | .error e t => .error e (m t)

namespace Commutes

variable {ε σ α β : Type} {m : σ → σ} {g : α → α} {h : β → β} {x y : EStateM ε σ α}

theorem pure (a : α) : Commutes m g (Pure.pure a : EStateM ε σ α) (Pure.pure (g a)) := fun _ => rfl

theorem throw (e : ε) : Commutes m g (MonadExcept.throw e : EStateM ε σ α) (MonadExcept.throw e) :=
  fun _ => rfl

theorem bind {f f' : α → EStateM ε σ β} (hx : Commutes m g x y)
    (hf : ∀ a, Commutes m h (f a) (f' (g a))) : Commutes m h (x >>= f) (y >>= f') := by
  intro s
  have hstep := hx s
  simp only [Bind.bind, EStateM.bind]
  cases hxs : x s with
  | error e t =>
    rw [hxs] at hstep
    rw [hstep]
  | ok a t =>
    rw [hxs] at hstep
    rw [hstep]
    exact hf a t

/-- A computation that looks at the state. -/
theorem get {f f' : σ → EStateM ε σ β} (hf : ∀ s, Commutes m h (f s) (f' (m s))) :
    Commutes m h (MonadState.get >>= f) (MonadState.get >>= f') :=
  fun s => hf s s

end Commutes

/-! ## Renamings -/

/-- **A renaming of variables** that shifts the generated names by a number. -/
structure Renaming where
  name : String → String
  shift : Nat
  name_nameOf : ∀ n, name (Emission.nameOf n) = Emission.nameOf (n + shift)

namespace Renaming

variable (r : Renaming) (before : List Statement)

/-- The renamed emission, after other statements. -/
def emission (e : Emission) : Emission :=
  ⟨e.nextName + r.shift, before ++ e.statements.map (Statement.rename r.name)⟩

def slots (slots : Slots Typed) : Slots Typed :=
  slots.map (Option.map (Typed.rename r.name))

def draft (d : Draft) : Draft :=
  ⟨r.slots d.slots, r.emission before d.emission⟩

def expansion (x : Expansion) : Expansion :=
  { x with args := x.args.map (Typed.rename r.name) }

theorem emit_emission (e : Emission) (ty : Ty) (code : Code) :
    (r.emission before e).emit ty (code.rename r.name) =
      ((e.emit ty code).1.rename r.name, r.emission before (e.emit ty code).2) := by
  have hname : Emission.nameOf (e.nextName + r.shift) = r.name (Emission.nameOf e.nextName) :=
    (r.name_nameOf _).symm
  simp only [Emission.emit, Emission.freshName, emission, hname, Typed.rename, Code.rename,
    List.map_append, List.map_cons, List.map_nil, Statement.rename, List.append_assoc]
  rw [Nat.add_right_comm]

@[simp] theorem length_slots (slots : Slots Typed) : (r.slots slots).length = slots.length :=
  List.length_map _

theorem get?_slots (slots : Slots Typed) (i : Nat) :
    (r.slots slots).get? i = (slots.get? i).map (Typed.rename r.name) := by
  unfold Slots.get? Renaming.slots
  rw [List.getElem?_map]
  cases slots[i]? <;> rfl

theorem set?_slots (slots : Slots Typed) (i : Nat) (v : Typed) :
    (r.slots slots).set? i (v.rename r.name) = (slots.set? i v).map r.slots := by
  unfold Slots.set?
  rw [length_slots]
  split
  · rw [Option.map_some, Renaming.slots, Renaming.slots, List.map_set]
    rfl
  · rfl

theorem given_slots (slots : Slots Typed) (n : Nat) : (r.slots slots).given n = slots.given n := by
  unfold Slots.given Renaming.slots
  rw [← List.map_take, List.takeWhile_map, List.length_map]
  congr 2
  funext v
  cases v <;> rfl

theorem ofArgs?_slots (size : Nat) (args : List Typed) :
    Slots.ofArgs? size (args.map (Typed.rename r.name)) = (Slots.ofArgs? size args).map r.slots := by
  unfold Slots.ofArgs?
  rw [List.length_map]
  split
  · rw [Option.map_some, Renaming.slots, List.map_append, List.map_replicate, List.map_map, List.map_map]
    rfl
  · rfl

end Renaming

/-! ## Steps of compilation -/

section

variable {r : Renaming} {before : List Statement} {chain : Chain}

theorem Compile.fail_commutes {α : Type} {g : α → α} (pos : Pos) (fault : Fault) :
    Commutes (r.draft before) g (Compile.fail chain pos fault) (Compile.fail chain pos fault) :=
  .throw _

/-- Typing rules see no names. -/
theorem Compile.locate_commutes {α : Type} (pos : Pos) (res : Except Fault α) :
    Commutes (r.draft before) id (Compile.locate chain pos res) (Compile.locate chain pos res) := by
  cases res with
  | ok a => exact .pure a
  | error fault => exact Compile.fail_commutes pos fault

theorem Compile.emit_commutes (ty : Ty) (code : Code) :
    Commutes (r.draft before) (Typed.rename r.name) (Compile.emit ty code)
      (Compile.emit ty (code.rename r.name)) := by
  intro d
  simp only [Compile.emit, Renaming.draft, Renaming.emit_emission]

theorem Compile.setSlot_commutes (slot : Nat) (v : Typed) :
    Commutes (r.draft before) id (Compile.setSlot slot v) (Compile.setSlot slot (v.rename r.name)) := by
  intro d
  simp only [Compile.setSlot, Renaming.draft, Renaming.set?_slots]
  cases d.slots.set? slot v <;> rfl

theorem Compile.literal_commutes (pos : Pos) (v : Value) :
    Commutes (r.draft before) (Typed.rename r.name) (Compile.literal chain pos v)
      (Compile.literal chain pos v) := by
  unfold Compile.literal
  cases ht : Typed.ofValue? v with
  | none => exact Compile.fail_commutes pos _
  | some t =>
    have hpure : Commutes (r.draft before) (Typed.rename r.name) (pure t : Compile Typed)
        (pure (t.rename r.name)) := .pure t
    rwa [Typed.rename_of_ofValue? ht] at hpure

theorem Compile.component_commutes (pos : Pos) (v : Typed) (name : String) :
    Commutes (r.draft before) (Typed.rename r.name) (Compile.component chain pos v name)
      (Compile.component chain pos (v.rename r.name) name) := by
  unfold Compile.component
  rw [Typed.ty_rename]
  split_ifs
  · exact Compile.fail_commutes pos _
  · cases componentOf? name with
    | none => exact Compile.fail_commutes pos _
    | some i =>
      dsimp only
      split_ifs
      · exact Compile.emit_commutes .float (.component v.code i)
      · exact Compile.fail_commutes pos _

theorem Compile.element_commutes (pos : Pos) (v i : Typed) :
    Commutes (r.draft before) (Typed.rename r.name) (Compile.element chain pos v i)
      (Compile.element chain pos (v.rename r.name) (i.rename r.name)) := by
  unfold Compile.element
  rw [Typed.ty_rename, Typed.ty_rename, Typed.code_rename]
  split_ifs
  · exact Compile.fail_commutes pos _
  · exact Compile.fail_commutes pos _
  -- whether the index is a literal does not depend on names
  · cases i.code with
    | num n =>
      dsimp only [Code.rename]
      cases Scalar.index? n v.ty.count with
      | some k => exact Compile.emit_commutes .float (.component v.code k)
      | none => exact Compile.fail_commutes pos _
    | _ => exact Compile.emit_commutes .float (.index v.code _)

theorem Compile.widenedCodes_rename (promote : Option Ty) (args : List Typed) :
    Compile.widenedCodes promote (args.map (Typed.rename r.name)) =
      (Compile.widenedCodes promote args).map (Code.rename r.name) := by
  cases promote with
  | none =>
    dsimp only [Compile.widenedCodes]
    rw [List.map_map, List.map_map]
    rfl
  | some wide =>
    dsimp only [Compile.widenedCodes]
    rw [List.map_map, List.map_map]
    exact List.map_congr_left fun v _ => Typed.widenTo_rename v wide

theorem Compile.builtin_commutes (pos : Pos) (b : Builtin) (args : List Typed) :
    Commutes (r.draft before) (Typed.rename r.name) (Compile.builtin chain pos b args)
      (Compile.builtin chain pos b (args.map (Typed.rename r.name))) := by
  have htypes : (args.map (Typed.rename r.name)).map Typed.ty = args.map Typed.ty := by
    rw [List.map_map]
    rfl
  unfold Compile.builtin
  rw [htypes]
  refine (Compile.locate_commutes pos _).bind fun res => ?_
  obtain ⟨ty, promote⟩ := res
  change Commutes _ _ (Compile.emit ty (.call b (Compile.widenedCodes promote args)))
    (Compile.emit ty (.call b (Compile.widenedCodes promote (args.map (Typed.rename r.name)))))
  rw [Compile.widenedCodes_rename, ← Code.renameAll_eq_map]
  exact Compile.emit_commutes ty (.call b _)

theorem Compile.binary_commutes (pos : Pos) (op : BinaryOp) (left right : Typed) :
    Commutes (r.draft before) (Typed.rename r.name) (Compile.binary chain pos op left right)
      (Compile.binary chain pos op (left.rename r.name) (right.rename r.name)) := by
  unfold Compile.binary
  refine (Compile.locate_commutes pos _).bind fun ty => ?_
  dsimp only [id]
  split_ifs
  · rw [Typed.widenTo_rename, Typed.widenTo_rename]
    exact Compile.emit_commutes ty (.call .mod [_, _])
  · exact Compile.emit_commutes ty (.binary op left.code right.code)

theorem Compile.vector_commutes (ty : Ty) (parts : List Code) :
    Commutes (r.draft before) (Typed.rename r.name) (Compile.vector ty parts)
      (Compile.vector ty (parts.map (Code.rename r.name))) := by
  have hcode : Code.construct ty (parts.map (Code.rename r.name)) =
      (Code.construct ty parts).rename r.name := by
    rw [Code.rename, Code.renameAll_eq_map]
  unfold Compile.vector
  dsimp only
  rw [hcode, Code.isLiteral_rename]
  split_ifs
  · exact .pure (Typed.mk ty (.construct ty parts))
  · exact Compile.emit_commutes ty _

end

/-! ## Bodies -/

section

variable {r : Renaming} {before : List Statement}
  {expand : Expansion → EStateM (Failure EvalError) Emission Typed}
  (hexpand : ∀ x, Commutes (r.emission before) (Typed.rename r.name) (expand x) (expand (r.expansion x)))
  {captured : List Value} {chain : Chain}

include hexpand in
theorem Compile.call_commutes (x : Expansion) :
    Commutes (r.draft before) (Typed.rename r.name) (Compile.call expand x)
      (Compile.call expand (r.expansion x)) := by
  intro d
  simp only [Compile.call, Renaming.draft, hexpand x d.emission]
  cases expand x d.emission <;> rfl

theorem compileAll_commutes {ops : List Operation}
    (h : ∀ op ∈ ops, Commutes (r.draft before) (Typed.rename r.name)
      (op.compileWith expand captured chain) (op.compileWith expand captured chain)) :
    Commutes (r.draft before) (List.map (Typed.rename r.name)) (compileAll expand captured chain ops)
      (compileAll expand captured chain ops) := by
  induction ops with
  | nil => exact .pure []
  | cons op ops ih =>
    rw [compileAll]
    refine (h op List.mem_cons_self).bind fun v => ?_
    refine (ih fun o ho => h o (List.mem_cons_of_mem _ ho)).bind fun vs => ?_
    exact .pure (v :: vs)

theorem compileParts_commutes {ops : List Operation}
    (h : ∀ op ∈ ops, Commutes (r.draft before) (Typed.rename r.name)
      (op.compileWith expand captured chain) (op.compileWith expand captured chain)) :
    Commutes (r.draft before) (List.map (Code.rename r.name)) (compileParts expand captured chain ops)
      (compileParts expand captured chain ops) := by
  induction ops with
  | nil => exact .pure []
  | cons op ops ih =>
    rw [compileParts]
    refine (h op List.mem_cons_self).bind fun v => ?_
    rw [Typed.ty_rename]
    split_ifs
    · refine (ih fun o ho => h o (List.mem_cons_of_mem _ ho)).bind fun codes => ?_
      exact .pure (v.code :: codes)
    · exact Compile.fail_commutes _ _

theorem compileBindings_commutes {bs : List (Nat × Operation)}
    (h : ∀ b ∈ bs, Commutes (r.draft before) (Typed.rename r.name)
      (b.2.compileWith expand captured chain) (b.2.compileWith expand captured chain)) :
    Commutes (r.draft before) id (compileBindings expand captured chain bs)
      (compileBindings expand captured chain bs) := by
  induction bs with
  | nil => exact .pure ()
  | cons b bs ih =>
    rw [compileBindings]
    refine (h b List.mem_cons_self).bind fun v => ?_
    refine (Compile.setSlot_commutes b.1 v).bind fun _ => ?_
    exact ih fun c hc => h c (List.mem_cons_of_mem _ hc)

include hexpand in
/-- **The compilation of a body commutes with renaming**, if the calls in it do. -/
theorem Operation.compileWith_commutes (op : Operation) :
    Commutes (r.draft before) (Typed.rename r.name) (op.compileWith expand captured chain)
      (op.compileWith expand captured chain) := by
  induction op with
  | const value pos =>
    rw [compileWith]
    exact Compile.literal_commutes pos _
  | load ref pos =>
    cases ref with
    | slot i =>
      rw [compileWith]
      refine .get fun d => ?_
      rw [Renaming.draft, Renaming.get?_slots]
      cases d.slots.get? i with
      | some v => exact .pure v
      | none => exact Compile.fail_commutes pos _
    | captured i =>
      rw [compileWith]
      cases captured[i]? with
      | some v => exact Compile.literal_commutes pos v
      | none => exact Compile.fail_commutes pos _
  | lambda signature body ih =>
    rw [compileWith]
    exact Compile.fail_commutes _ _
  | call callee args pos _ ih =>
    rw [compileWith]
    -- the closure is known before any code is made, so it is the same one
    cases (callee.known? captured).bind Value.closure? with
    | none => exact Compile.fail_commutes pos _
    | some f =>
      refine (compileAll_commutes ih).bind fun vs => ?_
      exact Compile.call_commutes hexpand ⟨pos, chain, f, vs⟩
  | builtin b args pos ih =>
    rw [compileWith]
    exact (compileAll_commutes ih).bind fun vs => Compile.builtin_commutes pos b vs
  | unary op operand pos ih =>
    rw [compileWith]
    refine ih.bind fun v => ?_
    refine (Compile.locate_commutes pos _).bind fun ty => ?_
    exact Compile.emit_commutes ty (.unary op v.code)
  | binary op left right pos ihl ihr =>
    rw [compileWith]
    exact ihl.bind fun l => ihr.bind fun r => Compile.binary_commutes pos op l r
  | cond condition yes no pos ihc iha ihb =>
    rw [compileWith]
    refine ihc.bind fun c => ?_
    rw [Typed.ty_rename, Typed.code_rename]
    -- what is emitted where the condition is no literal
    have hselect (code : Code) : Commutes (r.draft before) (Typed.rename r.name)
        (yes.compileWith expand captured chain >>= fun a => no.compileWith expand captured chain >>= fun b =>
          if a.ty = b.ty then Compile.emit a.ty (.select code a.code b.code)
          else Compile.fail chain pos (.branchTypes a.ty b.ty))
        (yes.compileWith expand captured chain >>= fun a => no.compileWith expand captured chain >>= fun b =>
          if a.ty = b.ty then Compile.emit a.ty (.select (code.rename r.name) a.code b.code)
          else Compile.fail chain pos (.branchTypes a.ty b.ty)) := by
      refine iha.bind fun a => ihb.bind fun b => ?_
      rw [Typed.ty_rename, Typed.ty_rename]
      split_ifs
      · exact Compile.emit_commutes a.ty (.select code a.code b.code)
      · exact Compile.fail_commutes pos _
    split_ifs
    · exact Compile.fail_commutes pos _
    · cases hcode : c.code with
      | bool b =>
        cases b with
        | true => exact iha
        | false => exact ihb
      | _ => exact hselect _
  | letIn bindings body pos ihs ih =>
    rw [compileWith]
    exact (compileBindings_commutes ihs).bind fun _ => ih
  | list items pos ih =>
    rw [compileWith]
    cases Ty.vector? items.length with
    | none => exact Compile.fail_commutes pos _
    | some ty => exact (compileParts_commutes ih).bind fun parts => Compile.vector_commutes ty parts
  | record fields pos ih =>
    rw [compileWith]
    exact Compile.fail_commutes pos _
  | field target name pos ih =>
    rw [compileWith]
    cases (Operation.field target name pos).known? captured with
    | some v => exact Compile.literal_commutes pos v
    | none =>
      dsimp only
      split
      · exact Compile.fail_commutes pos _
      · exact ih.bind fun v => Compile.component_commutes pos v name
  | index target index pos iht ihi =>
    rw [compileWith]
    exact iht.bind fun v => ihi.bind fun i => Compile.element_commutes pos v i

end

/-! ## Calls and shapes -/

section

variable {r : Renaming} {before : List Statement}

/-- A frame of its own holds the renamed arguments. -/
theorem inFrame_commutes {body : Compile Typed}
    (h : Commutes (r.draft before) (Typed.rename r.name) body body) (slots : Option (Slots Typed)) :
    Commutes (r.emission before) (Typed.rename r.name) (inFrame body slots)
      (inFrame body (slots.map r.slots)) := by
  intro e
  cases slots with
  | none => rfl
  | some s =>
    have hbody := h ⟨s, e⟩
    simp only [inFrame, Option.map_some]
    rw [Renaming.draft] at hbody
    rw [hbody]
    cases body ⟨s, e⟩ <;> rfl

theorem Expansion.enterWith_commutes {compile : Closure → Chain → Compile Typed}
    (h : ∀ f chain, Commutes (r.draft before) (Typed.rename r.name) (compile f chain) (compile f chain))
    (x : Expansion) :
    Commutes (r.emission before) (Typed.rename r.name) (x.enterWith compile)
      ((r.expansion x).enterWith compile) := by
  intro e
  unfold Expansion.enterWith
  simp only [Renaming.expansion, List.length_map, Renaming.ofArgs?_slots]
  split_ifs
  · rfl
  · exact inFrame_commutes (h _ _) _ e

/-- **The code of a call commutes with renaming.** -/
theorem expandWithin_commutes (limit budget : Nat) :
    ∀ f chain, Commutes (r.draft before) (Typed.rename r.name) (expandWithin limit budget f chain)
      (expandWithin limit budget f chain) := by
  induction budget with
  | zero =>
    intro f chain
    rw [expandWithin]
    refine .get fun d => ?_
    simp only [Renaming.draft, Renaming.given_slots, Renaming.length_slots]
    split_ifs <;> exact Compile.fail_commutes _ _
  | succ budget ih =>
    intro f chain
    rw [expandWithin]
    refine .get fun d => ?_
    simp only [Renaming.draft, Renaming.given_slots, Renaming.length_slots]
    split_ifs
    · exact Compile.fail_commutes _ _
    · exact Compile.fail_commutes _ _
    · exact Operation.compileWith_commutes (Expansion.enterWith_commutes ih) f.body

theorem Shape.compileDist_commutes (f : Closure) (limit : Nat) (chain : Chain) :
    Commutes (r.draft before) (Typed.rename r.name) (compileDist f limit chain)
      (compileDist f limit chain) := by
  unfold compileDist
  refine (expandWithin_commutes _ _ f chain).bind fun v => ?_
  rw [Typed.ty_rename]
  split_ifs
  · exact .pure v
  · exact Compile.fail_commutes _ _

/-- An attempt starts with no statements, whatever stands before. -/
theorem attempt_commutes {body body' : EStateM (Failure EvalError) Emission Typed}
    (h : Commutes (r.emission []) (Typed.rename r.name) body body') :
    Commutes (r.emission before) (Typed.rename r.name) (attempt body) (attempt body') := by
  intro e
  have hbody := h ⟨e.nextName, []⟩
  cases hrun : body ⟨e.nextName, []⟩ with
  | ok a e₁ =>
    rw [hrun] at hbody
    rw [attempt_of_ok hrun, attempt_of_ok hbody]
    simp [Renaming.emission]
  | error err e₁ =>
    rw [hrun] at hbody
    rw [attempt_of_error hrun, attempt_of_error hbody]
    simp [Renaming.emission]

/-- **The code of a distance commutes with renaming.** -/
theorem Shape.emitDistance_commutes (r : Renaming) (before : List Statement) (s : Shape) (limit : Nat)
    (point : Typed) (chain : Chain) :
    Commutes (r.emission before) (Typed.rename r.name) (s.emitDistance limit point chain)
      (s.emitDistance limit (point.rename r.name) chain) := by
  unfold emitDistance
  cases s.dist with
  | error err => exact .throw _
  | ok f =>
    refine attempt_commutes ?_
    have hslots := r.ofArgs?_slots f.slots [point]
    rw [List.map_singleton] at hslots
    rw [hslots]
    exact inFrame_commutes (compileDist_commutes f limit _) _

end

end DistanceField
