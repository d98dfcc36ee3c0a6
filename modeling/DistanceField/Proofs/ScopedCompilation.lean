import DistanceField.Proofs.Agreement

/-!
# Compilation of scoped code

Compilation reads the same slots and captured values as evaluation, but in another order:
it fills the slots of both branches of a condition, or only those of the branch that a
literal selects. A slot that holds a value keeps one, so scoped code finds what it relies
on in each case. Programs that are read from a source text so get stuck in neither way of
evaluation, and each way has faults of its own.

* `Secures`: conditions on drafts that hold before and after a compilation.
* `Operation.compileWith_secures`, `expandWithin_secures`: compilation of scoped code.
* `Value.Obtainable`: what callers can get from programs.
* `Program.neverStuck`: the faults of both ways of evaluation.
-/

namespace DistanceField

open Shader

/-! ## Faults of shader code -/

/-- A fault that the compilation of a body can make. It is not about a name without a
value, nor about the tags of values. -/
def Fault.Symbolic (f : Fault) : Prop :=
  f.kind ≠ .undefined ∧ f.kind ≠ .wrongType

instance : DecidablePred Fault.Symbolic :=
  fun f => inferInstanceAs (Decidable (f.kind ≠ .undefined ∧ f.kind ≠ .wrongType))

/-- The failure is reported, with such a fault. -/
def Failure.Symbolic : Failure EvalError → Prop
  | .report e => e.fault.Symbolic
  | .outOfBounds => False

/-- A fault of a typing rule. -/
def Fault.OfTypes (f : Fault) : Prop :=
  f.kind = .typeMismatch ∨ f.kind = .unsupportedOperation ∨ f.kind = .wrongArity

theorem Fault.OfTypes.symbolic {f : Fault} (h : f.OfTypes) : f.Symbolic := by
  rcases h with h | h | h <;> rw [Fault.Symbolic, h] <;> decide

theorem widen_ends (what : String) (common t : Ty) :
    Ends Fault.OfTypes (fun _ => True) (widen what common t) := by
  unfold widen
  split_ifs
  · exact .inl rfl
  · exact .inl rfl
  · trivial
  · trivial

theorem widest_ends (what : String) (types : List Ty) :
    Ends Fault.OfTypes (fun _ => True) (widest what types) := by
  unfold widest
  generalize Ty.float = common
  induction types generalizing common with
  | nil => trivial
  | cons t types ih =>
    rw [List.foldlM_cons]
    exact (widen_ends what common t).bind fun wider _ => ih wider

theorem Builtin.typing_ends (b : Builtin) (types : List Ty) :
    Ends Fault.OfTypes (fun _ => True) (b.typing types) := by
  unfold Builtin.typing
  split_ifs
  · exact .inr (.inr rfl)
  · exact .inr (.inl rfl)
  · refine (widest_ends _ types).bind fun common _ => ?_
    dsimp only
    split <;> trivial

/-- A rule with one condition on types. -/
theorem rule_ends {c : Prop} [Decidable c] (ty : Ty) {f : Fault} (hf : f.OfTypes) :
    Ends Fault.OfTypes (fun _ => True) (if c then Except.ok ty else .error f) := by
  split_ifs
  · trivial
  · exact hf

theorem BinaryOp.typing_ends (op : BinaryOp) (l r : Ty) :
    Ends Fault.OfTypes (fun _ => True) (op.typing l r) := by
  cases op with
  | add => exact widest_ends _ _
  | sub => exact widest_ends _ _
  | mul => exact widest_ends _ _
  | div => exact widest_ends _ _
  | mod => exact widest_ends _ _
  | lt => exact rule_ends _ (.inl rfl)
  | le => exact rule_ends _ (.inl rfl)
  | gt => exact rule_ends _ (.inl rfl)
  | ge => exact rule_ends _ (.inl rfl)
  | eq => exact rule_ends _ (.inl rfl)
  | ne => exact rule_ends _ (.inl rfl)
  | and => exact rule_ends _ (.inl rfl)
  | or => exact rule_ends _ (.inl rfl)

theorem UnaryOp.typing_ends (op : UnaryOp) (t : Ty) :
    Ends Fault.OfTypes (fun _ => True) (op.typing t) := by
  cases op with
  | neg => exact rule_ends _ (.inl rfl)
  | not => exact rule_ends _ (.inl rfl)

/-! ## Conditions on states -/

/-- From every state in `I`, the computation leads to a state in `J`, or it fails with an
error in `E`. -/
def Secures {ε σ α : Type} (E : ε → Prop) (I J : σ → Prop) (x : EStateM ε σ α) : Prop :=
  ∀ s, I s → match x s with
    | .ok _ t => J t
    | .error e _ => E e

namespace Secures

variable {ε σ α β : Type} {E : ε → Prop} {I J K : σ → Prop} {x : EStateM ε σ α}

theorem error (h : Secures E I J x) {s t : σ} {e : ε} (hs : I s) (hx : x s = .error e t) : E e := by
  have := h s hs
  rwa [hx] at this

theorem pure (a : α) : Secures E I I (Pure.pure a : EStateM ε σ α) :=
  fun _ hs => hs

/-- A computation that looks at the state. -/
theorem get {f : σ → EStateM ε σ β} (h : ∀ s, I s → Secures E (· = s) K (f s)) :
    Secures E I K (MonadState.get >>= f) :=
  fun s hs => h s hs s rfl

theorem of_mem (h : Secures E I J x) {s : σ} (hs : I s) : Secures E (· = s) J x := by
  rintro _ rfl
  exact h _ hs

theorem bind {f : α → EStateM ε σ β} (hx : Secures E I J x) (hf : ∀ a, Secures E J K (f a)) :
    Secures E I K (x >>= f) := by
  intro s hs
  simp only [Bind.bind, EStateM.bind]
  have hstep := hx s hs
  cases hxs : x s with
  | error e t => rwa [hxs] at hstep
  | ok a t =>
    rw [hxs] at hstep
    exact hf a t hstep

theorem mono (h : Secures E I J x) (hJK : ∀ s, J s → K s) : Secures E I K x := by
  intro s hs
  have hstep := h s hs
  cases hxs : x s with
  | error e t => rwa [hxs] at hstep
  | ok a t =>
    rw [hxs] at hstep
    exact hJK t hstep

end Secures

/-! ## Steps of compilation -/

/-- The draft has `size` slots, and those in `scope` hold a value. -/
structure Draft.Ready (size : Nat) (scope : List Nat) (d : Draft) : Prop where
  size : d.slots.length = size
  bound : ∀ i ∈ scope, ∃ v, d.slots.get? i = some v

section

variable {size : Nat} {scope : List Nat} {chain : Chain}

theorem Compile.fail_secures {α : Type} {I J : Draft → Prop} (pos : Pos) {fault : Fault}
    (h : fault.Symbolic) : Secures Failure.Symbolic I J (Compile.fail chain pos fault : Compile α) :=
  fun _ _ => h

theorem Compile.locate_secures {α : Type} {I : Draft → Prop} (pos : Pos) {r : Except Fault α}
    (h : Ends Fault.OfTypes (fun _ => True) r) :
    Secures Failure.Symbolic I I (Compile.locate chain pos r) := by
  cases r with
  | ok a => exact .pure a
  | error f => exact Compile.fail_secures pos (Fault.OfTypes.symbolic h)

theorem Compile.emit_secures (ty : Ty) (code : Code) :
    Secures Failure.Symbolic (Draft.Ready size scope) (Draft.Ready size scope) (Compile.emit ty code) :=
  fun _ hd => ⟨hd.size, hd.bound⟩

/-- Filling a slot puts it in use. -/
theorem Compile.setSlot_secures {slot : Nat} (hslot : slot < size) (v : Typed) :
    Secures Failure.Symbolic (Draft.Ready size scope) (Draft.Ready size (slot :: scope))
      (Compile.setSlot slot v) := by
  intro d hd
  unfold Compile.setSlot
  cases hset : d.slots.set? slot v with
  | none =>
    have : slot < d.slots.length := hd.size ▸ hslot
    simp [Slots.set?, this] at hset
  | some slots =>
    refine ⟨(Slots.length_set? hset).trans hd.size, fun i hi => ?_⟩
    -- a slot that was set before stays set, whether or not it is this one
    by_cases heq : i = slot
    · exact ⟨v, heq ▸ Slots.get?_set?_self hset⟩
    · obtain ⟨w, hw⟩ := hd.bound i ((List.mem_cons.1 hi).resolve_left heq)
      exact ⟨w, (Slots.get?_set?_of_ne hset (Ne.symm heq)).trans hw⟩

theorem Compile.literal_secures {I : Draft → Prop} (pos : Pos) (v : Value) :
    Secures Failure.Symbolic I I (Compile.literal chain pos v) := by
  unfold Compile.literal
  split
  · exact .pure _
  · exact Compile.fail_secures pos (of_decide_eq_true rfl)

theorem Compile.component_secures (pos : Pos) (v : Typed) (name : String) :
    Secures Failure.Symbolic (Draft.Ready size scope) (Draft.Ready size scope)
      (Compile.component chain pos v name) := by
  unfold Compile.component
  split_ifs
  · exact Compile.fail_secures pos (of_decide_eq_true rfl)
  · split
    · exact Compile.fail_secures pos (of_decide_eq_true rfl)
    · split_ifs
      · exact Compile.emit_secures _ _
      · exact Compile.fail_secures pos (of_decide_eq_true rfl)

theorem Compile.element_secures (pos : Pos) (v i : Typed) :
    Secures Failure.Symbolic (Draft.Ready size scope) (Draft.Ready size scope)
      (Compile.element chain pos v i) := by
  unfold Compile.element
  split_ifs
  · exact Compile.fail_secures pos (of_decide_eq_true rfl)
  · exact Compile.fail_secures pos (of_decide_eq_true rfl)
  · split
    · split
      · exact Compile.emit_secures _ _
      · exact Compile.fail_secures pos (of_decide_eq_true rfl)
    · exact Compile.emit_secures _ _

theorem Compile.builtin_secures (pos : Pos) (b : Builtin) (args : List Typed) :
    Secures Failure.Symbolic (Draft.Ready size scope) (Draft.Ready size scope)
      (Compile.builtin chain pos b args) :=
  (Compile.locate_secures pos (b.typing_ends _)).bind fun _ => Compile.emit_secures _ _

theorem Compile.binary_secures (pos : Pos) (op : BinaryOp) (l r : Typed) :
    Secures Failure.Symbolic (Draft.Ready size scope) (Draft.Ready size scope)
      (Compile.binary chain pos op l r) := by
  refine (Compile.locate_secures pos (op.typing_ends l.ty r.ty)).bind fun ty => ?_
  split_ifs
  · exact Compile.emit_secures _ _
  · exact Compile.emit_secures _ _

theorem Compile.vector_secures (ty : Ty) (parts : List Code) :
    Secures Failure.Symbolic (Draft.Ready size scope) (Draft.Ready size scope)
      (Compile.vector ty parts) := by
  unfold Compile.vector
  dsimp only
  split_ifs
  · exact .pure _
  · exact Compile.emit_secures _ _

end

/-! ## Bodies -/

section

variable {expand : Expansion → EStateM (Failure EvalError) Emission Typed}
  (hexpand : ∀ x : Expansion, x.callee.WellScoped →
    Secures Failure.Symbolic (fun _ => True) (fun _ => True) (expand x))
  {size captures : Nat} {scope : List Nat} {captured : List Value} {chain : Chain}

include hexpand in
theorem Compile.call_secures (x : Expansion) (hx : x.callee.WellScoped) :
    Secures Failure.Symbolic (Draft.Ready size scope) (Draft.Ready size scope)
      (Compile.call expand x) := by
  intro d hd
  have hstep := hexpand x hx d.emission trivial
  unfold Compile.call
  cases hrun : expand x d.emission with
  | ok v e => exact ⟨hd.size, hd.bound⟩
  | error err e => rwa [hrun] at hstep

theorem compileAll_secures {ops : List Operation}
    (ih : ∀ op ∈ ops, ∀ scope, op.Scoped size captures scope →
      Secures Failure.Symbolic (Draft.Ready size scope) (Draft.Ready size scope)
        (op.compileWith expand captured chain))
    (h : ScopedAll size captures scope ops) :
    Secures Failure.Symbolic (Draft.Ready size scope) (Draft.Ready size scope)
      (compileAll expand captured chain ops) := by
  induction ops with
  | nil => exact .pure _
  | cons op ops ihs =>
    rw [compileAll]
    refine (ih op List.mem_cons_self scope h.1).bind fun v => ?_
    exact (ihs (fun o ho => ih o (List.mem_cons_of_mem _ ho)) h.2).bind fun vs => .pure _

theorem compileParts_secures {ops : List Operation}
    (ih : ∀ op ∈ ops, ∀ scope, op.Scoped size captures scope →
      Secures Failure.Symbolic (Draft.Ready size scope) (Draft.Ready size scope)
        (op.compileWith expand captured chain))
    (h : ScopedAll size captures scope ops) :
    Secures Failure.Symbolic (Draft.Ready size scope) (Draft.Ready size scope)
      (compileParts expand captured chain ops) := by
  induction ops with
  | nil => exact .pure _
  | cons op ops ihs =>
    rw [compileParts]
    refine (ih op List.mem_cons_self scope h.1).bind fun v => ?_
    split_ifs
    · exact (ihs (fun o ho => ih o (List.mem_cons_of_mem _ ho)) h.2).bind fun vs => .pure _
    · exact Compile.fail_secures _ (of_decide_eq_true rfl)

theorem compileBindings_secures {bs : List (Nat × Operation)}
    (ih : ∀ b ∈ bs, ∀ scope, b.2.Scoped size captures scope →
      Secures Failure.Symbolic (Draft.Ready size scope) (Draft.Ready size scope)
        (b.2.compileWith expand captured chain))
    (h : ScopedBindings size captures scope bs) :
    Secures Failure.Symbolic (Draft.Ready size scope) (Draft.Ready size (scopeAfter scope bs))
      (compileBindings expand captured chain bs) := by
  induction bs generalizing scope with
  | nil => exact .pure _
  | cons b bs ihs =>
    obtain ⟨hvalue, -, hslot, hrest⟩ := h
    rw [compileBindings]
    refine (ih b List.mem_cons_self scope hvalue).bind fun v => ?_
    refine (Compile.setSlot_secures hslot v).bind fun _ => ?_
    exact ihs (fun o ho => ih o (List.mem_cons_of_mem _ ho)) hrest

include hexpand in
/-- **Scoped code compiles without getting stuck**, if the calls in it do. -/
theorem Operation.compileWith_secures (hcount : captured.length = captures)
    (hcaptured : ∀ v ∈ captured, v.WellScoped) {op : Operation} (h : op.Scoped size captures scope) :
    Secures Failure.Symbolic (Draft.Ready size scope) (Draft.Ready size scope)
      (op.compileWith expand captured chain) := by
  induction op generalizing scope with
  | const value pos =>
    rw [compileWith]
    exact Compile.literal_secures pos _
  | load ref pos =>
    cases ref with
    | slot i =>
      rw [compileWith]
      refine .get fun d hd => ?_
      obtain ⟨v, hv⟩ := hd.bound i h
      rw [hv]
      exact (Secures.pure v).of_mem hd
    | captured i =>
      have hi : i < captured.length := hcount ▸ h
      rw [compileWith, List.getElem?_eq_getElem hi]
      exact Compile.literal_secures pos _
  | lambda signature body ih =>
    rw [compileWith]
    exact Compile.fail_secures _ (of_decide_eq_true rfl)
  | call callee args pos _ ih =>
    rw [compileWith]
    split
    · next f hf =>
      obtain ⟨v, hv, hclosure⟩ := Option.bind_eq_some_iff.1 hf
      refine (compileAll_secures (fun a ha scope => ih a ha) h.2).bind fun vs => ?_
      exact Compile.call_secures hexpand _ ((known?_wellScoped hcaptured hv).closure? hclosure)
    · exact Compile.fail_secures pos (of_decide_eq_true rfl)
  | builtin b args pos ih =>
    rw [compileWith]
    refine (compileAll_secures (fun a ha scope => ih a ha) h).bind fun vs => ?_
    exact Compile.builtin_secures pos b vs
  | unary op operand pos ih =>
    rw [compileWith]
    refine (ih h).bind fun v => ?_
    exact (Compile.locate_secures pos (op.typing_ends v.ty)).bind fun ty => Compile.emit_secures _ _
  | binary op left right pos ihl ihr =>
    rw [compileWith]
    exact (ihl h.1).bind fun l => (ihr h.2).bind fun r => Compile.binary_secures pos op l r
  | cond condition yes no pos ihc iha ihb =>
    rw [compileWith]
    refine (ihc h.1).bind fun c => ?_
    split_ifs
    · exact Compile.fail_secures pos (of_decide_eq_true rfl)
    -- a literal condition skips one branch; otherwise both fill their slots, one after the other
    · split
      · exact iha h.2.1
      · exact ihb h.2.2
      · refine (iha h.2.1).bind fun a => (ihb h.2.2).bind fun b => ?_
        split_ifs
        · exact Compile.emit_secures _ _
        · exact Compile.fail_secures pos (of_decide_eq_true rfl)
  | letIn bindings body pos ihs ih =>
    rw [compileWith]
    refine (compileBindings_secures (fun b hb scope => ihs b hb) h.1).bind fun _ => ?_
    -- the slots of the bindings stay filled when their scope has ended
    exact (ih h.2).mono fun d hd => ⟨hd.size, fun i hi => hd.bound i (mem_scopeAfter hi)⟩
  | list items pos ih =>
    rw [compileWith]
    split
    · refine (compileParts_secures (fun a ha scope => ih a ha) h).bind fun parts => ?_
      exact Compile.vector_secures _ parts
    · exact Compile.fail_secures pos (of_decide_eq_true rfl)
  | record fields pos ih =>
    rw [compileWith]
    exact Compile.fail_secures pos (of_decide_eq_true rfl)
  | field target name pos ih =>
    rw [compileWith]
    split
    · exact Compile.literal_secures pos _
    · split
      · exact Compile.fail_secures pos (of_decide_eq_true rfl)
      · exact (ih h).bind fun v => Compile.component_secures pos v name
  | index target index pos iht ihi =>
    rw [compileWith]
    exact (iht h.1).bind fun v => (ihi h.2).bind fun i => Compile.element_secures pos v i

end

/-! ## Calls -/

theorem inFrame_secures {I J : Draft → Prop} {body : Compile Typed}
    (h : Secures Failure.Symbolic I J body) {slots : Slots Typed} (hslots : ∀ e, I ⟨slots, e⟩) :
    Secures Failure.Symbolic (fun _ => True) (fun _ => True) (inFrame body (some slots)) := by
  intro e _
  have hstep := h ⟨slots, e⟩ (hslots e)
  cases hrun : body ⟨slots, e⟩ with
  | ok v d => simp only [inFrame, hrun]
  | error err d =>
    rw [hrun] at hstep
    simpa only [inFrame, hrun] using hstep

/-- The bodies of well-scoped closures compile without getting stuck, in a frame of the
right size that holds the arguments. -/
def BodiesSecure (compile : Closure → Chain → Compile Typed) : Prop :=
  ∀ f chain, f.WellScoped →
    Secures Failure.Symbolic (Draft.Ready f.slots (List.range f.arity)) (fun _ => True) (compile f chain)

/-- An expansion makes such a frame for the body. -/
theorem Expansion.enterWith_secures {compile : Closure → Chain → Compile Typed}
    (h : BodiesSecure compile) (x : Expansion) (hx : x.callee.WellScoped) :
    Secures Failure.Symbolic (fun _ => True) (fun _ => True) (x.enterWith compile) := by
  by_cases hlen : x.args.length = x.callee.arity
  · have hfit : x.args.length ≤ x.callee.slots := by
      cases hx with
      | function hcode => exact hlen ▸ hcode.1
    obtain ⟨slots, hslots⟩ : ∃ slots, Slots.ofArgs? x.callee.slots x.args = some slots :=
      ⟨_, if_pos hfit⟩
    have hready : ∀ e, Draft.Ready x.callee.slots (List.range x.callee.arity) ⟨slots, e⟩ := by
      refine fun e => ⟨Slots.length_ofArgs? hslots, fun i hi => ?_⟩
      have hi : i < x.args.length := hlen ▸ List.mem_range.1 hi
      exact ⟨x.args[i], (Slots.get?_ofArgs? hslots i).trans (List.getElem?_eq_getElem hi)⟩
    intro e he
    unfold Expansion.enterWith
    dsimp only
    rw [if_neg (not_not.2 hlen), hslots]
    exact inFrame_secures (h x.callee _ hx) hready e he
  · intro e _
    unfold Expansion.enterWith
    dsimp only
    rw [if_pos hlen]
    exact ⟨nofun, nofun⟩

theorem expandWithin_secures (limit budget : Nat) : BodiesSecure (expandWithin limit budget) := by
  induction budget with
  | zero =>
    intro f chain hf
    rw [expandWithin]
    refine .get fun d hd => ?_
    dsimp only
    split_ifs
    · exact Compile.fail_secures _ (of_decide_eq_true rfl)
    · exact Compile.fail_secures _ (of_decide_eq_true rfl)
    · exact Compile.fail_secures _ (of_decide_eq_true rfl)
  | succ budget ih =>
    intro f chain hf
    rw [expandWithin]
    refine .get fun d hd => ?_
    dsimp only
    split_ifs
    · exact Compile.fail_secures _ (of_decide_eq_true rfl)
    · exact Compile.fail_secures _ (of_decide_eq_true rfl)
    · cases hf with
      | function hcode hcount hcaptured =>
        refine Secures.of_mem ?_ hd
        exact (Operation.compileWith_secures (Expansion.enterWith_secures ih) hcount hcaptured
          hcode.2).mono fun _ _ => trivial

/-! ## Values of programs -/

/-- **The values that callers can get hold of**: literals, the results of programs, parts
of such values and lists and records of them, and the results of calls. -/
inductive Value.Obtainable : Value → Prop
  | literal (l : Literal) : Obtainable (.ofLiteral l)
  | run {source : String} {p : Program} {options : Options} {serial : Nat} {v : Value}
      (hp : Program.ofSource source = .ok p) (hv : p.run options serial = .ok v) : Obtainable v
  | call {f : Closure} {args : List Value} {limit : Nat} {origin : Origin} {v : Value}
      (hf : Obtainable f.toValue) (hargs : ∀ a ∈ args, Obtainable a)
      (hv : f.call limit origin args = .ok v) : Obtainable v
  | list {items : List Value} (h : ∀ v ∈ items, Obtainable v) : Obtainable (.list items)
  | item {items : List Value} {v : Value} (h : Obtainable (.list items)) (hv : v ∈ items) : Obtainable v
  | record {fields : List (String × Value)} (h : ∀ f ∈ fields, Obtainable f.2) :
      Obtainable (.record fields)
  | field {fields : List (String × Value)} {f : String × Value} (h : Obtainable (.record fields))
      (hf : f ∈ fields) : Obtainable f.2
  | captured {f : Closure} {v : Value} (h : Obtainable f.toValue) (hv : v ∈ f.captured) : Obtainable v

theorem Value.Obtainable.wellScoped {v : Value} (h : v.Obtainable) : v.WellScoped := by
  induction h with
  | literal l => exact ofLiteral_wellScoped l
  | run hp hv => exact (Program.run_ends hp _ _).of_eq_ok hv
  | call _ _ hv ihf ihargs => exact (Closure.call_ends ihf ihargs _ _).of_eq_ok hv
  | list _ ih => exact .list ih
  | item _ hv ih =>
    cases ih with
    | list hitems => exact hitems _ hv
  | record _ ih => exact .record ih
  | field _ hf ih =>
    cases ih with
    | record hfields => exact hfields _ hf
  | captured _ hv ih =>
    cases ih with
    | function _ _ hcaptured => exact hcaptured _ hv

/-- The distance function of a shape that a source text denotes can be obtained. -/
theorem Shape.dist_obtainable {source : String} {options : Options} {serial : Nat} {s : Shape}
    (h : Shape.ofSource? source options serial = some s) {f : Closure} (hf : s.dist = .ok f) :
    f.toValue.Obtainable := by
  obtain ⟨p, hp, hrun⟩ := Shape.run_eq_record h
  have hshape : (Value.record s.fields).Obtainable := .run hp hrun
  exact hshape.field (Shape.dist_eq_ok hf).1

/-- **Programs never get stuck, and each way of evaluation keeps to its faults.** A run of
a program fails only with a dynamic fault; so does a call of a function that a caller can
get, on arguments that a caller can get. The compilation of such a function, in a frame of
its size that holds typed values for its parameters, fails only with a symbolic fault.
Neither uses a slot that is not there. -/
theorem Program.neverStuck :
    (∀ source p, Program.ofSource source = .ok p → ∀ options serial err,
      p.run options serial = .error err → err.Dynamic) ∧
    (∀ (f : Closure) args, f.toValue.Obtainable → (∀ a ∈ args, a.Obtainable) → ∀ limit origin err,
      f.call limit origin args = .error err → err.Dynamic) ∧
    ∀ (f : Closure) (d : Draft), f.toValue.Obtainable → d.slots.length = f.slots →
      (∀ i < f.arity, ∃ v, d.slots.get? i = some v) → ∀ limit chain err d',
      f.expand limit chain d = .error err d' → err.Symbolic := by
  refine ⟨fun source p hp options serial err herr => ?_,
    fun f args hf hargs limit origin err herr => ?_,
    fun f d hf hsize hbound limit chain err d' herr => ?_⟩
  · exact (Program.run_ends hp options serial).of_eq_error herr
  · have hends := Closure.call_ends hf.wellScoped (fun a ha => (hargs a ha).wellScoped) limit origin
    exact hends.of_eq_error herr
  · have hready : d.Ready f.slots (List.range f.arity) :=
      ⟨hsize, fun i hi => hbound i (List.mem_range.1 hi)⟩
    exact (expandWithin_secures _ _ f chain hf.wellScoped).error hready herr

theorem Program.neverStuck_twoCircles :
    ∃ (s : Shape) (f : Closure) (slots : Slots Typed),
      Shape.ofSource? twoCircles .standard 0 = some s ∧ s.dist = .ok f ∧
      Slots.ofArgs? f.slots [.input .vec2 "P"] = some slots ∧
      (∀ limit origin err, f.call limit origin [.vector [3, 4]] = .error err → err.Dynamic) ∧
      ∀ limit chain err d', f.expand limit chain ⟨slots, .empty⟩ = .error err d' → err.Symbolic := by
  obtain ⟨s, F, -, -, hs, hF, -⟩ := twoCircles_runs
  obtain ⟨f, slots, -, hf, hslots, -⟩ := Shape.compile_eq_ok hF
  have hobtain := Shape.dist_obtainable hs hf
  have hpoint : (Value.vector [3, 4]).Obtainable := by
    refine .list fun v hv => ?_
    obtain ⟨x, -, rfl⟩ := List.mem_map.1 hv
    exact .literal (.num x)
  obtain ⟨-, hcall, hexpand⟩ := Program.neverStuck
  refine ⟨s, f, slots, hs, hf, hslots, hcall f _ hobtain (List.forall_mem_singleton.2 hpoint), ?_⟩
  refine hexpand f ⟨slots, .empty⟩ hobtain (Slots.length_ofArgs? hslots) fun i hi => ?_
  have hi : i < 1 := by rwa [(Shape.dist_eq_ok hf).2] at hi
  exact ⟨_, (Slots.get?_ofArgs? hslots i).trans (List.getElem?_eq_getElem hi)⟩

end DistanceField
