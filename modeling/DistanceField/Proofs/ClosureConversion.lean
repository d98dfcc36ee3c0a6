import DistanceField.Proofs.Representation

/-!
# Closure conversion

Resolution replaces names by slots and captured values. The resolved program does what
the program does as it is written: it has the same errors, and its value represents the
lexical value.

The frame of a body has to serve only the names that are free in the expression at hand,
since a function captures no others. The environment of lexical evaluation holds more.

* `Frame.Serves`: a frame gives names the values that an environment gives them.
* `Expr.converts`: expressions, by induction over the expression.
* `applyWithin_corresponds`: calls, by induction on the number of calls that may be nested.
* `Expr.toLambda_corresponds`: programs, and closures called from outside.
-/

namespace DistanceField

/-! ## Frames and environments -/

theorem Scope.find?_bind (s : Scope) (name : String) (slot : Nat) (x : String) :
    (s.bind name slot).find? x = if x == name then some (.slot slot) else s.find? x := by
  unfold Scope.find? Scope.bind
  rw [List.lookup_cons]
  cases x == name with
  | true => rfl
  | false => rfl

/-- **The frame serves the names**: a name that has a meaning in the scope has a value in
the frame which represents its value in the environment, and a name that has none in the
scope has none in the environment. -/
def Frame.Serves (fr : Frame) (s : Scope) (env : Lexical.Env) (names : List String) : Prop :=
  ∀ x ∈ names, Option.Rel (fun ref w => ∃ v, fr.get? ref = some v ∧ Represents v w)
    (s.find? x) (env.lookup x)

namespace Frame.Serves

variable {fr : Frame} {s : Scope} {env : Lexical.Env} {names : List String}

theorem mono (h : fr.Serves s env names) {fewer : List String} (hsub : ∀ x ∈ fewer, x ∈ names) :
    fr.Serves s env fewer :=
  fun x hx => h x (hsub x hx)

theorem left {more : List String} (h : fr.Serves s env (names ++ more)) : fr.Serves s env names :=
  h.mono fun _ hx => List.mem_append_left _ hx

theorem right {more : List String} (h : fr.Serves s env (more ++ names)) : fr.Serves s env names :=
  h.mono fun _ hx => List.mem_append_right _ hx

/-- A name has a meaning in the scope exactly if it has a value. -/
theorem isSome_find? (h : fr.Serves s env names) {x : String} (hx : x ∈ names) :
    (s.find? x).isSome = (env.lookup x).isSome := by
  have hrel := h x hx
  generalize s.find? x = a at hrel ⊢
  generalize env.lookup x = b at hrel ⊢
  cases hrel with
  | some _ => rfl
  | none => rfl

theorem calledBuiltin?_eq {callee : Expr} (h : fr.Serves s env callee.free) :
    Lexical.calledBuiltin? env callee = calledBuiltin? s callee := by
  cases callee with
  | ident name pos =>
    have hsome := h.isSome_find? (x := name) List.mem_cons_self
    rw [Lexical.calledBuiltin?, calledBuiltin?, hsome]
  | lit => rfl
  | unary => rfl
  | binary => rfl
  | cond => rfl
  | call => rfl
  | index => rfl
  | field => rfl
  | list => rfl
  | record => rfl
  | lambda => rfl
  | letIn => rfl

/-- A frame with one more slot filled serves the scope with one more name. The slot is
above those of the other names, so their values stay. -/
theorem bind {name : String} {next : Nat} {scope : List Nat} (hs : s.Within next scope)
    (h : fr.Serves s env (names.filter (· != name))) {slots : Slots Value} {v : Value}
    {w : Lexical.Value} (hset : fr.slots.set? next v = some slots) (hvw : Represents v w) :
    Frame.Serves { fr with slots := slots } (s.bind name next) ((name, w) :: env) names := by
  intro x hx
  rw [Scope.find?_bind, List.lookup_cons]
  cases hname : x == name with
  | true => exact .some ⟨v, Slots.get?_set?_self hset, hvw⟩
  | false =>
    have hrel := h x (List.mem_filter.2 ⟨hx, bne_iff_ne.2 (ne_of_beq_false hname)⟩)
    generalize hfind : s.find? x = found at hrel ⊢
    generalize env.lookup x = value at hrel ⊢
    cases hrel with
    | none => exact .none
    | @some ref u hval =>
      obtain ⟨old, hold, hrep⟩ := hval
      refine .some ⟨old, ?_, hrep⟩
      have hin := hs.find?_inScope hfind
      cases ref with
      | slot i =>
        have hlt : i < next := hs.unused i hin
        exact (Slots.get?_set?_of_ne hset (by omega)).trans hold
      | captured i => exact hold

/-- The values that a closure captures represent those of the captured names. -/
theorem captureAll (h : fr.Serves s env names) (hbound : ∀ x ∈ names, (s.find? x).isSome) (pos : Pos) :
    ∃ vs ws, DistanceField.captureAll fr pos (names.filterMap s.find?) = .ok vs ∧
      names.map (fun x => env.lookup x) = ws.map some ∧ List.Forall₂ Represents vs ws := by
  induction names with
  | nil => exact ⟨[], [], rfl, rfl, .nil⟩
  | cons x xs ih =>
    obtain ⟨vs, ws, hvs, hws, hrest⟩ := ih (h.mono fun y hy => List.mem_cons_of_mem _ hy)
      fun y hy => hbound y (List.mem_cons_of_mem _ hy)
    obtain ⟨ref, href⟩ := Option.isSome_iff_exists.1 (hbound x List.mem_cons_self)
    obtain ⟨w, hw, v, hv, hvw⟩ := exists_of_rel_some (h x List.mem_cons_self) href
    refine ⟨v :: vs, w :: ws, ?_, ?_, .cons hvw hrest⟩
    · rw [List.filterMap_cons_some href, DistanceField.captureAll, hv]
      dsimp only
      rw [hvs]
      rfl
    · rw [List.map_cons, List.map_cons, hw, hws]

end Frame.Serves

/-! ## Frames of calls -/

theorem lookup_map_snd {α β : Type} (f : α → β) (x : String) (l : List (String × α)) :
    (l.map fun p => (p.1, f p.2)).lookup x = (l.lookup x).map f := by
  induction l with
  | nil => rfl
  | cons p l ih =>
    rw [List.map_cons, List.lookup_cons, List.lookup_cons]
    cases x == p.1 with
    | true => rfl
    | false => exact ih

/-- Inside a function, a parameter is the argument in its slot. -/
theorem Lexical.Env.lookup_enter (env : Lexical.Env) {params : List Param} {ws : List Lexical.Value}
    (hlen : ws.length = params.length) (x : String) :
    (env.enter params ws).lookup x =
      ((paramSlots params).lookup x).elim (env.lookup x) fun i => ws[i]? := by
  -- pairing names with arguments is numbering them and reading the arguments off
  have hzip : ((params.map Param.name).zip ws).map (fun p => (p.1, some p.2)) =
      (params.map Param.name).zipIdx.map fun p => (p.1, ws[p.2]?) := by
    refine List.ext_getElem (by simp [hlen]) fun i hi _ => ?_
    have hws : i < ws.length := by
      rw [List.length_map, List.length_zip] at hi
      omega
    simp [hws]
  have hlookup : ((((params.map Param.name).zip ws).reverse).lookup x).map some =
      ((paramSlots params).lookup x).map fun i => ws[i]? := by
    rw [← lookup_map_snd, ← lookup_map_snd, paramSlots, List.map_reverse, List.map_reverse, hzip]
  rw [Lexical.Env.enter, List.lookup_append]
  cases hparam : (paramSlots params).lookup x with
  | none =>
    rw [hparam] at hlookup
    rw [Option.map_eq_none_iff.1 hlookup]
    rfl
  | some i =>
    rw [hparam] at hlookup
    obtain ⟨w, hw, hwi⟩ := Option.map_eq_some_iff.1 hlookup
    rw [hw]
    exact hwi

theorem lookup_paramSlots_eq_none {params : List Param} {x : String}
    (h : (paramSlots params).lookup x = none) : x ∉ params.map Param.name := by
  intro hx
  obtain ⟨i, hi, rfl⟩ := List.mem_iff_getElem.1 hx
  have hmem : ((params.map Param.name)[i], i) ∈ paramSlots params := by
    rw [paramSlots, List.mem_reverse, List.mem_zipIdx_iff_getElem?]
    exact List.getElem?_eq_getElem hi
  have hne := List.lookup_eq_none_iff.1 h _ hmem
  simp at hne

/-- The captured value at the place of a name represents the value of the name. -/
theorem captured_represents {env : Lexical.Env} {names : List String} {captured : List Value}
    {known : List Lexical.Value} (hknown : names.map (fun x => env.lookup x) = known.map some)
    (hcaptured : List.Forall₂ Represents captured known) {x : String} {j : Nat}
    (hj : names.findIdx? (· == x) = some j) :
    ∃ v w, captured[j]? = some v ∧ env.lookup x = some w ∧ Represents v w := by
  obtain ⟨hlt, hx, -⟩ := List.findIdx?_eq_some_iff_getElem.1 hj
  have hname : names[j]? = some x := by
    rw [List.getElem?_eq_getElem hlt, beq_iff_eq.1 hx]
  -- both lists say what the environment has for the name at this place
  have hplace := congrArg (fun l => l[j]?) hknown
  rw [List.getElem?_map, List.getElem?_map, hname] at hplace
  have hrel := getElem?_rel hcaptured j
  generalize hv : captured[j]? = value at hrel ⊢
  generalize known[j]? = w at hplace hrel
  cases hrel with
  | some hvw => exact ⟨_, _, rfl, Option.some.inj hplace, hvw⟩
  | none => cases hplace

/-- **The frame of a call serves the free names of the body**: the parameters from its
slots, the names around the function from the captured values. -/
theorem Frame.serves_of_enter {a : Lexical.Abstraction} {env : Lexical.Env} {names : List String}
    {captured vs : List Value} {known ws : List Lexical.Value} {size : Nat} {slots : Slots Value}
    (hknown : names.map (fun x => env.lookup x) = known.map some)
    (hcaptured : List.Forall₂ Represents captured known)
    (hunbound : ∀ x ∈ a.toExpr.free, x ∉ names → env.lookup x = none)
    (hargs : List.Forall₂ Represents vs ws) (hlen : ws.length = a.params.length)
    (hslots : Slots.ofArgs? size vs = some slots) (chain : Chain) :
    Frame.Serves ⟨slots, captured, chain⟩ ⟨paramSlots a.params, names⟩ (env.enter a.params ws)
      a.body.free := by
  intro x hx
  rw [Lexical.Env.lookup_enter env hlen, Scope.find?]
  cases hparam : (paramSlots a.params).lookup x with
  | some i =>
    have hi : i < vs.length := by
      obtain ⟨before, after, heq, -⟩ := List.lookup_eq_some_iff.1 hparam
      have hmem : (x, i) ∈ paramSlots a.params := heq ▸ List.mem_append_right _ List.mem_cons_self
      rw [hargs.length_eq, hlen]
      exact mem_paramSlots hmem
    have hv := List.getElem?_eq_getElem hi
    obtain ⟨w, hw, hvw⟩ := exists_of_rel_some (getElem?_rel hargs i) hv
    dsimp only [Option.elim]
    rw [hw]
    exact .some ⟨vs[i], (Slots.get?_ofArgs? hslots i).trans hv, hvw⟩
  | none =>
    dsimp only [Option.elim]
    cases hplace : names.findIdx? (· == x) with
    | some j =>
      obtain ⟨v, w, hv, hw, hvw⟩ := captured_represents hknown hcaptured hplace
      rw [hw]
      exact .some ⟨v, hv, hvw⟩
    | none =>
      have hnames : x ∉ names := by
        intro hmem
        have hne := List.findIdx?_eq_none_iff.1 hplace x hmem
        simp at hne
      have hfree : x ∈ a.toExpr.free := by
        refine List.mem_filter.2 ⟨hx, ?_⟩
        have hparams := lookup_paramSlots_eq_none hparam
        simpa using hparams
      rw [hunbound x hfree hnames]
      exact .none

/-! ## Expressions -/

/-- Calls of closures end like the calls of the functions that they represent. -/
def CallsCorrespond (apply : Call → Except (Failure EvalError) Value)
    (applyIn : Lexical.Call → Except EvalError Lexical.Value) : Prop :=
  ∀ pos chain origin (f : Closure) (g : Lexical.Closure) vs ws, Represents f.toValue g.toValue →
    List.Forall₂ Represents vs ws →
    SameOutcome Represents (apply ⟨pos, chain, origin, f, vs⟩) (applyIn ⟨pos, chain, origin, g, ws⟩)

/-- The resolved expression ends like the expression, in every frame that serves its free
names and has the slots it fills. -/
def Expr.Converts (apply : Call → Except (Failure EvalError) Value)
    (applyIn : Lexical.Call → Except EvalError Lexical.Value) (e : Expr) : Prop :=
  ∀ (s : Scope) (next : Nat) (label : Option String) (scope : List Nat) (fr : Frame)
    (env : Lexical.Env) (origin : Origin), s.Within next scope →
    (e.resolve s next label).errors = [] → (e.resolve s next label).next ≤ fr.slots.length →
    fr.Serves s env e.free →
    SameOutcome Represents ((e.resolve s next label).value.evalWith apply fr origin)
      (e.evalIn applyIn env fr.chain origin label)

section

variable {apply : Call → Except (Failure EvalError) Value}
  {applyIn : Lexical.Call → Except EvalError Lexical.Value}
  {s : Scope} {next : Nat} {scope : List Nat} {fr : Frame} {env : Lexical.Env}

theorem Frame.set_eq_ok {slot : Nat} {v : Value} {slots : Slots Value}
    (h : fr.slots.set? slot v = some slots) : fr.set slot v = .ok { fr with slots := slots } := by
  rw [Frame.set, h]

/-- Kernels give one result on values that they see alike. -/
theorem Frame.locate_kernel {r r' : Except Fault Value} (h : r' = r)
    (hplain : Ends Fault.OfKernel Value.Plain r) (fr : Frame) (pos : Pos) :
    SameOutcome Represents (fr.locate pos r)
      (Lexical.locate pos fr.chain r' >>= fun v => pure (Lexical.Value.ofData v)) := by
  subst h
  cases r' with
  | ok v => exact .ofPlain hplain
  | error f => exact rfl

theorem Represents.locate_condition {v : Value} {w : Lexical.Value} (h : Represents v w) (fr : Frame)
    (pos : Pos) :
    SameOutcome Eq (fr.locate pos v.condition) (Lexical.locate pos fr.chain w.outline.condition) := by
  rw [h.condition_eq]
  exact Frame.locate_corresponds (.refl _) fr pos

theorem Scope.Within.resolve (hs : s.Within next scope) (e : Expr) (label : Option String) :
    s.Within (e.resolve s next label).next scope :=
  hs.mono (e.resolve_scoped s next label scope hs).1

theorem Expr.le_next_resolve (hs : s.Within next scope) (e : Expr) (label : Option String) :
    next ≤ (e.resolve s next label).next :=
  (e.resolve_scoped s next label scope hs).1

theorem le_next_resolveAll (hs : s.Within next scope) (es : List Expr) :
    next ≤ (resolveAll s next es).next :=
  (resolveAll_scoped (fun e _ => e.resolve_scoped) hs).1

theorem le_next_resolveFields (hs : s.Within next scope) (seen : List String) (fs : List (Named Expr)) :
    next ≤ (resolveFields s next seen fs).next :=
  (resolveFields_scoped seen (fun f _ => f.value.resolve_scoped) hs).1

theorem le_next_resolveBindings (hs : s.Within next scope) (bs : List (Named Expr)) :
    next ≤ (resolveBindings s next bs).1.next :=
  (resolveBindings_scoped (fun b _ => b.value.resolve_scoped) hs).1.1

theorem length_resolveAll (s : Scope) (next : Nat) (es : List Expr) :
    (resolveAll s next es).value.length = es.length := by
  induction es generalizing next with
  | nil => rfl
  | cons e es ih => exact congrArg Nat.succ (ih _)

theorem resolveAll_corresponds {es : List Expr} (ih : ∀ e ∈ es, e.Converts apply applyIn)
    (hs : s.Within next scope) (herrors : (resolveAll s next es).errors = [])
    (hsize : (resolveAll s next es).next ≤ fr.slots.length) (h : fr.Serves s env (freeOfAll es))
    (origin : Origin) (n : Nat) :
    SameOutcome (List.Forall₂ Represents) (evalAll apply fr origin n (resolveAll s next es).value)
      (evalAllIn applyIn env fr.chain origin n es) := by
  induction es generalizing next n with
  | nil => exact .nil
  | cons e es ihs =>
    have htail : ∀ o ∈ es, o.Converts apply applyIn := fun o ho => ih o (List.mem_cons_of_mem _ ho)
    obtain ⟨hhead, hrest⟩ := List.append_eq_nil_iff.1 herrors
    have hnext := hs.resolve e none
    have hfits := Nat.le_trans (le_next_resolveAll hnext es) hsize
    refine (ih e List.mem_cons_self s next none scope fr env _ hs hhead hfits h.left).bind
      fun v w hvw => ?_
    refine (ihs htail hnext hrest hsize h.right (n + 1)).bind fun vs ws hvws => ?_
    exact .cons hvw hvws

theorem resolveFields_corresponds {fs : List (Named Expr)} (seen : List String)
    (ih : ∀ f ∈ fs, f.value.Converts apply applyIn) (hs : s.Within next scope)
    (herrors : (resolveFields s next seen fs).errors = [])
    (hsize : (resolveFields s next seen fs).next ≤ fr.slots.length)
    (h : fr.Serves s env (freeOfFields fs)) (origin : Origin) (n : Nat) :
    SameOutcome (List.Forall₂ (SameField Represents))
      (evalFields apply fr origin n (resolveFields s next seen fs).value)
      (evalFieldsIn applyIn env fr.chain origin n fs) := by
  induction fs generalizing next seen n with
  | nil => exact .nil
  | cons f fs ihs =>
    have htail : ∀ o ∈ fs, o.value.Converts apply applyIn :=
      fun o ho => ih o (List.mem_cons_of_mem _ ho)
    obtain ⟨hfirst, hrest⟩ := List.append_eq_nil_iff.1 herrors
    obtain ⟨-, hhead⟩ := List.append_eq_nil_iff.1 hfirst
    have hnext := hs.resolve f.value (some f.name)
    have hfits := Nat.le_trans (le_next_resolveFields hnext (f.name :: seen) fs) hsize
    refine (ih f List.mem_cons_self s next (some f.name) scope fr env _ hs hhead hfits h.left).bind
      fun v w hvw => ?_
    refine (ihs (f.name :: seen) htail hnext hrest hsize h.right (n + 1)).bind fun vs ws hvws => ?_
    exact .cons (.intro f.name hvw) hvws

/-- The frame after the bindings serves the names that are free in the rest. -/
theorem resolveBindings_corresponds {bs : List (Named Expr)} {rest : List String}
    (ih : ∀ b ∈ bs, b.value.Converts apply applyIn) (hs : s.Within next scope)
    (herrors : (resolveBindings s next bs).1.errors = [])
    (hsize : (resolveBindings s next bs).1.next ≤ fr.slots.length)
    (h : fr.Serves s env (freeOfBindings bs rest)) (origin : Origin) (n : Nat) :
    SameOutcome (fun fr' env' => fr'.slots.length = fr.slots.length ∧ fr'.chain = fr.chain ∧
        fr'.Serves (resolveBindings s next bs).2 env' rest)
      (evalBindings apply fr origin n (resolveBindings s next bs).1.value)
      (evalBindingsIn applyIn env fr.chain origin n bs) := by
  induction bs generalizing s next scope fr env n with
  | nil => exact ⟨rfl, rfl, h⟩
  | cons b bs ihs =>
    have htail : ∀ o ∈ bs, o.value.Converts apply applyIn :=
      fun o ho => ih o (List.mem_cons_of_mem _ ho)
    obtain ⟨hhead, hrest⟩ := List.append_eq_nil_iff.1 herrors
    have hnext := hs.resolve b.value (some b.name)
    have hle := le_next_resolveBindings (hnext.bind b.name) bs
    have hslot : (b.value.resolve s next (some b.name)).next < fr.slots.length :=
      Nat.le_trans hle hsize
    refine (ih b List.mem_cons_self s next (some b.name) scope fr env _ hs hhead
      (Nat.le_of_lt hslot) h.left).bind fun v w hvw => ?_
    -- the slot of the binding exists, and the frame with it filled serves the new name
    obtain ⟨slots, hset⟩ : ∃ slots, fr.slots.set? _ v = some slots := ⟨_, if_pos hslot⟩
    have hlength : slots.length = fr.slots.length := Slots.length_set? hset
    have hserves := h.right.bind hnext hset hvw
    have hrun := ihs htail (hnext.bind b.name) hrest (hlength ▸ hsize) hserves (n + 1)
    rw [Frame.set_eq_ok hset, Except.ok_bind]
    refine hrun.mono fun fr' env' hafter => ?_
    obtain ⟨hlen, hchain, hserves'⟩ := hafter
    exact ⟨hlen.trans hlength, hchain, hserves'⟩

/-- A name means in the frame what it means in the environment. -/
theorem resolveName_corresponds {name : String} {pos : Pos} (herrors : (resolveName s name pos).2 = [])
    (h : fr.Serves s env [name]) (origin : Origin) :
    SameOutcome Represents ((resolveName s name pos).1.evalWith apply fr origin)
      (Lexical.lookup env name pos fr.chain) := by
  have hrel := h name List.mem_cons_self
  unfold resolveName at herrors ⊢
  unfold Lexical.lookup
  generalize s.find? name = found at hrel herrors ⊢
  generalize env.lookup name = value at hrel ⊢
  cases hrel with
  | some hval =>
    obtain ⟨v, hv, hvw⟩ := hval
    dsimp only [Operation.evalWith]
    rw [hv]
    exact hvw
  | none =>
    dsimp only at herrors ⊢
    cases hconst : namedConstant? name with
    | some x => exact .num x
    | none =>
      -- such a name is an error of resolution
      rw [hconst] at herrors
      dsimp only at herrors
      split at herrors <;> cases herrors

/-- A closure represents the function that it is made from. -/
theorem Lambda.represents {params : List Param} {body : Expr} {pos : Pos} {label : Option String}
    (herrors : ((Expr.lambda params body pos).resolve s next label).errors = [])
    (h : fr.Serves s env (Expr.lambda params body pos).free) (origin : Origin) :
    SameOutcome Represents
      (((Expr.lambda params body pos).resolve s next label).value.evalWith apply fr origin)
      (.ok (.function ⟨label, params, body, pos⟩ env origin)) := by
  have hbody := (List.append_eq_nil_iff.1 herrors).2
  have hcapture : fr.Serves s env (s.capturedBy (Expr.lambda params body pos).free) :=
    h.mono fun x hx => List.mem_eraseDups.1 (List.mem_filter.1 hx).1
  obtain ⟨vs, ws, hvs, hws, hrep⟩ := hcapture.captureAll (fun x hx => (List.mem_filter.1 hx).2) pos
  dsimp only [Expr.resolve, Operation.evalWith]
  rw [hvs]
  refine .function ⟨hbody, rfl, rfl, rfl, rfl, rfl⟩ hws hrep ?_
  intro x hx hnot
  cases hfind : s.find? x with
  | some ref =>
    have hcaught : x ∈ s.capturedBy (Expr.lambda params body pos).free :=
      List.mem_filter.2 ⟨List.mem_eraseDups.2 hx, by rw [hfind]; rfl⟩
    exact (hnot hcaught).elim
  | none => exact eq_none_of_rel (h x hx) hfind

theorem Expr.Converts.binary {l r : Expr} (ihl : l.Converts apply applyIn)
    (ihr : r.Converts apply applyIn) (op : BinaryOp) (pos : Pos) :
    (Expr.binary op l r pos).Converts apply applyIn := by
  intro s next label scope fr env origin hs herrors hsize h
  obtain ⟨hleft, hright⟩ := List.append_eq_nil_iff.1 herrors
  have hnext := hs.resolve l none
  have hfits := Nat.le_trans (Expr.le_next_resolve hnext r none) hsize
  dsimp only [Expr.resolve, Operation.evalWith, Expr.evalIn]
  refine (ihl s next none scope fr env _ hs hleft hfits h.left).bind fun v w hvw => ?_
  have hoperand := ihr s _ none scope fr env (1 :: origin) hnext hright hsize h.right
  cases op.decisive? with
  | some decisive =>
    refine (hvw.locate_condition fr pos).bind fun b b' hb => ?_
    cases hb
    refine .ite (fun _ => .bool b) fun _ => hoperand.bind fun v' w' hvw' => ?_
    refine (hvw'.locate_condition fr pos).bind fun t t' ht => ?_
    cases ht
    exact .bool t
  | none =>
    refine hoperand.bind fun v' w' hvw' => ?_
    refine Frame.locate_kernel ?_ (op.apply_ends v v') fr pos
    rw [← hvw.outline_eq, ← hvw'.outline_eq, op.apply_outline]

theorem Expr.Converts.cond {c a b : Expr} (ihc : c.Converts apply applyIn)
    (iha : a.Converts apply applyIn) (ihb : b.Converts apply applyIn) (pos : Pos) :
    (Expr.cond c a b pos).Converts apply applyIn := by
  intro s next label scope fr env origin hs herrors hsize h
  obtain ⟨hfirst, hno⟩ := List.append_eq_nil_iff.1 herrors
  obtain ⟨hcond, hyes⟩ := List.append_eq_nil_iff.1 hfirst
  have hnexta := hs.resolve c none
  have hnextb := hnexta.resolve a none
  have hfitsa := Nat.le_trans (Expr.le_next_resolve hnextb b none) hsize
  have hfitsc := Nat.le_trans (Expr.le_next_resolve hnexta a none) hfitsa
  dsimp only [Expr.resolve, Operation.evalWith, Expr.evalIn]
  refine (ihc s next none scope fr env _ hs hcond hfitsc h.left.left).bind fun v w hvw => ?_
  refine (hvw.locate_condition fr pos).bind fun t t' ht => ?_
  cases ht
  refine .ite (fun _ => ?_) fun _ => ?_
  · exact iha s _ none scope fr env _ hnexta hyes hfitsa h.left.right
  · exact ihb s _ none scope fr env _ hnextb hno hsize h.right

variable (hcalls : CallsCorrespond apply applyIn)

include hcalls in
/-- A called name is a builtin function for both, or for neither. -/
theorem Expr.Converts.call {callee : Expr} {args : List Expr} (ihf : callee.Converts apply applyIn)
    (ihs : ∀ a ∈ args, a.Converts apply applyIn) (pos : Pos) :
    (Expr.call callee args pos).Converts apply applyIn := by
  intro s next label scope fr env origin hs herrors hsize h
  have hargs : fr.Serves s env (freeOfAll args) := h.left
  have hcallee : fr.Serves s env callee.free := h.right
  rw [Expr.evalIn, hcallee.calledBuiltin?_eq]
  rw [Expr.resolve] at herrors hsize ⊢
  cases hbuiltin : calledBuiltin? s callee with
  | some b =>
    simp only [hbuiltin] at herrors hsize ⊢
    rw [Operation.evalWith]
    refine (resolveAll_corresponds ihs hs herrors hsize hargs origin 0).bind fun vs ws hvws => ?_
    exact Frame.locate_kernel (Represents.builtin_eq hvws b) (b.apply_ends vs) fr pos
  | none =>
    simp only [hbuiltin] at herrors hsize ⊢
    rw [Operation.evalWith]
    obtain ⟨herrargs, herrcallee⟩ := List.append_eq_nil_iff.1 herrors
    -- the arguments are resolved first, the called expression is evaluated first
    have hnext : s.Within (resolveAll s next args).next scope := hs.mono (le_next_resolveAll hs args)
    have hfits := Nat.le_trans (Expr.le_next_resolve hnext callee none) hsize
    refine (ihf s _ none scope fr env _ hnext herrcallee hsize hcallee).bind fun v w hvw => ?_
    have hclosure := hvw.closure?
    rw [hvw.tag_eq]
    generalize v.closure? = f at hclosure ⊢
    generalize w.closure? = g at hclosure ⊢
    cases hclosure with
    | some hfg =>
      refine (resolveAll_corresponds ihs hs herrargs hfits hargs origin 1).bind fun vs ws hvws => ?_
      rw [length_resolveAll]
      exact hcalls pos fr.chain _ _ _ vs ws hfg hvws
    | none => exact rfl

include hcalls in
/-- **Resolved expressions do what the expressions do**, if their calls do. -/
theorem Expr.converts (e : Expr) : e.Converts apply applyIn := by
  induction e with
  | lit value pos =>
    intro s next label scope fr env origin hs herrors hsize h
    exact .ofLiteral value
  | ident name pos =>
    intro s next label scope fr env origin hs herrors hsize h
    exact resolveName_corresponds herrors h origin
  | unary op e pos ih =>
    intro s next label scope fr env origin hs herrors hsize h
    refine (ih s next none scope fr env _ hs herrors hsize h).bind fun v w hvw => ?_
    exact Frame.locate_kernel (by rw [← hvw.outline_eq, op.apply_outline]) (op.apply_ends v) fr pos
  | binary op l r pos ihl ihr => exact ihl.binary ihr op pos
  | cond c a b pos ihc iha ihb => exact ihc.cond iha ihb pos
  | call callee args pos ihf ihs => exact ihf.call hcalls ihs pos
  | index e i pos ihe ihi =>
    intro s next label scope fr env origin hs herrors hsize h
    obtain ⟨htarget, hplace⟩ := List.append_eq_nil_iff.1 herrors
    have hnext := hs.resolve e none
    have hfits := Nat.le_trans (Expr.le_next_resolve hnext i none) hsize
    refine (ihe s next none scope fr env _ hs htarget hfits h.left).bind fun v w hvw => ?_
    refine (ihi s _ none scope fr env _ hnext hplace hsize h.right).bind fun v' w' hvw' => ?_
    exact Frame.locate_corresponds (hvw.index hvw') fr pos
  | field e name pos ih =>
    intro s next label scope fr env origin hs herrors hsize h
    refine (ih s next none scope fr env _ hs herrors hsize h).bind fun v w hvw => ?_
    exact Frame.locate_corresponds (hvw.field name) fr pos
  | list items pos ih =>
    intro s next label scope fr env origin hs herrors hsize h
    exact (resolveAll_corresponds ih hs herrors hsize h origin 0).bind fun vs ws hvws => .list hvws
  | record fields pos ih =>
    intro s next label scope fr env origin hs herrors hsize h
    refine (resolveFields_corresponds [] ih hs herrors hsize h origin 0).bind fun fs gs hfs => ?_
    exact .record (Fields.ofList_rel hfs)
  | lambda params body pos ih =>
    intro s next label scope fr env origin hs herrors hsize h
    exact Lambda.represents herrors h origin
  | letIn bindings body pos ihs ih =>
    intro s next label scope fr env origin hs herrors hsize h
    obtain ⟨hbindings, hbody⟩ := List.append_eq_nil_iff.1 herrors
    obtain ⟨-, hinner, -⟩ := resolveBindings_scoped (fun b _ => b.value.resolve_scoped) hs
    have hfits := Nat.le_trans (Expr.le_next_resolve hinner body none) hsize
    refine (resolveBindings_corresponds ihs hs hbindings hfits h origin 1).bind fun fr' env' hafter => ?_
    obtain ⟨hlen, hchain, hserves⟩ := hafter
    -- the bindings filled slots, but the calls under way are the same
    rw [← hchain]
    exact ih _ _ none _ fr' env' _ hinner hbody (hlen ▸ hsize) hserves

end

/-! ## Calls and programs -/

section

variable {apply : Call → Except (Failure EvalError) Value}
  {applyIn : Lexical.Call → Except EvalError Lexical.Value} (hcalls : CallsCorrespond apply applyIn)
  {f : Closure} {g : Lexical.Closure} (hfg : Represents f.toValue g.toValue)

include hfg in
theorem Represents.exists_captures : ∃ names known, g.code.ResolvesTo names f.code ∧
    names.map (fun x => g.env.lookup x) = known.map some ∧ List.Forall₂ Represents f.captured known ∧
    ∀ x ∈ g.code.toExpr.free, x ∉ names → g.env.lookup x = none := by
  obtain ⟨code, captured, origin⟩ := f
  obtain ⟨a, env, made⟩ := g
  cases hfg with
  | function hcode hknown hcaptured hunbound => exact ⟨_, _, hcode, hknown, hcaptured, hunbound⟩

include hfg in
/-- A closure is called and reported like the function it represents. -/
theorem Represents.signature_eq :
    f.name = g.code.name ∧ f.label = g.label ∧ f.arity = g.arity ∧ f.pos = g.code.pos := by
  obtain ⟨names, known, hcode, -⟩ := hfg.exists_captures
  exact ⟨hcode.name, congrArg (fun name => name.getD "<lambda>") hcode.name, hcode.arity, hcode.pos⟩

include hcalls hfg in
/-- The body of a closure ends like the body of the function, if there is an argument for
each parameter. -/
theorem Closure.enterWith_corresponds {vs : List Value} {ws : List Lexical.Value}
    (hargs : List.Forall₂ Represents vs ws) (hlen : vs.length = f.arity) (chain : Chain)
    (origin : Origin) :
    SameOutcome Represents (f.enterWith apply chain origin vs) (g.enterWith applyIn chain origin ws) := by
  obtain ⟨names, known, hcode, hknown, hcaptured, hunbound⟩ := hfg.exists_captures
  have hparams : ws.length = g.code.params.length := by
    rw [← hargs.length_eq, hlen]
    exact hcode.arity
  have hwithin := paramSlots_within g.code.params names
  have hle : g.code.params.length ≤ (g.code.resolveBody names).next :=
    Expr.le_next_resolve hwithin g.code.body none
  -- the frame has room for the parameters
  have hroom : vs.length ≤ f.slots := by
    rw [hargs.length_eq, hparams, Closure.slots, hcode.slots]
    exact hle
  obtain ⟨slots, hslots⟩ : ∃ slots, Slots.ofArgs? f.slots vs = some slots := ⟨_, if_pos hroom⟩
  have hserves := Frame.serves_of_enter hknown hcaptured hunbound hargs hparams hslots chain
  have hsize : (g.code.resolveBody names).next ≤ slots.length := by
    rw [Slots.length_ofArgs? hslots]
    exact Nat.le_of_eq hcode.slots.symm
  rw [Closure.enterWith, Frame.enter, hslots, Except.ok_bind, Closure.body, hcode.body]
  exact Expr.converts hcalls g.code.body _ _ none _ _ _ origin hwithin hcode.errors hsize hserves

end

/-- **Calls do what calls of the functions do**, under every limit on nested calls. -/
theorem applyWithin_corresponds (limit budget : Nat) :
    CallsCorrespond (applyWithin limit budget) (Lexical.applyWithin limit budget) := by
  induction budget with
  | zero =>
    intro pos chain origin f g vs ws hfg hargs
    obtain ⟨-, hlabel, harity, -⟩ := hfg.signature_eq
    unfold applyWithin Lexical.applyWithin
    dsimp only
    rw [hlabel, harity, hargs.length_eq]
    exact .ite (fun _ => rfl) fun _ => rfl
  | succ budget ih =>
    intro pos chain origin f g vs ws hfg hargs
    obtain ⟨hname, hlabel, harity, -⟩ := hfg.signature_eq
    unfold applyWithin Lexical.applyWithin
    dsimp only
    rw [hname, hlabel, harity, hargs.length_eq]
    refine .ite (fun _ => rfl) fun hlen => ?_
    have hgiven : vs.length = f.arity := by
      rw [hargs.length_eq, harity]
      exact Classical.not_not.1 hlen
    exact Closure.enterWith_corresponds ih hfg hargs hgiven _ origin

/-- **A closure does what the function does that it represents**, called from outside. -/
theorem Closure.call_corresponds {f : Closure} {g : Lexical.Closure}
    (hfg : Represents f.toValue g.toValue) (limit : Nat) (origin : Origin) {vs : List Value}
    {ws : List Lexical.Value} (hargs : List.Forall₂ Represents vs ws) :
    SameOutcome Represents (f.call limit origin vs) (g.call limit origin ws) := by
  obtain ⟨hname, hlabel, harity, hpos⟩ := hfg.signature_eq
  unfold Closure.call Lexical.Closure.call
  rw [hname, hlabel, harity, hpos, hargs.length_eq]
  refine .ite (fun _ => rfl) fun hlen => ?_
  have hgiven : vs.length = f.arity := by
    rw [hargs.length_eq, harity]
    exact Classical.not_not.1 hlen
  exact Closure.enterWith_corresponds (applyWithin_corresponds limit limit) hfg hargs hgiven _ origin

/-- The closure of a whole program represents the program as a function without
parameters, in the empty environment. -/
theorem Expr.toLambda_represents {program : Expr} {main : Lambda} (h : program.toLambda = .ok main)
    (origin : Origin) :
    Represents (.function main [] origin) (.function ⟨none, [], program, program.pos⟩ [] origin) := by
  unfold Expr.toLambda at h
  dsimp only at h
  split at h
  · next herrors =>
    cases h
    have hcode : Lexical.Abstraction.ResolvesTo ⟨none, [], program, program.pos⟩ []
        ⟨⟨none, 0, (program.resolve .empty 0 none).next, [], program.pos⟩,
          (program.resolve .empty 0 none).value⟩ := ⟨herrors, rfl, rfl, rfl, rfl, rfl⟩
    exact .function hcode (List.map_nil.trans List.map_nil.symm) .nil fun _ _ _ => rfl
  · cases h

/-- `let a = 1; f = () -> a in let a = 2 in f`: the function keeps the outer `a`. -/
def shadowing : Expr :=
  .letIn [⟨"a", ⟨1, 5⟩, .lit (.num 1) ⟨1, 9⟩⟩, ⟨"f", ⟨1, 12⟩, .lambda [] (.ident "a" ⟨1, 22⟩) ⟨1, 16⟩⟩]
    (.letIn [⟨"a", ⟨1, 31⟩, .lit (.num 2) ⟨1, 35⟩⟩] (.ident "f" ⟨1, 40⟩) ⟨1, 27⟩) ⟨1, 1⟩

end DistanceField
