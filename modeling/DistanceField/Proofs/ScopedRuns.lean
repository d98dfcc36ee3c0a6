import DistanceField.Program
import DistanceField.Proofs.Scoping

/-!
# Runs of scoped code

Scoped code in a frame that holds what it relies on never reads a slot or a captured
value that is not there, and every closure that it makes has scoped code again. So a
program that is read from a source text cannot get stuck.

* `Value.WellScoped`: all functions in a value have scoped code and their captured values.
* `Operation.evalWith_ends`, `Closure.call_ends`: evaluation ends with such a value or
  with a fault of the program.
* `Shape.dist_wellScoped`: the distance function of a shape that a source text denotes.
-/

namespace DistanceField

/-! ## Faults of programs -/

/-- A fault that a program can make when it runs. It is not about a name without a value,
nor about the types of shader code. -/
def Fault.Dynamic (f : Fault) : Prop :=
  f.kind ≠ .undefined ∧ f.kind ≠ .typeMismatch ∧ f.kind ≠ .unsupportedOperation

/-- The failure is reported, with such a fault. -/
def Failure.Dynamic : Failure EvalError → Prop
  | .report e => e.fault.Dynamic
  | .outOfBounds => False

/-- A fault of an operator, a builtin function, a field or an index. -/
def Fault.OfKernel (f : Fault) : Prop :=
  f.kind = .missingField ∨ f.kind = .wrongType ∨ f.kind = .wrongArity ∨ f.kind = .outOfRange

theorem Fault.OfKernel.dynamic {f : Fault} (h : f.OfKernel) : f.Dynamic := by
  rcases h with h | h | h | h <;> simp [Dynamic, h]

theorem Frame.locate_ends {α : Type} {P : α → Prop} {r : Except Fault α} (h : Ends Fault.OfKernel P r)
    (fr : Frame) (pos : Pos) : Ends Failure.Dynamic P (fr.locate pos r) := by
  cases r with
  | ok a => exact h
  | error f => exact Fault.OfKernel.dynamic h

/-! ## Kernels -/

/-- What operators and builtin functions return: booleans, numbers and lists of numbers. -/
inductive Value.Plain : Value → Prop
  | bool (b : Bool) : Plain (.bool b)
  | num (x : Float) : Plain (.num x)
  | vector (xs : List Float) : Plain (.vector xs)

theorem Operand.toValue_plain (a : Operand) : a.toValue.Plain := by
  cases a with
  | scalar x => exact .num x
  | vector xs => exact .vector xs

theorem Operand.ofValue_ends (what : String) (v : Value) :
    Ends Fault.OfKernel (fun _ => True) (Operand.ofValue what v) := by
  unfold Operand.ofValue
  split
  · trivial
  · split
    · trivial
    · exact .inr (.inl rfl)

theorem Operand.zip_ends (what : String) (f : Float → Float → Float) (a b : Operand) :
    Ends Fault.OfKernel (fun _ => True) (a.zip what f b) := by
  unfold Operand.zip
  split
  · trivial
  · trivial
  · trivial
  · split
    · trivial
    · exact .inr (.inl rfl)

theorem Builtin.countOf_ends (v : Value) : Ends Fault.OfKernel Value.Plain (Builtin.countOf v) := by
  unfold Builtin.countOf
  split
  · exact .num _
  · exact .num _
  · exact .inr (.inl rfl)

theorem Builtin.apply1_ends (b : Builtin) (v : Value) :
    Ends Fault.OfKernel Value.Plain (b.apply1 v) := by
  unfold Builtin.apply1
  split
  · exact Builtin.countOf_ends v
  · refine (Operand.ofValue_ends b.name v).bind fun a _ => ?_
    split
    · exact Operand.toValue_plain _
    · dsimp only
      split
      · exact Operand.toValue_plain _
      · exact .num _

theorem Builtin.apply2_ends (b : Builtin) (v w : Value) :
    Ends Fault.OfKernel Value.Plain (b.apply2 v w) := by
  unfold Builtin.apply2
  refine (Operand.ofValue_ends b.name v).bind fun x _ => ?_
  refine (Operand.ofValue_ends b.name w).bind fun y _ => ?_
  split
  · exact (Operand.zip_ends _ _ x y).bind fun a _ => Operand.toValue_plain a
  · exact (Operand.zip_ends _ _ x y).bind fun _ _ => Value.Plain.num _

theorem Builtin.clampOf_ends (v lo hi : Value) :
    Ends Fault.OfKernel Value.Plain (Builtin.clampOf v lo hi) := by
  unfold Builtin.clampOf
  refine (Operand.ofValue_ends _ v).bind fun x _ => ?_
  refine (Operand.ofValue_ends _ lo).bind fun lo _ => ?_
  refine (Operand.zip_ends _ _ x lo).bind fun raised _ => ?_
  refine (Operand.ofValue_ends _ hi).bind fun hi _ => ?_
  exact (Operand.zip_ends _ _ raised hi).bind fun a _ => Operand.toValue_plain a

theorem Builtin.mixOf_ends (v w weight : Value) :
    Ends Fault.OfKernel Value.Plain (Builtin.mixOf v w weight) := by
  unfold Builtin.mixOf
  refine (Operand.ofValue_ends _ weight).bind fun t _ => ?_
  refine (Operand.ofValue_ends _ v).bind fun x _ => ?_
  refine (Operand.zip_ends _ _ x t).bind fun a _ => ?_
  refine (Operand.ofValue_ends _ w).bind fun y _ => ?_
  refine (Operand.zip_ends _ _ y t).bind fun b _ => ?_
  exact (Operand.zip_ends _ _ a b).bind fun c _ => Operand.toValue_plain c

theorem Builtin.apply_ends (b : Builtin) (args : List Value) :
    Ends Fault.OfKernel Value.Plain (b.apply args) := by
  unfold Builtin.apply
  split
  · exact .inr (.inr (.inl rfl))
  · split
    · exact b.apply1_ends _
    · exact b.apply2_ends _ _
    · split
      · exact Builtin.clampOf_ends _ _ _
      · exact Builtin.mixOf_ends _ _ _
    · exact .inr (.inr (.inl rfl))

theorem BinaryOp.apply_ends (op : BinaryOp) (l r : Value) :
    Ends Fault.OfKernel Value.Plain (op.apply l r) := by
  have arithmetic : ∀ f, Ends Fault.OfKernel Value.Plain (op.applyArithmetic f l r) := by
    intro f
    refine (Operand.ofValue_ends _ l).bind fun a _ => ?_
    refine (Operand.ofValue_ends _ r).bind fun b _ => ?_
    exact (Operand.zip_ends _ f a b).bind fun c _ => Operand.toValue_plain c
  have ordering : ∀ f, Ends Fault.OfKernel Value.Plain (op.applyOrdering f l r) := by
    intro f
    unfold BinaryOp.applyOrdering
    split
    · exact .bool _
    · exact .inr (.inl rfl)
  have logic : ∀ f, Ends Fault.OfKernel Value.Plain (op.applyLogic f l r) := by
    intro f
    unfold BinaryOp.applyLogic
    split
    · exact .bool _
    · exact .inr (.inl rfl)
  cases op with
  | add => exact arithmetic _
  | sub => exact arithmetic _
  | mul => exact arithmetic _
  | div => exact arithmetic _
  | mod => exact arithmetic _
  | eq => exact .bool _
  | ne => exact .bool _
  | lt => exact ordering _
  | le => exact ordering _
  | gt => exact ordering _
  | ge => exact ordering _
  | and => exact logic _
  | or => exact logic _

theorem UnaryOp.apply_ends (op : UnaryOp) (v : Value) :
    Ends Fault.OfKernel Value.Plain (op.apply v) := by
  cases op with
  | neg => exact (Operand.ofValue_ends "-" v).bind fun a _ => Operand.toValue_plain _
  | not =>
    unfold UnaryOp.apply
    dsimp only
    split
    · exact .bool _
    · exact .inr (.inl rfl)

theorem Value.condition_ends (v : Value) : Ends Fault.OfKernel (fun _ => True) v.condition := by
  unfold Value.condition
  split
  · trivial
  · exact .inr (.inl rfl)

/-! ## Well-scoped values -/

/-- All functions in the value, also among captured values, have scoped code and one
captured value for each of their captures. -/
inductive Value.WellScoped : Value → Prop
  | null : WellScoped .null
  | bool (b : Bool) : WellScoped (.bool b)
  | num (x : Float) : WellScoped (.num x)
  | str (s : String) : WellScoped (.str s)
  | list {items : List Value} : (∀ v ∈ items, WellScoped v) → WellScoped (.list items)
  | record {fields : List (String × Value)} : (∀ f ∈ fields, WellScoped f.2) →
      WellScoped (.record fields)
  | function {code : Lambda} {captured : List Value} {origin : Origin} : code.Scoped →
      captured.length = code.signature.captures.length → (∀ v ∈ captured, WellScoped v) →
      WellScoped (.function code captured origin)

def Closure.WellScoped (f : Closure) : Prop := f.toValue.WellScoped

theorem Value.Plain.wellScoped {v : Value} (h : v.Plain) : v.WellScoped := by
  cases h with
  | bool b => exact .bool b
  | num x => exact .num x
  | vector xs =>
    refine .list fun v hv => ?_
    obtain ⟨x, -, rfl⟩ := List.mem_map.1 hv
    exact .num x

theorem Value.ofLiteral_wellScoped (l : Literal) : (Value.ofLiteral l).WellScoped := by
  cases l with
  | null => exact .null
  | bool b => exact .bool b
  | num x => exact .num x
  | str s => exact .str s

theorem Value.closure?_eq_some {v : Value} {f : Closure} (h : v.closure? = some f) : v = f.toValue := by
  cases v with
  | function code captured origin => cases h; rfl
  | null => cases h
  | bool => cases h
  | num => cases h
  | str => cases h
  | list => cases h
  | record => cases h

theorem Value.WellScoped.closure? {v : Value} (h : v.WellScoped) {f : Closure}
    (hf : v.closure? = some f) : f.WellScoped := by
  obtain rfl := Value.closure?_eq_some hf
  exact h

namespace Fields

variable {α : Type}

theorem mem_insert {name : String} {value : α} {fs : List (String × α)} {f : String × α}
    (h : f ∈ insert name value fs) : f = (name, value) ∨ f ∈ fs := by
  induction fs with
  | nil => exact .inl (List.mem_singleton.1 h)
  | cons g fs ih =>
    obtain ⟨n, v⟩ := g
    unfold insert at h
    split at h
    · exact List.mem_cons.1 h
    · split at h
      · exact (List.mem_cons.1 h).imp id (List.mem_cons_of_mem _)
      · rcases List.mem_cons.1 h with rfl | h
        · exact .inr List.mem_cons_self
        · exact (ih h).imp id (List.mem_cons_of_mem _)

theorem mem_ofList {entries : List (String × α)} {f : String × α} (h : f ∈ ofList entries) :
    f ∈ entries := by
  -- the accumulator of the fold holds earlier entries
  have hfold : ∀ (es acc : List (String × α)),
      f ∈ es.foldl (fun fs e => insert e.1 e.2 fs) acc → f ∈ acc ∨ f ∈ es := by
    intro es
    induction es with
    | nil => exact fun acc h => .inl h
    | cons e es ih =>
      intro acc h
      rcases ih _ h with h | h
      · exact (mem_insert h).elim (fun heq => .inr (heq ▸ List.mem_cons_self)) .inl
      · exact .inr (List.mem_cons_of_mem _ h)
  exact (hfold entries [] h).elim (fun h => nomatch h) id

theorem mem_of_get? {fs : List (String × α)} {name : String} {v : α} (h : get? fs name = some v) :
    (name, v) ∈ fs := by
  obtain ⟨before, after, rfl, -⟩ := List.lookup_eq_some_iff.1 h
  exact List.mem_append_right _ List.mem_cons_self

end Fields

/-- A field is a part of the value. -/
theorem Value.field_ends {P : Value → Prop} (v : Value) (name : String)
    (hfields : ∀ fs, v = .record fs → ∀ f ∈ fs, P f.2)
    (hitems : ∀ items, v = .list items → ∀ w ∈ items, P w) : Ends Fault.OfKernel P (v.field name) := by
  unfold Value.field
  split
  · next fs =>
    split
    · next w hw => exact hfields fs rfl _ (Fields.mem_of_get? hw)
    · exact .inl rfl
  · next items =>
    split
    · exact .inr (.inl rfl)
    · split
      · next w hw => exact hitems items rfl _ (List.mem_of_getElem? hw)
      · exact .inr (.inr (.inr rfl))
  · exact .inr (.inl rfl)

theorem Value.index_ends {P : Value → Prop} (v i : Value)
    (hitems : ∀ items, v = .list items → ∀ w ∈ items, P w) : Ends Fault.OfKernel P (v.index i) := by
  unfold Value.index
  split
  · next items =>
    split
    · split
      · next w hw =>
        obtain ⟨k, -, hk⟩ := Option.bind_eq_some_iff.1 hw
        exact hitems items rfl _ (List.mem_of_getElem? hk)
      · exact .inr (.inr (.inr rfl))
    · exact .inr (.inl rfl)
  · exact .inr (.inl rfl)

namespace Value.WellScoped

variable {v : Value} (h : v.WellScoped)

include h in
theorem of_list (items : List Value) (hv : v = .list items) : ∀ w ∈ items, w.WellScoped := by
  subst hv
  cases h with
  | list hitems => exact hitems

include h in
theorem of_record (fs : List (String × Value)) (hv : v = .record fs) : ∀ f ∈ fs, f.2.WellScoped := by
  subst hv
  cases h with
  | record hfields => exact hfields

end Value.WellScoped

/-! ## Evaluation -/

/-- The frame holds what scoped code relies on: values in the slots in use, and all
captured values. -/
structure Frame.WellScoped (size captures : Nat) (scope : List Nat) (fr : Frame) : Prop where
  size : fr.slots.length = size
  bound : ∀ i ∈ scope, ∃ v, fr.slots.get? i = some v
  slots : ∀ i v, fr.slots.get? i = some v → v.WellScoped
  count : fr.captured.length = captures
  captured : ∀ v ∈ fr.captured, v.WellScoped

namespace Frame.WellScoped

variable {size captures : Nat} {scope : List Nat} {fr : Frame}

theorem get?_inScope (h : fr.WellScoped size captures scope) {ref : Reference}
    (href : ref.InScope captures scope) : ∃ v, fr.get? ref = some v ∧ v.WellScoped := by
  cases ref with
  | slot i =>
    obtain ⟨v, hv⟩ := h.bound i href
    exact ⟨v, hv, h.slots i v hv⟩
  | captured i =>
    have hi : i < fr.captured.length := h.count ▸ href
    exact ⟨fr.captured[i], List.getElem?_eq_getElem hi, h.captured _ (List.getElem_mem hi)⟩

/-- Filling a slot puts it in use. -/
theorem set_ends (h : fr.WellScoped size captures scope) {slot : Nat} (hslot : slot < size)
    {v : Value} (hv : v.WellScoped) :
    Ends Failure.Dynamic (Frame.WellScoped size captures (slot :: scope)) (fr.set slot v) := by
  unfold Frame.set
  split
  · next slots hset =>
    have hget : ∀ i, Slots.get? slots i = if i = slot then some v else fr.slots.get? i := by
      intro i
      split
      · next heq => rw [heq]; exact Slots.get?_set?_self hset
      · next hne => exact Slots.get?_set?_of_ne hset (Ne.symm hne)
    refine ⟨(Slots.length_set? hset).trans h.size, fun i hi => ?_, fun i w hw => ?_, h.count,
      h.captured⟩
    · by_cases heq : i = slot
      · exact ⟨v, by rw [hget, if_pos heq]⟩
      · obtain ⟨w, hw⟩ := h.bound i ((List.mem_cons.1 hi).resolve_left heq)
        exact ⟨w, by rw [hget, if_neg heq, hw]⟩
    · rw [hget] at hw
      split at hw
      · cases hw; exact hv
      · exact h.slots i w hw
  · next hset =>
    have : slot < fr.slots.length := h.size ▸ hslot
    simp [Slots.set?, this] at hset

theorem captureAll_ends (h : fr.WellScoped size captures scope) (pos : Pos) {refs : List Reference}
    (hrefs : ∀ ref ∈ refs, ref.InScope captures scope) :
    Ends Failure.Dynamic (fun vs : List Value => vs.length = refs.length ∧ ∀ v ∈ vs, v.WellScoped)
      (captureAll fr pos refs) := by
  induction refs with
  | nil => exact ⟨rfl, fun v hv => nomatch hv⟩
  | cons ref refs ih =>
    obtain ⟨v, hv, hscoped⟩ := h.get?_inScope (hrefs ref List.mem_cons_self)
    unfold captureAll
    rw [hv]
    refine (ih fun r hr => hrefs r (List.mem_cons_of_mem _ hr)).bind fun vs hvs => ?_
    exact ⟨congrArg Nat.succ hvs.1, List.forall_mem_cons.2 ⟨hscoped, hvs.2⟩⟩

end Frame.WellScoped

section

variable {apply : Call → Except (Failure EvalError) Value}
  (happly : ∀ c : Call, c.callee.WellScoped → (∀ v ∈ c.args, v.WellScoped) →
    Ends Failure.Dynamic Value.WellScoped (apply c))
  {size captures : Nat} {scope : List Nat} {fr : Frame}

theorem evalAll_ends {ops : List Operation}
    (ih : ∀ op ∈ ops, ∀ scope fr origin, op.Scoped size captures scope →
      fr.WellScoped size captures scope →
      Ends Failure.Dynamic Value.WellScoped (op.evalWith apply fr origin))
    (h : ScopedAll size captures scope ops) (hfr : fr.WellScoped size captures scope)
    (origin : Origin) (n : Nat) :
    Ends Failure.Dynamic (fun vs : List Value => ∀ v ∈ vs, v.WellScoped)
      (evalAll apply fr origin n ops) := by
  induction ops generalizing n with
  | nil => exact fun v hv => nomatch hv
  | cons op ops ihs =>
    unfold evalAll
    refine (ih op List.mem_cons_self scope fr _ h.1 hfr).bind fun v hv => ?_
    refine (ihs (fun o ho => ih o (List.mem_cons_of_mem _ ho)) h.2 _).bind fun vs hvs => ?_
    exact List.forall_mem_cons.2 ⟨hv, hvs⟩

theorem evalFields_ends {fs : List (String × Operation)}
    (ih : ∀ f ∈ fs, ∀ scope fr origin, f.2.Scoped size captures scope →
      fr.WellScoped size captures scope →
      Ends Failure.Dynamic Value.WellScoped (f.2.evalWith apply fr origin))
    (h : ScopedFields size captures scope fs) (hfr : fr.WellScoped size captures scope)
    (origin : Origin) (n : Nat) :
    Ends Failure.Dynamic (fun vs : List (String × Value) => ∀ v ∈ vs, v.2.WellScoped)
      (evalFields apply fr origin n fs) := by
  induction fs generalizing n with
  | nil => exact fun v hv => nomatch hv
  | cons f fs ihs =>
    unfold evalFields
    refine (ih f List.mem_cons_self scope fr _ h.1 hfr).bind fun v hv => ?_
    refine (ihs (fun o ho => ih o (List.mem_cons_of_mem _ ho)) h.2 _).bind fun vs hvs => ?_
    exact List.forall_mem_cons.2 ⟨hv, hvs⟩

theorem evalBindings_ends {bs : List (Nat × Operation)}
    (ih : ∀ b ∈ bs, ∀ scope fr origin, b.2.Scoped size captures scope →
      fr.WellScoped size captures scope →
      Ends Failure.Dynamic Value.WellScoped (b.2.evalWith apply fr origin))
    (h : ScopedBindings size captures scope bs) (hfr : fr.WellScoped size captures scope)
    (origin : Origin) (n : Nat) :
    Ends Failure.Dynamic (Frame.WellScoped size captures (scopeAfter scope bs))
      (evalBindings apply fr origin n bs) := by
  induction bs generalizing scope fr n with
  | nil => exact hfr
  | cons b bs ihs =>
    obtain ⟨hvalue, -, hslot, hrest⟩ := h
    unfold evalBindings
    refine (ih b List.mem_cons_self scope fr _ hvalue hfr).bind fun v hv => ?_
    refine (hfr.set_ends hslot hv).bind fun fr' hfr' => ?_
    exact ihs (fun o ho => ih o (List.mem_cons_of_mem _ ho)) hrest hfr' _

include happly in
/-- **Scoped code does not get stuck**, if the calls that it makes do not. -/
theorem Operation.evalWith_ends {op : Operation} (h : op.Scoped size captures scope)
    (hfr : fr.WellScoped size captures scope) (origin : Origin) :
    Ends Failure.Dynamic Value.WellScoped (op.evalWith apply fr origin) := by
  induction op generalizing scope fr origin with
  | const value pos => exact Value.ofLiteral_wellScoped value
  | load ref pos =>
    obtain ⟨v, hv, hscoped⟩ := hfr.get?_inScope h
    unfold Operation.evalWith
    rw [hv]
    exact hscoped
  | lambda signature body ih =>
    unfold Operation.evalWith
    refine (hfr.captureAll_ends signature.pos h.1).bind fun vs hvs => ?_
    exact .function h.2 hvs.1 hvs.2
  | call callee args pos ihf ihs =>
    unfold Operation.evalWith
    refine (ihf h.1 hfr _).bind fun v hv => ?_
    split
    · next f hf =>
      refine (evalAll_ends (fun a ha scope fr origin h hfr => ihs a ha h hfr origin) h.2 hfr
        origin 1).bind fun vs hvs => ?_
      exact happly _ (hv.closure? hf) hvs
    · exact ⟨nofun, nofun, nofun⟩
  | builtin b args pos ihs =>
    unfold Operation.evalWith
    refine (evalAll_ends (fun a ha scope fr origin h hfr => ihs a ha h hfr origin) h hfr
      origin 0).bind fun vs _ => ?_
    exact fr.locate_ends ((b.apply_ends vs).mono fun _ hv => hv.wellScoped) pos
  | unary op e pos ih =>
    unfold Operation.evalWith
    refine (ih h hfr _).bind fun v _ => ?_
    exact fr.locate_ends ((op.apply_ends v).mono fun _ hv => hv.wellScoped) pos
  | binary op l r pos ihl ihr =>
    unfold Operation.evalWith
    refine (ihl h.1 hfr _).bind fun v _ => ?_
    split
    · refine (fr.locate_ends v.condition_ends pos).bind fun b _ => ?_
      split
      · exact .bool _
      · refine (ihr h.2 hfr _).bind fun w _ => ?_
        exact (fr.locate_ends w.condition_ends pos).bind fun b _ => Value.WellScoped.bool b
    · refine (ihr h.2 hfr _).bind fun w _ => ?_
      exact fr.locate_ends ((op.apply_ends v w).mono fun _ hv => hv.wellScoped) pos
  | cond c a b pos ihc iha ihb =>
    unfold Operation.evalWith
    refine (ihc h.1 hfr _).bind fun v _ => ?_
    refine (fr.locate_ends v.condition_ends pos).bind fun t _ => ?_
    split
    · exact iha h.2.1 hfr _
    · exact ihb h.2.2 hfr _
  | letIn bindings body pos ihs ih =>
    unfold Operation.evalWith
    refine (evalBindings_ends (fun b hb scope fr origin h hfr => ihs b hb h hfr origin) h.1 hfr
      origin 1).bind fun inner hinner => ?_
    exact ih h.2 hinner _
  | list items pos ihs =>
    unfold Operation.evalWith
    exact (evalAll_ends (fun a ha scope fr origin h hfr => ihs a ha h hfr origin) h hfr
      origin 0).bind fun vs hvs => Value.WellScoped.list hvs
  | record fields pos ihs =>
    unfold Operation.evalWith
    refine (evalFields_ends (fun f hf scope fr origin h hfr => ihs f hf h hfr origin) h hfr
      origin 0).bind fun vs hvs => ?_
    exact .record fun f hf => hvs f (Fields.mem_ofList hf)
  | field e name pos ih =>
    unfold Operation.evalWith
    refine (ih h hfr _).bind fun v hv => ?_
    exact fr.locate_ends (v.field_ends name hv.of_record hv.of_list) pos
  | index e i pos ihe ihi =>
    unfold Operation.evalWith
    refine (ihe h.1 hfr _).bind fun v hv => ?_
    refine (ihi h.2 hfr _).bind fun w _ => ?_
    exact fr.locate_ends (v.index_ends w hv.of_list) pos

include happly in
theorem Closure.enterWith_ends {f : Closure} (hf : f.WellScoped) {args : List Value}
    (hargs : ∀ v ∈ args, v.WellScoped) (hlen : args.length = f.arity) (chain : Chain)
    (origin : Origin) : Ends Failure.Dynamic Value.WellScoped (f.enterWith apply chain origin args) := by
  cases hf with
  | function hcode hcount hcaptured =>
    unfold Closure.enterWith Frame.enter
    split
    · next slots hslots =>
      have hget := Slots.get?_ofArgs? hslots
      have hframe : Frame.WellScoped f.slots f.code.signature.captures.length (List.range f.arity)
          ⟨slots, f.captured, chain⟩ := by
        refine ⟨Slots.length_ofArgs? hslots, fun i hi => ?_, fun i v hv => ?_, hcount, hcaptured⟩
        · have hi' : i < args.length := hlen ▸ List.mem_range.1 hi
          exact ⟨args[i], (hget i).trans (List.getElem?_eq_getElem hi')⟩
        · rw [hget] at hv
          exact hargs v (List.mem_of_getElem? hv)
      exact Operation.evalWith_ends happly hcode.2 hframe origin
    · next hslots =>
      have : args.length ≤ f.slots := hlen ▸ hcode.1
      simp [Slots.ofArgs?, this] at hslots

end

theorem applyWithin_ends (limit budget : Nat) (c : Call) (hf : c.callee.WellScoped)
    (hargs : ∀ v ∈ c.args, v.WellScoped) :
    Ends Failure.Dynamic Value.WellScoped (applyWithin limit budget c) := by
  induction budget generalizing c with
  | zero =>
    unfold applyWithin
    split
    · exact ⟨nofun, nofun, nofun⟩
    · exact ⟨nofun, nofun, nofun⟩
  | succ budget ih =>
    unfold applyWithin
    split
    · exact ⟨nofun, nofun, nofun⟩
    · next hlen => exact Closure.enterWith_ends ih hf hargs (Classical.not_not.1 hlen) _ _

/-- **A call from outside does not get stuck**, and its result is well-scoped again. -/
theorem Closure.call_ends {f : Closure} (hf : f.WellScoped) {args : List Value}
    (hargs : ∀ v ∈ args, v.WellScoped) (limit : Nat) (origin : Origin) :
    Ends Failure.Dynamic Value.WellScoped (f.call limit origin args) := by
  unfold Closure.call
  split
  · exact ⟨nofun, nofun, nofun⟩
  · next hlen =>
    exact Closure.enterWith_ends (applyWithin_ends limit limit) hf hargs (Classical.not_not.1 hlen) _ _

/-! ## Programs and shapes -/

theorem Program.exists_toLambda {source : String} {p : Program} (h : Program.ofSource source = .ok p) :
    ∃ e : Expr, e.toLambda = .ok p.main := by
  obtain ⟨tokens, -, h⟩ := Except.bind_eq_ok.1 h
  obtain ⟨e, -, h⟩ := Except.bind_eq_ok.1 h
  obtain ⟨main, hmain, h⟩ := Except.bind_eq_ok.1 h
  refine ⟨e, ?_⟩
  cases hlambda : e.toLambda with
  | error d => rw [hlambda] at hmain; cases hmain
  | ok m =>
    rw [hlambda] at hmain
    cases hmain
    cases h
    rfl

theorem Program.run_ends {source : String} {p : Program} (h : Program.ofSource source = .ok p)
    (options : Options) (serial : Nat) :
    Ends Failure.Dynamic Value.WellScoped (p.run options serial) := by
  obtain ⟨e, he⟩ := Program.exists_toLambda h
  obtain ⟨hscoped, harity, hcaptures⟩ := Expr.toLambda_scoped he
  refine Closure.call_ends (.function hscoped ?_ (List.forall_mem_nil _)) (List.forall_mem_nil _) _ _
  rw [hcaptures]
  rfl

/-- A shape that a source text denotes is the record that the program gives. -/
theorem Shape.run_eq_record {source : String} {options : Options} {serial : Nat} {s : Shape}
    (h : Shape.ofSource? source options serial = some s) :
    ∃ p, Program.ofSource source = .ok p ∧ p.run options serial = .ok (.record s.fields) := by
  unfold Shape.ofSource? at h
  split at h
  · cases h
  · next p hp =>
    split at h
    · cases h
    · next v hv =>
      obtain ⟨fields, hrecord, rfl⟩ := Option.map_eq_some_iff.1 h
      cases v with
      | record fs => cases hrecord; exact ⟨p, hp, hv⟩
      | _ => cases hrecord

/-- The distance function is a field of the shape. -/
theorem Shape.dist_eq_ok {s : Shape} {f : Closure} (hf : s.dist = .ok f) :
    ("dist", f.toValue) ∈ s.fields ∧ f.arity = 1 := by
  unfold Shape.dist at hf
  split at hf
  · cases hf
  · next v hv =>
    split at hf
    · cases hf
    · next g hg =>
      split at hf
      · next harity =>
        cases hf
        rw [← Value.closure?_eq_some hg]
        exact ⟨Fields.mem_of_get? hv, harity⟩
      · cases hf

/-- The distance function of a shape that a source text denotes has scoped code. -/
theorem Shape.dist_wellScoped {source : String} {options : Options} {serial : Nat} {s : Shape}
    (h : Shape.ofSource? source options serial = some s) {f : Closure} (hf : s.dist = .ok f) :
    f.WellScoped ∧ f.arity = 1 := by
  obtain ⟨p, hp, hrun⟩ := Shape.run_eq_record h
  obtain ⟨hmem, harity⟩ := Shape.dist_eq_ok hf
  cases (Program.run_ends hp options serial).of_eq_ok hrun with
  | record hfields => exact ⟨hfields _ hmem, harity⟩

end DistanceField
