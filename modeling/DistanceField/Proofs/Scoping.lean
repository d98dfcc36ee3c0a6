import DistanceField.Operation.Resolve
import DistanceField.Proofs.DraftChanges

/-!
# Scoped operations

An operation is scoped if it reads only captured values that exist and slots that hold a
value when it is their turn, and if no binding fills a slot that is in use. Resolution
makes scoped operations, whether or not it finds errors.

* `Operation.Scoped`: the slots and captured values that an operation relies on.
* `Operation.Scoped.not_mem_writes`: slots in use are not filled again.
* `Expr.resolve_scoped`: resolved expressions are scoped.
-/

namespace DistanceField

/-- A name has a meaning where `scope` lists the slots in use and `captures` values are
captured. -/
def Reference.InScope (captures : Nat) (scope : List Nat) : Reference → Prop
  | .slot i => i ∈ scope
  | .captured i => i < captures

/-- The slots in use after the bindings of a `let`. -/
def scopeAfter (scope : List Nat) : List (Nat × Operation) → List Nat
  | [] => scope
  | (slot, _) :: bs => scopeAfter (slot :: scope) bs

mutual

/-- The operation runs in a frame with `size` slots, those of `scope` in use, and with
`captures` captured values. The function that it makes runs in a frame of its own, with
its parameters in use. -/
def Operation.Scoped (size captures : Nat) (scope : List Nat) : Operation → Prop
  | .const _ _ => True
  | .load ref _ => ref.InScope captures scope
  | .lambda signature body =>
    (∀ ref ∈ signature.captures, ref.InScope captures scope) ∧ signature.arity ≤ signature.slots ∧
      body.Scoped signature.slots signature.captures.length (List.range signature.arity)
  | .call callee args _ => callee.Scoped size captures scope ∧ ScopedAll size captures scope args
  | .builtin _ args _ => ScopedAll size captures scope args
  | .unary _ e _ => e.Scoped size captures scope
  | .binary _ l r _ => l.Scoped size captures scope ∧ r.Scoped size captures scope
  | .cond c a b _ =>
    c.Scoped size captures scope ∧ a.Scoped size captures scope ∧ b.Scoped size captures scope
  | .letIn bindings body _ =>
    ScopedBindings size captures scope bindings ∧
      body.Scoped size captures (scopeAfter scope bindings)
  | .list items _ => ScopedAll size captures scope items
  | .record fields _ => ScopedFields size captures scope fields
  | .field e _ _ => e.Scoped size captures scope
  | .index e i _ => e.Scoped size captures scope ∧ i.Scoped size captures scope

def ScopedAll (size captures : Nat) (scope : List Nat) : List Operation → Prop
  | [] => True
  | op :: ops => op.Scoped size captures scope ∧ ScopedAll size captures scope ops

/-- Each binding fills a slot that is not in use. -/
def ScopedBindings (size captures : Nat) (scope : List Nat) : List (Nat × Operation) → Prop
  | [] => True
  | (slot, op) :: bs =>
    op.Scoped size captures scope ∧ slot ∉ scope ∧ slot < size ∧
      ScopedBindings size captures (slot :: scope) bs

def ScopedFields (size captures : Nat) (scope : List Nat) : List (String × Operation) → Prop
  | [] => True
  | (_, op) :: fs => op.Scoped size captures scope ∧ ScopedFields size captures scope fs

end

/-- A function whose body is scoped in its frame. -/
def Lambda.Scoped (f : Lambda) : Prop :=
  f.signature.arity ≤ f.signature.slots ∧
    f.body.Scoped f.signature.slots f.signature.captures.length (List.range f.signature.arity)

theorem mem_scopeAfter {scope : List Nat} {bs : List (Nat × Operation)} {i : Nat} (h : i ∈ scope) :
    i ∈ scopeAfter scope bs := by
  induction bs generalizing scope with
  | nil => exact h
  | cons b bs ih => exact ih (List.mem_cons_of_mem _ h)

/-! ## Slots in use are not filled -/

section

variable {size captures : Nat} {scope : List Nat} {i : Nat}

theorem ScopedAll.not_mem_writes {ops : List Operation}
    (ih : ∀ op ∈ ops, ∀ scope, op.Scoped size captures scope → i ∈ scope → i ∉ op.writes)
    (h : ScopedAll size captures scope ops) (hi : i ∈ scope) : i ∉ writesOfAll ops := by
  induction ops with
  | nil => exact List.not_mem_nil
  | cons op ops ihs =>
    rw [writesOfAll, List.mem_append, not_or]
    exact ⟨ih op List.mem_cons_self scope h.1 hi,
      ihs (fun o ho => ih o (List.mem_cons_of_mem _ ho)) h.2⟩

theorem ScopedFields.not_mem_writes {fs : List (String × Operation)}
    (ih : ∀ f ∈ fs, ∀ scope, f.2.Scoped size captures scope → i ∈ scope → i ∉ f.2.writes)
    (h : ScopedFields size captures scope fs) (hi : i ∈ scope) : i ∉ writesOfFields fs := by
  induction fs with
  | nil => exact List.not_mem_nil
  | cons f fs ihs =>
    rw [writesOfFields, List.mem_append, not_or]
    exact ⟨ih f List.mem_cons_self scope h.1 hi,
      ihs (fun o ho => ih o (List.mem_cons_of_mem _ ho)) h.2⟩

theorem ScopedBindings.not_mem_writes {bs : List (Nat × Operation)}
    (ih : ∀ b ∈ bs, ∀ scope, b.2.Scoped size captures scope → i ∈ scope → i ∉ b.2.writes)
    (h : ScopedBindings size captures scope bs) (hi : i ∈ scope) : i ∉ writesOfBindings bs := by
  induction bs generalizing scope with
  | nil => exact List.not_mem_nil
  | cons b bs ihs =>
    obtain ⟨hvalue, hslot, -, hrest⟩ := h
    rw [writesOfBindings, List.mem_append, List.mem_cons, not_or, not_or]
    refine ⟨ih b List.mem_cons_self scope hvalue hi, fun heq => hslot (heq ▸ hi), ?_⟩
    exact ihs (fun o ho => ih o (List.mem_cons_of_mem _ ho)) hrest (List.mem_cons_of_mem _ hi)

/-- **Slots in use are not filled again.** -/
theorem Operation.Scoped.not_mem_writes {op : Operation} (h : op.Scoped size captures scope)
    (hi : i ∈ scope) : i ∉ op.writes := by
  induction op generalizing scope with
  | const => exact List.not_mem_nil
  | load => exact List.not_mem_nil
  | lambda => exact List.not_mem_nil
  | call callee args pos ihf iha =>
    rw [Operation.writes, List.mem_append, not_or]
    exact ⟨h.2.not_mem_writes (fun a ha scope => iha a ha) hi, ihf h.1 hi⟩
  | builtin b args pos ih => exact ScopedAll.not_mem_writes (fun a ha scope => ih a ha) h hi
  | unary op e pos ih => exact ih h hi
  | binary op l r pos ihl ihr =>
    rw [Operation.writes, List.mem_append, not_or]
    exact ⟨ihl h.1 hi, ihr h.2 hi⟩
  | cond c a b pos ihc iha ihb =>
    rw [Operation.writes, List.mem_append, List.mem_append, not_or, not_or]
    exact ⟨⟨ihc h.1 hi, iha h.2.1 hi⟩, ihb h.2.2 hi⟩
  | letIn bindings body pos ihs ih =>
    rw [Operation.writes, List.mem_append, not_or]
    exact ⟨h.1.not_mem_writes (fun b hb scope => ihs b hb) hi, ih h.2 (mem_scopeAfter hi)⟩
  | list items pos ih => exact ScopedAll.not_mem_writes (fun a ha scope => ih a ha) h hi
  | record fields pos ih => exact ScopedFields.not_mem_writes (fun f hf scope => ih f hf) h hi
  | field e name pos ih => exact ih h hi
  | index e j pos ihe ihj =>
    rw [Operation.writes, List.mem_append, not_or]
    exact ⟨ihe h.1 hi, ihj h.2 hi⟩

end

/-! ## Resolution -/

/-- The slots of a function's own names are in use, and the slots from `next` on are
not. -/
structure Scope.Within (s : Scope) (next : Nat) (scope : List Nat) : Prop where
  locals : ∀ p ∈ s.locals, p.2 ∈ scope
  unused : ∀ i ∈ scope, i < next

namespace Scope.Within

variable {s : Scope} {next : Nat} {scope : List Nat}

theorem mono (h : s.Within next scope) {later : Nat} (hle : next ≤ later) : s.Within later scope :=
  ⟨h.locals, fun i hi => Nat.lt_of_lt_of_le (h.unused i hi) hle⟩

theorem bind (h : s.Within next scope) (name : String) :
    (s.bind name next).Within (next + 1) (next :: scope) := by
  refine ⟨fun p hp => ?_, fun i hi => ?_⟩
  · rcases List.mem_cons.1 hp with rfl | hp
    · exact List.mem_cons_self
    · exact List.mem_cons_of_mem _ (h.locals p hp)
  · rcases List.mem_cons.1 hi with rfl | hi
    · exact Nat.lt_succ_self _
    · exact Nat.lt_succ_of_lt (h.unused i hi)

theorem find?_inScope (h : s.Within next scope) {x : String} {ref : Reference}
    (hx : s.find? x = some ref) : ref.InScope s.captured.length scope := by
  unfold Scope.find? at hx
  split at hx
  · next slot hslot =>
    cases hx
    obtain ⟨before, after, heq, -⟩ := List.lookup_eq_some_iff.1 hslot
    exact h.locals (x, slot) (heq ▸ List.mem_append_right _ List.mem_cons_self)
  · obtain ⟨i, hi, rfl⟩ := Option.map_eq_some_iff.1 hx
    exact (List.findIdx?_eq_some_iff_findIdx_eq.1 hi).1

end Scope.Within

theorem mem_paramSlots {params : List Param} {p : String × Nat} (h : p ∈ paramSlots params) :
    p.2 < params.length := by
  obtain ⟨x, i⟩ := p
  have hmem := List.mem_zipIdx (List.mem_reverse.1 h)
  simpa using hmem.2.1

theorem paramSlots_within (params : List Param) (captured : List String) :
    (Scope.mk (paramSlots params) captured).Within params.length (List.range params.length) :=
  ⟨fun _ hp => List.mem_range.2 (mem_paramSlots hp), fun _ hi => List.mem_range.1 hi⟩

/-- Every name that a function captures has a meaning where the function is made. -/
theorem Scope.length_capturedBy (s : Scope) (free : List String) :
    ((s.capturedBy free).filterMap s.find?).length = (s.capturedBy free).length := by
  have hall : ∀ x ∈ s.capturedBy free, (s.find? x).isSome := by
    intro x hx
    exact (List.mem_filter.1 hx).2
  generalize s.capturedBy free = names at hall ⊢
  induction names with
  | nil => rfl
  | cons x xs ih =>
    obtain ⟨ref, href⟩ := Option.isSome_iff_exists.1 (hall x List.mem_cons_self)
    rw [List.filterMap_cons_some href, List.length_cons, List.length_cons,
      ih fun y hy => hall y (List.mem_cons_of_mem _ hy)]

/-- The resolved value fits every frame that has the slots up to the first unused one. -/
def Resolved.Fits {α : Type} (next : Nat) (P : Nat → α → Prop) (r : Resolved α) : Prop :=
  next ≤ r.next ∧ ∀ size, r.next ≤ size → P size r.value

section

variable {s : Scope} {next : Nat} {scope : List Nat}

theorem resolveAll_scoped {es : List Expr}
    (ih : ∀ e ∈ es, ∀ s next label scope, Scope.Within s next scope →
      (e.resolve s next label).Fits next fun size op => op.Scoped size s.captured.length scope)
    (h : s.Within next scope) :
    (resolveAll s next es).Fits next fun size ops => ScopedAll size s.captured.length scope ops := by
  induction es generalizing next with
  | nil => exact ⟨Nat.le_refl _, fun _ _ => trivial⟩
  | cons e es ihs =>
    obtain ⟨hle, hop⟩ := ih e List.mem_cons_self s next none scope h
    obtain ⟨hle', hops⟩ := ihs (fun o ho => ih o (List.mem_cons_of_mem _ ho)) (h.mono hle)
    exact ⟨Nat.le_trans hle hle', fun size hsize =>
      ⟨hop size (Nat.le_trans hle' hsize), hops size hsize⟩⟩

theorem resolveFields_scoped {fs : List (Named Expr)} (seen : List String)
    (ih : ∀ f ∈ fs, ∀ s next label scope, Scope.Within s next scope →
      (f.value.resolve s next label).Fits next fun size op => op.Scoped size s.captured.length scope)
    (h : s.Within next scope) :
    (resolveFields s next seen fs).Fits next
      fun size ops => ScopedFields size s.captured.length scope ops := by
  induction fs generalizing next seen with
  | nil => exact ⟨Nat.le_refl _, fun _ _ => trivial⟩
  | cons f fs ihs =>
    obtain ⟨hle, hop⟩ := ih f List.mem_cons_self s next (some f.name) scope h
    obtain ⟨hle', hops⟩ := ihs (f.name :: seen) (fun o ho => ih o (List.mem_cons_of_mem _ ho))
      (h.mono hle)
    exact ⟨Nat.le_trans hle hle', fun size hsize =>
      ⟨hop size (Nat.le_trans hle' hsize), hops size hsize⟩⟩

/-- The scope after the bindings knows their slots. -/
theorem resolveBindings_scoped {bs : List (Named Expr)}
    (ih : ∀ b ∈ bs, ∀ s next label scope, Scope.Within s next scope →
      (b.value.resolve s next label).Fits next fun size op => op.Scoped size s.captured.length scope)
    (h : s.Within next scope) :
    ((resolveBindings s next bs).1.Fits next
        fun size ops => ScopedBindings size s.captured.length scope ops) ∧
      (resolveBindings s next bs).2.Within (resolveBindings s next bs).1.next
        (scopeAfter scope (resolveBindings s next bs).1.value) ∧
      (resolveBindings s next bs).2.captured = s.captured := by
  induction bs generalizing s next scope with
  | nil => exact ⟨⟨Nat.le_refl _, fun _ _ => trivial⟩, h, rfl⟩
  | cons b bs ihs =>
    obtain ⟨hle, hop⟩ := ih b List.mem_cons_self s next (some b.name) scope h
    have hslot := h.mono hle
    obtain ⟨⟨hle', hops⟩, hinner, hcaptured⟩ :=
      ihs (fun o ho => ih o (List.mem_cons_of_mem _ ho)) (hslot.bind b.name)
    refine ⟨⟨by exact Nat.le_trans hle (Nat.le_of_succ_le hle'), fun size hsize => ?_⟩, hinner, hcaptured⟩
    have hused := Nat.le_trans hle' hsize
    exact ⟨hop size (Nat.le_of_succ_le hused), fun hmem => Nat.lt_irrefl _ (hslot.unused _ hmem), hused,
      hops size hsize⟩

end

/-- **Resolved expressions are scoped**, whether or not they have errors. -/
theorem Expr.resolve_scoped (e : Expr) (s : Scope) (next : Nat) (label : Option String)
    (scope : List Nat) (h : s.Within next scope) :
    (e.resolve s next label).Fits next fun size op => op.Scoped size s.captured.length scope := by
  induction e generalizing s next label scope with
  | lit value pos => exact ⟨Nat.le_refl _, fun _ _ => trivial⟩
  | ident name pos =>
    refine ⟨Nat.le_refl _, fun size _ => ?_⟩
    simp only [Expr.resolve, resolveName]
    split
    · next ref href => exact h.find?_inScope href
    · split
      · trivial
      · split <;> trivial
  | unary op e pos ih => exact ih s next none scope h
  | binary op l r pos ihl ihr =>
    obtain ⟨hle, hl⟩ := ihl s next none scope h
    obtain ⟨hle', hr⟩ := ihr s _ none scope (h.mono hle)
    exact ⟨Nat.le_trans hle hle', fun size hsize => ⟨hl size (Nat.le_trans hle' hsize), hr size hsize⟩⟩
  | cond c a b pos ihc iha ihb =>
    obtain ⟨hlec, hc⟩ := ihc s next none scope h
    obtain ⟨hlea, ha⟩ := iha s _ none scope (h.mono hlec)
    obtain ⟨hleb, hb⟩ := ihb s _ none scope ((h.mono hlec).mono hlea)
    refine ⟨Nat.le_trans hlec (Nat.le_trans hlea hleb), fun size hsize => ?_⟩
    have hsize' := Nat.le_trans hleb hsize
    exact ⟨hc size (Nat.le_trans hlea hsize'), ha size hsize', hb size hsize⟩
  | call callee args pos ihf ihs =>
    obtain ⟨hle, hargs⟩ := resolveAll_scoped ihs h
    simp only [Expr.resolve]
    split
    · exact ⟨hle, hargs⟩
    · obtain ⟨hle', hf⟩ := ihf s _ none scope (h.mono hle)
      exact ⟨Nat.le_trans hle hle', fun size hsize => ⟨hf size hsize, hargs size (Nat.le_trans hle' hsize)⟩⟩
  | index e i pos ihe ihi =>
    obtain ⟨hle, he⟩ := ihe s next none scope h
    obtain ⟨hle', hi⟩ := ihi s _ none scope (h.mono hle)
    exact ⟨Nat.le_trans hle hle', fun size hsize => ⟨he size (Nat.le_trans hle' hsize), hi size hsize⟩⟩
  | field e name pos ih => exact ih s next none scope h
  | list items pos ih => exact resolveAll_scoped ih h
  | record fields pos ih => exact resolveFields_scoped [] ih h
  | lambda params body pos ih =>
    refine ⟨Nat.le_refl _, fun size _ => ⟨fun ref href => ?_, ?_⟩⟩
    · obtain ⟨x, -, hx⟩ := List.mem_filterMap.1 href
      exact h.find?_inScope hx
    · -- the body has as many captured values as the function has captures
      obtain ⟨hle, hbody⟩ := ih _ params.length none _
        (paramSlots_within params (s.capturedBy (Expr.lambda params body pos).free))
      refine ⟨hle, ?_⟩
      rw [Scope.length_capturedBy]
      exact hbody _ (Nat.le_refl _)
  | letIn bindings body pos ihs ih =>
    obtain ⟨⟨hle, hbs⟩, hinner, hcaptured⟩ := resolveBindings_scoped ihs h
    obtain ⟨hle', hbody⟩ := ih _ _ none _ hinner
    refine ⟨Nat.le_trans hle hle', fun size hsize => ⟨hbs size (Nat.le_trans hle' hsize), ?_⟩⟩
    rw [← hcaptured]
    exact hbody size hsize

theorem Expr.toLambda_scoped {program : Expr} {main : Lambda} (h : program.toLambda = .ok main) :
    main.Scoped ∧ main.signature.arity = 0 ∧ main.signature.captures = [] := by
  have hfits := program.resolve_scoped .empty 0 none [] ⟨fun p hp => (nomatch hp), fun i hi => (nomatch hi)⟩
  unfold Expr.toLambda at h
  dsimp only at h
  split at h
  · cases h
    exact ⟨⟨Nat.zero_le _, hfits.2 _ (Nat.le_refl _)⟩, rfl, rfl⟩
  · cases h

end DistanceField
