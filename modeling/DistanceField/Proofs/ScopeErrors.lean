import DistanceField.Proofs.SlotDiscipline
import Mathlib.Data.List.Nodup

/-!
# Scope errors

Resolution goes on after an error, so that one pass reports them all. Here the scope rules
are stated without the pass: for each expression in its place, with the names bound around
it. The errors are the violations of these rules, each reported once.

* `Occurrence`, `Occurrence.at?`: an expression in its place, and the places of a program.
* `Occurrence.Breaks`: the scope rules.
* `Occurrence.HasErrors`: errors that are the violations in an expression, each once.
* `Expr.resolve_reports`: the errors of resolution.
* `Expr.toLambda_reports`: the errors of a program.
-/

namespace DistanceField

/-! ## Places and rules -/

/-- An expression in its place: the names that are bound around it, and whether it is the
function of a call. -/
structure Occurrence where
  bound : List String
  called : Bool
  expr : Expr

/-- A place in a program: the way from the whole to an expression, by the numbers of the
parts, and there a parameter or a field, if it is about one. -/
structure Place where
  path : List Nat
  item : Nat

/-- The place in a whole of which the `i`-th part has the place. -/
def Place.under (place : Place) (i : Nat) : Place :=
  ⟨i :: place.path, place.item⟩

namespace Occurrence

/-- The values of the bindings of a `let`, and its body. A name is bound after the value
that it stands for. -/
def ofLet (bound : List String) (body : Expr) : List (Named Expr) → List Occurrence
  | [] => [⟨bound, false, body⟩]
  | b :: bs => ⟨bound, false, b.value⟩ :: ofLet (b.name :: bound) body bs

/-- The parts of an expression, in their places. -/
def parts (o : Occurrence) : List Occurrence :=
  match o.expr with
  | .lit _ _ => []
  | .ident _ _ => []
  | .unary _ e _ => [⟨o.bound, false, e⟩]
  | .binary _ l r _ => [⟨o.bound, false, l⟩, ⟨o.bound, false, r⟩]
  | .cond c a b _ => [⟨o.bound, false, c⟩, ⟨o.bound, false, a⟩, ⟨o.bound, false, b⟩]
  | .call f args _ => args.map (⟨o.bound, false, ·⟩) ++ [⟨o.bound, true, f⟩]
  | .index e i _ => [⟨o.bound, false, e⟩, ⟨o.bound, false, i⟩]
  | .field e _ _ => [⟨o.bound, false, e⟩]
  | .list items _ => items.map (⟨o.bound, false, ·⟩)
  | .record fields _ => fields.map fun f => ⟨o.bound, false, f.value⟩
  | .lambda params body _ => [⟨params.map Param.name ++ o.bound, false, body⟩]
  | .letIn bindings body _ => ofLet o.bound body bindings

/-- The expression to which a path leads. -/
def at? (o : Occurrence) : List Nat → Option Occurrence
  | [] => some o
  | i :: path => (o.parts[i]?).bind fun p => p.at? path

/-- **The scope rules**, with the errors that report their violations. -/
inductive Breaks : Occurrence → Nat → Diagnostic → Prop
  /-- S001: a name that is neither bound nor a constant nor a builtin function. -/
  | undefined {bound called x pos} (hbound : x ∉ bound) (hconstant : namedConstant? x = none)
      (hbuiltin : Builtin.ofName? x = none) :
      Breaks ⟨bound, called, .ident x pos⟩ 0 ⟨.undefinedName x, pos⟩
  /-- S004: a builtin function that is not called. -/
  | value {bound x pos b} (hbound : x ∉ bound) (hbuiltin : Builtin.ofName? x = some b) :
      Breaks ⟨bound, false, .ident x pos⟩ 0 ⟨.builtinAsValue x, pos⟩
  /-- S002: a parameter with the name of an earlier one of the same function. -/
  | parameter {bound called params body pos i j p q} (hij : i < j) (hp : params[i]? = some p)
      (hq : params[j]? = some q) (hname : p.name = q.name) :
      Breaks ⟨bound, called, .lambda params body pos⟩ j ⟨.duplicateParameter q.name, q.pos⟩
  /-- S003: a field with the name of an earlier one of the same record. -/
  | field {bound called fields pos i j f g} (hij : i < j) (hf : fields[i]? = some f)
      (hg : fields[j]? = some g) (hname : f.name = g.name) :
      Breaks ⟨bound, called, .record fields pos⟩ j ⟨.duplicateField g.name, g.pos⟩

/-- A scope rule is violated at a place in the expression. -/
def Violates (o : Occurrence) (place : Place) (d : Diagnostic) : Prop :=
  ∃ p, o.at? place.path = some p ∧ p.Breaks place.item d

/-- **The errors are the violations in the expression**, each of them once. -/
def HasErrors (o : Occurrence) (errors : List Diagnostic) : Prop :=
  ∃ violations : List (Place × Diagnostic), violations.Nodup ∧
    (∀ v, v ∈ violations ↔ o.Violates v.1 v.2) ∧ errors.Perm (violations.map Prod.snd)

end Occurrence

/-- A scope rule is violated at a place in the program, around which nothing is bound. -/
def Expr.Violates (program : Expr) : Place → Diagnostic → Prop :=
  Occurrence.Violates ⟨[], false, program⟩

/-! ## Violations of the parts -/

namespace Occurrence

/-- A violation is one at the expression itself, or one in a part. -/
theorem violates_iff {o : Occurrence} {place : Place} {d : Diagnostic} :
    o.Violates place d ↔ (place.path = [] ∧ o.Breaks place.item d) ∨
      ∃ i p inner, o.parts[i]? = some p ∧ place = Place.under inner i ∧ p.Violates inner d := by
  obtain ⟨path, item⟩ := place
  cases path with
  | nil => simp [Violates, at?, Place.under]
  | cons i path =>
    simp only [Violates, at?, Option.bind_eq_some_iff, Place.under, Place.mk.injEq, List.cons.injEq,
      reduceCtorEq, false_and, false_or]
    constructor
    · rintro ⟨q, ⟨p, hp, hq⟩, hbreaks⟩
      exact ⟨i, p, ⟨path, item⟩, hp, ⟨⟨rfl, rfl⟩, rfl⟩, q, hq, hbreaks⟩
    · rintro ⟨j, p, inner, hp, ⟨⟨rfl, rfl⟩, rfl⟩, q, hq, hbreaks⟩
      exact ⟨q, ⟨p, hp, hq⟩, hbreaks⟩

/-- The violations in parts of a whole that are numbered from `n` on. -/
theorem exists_violations {ps : List Occurrence} {inner : List (List Diagnostic)}
    (h : List.Forall₂ HasErrors ps inner) (n : Nat) :
    ∃ violations : List (Place × Diagnostic), violations.Nodup ∧
      (∀ v, v ∈ violations ↔ ∃ i p place, ps[i]? = some p ∧ v.1 = Place.under place (n + i) ∧
        p.Violates place v.2) ∧
      inner.flatten.Perm (violations.map Prod.snd) := by
  induction h generalizing n with
  | nil => exact ⟨[], List.nodup_nil, by simp, .refl _⟩
  | @cons p errors ps inner hp _ ih =>
    obtain ⟨vs, hnodup, hvs, hperm⟩ := hp
    obtain ⟨rest, hnodup', hrest, hperm'⟩ := ih (n + 1)
    have hinjective : Function.Injective fun v : Place × Diagnostic => (v.1.under n, v.2) := by
      rintro ⟨⟨path, item⟩, d⟩ ⟨⟨path', item'⟩, d'⟩ heq
      simpa [Place.under] using heq
    refine ⟨vs.map (fun v => (v.1.under n, v.2)) ++ rest, ?_, fun v => ?_, ?_⟩
    · -- the first number of a path tells the parts apart
      refine (hnodup.map hinjective).append hnodup' fun v hv hv' => ?_
      obtain ⟨w, -, rfl⟩ := List.mem_map.1 hv
      obtain ⟨i, q, place, -, heq, -⟩ := (hrest _).1 hv'
      simp only [Place.under, Place.mk.injEq, List.cons.injEq] at heq
      omega
    · rw [List.mem_append, List.mem_map, hrest]
      constructor
      · rintro (⟨w, hw, rfl⟩ | ⟨i, q, place, hq, heq, hviolates⟩)
        · exact ⟨0, p, w.1, rfl, rfl, (hvs w).1 hw⟩
        · exact ⟨i + 1, q, place, hq, by rw [heq]; congr 1; omega, hviolates⟩
      · rintro ⟨i, q, place, hq, heq, hviolates⟩
        cases i with
        | zero =>
          cases hq
          exact .inl ⟨(place, v.2), (hvs _).2 hviolates, Prod.ext heq.symm rfl⟩
        | succ i => exact .inr ⟨i, q, place, hq, by rw [heq]; congr 1; omega, hviolates⟩
    · rw [List.flatten_cons, List.map_append, List.map_map]
      exact hperm.append hperm'

/-- **An expression reports its own violations and those of its parts.** -/
theorem HasErrors.node {o : Occurrence} {own : List (Nat × Diagnostic)} (hnodup : own.Nodup)
    (hown : ∀ v, v ∈ own ↔ o.Breaks v.1 v.2) {inner : List (List Diagnostic)}
    (hparts : List.Forall₂ HasErrors o.parts inner) {errors : List Diagnostic}
    (herrors : errors.Perm (own.map Prod.snd ++ inner.flatten)) : o.HasErrors errors := by
  obtain ⟨vs, hnodup', hvs, hperm⟩ := exists_violations hparts 0
  have hinjective : Function.Injective fun v : Nat × Diagnostic => (Place.mk [] v.1, v.2) := by
    rintro ⟨i, d⟩ ⟨i', d'⟩ heq
    simpa using heq
  refine ⟨own.map (fun v => (Place.mk [] v.1, v.2)) ++ vs, ?_, fun v => ?_, ?_⟩
  · refine (hnodup.map hinjective).append hnodup' fun v hv hv' => ?_
    obtain ⟨w, -, rfl⟩ := List.mem_map.1 hv
    obtain ⟨i, q, place, -, heq, -⟩ := (hvs _).1 hv'
    simp [Place.under] at heq
  · rw [List.mem_append, List.mem_map, hvs, violates_iff]
    simp only [Nat.zero_add]
    refine or_congr_left ⟨?_, fun ⟨hpath, hbreaks⟩ => ⟨(v.1.item, v.2), (hown _).2 hbreaks, ?_⟩⟩
    · rintro ⟨w, hw, rfl⟩
      exact ⟨rfl, (hown w).1 hw⟩
    · rw [← hpath]
  · rw [List.map_append, List.map_map]
    exact herrors.trans (hperm.append_left _)

/-- An expression that breaks no rule itself. -/
theorem HasErrors.inside {o : Occurrence} (hown : ∀ i d, ¬ o.Breaks i d) {inner : List (List Diagnostic)}
    (hparts : List.Forall₂ HasErrors o.parts inner) {errors : List Diagnostic}
    (herrors : errors = inner.flatten) : o.HasErrors errors :=
  .node List.nodup_nil (fun v => iff_of_false List.not_mem_nil (hown v.1 v.2)) hparts (.of_eq herrors)

/-- A name with one violation. -/
theorem HasErrors.single {bound : List String} {called : Bool} {x : String} {pos : Pos} {d : Diagnostic}
    (hown : ∀ i e, i = 0 ∧ e = d ↔ Breaks ⟨bound, called, .ident x pos⟩ i e) :
    HasErrors ⟨bound, called, .ident x pos⟩ [d] := by
  refine .node (List.nodup_singleton (0, d)) (fun v => ?_) .nil (.refl _)
  rw [List.mem_singleton, ← hown, Prod.ext_iff]

/-- There is a rule about expressions of this form. -/
def hasRule (o : Occurrence) : Bool :=
  match o.expr with
  | .ident _ _ => true
  | .lambda _ _ _ => true
  | .record _ _ => true
  | _ => false

theorem HasErrors.ofParts {o : Occurrence} (hrule : o.hasRule = false) {inner : List (List Diagnostic)}
    (hparts : List.Forall₂ HasErrors o.parts inner) {errors : List Diagnostic}
    (herrors : errors = inner.flatten) : o.HasErrors errors := by
  refine .inside (fun i d hbreaks => ?_) hparts herrors
  cases hbreaks <;> cases hrule

end Occurrence

/-! ## Repeated names -/

/-- The elements of a list whose name is one of `seen` or that of an earlier element, with
their places counted from `n` on, and the errors that report them. -/
def repeatsFrom {α : Type} (name : α → String) (report : α → Diagnostic) (seen : List String) (n : Nat) :
    List α → List (Nat × Diagnostic)
  | [] => []
  | a :: as =>
    (if seen.contains (name a) then [(n, report a)] else []) ++
      repeatsFrom name report (name a :: seen) (n + 1) as

section

variable {α : Type} {name : α → String} {report : α → Diagnostic} {seen : List String} {n : Nat}
  {as : List α}

theorem mem_repeatsFrom {v : Nat × Diagnostic} :
    v ∈ repeatsFrom name report seen n as ↔
      ∃ j a, as[j]? = some a ∧ v = (n + j, report a) ∧
        (name a ∈ seen ∨ ∃ i b, i < j ∧ as[i]? = some b ∧ name b = name a) := by
  induction as generalizing seen n with
  | nil => simp [repeatsFrom]
  | cons a as ih =>
    have hhead : v ∈ (if seen.contains (name a) then [(n, report a)] else []) ↔
        v = (n, report a) ∧ name a ∈ seen := by
      by_cases hmem : name a ∈ seen <;> simp [hmem]
    rw [repeatsFrom, List.mem_append, hhead, ih]
    constructor
    · rintro (⟨rfl, hseen⟩ | ⟨j, b, hb, rfl, hearlier⟩)
      · exact ⟨0, a, rfl, rfl, .inl hseen⟩
      · refine ⟨j + 1, b, hb, by rw [Nat.add_right_comm, Nat.add_assoc], ?_⟩
        rcases hearlier with hseen | ⟨i, c, hij, hc, hname⟩
        · -- the name stands before the rest: it is that of the first element, or was seen before
          rcases List.mem_cons.1 hseen with heq | hseen
          · exact .inr ⟨0, a, Nat.succ_pos _, rfl, heq.symm⟩
          · exact .inl hseen
        · exact .inr ⟨i + 1, c, Nat.succ_lt_succ hij, hc, hname⟩
    · rintro ⟨j, b, hb, rfl, hearlier⟩
      cases j with
      | zero =>
        cases hb
        rcases hearlier with hseen | ⟨i, c, hij, -⟩
        · exact .inl ⟨rfl, hseen⟩
        · omega
      | succ j =>
        refine .inr ⟨j, b, hb, by rw [Nat.add_right_comm, Nat.add_assoc], ?_⟩
        rcases hearlier with hseen | ⟨i, c, hij, hc, hname⟩
        · exact .inl (List.mem_cons_of_mem _ hseen)
        · cases i with
          | zero =>
            cases hc
            exact .inl (hname ▸ List.mem_cons_self)
          | succ i => exact .inr ⟨i, c, Nat.lt_of_succ_lt_succ hij, hc, hname⟩

theorem nodup_repeatsFrom : (repeatsFrom name report seen n as).Nodup := by
  induction as generalizing seen n with
  | nil => exact List.nodup_nil
  | cons a as ih =>
    refine List.Nodup.append (by split_ifs <;> simp) ih fun v hv hv' => ?_
    obtain ⟨j, b, -, rfl, -⟩ := mem_repeatsFrom.1 hv'
    split_ifs at hv
    · have heq : n + 1 + j = n := congrArg Prod.fst (List.mem_singleton.1 hv)
      omega
    · cases hv

/-- Without names seen before, only earlier elements of the list count. -/
theorem mem_repeatsFrom_nil {v : Nat × Diagnostic} :
    v ∈ repeatsFrom name report [] 0 as ↔
      ∃ i b a, i < v.1 ∧ as[i]? = some b ∧ as[v.1]? = some a ∧ name b = name a ∧ v.2 = report a := by
  rw [mem_repeatsFrom]
  constructor
  · rintro ⟨j, a, ha, rfl, hseen | ⟨i, b, hij, hb, hname⟩⟩
    · cases hseen
    · exact ⟨i, b, a, by simpa using hij, hb, by simpa using ha, hname, rfl⟩
  · rintro ⟨i, b, a, hij, hb, ha, hname, hreport⟩
    exact ⟨v.1, a, ha, Prod.ext (Nat.zero_add _).symm hreport, .inr ⟨i, b, hij, hb, hname⟩⟩

end

theorem duplicateParams_eq (seen : List String) (n : Nat) (params : List Param) :
    duplicateParams seen params =
      (repeatsFrom Param.name (fun p => ⟨.duplicateParameter p.name, p.pos⟩) seen n params).map Prod.snd := by
  induction params generalizing seen n with
  | nil => rfl
  | cons p ps ih =>
    rw [duplicateParams, repeatsFrom, List.map_append, ih _ (n + 1)]
    split_ifs <;> rfl

/-! ## Scopes -/

/-- In the scope, those of the names have a meaning that are bound. -/
def Scope.Binds (s : Scope) (bound names : List String) : Prop :=
  ∀ x ∈ names, (s.find? x).isSome ↔ x ∈ bound

namespace Scope.Binds

variable {s : Scope} {bound names more : List String}

theorem mono (h : s.Binds bound names) {fewer : List String} (hsub : ∀ x ∈ fewer, x ∈ names) :
    s.Binds bound fewer :=
  fun x hx => h x (hsub x hx)

theorem left (h : s.Binds bound (names ++ more)) : s.Binds bound names :=
  h.mono fun _ hx => List.mem_append_left _ hx

theorem right (h : s.Binds bound (more ++ names)) : s.Binds bound names :=
  h.mono fun _ hx => List.mem_append_right _ hx

theorem bind (name : String) (slot : Nat) (h : s.Binds bound (names.filter (· != name))) :
    (s.bind name slot).Binds (name :: bound) names := by
  intro x hx
  rw [Scope.find?_bind, List.mem_cons]
  by_cases hname : x = name
  · simp [hname]
  · have houter := h x (List.mem_filter.2 ⟨hx, bne_iff_ne.2 hname⟩)
    rw [if_neg (by simpa using hname), houter]
    exact (or_iff_right hname).symm

end Scope.Binds

theorem isSome_lookup_paramSlots (params : List Param) (x : String) :
    ((paramSlots params).lookup x).isSome ↔ x ∈ params.map Param.name := by
  constructor
  · intro hsome
    obtain ⟨slot, hslot⟩ := Option.isSome_iff_exists.1 hsome
    obtain ⟨before, after, heq, -⟩ := List.lookup_eq_some_iff.1 hslot
    have hmem : (x, slot) ∈ paramSlots params := heq ▸ List.mem_append_right _ List.mem_cons_self
    rw [paramSlots, List.mem_reverse, List.mem_zipIdx_iff_getElem?] at hmem
    exact List.mem_of_getElem? hmem
  · intro hx
    by_contra hnone
    exact lookup_paramSlots_eq_none (Option.not_isSome_iff_eq_none.1 hnone) hx

/-- Inside a function, its parameters are bound and what is bound around it. -/
theorem Scope.Binds.function {s : Scope} {bound : List String} {params : List Param} {body : Expr}
    {pos : Pos} (h : s.Binds bound (Expr.lambda params body pos).free) :
    Scope.Binds ⟨paramSlots params, s.capturedBy (Expr.lambda params body pos).free⟩
      (params.map Param.name ++ bound) body.free := by
  intro x hx
  have hparam := isSome_lookup_paramSlots params x
  rw [Scope.find?, List.mem_append, ← hparam]
  cases hlookup : (paramSlots params).lookup x with
  | some slot => simp
  | none =>
    -- a name that is no parameter is free in the function, and captured if it is bound
    have hfree : x ∈ (Expr.lambda params body pos).free := by
      have hparams := lookup_paramSlots_eq_none hlookup
      exact List.mem_filter.2 ⟨hx, by simpa using hparams⟩
    have hcaptured : x ∈ s.capturedBy (Expr.lambda params body pos).free ↔ x ∈ bound := by
      rw [Scope.mem_capturedBy, h x hfree]
      exact and_iff_right hfree
    simp [← hcaptured]

/-! ## Resolution -/

theorem namedConstant?_eq_none {x : String} {b : Builtin} (h : Builtin.ofName? x = some b) :
    namedConstant? x = none := by
  unfold namedConstant?
  split_ifs with hpi htau
  · rw [beq_iff_eq.1 hpi] at h
    cases h
  · rw [beq_iff_eq.1 htau] at h
    cases h
  · rfl

section

open Occurrence

variable {s : Scope} {bound : List String}

/-- The errors of the resolved expression are the violations in it, wherever the scope knows
which of its free names are bound. An expression that is called must not be resolved if it
names a builtin function. -/
def Expr.ReportsAll (e : Expr) : Prop :=
  ∀ (s : Scope) (next : Nat) (label : Option String) (bound : List String) (called : Bool),
    s.Binds bound e.free → (called = false ∨ calledBuiltin? s e = none) →
    HasErrors ⟨bound, called, e⟩ (e.resolve s next label).errors

theorem resolveAll_reports {es : List Expr} (ih : ∀ e ∈ es, e.ReportsAll)
    (h : s.Binds bound (freeOfAll es)) (next : Nat) :
    ∃ inner, List.Forall₂ HasErrors (es.map (⟨bound, false, ·⟩)) inner ∧
      (resolveAll s next es).errors = inner.flatten := by
  induction es generalizing next with
  | nil => exact ⟨[], .nil, rfl⟩
  | cons e es ihs =>
    have he := ih e List.mem_cons_self s next none bound false h.left (.inl rfl)
    obtain ⟨inner, hes, herrors⟩ := ihs (fun o ho => ih o (List.mem_cons_of_mem _ ho)) h.right
      (e.resolve s next none).next
    exact ⟨_ :: inner, .cons he hes, by rw [resolveAll, List.flatten_cons, ← herrors]⟩

theorem resolveFields_reports {fs : List (Named Expr)} (ih : ∀ f ∈ fs, f.value.ReportsAll)
    (h : s.Binds bound (freeOfFields fs)) (next : Nat) (seen : List String) (n : Nat) :
    ∃ inner, List.Forall₂ HasErrors (fs.map fun f => ⟨bound, false, f.value⟩) inner ∧
      (resolveFields s next seen fs).errors.Perm
        ((repeatsFrom Named.name (fun f => ⟨.duplicateField f.name, f.pos⟩) seen n fs).map Prod.snd ++
          inner.flatten) := by
  induction fs generalizing next seen n with
  | nil => exact ⟨[], .nil, .refl _⟩
  | cons f fs ihs =>
    have hf := ih f List.mem_cons_self s next (some f.name) bound false h.left (.inl rfl)
    obtain ⟨inner, hfs, herrors⟩ := ihs (fun o ho => ih o (List.mem_cons_of_mem _ ho)) h.right
      (f.value.resolve s next (some f.name)).next (f.name :: seen) (n + 1)
    refine ⟨_ :: inner, .cons hf hfs, ?_⟩
    -- the errors of a value stand between those of its name and of the names after it
    rw [resolveFields, repeatsFrom, List.map_append, List.flatten_cons, List.append_assoc, List.append_assoc]
    refine .append (.of_eq (by split_ifs <;> rfl)) ?_
    refine (herrors.append_left _).trans ?_
    rw [← List.append_assoc, ← List.append_assoc]
    exact List.perm_append_comm.append_right _

/-- The body is reported in the scope after the bindings. -/
theorem resolveBindings_reports {bs : List (Named Expr)} {body : Expr} (ih : ∀ b ∈ bs, b.value.ReportsAll)
    (ihbody : body.ReportsAll) (h : s.Binds bound (freeOfBindings bs body.free)) (next : Nat) :
    ∃ inner, List.Forall₂ HasErrors (ofLet bound body bs) inner ∧
      (resolveBindings s next bs).1.errors ++
        (body.resolve (resolveBindings s next bs).2 (resolveBindings s next bs).1.next none).errors =
          inner.flatten := by
  induction bs generalizing s next bound with
  | nil => exact ⟨[_], .cons (ihbody s next none bound false h (.inl rfl)) .nil, by simp [resolveBindings]⟩
  | cons b bs ihs =>
    have hb := ih b List.mem_cons_self s next (some b.name) bound false h.left (.inl rfl)
    obtain ⟨inner, hbs, herrors⟩ := ihs (fun o ho => ih o (List.mem_cons_of_mem _ ho))
      (Scope.Binds.bind b.name (b.value.resolve s next (some b.name)).next h.right)
      ((b.value.resolve s next (some b.name)).next + 1)
    refine ⟨_ :: inner, .cons hb hbs, ?_⟩
    rw [List.flatten_cons, ← herrors]
    simp only [resolveBindings, List.append_assoc]

theorem resolveName_reports {x : String} {pos : Pos} {called : Bool} (h : s.Binds bound [x])
    (hcalled : called = false ∨ calledBuiltin? s (.ident x pos) = none) :
    HasErrors ⟨bound, called, .ident x pos⟩ (resolveName s x pos).2 := by
  have hbound := h x List.mem_cons_self
  unfold resolveName
  cases hfind : s.find? x with
  | some ref =>
    have hx : x ∈ bound := hbound.1 (by rw [hfind]; rfl)
    refine .inside (fun i d hbreaks => ?_) .nil rfl
    cases hbreaks with
    | undefined hnot => exact hnot hx
    | value hnot => exact hnot hx
  | none =>
    have hx : x ∉ bound := fun hmem => by simpa [hfind] using hbound.2 hmem
    cases hconstant : namedConstant? x with
    | some value =>
      -- a constant is no builtin function
      refine .inside (fun i d hbreaks => ?_) .nil rfl
      cases hbreaks with
      | undefined _ hnot => rw [hnot] at hconstant; cases hconstant
      | value _ hbuiltin => rw [namedConstant?_eq_none hbuiltin] at hconstant; cases hconstant
    | none =>
      cases hbuiltin : Builtin.ofName? x with
      | some b =>
        have hvalue : called = false := by
          refine hcalled.resolve_right fun hnot => ?_
          rw [calledBuiltin?, hfind, hbuiltin] at hnot
          cases hnot
        subst hvalue
        refine .single fun i d => ⟨?_, fun hbreaks => ?_⟩
        · rintro ⟨rfl, rfl⟩
          exact .value hx hbuiltin
        · cases hbreaks with
          | undefined _ _ hnot => rw [hnot] at hbuiltin; cases hbuiltin
          | value => exact ⟨rfl, rfl⟩
      | none =>
        refine .single fun i d => ⟨?_, fun hbreaks => ?_⟩
        · rintro ⟨rfl, rfl⟩
          exact .undefined hx hconstant hbuiltin
        · cases hbreaks with
          | undefined => exact ⟨rfl, rfl⟩
          | value _ hsome => rw [hsome] at hbuiltin; cases hbuiltin

/-- The name of a builtin function that is called breaks no rule. -/
theorem calledBuiltin?_reports {callee : Expr} {b : Builtin} (h : s.Binds bound callee.free)
    (hb : calledBuiltin? s callee = some b) : HasErrors ⟨bound, true, callee⟩ [] := by
  obtain ⟨x, pos, rfl, -, hname⟩ := calledBuiltin?_eq_some hb
  refine .inside (fun i d hbreaks => ?_) .nil rfl
  cases hbreaks with
  | undefined _ _ hnot => rw [hnot] at hname; cases hname

end

open Occurrence in
/-- **The errors of resolution are the violations of the scope rules**, each of them once. -/
theorem Expr.resolve_reports (e : Expr) : e.ReportsAll := by
  intro s next label bound called h hcalled
  induction e generalizing s next label bound called with
  | lit value pos => exact .ofParts rfl .nil rfl
  | ident x pos => exact resolveName_reports h hcalled
  | unary op e pos ih =>
    have he := ih s next none bound false h (.inl rfl)
    exact .ofParts (o := ⟨bound, called, .unary op e pos⟩) rfl (.cons he .nil) (by simp [Expr.resolve])
  | binary op l r pos ihl ihr =>
    have hl := ihl s next none bound false h.left (.inl rfl)
    have hr := ihr s (l.resolve s next none).next none bound false h.right (.inl rfl)
    exact .ofParts (o := ⟨bound, called, .binary op l r pos⟩) rfl (.cons hl (.cons hr .nil))
      (by simp [Expr.resolve])
  | cond c a b pos ihc iha ihb =>
    have hc := ihc s next none bound false h.left.left (.inl rfl)
    have ha := iha s (c.resolve s next none).next none bound false h.left.right (.inl rfl)
    have hb := ihb s (a.resolve s (c.resolve s next none).next none).next none bound false h.right (.inl rfl)
    exact .ofParts (o := ⟨bound, called, .cond c a b pos⟩) rfl (.cons hc (.cons ha (.cons hb .nil)))
      (by simp [Expr.resolve])
  | call f args pos ihf ihargs =>
    obtain ⟨inner, hargs, herrors⟩ := resolveAll_reports ihargs h.left next
    simp only [Expr.resolve]
    split
    · next b hb =>
      have hf := calledBuiltin?_reports h.right hb
      exact .ofParts (o := ⟨bound, called, .call f args pos⟩) rfl (List.rel_append hargs (.cons hf .nil))
        (by simp [herrors])
    · next hnone =>
      have hf := ihf s (resolveAll s next args).next none bound true h.right (.inr hnone)
      exact .ofParts (o := ⟨bound, called, .call f args pos⟩) rfl (List.rel_append hargs (.cons hf .nil))
        (by simp [herrors])
  | index e i pos ihe ihi =>
    have he := ihe s next none bound false h.left (.inl rfl)
    have hi := ihi s (e.resolve s next none).next none bound false h.right (.inl rfl)
    exact .ofParts (o := ⟨bound, called, .index e i pos⟩) rfl (.cons he (.cons hi .nil))
      (by simp [Expr.resolve])
  | field e name pos ih =>
    have he := ih s next none bound false h (.inl rfl)
    exact .ofParts (o := ⟨bound, called, .field e name pos⟩) rfl (.cons he .nil) (by simp [Expr.resolve])
  | list items pos ih =>
    obtain ⟨inner, hitems, herrors⟩ := resolveAll_reports ih h next
    exact .ofParts (o := ⟨bound, called, .list items pos⟩) rfl hitems herrors
  | record fields pos ih =>
    obtain ⟨inner, hfields, herrors⟩ := resolveFields_reports ih h next [] 0
    refine .node (o := ⟨bound, called, .record fields pos⟩) nodup_repeatsFrom (fun v => ?_) hfields herrors
    rw [mem_repeatsFrom_nil]
    obtain ⟨j, d⟩ := v
    constructor
    · rintro ⟨i, f, g, hij, hf, hg, hname, rfl⟩
      exact .field hij hf hg hname
    · intro hbreaks
      cases hbreaks with
      | field hij hf hg hname => exact ⟨_, _, _, hij, hf, hg, hname, rfl⟩
  | lambda params body pos ih =>
    have hbody := ih ⟨paramSlots params, s.capturedBy (Expr.lambda params body pos).free⟩ params.length none
      (params.map Param.name ++ bound) false h.function (.inl rfl)
    have herrors : ((Expr.lambda params body pos).resolve s next label).errors =
        duplicateParams [] params ++ List.flatten [(body.resolve ⟨paramSlots params,
          s.capturedBy (Expr.lambda params body pos).free⟩ params.length none).errors] := by
      simp [Expr.resolve]
    rw [herrors, duplicateParams_eq [] 0]
    refine .node (o := ⟨bound, called, .lambda params body pos⟩) nodup_repeatsFrom (fun v => ?_)
      (.cons hbody .nil) (.refl _)
    rw [mem_repeatsFrom_nil]
    obtain ⟨j, d⟩ := v
    constructor
    · rintro ⟨i, p, q, hij, hp, hq, hname, rfl⟩
      exact .parameter hij hp hq hname
    · intro hbreaks
      cases hbreaks with
      | parameter hij hp hq hname => exact ⟨_, _, _, hij, hp, hq, hname, rfl⟩
  | letIn bindings body pos ihs ih =>
    obtain ⟨inner, hparts, herrors⟩ := resolveBindings_reports ihs ih h next
    exact .ofParts (o := ⟨bound, called, .letIn bindings body pos⟩) rfl hparts herrors

/-! ## Programs -/

/-- A program is accepted if its resolution has no errors. -/
theorem Expr.toLambda_eq (program : Expr) :
    program.toLambda =
      if (program.resolve .empty 0 none).errors = [] then .ok program.main
      else .error (program.resolve .empty 0 none).errors := by
  unfold Expr.toLambda
  dsimp only
  split
  · next hnil => rw [if_pos hnil, Expr.main]
  · next hne => rw [if_neg hne]

/-- The errors of a whole program, around which nothing is bound. -/
theorem Expr.hasErrors (program : Expr) :
    Occurrence.HasErrors ⟨[], false, program⟩ (program.resolve .empty 0 none).errors := by
  have hbinds : Scope.empty.Binds [] program.free := fun x _ => by simp [Scope.find?, Scope.empty]
  exact program.resolve_reports .empty 0 none [] false hbinds (.inl rfl)

/-- **The scope errors of a program.** A program is accepted exactly if no scope rule is
violated in it. Otherwise each violation is reported once, and nothing else. -/
theorem Expr.toLambda_reports (program : Expr) :
    (program.toLambda.isOk = true ↔ ∀ place d, ¬ program.Violates place d) ∧
    ∃ violations : List (Place × Diagnostic), violations.Nodup ∧
      (∀ place d, (place, d) ∈ violations ↔ program.Violates place d) ∧
      ∀ errors, program.toLambda = .error errors → errors.Perm (violations.map Prod.snd) := by
  obtain ⟨violations, hnodup, hmem, hperm⟩ := program.hasErrors
  have hnone : (program.resolve .empty 0 none).errors = [] ↔ ∀ place d, ¬ program.Violates place d := by
    rw [← List.length_eq_zero_iff, hperm.length_eq, List.length_map, List.length_eq_zero_iff,
      List.eq_nil_iff_forall_not_mem]
    exact ⟨fun h place d hviolates => h (place, d) ((hmem _).2 hviolates),
      fun h v hv => h v.1 v.2 ((hmem v).1 hv)⟩
  rw [program.toLambda_eq, ← hnone]
  refine ⟨?_, violations, hnodup, fun place d => hmem (place, d), fun errors herrors => ?_⟩
  · split_ifs with hnil
    · exact iff_of_true rfl hnil
    · exact iff_of_false Bool.false_ne_true hnil
  · split_ifs at herrors
    cases herrors
    exact hperm

end DistanceField
