import DistanceField.Proofs.ClosureConversion

/-!
# Slots and captures

Scoping is lexical: a name means the innermost binding around it. Resolution keeps to this
although it sees one function at a time, and it wastes nothing: every slot after the
parameters belongs to one `let` binding, and a function captures each name that it uses and
that is bound around it, once.

A binding is told by the function that it belongs to, counted outwards, and by its slot
there. So a name can be compared with a reference: the name is looked up through the
functions around the place, the reference is followed from capture to capture.

* `Nest.binding?`, `Nest.denotes?`: the binding of a name, and that of a reference.
* `Resolves`: an operation keeps to lexical scoping; `Frugal` is its rule for functions.
* `Expr.writes_resolve`: the slots that a resolved expression fills.
* `Expr.resolve_resolves`: resolved expressions keep to lexical scoping.
-/

namespace DistanceField

/-! ## Lexical scoping -/

/-- What a place inside a function sees of it: the names of the function, the innermost
first, with their slots, and where its captured values come from. -/
structure View where
  names : List (String × Nat)
  captures : List Reference

def View.bind (v : View) (name : String) (slot : Nat) : View :=
  { v with names := (name, slot) :: v.names }

/-- The functions around a place, the innermost first. -/
abbrev Nest := List View

/-- A parameter or a `let` binding: the slot `slot` of the function `level` steps outwards. -/
structure Binding where
  level : Nat
  slot : Nat
deriving DecidableEq

def Binding.outward (b : Binding) : Binding :=
  { b with level := b.level + 1 }

namespace Nest

/-- The binding of a name: the innermost one in view. -/
def binding? : Nest → String → Option Binding
  | [], _ => none
  | v :: outer, x =>
    match v.names.lookup x with
    | some slot => some ⟨0, slot⟩
    | none => (binding? outer x).map .outward

/-- The binding whose value a reference gives. A captured value is the value of a reference
in the function around. -/
def denotes? : Nest → Reference → Option Binding
  | [], _ => none
  | _ :: _, .slot i => some ⟨0, i⟩
  | v :: outer, .captured i => (v.captures[i]?).bind fun ref => (denotes? outer ref).map .outward

end Nest

/-- A name is used in the expression outside the scope of every binding of it there. -/
inductive Expr.FreeIn (x : String) : Expr → Prop
  | ident {pos} : FreeIn x (.ident x pos)
  | operand {op e pos} (h : FreeIn x e) : FreeIn x (.unary op e pos)
  | left {op l r pos} (h : FreeIn x l) : FreeIn x (.binary op l r pos)
  | right {op l r pos} (h : FreeIn x r) : FreeIn x (.binary op l r pos)
  | condition {c a b pos} (h : FreeIn x c) : FreeIn x (.cond c a b pos)
  | yes {c a b pos} (h : FreeIn x a) : FreeIn x (.cond c a b pos)
  | no {c a b pos} (h : FreeIn x b) : FreeIn x (.cond c a b pos)
  | callee {f args pos} (h : FreeIn x f) : FreeIn x (.call f args pos)
  | argument {f args a pos} (ha : a ∈ args) (h : FreeIn x a) : FreeIn x (.call f args pos)
  | indexed {e i pos} (h : FreeIn x e) : FreeIn x (.index e i pos)
  | place {e i pos} (h : FreeIn x i) : FreeIn x (.index e i pos)
  | target {e name pos} (h : FreeIn x e) : FreeIn x (.field e name pos)
  | item {items e pos} (he : e ∈ items) (h : FreeIn x e) : FreeIn x (.list items pos)
  | entry {fields f pos} (hf : f ∈ fields) (h : FreeIn x f.value) : FreeIn x (.record fields pos)
  | function {params body pos} (hx : x ∉ params.map Param.name) (h : FreeIn x body) :
      FreeIn x (.lambda params body pos)
  | value {before b after body pos} (hx : x ∉ before.map Named.name) (h : FreeIn x b.value) :
      FreeIn x (.letIn (before ++ b :: after) body pos)
  | body {bindings body pos} (hx : x ∉ bindings.map Named.name) (h : FreeIn x body) :
      FreeIn x (.letIn bindings body pos)

/-- **A function has the slots and captures that it needs and no others.** `names` are the
captured names in order. -/
structure Frugal (nest : Nest) (e : Expr) (params : List Param) (names : List String)
    (signature : Signature) (body : Operation) : Prop where
  arity : signature.arity = params.length
  arity_le : signature.arity ≤ signature.slots
  /-- The bindings of the body fill each slot after the parameters once. -/
  filled : ∀ slot, body.writes.count slot =
    if signature.arity ≤ slot ∧ slot < signature.slots then 1 else 0
  distinct : names.Nodup
  /-- The captured names are the free ones that are bound around the function. -/
  needed : ∀ x, x ∈ names ↔ e.FreeIn x ∧ (nest.binding? x).isSome
  /-- Each capture denotes the binding of its name where the function is made. -/
  captured : List.Forall₂ (fun x ref => nest.denotes? ref = nest.binding? x) names signature.captures

mutual

/-- **The operation keeps to lexical scoping** inside the functions `nest`: it has the shape
of the expression, and every reference denotes the binding of the name in its place. -/
inductive Resolves : Nest → Expr → Operation → Prop
  | lit {nest value pos} : Resolves nest (.lit value pos) (.const value pos)
  | bound {nest x ref b pos} (hx : Nest.binding? nest x = some b) (href : Nest.denotes? nest ref = some b) :
      Resolves nest (.ident x pos) (.load ref pos)
  | unbound {nest x value pos} (hx : Nest.binding? nest x = none) :
      Resolves nest (.ident x pos) (.const value pos)
  | unary {nest op e o pos} (h : Resolves nest e o) : Resolves nest (.unary op e pos) (.unary op o pos)
  | binary {nest op l r l' r' pos} (hl : Resolves nest l l') (hr : Resolves nest r r') :
      Resolves nest (.binary op l r pos) (.binary op l' r' pos)
  | cond {nest c a b c' a' b' pos} (hc : Resolves nest c c') (ha : Resolves nest a a')
      (hb : Resolves nest b b') : Resolves nest (.cond c a b pos) (.cond c' a' b' pos)
  | call {nest f args f' args' pos} (hf : Resolves nest f f') (hargs : ResolvesAll nest args args') :
      Resolves nest (.call f args pos) (.call f' args' pos)
  | builtin {nest x b p args args' pos} (hx : Nest.binding? nest x = none)
      (hb : Builtin.ofName? x = some b) (hargs : ResolvesAll nest args args') :
      Resolves nest (.call (.ident x p) args pos) (.builtin b args' pos)
  | index {nest e i e' i' pos} (he : Resolves nest e e') (hi : Resolves nest i i') :
      Resolves nest (.index e i pos) (.index e' i' pos)
  | field {nest e e' name pos} (h : Resolves nest e e') :
      Resolves nest (.field e name pos) (.field e' name pos)
  | list {nest items items' pos} (h : ResolvesAll nest items items') :
      Resolves nest (.list items pos) (.list items' pos)
  | record {nest fields fields' pos} (h : ResolvesFields nest fields fields') :
      Resolves nest (.record fields pos) (.record fields' pos)
  | lambda {nest params body pos names signature body'}
      (hfrugal : Frugal nest (.lambda params body pos) params names signature body')
      (hbody : Resolves (⟨paramSlots params, signature.captures⟩ :: nest) body body') :
      Resolves nest (.lambda params body pos) (.lambda signature body')
  | letIn {nest bindings bindings' inner body body' pos}
      (hbindings : ResolvesBindings nest bindings bindings' inner) (hbody : Resolves inner body body') :
      Resolves nest (.letIn bindings body pos) (.letIn bindings' body' pos)

inductive ResolvesAll : Nest → List Expr → List Operation → Prop
  | nil {nest} : ResolvesAll nest [] []
  | cons {nest e o es os} (h : Resolves nest e o) (hs : ResolvesAll nest es os) :
      ResolvesAll nest (e :: es) (o :: os)

inductive ResolvesFields : Nest → List (Named Expr) → List (String × Operation) → Prop
  | nil {nest} : ResolvesFields nest [] []
  | cons {nest name pos e o fs os} (h : Resolves nest e o) (hs : ResolvesFields nest fs os) :
      ResolvesFields nest (⟨name, pos, e⟩ :: fs) ((name, o) :: os)

/-- Bindings, and what is in view after them. A binding is in view in the values after its
own. -/
inductive ResolvesBindings : Nest → List (Named Expr) → List (Nat × Operation) → Nest → Prop
  | nil {nest} : ResolvesBindings nest [] [] nest
  | cons {v outer name pos e slot o bs os inner} (h : Resolves (v :: outer) e o)
      (hs : ResolvesBindings (v.bind name slot :: outer) bs os inner) :
      ResolvesBindings (v :: outer) (⟨name, pos, e⟩ :: bs) ((slot, o) :: os) inner

end

/-! ## Free names -/

namespace Expr

variable {x : String}

theorem mem_freeOfAll {es : List Expr} : x ∈ freeOfAll es ↔ ∃ e ∈ es, x ∈ e.free := by
  induction es with
  | nil => simp [freeOfAll]
  | cons e es ih => simp [freeOfAll, ih]

theorem mem_freeOfFields {fs : List (Named Expr)} :
    x ∈ freeOfFields fs ↔ ∃ f ∈ fs, x ∈ f.value.free := by
  induction fs with
  | nil => simp [freeOfFields]
  | cons f fs ih => simp [freeOfFields, ih]

/-- A name is free in bindings before a body if it is free in a value and not bound by an
earlier binding, or if it is used after them and bound by none. -/
theorem mem_freeOfBindings {bs : List (Named Expr)} {rest : List String} :
    x ∈ freeOfBindings bs rest ↔
      (∃ before b after, bs = before ++ b :: after ∧ x ∉ before.map Named.name ∧ x ∈ b.value.free) ∨
        (x ∉ bs.map Named.name ∧ x ∈ rest) := by
  induction bs with
  | nil => simp [freeOfBindings]
  | cons b bs ih =>
    rw [freeOfBindings, List.mem_append, List.mem_filter, ih, bne_iff_ne]
    constructor
    · rintro (hvalue | ⟨⟨before, c, after, rfl, hbefore, hc⟩ | ⟨hbs, hrest⟩, hne⟩)
      · exact .inl ⟨[], b, bs, rfl, List.not_mem_nil, hvalue⟩
      · exact .inl ⟨b :: before, c, after, rfl, List.not_mem_cons_of_ne_of_not_mem hne hbefore, hc⟩
      · exact .inr ⟨List.not_mem_cons_of_ne_of_not_mem hne hbs, hrest⟩
    · rintro (⟨before, c, after, heq, hbefore, hc⟩ | ⟨hbs, hrest⟩)
      · cases before with
        | nil =>
          cases heq
          exact .inl hc
        | cons d before =>
          cases heq
          have hlater := List.not_mem_of_not_mem_cons hbefore
          exact .inr ⟨.inl ⟨before, c, after, rfl, hlater, hc⟩, List.ne_of_not_mem_cons hbefore⟩
      · have hlater := List.not_mem_of_not_mem_cons hbs
        exact .inr ⟨.inr ⟨hlater, hrest⟩, List.ne_of_not_mem_cons hbs⟩

theorem FreeIn.mem_free {e : Expr} (h : e.FreeIn x) : x ∈ e.free := by
  induction h with
  | ident => exact List.mem_cons_self
  | operand _ ih => exact ih
  | left _ ih => exact List.mem_append_left _ ih
  | right _ ih => exact List.mem_append_right _ ih
  | condition _ ih => exact List.mem_append_left _ (List.mem_append_left _ ih)
  | yes _ ih => exact List.mem_append_left _ (List.mem_append_right _ ih)
  | no _ ih => exact List.mem_append_right _ ih
  | callee _ ih => exact List.mem_append_right _ ih
  | argument ha _ ih => exact List.mem_append_left _ (mem_freeOfAll.2 ⟨_, ha, ih⟩)
  | indexed _ ih => exact List.mem_append_left _ ih
  | place _ ih => exact List.mem_append_right _ ih
  | target _ ih => exact ih
  | item he _ ih => exact mem_freeOfAll.2 ⟨_, he, ih⟩
  | entry hf _ ih => exact mem_freeOfFields.2 ⟨_, hf, ih⟩
  | function hx _ ih => exact List.mem_filter.2 ⟨ih, by simpa using hx⟩
  | value hx _ ih => exact mem_freeOfBindings.2 (.inl ⟨_, _, _, rfl, hx, ih⟩)
  | body hx _ ih => exact mem_freeOfBindings.2 (.inr ⟨hx, ih⟩)

theorem freeIn_of_mem_free {e : Expr} (h : x ∈ e.free) : e.FreeIn x := by
  induction e with
  | lit => exact (nomatch h)
  | ident name pos =>
    cases List.mem_singleton.1 h
    exact .ident
  | unary op e pos ih => exact .operand (ih h)
  | binary op l r pos ihl ihr =>
    rcases List.mem_append.1 h with h | h
    · exact .left (ihl h)
    · exact .right (ihr h)
  | cond c a b pos ihc iha ihb =>
    rcases List.mem_append.1 h with h | h
    · rcases List.mem_append.1 h with h | h
      · exact .condition (ihc h)
      · exact .yes (iha h)
    · exact .no (ihb h)
  | call f args pos ihf ihargs =>
    rcases List.mem_append.1 h with h | h
    · obtain ⟨a, ha, hx⟩ := mem_freeOfAll.1 h
      exact .argument ha (ihargs a ha hx)
    · exact .callee (ihf h)
  | index e i pos ihe ihi =>
    rcases List.mem_append.1 h with h | h
    · exact .indexed (ihe h)
    · exact .place (ihi h)
  | field e name pos ih => exact .target (ih h)
  | list items pos ih =>
    obtain ⟨a, ha, hx⟩ := mem_freeOfAll.1 h
    exact .item ha (ih a ha hx)
  | record fields pos ih =>
    obtain ⟨f, hf, hx⟩ := mem_freeOfFields.1 h
    exact .entry hf (ih f hf hx)
  | lambda params body pos ih =>
    obtain ⟨hbody, hparams⟩ := List.mem_filter.1 h
    exact .function (by simpa using hparams) (ih hbody)
  | letIn bindings body pos ihs ih =>
    rcases mem_freeOfBindings.1 h with ⟨before, b, after, rfl, hx, hb⟩ | ⟨hx, hbody⟩
    · exact .value hx (ihs b (List.mem_append_right _ List.mem_cons_self) hb)
    · exact .body hx (ih hbody)

theorem mem_free_iff {e : Expr} : x ∈ e.free ↔ e.FreeIn x :=
  ⟨freeIn_of_mem_free, FreeIn.mem_free⟩

end Expr

/-! ## The slots that are filled -/

/-- The slots from `next` up to `stop`, each once and in order. -/
def FillsFrom (next stop : Nat) (slots : List Nat) : Prop :=
  ∃ n, stop = next + n ∧ slots = List.range' next n

namespace FillsFrom

theorem nil (next : Nat) : FillsFrom next next [] :=
  ⟨0, rfl, rfl⟩

theorem append {next mid stop : Nat} {before after : List Nat} (h : FillsFrom next mid before)
    (h' : FillsFrom mid stop after) : FillsFrom next stop (before ++ after) := by
  obtain ⟨m, rfl, rfl⟩ := h
  obtain ⟨n, rfl, rfl⟩ := h'
  exact ⟨m + n, Nat.add_assoc _ _ _, List.range'_append_1⟩

theorem cons {next stop : Nat} {slots : List Nat} (h : FillsFrom (next + 1) stop slots) :
    FillsFrom next stop (next :: slots) := by
  have hfirst : FillsFrom next (next + 1) [next] := ⟨1, rfl, rfl⟩
  exact hfirst.append h

theorem le {next stop : Nat} {slots : List Nat} (h : FillsFrom next stop slots) : next ≤ stop := by
  obtain ⟨n, rfl, -⟩ := h
  exact Nat.le_add_right _ _

theorem count {next stop : Nat} {slots : List Nat} (h : FillsFrom next stop slots) (slot : Nat) :
    slots.count slot = if next ≤ slot ∧ slot < stop then 1 else 0 := by
  obtain ⟨n, rfl, rfl⟩ := h
  rw [List.Nodup.count (List.nodup_range' 1 Nat.one_pos)]
  simp only [List.mem_range'_1]

end FillsFrom

section

variable {s : Scope} {next : Nat}

theorem writes_resolveAll {es : List Expr}
    (ih : ∀ e ∈ es, ∀ s next label,
      FillsFrom next (e.resolve s next label).next (e.resolve s next label).value.writes) :
    FillsFrom next (resolveAll s next es).next (writesOfAll (resolveAll s next es).value) := by
  induction es generalizing next with
  | nil => exact .nil next
  | cons e es ihs =>
    exact (ih e List.mem_cons_self s next none).append (ihs fun o ho => ih o (List.mem_cons_of_mem _ ho))

theorem writes_resolveFields {fs : List (Named Expr)} (seen : List String)
    (ih : ∀ f ∈ fs, ∀ s next label,
      FillsFrom next (f.value.resolve s next label).next (f.value.resolve s next label).value.writes) :
    FillsFrom next (resolveFields s next seen fs).next
      (writesOfFields (resolveFields s next seen fs).value) := by
  induction fs generalizing next seen with
  | nil => exact .nil next
  | cons f fs ihs =>
    exact (ih f List.mem_cons_self s next (some f.name)).append
      (ihs (f.name :: seen) fun o ho => ih o (List.mem_cons_of_mem _ ho))

/-- The slot of a binding comes between those of its value and those of what follows. -/
theorem writes_resolveBindings {bs : List (Named Expr)}
    (ih : ∀ b ∈ bs, ∀ s next label,
      FillsFrom next (b.value.resolve s next label).next (b.value.resolve s next label).value.writes) :
    FillsFrom next (resolveBindings s next bs).1.next
      (writesOfBindings (resolveBindings s next bs).1.value) := by
  induction bs generalizing s next with
  | nil => exact .nil next
  | cons b bs ihs =>
    have hvalue := ih b List.mem_cons_self s next (some b.name)
    exact hvalue.append (ihs fun o ho => ih o (List.mem_cons_of_mem _ ho)).cons

end

/-- **A resolved expression fills the slots that it takes**, each once. -/
theorem Expr.writes_resolve (e : Expr) (s : Scope) (next : Nat) (label : Option String) :
    FillsFrom next (e.resolve s next label).next (e.resolve s next label).value.writes := by
  induction e generalizing s next label with
  | lit => exact .nil next
  | ident name pos =>
    simp only [Expr.resolve, resolveName]
    split
    · exact .nil next
    · split
      · exact .nil next
      · split <;> exact .nil next
  | unary op e pos ih => exact ih s next none
  | binary op l r pos ihl ihr => exact (ihl s next none).append (ihr s _ none)
  | cond c a b pos ihc iha ihb =>
    exact ((ihc s next none).append (iha s _ none)).append (ihb s _ none)
  | call f args pos ihf ihargs =>
    have hargs : FillsFrom next (resolveAll s next args).next _ := writes_resolveAll ihargs
    simp only [Expr.resolve]
    split
    · exact hargs
    · exact hargs.append (ihf s _ none)
  | index e i pos ihe ihi => exact (ihe s next none).append (ihi s _ none)
  | field e name pos ih => exact ih s next none
  | list items pos ih => exact writes_resolveAll ih
  | record fields pos ih => exact writes_resolveFields [] ih
  | lambda => exact .nil next
  | letIn bindings body pos ihs ih => exact (writes_resolveBindings ihs).append (ih _ _ none)

/-! ## Scopes and nests -/

/-- **The scope shows the names** as the nest has them: a name that is found in the scope
denotes its binding, and a name that is not found is not bound. -/
def Scope.Shows (s : Scope) (nest : Nest) (names : List String) : Prop :=
  ∀ x ∈ names, Option.Rel (fun ref b => nest.denotes? ref = some b) (s.find? x) (nest.binding? x)

namespace Scope.Shows

variable {s : Scope} {nest outer : Nest} {v : View} {names more : List String}

theorem mono (h : s.Shows nest names) {fewer : List String} (hsub : ∀ x ∈ fewer, x ∈ names) :
    s.Shows nest fewer :=
  fun x hx => h x (hsub x hx)

theorem left (h : s.Shows nest (names ++ more)) : s.Shows nest names :=
  h.mono fun _ hx => List.mem_append_left _ hx

theorem right (h : s.Shows nest (more ++ names)) : s.Shows nest names :=
  h.mono fun _ hx => List.mem_append_right _ hx

theorem binding?_eq_some (h : s.Shows nest names) {x : String} (hx : x ∈ names) {ref : Reference}
    (href : s.find? x = some ref) : ∃ b, nest.binding? x = some b ∧ nest.denotes? ref = some b :=
  exists_of_rel_some (h x hx) href

theorem binding?_eq_none (h : s.Shows nest names) {x : String} (hx : x ∈ names)
    (hfind : s.find? x = none) : nest.binding? x = none :=
  eq_none_of_rel (h x hx) hfind

theorem isSome_find? (h : s.Shows nest names) {x : String} (hx : x ∈ names) :
    (s.find? x).isSome = (nest.binding? x).isSome := by
  cases hfind : s.find? x with
  | some ref =>
    obtain ⟨b, hb, -⟩ := h.binding?_eq_some hx hfind
    rw [hb]
    rfl
  | none =>
    rw [h.binding?_eq_none hx hfind]
    rfl

/-- A new binding comes into view in the scope and in the nest alike. -/
theorem bind (name : String) (slot : Nat)
    (h : s.Shows (v :: outer) (names.filter (· != name))) :
    (s.bind name slot).Shows (v.bind name slot :: outer) names := by
  intro x hx
  rw [Scope.find?_bind, Nest.binding?, View.bind, List.lookup_cons]
  cases hname : x == name with
  | true => exact .some rfl
  | false =>
    have hrel := h x (List.mem_filter.2 ⟨hx, bne_iff_ne.2 (ne_of_beq_false hname)⟩)
    -- what a reference denotes does not depend on the names in view
    have hdenotes : Nest.denotes? ({ v with names := (name, slot) :: v.names } :: outer) =
        Nest.denotes? (v :: outer) := by
      funext ref
      cases ref with
      | slot i => rfl
      | captured i => rfl
    rw [hdenotes]
    exact hrel

end Scope.Shows

/-! ## Captures -/

theorem Scope.mem_capturedBy {s : Scope} {free : List String} {x : String} :
    x ∈ s.capturedBy free ↔ x ∈ free ∧ (s.find? x).isSome := by
  rw [Scope.capturedBy, List.mem_filter, List.mem_eraseDups]

theorem nodup_eraseDups (l : List String) : l.eraseDups.Nodup := by
  cases l with
  | nil => exact List.nodup_nil
  | cons x xs =>
    rw [List.eraseDups_cons, List.nodup_cons, List.mem_eraseDups]
    exact ⟨by simp, nodup_eraseDups _⟩
termination_by l.length
decreasing_by exact Nat.lt_succ_of_le (List.length_filter_le _ _)

theorem Scope.nodup_capturedBy (s : Scope) (free : List String) : (s.capturedBy free).Nodup :=
  (nodup_eraseDups free).filter _

/-- The captures of a function are the references of its captured names. -/
theorem Scope.find?_capturedBy (s : Scope) (free : List String) :
    List.Forall₂ (fun x ref => x ∈ free ∧ s.find? x = some ref) (s.capturedBy free)
      ((s.capturedBy free).filterMap s.find?) := by
  have hall : ∀ x ∈ s.capturedBy free, x ∈ free ∧ (s.find? x).isSome := fun x hx => mem_capturedBy.1 hx
  generalize s.capturedBy free = names at hall ⊢
  induction names with
  | nil => exact .nil
  | cons x xs ih =>
    obtain ⟨hfree, hfound⟩ := hall x List.mem_cons_self
    obtain ⟨ref, href⟩ := Option.isSome_iff_exists.1 hfound
    rw [List.filterMap_cons_some href]
    exact .cons ⟨hfree, href⟩ (ih fun y hy => hall y (List.mem_cons_of_mem _ hy))

/-- **The body of a function sees its free names as they are bound**: the parameters in
their slots, and the names around the function through the captures. -/
theorem Scope.Shows.function {s : Scope} {nest : Nest} {params : List Param} {body : Expr} {pos : Pos}
    (h : s.Shows nest (Expr.lambda params body pos).free) :
    Scope.Shows ⟨paramSlots params, s.capturedBy (Expr.lambda params body pos).free⟩
      (⟨paramSlots params, (s.capturedBy (Expr.lambda params body pos).free).filterMap s.find?⟩ :: nest)
      body.free := by
  intro x hx
  rw [Scope.find?, Nest.binding?]
  cases hparam : (paramSlots params).lookup x with
  | some slot => exact .some rfl
  | none =>
    have hfree : x ∈ (Expr.lambda params body pos).free := by
      have hparams := lookup_paramSlots_eq_none hparam
      exact List.mem_filter.2 ⟨hx, by simpa using hparams⟩
    have hcaptures := s.find?_capturedBy (Expr.lambda params body pos).free
    have hmem : x ∈ s.capturedBy (Expr.lambda params body pos).free ↔ (s.find? x).isSome := by
      rw [Scope.mem_capturedBy]
      exact and_iff_right hfree
    generalize s.capturedBy (Expr.lambda params body pos).free = names at hcaptures hmem ⊢
    dsimp only
    cases hplace : names.findIdx? (· == x) with
    | some j =>
      -- the capture at the place of the name is its reference outside
      obtain ⟨hlt, hname, -⟩ := List.findIdx?_eq_some_iff_getElem.1 hplace
      have hj : names[j]? = some x := by
        rw [List.getElem?_eq_getElem hlt, beq_iff_eq.1 hname]
      obtain ⟨ref, href, -, hfind⟩ := exists_of_rel_some (getElem?_rel hcaptures j) hj
      obtain ⟨b, hb, hdenotes⟩ := h.binding?_eq_some hfree hfind
      rw [hb]
      refine .some ?_
      rw [Nest.denotes?, href, Option.bind_some, hdenotes]
      rfl
    | none =>
      have hunbound : s.find? x = none := by
        rw [← Option.not_isSome_iff_eq_none, ← hmem]
        intro hx
        have hne := List.findIdx?_eq_none_iff.1 hplace x hx
        simp at hne
      rw [h.binding?_eq_none hfree hunbound]
      exact .none

/-! ## Resolution -/

section

variable {s : Scope} {next : Nat} {v : View} {outer : Nest}

/-- The resolved expression keeps to lexical scoping wherever the scope shows its free names. -/
def Expr.KeepsToScoping (e : Expr) : Prop :=
  ∀ (s : Scope) (next : Nat) (label : Option String) (v : View) (outer : Nest),
    s.Shows (v :: outer) e.free → Resolves (v :: outer) e (e.resolve s next label).value

theorem resolveAll_resolves {es : List Expr} (ih : ∀ e ∈ es, e.KeepsToScoping)
    (h : s.Shows (v :: outer) (freeOfAll es)) :
    ResolvesAll (v :: outer) es (resolveAll s next es).value := by
  induction es generalizing next with
  | nil => exact .nil
  | cons e es ihs =>
    exact .cons (ih e List.mem_cons_self s next none v outer h.left)
      (ihs (fun o ho => ih o (List.mem_cons_of_mem _ ho)) h.right)

theorem resolveFields_resolves {fs : List (Named Expr)} (seen : List String)
    (ih : ∀ f ∈ fs, f.value.KeepsToScoping) (h : s.Shows (v :: outer) (freeOfFields fs)) :
    ResolvesFields (v :: outer) fs (resolveFields s next seen fs).value := by
  induction fs generalizing next seen with
  | nil => exact .nil
  | cons f fs ihs =>
    exact .cons (ih f List.mem_cons_self s next (some f.name) v outer h.left)
      (ihs (f.name :: seen) (fun o ho => ih o (List.mem_cons_of_mem _ ho)) h.right)

/-- After the bindings, the scope shows the names that are used then. -/
theorem resolveBindings_resolves {bs : List (Named Expr)} {rest : List String}
    (ih : ∀ b ∈ bs, b.value.KeepsToScoping) (h : s.Shows (v :: outer) (freeOfBindings bs rest)) :
    ∃ inner, ResolvesBindings (v :: outer) bs (resolveBindings s next bs).1.value (inner :: outer) ∧
      (resolveBindings s next bs).2.Shows (inner :: outer) rest := by
  induction bs generalizing s next v with
  | nil => exact ⟨v, .nil, h⟩
  | cons b bs ihs =>
    have hvalue := ih b List.mem_cons_self s next (some b.name) v outer h.left
    obtain ⟨inner, hbs, hinner⟩ := ihs (fun o ho => ih o (List.mem_cons_of_mem _ ho))
      (Scope.Shows.bind b.name (b.value.resolve s next (some b.name)).next h.right)
    exact ⟨inner, .cons hvalue hbs, hinner⟩

/-- A resolved function is frugal, in a program as well as around one. -/
theorem lambda_resolves {nest : Nest} {params : List Param} {body : Expr} {pos : Pos}
    (ih : body.KeepsToScoping) (h : s.Shows nest (Expr.lambda params body pos).free) (next : Nat)
    (label : Option String) :
    Resolves nest (.lambda params body pos) ((Expr.lambda params body pos).resolve s next label).value := by
  have hwrites := body.writes_resolve
    ⟨paramSlots params, s.capturedBy (Expr.lambda params body pos).free⟩ params.length none
  have hcaptures := s.find?_capturedBy (Expr.lambda params body pos).free
  refine .lambda ⟨rfl, hwrites.le, hwrites.count, s.nodup_capturedBy (Expr.lambda params body pos).free,
    fun x => ?_, hcaptures.imp fun x ref hx => ?_⟩ (ih _ params.length none _ nest h.function)
  · rw [Scope.mem_capturedBy, ← Expr.mem_free_iff]
    exact and_congr_right fun hfree => by rw [h.isSome_find? hfree]
  · obtain ⟨b, hb, hdenotes⟩ := h.binding?_eq_some hx.1 hx.2
    rw [hb, hdenotes]

end

theorem calledBuiltin?_eq_some {s : Scope} {callee : Expr} {b : Builtin}
    (h : calledBuiltin? s callee = some b) :
    ∃ x pos, callee = .ident x pos ∧ s.find? x = none ∧ Builtin.ofName? x = some b := by
  unfold calledBuiltin? at h
  split at h
  · next x pos =>
    split at h
    · cases h
    · next hfound => exact ⟨x, pos, rfl, Option.not_isSome_iff_eq_none.1 hfound, h⟩
  · cases h

/-- **Resolved expressions keep to lexical scoping**, whether or not they have errors. -/
theorem Expr.resolve_resolves (e : Expr) : e.KeepsToScoping := by
  intro s next label v outer h
  induction e generalizing s next label v outer with
  | lit => exact .lit
  | ident name pos =>
    simp only [Expr.resolve, resolveName]
    split
    · next ref href =>
      obtain ⟨b, hb, hdenotes⟩ := h.binding?_eq_some List.mem_cons_self href
      exact .bound hb hdenotes
    · next hfind =>
      have hunbound := h.binding?_eq_none List.mem_cons_self hfind
      split
      · exact .unbound hunbound
      · split <;> exact .unbound hunbound
  | unary op e pos ih => exact .unary (ih s next none v outer h)
  | binary op l r pos ihl ihr =>
    exact .binary (ihl s next none v outer h.left) (ihr s _ none v outer h.right)
  | cond c a b pos ihc iha ihb =>
    exact .cond (ihc s next none v outer h.left.left) (iha s _ none v outer h.left.right)
      (ihb s _ none v outer h.right)
  | call f args pos ihf ihargs =>
    have hargs : ResolvesAll (v :: outer) args (resolveAll s next args).value :=
      resolveAll_resolves ihargs h.left
    simp only [Expr.resolve]
    split
    · next b hb =>
      obtain ⟨x, p, rfl, hfind, hname⟩ := calledBuiltin?_eq_some hb
      exact .builtin (h.right.binding?_eq_none List.mem_cons_self hfind) hname hargs
    · exact .call (ihf s _ none v outer h.right) hargs
  | index e i pos ihe ihi =>
    exact .index (ihe s next none v outer h.left) (ihi s _ none v outer h.right)
  | field e name pos ih => exact .field (ih s next none v outer h)
  | list items pos ih => exact .list (resolveAll_resolves ih h)
  | record fields pos ih => exact .record (resolveFields_resolves [] ih h)
  | lambda params body pos ih => exact lambda_resolves ih h next label
  | letIn bindings body pos ihs ih =>
    obtain ⟨inner, hbindings, hinner⟩ := resolveBindings_resolves ihs h
    exact .letIn hbindings (ih _ _ none inner outer hinner)

/-! ## Programs -/

/-- The function that a program is resolved to, also if it has errors. -/
def Expr.main (program : Expr) : Lambda :=
  ⟨⟨none, 0, (program.resolve .empty 0 none).next, [], program.pos⟩,
    (program.resolve .empty 0 none).value⟩

end DistanceField
