import DistanceField.Proofs.ScopeErrors

/-!
# Bound names

What a program means does not depend on the names that it gives to parameters and `let`
bindings. Resolution compares names as texts: it searches the names of a function from the
innermost on, the captured names from the first on, and the tables of constants and builtin
functions last. A binding that hides another one, or a constant or a builtin function, works
like any other at every depth.

* `Paired`, `AlphaEquiv`: expressions that differ in bound names and positions only.
* `Operation.bare`: an operation without the names of functions and without positions.
* `AlphaEquiv.free`: the free names of two such expressions, place by place.
* `Scope.Agrees`: two scopes in which paired names have the same meaning.
* `Expr.resolve_alphaEquiv`: two such expressions are resolved alike.
* `Expr.toLambda_alphaEquiv`: programs.
-/

namespace DistanceField

/-! ## Renaming -/

/-- The names have the same binding: they are bound at the same place, or both are bound
nowhere and equal. The names bound at the same places stand in pairs, the innermost first. -/
def Paired : List (String × String) → String → String → Prop
  | [], x, y => x = y
  | (a, b) :: outer, x, y => (x = a ∧ y = b) ∨ (x ≠ a ∧ y ≠ b ∧ Paired outer x y)

instance Paired.decidable :
    (names : List (String × String)) → (x y : String) → Decidable (Paired names x y)
  | [], x, y => inferInstanceAs (Decidable (x = y))
  | (a, b) :: outer, x, y =>
    have := Paired.decidable outer x y
    inferInstanceAs (Decidable ((x = a ∧ y = b) ∨ (x ≠ a ∧ y ≠ b ∧ Paired outer x y)))

mutual

/-- **The expressions differ only in the names of parameters and `let` bindings**, and in
positions, if the names around them are bound in pairs. -/
inductive AlphaEquiv : List (String × String) → Expr → Expr → Prop
  | lit {names value p q} : AlphaEquiv names (.lit value p) (.lit value q)
  | ident {names x y p q} (h : Paired names x y) : AlphaEquiv names (.ident x p) (.ident y q)
  | unary {names op e e' p q} (h : AlphaEquiv names e e') :
      AlphaEquiv names (.unary op e p) (.unary op e' q)
  | binary {names op l r l' r' p q} (hl : AlphaEquiv names l l') (hr : AlphaEquiv names r r') :
      AlphaEquiv names (.binary op l r p) (.binary op l' r' q)
  | cond {names c a b c' a' b' p q} (hc : AlphaEquiv names c c') (ha : AlphaEquiv names a a')
      (hb : AlphaEquiv names b b') : AlphaEquiv names (.cond c a b p) (.cond c' a' b' q)
  | call {names f args f' args' p q} (hf : AlphaEquiv names f f') (hargs : AlphaEquivAll names args args') :
      AlphaEquiv names (.call f args p) (.call f' args' q)
  | index {names e i e' i' p q} (he : AlphaEquiv names e e') (hi : AlphaEquiv names i i') :
      AlphaEquiv names (.index e i p) (.index e' i' q)
  | field {names e e' name p q} (h : AlphaEquiv names e e') :
      AlphaEquiv names (.field e name p) (.field e' name q)
  | list {names items items' p q} (h : AlphaEquivAll names items items') :
      AlphaEquiv names (.list items p) (.list items' q)
  | record {names fields fields' p q} (h : AlphaEquivFields names fields fields') :
      AlphaEquiv names (.record fields p) (.record fields' q)
  | lambda {names params params' body body' p q} (hlength : params.length = params'.length)
      (h : AlphaEquiv (((params.map Param.name).zip (params'.map Param.name)).reverse ++ names) body body') :
      AlphaEquiv names (.lambda params body p) (.lambda params' body' q)
  | letIn {names bindings bindings' inner body body' p q}
      (hbindings : AlphaEquivBindings names bindings bindings' inner) (h : AlphaEquiv inner body body') :
      AlphaEquiv names (.letIn bindings body p) (.letIn bindings' body' q)

inductive AlphaEquivAll : List (String × String) → List Expr → List Expr → Prop
  | nil {names} : AlphaEquivAll names [] []
  | cons {names e e' es es'} (h : AlphaEquiv names e e') (hs : AlphaEquivAll names es es') :
      AlphaEquivAll names (e :: es) (e' :: es')

/-- The names of fields are not bound: they stay. -/
inductive AlphaEquivFields : List (String × String) → List (Named Expr) → List (Named Expr) → Prop
  | nil {names} : AlphaEquivFields names [] []
  | cons {names name p q e e' fs fs'} (h : AlphaEquiv names e e') (hs : AlphaEquivFields names fs fs') :
      AlphaEquivFields names (⟨name, p, e⟩ :: fs) (⟨name, q, e'⟩ :: fs')

/-- Bindings, and the names that are bound after them. A name is bound after its value. -/
inductive AlphaEquivBindings :
    List (String × String) → List (Named Expr) → List (Named Expr) → List (String × String) → Prop
  | nil {names} : AlphaEquivBindings names [] [] names
  | cons {names a b p q e e' bs bs' inner} (h : AlphaEquiv names e e')
      (hs : AlphaEquivBindings ((a, b) :: names) bs bs' inner) :
      AlphaEquivBindings names (⟨a, p, e⟩ :: bs) (⟨b, q, e'⟩ :: bs') inner

end

/-- No function in the program has two parameters of the same name. -/
def Expr.DistinctParams (program : Expr) : Prop :=
  ∀ path bound called params body pos,
    Occurrence.at? ⟨[], false, program⟩ path = some ⟨bound, called, .lambda params body pos⟩ →
    (params.map Param.name).Nodup

/-! ## Operations without names and positions -/

def Signature.bare (s : Signature) : Signature :=
  { s with name := none, pos := .start }

mutual

/-- An operation without the names of functions and without positions. -/
def Operation.bare : Operation → Operation
  | .const value _ => .const value .start
  | .load ref _ => .load ref .start
  | .lambda signature body => .lambda signature.bare body.bare
  | .call callee args _ => .call callee.bare (bareAll args) .start
  | .builtin b args _ => .builtin b (bareAll args) .start
  | .unary op operand _ => .unary op operand.bare .start
  | .binary op left right _ => .binary op left.bare right.bare .start
  | .cond condition yes no _ => .cond condition.bare yes.bare no.bare .start
  | .letIn bindings body _ => .letIn (bareBindings bindings) body.bare .start
  | .list items _ => .list (bareAll items) .start
  | .record fields _ => .record (bareFields fields) .start
  | .field target name _ => .field target.bare name .start
  | .index target index _ => .index target.bare index.bare .start

def bareAll : List Operation → List Operation
  | [] => []
  | o :: os => o.bare :: bareAll os

def bareBindings : List (Nat × Operation) → List (Nat × Operation)
  | [] => []
  | (slot, o) :: os => (slot, o.bare) :: bareBindings os

def bareFields : List (String × Operation) → List (String × Operation)
  | [] => []
  | (name, o) :: os => (name, o.bare) :: bareFields os

end

def Lambda.bare (l : Lambda) : Lambda :=
  ⟨l.signature.bare, l.body.bare⟩

/-! ## Paired names -/

section

variable {names : List (String × String)} {x y x' y' : String}

/-- A name is paired with one name only, on either side. -/
theorem Paired.eq_iff (h : Paired names x y) (h' : Paired names x' y') : x = x' ↔ y = y' := by
  induction names with
  | nil => rw [show x = y from h, show x' = y' from h']
  | cons ab outer ih =>
    rcases h with ⟨rfl, rfl⟩ | ⟨hx, hy, h⟩
    · rcases h' with ⟨rfl, rfl⟩ | ⟨hx', hy', -⟩
      · exact iff_of_true rfl rfl
      · exact iff_of_false (Ne.symm hx') (Ne.symm hy')
    · rcases h' with ⟨rfl, rfl⟩ | ⟨-, -, h'⟩
      · exact iff_of_false hx hy
      · exact ih h h'

theorem Paired.beq_eq (h : Paired names x y) (h' : Paired names x' y') : (x == x') = (y == y') := by
  rw [Bool.eq_iff_iff, beq_iff_eq, beq_iff_eq, h.eq_iff h']

/-- Names that are not among the innermost pairs are paired further outwards. -/
theorem Paired.of_append {pairs : List (String × String)} (h : Paired (pairs ++ names) x y) :
    (x ∈ pairs.map Prod.fst ↔ y ∈ pairs.map Prod.snd) ∧
      (x ∉ pairs.map Prod.fst → Paired names x y) := by
  induction pairs with
  | nil => exact ⟨by simp, fun _ => h⟩
  | cons ab pairs ih =>
    rcases h with ⟨rfl, rfl⟩ | ⟨hx, hy, h⟩
    · exact ⟨by simp, fun hnot => absurd List.mem_cons_self hnot⟩
    · obtain ⟨hmem, houter⟩ := ih h
      refine ⟨?_, fun hnot => houter (List.not_mem_of_not_mem_cons hnot)⟩
      rw [List.map_cons, List.mem_cons, List.map_cons, List.mem_cons, hmem]
      exact or_congr_left (iff_of_false hx hy)

/-- Paired names have the same slot if those of every pair have. -/
theorem Paired.lookup_eq {entries : List ((String × String) × Nat)}
    (h : Paired (entries.map Prod.fst ++ names) x y) :
    (entries.map (Prod.map Prod.fst id)).lookup x = (entries.map (Prod.map Prod.snd id)).lookup y := by
  induction entries with
  | nil => rfl
  | cons entry entries ih =>
    rw [List.map_cons, List.map_cons, List.lookup_cons, List.lookup_cons]
    rcases h with ⟨rfl, rfl⟩ | ⟨hx, hy, h⟩
    · simp
    · simp only [Prod.map_fst, beq_false_of_ne hx, beq_false_of_ne hy]
      exact ih h

end

/-! ## Parameters -/

section

variable {names : List (String × String)} {params params' : List Param} {x y : String}

theorem map_fst_pairs (hlength : params.length = params'.length) :
    ((params.map Param.name).zip (params'.map Param.name)).map Prod.fst = params.map Param.name :=
  List.map_fst_zip (by simp [hlength])

theorem map_snd_pairs (hlength : params.length = params'.length) :
    ((params.map Param.name).zip (params'.map Param.name)).map Prod.snd = params'.map Param.name :=
  List.map_snd_zip (by simp [hlength])

theorem Paired.lookup_paramSlots (hlength : params.length = params'.length)
    (h : Paired (((params.map Param.name).zip (params'.map Param.name)).reverse ++ names) x y) :
    (paramSlots params).lookup x = (paramSlots params').lookup y := by
  have hfst := map_fst_pairs hlength
  have hsnd := map_snd_pairs hlength
  generalize (params.map Param.name).zip (params'.map Param.name) = pairs at h hfst hsnd
  have hentries : Paired (pairs.zipIdx.reverse.map Prod.fst ++ names) x y := by
    rwa [List.map_reverse, List.zipIdx_map_fst]
  rw [paramSlots, paramSlots, ← hfst, ← hsnd, List.zipIdx_map, List.zipIdx_map, ← List.map_reverse,
    ← List.map_reverse]
  exact hentries.lookup_eq

/-- A name that is no parameter has its binding outside the function. -/
theorem Paired.outside (hlength : params.length = params'.length)
    (h : Paired (((params.map Param.name).zip (params'.map Param.name)).reverse ++ names) x y) :
    (x ∈ params.map Param.name ↔ y ∈ params'.map Param.name) ∧
      (x ∉ params.map Param.name → Paired names x y) := by
  have houter := h.of_append
  rwa [List.map_reverse, List.map_reverse, List.mem_reverse, List.mem_reverse, map_fst_pairs hlength,
    map_snd_pairs hlength] at houter

end

/-! ## Free names -/

section

variable {names : List (String × String)}

/-- Related elements stay related in the lists of those that are kept on both sides. -/
theorem forall₂_filter {α β : Type} {R S : α → β → Prop} {keep : α → Bool} {keep' : β → Bool}
    {as : List α} {bs : List β} (h : List.Forall₂ R as bs) (hkeep : ∀ a b, R a b → keep a = keep' b)
    (hkept : ∀ a b, R a b → keep a = true → S a b) :
    List.Forall₂ S (as.filter keep) (bs.filter keep') := by
  induction h with
  | nil => exact .nil
  | @cons a b as bs hab _ ih =>
    rw [List.filter_cons, List.filter_cons, ← hkeep a b hab]
    by_cases hka : keep a = true
    · rw [if_pos hka, if_pos hka]
      exact .cons (hkept a b hab hka) ih
    · rw [if_neg hka, if_neg hka]
      exact ih

theorem forall₂_eraseDups {xs ys : List String} (h : List.Forall₂ (Paired names) xs ys) :
    List.Forall₂ (Paired names) xs.eraseDups ys.eraseDups := by
  cases h with
  | nil => exact .nil
  | @cons x y xs ys hxy hs =>
    rw [List.eraseDups_cons, List.eraseDups_cons]
    refine .cons hxy (forall₂_eraseDups ?_)
    exact forall₂_filter hs (fun a b hab => by rw [hab.beq_eq hxy]) fun _ _ hab _ => hab
termination_by xs.length
decreasing_by exact Nat.lt_succ_of_le (List.length_filter_le _ _)

/-- The place of a name among names that are paired one by one. -/
theorem Paired.findIdx?_eq {x y : String} (h : Paired names x y) {xs ys : List String}
    (hs : List.Forall₂ (Paired names) xs ys) : xs.findIdx? (· == x) = ys.findIdx? (· == y) := by
  induction hs with
  | nil => rfl
  | cons hab _ ih => rw [List.findIdx?_cons, List.findIdx?_cons, hab.beq_eq h, ih]

/-- The free names of the expression and of those that differ from it in bound names are
paired, place by place. -/
def Expr.FreePaired (e : Expr) : Prop :=
  ∀ names e', AlphaEquiv names e e' → List.Forall₂ (Paired names) e.free e'.free

theorem AlphaEquivAll.free {es es' : List Expr} (ih : ∀ e ∈ es, e.FreePaired)
    (h : AlphaEquivAll names es es') : List.Forall₂ (Paired names) (freeOfAll es) (freeOfAll es') := by
  induction es generalizing es' with
  | nil => cases h; exact .nil
  | cons e es ihs =>
    cases h with
    | cons he hes =>
      have hrest := ihs (fun a ha => ih a (List.mem_cons_of_mem _ ha)) hes
      exact List.rel_append (ih e List.mem_cons_self _ _ he) hrest

theorem AlphaEquivFields.free {fs fs' : List (Named Expr)} (ih : ∀ f ∈ fs, f.value.FreePaired)
    (h : AlphaEquivFields names fs fs') : List.Forall₂ (Paired names) (freeOfFields fs) (freeOfFields fs') := by
  induction fs generalizing fs' with
  | nil => cases h; exact .nil
  | cons f fs ihs =>
    cases h with
    | cons he hfs =>
      have hrest := ihs (fun a ha => ih a (List.mem_cons_of_mem _ ha)) hfs
      exact List.rel_append (ih _ List.mem_cons_self _ _ he) hrest

theorem AlphaEquivBindings.free {bs bs' : List (Named Expr)} {inner : List (String × String)}
    {rest rest' : List String} (ih : ∀ b ∈ bs, b.value.FreePaired)
    (h : AlphaEquivBindings names bs bs' inner) (hrest : List.Forall₂ (Paired inner) rest rest') :
    List.Forall₂ (Paired names) (freeOfBindings bs rest) (freeOfBindings bs' rest') := by
  induction bs generalizing names bs' with
  | nil => cases h; exact hrest
  | cons b bs ihs =>
    cases h with
    | @cons _ a a' _ _ _ _ _ _ _ he hbs =>
      have hafter := ihs (fun c hc => ih c (List.mem_cons_of_mem _ hc)) hbs
      refine List.rel_append (ih _ List.mem_cons_self _ _ he) (forall₂_filter hafter ?_ ?_)
      · intro x y hxy
        have hbound : Paired ((a, a') :: names) a a' := .inl ⟨rfl, rfl⟩
        rw [bne, bne, hxy.beq_eq hbound]
      · rintro x y (⟨rfl, -⟩ | ⟨-, -, houter⟩) hne
        · simp at hne
        · exact houter

/-- **The free names of expressions that differ in bound names** are paired, place by place. -/
theorem AlphaEquiv.free (e : Expr) : e.FreePaired := by
  intro names e' h
  induction e generalizing names e' with
  | lit value pos => cases h; exact .nil
  | ident x pos =>
    cases h with
    | ident hxy => exact .cons hxy .nil
  | unary op e pos ih =>
    cases h with
    | @unary _ _ _ e₁ _ _ he => exact ih names e₁ he
  | binary op l r pos ihl ihr =>
    cases h with
    | binary hl hr => exact List.rel_append (ihl _ _ hl) (ihr _ _ hr)
  | cond c a b pos ihc iha ihb =>
    cases h with
    | cond hc ha hb => exact List.rel_append (List.rel_append (ihc _ _ hc) (iha _ _ ha)) (ihb _ _ hb)
  | call f args pos ihf ihargs =>
    cases h with
    | call hf hargs => exact List.rel_append (AlphaEquivAll.free ihargs hargs) (ihf _ _ hf)
  | index e i pos ihe ihi =>
    cases h with
    | index he hi => exact List.rel_append (ihe _ _ he) (ihi _ _ hi)
  | field e name pos ih =>
    cases h with
    | @field _ _ e₁ _ _ _ he => exact ih names e₁ he
  | list items pos ih =>
    cases h with
    | list hitems => exact AlphaEquivAll.free ih hitems
  | record fields pos ih =>
    cases h with
    | record hfields => exact AlphaEquivFields.free ih hfields
  | lambda params body pos ih =>
    cases h with
    | lambda hlength hbody =>
      -- a name is a parameter of both functions or of neither
      refine forall₂_filter (ih _ _ hbody) (fun x y hxy => ?_) fun x y hxy hx => ?_
      · rw [Bool.eq_iff_iff]
        simpa using not_congr (hxy.outside hlength).1
      · exact (hxy.outside hlength).2 (by simpa using hx)
  | letIn bindings body pos ihs ih =>
    cases h with
    | letIn hbindings hbody => exact AlphaEquivBindings.free ihs hbindings (ih _ _ hbody)

end

/-! ## Scopes -/

/-- **Paired names have the same meaning in the two scopes**, and those of the free names
that have none are equal. -/
structure Scope.Agrees (names : List (String × String)) (free : List String) (s s' : Scope) : Prop where
  find?_eq : ∀ x y, Paired names x y → s.find? x = s'.find? y
  unbound : ∀ x ∈ free, ∀ y, Paired names x y → s.find? x = none → x = y

namespace Scope.Agrees

variable {names : List (String × String)} {free more : List String} {s s' : Scope}

theorem mono (h : Agrees names free s s') {fewer : List String} (hsub : ∀ x ∈ fewer, x ∈ free) :
    Agrees names fewer s s' :=
  ⟨h.find?_eq, fun x hx => h.unbound x (hsub x hx)⟩

theorem left (h : Agrees names (free ++ more) s s') : Agrees names free s s' :=
  h.mono fun _ hx => List.mem_append_left _ hx

theorem right (h : Agrees names (more ++ free) s s') : Agrees names free s s' :=
  h.mono fun _ hx => List.mem_append_right _ hx

theorem bind {a b : String} {slot slot' : Nat} (h : Agrees names (free.filter (· != a)) s s')
    (hslot : slot = slot') : Agrees ((a, b) :: names) free (s.bind a slot) (s'.bind b slot') := by
  subst hslot
  constructor
  · rintro x y (⟨rfl, rfl⟩ | ⟨hx, hy, hxy⟩)
    · simp [Scope.find?_bind]
    · simpa [Scope.find?_bind, hx, hy] using h.find?_eq x y hxy
  · rintro x hfree y (⟨rfl, rfl⟩ | ⟨hx, -, hxy⟩) hnone
    · simp [Scope.find?_bind] at hnone
    · rw [Scope.find?_bind, if_neg (by simpa using hx)] at hnone
      exact h.unbound x (List.mem_filter.2 ⟨hfree, bne_iff_ne.2 hx⟩) y hxy hnone

/-- The names that two functions capture, and where they find them. -/
theorem capturedBy {free' : List String} (h : Agrees names free s s')
    (hfree : List.Forall₂ (Paired names) free free') :
    List.Forall₂ (Paired names) (s.capturedBy free) (s'.capturedBy free') ∧
      (s.capturedBy free).filterMap s.find? = (s'.capturedBy free').filterMap s'.find? := by
  have hcaptured : List.Forall₂ (Paired names) (s.capturedBy free) (s'.capturedBy free') :=
    forall₂_filter (forall₂_eraseDups hfree) (fun x y hxy => by rw [h.find?_eq x y hxy]) fun _ _ hxy _ => hxy
  refine ⟨hcaptured, ?_⟩
  generalize s.capturedBy free = captured at hcaptured
  generalize s'.capturedBy free' = captured' at hcaptured
  induction hcaptured with
  | nil => rfl
  | cons hxy _ ih => rw [List.filterMap_cons, List.filterMap_cons, h.find?_eq _ _ hxy, ih]

/-- **Inside functions**, paired names have the same meaning again: a slot of the
parameters, or a place among the captured names. -/
theorem function {params params' : List Param} {body body' : Expr} {p q : Pos}
    (hlength : params.length = params'.length)
    (h : Agrees names (Expr.lambda params body p).free s s')
    (hfree : List.Forall₂ (Paired names) (Expr.lambda params body p).free (Expr.lambda params' body' q).free) :
    Agrees (((params.map Param.name).zip (params'.map Param.name)).reverse ++ names) body.free
      ⟨paramSlots params, s.capturedBy (Expr.lambda params body p).free⟩
      ⟨paramSlots params', s'.capturedBy (Expr.lambda params' body' q).free⟩ := by
  obtain ⟨hcaptured, -⟩ := h.capturedBy hfree
  constructor
  · intro x y hxy
    have hlookup := hxy.lookup_paramSlots hlength
    rw [Scope.find?, Scope.find?, ← hlookup]
    cases hparam : (paramSlots params).lookup x with
    | some slot => rfl
    | none =>
      have houter := (hxy.outside hlength).2 (lookup_paramSlots_eq_none hparam)
      simp only [houter.findIdx?_eq hcaptured]
  · intro x hx y hxy hnone
    rw [Scope.find?] at hnone
    cases hparam : (paramSlots params).lookup x with
    | some slot => simp [hparam] at hnone
    | none =>
      -- the name is free in the function and not captured: it is bound nowhere
      have hparams := lookup_paramSlots_eq_none hparam
      have hfreeIn : x ∈ (Expr.lambda params body p).free := List.mem_filter.2 ⟨hx, by simpa using hparams⟩
      have hunbound : s.find? x = none := by
        rw [← Option.not_isSome_iff_eq_none]
        intro hsome
        have hmem := Scope.mem_capturedBy.2 ⟨hfreeIn, hsome⟩
        simp only [hparam, Option.map_eq_none_iff, List.findIdx?_eq_none_iff] at hnone
        simpa using hnone x hmem
      exact h.unbound x hfreeIn y ((hxy.outside hlength).2 hparams) hunbound

end Scope.Agrees

/-! ## Resolution -/

/-- The error is about the parameters of a function. -/
def Reason.isDuplicateParameter : Reason → Bool
  | .duplicateParameter _ => true
  | _ => false

/-- What is wrong, apart from parameters that have the same name. -/
def otherReasons (errors : List Diagnostic) : List Reason :=
  (errors.map Diagnostic.reason).filter (!·.isDuplicateParameter)

theorem otherReasons_append (errors more : List Diagnostic) :
    otherReasons (errors ++ more) = otherReasons errors ++ otherReasons more := by
  simp [otherReasons]

theorem otherReasons_duplicateParams (seen : List String) (params : List Param) :
    otherReasons (duplicateParams seen params) = [] := by
  induction params generalizing seen with
  | nil => rfl
  | cons p ps ih =>
    rw [duplicateParams, otherReasons_append, ih]
    split_ifs <;> rfl

/-- **The results of resolution are the same**, up to what `bare` leaves out, positions of
errors, and errors about parameters. -/
structure Resolved.Alike {α : Type} (bare : α → α) (r r' : Resolved α) : Prop where
  value : bare r.value = bare r'.value
  next : r.next = r'.next
  errors : otherReasons r.errors = otherReasons r'.errors

/-- The expression and those that differ from it in bound names are resolved alike. -/
def Expr.ResolvedAlike (e : Expr) : Prop :=
  ∀ names e' s s' next next' label label', AlphaEquiv names e e' → Scope.Agrees names e.free s s' →
    next = next' → (e.resolve s next label).Alike Operation.bare (e'.resolve s' next' label')

section

variable {names : List (String × String)} {s s' : Scope} {next next' : Nat}

theorem resolveAll_alike {es es' : List Expr} (ih : ∀ e ∈ es, e.ResolvedAlike)
    (h : AlphaEquivAll names es es') (hs : Scope.Agrees names (freeOfAll es) s s') (hnext : next = next') :
    (resolveAll s next es).Alike bareAll (resolveAll s' next' es') := by
  induction es generalizing es' next next' with
  | nil =>
    cases h
    exact ⟨rfl, hnext, rfl⟩
  | cons e es ihs =>
    cases h with
    | cons he hes =>
      have halike := ih e List.mem_cons_self _ _ s s' next next' none none he hs.left hnext
      have hrest := ihs (fun a ha => ih a (List.mem_cons_of_mem _ ha)) hes hs.right halike.next
      exact ⟨by simp [resolveAll, bareAll, halike.value, hrest.value], hrest.next,
        by simp [resolveAll, otherReasons_append, halike.errors, hrest.errors]⟩

theorem resolveFields_alike {fs fs' : List (Named Expr)} (seen : List String)
    (ih : ∀ f ∈ fs, f.value.ResolvedAlike) (h : AlphaEquivFields names fs fs')
    (hs : Scope.Agrees names (freeOfFields fs) s s') (hnext : next = next') :
    (resolveFields s next seen fs).Alike bareFields (resolveFields s' next' seen fs') := by
  induction fs generalizing fs' next next' seen with
  | nil =>
    cases h
    exact ⟨rfl, hnext, rfl⟩
  | cons f fs ihs =>
    cases h with
    | @cons _ name p q e e' _ _ he hfs =>
      have halike := ih _ List.mem_cons_self _ _ s s' next next' (some name) (some name) he hs.left hnext
      have hrest := ihs (name :: seen) (fun a ha => ih a (List.mem_cons_of_mem _ ha)) hfs hs.right halike.next
      refine ⟨by simp [resolveFields, bareFields, halike.value, hrest.value], hrest.next, ?_⟩
      simp only [resolveFields, otherReasons_append, halike.errors, hrest.errors]
      congr 2
      split_ifs <;> rfl

/-- After the bindings, the scopes agree on the names that the body uses. -/
theorem resolveBindings_alike {bs bs' : List (Named Expr)} {inner : List (String × String)}
    {rest : List String} (ih : ∀ b ∈ bs, b.value.ResolvedAlike) (h : AlphaEquivBindings names bs bs' inner)
    (hs : Scope.Agrees names (freeOfBindings bs rest) s s') (hnext : next = next') :
    (resolveBindings s next bs).1.Alike bareBindings (resolveBindings s' next' bs').1 ∧
      Scope.Agrees inner rest (resolveBindings s next bs).2 (resolveBindings s' next' bs').2 := by
  induction bs generalizing names s s' bs' next next' with
  | nil =>
    cases h
    exact ⟨⟨rfl, hnext, rfl⟩, hs⟩
  | cons b bs ihs =>
    cases h with
    | @cons _ a a' p q e e' _ _ _ he hbs =>
      have halike := ih _ List.mem_cons_self _ _ s s' next next' (some a) (some a') he hs.left hnext
      obtain ⟨hrest, hinner⟩ := ihs (fun c hc => ih c (List.mem_cons_of_mem _ hc)) hbs
        (hs.right.bind halike.next) (congrArg (· + 1) halike.next)
      refine ⟨⟨?_, hrest.next, ?_⟩, hinner⟩
      · simp only [resolveBindings, bareBindings]
        rw [hrest.value, halike.value, halike.next]
      · simp only [resolveBindings, otherReasons_append, halike.errors, hrest.errors]

theorem resolveName_alike {x y : String} (p q : Pos) (hxy : Paired names x y)
    (hs : Scope.Agrees names [x] s s') :
    (resolveName s x p).1.bare = (resolveName s' y q).1.bare ∧
      otherReasons (resolveName s x p).2 = otherReasons (resolveName s' y q).2 := by
  have hfind := hs.find?_eq x y hxy
  cases hx : s.find? x with
  | some ref => simp [resolveName, ← hfind, hx, Operation.bare]
  | none =>
    -- a name that is bound nowhere is not renamed
    obtain rfl := hs.unbound x List.mem_cons_self y hxy hx
    unfold resolveName
    rw [← hfind, hx]
    dsimp only
    cases namedConstant? x with
    | some value => exact ⟨rfl, rfl⟩
    | none => split_ifs <;> exact ⟨rfl, rfl⟩

theorem calledBuiltin?_alike {callee callee' : Expr} (h : AlphaEquiv names callee callee')
    (hs : Scope.Agrees names callee.free s s') : calledBuiltin? s callee = calledBuiltin? s' callee' := by
  cases h with
  | @ident _ x y p q hxy =>
    have hfind := hs.find?_eq x y hxy
    unfold calledBuiltin?
    cases hx : s.find? x with
    | some ref => simp [← hfind, hx]
    | none =>
      obtain rfl := hs.unbound x List.mem_cons_self y hxy hx
      simp [← hfind, hx]
  | _ => rfl

end

/-- **Expressions that differ in bound names are resolved alike**, in scopes that agree on
their free names. -/
theorem Expr.resolve_alphaEquiv (e : Expr) : e.ResolvedAlike := by
  intro names e' s s' next next' label label' h hs hnext
  induction e generalizing names e' s s' next next' label label' with
  | lit value pos =>
    cases h
    exact ⟨rfl, hnext, rfl⟩
  | ident x pos =>
    cases h with
    | ident hxy =>
      obtain ⟨hvalue, herrors⟩ := resolveName_alike pos _ hxy hs
      exact ⟨hvalue, hnext, herrors⟩
  | unary op e pos ih =>
    cases h with
    | unary he =>
      have halike := ih _ _ s s' next next' none none he hs hnext
      exact ⟨by simp [Expr.resolve, Operation.bare, halike.value], halike.next, halike.errors⟩
  | binary op l r pos ihl ihr =>
    cases h with
    | binary hl hr =>
      have hleft := ihl _ _ s s' next next' none none hl hs.left hnext
      have hright := ihr _ _ s s' _ _ none none hr hs.right hleft.next
      exact ⟨by simp [Expr.resolve, Operation.bare, hleft.value, hright.value], hright.next,
        by simp [Expr.resolve, otherReasons_append, hleft.errors, hright.errors]⟩
  | cond c a b pos ihc iha ihb =>
    cases h with
    | cond hc ha hb =>
      have hcondition := ihc _ _ s s' next next' none none hc hs.left.left hnext
      have hyes := iha _ _ s s' _ _ none none ha hs.left.right hcondition.next
      have hno := ihb _ _ s s' _ _ none none hb hs.right hyes.next
      exact ⟨by simp [Expr.resolve, Operation.bare, hcondition.value, hyes.value, hno.value], hno.next,
        by simp [Expr.resolve, otherReasons_append, hcondition.errors, hyes.errors, hno.errors]⟩
  | call f args pos ihf ihargs =>
    cases h with
    | call hf hargs =>
      have halike := resolveAll_alike ihargs hargs hs.left hnext
      have hbuiltin := calledBuiltin?_alike hf hs.right
      simp only [Expr.resolve, ← hbuiltin]
      cases calledBuiltin? s f with
      | some b => exact ⟨by simp [Operation.bare, halike.value], halike.next, halike.errors⟩
      | none =>
        have hcallee := ihf _ _ s s' _ _ none none hf hs.right halike.next
        exact ⟨by simp [Operation.bare, halike.value, hcallee.value], hcallee.next,
          by simp [otherReasons_append, halike.errors, hcallee.errors]⟩
  | index e i pos ihe ihi =>
    cases h with
    | index he hi =>
      have htarget := ihe _ _ s s' next next' none none he hs.left hnext
      have hindex := ihi _ _ s s' _ _ none none hi hs.right htarget.next
      exact ⟨by simp [Expr.resolve, Operation.bare, htarget.value, hindex.value], hindex.next,
        by simp [Expr.resolve, otherReasons_append, htarget.errors, hindex.errors]⟩
  | field e name pos ih =>
    cases h with
    | field he =>
      have halike := ih _ _ s s' next next' none none he hs hnext
      exact ⟨by simp [Expr.resolve, Operation.bare, halike.value], halike.next, halike.errors⟩
  | list items pos ih =>
    cases h with
    | list hitems =>
      have halike := resolveAll_alike ih hitems hs hnext
      exact ⟨by simp [Expr.resolve, Operation.bare, halike.value], halike.next, halike.errors⟩
  | record fields pos ih =>
    cases h with
    | record hfields =>
      have halike := resolveFields_alike [] ih hfields hs hnext
      exact ⟨by simp [Expr.resolve, Operation.bare, halike.value], halike.next, halike.errors⟩
  | lambda params body pos ih =>
    have hfree := AlphaEquiv.free _ _ _ h
    cases h with
    | @lambda _ _ params' _ body' _ q hlength hbody =>
      -- the captures are found outside, the body is resolved in a scope of its own
      obtain ⟨-, hcaptures⟩ := hs.capturedBy hfree
      have halike := ih _ _ _ _ _ _ none none hbody (hs.function hlength hfree) hlength
      refine ⟨?_, hnext, ?_⟩
      · simp only [Expr.resolve, Operation.bare, Signature.bare]
        rw [halike.value, halike.next, hcaptures, hlength]
      · simp [Expr.resolve, otherReasons_append, otherReasons_duplicateParams, halike.errors]
  | letIn bindings body pos ihs ih =>
    cases h with
    | letIn hbindings hbody =>
      obtain ⟨halike, hinner⟩ := resolveBindings_alike ihs hbindings hs hnext
      have hrest := ih _ _ _ _ _ _ none none hbody hinner halike.next
      exact ⟨by simp [Expr.resolve, Operation.bare, halike.value, hrest.value], hrest.next,
        by simp [Expr.resolve, otherReasons_append, halike.errors, hrest.errors]⟩

/-! ## Programs -/

/-- Resolution reports functions that have two parameters of the same name. -/
theorem Expr.distinctParams_iff (program : Expr) :
    program.DistinctParams ↔
      ∀ d ∈ (program.resolve .empty 0 none).errors, d.reason.isDuplicateParameter = false := by
  obtain ⟨violations, -, hmem, hperm⟩ := program.hasErrors
  constructor
  · intro hdistinct d hd
    obtain ⟨⟨⟨path, item⟩, d⟩, hv, rfl⟩ := List.mem_map.1 (hperm.mem_iff.1 hd)
    obtain ⟨o, hat, hbreaks⟩ := (hmem _).1 hv
    dsimp only at hat hbreaks ⊢
    cases hbreaks with
    | undefined => rfl
    | value => rfl
    | field => rfl
    | @parameter _ _ params _ _ i _ p q hij hp hq hname =>
      have hnodup := hdistinct _ _ _ _ _ _ hat
      rw [List.nodup_iff_getElem?_ne_getElem?] at hnodup
      have hlt := (List.getElem?_eq_some_iff.1 hq).1
      refine absurd ?_ (hnodup i _ hij (by simpa using hlt))
      rw [List.getElem?_map, List.getElem?_map, hp, hq, Option.map_some, Option.map_some, hname]
  · intro herrors path bound called params body pos hat
    rw [List.nodup_iff_getElem?_ne_getElem?]
    intro i j hij hj hsame
    rw [List.length_map] at hj
    have hq := List.getElem?_eq_getElem hj
    have hp := List.getElem?_eq_getElem (Nat.lt_trans hij hj)
    rw [List.getElem?_map, List.getElem?_map, hp, hq, Option.map_some, Option.map_some,
      Option.some.injEq] at hsame
    have hviolates : program.Violates ⟨path, j⟩ ⟨.duplicateParameter params[j].name, params[j].pos⟩ :=
      ⟨_, hat, .parameter hij hp hq hsame⟩
    have hd := hperm.mem_iff.2 (List.mem_map_of_mem ((hmem (⟨path, j⟩, _)).2 hviolates))
    cases herrors _ hd

/-- **Programs that differ in bound names only** are both accepted or both rejected. If they
are accepted, the functions that they are resolved to are the same: they have the same slots,
references and captures and call the same builtin functions, and only names of functions and
positions differ. If they are rejected, it is for the same reasons. -/
theorem Expr.toLambda_alphaEquiv {program program' : Expr} (h : AlphaEquiv [] program program')
    (hdistinct : program.DistinctParams) (hdistinct' : program'.DistinctParams) :
    (∃ main main', program.toLambda = .ok main ∧ program'.toLambda = .ok main' ∧
      main.bare = main'.bare) ∨
    (∃ errors errors', program.toLambda = .error errors ∧ program'.toLambda = .error errors' ∧
      errors.map Diagnostic.reason = errors'.map Diagnostic.reason) := by
  have hempty : Scope.Agrees [] program.free .empty .empty := ⟨fun _ _ _ => rfl, fun _ _ _ hxy _ => hxy⟩
  have halike := program.resolve_alphaEquiv [] program' .empty .empty 0 0 none none h hempty rfl
  have hreasons : (program.resolve .empty 0 none).errors.map Diagnostic.reason =
      (program'.resolve .empty 0 none).errors.map Diagnostic.reason := by
    have hall : ∀ e : Expr, e.DistinctParams → otherReasons (e.resolve .empty 0 none).errors =
        (e.resolve .empty 0 none).errors.map Diagnostic.reason := by
      intro e he
      refine List.filter_eq_self.2 fun r hr => ?_
      obtain ⟨d, hd, rfl⟩ := List.mem_map.1 hr
      rw [e.distinctParams_iff.1 he d hd, Bool.not_false]
    rw [← hall program hdistinct, ← hall program' hdistinct', halike.errors]
  rw [program.toLambda_eq, program'.toLambda_eq]
  by_cases hnil : (program.resolve .empty 0 none).errors = []
  · have hnil' : (program'.resolve .empty 0 none).errors = [] := by
      rw [hnil] at hreasons
      exact List.map_eq_nil_iff.1 hreasons.symm
    refine .inl ⟨_, _, if_pos hnil, if_pos hnil', ?_⟩
    simp only [Lambda.bare, Expr.main, Signature.bare]
    rw [halike.value, halike.next]
  · have hnil' : (program'.resolve .empty 0 none).errors ≠ [] := by
      intro heq
      rw [heq] at hreasons
      exact hnil (List.map_eq_nil_iff.1 hreasons)
    exact .inr ⟨_, _, if_neg hnil, if_neg hnil', hreasons⟩

/-- `let pi = 2 in (p, k) -> let p = p + pi in q -> max(p, k(q))`: names that hide a constant
and a parameter. -/
def hidingConstant : Expr :=
  .letIn [⟨"pi", ⟨1, 5⟩, .lit (.num 2) ⟨1, 10⟩⟩]
    (.lambda [⟨"p", ⟨1, 16⟩⟩, ⟨"k", ⟨1, 19⟩⟩]
      (.letIn [⟨"p", ⟨1, 29⟩, .binary .add (.ident "p" ⟨1, 33⟩) (.ident "pi" ⟨1, 37⟩) ⟨1, 35⟩⟩]
        (.lambda [⟨"q", ⟨1, 43⟩⟩]
          (.call (.ident "max" ⟨1, 48⟩)
            [.ident "p" ⟨1, 52⟩, .call (.ident "k" ⟨1, 55⟩) [.ident "q" ⟨1, 57⟩] ⟨1, 56⟩] ⟨1, 51⟩)
          ⟨1, 43⟩)
        ⟨1, 25⟩)
      ⟨1, 15⟩)
    ⟨1, 1⟩

/-- `let two = 2 in (sqrt, length) -> let pi = sqrt + two in q -> max(pi, length(q))`: the same
program, with names that hide builtin functions. -/
def hidingBuiltins : Expr :=
  .letIn [⟨"two", ⟨1, 5⟩, .lit (.num 2) ⟨1, 11⟩⟩]
    (.lambda [⟨"sqrt", ⟨1, 17⟩⟩, ⟨"length", ⟨1, 23⟩⟩]
      (.letIn [⟨"pi", ⟨1, 38⟩, .binary .add (.ident "sqrt" ⟨1, 43⟩) (.ident "two" ⟨1, 50⟩) ⟨1, 48⟩⟩]
        (.lambda [⟨"q", ⟨1, 57⟩⟩]
          (.call (.ident "max" ⟨1, 62⟩)
            [.ident "pi" ⟨1, 66⟩, .call (.ident "length" ⟨1, 70⟩) [.ident "q" ⟨1, 77⟩] ⟨1, 76⟩] ⟨1, 65⟩)
          ⟨1, 57⟩)
        ⟨1, 34⟩)
      ⟨1, 16⟩)
    ⟨1, 1⟩

theorem Expr.toLambda_alphaEquiv_hiding :
    AlphaEquiv [] hidingConstant hidingBuiltins ∧ hidingConstant.DistinctParams ∧
      hidingBuiltins.DistinctParams ∧
      ∃ main main', hidingConstant.toLambda = .ok main ∧ hidingBuiltins.toLambda = .ok main' ∧
        main.bare = main'.bare := by
  have hequiv : AlphaEquiv [] hidingConstant hidingBuiltins := by
    refine .letIn (.cons .lit .nil) (.lambda rfl (.letIn (.cons (.binary (.ident ?_) (.ident ?_)) .nil)
      (.lambda rfl (.call (.ident ?_) (.cons (.ident ?_)
        (.cons (.call (.ident ?_) (.cons (.ident ?_) .nil)) .nil))))))
    all_goals decide
  have hdistinct : hidingConstant.DistinctParams := (Expr.distinctParams_iff _).2 fun _ hd => by cases hd
  have hdistinct' : hidingBuiltins.DistinctParams := (Expr.distinctParams_iff _).2 fun _ hd => by cases hd
  refine ⟨hequiv, hdistinct, hdistinct', ?_⟩
  refine (Expr.toLambda_alphaEquiv hequiv hdistinct hdistinct').resolve_right ?_
  rintro ⟨errors, -, herrors, -⟩
  cases herrors

end DistanceField
