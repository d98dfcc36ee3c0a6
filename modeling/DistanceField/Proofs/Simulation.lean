import DistanceField.Proofs.Denotation

/-!
# Compilation follows evaluation

An operation that compiles also evaluates, and its typed value denotes the value that
evaluation gives. Evaluation can fail only at an index that is out of range.

The two run side by side, though evaluation takes one branch of a condition where the
compiler takes both, and stops at an operand that decides `and` or `or`. So only the
slots in scope are related; those that are filled elsewhere are not read.

* `Frame.Follows`: a frame and the draft of the same body.
* `Operation.simulates`, `expandWithin_simulates`: operations and calls.
-/

namespace DistanceField

open Shader

/-! ## Frames and drafts -/

/-- **The frame follows the draft**: the slots in scope hold what the typed values in the
draft denote. -/
structure Frame.Follows (P : Store → Prop) (captured : List Value) (scope : List Nat) (d : Draft)
    (fr : Frame) : Prop where
  length : fr.slots.length = d.slots.length
  slots : ∀ i ∈ scope, ∀ t, d.slots.get? i = some t → ∃ v, fr.slots.get? i = some v ∧ Denotes P t v
  captured : fr.captured = captured

section

variable {P : Store → Prop} {captured : List Value} {scope : List Nat} {d d' : Draft} {fr : Frame}
  {expand : Expansion → EStateM (Failure EvalError) Emission Typed} {chain : Chain}
  (hgrows : ∀ x, Moves Emission.Grows (expand x))

include hgrows in
/-- A frame goes on following the draft while another operation is compiled. -/
theorem Frame.Follows.after {size captures : Nat} (h : fr.Follows P captured scope d) {op : Operation}
    {t : Typed} (hop : op.Scoped size captures scope)
    (hcompile : op.compileWith expand captured chain d = .ok t d') : fr.Follows P captured scope d' := by
  have hkeeps : Draft.Keeps scope d d' :=
    (compileWith_keeps fun _ hslot hmem => hop.not_mem_writes hmem hslot).ok hcompile
  have hlength := ((compileWith_grows hgrows op).ok hcompile).length
  refine ⟨h.length.trans hlength.symm, fun i hi u hu => ?_, h.captured⟩
  rw [hkeeps i hi] at hu
  exact h.slots i hi u hu

/-- Filling a slot in both. -/
theorem Frame.Follows.set (h : fr.Follows P captured scope d) {slot : Nat} {t : Typed} {v : Value}
    (hv : Denotes P t v) {slots : Slots Typed} (hset : d.slots.set? slot t = some slots) :
    ∃ fr', fr.set slot v = .ok fr' ∧
      fr'.Follows P captured (slot :: scope) { d with slots := slots } := by
  have hslot : slot < d.slots.length := by
    unfold Slots.set? at hset
    split at hset
    · assumption
    · cases hset
  obtain ⟨slots', hset'⟩ : ∃ s, fr.slots.set? slot v = some s :=
    ⟨_, if_pos (h.length ▸ hslot)⟩
  refine ⟨{ fr with slots := slots' }, by rw [Frame.set, hset'], ?_⟩
  refine ⟨?_, fun i hi u hu => ?_, h.captured⟩
  · exact (Slots.length_set? hset').trans (h.length.trans (Slots.length_set? hset).symm)
  · by_cases heq : slot = i
    · subst heq
      rw [Slots.get?_set?_self hset] at hu
      cases hu
      exact ⟨v, Slots.get?_set?_self hset', hv⟩
    · rw [Slots.get?_set?_of_ne hset heq] at hu
      obtain ⟨w, hw, hden⟩ := h.slots i ((List.mem_cons.1 hi).resolve_left (Ne.symm heq)) u hu
      exact ⟨w, (Slots.get?_set?_of_ne hset' heq).trans hw, hden⟩

end

/-! ## Values that are known -/

/-- What is known before the code runs is what evaluation finds. -/
theorem Operation.evalWith_of_known? {apply : Call → Except (Failure EvalError) Value} {fr : Frame}
    {op : Operation} {v : Value} (h : op.known? fr.captured = some v) (origin : Origin) :
    op.evalWith apply fr origin = .ok v := by
  induction op generalizing v origin with
  | const value pos => cases h; rfl
  | load ref pos =>
    cases ref with
    | slot i => cases h
    | captured i =>
      have hget : fr.get? (.captured i) = some v := h
      rw [Operation.evalWith, hget]
  | field target name pos ih =>
    rw [Operation.known?] at h
    split at h
    · next fields hknown =>
      rw [Operation.evalWith, ih hknown, Except.ok_bind, Value.field, h]
      rfl
    · cases h
  | _ => cases h

/-- A value that is known is a literal, a captured value, or a field of such a record. -/
theorem Operation.known?_induction {P : Value → Prop} {captured : List Value}
    (literal : ∀ l, P (.ofLiteral l)) (hcaptured : ∀ v ∈ captured, P v)
    (field : ∀ fields, P (.record fields) → ∀ f ∈ fields, P f.2) {op : Operation} {v : Value}
    (h : op.known? captured = some v) : P v := by
  induction op generalizing v with
  | const value pos => cases h; exact literal value
  | load ref pos =>
    cases ref with
    | slot i => cases h
    | captured i => exact hcaptured v (List.mem_of_getElem? h)
  | field target name pos ih =>
    rw [Operation.known?] at h
    split at h
    · next fields hknown => exact field fields (ih hknown) _ (Fields.mem_of_get? h)
    · cases h
  | _ => cases h

theorem Operation.known?_wellScoped {captured : List Value} (hcaptured : ∀ v ∈ captured, v.WellScoped)
    {op : Operation} {v : Value} (h : op.known? captured = some v) : v.WellScoped := by
  refine Operation.known?_induction Value.ofLiteral_wellScoped hcaptured (fun fields hrecord f hf => ?_) h
  cases hrecord with
  | record hfields => exact hfields f hf

/-! ## Operations -/

/-- Calls of well-scoped closures agree: where the expansion of one compiles, its
evaluation gives what the expansion denotes. -/
def CallsAgree (P : Store → Prop) (L : List Statement)
    (expand : Expansion → EStateM (Failure EvalError) Emission Typed)
    (apply : Call → Except (Failure EvalError) Value) : Prop :=
  ∀ (x : Expansion) (c : Call) e t e', expand x e = .ok t e' → e'.statements ⊆ L →
    c.callee = x.callee → x.callee.WellScoped → List.Forall₂ (Denotes P) x.args c.args →
    Ends (IndexFailure P L) (Denotes P t) (apply c)

section

variable (P : Store → Prop) (L : List Statement)
  (expand : Expansion → EStateM (Failure EvalError) Emission Typed)
  (apply : Call → Except (Failure EvalError) Value) (captured : List Value) (chain : Chain)
  (size captures : Nat)

/-- The evaluation of an operation agrees with its compilation. -/
def Simulates (op : Operation) : Prop :=
  ∀ scope d t d' fr origin, op.compileWith expand captured chain d = .ok t d' →
    d'.emission.statements ⊆ L → op.Scoped size captures scope → fr.Follows P captured scope d →
    Ends (IndexFailure P L) (Denotes P t) (op.evalWith apply fr origin)

variable {P L expand apply captured chain size captures}
  (hgrows : ∀ x, Moves Emission.Grows (expand x))

include hgrows in
theorem compileAll_simulates {ops : List Operation}
    (hops : ∀ op ∈ ops, Simulates P L expand apply captured chain size captures op)
    {scope : List Nat} {d d' : Draft} {ts : List Typed} {fr : Frame}
    (h : compileAll expand captured chain ops d = .ok ts d') (hL : d'.emission.statements ⊆ L)
    (hscoped : ScopedAll size captures scope ops) (hfr : fr.Follows P captured scope d)
    (origin : Origin) (n : Nat) :
    Ends (IndexFailure P L) (fun vs => List.Forall₂ (Denotes P) ts vs) (evalAll apply fr origin n ops) := by
  induction ops generalizing d ts n with
  | nil =>
    obtain ⟨rfl, -⟩ := compileAll_nil_ok.1 h
    exact .nil
  | cons op ops ih =>
    obtain ⟨t, d₁, ts, ht, hts, rfl⟩ := compileAll_cons_ok h
    have hgrow : d₁.Grows d' := (compileAll_moves Draft.Grows.refl Draft.Grows.trans
      fun o _ => compileWith_grows hgrows o).ok hts
    unfold evalAll
    refine (hops op List.mem_cons_self scope d t d₁ fr _ ht
      (hgrow.within hL) hscoped.1 hfr).bind fun v hv => ?_
    refine (ih (fun o ho => hops o (List.mem_cons_of_mem _ ho)) hts hscoped.2
      (hfr.after hgrows hscoped.1 ht) _).bind fun vs hvs => ?_
    exact .cons hv hvs

include hgrows in
theorem compileParts_simulates {ops : List Operation}
    (hops : ∀ op ∈ ops, Simulates P L expand apply captured chain size captures op)
    {scope : List Nat} {d d' : Draft} {codes : List Code} {fr : Frame}
    (h : compileParts expand captured chain ops d = .ok codes d') (hL : d'.emission.statements ⊆ L)
    (hscoped : ScopedAll size captures scope ops) (hfr : fr.Follows P captured scope d)
    (origin : Origin) (n : Nat) :
    codes.length = ops.length ∧
      Ends (IndexFailure P L) (fun vs => List.Forall₂ (fun c v => Denotes P ⟨.float, c⟩ v) codes vs)
        (evalAll apply fr origin n ops) := by
  induction ops generalizing d codes n with
  | nil =>
    obtain ⟨rfl, -⟩ := compileParts_nil_ok.1 h
    exact ⟨rfl, .nil⟩
  | cons op ops ih =>
    obtain ⟨t, d₁, codes, ht, hty, hcodes, rfl⟩ := compileParts_cons_ok h
    have hgrow : d₁.Grows d' := (compileParts_moves Draft.Grows.refl Draft.Grows.trans
      fun o _ => compileWith_grows hgrows o).ok hcodes
    have hhead := hops op List.mem_cons_self scope d t d₁ fr (n :: origin) ht
      (hgrow.within hL) hscoped.1 hfr
    obtain ⟨hlen, htail⟩ := ih (fun o ho => hops o (List.mem_cons_of_mem _ ho)) hcodes hscoped.2
      (hfr.after hgrows hscoped.1 ht) (n + 1)
    refine ⟨congrArg Nat.succ hlen, ?_⟩
    unfold evalAll
    refine hhead.bind fun v hv => htail.bind fun vs hvs => ?_
    obtain ⟨ty, code⟩ := t
    cases hty
    exact .cons hv hvs

include hgrows in
theorem compileBindings_simulates {bs : List (Nat × Operation)}
    (hops : ∀ b ∈ bs, Simulates P L expand apply captured chain size captures b.2)
    {scope : List Nat} {d d' : Draft} {u : Unit} {fr : Frame}
    (h : compileBindings expand captured chain bs d = .ok u d') (hL : d'.emission.statements ⊆ L)
    (hscoped : ScopedBindings size captures scope bs) (hfr : fr.Follows P captured scope d)
    (origin : Origin) (n : Nat) :
    Ends (IndexFailure P L) (Frame.Follows P captured (scopeAfter scope bs) d')
      (evalBindings apply fr origin n bs) := by
  induction bs generalizing scope d fr n with
  | nil =>
    obtain rfl := compileBindings_nil_ok.1 h
    exact hfr
  | cons b bs ih =>
    obtain ⟨slot, op⟩ := b
    obtain ⟨hvalue, -, -, hrest⟩ := hscoped
    obtain ⟨t, d₁, slots, ht, hset, hbs⟩ := compileBindings_cons_ok h
    have hgrow : Draft.Grows { d₁ with slots := slots } d' :=
      (compileBindings_moves Draft.Grows.refl Draft.Grows.trans
        (fun b _ => compileWith_grows hgrows b.2) fun slot _ v => Compile.setSlot_grows slot v).ok hbs
    unfold evalBindings
    refine (hops (slot, op) List.mem_cons_self scope d t d₁ fr _ ht
      (hgrow.within hL) hvalue hfr).bind fun v hv => ?_
    obtain ⟨fr', hfr', hfollows⟩ := (hfr.after hgrows hvalue ht).set hv hset
    rw [hfr', Except.ok_bind]
    exact ih (fun o ho => hops o (List.mem_cons_of_mem _ ho)) hbs hrest hfollows _

variable (hP : ∀ σ, P σ → σ.Solves L) (hcalls : CallsAgree P L expand apply)
  (hcaptured : ∀ v ∈ captured, v.WellScoped)

include hgrows hP in
/-- Evaluation may stop at an operand that decides; the compiled operator has both. -/
theorem Simulates.binary {left right : Operation}
    (ihl : Simulates P L expand apply captured chain size captures left)
    (ihr : Simulates P L expand apply captured chain size captures right) (op : BinaryOp) (pos : Pos) :
    Simulates P L expand apply captured chain size captures (.binary op left right pos) := by
  intro scope d t d' fr origin h hL hscoped hfr
  obtain ⟨l, d₁, hl, r, d₂, hr, hb⟩ := Operation.compile_binary_ok.1 h
  have hgrow₂ : d₂.Grows d' := (Compile.binary_moves Draft.Grows.refl Draft.Grows.trans
    Compile.emit_grows pos op l r).ok hb
  have hL₂ := hgrow₂.within hL
  have hL₁ := ((compileWith_grows hgrows right).ok hr).within hL₂
  have hright : Ends (IndexFailure P L) (Denotes P r) (right.evalWith apply fr (1 :: origin)) :=
    ihr scope d₁ r d₂ fr _ hr hL₂ hscoped.2 (hfr.after hgrows hscoped.1 hl)
  unfold Operation.evalWith
  refine (ihl scope d l d₁ fr _ hl hL₁ hscoped.1 hfr).bind fun v hv => ?_
  split
  · next b hop =>
    -- both operands are booleans, and the first may decide
    obtain ⟨ty, hty, -⟩ := Compile.binary_eq_ok hb
    obtain ⟨hlt, hrt, -, -⟩ := BinaryOp.typing_of_decisive? hop hty
    obtain ⟨c, rfl⟩ := (hlt ▸ hv.hasTy : v.HasTy .bool).eq_bool
    simp only [Value.condition, Frame.locate, Except.ok_bind]
    split
    · next heq =>
      subst heq
      exact Compile.decided_denotes hP hop hv hb hL
    · next hne =>
      refine hright.bind fun w hw => ?_
      obtain ⟨e, rfl⟩ := (hrt ▸ hw.hasTy : w.HasTy .bool).eq_bool
      have hboth : Ends (IndexFailure P L) (Denotes P t) (fr.locate pos (op.apply (.bool c) (.bool e))) :=
        Compile.binary_denotes hP hv hw hb hL
      rw [BinaryOp.apply_not_decisive hop hne e] at hboth
      exact hboth
  · exact hright.bind fun w hw => Compile.binary_denotes hP hv hw hb hL

include hgrows hP in
/-- Evaluation takes one branch; the compiled choice has both, unless the condition is a
literal. -/
theorem Simulates.cond {condition yes no : Operation}
    (ihc : Simulates P L expand apply captured chain size captures condition)
    (iha : Simulates P L expand apply captured chain size captures yes)
    (ihb : Simulates P L expand apply captured chain size captures no) (pos : Pos) :
    Simulates P L expand apply captured chain size captures (.cond condition yes no pos) := by
  intro scope d t d' fr origin h hL hscoped hfr
  obtain ⟨c, d₁, hc, hty, hcases⟩ := Operation.compile_cond_ok h
  have hfr₁ := hfr.after hgrows hscoped.1 hc
  unfold Operation.evalWith
  rcases hcases with ⟨b, hcode, hbranch⟩ | ⟨a, d₂, b, d₃, ha, hb, heq, hemit⟩
  · -- the condition is a literal, and so evaluation takes the compiled branch
    have hL₁ := ((compileWith_grows hgrows _).ok hbranch).within hL
    refine (ihc scope d c d₁ fr _ hc hL₁ hscoped.1 hfr).bind fun v hv => ?_
    obtain rfl := hv.eq_of_code_bool hcode
    simp only [Value.condition, Frame.locate, Except.ok_bind]
    cases b with
    | true => exact iha scope d₁ t d' fr _ hbranch hL hscoped.2.1 hfr₁
    | false => exact ihb scope d₁ t d' fr _ hbranch hL hscoped.2.2 hfr₁
  · have hL₃ := ((Compile.emit_grows _ _).ok hemit).within hL
    have hL₂ := ((compileWith_grows hgrows no).ok hb).within hL₃
    have hL₁ := ((compileWith_grows hgrows yes).ok ha).within hL₂
    refine (ihc scope d c d₁ fr _ hc hL₁ hscoped.1 hfr).bind fun v hv => ?_
    obtain ⟨test, rfl⟩ := (hty ▸ hv.hasTy : v.HasTy .bool).eq_bool
    simp only [Value.condition, Frame.locate, Except.ok_bind]
    cases test with
    | true =>
      refine (iha scope d₁ a d₂ fr _ ha hL₂ hscoped.2.1 hfr₁).mono fun w hw => ?_
      exact Compile.select_denotes hP hv hw heq hemit hL
    | false =>
      have hfr₂ := hfr₁.after hgrows hscoped.2.1 ha
      refine (ihb scope d₂ b d₃ fr _ hb hL₃ hscoped.2.2 hfr₂).mono fun w hw => ?_
      exact Compile.select_denotes hP hv hw heq hemit hL

include hgrows hP hcalls hcaptured in
/-- **Evaluation agrees with compilation**, if it does at calls. -/
theorem Operation.simulates (op : Operation) :
    Simulates P L expand apply captured chain size captures op := by
  induction op with
  | const value pos =>
    intro scope d t d' fr origin h hL hscoped hfr
    rw [Operation.compileWith, Compile.literal_eq_ok] at h
    exact Denotes.of_literal h.1
  | load ref pos =>
    intro scope d t d' fr origin h hL hscoped hfr
    unfold Operation.evalWith
    cases ref with
    | slot i =>
      obtain ⟨hslot, -⟩ := Operation.compile_slot_ok h
      obtain ⟨v, hv, hden⟩ := hfr.slots i hscoped t hslot
      rw [Frame.get?, hv]
      exact hden
    | captured i =>
      obtain ⟨v, hv, hlit, -⟩ := Operation.compile_captured_ok h
      rw [Frame.get?, hfr.captured, hv]
      exact Denotes.of_literal hlit
  | lambda signature body ih =>
    intro scope d t d' fr origin h
    exact (Operation.compile_lambda_ok.1 h).elim
  | call callee args pos ihf ih =>
    intro scope d t d' fr origin h hL hscoped hfr
    obtain ⟨f, ts, d₁, hknown, hts, hcall⟩ := Operation.compile_call_ok h
    obtain ⟨e, hx, rfl⟩ := Compile.call_eq_ok.1 hcall
    -- the compiler knows the closure beforehand, and evaluation finds the same one
    have hf : f.WellScoped := Operation.known?_wellScoped hcaptured hknown
    have hcallee : callee.evalWith apply fr (0 :: origin) = .ok f.toValue :=
      Operation.evalWith_of_known? (hfr.captured.symm ▸ hknown) _
    have hsub := ((hgrows _).ok hx).within hL
    rw [Operation.evalWith, hcallee, Except.ok_bind]
    refine (compileAll_simulates hgrows ih hts hsub hscoped.2 hfr origin 1).bind fun vs hvs => ?_
    exact hcalls _ _ _ _ _ hx hL rfl hf hvs
  | builtin b args pos ih =>
    intro scope d t d' fr origin h hL hscoped hfr
    obtain ⟨ts, d₁, hts, hb⟩ := Operation.compile_builtin_ok.1 h
    have hgrow : d₁.Grows d' := (Compile.builtin_moves Draft.Grows.refl Draft.Grows.trans
      Compile.emit_grows pos b ts).ok hb
    unfold Operation.evalWith
    refine (compileAll_simulates hgrows ih hts (hgrow.within hL) hscoped hfr
      origin 0).bind fun vs hvs => ?_
    exact Compile.builtin_denotes hP hvs hb hL
  | unary op operand pos ih =>
    intro scope d t d' fr origin h hL hscoped hfr
    obtain ⟨u, d₁, ty, hu, hty, hemit⟩ := Operation.compile_unary_ok h
    have hgrow := (Compile.emit_grows _ _).ok hemit
    unfold Operation.evalWith
    refine (ih scope d u d₁ fr _ hu (hgrow.within hL) hscoped hfr).bind fun v hv => ?_
    exact Compile.unary_denotes hP hv hty hemit hL
  | binary op left right pos ihl ihr => exact ihl.binary hgrows hP ihr op pos
  | cond condition yes no pos ihc iha ihb => exact ihc.cond hgrows hP iha ihb pos
  | letIn bindings body pos ihs ih =>
    intro scope d t d' fr origin h hL hscoped hfr
    obtain ⟨u, d₁, hbs, hbody⟩ := Operation.compile_letIn_ok.1 h
    have hL₁ := ((compileWith_grows hgrows body).ok hbody).within hL
    unfold Operation.evalWith
    refine (compileBindings_simulates hgrows ihs hbs hL₁ hscoped.1 hfr origin 1).bind
      fun inner hinner => ?_
    exact ih _ d₁ t d' inner _ hbody hL hscoped.2 hinner
  | list items pos ih =>
    intro scope d t d' fr origin h hL hscoped hfr
    obtain ⟨ty, codes, d₁, hty, hcodes, hvec⟩ := Operation.compile_list_ok h
    have hgrow : d₁.Grows d' := (Compile.vector_moves Draft.Grows.refl Compile.emit_grows ty codes).ok hvec
    obtain ⟨hlen, hends⟩ := compileParts_simulates hgrows ih hcodes (hgrow.within hL)
      hscoped hfr origin 0
    unfold Operation.evalWith
    refine hends.bind fun vs hvs => ?_
    exact Compile.vector_denotes hP hvs (hlen ▸ hty) hvec hL
  | record fields pos ih =>
    intro scope d t d' fr origin h
    exact (Operation.compile_record_ok.1 h).elim
  | field target name pos ih =>
    intro scope d t d' fr origin h hL hscoped hfr
    rcases Operation.compile_field_ok h with ⟨v, hknown, hlit, -⟩ | ⟨u, d₁, hu, hcomp⟩
    · rw [Operation.evalWith_of_known? (hfr.captured.symm ▸ hknown)]
      exact Denotes.of_literal hlit
    · have hgrow : d₁.Grows d' :=
        (Compile.component_moves Draft.Grows.refl Compile.emit_grows pos u name).ok hcomp
      unfold Operation.evalWith
      refine (ih scope d u d₁ fr _ hu (hgrow.within hL) hscoped hfr).bind fun v hv => ?_
      exact Compile.component_denotes hP hv hcomp hL
  | index target index pos iht ihi =>
    intro scope d t d' fr origin h hL hscoped hfr
    obtain ⟨u, d₁, hu, i, d₂, hi, helem⟩ := Operation.compile_index_ok.1 h
    have hgrow₂ : d₂.Grows d' :=
      (Compile.element_moves Draft.Grows.refl Compile.emit_grows pos u i).ok helem
    have hL₂ := hgrow₂.within hL
    have hL₁ := ((compileWith_grows hgrows index).ok hi).within hL₂
    unfold Operation.evalWith
    refine (iht scope d u d₁ fr _ hu hL₁ hscoped.1 hfr).bind fun v hv => ?_
    refine (ihi scope d₁ i d₂ fr _ hi hL₂ hscoped.2 (hfr.after hgrows hscoped.1 hu)).bind
      fun w hw => ?_
    exact Compile.element_denotes hP hv hw helem hL

/-! ## Calls -/

/-- The frame of a call holds arguments that agree. -/
theorem Frame.enter_follows {f : Closure} {ts : List Typed} {vs : List Value}
    (hvs : List.Forall₂ (Denotes P) ts vs) {slots : Slots Typed}
    (hslots : Slots.ofArgs? f.slots ts = some slots) (e : Emission) (site : Chain) :
    ∃ fr, Frame.enter f vs site = .ok fr ∧ fr.Follows P f.captured (List.range f.arity) ⟨slots, e⟩ := by
  have hlen := hvs.length_eq
  have hfits : ts.length ≤ f.slots := by
    unfold Slots.ofArgs? at hslots
    split at hslots
    · assumption
    · cases hslots
  obtain ⟨slots', hslots'⟩ : ∃ s, Slots.ofArgs? f.slots vs = some s := ⟨_, if_pos (hlen ▸ hfits)⟩
  refine ⟨⟨slots', f.captured, site⟩, by rw [Frame.enter, hslots'], ?_, fun i _ u hu => ?_, rfl⟩
  · exact (Slots.length_ofArgs? hslots').trans (Slots.length_ofArgs? hslots).symm
  · rw [Slots.get?_ofArgs? hslots] at hu
    obtain ⟨v, hv, hden⟩ := exists_of_rel_some (getElem?_rel hvs i) hu
    exact ⟨v, (Slots.get?_ofArgs? hslots' i).trans hv, hden⟩

include hgrows hP hcalls in
/-- The body of a closure agrees in frames that hold arguments which agree. -/
theorem Closure.enterWith_simulates {f : Closure} (hf : f.WellScoped) {ts : List Typed}
    {vs : List Value} (hvs : List.Forall₂ (Denotes P) ts vs) {slots : Slots Typed}
    (hslots : Slots.ofArgs? f.slots ts = some slots) {e : Emission} {t : Typed} {d' : Draft}
    (h : f.body.compileWith expand f.captured chain ⟨slots, e⟩ = .ok t d')
    (hL : d'.emission.statements ⊆ L) (site : Chain) (origin : Origin) :
    Ends (IndexFailure P L) (Denotes P t) (f.enterWith apply site origin vs) := by
  obtain ⟨fr, hfr, hfollows⟩ := Frame.enter_follows hvs hslots e site
  cases hf with
  | function hcode hcount hcaptured =>
    rw [Closure.enterWith, hfr, Except.ok_bind]
    exact Operation.simulates hgrows hP hcalls hcaptured f.body _ _ _ _ _ origin h hL hcode.2 hfollows

end

/-- **Calls agree.** Evaluation needs no more nested calls than the expansion does. -/
theorem expandWithin_simulates {P : Store → Prop} {L : List Statement}
    (hP : ∀ σ, P σ → σ.Solves L) {limit limit' : Nat} (budget budget' : Nat) (hle : budget ≤ budget') :
    CallsAgree P L (Expansion.enterWith (expandWithin limit budget)) (applyWithin limit' budget') := by
  induction budget generalizing budget' with
  | zero =>
    intro x c e t e' hx
    obtain ⟨-, slots, d, -, hbody, -⟩ := Expansion.enterWith_eq_ok hx
    obtain ⟨-, -, rest, hrest, -⟩ := expandWithin_eq_ok hbody
    omega
  | succ budget ih =>
    intro x c e t e' hx hL hcallee hf hargs
    obtain ⟨harity, slots, d, hslots, hbody, rfl⟩ := Expansion.enterWith_eq_ok hx
    obtain ⟨-, -, rest, hrest, hbody⟩ := expandWithin_eq_ok hbody
    obtain rfl : budget = rest := by omega
    obtain ⟨budget', rfl⟩ : ∃ n, budget' = n + 1 := ⟨budget' - 1, by omega⟩
    have hlen : c.args.length = c.callee.arity := by
      rw [hcallee, ← harity, hargs.length_eq]
    unfold applyWithin
    rw [if_neg (by simpa using hlen), hcallee]
    exact Closure.enterWith_simulates (Expansion.enterWith_grows (expandWithin_grows limit budget)) hP
      (ih budget' (by omega)) hf hargs hslots hbody hL _ _

end DistanceField
