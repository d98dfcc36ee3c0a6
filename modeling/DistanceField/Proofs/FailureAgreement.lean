import DistanceField.Proofs.Branchless

/-!
# Where the two ways to run a shape fail

Evaluation and a fragment can fail only at an index that is computed. There they differ in
two ways. Evaluation accepts a place only if it is a whole number, while the fragment drops
the fraction. And the fragment computes what evaluation leaves out: both branches of a
condition, and the second operand of `and` and `or`.

* `Code.InRange`, `Code.IndexWhole`: an index that evaluation accepts, and one that is whole.
* `Emission.Adds`: the statement that is added next to given ones.
* `RangeChecked`: an index in the code of an operation is one that its evaluation made.
* `Shape.distance_isOk_iff`: where evaluation succeeds, and where the fragment does.
-/

namespace DistanceField

open Shader

/-! ## Indices -/

/-- The place of an index in the code is a whole number. -/
def Shader.Code.IndexWhole (σ : Store) : Code → Prop
  | .index _ place => ∃ n, place.eval σ = .ok (.num n) ∧ Scalar.isWhole n = true
  | _ => True

/-- An index that evaluation accepts is whole, and the code finds the same element. -/
theorem Value.index_eq_ok {v i w : Value} (h : v.index i = .ok w) :
    ∃ n, i = .num n ∧ Scalar.isWhole n = true ∧ elementAtNumber v n = .ok w := by
  unfold Value.index at h
  split at h
  · next items =>
    split at h
    · next n =>
      split at h
      · next u hu =>
        cases h
        obtain ⟨k, hk, hget⟩ := Option.bind_eq_some_iff.1 hu
        unfold Scalar.index? at hk
        split at hk
        · next hwhole =>
          have hposition := (Option.filter_eq_some_iff.1 hk).1
          refine ⟨n, rfl, hwhole, ?_⟩
          simp only [elementAtNumber, Scalar.truncate_of_isWhole hwhole, hposition, Option.bind_some, hget]
        · cases hk
      · cases h
    · cases h
  · cases h

/-- Truncation leaves a whole place as it is, so evaluation accepts it too. -/
theorem Value.index_of_isWhole {v w : Value} {n : Float} (hwhole : Scalar.isWhole n = true)
    (h : elementAtNumber v n = .ok w) : v.index (.num n) = .ok w := by
  unfold elementAtNumber at h
  split at h
  · next items =>
    rw [Scalar.truncate_of_isWhole hwhole] at h
    dsimp only at h
    split at h
    · next u hu =>
      cases h
      obtain ⟨k, hk, hget⟩ := Option.bind_eq_some_iff.1 hu
      have hlt : k < items.length := (List.getElem?_eq_some_iff.1 hget).1
      have hindex : Scalar.index? n items.length = some k := by
        rw [Scalar.index?, if_pos hwhole, hk]
        simp [hlt]
      simp only [Value.index, hindex, Option.bind_some, hget]
    · split at h <;> cases h
  · cases h

namespace Shader.Code

variable {σ : Store} {c : Code}

theorem InRange.indexWhole (h : c.InRange σ) : c.IndexWhole σ := by
  cases c with
  | index target place =>
    obtain ⟨v, i, w, -, hi, hw⟩ := h
    obtain ⟨n, rfl, hwhole, -⟩ := Value.index_eq_ok hw
    exact ⟨n, hi, hwhole⟩
  | _ => trivial

theorem InRange.eval_isOk (h : c.InRange σ) (hindex : c.isIndex = true) : ∃ v, c.eval σ = .ok v := by
  cases c with
  | index target place =>
    obtain ⟨v, i, w, hv, hi, hw⟩ := h
    obtain ⟨n, rfl, -, helem⟩ := Value.index_eq_ok hw
    refine ⟨w, ?_⟩
    rw [Code.eval, hi, Except.ok_bind]
    simp only [Value.num?, hv, Except.ok_bind, helem]
  | _ => cases hindex

theorem IndexWhole.inRange (h : c.IndexWhole σ) {w : Value} (heval : c.eval σ = .ok w) : c.InRange σ := by
  cases c with
  | index target place =>
    obtain ⟨n, hn, hwhole⟩ := h
    rw [Code.eval, hn, Except.ok_bind] at heval
    obtain ⟨v, hv, helem⟩ := Except.bind_eq_ok.1 heval
    exact ⟨v, .num n, w, hv, hn, Value.index_of_isWhole hwhole helem⟩
  | _ => trivial

end Shader.Code

/-! ## The statement that is added -/

namespace Shader.Emission

/-- **The statement is the one added to `pre`**, between two emissions. -/
structure Adds (pre : List Statement) (st : Statement) (e e' : Emission) : Prop where
  before : e.statements <+: pre
  after : pre ++ [st] <+: e'.statements

variable {pre : List Statement} {st : Statement} {e e₁ e' : Emission}

theorem Grows.isPrefix (h : e.Grows e') : e.statements <+: e'.statements := by
  obtain ⟨new, hnew, -, -⟩ := h
  exact ⟨new, hnew.symm⟩

theorem not_adds_self : ¬ Adds pre st e e := by
  intro h
  have hlen := (h.after.trans h.before).length_le
  rw [List.length_append, List.length_singleton] at hlen
  omega

/-- The statement is added by the first of two steps or by the second. -/
theorem Adds.split (h : Adds pre st e e') (hgrows : e₁.Grows e') :
    Adds pre st e e₁ ∨ Adds pre st e₁ e' := by
  rcases List.prefix_or_prefix_of_prefix h.after hgrows.isPrefix with hpre | hpre
  · exact .inl ⟨h.before, hpre⟩
  · rcases List.prefix_concat_iff.1 hpre with heq | hpre
    · exact .inl ⟨h.before, heq ▸ List.prefix_refl _⟩
    · exact .inr ⟨hpre, h.after⟩

end Shader.Emission

open Shader.Emission (Adds not_adds_self)

section

variable {pre : List Statement} {st : Statement} {d d' : Draft} {t : Typed}

/-- The statement that is emitted is the one that is added. -/
theorem Compile.emit_adds {ty : Ty} {code : Code} (h : Compile.emit ty code d = .ok t d')
    (hadds : Adds pre st d.emission d'.emission) : st.code = code := by
  obtain ⟨-, rfl⟩ := Compile.emit_eq_ok.1 h
  have hafter : pre ++ [st] <+: d.emission.statements ++ [⟨Emission.nameOf d.emission.nextName, ty, code⟩] :=
    hadds.after
  have hlen := hadds.before.length_le
  have heq := hafter.eq_of_length_le (by simp only [List.length_append, List.length_singleton]; omega)
  rw [(List.append_singleton_inj.1 heq).2]

theorem Compile.emit_inRange {ty : Ty} {code : Code} (h : Compile.emit ty code d = .ok t d')
    (hadds : Adds pre st d.emission d'.emission) (hcode : code.isIndex = false) (σ : Store) :
    st.code.InRange σ := by
  rw [Compile.emit_adds h hadds]
  cases code with
  | index target place => cases hcode
  | _ => trivial

end

/-! ## Operations -/

section

variable (P : Store → Prop) (pre : List Statement) (st : Statement)
  (expand : Expansion → EStateM (Failure EvalError) Emission Typed)
  (apply : Call → Except (Failure EvalError) Value) (captured : List Value) (chain : Chain)
  (size captures : Nat)

/-- **The evaluation of an operation checks its indices.** If it has no branches and
evaluation succeeds, then the next statement in its code is no index out of range. -/
def RangeChecked (op : Operation) : Prop :=
  ∀ scope d t d' fr origin v, op.compileWith expand captured chain d = .ok t d' →
    Adds pre st d.emission d'.emission → op.Scoped size captures scope →
    fr.Follows P captured scope d → op.branchless = true →
    (∀ g ∈ op.callees captured, g.Branchless) → op.evalWith apply fr origin = .ok v →
    ∀ σ, P σ → st.code.InRange σ

/-- So does a call. -/
def CallsRangeChecked : Prop :=
  ∀ (x : Expansion) (c : Call) e t e' v, expand x e = .ok t e' → Adds pre st e e' →
    c.callee = x.callee → x.callee.WellScoped → x.callee.Branchless →
    List.Forall₂ (Denotes P) x.args c.args → apply c = .ok v → ∀ σ, P σ → st.code.InRange σ

variable {P pre st expand apply captured chain size captures}
  (hgrows : ∀ x, Moves Emission.Grows (expand x))

include hgrows in
theorem compileAll_rangeChecked {ops : List Operation}
    (hops : ∀ op ∈ ops, RangeChecked P pre st expand apply captured chain size captures op)
    {scope : List Nat} {d d' : Draft} {ts : List Typed} {fr : Frame} {origin : Origin} {n : Nat}
    {vs : List Value} (h : compileAll expand captured chain ops d = .ok ts d')
    (hadds : Adds pre st d.emission d'.emission) (hscoped : ScopedAll size captures scope ops)
    (hfr : fr.Follows P captured scope d) (hbranchless : ∀ op ∈ ops, op.branchless = true)
    (hcallees : ∀ op ∈ ops, ∀ g ∈ op.callees captured, g.Branchless)
    (heval : evalAll apply fr origin n ops = .ok vs) {σ : Store} (hσ : P σ) : st.code.InRange σ := by
  induction ops generalizing d ts n vs with
  | nil =>
    obtain ⟨-, rfl⟩ := compileAll_nil_ok.1 h
    exact absurd hadds not_adds_self
  | cons op ops ih =>
    obtain ⟨t, d₁, ts, ht, hts, rfl⟩ := compileAll_cons_ok h
    have hgrow : d₁.Grows d' := (compileAll_moves Draft.Grows.refl Draft.Grows.trans
      fun o _ => compileWith_grows hgrows o).ok hts
    rw [evalAll] at heval
    obtain ⟨v, hv, heval⟩ := Except.bind_eq_ok.1 heval
    obtain ⟨ws, hws, -⟩ := Except.bind_eq_ok.1 heval
    rcases hadds.split hgrow.emission with hadds | hadds
    · exact hops op List.mem_cons_self scope d t d₁ fr _ v ht hadds hscoped.1 hfr
        (hbranchless op List.mem_cons_self) (hcallees op List.mem_cons_self) hv σ hσ
    · exact ih (fun o ho => hops o (List.mem_cons_of_mem _ ho)) hts hadds hscoped.2
        (hfr.after hgrows hscoped.1 ht) (fun o ho => hbranchless o (List.mem_cons_of_mem _ ho))
        (fun o ho => hcallees o (List.mem_cons_of_mem _ ho)) hws

variable (hP : ∀ σ, P σ → σ.Solves pre) (hcalls : CallsAgree P pre expand apply)
  (hcaptured : ∀ v ∈ captured, v.WellScoped)

include hgrows hP hcalls hcaptured in
theorem compileBindings_rangeChecked {bs : List (Nat × Operation)}
    (hops : ∀ b ∈ bs, RangeChecked P pre st expand apply captured chain size captures b.2)
    {scope : List Nat} {d d' : Draft} {u : Unit} {fr inner : Frame} {origin : Origin} {n : Nat}
    (h : compileBindings expand captured chain bs d = .ok u d')
    (hadds : Adds pre st d.emission d'.emission) (hscoped : ScopedBindings size captures scope bs)
    (hfr : fr.Follows P captured scope d) (hbranchless : ∀ b ∈ bs, b.2.branchless = true)
    (hcallees : ∀ b ∈ bs, ∀ g ∈ b.2.callees captured, g.Branchless)
    (heval : evalBindings apply fr origin n bs = .ok inner) {σ : Store} (hσ : P σ) :
    st.code.InRange σ := by
  induction bs generalizing scope d fr n with
  | nil =>
    obtain rfl := compileBindings_nil_ok.1 h
    exact absurd hadds not_adds_self
  | cons b bs ih =>
    obtain ⟨slot, op⟩ := b
    obtain ⟨hvalue, -, -, hrest⟩ := hscoped
    obtain ⟨t, d₁, slots, ht, hset, hbs⟩ := compileBindings_cons_ok h
    have hgrow : Draft.Grows { d₁ with slots := slots } d' :=
      (compileBindings_moves Draft.Grows.refl Draft.Grows.trans
        (fun b _ => compileWith_grows hgrows b.2) fun slot _ v => Compile.setSlot_grows slot v).ok hbs
    rw [evalBindings] at heval
    obtain ⟨v, hv, heval⟩ := Except.bind_eq_ok.1 heval
    obtain ⟨fr', hfr', heval⟩ := Except.bind_eq_ok.1 heval
    rcases hadds.split hgrow.emission with hadds | hadds
    · exact hops (slot, op) List.mem_cons_self scope d t d₁ fr _ v ht hadds hvalue hfr
        (hbranchless _ List.mem_cons_self) (hcallees _ List.mem_cons_self) hv σ hσ
    · -- the value is compiled before the statement, so it denotes what evaluation binds
      have hden : Denotes P t v := (Operation.simulates hgrows hP hcalls hcaptured op scope d t d₁ fr _
        ht hadds.before.subset hvalue hfr).of_eq_ok hv
      obtain ⟨fr₁, hfr₁, hfollows⟩ := (hfr.after hgrows hvalue ht).set hden hset
      rw [hfr'] at hfr₁
      cases hfr₁
      exact ih (fun o ho => hops o (List.mem_cons_of_mem _ ho)) hbs hadds hrest hfollows
        (fun o ho => hbranchless o (List.mem_cons_of_mem _ ho))
        (fun o ho => hcallees o (List.mem_cons_of_mem _ ho)) heval

variable (hchecked : CallsRangeChecked P pre st expand apply)

include hgrows hP hcalls hcaptured in
/-- The one kind of code that can be out of range. Evaluation made the same index. -/
theorem RangeChecked.index {target index : Operation}
    (iht : RangeChecked P pre st expand apply captured chain size captures target)
    (ihi : RangeChecked P pre st expand apply captured chain size captures index) (pos : Pos) :
    RangeChecked P pre st expand apply captured chain size captures (.index target index pos) := by
  intro scope d t d' fr origin v h hadds hscoped hfr hbranchless hcallees heval σ hσ
  rw [Operation.branchless, Bool.and_eq_true] at hbranchless
  simp only [Operation.callees, List.mem_append] at hcallees
  obtain ⟨u, d₁, hu, i, d₂, hi, helem⟩ := Operation.compile_index_ok.1 h
  have hgrow₂ : d₂.Grows d' := (Compile.element_moves Draft.Grows.refl Compile.emit_grows pos u i).ok helem
  have hgrow₁ : d₁.Grows d₂ := (compileWith_grows hgrows index).ok hi
  have hfr₁ := hfr.after hgrows hscoped.1 hu
  rw [Operation.evalWith] at heval
  obtain ⟨a, ha, heval⟩ := Except.bind_eq_ok.1 heval
  obtain ⟨b, hb, heval⟩ := Except.bind_eq_ok.1 heval
  rcases hadds.split hgrow₂.emission with hadds | hadds
  · rcases hadds.split hgrow₁.emission with hadds | hadds
    · exact iht scope d u d₁ fr _ a hu hadds hscoped.1 hfr hbranchless.1
        (fun g hg => hcallees g (.inl hg)) ha σ hσ
    · exact ihi scope d₁ i d₂ fr _ b hi hadds hscoped.2 hfr₁ hbranchless.2
        (fun g hg => hcallees g (.inr hg)) hb σ hσ
  · have hsub₂ : d₂.emission.statements ⊆ pre := hadds.before.subset
    have hsub₁ : d₁.emission.statements ⊆ pre := hgrow₁.within hsub₂
    have hden := (Operation.simulates hgrows hP hcalls hcaptured target scope d u d₁ fr _ hu hsub₁
      hscoped.1 hfr).of_eq_ok ha
    have hdeni := (Operation.simulates hgrows hP hcalls hcaptured index scope d₁ i d₂ fr _ hi hsub₂
      hscoped.2 hfr₁).of_eq_ok hb
    obtain ⟨-, -, ⟨m, k, -, -, hemit⟩ | ⟨-, hemit⟩⟩ := Compile.element_eq_ok helem
    · exact Compile.emit_inRange hemit hadds rfl σ
    · rw [Compile.emit_adds hemit hadds]
      cases hindex : a.index b with
      | error f => rw [hindex] at heval; cases heval
      | ok w => exact ⟨a, b, w, hden.eval σ (.inr hσ), hdeni.eval σ (.inr hσ), hindex⟩

include hgrows hP hcalls hcaptured hchecked in
/-- **Evaluation checks the indices in the code**, if it does at calls. -/
theorem Operation.rangeChecked (op : Operation) :
    RangeChecked P pre st expand apply captured chain size captures op := by
  induction op with
  | const value pos =>
    intro scope d t d' fr origin v h hadds
    rw [Operation.compileWith, Compile.literal_eq_ok] at h
    rw [h.2] at hadds
    exact absurd hadds not_adds_self
  | load ref pos =>
    intro scope d t d' fr origin v h hadds
    cases ref with
    | slot i =>
      obtain ⟨-, rfl⟩ := Operation.compile_slot_ok h
      exact absurd hadds not_adds_self
    | captured i =>
      obtain ⟨-, -, -, rfl⟩ := Operation.compile_captured_ok h
      exact absurd hadds not_adds_self
  | lambda signature body ih =>
    intro scope d t d' fr origin v h
    exact (Operation.compile_lambda_ok.1 h).elim
  | call callee args pos ihf ih =>
    intro scope d t d' fr origin v h hadds hscoped hfr hbranchless hcallees heval σ hσ
    rw [Operation.branchless, Bool.and_eq_true, branchlessAll_iff] at hbranchless
    simp only [Operation.callees, List.mem_append, Option.mem_toList, mem_calleesOfAll] at hcallees
    obtain ⟨f, ts, d₁, hknown, hts, hcall⟩ := Operation.compile_call_ok h
    obtain ⟨e, hx, rfl⟩ := Compile.call_eq_ok.1 hcall
    have hcallee : callee.evalWith apply fr (0 :: origin) = .ok f.toValue :=
      Operation.evalWith_of_known? (hfr.captured.symm ▸ hknown) _
    rw [Operation.evalWith, hcallee, Except.ok_bind] at heval
    obtain ⟨vs, hvs, heval⟩ := Except.bind_eq_ok.1 heval
    rcases hadds.split ((hgrows _).ok hx) with hadds | hadds
    · exact compileAll_rangeChecked hgrows ih hts hadds hscoped.2 hfr hbranchless.2
        (fun a ha g hg => hcallees g (.inr ⟨a, ha, hg⟩)) hvs hσ
    · have hargs := (compileAll_simulates hgrows
        (fun a _ => Operation.simulates hgrows hP hcalls hcaptured a) hts hadds.before.subset
        hscoped.2 hfr origin 1).of_eq_ok hvs
      have hf : f.Branchless := hcallees f (.inl (by rw [hknown]; rfl))
      exact hchecked _ _ _ _ _ v hx hadds rfl (Operation.known?_wellScoped hcaptured hknown) hf hargs
        heval σ hσ
  | builtin b args pos ih =>
    intro scope d t d' fr origin v h hadds hscoped hfr hbranchless hcallees heval σ hσ
    rw [Operation.branchless, branchlessAll_iff] at hbranchless
    simp only [Operation.callees, mem_calleesOfAll] at hcallees
    obtain ⟨ts, d₁, hts, hb⟩ := Operation.compile_builtin_ok.1 h
    obtain ⟨ty, promote, -, hemit⟩ := Compile.builtin_eq_ok hb
    rw [Operation.evalWith] at heval
    obtain ⟨vs, hvs, -⟩ := Except.bind_eq_ok.1 heval
    rcases hadds.split ((Compile.emit_grows _ _).ok hemit).emission with hadds | hadds
    · exact compileAll_rangeChecked hgrows ih hts hadds hscoped hfr hbranchless
        (fun a ha g hg => hcallees g ⟨a, ha, hg⟩) hvs hσ
    · exact Compile.emit_inRange hemit hadds rfl σ
  | unary op operand pos ih =>
    intro scope d t d' fr origin v h hadds hscoped hfr hbranchless hcallees heval σ hσ
    obtain ⟨u, d₁, ty, hu, -, hemit⟩ := Operation.compile_unary_ok h
    rw [Operation.evalWith] at heval
    obtain ⟨w, hw, -⟩ := Except.bind_eq_ok.1 heval
    rcases hadds.split ((Compile.emit_grows _ _).ok hemit).emission with hadds | hadds
    · exact ih scope d u d₁ fr _ w hu hadds hscoped hfr hbranchless hcallees hw σ hσ
    · exact Compile.emit_inRange hemit hadds rfl σ
  | binary op left right pos ihl ihr =>
    intro scope d t d' fr origin v h hadds hscoped hfr hbranchless hcallees heval σ hσ
    rw [Operation.branchless, Bool.and_eq_true, Bool.and_eq_true, Option.isNone_iff_eq_none] at hbranchless
    obtain ⟨⟨hnone, hleft⟩, hright⟩ := hbranchless
    simp only [Operation.callees, List.mem_append] at hcallees
    obtain ⟨l, d₁, hl, r, d₂, hr, hb⟩ := Operation.compile_binary_ok.1 h
    have hgrow₂ : d₂.Grows d' := (Compile.binary_moves Draft.Grows.refl Draft.Grows.trans
      Compile.emit_grows pos op l r).ok hb
    rw [Operation.evalWith] at heval
    obtain ⟨a, ha, heval⟩ := Except.bind_eq_ok.1 heval
    rw [hnone] at heval
    obtain ⟨b, hb', -⟩ := Except.bind_eq_ok.1 heval
    rcases hadds.split hgrow₂.emission with hadds | hadds
    · rcases hadds.split ((compileWith_grows hgrows right).ok hr).emission with hadds | hadds
      · exact ihl scope d l d₁ fr _ a hl hadds hscoped.1 hfr hleft
          (fun g hg => hcallees g (.inl hg)) ha σ hσ
      · exact ihr scope d₁ r d₂ fr _ b hr hadds hscoped.2 (hfr.after hgrows hscoped.1 hl) hright
          (fun g hg => hcallees g (.inr hg)) hb' σ hσ
    · obtain ⟨ty, -, ⟨-, hemit⟩ | ⟨-, hemit⟩⟩ := Compile.binary_eq_ok hb
      · exact Compile.emit_inRange hemit hadds rfl σ
      · exact Compile.emit_inRange hemit hadds rfl σ
  | cond condition yes no pos ihc iha ihb =>
    intro scope d t d' fr origin v h hadds hscoped hfr hbranchless
    cases hbranchless
  | letIn bindings body pos ihs ih =>
    intro scope d t d' fr origin v h hadds hscoped hfr hbranchless hcallees heval σ hσ
    rw [Operation.branchless, Bool.and_eq_true, branchlessBindings_iff] at hbranchless
    simp only [Operation.callees, List.mem_append, mem_calleesOfBindings] at hcallees
    obtain ⟨u, d₁, hbs, hbody⟩ := Operation.compile_letIn_ok.1 h
    rw [Operation.evalWith] at heval
    obtain ⟨inner, hinner, heval⟩ := Except.bind_eq_ok.1 heval
    rcases hadds.split ((compileWith_grows hgrows body).ok hbody).emission with hadds | hadds
    · exact compileBindings_rangeChecked hgrows hP hcalls hcaptured ihs hbs hadds hscoped.1 hfr
        hbranchless.1 (fun b hb g hg => hcallees g (.inl ⟨b, hb, hg⟩)) hinner hσ
    · have hfollows := (compileBindings_simulates hgrows
        (fun b _ => Operation.simulates hgrows hP hcalls hcaptured b.2) hbs hadds.before.subset
        hscoped.1 hfr origin 1).of_eq_ok hinner
      exact ih _ d₁ t d' inner _ v hbody hadds hscoped.2 hfollows hbranchless.2
        (fun g hg => hcallees g (.inr hg)) heval σ hσ
  | list items pos ih =>
    intro scope d t d' fr origin v h hadds hscoped hfr hbranchless hcallees heval σ hσ
    rw [Operation.branchless, branchlessAll_iff] at hbranchless
    simp only [Operation.callees, mem_calleesOfAll] at hcallees
    obtain ⟨ty, codes, d₁, -, hcodes, hvec⟩ := Operation.compile_list_ok h
    obtain ⟨ts, hts⟩ := compileParts_eq_ok hcodes
    have hgrow : d₁.Grows d' := (Compile.vector_moves Draft.Grows.refl Compile.emit_grows ty codes).ok hvec
    rw [Operation.evalWith] at heval
    obtain ⟨vs, hvs, -⟩ := Except.bind_eq_ok.1 heval
    rcases hadds.split hgrow.emission with hadds | hadds
    · exact compileAll_rangeChecked hgrows ih hts hadds hscoped hfr hbranchless
        (fun a ha g hg => hcallees g ⟨a, ha, hg⟩) hvs hσ
    · rcases Compile.vector_eq_ok hvec with ⟨-, -, rfl⟩ | ⟨-, hemit⟩
      · exact absurd hadds not_adds_self
      · exact Compile.emit_inRange hemit hadds rfl σ
  | record fields pos ih =>
    intro scope d t d' fr origin v h
    exact (Operation.compile_record_ok.1 h).elim
  | field target name pos ih =>
    intro scope d t d' fr origin v h hadds hscoped hfr hbranchless hcallees heval σ hσ
    rcases Operation.compile_field_ok h with ⟨w, -, -, rfl⟩ | ⟨u, d₁, hu, hcomp⟩
    · exact absurd hadds not_adds_self
    · obtain ⟨-, i, -, -, hemit⟩ := Compile.component_eq_ok hcomp
      rw [Operation.evalWith] at heval
      obtain ⟨w, hw, -⟩ := Except.bind_eq_ok.1 heval
      rcases hadds.split ((Compile.emit_grows _ _).ok hemit).emission with hadds | hadds
      · exact ih scope d u d₁ fr _ w hu hadds hscoped hfr hbranchless hcallees hw σ hσ
      · exact Compile.emit_inRange hemit hadds rfl σ
  | index target index pos iht ihi => exact iht.index hgrows hP hcalls hcaptured ihi pos

/-! ## Calls -/

include hgrows hP hcalls hchecked in
theorem Closure.enterWith_rangeChecked {f : Closure} (hf : f.WellScoped) (hbranchless : f.Branchless)
    {ts : List Typed} {vs : List Value} (hvs : List.Forall₂ (Denotes P) ts vs) {slots : Slots Typed}
    (hslots : Slots.ofArgs? f.slots ts = some slots) {e : Emission} {t : Typed} {d' : Draft}
    (h : f.body.compileWith expand f.captured chain ⟨slots, e⟩ = .ok t d')
    (hadds : Adds pre st e d'.emission) {site : Chain} {origin : Origin} {v : Value}
    (heval : f.enterWith apply site origin vs = .ok v) {σ : Store} (hσ : P σ) : st.code.InRange σ := by
  obtain ⟨fr, hfr, hfollows⟩ := Frame.enter_follows hvs hslots e site
  obtain ⟨hbody, hcallees⟩ := hbranchless
  cases hf with
  | function hcode hcount hcaptured =>
    rw [Closure.enterWith, hfr, Except.ok_bind] at heval
    exact Operation.rangeChecked hgrows hP hcalls hcaptured hchecked f.body _ _ _ _ _ origin v h hadds
      hcode.2 hfollows hbody hcallees heval σ hσ

end

/-- **Calls check the indices in their code.** -/
theorem expandWithin_rangeChecked {P : Store → Prop} {pre : List Statement} {st : Statement}
    (hP : ∀ σ, P σ → σ.Solves pre) {limit limit' : Nat} (budget budget' : Nat) (hle : budget ≤ budget') :
    CallsRangeChecked P pre st (Expansion.enterWith (expandWithin limit budget))
      (applyWithin limit' budget') := by
  induction budget generalizing budget' with
  | zero =>
    intro x c e t e' v hx
    obtain ⟨-, slots, d, -, hbody, -⟩ := Expansion.enterWith_eq_ok hx
    obtain ⟨-, -, rest, hrest, -⟩ := expandWithin_eq_ok hbody
    omega
  | succ budget ih =>
    intro x c e t e' v hx hadds hcallee hf hbranchless hargs heval σ hσ
    obtain ⟨-, slots, d, hslots, hbody, rfl⟩ := Expansion.enterWith_eq_ok hx
    obtain ⟨-, -, rest, hrest, hbody⟩ := expandWithin_eq_ok hbody
    obtain rfl : budget = rest := by omega
    obtain ⟨budget', rfl⟩ : ∃ n, budget' = n + 1 := ⟨budget' - 1, by omega⟩
    have hle' : budget ≤ budget' := by omega
    unfold applyWithin at heval
    split_ifs at heval
    rw [hcallee] at heval
    exact Closure.enterWith_rangeChecked (Expansion.enterWith_grows (expandWithin_grows limit budget)) hP
      (expandWithin_simulates hP budget budget' hle') (ih budget' hle') hf hbranchless hargs hslots hbody
      hadds heval hσ

/-! ## Statements that fail -/

/-- The statements before the one that fails run to the end. -/
theorem runStatements_eq_error {ss : List Statement} {σ σ' : Store} {e : Failure Fault}
    (h : runStatements ss σ = .error e σ') :
    ∃ pre st post, ss = pre ++ st :: post ∧ runStatements pre σ = .ok () σ' ∧ st.code.eval σ' = .error e := by
  induction ss generalizing σ with
  | nil => cases h
  | cons s ss ih =>
    unfold runStatements at h
    split at h
    · next v hv =>
      obtain ⟨pre, st, post, hsplit, hrun, heval⟩ := ih h
      refine ⟨s :: pre, st, post, by rw [hsplit, List.cons_append], ?_, heval⟩
      rw [runStatements, hv]
      exact hrun
    · next err hv =>
      cases h
      exact ⟨[], s, ss, rfl, rfl, hv⟩

/-! ## Shapes -/

section

variable {source : String} {runOptions : Options} {serial : Nat} {s : Shape} {options : Options}
  {F : Fragment}

/-- Where a distance without branches is evaluated, an index in its code is in range as
soon as the statements before it are solved. -/
theorem Shape.inRange_of_distance (hs : Shape.ofSource? source runOptions serial = some s)
    (hF : s.compile options = .ok F) (hbranchless : s.Branchless) {origin : Origin} {x y d : Float}
    (hd : s.distance options origin (.vector [x, y]) = .ok d) {pre post : List Statement}
    {st : Statement} (hsplit : F.statements = pre ++ st :: post) {σ : Store}
    (hpoint : σ.lookup options.inputName = some (.vector [x, y])) (hsolves : σ.Solves pre) :
    st.code.InRange σ := by
  obtain ⟨f, slots, draft, hdist, hslots, hexpand, -, hstmts, -⟩ := Shape.compile_eq_ok hF
  obtain ⟨-, -, rest, hrest, hbody⟩ := expandWithin_eq_ok hexpand
  obtain ⟨hf, -⟩ := Shape.dist_wellScoped hs hdist
  let P : Store → Prop := fun τ => τ.lookup options.inputName = some (.vector [x, y]) ∧ τ.Solves pre
  have hP : ∀ τ, P τ → τ.Solves pre := fun τ hτ => hτ.2
  have hinput : Denotes P (.input .vec2 options.inputName) (.vector [x, y]) :=
    Denotes.input fun τ hτ => hτ.1
  have hadds : Adds pre st Emission.empty draft.emission := by
    refine ⟨List.nil_prefix, post, ?_⟩
    rw [← hstmts, hsplit, List.append_assoc, List.singleton_append]
  have hle : rest ≤ options.maxDepth := by omega
  unfold Shape.distance at hd
  rw [hdist] at hd
  obtain ⟨v, hv, -⟩ := Except.bind_eq_ok.1 hd
  unfold Closure.call at hv
  split_ifs at hv
  exact Closure.enterWith_rangeChecked
    (Expansion.enterWith_grows (expandWithin_grows options.maxDepth rest)) hP
    (expandWithin_simulates hP rest options.maxDepth hle)
    (expandWithin_rangeChecked hP rest options.maxDepth hle) hf (hbranchless f hdist)
    (.cons hinput .nil) hslots hbody hadds hv (σ := σ) ⟨hpoint, hsolves⟩

/-- A part of the statements and what follows it. -/
theorem Shape.split_sound (hF : s.compile options = .ok F)
    (hinput : ∀ st ∈ F.statements, st.name ≠ options.inputName) {pre post : List Statement}
    (hsplit : F.statements = pre ++ post) :
    StraightLine [(options.inputName, .vec2)] pre ∧ Fresh [(options.inputName, .vec2)] pre ∧
      StraightLine ([(options.inputName, .vec2)] ++ pre.map Statement.declared) post := by
  have hstraight := (Shape.compile_sound hF).1
  have hfresh := Shape.compile_fresh hF hinput
  rw [hsplit, straightLine_append] at hstraight
  rw [hsplit, Fresh, List.map_append, ← List.append_assoc] at hfresh
  exact ⟨hstraight.1, (List.nodup_append.1 hfresh).1, hstraight.2⟩

/-- The variables after a part of the statements. -/
theorem Shape.solves_of_run (hF : s.compile options = .ok F)
    (hinput : ∀ st ∈ F.statements, st.name ≠ options.inputName) {point : Value}
    {pre post : List Statement} (hsplit : F.statements = pre ++ post) {σ : Store}
    (hrun : runStatements pre [(options.inputName, point)] = .ok () σ) :
    σ.lookup options.inputName = some point ∧ σ.Solves pre := by
  obtain ⟨hstraight, hfresh, -⟩ := Shape.split_sound hF hinput hsplit
  have hname : options.inputName ∉ pre.map Statement.name := by
    intro hmem
    obtain ⟨st, hst, heq⟩ := List.mem_map.1 hmem
    exact hinput st (hsplit ▸ List.mem_append_left _ hst) heq
  refine ⟨?_, runStatements_solves hstraight hfresh hrun⟩
  rw [lookup_runStatements hrun hname]
  exact List.lookup_cons_self

/-- A fragment has a value where its statements run to the end. -/
theorem Shape.evaluate_isOk_iff (hF : s.compile options = .ok F)
    (hinput : ∀ st ∈ F.statements, st.name ≠ options.inputName) (x y : Float) :
    (∃ v, F.evaluate (.vector [x, y]) = .ok v) ↔
      ∃ σ, runStatements F.statements [(options.inputName, .vector [x, y])] = .ok () σ := by
  have hends := Shape.evaluate_ends hF hinput x y
  rw [Shape.evaluate_eq hF] at hends ⊢
  cases hrun : runStatements F.statements [(options.inputName, .vector [x, y])] with
  | error e σ => exact ⟨fun ⟨_, hv⟩ => (nomatch hv), fun ⟨_, hσ⟩ => (nomatch hσ)⟩
  | ok u σ =>
    obtain ⟨-, hresult, -⟩ := Shape.compile_sound hF
    have htypes := runStatements_types (Shape.compile_sound hF).1 (Shape.compile_fresh hF hinput)
      (input_types options.inputName x y)
    rw [hrun] at htypes
    obtain ⟨v, hv, -⟩ := hresult.eval_typed htypes
    exact ⟨fun _ => ⟨σ, rfl⟩, fun _ => ⟨v, hv⟩⟩

/-- A statement that fails is an index out of range. -/
theorem Shape.not_inRange_of_error (hF : s.compile options = .ok F)
    (hinput : ∀ st ∈ F.statements, st.name ≠ options.inputName) {x y : Float}
    {pre post : List Statement} {st : Statement} (hsplit : F.statements = pre ++ st :: post) {σ : Store}
    (hrun : runStatements pre [(options.inputName, .vector [x, y])] = .ok () σ) {e : Failure Fault}
    (heval : st.code.eval σ = .error e) : ¬ st.code.InRange σ := by
  obtain ⟨hstraight, hfresh, hrest⟩ := Shape.split_sound hF hinput hsplit
  have htypes := runStatements_types hstraight hfresh (input_types options.inputName x y)
  rw [hrun] at htypes
  obtain ⟨hindex, -⟩ := (hrest.1.eval_ends htypes).of_eq_error heval
  intro hin
  obtain ⟨v, hv⟩ := hin.eval_isOk hindex
  rw [hv] at heval
  cases heval

end

/-- Where the statements of a fragment run to the end, no index among them has a fraction. -/
def Shader.Fragment.IndicesWhole (F : Fragment) (input : String) (point : Value) : Prop :=
  ∀ σ, runStatements F.statements [(input, point)] = .ok () σ → ∀ st ∈ F.statements, st.code.IndexWhole σ

/-- **Where the two modes fail.** If the fragment has a value and computes its indices
without a fraction, then evaluation succeeds. For a distance without branches, these are
the only points at which it succeeds. -/
theorem Shape.distance_isOk_iff (source : String) (runOptions : Options) (serial : Nat) (s : Shape)
    (hs : Shape.ofSource? source runOptions serial = some s) (options : Options) (F : Fragment)
    (hF : s.compile options = .ok F)
    (hinput : ∀ st ∈ F.statements, st.name ≠ options.inputName) (origin : Origin) (x y : Float) :
    ((∃ v, F.evaluate (.vector [x, y]) = .ok v) ∧ F.IndicesWhole options.inputName (.vector [x, y]) →
      ∃ d, s.distance options origin (.vector [x, y]) = .ok d) ∧
    (s.Branchless →
      ((∃ d, s.distance options origin (.vector [x, y]) = .ok d) ↔
        (∃ v, F.evaluate (.vector [x, y]) = .ok v) ∧
          F.IndicesWhole options.inputName (.vector [x, y]))) := by
  have hevaluates : (∃ v, F.evaluate (.vector [x, y]) = .ok v) ∧
      F.IndicesWhole options.inputName (.vector [x, y]) →
        ∃ d, s.distance options origin (.vector [x, y]) = .ok d := by
    rintro ⟨hv, hwhole⟩
    obtain ⟨σ, hrun⟩ := (Shape.evaluate_isOk_iff hF hinput x y).1 hv
    have hending : F.Ending options.inputName (.vector [x, y]) σ :=
      Shape.solves_of_run hF hinput (List.append_nil _).symm hrun
    have hends := Shape.distance_simulates hs hF options (Nat.le_succ _) origin x y
    obtain ⟨d, hd, -⟩ := hends.ok_or_report.resolve_right fun hfail => by
      -- the index that evaluation refuses has an element in the code, and is whole
      obtain ⟨⟨st, hst, -, hout⟩, -⟩ := hfail
      obtain ⟨w, hw, -⟩ := hending.2 st hst
      exact hout σ hending ((hwhole σ hrun st hst).inRange hw)
    exact ⟨d, hd⟩
  refine ⟨hevaluates, fun hbranchless => ⟨fun hd => ?_, hevaluates⟩⟩
  obtain ⟨d, hd⟩ := hd
  refine ⟨(Shape.evaluate_isOk_iff hF hinput x y).2 ?_, fun σ hrun st hst => ?_⟩
  · cases hrun : runStatements F.statements [(options.inputName, .vector [x, y])] with
    | ok u σ => exact ⟨σ, rfl⟩
    | error e σ =>
      obtain ⟨pre, st, post, hsplit, hpre, heval⟩ := runStatements_eq_error hrun
      obtain ⟨hpoint, hsolves⟩ := Shape.solves_of_run hF hinput hsplit hpre
      have hin := Shape.inRange_of_distance hs hF hbranchless hd hsplit hpoint hsolves
      exact absurd hin (Shape.not_inRange_of_error hF hinput hsplit hpre heval)
  · obtain ⟨pre, post, hsplit⟩ := List.append_of_mem hst
    obtain ⟨hpoint, hsolves⟩ := Shape.solves_of_run hF hinput (List.append_nil _).symm hrun
    have hpre : σ.Solves pre := fun st' hst' => hsolves st' (hsplit ▸ List.mem_append_left _ hst')
    exact (Shape.inRange_of_distance hs hF hbranchless hd hsplit hpoint hpre).indexWhole

/-- One of the coordinates, chosen by the sign of the first. -/
def chosenCoordinate : String :=
  "let place = x -> max(sign(x), 0) in \x7bdist: p -> p[place(p.x)] - 1\x7d"

set_option maxRecDepth 10000 in
theorem Shape.distance_isOk_chosenCoordinate :
    ∃ s F, Shape.ofSource? chosenCoordinate .standard 0 = some s ∧ s.compile .standard = .ok F ∧
      (∃ st ∈ F.statements, st.code.isIndex = true) ∧ (∀ st ∈ F.statements, st.name ≠ "P") ∧
      s.Branchless ∧ (∃ d, s.distance .standard [1] (.vector [0.5, 7]) = .ok d) ∧
      (∃ v, F.evaluate (.vector [0.5, 7]) = .ok v) ∧ F.IndicesWhole "P" (.vector [0.5, 7]) := by
  have hcheck : Shape.compilesFrom chosenCoordinate .standard (fun s F =>
      F.statements.any (fun st => st.code.isIndex) && F.statements.all (fun st => st.name ≠ "P") &&
        s.dist.toOption.all (Closure.branchlessWithin 2) &&
        (s.distance .standard [1] (.vector [0.5, 7])).isOk) = true := by decide +kernel
  obtain ⟨s, F, hs, hF, hcheck⟩ := Shape.exists_of_compilesFrom hcheck
  simp only [Bool.and_eq_true, List.any_eq_true, List.all_eq_true, decide_eq_true_eq] at hcheck
  obtain ⟨⟨⟨hindex, hinput⟩, hdist⟩, hok⟩ := hcheck
  have hbranchless := Shape.branchless_of_within hdist
  have hd := Except.isOk_iff.1 hok
  have hiff := (Shape.distance_isOk_iff chosenCoordinate .standard 0 s hs .standard F hF hinput [1] 0.5 7).2
    hbranchless
  exact ⟨s, F, hs, hF, hindex, hinput, hbranchless, hd, hiff.1 hd⟩

set_option maxRecDepth 10000 in
/-- A place with a fraction, which only the fragment accepts; and a place out of range in a
branch that evaluation does not take. -/
theorem Shape.failures_differ :
    (∃ s F, Shape.ofSource? "\x7bdist: p -> p[p.x]\x7d" .standard 0 = some s ∧
      s.compile .standard = .ok F ∧ (∀ st ∈ F.statements, st.name ≠ "P") ∧
      (∃ v, F.evaluate (.vector [0.5, 7]) = .ok v) ∧
      ¬ ∃ d, s.distance .standard [1] (.vector [0.5, 7]) = .ok d) ∧
    ∃ s F, Shape.ofSource? "\x7bdist: p -> p.x < 2 ? p[p.x] : 0\x7d" .standard 0 = some s ∧
      s.compile .standard = .ok F ∧ (∀ st ∈ F.statements, st.name ≠ "P") ∧
      (∃ d, s.distance .standard [1] (.vector [2, 7]) = .ok d) ∧
      ¬ ∃ v, F.evaluate (.vector [2, 7]) = .ok v := by
  constructor
  · have hcheck : Shape.compilesFrom "\x7bdist: p -> p[p.x]\x7d" .standard (fun s F =>
        F.statements.all (fun st => st.name ≠ "P") && (F.evaluate (.vector [0.5, 7])).isOk &&
          !(s.distance .standard [1] (.vector [0.5, 7])).isOk) = true := by decide +kernel
    obtain ⟨s, F, hs, hF, hcheck⟩ := Shape.exists_of_compilesFrom hcheck
    simp only [Bool.and_eq_true, List.all_eq_true, decide_eq_true_eq, Bool.not_eq_true'] at hcheck
    obtain ⟨⟨hinput, hv⟩, hd⟩ := hcheck
    refine ⟨s, F, hs, hF, hinput, Except.isOk_iff.1 hv, ?_⟩
    rw [← Except.isOk_iff, hd]
    decide
  · have hcheck : Shape.compilesFrom "\x7bdist: p -> p.x < 2 ? p[p.x] : 0\x7d" .standard (fun s F =>
        F.statements.all (fun st => st.name ≠ "P") && (s.distance .standard [1] (.vector [2, 7])).isOk &&
          !(F.evaluate (.vector [2, 7])).isOk) = true := by decide +kernel
    obtain ⟨s, F, hs, hF, hcheck⟩ := Shape.exists_of_compilesFrom hcheck
    simp only [Bool.and_eq_true, List.all_eq_true, decide_eq_true_eq, Bool.not_eq_true'] at hcheck
    obtain ⟨⟨hinput, hd⟩, hv⟩ := hcheck
    refine ⟨s, F, hs, hF, hinput, Except.isOk_iff.1 hd, ?_⟩
    rw [← Except.isOk_iff, hv]
    decide

end DistanceField
