import DistanceField.Program
import DistanceField.Proofs.CompileSteps
import DistanceField.Proofs.DraftChanges
import DistanceField.Proofs.FlatCode

/-!
# Compiled code is straight-line code

The compiler keeps atoms in its slots and emits flat statements over variables that it
declared before. The names of the statements count up from zero.

* `Draft.Sound`: the invariant of a draft.
* `compileWith_sound`, `expandWithin_sound`: compilation keeps it, and its results are
  atoms.
* `Shape.compile_straightLine`: fragments are straight-line code over their input.
-/

namespace DistanceField

open Shader

/-! ## Literals and atoms -/

namespace Shader

def Typed.IsAtom (Γ : Declared) (t : Typed) : Prop := t.code.IsAtom Γ t.ty

theorem Ty.vector?_eq_some {n : Nat} {ty : Ty} (h : Ty.vector? n = some ty) :
    ty.isVector = true ∧ n = ty.count := by
  unfold Ty.vector? at h
  split at h <;> cases h <;> exact ⟨rfl, rfl⟩

theorem Typed.ofValue?_isAtom {v : Value} {t : Typed} (h : Typed.ofValue? v = some t) (Γ : Declared) :
    t.IsAtom Γ := by
  unfold Typed.ofValue? at h
  split at h
  · cases h; exact .num _
  · cases h; exact .bool _
  · obtain ⟨xs, -, h⟩ := Option.bind_eq_some_iff.1 h
    obtain ⟨ty, hty, h⟩ := Option.bind_eq_some_iff.1 h
    cases h
    obtain ⟨hvec, hlen⟩ := Ty.vector?_eq_some hty
    exact .vector hvec hlen

theorem Code.allLiteral_iff {cs : List Code} :
    Code.allLiteral cs = true ↔ ∀ c ∈ cs, c.isLiteral = true := by
  induction cs with
  | nil => simp [Code.allLiteral]
  | cons c cs ih => simp [Code.allLiteral, ih]

theorem Code.IsAtom.eq_num_of_isLiteral {Γ : Declared} {c : Code} (h : c.IsAtom Γ .float)
    (hlit : c.isLiteral = true) : ∃ x, c = .num x := by
  cases h with
  | var _ => cases hlit
  | num x => exact ⟨x, rfl⟩
  | vector hty _ => cases hty

/-- A vector of float atoms that are literals is a vector of numbers. -/
theorem Code.eq_map_num {Γ : Declared} {parts : List Code} (h : ∀ c ∈ parts, c.IsAtom Γ .float)
    (hlit : ∀ c ∈ parts, c.isLiteral = true) : ∃ xs : List Float, parts = xs.map Code.num := by
  induction parts with
  | nil => exact ⟨[], rfl⟩
  | cons c cs ih =>
    obtain ⟨x, rfl⟩ := (h c (by simp)).eq_num_of_isLiteral (hlit c (by simp))
    obtain ⟨xs, rfl⟩ := ih (fun c hc => h c (by simp [hc])) fun c hc => hlit c (by simp [hc])
    exact ⟨x :: xs, rfl⟩

theorem Typed.IsAtom.widenTo {Γ : Declared} {t : Typed} (h : t.IsAtom Γ) (u : Ty) :
    (t.widenTo u).IsArgument Γ (widenTy u t.ty) := by
  unfold Typed.widenTo widenTy
  split
  · next hcond =>
    simp only [Bool.and_eq_true, beq_iff_eq] at hcond
    have hfloat : t.code.IsAtom Γ .float := hcond.2 ▸ h
    exact .widened hfloat hcond.1
  · exact .atom h

/-- The variables that are declared after the statements of an emission. -/
def Emission.declared (Γ : Declared) (e : Emission) : Declared :=
  Γ ++ e.statements.map Statement.declared

theorem Emission.Grows.declared_subset {e e' : Emission} (h : e.Grows e') (Γ : Declared) :
    e.declared Γ ⊆ e'.declared Γ := by
  intro x hx
  rcases List.mem_append.1 hx with hx | hx
  · exact List.mem_append_left _ hx
  · exact List.mem_append_right _ (List.map_subset _ h.subset hx)

end Shader

/-! ## The invariant -/

/-- **A draft over declared variables `Γ`**: its statements are straight-line code, and
its slots hold atoms over what they declare. -/
structure Draft.Sound (Γ : Declared) (d : Draft) : Prop where
  straight : StraightLine Γ d.emission.statements
  slots : ∀ i t, d.slots.get? i = some t → t.IsAtom (d.emission.declared Γ)

/-- The result of a step that keeps the invariant. -/
structure Draft.Yields (Γ : Declared) (d : Draft) (t : Typed) : Prop where
  sound : d.Sound Γ
  atom : t.IsAtom (d.emission.declared Γ)

section

variable {Γ : Declared} {chain : Chain} {pos : Pos} {d d' : Draft} {t : Typed}

theorem Compile.emit_sound (hd : d.Sound Γ) {ty : Ty} {code : Code}
    (hcode : code.IsFlat (d.emission.declared Γ) ty) (h : Compile.emit ty code d = .ok t d') :
    d'.Yields Γ t := by
  obtain ⟨rfl, rfl⟩ := Compile.emit_eq_ok.1 h
  have hsub := (Emission.grows_emit d.emission ty code).declared_subset Γ
  refine ⟨⟨?_, fun i u hu => (hd.slots i u hu).mono hsub⟩, .var ?_⟩
  · exact straightLine_append.2 ⟨hd.straight, hcode, trivial⟩
  · simp [Emission.declared, Statement.declared]

theorem Compile.component_sound {v : Typed} {name : String} (hd : d.Sound Γ)
    (hv : v.IsAtom (d.emission.declared Γ)) (h : Compile.component chain pos v name d = .ok t d') :
    d'.Yields Γ t := by
  obtain ⟨hvec, i, -, hi, h⟩ := Compile.component_eq_ok h
  exact Compile.emit_sound hd (.component hv hvec hi) h

theorem Scalar.index?_lt {n : Float} {len k : Nat} (h : Scalar.index? n len = some k) : k < len := by
  unfold Scalar.index? at h
  split at h
  · simpa using (Option.filter_eq_some_iff.1 h).2
  · cases h

theorem Compile.element_sound {v i : Typed} (hd : d.Sound Γ) (hv : v.IsAtom (d.emission.declared Γ))
    (hi : i.IsAtom (d.emission.declared Γ)) (h : Compile.element chain pos v i d = .ok t d') :
    d'.Yields Γ t := by
  obtain ⟨hvec, hfloat, ⟨n, k, -, hk, h⟩ | ⟨-, h⟩⟩ := Compile.element_eq_ok h
  · exact Compile.emit_sound hd (.component hv hvec (Scalar.index?_lt hk)) h
  · have hi : i.code.IsAtom (d.emission.declared Γ) .float := hfloat ▸ hi
    exact Compile.emit_sound hd (.index hv hvec hi) h

theorem forall₂_widened {Δ : Declared} {args : List Typed} (h : ∀ a ∈ args, a.IsAtom Δ) (u : Ty) :
    List.Forall₂ (Code.IsArgument Δ) (args.map (·.widenTo u)) ((args.map Typed.ty).map (widenTy u)) := by
  induction args with
  | nil => exact .nil
  | cons a args ih => exact .cons ((h a (by simp)).widenTo u) (ih fun b hb => h b (by simp [hb]))

theorem forall₂_code {Δ : Declared} {args : List Typed} (h : ∀ a ∈ args, a.IsAtom Δ) :
    List.Forall₂ (Code.IsArgument Δ) (args.map Typed.code) (args.map Typed.ty) := by
  induction args with
  | nil => exact .nil
  | cons a args ih => exact .cons (.atom (h a (by simp))) (ih fun b hb => h b (by simp [hb]))

theorem Compile.builtin_sound {b : Builtin} {args : List Typed} (hd : d.Sound Γ)
    (hargs : ∀ a ∈ args, a.IsAtom (d.emission.declared Γ))
    (h : Compile.builtin chain pos b args d = .ok t d') : d'.Yields Γ t := by
  obtain ⟨ty, promote, htyping, h⟩ := Compile.builtin_eq_ok h
  refine Compile.emit_sound hd ?_ h
  cases promote with
  | none => exact .call (forall₂_code hargs) htyping
  | some wide =>
    obtain ⟨hlen, hcount, u, hu, rfl, hp⟩ := Builtin.typing_eq_ok htyping
    split at hp
    · obtain rfl : wide = u := Option.some.inj hp
      obtain ⟨hw, hnone⟩ := hu.widened
      refine .call (forall₂_widened hargs wide) ?_
      rw [Builtin.typing_of_common (by simpa using hlen) hcount hw, hnone]
      rfl
    · cases hp

theorem Compile.binary_sound {op : BinaryOp} {l r : Typed} (hd : d.Sound Γ)
    (hl : l.IsAtom (d.emission.declared Γ)) (hr : r.IsAtom (d.emission.declared Γ))
    (h : Compile.binary chain pos op l r d = .ok t d') : d'.Yields Γ t := by
  obtain ⟨ty, htyping, ⟨rfl, hemit⟩ | ⟨hop, hemit⟩⟩ := Compile.binary_eq_ok h
  · obtain ⟨hw, hnone⟩ := (widest_eq_ok.1 htyping).widened
    have hargs : ∀ a ∈ [l, r], a.IsAtom (d.emission.declared Γ) := by simpa using ⟨hl, hr⟩
    refine Compile.emit_sound hd (.call (forall₂_widened hargs ty) ?_) hemit
    change Builtin.mod.typing ([l.ty, r.ty].map (widenTy ty)) = .ok (ty, none)
    rw [Builtin.typing_of_common rfl (by decide) hw, hnone]
    rfl
  · exact Compile.emit_sound hd (.binary hop hl hr htyping) hemit

theorem Compile.vector_sound {ty : Ty} {parts : List Code} (hd : d.Sound Γ) (hvec : ty.isVector = true)
    (hlen : parts.length = ty.count) (hparts : ∀ c ∈ parts, c.IsAtom (d.emission.declared Γ) .float)
    (h : Compile.vector ty parts d = .ok t d') : d'.Yields Γ t := by
  rcases Compile.vector_eq_ok h with ⟨hlit, rfl, rfl⟩ | ⟨-, h⟩
  · obtain ⟨xs, rfl⟩ := Code.eq_map_num hparts (Code.allLiteral_iff.1 hlit)
    exact ⟨hd, .vector hvec (by simpa using hlen)⟩
  · exact Compile.emit_sound hd (.construct hvec hlen hparts) h

end

section

variable {Γ : Declared} {expand : Expansion → EStateM (Failure EvalError) Emission Typed}
  {captured : List Value} {chain : Chain}

/-- Expansions keep the invariant: given atoms, they yield an atom and straight-line code. -/
def ExpandsSoundly (Γ : Declared) (expand : Expansion → EStateM (Failure EvalError) Emission Typed) :
    Prop :=
  ∀ x e t e', expand x e = .ok t e' → StraightLine Γ e.statements →
    (∀ a ∈ x.args, a.IsAtom (e.declared Γ)) →
    StraightLine Γ e'.statements ∧ t.IsAtom (e'.declared Γ)

/-- The compilation of an operation keeps the invariant. -/
def CompilesSoundly (Γ : Declared) (expand : Expansion → EStateM (Failure EvalError) Emission Typed)
    (captured : List Value) (chain : Chain) (op : Operation) : Prop :=
  ∀ d t d', op.compileWith expand captured chain d = .ok t d' → d.Sound Γ → d'.Yields Γ t

variable (hgrows : ∀ x, Moves Emission.Grows (expand x))

include hgrows in
/-- An atom stays one while more is compiled. -/
theorem compileWith_mono {op : Operation} {d d' : Draft} {t : Typed}
    (h : op.compileWith expand captured chain d = .ok t d') {u : Typed}
    (hu : u.IsAtom (d.emission.declared Γ)) : u.IsAtom (d'.emission.declared Γ) :=
  hu.mono (((compileWith_grows hgrows op).ok h).emission.declared_subset Γ)

include hgrows in
theorem compileAll_sound {ops : List Operation} {d d' : Draft} {vs : List Typed}
    (hops : ∀ op ∈ ops, CompilesSoundly Γ expand captured chain op)
    (h : compileAll expand captured chain ops d = .ok vs d') (hd : d.Sound Γ) :
    d'.Sound Γ ∧ ∀ v ∈ vs, v.IsAtom (d'.emission.declared Γ) := by
  induction ops generalizing d vs with
  | nil =>
    obtain ⟨rfl, rfl⟩ := compileAll_nil_ok.1 h
    exact ⟨hd, by simp⟩
  | cons op ops ih =>
    obtain ⟨v, d₁, ws, hv, hws, rfl⟩ := compileAll_cons_ok h
    have h1 := hops op (by simp) d v d₁ hv hd
    obtain ⟨hs, hatoms⟩ := ih (fun o ho => hops o (by simp [ho])) hws h1.sound
    have hgrow : d₁.Grows d' := (compileAll_moves Draft.Grows.refl Draft.Grows.trans
      fun o _ => compileWith_grows hgrows o).ok hws
    refine ⟨hs, ?_⟩
    simpa using ⟨h1.atom.mono (hgrow.emission.declared_subset Γ), hatoms⟩

include hgrows in
theorem compileParts_sound {ops : List Operation} {d d' : Draft} {codes : List Code}
    (hops : ∀ op ∈ ops, CompilesSoundly Γ expand captured chain op)
    (h : compileParts expand captured chain ops d = .ok codes d') (hd : d.Sound Γ) :
    d'.Sound Γ ∧ codes.length = ops.length ∧
      ∀ c ∈ codes, c.IsAtom (d'.emission.declared Γ) .float := by
  induction ops generalizing d codes with
  | nil =>
    obtain ⟨rfl, rfl⟩ := compileParts_nil_ok.1 h
    exact ⟨hd, rfl, by simp⟩
  | cons op ops ih =>
    obtain ⟨v, d₁, rest, hv, hty, hrest, rfl⟩ := compileParts_cons_ok h
    have h1 := hops op (by simp) d v d₁ hv hd
    obtain ⟨hs, hlen, hatoms⟩ := ih (fun o ho => hops o (by simp [ho])) hrest h1.sound
    have hgrow : d₁.Grows d' := (compileParts_moves Draft.Grows.refl Draft.Grows.trans
      fun o _ => compileWith_grows hgrows o).ok hrest
    have hatom : v.code.IsAtom (d₁.emission.declared Γ) .float := hty ▸ h1.atom
    refine ⟨hs, by simp [hlen], ?_⟩
    simpa using ⟨hatom.mono (hgrow.emission.declared_subset Γ), hatoms⟩

theorem compileBindings_sound {bs : List (Nat × Operation)} {d d' : Draft} {u : Unit}
    (hops : ∀ b ∈ bs, CompilesSoundly Γ expand captured chain b.2)
    (h : compileBindings expand captured chain bs d = .ok u d') (hd : d.Sound Γ) : d'.Sound Γ := by
  induction bs generalizing d with
  | nil =>
    obtain rfl := compileBindings_nil_ok.1 h
    exact hd
  | cons b bs ih =>
    obtain ⟨slot, op⟩ := b
    obtain ⟨v, d₁, slots, hv, hset, hrest⟩ := compileBindings_cons_ok h
    have h1 := hops (slot, op) (by simp) d v d₁ hv hd
    refine ih (fun b hb => hops b (by simp [hb])) hrest ⟨h1.sound.straight, ?_⟩
    intro i t ht
    by_cases hi : slot = i
    · subst hi
      rw [Slots.get?_set?_self hset] at ht
      exact Option.some.inj ht ▸ h1.atom
    · rw [Slots.get?_set?_of_ne hset hi] at ht
      exact h1.sound.slots i t ht

include hgrows in
/-- **Compilation keeps the invariant**, if the expansion of calls does. -/
theorem compileWith_sound (hexpand : ExpandsSoundly Γ expand) (op : Operation) :
    CompilesSoundly Γ expand captured chain op := by
  induction op with
  | const value pos =>
    intro d t d' h hd
    rw [Operation.compileWith, Compile.literal_eq_ok] at h
    obtain ⟨hlit, rfl⟩ := h
    exact ⟨hd, Typed.ofValue?_isAtom hlit _⟩
  | load ref pos =>
    intro d t d' h hd
    cases ref with
    | slot i =>
      obtain ⟨hslot, rfl⟩ := Operation.compile_slot_ok h
      exact ⟨hd, hd.slots i t hslot⟩
    | captured i =>
      obtain ⟨v, -, hlit, rfl⟩ := Operation.compile_captured_ok h
      exact ⟨hd, Typed.ofValue?_isAtom hlit _⟩
  | lambda signature body ih =>
    intro d t d' h
    exact (Operation.compile_lambda_ok.1 h).elim
  | call callee args pos _ ih =>
    intro d t d' h hd
    obtain ⟨f, vs, d₁, -, hvs, hcall⟩ := Operation.compile_call_ok h
    obtain ⟨hs, hatoms⟩ := compileAll_sound hgrows ih hvs hd
    obtain ⟨e, hx, rfl⟩ := Compile.call_eq_ok.1 hcall
    obtain ⟨hstraight, hatom⟩ := hexpand _ _ _ _ hx hs.straight hatoms
    -- the slots are those of before the call, and still atoms with more variables declared
    have hsub := ((hgrows _).ok hx).declared_subset Γ
    exact ⟨⟨hstraight, fun i u hu => (hs.slots i u hu).mono hsub⟩, hatom⟩
  | builtin b args pos ih =>
    intro d t d' h hd
    obtain ⟨vs, d₁, hvs, hb⟩ := Operation.compile_builtin_ok.1 h
    obtain ⟨hs, hatoms⟩ := compileAll_sound hgrows ih hvs hd
    exact Compile.builtin_sound hs hatoms hb
  | unary op operand pos ih =>
    intro d t d' h hd
    obtain ⟨v, d₁, ty, hv, hty, hemit⟩ := Operation.compile_unary_ok h
    have h1 := ih d v d₁ hv hd
    exact Compile.emit_sound h1.sound (.unary h1.atom hty) hemit
  | binary op left right pos ihl ihr =>
    intro d t d' h hd
    obtain ⟨l, d₁, hl, r, d₂, hr, hb⟩ := Operation.compile_binary_ok.1 h
    have h1 := ihl d l d₁ hl hd
    have h2 := ihr d₁ r d₂ hr h1.sound
    exact Compile.binary_sound h2.sound (compileWith_mono hgrows hr h1.atom) h2.atom hb
  | cond condition yes no pos ihc iha ihb =>
    intro d t d' h hd
    obtain ⟨c, d₁, hc, hty, ⟨b, -, hbranch⟩ | ⟨a, d₂, b, d₃, ha, hb, heq, hemit⟩⟩ :=
      Operation.compile_cond_ok h
    · -- a literal condition: only its branch is compiled
      have h1 := ihc d c d₁ hc hd
      cases b with
      | true => exact iha d₁ t d' hbranch h1.sound
      | false => exact ihb d₁ t d' hbranch h1.sound
    · have h1 := ihc d c d₁ hc hd
      have h2 := iha d₁ a d₂ ha h1.sound
      have h3 := ihb d₂ b d₃ hb h2.sound
      have hcond := compileWith_mono hgrows hb (compileWith_mono hgrows ha h1.atom)
      have hyes := compileWith_mono hgrows hb h2.atom
      rw [Typed.IsAtom, hty] at hcond
      have hno : b.code.IsAtom (d₃.emission.declared Γ) a.ty := heq ▸ h3.atom
      exact Compile.emit_sound h3.sound (.select hcond hyes hno) hemit
  | letIn bindings body pos ihs ih =>
    intro d t d' h hd
    obtain ⟨u, d₁, hbs, hbody⟩ := Operation.compile_letIn_ok.1 h
    exact ih d₁ t d' hbody (compileBindings_sound ihs hbs hd)
  | list items pos ih =>
    intro d t d' h hd
    obtain ⟨ty, parts, d₁, hty, hparts, hvec⟩ := Operation.compile_list_ok h
    obtain ⟨hs, hlen, hatoms⟩ := compileParts_sound hgrows ih hparts hd
    obtain ⟨hv, hcount⟩ := Ty.vector?_eq_some hty
    exact Compile.vector_sound hs hv (hlen.trans hcount) hatoms hvec
  | record fields pos ih =>
    intro d t d' h
    exact (Operation.compile_record_ok.1 h).elim
  | field target name pos ih =>
    intro d t d' h hd
    rcases Operation.compile_field_ok h with ⟨v, -, hlit, rfl⟩ | ⟨v, d₁, hv, hcomp⟩
    · exact ⟨hd, Typed.ofValue?_isAtom hlit _⟩
    · have h1 := ih d v d₁ hv hd
      exact Compile.component_sound h1.sound h1.atom hcomp
  | index target index pos iht ihi =>
    intro d t d' h hd
    obtain ⟨v, d₁, hv, i, d₂, hi, helem⟩ := Operation.compile_index_ok.1 h
    have h1 := iht d v d₁ hv hd
    have h2 := ihi d₁ i d₂ hi h1.sound
    exact Compile.element_sound h2.sound (compileWith_mono hgrows hi h1.atom) h2.atom helem

end

/-! ## Calls and shapes -/

theorem expandWithin_sound {Γ : Declared} {limit : Nat} :
    ∀ budget f chain d t d', expandWithin limit budget f chain d = .ok t d' → d.Sound Γ →
      d'.Yields Γ t := by
  intro budget
  induction budget with
  | zero =>
    intro f chain d t d' h
    obtain ⟨-, -, rest, hrest, -⟩ := expandWithin_eq_ok h
    omega
  | succ budget ih =>
    intro f chain d t d' h hd
    obtain ⟨-, -, rest, hrest, hbody⟩ := expandWithin_eq_ok h
    obtain rfl : budget = rest := by omega
    have hgrows := fun x => Expansion.enterWith_grows (expandWithin_grows limit budget) x
    refine compileWith_sound hgrows ?_ f.body d t d' hbody hd
    intro x e t e' hx hstraight hargs
    obtain ⟨-, slots, d₁, hslots, hcall, rfl⟩ := Expansion.enterWith_eq_ok hx
    have h1 := ih _ _ _ _ _ hcall ⟨hstraight, fun i u hu =>
      hargs u (List.mem_of_getElem? ((Slots.get?_ofArgs? hslots i).symm.trans hu))⟩
    exact ⟨h1.sound.straight, h1.atom⟩

/-- The invariant after the compilation of a shape. -/
theorem Shape.compile_sound {s : Shape} {options : Options} {F : Fragment}
    (h : s.compile options = .ok F) :
    StraightLine [(options.inputName, .vec2)] F.statements ∧
      F.result.code.IsAtom ((options.inputName, .vec2) :: F.statements.map Statement.declared) .float ∧
      F.statements.map Statement.name = (List.range F.statements.length).map Emission.nameOf := by
  obtain ⟨f, slots, d, -, hslots, hbody, hty, hstmts, -⟩ := Shape.compile_eq_ok h
  have hstart : Draft.Sound [(options.inputName, .vec2)] ⟨slots, .empty⟩ := by
    refine ⟨trivial, fun i t ht => ?_⟩
    rw [Slots.get?_ofArgs? hslots i] at ht
    obtain rfl : t = .input .vec2 options.inputName := by
      simpa using List.mem_of_getElem? ht
    exact .var (List.mem_append_left _ (List.mem_singleton_self _))
  have hend := expandWithin_sound _ _ _ _ _ _ hbody hstart
  obtain ⟨new, hnew, -, hnames⟩ := ((expandWithin_grows _ _ _ _).ok hbody).emission
  rw [hstmts]
  refine ⟨hend.sound.straight, ?_, ?_⟩
  · have hatom := hend.atom
    rwa [Typed.IsAtom, hty] at hatom
  · obtain rfl : new = d.emission.statements := by simpa [Emission.empty] using hnew.symm
    simpa [Emission.empty, List.range_eq_range'] using hnames

/-- The names that are declared before a statement are the input's and the earlier ones. -/
theorem name_of_declared {ss : List Statement} {input : String} {ty : Ty}
    (hnames : ss.map Statement.name = (List.range ss.length).map Emission.nameOf) {k : Nat}
    (hk : k ≤ ss.length) {x : String} {t : Ty}
    (h : (x, t) ∈ (input, ty) :: (ss.take k).map Statement.declared) :
    x = input ∨ ∃ j < k, x = Emission.nameOf j := by
  rcases List.mem_cons.1 h with h | h
  · exact .inl (Prod.mk.inj h).1
  · have hx : x ∈ (ss.take k).map Statement.name := by
      obtain ⟨s, hs, heq⟩ := List.mem_map.1 h
      exact List.mem_map.2 ⟨s, hs, (Prod.mk.inj heq).1⟩
    rw [List.map_take, hnames, ← List.map_take, List.take_range, Nat.min_eq_left hk] at hx
    obtain ⟨j, hj, rfl⟩ := List.mem_map.1 hx
    exact .inr ⟨j, List.mem_range.1 hj, rfl⟩

/-- Whether a source text denotes a shape that compiles, with a property of the two. -/
def Shape.compilesFrom (source : String) (options : Options) (p : Shape → Fragment → Bool) : Bool :=
  match Shape.ofSource? source options 0 with
  | none => false
  | some s =>
    match s.compile options with
    | .error _ => false
    | .ok F => p s F

theorem Shape.exists_of_compilesFrom {source : String} {options : Options}
    {p : Shape → Fragment → Bool} (h : Shape.compilesFrom source options p = true) :
    ∃ s F, Shape.ofSource? source options 0 = some s ∧ s.compile options = .ok F ∧ p s F = true := by
  unfold Shape.compilesFrom at h
  split at h
  · cases h
  · next s hs =>
    split at h
    · cases h
    · next F hF => exact ⟨s, F, hs, hF, h⟩

/-- **Fragments are straight-line code.** Their statements are named in order; each is a
flat expression over the input and the statements before it; and so is the result over
all of them. -/
theorem Shape.compile_straightLine (s : Shape) (options : Options) (F : Fragment)
    (h : s.compile options = .ok F) :
    F.statements.map Statement.name = (List.range F.statements.length).map Emission.nameOf ∧
      (∀ k (hk : k < F.statements.length),
        (∀ x ∈ F.statements[k].code.vars, x = options.inputName ∨ ∃ j < k, x = Emission.nameOf j) ∧
        F.statements[k].code.IsFlat
          ((options.inputName, .vec2) :: (F.statements.take k).map Statement.declared)
          F.statements[k].ty) ∧
      ∀ x ∈ F.result.code.vars,
        x = options.inputName ∨ ∃ j < F.statements.length, x = Emission.nameOf j := by
  obtain ⟨hstraight, hresult, hnames⟩ := Shape.compile_sound h
  refine ⟨hnames, fun k hk => ?_, fun x hx => ?_⟩
  · have hflat := hstraight.isFlat hk
    refine ⟨fun x hx => ?_, hflat⟩
    obtain ⟨t, ht⟩ := hflat.mem_declared hx
    exact name_of_declared hnames (Nat.le_of_lt hk) ht
  · obtain ⟨t, ht⟩ := hresult.mem_declared hx
    rw [← List.take_length (l := F.statements)] at ht
    exact name_of_declared hnames (Nat.le_refl _) ht

set_option maxRecDepth 10000 in
theorem Shape.compile_straightLine_choice :
    ∃ s F, Shape.ofSource? "\x7bdist: p -> let i = p.x > 0 ? 0 : 1 in max(p, 0)[i]\x7d" .standard 0 = some s ∧
      s.compile .standard = .ok F ∧ F.statements.length = 5 ∧
      F.statements.map Statement.name = (List.range F.statements.length).map Emission.nameOf ∧
      (∀ k (hk : k < F.statements.length),
        (∀ x ∈ F.statements[k].code.vars, x = "P" ∨ ∃ j < k, x = Emission.nameOf j) ∧
        F.statements[k].code.IsFlat (("P", .vec2) :: (F.statements.take k).map Statement.declared)
          F.statements[k].ty) ∧
      ∀ x ∈ F.result.code.vars, x = "P" ∨ ∃ j < F.statements.length, x = Emission.nameOf j := by
  have hcheck : Shape.compilesFrom "\x7bdist: p -> let i = p.x > 0 ? 0 : 1 in max(p, 0)[i]\x7d" .standard
      (fun _ F => F.statements.length = 5) = true := by decide +kernel
  obtain ⟨s, F, hs, hF, hlen⟩ := Shape.exists_of_compilesFrom hcheck
  exact ⟨s, F, hs, hF, of_decide_eq_true hlen, Shape.compile_straightLine s .standard F hF⟩

end DistanceField
