import DistanceField.Proofs.InputName
import DistanceField.Proofs.ScopedCompilation

/-!
# Uniform emission

The code of a call does not depend on where it is emitted. A call that runs on an empty
emission and the same call that runs after other statements, with other names given out, do
the same up to the numbers of the generated names. So calls that stand side by side have no
influence on each other but this.

* `Emission.number?`: the number of a generated name.
* `shiftBy`: the renaming that adds to the numbers of generated names.
* `Closure.expand_shift`: the code of a call, emitted elsewhere.
* `expandWithin_keeps`: the parameters of a call keep their values.
* `Closure.expand_uniform`: both together.
-/

namespace DistanceField

open Shader

/-! ## Generated names -/

namespace Shader.Emission

/-- The number of a generated name. -/
def number? (x : String) : Option Nat :=
  let n := Nat.ofDigitChars 10 (x.toList.drop 1) 0
  if x = nameOf n then some n else none

theorem number?_nameOf (n : Nat) : number? (nameOf n) = some n := by
  have hdigits : (nameOf n).toList.drop 1 = Nat.toDigits 10 n := by
    simp [nameOf]
  rw [number?, hdigits, Nat.ofDigitChars_ten_toDigits]
  exact if_pos rfl

/-- All other names have none. -/
theorem number?_eq_none {x : String} (h : ∀ n, x ≠ nameOf n) : number? x = none :=
  if_neg (h _)

end Shader.Emission

/-- Adds a number to those of all generated names. -/
def shiftBy (k : Nat) : Renaming where
  name x := ((Emission.number? x).map fun n => Emission.nameOf (n + k)).getD x
  shift := k
  name_nameOf n := by rw [Emission.number?_nameOf]; rfl

theorem shiftBy_of_ne (k : Nat) {x : String} (h : ∀ n, x ≠ Emission.nameOf n) : (shiftBy k).name x = x := by
  simp only [shiftBy, Emission.number?_eq_none h, Option.map_none, Option.getD_none]

/-! ## Code without generated names -/

/-- Code is not changed by a renaming that keeps its variables. -/
theorem Shader.Code.rename_eq_self {f : String → String} {c : Code} (h : ∀ x ∈ c.vars, f x = x) :
    c.rename f = c := by
  have hall {cs : List Code} (ih : ∀ c ∈ cs, (∀ x ∈ c.vars, f x = x) → c.rename f = c)
      (h : ∀ x ∈ Code.varsOfAll cs, f x = x) : Code.renameAll f cs = cs := by
    rw [Code.renameAll_eq_map]
    refine (List.map_congr_left fun c hc => ?_).trans (List.map_id cs)
    exact ih c hc fun x hx => h x (Code.mem_varsOfAll.2 ⟨c, hc, hx⟩)
  induction c with
  | var x => rw [rename, h x List.mem_cons_self]
  | num x => rfl
  | bool b => rfl
  | construct ty parts ih => rw [rename, hall ih h]
  | unary op e ih => rw [rename, ih h]
  | binary op l r ihl ihr =>
    rw [rename, ihl fun x hx => h x (List.mem_append_left _ hx),
      ihr fun x hx => h x (List.mem_append_right _ hx)]
  | call b args ih => rw [rename, hall ih h]
  | component e i ih => rw [rename, ih h]
  | index e i ihe ihi =>
    rw [rename, ihe fun x hx => h x (List.mem_append_left _ hx),
      ihi fun x hx => h x (List.mem_append_right _ hx)]
  | select c a b ihc iha ihb =>
    rw [rename, ihc fun x hx => h x (List.mem_append_left _ (List.mem_append_left _ hx)),
      iha fun x hx => h x (List.mem_append_left _ (List.mem_append_right _ hx)),
      ihb fun x hx => h x (List.mem_append_right _ hx)]

/-- The values in the frame use no generated name. -/
def Slots.Ungenerated (slots : Slots Typed) : Prop :=
  ∀ v, some v ∈ slots → ∀ x ∈ v.code.vars, ∀ n, x ≠ Emission.nameOf n

theorem shiftBy_slots (k : Nat) {slots : Slots Typed} (h : slots.Ungenerated) :
    (shiftBy k).slots slots = slots := by
  refine (List.map_congr_left fun slot hslot => ?_).trans (List.map_id slots)
  cases slot with
  | none => rfl
  | some v =>
    have hcode : v.code.rename (shiftBy k).name = v.code :=
      Code.rename_eq_self fun x hx => shiftBy_of_ne k (h v hslot x hx)
    rw [Option.map_some, Typed.rename, hcode, id]

/-! ## Calls -/

/-- What comes of a computation, with its variables renamed, after other statements. Errors
stay as they are. -/
def Renaming.outcome (r : Renaming) (before : List Statement) :
    EStateM.Result (Failure EvalError) Draft Typed → EStateM.Result (Failure EvalError) Draft Typed
  | .ok v d => .ok (v.rename r.name) (r.draft before d)
  | .error err d => .error err (r.draft before d)

/-- **A call that is emitted after other statements** does what it does on an empty emission,
with the generated names shifted. -/
theorem Closure.expand_shift (f : Closure) (limit : Nat) (chain : Chain) {slots : Slots Typed}
    (h : slots.Ungenerated) (k : Nat) (before : List Statement) :
    f.expand limit chain ⟨slots, ⟨k, before⟩⟩ =
      (shiftBy k).outcome before (f.expand limit chain ⟨slots, .empty⟩) := by
  have hstart : (shiftBy k).draft before ⟨slots, .empty⟩ = ⟨slots, ⟨k, before⟩⟩ := by
    rw [Renaming.draft, shiftBy_slots k h]
    simp [Renaming.emission, Emission.empty, shiftBy]
  have hrun :=
    @expandWithin_commutes (shiftBy k) before limit (limit + 1 - chain.depth) f chain ⟨slots, .empty⟩
  rw [hstart] at hrun
  rw [Closure.expand, hrun]
  cases expandWithin limit (limit + 1 - chain.depth) f chain ⟨slots, .empty⟩ <;> rfl

/-- The parameters of a function with scoped code keep their values while it is compiled. -/
theorem expandWithin_keeps {f : Closure} (hf : f.WellScoped) (limit budget : Nat) (chain : Chain) :
    Moves (Draft.Keeps (List.range f.arity)) (expandWithin limit budget f chain) := by
  have hrefl (d : Draft) : d.Keeps (List.range f.arity) d := fun _ _ => rfl
  have htrans (a b c : Draft) (hab : a.Keeps (List.range f.arity) b) (hbc : b.Keeps (List.range f.arity) c) :
      a.Keeps (List.range f.arity) c := fun i hi => (hbc i hi).trans (hab i hi)
  have hwrites : ∀ slot ∈ f.body.writes, slot ∉ List.range f.arity := by
    cases hf with
    | function hcode _ _ => exact fun slot hslot hparam => hcode.2.not_mem_writes hparam hslot
  rw [expandWithin.eq_def]
  refine Moves.bind htrans (fun d => hrefl d) fun d => ?_
  dsimp only
  split_ifs
  · exact Compile.fail_moves hrefl _ _
  · exact Compile.fail_moves hrefl _ _
  · cases budget with
    | zero => exact Compile.fail_moves hrefl _ _
    | succ budget => exact compileWith_keeps hwrites

/-- **Emission is uniform.** Take a function that a caller can get from programs, in a frame
whose values use no generated name, at any depth and in any chain of calls.

Wherever its code is emitted, it is the code emitted at the start, with shifted names: the
outcome is the same, errors included, and the added statements, the result and the slots
differ in generated names only. The parameters keep their values. After another call, whatever
it does and whether or not it succeeds, the shift is by the names given out until then, and
this is all that the other call changes. -/
theorem Closure.expand_uniform (f : Closure) (hf : f.toValue.Obtainable) (limit : Nat) (chain : Chain)
    (slots : Slots Typed) (hslots : slots.Ungenerated) :
    (∀ k before, f.expand limit chain ⟨slots, ⟨k, before⟩⟩ =
      (shiftBy k).outcome before (f.expand limit chain ⟨slots, .empty⟩)) ∧
    (∀ emission, ∀ i < f.arity,
      (draftLeft (f.expand limit chain ⟨slots, emission⟩)).slots.get? i = slots.get? i) ∧
    ∀ (g : Closure) (limit' : Nat) (chain' : Chain) (d : Draft), ∃ added,
      (draftLeft (g.expand limit' chain' d)).emission =
        ⟨d.emission.nextName + added.length, d.emission.statements ++ added⟩ ∧
      f.expand limit chain ⟨slots, (draftLeft (g.expand limit' chain' d)).emission⟩ =
        (shiftBy (d.emission.nextName + added.length)).outcome (d.emission.statements ++ added)
          (f.expand limit chain ⟨slots, .empty⟩) := by
  refine ⟨f.expand_shift limit chain hslots, fun emission i hi => ?_, fun g limit' chain' d => ?_⟩
  · have hkeeps := expandWithin_keeps hf.wellScoped limit (limit + 1 - chain.depth) chain
    exact hkeeps.draftLeft ⟨slots, emission⟩ i (List.mem_range.2 hi)
  · obtain ⟨added, hstatements, hnext, -⟩ :=
      ((expandWithin_grows limit' (limit' + 1 - chain'.depth) g chain').draftLeft d).emission
    have hemission : (draftLeft (g.expand limit' chain' d)).emission =
        ⟨d.emission.nextName + added.length, d.emission.statements ++ added⟩ := by
      rw [← hstatements, ← hnext]
      rfl
    exact ⟨added, hemission, by rw [hemission, f.expand_shift limit chain hslots]⟩

/-- The distance of the two circles, emitted first and after five other names. -/
theorem Closure.expand_uniform_twoCircles :
    ∃ (f : Closure) (slots : Slots Typed) (v : Typed) (d : Draft),
      f.toValue.Obtainable ∧ slots.Ungenerated ∧ slots.get? 0 = some (.input .vec2 "P") ∧
      f.expand 256 [⟨f.name, some f.pos⟩, .root] ⟨slots, .empty⟩ = .ok v d ∧
      f.expand 256 [⟨f.name, some f.pos⟩, .root] ⟨slots, ⟨5, [⟨"r4", .float, .num 1⟩]⟩⟩ =
        .ok (v.rename (shiftBy 5).name) ((shiftBy 5).draft [⟨"r4", .float, .num 1⟩] d) := by
  obtain ⟨s, F, -, -, hs, hF, -⟩ := twoCircles_runs
  obtain ⟨f, slots, d, hf, hslots, hrun, -⟩ := Shape.compile_eq_ok hF
  have hobtain := Shape.dist_obtainable hs hf
  have hexpand : f.expand 256 [⟨f.name, some f.pos⟩, .root] ⟨slots, .empty⟩ = .ok F.result d := hrun
  have hungenerated : slots.Ungenerated := by
    intro v hv x hx n
    obtain ⟨i, hi⟩ := List.mem_iff_getElem?.1 hv
    have hget : slots.get? i = some v := by rw [Slots.get?, hi]
    rw [Slots.get?_ofArgs? hslots] at hget
    obtain rfl := List.mem_singleton.1 (List.mem_of_getElem? hget)
    obtain rfl := List.mem_singleton.1 hx
    exact fun heq => Emission.nameOf_ne (by decide) n heq.symm
  have hpoint : slots.get? 0 = some (.input .vec2 "P") := Slots.get?_ofArgs? hslots 0
  have huniform := (Closure.expand_uniform f hobtain 256 [⟨f.name, some f.pos⟩, .root] slots hungenerated).1 5
    [⟨"r4", .float, .num 1⟩]
  rw [hexpand] at huniform
  exact ⟨f, slots, F.result, d, hobtain, hungenerated, hpoint, hexpand, huniform⟩

end DistanceField
