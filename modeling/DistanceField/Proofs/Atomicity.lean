import DistanceField.Proofs.FragmentRuns

/-!
# Distances are emitted whole or not at all

The code of a distance is made on an empty list of statements. If all of it compiles, the
statements are appended to those of the enclosing emission; if anything fails, the
enclosing emission keeps its own. The names of statements that were dropped stay used.

* `Emission.made`: the statements that a computation makes, kept or not.
* `Emission.HandsOut`: their names are new, and no later statement gets one of them.
* `Shape.emitDistance_atomic`: all statements are kept, or none.
-/

namespace DistanceField

namespace Shader.Emission

variable {ε α : Type}

/-- The statements that a computation makes on its own list when the names of `e` are
used, whether it succeeds or not. -/
def made (body : EStateM ε Emission α) (e : Emission) : List Statement :=
  match body ⟨e.nextName, []⟩ with
  | .ok _ e' => e'.statements
  | .error _ e' => e'.statements

/-- Between two states of an emission, the names that follow were given out to the
statements `ss`, and whatever name is given out later is none of theirs. -/
structure HandsOut (e : Emission) (ss : List Statement) (e' : Emission) : Prop where
  names : ss.map Statement.name = (List.range' e.nextName ss.length).map nameOf
  counter : e'.nextName = e.nextName + ss.length
  fresh : ∀ later : Emission, e'.nextName ≤ later.nextName →
    later.freshName.1 ∉ ss.map Statement.name

/-- A name above the counter was not given out. -/
theorem Grows.handsOut {e e₁ : Emission} (h : Grows ⟨e.nextName, []⟩ e₁) (ss : List Statement) :
    e.HandsOut e₁.statements ⟨e₁.nextName, ss⟩ := by
  obtain ⟨new, hnew, hcounter, hnames⟩ := h
  rw [List.nil_append] at hnew
  subst hnew
  refine ⟨hnames, hcounter, fun later hlater hmem => ?_⟩
  -- a later name has a number that none of these has
  rw [hnames] at hmem
  obtain ⟨i, hi, heq⟩ := List.mem_map.1 hmem
  have hrange := List.mem_range'_1.1 hi
  have hname : i = later.nextName := nameOf_injective heq
  dsimp only at hcounter hlater hrange
  omega

end Shader.Emission

open Shader

/-- What an attempt keeps of the statements that its body makes: all, or none. -/
theorem attempt_keeps {ε α : Type} {body : EStateM ε Emission α} (h : Moves Emission.Grows body)
    (e : Emission) :
    match attempt body e with
    | .ok _ e' => e'.statements = e.statements ++ e.made body ∧ e.HandsOut (e.made body) e'
    | .error _ e' => e'.statements = e.statements ∧ e.HandsOut (e.made body) e' := by
  unfold Emission.made
  cases hbody : body ⟨e.nextName, []⟩ with
  | ok a e₁ =>
    rw [attempt_of_ok hbody]
    exact ⟨rfl, (h.ok hbody).handsOut _⟩
  | error err e₁ =>
    rw [attempt_of_error hbody]
    exact ⟨rfl, (h.error hbody).handsOut _⟩

namespace Shape

/-- The distance of a typed point as code, where all statements stay. -/
def tryDistance (s : Shape) (limit : Nat) (point : Typed) (chain : Chain) :
    EStateM (Failure EvalError) Emission Typed :=
  match s.dist with
  | .error e => throw (.report (e.within chain))
  | .ok f => inFrame (compileDist f limit (⟨f.name, some f.pos⟩ :: chain)) (Slots.ofArgs? f.slots [point])

theorem emitDistance_eq_attempt (s : Shape) (limit : Nat) (point : Typed) (chain : Chain) :
    s.emitDistance limit point chain = attempt (s.tryDistance limit point chain) := by
  unfold emitDistance tryDistance
  cases s.dist with
  | error err => rfl
  | ok f => rfl

theorem compileDist_grows (f : Closure) (limit : Nat) (chain : Chain) :
    Moves Draft.Grows (compileDist f limit chain) := by
  unfold compileDist
  refine (expandWithin_grows limit _ f chain).bind Draft.Grows.trans fun v => ?_
  split_ifs
  · exact Moves.pure Draft.Grows.refl v
  · exact Compile.fail_moves Draft.Grows.refl _ _

theorem tryDistance_grows (s : Shape) (limit : Nat) (point : Typed) (chain : Chain) :
    Moves Emission.Grows (s.tryDistance limit point chain) := by
  unfold tryDistance
  cases s.dist with
  | error err => exact fun e => .refl e
  | ok f => exact inFrame_grows (compileDist_grows f limit _) _

/-- A distance is a float. -/
theorem tryDistance_eq_ok {s : Shape} {limit : Nat} {point v : Typed} {chain : Chain}
    {e e' : Emission} (h : s.tryDistance limit point chain e = .ok v e') : v.ty = .float := by
  unfold tryDistance at h
  cases hf : s.dist with
  | error err =>
    rw [hf] at h
    cases h
  | ok f =>
    rw [hf] at h
    obtain ⟨slots, d, -, hbody, -⟩ := inFrame_eq_ok.1 h
    obtain ⟨w, d₁, -, hw⟩ := EStateM.bind_eq_ok.1 hbody
    split_ifs at hw with hfloat
    · obtain ⟨rfl, -⟩ := EStateM.pure_eq_ok.1 hw
      exact hfloat
    · cases hw

/-- **A distance is emitted whole or not at all.** If it fails, at the distance function,
in any call inside it or at its result, the statements of the enclosing emission are what
they were. If it succeeds, it is a float, and all statements made for it come after them.
Either way these statements have the names that follow, one by one, and the names are
never given out again. -/
theorem emitDistance_atomic (s : Shape) (limit : Nat) (point : Typed) (chain : Chain)
    (e : Emission) :
    match s.emitDistance limit point chain e with
    | .ok v e' =>
      v.ty = .float ∧ e'.statements = e.statements ++ e.made (s.tryDistance limit point chain) ∧
        e.HandsOut (e.made (s.tryDistance limit point chain)) e'
    | .error _ e' =>
      e'.statements = e.statements ∧ e.HandsOut (e.made (s.tryDistance limit point chain)) e' := by
  have hkeeps := attempt_keeps (s.tryDistance_grows limit point chain) e
  rw [emitDistance_eq_attempt]
  cases hrun : attempt (s.tryDistance limit point chain) e with
  | error err e' => rwa [hrun] at hkeeps
  | ok v e' =>
    obtain ⟨e₁, hbody, -⟩ := attempt_eq_ok hrun
    rw [hrun] at hkeeps
    exact ⟨tryDistance_eq_ok hbody, hkeeps⟩

end Shape

end DistanceField
