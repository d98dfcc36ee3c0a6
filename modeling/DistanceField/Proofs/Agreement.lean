import DistanceField.Proofs.Simulation

/-!
# The two ways to run a shape agree

The distance of a point can be evaluated, or the distance function can be compiled once
and its fragment run at the point. For a shape that a source text denotes, and unless a
statement takes the name of the input:

* `Shape.evaluate_eq_distance`: where both give a result, it is the same number;
* `Shape.compile_typeSafe`: neither fails, except at an index that is out of range.
-/

namespace DistanceField

open Shader

/-- The stores in which a fragment can end at a point. -/
def Shader.Fragment.Ending (F : Fragment) (input : String) (point : Value) (σ : Store) : Prop :=
  σ.lookup input = some point ∧ σ.Solves F.statements

section

variable {source : String} {runOptions : Options} {serial : Nat} {s : Shape} {options : Options}
  {F : Fragment}

/-- **Evaluation of the distance** at a point, next to the compiled distance. The compiler
counts the outermost call and evaluation does not, so evaluation needs a limit of one less. -/
theorem Shape.distance_simulates (hs : Shape.ofSource? source runOptions serial = some s)
    (hF : s.compile options = .ok F) (evalOptions : Options)
    (hle : options.maxDepth ≤ evalOptions.maxDepth + 1) (origin : Origin) (x y : Float) :
    Ends (IndexFailure (F.Ending options.inputName (.vector [x, y])) F.statements)
      (fun d => Denotes (F.Ending options.inputName (.vector [x, y])) F.result (.num d))
      (s.distance evalOptions origin (.vector [x, y])) := by
  obtain ⟨f, slots, d, hdist, hslots, hexpand, hty, hstmts, -⟩ := Shape.compile_eq_ok hF
  obtain ⟨-, -, rest, hrest, hbody⟩ := expandWithin_eq_ok hexpand
  obtain ⟨hf, harity⟩ := Shape.dist_wellScoped hs hdist
  have hP : ∀ σ, F.Ending options.inputName (.vector [x, y]) σ → σ.Solves F.statements :=
    fun σ hσ => hσ.2
  have hpoint : Denotes (F.Ending options.inputName (.vector [x, y]))
      (.input .vec2 options.inputName) (.vector [x, y]) :=
    Denotes.input fun σ hσ => hσ.1
  have hcalls : CallsAgree (F.Ending options.inputName (.vector [x, y])) F.statements
      (Expansion.enterWith (expandWithin options.maxDepth rest))
      (applyWithin evalOptions.maxDepth evalOptions.maxDepth) :=
    expandWithin_simulates hP rest evalOptions.maxDepth (by omega)
  have hends := Closure.enterWith_simulates
    (Expansion.enterWith_grows (expandWithin_grows options.maxDepth rest)) hP hcalls hf
    (.cons hpoint .nil) hslots hbody (by rw [hstmts]; exact List.Subset.refl _) [⟨f.name, none⟩] origin
  unfold Shape.distance
  rw [hdist]
  dsimp only
  unfold Closure.call
  rw [if_neg (by simp [harity])]
  refine hends.bind fun v hv => ?_
  obtain ⟨z, rfl⟩ := (hty ▸ hv.hasTy : v.HasTy .float).eq_num
  exact hv

theorem Shape.distance_ends (hs : Shape.ofSource? source runOptions serial = some s)
    (hF : s.compile options = .ok F) (origin : Origin) (x y : Float) :
    Ends (RangeFailure F.statements)
      (fun d => Denotes (F.Ending options.inputName (.vector [x, y])) F.result (.num d))
      (s.distance options origin (.vector [x, y])) :=
  (Shape.distance_simulates hs hF options (Nat.le_succ _) origin x y).mono_error fun _ he => he.rangeFailure

theorem Shape.evaluate_eq (hF : s.compile options = .ok F) (point : Value) :
    F.evaluate point =
      match runStatements F.statements [(options.inputName, point)] with
      | .ok () σ => F.result.code.eval σ
      | .error e _ => .error e := by
  obtain ⟨f, slots, d, -, -, -, -, -, hinput⟩ := Shape.compile_eq_ok hF
  rw [Fragment.evaluate, hinput]
  rfl

/-- **Evaluation of the fragment** at a point. -/
theorem Shape.evaluate_ends (hF : s.compile options = .ok F)
    (hinput : ∀ st ∈ F.statements, st.name ≠ options.inputName) (x y : Float) :
    Ends (fun e => (∃ st ∈ F.statements, st.code.isIndex = true) ∧ Failure.OutOfRange id e)
      (fun v => ∃ d, v = .num d) (F.evaluate (.vector [x, y])) := by
  obtain ⟨hstraight, hresult, -⟩ := Shape.compile_sound hF
  have hrun := runStatements_types hstraight (Shape.compile_fresh hF hinput)
    (input_types options.inputName x y)
  rw [Shape.evaluate_eq hF]
  cases h : runStatements F.statements [(options.inputName, .vector [x, y])] with
  | error e σ =>
    rw [h] at hrun
    exact hrun
  | ok u σ =>
    rw [h] at hrun
    obtain ⟨v, hv, hty⟩ := hresult.eval_typed hrun
    dsimp only
    rw [hv]
    exact hty.eq_num

end

/-- Two circles of radius one. -/
def twoCircles : String :=
  "let c = r -> \x7bdist: p -> length(p) - r\x7d; a = c(1) in " ++
    "\x7bdist: p -> min(a.dist(p), a.dist(p - [2, 0]))\x7d"

set_option maxRecDepth 10000 in
theorem twoCircles_runs :
    ∃ s F d v, Shape.ofSource? twoCircles .standard 0 = some s ∧ s.compile .standard = .ok F ∧
      (∀ st ∈ F.statements, st.name ≠ "P") ∧ s.distance .standard [1] (.vector [3, 4]) = .ok d ∧
      F.evaluate (.vector [3, 4]) = .ok v := by
  have hcheck : Shape.compilesFrom twoCircles .standard (fun s F =>
      F.statements.all (fun st => st.name ≠ "P") && (s.distance .standard [1] (.vector [3, 4])).isOk &&
        (F.evaluate (.vector [3, 4])).isOk) = true := by decide +kernel
  obtain ⟨s, F, hs, hF, hchecks⟩ := Shape.exists_of_compilesFrom hcheck
  simp only [Bool.and_eq_true, List.all_eq_true, decide_eq_true_eq] at hchecks
  obtain ⟨⟨hinput, hd⟩, hv⟩ := hchecks
  cases hdist : s.distance .standard [1] (.vector [3, 4]) with
  | error e => rw [hdist] at hd; cases hd
  | ok d =>
    cases heval : F.evaluate (.vector [3, 4]) with
    | error e => rw [heval] at hv; cases hv
    | ok v => exact ⟨s, F, d, v, hs, hF, hinput, hdist, heval⟩

/-- **The two modes agree.** Where evaluation gives a distance and the fragment gives a
value, the value is this distance. -/
theorem Shape.evaluate_eq_distance (source : String) (runOptions : Options) (serial : Nat) (s : Shape)
    (hs : Shape.ofSource? source runOptions serial = some s) (options : Options) (F : Fragment)
    (hF : s.compile options = .ok F)
    (hinput : ∀ st ∈ F.statements, st.name ≠ options.inputName) (origin : Origin) (x y d : Float)
    (v : Value) (hd : s.distance options origin (.vector [x, y]) = .ok d)
    (hv : F.evaluate (.vector [x, y]) = .ok v) : v = .num d := by
  have hdenotes := (Shape.distance_ends hs hF origin x y).of_eq_ok hd
  have hstraight := (Shape.compile_sound hF).1
  have hfresh := Shape.compile_fresh hF hinput
  rw [Shape.evaluate_eq hF] at hv
  split at hv
  · next σ hrun =>
    have hname : options.inputName ∉ F.statements.map Statement.name := by
      intro hmem
      obtain ⟨st, hst, heq⟩ := List.mem_map.1 hmem
      exact hinput st hst heq
    -- the run ends in one of the stores that the result was shown to denote its value in
    have hending : F.Ending options.inputName (.vector [x, y]) σ := by
      refine ⟨?_, runStatements_solves hstraight hfresh hrun⟩
      rw [lookup_runStatements hrun hname]
      exact List.lookup_cons_self
    have heval := hdenotes.eval σ (.inr hending)
    exact Except.ok.inj (hv.symm.trans heval)
  · cases hv

theorem Shape.evaluate_eq_distance_twoCircles :
    ∃ s F d v, Shape.ofSource? twoCircles .standard 0 = some s ∧ s.compile .standard = .ok F ∧
      (∀ st ∈ F.statements, st.name ≠ "P") ∧ s.distance .standard [1] (.vector [3, 4]) = .ok d ∧
      F.evaluate (.vector [3, 4]) = .ok v ∧ v = .num d := by
  obtain ⟨s, F, d, v, hs, hF, hinput, hd, hv⟩ := twoCircles_runs
  exact ⟨s, F, d, v, hs, hF, hinput, hd, hv, Shape.evaluate_eq_distance twoCircles .standard 0 s hs
    .standard F hF hinput [1] 3 4 d v hd hv⟩

/-- What holds of both ways to run a shape at a point, if it compiles to the fragment. -/
structure Shape.TypeSafe (s : Shape) (options : Options) (F : Fragment) (origin : Origin)
    (point : Value) : Prop where
  /-- The fragment gives a number, or an index is out of range. -/
  evaluate : (∃ d, F.evaluate point = .ok (.num d)) ∨
    ∃ f, F.evaluate point = .error (.report f) ∧ f.kind = .outOfRange
  /-- So does evaluation. -/
  distance : (∃ d, s.distance options origin point = .ok d) ∨
    ∃ e, s.distance options origin point = .error (.report e) ∧ e.fault.kind = .outOfRange
  /-- Without an index among the statements, both give a number. -/
  total : (∀ st ∈ F.statements, st.code.isIndex = false) →
    (∃ d, F.evaluate point = .ok (.num d)) ∧ ∃ d, s.distance options origin point = .ok d
  /-- A statement that is executed gives its variable a value of the declared type. -/
  typed : ∀ before st after σ v, F.statements = before ++ st :: after →
    runStatements before [(options.inputName, point)] = .ok () σ → st.code.eval σ = .ok v →
    v.HasTy st.ty

/-- A computation that can fail only out of range has a result, or it reports so. -/
theorem Ends.ok_or_report {ε α : Type} {A : Prop} {fault : ε → Fault} {P : α → Prop}
    {x : Except (Failure ε) α} (h : Ends (fun e => A ∧ Failure.OutOfRange fault e) P x) :
    (∃ a, x = .ok a ∧ P a) ∨ A ∧ ∃ r, x = .error (.report r) ∧ (fault r).kind = .outOfRange := by
  cases x with
  | ok a => exact .inl ⟨a, rfl, h⟩
  | error e =>
    cases e with
    | report r => exact .inr ⟨h.1, r, rfl, h.2⟩
    | outOfBounds => exact h.2.elim

/-- **Compiled shapes are type safe.** -/
theorem Shape.compile_typeSafe (source : String) (runOptions : Options) (serial : Nat) (s : Shape)
    (hs : Shape.ofSource? source runOptions serial = some s) (options : Options) (F : Fragment)
    (hF : s.compile options = .ok F)
    (hinput : ∀ st ∈ F.statements, st.name ≠ options.inputName) (origin : Origin) (x y : Float) :
    s.TypeSafe options F origin (.vector [x, y]) := by
  have hevaluate := (Shape.evaluate_ends hF hinput x y).ok_or_report
  have hdistance := (Shape.distance_ends hs hF origin x y).ok_or_report
  refine ⟨?_, ?_, fun hindex => ?_, ?_⟩
  · rcases hevaluate with ⟨v, hv, d, rfl⟩ | ⟨-, hreport⟩
    · exact .inl ⟨d, hv⟩
    · exact .inr hreport
  · rcases hdistance with ⟨d, hd, -⟩ | ⟨-, hreport⟩
    · exact .inl ⟨d, hd⟩
    · exact .inr hreport
  · have hnone : ¬ ∃ st ∈ F.statements, st.code.isIndex = true := by
      rintro ⟨st, hst, htrue⟩
      rw [hindex st hst] at htrue
      cases htrue
    obtain ⟨v, hv, d, rfl⟩ := hevaluate.resolve_right fun h => hnone h.1
    obtain ⟨e, he, -⟩ := hdistance.resolve_right fun h => hnone h.1
    exact ⟨⟨d, hv⟩, e, he⟩
  · intro before st after σ v hsplit hrun hv
    have hstraight := (Shape.compile_sound hF).1
    have hfresh := Shape.compile_fresh hF hinput
    rw [hsplit, straightLine_append] at hstraight
    rw [hsplit, Fresh, List.map_append, ← List.append_assoc] at hfresh
    have htypes := runStatements_types hstraight.1 (List.nodup_append.1 hfresh).1
      (input_types options.inputName x y)
    rw [hrun] at htypes
    exact (hstraight.2.1.eval_ends htypes).of_eq_ok hv

theorem Shape.compile_typeSafe_twoCircles :
    ∃ s F, Shape.ofSource? twoCircles .standard 0 = some s ∧ s.compile .standard = .ok F ∧
      (∀ st ∈ F.statements, st.name ≠ "P") ∧ s.TypeSafe .standard F [1] (.vector [3, 4]) := by
  obtain ⟨s, F, d, v, hs, hF, hinput, -, -⟩ := twoCircles_runs
  exact ⟨s, F, hs, hF, hinput, Shape.compile_typeSafe twoCircles .standard 0 s hs .standard F hF hinput [1] 3 4⟩

end DistanceField
