import DistanceField.Proofs.Agreement
import DistanceField.Proofs.DepthLimit
import Mathlib.Data.Nat.Find

/-!
# Calls without branches

A function without branches makes all of its calls, whatever its arguments are. So the
calls that evaluation makes inside each other are those that the compiler expands inside
each other, and both reach the limit at the same nesting. They do not count alike: the
compiler counts the call of the distance function and evaluation does not.

* `Operation.branchless`, `Closure.Branchless`: no condition, and neither `and` nor `or`.
* `Operation.exists_apply`: evaluation without branches calls every callee.
* `Shape.stopped_iff_nesting`: the limits at which the two ways to run a shape are stopped.
-/

namespace DistanceField

open Shader

/-! ## Operations and closures without branches -/

mutual

/-- **The operation has no branches**: no condition, and neither `and` nor `or`. Functions
and records are not looked into: they have no code. -/
def Operation.branchless : Operation → Bool
  | .call callee args _ => callee.branchless && branchlessAll args
  | .builtin _ args _ => branchlessAll args
  | .unary _ e _ => e.branchless
  | .binary op l r _ => op.decisive?.isNone && l.branchless && r.branchless
  | .cond _ _ _ _ => false
  | .letIn bindings body _ => branchlessBindings bindings && body.branchless
  | .list items _ => branchlessAll items
  | .field e _ _ => e.branchless
  | .index e i _ => e.branchless && i.branchless
  | .const _ _ | .load _ _ | .lambda _ _ | .record _ _ => true

def branchlessAll : List Operation → Bool
  | [] => true
  | op :: ops => op.branchless && branchlessAll ops

def branchlessBindings : List (Nat × Operation) → Bool
  | [] => true
  | (_, op) :: bs => op.branchless && branchlessBindings bs

end

theorem branchlessAll_iff {ops : List Operation} :
    branchlessAll ops = true ↔ ∀ op ∈ ops, op.branchless = true := by
  induction ops with
  | nil => simp [branchlessAll]
  | cons op ops ih => simp [branchlessAll, ih]

theorem branchlessBindings_iff {bs : List (Nat × Operation)} :
    branchlessBindings bs = true ↔ ∀ b ∈ bs, b.2.branchless = true := by
  induction bs with
  | nil => simp [branchlessBindings]
  | cons b bs ih => simp [branchlessBindings, ih]

/-- **The closure has no branches**: neither its body, nor the functions that it calls. -/
inductive Closure.Branchless : Closure → Prop
  | intro {f : Closure} (body : f.body.branchless = true)
      (calls : ∀ g ∈ f.body.callees f.captured, g.Branchless) : f.Branchless

/-- Looks for branches in a closure and in calls that are nested less than `depth` times. -/
def Closure.branchlessWithin : Nat → Closure → Bool
  | 0, _ => false
  | depth + 1, f =>
    f.body.branchless && (f.body.callees f.captured).all (Closure.branchlessWithin depth)

theorem Closure.branchless_of_within {depth : Nat} {f : Closure}
    (h : f.branchlessWithin depth = true) : f.Branchless := by
  induction depth generalizing f with
  | zero => cases h
  | succ depth ih =>
    rw [Closure.branchlessWithin, Bool.and_eq_true, List.all_eq_true] at h
    exact .intro h.1 fun g hg => ih (h.2 g hg)

/-- The distance function has no branches. -/
def Shape.Branchless (s : Shape) : Prop :=
  ∀ f, s.dist = .ok f → f.Branchless

theorem Shape.branchless_of_within {depth : Nat} {s : Shape}
    (h : s.dist.toOption.all (Closure.branchlessWithin depth) = true) : s.Branchless := by
  intro f hf
  rw [hf] at h
  exact Closure.branchless_of_within h

/-! ## Every callee is called -/

section

variable {apply : Call → Except (Failure EvalError) Value}

/-- Arguments are evaluated one by one, each with its own callees. -/
theorem evalAll_callee {fr : Frame} {origin : Origin} {n : Nat} {ops : List Operation}
    {vs : List Value} (h : evalAll apply fr origin n ops = .ok vs) {g : Closure}
    (hg : g ∈ calleesOfAll fr.captured ops) :
    ∃ op ∈ ops, ∃ step v, op.evalWith apply fr step = .ok v ∧ g ∈ op.callees fr.captured := by
  induction ops generalizing n vs with
  | nil => cases hg
  | cons o ops ih =>
    rw [evalAll] at h
    obtain ⟨v, hv, h⟩ := Except.bind_eq_ok.1 h
    obtain ⟨ws, hws, -⟩ := Except.bind_eq_ok.1 h
    rw [calleesOfAll, List.mem_append] at hg
    rcases hg with hg | hg
    · exact ⟨o, List.mem_cons_self, _, v, hv, hg⟩
    · obtain ⟨op, hop, hrest⟩ := ih hws hg
      exact ⟨op, List.mem_cons_of_mem _ hop, hrest⟩

theorem Frame.exists_slots {fr fr' : Frame} {slot : Nat} {v : Value} (h : fr.set slot v = .ok fr') :
    ∃ slots, fr' = { fr with slots := slots } := by
  unfold Frame.set at h
  split at h
  · next slots _ => cases h; exact ⟨slots, rfl⟩
  · cases h

/-- Bindings change the slots of a frame only. -/
theorem evalBindings_captured {fr fr' : Frame} {origin : Origin} {n : Nat} {bs : List (Nat × Operation)}
    (h : evalBindings apply fr origin n bs = .ok fr') :
    fr'.captured = fr.captured ∧ ∀ b ∈ bs, ∃ inner step v,
      inner.captured = fr.captured ∧ b.2.evalWith apply inner step = .ok v := by
  induction bs generalizing fr n with
  | nil =>
    cases h
    exact ⟨rfl, List.forall_mem_nil _⟩
  | cons b bs ih =>
    rw [evalBindings] at h
    obtain ⟨v, hv, h⟩ := Except.bind_eq_ok.1 h
    obtain ⟨inner, hset, h⟩ := Except.bind_eq_ok.1 h
    obtain ⟨slots, rfl⟩ := Frame.exists_slots hset
    obtain ⟨hcaptured, hrest⟩ := ih h
    exact ⟨hcaptured, List.forall_mem_cons.2 ⟨⟨fr, _, v, rfl, hv⟩, hrest⟩⟩

/-- **Evaluation without branches calls every callee**, if it succeeds. -/
theorem Operation.exists_apply {op : Operation} (hop : op.branchless = true) {fr : Frame}
    {origin : Origin} {v : Value} (h : op.evalWith apply fr origin = .ok v) {g : Closure}
    (hg : g ∈ op.callees fr.captured) : ∃ c r, c.callee = g ∧ apply c = .ok r := by
  induction op generalizing fr origin v with
  | const value pos => cases hg
  | load ref pos => cases hg
  | lambda signature body _ => cases hg
  | call callee args pos ihf ihs =>
    rw [Operation.branchless, Bool.and_eq_true, branchlessAll_iff] at hop
    rw [Operation.evalWith] at h
    rw [Operation.callees, List.mem_append, Option.mem_toList] at hg
    obtain ⟨w, hw, h⟩ := Except.bind_eq_ok.1 h
    cases hclosure : w.closure? with
    | none => rw [hclosure] at h; cases h
    | some f =>
      rw [hclosure] at h
      obtain ⟨vs, hvs, h⟩ := Except.bind_eq_ok.1 h
      rcases hg with hknown | hg
      · -- the callee that is known beforehand is the one that evaluation finds
        obtain ⟨u, hu, hg⟩ := Option.bind_eq_some_iff.1 hknown
        rw [Operation.evalWith_of_known? hu] at hw
        cases hw
        rw [hclosure] at hg
        cases hg
        exact ⟨_, v, rfl, h⟩
      · obtain ⟨a, ha, step, u, hu, hg⟩ := evalAll_callee hvs hg
        exact ihs a ha (hop.2 a ha) hu hg
  | builtin b args pos ihs =>
    rw [Operation.branchless, branchlessAll_iff] at hop
    rw [Operation.evalWith] at h
    obtain ⟨vs, hvs, -⟩ := Except.bind_eq_ok.1 h
    obtain ⟨a, ha, step, u, hu, hg⟩ := evalAll_callee hvs hg
    exact ihs a ha (hop a ha) hu hg
  | unary op operand pos ih =>
    rw [Operation.evalWith] at h
    obtain ⟨w, hw, -⟩ := Except.bind_eq_ok.1 h
    exact ih hop hw hg
  | binary op left right pos ihl ihr =>
    rw [Operation.branchless, Bool.and_eq_true, Bool.and_eq_true, Option.isNone_iff_eq_none] at hop
    obtain ⟨⟨hnone, hleft⟩, hright⟩ := hop
    rw [Operation.evalWith] at h
    rw [Operation.callees, List.mem_append] at hg
    obtain ⟨l, hl, h⟩ := Except.bind_eq_ok.1 h
    rw [hnone] at h
    obtain ⟨r, hr, -⟩ := Except.bind_eq_ok.1 h
    rcases hg with hg | hg
    · exact ihl hleft hl hg
    · exact ihr hright hr hg
  | cond condition yes no pos _ _ _ => cases hop
  | letIn bindings body pos ihs ih =>
    rw [Operation.branchless, Bool.and_eq_true, branchlessBindings_iff] at hop
    rw [Operation.evalWith] at h
    rw [Operation.callees, List.mem_append, mem_calleesOfBindings] at hg
    obtain ⟨inner, hinner, h⟩ := Except.bind_eq_ok.1 h
    obtain ⟨hcaptured, hbindings⟩ := evalBindings_captured hinner
    rcases hg with ⟨b, hb, hg⟩ | hg
    · obtain ⟨fr', step, u, hfr', hu⟩ := hbindings b hb
      rw [← hfr'] at hg
      exact ihs b hb (hop.1 b hb) hu hg
    · rw [← hcaptured] at hg
      exact ih hop.2 h hg
  | list items pos ihs =>
    rw [Operation.branchless, branchlessAll_iff] at hop
    rw [Operation.evalWith] at h
    obtain ⟨vs, hvs, -⟩ := Except.bind_eq_ok.1 h
    obtain ⟨a, ha, step, u, hu, hg⟩ := evalAll_callee hvs hg
    exact ihs a ha (hop a ha) hu hg
  | record fields pos _ => cases hg
  | field target name pos ih =>
    rw [Operation.evalWith] at h
    obtain ⟨w, hw, -⟩ := Except.bind_eq_ok.1 h
    exact ih hop hw hg
  | index target index pos iht ihi =>
    rw [Operation.branchless, Bool.and_eq_true] at hop
    rw [Operation.evalWith] at h
    rw [Operation.callees, List.mem_append] at hg
    obtain ⟨w, hw, h⟩ := Except.bind_eq_ok.1 h
    obtain ⟨i, hi, -⟩ := Except.bind_eq_ok.1 h
    rcases hg with hg | hg
    · exact iht hop.1 hw hg
    · exact ihi hop.2 hi hg

end

/-! ## Expansions that are not stopped -/

/-- Nothing is stopped: the second compilation ends as the first one does. -/
def Compile.Same {σ α : Type} (x y : EStateM (Failure EvalError) σ α) : Prop :=
  Compile.Continued (fun _ => False) x y

section

variable {limit budget more l l' : Nat}

/-- The body of a closure that evaluation can run within a budget, expanded within this
budget or more. -/
theorem Closure.enterWith_expands {f : Closure} (hf : f.Branchless)
    (hcalls : ∀ c v, c.callee.Branchless → applyWithin limit budget c = .ok v → ∀ chain,
      Compile.Same (expandWithin l budget c.callee chain) (expandWithin l' more c.callee chain))
    {site : Chain} {origin : Origin} {args : List Value} {v : Value}
    (h : f.enterWith (applyWithin limit budget) site origin args = .ok v) (chain : Chain) :
    Compile.Same (expandWithin l (budget + 1) f chain) (expandWithin l' (more + 1) f chain) := by
  obtain ⟨hbody, hcallees⟩ := hf
  obtain ⟨fr, hfr, h⟩ := Except.bind_eq_ok.1 h
  have hcaptured : fr.captured = f.captured := by
    unfold Frame.enter at hfr
    split at hfr
    · cases hfr; rfl
    · cases hfr
  refine expandWithin_succ_continued (fun x hx => ?_) chain
  have hmem : x.callee ∈ f.body.callees fr.captured := by rw [hcaptured]; exact hx
  obtain ⟨c, r, hc, hr⟩ := Operation.exists_apply hbody h hmem
  refine Expansion.enterWith_continued ?_
  rw [← hc]
  exact hcalls c r (hc ▸ hcallees _ hx) hr _

/-- **A call that evaluation can make within a budget can be expanded within it**: a
higher one changes nothing. -/
theorem applyWithin_expands (hle : budget ≤ more) (c : Call) (v : Value) (hc : c.callee.Branchless)
    (h : applyWithin limit budget c = .ok v) (chain : Chain) :
    Compile.Same (expandWithin l budget c.callee chain) (expandWithin l' more c.callee chain) := by
  induction budget generalizing more c v chain with
  | zero =>
    unfold applyWithin at h
    split_ifs at h
  | succ budget ih =>
    obtain ⟨rest, rfl⟩ : ∃ rest, more = rest + 1 := ⟨more - 1, by omega⟩
    have hrest : budget ≤ rest := by omega
    unfold applyWithin at h
    split_ifs at h
    exact Closure.enterWith_expands hc (ih hrest) h chain

end

/-! ## Shapes -/

/-- A distance that calls a function which calls another one. -/
def nestedNorm : String :=
  "let sq = x -> x * x; norm = p -> sqrt(sq(p.x) + sq(p.y)) in \x7bdist: p -> norm(p) - 1\x7d"

namespace Shape

variable {s : Shape} {input : String}

/-- A shape that compiles under some limit does so under all limits from one on, which is
not zero, and to the same fragment. -/
theorem compile_threshold {limit : Nat} {F : Fragment} (hF : s.compile ⟨limit, input⟩ = .ok F) :
    ∃ n, ∀ d, (d ≤ n → Stopped (s.compile ⟨d, input⟩)) ∧ (n < d → s.compile ⟨d, input⟩ = .ok F) := by
  have hlimit : ¬ Stopped (s.compile ⟨limit, input⟩) := by
    rw [hF]
    exact not_stopped_ok F
  have hexists : ∃ d, ¬ Stopped (s.compile ⟨d, input⟩) := ⟨limit, hlimit⟩
  have hspec := Nat.find_spec hexists
  have hleast := (compile_continued (Nat.find_min' hexists hlimit) s input).eq hspec
  cases hfind : Nat.find hexists with
  | zero =>
    -- no budget is left for the distance function itself
    rw [hfind, hF] at hleast
    obtain ⟨f, slots, d, -, -, hexpand, -⟩ := compile_eq_ok hleast.symm
    obtain ⟨-, -, rest, hrest, -⟩ := expandWithin_eq_ok hexpand
    cases hrest
  | succ n =>
    rw [hfind] at hspec hleast
    refine ⟨n, fun d => ⟨fun hle => ?_, fun hlt => ?_⟩⟩
    · by_contra hstop
      have := Nat.find_min' hexists hstop
      omega
    · rw [(compile_continued (show n + 1 ≤ d by omega) s input).eq hspec, ← hleast, hF]

theorem distance_continued {limit limit' : Nat} (hle : limit ≤ limit') (s : Shape) (input : String)
    (origin : Origin) (point : Value) :
    Continued (s.distance ⟨limit, input⟩ origin point) (s.distance ⟨limit', input⟩ origin point) := by
  unfold distance
  cases s.dist with
  | error e => exact .refl _
  | ok f => exact (Closure.call_continued hle f origin [point]).bind fun v => .refl _

/-- Where evaluation succeeds under a limit, the compiler needs one call more. -/
theorem compile_of_distance {limit limit' : Nat} (hbranchless : s.Branchless) (hle : limit < limit')
    {origin : Origin} {point : Value} {z : Float}
    (h : s.distance ⟨limit, input⟩ origin point = .ok z) :
    s.compile ⟨limit + 1, input⟩ = s.compile ⟨limit', input⟩ := by
  obtain ⟨more, rfl⟩ : ∃ more, limit' = more + 1 := ⟨limit' - 1, by omega⟩
  have hmore : limit ≤ more := by omega
  have hexpand : ∀ f, s.dist = .ok f → ∀ chain,
      Compile.Same (expandWithin (limit + 1) (limit + 1) f chain)
        (expandWithin (more + 1) (more + 1) f chain) := by
    intro f hf chain
    unfold distance at h
    rw [hf] at h
    obtain ⟨v, hv, -⟩ := Except.bind_eq_ok.1 h
    unfold Closure.call at hv
    split_ifs at hv
    exact Closure.enterWith_expands (hbranchless f hf)
      (fun c v hc hv => applyWithin_expands hmore c v hc hv) hv chain
  rcases compile_eq_or hexpand input with ⟨e, -, hfalse⟩ | hsame
  · exact hfalse.elim
  · exact hsame

/-- **The two modes count calls differently.** For a shape without branches or computed
indices there is one number of calls inside each other. Evaluation is stopped under the
limits below this number; the compiler is stopped under this number too. -/
theorem stopped_iff_nesting (source : String) (runOptions : Options) (serial : Nat) (s : Shape)
    (hs : Shape.ofSource? source runOptions serial = some s) (hbranchless : s.Branchless)
    (limit : Nat) (input : String) (F : Fragment) (hF : s.compile ⟨limit, input⟩ = .ok F)
    (hindex : ∀ st ∈ F.statements, st.code.isIndex = false) :
    ∃ nesting, ∀ d origin x y, (Stopped (s.compile ⟨d, input⟩) ↔ d ≤ nesting) ∧
      (Stopped (s.distance ⟨d, input⟩ origin (.vector [x, y])) ↔ d < nesting) := by
  obtain ⟨nesting, hnesting⟩ := compile_threshold hF
  have hcompile : ∀ d, ¬ Stopped (s.compile ⟨d, input⟩) → nesting < d := by
    intro d hstop
    by_contra hle
    exact hstop ((hnesting d).1 (by omega))
  -- without an index, evaluation has nothing else to fail at
  have hdistance : ∀ d, nesting ≤ d → ∀ origin x y,
      ∃ z, s.distance ⟨d, input⟩ origin (.vector [x, y]) = .ok z := by
    intro d hd origin x y
    have hsucc := (hnesting (d + 1)).2 (by omega)
    have hends := distance_simulates hs hsucc ⟨d, input⟩ (le_refl _) origin x y
    obtain ⟨z, hz, -⟩ := hends.ok_or_report.resolve_right fun hfail => by
      obtain ⟨⟨st, hst, htrue, -⟩, -⟩ := hfail
      rw [hindex st hst] at htrue
      cases htrue
    exact ⟨z, hz⟩
  refine ⟨nesting, fun d origin x y => ⟨⟨fun hstop => ?_, (hnesting d).1⟩, fun hstop => ?_, fun hlt => ?_⟩⟩
  · by_contra hlt
    rw [(hnesting d).2 (by omega)] at hstop
    exact not_stopped_ok F hstop
  · by_contra hlt
    obtain ⟨z, hz⟩ := hdistance d (by omega) origin x y
    rw [hz] at hstop
    exact not_stopped_ok z hstop
  · -- if evaluation were not stopped, the compiler would need no more than one call more
    by_contra hstop
    obtain ⟨z, hz⟩ := hdistance nesting (le_refl _) origin x y
    rw [(distance_continued (Nat.le_of_lt hlt) s input origin _).eq hstop] at hz
    have hsame := compile_of_distance hbranchless (show d < nesting + 1 by omega) hz
    rw [(hnesting (nesting + 1)).2 (by omega)] at hsame
    have := hcompile (d + 1) (by rw [hsame]; exact not_stopped_ok F)
    omega

set_option maxRecDepth 10000 in
theorem stopped_iff_nestedNorm :
    ∃ s F, Shape.ofSource? nestedNorm .standard 0 = some s ∧ s.Branchless ∧
      s.compile .standard = .ok F ∧ (∀ st ∈ F.statements, st.code.isIndex = false) ∧
      ∀ d origin x y, (Stopped (s.compile ⟨d, "P"⟩) ↔ d ≤ 2) ∧
        (Stopped (s.distance ⟨d, "P"⟩ origin (.vector [x, y])) ↔ d < 2) := by
  have hcheck : Shape.compilesFrom nestedNorm .standard (fun s F =>
      F.statements.all (fun st => !st.code.isIndex) &&
        s.dist.toOption.all (Closure.branchlessWithin 3) &&
        decide (Stopped (s.compile ⟨2, "P"⟩)) && !decide (Stopped (s.compile ⟨3, "P"⟩))) = true := by
    decide +kernel
  obtain ⟨s, F, hs, hF, hcheck⟩ := Shape.exists_of_compilesFrom hcheck
  simp only [Bool.and_eq_true, List.all_eq_true, Bool.not_eq_true', decide_eq_true_eq,
    decide_eq_false_iff_not] at hcheck
  obtain ⟨⟨⟨hindex, hdist⟩, htwo⟩, hthree⟩ := hcheck
  have hbranchless := branchless_of_within hdist
  obtain ⟨nesting, hnesting⟩ :=
    stopped_iff_nesting nestedNorm .standard 0 s hs hbranchless 256 "P" F hF hindex
  -- the compiler is stopped under the limit two, and not under three
  have hle : 2 ≤ nesting := (hnesting 2 [] 0 0).1.1 htwo
  have hge : nesting < 3 := by
    by_contra hlt
    exact hthree ((hnesting 3 [] 0 0).1.2 (by omega))
  obtain rfl : nesting = 2 := by omega
  exact ⟨s, F, hs, hbranchless, hF, hindex, hnesting⟩

set_option maxRecDepth 10000 in
/-- A distance function that calls nothing: evaluation needs no limit, the compiler does. -/
theorem compile_stopped_alone :
    ∃ s F, Shape.ofSource? "\x7bdist: p -> p.x\x7d" .standard 0 = some s ∧ s.Branchless ∧
      s.compile .standard = .ok F ∧ (∀ st ∈ F.statements, st.code.isIndex = false) ∧
      Stopped (s.compile ⟨0, "P"⟩) ∧ ¬ Stopped (s.distance ⟨0, "P"⟩ [1] (.vector [3, 4])) := by
  have hcheck : Shape.compilesFrom "\x7bdist: p -> p.x\x7d" .standard (fun s F =>
      F.statements.all (fun st => !st.code.isIndex) &&
        s.dist.toOption.all (Closure.branchlessWithin 1) && decide (Stopped (s.compile ⟨0, "P"⟩)) &&
        !decide (Stopped (s.distance ⟨0, "P"⟩ [1] (.vector [3, 4])))) = true := by
    decide +kernel
  obtain ⟨s, F, hs, hF, hcheck⟩ := Shape.exists_of_compilesFrom hcheck
  simp only [Bool.and_eq_true, List.all_eq_true, Bool.not_eq_true', decide_eq_true_eq,
    decide_eq_false_iff_not] at hcheck
  obtain ⟨⟨⟨hindex, hdist⟩, hcompile⟩, hdistance⟩ := hcheck
  exact ⟨s, F, hs, branchless_of_within hdist, hF, hindex, hcompile, hdistance⟩

end Shape

end DistanceField
