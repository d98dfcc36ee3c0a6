import DistanceField.Proofs.Branchless
import DistanceField.Proofs.CompileFailures

/-!
# Calls nested as closures are

The compiler expands calls of known closures only, and what a body knows comes from the
values that its closure captured. A closure captures values that exist before it, so the
closures that are expanded inside each other are nested in each other as values. This bounds
the calls of a compilation, whatever the bodies do: a function that calls itself through an
argument has no end when it is evaluated, but the compiler does not follow it.

* `Value.rank`: how deep closures are nested in a value.
* `Closure.rank_lt`: the closures that a body calls have smaller ranks.
* `Closure.Opens`: the frames that a compilation opens.
* `expandRefusing_eq`, `expandWithin_not_limit`: compilation stays within the rank.
* `Closure.expand_bounded`: frames, the limit of nested calls, and shapes.
-/

namespace DistanceField

open Shader

/-! ## Ranks -/

mutual

/-- **The rank of a value**: how deep closures are nested in it, each among the values that
the next one captured. -/
def Value.rank : Value → Nat
  | .null => 0
  | .bool _ => 0
  | .num _ => 0
  | .str _ => 0
  | .list items => rankOfAll items
  | .record fields => rankOfFields fields
  | .function _ captured _ => 1 + rankOfAll captured

def rankOfAll : List Value → Nat
  | [] => 0
  | v :: vs => max v.rank (rankOfAll vs)

def rankOfFields : List (String × Value) → Nat
  | [] => 0
  | (_, v) :: fs => max v.rank (rankOfFields fs)

end

def Closure.rank (f : Closure) : Nat := f.toValue.rank

theorem rank_le_rankOfAll {v : Value} {vs : List Value} (h : v ∈ vs) : v.rank ≤ rankOfAll vs := by
  induction vs with
  | nil => cases h
  | cons w vs ih =>
    rw [rankOfAll]
    rcases List.mem_cons.1 h with rfl | h
    · exact Nat.le_max_left _ _
    · exact Nat.le_trans (ih h) (Nat.le_max_right _ _)

theorem rank_le_rankOfFields {f : String × Value} {fs : List (String × Value)} (h : f ∈ fs) :
    f.2.rank ≤ rankOfFields fs := by
  induction fs with
  | nil => cases h
  | cons g fs ih =>
    rw [rankOfFields]
    rcases List.mem_cons.1 h with rfl | h
    · exact Nat.le_max_left _ _
    · exact Nat.le_trans (ih h) (Nat.le_max_right _ _)

/-- What is known in a body has at most the rank of the captured values. -/
theorem Operation.rank_known? {captured : List Value} {op : Operation} {v : Value}
    (h : op.known? captured = some v) : v.rank ≤ rankOfAll captured := by
  refine Operation.known?_induction (P := fun v => v.rank ≤ rankOfAll captured) (fun l => ?_)
    (fun v hv => rank_le_rankOfAll hv) (fun fields hrecord f hf => ?_) h
  · cases l <;> exact Nat.zero_le _
  · exact Nat.le_trans (rank_le_rankOfFields hf) hrecord

/-- The closures that an operation calls are known. -/
theorem Operation.exists_known? {captured : List Value} {op : Operation} {g : Closure}
    (h : g ∈ op.callees captured) :
    ∃ (callee : Operation) (v : Value), callee.known? captured = some v ∧ v.closure? = some g := by
  induction op with
  | const value pos => cases h
  | load ref pos => cases h
  | lambda signature body _ => cases h
  | call callee args pos _ ihs =>
    rw [Operation.callees, List.mem_append, Option.mem_toList, mem_calleesOfAll] at h
    rcases h with hknown | ⟨a, ha, h⟩
    · exact ⟨callee, Option.bind_eq_some_iff.1 hknown⟩
    · exact ihs a ha h
  | builtin b args pos ihs =>
    obtain ⟨a, ha, h⟩ := mem_calleesOfAll.1 h
    exact ihs a ha h
  | unary op operand pos ih => exact ih h
  | binary op left right pos ihl ihr =>
    rcases List.mem_append.1 h with h | h
    · exact ihl h
    · exact ihr h
  | cond condition yes no pos ihc iha ihb =>
    rw [Operation.callees, List.mem_append, List.mem_append] at h
    rcases h with (h | h) | h
    · exact ihc h
    · exact iha h
    · exact ihb h
  | letIn bindings body pos ihs ih =>
    rw [Operation.callees, List.mem_append, mem_calleesOfBindings] at h
    rcases h with ⟨b, hb, h⟩ | h
    · exact ihs b hb h
    · exact ih h
  | list items pos ihs =>
    obtain ⟨a, ha, h⟩ := mem_calleesOfAll.1 h
    exact ihs a ha h
  | record fields pos _ => cases h
  | field target name pos ih => exact ih h
  | index target index pos iht ihi =>
    rcases List.mem_append.1 h with h | h
    · exact iht h
    · exact ihi h

namespace Closure

theorem rank_eq (f : Closure) : f.rank = 1 + rankOfAll f.captured := by
  rw [rank, toValue, Value.rank]

/-- **The closures that a body calls have smaller ranks.** -/
theorem rank_lt {f g : Closure} (h : g ∈ f.body.callees f.captured) : g.rank < f.rank := by
  obtain ⟨callee, v, hknown, hclosure⟩ := Operation.exists_known? h
  have hle := Operation.rank_known? hknown
  rw [Value.closure?_eq_some hclosure] at hle
  have hrank := f.rank_eq
  have : g.rank ≤ rankOfAll f.captured := hle
  omega

end Closure

/-! ## Frames -/

/-- Compiles a body in a frame that is checked first. -/
def Closure.inChecked (f : Closure) (chain : Chain) (body : Compile Typed) : Compile Typed := do
  let d ← get
  let given := d.slots.given f.arity
  if d.slots.length ≠ f.slots then
    Compile.fail chain f.pos (.frameSize f.label f.slots d.slots.length)
  else if given ≠ f.arity then
    Compile.fail chain f.pos (.arity f.label f.arity given)
  else body

theorem expandWithin_succ (limit budget : Nat) (f : Closure) (chain : Chain) :
    expandWithin limit (budget + 1) f chain = f.inChecked chain
      (f.body.compileWith (Expansion.enterWith (expandWithin limit budget)) f.captured chain) := by
  rw [expandWithin, Closure.inChecked]

/-- As `expandWithin`, but the frame at the end of the chain `refused` is not opened: there
the compilation fails. -/
def expandRefusing (refused : Chain) (err : Failure EvalError) (limit : Nat) :
    (budget : Nat) → Closure → Chain → Compile Typed
  | 0, f, chain => expandWithin limit 0 f chain
  | budget + 1, f, chain =>
    f.inChecked chain (f.body.compileWith (Expansion.enterWith fun g inner =>
      if inner = refused then throw err else expandRefusing refused err limit budget g inner)
      f.captured chain)

/-- **The compilation opens the frame** at the end of the chain `inner`. A failure in a frame
is a failure of the whole; so a frame is opened if a failure in its place can be seen. -/
def Closure.Opens (f : Closure) (limit : Nat) (chain : Chain) (d : Draft) (inner : Chain) : Prop :=
  ∃ err, expandRefusing inner err limit (limit + 1 - chain.depth) f chain d ≠ f.expand limit chain d

section

variable {f : Closure} {chain : Chain}

theorem Closure.inChecked_continued {R : Failure EvalError → Prop} {body body' : Compile Typed}
    (h : Compile.Continued R body body') :
    Compile.Continued R (f.inChecked chain body) (f.inChecked chain body') := by
  unfold Closure.inChecked
  refine (Compile.Continued.refl _).bind fun d => ?_
  dsimp only
  split_ifs
  · exact .refl _
  · exact .refl _
  · exact h

theorem Closure.inChecked_failsIn {E : Failure EvalError → Prop}
    (hfault : ∀ pos (fault : Fault), fault.kind ≠ .recursionLimit → E (fault.atPos pos chain))
    {body : Compile Typed} (h : FailsIn E body) : FailsIn E (f.inChecked chain body) := by
  unfold Closure.inChecked
  refine .get fun d => ?_
  dsimp only
  split_ifs
  · exact Compile.fail_failsIn hfault _ (of_decide_eq_true rfl)
  · exact Compile.fail_failsIn hfault _ (of_decide_eq_true rfl)
  · exact h

end

theorem Compile.Same.eq {σ α : Type} {x y : EStateM (Failure EvalError) σ α} (h : Compile.Same x y) :
    x = y := by
  funext s
  rcases h s with ⟨e, t, -, hfalse⟩ | heq
  · exact hfalse.elim
  · exact heq

/-! ## Compilation stays within the rank -/

/-- **Frames beyond the rank are not opened**: to refuse one makes no difference. -/
theorem expandRefusing_eq {refused : Chain} {err : Failure EvalError} {limit budget : Nat} {f : Closure}
    {chain : Chain} (h : chain.length + f.rank ≤ refused.length) :
    expandRefusing refused err limit budget f chain = expandWithin limit budget f chain := by
  refine Compile.Same.eq ?_
  induction budget generalizing f chain with
  | zero => exact .refl _
  | succ budget ih =>
    rw [expandRefusing, expandWithin_succ]
    refine Closure.inChecked_continued (f.body.compileWith_continued fun x hx hchain => ?_)
    subst hchain
    have hlt := Closure.rank_lt hx
    -- the frame of the call is one step further, and the closure in it has a smaller rank
    have hinner : (⟨x.callee.name, some x.pos⟩ :: x.chain : Chain).length + x.callee.rank ≤
        refused.length := by
      rw [List.length_cons]
      omega
    have hne : ⟨x.callee.name, some x.pos⟩ :: x.chain ≠ refused := by
      rintro rfl
      have hpos := x.callee.rank_eq
      omega
    refine Expansion.enterWith_continued ?_
    rw [if_neg hne]
    exact ih hinner

theorem Fault.not_isLimit {chain : Chain} (pos : Pos) (fault : Fault) (h : fault.kind ≠ .recursionLimit) :
    ¬ (fault.atPos pos chain).IsLimit := h

/-- **Within the rank there is no failure by the limit.** -/
theorem expandWithin_not_limit {limit budget : Nat} {f : Closure} {chain : Chain} (h : f.rank ≤ budget) :
    FailsIn (fun e => ¬ e.IsLimit) (expandWithin limit budget f chain) := by
  induction budget generalizing f chain with
  | zero =>
    have hpos := f.rank_eq
    omega
  | succ budget ih =>
    rw [expandWithin_succ]
    refine Closure.inChecked_failsIn Fault.not_isLimit ?_
    refine f.body.compileWith_failsIn Fault.not_isLimit id fun x hx hchain => ?_
    have hlt := Closure.rank_lt hx
    exact Expansion.enterWith_failsIn Fault.not_isLimit id hchain (ih (by omega))

/-- Within the rank, nothing depends on the limit. -/
theorem expandWithin_eq_of_rank {limit limit' budget budget' : Nat} {f : Closure} (h : f.rank ≤ budget)
    (h' : f.rank ≤ budget') (chain : Chain) (d : Draft) :
    expandWithin limit budget f chain d = expandWithin limit' budget' f chain d := by
  -- both are continued under the larger of the two limits
  have hlarger (l b : Nat) (hb : f.rank ≤ b) (hle : b ≤ max budget budget') :
      expandWithin l b f chain d = expandWithin limit' (max budget budget') f chain d := by
    rcases expandWithin_continued hle f chain d with ⟨e, t, hstop, hlimit⟩ | heq
    · exact absurd hlimit (expandWithin_not_limit hb d e t hstop)
    · exact heq
  rw [hlarger limit budget h (Nat.le_max_left _ _), hlarger limit' budget' h' (Nat.le_max_right _ _)]

/-! ## Shapes -/

theorem Shape.dist_not_limit {s : Shape} {e : EvalError} (h : s.dist = .error e) :
    e.fault.kind ≠ .recursionLimit := by
  unfold dist at h
  split at h
  · cases h
    exact of_decide_eq_true rfl
  · split at h
    · cases h
      exact of_decide_eq_true rfl
    · split_ifs at h
      cases h
      exact of_decide_eq_true rfl

theorem attempt_failsIn {E : Failure EvalError → Prop} {body : EStateM (Failure EvalError) Emission Typed}
    (h : FailsIn E body) : FailsIn E (attempt body) := by
  intro e err e' hrun
  cases hbody : body ⟨e.nextName, []⟩ with
  | ok v t =>
    rw [attempt_of_ok hbody] at hrun
    cases hrun
  | error err' t =>
    rw [attempt_of_error hbody] at hrun
    cases hrun
    exact h _ _ _ hbody

/-- A shape is not stopped under a limit that reaches the rank of its distance function. -/
theorem Shape.compile_not_stopped {s : Shape} {options : Options}
    (h : ∀ f, s.dist = .ok f → f.rank ≤ options.maxDepth) : ¬ Stopped (s.compile options) := by
  unfold compile
  cases hdist : s.dist with
  | error e => exact fun hstop => Shape.dist_not_limit hdist (stopped_error.1 hstop)
  | ok f =>
    have hcompile : FailsIn (fun e => ¬ e.IsLimit)
        (compileDist f options.maxDepth [⟨f.name, some f.pos⟩, .root]) := by
      refine (expandWithin_not_limit (h f hdist)).bind fun v => ?_
      split_ifs
      · exact .pure v
      · exact Compile.fail_failsIn Fault.not_isLimit _ (of_decide_eq_true rfl)
    have hemit : FailsIn (fun e => ¬ e.IsLimit)
        (s.emitDistance options.maxDepth (.input .vec2 options.inputName) [.root]) := by
      unfold emitDistance
      rw [hdist]
      exact attempt_failsIn (inFrame_failsIn id hcompile _)
    dsimp only
    cases hrun : s.emitDistance options.maxDepth (.input .vec2 options.inputName) [.root] .empty with
    | ok v t => exact not_stopped_ok _
    | error err t => exact fun hstop => hemit _ _ _ hrun (stopped_error.1 hstop)

/-! ## The bound -/

/-- **Compilation is bounded by the nesting of closures.** Take any function, in a frame of
depth `n` with any slots and any code emitted before. Every frame that is opened while the
function is compiled has at most the depth `n + rank - 1`. So where the limit is not below
this, calls are not nested too deeply, and every other such limit gives the same outcome. In
particular a shape whose distance function has at most the rank of the limit is not stopped. -/
theorem Closure.expand_bounded :
    (∀ (f : Closure) (limit : Nat) (site : Site) (callers : Chain) (d : Draft),
      (∀ inner, f.Opens limit (site :: callers) d inner →
        inner.depth ≤ Chain.depth (site :: callers) + f.rank - 1) ∧
      (Chain.depth (site :: callers) + f.rank - 1 ≤ limit →
        (∀ err d', f.expand limit (site :: callers) d = .error err d' → ¬ err.IsLimit) ∧
        ∀ limit', Chain.depth (site :: callers) + f.rank - 1 ≤ limit' →
          f.expand limit' (site :: callers) d = f.expand limit (site :: callers) d)) ∧
    ∀ (s : Shape) (options : Options), (∀ f, s.dist = .ok f → f.rank ≤ options.maxDepth) →
      ¬ Stopped (s.compile options) := by
  refine ⟨fun f limit site callers d => ⟨fun inner hopens => ?_, fun hlimit => ?_⟩,
    fun s options h => Shape.compile_not_stopped h⟩
  · by_contra hdeep
    obtain ⟨err, hne⟩ := hopens
    refine hne (congrFun (expandRefusing_eq ?_) d)
    have hpos := f.rank_eq
    simp only [Chain.depth, List.length_cons] at hdeep ⊢
    omega
  · have hbudget (l : Nat) (hl : Chain.depth (site :: callers) + f.rank - 1 ≤ l) :
        f.rank ≤ l + 1 - Chain.depth (site :: callers) := by omega
    refine ⟨fun err d' hrun => expandWithin_not_limit (hbudget limit hlimit) d err d' hrun, ?_⟩
    exact fun limit' hlimit' => expandWithin_eq_of_rank (hbudget limit' hlimit') (hbudget limit hlimit) _ d

/-- A distance with a function that calls itself without end, through its own argument. -/
def selfApplied : String :=
  "let loop = (g, n) -> g(g, n + 1); sq = x -> x * x; norm = p -> sqrt(sq(p.x) + sq(p.y)) in " ++
    "\x7bdist: p -> norm(p) + loop(loop, p.x)\x7d"

/-- The frame of the innermost call in its distance function. -/
def selfAppliedFrame : Chain :=
  [⟨some "sq", some ⟨1, 71⟩⟩, ⟨some "norm", some ⟨1, 107⟩⟩, ⟨some "dist", some ⟨1, 98⟩⟩, .root]

set_option maxRecDepth 10000 in
/-- The bound is reached, by a frame and by the limit, and evaluation goes on until the
standard limit stops it. -/
theorem Closure.expand_bounded_selfApplied :
    ∃ (s : Shape) (f : Closure) (slots : Slots Typed),
      Shape.ofSource? selfApplied .standard 0 = some s ∧ s.dist = .ok f ∧ f.rank = 3 ∧
      Slots.ofArgs? f.slots [.input .vec2 "P"] = some slots ∧
      f.Opens 256 [⟨f.name, some f.pos⟩, .root] ⟨slots, .empty⟩ selfAppliedFrame ∧
      selfAppliedFrame.depth = 3 ∧
      selfAppliedFrame.depth ≤ Chain.depth [⟨f.name, some f.pos⟩, .root] + f.rank - 1 ∧
      (∀ err d', f.expand 3 [⟨f.name, some f.pos⟩, .root] ⟨slots, .empty⟩ = .error err d' → ¬ err.IsLimit) ∧
      Stopped (s.compile ⟨2, "P"⟩) ∧ ¬ Stopped (s.compile ⟨3, "P"⟩) ∧
      Stopped (s.distance .standard [1] (.vector [3, 4])) := by
  have hcheck : ((Shape.ofSource? selfApplied .standard 0).any fun s =>
      decide (Stopped (s.compile ⟨2, "P"⟩)) && decide (Stopped (s.distance .standard [1] (.vector [3, 4]))) &&
      s.dist.toOption.any fun f => decide (f.rank = 3) &&
        (Slots.ofArgs? f.slots [.input .vec2 "P"]).any fun slots =>
          decide ((draftLeft (expandRefusing selfAppliedFrame .outOfBounds 256 256 f
              [⟨f.name, some f.pos⟩, .root] ⟨slots, .empty⟩)).emission.nextName ≠
            (draftLeft (f.expand 256 [⟨f.name, some f.pos⟩, .root] ⟨slots, .empty⟩)).emission.nextName)) = true := by
    decide +kernel
  simp only [Option.any_eq_true, Bool.and_eq_true, decide_eq_true_eq] at hcheck
  obtain ⟨s, hs, ⟨htwo, hdistance⟩, f, hf, hrank, slots, hslots, hnames⟩ := hcheck
  have hdist : s.dist = .ok f := by
    cases hdist : s.dist with
    | error e => rw [hdist] at hf; cases hf
    | ok g => rw [hdist] at hf; cases hf; rfl
  obtain ⟨hcalls, hshapes⟩ := Closure.expand_bounded
  -- a refused frame leaves other code
  have hopens : f.Opens 256 [⟨f.name, some f.pos⟩, .root] ⟨slots, .empty⟩ selfAppliedFrame :=
    ⟨.outOfBounds, fun heq => hnames (congrArg (fun r => (draftLeft r).emission.nextName) heq)⟩
  have hdepth := (hcalls f 256 ⟨f.name, some f.pos⟩ [.root] ⟨slots, .empty⟩).1 selfAppliedFrame hopens
  have hbound : Chain.depth [⟨f.name, some f.pos⟩, .root] + f.rank - 1 ≤ 3 := by
    simp only [Chain.depth, List.length_cons, List.length_nil]
    omega
  have hlimit := ((hcalls f 3 ⟨f.name, some f.pos⟩ [.root] ⟨slots, .empty⟩).2 hbound).1
  have hthree : ¬ Stopped (s.compile ⟨3, "P"⟩) := by
    refine hshapes s ⟨3, "P"⟩ fun g hg => ?_
    rw [hdist] at hg
    cases hg
    exact Nat.le_of_eq hrank
  exact ⟨s, f, slots, hs, hdist, hrank, hslots, hopens, rfl, hdepth, hlimit, htwo, hthree, hdistance⟩

end DistanceField
