import DistanceField.Proofs.ScopedRuns
import DistanceField.Proofs.StraightLine
import Mathlib.Tactic.SplitIfs

/-!
# The limit of nested calls

A run asks for the limit only to stop. So a run that was not stopped goes the same way
under every higher limit: the same calls are made, the same statements are emitted, and
the outcome is the same value or the same error.

* `Stopped`: the run ended because calls were nested too deeply.
* `Continued`, `Compile.Continued`: what one run does, another does too, unless the first
  one was stopped.
* `Operation.callees`: the closures whose code is expanded in an operation.
* `applyWithin_continued`, `expandWithin_continued`: calls under a higher limit.
* `limit_raised`: programs, calls from outside and compiled shapes.
-/

namespace DistanceField

open Shader

/-! ## Runs that are stopped -/

/-- The failure is that calls were nested too deeply. -/
def Failure.IsLimit : Failure EvalError → Prop
  | .report e => e.fault.kind = .recursionLimit
  | .outOfBounds => False

instance (e : Failure EvalError) : Decidable e.IsLimit :=
  match e with
  | .report e => inferInstanceAs (Decidable (e.fault.kind = .recursionLimit))
  | .outOfBounds => inferInstanceAs (Decidable False)

/-- The run was stopped at the limit of nested calls. -/
def Stopped {α : Type} (x : Except (Failure EvalError) α) : Prop :=
  ∃ e, x = .error e ∧ e.IsLimit

theorem not_stopped_ok {α : Type} (a : α) : ¬ Stopped (.ok a) := by
  rintro ⟨e, he, -⟩
  cases he

theorem stopped_error {α : Type} {e : Failure EvalError} :
    Stopped (.error e : Except (Failure EvalError) α) ↔ e.IsLimit := by
  constructor
  · rintro ⟨e', he, h⟩
    cases he
    exact h
  · exact fun h => ⟨e, rfl, h⟩

instance {α : Type} (x : Except (Failure EvalError) α) : Decidable (Stopped x) :=
  match x with
  | .ok a => isFalse (not_stopped_ok a)
  | .error _ => decidable_of_iff _ stopped_error.symm

/-- The second run ends as the first one does, unless the first one was stopped. -/
def Continued {α : Type} (x y : Except (Failure EvalError) α) : Prop :=
  Stopped x ∨ x = y

namespace Continued

variable {α β : Type} {x y : Except (Failure EvalError) α}

theorem refl (x : Except (Failure EvalError) α) : Continued x x := .inr rfl

theorem bind {f g : α → Except (Failure EvalError) β} (hxy : Continued x y)
    (hfg : ∀ a, Continued (f a) (g a)) : Continued (x >>= f) (y >>= g) := by
  rcases hxy with ⟨e, rfl, hstop⟩ | rfl
  · exact .inl ⟨e, rfl, hstop⟩
  · cases x with
    | ok a => exact hfg a
    | error e => exact .inr rfl

theorem eq (h : Continued x y) (hx : ¬ Stopped x) : y = x :=
  (h.resolve_left hx).symm

end Continued

/-! ## Evaluation -/

section

variable {apply apply' : Call → Except (Failure EvalError) Value}

theorem evalAll_continued {ops : List Operation}
    (ih : ∀ op ∈ ops, ∀ fr origin,
      Continued (op.evalWith apply fr origin) (op.evalWith apply' fr origin))
    (fr : Frame) (origin : Origin) (n : Nat) :
    Continued (evalAll apply fr origin n ops) (evalAll apply' fr origin n ops) := by
  induction ops generalizing n with
  | nil => exact .refl _
  | cons op ops ihs =>
    have htail := ihs (fun o ho => ih o (List.mem_cons_of_mem _ ho)) (n + 1)
    rw [evalAll, evalAll]
    refine (ih op List.mem_cons_self fr _).bind fun v => ?_
    exact htail.bind fun vs => .refl _

theorem evalFields_continued {fs : List (String × Operation)}
    (ih : ∀ f ∈ fs, ∀ fr origin,
      Continued (f.2.evalWith apply fr origin) (f.2.evalWith apply' fr origin))
    (fr : Frame) (origin : Origin) (n : Nat) :
    Continued (evalFields apply fr origin n fs) (evalFields apply' fr origin n fs) := by
  induction fs generalizing n with
  | nil => exact .refl _
  | cons f fs ihs =>
    have htail := ihs (fun o ho => ih o (List.mem_cons_of_mem _ ho)) (n + 1)
    rw [evalFields, evalFields]
    refine (ih f List.mem_cons_self fr _).bind fun v => ?_
    exact htail.bind fun vs => .refl _

theorem evalBindings_continued {bs : List (Nat × Operation)}
    (ih : ∀ b ∈ bs, ∀ fr origin,
      Continued (b.2.evalWith apply fr origin) (b.2.evalWith apply' fr origin))
    (fr : Frame) (origin : Origin) (n : Nat) :
    Continued (evalBindings apply fr origin n bs) (evalBindings apply' fr origin n bs) := by
  induction bs generalizing fr n with
  | nil => exact .refl _
  | cons b bs ihs =>
    rw [evalBindings, evalBindings]
    refine (ih b List.mem_cons_self fr _).bind fun v => ?_
    refine (Continued.refl (fr.set b.1 v)).bind fun fr' => ?_
    exact ihs (fun o ho => ih o (List.mem_cons_of_mem _ ho)) fr' (n + 1)

variable (happly : ∀ c, Continued (apply c) (apply' c))

include happly in
/-- **Evaluation is continued where its calls are.** -/
theorem Operation.evalWith_continued (op : Operation) (fr : Frame) (origin : Origin) :
    Continued (op.evalWith apply fr origin) (op.evalWith apply' fr origin) := by
  induction op generalizing fr origin with
  | const value pos => exact .refl _
  | load ref pos => exact .refl _
  | lambda signature body _ => exact .refl _
  | call callee args pos ihf ihs =>
    rw [Operation.evalWith, Operation.evalWith]
    refine (ihf fr _).bind fun v => ?_
    cases v.closure? with
    | none => exact .refl _
    | some f => exact (evalAll_continued ihs fr origin 1).bind fun vs => happly _
  | builtin b args pos ihs =>
    rw [Operation.evalWith, Operation.evalWith]
    exact (evalAll_continued ihs fr origin 0).bind fun vs => .refl _
  | unary op operand pos ih =>
    rw [Operation.evalWith, Operation.evalWith]
    exact (ih fr _).bind fun v => .refl _
  | binary op left right pos ihl ihr =>
    rw [Operation.evalWith, Operation.evalWith]
    refine (ihl fr _).bind fun l => ?_
    cases op.decisive? with
    | none => exact (ihr fr _).bind fun r => .refl _
    | some decisive =>
      refine (Continued.refl _).bind fun b => ?_
      split_ifs
      · exact .refl _
      · exact (ihr fr _).bind fun r => .refl _
  | cond condition yes no pos ihc iha ihb =>
    rw [Operation.evalWith, Operation.evalWith]
    refine (ihc fr _).bind fun c => (Continued.refl _).bind fun test => ?_
    split_ifs
    · exact iha fr _
    · exact ihb fr _
  | letIn bindings body pos ihs ih =>
    rw [Operation.evalWith, Operation.evalWith]
    exact (evalBindings_continued ihs fr origin 1).bind fun inner => ih inner _
  | list items pos ihs =>
    rw [Operation.evalWith, Operation.evalWith]
    exact (evalAll_continued ihs fr origin 0).bind fun vs => .refl _
  | record fields pos ihs =>
    rw [Operation.evalWith, Operation.evalWith]
    exact (evalFields_continued ihs fr origin 0).bind fun vs => .refl _
  | field target name pos ih =>
    rw [Operation.evalWith, Operation.evalWith]
    exact (ih fr _).bind fun v => .refl _
  | index target index pos iht ihi =>
    rw [Operation.evalWith, Operation.evalWith]
    exact (iht fr _).bind fun v => (ihi fr _).bind fun i => .refl _

include happly in
theorem Closure.enterWith_continued (f : Closure) (chain : Chain) (origin : Origin)
    (args : List Value) :
    Continued (f.enterWith apply chain origin args) (f.enterWith apply' chain origin args) := by
  rw [Closure.enterWith, Closure.enterWith]
  exact (Continued.refl _).bind fun fr => Operation.evalWith_continued happly f.body fr origin

end

/-- **A call is continued under a higher limit.** -/
theorem applyWithin_continued {limit limit' budget budget' : Nat} (hle : budget ≤ budget') (c : Call) :
    Continued (applyWithin limit budget c) (applyWithin limit' budget' c) := by
  induction budget generalizing budget' c with
  | zero =>
    unfold applyWithin
    split_ifs with harity
    · exact .refl _
    · exact .inl ⟨_, rfl, rfl⟩
  | succ budget ih =>
    obtain ⟨more, rfl⟩ : ∃ more, budget' = more + 1 := ⟨budget' - 1, by omega⟩
    have hle' : budget ≤ more := by omega
    unfold applyWithin
    split_ifs with harity
    · exact .refl _
    · exact Closure.enterWith_continued (fun c => ih hle' c) c.callee _ _ _

theorem Closure.call_continued {limit limit' : Nat} (hle : limit ≤ limit') (f : Closure)
    (origin : Origin) (args : List Value) :
    Continued (f.call limit origin args) (f.call limit' origin args) := by
  unfold Closure.call
  split_ifs
  · exact .refl _
  · exact Closure.enterWith_continued (fun c => applyWithin_continued hle c) f _ _ _

/-! ## Compilation -/

mutual

/-- **The closures that an operation calls**, given the captured values. Functions and
records are not looked into: they have no code. -/
def Operation.callees (captured : List Value) : Operation → List Closure
  | .call callee args _ =>
    ((callee.known? captured).bind Value.closure?).toList ++ calleesOfAll captured args
  | .builtin _ args _ => calleesOfAll captured args
  | .unary _ e _ => e.callees captured
  | .binary _ l r _ => l.callees captured ++ r.callees captured
  | .cond c a b _ => c.callees captured ++ a.callees captured ++ b.callees captured
  | .letIn bindings body _ => calleesOfBindings captured bindings ++ body.callees captured
  | .list items _ => calleesOfAll captured items
  | .field e _ _ => e.callees captured
  | .index e i _ => e.callees captured ++ i.callees captured
  | .const _ _ | .load _ _ | .lambda _ _ | .record _ _ => []

def calleesOfAll (captured : List Value) : List Operation → List Closure
  | [] => []
  | op :: ops => op.callees captured ++ calleesOfAll captured ops

def calleesOfBindings (captured : List Value) : List (Nat × Operation) → List Closure
  | [] => []
  | (_, op) :: bs => op.callees captured ++ calleesOfBindings captured bs

end

theorem mem_calleesOfAll {captured : List Value} {ops : List Operation} {f : Closure} :
    f ∈ calleesOfAll captured ops ↔ ∃ op ∈ ops, f ∈ op.callees captured := by
  induction ops with
  | nil => simp [calleesOfAll]
  | cons op ops ih => simp [calleesOfAll, ih]

theorem mem_calleesOfBindings {captured : List Value} {bs : List (Nat × Operation)} {f : Closure} :
    f ∈ calleesOfBindings captured bs ↔ ∃ b ∈ bs, f ∈ b.2.callees captured := by
  induction bs with
  | nil => simp [calleesOfBindings]
  | cons b bs ih => simp [calleesOfBindings, ih]

namespace Compile

/-- From every state, the second compilation ends as the first one does, unless the first
one fails as `R` says. -/
def Continued {σ α : Type} (R : Failure EvalError → Prop) (x y : EStateM (Failure EvalError) σ α) : Prop :=
  ∀ s, (∃ e t, x s = .error e t ∧ R e) ∨ x s = y s

namespace Continued

variable {σ α β : Type} {R : Failure EvalError → Prop} {x y : EStateM (Failure EvalError) σ α}

theorem refl (x : EStateM (Failure EvalError) σ α) : Compile.Continued R x x := fun _ => .inr rfl

theorem bind {f g : α → EStateM (Failure EvalError) σ β} (hxy : Compile.Continued R x y)
    (hfg : ∀ a, Compile.Continued R (f a) (g a)) : Compile.Continued R (x >>= f) (y >>= g) := by
  intro s
  simp only [Bind.bind, EStateM.bind]
  rcases hxy s with ⟨e, t, hx, hR⟩ | heq
  · rw [hx]
    exact .inl ⟨e, t, rfl, hR⟩
  · rw [heq]
    cases y s with
    | ok a t => exact hfg a t
    | error e t => exact .inr rfl

end Continued

end Compile

section

variable {R : Failure EvalError → Prop}
  {expand expand' : Expansion → EStateM (Failure EvalError) Emission Typed}
  {captured : List Value} {chain : Chain}

theorem compileAll_continued {ops : List Operation}
    (ih : ∀ op ∈ ops, Compile.Continued R (op.compileWith expand captured chain)
      (op.compileWith expand' captured chain)) :
    Compile.Continued R (compileAll expand captured chain ops)
      (compileAll expand' captured chain ops) := by
  induction ops with
  | nil => exact .refl _
  | cons op ops ihs =>
    have htail := ihs fun o ho => ih o (List.mem_cons_of_mem _ ho)
    rw [compileAll, compileAll]
    refine (ih op List.mem_cons_self).bind fun v => ?_
    exact htail.bind fun vs => .refl _

theorem compileParts_continued {ops : List Operation}
    (ih : ∀ op ∈ ops, Compile.Continued R (op.compileWith expand captured chain)
      (op.compileWith expand' captured chain)) :
    Compile.Continued R (compileParts expand captured chain ops)
      (compileParts expand' captured chain ops) := by
  induction ops with
  | nil => exact .refl _
  | cons op ops ihs =>
    have htail := ihs fun o ho => ih o (List.mem_cons_of_mem _ ho)
    rw [compileParts, compileParts]
    refine (ih op List.mem_cons_self).bind fun v => ?_
    split_ifs
    · exact htail.bind fun codes => .refl _
    · exact .refl _

theorem compileBindings_continued {bs : List (Nat × Operation)}
    (ih : ∀ b ∈ bs, Compile.Continued R (b.2.compileWith expand captured chain)
      (b.2.compileWith expand' captured chain)) :
    Compile.Continued R (compileBindings expand captured chain bs)
      (compileBindings expand' captured chain bs) := by
  induction bs with
  | nil => exact .refl _
  | cons b bs ihs =>
    have htail := ihs fun o ho => ih o (List.mem_cons_of_mem _ ho)
    rw [compileBindings, compileBindings]
    refine (ih b List.mem_cons_self).bind fun v => ?_
    exact (Compile.Continued.refl _).bind fun _ => htail

theorem Compile.call_continued {x : Expansion} (hx : Compile.Continued R (expand x) (expand' x)) :
    Compile.Continued R (Compile.call expand x) (Compile.call expand' x) := by
  intro d
  unfold Compile.call
  rcases hx d.emission with ⟨e, t, hx, hR⟩ | heq
  · rw [hx]
    exact .inl ⟨e, _, rfl, hR⟩
  · rw [heq]
    exact .inr rfl

/-- **Compilation is continued where its calls are.** -/
theorem Operation.compileWith_continued (op : Operation)
    (hexpand : ∀ x : Expansion, x.callee ∈ op.callees captured → x.chain = chain →
      Compile.Continued R (expand x) (expand' x)) :
    Compile.Continued R (op.compileWith expand captured chain)
      (op.compileWith expand' captured chain) := by
  induction op with
  | const value pos => rw [compileWith, compileWith]; exact .refl _
  | load ref pos => cases ref <;> (rw [compileWith, compileWith]; exact .refl _)
  | lambda signature body _ => rw [compileWith, compileWith]; exact .refl _
  | call callee args pos _ ihs =>
    simp only [Operation.callees, List.mem_append, Option.mem_toList, mem_calleesOfAll] at hexpand
    have hargs := compileAll_continued fun a ha => ihs a ha fun x hx => hexpand x (.inr ⟨a, ha, hx⟩)
    rw [compileWith, compileWith]
    cases hf : (callee.known? captured).bind Value.closure? with
    | none => exact .refl _
    | some f => exact hargs.bind fun vs => Compile.call_continued (hexpand _ (.inl hf) rfl)
  | builtin b args pos ihs =>
    simp only [Operation.callees, mem_calleesOfAll] at hexpand
    have hargs := compileAll_continued fun a ha => ihs a ha fun x hx => hexpand x ⟨a, ha, hx⟩
    rw [compileWith, compileWith]
    exact hargs.bind fun vs => .refl _
  | unary op operand pos ih =>
    rw [compileWith, compileWith]
    exact (ih hexpand).bind fun v => .refl _
  | binary op left right pos ihl ihr =>
    simp only [Operation.callees, List.mem_append] at hexpand
    have hright := ihr fun x hx => hexpand x (.inr hx)
    rw [compileWith, compileWith]
    exact (ihl fun x hx => hexpand x (.inl hx)).bind fun l => hright.bind fun r => .refl _
  | cond condition yes no pos ihc iha ihb =>
    simp only [Operation.callees, List.mem_append] at hexpand
    have hyes := iha fun x hx => hexpand x (.inl (.inr hx))
    have hno := ihb fun x hx => hexpand x (.inr hx)
    rw [compileWith, compileWith]
    refine (ihc fun x hx => hexpand x (.inl (.inl hx))).bind fun c => ?_
    split_ifs
    · exact .refl _
    · split
      · exact hyes
      · exact hno
      · exact hyes.bind fun a => hno.bind fun b => .refl _
  | letIn bindings body pos ihs ih =>
    simp only [Operation.callees, List.mem_append, mem_calleesOfBindings] at hexpand
    have hbindings := compileBindings_continued fun b hb =>
      ihs b hb fun x hx => hexpand x (.inl ⟨b, hb, hx⟩)
    rw [compileWith, compileWith]
    exact hbindings.bind fun _ => ih fun x hx => hexpand x (.inr hx)
  | list items pos ihs =>
    simp only [Operation.callees, mem_calleesOfAll] at hexpand
    have hitems := compileParts_continued fun a ha => ihs a ha fun x hx => hexpand x ⟨a, ha, hx⟩
    rw [compileWith, compileWith]
    cases Ty.vector? items.length with
    | none => exact .refl _
    | some ty => exact hitems.bind fun parts => .refl _
  | record fields pos _ => rw [compileWith, compileWith]; exact .refl _
  | field target name pos ih =>
    rw [compileWith, compileWith]
    cases (Operation.field target name pos).known? captured with
    | some v => exact .refl _
    | none =>
      dsimp only
      split
      · exact .refl _
      · exact (ih hexpand).bind fun v => .refl _
  | index target index pos iht ihi =>
    simp only [Operation.callees, List.mem_append] at hexpand
    have hindex := ihi fun x hx => hexpand x (.inr hx)
    rw [compileWith, compileWith]
    exact (iht fun x hx => hexpand x (.inl hx)).bind fun v => hindex.bind fun i => .refl _

theorem inFrame_continued {body body' : Compile Typed} (h : Compile.Continued R body body')
    (slots : Option (Slots Typed)) :
    Compile.Continued R (inFrame body slots) (inFrame body' slots) := by
  intro e
  cases slots with
  | none => exact .inr rfl
  | some s =>
    simp only [inFrame]
    rcases h ⟨s, e⟩ with ⟨err, d, hbody, hR⟩ | heq
    · rw [hbody]
      exact .inl ⟨err, d.emission, rfl, hR⟩
    · rw [heq]
      exact .inr rfl

theorem Expansion.enterWith_continued {compile compile' : Closure → Chain → Compile Typed}
    {x : Expansion} (h : Compile.Continued R (compile x.callee (⟨x.callee.name, some x.pos⟩ :: x.chain))
      (compile' x.callee (⟨x.callee.name, some x.pos⟩ :: x.chain))) :
    Compile.Continued R (x.enterWith compile) (x.enterWith compile') := by
  intro e
  unfold Expansion.enterWith
  dsimp only
  split_ifs
  · exact .inr rfl
  · exact inFrame_continued h _ e

/-- An expansion is continued where the calls in its body are. -/
theorem expandWithin_succ_continued {limit limit' budget budget' : Nat} {f : Closure}
    (h : ∀ x : Expansion, x.callee ∈ f.body.callees f.captured →
      Compile.Continued R (x.enterWith (expandWithin limit budget))
        (x.enterWith (expandWithin limit' budget'))) (chain : Chain) :
    Compile.Continued R (expandWithin limit (budget + 1) f chain)
      (expandWithin limit' (budget' + 1) f chain) := by
  unfold expandWithin
  refine (Compile.Continued.refl _).bind fun d => ?_
  dsimp only
  split_ifs
  · exact .refl _
  · exact .refl _
  · exact f.body.compileWith_continued fun x hx _ => h x hx

end

/-- **An expansion is continued under a higher limit.** -/
theorem expandWithin_continued {limit limit' budget budget' : Nat} (hle : budget ≤ budget')
    (f : Closure) (chain : Chain) :
    Compile.Continued Failure.IsLimit (expandWithin limit budget f chain)
      (expandWithin limit' budget' f chain) := by
  induction budget generalizing budget' f chain with
  | zero =>
    unfold expandWithin
    refine (Compile.Continued.refl _).bind fun d => ?_
    dsimp only
    split_ifs
    · exact .refl _
    · exact .refl _
    · exact fun d => .inl ⟨_, d, rfl, rfl⟩
  | succ budget ih =>
    obtain ⟨more, rfl⟩ : ∃ more, budget' = more + 1 := ⟨budget' - 1, by omega⟩
    have hle' : budget ≤ more := by omega
    exact expandWithin_succ_continued
      (fun x _ => Expansion.enterWith_continued (ih hle' x.callee _)) chain

namespace Shape

variable {R : Failure EvalError → Prop} {s : Shape} {limit limit' : Nat}

theorem attempt_continued {body body' : EStateM (Failure EvalError) Emission Typed}
    (h : Compile.Continued R body body') : Compile.Continued R (attempt body) (attempt body') := by
  intro e
  unfold attempt
  rcases h { e with statements := [] } with ⟨err, e', hbody, hR⟩ | heq
  · rw [hbody]
    exact .inl ⟨err, _, rfl, hR⟩
  · rw [heq]
    exact .inr rfl

/-- A shape is compiled alike under two limits if the code of its distance function is. -/
theorem compile_eq_or (h : ∀ f, s.dist = .ok f → ∀ chain,
      Compile.Continued R (expandWithin limit limit f chain) (expandWithin limit' limit' f chain))
    (input : String) :
    (∃ e, s.compile ⟨limit, input⟩ = .error e ∧ R e) ∨
      s.compile ⟨limit, input⟩ = s.compile ⟨limit', input⟩ := by
  have hemit : Compile.Continued R (s.emitDistance limit (.input .vec2 input) [.root])
      (s.emitDistance limit' (.input .vec2 input) [.root]) := by
    unfold emitDistance
    cases hdist : s.dist with
    | error e => exact .refl _
    | ok f =>
      refine attempt_continued (inFrame_continued ?_ _)
      unfold compileDist Closure.expand
      exact (h f hdist _).bind fun v => .refl _
  unfold compile
  cases s.dist with
  | error e => exact .inr rfl
  | ok f =>
    dsimp only
    rcases hemit .empty with ⟨e, t, hstop, hR⟩ | heq
    · rw [hstop]
      exact .inl ⟨e, rfl, hR⟩
    · rw [heq]
      exact .inr rfl

theorem compile_continued (hle : limit ≤ limit') (s : Shape) (input : String) :
    Continued (s.compile ⟨limit, input⟩) (s.compile ⟨limit', input⟩) :=
  compile_eq_or (fun f _ chain => expandWithin_continued hle f chain) input

end Shape

/-! ## Programs, calls and shapes -/

/-- **Raising the limit does not change a finished result.** What is not stopped under a
limit has the same outcome under every higher one: a program, a call of any function on
any arguments, and the compilation of any shape. -/
theorem limit_raised (limit limit' : Nat) (hle : limit ≤ limit') :
    (∀ (p : Program) (input : String) (serial : Nat), ¬ Stopped (p.run ⟨limit, input⟩ serial) →
      p.run ⟨limit', input⟩ serial = p.run ⟨limit, input⟩ serial) ∧
    (∀ (f : Closure) (origin : Origin) (args : List Value), ¬ Stopped (f.call limit origin args) →
      f.call limit' origin args = f.call limit origin args) ∧
    ∀ (s : Shape) (input : String), ¬ Stopped (s.compile ⟨limit, input⟩) →
      s.compile ⟨limit', input⟩ = s.compile ⟨limit, input⟩ := by
  refine ⟨fun p input serial hrun => ?_, fun f origin args hcall => ?_, fun s input hcompile => ?_⟩
  · exact (Closure.call_continued hle _ _ _).eq hrun
  · exact (Closure.call_continued hle f origin args).eq hcall
  · exact (Shape.compile_continued hle s input).eq hcompile

/-- A program with six calls inside each other, and a shape whose distance makes one. -/
def countdown : String :=
  "let down = (self, n) -> n <= 0 ? 0 : self(self, n - 1); half = x -> x / 2; " ++
    "a = down(down, 5) in \x7bdist: p -> half(length(p)) - a\x7d"

set_option maxRecDepth 10000 in
theorem limit_raised_countdown :
    ∃ (p : Program) (s : Shape) (f : Closure) (F : Fragment) (v : Value),
      Program.ofSource countdown = .ok p ∧ s.dist = .ok f ∧
      p.run ⟨6, "P"⟩ 0 = .ok (.record s.fields) ∧ p.run ⟨256, "P"⟩ 0 = .ok (.record s.fields) ∧
      f.call 6 [1] [.vector [3, 4]] = .ok v ∧ f.call 256 [1] [.vector [3, 4]] = .ok v ∧
      s.compile ⟨6, "P"⟩ = .ok F ∧ s.compile ⟨256, "P"⟩ = .ok F := by
  have hcheck : Shape.compilesFrom countdown ⟨6, "P"⟩
      (fun s _ => s.dist.toOption.any fun f => (f.call 6 [1] [.vector [3, 4]]).isOk) = true := by
    decide +kernel
  obtain ⟨s, F, hs, hF, hcheck⟩ := Shape.exists_of_compilesFrom hcheck
  obtain ⟨p, hp, hv⟩ := Shape.run_eq_record hs
  obtain ⟨hrun, hcall, hcompile⟩ := limit_raised 6 256 (by decide)
  cases hdist : s.dist with
  | error e => rw [hdist] at hcheck; cases hcheck
  | ok f =>
    rw [hdist] at hcheck
    obtain ⟨v, hcallv⟩ := Except.isOk_iff.1 hcheck
    refine ⟨p, s, f, F, v, hp, hdist, hv, ?_, hcallv, ?_, hF, ?_⟩
    · exact (hrun p "P" 0 (by rw [hv]; exact not_stopped_ok _)).trans hv
    · exact (hcall f [1] _ (by rw [hcallv]; exact not_stopped_ok _)).trans hcallv
    · exact (hcompile s "P" (by rw [hF]; exact not_stopped_ok _)).trans hF

end DistanceField
