import DistanceField.Proofs.ClosureRank

/-!
# Backtraces

An error lists the calls that are under way where it arises. To say which these are, the
calls that the body of a function makes are told apart by what they decide: a call is made if
another answer to it, and to no other call, can be seen in the outcome. Nothing is assumed
about the body for this.

* `Traced`: what a computation owes to the calls that it makes.
* `Activation`, `Program.Live`: the frames of a run, each with the calls that led to it.
* `Activation.Raises`: the frame in which an error arises.
* `backtraces_live`: backtraces of runs, and of shapes that are compiled inside other calls.
-/

namespace DistanceField

open Shader

/-! ## Calls that a computation makes -/

/-- The sites of a chain that a backtrace lists: all but the start of a run. -/
def Chain.listed (chain : Chain) : List Site :=
  chain.filter fun site => !site.isRoot

/-- How calls are answered. -/
abbrev Answers := Call → Except (Failure EvalError) Value

/-- The answers are the same, but for one call. -/
def Answers.SameBut (c : Call) (answers answers' : Answers) : Prop :=
  ∀ other, other ≠ c → answers' other = answers other

/-- A failure of the call is a failure of the whole. -/
def Asks {α : Type} (answers : Answers) (x : Answers → Except (Failure EvalError) α) (c : Call) : Prop :=
  ∀ answers', answers.SameBut c answers' → ∀ err, answers' c = .error err → x answers' = .error err

/-- The failure is not one of a call: it names the calls of the chain and is not about their
number, or a slot is not there. -/
def Failure.Own (chain : Chain) (err : Failure EvalError) : Prop :=
  err = .outOfBounds ∨ ∃ pos fault, Fault.kind fault ≠ .recursionLimit ∧ err = fault.atPos pos chain

/-- **What a computation owes to its calls.** Each call is asked for, and is one of those in
`C`, or its answer makes no difference. A failure is a failure of the computation itself, or of
a call that it asks for. -/
structure Traced {α : Type} (answers : Answers) (C : Call → Prop) (chain : Chain)
    (x : Answers → Except (Failure EvalError) α) : Prop where
  asks : ∀ c, (C c ∧ Asks answers x c) ∨ ∀ answers', answers.SameBut c answers' → x answers' = x answers
  fails : ∀ err, x answers = .error err →
    err.Own chain ∨ ∃ c, C c ∧ Asks answers x c ∧ answers c = .error err

namespace Traced

variable {α β : Type} {answers : Answers} {C : Call → Prop} {chain : Chain}

/-- A computation without calls. -/
theorem const {r : Except (Failure EvalError) α} (h : ∀ err, r = .error err → err.Own chain) :
    Traced answers C chain fun _ => r :=
  ⟨fun _ => .inr fun _ _ => rfl, fun err herr => .inl (h err herr)⟩

theorem ok (a : α) : Traced answers C chain fun _ => .ok a := by
  refine const fun err herr => ?_
  cases herr

theorem fail (pos : Pos) {fault : Fault} (h : fault.kind ≠ .recursionLimit) :
    Traced answers C chain fun _ => (.error (fault.atPos pos chain) : Except _ α) := by
  refine const fun err herr => ?_
  cases herr
  exact .inr ⟨pos, fault, h, rfl⟩

theorem call {c : Call} (hc : C c) : Traced answers C chain fun answers' => answers' c := by
  have hasks : Asks answers (fun answers' => answers' c) c := fun answers' _ err herr => herr
  refine ⟨fun other => ?_, fun err herr => .inr ⟨c, hc, hasks, herr⟩⟩
  by_cases hother : other = c
  · subst hother
    exact .inl ⟨hc, hasks⟩
  · exact .inr fun answers' hsame => hsame c (Ne.symm hother)

theorem bind {x : Answers → Except (Failure EvalError) α} {f : α → Answers → Except (Failure EvalError) β}
    (hx : Traced answers C chain x) (hf : ∀ a, x answers = .ok a → Traced answers C chain (f a)) :
    Traced answers C chain fun answers' => x answers' >>= fun a => f a answers' := by
  -- what is asked for first is asked for by the whole
  have hfirst (c : Call) (h : Asks answers x c) :
      Asks answers (fun answers' => x answers' >>= fun a => f a answers') c := by
    intro answers' hsame err herr
    dsimp only
    rw [h answers' hsame err herr]
    rfl
  cases hrun : x answers with
  | error e =>
    refine ⟨fun c => ?_, fun err herr => ?_⟩
    · rcases hx.asks c with ⟨hc, hasks⟩ | hsame
      · exact .inl ⟨hc, hfirst c hasks⟩
      · refine .inr fun answers' h => ?_
        rw [hsame answers' h, hrun]
        rfl
    · rw [hrun] at herr
      cases herr
      rcases hx.fails e hrun with hown | ⟨c, hc, hasks, hanswer⟩
      · exact .inl hown
      · exact .inr ⟨c, hc, hfirst c hasks, hanswer⟩
  | ok a =>
    have hrest := hf a hrun
    have hsecond (c : Call) (h : Asks answers (f a) c) :
        Asks answers (fun answers' => x answers' >>= fun a => f a answers') c := by
      rcases hx.asks c with ⟨-, hasks⟩ | hsame
      · exact hfirst c hasks
      · intro answers' hbut err herr
        dsimp only
        rw [hsame answers' hbut, hrun]
        exact h answers' hbut err herr
    refine ⟨fun c => ?_, fun err herr => ?_⟩
    · rcases hx.asks c with ⟨hc, hasks⟩ | hsame
      · exact .inl ⟨hc, hfirst c hasks⟩
      · rcases hrest.asks c with ⟨hc, hasks⟩ | hsame'
        · exact .inl ⟨hc, hsecond c hasks⟩
        · refine .inr fun answers' h => ?_
          rw [hsame answers' h, hrun]
          exact hsame' answers' h
    · rw [hrun] at herr
      rcases hrest.fails err herr with hown | ⟨c, hc, hasks, hanswer⟩
      · exact .inl hown
      · exact .inr ⟨c, hc, hsecond c hasks, hanswer⟩

end Traced

/-! ## Bodies -/

namespace Operation

/-- The operations that are evaluated as parts of an operation. The body of a function is not
among them. -/
def parts : Operation → List Operation
  | .const _ _ | .load _ _ | .lambda _ _ => []
  | .call callee args _ => callee :: args
  | .builtin _ args _ => args
  | .unary _ e _ => [e]
  | .binary _ l r _ => [l, r]
  | .cond c a b _ => [c, a, b]
  | .letIn bindings body _ => body :: bindings.map Prod.snd
  | .list items _ => items
  | .record fields _ => fields.map Prod.snd
  | .field e _ _ => [e]
  | .index e i _ => [e, i]

/-- The operation stands in a body. -/
inductive StandsIn (op : Operation) : Operation → Prop
  | self : StandsIn op op
  | part {body q : Operation} : q ∈ body.parts → StandsIn op q → StandsIn op body

/-- The body has a call at the position. -/
def CallsAt (body : Operation) (pos : Pos) : Prop :=
  ∃ callee args, (Operation.call callee args pos).StandsIn body

theorem CallsAt.part {body q : Operation} {pos : Pos} (h : q.CallsAt pos) (hq : q ∈ body.parts) :
    body.CallsAt pos := by
  obtain ⟨callee, args, hstands⟩ := h
  exact ⟨callee, args, .part hq hstands⟩

end Operation

section

variable {answers : Answers} {C : Call → Prop} {chain : Chain}

theorem Frame.locate_traced {α : Type} {P : α → Prop} {fr : Frame} {r : Except Fault α}
    (hr : Ends Fault.OfKernel P r) (pos : Pos) : Traced answers C fr.chain fun _ => fr.locate pos r := by
  cases r with
  | ok a => exact .ok a
  | error fault =>
    refine .fail pos fun hlimit => ?_
    rcases (hr : fault.OfKernel) with h | h | h | h <;> cases hlimit.symm.trans h

theorem captureAll_traced (fr : Frame) (pos : Pos) (refs : List Reference) :
    Traced answers C fr.chain fun _ => captureAll fr pos refs := by
  induction refs with
  | nil => exact .ok []
  | cons ref refs ih =>
    unfold captureAll
    cases fr.get? ref with
    | some v => exact ih.bind fun vs _ => .ok _
    | none => exact .fail pos (of_decide_eq_true rfl)

theorem Frame.set_traced (fr : Frame) (slot : Nat) (v : Value) :
    Traced answers C chain fun _ => fr.set slot v := by
  unfold Frame.set
  cases fr.slots.set? slot v with
  | some slots => exact .ok _
  | none =>
    refine .const fun err herr => ?_
    cases herr
    exact .inl rfl

/-- Bindings stay in the frame. -/
theorem evalBindings_chain {fr fr' : Frame} {origin : Origin} {n : Nat} {bs : List (Nat × Operation)}
    (h : evalBindings answers fr origin n bs = .ok fr') : fr'.chain = fr.chain := by
  induction bs generalizing fr n with
  | nil => cases h; rfl
  | cons b bs ih =>
    rw [evalBindings] at h
    obtain ⟨v, -, h⟩ := Except.bind_eq_ok.1 h
    obtain ⟨inner, hset, h⟩ := Except.bind_eq_ok.1 h
    obtain ⟨slots, rfl⟩ := Frame.exists_slots hset
    exact (ih h).trans rfl

theorem evalAll_traced {ops : List Operation} {fr : Frame}
    (ih : ∀ op ∈ ops, ∀ origin, Traced answers C fr.chain fun answers' => op.evalWith answers' fr origin)
    (origin : Origin) (n : Nat) :
    Traced answers C fr.chain fun answers' => evalAll answers' fr origin n ops := by
  induction ops generalizing n with
  | nil => exact .ok []
  | cons op ops ihs =>
    have htail := ihs (fun o ho => ih o (List.mem_cons_of_mem _ ho)) (n + 1)
    unfold evalAll
    exact (ih op List.mem_cons_self _).bind fun v _ => htail.bind fun vs _ => .ok _

theorem evalFields_traced {fs : List (String × Operation)} {fr : Frame}
    (ih : ∀ f ∈ fs, ∀ origin, Traced answers C fr.chain fun answers' => f.2.evalWith answers' fr origin)
    (origin : Origin) (n : Nat) :
    Traced answers C fr.chain fun answers' => evalFields answers' fr origin n fs := by
  induction fs generalizing n with
  | nil => exact .ok []
  | cons f fs ihs =>
    have htail := ihs (fun o ho => ih o (List.mem_cons_of_mem _ ho)) (n + 1)
    unfold evalFields
    exact (ih f List.mem_cons_self _).bind fun v _ => htail.bind fun vs _ => .ok _

theorem evalBindings_traced {bs : List (Nat × Operation)} {fr : Frame} (hfr : fr.chain = chain)
    (ih : ∀ b ∈ bs, ∀ fr origin, fr.chain = chain →
      Traced answers C chain fun answers' => b.2.evalWith answers' fr origin)
    (origin : Origin) (n : Nat) :
    Traced answers C chain fun answers' => evalBindings answers' fr origin n bs := by
  induction bs generalizing fr n with
  | nil => exact .ok fr
  | cons b bs ihs =>
    unfold evalBindings
    refine (ih b List.mem_cons_self fr _ hfr).bind fun v _ => ?_
    refine (fr.set_traced b.1 v).bind fun inner hset => ?_
    obtain ⟨slots, rfl⟩ := Frame.exists_slots hset
    have hinner : Frame.chain { fr with slots := slots } = chain := hfr
    exact ihs hinner (fun o ho => ih o (List.mem_cons_of_mem _ ho)) (n + 1)

/-- **A body fails by itself, or as one of the calls in it.** -/
theorem Operation.evalWith_traced (op : Operation) {fr : Frame} (origin : Origin) (hfr : fr.chain = chain)
    (hC : ∀ c : Call, c.chain = chain → op.CallsAt c.pos → C c) :
    Traced answers C chain fun answers' => op.evalWith answers' fr origin := by
  -- a part makes calls of the whole
  have hpart {op q : Operation} (hC : ∀ c : Call, c.chain = chain → op.CallsAt c.pos → C c)
      (hq : q ∈ op.parts) : ∀ c : Call, c.chain = chain → q.CallsAt c.pos → C c :=
    fun c hchain hcalls => hC c hchain (hcalls.part hq)
  induction op generalizing fr origin with
  | const value pos => exact .ok _
  | load ref pos =>
    subst hfr
    unfold Operation.evalWith
    cases fr.get? ref with
    | some v => exact .ok v
    | none => cases ref <;> exact .fail pos (of_decide_eq_true rfl)
  | lambda signature body _ =>
    subst hfr
    unfold Operation.evalWith
    exact (captureAll_traced fr _ _).bind fun vs _ => .ok _
  | call callee args pos ihf ihs =>
    subst hfr
    have hargs : ∀ n, Traced answers C fr.chain fun answers' => evalAll answers' fr origin n args :=
      evalAll_traced (fun a ha o => ihs a ha o rfl (hpart hC (List.mem_cons_of_mem _ ha))) origin
    unfold Operation.evalWith
    refine (ihf _ rfl (hpart hC List.mem_cons_self)).bind fun v _ => ?_
    cases v.closure? with
    | none => exact .fail pos (of_decide_eq_true rfl)
    | some f =>
      refine (hargs 1).bind fun vs _ => .call (hC _ rfl ?_)
      exact ⟨callee, args, .self⟩
  | builtin b args pos ihs =>
    subst hfr
    have hargs : ∀ n, Traced answers C fr.chain fun answers' => evalAll answers' fr origin n args :=
      evalAll_traced (fun a ha o => ihs a ha o rfl (hpart hC ha)) origin
    unfold Operation.evalWith
    exact (hargs 0).bind fun vs _ => Frame.locate_traced (b.apply_ends vs) pos
  | unary op operand pos ih =>
    subst hfr
    unfold Operation.evalWith
    refine (ih _ rfl (hpart hC (by simp [parts]))).bind fun v _ => ?_
    exact Frame.locate_traced (op.apply_ends v) pos
  | binary op left right pos ihl ihr =>
    subst hfr
    have hright := ihr (1 :: origin) rfl (hpart hC (by simp [parts]))
    unfold Operation.evalWith
    refine (ihl _ rfl (hpart hC (by simp [parts]))).bind fun l _ => ?_
    cases op.decisive? with
    | none => exact hright.bind fun r _ => Frame.locate_traced (op.apply_ends l r) pos
    | some decisive =>
      refine (Frame.locate_traced l.condition_ends pos).bind fun b _ => ?_
      by_cases hb : b = decisive
      · simp only [if_pos hb]
        exact .ok _
      · simp only [if_neg hb]
        refine hright.bind fun r _ => ?_
        exact (Frame.locate_traced r.condition_ends pos).bind fun b _ => .ok _
  | cond condition yes no pos ihc iha ihb =>
    subst hfr
    unfold Operation.evalWith
    refine (ihc _ rfl (hpart hC (by simp [parts]))).bind fun c _ => ?_
    refine (Frame.locate_traced c.condition_ends pos).bind fun test _ => ?_
    cases test with
    | true => exact iha _ rfl (hpart hC (by simp [parts]))
    | false => exact ihb _ rfl (hpart hC (by simp [parts]))
  | letIn bindings body pos ihs ih =>
    have hbindings : ∀ n, Traced answers C chain fun answers' => evalBindings answers' fr origin n bindings :=
      evalBindings_traced hfr (fun b hb fr o hfr =>
        ihs b hb o hfr (hpart hC (List.mem_cons_of_mem _ (List.mem_map_of_mem hb)))) origin
    unfold Operation.evalWith
    refine (hbindings 1).bind fun inner hinner => ?_
    exact ih _ ((evalBindings_chain hinner).trans hfr) (hpart hC List.mem_cons_self)
  | list items pos ihs =>
    subst hfr
    have hitems : ∀ n, Traced answers C fr.chain fun answers' => evalAll answers' fr origin n items :=
      evalAll_traced (fun a ha o => ihs a ha o rfl (hpart hC ha)) origin
    unfold Operation.evalWith
    exact (hitems 0).bind fun vs _ => .ok _
  | record fields pos ihs =>
    subst hfr
    have hfields : ∀ n, Traced answers C fr.chain fun answers' => evalFields answers' fr origin n fields :=
      evalFields_traced (fun f hf o => ihs f hf o rfl (hpart hC (List.mem_map_of_mem hf))) origin
    unfold Operation.evalWith
    exact (hfields 0).bind fun vs _ => .ok _
  | field target name pos ih =>
    subst hfr
    unfold Operation.evalWith
    refine (ih _ rfl (hpart hC (by simp [parts]))).bind fun v _ => ?_
    exact Frame.locate_traced (v.field_ends name (fun _ _ _ _ => trivial) fun _ _ _ _ => trivial) pos
  | index target index pos iht ihi =>
    subst hfr
    have hindex := ihi (1 :: origin) rfl (hpart hC (by simp [parts]))
    unfold Operation.evalWith
    refine (iht _ rfl (hpart hC (by simp [parts]))).bind fun v _ => hindex.bind fun i _ => ?_
    exact Frame.locate_traced (v.index_ends i fun _ _ _ _ => trivial) pos

end

/-! ## Frames -/

/-- A body runs in its frame, or there is no slot for an argument. -/
theorem Closure.enterWith_cases (f : Closure) (answers : Answers) (chain : Chain) (origin : Origin)
    (args : List Value) :
    (∃ fr, Frame.enter f args chain = .ok fr ∧
      f.enterWith answers chain origin args = f.body.evalWith answers fr origin) ∨
    f.enterWith answers chain origin args = .error .outOfBounds := by
  unfold Closure.enterWith Frame.enter
  cases Slots.ofArgs? f.slots args with
  | some slots => exact .inl ⟨_, rfl, rfl⟩
  | none => exact .inr rfl

/-- A frame in which a body runs, when `budget` more calls may be nested. -/
structure Activation where
  frame : Frame
  body : Operation
  origin : Origin
  budget : Nat

namespace Activation

/-- What the body ends with. -/
def outcome (a : Activation) (limit : Nat) : Except (Failure EvalError) Value :=
  a.body.evalWith (applyWithin limit a.budget) a.frame a.origin

/-- **The body makes the call**: another answer to it, and to no other call, can be seen in
the outcome. -/
def Makes (a : Activation) (limit : Nat) (c : Call) : Prop :=
  ∃ answers, Answers.SameBut c (applyWithin limit a.budget) answers ∧
    a.body.evalWith answers a.frame a.origin ≠ a.outcome limit

end Activation

namespace Call

/-- What a backtrace says of a call: the name of the function, and where it is called. -/
def site (c : Call) : Site := ⟨c.callee.name, some c.pos⟩

/-- **The call opens a frame**: the arguments fit, and one more call may be nested. -/
structure Opens (c : Call) (budget : Nat) (b : Activation) : Prop where
  arity : c.args.length = c.callee.arity
  budget : budget = b.budget + 1
  frame : Frame.enter c.callee c.args (c.site :: c.chain) = .ok b.frame
  body : b.body = c.callee.body
  origin : b.origin = c.origin

variable {c : Call} {limit budget : Nat}

/-- The answer to a call is the outcome in its frame. -/
theorem Opens.apply_eq {b : Activation} (h : c.Opens budget b) :
    applyWithin limit budget c = b.outcome limit := by
  obtain ⟨harity, rfl, hframe, hbody, horigin⟩ := h
  unfold applyWithin Activation.outcome
  rw [if_neg (not_not_intro harity), hbody, horigin]
  dsimp only
  rw [Closure.enterWith, ← site, hframe]
  rfl

/-- A call fails in its frame, before it has one, or because no frame may be opened. -/
theorem apply_fails {err : Failure EvalError} (h : applyWithin limit budget c = .error err) :
    (∃ b, c.Opens budget b ∧ b.outcome limit = .error err) ∨ err.Own c.chain ∨
      budget = 0 ∧ err = (Fault.callDepth limit).atPos c.pos c.chain := by
  by_cases harity : c.args.length = c.callee.arity
  · unfold applyWithin at h
    rw [if_neg (not_not_intro harity)] at h
    cases budget with
    | zero =>
      cases h
      exact .inr (.inr ⟨rfl, rfl⟩)
    | succ budget =>
      rcases c.callee.enterWith_cases (applyWithin limit budget) (c.site :: c.chain) c.origin c.args with
        ⟨fr, hframe, hrun⟩ | hbounds
      · have hopens : c.Opens (budget + 1) ⟨fr, c.callee.body, c.origin, budget⟩ :=
          ⟨harity, rfl, hframe, rfl, rfl⟩
        exact .inl ⟨_, hopens, hrun.symm.trans h⟩
      · cases hbounds.symm.trans h
        exact .inr (.inl (.inl rfl))
  · unfold applyWithin at h
    rw [if_pos harity] at h
    cases h
    exact .inr (.inl (.inr ⟨c.pos, _, of_decide_eq_true rfl, rfl⟩))

end Call

namespace Activation

variable {a b : Activation} {limit : Nat} {c : Call}

theorem traced (a : Activation) (limit : Nat) :
    Traced (applyWithin limit a.budget) (fun c => c.chain = a.frame.chain ∧ a.body.CallsAt c.pos)
      a.frame.chain fun answers => a.body.evalWith answers a.frame a.origin :=
  a.body.evalWith_traced a.origin rfl fun _ hchain hcalls => ⟨hchain, hcalls⟩

/-- A call that is made stands in the body, and a failure of it is one of the body. -/
theorem Makes.asks (h : a.Makes limit c) : (c.chain = a.frame.chain ∧ a.body.CallsAt c.pos) ∧
    Asks (applyWithin limit a.budget) (fun answers => a.body.evalWith answers a.frame a.origin) c := by
  obtain ⟨answers, hsame, hne⟩ := h
  rcases (a.traced limit).asks c with hasks | hdeaf
  · exact hasks
  · exact absurd (hdeaf answers hsame) hne

theorem Makes.fails (h : a.Makes limit c) {err : Failure EvalError}
    (herr : applyWithin limit a.budget c = .error err) : a.outcome limit = .error err :=
  h.asks.2 _ (fun _ _ => rfl) err herr

open Classical in
/-- A failure in place of a call can be seen, unless the body fails with it anyway. -/
theorem makes_of_asks (h : Asks (applyWithin limit a.budget)
    (fun answers => a.body.evalWith answers a.frame a.origin) c) : a.Makes limit c := by
  have hseen (err : Failure EvalError) (hne : a.outcome limit ≠ .error err) : a.Makes limit c := by
    have hsame : Answers.SameBut c (applyWithin limit a.budget)
        (Function.update (applyWithin limit a.budget) c (.error err)) :=
      fun other hother => Function.update_of_ne hother _ _
    refine ⟨_, hsame, fun heq => hne ?_⟩
    rw [← heq]
    exact h _ hsame err (Function.update_self _ _ _)
  by_cases hout : a.outcome limit = .error .outOfBounds
  · refine hseen (.report ⟨.unsetSlot, .nowhere⟩) fun heq => ?_
    cases hout.symm.trans heq
  · exact hseen .outOfBounds hout

/-- **An error arises in the frame**: the body fails with it, and no call made in the body fails
in a frame of its own. -/
def Raises (a : Activation) (limit : Nat) (e : EvalError) : Prop :=
  a.outcome limit = .error (.report e) ∧
    ∀ c b, a.Makes limit c → c.Opens a.budget b → ∃ v, b.outcome limit = .ok v

/-- An error that arises in a frame names the calls that led to the frame. -/
theorem Raises.backtrace_eq {e : EvalError} (h : a.Raises limit e) :
    e.context.backtrace = a.frame.chain.listed ∧
      (e.fault.kind = .recursionLimit → a.budget = 0) := by
  have hown (hown : (Failure.report e).Own a.frame.chain) :
      e.context.backtrace = a.frame.chain.listed ∧
        e.fault.kind ≠ .recursionLimit := by
    rcases hown with hbounds | ⟨pos, fault, hkind, heq⟩
    · cases hbounds
    · cases heq
      exact ⟨rfl, hkind⟩
  rcases (a.traced limit).fails _ h.1 with hself | ⟨c, hc, hasks, hanswer⟩
  · exact ⟨(hown hself).1, fun hlimit => absurd hlimit (hown hself).2⟩
  · rcases Call.apply_fails hanswer with ⟨b, hopens, hb⟩ | hcall | ⟨hbudget, heq⟩
    · obtain ⟨v, hv⟩ := h.2 c b (makes_of_asks hasks) hopens
      rw [hv] at hb
      cases hb
    · rw [hc.1] at hcall
      exact ⟨(hown hcall).1, fun hlimit => absurd hlimit (hown hcall).2⟩
    · cases heq
      rw [← hc.1]
      exact ⟨rfl, fun _ => hbudget⟩

end Activation

/-! ## Runs -/

/-- **The frames of a run**, each with the calls that led to it, the innermost first. -/
inductive Program.Live (p : Program) (options : Options) (serial : Nat) : List Call → Activation → Prop
  | start {fr : Frame} : Frame.enter ⟨p.main, [], [serial]⟩ [] [⟨p.main.signature.name, none⟩] = .ok fr →
      p.Live options serial [] ⟨fr, p.main.body, [serial], options.maxDepth⟩
  | call {calls : List Call} {a b : Activation} {c : Call} : p.Live options serial calls a →
      a.Makes options.maxDepth c → c.Opens a.budget b → p.Live options serial (c :: calls) b

theorem Frame.enter_chain {f : Closure} {args : List Value} {chain : Chain} {fr : Frame}
    (h : Frame.enter f args chain = .ok fr) : fr.chain = chain := by
  unfold Frame.enter at h
  split at h
  · cases h; rfl
  · cases h

/-- Of the frames of a run, only the first one is not listed. -/
theorem Chain.listed_calls (calls : List Call) :
    Chain.listed (calls.map Call.site ++ [.root]) = calls.map Call.site := by
  have hsites : (calls.map Call.site).filter (fun site => !site.isRoot) = calls.map Call.site := by
    refine List.filter_eq_self.2 fun site hsite => ?_
    obtain ⟨c, -, rfl⟩ := List.mem_map.1 hsite
    simp [Call.site, Site.isRoot]
  rw [Chain.listed, List.filter_append, hsites]
  exact List.append_nil _

section

variable {p : Program} {options : Options} {serial : Nat} {calls : List Call} {a : Activation}

/-- The chain of a frame lists the calls that led to it, and the budget is what they leave of
the limit. -/
theorem Program.Live.chain_eq (h : p.Live options serial calls a) :
    a.frame.chain = calls.map Call.site ++ [⟨p.main.signature.name, none⟩] ∧
      calls.length + a.budget = options.maxDepth := by
  induction h with
  | start hframe => exact ⟨Frame.enter_chain hframe, Nat.zero_add _⟩
  | call _ hmakes hopens ih =>
    obtain ⟨hchain, hbudget⟩ := ih
    constructor
    · rw [Frame.enter_chain hopens.frame, hmakes.asks.1.1, hchain]
      rfl
    · have hfalls := hopens.budget
      rw [List.length_cons]
      omega

/-- **A failure arises in some frame**: in this one, or in one that is opened from here. -/
theorem Program.Live.exists_raises (h : p.Live options serial calls a) {e : EvalError}
    (he : a.outcome options.maxDepth = .error (.report e)) :
    ∃ inner b, p.Live options serial inner b ∧ b.Raises options.maxDepth e := by
  induction hbudget : a.budget generalizing calls a with
  | zero =>
    refine ⟨calls, a, h, he, fun c b _ hopens => ?_⟩
    have hfalls := hopens.budget
    omega
  | succ budget ih =>
    by_cases hraises : a.Raises options.maxDepth e
    · exact ⟨calls, a, h, hraises⟩
    · have hinner : ∃ c b, a.Makes options.maxDepth c ∧ c.Opens a.budget b ∧
          ¬ ∃ v, b.outcome options.maxDepth = .ok v := by
        by_contra hnone
        refine hraises ⟨he, fun c b hmakes hopens => ?_⟩
        by_contra hv
        exact hnone ⟨c, b, hmakes, hopens, hv⟩
      obtain ⟨c, b, hmakes, hopens, hv⟩ := hinner
      -- the failure of the inner frame is the failure of this one
      have hb : b.outcome options.maxDepth = .error (.report e) := by
        cases hout : b.outcome options.maxDepth with
        | ok v => exact absurd ⟨v, hout⟩ hv
        | error err => rw [← he, hmakes.fails (hopens.apply_eq.trans hout)]
      have hfalls := hopens.budget
      exact ih (h.call hmakes hopens) hb (by omega)

end

theorem Expr.toLambda_name {e : Expr} {main : Lambda} (h : e.toLambda = .ok main) :
    main.signature.name = none := by
  unfold Expr.toLambda at h
  dsimp only at h
  split at h
  · cases h; rfl
  · cases h

/-- A run fails in one of its frames. -/
theorem Program.run_raises {source : String} {p : Program} (h : Program.ofSource source = .ok p)
    {options : Options} {serial : Nat} {failure : Failure EvalError}
    (hrun : p.run options serial = .error failure) :
    ∃ e calls a, failure = .report e ∧ p.Live options serial calls a ∧ a.Raises options.maxDepth e := by
  have hends := (Program.run_ends h options serial).of_eq_error hrun
  cases failure with
  | outOfBounds => exact hends.elim
  | report e =>
    obtain ⟨program, hprogram⟩ := Program.exists_toLambda h
    obtain ⟨-, harity, -⟩ := Expr.toLambda_scoped hprogram
    have hfits : ([] : List Value).length = (Closure.mk p.main [] [serial]).arity := harity.symm
    unfold Program.run Closure.call at hrun
    rw [if_neg (not_not_intro hfits)] at hrun
    rcases (Closure.mk p.main [] [serial]).enterWith_cases (applyWithin options.maxDepth options.maxDepth)
      [⟨p.main.signature.name, none⟩] [serial] [] with ⟨fr, hframe, hbody⟩ | hbounds
    · obtain ⟨calls, a, hlive, hraises⟩ := (Program.Live.start hframe).exists_raises (hbody.symm.trans hrun)
      exact ⟨e, calls, a, rfl, hlive, hraises⟩
    · cases hbounds.symm.trans hrun

/-! ## Shapes inside other calls -/

/-- The backtrace of the failure ends with the sites. -/
def Failure.EndsWith (sites : List Site) : Failure EvalError → Prop
  | .report e => sites <:+ e.context.backtrace
  | .outOfBounds => True

section

variable {sites : List Site} {chain : Chain}

theorem Fault.atPos_endsWith (h : sites <:+ chain.listed) (pos : Pos) (fault : Fault) :
    (fault.atPos pos chain).EndsWith sites := h

theorem Chain.suffix_listed_cons (site : Site) (h : sites <:+ chain.listed) :
    sites <:+ Chain.listed (site :: chain) :=
  h.trans ((List.suffix_cons site chain).filter _)

theorem expandWithin_zero (limit : Nat) (f : Closure) (chain : Chain) :
    expandWithin limit 0 f chain = f.inChecked chain (Compile.fail chain f.pos (.callDepth limit)) := by
  rw [expandWithin, Closure.inChecked]

/-- Frames that are opened by a compilation add to the chain that it starts with. -/
theorem expandWithin_endsWith {limit budget : Nat} {f : Closure}
    (h : sites <:+ chain.listed) :
    FailsIn (Failure.EndsWith sites) (expandWithin limit budget f chain) := by
  induction budget generalizing f chain with
  | zero =>
    rw [expandWithin_zero]
    refine Closure.inChecked_failsIn (fun pos fault _ => Fault.atPos_endsWith h pos fault) fun d err d' hfail => ?_
    cases hfail
    exact Fault.atPos_endsWith h _ _
  | succ budget ih =>
    have hfault (pos : Pos) (fault : Fault) (_ : fault.kind ≠ .recursionLimit) := Fault.atPos_endsWith h pos fault
    rw [expandWithin_succ]
    refine Closure.inChecked_failsIn hfault ?_
    refine f.body.compileWith_failsIn hfault trivial fun x _ hchain => ?_
    exact Expansion.enterWith_failsIn hfault trivial hchain (ih (Chain.suffix_listed_cons _ h))

end

/-- An error of the distance function itself has no backtrace. -/
theorem Shape.dist_backtrace {s : Shape} {e : EvalError} (h : s.dist = .error e) :
    e.context.backtrace = [] := by
  unfold dist at h
  split at h
  · cases h; rfl
  · split at h
    · cases h; rfl
    · split_ifs at h
      cases h; rfl

theorem Shape.emitDistance_endsWith (s : Shape) (limit : Nat) (point : Typed) (chain : Chain) :
    FailsIn (Failure.EndsWith chain.listed) (s.emitDistance limit point chain) := by
  unfold emitDistance
  cases hdist : s.dist with
  | error e =>
    intro d err d' hrun
    cases hrun
    have hempty : e.context.backtrace.isEmpty = true := by rw [Shape.dist_backtrace hdist]; rfl
    rw [EvalError.within, if_pos hempty]
    exact List.suffix_refl _
  | ok f =>
    have hinner := Chain.suffix_listed_cons ⟨f.name, some f.pos⟩ (List.suffix_refl chain.listed)
    refine attempt_failsIn (inFrame_failsIn trivial ?_ _)
    refine (expandWithin_endsWith hinner).bind fun v => ?_
    split_ifs
    · exact .pure v
    · exact Compile.fail_failsIn (fun pos fault _ => Fault.atPos_endsWith hinner pos fault) _
        (of_decide_eq_true rfl)

/-! ## Backtraces of runs and of shapes -/

/-- **Backtraces are the calls under way.** Take a run of a program, and a frame of it with the
calls that led there. The depth of the frame is the number of these calls and at most the limit.
An error that arises in the frame lists just these calls, the innermost first, each with the name
of the function and the place of a call in the body that made it; and if it is that calls are
nested too deeply, there are as many as the limit. Each failure of the run arises in a frame of
it. An error of a shape that is compiled inside other calls lists those calls at the end. -/
theorem backtraces_live :
    (∀ (source : String) (p : Program), Program.ofSource source = .ok p →
      ∀ (options : Options) (serial : Nat),
        (∀ calls a, p.Live options serial calls a →
          a.frame.chain.depth = calls.length ∧ calls.length ≤ options.maxDepth ∧
          (∀ c, a.Makes options.maxDepth c → a.body.CallsAt c.pos) ∧
          ∀ e, a.Raises options.maxDepth e → e.context.backtrace = calls.map Call.site ∧
            (e.fault.kind = .recursionLimit → e.context.backtrace.length = options.maxDepth)) ∧
        ∀ failure, p.run options serial = .error failure →
          ∃ e calls a, failure = .report e ∧ p.Live options serial calls a ∧
            a.Raises options.maxDepth e) ∧
    ∀ (s : Shape) (limit : Nat) (point : Typed) (chain : Chain) (before after : Emission) (e : EvalError),
      s.emitDistance limit point chain before = .error (.report e) after →
        chain.listed <:+ e.context.backtrace := by
  refine ⟨fun source p hp options serial => ⟨fun calls a hlive => ?_, fun failure => p.run_raises hp⟩, ?_⟩
  · obtain ⟨hchain, hbudget⟩ := hlive.chain_eq
    have hdepth : a.frame.chain.depth = calls.length := by
      rw [Chain.depth, hchain, List.length_append, List.length_map]
      exact Nat.add_sub_cancel _ _
    have hlisted : a.frame.chain.listed = calls.map Call.site := by
      obtain ⟨program, hprogram⟩ := Program.exists_toLambda hp
      rw [hchain, Expr.toLambda_name hprogram]
      exact Chain.listed_calls calls
    refine ⟨hdepth, by omega, fun c hmakes => hmakes.asks.1.2, fun e hraises => ?_⟩
    obtain ⟨hbacktrace, hlimit⟩ := hraises.backtrace_eq
    rw [hlisted] at hbacktrace
    refine ⟨hbacktrace, fun hkind => ?_⟩
    have hzero := hlimit hkind
    rw [hbacktrace, List.length_map]
    omega
  · intro s limit point chain before after e hrun
    exact s.emitDistance_endsWith limit point chain before (.report e) after hrun

/-- The program with six calls inside each other, when five may be, and a shape without a distance
function that is compiled inside a call. -/
theorem backtraces_live_countdown :
    (∃ p e calls a, Program.ofSource countdown = .ok p ∧
      p.run ⟨5, "P"⟩ 0 = .error (.report e) ∧ e.fault.kind = .recursionLimit ∧
      p.Live ⟨5, "P"⟩ 0 calls a ∧ a.Raises 5 e ∧ a.frame.chain.depth = 5 ∧
      e.context.backtrace = calls.map Call.site ∧ calls.length = 5) ∧
    ∃ e after, (Shape.mk []).emitDistance 5 (.input .vec2 "P") [⟨some "union", some ⟨1, 8⟩⟩, .root] .empty =
        .error (.report e) after ∧
      [⟨some "union", some ⟨1, 8⟩⟩] <:+ e.context.backtrace := by
  obtain ⟨hruns, hshapes⟩ := backtraces_live
  constructor
  · have hcheck : ((Program.ofSource countdown).toOption.any fun p =>
        decide (Stopped (p.run ⟨5, "P"⟩ 0))) = true := by
      decide +kernel
    obtain ⟨p, hsome, hstopped⟩ := (Option.any_eq_true ..).1 hcheck
    have hp : Program.ofSource countdown = .ok p := by
      cases hsource : Program.ofSource countdown with
      | error d => rw [hsource] at hsome; cases hsome
      | ok q => rw [hsource] at hsome; cases hsome; rfl
    obtain ⟨failure, hrun, hlimit⟩ := of_decide_eq_true hstopped
    obtain ⟨hframes, hfailures⟩ := hruns countdown p hp ⟨5, "P"⟩ 0
    obtain ⟨e, calls, a, rfl, hlive, hraises⟩ := hfailures failure hrun
    obtain ⟨hdepth, -, -, herrors⟩ := hframes calls a hlive
    obtain ⟨hbacktrace, hlength⟩ := herrors e hraises
    have hfive : calls.length = 5 := by
      have hentries := hlength hlimit
      rwa [hbacktrace, List.length_map] at hentries
    exact ⟨p, e, calls, a, hp, hrun, hlimit, hlive, hraises, hdepth.trans hfive, hbacktrace, hfive⟩
  · exact ⟨_, _, rfl, hshapes ⟨[]⟩ 5 (.input .vec2 "P") [⟨some "union", some ⟨1, 8⟩⟩, .root] .empty _ _ rfl⟩

end DistanceField
