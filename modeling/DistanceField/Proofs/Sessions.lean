import DistanceField.Proofs.FragmentRuns

/-!
# Attempts inside attempts

A session on an emission gives out names, emits statements and makes attempts, in which the
same happens again. A failed attempt drops its statements, and with them those of the
attempts inside it; the names stay used. What a session leaves behind can be read off the
flat list of all that happened in it.

* `Emission.Step`, `Emission.runAll`: sessions.
* `Emission.Event`: what gives out a name, and the outcomes of the attempts around it.
* `Emission.committed`: the emissions around which no attempt failed, with their names.
* `Emission.runAll_committed`: these are the statements that a session leaves.
-/

namespace DistanceField.Shader.Emission

/-! ## Sessions -/

/-- A step of a session. An attempt runs steps and then succeeds or fails. -/
inductive Step where
  | freshName
  | emit (ty : Ty) (code : Code)
  | attempt (steps : List Step) (succeeds : Bool)

@[elab_as_elim, induction_eliminator]
theorem Step.induction {motive : Step → Prop} (freshName : motive .freshName)
    (emit : ∀ ty code, motive (.emit ty code))
    (attempt : ∀ steps succeeds, (∀ s ∈ steps, motive s) → motive (.attempt steps succeeds))
    (s : Step) : motive s :=
  @Step.rec motive (fun ss => ∀ s ∈ ss, motive s) freshName emit attempt (List.forall_mem_nil _)
    (fun _ _ h hs => List.forall_mem_cons.2 ⟨h, hs⟩) s

/-- The body of an attempt: what it does, and how it ends. -/
def ending (succeeds : Bool) (work : Emission → Emission) : EStateM Unit Emission Unit := fun e =>
  if succeeds then .ok () (work e) else .error () (work e)

/-- The emission that a computation leaves, whether it succeeds or not. -/
def left : EStateM.Result Unit Emission Unit → Emission
  | .ok _ e => e
  | .error _ e => e

mutual

/-- A step of a session, which goes on after a failed attempt. -/
def Step.run : Step → Emission → Emission
  | .freshName => fun e => e.freshName.2
  | .emit ty code => fun e => (e.emit ty code).2
  | .attempt steps succeeds => fun e => left (Shader.attempt (ending succeeds (runAll steps)) e)

/-- **A session**: its steps one after the other. -/
def runAll : List Step → Emission → Emission
  | [] => fun e => e
  | s :: ss => fun e => runAll ss (s.run e)

end

/-! ## Events -/

/-- A name is given out: for a statement with this content, or for itself. `around` are the
outcomes of the attempts around it, the innermost first. -/
structure Event where
  content : Option (Ty × Code)
  around : List Bool

mutual

/-- What happens in a step, in order, when attempts with these outcomes are around it. -/
def Step.events (around : List Bool) : Step → List Event
  | .freshName => [⟨none, around⟩]
  | .emit ty code => [⟨some (ty, code), around⟩]
  | .attempt steps succeeds => eventsOfAll (succeeds :: around) steps

def eventsOfAll (around : List Bool) : List Step → List Event
  | [] => []
  | s :: ss => s.events around ++ eventsOfAll around ss

end

/-- The statement of the `n`-th event, if it is an emission and all attempts around it
succeeded. -/
def Event.statement? (ev : Event) (n : Nat) : Option Statement :=
  if ev.around.all id then ev.content.map fun c => ⟨nameOf n, c.1, c.2⟩ else none

/-- **The statements of the emissions around which every attempt succeeded**, in order. A name
has the number of the events before its own, counted from `first`. -/
def committed (first : Nat) (events : List Event) : List Statement :=
  (events.zipIdx first).filterMap fun p => p.1.statement? p.2

theorem committed_singleton (first : Nat) (ev : Event) :
    committed first [ev] = (ev.statement? first).toList := by
  rw [committed, List.zipIdx_singleton, List.filterMap_cons]
  cases ev.statement? first <;> rfl

theorem committed_append (first : Nat) (events events' : List Event) :
    committed first (events ++ events') =
      committed first events ++ committed (first + events.length) events' := by
  rw [committed, List.zipIdx_append, List.filterMap_append]
  rfl

/-- Nothing is left of events inside a failed attempt. -/
theorem committed_eq_nil {events : List Event} (h : ∀ ev ∈ events, false ∈ ev.around) (first : Nat) :
    committed first events = [] := by
  refine List.filterMap_eq_nil_iff.2 fun p hp => ?_
  have hfailed := h p.1 (List.fst_mem_of_mem_zipIdx hp)
  refine if_neg fun hall => ?_
  exact Bool.false_ne_true (List.all_eq_true.1 hall false hfailed)

/-- The names that are left have increasing numbers. -/
theorem exists_numbers (first : Nat) (events : List Event) :
    ∃ ns : List Nat, ns.Sublist (List.range' first events.length) ∧
      (committed first events).map Statement.name = ns.map nameOf := by
  induction events generalizing first with
  | nil => exact ⟨[], List.Sublist.refl _, rfl⟩
  | cons ev events ih =>
    obtain ⟨ns, hsub, hnames⟩ := ih (first + 1)
    have hhead : committed first (ev :: events) =
        (ev.statement? first).toList ++ committed (first + 1) events := by
      rw [← List.singleton_append, committed_append, committed_singleton]
      rfl
    rw [hhead, List.length_cons, List.range'_succ, List.map_append, hnames]
    cases hstmt : ev.statement? first with
    | none => exact ⟨ns, hsub.cons first, rfl⟩
    | some stmt =>
      refine ⟨first :: ns, hsub.cons_cons first, ?_⟩
      unfold Event.statement? at hstmt
      split_ifs at hstmt
      obtain ⟨c, -, rfl⟩ := Option.map_eq_some_iff.1 hstmt
      rfl

theorem mem_eventsOfAll {around : List Bool} {steps : List Step} {ev : Event} :
    ev ∈ eventsOfAll around steps ↔ ∃ s ∈ steps, ev ∈ s.events around := by
  induction steps with
  | nil => simp [eventsOfAll]
  | cons s ss ih => simp [eventsOfAll, ih]

/-- An event inside some attempts has all of them around it. -/
theorem suffix_around {around : List Bool} {s : Step} {ev : Event} (h : ev ∈ s.events around) :
    around <:+ ev.around := by
  induction s generalizing around with
  | freshName =>
    obtain rfl := List.mem_singleton.1 h
    exact List.suffix_refl _
  | emit ty code =>
    obtain rfl := List.mem_singleton.1 h
    exact List.suffix_refl _
  | attempt steps succeeds ih =>
    obtain ⟨s, hs, hev⟩ := mem_eventsOfAll.1 h
    have hinner : succeeds :: around <:+ ev.around := ih s hs hev
    exact (List.suffix_cons succeeds around).trans hinner

/-! ## What a session leaves -/

theorem nextName_runAll {steps : List Step}
    (ih : ∀ s ∈ steps, ∀ around e, (s.run e).nextName = e.nextName + (s.events around).length)
    (around : List Bool) (e : Emission) :
    (runAll steps e).nextName = e.nextName + (eventsOfAll around steps).length := by
  induction steps generalizing e with
  | nil => rfl
  | cons s ss ihs =>
    have hhead := ih s List.mem_cons_self around e
    have htail := ihs (fun t ht => ih t (List.mem_cons_of_mem s ht)) (s.run e)
    rw [runAll, eventsOfAll, List.length_append, htail, hhead]
    omega

/-- **One name for each event**, also inside failed attempts. -/
theorem nextName_run (s : Step) (around : List Bool) (e : Emission) :
    (s.run e).nextName = e.nextName + (s.events around).length := by
  induction s generalizing around e with
  | freshName => rfl
  | emit ty code => rfl
  | attempt steps succeeds ih =>
    have hbody := nextName_runAll ih (succeeds :: around) ⟨e.nextName, []⟩
    cases succeeds with
    | true => exact hbody
    | false => exact hbody

theorem statements_runAll {steps : List Step} {around : List Bool}
    (ih : ∀ s ∈ steps, ∀ e,
      (s.run e).statements = e.statements ++ committed e.nextName (s.events around))
    (e : Emission) :
    (runAll steps e).statements = e.statements ++ committed e.nextName (eventsOfAll around steps) := by
  induction steps generalizing e with
  | nil => exact (List.append_nil _).symm
  | cons s ss ihs =>
    have hhead := ih s List.mem_cons_self e
    have htail := ihs (fun t ht => ih t (List.mem_cons_of_mem s ht)) (s.run e)
    rw [runAll, eventsOfAll, committed_append, htail, hhead, nextName_run s around, List.append_assoc]

/-- **A step leaves what is committed in it**, as long as the attempts around it succeed. -/
theorem statements_run (s : Step) {around : List Bool} (haround : around.all id = true) (e : Emission) :
    (s.run e).statements = e.statements ++ committed e.nextName (s.events around) := by
  induction s generalizing around e with
  | freshName =>
    rw [Step.events, committed_singleton, Event.statement?, if_pos haround]
    exact (List.append_nil _).symm
  | emit ty code =>
    rw [Step.events, committed_singleton, Event.statement?, if_pos haround]
    rfl
  | attempt steps succeeds ih =>
    rw [Step.events]
    cases succeeds with
    | true =>
      -- the attempt runs on an empty list, and its statements are appended
      have hinner : (true :: around).all id = true := haround
      have hbody := statements_runAll (fun s hs => ih s hs hinner) ⟨e.nextName, []⟩
      exact congrArg (e.statements ++ ·) (hbody.trans (List.nil_append _))
    | false =>
      have hdropped : ∀ ev ∈ eventsOfAll (false :: around) steps, false ∈ ev.around := by
        intro ev hev
        obtain ⟨s, -, hs⟩ := mem_eventsOfAll.1 hev
        exact (suffix_around hs).subset List.mem_cons_self
      rw [committed_eq_nil hdropped, List.append_nil]
      rfl

/-- **A session leaves exactly what is committed in it.** Its statements are the emissions
all of whose enclosing attempts succeeded, in the order in which they were made, each named
by the number of names that were given out before it anywhere in the session. So the
numbers in the names increase, and no two statements have the same name. -/
theorem runAll_committed (steps : List Step) :
    (runAll steps .empty).statements = committed 0 (eventsOfAll [] steps) ∧
    (runAll steps .empty).nextName = (eventsOfAll [] steps).length ∧
    (∃ ns : List Nat, ns.Pairwise (· < ·) ∧
      (runAll steps .empty).statements.map Statement.name = ns.map nameOf) ∧
    ((runAll steps .empty).statements.map Statement.name).Nodup := by
  have hstatements : (runAll steps .empty).statements = committed 0 (eventsOfAll [] steps) :=
    (statements_runAll (fun s _ => statements_run s rfl) .empty).trans
      (List.nil_append _)
  have hcounter : (runAll steps .empty).nextName = (eventsOfAll [] steps).length :=
    (nextName_runAll (fun s _ => nextName_run s) [] .empty).trans (Nat.zero_add _)
  obtain ⟨ns, hsub, hnames⟩ := exists_numbers 0 (eventsOfAll [] steps)
  have hincreasing : ns.Pairwise (· < ·) := List.Pairwise.sublist hsub List.pairwise_lt_range'
  rw [hstatements]
  refine ⟨rfl, hcounter, ⟨ns, hincreasing, hnames⟩, ?_⟩
  rw [hnames]
  refine List.pairwise_map.2 (hincreasing.imp fun hlt heq => ?_)
  have hsame := nameOf_injective heq
  omega

-- an attempt that succeeds is dropped with the failed one around it
example : (runAll [.emit .bool (.bool true),
      .attempt [.attempt [.emit .bool (.bool true)] true, .freshName] false,
      .attempt [.attempt [.emit .bool (.bool true)] false, .emit .bool (.bool false)] true]
    .empty).statements.map Statement.name = ["r0", "r4"] := by
  decide

end DistanceField.Shader.Emission
