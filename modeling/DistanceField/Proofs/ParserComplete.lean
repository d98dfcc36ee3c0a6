import DistanceField.Program
import DistanceField.Proofs.ParserReads
import DistanceField.Proofs.ParserSound

/-!
# The parser accepts what the grammar derives

A `let` or an `if` may stand as an operand, and its last expression then takes everything
up to the next token that closes an expression. The parser's tree may so differ from the
derivation that a word was given by, and completeness is not stated for the word alone: it
says that the word, with any tokens after it that the parser could go on with, is read to
the end of those. What the greedy parser takes too early it would have taken anyway.

* `Parser.Follows`: what the parser can go on with after an operand.
* `Parser.Opening`: how words open, for the lookahead of functions.
* `Parser.Completes`, `Parser.complete`: every derived word is read, whatever follows it.
* `parseTokens_accepts`: the parser accepts the words of the grammar and gives their trees.
-/

namespace DistanceField

namespace Parser

open Grammar

/-! ## Tokens after an expression -/

/-- The tokens that close an expression inside another phrase. -/
inductive Closes : Kind → Prop
  | rParen : Closes (.symbol .rParen)
  | rBracket : Closes (.symbol .rBracket)
  | rBrace : Closes (.symbol .rBrace)
  | comma : Closes (.symbol .comma)
  | semicolon : Closes (.symbol .semicolon)
  | colon : Closes (.symbol .colon)
  | kwIn : Closes (.word .kwIn)
  | kwElse : Closes (.word .kwElse)

/-- No expression goes on here: a closing token comes next, or nothing. -/
def Stops (ks : List Kind) : Prop :=
  ∀ k, ks.head? = some k → Closes k

theorem Closes.stops {k : Kind} (h : Closes k) {ks : List Kind} : Stops (k :: ks) := by
  rintro _ ⟨⟩
  exact h

theorem Closes.not_operator {k : Kind} (h : Closes k) {level : Level} {op : BinaryOp} :
    ¬ Operator level k op := by
  cases h <;> nofun

theorem Closes.not_extends {k : Kind} (h : Closes k) : ¬ Extends k := by
  cases h <;> nofun

theorem not_extends_of_operator {level : Level} {k : Kind} {op : BinaryOp}
    (h : Operator level k op) : ¬ Extends k := by
  cases h <;> nofun

/-- The operators of different levels are different tokens. -/
theorem level_unique {l l' : Level} {k : Kind} {op op' : BinaryOp} (h : Operator l k op)
    (h' : Operator l' k op') : l = l' := by
  cases h <;> cases h' <;> rfl

/-! ## The loops over operators -/

/-- A parser reads from `ks` to `rest`, whatever it gives. -/
abbrev Passes {α : Type} (cost : Nat) (p : Nat → Parser α) (ks rest : List Kind) : Prop :=
  Reads cost p ks rest fun _ => True

/-- What may follow the condition of a choice: nothing of it or, where a choice is allowed,
its branches. -/
inductive ReadsChoice : Bool → List Kind → List Kind → Prop
  | none {choice : Bool} {ks : List Kind} (h : ks.head? ≠ some (.symbol .question)) :
      ReadsChoice choice ks ks
  | some {ks m rest : List Kind} (ha : Passes 15 (binary .disjunction) ks (.symbol .colon :: m))
      (hb : Passes 17 expr m rest) : ReadsChoice true (.symbol .question :: ks) rest

theorem ternary_reads {ks m rest : List Kind} (hc : Passes 15 (binary .disjunction) ks m)
    (h : ReadsChoice true m rest) : Passes 16 ternary ks rest := by
  cases h with
  | none hm => exact ternary_reads_condition hc hm
  | some ha hb => exact ternary_reads_choice hc ha hb fun _ _ _ _ _ _ _ => trivial

/-- The levels of binary operators, from the tightest on. -/
def levels : List Level :=
  [.multiplicative, .additive, .comparison, .equality, .conjunction, .disjunction]

/-- The levels above a level. -/
def looser : Level → List Level
  | .multiplicative => [.additive, .comparison, .equality, .conjunction, .disjunction]
  | .additive => [.comparison, .equality, .conjunction, .disjunction]
  | .comparison => [.equality, .conjunction, .disjunction]
  | .equality => [.conjunction, .disjunction]
  | .conjunction => [.disjunction]
  | .disjunction => []

theorem levels_eq (level : Level) :
    ∃ tighter, levels = tighter ++ level :: looser level ∧ level ∉ tighter := by
  refine ⟨levels.takeWhile (· ≠ level), ?_⟩
  cases level <;> decide

/-- The loops of these levels, one after the other, and then a choice if one is allowed,
read from `ks` to `rest`. -/
def Climbs (choice : Bool) : List Level → List Kind → List Kind → Prop
  | [], ks, rest => ReadsChoice choice ks rest
  | level :: above, ks, rest =>
    ∃ m, (∀ left, Passes 1 (chain level left) ks m) ∧ Climbs choice above m rest

section

variable {choice : Bool} {ks rest : List Kind}

theorem Climbs.skip {k : Kind} {below above : List Level}
    (hk : ∀ level ∈ below, ∀ op, ¬ Operator level k op) (h : Climbs choice above (k :: ks) rest) :
    Climbs choice (below ++ above) (k :: ks) rest := by
  induction below with
  | nil => exact h
  | cons level below ih =>
    -- The loop of this level stops at once and leaves the token to the next one.
    refine ⟨k :: ks, fun _ => chain_reads_stop ?_ trivial, ih fun l hl => hk l (.tail _ hl)⟩
    rintro _ op ⟨⟩
    exact hk level (.head _) op

/-- Each operator is the business of one loop. -/
theorem Climbs.of_operator {level : Level} {k : Kind} {op : BinaryOp} (hop : Operator level k op)
    (h : Climbs choice (level :: looser level) (k :: ks) rest) :
    Climbs choice levels (k :: ks) rest := by
  obtain ⟨tighter, heq, hnot⟩ := levels_eq level
  rw [heq]
  refine .skip (fun l hl op' hop' => hnot ?_) h
  rwa [level_unique hop hop']

theorem Climbs.stop (h : Stops ks) (above : List Level) : Climbs choice above ks ks := by
  induction above with
  | nil =>
    refine .none fun hk => ?_
    cases h _ hk
  | cons level above ih =>
    exact ⟨ks, fun _ => chain_reads_stop (fun k op hk => (h k hk).not_operator) trivial, ih⟩

theorem Climbs.allow {above : List Level} (h : Climbs choice above ks rest) :
    Climbs true above ks rest := by
  induction above generalizing ks with
  | nil =>
    cases h with
    | none hk => exact .none hk
    | some ha hb => exact .some ha hb
  | cons level above ih =>
    obtain ⟨m, hchain, hrest⟩ := h
    exact ⟨m, hchain, ih hrest⟩

end

/-- What the parser can go on with after an operand, and where it then stops. -/
structure Follows (choice : Bool) (ks rest : List Kind) : Prop where
  stops : Stops rest
  noArrow : arrowAhead ks = false
  loops : ∃ m, (∀ base, Passes 1 (suffixes base) ks m) ∧ Climbs choice levels m rest

section

variable {choice : Bool} {ks rest : List Kind}

theorem Stops.noArrow (h : Stops ks) : arrowAhead ks = false := by
  cases ks with
  | nil => rfl
  | cons k ks => cases h k rfl <;> rfl

theorem Follows.stop (h : Stops ks) : Follows choice ks ks where
  stops := h
  noArrow := h.noArrow
  loops := ⟨ks, fun _ => suffixes_reads_stop (fun k hk => (h k hk).not_extends) trivial, .stop h levels⟩

theorem Closes.follows {k : Kind} (h : Closes k) : Follows choice (k :: ks) (k :: ks) :=
  .stop h.stops

theorem Follows.allow (h : Follows choice ks rest) : Follows true ks rest := by
  obtain ⟨m, hsuffix, hclimb⟩ := h.loops
  exact ⟨h.stops, h.noArrow, m, hsuffix, hclimb.allow⟩

/-- An operator and what follows it. -/
theorem Follows.of_operator {level : Level} {k : Kind} {op : BinaryOp} (hop : Operator level k op)
    (hstop : Stops rest) (h : Climbs choice (level :: looser level) (k :: ks) rest) :
    Follows choice (k :: ks) rest where
  stops := hstop
  noArrow := by cases hop <;> rfl
  loops := by
    refine ⟨k :: ks, fun _ => suffixes_reads_stop ?_ trivial, .of_operator hop h⟩
    rintro _ ⟨⟩
    exact not_extends_of_operator hop

/-- The branches of a choice. -/
theorem Follows.of_choice (hstop : Stops rest) (h : ReadsChoice choice (.symbol .question :: ks) rest) :
    Follows choice (.symbol .question :: ks) rest where
  stops := hstop
  noArrow := rfl
  loops := by
    refine ⟨_, fun _ => suffixes_reads_stop ?_ trivial, ?_⟩
    · rintro _ ⟨⟩
      nofun
    · rw [← List.append_nil levels]
      exact .skip (fun _ _ _ => nofun) h

/-- A suffix and what follows it. -/
theorem Follows.of_suffix {k : Kind} {z : List Kind} (hk : arrowAhead (k :: ks) = false)
    (h : Follows choice z rest)
    (hsuffix : ∀ m, (∀ base, Passes 1 (suffixes base) z m) → ∀ base, Passes 1 (suffixes base) (k :: ks) m) :
    Follows choice (k :: ks) rest := by
  obtain ⟨m, hm, hclimb⟩ := h.loops
  exact ⟨h.stops, hk, m, hsuffix m hm, hclimb⟩

end

/-! ## How words open -/

/-- What the first tokens of a word tell. If the word is an operand, then no function
starts here, whatever follows except for an arrow. -/
structure Opening (operand : Bool) (w : List Kind) : Prop where
  first : ∃ k m, w = k :: m ∧ ¬ Closes k ∧ k ≠ .eof
  header : ∀ y, closesHeader false y = false → closesHeader true (w ++ y) = false
  lambda : operand = true → ∀ y, arrowAhead y = false → opensLambda (w ++ y) = false

/-- The tokens that have no place in the header of a function, nor after it. -/
structure Parts (k : Kind) : Prop where
  header : ∀ y, closesHeader false (k :: y) = false
  arrow : ∀ y, arrowAhead (k :: y) = false

theorem parts_of_operator {level : Level} {k : Kind} {op : BinaryOp} (h : Operator level k op) :
    Parts k := by
  cases h <;> exact ⟨fun _ => rfl, fun _ => rfl⟩

section

variable {operand : Bool} {w : List Kind}

theorem Opening.append {k : Kind} (h : Opening operand w) (hk : Parts k) (y : List Kind) :
    Opening operand (w ++ k :: y) where
  first := by
    obtain ⟨k, m, rfl, hk⟩ := h.first
    exact ⟨k, _, rfl, hk⟩
  header z _ := by
    rw [List.append_assoc]
    exact h.header _ (hk.header _)
  lambda hoperand z _ := by
    rw [List.append_assoc]
    exact h.lambda hoperand _ (hk.arrow _)

theorem Opening.weaken (h : Opening operand w) : Opening false w :=
  ⟨h.first, h.header, nofun⟩

/-- A word in parentheses is no parameter list. -/
theorem Opening.paren (h : Opening operand w) : Opening true (.symbol .lParen :: w ++ [.symbol .rParen]) where
  first := ⟨_, _, rfl, nofun, nofun⟩
  header _ _ := rfl
  lambda _ y hy := by
    rw [List.cons_append, List.cons_append, List.append_assoc]
    exact h.header _ hy

end

theorem opening_of_header {h : List Kind} {ps : List Param} (hh : Header h ps) (y : List Kind) :
    Opening false (h ++ .symbol .arrow :: y) := by
  cases hh with
  | name => exact ⟨⟨_, _, rfl, nofun, nofun⟩, fun _ _ => rfl, nofun⟩
  | params => exact ⟨⟨_, _, rfl, nofun, nofun⟩, fun _ _ => rfl, nofun⟩

/-- How the words of a phrase open. The words of lists may be empty. -/
def Opens : Phrase → List Kind → Prop
  | .items, _ | .fields, _ | .bindings, _ => True
  | .expr, w | .lambda, w | .ternary, w => Opening false w
  | _, w => Opening true w

theorem opens_operands {level : Level} {w : List Kind} (h : Opens (operands level) w) : Opening true w := by
  cases level <;> exact h

theorem opens {phrase : Phrase} {w : List Kind} {t : Tree} (h : Derives phrase w t) : Opens phrase w := by
  induction h with
  | exprLet _ ih => exact ih.weaken
  | exprIf _ ih => exact ih.weaken
  | exprLambda _ ih => exact ih
  | exprTernary _ ih => exact ih
  | letIn => exact ⟨⟨_, _, rfl, nofun, nofun⟩, fun _ _ => rfl, fun _ _ _ => rfl⟩
  | conditional => exact ⟨⟨_, _, rfl, nofun, nofun⟩, fun _ _ => rfl, fun _ _ _ => rfl⟩
  | lambda hhead => exact opening_of_header hhead _
  | ternaryOr _ ih => exact ih.weaken
  | ternaryChoice _ _ _ ih =>
    rw [List.append_assoc]
    exact (ih.append ⟨fun _ => rfl, fun _ => rfl⟩ _).weaken
  | operand _ ih => exact opens_operands ih
  | binary _ hop _ ih => exact ih.append (parts_of_operator hop) _
  | sign hop => cases hop <;> exact ⟨⟨_, _, rfl, nofun, nofun⟩, fun _ _ => rfl, fun _ _ _ => rfl⟩
  | unsigned _ ih => exact ih
  | bare _ ih => exact ih
  | call _ _ ih =>
    rw [List.append_assoc]
    exact ih.append ⟨fun _ => rfl, fun _ => rfl⟩ _
  | field _ ih => exact ih.append ⟨fun _ => rfl, fun _ => rfl⟩ _
  | index _ _ ih =>
    rw [List.append_assoc]
    exact ih.append ⟨fun _ => rfl, fun _ => rfl⟩ _
  | @literal value =>
    cases value <;> exact ⟨⟨_, _, rfl, nofun, nofun⟩, fun _ _ => rfl, fun _ _ _ => rfl⟩
  | ident => exact ⟨⟨_, _, rfl, nofun, nofun⟩, fun _ hy => hy, fun _ _ hy => hy⟩
  | paren _ ih => exact ih.paren
  | list => exact ⟨⟨_, _, rfl, nofun, nofun⟩, fun _ _ => rfl, fun _ _ _ => rfl⟩
  | record => exact ⟨⟨_, _, rfl, nofun, nofun⟩, fun _ _ => rfl, fun _ _ _ => rfl⟩
  | primaryLet _ ih => exact ih
  | primaryIf _ ih => exact ih
  | _ => trivial

/-! ## Completeness -/

/-- An operand without a sign is read, with its suffixes, and the loops go on after it. -/
structure ReadsUnsigned (choice : Bool) (ks rest : List Kind) : Prop where
  unsigned : ∀ k op, ks.head? = some k → ¬ Sign k op
  loops : ∃ m n, Passes 2 primary ks m ∧ (∀ base, Passes 1 (suffixes base) m n) ∧ Climbs choice levels n rest

/-- What the parser does with a word of a phrase, whatever follows that it can go on with.
For operands this is the run up to the loop that would take the word's phrase as its left
operand, and on through the loops around it. -/
def Completes : Phrase → List Kind → Prop
  | .letIn, w | .conditional, w =>
      ∀ z rest, Follows true z rest → Bare (w ++ z) ∧ Passes 1 expr (w ++ z) rest
  | .expr, w | .lambda, w | .ternary, w =>
      ∀ z rest, Follows true z rest → Passes 17 expr (w ++ z) rest
  | .binary level, w => ∀ choice z rest, Follows choice z rest →
      (∃ m, Passes (fuelFor (.binary level)) (binary level) (w ++ z) m ∧
        Climbs choice (looser level) m rest) ∧
      (Bare (w ++ z) → Passes 1 expr (w ++ z) rest)
  | .unary, w => ∀ choice z rest, Follows choice z rest →
      (∃ m, Passes 3 unary (w ++ z) m ∧ Climbs choice levels m rest) ∧
      (Bare (w ++ z) → Passes 1 expr (w ++ z) rest)
  | .suffixed, w | .primary, w => ∀ choice z rest, Follows choice z rest →
      ReadsUnsigned choice (w ++ z) rest ∧ (Bare (w ++ z) → Passes 1 expr (w ++ z) rest)
  | .items, w => ∀ close z, Closes (.symbol close) → close ≠ .comma →
      Passes 18 (items close) (w ++ .symbol close :: z) (.symbol close :: z)
  | .fields, w => ∀ z, Passes 1 fields (w ++ .symbol .rBrace :: z) (.symbol .rBrace :: z)
  | .bindings, w => ∀ z, (∃ name m, w = .ident name :: m) ∧
      Passes 1 bindings (w ++ .word .kwIn :: z) (.word .kwIn :: z)

section

variable {w z rest : List Kind} {choice : Bool}

/-- An operand of a level is read, and the loop of that level goes on after it. -/
theorem operand_complete {level : Level} (h : Completes (operands level) w)
    (hz : Follows choice z rest) :
    (∃ m, Passes (fuelFor (operands level) + 1) (operand level) (w ++ z) m ∧
      Climbs choice (level :: looser level) m rest) ∧
    (Bare (w ++ z) → Passes 1 expr (w ++ z) rest) := by
  cases level with
  | multiplicative =>
    obtain ⟨⟨m, hm, hclimb⟩, hbare⟩ := h choice z rest hz
    exact ⟨⟨m, operand_reads_unary hm, hclimb⟩, hbare⟩
  | _ =>
    obtain ⟨⟨m, hm, hclimb⟩, hbare⟩ := h choice z rest hz
    exact ⟨⟨m, operand_reads rfl hm, hclimb⟩, hbare⟩

/-- A chain of disjunctions is an expression, alone or as the condition of a choice. -/
theorem disjunction_complete (h : Completes (.binary .disjunction) w) (hopen : Opening true w)
    (hz : Follows true z rest) : Passes 17 expr (w ++ z) rest := by
  obtain ⟨⟨m, hm, hchoice⟩, hexpr⟩ := h true z rest hz
  -- A `let` or an `if` at the start is taken by the parser of expressions itself.
  by_cases hbare : Bare (w ++ z)
  · exact (hexpr hbare).mono (by omega)
  · refine expr_reads hbare ?_ (ternary_reads hm hchoice)
    rw [List.append_assoc]
    refine hopen.lambda rfl _ ?_
    rw [arrowAhead_append_eof]
    exact hz.noArrow

/-- A `let` or an `if` as an operand takes all that the loops around it could take. -/
theorem bare_complete (h : ∀ z rest, Follows true z rest → Bare (w ++ z) ∧ Passes 1 expr (w ++ z) rest) :
    Completes .primary w := by
  intro choice z rest hz
  obtain ⟨hbare, hexpr⟩ := h z rest hz.allow
  -- Nothing is left for the loops but a token that stops them.
  have hstop : Follows choice rest rest := .stop hz.stops
  obtain ⟨m, hsuffix, hclimb⟩ := hstop.loops
  refine ⟨⟨?_, rest, m, primary_reads_bare hbare hexpr, hsuffix, hclimb⟩, fun _ => hexpr⟩
  exact fun k op hk => hbare.not_sign hk

/-- A primary expression that ends where its word ends. -/
theorem primary_complete {k : Kind} (hsign : ∀ op, ¬ Sign k op) (hbare : ∀ z, ¬ Bare (k :: z))
    (hread : ∀ z, Passes 2 primary (k :: (w ++ z)) z) : Completes .primary (k :: w) := by
  intro choice z rest hz
  obtain ⟨m, hsuffix, hclimb⟩ := hz.loops
  refine ⟨⟨?_, z, m, hread z, hsuffix, hclimb⟩, fun h => absurd h (hbare _)⟩
  rintro _ op ⟨⟩
  exact hsign op

/-- An expression up to a token that closes it. -/
theorem closed_complete (h : Completes .expr w) {k : Kind} (hk : Closes k) (z : List Kind) :
    Passes 17 expr (w ++ k :: z) (k :: z) :=
  h _ _ hk.follows

end

/-- The first token of a word is the current one. -/
theorem Opening.kind {operand : Bool} {w z : List Kind} (h : Opening operand w) {s : Stream}
    (hs : s.Spells (w ++ z)) {close : Symbol} (hclose : Closes (.symbol close)) :
    s.kind ≠ .symbol close ∧ s.kind ≠ .eof := by
  obtain ⟨k, m, rfl, hk, hne⟩ := h.first
  rw [hs.kind]
  refine ⟨?_, hne⟩
  rintro rfl
  exact hk hclose

/-- **Every word of the grammar is read, whatever the parser can go on with after it.** -/
theorem complete {phrase : Phrase} {w : List Kind} {t : Tree} (h : Derives phrase w t) :
    Completes phrase w := by
  induction h with
  | exprLet _ ih => exact fun z rest hz => (ih z rest hz).2.mono (by omega)
  | exprIf _ ih => exact fun z rest hz => (ih z rest hz).2.mono (by omega)
  | exprLambda _ ih => exact ih
  | exprTernary _ ih => exact ih
  | @letIn bs w _ _ _ _ _ ihbs ih =>
    intro z rest hz
    rw [List.append_assoc]
    exact ⟨trivial, letIn_reads (ihbs (w ++ z)).2 (ih z rest hz) fun _ _ _ _ _ => trivial⟩
  | bindingsLast _ ih =>
    intro z
    exact ⟨⟨_, _, rfl⟩, bindings_reads_last (closed_complete ih .kwIn z) fun _ _ _ => trivial⟩
  | bindingsEnd _ ih =>
    intro z
    rw [List.append_assoc]
    exact ⟨⟨_, _, rfl⟩, bindings_reads_end (closed_complete ih .semicolon _) fun _ _ _ => trivial⟩
  | bindingsCons _ _ ih ihbs =>
    intro z
    obtain ⟨⟨other, m, rfl⟩, hbs⟩ := ihbs z
    rw [List.append_assoc]
    refine ⟨⟨_, _, rfl⟩, bindings_reads (closed_complete ih .semicolon _) hbs ?_⟩
    exact fun _ _ _ _ _ => trivial
  | @conditional c a b _ _ _ _ _ _ _ ihc iha ihb =>
    intro z rest hz
    simp only [List.append_assoc, List.cons_append]
    refine ⟨trivial, conditional_reads (closed_complete ihc .rParen _)
      (closed_complete iha .kwElse _) (ihb z rest hz) ?_⟩
    exact fun _ _ _ _ _ _ _ => trivial
  | lambda hhead _ ih =>
    intro z rest hz
    rw [List.append_assoc]
    exact lambda_reads hhead (ih z rest hz) fun _ _ _ _ _ => trivial
  | ternaryOr h ih => exact fun z rest hz => disjunction_complete ih (opens h) hz
  | @ternaryChoice c a b _ _ _ _ hc _ _ ihc iha ihb =>
    intro z rest hz
    simp only [List.append_assoc, List.cons_append]
    refine disjunction_complete ihc (opens hc) (.of_choice hz.stops ?_)
    -- The first branch stops at the colon, since no choice is allowed in it.
    obtain ⟨⟨m, hm, hstop⟩, -⟩ := iha false (.symbol .colon :: (b ++ z)) _ Closes.colon.follows
    cases hstop
    exact .some hm (ihb z rest hz)
  | operand _ ih =>
    intro choice z rest hz
    obtain ⟨⟨m, hm, n, hchain, hclimb⟩, hbare⟩ := operand_complete ih hz
    exact ⟨⟨n, binary_reads hm fun left _ => hchain left, hclimb⟩, hbare⟩
  | binary _ hop _ ihl ihr =>
    intro choice z rest hz
    rw [List.append_assoc]
    refine ihl choice _ rest (.of_operator hop hz.stops ?_)
    -- The right operand may take more than its word; what it leaves, the loop of this
    -- level and the looser ones go on with.
    obtain ⟨⟨m, hm, n, hchain, hclimb⟩, -⟩ := operand_complete ihr hz
    exact ⟨n, fun _ => chain_reads hop hm fun _ _ _ => hchain _, hclimb⟩
  | sign hop _ ih =>
    intro choice z rest hz
    obtain ⟨⟨m, hm, hclimb⟩, -⟩ := ih choice z rest hz
    refine ⟨⟨m, unary_reads_sign hop hm fun _ _ _ => trivial, hclimb⟩, fun hbare => ?_⟩
    cases hop <;> exact hbare.elim
  | unsigned _ ih =>
    intro choice z rest hz
    obtain ⟨⟨hsign, m, n, hm, hsuffix, hclimb⟩, hbare⟩ := ih choice z rest hz
    exact ⟨⟨n, unary_reads hsign hm fun base _ => hsuffix base, hclimb⟩, hbare⟩
  | bare _ ih => exact ih
  | call _ _ ih ihas =>
    intro choice z rest hz
    simp only [List.append_assoc, List.cons_append, List.nil_append]
    refine ih choice _ rest (.of_suffix rfl hz fun m hm => ?_)
    exact fun _ => suffixes_reads_call (ihas .rParen z .rParen nofun) fun _ _ _ => hm _
  | field _ ih =>
    intro choice z rest hz
    simp only [List.append_assoc, List.cons_append, List.nil_append]
    exact ih choice _ rest (.of_suffix rfl hz fun m hm _ => suffixes_reads_field fun _ => hm _)
  | index _ _ ih ihv =>
    intro choice z rest hz
    simp only [List.append_assoc, List.cons_append, List.nil_append]
    refine ih choice _ rest (.of_suffix rfl hz fun m hm => ?_)
    exact fun _ => suffixes_reads_index (closed_complete ihv .rBracket z) fun _ _ _ => hm _
  | @literal value =>
    refine primary_complete ?_ ?_ fun z => primary_reads_literal value fun _ => trivial
    · cases value <;> nofun
    · cases value <;> exact fun _ => id
  | ident => exact primary_complete nofun (fun _ => id) fun z => primary_reads_ident _ fun _ => trivial
  | paren _ ih =>
    rw [List.cons_append]
    refine primary_complete nofun (fun _ => id) fun z => ?_
    rw [List.append_assoc]
    exact primary_reads_paren (closed_complete ih .rParen z)
  | list _ ih =>
    rw [List.cons_append]
    refine primary_complete nofun (fun _ => id) fun z => ?_
    rw [List.append_assoc]
    exact primary_reads_list (ih .rBracket z .rBracket nofun) fun _ _ _ => trivial
  | record _ ih =>
    rw [List.cons_append]
    refine primary_complete nofun (fun _ => id) fun z => ?_
    rw [List.append_assoc]
    exact primary_reads_record (ih z) fun _ _ _ => trivial
  | primaryLet _ ih => exact bare_complete ih
  | primaryIf _ ih => exact bare_complete ih
  | itemsNil => exact fun close z _ _ => items_reads_stop trivial
  | itemsLast h ih =>
    intro close z hclose hne
    exact items_reads_last (fun s hs => (opens h).kind hs hclose) hne (closed_complete ih hclose z)
      fun _ _ => trivial
  | itemsCons h _ ih ihws =>
    intro close z hclose hne
    rw [List.append_assoc]
    exact items_reads (fun s hs => (opens h).kind hs hclose) (closed_complete ih .comma _)
      (ihws close z hclose hne) fun _ _ _ _ => trivial
  | fieldsNil => exact fun z => fields_reads_stop trivial
  | fieldsLast _ ih => exact fun z => fields_reads_last (closed_complete ih .rBrace z) fun _ _ _ => trivial
  | fieldsCons _ _ ih ihws =>
    intro z
    rw [List.append_assoc]
    exact fields_reads (closed_complete ih .comma _) (ihws z) fun _ _ _ _ _ => trivial

end Parser

open Grammar

/-- The kinds of a list of tokens before its end marker are ahead at its start. -/
theorem Stream.exists_ofList? (ts : List Token) {last : Token} (hlast : last.kind = .eof) :
    ∃ s, Stream.ofList? (ts ++ [last]) = some s ∧ s.Spells (ts.map Token.kind) := by
  cases ts with
  | nil => exact ⟨⟨last, []⟩, rfl, by simp [Stream.Spells, hlast]⟩
  | cons t ts => exact ⟨⟨t, ts ++ [last]⟩, rfl, by simp [Stream.Spells, hlast]⟩

theorem parseExpr_eq_ok {s t : Stream} {e : Expr} :
    parseExpr s = .ok e t ↔ Parser.expr (parseFuel s.length) s = .ok e t := by
  rw [parseExpr, EStateM.bind_eq_ok]
  constructor
  · rintro ⟨a, u, hget, hrun⟩
    obtain ⟨rfl, rfl⟩ := EStateM.get_eq_ok.1 hget
    exact hrun
  · exact fun hrun => ⟨s, s, rfl, hrun⟩

theorem parseAll_eq_ok {s t : Stream} {e : Expr} :
    parseAll s = .ok e t ↔ parseExpr s = .ok e t ∧ t.kind = .eof := by
  rw [parseAll, EStateM.bind_eq_ok]
  constructor
  · rintro ⟨e', u, hrun, hrest⟩
    obtain ⟨v, w, hget, hend⟩ := EStateM.bind_eq_ok.1 hrest
    obtain ⟨rfl, rfl⟩ := EStateM.get_eq_ok.1 hget
    by_cases hat : u.atEnd = true
    · rw [if_pos hat] at hend
      obtain ⟨rfl, rfl⟩ := EStateM.pure_eq_ok.1 hend
      exact ⟨hrun, Stream.atEnd_iff.1 hat⟩
    · rw [if_neg hat] at hend
      cases hend
  · rintro ⟨hrun, hend⟩
    refine ⟨e, t, hrun, EStateM.bind_eq_ok.2 ⟨t, t, rfl, ?_⟩⟩
    rw [if_pos (Stream.atEnd_iff.2 hend)]
    rfl

theorem parse_eq_ok {s : Stream} {e : Expr} : parse s = .ok e ↔ ∃ t, parseAll s = .ok e t := by
  unfold parse
  split
  · next h => simp [h]
  · next h => simp [h]

theorem parseTokens_eq_ok {ts : List Token} {s : Stream} {e : Expr} (hs : Stream.ofList? ts = some s) :
    parseTokens ts = .ok e ↔
      ∃ t, Parser.expr (parseFuel s.length) s = .ok e t ∧ t.kind = .eof := by
  simp only [← parseExpr_eq_ok, ← parseAll_eq_ok, ← parse_eq_ok]
  unfold parseTokens
  rw [hs]
  cases h : parse s <;> simp [h]

/-- **The parser accepts exactly the words of the grammar**, and what it returns is the
tree of a derivation of the whole word. -/
theorem parseTokens_accepts (ts : List Token) (last : Token) (hlast : last.kind = .eof)
    (hts : ∀ t ∈ ts, t.kind ≠ .eof) :
    ((∃ e, parseTokens (ts ++ [last]) = .ok e) ↔ Accepts (ts.map Token.kind)) ∧
      ∀ e, parseTokens (ts ++ [last]) = .ok e → Derives .expr (ts.map Token.kind) (.expr e) := by
  obtain ⟨s, hs, hspells⟩ := Stream.exists_ofList? ts hlast
  have hsound (e : Expr) (h : parseTokens (ts ++ [last]) = .ok e) :
      Derives .expr (ts.map Token.kind) (.expr e) := by
    obtain ⟨t, hrun, hend⟩ := (parseTokens_eq_ok hs).1 h
    obtain ⟨w, rest, hks, hrest, hw⟩ := (Parser.sound _).expr s e t _ hrun hspells
    cases rest with
    | nil => rwa [hks, List.append_nil]
    | cons k rest =>
      -- A token of the word would be the end marker.
      have hk : k ∈ ts.map Token.kind := by simp [hks]
      obtain ⟨x, hx, rfl⟩ := List.mem_map.1 hk
      exact absurd (hrest.kind.symm.trans hend) (hts x hx)
  refine ⟨⟨fun ⟨e, h⟩ => ⟨e, hsound e h⟩, ?_⟩, hsound⟩
  rintro ⟨e, he⟩
  have hreads := Parser.complete he [] [] (.stop nofun)
  rw [List.append_nil] at hreads
  have hfuel : 17 + 32 * (ts.map Token.kind).length ≤ parseFuel s.length := by
    rw [hspells.length, parseFuel]
    omega
  obtain ⟨e', t, hrun, ht⟩ := hreads.leads s _ hspells hfuel
  exact ⟨e', (parseTokens_eq_ok hs).2 ⟨t, hrun, ht.kind_nil⟩⟩

/-- The tokens of `a + let x = b in x * c`, which have two derivations. -/
def letOperand : List Token :=
  [.ident "a", .symbol .plus, .word .kwLet, .ident "x", .symbol .assign, .ident "b", .word .kwIn,
    .ident "x", .symbol .star, .ident "c"].map (⟨·, .start⟩)

theorem parseTokens_accepts_letOperand :
    (∀ t ∈ letOperand, t.kind ≠ .eof) ∧ Accepts (letOperand.map Token.kind) ∧
      ∃ e, parseTokens (letOperand ++ [⟨.eof, .start⟩]) = .ok e ∧
        Derives .expr (letOperand.map Token.kind) (.expr e) := by
  have hts : ∀ t ∈ letOperand, t.kind ≠ .eof := by simp [letOperand]
  obtain ⟨haccepts, hderives⟩ := parseTokens_accepts letOperand ⟨.eof, .start⟩ rfl hts
  have hok : ∃ e, parseTokens (letOperand ++ [⟨.eof, .start⟩]) = .ok e := ⟨_, rfl⟩
  refine ⟨hts, haccepts.1 hok, ?_⟩
  obtain ⟨e, he⟩ := hok
  exact ⟨e, he, hderives e he⟩

end DistanceField
