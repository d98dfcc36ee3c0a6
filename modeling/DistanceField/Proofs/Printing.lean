import DistanceField.Proofs.Induction
import DistanceField.Proofs.ParserComplete

/-!
# Parsing undoes printing

An expression is spelled with parentheses only where its place asks for more than it
binds. The parser reads such a word back to the expression that it spells, up to
positions. The grammar alone does not give this: it is ambiguous, and the greedy parser
must stop at the right tokens.

* `Expr.spell`: the tokens of an expression.
* `Expr.strip`: an expression without its positions.
* `Parser.Recovers`: what the parser gives for a word at a place, whatever follows it
  there.
* `Parser.Spelled.loosen`, `Parser.Spelled.enclose`: a word that fits a place fits the
  looser ones too, and in parentheses it fits them all.
* `parseTokens_spell`: parsing undoes printing.
-/

namespace DistanceField

open Grammar

/-! ## Printing -/

/-- The token of a binary operator. -/
def BinaryOp.kind : BinaryOp → Kind
  | .add => .symbol .plus
  | .sub => .symbol .minus
  | .mul => .symbol .star
  | .div => .symbol .slash
  | .mod => .symbol .percent
  | .eq => .symbol .eqEq
  | .ne => .symbol .bangEq
  | .lt => .symbol .lt
  | .le => .symbol .ltEq
  | .gt => .symbol .gt
  | .ge => .symbol .gtEq
  | .and => .word .kwAnd
  | .or => .word .kwOr

def BinaryOp.level : BinaryOp → Level
  | .add | .sub => .additive
  | .mul | .div | .mod => .multiplicative
  | .eq | .ne => .equality
  | .lt | .le | .gt | .ge => .comparison
  | .and => .conjunction
  | .or => .disjunction

theorem BinaryOp.operator (op : BinaryOp) : Operator op.level op.kind op := by
  cases op <;> constructor

/-- The token of a unary operator. -/
def UnaryOp.kind : UnaryOp → Kind
  | .neg => .symbol .minus
  | .not => .word .kwNot

theorem UnaryOp.sign (op : UnaryOp) : Sign op.kind op := by
  cases op <;> constructor

/-- How tightly the operators of a level bind. -/
def Level.tightness : Level → Nat
  | .disjunction => 1
  | .conjunction => 2
  | .equality => 3
  | .comparison => 4
  | .additive => 5
  | .multiplicative => 6

/-- How tightly an expression binds. A `let`, a conditional or a function reaches as far as
it can; signs bind tighter than the operators between two operands, and suffixes tighter
than signs. -/
def Expr.tightness : Expr → Nat
  | .cond .. | .lambda .. | .letIn .. => 0
  | .binary op .. => op.level.tightness
  | .unary .. => 7
  | _ => 8

/-- The word of an expression at a place that asks for this tightness: in parentheses if
the expression binds less. -/
def enclose (place : Nat) (e : Expr) (w : List Kind) : List Kind :=
  if place ≤ e.tightness then w else .symbol .lParen :: w ++ [.symbol .rParen]

/-- Words one after the other, with a separator between each two. -/
def separated (separator : Kind) : List (List Kind) → List Kind
  | [] => []
  | [w] => w
  | w :: v :: ws => w ++ separator :: separated separator (v :: ws)

/-- What stands before the arrow of a function. A name alone needs no parentheses. -/
def spellParams : List Param → List Kind
  | [p] => [.ident p.name]
  | ps =>
    .symbol .lParen :: separated (.symbol .comma) (ps.map fun p => [.ident p.name]) ++ [.symbol .rParen]

mutual

/-- The tokens of an expression. Conditionals are written with `?` where `choice` holds, and
with `if` elsewhere. -/
def Expr.spell (choice : Expr → Bool) : Expr → List Kind
  | .lit value _ => [literalKind value]
  | .ident name _ => [.ident name]
  | .unary op e _ => op.kind :: enclose 7 e (e.spell choice)
  | .binary op left right _ =>
    enclose op.level.tightness left (left.spell choice) ++
      op.kind :: enclose (op.level.tightness + 1) right (right.spell choice)
  | .cond condition yes no pos =>
    if choice (.cond condition yes no pos) then
      enclose 1 condition (condition.spell choice) ++
        .symbol .question :: (enclose 1 yes (yes.spell choice) ++ .symbol .colon :: no.spell choice)
    else
      .word .kwIf :: .symbol .lParen :: (condition.spell choice ++
        .symbol .rParen :: (yes.spell choice ++ .word .kwElse :: no.spell choice))
  | .call callee args _ =>
    enclose 8 callee (callee.spell choice) ++
      .symbol .lParen :: (separated (.symbol .comma) (spellAll choice args) ++ [.symbol .rParen])
  | .index target index _ =>
    enclose 8 target (target.spell choice) ++
      .symbol .lBracket :: (index.spell choice ++ [.symbol .rBracket])
  | .field target name _ => enclose 8 target (target.spell choice) ++ [.symbol .dot, .ident name]
  | .list items _ =>
    .symbol .lBracket :: (separated (.symbol .comma) (spellAll choice items) ++ [.symbol .rBracket])
  | .record fields _ =>
    .symbol .lBrace ::
      (separated (.symbol .comma) (spellNamed choice .colon fields) ++ [.symbol .rBrace])
  | .lambda params body _ => spellParams params ++ .symbol .arrow :: body.spell choice
  | .letIn bindings body _ =>
    .word .kwLet ::
      (separated (.symbol .semicolon) (spellNamed choice .assign bindings) ++
        .word .kwIn :: body.spell choice)

def spellAll (choice : Expr → Bool) : List Expr → List (List Kind)
  | [] => []
  | e :: es => e.spell choice :: spellAll choice es

/-- The words of fields or bindings, with a mark between each name and its value. -/
def spellNamed (choice : Expr → Bool) (mark : Symbol) : List (Named Expr) → List (List Kind)
  | [] => []
  | ⟨name, _, value⟩ :: fs =>
    (.ident name :: .symbol mark :: value.spell choice) :: spellNamed choice mark fs

end

mutual

/-- The expression with all its positions at the start. -/
def Expr.strip : Expr → Expr
  | .lit value _ => .lit value .start
  | .ident name _ => .ident name .start
  | .unary op e _ => .unary op e.strip .start
  | .binary op left right _ => .binary op left.strip right.strip .start
  | .cond condition yes no _ => .cond condition.strip yes.strip no.strip .start
  | .call callee args _ => .call callee.strip (stripAll args) .start
  | .index target index _ => .index target.strip index.strip .start
  | .field target name _ => .field target.strip name .start
  | .list items _ => .list (stripAll items) .start
  | .record fields _ => .record (stripNamed fields) .start
  | .lambda params body _ => .lambda (params.map fun p => ⟨p.name, .start⟩) body.strip .start
  | .letIn bindings body _ => .letIn (stripNamed bindings) body.strip .start

def stripAll : List Expr → List Expr
  | [] => []
  | e :: es => e.strip :: stripAll es

def stripNamed : List (Named Expr) → List (Named Expr)
  | [] => []
  | ⟨name, _, value⟩ :: fs => ⟨name, .start, value.strip⟩ :: stripNamed fs

end

mutual

/-- Every `let` in the expression has a binding. -/
def Expr.letsBind : Expr → Bool
  | .lit .. | .ident .. => true
  | .unary _ e _ => e.letsBind
  | .binary _ left right _ => left.letsBind && right.letsBind
  | .cond condition yes no _ => condition.letsBind && yes.letsBind && no.letsBind
  | .call callee args _ => callee.letsBind && allLetsBind args
  | .index target index _ => target.letsBind && index.letsBind
  | .field target _ _ => target.letsBind
  | .list items _ => allLetsBind items
  | .record fields _ => namedLetsBind fields
  | .lambda _ body _ => body.letsBind
  | .letIn bindings body _ => !bindings.isEmpty && namedLetsBind bindings && body.letsBind

def allLetsBind : List Expr → Bool
  | [] => true
  | e :: es => e.letsBind && allLetsBind es

def namedLetsBind : List (Named Expr) → Bool
  | [] => true
  | ⟨_, _, value⟩ :: fs => value.letsBind && namedLetsBind fs

end

theorem letsBind_of_mem {es : List Expr} (h : allLetsBind es = true) : ∀ e ∈ es, e.letsBind = true := by
  induction es with
  | nil => exact List.forall_mem_nil _
  | cons e es ih =>
    rw [allLetsBind, Bool.and_eq_true] at h
    exact List.forall_mem_cons.2 ⟨h.1, ih h.2⟩

theorem letsBind_of_mem_named {fs : List (Named Expr)} (h : namedLetsBind fs = true) :
    ∀ f ∈ fs, f.value.letsBind = true := by
  induction fs with
  | nil => exact List.forall_mem_nil _
  | cons f fs ih =>
    rw [namedLetsBind, Bool.and_eq_true] at h
    exact List.forall_mem_cons.2 ⟨h.1, ih h.2⟩

theorem params_separated (ps : List Param) :
    Params (separated (.symbol .comma) (ps.map fun p => [.ident p.name])) ps := by
  induction ps with
  | nil => exact .nil
  | cons p ps ih =>
    cases ps with
    | nil => exact .last
    | cons q ps => exact .cons ih

theorem header_spellParams (ps : List Param) : Header (spellParams ps) ps := by
  unfold spellParams
  split
  · exact .name
  · exact .params (params_separated ps)

section

variable (choice : Expr → Bool) {separator : Kind}

theorem separated_spellAll (e next : Expr) (es : List Expr) :
    separated separator (spellAll choice (e :: next :: es)) =
      e.spell choice ++ separator :: separated separator (spellAll choice (next :: es)) := rfl

theorem separated_spellNamed (mark : Symbol) (f next : Named Expr) (fs : List (Named Expr)) :
    separated separator (spellNamed choice mark (f :: next :: fs)) =
      .ident f.name :: .symbol mark :: (f.value.spell choice ++
        separator :: separated separator (spellNamed choice mark (next :: fs))) := rfl

theorem exists_separated_spellNamed (mark : Symbol) (f : Named Expr) (fs : List (Named Expr)) :
    ∃ m, separated separator (spellNamed choice mark (f :: fs)) = .ident f.name :: m := by
  cases fs with
  | nil => exact ⟨_, rfl⟩
  | cons g fs => exact ⟨_, rfl⟩

end

theorem stripAll_cons (e : Expr) (es : List Expr) : stripAll (e :: es) = e.strip :: stripAll es := rfl

theorem stripNamed_cons (f : Named Expr) (fs : List (Named Expr)) :
    stripNamed (f :: fs) = ⟨f.name, .start, f.value.strip⟩ :: stripNamed fs := rfl

theorem stripParams_eq {ps qs : List Param} (h : ps.map Param.name = qs.map Param.name) :
    (ps.map fun p => (⟨p.name, .start⟩ : Param)) = qs.map fun p => ⟨p.name, .start⟩ := by
  have hnames := congrArg (List.map fun name => (⟨name, .start⟩ : Param)) h
  rwa [List.map_map, List.map_map] at hnames

namespace Parser

/-! ## Places -/

theorem exists_tightness {n : Nat} (hpos : 0 < n) (hle : n ≤ 6) : ∃ level : Level, level.tightness = n := by
  have hcases : n = 1 ∨ n = 2 ∨ n = 3 ∨ n = 4 ∨ n = 5 ∨ n = 6 := by omega
  rcases hcases with rfl | rfl | rfl | rfl | rfl | rfl
  · exact ⟨.disjunction, rfl⟩
  · exact ⟨.conjunction, rfl⟩
  · exact ⟨.equality, rfl⟩
  · exact ⟨.comparison, rfl⟩
  · exact ⟨.additive, rfl⟩
  · exact ⟨.multiplicative, rfl⟩

theorem operands_cases (level : Level) : level = .multiplicative ∨
    ∃ next : Level, operands level = .binary next ∧ next.tightness = level.tightness + 1 := by
  cases level with
  | multiplicative => exact .inl rfl
  | _ => exact .inr ⟨_, rfl, rfl⟩

/-- What comes next does not extend an operand that binds this tightly: it starts no
suffix, and it is no operator that binds as tightly. -/
def Past (n : Nat) (z : List Kind) : Prop :=
  ∀ k, z.head? = some k → ¬ Extends k ∧ ∀ level op, n ≤ level.tightness → ¬ Operator level k op

section

variable {n : Nat} {z : List Kind}

theorem Past.mono (h : Past n z) {m : Nat} (hle : n ≤ m) : Past m z := by
  intro k hk
  obtain ⟨hext, hop⟩ := h k hk
  exact ⟨hext, fun level op hm => hop level op (by omega)⟩

theorem Stops.past (h : Stops z) : Past n z :=
  fun k hk => ⟨(h k hk).not_extends, fun _ _ _ => (h k hk).not_operator⟩

/-- An operator ends its left operand. -/
theorem past_operator (op : BinaryOp) : Past (op.level.tightness + 1) (op.kind :: z) := by
  rintro _ ⟨⟩
  refine ⟨not_extends_of_operator op.operator, fun level op' hle hop' => ?_⟩
  rw [level_unique hop' op.operator] at hle
  omega

theorem past_question : Past n (.symbol .question :: z) := by
  rintro _ ⟨⟩
  exact ⟨nofun, fun _ _ _ => nofun⟩

end

/-- The parser's expression is this one, up to positions. -/
def Same (e e' : Expr) : Prop :=
  e'.strip = e.strip

/-- What the parsers of operators give for a word and what follows it: the loop of the
level goes on with an operand that is the expression. -/
def RecoversChain (level : Level) (w : List Kind) (e : Expr) : Prop :=
  ∀ z rest Q, Past (level.tightness + 1) z →
    (∀ e', Same e e' → Reads 1 (chain level e') z rest Q) →
    Reads (fuelFor (.binary level)) (binary level) (w ++ z) rest Q

/-- **What the parser gives for a word at a place**, from whole expressions at 0 to operands
with suffixes at 8. At the places of left operands the loop goes on after the word, and so
the statement is about the word with all that the loop takes. -/
def Recovers : Nat → List Kind → Expr → Prop
  | 0, w, e => ∀ z, Stops z → Reads 17 expr (w ++ z) z (Same e)
  | 1, w, e => RecoversChain .disjunction w e
  | 2, w, e => RecoversChain .conjunction w e
  | 3, w, e => RecoversChain .equality w e
  | 4, w, e => RecoversChain .comparison w e
  | 5, w, e => RecoversChain .additive w e
  | 6, w, e => RecoversChain .multiplicative w e
  | 7, w, e => ∀ z, Past 7 z → Reads 3 unary (w ++ z) z (Same e)
  | _, w, e => ∀ z rest Q, (∀ e', Same e e' → Reads 1 (suffixes e') z rest Q) →
      Reads 3 unary (w ++ z) rest Q

section

variable {w z : List Kind} {e : Expr}

theorem recovers_level (level : Level) : Recovers level.tightness w e ↔ RecoversChain level w e := by
  cases level <;> rfl

/-- The loop of a level stops where nothing extends the operand. -/
theorem Recovers.binary {level : Level} (h : Recovers level.tightness w e) (hz : Past level.tightness z) :
    Reads (fuelFor (.binary level)) (binary level) (w ++ z) z (Same e) := by
  rw [recovers_level] at h
  refine h z z _ (hz.mono (by omega)) fun e' he' => chain_reads_stop (fun k op hk => ?_) he'
  exact (hz k hk).2 level op (Nat.le_refl _)

theorem Recovers.operand (level : Level) (h : Recovers (level.tightness + 1) w e)
    (hz : Past (level.tightness + 1) z) :
    Reads (fuelFor (operands level) + 1) (operand level) (w ++ z) z (Same e) := by
  rcases operands_cases level with rfl | ⟨next, hnext, htight⟩
  · exact operand_reads_unary (h z hz)
  · rw [← htight] at h hz
    exact operand_reads hnext (h.binary hz)

/-- An operand of a level is a chain of that level. -/
theorem Recovers.chain (level : Level) (h : Recovers (level.tightness + 1) w e) :
    Recovers level.tightness w e := by
  rw [recovers_level]
  intro z rest Q hz hchain
  exact binary_reads (h.operand level hz) hchain

end

/-- The word of an expression at a place: how it opens, and what the parser gives for it. -/
structure Spelled (place : Nat) (w : List Kind) (e : Expr) : Prop where
  opening : Opening (place != 0) w
  bare : 0 < place → ∀ z, ¬ Bare (w ++ z)
  recovers : Recovers place w e

namespace Spelled

variable {place : Nat} {w : List Kind} {e : Expr}

/-- At the start of an operand the parser of expressions goes on to operators. -/
theorem expr_reads (h : Spelled 1 w e) {z rest : List Kind} (hz : arrowAhead z = false) {Q : Expr → Prop}
    (hread : Reads 16 ternary (w ++ z) rest Q) : Reads 17 expr (w ++ z) rest Q := by
  refine Parser.expr_reads (h.bare (by omega) z) ?_ hread
  rw [List.append_assoc]
  refine h.opening.lambda rfl _ ?_
  rw [arrowAhead_append_eof]
  exact hz

/-- An operand of a choice ends where no operator goes on. -/
theorem disjunction_reads (h : Spelled 1 w e) {z : List Kind} (hz : Past 1 z) :
    Reads 15 (binary .disjunction) (w ++ z) z (Same e) := by
  have hchain : Recovers Level.disjunction.tightness w e := h.recovers
  exact hchain.binary hz

theorem recovers_loosen (h : Spelled (place + 1) w e) : Recovers place w e := by
  have hplace : place = 0 ∨ (0 < place ∧ place ≤ 6) ∨ place = 7 ∨ 8 ≤ place := by omega
  rcases hplace with rfl | ⟨hpos, hle⟩ | rfl | hle
  · -- a chain of disjunctions is an expression, since no choice follows it
    intro z hz
    refine h.expr_reads hz.noArrow (ternary_reads_condition (h.disjunction_reads hz.past) fun hk => ?_)
    cases hz _ hk
  · obtain ⟨level, rfl⟩ := exists_tightness hpos hle
    exact h.recovers.chain level
  · -- without a sign and without more suffixes, an operand is a unary expression
    intro z hz
    exact h.recovers z z _ fun e' he' => suffixes_reads_stop (fun k hk => (hz k hk).1) he'
  · obtain ⟨n, rfl⟩ : ∃ n, place = n + 8 := ⟨place - 8, by omega⟩
    exact h.recovers

theorem loosen (h : Spelled (place + 1) w e) : Spelled place w e where
  opening := by
    cases place with
    | zero => exact h.opening.weaken
    | succ n => exact h.opening
  bare _ := h.bare (by omega)
  recovers := h.recovers_loosen

/-- **A word that fits a place fits every looser one.** -/
theorem loosen_le (h : Spelled place w e) {looser : Nat} (hle : looser ≤ place) : Spelled looser w e := by
  induction hle with
  | refl => exact h
  | step _ ih => exact ih h.loosen

/-- A primary expression that ends where its word ends. -/
theorem primary {k : Kind} (hsign : ∀ op, ¬ Sign k op) (hbare : ∀ z, ¬ Bare (k :: z))
    (hopen : Opening true (k :: w)) (hread : ∀ z, Reads 2 primary (k :: (w ++ z)) z (Same e)) :
    Spelled 8 (k :: w) e where
  opening := hopen
  bare _ z := hbare _
  recovers z rest Q hsuffixes := by
    refine unary_reads ?_ (hread z) hsuffixes
    rintro _ op ⟨⟩
    exact hsign op

theorem paren (h : Spelled 0 w e) : Spelled 8 (.symbol .lParen :: w ++ [.symbol .rParen]) e := by
  have hopen := h.opening.paren
  rw [List.cons_append] at hopen ⊢
  refine primary nofun (fun _ => id) hopen fun z => ?_
  rw [List.append_assoc]
  exact primary_reads_paren (h.recovers _ Closes.rParen.stops)

/-- **In parentheses where it has to be, a word fits every place.** -/
theorem enclose (h : Spelled e.tightness w e) (hplace : place ≤ 8) :
    Spelled place (enclose place e w) e := by
  unfold DistanceField.enclose
  split
  · next hle => exact h.loosen_le hle
  · exact (h.loosen_le (Nat.zero_le _)).paren.loosen_le hplace

theorem expr (h : Spelled e.tightness w e) : Spelled 0 w e := h.loosen_le (Nat.zero_le _)

/-- An expression up to a token that closes it. -/
theorem closed (h : Spelled 0 w e) {k : Kind} (hk : Closes k) (z : List Kind) :
    Reads 17 Parser.expr (w ++ k :: z) (k :: z) (Same e) :=
  h.recovers _ hk.stops

end Spelled

/-! ## The words of expressions, one by one -/

section

variable {w v : List Kind} {e left right : Expr} {pos : Pos}

theorem spelled_lit (value : Literal) : Spelled 8 [literalKind value] (.lit value pos) := by
  refine .primary ?_ ?_ ?_ fun z => primary_reads_literal value fun _ => rfl
  · cases value <;> nofun
  · cases value <;> exact fun _ => id
  · cases value <;> exact ⟨⟨_, _, rfl, nofun, nofun⟩, fun _ _ => rfl, fun _ _ _ => rfl⟩

theorem spelled_ident (name : String) : Spelled 8 [.ident name] (.ident name pos) := by
  refine .primary nofun (fun _ => id) ?_ fun z => primary_reads_ident name fun _ => rfl
  exact ⟨⟨_, _, rfl, nofun, nofun⟩, fun _ hy => hy, fun _ _ hy => hy⟩

theorem spelled_unary (op : UnaryOp) (h : Spelled 7 w e) : Spelled 7 (op.kind :: w) (.unary op e pos) where
  opening := by
    cases op <;> exact ⟨⟨_, _, rfl, nofun, nofun⟩, fun _ _ => rfl, fun _ _ _ => rfl⟩
  bare _ _ := by cases op <;> exact id
  recovers z hz := by
    refine unary_reads_sign op.sign (h.recovers z hz) fun e' pos' he' => ?_
    rw [Same, Expr.strip, Expr.strip, he']

/-- The left operand is read with the loop of its own level, which goes on with the
operator; the right one ends before the next operator of the level. -/
theorem spelled_binary (op : BinaryOp) (hl : Spelled op.level.tightness w left)
    (hr : Spelled (op.level.tightness + 1) v right) :
    Spelled op.level.tightness (w ++ op.kind :: v) (.binary op left right pos) := by
  have hpos : 0 < op.level.tightness := by cases op <;> decide
  refine ⟨hl.opening.append (parts_of_operator op.operator) v, fun _ z => ?_, ?_⟩
  · rw [List.append_assoc]
    exact hl.bare hpos _
  · have hleft := hl.recovers
    rw [recovers_level] at hleft ⊢
    intro z rest Q hz hchain
    rw [List.append_assoc]
    refine hleft _ rest Q (past_operator op) fun left' hleft' => ?_
    refine chain_reads op.operator (hr.recovers.operand op.level hz) fun right' pos' hright' => ?_
    refine hchain _ ?_
    rw [Same, Expr.strip, Expr.strip, hleft', hright']

/-- A suffix goes on from the operand before it. -/
theorem spelled_suffix {k : Kind} (h : Spelled 8 w left) (hk : Parts k)
    (hread : ∀ left', Same left left' → ∀ z rest Q,
      (∀ e', Same e e' → Reads 1 (suffixes e') z rest Q) →
      Reads 1 (suffixes left') (k :: (v ++ z)) rest Q) :
    Spelled 8 (w ++ k :: v) e := by
  refine ⟨h.opening.append hk v, fun _ z => ?_, fun z rest Q hsuffixes => ?_⟩
  · rw [List.append_assoc]
    exact h.bare (by omega) _
  · rw [List.append_assoc]
    exact h.recovers _ rest Q fun left' hleft' => hread left' hleft' z rest Q hsuffixes

theorem spelled_choice {c a b : List Kind} {condition yes no : Expr} (hc : Spelled 1 c condition)
    (ha : Spelled 1 a yes) (hb : Spelled 0 b no) :
    Spelled 0 (c ++ .symbol .question :: (a ++ .symbol .colon :: b)) (.cond condition yes no pos) where
  opening := (hc.opening.append ⟨fun _ => rfl, fun _ => rfl⟩ _).weaken
  bare h := absurd h (by omega)
  recovers z hz := by
    simp only [List.append_assoc, List.cons_append]
    have hcondition (y : List Kind) : Reads 15 (binary .disjunction) (c ++ .symbol .question :: y)
        (.symbol .question :: y) (Same condition) := hc.disjunction_reads past_question
    -- The colon ends the first branch, since a choice in it would stand in parentheses.
    have hyes (y : List Kind) : Reads 15 (binary .disjunction) (a ++ .symbol .colon :: y)
        (.symbol .colon :: y) (Same yes) := ha.disjunction_reads Closes.colon.stops.past
    refine hc.expr_reads rfl (ternary_reads_choice (hcondition _) (hyes _) (hb.recovers z hz) ?_)
    intro condition' yes' no' pos' h₁ h₂ h₃
    rw [Same, Expr.strip, Expr.strip, h₁, h₂, h₃]

theorem spelled_if {c a b : List Kind} {condition yes no : Expr} (hc : Spelled 0 c condition)
    (ha : Spelled 0 a yes) (hb : Spelled 0 b no) :
    Spelled 0 (.word .kwIf :: .symbol .lParen :: (c ++ .symbol .rParen :: (a ++ .word .kwElse :: b)))
      (.cond condition yes no pos) where
  opening := ⟨⟨_, _, rfl, nofun, nofun⟩, fun _ _ => rfl, nofun⟩
  bare h := absurd h (by omega)
  recovers z hz := by
    simp only [List.append_assoc, List.cons_append]
    refine (conditional_reads (hc.closed .rParen _) (ha.closed .kwElse _) (hb.recovers z hz) ?_).mono (by omega)
    intro condition' yes' no' pos' h₁ h₂ h₃
    rw [Same, Expr.strip, Expr.strip, h₁, h₂, h₃]

theorem spelled_lambda (params : List Param) (h : Spelled 0 w e) :
    Spelled 0 (spellParams params ++ .symbol .arrow :: w) (.lambda params e pos) where
  opening := opening_of_header (header_spellParams params) w
  bare h := absurd h (by omega)
  recovers z hz := by
    rw [List.append_assoc]
    refine lambda_reads (header_spellParams params) (h.recovers z hz) fun params' body' pos' hps hbody => ?_
    rw [Same, Expr.strip, Expr.strip, hbody, stripParams_eq hps]

theorem spelled_letIn {bindings : List (Named Expr)} (h : Spelled 0 w e)
    (hbindings : ∀ z, Reads 1 Parser.bindings (v ++ .word .kwIn :: z) (.word .kwIn :: z)
      (stripNamed · = stripNamed bindings)) :
    Spelled 0 (.word .kwLet :: (v ++ .word .kwIn :: w)) (.letIn bindings e pos) where
  opening := ⟨⟨_, _, rfl, nofun, nofun⟩, fun _ _ => rfl, nofun⟩
  bare h := absurd h (by omega)
  recovers z hz := by
    rw [List.cons_append, List.append_assoc]
    refine (letIn_reads (hbindings (w ++ z)) (h.recovers z hz) ?_).mono (by omega)
    intro bindings' body' pos' h₁ h₂
    rw [Same, Expr.strip, Expr.strip, h₁, h₂]

end

/-! ## Lists -/

section

variable {choice : Expr → Bool}

theorem items_spelled {close : Symbol} (hclose : Closes (.symbol close)) (hne : close ≠ .comma)
    {es : List Expr} (h : ∀ e ∈ es, Spelled 0 (e.spell choice) e) (z : List Kind) :
    Reads 18 (items close) (separated (.symbol .comma) (spellAll choice es) ++ .symbol close :: z)
      (.symbol close :: z) (stripAll · = stripAll es) := by
  induction es with
  | nil => exact items_reads_stop rfl
  | cons e es ih =>
    obtain ⟨he, hes⟩ := List.forall_mem_cons.1 h
    cases es with
    | nil =>
      refine items_reads_last (fun s hs => he.opening.kind hs hclose) hne (he.closed hclose z) ?_
      intro e' he'
      rw [stripAll_cons, stripAll_cons, he']
    | cons next es =>
      rw [separated_spellAll, List.append_assoc]
      refine items_reads (fun s hs => he.opening.kind hs hclose) (he.closed .comma _) (ih hes) ?_
      intro e' es' he' hes'
      rw [stripAll_cons, stripAll_cons e, he', hes']

theorem fields_spelled {fs : List (Named Expr)} (h : ∀ f ∈ fs, Spelled 0 (f.value.spell choice) f.value)
    (z : List Kind) :
    Reads 1 fields (separated (.symbol .comma) (spellNamed choice .colon fs) ++ .symbol .rBrace :: z)
      (.symbol .rBrace :: z) (stripNamed · = stripNamed fs) := by
  induction fs with
  | nil => exact fields_reads_stop rfl
  | cons f fs ih =>
    obtain ⟨hf, hfs⟩ := List.forall_mem_cons.1 h
    cases fs with
    | nil =>
      refine fields_reads_last (hf.closed .rBrace z) fun value' pos' hvalue' => ?_
      rw [stripNamed_cons, stripNamed_cons, hvalue']
    | cons next fs =>
      rw [separated_spellNamed, List.cons_append, List.cons_append, List.append_assoc]
      refine fields_reads (hf.closed .comma _) (ih hfs) fun value' pos' fs' hvalue' hfs' => ?_
      rw [stripNamed_cons, stripNamed_cons f, hvalue', hfs']

theorem bindings_spelled {b : Named Expr} {bs : List (Named Expr)}
    (h : ∀ f ∈ b :: bs, Spelled 0 (f.value.spell choice) f.value) (z : List Kind) :
    Reads 1 bindings (separated (.symbol .semicolon) (spellNamed choice .assign (b :: bs)) ++ .word .kwIn :: z)
      (.word .kwIn :: z) (stripNamed · = stripNamed (b :: bs)) := by
  induction bs generalizing b with
  | nil =>
    obtain ⟨hb, -⟩ := List.forall_mem_cons.1 h
    refine bindings_reads_last (hb.closed .kwIn z) fun value' pos' hvalue' => ?_
    rw [stripNamed_cons, stripNamed_cons, hvalue']
  | cons next bs ih =>
    obtain ⟨hb, hbs⟩ := List.forall_mem_cons.1 h
    have hrest := ih hbs
    obtain ⟨m, hm⟩ := exists_separated_spellNamed choice .assign next bs
    rw [separated_spellNamed, List.cons_append, List.cons_append, List.append_assoc]
    rw [hm] at hrest ⊢
    refine bindings_reads (hb.closed .semicolon _) hrest fun value' pos' bs' hvalue' hbs' => ?_
    rw [stripNamed_cons, stripNamed_cons b, hvalue', hbs']

end

/-! ## Every expression -/

/-- **The word of every expression is read back to it**, wherever the expression may stand
without parentheses. -/
theorem spelled (choice : Expr → Bool) (e : Expr) (h : e.letsBind = true) :
    Spelled e.tightness (e.spell choice) e := by
  induction e with
  | lit value pos => exact spelled_lit value
  | ident name pos => exact spelled_ident name
  | unary op e pos ih =>
    rw [Expr.letsBind] at h
    rw [Expr.spell]
    exact spelled_unary op ((ih h).enclose (by omega))
  | binary op left right pos ihl ihr =>
    rw [Expr.letsBind, Bool.and_eq_true] at h
    have hle : op.level.tightness + 1 ≤ 8 := by cases op <;> decide
    rw [Expr.spell]
    exact spelled_binary op ((ihl h.1).enclose (by omega)) ((ihr h.2).enclose hle)
  | cond condition yes no pos ihc iha ihb =>
    simp only [Expr.letsBind, Bool.and_eq_true] at h
    have hc := ihc h.1.1
    have ha := iha h.1.2
    have hb := (ihb h.2).expr
    rw [Expr.spell]
    split
    · exact spelled_choice (hc.enclose (by omega)) (ha.enclose (by omega)) hb
    · exact spelled_if hc.expr ha.expr hb
  | call callee args pos ih ihargs =>
    rw [Expr.letsBind, Bool.and_eq_true] at h
    have hargs : ∀ a ∈ args, Spelled 0 (a.spell choice) a :=
      fun a ha => (ihargs a ha (letsBind_of_mem h.2 a ha)).expr
    rw [Expr.spell]
    refine spelled_suffix ((ih h.1).enclose (by omega)) ⟨fun _ => rfl, fun _ => rfl⟩ ?_
    intro callee' hcallee' z rest Q hsuffixes
    rw [List.append_assoc]
    refine suffixes_reads_call (items_spelled .rParen nofun hargs z) fun args' pos' hargs' => ?_
    refine hsuffixes _ ?_
    rw [Same, Expr.strip, Expr.strip, hcallee', hargs']
  | index target index pos ih ihi =>
    rw [Expr.letsBind, Bool.and_eq_true] at h
    rw [Expr.spell]
    refine spelled_suffix ((ih h.1).enclose (by omega)) ⟨fun _ => rfl, fun _ => rfl⟩ ?_
    intro target' htarget' z rest Q hsuffixes
    rw [List.append_assoc]
    refine suffixes_reads_index ((ihi h.2).expr.closed .rBracket z) fun index' pos' hindex' => ?_
    refine hsuffixes _ ?_
    rw [Same, Expr.strip, Expr.strip, htarget', hindex']
  | field target name pos ih =>
    rw [Expr.letsBind] at h
    rw [Expr.spell]
    refine spelled_suffix ((ih h).enclose (by omega)) ⟨fun _ => rfl, fun _ => rfl⟩ ?_
    intro target' htarget' z rest Q hsuffixes
    refine suffixes_reads_field fun pos' => hsuffixes _ ?_
    rw [Same, Expr.strip, Expr.strip, htarget']
  | list items pos ih =>
    rw [Expr.letsBind] at h
    have hitems : ∀ a ∈ items, Spelled 0 (a.spell choice) a :=
      fun a ha => (ih a ha (letsBind_of_mem h a ha)).expr
    rw [Expr.spell]
    refine .primary nofun (fun _ => id) ⟨⟨_, _, rfl, nofun, nofun⟩, fun _ _ => rfl, fun _ _ _ => rfl⟩ fun z => ?_
    rw [List.append_assoc]
    refine primary_reads_list (items_spelled .rBracket nofun hitems z) fun items' pos' hitems' => ?_
    rw [Same, Expr.strip, Expr.strip, hitems']
  | record fields pos ih =>
    rw [Expr.letsBind] at h
    have hfields : ∀ f ∈ fields, Spelled 0 (f.value.spell choice) f.value :=
      fun f hf => (ih f hf (letsBind_of_mem_named h f hf)).expr
    rw [Expr.spell]
    refine .primary nofun (fun _ => id) ⟨⟨_, _, rfl, nofun, nofun⟩, fun _ _ => rfl, fun _ _ _ => rfl⟩ fun z => ?_
    rw [List.append_assoc]
    refine primary_reads_record (fields_spelled hfields z) fun fields' pos' hfields' => ?_
    rw [Same, Expr.strip, Expr.strip, hfields']
  | lambda params body pos ih =>
    rw [Expr.letsBind] at h
    rw [Expr.spell]
    exact spelled_lambda params (ih h).expr
  | letIn bindings body pos ihbs ih =>
    simp only [Expr.letsBind, Bool.and_eq_true] at h
    obtain ⟨⟨hne, hbindings⟩, hbody⟩ := h
    have hvalues : ∀ b ∈ bindings, Spelled 0 (b.value.spell choice) b.value :=
      fun b hb => (ihbs b hb (letsBind_of_mem_named hbindings b hb)).expr
    rw [Expr.spell]
    cases bindings with
    | nil => cases hne
    | cons b bs => exact spelled_letIn (ih hbody).expr (bindings_spelled hvalues)

end Parser

/-- **Parsing undoes printing**: for tokens that spell an expression whose every `let` binds
a name, at any positions and with conditionals written either way, the parser gives that
expression up to positions. -/
theorem parseTokens_spell (choice : Expr → Bool) (e : Expr) (hlets : e.letsBind = true) (ts : List Token)
    (hts : ts.map Token.kind = e.spell choice) (last : Token) (hlast : last.kind = .eof) :
    ∃ e', parseTokens (ts ++ [last]) = .ok e' ∧ e'.strip = e.strip := by
  obtain ⟨s, hs, hspells⟩ := Stream.exists_ofList? ts hlast
  have hreads := (Parser.spelled choice e hlets).expr.recovers [] nofun
  rw [List.append_nil, ← hts] at hreads
  have hfuel : 17 + 32 * (ts.map Token.kind).length ≤ parseFuel s.length := by
    rw [hspells.length, parseFuel]
    omega
  obtain ⟨e', t, hrun, ht, he'⟩ := hreads.gives s _ hspells hfuel
  exact ⟨e', (parseTokens_eq_ok hs).2 ⟨t, hrun, ht.kind_nil⟩, he'⟩

/-- The expression `a - b - (c - d) ? (x ? y : z) : p -> -(let q = p in q).r`. -/
def nestedOperators : Expr :=
  let name (n : String) : Expr := .ident n .start
  let minus (left right : Expr) : Expr := .binary .sub left right .start
  let bound : Expr := .letIn [⟨"q", .start, name "p"⟩] (name "q") .start
  .cond (minus (minus (name "a") (name "b")) (minus (name "c") (name "d")))
    (.cond (name "x") (name "y") (name "z") .start)
    (.lambda [⟨"p", .start⟩] (.unary .neg (.field bound "r" .start) .start) .start) .start

theorem parseTokens_spell_nestedOperators :
    nestedOperators.letsBind = true ∧
      nestedOperators.spell (fun _ => true) =
        [.ident "a", .symbol .minus, .ident "b", .symbol .minus,
          .symbol .lParen, .ident "c", .symbol .minus, .ident "d", .symbol .rParen, .symbol .question,
          .symbol .lParen, .ident "x", .symbol .question, .ident "y", .symbol .colon, .ident "z",
          .symbol .rParen, .symbol .colon, .ident "p", .symbol .arrow, .symbol .minus,
          .symbol .lParen, .word .kwLet, .ident "q", .symbol .assign, .ident "p", .word .kwIn,
          .ident "q", .symbol .rParen, .symbol .dot, .ident "r"] ∧
      ∃ e', parseTokens ((nestedOperators.spell fun _ => true).map (⟨·, .start⟩) ++ [⟨.eof, .start⟩]) = .ok e' ∧
        e'.strip = nestedOperators.strip :=
  ⟨rfl, rfl, parseTokens_spell (fun _ => true) nestedOperators rfl _ rfl ⟨.eof, .start⟩ rfl⟩

end DistanceField
