import DistanceField.Program
import DistanceField.Proofs.ParserReads

/-!
# The parser makes progress and comes to an end

On tokens that end with the end marker, no parser passes the marker, those of expressions
pass at least one token where they succeed, and all of them come to an end: a parser nests at
most 32 calls for each token that is left. As the calls are bounded by fuel, this is said of
two runs: with fuel for that many calls or more, they do the same, and neither breaks off.

The measure is made of the tokens that are left and of the level of the grammar. From one
parser to the next either a token is passed, which pays for 32 calls, or the level falls;
where an operand starts with `let` or `if`, it falls below that of all operators.

* `Stream.Ahead`: a later place among the same tokens.
* `Parser.Halts`: two runs of a parser that come to the same end.
* `Parser.Halting`: all parsers of expressions, at two amounts of fuel.
* `parser_progress`: every parser at every position, and the parser of a token list.
-/

namespace DistanceField

/-! ## Places among tokens -/

namespace Stream

variable {s t u : Stream} {m n : Nat}

def tokens (s : Stream) : List Token :=
  s.current :: s.later

/-- The last token is the end marker. -/
def Closed (s : Stream) : Prop :=
  s.tokens.getLast?.map Token.kind = some .eof

/-- `t` stands among the tokens of `s`, at least `n` tokens further on. -/
structure Ahead (s : Stream) (n : Nat) (t : Stream) : Prop where
  suffix : t.tokens <:+ s.tokens
  le : t.length + n ≤ s.length

theorem Ahead.refl (s : Stream) : s.Ahead 0 s :=
  ⟨List.suffix_refl _, Nat.le_refl _⟩

theorem Ahead.trans (h : s.Ahead m t) (h' : t.Ahead n u) : s.Ahead (m + n) u := by
  refine ⟨h'.suffix.trans h.suffix, ?_⟩
  have hle := h.le
  have hle' := h'.le
  omega

theorem Ahead.mono (h : s.Ahead m t) (hn : n ≤ m) : s.Ahead n t := by
  refine ⟨h.suffix, ?_⟩
  have hle := h.le
  omega

/-- A stream ends as the tokens do that it comes from. -/
theorem closed_of_suffix {ts : List Token} (h : s.tokens <:+ ts)
    (hts : ts.getLast?.map Token.kind = some .eof) : s.Closed := by
  obtain ⟨before, hbefore⟩ := h
  rwa [← hbefore, List.getLast?_append_of_ne_nil before (by simp [tokens])] at hts

theorem Ahead.closed (h : s.Ahead n t) (hs : s.Closed) : t.Closed :=
  closed_of_suffix h.suffix hs

theorem ahead_advance (s : Stream) : s.Ahead 0 s.advance := by
  unfold advance
  cases hlater : s.later with
  | nil => exact .refl s
  | cons t ts =>
    refine ⟨⟨[s.current], ?_⟩, ?_⟩
    · rw [tokens, tokens, hlater]
      rfl
    · rw [length, length, hlater]
      exact Nat.le_succ _

/-- A token before the end marker is passed. -/
theorem Closed.ahead_advance (hs : s.Closed) (hk : s.kind ≠ .eof) : s.Ahead 1 s.advance := by
  unfold advance
  cases hlater : s.later with
  | nil =>
    rw [Closed, tokens, hlater] at hs
    exact absurd (Option.some.inj hs) hk
  | cons t ts =>
    refine ⟨⟨[s.current], ?_⟩, ?_⟩
    · rw [tokens, tokens, hlater]
      rfl
    · rw [length, length, hlater]
      exact Nat.le_refl _

end Stream

namespace Parser

variable {α β : Type} {s : Stream} {m n : Nat}

theorem bind_of_ok {p : Parser α} {f : α → Parser β} {a : α} {t : Stream} (h : p s = .ok a t) :
    (p >>= f) s = f a t := by
  simp only [Bind.bind, EStateM.bind, h]

theorem bind_of_error {p : Parser α} {f : α → Parser β} {d : Diagnostic} {t : Stream}
    (h : p s = .error d t) : (p >>= f) s = .error d t := by
  simp only [Bind.bind, EStateM.bind, h]

/-! ## Runs that come to an end -/

/-- An outcome at a later place: `n` tokens further on after a success, and not because fuel
ran out after a failure. -/
def Stays (s : Stream) (n : Nat) : EStateM.Result Diagnostic Stream α → Prop
  | .ok _ t => s.Ahead n t
  | .error d t => d.reason ≠ .brokenOff ∧ s.Ahead 0 t

/-- **Two runs come to the same end**, if the tokens have one. -/
def Halts (p p' : Parser α) (s : Stream) (n : Nat) : Prop :=
  s.Closed → p' s = p s ∧ Stays s n (p s)

namespace Halts

variable {p p' q q' : Parser α} {f f' : α → Parser β}

theorem pure (a : α) : Halts (pure a) (pure a) s 0 :=
  fun _ => ⟨rfl, .refl s⟩

theorem fail {reason : Reason} {pos : Pos} (h : reason ≠ .brokenOff) :
    Halts (fail reason pos : Parser α) (Parser.fail reason pos) s n :=
  fun _ => ⟨rfl, h, .refl s⟩

theorem get {f f' : Stream → Parser β} (h : Halts (f s) (f' s) s n) : Halts (get >>= f) (get >>= f') s n := h

theorem congr (h : Halts q q' s n) (hp : p s = q s) (hp' : p' s = q' s) : Halts p p' s n := by
  intro hs
  rw [hp, hp']
  exact h hs

theorem mono (h : Halts p p' s m) (hn : n ≤ m) : Halts p p' s n := by
  intro hs
  obtain ⟨hsame, hstays⟩ := h hs
  refine ⟨hsame, ?_⟩
  cases hrun : p s with
  | ok a t =>
    rw [hrun] at hstays
    exact Stream.Ahead.mono hstays hn
  | error d t =>
    rw [hrun] at hstays
    exact hstays

/-- What the first part has passed need not be passed by the second. -/
theorem bind (hp : Halts p p' s m) (hf : ∀ a t, s.Ahead m t → Halts (f a) (f' a) t (n - m)) :
    Halts (p >>= f) (p' >>= f') s n := by
  intro hs
  obtain ⟨hsame, hstays⟩ := hp hs
  cases hrun : p s with
  | ok a t =>
    rw [hrun] at hsame hstays
    obtain ⟨hsame', hstays'⟩ := hf a t hstays (Stream.Ahead.closed hstays hs)
    rw [bind_of_ok hrun, bind_of_ok hsame]
    refine ⟨hsame', ?_⟩
    cases hrun' : f a t with
    | ok b u =>
      rw [hrun'] at hstays'
      exact (Stream.Ahead.trans hstays hstays').mono (by omega)
    | error d u =>
      rw [hrun'] at hstays'
      exact ⟨hstays'.1, (Stream.Ahead.trans hstays hstays'.2).mono (Nat.zero_le _)⟩
  | error d t =>
    rw [hrun] at hsame hstays
    rw [bind_of_error hrun, bind_of_error hsame]
    exact ⟨rfl, hstays⟩

end Halts

theorem skip_halts (hk : s.kind ≠ .eof) : Halts skip skip s 1 :=
  fun hs => ⟨rfl, hs.ahead_advance hk⟩

theorem accept_halts (x : Symbol) : Halts (accept x) (accept x) s 0 := by
  refine .get ?_
  split_ifs with hat
  · have hk : s.kind ≠ .eof := by rw [Stream.atSymbol_iff.1 hat]; simp
    exact ((skip_halts hk).mono (Nat.zero_le _)).bind fun _ _ _ => .pure _
  · exact .pure _

theorem expect_halts (x : Symbol) : Halts (expect x) (expect x) s 1 := by
  refine .get ?_
  split_ifs with hat
  · refine skip_halts ?_
    rw [Stream.atSymbol_iff.1 hat]
    simp
  · exact .fail (by simp)

theorem expectWord_halts (x : Keyword) : Halts (expectWord x) (expectWord x) s 1 := by
  refine .get ?_
  split_ifs with hat
  · refine skip_halts ?_
    rw [Stream.atWord_iff.1 hat]
    simp
  · exact .fail (by simp)

/-- The current token is passed also where it is no name; but then this is no success. -/
theorem identifier_halts : Halts identifier identifier s 1 := by
  refine .get ?_
  by_cases heof : s.kind = .eof
  · have hskip : Halts skip skip s 0 := fun _ => ⟨rfl, s.ahead_advance⟩
    rw [heof]
    exact hskip.bind fun _ _ _ => .fail (by simp)
  · refine (skip_halts heof).bind fun _ _ _ => ?_
    split
    · exact .pure _
    · exact .fail (by simp)

/-! ## Parameters -/

theorem paramList_halts {fuel fuel' : Nat} (hfuel : s.length ≤ fuel) (hfuel' : s.length ≤ fuel') :
    Halts (paramList fuel) (paramList fuel') s 0 := by
  induction fuel generalizing s fuel' with
  | zero => exact absurd hfuel (Nat.not_succ_le_zero _)
  | succ fuel ih =>
    obtain ⟨more, rfl⟩ : ∃ more, fuel' = more + 1 := ⟨fuel' - 1, by unfold Stream.length at hfuel'; omega⟩
    rw [paramList, paramList]
    refine .get ?_
    split_ifs
    · exact .pure _
    · refine identifier_halts.bind fun name t ht => ?_
      refine (accept_halts .comma).bind fun more u hu => ?_
      have hle := (ht.trans hu).le
      split_ifs
      · exact (ih (by omega) (by omega)).bind fun ps _ _ => .pure _
      · exact .pure _

theorem lambdaHeader_halts {fuel fuel' : Nat} (hfuel : s.length ≤ fuel) (hfuel' : s.length ≤ fuel') :
    Halts (lambdaHeader fuel) (lambdaHeader fuel') s 1 := by
  rw [lambdaHeader, lambdaHeader]
  refine (accept_halts .lParen).bind fun paren t ht => ?_
  have hle := ht.le
  split_ifs
  · refine (paramList_halts (by omega) (by omega)).bind fun ps _ _ => ?_
    refine (expect_halts .rParen).bind fun _ _ _ => ?_
    exact (expect_halts .arrow).bind fun _ _ _ => .pure _
  · refine .get ?_
    refine identifier_halts.bind fun name _ _ => ?_
    exact (expect_halts .arrow).bind fun _ _ _ => .pure _

/-! ## Expressions -/

/-- A `let` from its first word on. -/
def letIn (fuel : Nat) : Parser Expr := do
  let s ← get
  expectWord .kwLet
  let bs ← bindings fuel
  expectWord .kwIn
  let body ← expr fuel
  return .letIn bs body s.pos

/-- An `if` from its first word on. -/
def conditional (fuel : Nat) : Parser Expr := do
  let s ← get
  expectWord .kwIf
  expect .lParen
  let condition ← expr fuel
  expect .rParen
  let yes ← expr fuel
  expectWord .kwElse
  let no ← expr fuel
  return .cond condition yes no s.pos

/-- A function from its parameters on. -/
def lambda (fuel : Nat) : Parser Expr := do
  let s ← get
  let params ← lambdaHeader s.length
  let body ← expr fuel
  return .lambda params body s.pos

/-- An operand with its calls, fields and indices. -/
def suffixed (fuel : Nat) : Parser Expr := do
  let base ← primary fuel
  suffixes base fuel

/-- A record from its opening brace on. -/
def record (fuel : Nat) : Parser Expr := do
  let s ← get
  expect .lBrace
  let fs ← fields fuel
  expect .rBrace
  return .record fs s.pos

/-- An expression is a `let`, an `if`, a function, or else operators over operands. -/
theorem expr_succ (fuel : Nat) (s : Stream) :
    expr (fuel + 1) s =
      if s.atWord .kwLet then letIn fuel s
      else if s.atWord .kwIf then conditional fuel s
      else if s.startsLambda then lambda fuel s
      else ternary fuel s := by
  have hget : (get : Parser Stream) s = .ok s s := rfl
  rw [expr, bind_of_ok hget]
  split_ifs with hlet hif hlambda
  · have hword := expectWord_of_kind (Stream.atWord_iff.1 hlet)
    rw [letIn, bind_of_ok skip_eq, bind_of_ok hget, bind_of_ok hword]
  · have hword := expectWord_of_kind (Stream.atWord_iff.1 hif)
    rw [conditional, bind_of_ok skip_eq, bind_of_ok hget, bind_of_ok hword]
  · rfl
  · rfl

theorem fuelFor_operands_le (level : Level) : fuelFor (Grammar.operands level) ≤ 13 := by
  cases level <;> decide

/-- The parsers of expressions come to an end where they have fuel for the tokens that are
left, and for the levels of the grammar below them. -/
structure Halting (fuel fuel' : Nat) : Prop where
  bare : ∀ s : Stream, s.kind = .word .kwLet ∨ s.kind = .word .kwIf → 1 + 32 * s.length ≤ fuel →
    Halts (expr fuel) (expr fuel') s 1
  expr : ∀ s : Stream, 17 + 32 * s.length ≤ fuel → Halts (expr fuel) (expr fuel') s 1
  bindings : ∀ s : Stream, 1 + 32 * s.length ≤ fuel → Halts (bindings fuel) (bindings fuel') s 1
  ternary : ∀ s : Stream, 16 + 32 * s.length ≤ fuel → Halts (ternary fuel) (ternary fuel') s 1
  binary : ∀ level (s : Stream), fuelFor (.binary level) + 32 * s.length ≤ fuel →
    Halts (binary level fuel) (binary level fuel') s 1
  operand : ∀ level (s : Stream), fuelFor (Grammar.operands level) + 1 + 32 * s.length ≤ fuel →
    Halts (operand level fuel) (operand level fuel') s 1
  chain : ∀ level left (s : Stream), 1 + 32 * s.length ≤ fuel →
    Halts (chain level left fuel) (chain level left fuel') s 0
  unary : ∀ s : Stream, 3 + 32 * s.length ≤ fuel → Halts (unary fuel) (unary fuel') s 1
  suffixes : ∀ base (s : Stream), 1 + 32 * s.length ≤ fuel →
    Halts (suffixes base fuel) (suffixes base fuel') s 0
  primary : ∀ s : Stream, 2 + 32 * s.length ≤ fuel → Halts (primary fuel) (primary fuel') s 1
  items : ∀ close (s : Stream), 18 + 32 * s.length ≤ fuel →
    Halts (items close fuel) (items close fuel') s 0
  fields : ∀ s : Stream, 1 + 32 * s.length ≤ fuel → Halts (fields fuel) (fields fuel') s 0

section

variable {fuel fuel' : Nat} (ih : Halting fuel fuel')

include ih

/-- The first word pays for the calls down to the parts. -/
theorem letIn_halts (hfuel : 32 * s.length ≤ fuel) : Halts (letIn fuel) (letIn fuel') s 1 := by
  rw [letIn, letIn]
  refine .get ?_
  refine (expectWord_halts .kwLet).bind fun _ t ht => ?_
  have hlet := ht.le
  refine (ih.bindings t (by omega)).bind fun bs u hu => ?_
  refine (expectWord_halts .kwIn).bind fun _ v hv => ?_
  have hbody := (hu.trans hv).le
  exact (ih.expr v (by omega)).bind fun body _ _ => .pure _

theorem conditional_halts (hfuel : 32 * s.length ≤ fuel) :
    Halts (conditional fuel) (conditional fuel') s 1 := by
  rw [conditional, conditional]
  refine .get ?_
  refine (expectWord_halts .kwIf).bind fun _ t ht => ?_
  refine (expect_halts .lParen).bind fun _ u hu => ?_
  have hcondition := (ht.trans hu).le
  refine (ih.expr u (by omega)).bind fun condition v hv => ?_
  refine (expect_halts .rParen).bind fun _ w hw => ?_
  have hyes := (hv.trans hw).le
  refine (ih.expr w (by omega)).bind fun yes x hx => ?_
  refine (expectWord_halts .kwElse).bind fun _ y hy => ?_
  have hno := (hx.trans hy).le
  exact (ih.expr y (by omega)).bind fun no _ _ => .pure _

theorem lambda_halts (hfuel : 32 * s.length ≤ fuel) : Halts (lambda fuel) (lambda fuel') s 1 := by
  rw [lambda, lambda]
  refine .get ?_
  refine (lambdaHeader_halts (Nat.le_refl _) (Nat.le_refl _)).bind fun params t ht => ?_
  have hbody := ht.le
  exact (ih.expr t (by omega)).bind fun body _ _ => .pure _

theorem suffixed_halts (hfuel : 2 + 32 * s.length ≤ fuel) : Halts (suffixed fuel) (suffixed fuel') s 1 := by
  rw [suffixed, suffixed]
  refine (ih.primary s hfuel).bind fun base t ht => ?_
  have hrest := ht.le
  exact ih.suffixes base t (by omega)

theorem record_halts (hfuel : 32 * s.length ≤ fuel) : Halts (record fuel) (record fuel') s 1 := by
  rw [record, record]
  refine .get ?_
  refine (expect_halts .lBrace).bind fun _ t ht => ?_
  have hfields := ht.le
  refine (ih.fields t (by omega)).bind fun fs _ _ => ?_
  exact (expect_halts .rBrace).bind fun _ _ _ => .pure _

theorem bare_halts (hs : s.kind = .word .kwLet ∨ s.kind = .word .kwIf) (hfuel : 1 + 32 * s.length ≤ fuel + 1) :
    Halts (expr (fuel + 1)) (expr (fuel' + 1)) s 1 := by
  rcases hs with hlet | hif
  · have hat := Stream.atWord_iff.2 hlet
    refine (letIn_halts ih (by omega)).congr ?_ ?_ <;> rw [expr_succ, if_pos hat]
  · have hat := Stream.atWord_iff.2 hif
    have hlet : ¬ s.atWord .kwLet = true := by simp [Stream.atWord_iff, hif]
    refine (conditional_halts ih (by omega)).congr ?_ ?_ <;> rw [expr_succ, if_neg hlet, if_pos hat]

theorem expr_halts (hfuel : 17 + 32 * s.length ≤ fuel + 1) :
    Halts (expr (fuel + 1)) (expr (fuel' + 1)) s 1 := by
  by_cases hlet : s.kind = .word .kwLet
  · exact bare_halts ih (.inl hlet) (by omega)
  by_cases hif : s.kind = .word .kwIf
  · exact bare_halts ih (.inr hif) (by omega)
  have hnotLet : ¬ s.atWord .kwLet = true := fun h => hlet (Stream.atWord_iff.1 h)
  have hnotIf : ¬ s.atWord .kwIf = true := fun h => hif (Stream.atWord_iff.1 h)
  by_cases hlambda : s.startsLambda = true
  · refine (lambda_halts ih (by omega)).congr ?_ ?_ <;>
      rw [expr_succ, if_neg hnotLet, if_neg hnotIf, if_pos hlambda]
  · refine (ih.ternary s (by omega)).congr ?_ ?_ <;>
      rw [expr_succ, if_neg hnotLet, if_neg hnotIf, if_neg hlambda]

theorem bindings_halts (hfuel : 1 + 32 * s.length ≤ fuel + 1) :
    Halts (bindings (fuel + 1)) (bindings (fuel' + 1)) s 1 := by
  rw [bindings, bindings]
  refine .get ?_
  refine identifier_halts.bind fun name t ht => ?_
  refine (expect_halts .assign).bind fun _ u hu => ?_
  have hvalue := (ht.trans hu).le
  refine (ih.expr u (by omega)).bind fun value v hv => ?_
  refine (accept_halts .semicolon).bind fun more w hw => ?_
  have hrest := (hv.trans hw).le
  split_ifs
  · refine .get ?_
    split_ifs
    · exact .pure _
    · exact ((ih.bindings w (by omega)).mono (Nat.zero_le _)).bind fun bs _ _ => .pure _
  · exact .pure _

theorem ternary_halts (hfuel : 16 + 32 * s.length ≤ fuel + 1) :
    Halts (ternary (fuel + 1)) (ternary (fuel' + 1)) s 1 := by
  have hcost : fuelFor (.binary .disjunction) = 15 := rfl
  rw [ternary, ternary]
  refine (ih.binary .disjunction s (by omega)).bind fun condition t ht => ?_
  refine (accept_halts .question).bind fun choice u hu => ?_
  have hyes := (ht.trans hu).le
  split_ifs
  · refine (ih.binary .disjunction u (by omega)).bind fun yes v hv => ?_
    refine (expect_halts .colon).bind fun _ w hw => ?_
    have hno := (hv.trans hw).le
    exact (ih.expr w (by omega)).bind fun no _ _ => .pure _
  · exact .pure _

theorem binary_halts (level : Level) (hfuel : fuelFor (.binary level) + 32 * s.length ≤ fuel + 1) :
    Halts (binary level (fuel + 1)) (binary level (fuel' + 1)) s 1 := by
  have hcost := fuelFor_binary level
  rw [binary, binary]
  refine (ih.operand level s (by omega)).bind fun left t ht => ?_
  have hrest := ht.le
  exact ih.chain level left t (by omega)

/-- The operands of a level are of the next tighter one, and in the end unary. -/
theorem operand_halts (level : Level)
    (hfuel : fuelFor (Grammar.operands level) + 1 + 32 * s.length ≤ fuel + 1) :
    Halts (operand level (fuel + 1)) (operand level (fuel' + 1)) s 1 := by
  rw [operand, operand]
  cases level with
  | multiplicative => exact ih.unary s (by simp only [Grammar.operands, fuelFor] at hfuel; omega)
  | _ => exact ih.binary _ s (by simp only [Grammar.operands, fuelFor] at hfuel ⊢; omega)

/-- An operator pays for the calls down to its right operand. -/
theorem chain_halts (level : Level) (left : Expr) (hfuel : 1 + 32 * s.length ≤ fuel + 1) :
    Halts (chain level left (fuel + 1)) (chain level left (fuel' + 1)) s 0 := by
  have hcost := fuelFor_operands_le level
  rw [chain, chain]
  refine .get ?_
  cases hop : level.operator? s.kind with
  | none => exact .pure _
  | some op =>
    have hk : s.kind ≠ .eof := by
      intro heof
      rw [heof] at hop
      cases level <;> cases hop
    refine (skip_halts hk).bind fun _ t ht => ?_
    have hright := ht.le
    refine (ih.operand level t (by omega)).bind fun right u hu => ?_
    have hrest := hu.le
    exact ih.chain level _ u (by omega)

theorem unary_halts (hfuel : 3 + 32 * s.length ≤ fuel + 1) :
    Halts (unary (fuel + 1)) (unary (fuel' + 1)) s 1 := by
  rw [unary, unary]
  refine .get ?_
  split_ifs with hminus hnot
  · refine (skip_halts (by simp [Stream.atSymbol_iff.1 hminus])).bind fun _ t ht => ?_
    have hoperand := ht.le
    exact ((ih.unary t (by omega)).mono (Nat.zero_le _)).bind fun e _ _ => .pure _
  · refine (skip_halts (by simp [Stream.atWord_iff.1 hnot])).bind fun _ t ht => ?_
    have hoperand := ht.le
    exact ((ih.unary t (by omega)).mono (Nat.zero_le _)).bind fun e _ _ => .pure _
  · exact suffixed_halts ih (by omega)

theorem suffixes_halts (base : Expr) (hfuel : 1 + 32 * s.length ≤ fuel + 1) :
    Halts (suffixes base (fuel + 1)) (suffixes base (fuel' + 1)) s 0 := by
  rw [suffixes, suffixes]
  refine .get ?_
  split
  · next hk =>
    refine (skip_halts (by simp [hk])).bind fun _ t ht => ?_
    have hargs := ht.le
    refine (ih.items .rParen t (by omega)).bind fun args u hu => ?_
    refine (expect_halts .rParen).bind fun _ v hv => ?_
    have hrest := (hu.trans hv).le
    exact ih.suffixes _ v (by omega)
  · next hk =>
    refine (skip_halts (by simp [hk])).bind fun _ t ht => ?_
    refine identifier_halts.bind fun name u hu => ?_
    have hrest := (ht.trans hu).le
    exact ih.suffixes _ u (by omega)
  · next hk =>
    refine (skip_halts (by simp [hk])).bind fun _ t ht => ?_
    have hindex := ht.le
    refine (ih.expr t (by omega)).bind fun i u hu => ?_
    refine (expect_halts .rBracket).bind fun _ v hv => ?_
    have hrest := (hu.trans hv).le
    exact ih.suffixes _ v (by omega)
  · exact .pure _

theorem primary_halts (hfuel : 2 + 32 * s.length ≤ fuel + 1) :
    Halts (primary (fuel + 1)) (primary (fuel' + 1)) s 1 := by
  -- literals and names are the current token
  have hleaf (hk : s.kind ≠ .eof) (e : Expr) : Halts (do skip; return e) (do skip; return e) s 1 :=
    (skip_halts hk).bind fun _ _ _ => .pure _
  rw [primary, primary]
  refine .get ?_
  split
  · next hk => exact hleaf (by simp [hk]) _
  · next hk => exact hleaf (by simp [hk]) _
  · next hk => exact hleaf (by simp [hk]) _
  · next hk => exact hleaf (by simp [hk]) _
  · next hk => exact hleaf (by simp [hk]) _
  · next hk =>
    refine (skip_halts (by simp [hk])).bind fun _ t ht => ?_
    have hinner := ht.le
    refine ((ih.expr t (by omega)).mono (Nat.zero_le _)).bind fun e _ _ => ?_
    exact ((expect_halts .rParen).mono (Nat.zero_le _)).bind fun _ _ _ => .pure _
  · next hk =>
    refine (skip_halts (by simp [hk])).bind fun _ t ht => ?_
    have hinner := ht.le
    refine (ih.items .rBracket t (by omega)).bind fun es _ _ => ?_
    exact ((expect_halts .rBracket).mono (Nat.zero_le _)).bind fun _ _ _ => .pure _
  · next hk =>
    refine (skip_halts (by simp [hk])).bind fun _ t ht => ?_
    have hinner := ht.le
    refine (ih.fields t (by omega)).bind fun fs _ _ => ?_
    exact ((expect_halts .rBrace).mono (Nat.zero_le _)).bind fun _ _ _ => .pure _
  -- no token is passed before an operand that is a `let` or an `if`
  · next hk => exact ih.bare s (.inl hk) (by omega)
  · next hk => exact ih.bare s (.inr hk) (by omega)
  · exact .fail (by simp)

theorem items_halts (close : Symbol) (hfuel : 18 + 32 * s.length ≤ fuel + 1) :
    Halts (items close (fuel + 1)) (items close (fuel' + 1)) s 0 := by
  rw [items, items]
  refine .get ?_
  split_ifs
  · exact .pure _
  · refine (ih.expr s (by omega)).bind fun e t ht => ?_
    refine (accept_halts .comma).bind fun more u hu => ?_
    have hrest := (ht.trans hu).le
    split_ifs
    · exact (ih.items close u (by omega)).bind fun es _ _ => .pure _
    · exact .pure _

theorem fields_halts (hfuel : 1 + 32 * s.length ≤ fuel + 1) :
    Halts (fields (fuel + 1)) (fields (fuel' + 1)) s 0 := by
  rw [fields, fields]
  refine .get ?_
  split_ifs
  · exact .pure _
  · refine identifier_halts.bind fun name t ht => ?_
    refine (expect_halts .colon).bind fun _ u hu => ?_
    have hvalue := (ht.trans hu).le
    refine (ih.expr u (by omega)).bind fun value v hv => ?_
    refine (accept_halts .comma).bind fun more w hw => ?_
    have hrest := (hv.trans hw).le
    split_ifs
    · exact (ih.fields w (by omega)).bind fun fs _ _ => .pure _
    · exact .pure _

end

/-- **All parsers of expressions come to an end.** -/
theorem halting {fuel fuel' : Nat} (hle : fuel ≤ fuel') : Halting fuel fuel' := by
  induction fuel generalizing fuel' with
  | zero =>
    -- there is always a token left, and it takes fuel
    have hnone (cost : Nat) (s : Stream) : ¬ cost + 32 * s.length ≤ 0 := by
      unfold Stream.length
      omega
    constructor <;> intros <;> exact absurd ‹_› (hnone _ _)
  | succ fuel ih =>
    obtain ⟨more, rfl⟩ : ∃ more, fuel' = more + 1 := ⟨fuel' - 1, by omega⟩
    have ih : Halting fuel more := ih (by omega)
    exact
      { bare := fun _ => bare_halts ih
        expr := fun _ => expr_halts ih
        bindings := fun _ => bindings_halts ih
        ternary := fun _ => ternary_halts ih
        binary := fun level _ => binary_halts ih level
        operand := fun level _ => operand_halts ih level
        chain := fun level left _ => chain_halts ih level left
        unary := fun _ => unary_halts ih
        suffixes := fun base _ => suffixes_halts ih base
        primary := fun _ => primary_halts ih
        items := fun close _ => items_halts ih close
        fields := fun _ => fields_halts ih }

/-! ## All parsers -/

/-- **The parsers**, each with the number of tokens that it passes at least where it
succeeds. -/
inductive Consumes : {α : Type} → (Nat → Parser α) → Nat → Prop
  | expr : Consumes expr 1
  | letIn : Consumes letIn 1
  | bindings : Consumes bindings 1
  | conditional : Consumes conditional 1
  | lambda : Consumes lambda 1
  | lambdaHeader : Consumes lambdaHeader 1
  | paramList : Consumes paramList 0
  | ternary : Consumes ternary 1
  | binary (level : Level) : Consumes (binary level) 1
  | operand (level : Level) : Consumes (operand level) 1
  | chain (level : Level) (left : Expr) : Consumes (chain level left) 0
  | unary : Consumes unary 1
  | suffixed : Consumes suffixed 1
  | suffixes (base : Expr) : Consumes (suffixes base) 0
  | primary : Consumes primary 1
  | items (close : Symbol) : Consumes (items close) 0
  | record : Consumes record 1
  | fields : Consumes fields 0

/-- Whatever the parser, 32 calls for each token that is left are enough. -/
theorem Consumes.halts {p : Nat → Parser α} (hp : Consumes p n) {fuel fuel' : Nat}
    (hfuel : 32 * (s.length + 1) ≤ fuel) (hle : fuel ≤ fuel') : Halts (p fuel) (p fuel') s n := by
  have hall := halting hle
  cases hp with
  | expr => exact hall.expr s (by omega)
  | letIn => exact letIn_halts hall (by omega)
  | bindings => exact hall.bindings s (by omega)
  | conditional => exact conditional_halts hall (by omega)
  | lambda => exact lambda_halts hall (by omega)
  | lambdaHeader => exact lambdaHeader_halts (by omega) (by omega)
  | paramList => exact paramList_halts (by omega) (by omega)
  | ternary => exact hall.ternary s (by omega)
  | binary level =>
    have hcost := fuelFor_binary level
    have hbound := fuelFor_operands_le level
    exact hall.binary level s (by omega)
  | operand level =>
    have hbound := fuelFor_operands_le level
    exact hall.operand level s (by omega)
  | chain level left => exact hall.chain level left s (by omega)
  | unary => exact hall.unary s (by omega)
  | suffixed => exact suffixed_halts hall (by omega)
  | suffixes base => exact hall.suffixes base s (by omega)
  | primary => exact hall.primary s (by omega)
  | items close => exact hall.items close s (by omega)
  | record => exact record_halts hall (by omega)
  | fields => exact hall.fields s (by omega)

end Parser

/-! ## Positions in a token list -/

/-- The stream stands at a position of the token list. -/
def Stream.At (s : Stream) (tokens : List Token) (i : Nat) : Prop :=
  s.tokens = tokens.drop i

theorem Stream.At.length {s : Stream} {tokens : List Token} {i : Nat} (h : s.At tokens i) :
    s.length + i = tokens.length := by
  have hlen := congrArg List.length h
  rw [List.length_drop] at hlen
  have hs : s.tokens.length = s.length := rfl
  have hpos : 0 < s.length := Nat.succ_pos _
  omega

theorem Stream.At.suffix {s : Stream} {tokens : List Token} {i : Nat} (h : s.At tokens i) :
    s.tokens <:+ tokens :=
  h ▸ List.drop_suffix i tokens

/-- A place further on is a later position. -/
theorem Stream.At.exists_of_ahead {s t : Stream} {tokens : List Token} {i n : Nat} (h : s.At tokens i)
    (ht : s.Ahead n t) : ∃ j, i + n ≤ j ∧ j < tokens.length ∧ t.At tokens j := by
  have hsuffix : t.tokens <:+ tokens := ht.suffix.trans h.suffix
  have hlen := h.length
  have hle := ht.le
  have hpos : 0 < t.length := Nat.succ_pos _
  refine ⟨tokens.length - t.length, by omega, by omega, ?_⟩
  exact List.suffix_iff_eq_drop.1 hsuffix

theorem Stream.exists_at_zero {tokens : List Token} (h : tokens ≠ []) :
    ∃ s, Stream.ofList? tokens = some s ∧ s.At tokens 0 := by
  obtain ⟨t, ts, rfl⟩ := List.exists_cons_of_ne_nil h
  exact ⟨⟨t, ts⟩, rfl, rfl⟩

/-- Where a run ends that starts at position `i`: at a position up to the last token, which
is later by `n` at least if the run succeeds. It does not end because fuel ran out. -/
def Parser.Lands {α : Type} (tokens : List Token) (i n : Nat) : EStateM.Result Diagnostic Stream α → Prop
  | .ok _ t => ∃ j, i + n ≤ j ∧ j < tokens.length ∧ t.At tokens j
  | .error d t => d.reason ≠ .brokenOff ∧ ∃ j, i ≤ j ∧ j < tokens.length ∧ t.At tokens j

theorem Parser.Stays.lands {α : Type} {s : Stream} {tokens : List Token} {i n : Nat} (hs : s.At tokens i)
    {r : EStateM.Result Diagnostic Stream α} (h : Stays s n r) : Lands tokens i n r := by
  cases r with
  | ok a t => exact hs.exists_of_ahead h
  | error d t => exact ⟨h.1, hs.exists_of_ahead h.2⟩

/-- The parser of a whole source text does not break off. -/
theorem parseAll_halts (s : Stream) : Parser.Halts parseAll parseAll s 1 := by
  have hexpr : Parser.Halts parseExpr parseExpr s 1 :=
    .get (Parser.Consumes.expr.halts (Nat.le_refl _) (Nat.le_refl _))
  refine .bind hexpr fun e t _ => .get ?_
  split_ifs
  · exact .pure e
  · exact .fail (by simp)

/-- **The parser always comes to an end and makes progress.** Take tokens that end with the
end marker, and any parser at any of their positions. It nests at most 32 calls for each token
that is left and 32 more: with that much fuel it does what it does with more, and does not
break off. It ends at a position up to that of the end marker, and where a parser of an
expression, of a level of operators or of an operand succeeds, it has passed a token. So the
tokens have an expression or a syntax error. -/
theorem parser_progress (ts : List Token) (last : Token) (hlast : last.kind = .eof) :
    (∀ (α : Type) (p : Nat → Parser α) (n : Nat), Parser.Consumes p n →
      ∀ (i : Nat) (s : Stream), s.At (ts ++ [last]) i → ∀ fuel, 32 * (s.length + 1) ≤ fuel →
        p fuel s = p (32 * (s.length + 1)) s ∧ Parser.Lands (ts ++ [last]) i n (p fuel s)) ∧
    ((∃ e, parseTokens (ts ++ [last]) = .ok e) ∨
      ∃ d, parseTokens (ts ++ [last]) = .error (.report [d]) ∧ d.reason ≠ .brokenOff) := by
  have hend : (ts ++ [last]).getLast?.map Token.kind = some .eof := by
    rw [List.getLast?_concat, Option.map_some, hlast]
  have hclosed (i : Nat) (s : Stream) (hs : s.At (ts ++ [last]) i) : s.Closed :=
    Stream.closed_of_suffix hs.suffix hend
  constructor
  · intro α p n hp i s hs fuel hfuel
    obtain ⟨hsame, hstays⟩ := hp.halts (Nat.le_refl _) hfuel (hclosed i s hs)
    rw [hsame]
    exact ⟨rfl, hstays.lands hs⟩
  · obtain ⟨s, hs, hat⟩ := Stream.exists_at_zero (List.concat_ne_nil last ts)
    obtain ⟨-, hstays⟩ := parseAll_halts s (hclosed 0 s hat)
    unfold parseTokens parse
    rw [hs]
    cases hrun : parseAll s with
    | ok e t => exact .inl ⟨e, by simp only [hrun]⟩
    | error d t =>
      rw [hrun] at hstays
      exact .inr ⟨d, by simp only [hrun], hstays.1⟩

/-- The tokens of `-let x = (`, which end inside an operand. -/
def brokenLet : List Token :=
  [.symbol .minus, .word .kwLet, .ident "x", .symbol .assign, .symbol .lParen].map (⟨·, .start⟩)

theorem parser_progress_brokenLet :
    Kind.eof = .eof ∧
    (∃ d, parseTokens (brokenLet ++ [⟨.eof, .start⟩]) = .error (.report [d]) ∧ d.reason ≠ .brokenOff) ∧
    Parser.Lands (brokenLet ++ [⟨.eof, .start⟩]) 1 1
      (Parser.primary 224 ⟨⟨.word .kwLet, .start⟩, brokenLet.drop 2 ++ [⟨.eof, .start⟩]⟩) := by
  obtain ⟨hparts, hwhole⟩ := parser_progress brokenLet ⟨.eof, .start⟩ rfl
  refine ⟨rfl, hwhole.resolve_left ?_, ?_⟩
  · rintro ⟨e, he⟩
    cases he
  · have hat : Stream.At ⟨⟨.word .kwLet, .start⟩, brokenLet.drop 2 ++ [⟨.eof, .start⟩]⟩
        (brokenLet ++ [⟨.eof, .start⟩]) 1 := rfl
    exact (hparts Expr _ 1 .primary 1 _ hat 224 (by decide)).2

end DistanceField
