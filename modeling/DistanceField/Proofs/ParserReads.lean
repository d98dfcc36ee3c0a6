import DistanceField.Proofs.Grammar
import DistanceField.Proofs.ParserRuns

/-!
# Words that parsers read

What each parser needs in order to succeed, in terms of the parsers that it calls: the
kinds ahead, what it leaves of them, and the fuel that it takes; and what is known of its
result. All parsers get along with 32 calls for each token ahead and a few more.

* `Parser.Reads`: a parser reads on from some kinds to others.
* `Parser.chain_reads`, `Parser.suffixes_reads_call`, …: one lemma for each way to go on.
* `Parser.startsLambda_of_spells`: the lookahead for functions, on kinds.
-/

namespace DistanceField.Parser

open Grammar

-- The lemmas below all open a parser: the equations are made here, once for all of them.
attribute [local simp] expr bindings ternary binary operand chain unary suffixes primary items
  fields

/-- Wherever the kinds `ks` are ahead, the parser succeeds with a result in `Q` and leaves
`rest`, if it has fuel for `cost` calls and 32 more for each token. -/
structure Reads {α : Type} (cost : Nat) (p : Nat → Parser α) (ks rest : List Kind) (Q : α → Prop) : Prop where
  le : rest.length ≤ ks.length
  gives : ∀ s fuel, s.Spells ks → cost + 32 * ks.length ≤ fuel → Leads (p fuel) s rest Q

section

variable {α : Type} {cost : Nat} {p : Nat → Parser α} {ks rest : List Kind} {Q : α → Prop}

theorem Reads.leads (h : Reads cost p ks rest Q) :
    ∀ s fuel, s.Spells ks → cost + 32 * ks.length ≤ fuel → ∃ a t, p fuel s = .ok a t ∧ t.Spells rest := by
  intro s fuel hs hfuel
  obtain ⟨a, t, hrun, ht, -⟩ := h.gives s fuel hs hfuel
  exact ⟨a, t, hrun, ht⟩

theorem Reads.exists_result (h : Reads cost p ks rest Q) : ∃ a, Q a := by
  obtain ⟨s, hs⟩ := Stream.exists_spells ks
  obtain ⟨a, t, -, -, ha⟩ := h.gives s _ hs (Nat.le_refl _)
  exact ⟨a, ha⟩

theorem Reads.mono (h : Reads cost p ks rest Q) {more : Nat} (hle : cost ≤ more) :
    Reads more p ks rest Q :=
  ⟨h.le, fun s fuel hs hfuel => h.gives s fuel hs (by omega)⟩

/-- The calls that a parser makes have one unit of fuel less. -/
theorem Reads.intro (hle : rest.length ≤ ks.length)
    (h : ∀ s fuel, s.Spells ks → cost + 32 * ks.length ≤ fuel → Leads (p (fuel + 1)) s rest Q) :
    Reads (cost + 1) p ks rest Q := by
  refine ⟨hle, fun s fuel hs hfuel => ?_⟩
  obtain ⟨n, rfl⟩ : ∃ n, fuel = n + 1 := ⟨fuel - 1, by omega⟩
  exact h s n hs (by omega)

end

/-! ## The lookahead for functions -/

/-- Whether an arrow comes next. -/
def arrowAhead : List Kind → Bool
  | .symbol .arrow :: _ => true
  | _ => false

/-- Whether the kinds end a parameter list before an arrow. -/
def closesHeader (wantName : Bool) : List Kind → Bool
  | .ident _ :: ks => wantName && closesHeader false ks
  | .symbol .comma :: ks => !wantName && closesHeader true ks
  | .symbol .rParen :: ks => arrowAhead ks
  | _ => false

/-- Whether the kinds start a function. -/
def opensLambda : List Kind → Bool
  | .ident _ :: ks => arrowAhead ks
  | .symbol .lParen :: ks => closesHeader true ks
  | _ => false

theorem arrowAhead_append_eof (ks : List Kind) : arrowAhead (ks ++ [.eof]) = arrowAhead ks := by
  cases ks with
  | nil => rfl
  | cons k ks =>
    cases k with
    | symbol x => cases x <;> rfl
    | _ => rfl

theorem any_isSymbol_arrow (ts : List Token) :
    ts.head?.any (·.isSymbol .arrow) = arrowAhead (ts.map Token.kind) := by
  cases ts with
  | nil => rfl
  | cons t ts =>
    obtain ⟨k, pos⟩ := t
    cases k with
    | symbol x => cases x <;> rfl
    | _ => rfl

theorem endsParams_eq (wantName : Bool) (ts : List Token) :
    endsParams wantName ts = closesHeader wantName (ts.map Token.kind) := by
  induction ts generalizing wantName with
  | nil => rfl
  | cons t ts ih =>
    obtain ⟨k, pos⟩ := t
    cases k with
    | ident name =>
      cases wantName with
      | true => exact ih false
      | false => rfl
    | symbol x =>
      cases x with
      | comma =>
        cases wantName with
        | true => rfl
        | false => exact ih true
      | rParen => cases wantName <;> exact any_isSymbol_arrow ts
      | _ => rfl
    | _ => rfl

theorem startsLambda_eq (s : Stream) : s.startsLambda = opensLambda (s.kind :: s.later.map Token.kind) := by
  obtain ⟨⟨k, pos⟩, later⟩ := s
  cases k with
  | ident name => exact any_isSymbol_arrow later
  | symbol x =>
    cases x with
    | lParen => exact endsParams_eq true later
    | _ => rfl
  | _ => rfl

theorem startsLambda_of_spells {s : Stream} {ks : List Kind} (h : s.Spells ks) :
    s.startsLambda = opensLambda (ks ++ [.eof]) := by
  rw [← h]
  exact startsLambda_eq s

theorem closesHeader_of_params {w : List Kind} {ps : List Param} (h : Params w ps) (ks : List Kind) :
    closesHeader true (w ++ .symbol .rParen :: .symbol .arrow :: ks) = true := by
  induction h with
  | nil => rfl
  | last => rfl
  | cons _ ih => exact ih

theorem opensLambda_of_header {h : List Kind} {ps : List Param} (hh : Header h ps) (ks : List Kind) :
    opensLambda (h ++ .symbol .arrow :: ks) = true := by
  cases hh with
  | name => rfl
  | params hps => simpa [opensLambda] using closesHeader_of_params hps ks

/-! ## Parameters -/

theorem paramList_leads {w : List Kind} {ps : List Param} (h : Params w ps) {ks : List Kind} :
    ∀ s fuel, s.Spells (w ++ .symbol .rParen :: ks) → w.length < fuel →
      Leads (paramList fuel) s (.symbol .rParen :: ks) (·.map Param.name = ps.map Param.name) := by
  induction h with
  | nil =>
    intro s fuel hs hfuel
    obtain ⟨n, rfl⟩ : ∃ n, fuel = n + 1 := ⟨fuel - 1, by omega⟩
    rw [paramList]
    refine .get ?_
    rw [if_pos (by simp [Stream.atSymbol_iff.2 hs.kind])]
    exact .pure hs rfl
  | last =>
    intro s fuel hs hfuel
    obtain ⟨n, rfl⟩ : ∃ n, fuel = n + 1 := ⟨fuel - 1, by omega⟩
    rw [paramList]
    refine .get ?_
    rw [if_neg (by simp [Stream.atSymbol_iff, Stream.atEnd_iff, hs.kind])]
    refine .step (identifier_of_kind hs.kind) ?_
    refine .step (accept_of_ne (by rw [hs.advance.kind]; nofun)) ?_
    exact .pure hs.advance rfl
  | cons hrest ih =>
    intro s fuel hs hfuel
    obtain ⟨n, rfl⟩ : ∃ n, fuel = n + 1 := ⟨fuel - 1, by omega⟩
    rw [paramList]
    refine .get ?_
    rw [if_neg (by simp [Stream.atSymbol_iff, Stream.atEnd_iff, hs.kind])]
    refine .step (identifier_of_kind hs.kind) ?_
    refine .step (accept_of_kind hs.advance.kind) ?_
    simp only [List.length_cons] at hfuel
    refine (ih _ n hs.advance.advance (by omega)).bind fun qs t ht hqs => ?_
    exact .pure ht (by rw [List.map_cons, List.map_cons, hqs])

theorem lambdaHeader_leads {h : List Kind} {ps : List Param} (hh : Header h ps) {ks : List Kind}
    {s : Stream} (hs : s.Spells (h ++ .symbol .arrow :: ks)) :
    Leads (lambdaHeader s.length) s ks (·.map Param.name = ps.map Param.name) := by
  have hlen := hs.length
  rw [lambdaHeader]
  cases hh with
  | name =>
    refine .step (accept_of_ne (by rw [hs.kind]; nofun)) ?_
    refine .get ?_
    refine .step (identifier_of_kind hs.kind) ?_
    refine .step (expect_of_kind hs.advance.kind) ?_
    exact .pure hs.advance.advance rfl
  | params hps =>
    simp only [List.cons_append, List.append_assoc, List.nil_append] at hs
    refine .step (accept_of_kind hs.kind) ?_
    refine (paramList_leads hps _ _ hs.advance ?_).bind fun qs t ht hqs => ?_
    · simp only [List.cons_append, List.length_cons, List.length_append] at hlen
      omega
    refine .step (expect_of_kind ht.kind) ?_
    refine .step (expect_of_kind ht.advance.kind) ?_
    exact .pure ht.advance.advance hqs

/-! ## Expressions -/

/-- The fuel that the parsers of phrases take beside that for the tokens. -/
def fuelFor : Phrase → Nat
  | .primary => 2
  | .unary => 3
  | .binary .multiplicative => 5
  | .binary .additive => 7
  | .binary .comparison => 9
  | .binary .equality => 11
  | .binary .conjunction => 13
  | .binary .disjunction => 15
  | .ternary => 16
  | .expr => 17
  | .items => 18
  | _ => 1

theorem fuelFor_binary (level : Level) : fuelFor (.binary level) = fuelFor (operands level) + 2 := by
  cases level <;> rfl

variable {ks m rest : List Kind} {P Q : Expr → Prop}

theorem letIn_reads {B : List (Named Expr) → Prop} (hbs : Reads 1 bindings ks (.word .kwIn :: m) B)
    (hbody : Reads 17 expr m rest P) (hQ : ∀ bs body pos, B bs → P body → Q (.letIn bs body pos)) :
    Reads 1 expr (.word .kwLet :: ks) rest Q := by
  have hle := hbs.le
  have hle' := hbody.le
  simp only [List.length_cons] at hle
  refine .intro (by simp only [List.length_cons]; omega) fun s fuel hs hfuel => ?_
  simp only [List.length_cons] at hfuel
  rw [expr]
  refine .get ?_
  rw [if_pos (Stream.atWord_iff.2 hs.kind)]
  refine .step skip_eq ?_
  refine (hbs.gives _ fuel hs.advance (by omega)).bind fun bs t ht hb => ?_
  refine .step (expectWord_of_kind ht.kind) ?_
  refine (hbody.gives _ fuel ht.advance (by omega)).bind fun body u hu he => ?_
  exact .pure hu (hQ bs body _ hb he)

theorem conditional_reads {A B C : Expr → Prop} {a b : List Kind}
    (hc : Reads 17 expr ks (.symbol .rParen :: a) C) (ha : Reads 17 expr a (.word .kwElse :: b) A)
    (hb : Reads 17 expr b rest B)
    (hQ : ∀ condition yes no pos, C condition → A yes → B no → Q (.cond condition yes no pos)) :
    Reads 1 expr (.word .kwIf :: .symbol .lParen :: ks) rest Q := by
  have hlec := hc.le
  have hlea := ha.le
  have hleb := hb.le
  simp only [List.length_cons] at hlec hlea
  refine .intro (by simp only [List.length_cons]; omega) fun s fuel hs hfuel => ?_
  simp only [List.length_cons] at hfuel
  rw [expr]
  refine .get ?_
  rw [if_neg (by simp [Stream.atWord_iff, hs.kind]), if_pos (Stream.atWord_iff.2 hs.kind)]
  refine .step skip_eq ?_
  refine .step (expect_of_kind hs.advance.kind) ?_
  refine (hc.gives _ fuel hs.advance.advance (by omega)).bind fun condition t ht h₁ => ?_
  refine .step (expect_of_kind ht.kind) ?_
  refine (ha.gives _ fuel ht.advance (by omega)).bind fun yes u hu h₂ => ?_
  refine .step (expectWord_of_kind hu.kind) ?_
  refine (hb.gives _ fuel hu.advance (by omega)).bind fun no v hv h₃ => ?_
  exact .pure hv (hQ condition yes no _ h₁ h₂ h₃)

theorem lambda_reads {h : List Kind} {ps : List Param} (hh : Header h ps) (hbody : Reads 17 expr ks rest P)
    (hQ : ∀ params body pos, params.map Param.name = ps.map Param.name → P body →
      Q (.lambda params body pos)) :
    Reads 17 expr (h ++ .symbol .arrow :: ks) rest Q := by
  have hle := hbody.le
  have hkind : ∀ s : Stream, s.Spells (h ++ .symbol .arrow :: ks) → ∀ x, s.kind ≠ .word x := by
    intro s hs x
    cases hh with
    | name => rw [hs.kind]; nofun
    | params => rw [hs.kind]; nofun
  refine .intro (by simp only [List.length_append, List.length_cons]; omega) fun s fuel hs hfuel => ?_
  simp only [List.length_append, List.length_cons] at hfuel
  rw [expr]
  refine .get ?_
  rw [if_neg fun hat => hkind s hs _ (Stream.atWord_iff.1 hat),
    if_neg fun hat => hkind s hs _ (Stream.atWord_iff.1 hat), if_pos]
  · refine (lambdaHeader_leads hh hs).bind fun params t ht hps => ?_
    refine (hbody.gives _ fuel ht (by omega)).bind fun body u hu hb => ?_
    exact .pure hu (hQ params body _ hps hb)
  · rw [startsLambda_of_spells hs, List.append_assoc]
    exact opensLambda_of_header hh _

/-- Whether a `let` or an `if` comes next. -/
def Bare : List Kind → Prop
  | .word .kwLet :: _ => True
  | .word .kwIf :: _ => True
  | _ => False

theorem Bare.not_sign (h : Bare ks) {k : Kind} {op : UnaryOp} (hk : ks.head? = some k) : ¬ Sign k op := by
  unfold Bare at h
  split at h
  · cases hk
    nofun
  · cases hk
    nofun
  · exact h.elim

theorem expr_reads (hbare : ¬ Bare ks) (hopens : opensLambda (ks ++ [.eof]) = false)
    (h : Reads 16 ternary ks rest Q) : Reads 17 expr ks rest Q := by
  refine .intro h.le fun s fuel hs hfuel => ?_
  have hkind : ∀ x, s.kind = .word x → x ≠ .kwLet ∧ x ≠ .kwIf := by
    intro x hx
    obtain ⟨m, rfl, -⟩ := hs.of_kind hx nofun
    constructor <;> rintro rfl <;> exact hbare trivial
  rw [expr]
  refine .get ?_
  rw [if_neg fun hat => (hkind _ (Stream.atWord_iff.1 hat)).1 rfl,
    if_neg fun hat => (hkind _ (Stream.atWord_iff.1 hat)).2 rfl,
    if_neg (by rw [startsLambda_of_spells hs, hopens]; nofun)]
  exact h.gives s fuel hs (by omega)

/-- A chain of disjunctions without a choice after it. -/
theorem ternary_reads_condition (hc : Reads 15 (binary .disjunction) ks rest Q)
    (hrest : rest.head? ≠ some (.symbol .question)) : Reads 16 ternary ks rest Q := by
  refine .intro hc.le fun s fuel hs hfuel => ?_
  rw [ternary]
  refine (hc.gives _ fuel hs (by omega)).bind fun condition t ht h₁ => ?_
  refine .step (accept_of_ne fun hk => ?_) (.pure ht h₁)
  obtain ⟨ks', rfl, -⟩ := ht.of_kind hk nofun
  exact hrest rfl

theorem ternary_reads_choice {A B C : Expr → Prop} {n : List Kind}
    (hc : Reads 15 (binary .disjunction) ks (.symbol .question :: m) C)
    (ha : Reads 15 (binary .disjunction) m (.symbol .colon :: n) A) (hb : Reads 17 expr n rest B)
    (hQ : ∀ condition yes no pos, C condition → A yes → B no → Q (.cond condition yes no pos)) :
    Reads 16 ternary ks rest Q := by
  have hlec := hc.le
  have hlea := ha.le
  have hleb := hb.le
  simp only [List.length_cons] at hlec hlea
  refine .intro (by omega) fun s fuel hs hfuel => ?_
  rw [ternary]
  refine (hc.gives _ fuel hs (by omega)).bind fun condition t ht h₁ => ?_
  refine .step (accept_of_kind ht.kind) ?_
  refine (ha.gives _ fuel ht.advance (by omega)).bind fun yes u hu h₂ => ?_
  refine .step (expect_of_kind hu.kind) ?_
  refine (hb.gives _ fuel hu.advance (by omega)).bind fun no v hv h₃ => ?_
  exact .pure hv (hQ condition yes no _ h₁ h₂ h₃)

/-! ## Operators -/

theorem operand_reads {level : Level} {next : Level} (hnext : operands level = .binary next)
    (h : Reads (fuelFor (.binary next)) (binary next) ks rest Q) :
    Reads (fuelFor (operands level) + 1) (operand level) ks rest Q := by
  rw [hnext]
  refine .intro h.le fun s fuel hs hfuel => ?_
  rw [operand]
  have htighter : level.tighter? = some next := by
    cases level <;> cases hnext <;> rfl
  rw [htighter]
  exact h.gives s fuel hs hfuel

theorem operand_reads_unary (h : Reads 3 unary ks rest Q) :
    Reads 4 (operand .multiplicative) ks rest Q := by
  refine .intro h.le fun s fuel hs hfuel => ?_
  rw [operand]
  exact h.gives s fuel hs hfuel

theorem binary_reads {level : Level} (hl : Reads (fuelFor (operands level) + 1) (operand level) ks m P)
    (h : ∀ left, P left → Reads 1 (chain level left) m rest Q) :
    Reads (fuelFor (.binary level)) (binary level) ks rest Q := by
  obtain ⟨left₀, hleft₀⟩ := hl.exists_result
  have hle := hl.le
  have hle' := (h left₀ hleft₀).le
  rw [fuelFor_binary]
  refine .intro (by omega) fun s fuel hs hfuel => ?_
  rw [binary]
  refine (hl.gives _ fuel hs (by omega)).bind fun left t ht hleft => ?_
  exact (h left hleft).gives t fuel ht (by omega)

theorem chain_reads_stop {level : Level} (h : ∀ k op, ks.head? = some k → ¬ Operator level k op)
    {left : Expr} (hleft : Q left) : Reads 1 (chain level left) ks ks Q := by
  refine .intro (Nat.le_refl _) fun s fuel hs hfuel => ?_
  have hnone : level.operator? s.kind = none := by
    cases hop : level.operator? s.kind with
    | none => rfl
    | some op =>
      have hop := operator?_eq_some_iff.1 hop
      obtain ⟨m, rfl, -⟩ := hs.of_kind rfl fun heof => by rw [heof] at hop; cases hop
      exact absurd hop (h _ op rfl)
  rw [chain]
  refine .get ?_
  rw [hnone]
  exact .pure hs hleft

theorem chain_reads {level : Level} {k : Kind} {op : BinaryOp} (hop : Operator level k op)
    (hr : Reads (fuelFor (operands level) + 1) (operand level) ks m P) {left : Expr}
    (h : ∀ right pos, P right → Reads 1 (chain level (.binary op left right pos)) m rest Q) :
    Reads 1 (chain level left) (k :: ks) rest Q := by
  obtain ⟨right₀, hright₀⟩ := hr.exists_result
  have hle := hr.le
  have hle' := (h right₀ .start hright₀).le
  -- The operator pays for the calls down to its right operand.
  have hcost : fuelFor (operands level) ≤ 13 := by cases level <;> decide
  refine .intro (by simp only [List.length_cons]; omega) fun s fuel hs hfuel => ?_
  simp only [List.length_cons] at hfuel
  rw [chain]
  refine .get ?_
  rw [hs.kind, operator?_eq_some_iff.2 hop]
  refine .step skip_eq ?_
  refine (hr.gives _ fuel hs.advance (by omega)).bind fun right t ht hright => ?_
  exact (h right _ hright).gives t fuel ht (by omega)

theorem unary_reads_sign {k : Kind} {op : UnaryOp} (hop : Sign k op) (h : Reads 3 unary ks rest P)
    (hQ : ∀ e pos, P e → Q (.unary op e pos)) : Reads 3 unary (k :: ks) rest Q := by
  have hle := h.le
  refine .intro (by simp only [List.length_cons]; omega) fun s fuel hs hfuel => ?_
  simp only [List.length_cons] at hfuel
  rw [unary]
  refine .get ?_
  cases hop with
  | neg =>
    rw [if_pos (Stream.atSymbol_iff.2 hs.kind)]
    refine .step skip_eq ?_
    refine (h.gives _ fuel hs.advance (by omega)).bind fun e t ht he => ?_
    exact .pure ht (hQ e _ he)
  | not =>
    rw [if_neg (by simp [Stream.atSymbol_iff, hs.kind]), if_pos (Stream.atWord_iff.2 hs.kind)]
    refine .step skip_eq ?_
    refine (h.gives _ fuel hs.advance (by omega)).bind fun e t ht he => ?_
    exact .pure ht (hQ e _ he)

theorem unary_reads (hk : ∀ k op, ks.head? = some k → ¬ Sign k op) (hp : Reads 2 primary ks m P)
    (h : ∀ base, P base → Reads 1 (suffixes base) m rest Q) : Reads 3 unary ks rest Q := by
  obtain ⟨base₀, hbase₀⟩ := hp.exists_result
  have hle := hp.le
  have hle' := (h base₀ hbase₀).le
  refine .intro (by omega) fun s fuel hs hfuel => ?_
  have hsign : ∀ k op, s.kind = k → ¬ Sign k op := by
    intro k op hkind hop
    obtain ⟨m, rfl, -⟩ := hs.of_kind hkind (by rintro rfl; cases hop)
    exact hk k op rfl hop
  rw [unary]
  refine .get ?_
  rw [if_neg fun hat => hsign _ _ (Stream.atSymbol_iff.1 hat) .neg,
    if_neg fun hat => hsign _ _ (Stream.atWord_iff.1 hat) .not]
  refine (hp.gives _ fuel hs (by omega)).bind fun base t ht hbase => ?_
  exact (h base hbase).gives t fuel ht (by omega)

/-! ## Suffixes -/

/-- The tokens that start a suffix. -/
inductive Extends : Kind → Prop
  | call : Extends (.symbol .lParen)
  | field : Extends (.symbol .dot)
  | index : Extends (.symbol .lBracket)

theorem suffixes_reads_stop (h : ∀ k, ks.head? = some k → ¬ Extends k) {base : Expr} (hbase : Q base) :
    Reads 1 (suffixes base) ks ks Q := by
  refine .intro (Nat.le_refl _) fun s fuel hs hfuel => ?_
  have hkind : ∀ k, s.kind = k → ¬ Extends k := by
    intro k hk hext
    obtain ⟨m, rfl, -⟩ := hs.of_kind hk (by rintro rfl; cases hext)
    exact h k rfl hext
  rw [suffixes]
  refine .get ?_
  split
  · next hk => exact absurd .call (hkind _ hk)
  · next hk => exact absurd .field (hkind _ hk)
  · next hk => exact absurd .index (hkind _ hk)
  · exact .pure hs hbase

theorem suffixes_reads_call {A : List Expr → Prop}
    (has : Reads 18 (items .rParen) ks (.symbol .rParen :: m) A) {base : Expr}
    (h : ∀ args pos, A args → Reads 1 (suffixes (.call base args pos)) m rest Q) :
    Reads 1 (suffixes base) (.symbol .lParen :: ks) rest Q := by
  obtain ⟨args₀, hargs₀⟩ := has.exists_result
  have hle := has.le
  have hle' := (h args₀ .start hargs₀).le
  simp only [List.length_cons] at hle
  refine .intro (by simp only [List.length_cons]; omega) fun s fuel hs hfuel => ?_
  simp only [List.length_cons] at hfuel
  rw [suffixes]
  refine .get ?_
  rw [hs.kind]
  refine .step skip_eq ?_
  refine (has.gives _ fuel hs.advance (by omega)).bind fun args t ht hargs => ?_
  refine .step (expect_of_kind ht.kind) ?_
  exact (h args _ hargs).gives _ fuel ht.advance (by omega)

theorem suffixes_reads_field {name : String} {base : Expr}
    (h : ∀ pos, Reads 1 (suffixes (.field base name pos)) ks rest Q) :
    Reads 1 (suffixes base) (.symbol .dot :: .ident name :: ks) rest Q := by
  have hle := (h .start).le
  refine .intro (by simp only [List.length_cons]; omega) fun s fuel hs hfuel => ?_
  simp only [List.length_cons] at hfuel
  rw [suffixes]
  refine .get ?_
  rw [hs.kind]
  refine .step skip_eq ?_
  refine .step (identifier_of_kind hs.advance.kind) ?_
  exact (h _).gives _ fuel hs.advance.advance (by omega)

theorem suffixes_reads_index (hi : Reads 17 expr ks (.symbol .rBracket :: m) P) {base : Expr}
    (h : ∀ i pos, P i → Reads 1 (suffixes (.index base i pos)) m rest Q) :
    Reads 1 (suffixes base) (.symbol .lBracket :: ks) rest Q := by
  obtain ⟨i₀, hi₀⟩ := hi.exists_result
  have hle := hi.le
  have hle' := (h i₀ .start hi₀).le
  simp only [List.length_cons] at hle
  refine .intro (by simp only [List.length_cons]; omega) fun s fuel hs hfuel => ?_
  simp only [List.length_cons] at hfuel
  rw [suffixes]
  refine .get ?_
  rw [hs.kind]
  refine .step skip_eq ?_
  refine (hi.gives _ fuel hs.advance (by omega)).bind fun i t ht hi => ?_
  refine .step (expect_of_kind ht.kind) ?_
  exact (h i _ hi).gives _ fuel ht.advance (by omega)

/-! ## Primary expressions -/

theorem primary_reads_literal (value : Literal) (hQ : ∀ pos, Q (.lit value pos)) :
    Reads 2 primary (literalKind value :: ks) ks Q := by
  refine .intro (by simp) fun s fuel hs hfuel => ?_
  rw [primary]
  refine .get ?_
  rw [hs.kind]
  cases value <;> exact .step skip_eq (.pure hs.advance (hQ _))

theorem primary_reads_ident (name : String) (hQ : ∀ pos, Q (.ident name pos)) :
    Reads 2 primary (.ident name :: ks) ks Q := by
  refine .intro (by simp) fun s fuel hs hfuel => ?_
  rw [primary]
  refine .get ?_
  rw [hs.kind]
  exact .step skip_eq (.pure hs.advance (hQ _))

theorem primary_reads_paren (h : Reads 17 expr ks (.symbol .rParen :: rest) Q) :
    Reads 2 primary (.symbol .lParen :: ks) rest Q := by
  have hle := h.le
  simp only [List.length_cons] at hle
  refine .intro (by simp only [List.length_cons]; omega) fun s fuel hs hfuel => ?_
  simp only [List.length_cons] at hfuel
  rw [primary]
  refine .get ?_
  rw [hs.kind]
  refine .step skip_eq ?_
  refine (h.gives _ fuel hs.advance (by omega)).bind fun e t ht he => ?_
  exact .step (expect_of_kind ht.kind) (.pure ht.advance he)

theorem primary_reads_list {A : List Expr → Prop}
    (h : Reads 18 (items .rBracket) ks (.symbol .rBracket :: rest) A)
    (hQ : ∀ es pos, A es → Q (.list es pos)) : Reads 2 primary (.symbol .lBracket :: ks) rest Q := by
  have hle := h.le
  simp only [List.length_cons] at hle
  refine .intro (by simp only [List.length_cons]; omega) fun s fuel hs hfuel => ?_
  simp only [List.length_cons] at hfuel
  rw [primary]
  refine .get ?_
  rw [hs.kind]
  refine .step skip_eq ?_
  refine (h.gives _ fuel hs.advance (by omega)).bind fun es t ht hes => ?_
  exact .step (expect_of_kind ht.kind) (.pure ht.advance (hQ es _ hes))

theorem primary_reads_record {A : List (Named Expr) → Prop}
    (h : Reads 1 fields ks (.symbol .rBrace :: rest) A) (hQ : ∀ fs pos, A fs → Q (.record fs pos)) :
    Reads 2 primary (.symbol .lBrace :: ks) rest Q := by
  have hle := h.le
  simp only [List.length_cons] at hle
  refine .intro (by simp only [List.length_cons]; omega) fun s fuel hs hfuel => ?_
  simp only [List.length_cons] at hfuel
  rw [primary]
  refine .get ?_
  rw [hs.kind]
  refine .step skip_eq ?_
  refine (h.gives _ fuel hs.advance (by omega)).bind fun fs t ht hfs => ?_
  exact .step (expect_of_kind ht.kind) (.pure ht.advance (hQ fs _ hfs))

theorem primary_reads_bare (hbare : Bare ks) (h : Reads 1 expr ks rest Q) : Reads 2 primary ks rest Q := by
  refine .intro h.le fun s fuel hs hfuel => ?_
  rw [primary]
  refine .get ?_
  unfold Bare at hbare
  split at hbare
  · rw [hs.kind]
    exact h.gives s fuel hs hfuel
  · rw [hs.kind]
    exact h.gives s fuel hs hfuel
  · exact hbare.elim

/-! ## Lists -/

section

variable {close : Symbol} {A B : List Expr → Prop}

theorem items_reads_stop (hB : B []) :
    Reads 18 (items close) (.symbol close :: ks) (.symbol close :: ks) B := by
  refine .intro (Nat.le_refl _) fun s fuel hs hfuel => ?_
  rw [items]
  refine .get ?_
  rw [if_pos (by simp [Stream.atSymbol_iff.2 hs.kind])]
  exact .pure hs hB

/-- The last element, without a comma after it. -/
theorem items_reads_last (hk : ∀ s : Stream, s.Spells ks → s.kind ≠ .symbol close ∧ s.kind ≠ .eof)
    (hclose : close ≠ .comma) (h : Reads 17 expr ks (.symbol close :: rest) P)
    (hB : ∀ e, P e → B [e]) : Reads 18 (items close) ks (.symbol close :: rest) B := by
  refine .intro h.le fun s fuel hs hfuel => ?_
  rw [items]
  refine .get ?_
  rw [if_neg (by simp [Stream.atSymbol_iff, Stream.atEnd_iff, hk s hs])]
  refine (h.gives _ fuel hs hfuel).bind fun e t ht he => ?_
  refine .step (accept_of_ne ?_) (.pure ht (hB e he))
  rw [ht.kind]
  exact fun heq => hclose (Kind.symbol.inj heq)

theorem items_reads (hk : ∀ s : Stream, s.Spells ks → s.kind ≠ .symbol close ∧ s.kind ≠ .eof)
    (h : Reads 17 expr ks (.symbol .comma :: m) P) (hrest : Reads 18 (items close) m rest A)
    (hB : ∀ e es, P e → A es → B (e :: es)) : Reads 18 (items close) ks rest B := by
  have hle := h.le
  have hle' := hrest.le
  simp only [List.length_cons] at hle
  refine .intro (by omega) fun s fuel hs hfuel => ?_
  rw [items]
  refine .get ?_
  rw [if_neg (by simp [Stream.atSymbol_iff, Stream.atEnd_iff, hk s hs])]
  refine (h.gives _ fuel hs hfuel).bind fun e t ht he => ?_
  refine .step (accept_of_kind ht.kind) ?_
  refine (hrest.gives _ fuel ht.advance (by omega)).bind fun es u hu hes => ?_
  exact .pure hu (hB e es he hes)

end

section

variable {name : String} {A B : List (Named Expr) → Prop}

theorem fields_reads_stop (hB : B []) :
    Reads 1 fields (.symbol .rBrace :: ks) (.symbol .rBrace :: ks) B := by
  refine .intro (Nat.le_refl _) fun s fuel hs hfuel => ?_
  rw [fields]
  refine .get ?_
  rw [if_pos (by simp [Stream.atSymbol_iff.2 hs.kind])]
  exact .pure hs hB

theorem fields_reads_last (h : Reads 17 expr ks (.symbol .rBrace :: rest) P)
    (hB : ∀ value pos, P value → B [⟨name, pos, value⟩]) :
    Reads 1 fields (.ident name :: .symbol .colon :: ks) (.symbol .rBrace :: rest) B := by
  have hle := h.le
  simp only [List.length_cons] at hle
  refine .intro (by simp only [List.length_cons]; omega) fun s fuel hs hfuel => ?_
  simp only [List.length_cons] at hfuel
  rw [fields]
  refine .get ?_
  rw [if_neg (by simp [Stream.atSymbol_iff, Stream.atEnd_iff, hs.kind])]
  refine .step (identifier_of_kind hs.kind) ?_
  refine .step (expect_of_kind hs.advance.kind) ?_
  refine (h.gives _ fuel hs.advance.advance (by omega)).bind fun value t ht hv => ?_
  exact .step (accept_of_ne (by rw [ht.kind]; nofun)) (.pure ht (hB value _ hv))

theorem fields_reads (h : Reads 17 expr ks (.symbol .comma :: m) P) (hrest : Reads 1 fields m rest A)
    (hB : ∀ value pos fs, P value → A fs → B (⟨name, pos, value⟩ :: fs)) :
    Reads 1 fields (.ident name :: .symbol .colon :: ks) rest B := by
  have hle := h.le
  have hle' := hrest.le
  simp only [List.length_cons] at hle
  refine .intro (by simp only [List.length_cons]; omega) fun s fuel hs hfuel => ?_
  simp only [List.length_cons] at hfuel
  rw [fields]
  refine .get ?_
  rw [if_neg (by simp [Stream.atSymbol_iff, Stream.atEnd_iff, hs.kind])]
  refine .step (identifier_of_kind hs.kind) ?_
  refine .step (expect_of_kind hs.advance.kind) ?_
  refine (h.gives _ fuel hs.advance.advance (by omega)).bind fun value t ht hv => ?_
  refine .step (accept_of_kind ht.kind) ?_
  refine (hrest.gives _ fuel ht.advance (by omega)).bind fun fs u hu hfs => ?_
  exact .pure hu (hB value _ fs hv hfs)

theorem bindings_reads_last (h : Reads 17 expr ks (.word .kwIn :: rest) P)
    (hB : ∀ value pos, P value → B [⟨name, pos, value⟩]) :
    Reads 1 bindings (.ident name :: .symbol .assign :: ks) (.word .kwIn :: rest) B := by
  have hle := h.le
  simp only [List.length_cons] at hle
  refine .intro (by simp only [List.length_cons]; omega) fun s fuel hs hfuel => ?_
  simp only [List.length_cons] at hfuel
  rw [bindings]
  refine .get ?_
  refine .step (identifier_of_kind hs.kind) ?_
  refine .step (expect_of_kind hs.advance.kind) ?_
  refine (h.gives _ fuel hs.advance.advance (by omega)).bind fun value t ht hv => ?_
  exact .step (accept_of_ne (by rw [ht.kind]; nofun)) (.pure ht (hB value _ hv))

theorem bindings_reads_end (h : Reads 17 expr ks (.symbol .semicolon :: .word .kwIn :: rest) P)
    (hB : ∀ value pos, P value → B [⟨name, pos, value⟩]) :
    Reads 1 bindings (.ident name :: .symbol .assign :: ks) (.word .kwIn :: rest) B := by
  have hle := h.le
  simp only [List.length_cons] at hle
  refine .intro (by simp only [List.length_cons]; omega) fun s fuel hs hfuel => ?_
  simp only [List.length_cons] at hfuel
  rw [bindings]
  refine .get ?_
  refine .step (identifier_of_kind hs.kind) ?_
  refine .step (expect_of_kind hs.advance.kind) ?_
  refine (h.gives _ fuel hs.advance.advance (by omega)).bind fun value t ht hv => ?_
  refine .step (accept_of_kind ht.kind) ?_
  refine .get ?_
  rw [if_pos (Stream.atWord_iff.2 ht.advance.kind)]
  exact .pure ht.advance (hB value _ hv)

theorem bindings_reads {other : String} (h : Reads 17 expr ks (.symbol .semicolon :: .ident other :: m) P)
    (hrest : Reads 1 bindings (.ident other :: m) rest A)
    (hB : ∀ value pos bs, P value → A bs → B (⟨name, pos, value⟩ :: bs)) :
    Reads 1 bindings (.ident name :: .symbol .assign :: ks) rest B := by
  have hle := h.le
  have hle' := hrest.le
  simp only [List.length_cons] at hle hle'
  refine .intro (by simp only [List.length_cons]; omega) fun s fuel hs hfuel => ?_
  simp only [List.length_cons] at hfuel
  rw [bindings]
  refine .get ?_
  refine .step (identifier_of_kind hs.kind) ?_
  refine .step (expect_of_kind hs.advance.kind) ?_
  refine (h.gives _ fuel hs.advance.advance (by omega)).bind fun value t ht hv => ?_
  refine .step (accept_of_kind ht.kind) ?_
  refine .get ?_
  rw [if_neg (by simp [Stream.atWord_iff, ht.advance.kind])]
  refine (hrest.gives _ fuel ht.advance (by simp only [List.length_cons]; omega)).bind fun bs u hu hbs => ?_
  exact .pure hu (hB value _ bs hv hbs)

end

end DistanceField.Parser
