import DistanceField.Proofs.Grammar
import DistanceField.Proofs.ParserRuns

/-!
# The parser follows the grammar

Where a parser succeeds, its result is the tree of a phrase over the word that it took.

* `Parser.lambdaHeader_yields`: what stands before the body of a function.
* `Parser.Sound`: all parsers of expressions, at one amount of fuel.
* `Parser.sound`: they are sound at every amount.
-/

namespace DistanceField.Parser

open Grammar

variable {s : Stream}

/-! ## Parameters -/

theorem paramList_yields (fuel : Nat) (s : Stream) : Yields (paramList fuel) s Params := by
  induction fuel generalizing s with
  | zero => exact .get .fail
  | succ fuel ih =>
    rw [paramList]
    refine .get ?_
    split_ifs
    · exact .pure .nil
    · refine identifier_yields.bind ?_
      rintro name t _ rfl
      refine (accept_yields .comma).bind ?_
      rintro b u _ rfl
      cases b with
      | true =>
        refine (ih u).bind fun ps v w hps => ?_
        refine .pure ?_
        simpa using Params.cons hps
      | false => exact .pure .last

theorem lambdaHeader_yields (fuel : Nat) (s : Stream) :
    Yields (lambdaHeader fuel) s fun w ps => ∃ h, Header h ps ∧ w = h ++ [.symbol .arrow] := by
  rw [lambdaHeader]
  refine (accept_yields .lParen).bind ?_
  rintro b t _ rfl
  cases b with
  | true =>
    refine (paramList_yields fuel t).bind fun ps u w hps => ?_
    refine (expect_yields .rParen).bind ?_
    rintro _ v _ rfl
    refine (expect_yields .arrow).bind ?_
    rintro _ v' _ rfl
    refine .pure ⟨_, .params hps, ?_⟩
    simp
  | false =>
    refine .get ?_
    refine identifier_yields.bind ?_
    rintro name u _ rfl
    refine (expect_yields .arrow).bind ?_
    rintro _ v _ rfl
    exact .pure ⟨_, .name, rfl⟩

/-! ## Expressions -/

/-- The parsers of expressions yield phrases of the grammar. Those that extend a phrase
yield a longer one. -/
structure Sound (fuel : Nat) : Prop where
  letIn : ∀ s, s.kind = .word .kwLet → Yields (expr fuel) s fun w e => Derives .letIn w (.expr e)
  conditional : ∀ s, s.kind = .word .kwIf →
    Yields (expr fuel) s fun w e => Derives .conditional w (.expr e)
  expr : ∀ s, Yields (expr fuel) s fun w e => Derives .expr w (.expr e)
  bindings : ∀ s, Yields (bindings fuel) s fun w bs => Derives .bindings w (.named bs)
  ternary : ∀ s, Yields (ternary fuel) s fun w e => Derives .ternary w (.expr e)
  binary : ∀ level s, Yields (binary level fuel) s fun w e => Derives (.binary level) w (.expr e)
  operand : ∀ level s, Yields (operand level fuel) s fun w e => Derives (operands level) w (.expr e)
  chain : ∀ level left l s, Derives (.binary level) l (.expr left) →
    Yields (chain level left fuel) s fun w e => Derives (.binary level) (l ++ w) (.expr e)
  unary : ∀ s, Yields (unary fuel) s fun w e => Derives .unary w (.expr e)
  suffixes : ∀ base b s, Derives .suffixed b (.expr base) →
    Yields (suffixes base fuel) s fun w e => Derives .suffixed (b ++ w) (.expr e)
  primary : ∀ s, Yields (primary fuel) s fun w e => Derives .primary w (.expr e)
  items : ∀ close s, Yields (items close fuel) s fun w es => Derives .items w (.exprs es)
  fields : ∀ s, Yields (fields fuel) s fun w fs => Derives .fields w (.named fs)

section

variable {fuel : Nat} (ih : Sound fuel)

include ih

theorem letIn_yields (hs : s.kind = .word .kwLet) :
    Yields (expr (fuel + 1)) s fun w e => Derives .letIn w (.expr e) := by
  rw [expr]
  refine .get ?_
  rw [if_pos (Stream.atWord_iff.2 hs)]
  refine (skip_yields hs (by simp)).bind ?_
  rintro _ t _ rfl
  refine (ih.bindings t).bind fun bs u b hbs => ?_
  refine (expectWord_yields .kwIn).bind ?_
  rintro _ v _ rfl
  refine (ih.expr v).bind fun body v' w hbody => ?_
  refine .pure ?_
  simpa using Derives.letIn hbs hbody

theorem conditional_yields (hs : s.kind = .word .kwIf) :
    Yields (expr (fuel + 1)) s fun w e => Derives .conditional w (.expr e) := by
  have hlet : ¬ s.atWord .kwLet = true := by simp [Stream.atWord_iff, hs]
  rw [expr]
  refine .get ?_
  rw [if_neg hlet, if_pos (Stream.atWord_iff.2 hs)]
  refine (skip_yields hs (by simp)).bind ?_
  rintro _ t _ rfl
  refine (expect_yields .lParen).bind ?_
  rintro _ u _ rfl
  refine (ih.expr u).bind fun condition v c hc => ?_
  refine (expect_yields .rParen).bind ?_
  rintro _ v' _ rfl
  refine (ih.expr v').bind fun yes x a ha => ?_
  refine (expectWord_yields .kwElse).bind ?_
  rintro _ x' _ rfl
  refine (ih.expr x').bind fun no y b hb => ?_
  refine .pure ?_
  simpa using Derives.conditional hc ha hb

theorem expr_yields (s : Stream) : Yields (expr (fuel + 1)) s fun w e => Derives .expr w (.expr e) := by
  by_cases hlet : s.kind = .word .kwLet
  · exact (letIn_yields ih hlet).mono fun _ _ h => .exprLet h
  by_cases hif : s.kind = .word .kwIf
  · exact (conditional_yields ih hif).mono fun _ _ h => .exprIf h
  rw [expr]
  refine .get ?_
  rw [if_neg fun h => hlet (Stream.atWord_iff.1 h), if_neg fun h => hif (Stream.atWord_iff.1 h)]
  split_ifs
  · refine (lambdaHeader_yields _ s).bind ?_
    rintro params t _ ⟨h, hhead, rfl⟩
    refine (ih.expr t).bind fun body u w hbody => ?_
    refine .pure (.exprLambda ?_)
    simpa using Derives.lambda hhead hbody
  · exact (ih.ternary s).mono fun _ _ h => .exprTernary h

theorem bindings_yields (s : Stream) :
    Yields (bindings (fuel + 1)) s fun w bs => Derives .bindings w (.named bs) := by
  rw [bindings]
  refine .get ?_
  refine identifier_yields.bind ?_
  rintro name t _ rfl
  refine (expect_yields .assign).bind ?_
  rintro _ u _ rfl
  refine (ih.expr u).bind fun value v w hvalue => ?_
  refine (accept_yields .semicolon).bind ?_
  rintro b x _ rfl
  cases b with
  | true =>
    refine .get ?_
    by_cases hin : x.atWord .kwIn = true
    · rw [if_pos hin]
      refine .pure ?_
      simpa using Derives.bindingsEnd hvalue
    · rw [if_neg hin]
      refine (ih.bindings x).bind fun bs y ws hbs => ?_
      refine .pure ?_
      simpa using Derives.bindingsCons hvalue hbs
  | false =>
    refine .pure ?_
    simpa using Derives.bindingsLast hvalue

theorem ternary_yields (s : Stream) :
    Yields (ternary (fuel + 1)) s fun w e => Derives .ternary w (.expr e) := by
  rw [ternary]
  refine (ih.binary .disjunction s).bind fun condition t c hc => ?_
  refine (accept_yields .question).bind ?_
  rintro b u _ rfl
  cases b with
  | true =>
    refine (ih.binary .disjunction u).bind fun yes v a ha => ?_
    refine (expect_yields .colon).bind ?_
    rintro _ v' _ rfl
    refine (ih.expr v').bind fun no x b hb => ?_
    refine .pure ?_
    simpa using Derives.ternaryChoice hc ha hb
  | false =>
    refine .pure ?_
    simpa using Derives.ternaryOr hc

theorem binary_yields (level : Level) (s : Stream) :
    Yields (binary level (fuel + 1)) s fun w e => Derives (.binary level) w (.expr e) := by
  rw [binary]
  refine (ih.operand level s).bind fun left t l hl => ?_
  exact ih.chain level left l t (.operand hl)

theorem operand_yields (level : Level) (s : Stream) :
    Yields (operand level (fuel + 1)) s fun w e => Derives (operands level) w (.expr e) := by
  rw [operand]
  cases level with
  | multiplicative => exact ih.unary s
  | _ => exact ih.binary _ s

theorem chain_yields (level : Level) (left : Expr) (l : List Kind) (s : Stream)
    (hl : Derives (.binary level) l (.expr left)) :
    Yields (chain level left (fuel + 1)) s fun w e => Derives (.binary level) (l ++ w) (.expr e) := by
  rw [chain]
  refine .get ?_
  split
  · next op hop =>
    have hop := operator?_eq_some_iff.1 hop
    have hne : s.kind ≠ .eof := by
      intro heof
      rw [heof] at hop
      cases hop
    refine (skip_yields rfl hne).bind ?_
    rintro _ t _ rfl
    refine (ih.operand level t).bind fun right u r hr => ?_
    refine (ih.chain level _ _ u (.binary hl hop hr)).mono fun w e he => ?_
    simpa using he
  · refine .pure ?_
    simpa using hl

theorem unary_yields (s : Stream) :
    Yields (unary (fuel + 1)) s fun w e => Derives .unary w (.expr e) := by
  rw [unary]
  refine .get ?_
  split_ifs with hminus hnot
  · refine (skip_yields (Stream.atSymbol_iff.1 hminus) (by simp)).bind ?_
    rintro _ t _ rfl
    refine (ih.unary t).bind fun e u w he => ?_
    refine .pure ?_
    simpa using Derives.sign .neg he
  · refine (skip_yields (Stream.atWord_iff.1 hnot) (by simp)).bind ?_
    rintro _ t _ rfl
    refine (ih.unary t).bind fun e u w he => ?_
    refine .pure ?_
    simpa using Derives.sign .not he
  · refine (ih.primary s).bind fun base t b hb => ?_
    exact (ih.suffixes base b t (.bare hb)).mono fun _ _ h => .unsigned h

theorem suffixes_yields (base : Expr) (b : List Kind) (s : Stream)
    (hb : Derives .suffixed b (.expr base)) :
    Yields (suffixes base (fuel + 1)) s fun w e => Derives .suffixed (b ++ w) (.expr e) := by
  rw [suffixes]
  refine .get ?_
  split
  · next hk =>
    refine (skip_yields hk (by simp)).bind ?_
    rintro _ t _ rfl
    refine (ih.items .rParen t).bind fun args u as has => ?_
    refine (expect_yields .rParen).bind ?_
    rintro _ v _ rfl
    refine (ih.suffixes _ _ v (.call hb has)).mono fun w e he => ?_
    simpa using he
  · next hk =>
    refine (skip_yields hk (by simp)).bind ?_
    rintro _ t _ rfl
    refine identifier_yields.bind ?_
    rintro name u _ rfl
    refine (ih.suffixes _ _ u (.field hb)).mono fun w e he => ?_
    simpa using he
  · next hk =>
    refine (skip_yields hk (by simp)).bind ?_
    rintro _ t _ rfl
    refine (ih.expr t).bind fun i u v hi => ?_
    refine (expect_yields .rBracket).bind ?_
    rintro _ v' _ rfl
    refine (ih.suffixes _ _ v' (.index hb hi)).mono fun w e he => ?_
    simpa using he
  · refine .pure ?_
    simpa using hb

omit ih in
theorem literal_yields {k : Kind} (hk : s.kind = k) {value : Literal} (hvalue : literalKind value = k)
    (pos : Pos) :
    Yields (do skip; return .lit value pos) s fun w e => Derives .primary w (.expr e) := by
  have hne : k ≠ .eof := by
    rintro rfl
    cases value <;> cases hvalue
  refine (skip_yields hk hne).bind ?_
  rintro _ t _ rfl
  refine .pure ?_
  rw [← hvalue]
  exact .literal

theorem primary_yields (s : Stream) :
    Yields (primary (fuel + 1)) s fun w e => Derives .primary w (.expr e) := by
  rw [primary]
  refine .get ?_
  split
  · next x hk => exact literal_yields hk rfl _
  · next b hk => exact literal_yields hk rfl _
  · next hk => exact literal_yields hk rfl _
  · next text hk => exact literal_yields hk rfl _
  · next name hk =>
    refine (skip_yields hk (by simp)).bind ?_
    rintro _ t _ rfl
    exact .pure .ident
  · next hk =>
    refine (skip_yields hk (by simp)).bind ?_
    rintro _ t _ rfl
    refine (ih.expr t).bind fun e u w he => ?_
    refine (expect_yields .rParen).bind ?_
    rintro _ v _ rfl
    refine .pure ?_
    simpa using Derives.paren he
  · next hk =>
    refine (skip_yields hk (by simp)).bind ?_
    rintro _ t _ rfl
    refine (ih.items .rBracket t).bind fun es u w hes => ?_
    refine (expect_yields .rBracket).bind ?_
    rintro _ v _ rfl
    refine .pure ?_
    simpa using Derives.list hes
  · next hk =>
    refine (skip_yields hk (by simp)).bind ?_
    rintro _ t _ rfl
    refine (ih.fields t).bind fun fs u w hfs => ?_
    refine (expect_yields .rBrace).bind ?_
    rintro _ v _ rfl
    refine .pure ?_
    simpa using Derives.record hfs
  · next hk => exact (ih.letIn s hk).mono fun _ _ h => .primaryLet h
  · next hk => exact (ih.conditional s hk).mono fun _ _ h => .primaryIf h
  · exact .fail

theorem items_yields (close : Symbol) (s : Stream) :
    Yields (items close (fuel + 1)) s fun w es => Derives .items w (.exprs es) := by
  rw [items]
  refine .get ?_
  split_ifs
  · exact .pure .itemsNil
  · refine (ih.expr s).bind fun e t w he => ?_
    refine (accept_yields .comma).bind ?_
    rintro b u _ rfl
    cases b with
    | true =>
      refine (ih.items close u).bind fun es v ws hes => ?_
      refine .pure ?_
      simpa using Derives.itemsCons he hes
    | false =>
      refine .pure ?_
      simpa using Derives.itemsLast he

theorem fields_yields (s : Stream) :
    Yields (fields (fuel + 1)) s fun w fs => Derives .fields w (.named fs) := by
  rw [fields]
  refine .get ?_
  split_ifs
  · exact .pure .fieldsNil
  · refine identifier_yields.bind ?_
    rintro name t _ rfl
    refine (expect_yields .colon).bind ?_
    rintro _ u _ rfl
    refine (ih.expr u).bind fun value v w hvalue => ?_
    refine (accept_yields .comma).bind ?_
    rintro b x _ rfl
    cases b with
    | true =>
      refine (ih.fields x).bind fun fs y ws hfs => ?_
      refine .pure ?_
      simpa using Derives.fieldsCons hvalue hfs
    | false =>
      refine .pure ?_
      simpa using Derives.fieldsLast hvalue

end

/-- **The parsers of expressions follow the grammar.** -/
theorem sound (fuel : Nat) : Sound fuel := by
  induction fuel with
  | zero =>
    constructor <;> intros <;> exact .get .fail
  | succ fuel ih =>
    exact
      { letIn := fun _ => letIn_yields ih
        conditional := fun _ => conditional_yields ih
        expr := expr_yields ih
        bindings := bindings_yields ih
        ternary := ternary_yields ih
        binary := binary_yields ih
        operand := operand_yields ih
        chain := chain_yields ih
        unary := unary_yields ih
        suffixes := suffixes_yields ih
        primary := primary_yields ih
        items := items_yields ih
        fields := fields_yields ih }

end DistanceField.Parser
