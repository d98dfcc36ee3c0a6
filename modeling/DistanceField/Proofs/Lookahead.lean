import DistanceField.Proofs.ParserComplete
import DistanceField.Proofs.ParserHeaders

/-!
# The lookahead for functions

The lookahead is asked only where an expression starts. In a text that the parser accepts, it
would find no function anywhere else: what it finds at all tokens are the functions of the tree.
A header that opens before a word of the grammar can close only after it, since the parentheses
of a word match, and no expression is followed by an arrow.

* `Expr.functions`: the functions of a tree, in the order of the text.
* `headers`: what the lookahead finds at all tokens.
* `Parser.Scans`, `Parser.scans`: in a word of the grammar, the lookahead finds the functions of
  its tree.
* `lambdaLookahead_exact`: the lookahead and the parser agree at each token and on each text.
-/

namespace DistanceField

/-! ## Functions in a text -/

mutual

/-- The names of the parameters of each function in the expression, in the order of the text. -/
def Expr.functions : Expr → List (List String)
  | .lit _ _ => []
  | .ident _ _ => []
  | .unary _ e _ => e.functions
  | .binary _ l r _ => l.functions ++ r.functions
  | .cond c a b _ => c.functions ++ a.functions ++ b.functions
  | .call f args _ => f.functions ++ functionsOfAll args
  | .index e i _ => e.functions ++ i.functions
  | .field e _ _ => e.functions
  | .list items _ => functionsOfAll items
  | .record fields _ => functionsOfNamed fields
  | .lambda params body _ => params.map Param.name :: body.functions
  | .letIn bindings body _ => functionsOfNamed bindings ++ body.functions

def functionsOfAll : List Expr → List (List String)
  | [] => []
  | e :: es => e.functions ++ functionsOfAll es

def functionsOfNamed : List (Named Expr) → List (List String)
  | [] => []
  | ⟨_, _, e⟩ :: bs => e.functions ++ functionsOfNamed bs

end

/-- What the lookahead finds if it is asked at every token. -/
def headers : List Token → List (List String)
  | [] => []
  | t :: ts =>
    let s : Stream := ⟨t, ts⟩
    if s.startsLambda then s.header.map Param.name :: headers ts else headers ts

namespace Parser

open Grammar

/-- The names up to the next closing parenthesis, in kinds. -/
def namesAhead : List Kind → List String
  | .ident name :: ks => name :: namesAhead ks
  | .symbol .rParen :: _ => []
  | _ :: ks => namesAhead ks
  | [] => []

/-- The names of the parameters of a function that starts here, in kinds. -/
def headerNames : List Kind → List String
  | .ident name :: _ => [name]
  | ks => namesAhead ks.tail

/-- What the lookahead finds, in kinds. -/
def openings : List Kind → List (List String)
  | [] => []
  | k :: ks => if opensLambda (k :: ks) then headerNames (k :: ks) :: openings ks else openings ks

theorem map_name_paramsAhead (ts : List Token) :
    (paramsAhead ts).map Param.name = namesAhead (ts.map Token.kind) := by
  induction ts with
  | nil => rfl
  | cons t ts ih =>
    obtain ⟨k, pos⟩ := t
    by_cases hk : k = .symbol .rParen
    · subst hk
      rw [paramsAhead_of_rParen rfl]
      rfl
    · rw [paramsAhead_of_ne hk, List.map_append, ih, List.map_cons]
      cases k with
      | symbol x =>
        cases x with
        | rParen => exact absurd rfl hk
        | _ => rfl
      | _ => rfl

theorem map_name_header (s : Stream) :
    s.header.map Param.name = headerNames (s.kind :: s.later.map Token.kind) := by
  rw [Stream.header]
  cases s.kind with
  | ident name => rfl
  | _ => exact map_name_paramsAhead s.later

theorem headers_eq (ts : List Token) : headers ts = openings (ts.map Token.kind) := by
  induction ts with
  | nil => rfl
  | cons t ts ih =>
    rw [headers, startsLambda_eq, map_name_header, ih, List.map_cons, openings, Stream.kind]

/-! ## Words -/

/-- The lookahead finds these functions in the word, whatever follows it but an arrow; and no
parenthesis in the word closes a parameter list from before it. -/
structure Scans (w : List Kind) (fs : List (List String)) : Prop where
  closes : ∀ wantName ks, closesHeader wantName (w ++ ks) = true → ∃ b, closesHeader b ks = true
  noArrow : ∀ ks, arrowAhead ks = false → arrowAhead (w ++ ks) = false
  finds : ∀ ks, arrowAhead ks = false → openings (w ++ ks) = fs ++ openings ks

/-- The tokens that neither open nor close a header. -/
def Plain : Kind → Prop
  | .symbol .lParen | .symbol .rParen | .symbol .arrow => False
  | _ => True

namespace Scans

variable {u w : List Kind} {fs gs : List (List String)} {k : Kind}

theorem nil : Scans [] [] :=
  ⟨fun wantName _ h => ⟨wantName, h⟩, fun _ h => h, fun _ _ => rfl⟩

theorem append (hu : Scans u fs) (hw : Scans w gs) : Scans (u ++ w) (fs ++ gs) where
  closes wantName ks h := by
    rw [List.append_assoc] at h
    obtain ⟨b, hb⟩ := hu.closes wantName _ h
    exact hw.closes b ks hb
  noArrow ks h := by
    rw [List.append_assoc]
    exact hu.noArrow _ (hw.noArrow ks h)
  finds ks h := by
    rw [List.append_assoc, hu.finds _ (hw.noArrow ks h), hw.finds ks h, List.append_assoc]

theorem plain (hk : Plain k) : Scans [k] [] where
  closes wantName ks h := by
    cases k with
    | ident name =>
      have hboth : (wantName && closesHeader false ks) = true := h
      exact ⟨false, (Bool.and_eq_true_iff.1 hboth).2⟩
    | symbol x =>
      cases x with
      | comma =>
        have hboth : (!wantName && closesHeader true ks) = true := h
        exact ⟨true, (Bool.and_eq_true_iff.1 hboth).2⟩
      | rParen => exact hk.elim
      | _ => cases h
    | _ => cases h
  noArrow ks _ := by
    cases k with
    | symbol x =>
      cases x with
      | arrow => exact hk.elim
      | _ => rfl
    | _ => rfl
  finds ks h := by
    cases k with
    | ident name =>
      have hopens : opensLambda (.ident name :: ks) = false := h
      change openings (.ident name :: ks) = openings ks
      rw [openings, hopens]
      rfl
    | symbol x =>
      cases x with
      | lParen => exact hk.elim
      | _ => rfl
    | _ => rfl

theorem cons (k : Kind) (hk : Plain k) (h : Scans w fs) : Scans (k :: w) fs :=
  (plain hk).append h

/-- An expression in parentheses is no header, as no arrow follows it. -/
theorem paren (h : Scans w fs) : Scans (.symbol .lParen :: w ++ [.symbol .rParen]) fs where
  closes _ _ hclose := by cases hclose
  noArrow _ _ := rfl
  finds ks harrow := by
    have hword : .symbol .lParen :: w ++ [.symbol .rParen] ++ ks =
        .symbol .lParen :: (w ++ .symbol .rParen :: ks) := by simp
    have hopens : opensLambda (.symbol .lParen :: (w ++ .symbol .rParen :: ks)) = false := by
      refine Bool.eq_false_iff.2 fun hclose => ?_
      obtain ⟨b, hb⟩ := h.closes true _ hclose
      have hahead : arrowAhead ks = true := hb
      rw [harrow] at hahead
      cases hahead
    rw [hword, openings, hopens]
    exact h.finds (.symbol .rParen :: ks) rfl

end Scans

theorem namesAhead_of_params {v : List Kind} {ps : List Param} (h : Params v ps) (ks : List Kind) :
    namesAhead (v ++ .symbol .rParen :: ks) = ps.map Param.name := by
  induction h with
  | nil => rfl
  | last => rfl
  | cons _ ih => exact congrArg _ ih

/-- No function starts inside of a parameter list. -/
theorem openings_of_params {v : List Kind} {ps : List Param} (h : Params v ps) (ks : List Kind) :
    openings (v ++ .symbol .rParen :: ks) = openings ks := by
  induction h with
  | nil => rfl
  | last => rfl
  | cons _ ih => exact ih

/-- The function is found at the first token of its header, and no other one up to the arrow. -/
theorem openings_of_header {head : List Kind} {ps : List Param} (h : Header head ps) (ks : List Kind) :
    openings (head ++ .symbol .arrow :: ks) = ps.map Param.name :: openings ks := by
  cases h with
  | name => rfl
  | @params v _ hps =>
    have hword : .symbol .lParen :: v ++ [.symbol .rParen] ++ .symbol .arrow :: ks =
        .symbol .lParen :: (v ++ .symbol .rParen :: .symbol .arrow :: ks) := by simp
    have hopens : opensLambda (.symbol .lParen :: (v ++ .symbol .rParen :: .symbol .arrow :: ks)) = true :=
      closesHeader_of_params hps ks
    have hnames : headerNames (.symbol .lParen :: (v ++ .symbol .rParen :: .symbol .arrow :: ks)) =
        ps.map Param.name := namesAhead_of_params hps _
    rw [hword, openings, if_pos hopens, hnames, openings_of_params hps]
    rfl

theorem Scans.lambda {head w : List Kind} {ps : List Param} {fs : List (List String)}
    (hhead : Header head ps) (h : Scans w fs) :
    Scans (head ++ .symbol .arrow :: w) (ps.map Param.name :: fs) where
  closes wantName ks hclose := by
    cases hhead with
    | name => cases wantName <;> cases hclose
    | params => cases hclose
  noArrow ks _ := by cases hhead <;> rfl
  finds ks harrow := by
    rw [List.append_assoc, List.cons_append, openings_of_header hhead, h.finds ks harrow]
    rfl

/-- The functions in a tree. -/
def functionsIn : Tree → List (List String)
  | .expr e => e.functions
  | .exprs es => functionsOfAll es
  | .named fs => functionsOfNamed fs

theorem plain_of_operator {level : Level} {k : Kind} {op : BinaryOp} (h : Operator level k op) :
    Plain k := by
  cases h <;> trivial

theorem plain_of_sign {k : Kind} {op : UnaryOp} (h : Sign k op) : Plain k := by
  cases h <;> trivial

/-- **In every word of the grammar, the lookahead finds the functions of the tree.** -/
theorem scans {phrase : Phrase} {w : List Kind} {t : Tree} (h : Derives phrase w t) :
    Scans w (functionsIn t) := by
  induction h with
  | exprLet _ ih | exprIf _ ih | exprLambda _ ih | exprTernary _ ih | ternaryOr _ ih | operand _ ih
  | unsigned _ ih | bare _ ih | primaryLet _ ih | primaryIf _ ih => exact ih
  | letIn _ _ ihbs ihbody =>
    have hword := (ihbs.append (ihbody.cons (.word .kwIn) trivial)).cons (.word .kwLet) trivial
    simpa [functionsIn, Expr.functions] using hword
  | @bindingsLast name _ _ _ _ ih =>
    have hword := (ih.cons (.symbol .assign) trivial).cons (.ident name) trivial
    simpa [functionsIn, functionsOfNamed] using hword
  | @bindingsEnd name _ _ _ _ ih =>
    have hend := ih.append (.plain (k := .symbol .semicolon) trivial)
    have hword := (hend.cons (.symbol .assign) trivial).cons (.ident name) trivial
    simpa [functionsIn, functionsOfNamed] using hword
  | @bindingsCons name _ _ _ _ _ _ _ ih ihrest =>
    have hrest := ih.append (ihrest.cons (.symbol .semicolon) trivial)
    have hword := (hrest.cons (.symbol .assign) trivial).cons (.ident name) trivial
    simpa [functionsIn, functionsOfNamed] using hword
  | conditional _ _ _ ihc iha ihb =>
    have hbranches := iha.append (ihb.cons (.word .kwElse) trivial)
    have hword := (ihc.paren.append hbranches).cons (.word .kwIf) trivial
    simpa [functionsIn, Expr.functions] using hword
  | lambda hhead _ ih => simpa [functionsIn, Expr.functions] using Scans.lambda hhead ih
  | ternaryChoice _ _ _ ihc iha ihb =>
    have hbranches := iha.append (ihb.cons (.symbol .colon) trivial)
    have hword := ihc.append (hbranches.cons (.symbol .question) trivial)
    simpa [functionsIn, Expr.functions] using hword
  | binary _ hop _ ihl ihr =>
    have hword := ihl.append (ihr.cons _ (plain_of_operator hop))
    simpa [functionsIn, Expr.functions] using hword
  | sign hop _ ih =>
    have hword := ih.cons _ (plain_of_sign hop)
    simpa [functionsIn, Expr.functions] using hword
  | call _ _ ih ihas =>
    have hword := ih.append ihas.paren
    simpa [functionsIn, Expr.functions] using hword
  | @field _ _ name _ _ ih =>
    have hsuffix := (Scans.plain (k := .ident name) trivial).cons (.symbol .dot) trivial
    have hword := ih.append hsuffix
    simpa [functionsIn, Expr.functions] using hword
  | index _ _ ih ihi =>
    have hend := ihi.append (.plain (k := .symbol .rBracket) trivial)
    have hword := ih.append (hend.cons (.symbol .lBracket) trivial)
    simpa [functionsIn, Expr.functions] using hword
  | @literal value _ => cases value <;> exact .plain trivial
  | ident => exact .plain trivial
  | paren _ ih => exact ih.paren
  | list _ ih =>
    have hend := ih.append (.plain (k := .symbol .rBracket) trivial)
    have hword := hend.cons (.symbol .lBracket) trivial
    simpa [functionsIn, Expr.functions] using hword
  | record _ ih =>
    have hend := ih.append (.plain (k := .symbol .rBrace) trivial)
    have hword := hend.cons (.symbol .lBrace) trivial
    simpa [functionsIn, Expr.functions] using hword
  | itemsNil => exact .nil
  | itemsLast _ ih => simpa [functionsIn, functionsOfAll] using ih
  | itemsCons _ _ ih ihrest =>
    have hword := ih.append (ihrest.cons (.symbol .comma) trivial)
    simpa [functionsIn, functionsOfAll] using hword
  | fieldsNil => exact .nil
  | @fieldsLast name _ _ _ _ ih =>
    have hword := (ih.cons (.symbol .colon) trivial).cons (.ident name) trivial
    simpa [functionsIn, functionsOfNamed] using hword
  | @fieldsCons name _ _ _ _ _ _ _ ih ihrest =>
    have hrest := ih.append (ihrest.cons (.symbol .comma) trivial)
    have hword := (hrest.cons (.symbol .colon) trivial).cons (.ident name) trivial
    simpa [functionsIn, functionsOfNamed] using hword

end Parser

/-- The functions of a parsed text are those that the lookahead finds at all of its tokens. -/
theorem functions_eq_headers {ts : List Token} {last : Token} {e : Expr} (hlast : last.kind = .eof)
    (hts : ∀ t ∈ ts, t.kind ≠ .eof) (h : parseTokens (ts ++ [last]) = .ok e) :
    e.functions = headers (ts ++ [last]) := by
  obtain ⟨s, hs, hspells⟩ := Stream.exists_ofList? ts hlast
  obtain ⟨t, hrun, hend⟩ := (parseTokens_eq_ok hs).1 h
  obtain ⟨w, rest, hks, hrest, hw⟩ := (Parser.sound _).expr s e t _ hrun hspells
  -- The parser stopped at the end marker, so the word is the whole text.
  have hwhole : rest = [] := by
    by_contra hne
    obtain ⟨k, rest, rfl⟩ := List.exists_cons_of_ne_nil hne
    obtain ⟨x, hx, hk⟩ := List.mem_map.1 (hks ▸ by simp : k ∈ ts.map Token.kind)
    exact hts x hx (hk.trans (hrest.kind.symm.trans hend))
  rw [hwhole, List.append_nil] at hks
  have hfinds := (Parser.scans hw).finds [.eof] rfl
  rw [Parser.headers_eq, List.map_append, hks, List.map_singleton, hlast, hfinds]
  exact (List.append_nil _).symm

/-- **The lookahead for functions is exact.** It says that a function starts exactly where the
parser of the header succeeds, which then yields the parameters that stand there: at a
parenthesis, the names up to the next closing one. The tokens may break off anywhere. So the
parser of expressions does what it would do by trying: once it reads a function, it does not
fail before the body, and it reads an expression in parentheses only where no header stands. In
a text that is accepted, the headers that stand anywhere are those of the functions of the tree,
one by one. -/
theorem lambdaLookahead_exact :
    (∀ (s : Stream) (fuel : Nat), s.length ≤ fuel →
      (s.startsLambda = true ↔ ∃ ps t, Parser.lambdaHeader fuel s = .ok ps t) ∧
        ∀ ps t, Parser.lambdaHeader fuel s = .ok ps t → ps = s.header) ∧
    (∀ (s : Stream) (fuel : Nat), s.kind ≠ .word .kwLet → s.kind ≠ .word .kwIf →
      Parser.expr (fuel + 1) s =
        Parser.attempt (Parser.lambdaHeader s.length)
          (fun ps => do return .lambda ps (← Parser.expr fuel) s.pos) (Parser.ternary fuel) s) ∧
    ∀ (ts : List Token) (last : Token) (e : Expr), last.kind = .eof → (∀ t ∈ ts, t.kind ≠ .eof) →
      parseTokens (ts ++ [last]) = .ok e → e.functions = headers (ts ++ [last]) := by
  refine ⟨?_, ?_, ?_⟩
  · intro s fuel hfuel
    exact ⟨Parser.startsLambda_iff_header hfuel, fun ps t => Parser.lambdaHeader_eq_header hfuel⟩
  · intro s fuel hlet hif
    exact Parser.expr_eq_attempt hlet hif
  · intro ts last e hlast hts h
    exact functions_eq_headers hlast hts h

/-- The tokens of `(a, b,) -> a`. -/
def trailingComma : List Token :=
  [.symbol .lParen, .ident "a", .symbol .comma, .ident "b", .symbol .comma, .symbol .rParen,
    .symbol .arrow, .ident "a"].map (⟨·, .start⟩)

/-- A comma at the end of the parameters is allowed; a list that breaks off after a comma is no
header, although the parser stays on the comma. -/
theorem lambdaLookahead_exact_trailingComma :
    (∃ ps t, Parser.lambdaHeader 8 ⟨⟨.symbol .lParen, .start⟩, trailingComma.tail⟩ = .ok ps t ∧
      ps.map Param.name = ["a", "b"]) ∧
    (¬ ∃ ps t, Parser.lambdaHeader 3 ⟨⟨.symbol .lParen, .start⟩, (trailingComma.take 3).tail⟩ = .ok ps t) ∧
    ∃ e, parseTokens (trailingComma ++ [⟨.eof, .start⟩]) = .ok e ∧ e.functions = [["a", "b"]] := by
  obtain ⟨hheader, -, htext⟩ := lambdaLookahead_exact
  refine ⟨?_, ?_, ?_⟩
  · obtain ⟨hiff, hparams⟩ :=
      hheader ⟨⟨.symbol .lParen, .start⟩, trailingComma.tail⟩ 8 (by decide)
    obtain ⟨ps, t, hrun⟩ := hiff.1 (by decide)
    refine ⟨ps, t, hrun, ?_⟩
    rw [hparams ps t hrun]
    decide
  · have hiff :=
      (hheader ⟨⟨.symbol .lParen, .start⟩, (trailingComma.take 3).tail⟩ 3 (by decide)).1
    rw [← hiff]
    decide
  · have hok : ∃ e, parseTokens (trailingComma ++ [⟨.eof, .start⟩]) = .ok e := ⟨_, rfl⟩
    obtain ⟨e, he⟩ := hok
    refine ⟨e, he, ?_⟩
    rw [htext trailingComma ⟨.eof, .start⟩ e rfl (by simp [trailingComma]) he]
    decide

end DistanceField
