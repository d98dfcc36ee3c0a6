import DistanceField.Expr.Parser

/-!
# The grammar of expressions

The language of token lists that spell an expression, with the trees of their
derivations. `let` and `if` may stand as operands without parentheses, so the grammar is
ambiguous: `1 + let x = 2 in x * 3` has two trees.

* `Grammar.Operator`, `Grammar.operands`: the binary operators, level by level.
* `Grammar.Header`: what stands before the arrow of a function.
* `Grammar.Derives`: the phrases of the grammar and their trees.
-/

namespace DistanceField.Grammar

/-- The tokens of binary operators, level by level. -/
inductive Operator : Level → Kind → BinaryOp → Prop
  | or : Operator .disjunction (.word .kwOr) .or
  | and : Operator .conjunction (.word .kwAnd) .and
  | eq : Operator .equality (.symbol .eqEq) .eq
  | ne : Operator .equality (.symbol .bangEq) .ne
  | lt : Operator .comparison (.symbol .lt) .lt
  | le : Operator .comparison (.symbol .ltEq) .le
  | gt : Operator .comparison (.symbol .gt) .gt
  | ge : Operator .comparison (.symbol .gtEq) .ge
  | add : Operator .additive (.symbol .plus) .add
  | sub : Operator .additive (.symbol .minus) .sub
  | mul : Operator .multiplicative (.symbol .star) .mul
  | div : Operator .multiplicative (.symbol .slash) .div
  | mod : Operator .multiplicative (.symbol .percent) .mod

/-- The tokens of unary operators. -/
inductive Sign : Kind → UnaryOp → Prop
  | neg : Sign (.symbol .minus) .neg
  | not : Sign (.word .kwNot) .not

/-- The token of a literal. -/
def literalKind : Literal → Kind
  | .null => .word .kwNull
  | .bool b => .bool b
  | .num x => .num x
  | .str s => .str s

/-- The names of a parameter list, separated by commas. A comma may stand at the end. -/
inductive Params : List Kind → List Param → Prop
  | nil : Params [] []
  | last {name : String} {pos : Pos} : Params [.ident name] [⟨name, pos⟩]
  | cons {name : String} {pos : Pos} {w : List Kind} {ps : List Param} (hrest : Params w ps) :
      Params (.ident name :: .symbol .comma :: w) (⟨name, pos⟩ :: ps)

/-- What stands before the arrow of a function: a name, or a parameter list. -/
inductive Header : List Kind → List Param → Prop
  | name {name : String} {pos : Pos} : Header [.ident name] [⟨name, pos⟩]
  | params {w : List Kind} {ps : List Param} (h : Params w ps) :
      Header (.symbol .lParen :: w ++ [.symbol .rParen]) ps

/-- The kinds of phrases. The last three are lists: of expressions, of the fields of a
record, and of the bindings of a `let`. -/
inductive Phrase where
  | expr | letIn | conditional | lambda | ternary
  | binary (level : Level)
  | unary | suffixed | primary
  | items | fields | bindings
deriving DecidableEq

/-- What the operators of a level stand between: phrases of the next level. -/
def operands : Level → Phrase
  | .disjunction => .binary .conjunction
  | .conjunction => .binary .equality
  | .equality => .binary .comparison
  | .comparison => .binary .additive
  | .additive => .binary .multiplicative
  | .multiplicative => .unary

/-- The trees of phrases. -/
inductive Tree where
  | expr (e : Expr)
  | exprs (es : List Expr)
  | named (fs : List (Named Expr))

/-- **The phrases of the grammar, with their trees.** The positions in a tree are free. -/
inductive Derives : Phrase → List Kind → Tree → Prop
  -- expr = let | if | lambda | ternary
  | exprLet {w t} (h : Derives .letIn w t) : Derives .expr w t
  | exprIf {w t} (h : Derives .conditional w t) : Derives .expr w t
  | exprLambda {w t} (h : Derives .lambda w t) : Derives .expr w t
  | exprTernary {w t} (h : Derives .ternary w t) : Derives .expr w t
  -- let = 'let' bindings 'in' expr
  | letIn {bs w bindings body pos} (hbs : Derives .bindings bs (.named bindings))
      (hbody : Derives .expr w (.expr body)) :
      Derives .letIn (.word .kwLet :: bs ++ .word .kwIn :: w) (.expr (.letIn bindings body pos))
  -- bindings = ident '=' expr (';' ident '=' expr)* [';']
  | bindingsLast {name pos w value} (h : Derives .expr w (.expr value)) :
      Derives .bindings (.ident name :: .symbol .assign :: w) (.named [⟨name, pos, value⟩])
  | bindingsEnd {name pos w value} (h : Derives .expr w (.expr value)) :
      Derives .bindings (.ident name :: .symbol .assign :: w ++ [.symbol .semicolon])
        (.named [⟨name, pos, value⟩])
  | bindingsCons {name pos w value bs bindings} (h : Derives .expr w (.expr value))
      (hrest : Derives .bindings bs (.named bindings)) :
      Derives .bindings (.ident name :: .symbol .assign :: w ++ .symbol .semicolon :: bs)
        (.named (⟨name, pos, value⟩ :: bindings))
  -- if = 'if' '(' expr ')' expr 'else' expr
  | conditional {c a b condition yes no pos} (hc : Derives .expr c (.expr condition))
      (ha : Derives .expr a (.expr yes)) (hb : Derives .expr b (.expr no)) :
      Derives .conditional
        (.word .kwIf :: .symbol .lParen :: c ++ .symbol .rParen :: a ++ .word .kwElse :: b)
        (.expr (.cond condition yes no pos))
  -- lambda = header '->' expr
  | lambda {h w params body pos} (hhead : Header h params) (hbody : Derives .expr w (.expr body)) :
      Derives .lambda (h ++ .symbol .arrow :: w) (.expr (.lambda params body pos))
  -- ternary = or ['?' or ':' expr]
  | ternaryOr {w t} (h : Derives (.binary .disjunction) w t) : Derives .ternary w t
  | ternaryChoice {c a b condition yes no pos}
      (hc : Derives (.binary .disjunction) c (.expr condition))
      (ha : Derives (.binary .disjunction) a (.expr yes)) (hb : Derives .expr b (.expr no)) :
      Derives .ternary (c ++ .symbol .question :: a ++ .symbol .colon :: b)
        (.expr (.cond condition yes no pos))
  -- left-associative chains over the next level
  | operand {level w t} (h : Derives (operands level) w t) : Derives (.binary level) w t
  | binary {level l r left right k op pos} (hl : Derives (.binary level) l (.expr left))
      (hop : Operator level k op) (hr : Derives (operands level) r (.expr right)) :
      Derives (.binary level) (l ++ k :: r) (.expr (.binary op left right pos))
  -- unary = ('-' | 'not') unary | suffixed
  | sign {k op w e pos} (hop : Sign k op) (h : Derives .unary w (.expr e)) :
      Derives .unary (k :: w) (.expr (.unary op e pos))
  | unsigned {w t} (h : Derives .suffixed w t) : Derives .unary w t
  -- suffixed = primary ('(' items ')' | '.' ident | '[' expr ']')*
  | bare {w t} (h : Derives .primary w t) : Derives .suffixed w t
  | call {w f as args pos} (h : Derives .suffixed w (.expr f)) (has : Derives .items as (.exprs args)) :
      Derives .suffixed (w ++ .symbol .lParen :: as ++ [.symbol .rParen]) (.expr (.call f args pos))
  | field {w e name pos} (h : Derives .suffixed w (.expr e)) :
      Derives .suffixed (w ++ [.symbol .dot, .ident name]) (.expr (.field e name pos))
  | index {w e v i pos} (h : Derives .suffixed w (.expr e)) (hi : Derives .expr v (.expr i)) :
      Derives .suffixed (w ++ .symbol .lBracket :: v ++ [.symbol .rBracket]) (.expr (.index e i pos))
  -- primary = literal | ident | '(' expr ')' | '[' items ']' | '{' fields '}' | let | if
  | literal {value pos} : Derives .primary [literalKind value] (.expr (.lit value pos))
  | ident {name pos} : Derives .primary [.ident name] (.expr (.ident name pos))
  | paren {w t} (h : Derives .expr w t) :
      Derives .primary (.symbol .lParen :: w ++ [.symbol .rParen]) t
  | list {w es pos} (h : Derives .items w (.exprs es)) :
      Derives .primary (.symbol .lBracket :: w ++ [.symbol .rBracket]) (.expr (.list es pos))
  | record {w fs pos} (h : Derives .fields w (.named fs)) :
      Derives .primary (.symbol .lBrace :: w ++ [.symbol .rBrace]) (.expr (.record fs pos))
  | primaryLet {w t} (h : Derives .letIn w t) : Derives .primary w t
  | primaryIf {w t} (h : Derives .conditional w t) : Derives .primary w t
  -- items = [expr (',' expr)* [',']], and fields likewise with ident ':' expr
  | itemsNil : Derives .items [] (.exprs [])
  | itemsLast {w e} (h : Derives .expr w (.expr e)) : Derives .items w (.exprs [e])
  | itemsCons {w e ws es} (h : Derives .expr w (.expr e)) (hrest : Derives .items ws (.exprs es)) :
      Derives .items (w ++ .symbol .comma :: ws) (.exprs (e :: es))
  | fieldsNil : Derives .fields [] (.named [])
  | fieldsLast {name pos w value} (h : Derives .expr w (.expr value)) :
      Derives .fields (.ident name :: .symbol .colon :: w) (.named [⟨name, pos, value⟩])
  | fieldsCons {name pos w value ws fs} (h : Derives .expr w (.expr value))
      (hrest : Derives .fields ws (.named fs)) :
      Derives .fields (.ident name :: .symbol .colon :: w ++ .symbol .comma :: ws)
        (.named (⟨name, pos, value⟩ :: fs))

/-- The tokens spell an expression. -/
def Accepts (w : List Kind) : Prop :=
  ∃ e, Derives .expr w (.expr e)

/-! ## The tables of the parser -/

theorem operator?_eq_some_iff {level : Level} {k : Kind} {op : BinaryOp} :
    level.operator? k = some op ↔ Operator level k op := by
  constructor
  · intro h
    unfold Level.operator? at h
    split at h <;> cases h <;> constructor
  · rintro ⟨⟩ <;> rfl

end DistanceField.Grammar
