import DistanceField.Diagnostic
import DistanceField.Expr

/-!
# From tokens to expressions

Recursive descent over a list of tokens that is never empty: the last token, in a
finished list the end marker, is never passed. Six levels of binary operators, from
`or` to the multiplicative ones, are left-associative chains over the next level.

The recursion is bounded by fuel, a number of nested calls that is computed from the
number of tokens.

* `Stream`: the tokens from the current one on.
* `Level`: the levels of binary operators.
* `Stream.startsLambda`: the lookahead that tells `(a, b) -> e` from `(e)`.
* `parseExpr`, `parse`: one expression, and a whole source text.
-/

namespace DistanceField

/-! ## Token streams -/

def Token.isSymbol (t : Token) (x : Symbol) : Bool :=
  match t.kind with
  | .symbol y => y == x
  | _ => false

def Token.isWord (t : Token) (x : Keyword) : Bool :=
  match t.kind with
  | .word y => y == x
  | _ => false

/-- The current token and the tokens after it. -/
structure Stream where
  current : Token
  later : List Token

namespace Stream

def ofList? : List Token → Option Stream
  | [] => none
  | t :: ts => some ⟨t, ts⟩

/-- The number of tokens left, the current one included. -/
def length (s : Stream) : Nat :=
  s.later.length + 1

/-- Moves to the next token; the last token stays current. -/
def advance (s : Stream) : Stream :=
  match s.later with
  | [] => s
  | t :: ts => ⟨t, ts⟩

def kind (s : Stream) : Kind := s.current.kind

def pos (s : Stream) : Pos := s.current.pos

def atSymbol (s : Stream) (x : Symbol) : Bool := s.current.isSymbol x

def atWord (s : Stream) (x : Keyword) : Bool := s.current.isWord x

def atEnd (s : Stream) : Bool :=
  match s.kind with
  | .eof => true
  | _ => false

end Stream

/-- Whether tokens that follow an opening parenthesis end a parameter list and are
followed by an arrow. A name has to come next if `wantName`, else a comma; the
closing parenthesis may come at any time. -/
def endsParams (wantName : Bool) : List Token → Bool
  | [] => false
  | t :: ts =>
    match t.kind, wantName with
    | .ident _, true => endsParams false ts
    | .symbol .comma, false => endsParams true ts
    | .symbol .rParen, _ => ts.head?.any (·.isSymbol .arrow)
    | _, _ => false

/-- Whether the current token starts a function: a name before an arrow, or the
parenthesis of a parameter list before an arrow. -/
def Stream.startsLambda (s : Stream) : Bool :=
  match s.kind with
  | .ident _ => s.later.head?.any (·.isSymbol .arrow)
  | .symbol .lParen => endsParams true s.later
  | _ => false

/-! ## Primitives -/

/-- A parser moves along a stream and yields a result or an error. After an error
the stream stays where the parser stopped. -/
abbrev Parser (α : Type) := EStateM Diagnostic Stream α

namespace Parser

/-- Fails at a position. -/
def fail {α : Type} (reason : Reason) (pos : Pos) : Parser α :=
  throw ⟨reason, pos⟩

/-- Passes the current token. -/
def skip : Parser Unit :=
  modify Stream.advance

/-- Passes the current token if it is the given symbol. -/
def accept (x : Symbol) : Parser Bool := do
  if (← get).atSymbol x then
    skip
    return true
  else return false

/-- Passes the current token, which has to be the given symbol. -/
def expect (x : Symbol) : Parser Unit := do
  let s ← get
  if s.atSymbol x then skip else fail (.expectedToken (.symbol x) s.kind) s.pos

/-- Passes the current token, which has to be the given reserved word. -/
def expectWord (x : Keyword) : Parser Unit := do
  let s ← get
  if s.atWord x then skip else fail (.expectedToken (.word x) s.kind) s.pos

/-- Passes the current token, whatever it is, and yields the name that it has to be. -/
def identifier : Parser String := do
  let s ← get
  skip
  match s.kind with
  | .ident name => return name
  | _ => fail .expectedIdentifier s.pos

/-- The names of a parameter list, up to its closing parenthesis. -/
def paramList : Nat → Parser (List Param)
  | 0 => do fail .brokenOff (← get).pos
  | fuel + 1 => do
    let s ← get
    if s.atSymbol .rParen || s.atEnd then return []
    else
      let name ← identifier
      if ← accept .comma then return ⟨name, s.pos⟩ :: (← paramList fuel)
      else return [⟨name, s.pos⟩]

/-- What stands before the body of a function: its parameters and the arrow. -/
def lambdaHeader (fuel : Nat) : Parser (List Param) := do
  if ← accept .lParen then
    let params ← paramList fuel
    expect .rParen
    expect .arrow
    return params
  else
    let s ← get
    let name ← identifier
    expect .arrow
    return [⟨name, s.pos⟩]

end Parser

/-! ## Levels of binary operators -/

/-- The levels of binary operators, from the loosest to the tightest. -/
inductive Level where
  | disjunction | conjunction | equality | comparison | additive | multiplicative
deriving DecidableEq, Repr

namespace Level

/-- The next tighter level. Operands of the tightest level are unary expressions. -/
def tighter? : Level → Option Level
  | disjunction => some conjunction
  | conjunction => some equality
  | equality => some comparison
  | comparison => some additive
  | additive => some multiplicative
  | multiplicative => none

/-- The operator of this level that a token spells. -/
def operator? : Level → Kind → Option BinaryOp
  | disjunction, .word .kwOr => some .or
  | conjunction, .word .kwAnd => some .and
  | equality, .symbol .eqEq => some .eq
  | equality, .symbol .bangEq => some .ne
  | comparison, .symbol .lt => some .lt
  | comparison, .symbol .ltEq => some .le
  | comparison, .symbol .gt => some .gt
  | comparison, .symbol .gtEq => some .ge
  | additive, .symbol .plus => some .add
  | additive, .symbol .minus => some .sub
  | multiplicative, .symbol .star => some .mul
  | multiplicative, .symbol .slash => some .div
  | multiplicative, .symbol .percent => some .mod
  | _, _ => none

end Level

/-! ## Expressions -/

namespace Parser

mutual

/-- One expression: a `let`, an `if`, a function, or operators over operands. -/
def expr : Nat → Parser Expr
  | 0 => do fail .brokenOff (← get).pos
  | fuel + 1 => do
    let s ← get
    if s.atWord .kwLet then
      skip
      let bs ← bindings fuel
      expectWord .kwIn
      let body ← expr fuel
      return .letIn bs body s.pos
    else if s.atWord .kwIf then
      skip
      expect .lParen
      let condition ← expr fuel
      expect .rParen
      let yes ← expr fuel
      expectWord .kwElse
      let no ← expr fuel
      return .cond condition yes no s.pos
    else if s.startsLambda then
      let params ← lambdaHeader s.length
      let body ← expr fuel
      return .lambda params body s.pos
    else ternary fuel

/-- The bindings of a `let`, at least one, separated by semicolons. A semicolon may
stand before `in`. -/
def bindings : Nat → Parser (List (Named Expr))
  | 0 => do fail .brokenOff (← get).pos
  | fuel + 1 => do
    let s ← get
    let name ← identifier
    expect .assign
    let value ← expr fuel
    if ← accept .semicolon then
      if (← get).atWord .kwIn then return [⟨name, s.pos, value⟩]
      else return ⟨name, s.pos, value⟩ :: (← bindings fuel)
    else return [⟨name, s.pos, value⟩]

/-- Operators over operands, and an optional choice `c ? a : b` at the end. -/
def ternary : Nat → Parser Expr
  | 0 => do fail .brokenOff (← get).pos
  | fuel + 1 => do
    let condition ← binary .disjunction fuel
    if ← accept .question then
      let yes ← binary .disjunction fuel
      expect .colon
      let no ← expr fuel
      return .cond condition yes no condition.pos
    else return condition

/-- A chain of the operators of one level. -/
def binary (level : Level) : Nat → Parser Expr
  | 0 => do fail .brokenOff (← get).pos
  | fuel + 1 => do
    let left ← operand level fuel
    chain level left fuel

/-- What the operators of one level stand between. -/
def operand (level : Level) : Nat → Parser Expr
  | 0 => do fail .brokenOff (← get).pos
  | fuel + 1 =>
    match level.tighter? with
    | some next => binary next fuel
    | none => unary fuel

/-- Extends a chain as long as operators of its level follow. -/
def chain (level : Level) (left : Expr) : Nat → Parser Expr
  | 0 => do fail .brokenOff (← get).pos
  | fuel + 1 => do
    let s ← get
    match level.operator? s.kind with
    | some op =>
      skip
      let right ← operand level fuel
      chain level (.binary op left right s.pos) fuel
    | none => return left

def unary : Nat → Parser Expr
  | 0 => do fail .brokenOff (← get).pos
  | fuel + 1 => do
    let s ← get
    if s.atSymbol .minus then
      skip
      return .unary .neg (← unary fuel) s.pos
    else if s.atWord .kwNot then
      skip
      return .unary .not (← unary fuel) s.pos
    else
      let base ← primary fuel
      suffixes base fuel

/-- Extends an operand by calls, fields and indices. -/
def suffixes (base : Expr) : Nat → Parser Expr
  | 0 => do fail .brokenOff (← get).pos
  | fuel + 1 => do
    let s ← get
    match s.kind with
    | .symbol .lParen =>
      skip
      let args ← items .rParen fuel
      expect .rParen
      suffixes (.call base args s.pos) fuel
    | .symbol .dot =>
      skip
      let name ← identifier
      suffixes (.field base name s.pos) fuel
    | .symbol .lBracket =>
      skip
      let i ← expr fuel
      expect .rBracket
      suffixes (.index base i s.pos) fuel
    | _ => return base

def primary : Nat → Parser Expr
  | 0 => do fail .brokenOff (← get).pos
  | fuel + 1 => do
    let s ← get
    match s.kind with
    | .num x =>
      skip
      return .lit (.num x) s.pos
    | .bool b =>
      skip
      return .lit (.bool b) s.pos
    | .word .kwNull =>
      skip
      return .lit .null s.pos
    | .str text =>
      skip
      return .lit (.str text) s.pos
    | .ident name =>
      skip
      return .ident name s.pos
    | .symbol .lParen =>
      skip
      let e ← expr fuel
      expect .rParen
      return e
    | .symbol .lBracket =>
      skip
      let es ← items .rBracket fuel
      expect .rBracket
      return .list es s.pos
    | .symbol .lBrace =>
      skip
      let fs ← fields fuel
      expect .rBrace
      return .record fs s.pos
    | .word .kwLet | .word .kwIf => expr fuel
    | found => fail (.expectedExpression found) s.pos

/-- Expressions separated by commas, up to a closing symbol. A comma may stand
before the closing symbol. -/
def items (close : Symbol) : Nat → Parser (List Expr)
  | 0 => do fail .brokenOff (← get).pos
  | fuel + 1 => do
    let s ← get
    if s.atSymbol close || s.atEnd then return []
    else
      let e ← expr fuel
      if ← accept .comma then return e :: (← items close fuel)
      else return [e]

/-- The fields of a record, separated by commas. -/
def fields : Nat → Parser (List (Named Expr))
  | 0 => do fail .brokenOff (← get).pos
  | fuel + 1 => do
    let s ← get
    if s.atSymbol .rBrace || s.atEnd then return []
    else
      let name ← identifier
      expect .colon
      let value ← expr fuel
      if ← accept .comma then return ⟨name, s.pos, value⟩ :: (← fields fuel)
      else return [⟨name, s.pos, value⟩]

end

end Parser

/-- The nesting of calls that any expression over `n` tokens stays below. -/
def parseFuel (n : Nat) : Nat :=
  32 * (n + 1)

/-- One expression from the start of a stream. -/
def parseExpr : Parser Expr := do
  Parser.expr (parseFuel (← get).length)

/-- One expression that extends to the end marker. -/
def parseAll : Parser Expr := do
  let e ← parseExpr
  let s ← get
  if s.atEnd then return e else Parser.fail (.expectedEnd s.kind) s.pos

/-- **The expression that a stream of tokens spells.** -/
def parse (s : Stream) : Except Diagnostic Expr :=
  match parseAll s with
  | .ok e _ => .ok e
  | .error d _ => .error d

end DistanceField
