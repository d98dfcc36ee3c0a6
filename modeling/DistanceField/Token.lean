import DistanceField.Number.Decimal
import DistanceField.Pos
import DistanceField.Text.Quoted

/-!
# Tokens

A source text is a list of tokens: literals, names, reserved words and symbols,
each with the position of its first character.

* `Keyword.ofText?`, `Symbol.ofChars?`: recognising reserved words and symbols.
* `Kind.describe`: how messages show a token.
-/

namespace DistanceField

/-- The reserved words. `true` and `false` are literals and not among them. -/
inductive Keyword where
  | kwLet | kwIn | kwIf | kwElse | kwAnd | kwOr | kwNot | kwNull
deriving DecidableEq, Repr

namespace Keyword

def all : List Keyword :=
  [kwLet, kwIn, kwIf, kwElse, kwAnd, kwOr, kwNot, kwNull]

def spelling : Keyword → String
  | kwLet => "let"
  | kwIn => "in"
  | kwIf => "if"
  | kwElse => "else"
  | kwAnd => "and"
  | kwOr => "or"
  | kwNot => "not"
  | kwNull => "null"

/-- The name that messages use. -/
def label : Keyword → String
  | kwLet => "Let"
  | kwIn => "In"
  | kwIf => "If"
  | kwElse => "Else"
  | kwAnd => "And"
  | kwOr => "Or"
  | kwNot => "Not"
  | kwNull => "Null"

def ofText? (word : String) : Option Keyword :=
  all.find? (·.spelling == word)

end Keyword

/-- Operators and punctuation. -/
inductive Symbol where
  | plus | minus | star | slash | percent
  | assign | eqEq | bangEq | lt | ltEq | gt | gtEq
  | arrow | question | colon | comma | semicolon | dot
  | lParen | rParen | lBrace | rBrace | lBracket | rBracket
deriving DecidableEq, Repr

namespace Symbol

def all : List Symbol :=
  [plus, minus, star, slash, percent, assign, eqEq, bangEq, lt, ltEq, gt, gtEq, arrow, question,
    colon, comma, semicolon, dot, lParen, rParen, lBrace, rBrace, lBracket, rBracket]

def spelling : Symbol → List Char
  | plus => ['+']
  | minus => ['-']
  | star => ['*']
  | slash => ['/']
  | percent => ['%']
  | assign => ['=']
  | eqEq => ['=', '=']
  | bangEq => ['!', '=']
  | lt => ['<']
  | ltEq => ['<', '=']
  | gt => ['>']
  | gtEq => ['>', '=']
  | arrow => ['-', '>']
  | question => ['?']
  | colon => [':']
  | comma => [',']
  | semicolon => [';']
  | dot => ['.']
  | lParen => ['(']
  | rParen => [')']
  | lBrace => ['\x7b']
  | rBrace => ['\x7d']
  | lBracket => ['[']
  | rBracket => [']']

/-- The name that messages use. -/
def label : Symbol → String
  | plus => "Plus"
  | minus => "Minus"
  | star => "Star"
  | slash => "Slash"
  | percent => "Percent"
  | assign => "Eq"
  | eqEq => "EqEq"
  | bangEq => "BangEq"
  | lt => "Lt"
  | ltEq => "LtEq"
  | gt => "Gt"
  | gtEq => "GtEq"
  | arrow => "Arrow"
  | question => "Question"
  | colon => "Colon"
  | comma => "Comma"
  | semicolon => "Semicolon"
  | dot => "Dot"
  | lParen => "LParen"
  | rParen => "RParen"
  | lBrace => "LBrace"
  | rBrace => "RBrace"
  | lBracket => "LBracket"
  | rBracket => "RBracket"

/-- The symbol spelt by exactly these characters. -/
def ofSpelling? (cs : List Char) : Option Symbol :=
  all.find? (·.spelling == cs)

/-- The symbol at the start of a text. Two characters win over one. -/
def ofChars? : List Char → Option Symbol
  | [] => none
  | [c] => ofSpelling? [c]
  | c :: d :: _ => (ofSpelling? [c, d]).or (ofSpelling? [c])

end Symbol

/-- What a token is, its position aside. -/
inductive Kind where
  | num (x : Float)
  | bool (b : Bool)
  | ident (name : String)
  | str (s : String)
  | word (w : Keyword)
  | symbol (s : Symbol)
  | eof

namespace Kind

/-- The number form used for tokens: a point even when the number is whole, and an
exponent for magnitudes below `1e-4` and from `1e16` on. -/
def numberLabel (x : Float) : String :=
  if x.isInf then "inf"
  else
    let d := Decimal.shortest x
    if x != 0 && (x < 1e-4 || x >= 1e16) then d.scientific
    else
      let text := d.positional
      if text.contains '.' then text else text ++ ".0"

/-- How messages show a token. -/
def describe : Kind → String
  | num x => "Num(" ++ numberLabel x ++ ")"
  | bool b => "Bool(" ++ toString b ++ ")"
  | ident name => "Ident(" ++ Text.quoted name ++ ")"
  | str s => "StringLit(" ++ Text.quoted s ++ ")"
  | word w => w.label
  | symbol s => s.label
  | eof => "Eof"

/-- What a reserved word stands for. -/
def reserved? (word : String) : Option Kind :=
  if word == "true" then some (bool true)
  else if word == "false" then some (bool false)
  else (Keyword.ofText? word).map Kind.word

/-- What a word of letters, digits and underscores stands for. -/
def ofWord (word : String) : Kind :=
  (reserved? word).getD (ident word)

end Kind

structure Token where
  kind : Kind
  pos : Pos

end DistanceField
