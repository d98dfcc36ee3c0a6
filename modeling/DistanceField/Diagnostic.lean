import DistanceField.Token

/-!
# Diagnostics

What is wrong with a source text that never runs: lexical errors, syntax errors and
scope errors. Each has a code, a message and the position it is reported at.
-/

namespace DistanceField

/-- The reasons for rejecting a source text. -/
inductive Reason where
  /-- A character that starts no token. -/
  | strayCharacter (c : Char)
  /-- An exclamation mark that is not followed by an equals sign. -/
  | loneBang
  /-- A string without closing quote on its line. -/
  | unterminatedString
  /-- A backslash before a character that it does not escape. -/
  | unknownEscape (c : Char)
  /-- No expression starts with this token. -/
  | expectedExpression (found : Kind)
  /-- The expression ends before the tokens do. -/
  | expectedEnd (found : Kind)
  | expectedIdentifier
  /-- A particular token has to stand here. -/
  | expectedToken (wanted found : Kind)
  /-- A token list that breaks off without end marker inside an operand. -/
  | brokenOff
  | undefinedName (name : String)
  | duplicateParameter (name : String)
  | duplicateField (name : String)
  /-- A builtin function that is not called. -/
  | builtinAsValue (name : String)

namespace Reason

/-- The code of a reason: `L` for lexical errors, `P` for syntax, `S` for scopes. -/
def code : Reason → String
  | strayCharacter _ => "L001"
  | loneBang => "L001"
  | unterminatedString => "L002"
  | unknownEscape _ => "L003"
  | expectedExpression _ => "P001"
  | expectedEnd _ => "P001"
  | expectedIdentifier => "P001"
  | expectedToken _ _ => "P002"
  | brokenOff => "P001"
  | undefinedName _ => "S001"
  | duplicateParameter _ => "S002"
  | duplicateField _ => "S003"
  | builtinAsValue _ => "S004"

def message : Reason → String
  | strayCharacter c => "unexpected character `" ++ String.ofList [c] ++ "`"
  | loneBang => "expected `!=`, use `not` for negation"
  | unterminatedString => "unterminated string literal"
  | unknownEscape c => "unknown escape sequence `\\" ++ String.ofList [c] ++ "`"
  | expectedExpression found => "expected expression, found " ++ found.describe
  | expectedEnd found => "expected end of input, found " ++ found.describe
  | expectedIdentifier => "expected identifier"
  | expectedToken wanted found => "expected " ++ wanted.describe ++ ", found " ++ found.describe
  | brokenOff => "unexpected end of tokens"
  | undefinedName name => "undefined: `" ++ name ++ "`"
  | duplicateParameter name => "duplicate parameter `" ++ name ++ "`"
  | duplicateField name => "duplicate field `" ++ name ++ "`"
  | builtinAsValue name => "builtin `" ++ name ++ "` can only be called"

end Reason

structure Diagnostic where
  reason : Reason
  pos : Pos

namespace Diagnostic

def code (d : Diagnostic) : String := d.reason.code

def message (d : Diagnostic) : String := d.reason.message

/-- `[code] line:column: message`. -/
def text (d : Diagnostic) : String :=
  "[" ++ d.code ++ "] " ++ d.pos.text ++ ": " ++ d.message

end Diagnostic

end DistanceField
