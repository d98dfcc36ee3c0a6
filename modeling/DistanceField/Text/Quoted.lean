import DistanceField.Text.Hidden

/-!
# Quoted text

Strings inside printed values stand between double quotes. Quotes, backslashes and
the usual control characters are escaped by a letter, all other hidden characters
by their number in hexadecimal.
-/

namespace DistanceField.Text

/-- The form of one character inside quotes. -/
def escape (c : Char) : List Char :=
  match c with
  | '\x00' => ['\\', '0']
  | '\t' => ['\\', 't']
  | '\r' => ['\\', 'r']
  | '\n' => ['\\', 'n']
  | '"' => ['\\', '"']
  | '\\' => ['\\', '\\']
  | c =>
    if isHidden c then "\\u\x7b".toList ++ Nat.toDigits 16 c.toNat ++ "\x7d".toList
    else [c]

/-- **Quoted text**, with its quotes. -/
def quoted (s : String) : String :=
  "\"" ++ String.ofList (s.toList.flatMap escape) ++ "\""

end DistanceField.Text
