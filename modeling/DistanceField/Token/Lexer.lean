import DistanceField.Diagnostic
import DistanceField.Number.Numeral
import DistanceField.Text.Blank

/-!
# From text to tokens

A source text is cut into pieces. Each piece is a run of trivia (blanks and
comments) followed by one lexeme; what is left after the last lexeme is trivia too.
Positions play no part in the cutting: they follow from the text before a lexeme.

* `splitTrivia`, `Scan.ofChars`: cutting off trivia, and one lexeme.
* `pieces`: the whole text in pieces. `Piece.text_pieces` says that no character is
  lost or used twice.
* `tokenize`: the tokens, or all lexical errors.
-/

namespace DistanceField

/-! ## Trivia -/

/-- Where the reader of trivia is: between comments, in a comment that ends with
the line, or in a comment that ends with its closing mark. -/
inductive TriviaMode where
  | plain | line | block

/-- The leading trivia of a text and what follows it. A block comment without
closing mark extends to the end of the text. -/
def splitTrivia : TriviaMode → List Char → List Char × List Char
  | _, [] => ([], [])
  | .plain, '/' :: '/' :: cs =>
    let (trivia, rest) := splitTrivia .line cs
    ('/' :: '/' :: trivia, rest)
  | .plain, '/' :: '*' :: cs =>
    let (trivia, rest) := splitTrivia .block cs
    ('/' :: '*' :: trivia, rest)
  | .plain, c :: cs =>
    if Text.isBlank c then
      let (trivia, rest) := splitTrivia .plain cs
      (c :: trivia, rest)
    else ([], c :: cs)
  | .line, c :: cs =>
    let (trivia, rest) := splitTrivia (if c = '\n' then .plain else .line) cs
    (c :: trivia, rest)
  | .block, '*' :: '/' :: cs =>
    let (trivia, rest) := splitTrivia .plain cs
    ('*' :: '/' :: trivia, rest)
  | .block, c :: cs =>
    let (trivia, rest) := splitTrivia .block cs
    (c :: trivia, rest)

/-- **Nothing is lost** when trivia is cut off. -/
theorem splitTrivia_append (mode : TriviaMode) (cs : List Char) :
    (splitTrivia mode cs).1 ++ (splitTrivia mode cs).2 = cs := by
  fun_induction splitTrivia mode cs <;> simp_all

/-! ## Strings -/

/-- The inside of a string literal, read from the character after its opening
quote. The lexeme includes the closing quote, or the newline that breaks it off. -/
structure StringScan where
  lexeme : List Char
  rest : List Char
  /-- The characters that the literal denotes. -/
  value : List Char
  closed : Bool
  /-- The first backslash sequence without meaning: the place of its second
  character in the lexeme, and that character. -/
  unknown : Option (Nat × Char)

/-- The character that a backslash and `c` denote. -/
def unescape? (c : Char) : Option Char :=
  match c with
  | 'n' => some '\n'
  | 't' => some '\t'
  | '"' => some '"'
  | '\\' => some '\\'
  | _ => none

namespace StringScan

/-- The scan of a text that has `cs` in front, denoting `value`. -/
def push (cs value : List Char) (s : StringScan) : StringScan :=
  { s with
    lexeme := cs ++ s.lexeme
    value := value ++ s.value
    unknown := s.unknown.map fun (i, c) => (i + cs.length, c) }

/-- The scan of a text that has a backslash and a character without meaning in front. -/
def pushUnknown (c : Char) (s : StringScan) : StringScan :=
  { s with
    lexeme := '\\' :: c :: s.lexeme
    unknown := some (1, c) }

def ofChars : List Char → StringScan
  | [] => ⟨[], [], [], false, none⟩
  | '\n' :: cs => ⟨['\n'], cs, [], false, none⟩
  | '"' :: cs => ⟨['"'], cs, [], true, none⟩
  | ['\\'] => ⟨['\\'], [], [], false, none⟩
  | '\\' :: '\n' :: cs => ⟨['\\', '\n'], cs, [], false, none⟩
  | '\\' :: c :: cs =>
    match unescape? c with
    | some d => (ofChars cs).push ['\\', c] [d]
    | none => (ofChars cs).pushUnknown c
  | c :: cs => (ofChars cs).push [c] [c]

theorem lexeme_append_rest (cs : List Char) : (ofChars cs).lexeme ++ (ofChars cs).rest = cs := by
  fun_induction ofChars cs <;> simp_all [push, pushUnknown]

/-- What the literal reads as, and the place of the error in the lexeme that starts
with the opening quote. -/
def reading (s : StringScan) : Except (Reason × Nat) Kind :=
  if s.closed then
    match s.unknown with
    | some (i, c) => .error (.unknownEscape c, i + 1)
    | none => .ok (.str (String.ofList s.value))
  else .error (.unterminatedString, 0)

end StringScan

/-! ## Lexemes -/

/-- One lexeme cut off a text: its characters, what follows, and the token it
spells, or what is wrong with it and where in the lexeme. -/
structure Scan where
  lexeme : List Char
  rest : List Char
  reading : Except (Reason × Nat) Kind

def isWordStart (c : Char) : Bool :=
  c.isAlpha || c == '_'

def isWordPart (c : Char) : Bool :=
  c.isAlphanum || c == '_'

/-- The lexeme at the start of a text that begins with `c`: a symbol, a string, a
numeral or a word, else a single character that is an error. -/
def Scan.ofChars (c : Char) (cs : List Char) : Scan :=
  match Symbol.ofChars? (c :: cs) with
  | some s =>
    let n := s.spelling.length
    ⟨(c :: cs).take n, (c :: cs).drop n, .ok (.symbol s)⟩
  | none =>
    if c = '"' then
      let s := StringScan.ofChars cs
      ⟨'"' :: s.lexeme, s.rest, s.reading⟩
    else if c.isDigit then
      let (n, rest) := Numeral.split (c :: cs)
      ⟨n.text, rest, .ok (.num n.value)⟩
    else if isWordStart c then
      let word := (c :: cs).takeWhile isWordPart
      ⟨word, (c :: cs).dropWhile isWordPart, .ok (Kind.ofWord (String.ofList word))⟩
    else if c = '!' then ⟨[c], cs, .error (.loneBang, 0)⟩
    else ⟨[c], cs, .error (.strayCharacter c, 0)⟩

theorem Symbol.ofSpelling?_eq_some {cs : List Char} {s : Symbol} (h : ofSpelling? cs = some s) :
    s.spelling = cs := by
  simpa using List.find?_some h

theorem Symbol.spelling_ne_nil (s : Symbol) : s.spelling ≠ [] := by
  cases s <;> simp [spelling]

/-- A symbol is only recognised where its spelling stands. -/
theorem Symbol.spelling_append_drop {cs : List Char} {s : Symbol} (h : ofChars? cs = some s) :
    s.spelling ++ cs.drop s.spelling.length = cs := by
  match cs with
  | [] => simp [ofChars?] at h
  | [c] => simp [ofSpelling?_eq_some h]
  | c :: d :: cs =>
    rw [ofChars?, Option.or_eq_some_iff] at h
    rcases h with h | ⟨-, h⟩ <;> simp [ofSpelling?_eq_some h]

namespace Scan

/-- **A lexeme and what follows it** make up the text. -/
theorem lexeme_append_rest (c : Char) (cs : List Char) :
    (ofChars c cs).lexeme ++ (ofChars c cs).rest = c :: cs := by
  unfold ofChars
  split
  · exact List.take_append_drop _ _
  · split
    · next hc => simp [StringScan.lexeme_append_rest, hc]
    · split
      · exact Numeral.text_append_rest _
      · split
        · exact List.takeWhile_append_dropWhile
        · split <;> rfl

/-- **Every lexeme has a character**, so cutting off lexemes comes to an end. -/
theorem lexeme_ne_nil (c : Char) (cs : List Char) : (ofChars c cs).lexeme ≠ [] := by
  unfold ofChars
  split
  · next s h =>
    rw [← Symbol.spelling_append_drop h]
    simp [Symbol.spelling_ne_nil]
  · split
    · simp
    · split
      · next hd => simp [Numeral.split, Numeral.text, hd]
      · split
        · next hw =>
          have hp : isWordPart c = true := by
            simp only [isWordStart, isWordPart, Char.isAlphanum, Bool.or_eq_true] at hw ⊢
            rcases hw with hw | hw <;> simp [hw]
          simp [hp]
        · split <;> simp

theorem length_rest_lt (c : Char) (cs : List Char) :
    (ofChars c cs).rest.length < (c :: cs).length := by
  have happend := congrArg List.length (lexeme_append_rest c cs)
  have hpos := List.length_pos_iff.2 (lexeme_ne_nil c cs)
  rw [List.length_append] at happend
  omega

end Scan

/-! ## Pieces -/

/-- Trivia and the lexeme after it. -/
structure Piece where
  trivia : List Char
  lexeme : List Char
  reading : Except (Reason × Nat) Kind

def Piece.text (p : Piece) : List Char :=
  p.trivia ++ p.lexeme

/-- A text in pieces, and the trivia at its end. -/
def pieces (cs : List Char) : List Piece × List Char :=
  match _h : (splitTrivia .plain cs).2 with
  | [] => ([], (splitTrivia .plain cs).1)
  | c :: rest =>
    let scan := Scan.ofChars c rest
    let (ps, trailing) := pieces scan.rest
    (⟨(splitTrivia .plain cs).1, scan.lexeme, scan.reading⟩ :: ps, trailing)
termination_by cs.length
decreasing_by
  have hscan := Scan.length_rest_lt c rest
  have hsplit := congrArg List.length (splitTrivia_append .plain cs)
  rw [List.length_append, _h] at hsplit
  omega

/-- **The pieces tile the text.** -/
theorem text_pieces (cs : List Char) :
    ((pieces cs).1.flatMap Piece.text) ++ (pieces cs).2 = cs := by
  fun_induction pieces cs with
  | case1 cs h =>
    have := splitTrivia_append .plain cs
    rw [h] at this
    simpa using this
  | case2 cs c rest h scan ps trailing hps ih =>
    have hsplit := splitTrivia_append .plain cs
    rw [hps] at ih
    simp only [List.flatMap_cons, Piece.text, List.append_assoc] at ih ⊢
    rw [ih, Scan.lexeme_append_rest, ← h, hsplit]

/-! ## Tokens -/

/-- The pieces from a position on, each with the position of its lexeme, and the
position after the last of them. -/
def locate (p : Pos) : List Piece → List (Pos × Piece) × Pos
  | [] => ([], p)
  | piece :: ps =>
    let first := p.after piece.trivia
    let (located, stop) := locate (first.after piece.lexeme) ps
    ((first, piece) :: located, stop)

/-- The token of a piece whose lexeme is at `p`. -/
def Piece.token? (p : Pos) (piece : Piece) : Option Token :=
  match piece.reading with
  | .ok kind => some ⟨kind, p⟩
  | .error _ => none

/-- The error of a piece whose lexeme is at `p`. -/
def Piece.diagnostic? (p : Pos) (piece : Piece) : Option Diagnostic :=
  match piece.reading with
  | .ok _ => none
  | .error (reason, offset) => some ⟨reason, p.after (piece.lexeme.take offset)⟩

/-- **The tokens of a source text**, with an end marker, or all its lexical errors. -/
def tokenize (source : String) : Except (List Diagnostic) (List Token) :=
  let (ps, trailing) := pieces source.toList
  let (located, stop) := locate .start ps
  match located.filterMap fun (p, piece) => piece.diagnostic? p with
  | [] => .ok (located.filterMap (fun (p, piece) => piece.token? p) ++ [⟨.eof, stop.after trailing⟩])
  | errors => .error errors

end DistanceField
