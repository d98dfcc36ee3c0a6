import DistanceField.Proofs.Lexemes

/-!
# Texts in tiles

A source text is trivia, a lexeme, trivia, a lexeme and so on, up to the trivia at its end.
The tokens of a text are exactly the kinds that such a tiling spells, where each lexeme is
the longest at its place and no comment starts there, and they carry the positions of their
first characters.

* `Trivia`: blanks and comments. `splitTrivia_sound`, `splitTrivia_trivia`: the trivia that is
  cut off a text.
* `Pos.ofText`: the position after a text, counted afresh.
* `Tiles`: the tilings of a text, with their tokens.
* `tokenize_eq_ok_iff`: tokens are tilings.
* `Script.tokenize_text`: lexemes that are written with gaps between them are read back.
-/

namespace DistanceField

/-! ## Trivia -/

/-- A line comment or a block comment starts here. -/
def StartsComment (cs : List Char) : Prop :=
  ['/', '/'] <+: cs ∨ ['/', '*'] <+: cs

/-- **Blanks and comments.** A line comment ends with its newline and a block comment with
the first closing mark; only at the end of a text may a comment be left open. -/
inductive Trivia (atEnd : Bool) : List Char → Prop
  | nil : Trivia atEnd []
  | blank {c : Char} {t : List Char} (hc : Text.isBlank c = true) (ht : Trivia atEnd t) :
      Trivia atEnd (c :: t)
  | line {body t : List Char} (hbody : '\n' ∉ body) (ht : Trivia atEnd t) :
      Trivia atEnd ('/' :: '/' :: (body ++ '\n' :: t))
  | block {body t : List Char} (hbody : ¬ ['*', '/'] <:+: body) (ht : Trivia atEnd t) :
      Trivia atEnd ('/' :: '*' :: (body ++ '*' :: '/' :: t))
  | openLine {body : List Char} (hend : atEnd = true) (hbody : '\n' ∉ body) :
      Trivia atEnd ('/' :: '/' :: body)
  | openBlock {body : List Char} (hend : atEnd = true) (hbody : ¬ ['*', '/'] <:+: body) :
      Trivia atEnd ('/' :: '*' :: body)

/-- Closed trivia may stand at the end too. -/
theorem Trivia.weaken {atEnd : Bool} {t : List Char} (h : Trivia false t) : Trivia atEnd t := by
  induction h with
  | nil => exact .nil
  | blank hc _ ih => exact .blank hc ih
  | line hbody _ ih => exact .line hbody ih
  | block hbody _ ih => exact .block hbody ih
  | openLine hend => cases hend
  | openBlock hend => cases hend

section

variable {body cs : List Char}

theorem splitTrivia_line (h : '\n' ∉ body) :
    splitTrivia .line (body ++ '\n' :: cs) =
      (body ++ '\n' :: (splitTrivia .plain cs).1, (splitTrivia .plain cs).2) := by
  induction body with
  | nil => simp [splitTrivia]
  | cons c body ih =>
    have hc : c ≠ '\n' := fun heq => h (heq ▸ List.mem_cons_self)
    have hbody : '\n' ∉ body := fun hmem => h (List.mem_cons_of_mem _ hmem)
    simp [splitTrivia, hc, ih hbody]

theorem splitTrivia_line_open (h : '\n' ∉ body) : splitTrivia .line body = (body, []) := by
  induction body with
  | nil => rfl
  | cons c body ih =>
    have hc : c ≠ '\n' := fun heq => h (heq ▸ List.mem_cons_self)
    have hbody : '\n' ∉ body := fun hmem => h (List.mem_cons_of_mem _ hmem)
    simp [splitTrivia, hc, ih hbody]

/-- The closing mark of a block comment does not stand at its start, nor later. -/
theorem not_infix_cons {c : Char} (h : ¬ ['*', '/'] <:+: c :: body) :
    (∀ rest, c = '*' → body ≠ '/' :: rest) ∧ ¬ ['*', '/'] <:+: body := by
  rw [List.infix_cons_iff, not_or] at h
  refine ⟨?_, h.2⟩
  rintro rest rfl rfl
  exact h.1 ⟨rest, rfl⟩

theorem splitTrivia_block (h : ¬ ['*', '/'] <:+: body) :
    splitTrivia .block (body ++ '*' :: '/' :: cs) =
      (body ++ '*' :: '/' :: (splitTrivia .plain cs).1, (splitTrivia .plain cs).2) := by
  induction body with
  | nil => simp [splitTrivia]
  | cons c body ih =>
    obtain ⟨hhead, hbody⟩ := not_infix_cons h
    have hopen : ∀ rest, c = '*' → body ++ '*' :: '/' :: cs = '/' :: rest → False := by
      intro rest hc heq
      cases body with
      | nil => cases heq
      | cons d body =>
        obtain rfl : d = '/' := (List.cons.inj heq).1
        exact hhead body hc rfl
    rw [List.cons_append, splitTrivia.eq_7 _ _ hopen, ih hbody]
    rfl

theorem splitTrivia_block_open (h : ¬ ['*', '/'] <:+: body) : splitTrivia .block body = (body, []) := by
  induction body with
  | nil => rfl
  | cons c body ih =>
    obtain ⟨hhead, hbody⟩ := not_infix_cons h
    rw [splitTrivia.eq_7 _ _ fun rest hc heq => hhead rest hc heq, ih hbody]

/-- The first closing mark of a text that has one. -/
theorem exists_first_close (h : ['*', '/'] <:+: cs) :
    ∃ body rest, cs = body ++ '*' :: '/' :: rest ∧ ¬ ['*', '/'] <:+: body := by
  induction cs with
  | nil => simp at h
  | cons c cs ih =>
    by_cases hstart : ['*', '/'] <+: c :: cs
    · obtain ⟨rest, hrest⟩ := hstart
      exact ⟨[], rest, hrest.symm, by simp⟩
    · obtain ⟨body, rest, hcs, hbody⟩ := ih ((List.infix_cons_iff.1 h).resolve_left hstart)
      refine ⟨c :: body, rest, by rw [hcs, List.cons_append], ?_⟩
      rw [List.infix_cons_iff, not_or]
      refine ⟨fun hprefix => hstart ?_, hbody⟩
      rw [hcs]
      exact hprefix.trans (List.prefix_append (c :: body) _)

end

/-- **What is cut off is trivia**, and no comment starts after it. -/
theorem splitTrivia_sound (cs : List Char) :
    Trivia (splitTrivia .plain cs).2.isEmpty (splitTrivia .plain cs).1 ∧
      ¬ StartsComment (splitTrivia .plain cs).2 := by
  have hnil : ¬ StartsComment [] := by simp [StartsComment]
  induction hn : cs.length using Nat.strong_induction_on generalizing cs with
  | _ n ih =>
    subst hn
    by_cases hline : ['/', '/'] <+: cs
    · obtain ⟨cs, rfl⟩ := hline
      by_cases hmem : '\n' ∈ cs
      · obtain ⟨body, cs, rfl, hbody⟩ := List.eq_append_cons_of_mem hmem
        have hrest := ih cs.length (by simp; omega) cs rfl
        simp only [List.cons_append, List.nil_append, splitTrivia, splitTrivia_line hbody]
        exact ⟨.line hbody hrest.1, hrest.2⟩
      · simp only [List.cons_append, List.nil_append, splitTrivia, splitTrivia_line_open hmem]
        exact ⟨.openLine rfl hmem, hnil⟩
    by_cases hblock : ['/', '*'] <+: cs
    · obtain ⟨cs, rfl⟩ := hblock
      by_cases hclose : ['*', '/'] <:+: cs
      · obtain ⟨body, cs, rfl, hbody⟩ := exists_first_close hclose
        have hrest := ih cs.length (by simp; omega) cs rfl
        simp only [List.cons_append, List.nil_append, splitTrivia, splitTrivia_block hbody]
        exact ⟨.block hbody hrest.1, hrest.2⟩
      · simp only [List.cons_append, List.nil_append, splitTrivia, splitTrivia_block_open hclose]
        exact ⟨.openBlock rfl hclose, hnil⟩
    cases cs with
    | nil => exact ⟨.nil, hnil⟩
    | cons c cs =>
      have hsplit := splitTrivia.eq_4 c cs (fun rest hc hcs => hline ⟨rest, by rw [hc, hcs]; rfl⟩)
        (fun rest hc hcs => hblock ⟨rest, by rw [hc, hcs]; rfl⟩)
      by_cases hc : Text.isBlank c = true
      · have hrest := ih cs.length (Nat.lt_succ_self _) cs rfl
        rw [hsplit, if_pos hc]
        exact ⟨.blank hc hrest.1, hrest.2⟩
      · rw [hsplit, if_neg hc]
        exact ⟨.nil, fun h => h.elim hline hblock⟩

/-- **Trivia is cut off whole**, up to what is neither blank nor a comment. -/
theorem splitTrivia_trivia {atEnd : Bool} {t rest : List Char} (h : Trivia atEnd t)
    (hend : atEnd = true → rest = []) (hcomment : ¬ StartsComment rest)
    (hblank : ∀ c ∈ rest.head?, Text.isBlank c = false) : splitTrivia .plain (t ++ rest) = (t, rest) := by
  induction h with
  | nil =>
    cases rest with
    | nil => rfl
    | cons c rest =>
      have hc : Text.isBlank c = false := hblank c rfl
      rw [List.nil_append, splitTrivia.eq_4 c rest (fun cs hslash hcs => hcomment (.inl ⟨cs, by rw [hslash, hcs]; rfl⟩))
        (fun cs hslash hcs => hcomment (.inr ⟨cs, by rw [hslash, hcs]; rfl⟩)), hc]
      rfl
  | @blank c t hc ht ih =>
    have hslash : c ≠ '/' := (isWordPart_of_isBlank hc).2.1
    rw [List.cons_append, splitTrivia.eq_4 c _ (fun _ h => absurd h hslash) (fun _ h => absurd h hslash),
      if_pos hc, ih]
  | @line body t hbody ht ih =>
    simp only [List.cons_append, List.append_assoc, splitTrivia, splitTrivia_line hbody, ih]
  | @block body t hbody ht ih =>
    simp only [List.cons_append, List.append_assoc, splitTrivia, splitTrivia_block hbody, ih]
  | openLine hopen hbody =>
    rw [hend hopen, List.append_nil]
    simp only [splitTrivia, splitTrivia_line_open hbody]
  | openBlock hopen hbody =>
    rw [hend hopen, List.append_nil]
    simp only [splitTrivia, splitTrivia_block_open hbody]

/-! ## Positions -/

/-- The position after a text: one more than its newlines, and one more than the characters
since the last of them. -/
def Pos.ofText (before : List Char) : Pos :=
  ⟨1 + before.count '\n', 1 + (before.reverse.takeWhile (· != '\n')).length⟩

theorem Pos.ofText_append (before cs : List Char) : Pos.ofText (before ++ cs) = (Pos.ofText before).after cs := by
  induction cs generalizing before with
  | nil => simp
  | cons c cs ih =>
    have hstep : Pos.ofText (before ++ [c]) = (Pos.ofText before).next c := by
      unfold Pos.next
      split
      · next hc =>
        subst hc
        simp [Pos.ofText]
        omega
      · next hc =>
        simp [Pos.ofText, hc]
        omega
    rw [List.append_cons, ih, hstep]
    rfl

theorem Pos.ofText_nil : Pos.ofText [] = .start := rfl

/-! ## Tokens piece by piece -/

/-- The tokens of the text that starts at a position, with the end marker. -/
def tokensFrom (p : Pos) (cs : List Char) : List Token :=
  (locate p (pieces cs).1).1.filterMap (fun located => located.2.token? located.1) ++
    [⟨.eof, (locate p (pieces cs).1).2.after (pieces cs).2⟩]

/-- The lexical errors of the text that starts at a position. -/
def errorsFrom (p : Pos) (cs : List Char) : List Diagnostic :=
  (locate p (pieces cs).1).1.filterMap fun located => located.2.diagnostic? located.1

theorem tokenize_eq (source : String) :
    tokenize source =
      match errorsFrom .start source.toList with
      | [] => .ok (tokensFrom .start source.toList)
      | errors => .error errors := rfl

theorem tokenize_eq_ok {source : String} {tokens : List Token} :
    tokenize source = .ok tokens ↔
      errorsFrom .start source.toList = [] ∧ tokensFrom .start source.toList = tokens := by
  rw [tokenize_eq]
  cases errorsFrom .start source.toList with
  | nil => simp
  | cons d ds => simp

section

variable {cs : List Char}

theorem pieces_nil (h : (splitTrivia .plain cs).2 = []) : pieces cs = ([], cs) := by
  have happend := splitTrivia_append .plain cs
  rw [h, List.append_nil] at happend
  rw [pieces]
  split
  · rw [happend]
  · next heq => rw [h] at heq; cases heq

theorem pieces_cons {c : Char} {rest : List Char} (h : (splitTrivia .plain cs).2 = c :: rest) :
    pieces cs =
      (⟨(splitTrivia .plain cs).1, (Scan.ofChars c rest).lexeme, (Scan.ofChars c rest).reading⟩ ::
        (pieces (Scan.ofChars c rest).rest).1, (pieces (Scan.ofChars c rest).rest).2) := by
  rw [pieces]
  split
  · next heq => rw [h] at heq; cases heq
  · next heq =>
    rw [h] at heq
    obtain ⟨rfl, rfl⟩ := List.cons.inj heq
    rfl

theorem tokensFrom_nil (p : Pos) (h : (splitTrivia .plain cs).2 = []) :
    tokensFrom p cs = [⟨.eof, p.after cs⟩] ∧ errorsFrom p cs = [] := by
  rw [tokensFrom, errorsFrom, pieces_nil h]
  exact ⟨rfl, rfl⟩

theorem tokensFrom_cons (p : Pos) {c : Char} {rest : List Char} {k : Kind}
    (h : (splitTrivia .plain cs).2 = c :: rest) (hk : (Scan.ofChars c rest).reading = .ok k) :
    tokensFrom p cs = ⟨k, p.after (splitTrivia .plain cs).1⟩ ::
        tokensFrom ((p.after (splitTrivia .plain cs).1).after (Scan.ofChars c rest).lexeme)
          (Scan.ofChars c rest).rest ∧
      errorsFrom p cs =
        errorsFrom ((p.after (splitTrivia .plain cs).1).after (Scan.ofChars c rest).lexeme)
          (Scan.ofChars c rest).rest := by
  rw [tokensFrom, errorsFrom, pieces_cons h]
  simp [locate, Piece.token?, Piece.diagnostic?, hk, tokensFrom, errorsFrom]

theorem errorsFrom_cons (p : Pos) {c : Char} {rest : List Char} {reason : Reason} {offset : Nat}
    (h : (splitTrivia .plain cs).2 = c :: rest)
    (hk : (Scan.ofChars c rest).reading = .error (reason, offset)) :
    errorsFrom p cs =
      ⟨reason, (p.after (splitTrivia .plain cs).1).after ((Scan.ofChars c rest).lexeme.take offset)⟩ ::
        errorsFrom ((p.after (splitTrivia .plain cs).1).after (Scan.ofChars c rest).lexeme)
          (Scan.ofChars c rest).rest := by
  rw [errorsFrom, pieces_cons h]
  simp [locate, Piece.diagnostic?, hk, errorsFrom]

end

/-! ## Tilings -/

/-- **The tilings of a text that stands after `before`, with their tokens.** Where a lexeme
stands no comment starts and no longer lexeme does. -/
inductive Tiles : List Char → List Char → List Token → Prop
  | finish {before t : List Char} (ht : Trivia true t) :
      Tiles before t [⟨.eof, .ofText (before ++ t)⟩]
  | token {before t rest : List Char} {tokens : List Token} (l : Lexeme) (ht : Trivia false t)
      (hcomment : ¬ StartsComment (l.text ++ rest)) (hlong : l.Longest rest)
      (hrest : Tiles (before ++ t ++ l.text) rest tokens) :
      Tiles before (t ++ l.text ++ rest) (⟨l.kind, .ofText (before ++ t)⟩ :: tokens)

/-- A text without lexical errors is tiled by its tokens. -/
theorem tiles_tokensFrom (before cs : List Char) (h : errorsFrom (.ofText before) cs = []) :
    Tiles before cs (tokensFrom (.ofText before) cs) := by
  induction cs using pieces.induct generalizing before with
  | case1 cs hcs =>
    obtain ⟨htrivia, -⟩ := splitTrivia_sound cs
    have happend := splitTrivia_append .plain cs
    rw [hcs, List.append_nil] at happend
    rw [hcs, happend] at htrivia
    rw [(tokensFrom_nil _ hcs).1, ← Pos.ofText_append]
    exact .finish htrivia
  | case2 cs c rest hcs scan ps trailing hps ih =>
    obtain ⟨htrivia, hcomment⟩ := splitTrivia_sound cs
    have happend := splitTrivia_append .plain cs
    rw [hcs] at htrivia hcomment happend
    cases hreading : (Scan.ofChars c rest).reading with
    | error e =>
      rw [errorsFrom_cons _ hcs hreading] at h
      cases h
    | ok k =>
      obtain ⟨htokens, herrors⟩ := tokensFrom_cons (.ofText before) hcs hreading
      obtain ⟨l, hl, rfl⟩ := Scan.exists_lexeme hreading
      have hscan := Scan.lexeme_append_rest c rest
      rw [← Pos.ofText_append, ← Pos.ofText_append] at htokens herrors
      rw [herrors] at h
      have hrest := ih _ h
      have hlong := Scan.longest hl
      rw [← hscan, ← hl] at hcomment
      rw [← hl] at hrest
      have htile := Tiles.token l htrivia hcomment hlong hrest
      have htext : (splitTrivia .plain cs).1 ++ l.text ++ (Scan.ofChars c rest).rest = cs := by
        rw [List.append_assoc, hl, hscan, happend]
      rw [htokens, ← hl]
      rwa [htext] at htile

/-- A tiling gives the tokens of its text. -/
theorem Tiles.tokensFrom_eq {before cs : List Char} {tokens : List Token} (h : Tiles before cs tokens) :
    errorsFrom (.ofText before) cs = [] ∧ tokensFrom (.ofText before) cs = tokens := by
  induction h with
  | @finish before t ht =>
    have hsplit := splitTrivia_trivia ht (fun _ => rfl) (by simp [StartsComment]) (by simp)
    rw [List.append_nil] at hsplit
    have hrest : (splitTrivia .plain t).2 = [] := by rw [hsplit]
    have hnil := tokensFrom_nil (.ofText before) hrest
    rw [hnil.1, hnil.2, Pos.ofText_append]
    exact ⟨rfl, rfl⟩
  | @token before t rest tokens l ht hcomment hlong hrest ih =>
    obtain ⟨c, cs, htext⟩ := List.exists_cons_of_ne_nil l.text_ne_nil
    have hcons : l.text ++ rest = c :: (cs ++ rest) := by rw [htext, List.cons_append]
    have hsplit : splitTrivia .plain (t ++ l.text ++ rest) = (t, l.text ++ rest) := by
      rw [List.append_assoc]
      refine splitTrivia_trivia ht (fun h => (nomatch h)) hcomment fun d hd => ?_
      rw [hcons] at hd
      obtain rfl := Option.some.inj hd
      exact l.isBlank_head htext
    have hscan := Scan.ofChars_text hlong hcons
    have hsnd : (splitTrivia .plain (t ++ l.text ++ rest)).2 = c :: (cs ++ rest) := by rw [hsplit, hcons]
    obtain ⟨htokens, herrors⟩ := tokensFrom_cons (.ofText before) hsnd (by rw [hscan])
    rw [hsplit, hscan, ← Pos.ofText_append, ← Pos.ofText_append] at htokens herrors
    rw [htokens, herrors, ih.1, ih.2]
    exact ⟨rfl, rfl⟩

/-- **The tokens of a source text tile it**: no character is lost or used twice, every lexeme
is a spelling of its token and the longest at its place, and every token carries the
position of its first character. A text has tokens exactly if it has such a tiling. -/
theorem tokenize_eq_ok_iff (source : String) (tokens : List Token) :
    tokenize source = .ok tokens ↔ Tiles [] source.toList tokens := by
  rw [tokenize_eq_ok, ← Pos.ofText_nil]
  constructor
  · rintro ⟨herrors, rfl⟩
    exact tiles_tokensFrom [] _ herrors
  · intro h
    exact h.tokensFrom_eq

/-! ## Reading back what is written -/

namespace Lexeme

/-- A quoted string ends with its closing quote, whatever follows. -/
theorem longest_quoted (items : List (Char × Bool)) (rest : List Char) : (quoted items).Longest rest := by
  intro m hm
  have htext : (quoted items).text ++ rest = '"' :: (quoteChars items ++ '"' :: rest) := by simp [text]
  rw [htext] at hm
  have hle := (Scan.maximal hm).1
  rwa [Scan.ofChars_of_quote, StringScan.ofChars_quote] at hle

/-- **A blank ends every lexeme.** -/
theorem longest_of_blank (l : Lexeme) {rest : List Char}
    (hrest : ∀ c ∈ rest.head?, Text.isBlank c = true) : l.Longest rest := by
  by_cases hquoted : ∃ items, l = quoted items
  · obtain ⟨items, rfl⟩ := hquoted
    exact longest_quoted items rest
  intro m hm
  by_contra hlt
  obtain ⟨more, hmore⟩ :=
    List.prefix_of_prefix_length_le (List.prefix_append l.text rest) hm (by omega)
  -- a longer lexeme would hold the blank after `l`
  cases more with
  | nil =>
    rw [← hmore] at hlt
    simp at hlt
  | cons d more =>
    have hblank : Text.isBlank d = true := by
      refine hrest d ?_
      rw [← hmore, List.prefix_append_right_inj] at hm
      obtain ⟨tail, rfl⟩ := hm
      rfl
    have hm_quoted : ∃ items, m = quoted items := by
      by_contra hne
      have hchar := char_text (fun items heq => hne ⟨items, heq⟩) d (by rw [← hmore]; simp)
      rw [hblank] at hchar
      cases hchar.1
    obtain ⟨items, rfl⟩ := hm_quoted
    obtain ⟨c, cs, hl⟩ := List.exists_cons_of_ne_nil l.text_ne_nil
    rw [hl] at hmore
    obtain ⟨rfl, -⟩ := List.cons.inj hmore
    exact hquoted (eq_quoted hl)

/-- No comment starts at a lexeme that a blank ends. -/
theorem not_startsComment (l : Lexeme) {rest : List Char}
    (hrest : ∀ c ∈ rest.head?, Text.isBlank c = true) : ¬ StartsComment (l.text ++ rest) := by
  have hmark : ∀ x, x = '/' ∨ x = '*' → ¬ ['/', x] <+: l.text ++ rest := by
    rintro x hx ⟨more, hmore⟩
    have hscan : Scan.ofChars '/' (x :: more) = ⟨['/'], x :: more, .ok (.symbol .slash)⟩ := by
      rcases hx with rfl | rfl <;> rfl
    have hprefix : l.text <+: '/' :: x :: more := ⟨rest, hmore.symm⟩
    have hle := (Scan.maximal hprefix).1
    rw [hscan] at hle
    obtain ⟨c, cs, hl⟩ := List.exists_cons_of_ne_nil l.text_ne_nil
    rw [hl] at hle hmore
    obtain rfl : cs = [] := List.length_eq_zero_iff.1 (by simpa using hle)
    obtain ⟨-, rfl⟩ : '/' = c ∧ x :: more = rest := List.cons.inj hmore
    have hblank : Text.isBlank x = true := hrest x rfl
    obtain ⟨-, hslash, hstar⟩ := isWordPart_of_isBlank hblank
    exact hx.elim hslash hstar
  rintro (h | h)
  · exact hmark '/' (.inl rfl) h
  · exact hmark '*' (.inr rfl) h

end Lexeme

/-- Trivia that starts with a blank, and so separates lexemes. -/
structure Gap where
  first : Char
  more : List Char
  blank : Text.isBlank first = true
  trivia : Trivia false more

def Gap.text (g : Gap) : List Char :=
  g.first :: g.more

/-- Lexemes written one after another. Each is followed by a gap, except that the last may
end the text. -/
structure Script where
  leading : List Char
  trivia : Trivia false leading
  spaced : List (Lexeme × Gap)
  last : Option Lexeme

namespace Script

def lexemes (s : Script) : List Lexeme :=
  s.spaced.map Prod.fst ++ s.last.toList

def text (s : Script) : List Char :=
  s.leading ++ (s.spaced.flatMap (fun p => p.1.text ++ p.2.text) ++ s.last.toList.flatMap Lexeme.text)

/-- A script is a tiling with its own lexemes. -/
theorem exists_tiles (s : Script) (before : List Char) :
    ∃ tokens, Tiles before s.text tokens ∧ tokens.map Token.kind = s.lexemes.map Lexeme.kind ++ [.eof] := by
  obtain ⟨leading, htrivia, spaced, last⟩ := s
  induction spaced generalizing before leading with
  | nil =>
    cases last with
    | none =>
      refine ⟨_, .finish ?_, rfl⟩
      simpa [text] using htrivia.weaken
    | some l =>
      have hnone : ∀ c ∈ ([] : List Char).head?, Text.isBlank c = true := fun c hc => (nomatch hc)
      have hend : Tiles (before ++ leading ++ l.text) [] [⟨.eof, .ofText (before ++ leading ++ l.text ++ [])⟩] :=
        .finish .nil
      have htile := Tiles.token l htrivia (l.not_startsComment hnone) (l.longest_of_blank hnone) hend
      have htext : (Script.mk leading htrivia [] (some l)).text = leading ++ l.text ++ [] := by simp [text]
      rw [htext]
      exact ⟨_, htile, rfl⟩
  | cons p spaced ih =>
    obtain ⟨l, gap⟩ := p
    -- the gap after `l` leads the rest of the script
    obtain ⟨tokens, htiles, hkinds⟩ :=
      ih (before ++ leading ++ l.text) gap.text (.blank gap.blank gap.trivia)
    have hgap : ∀ c ∈ (text ⟨gap.text, .blank gap.blank gap.trivia, spaced, last⟩).head?,
        Text.isBlank c = true := by
      intro c hc
      obtain rfl : gap.first = c := Option.some.inj hc
      exact gap.blank
    have htile := Tiles.token l htrivia (l.not_startsComment hgap) (l.longest_of_blank hgap) htiles
    have htext : (Script.mk leading htrivia ((l, gap) :: spaced) last).text =
        leading ++ l.text ++ text ⟨gap.text, .blank gap.blank gap.trivia, spaced, last⟩ := by simp [text]
    rw [htext]
    refine ⟨_, htile, ?_⟩
    rw [List.map_cons, hkinds]
    rfl

/-- **Lexing undoes writing.** Lexemes with gaps between them are read back, in order and
with the kinds they spell: a numeral with its value, a quoted string as the string. -/
theorem tokenize_text (s : Script) :
    ∃ tokens, tokenize (String.ofList s.text) = .ok tokens ∧
      tokens.map Token.kind = s.lexemes.map Lexeme.kind ++ [.eof] := by
  obtain ⟨tokens, htiles, hkinds⟩ := s.exists_tiles []
  refine ⟨tokens, tokenize_eq_ok.2 ?_, hkinds⟩
  rw [String.toList_ofList]
  exact htiles.tokensFrom_eq

end Script

end DistanceField
