import DistanceField.Token.Lexer
import Mathlib.Data.List.TakeWhile

/-!
# Lexemes

The spellings of tokens, said without the scanner: a lexeme is a symbol, a reserved word, a
name, a numeral or a quoted string, each with its own rule. The scanner takes the longest
lexeme at the start of a text, and where a lexeme stands it finds one.

* `Lexeme`: the lexemes, with their text and the kind of token they spell.
* `Numeral.split_maximal`: no numeral at the start of a text is longer than the one cut off.
* `StringScan.ofChars_quote`: a quoted string is read back as the string.
* `Scan.exists_lexeme`, `Scan.maximal`: what the scanner cuts off is a lexeme, and the longest.
* `Scan.ofChars_text`: a lexeme that is the longest at its place is cut off.
-/

namespace DistanceField

/-! ## The rules of spelling -/

/-- One or more digits. -/
def IsDigits (ds : List Char) : Prop :=
  ds ≠ [] ∧ ∀ c ∈ ds, c.isDigit = true

/-- `e` or `E`, an optional sign, and digits. -/
structure Exponent.WellFormed (e : Exponent) : Prop where
  mark : e.mark = 'e' ∨ e.mark = 'E'
  sign : ∀ c ∈ e.sign, c = '+' ∨ c = '-'
  digits : IsDigits e.digits

/-- Digits, an optional fraction and an optional exponent. -/
structure Numeral.WellFormed (n : Numeral) : Prop where
  whole : IsDigits n.whole
  fraction : ∀ ds ∈ n.fraction, IsDigits ds
  exponent : ∀ e ∈ n.exponent, e.WellFormed

/-- A letter or underscore, and then letters, digits and underscores. -/
def IsWord (w : List Char) : Prop :=
  ∃ c cs, w = c :: cs ∧ isWordStart c = true ∧ ∀ d ∈ cs, isWordPart d = true

def boolSpelling (b : Bool) : String :=
  if b then "true" else "false"

/-- A word that is not reserved. -/
structure IsName (w : List Char) : Prop where
  word : IsWord w
  notKeyword : ∀ k : Keyword, k.spelling.toList ≠ w
  notBool : ∀ b, (boolSpelling b).toList ≠ w

/-- How a character is written inside quotes. A backslash, a quote and a newline have to be
escaped; a tab may be. -/
def quoteChar (c : Char) (escapeTab : Bool) : List Char :=
  if c = '\\' then ['\\', '\\']
  else if c = '"' then ['\\', '"']
  else if c = '\n' then ['\\', 'n']
  else if c = '\t' ∧ escapeTab = true then ['\\', 't']
  else [c]

/-- The characters of a string, each with the choice made for a tab. -/
def quoteChars (cs : List (Char × Bool)) : List Char :=
  cs.flatMap fun c => quoteChar c.1 c.2

/-- **A lexeme.** Every string can be quoted; the tabs in it may be escaped or not. -/
inductive Lexeme where
  | symbol (s : Symbol)
  | keyword (k : Keyword)
  | bool (b : Bool)
  | name (w : List Char) (h : IsName w)
  | numeral (n : Numeral) (h : n.WellFormed)
  | quoted (cs : List (Char × Bool))

namespace Lexeme

def text : Lexeme → List Char
  | symbol s => s.spelling
  | keyword k => k.spelling.toList
  | bool b => (boolSpelling b).toList
  | name w _ => w
  | numeral n _ => n.text
  | quoted cs => '"' :: quoteChars cs ++ ['"']

/-- The kind of token that the lexeme spells. -/
def kind : Lexeme → Kind
  | symbol s => .symbol s
  | keyword k => .word k
  | bool b => .bool b
  | name w _ => .ident (String.ofList w)
  | numeral n _ => .num n.value
  | quoted cs => .str (String.ofList (cs.map Prod.fst))

/-- No lexeme at the same place is longer, if `rest` follows. -/
def Longest (l : Lexeme) (rest : List Char) : Prop :=
  ∀ m : Lexeme, m.text <+: l.text ++ rest → m.text.length ≤ l.text.length

end Lexeme

/-! ## Numerals -/

theorem takeWhile_eq_of_head {p : Char → Bool} {cs : List Char} (h : cs.head?.any p = false) :
    cs.takeWhile p = [] ∧ cs.dropWhile p = cs := by
  cases cs with
  | nil => exact ⟨rfl, rfl⟩
  | cons c cs =>
    have hc : p c = false := by simpa using h
    simp [hc]

/-- A digit is no sign, no point, and starts neither an exponent nor a word. -/
theorem isDigit_ne {c : Char} (h : c.isDigit = true) {d : Char} (hd : d.isDigit = false) : c ≠ d := by
  rintro rfl
  rw [h] at hd
  cases hd

/-- An exponent starts with no digit and no point. -/
theorem Exponent.WellFormed.head_text {e : Exponent} (h : e.WellFormed) (rest : List Char) :
    (e.text ++ rest).head?.any Char.isDigit = false ∧ (e.text ++ rest).head? ≠ some '.' := by
  have hhead : (e.text ++ rest).head? = some e.mark := rfl
  rw [hhead]
  rcases h.mark with hmark | hmark <;> rw [hmark] <;> decide

namespace Numeral

theorem splitFraction_digits {ds : List Char} (h : IsDigits ds) (rest : List Char) :
    splitFraction ('.' :: (ds ++ rest)) =
      (some (ds ++ rest.takeWhile Char.isDigit), rest.dropWhile Char.isDigit) := by
  obtain ⟨hne, hdigits⟩ := h
  obtain ⟨d, ds, rfl⟩ := List.exists_cons_of_ne_nil hne
  have hd : d.isDigit = true := hdigits d List.mem_cons_self
  have hds : ∀ c ∈ ds, c.isDigit = true := fun c hc => hdigits c (List.mem_cons_of_mem _ hc)
  simp only [List.cons_append, splitFraction, hd, if_true, List.takeWhile_append_of_pos hds,
    List.dropWhile_append_of_pos hds]

theorem splitExponent_text {e : Exponent} (h : e.WellFormed) (rest : List Char) :
    splitExponent (e.text ++ rest) =
      (some { e with digits := e.digits ++ rest.takeWhile Char.isDigit }, rest.dropWhile Char.isDigit) := by
  obtain ⟨mark, sign, digits⟩ := e
  obtain ⟨hmark, hsign, hne, hdigits⟩ := h
  dsimp only at hmark hsign hne hdigits
  have hmark' : (mark == 'e' || mark == 'E') = true := by simpa using hmark
  have htake : (digits ++ rest).takeWhile Char.isDigit = digits ++ rest.takeWhile Char.isDigit :=
    List.takeWhile_append_of_pos hdigits
  have hdrop : (digits ++ rest).dropWhile Char.isDigit = rest.dropWhile Char.isDigit :=
    List.dropWhile_append_of_pos hdigits
  obtain ⟨d, ds, rfl⟩ := List.exists_cons_of_ne_nil hne
  have hd : d.isDigit = true := hdigits d List.mem_cons_self
  rw [List.cons_append] at htake hdrop
  cases sign with
  | none =>
    have hplus : d ≠ '+' := isDigit_ne hd (by decide)
    have hminus : d ≠ '-' := isDigit_ne hd (by decide)
    simp only [Exponent.text, splitExponent, hmark', hd, htake, hdrop, Option.toList,
      List.cons_append, List.nil_append, Bool.or_self, beq_eq_false_iff_ne.2 hplus,
      beq_eq_false_iff_ne.2 hminus, if_true, Bool.false_eq_true, if_false]
  | some c =>
    have hc : (c == '+' || c == '-') = true := by simpa using hsign c rfl
    simp only [Exponent.text, splitExponent, hmark', hc, hd, htake, hdrop, Option.toList,
      List.cons_append, List.nil_append, if_true, List.head?_cons, Option.any_some]

theorem WellFormed.exists_cons {n : Numeral} (h : n.WellFormed) :
    ∃ d ds, n.text = d :: ds ∧ d.isDigit = true := by
  obtain ⟨hne, hdigits⟩ := h.whole
  obtain ⟨d, ds, hwhole⟩ := List.exists_cons_of_ne_nil hne
  have hd : d.isDigit = true := hdigits d (hwhole ▸ List.mem_cons_self)
  rw [text, hwhole, List.cons_append, List.cons_append]
  exact ⟨d, _, rfl, hd⟩

theorem splitFraction_of_ne {cs : List Char} (h : cs.head? ≠ some '.') : splitFraction cs = (none, cs) := by
  unfold splitFraction
  split
  · exact absurd rfl h
  · rfl

/-- After the whole part of a numeral the parts are read one after another. -/
theorem split_whole {w tail : List Char} (hw : IsDigits w) (ht : tail.head?.any Char.isDigit = false) :
    split (w ++ tail) =
      (⟨w, (splitFraction tail).1, (splitExponent (splitFraction tail).2).1⟩,
        (splitExponent (splitFraction tail).2).2) := by
  obtain ⟨htake, hdrop⟩ := takeWhile_eq_of_head ht
  simp only [split, List.takeWhile_append_of_pos hw.2, List.dropWhile_append_of_pos hw.2, htake, hdrop,
    List.append_nil]

/-- **A numeral is cut off whole**, and with it no more than further digits if it has an
exponent. -/
theorem split_text_exponent {n : Numeral} (h : n.WellFormed) {e : Exponent} (he : n.exponent = some e)
    (rest : List Char) :
    split (n.text ++ rest) =
      ({ n with exponent := some { e with digits := e.digits ++ rest.takeWhile Char.isDigit } },
        rest.dropWhile Char.isDigit) := by
  obtain ⟨whole, fraction, exponent⟩ := n
  obtain ⟨hwhole, hfraction, hexponent⟩ := h
  dsimp only at he hwhole hfraction hexponent
  subst he
  have hwf := hexponent e rfl
  obtain ⟨hdigit, hpoint⟩ := hwf.head_text rest
  cases fraction with
  | none =>
    have htext : (Numeral.mk whole none (some e)).text ++ rest = whole ++ (e.text ++ rest) := by
      simp [text]
    rw [htext, split_whole hwhole hdigit, splitFraction_of_ne hpoint]
    dsimp only
    rw [splitExponent_text hwf]
  | some ds =>
    have htext : (Numeral.mk whole (some ds) (some e)).text ++ rest =
        whole ++ '.' :: (ds ++ (e.text ++ rest)) := by
      simp [text]
    obtain ⟨htake, hdrop⟩ := takeWhile_eq_of_head hdigit
    rw [htext, split_whole hwhole rfl, splitFraction_digits (hfraction ds rfl), htake, hdrop]
    dsimp only
    rw [splitExponent_text hwf, List.append_nil]

theorem split_text_fraction {n : Numeral} (h : n.WellFormed) {ds : List Char} (hf : n.fraction = some ds)
    (he : n.exponent = none) (rest : List Char) :
    split (n.text ++ rest) =
      ({ n with
          fraction := some (ds ++ rest.takeWhile Char.isDigit)
          exponent := (splitExponent (rest.dropWhile Char.isDigit)).1 },
        (splitExponent (rest.dropWhile Char.isDigit)).2) := by
  obtain ⟨whole, fraction, exponent⟩ := n
  dsimp only at hf he
  subst hf he
  have htext : (Numeral.mk whole (some ds) none).text ++ rest = whole ++ '.' :: (ds ++ rest) := by
    simp [text]
  rw [htext, split_whole h.whole rfl, splitFraction_digits (h.fraction ds rfl)]

/-- **No numeral at the start of a text is longer than the one that is cut off.** -/
theorem split_maximal {n : Numeral} (h : n.WellFormed) (rest : List Char) :
    n.text.length ≤ (split (n.text ++ rest)).1.text.length := by
  cases he : n.exponent with
  | some e =>
    rw [split_text_exponent h he]
    simp only [text, he, Option.map_some, Option.getD_some, List.length_append, Exponent.text,
      List.length_cons]
    omega
  | none =>
    cases hf : n.fraction with
    | some ds =>
      rw [split_text_fraction h hf he]
      simp only [text, hf, he, Option.map_some, Option.map_none, Option.getD_some, Option.getD_none,
        List.length_append, List.length_cons, List.length_nil]
      omega
    | none =>
      have htext : n.text = n.whole := by simp [text, hf, he]
      rw [htext]
      simp only [split, text, List.takeWhile_append_of_pos h.whole.2, List.length_append]
      omega

theorem split_text {n : Numeral} (h : n.WellFormed) : split n.text = (n, []) := by
  obtain ⟨whole, fraction, exponent⟩ := n
  have hnil : split (Numeral.mk whole fraction exponent).text =
      split ((Numeral.mk whole fraction exponent).text ++ []) := by rw [List.append_nil]
  rw [hnil]
  cases exponent with
  | some e =>
    rw [split_text_exponent h rfl]
    simp
  | none =>
    cases fraction with
    | some ds =>
      rw [split_text_fraction h rfl rfl]
      simp [splitExponent]
    | none =>
      have htext : (Numeral.mk whole none none).text = whole := by simp [text]
      rw [htext, split_whole h.whole rfl]
      rfl

theorem isDigits_takeWhile {c : Char} (hc : c.isDigit = true) (cs : List Char) :
    IsDigits (c :: cs.takeWhile Char.isDigit) := by
  refine ⟨List.cons_ne_nil _ _, List.forall_mem_cons.2 ⟨hc, ?_⟩⟩
  intro d hd
  exact List.mem_takeWhile_imp hd

theorem splitFraction_isDigits {cs ds : List Char} (h : (splitFraction cs).1 = some ds) : IsDigits ds := by
  unfold splitFraction at h
  split at h
  · split at h
    · next hc =>
      obtain rfl := Option.some.inj h
      exact isDigits_takeWhile hc _
    · cases h
  · cases h

theorem splitExponent_wellFormed {cs : List Char} {e : Exponent} (h : (splitExponent cs).1 = some e) :
    e.WellFormed := by
  unfold splitExponent at h
  split at h
  · cases h
  · split at h
    · next mark cs hmark =>
      have hmark' : mark = 'e' ∨ mark = 'E' := by simpa using hmark
      split at h
      · cases h
      · next c cs =>
        split at h
        · next hsign =>
          have hsign' : c = '+' ∨ c = '-' := by simpa using hsign
          split at h
          · next hdigit =>
            obtain rfl := Option.some.inj h
            obtain ⟨d, ds, rfl⟩ : ∃ d ds, cs = d :: ds := by
              cases cs with
              | nil => cases hdigit
              | cons d ds => exact ⟨d, ds, rfl⟩
            have hd : d.isDigit = true := hdigit
            refine ⟨hmark', fun x hx => (Option.some.inj hx) ▸ hsign', ?_⟩
            simp only [List.takeWhile_cons, hd, if_true]
            exact isDigits_takeWhile hd ds
          · cases h
        · split at h
          · next hd =>
            obtain rfl := Option.some.inj h
            refine ⟨hmark', fun x hx => (nomatch hx), ?_⟩
            simp only [List.takeWhile_cons, hd, if_true]
            exact isDigits_takeWhile hd cs
          · cases h
    · cases h

/-- What is cut off a text that starts with a digit is a numeral. -/
theorem split_wellFormed {c : Char} (hc : c.isDigit = true) (cs : List Char) :
    (split (c :: cs)).1.WellFormed := by
  refine ⟨?_, fun ds hds => splitFraction_isDigits hds, fun e he => splitExponent_wellFormed he⟩
  simp only [split, List.takeWhile_cons, hc, if_true]
  exact isDigits_takeWhile hc cs

end Numeral

/-! ## Words -/

theorem isWordPart_of_isWordStart {c : Char} (h : isWordStart c = true) : isWordPart c = true := by
  simp only [isWordStart, isWordPart, Char.isAlphanum, Bool.or_eq_true] at h ⊢
  rcases h with h | h <;> simp [h]

/-- Blanks are no part of words, and no mark of a comment. -/
theorem isWordPart_of_isBlank {c : Char} (h : Text.isBlank c = true) :
    isWordPart c = false ∧ c ≠ '/' ∧ c ≠ '*' := by
  have hall : ∀ n ∈ Text.blanks,
      isWordPart (Char.ofNat n) = false ∧ Char.ofNat n ≠ '/' ∧ Char.ofNat n ≠ '*' := by decide
  have hc := hall c.toNat (List.contains_iff_mem.1 h)
  rwa [Char.ofNat_toNat] at hc

theorem isBlank_of_isWordPart {c : Char} (h : isWordPart c = true) : Text.isBlank c = false := by
  by_contra hblank
  have hnot := (isWordPart_of_isBlank (Bool.not_eq_false _ ▸ hblank)).1
  rw [h] at hnot
  cases hnot

/-- Letters and the underscore come after the digits. -/
theorem isDigit_eq_false_of_isWordStart {c : Char} (h : isWordStart c = true) : c.isDigit = false := by
  have hletters : (decide ('A'.val ≤ c.val ∧ c.val ≤ 'Z'.val) ||
      (decide ('a'.val ≤ c.val) && decide (c.val ≤ 'z'.val)) || c == '_') = true := h
  simp only [Bool.or_eq_true, Bool.and_eq_true, decide_eq_true_eq, beq_iff_eq] at hletters
  have hafter : ¬ c.val ≤ '9'.val := by
    rw [UInt32.le_iff_toNat_le]
    rcases hletters with (h | h) | rfl
    · have hle : 65 ≤ c.val.toNat := UInt32.le_iff_toNat_le.1 h.1
      have hnine : '9'.val.toNat = 57 := rfl
      omega
    · have hle : 97 ≤ c.val.toNat := UInt32.le_iff_toNat_le.1 h.1
      have hnine : '9'.val.toNat = 57 := rfl
      omega
    · decide
  exact Bool.and_eq_false_iff.2 (.inr (decide_eq_false hafter))

theorem IsWord.isWordPart {w : List Char} (h : IsWord w) : ∀ c ∈ w, isWordPart c = true := by
  obtain ⟨c, cs, rfl, hc, hcs⟩ := h
  exact List.forall_mem_cons.2 ⟨isWordPart_of_isWordStart hc, hcs⟩

theorem isWord_takeWhile {c : Char} (hc : isWordStart c = true) (cs : List Char) :
    IsWord ((c :: cs).takeWhile isWordPart) := by
  refine ⟨c, cs.takeWhile isWordPart, ?_, hc, fun d hd => List.mem_takeWhile_imp hd⟩
  rw [List.takeWhile_cons, if_pos (isWordPart_of_isWordStart hc)]

theorem Keyword.isWord (k : Keyword) : IsWord k.spelling.toList := by
  cases k <;> exact ⟨_, _, rfl, rfl, List.all_eq_true.1 rfl⟩

theorem isWord_boolSpelling (b : Bool) : IsWord (boolSpelling b).toList := by
  cases b <;> exact ⟨_, _, rfl, rfl, List.all_eq_true.1 rfl⟩

theorem Kind.ofWord_keyword (k : Keyword) : Kind.ofWord (String.ofList k.spelling.toList) = .word k := by
  cases k <;> rfl

theorem Kind.ofWord_boolSpelling (b : Bool) :
    Kind.ofWord (String.ofList (boolSpelling b).toList) = .bool b := by
  cases b <;> rfl

theorem Kind.ofWord_name {w : List Char} (h : IsName w) :
    Kind.ofWord (String.ofList w) = .ident (String.ofList w) := by
  have hne : ∀ text : String, text.toList ≠ w → String.ofList w ≠ text := by
    rintro text htext rfl
    exact htext String.toList_ofList
  have htrue : String.ofList w ≠ "true" := hne _ (h.notBool true)
  have hfalse : String.ofList w ≠ "false" := hne _ (h.notBool false)
  have hkeyword : Keyword.ofText? (String.ofList w) = none := by
    refine List.find?_eq_none.2 fun k _ => ?_
    have hk := hne _ (h.notKeyword k)
    simpa using Ne.symm hk
  simp [Kind.ofWord, Kind.reserved?, htrue, hfalse, hkeyword]

/-- Every word is a lexeme: it is reserved, or a name. -/
theorem Lexeme.exists_of_isWord {w : List Char} (h : IsWord w) :
    ∃ l : Lexeme, l.text = w ∧ l.kind = Kind.ofWord (String.ofList w) := by
  by_cases hkeyword : ∃ k : Keyword, k.spelling.toList = w
  · obtain ⟨k, rfl⟩ := hkeyword
    exact ⟨.keyword k, rfl, (Kind.ofWord_keyword k).symm⟩
  by_cases hbool : ∃ b, (boolSpelling b).toList = w
  · obtain ⟨b, rfl⟩ := hbool
    exact ⟨.bool b, rfl, (Kind.ofWord_boolSpelling b).symm⟩
  have hname : IsName w := ⟨h, fun k hk => hkeyword ⟨k, hk⟩, fun b hb => hbool ⟨b, hb⟩⟩
  exact ⟨.name w hname, rfl, (Kind.ofWord_name hname).symm⟩

theorem Numeral.WellFormed.char_text {n : Numeral} (h : n.WellFormed) :
    ∀ c ∈ n.text, Text.isBlank c = false ∧ c ≠ '"' := by
  have digit : ∀ c : Char, c.isDigit = true → Text.isBlank c = false ∧ c ≠ '"' := by
    intro c hc
    refine ⟨isBlank_of_isWordPart ?_, isDigit_ne hc (by decide)⟩
    simp [isWordPart, Char.isAlphanum, hc]
  intro c hc
  rw [text, List.mem_append, List.mem_append] at hc
  rcases hc with (hc | hc) | hc
  · exact digit c (h.whole.2 c hc)
  · cases hf : n.fraction with
    | none => rw [hf] at hc; cases hc
    | some ds =>
      rw [hf] at hc
      rcases List.mem_cons.1 hc with rfl | hc
      · decide
      · exact digit c ((h.fraction ds hf).2 c hc)
  · cases he : n.exponent with
    | none => rw [he] at hc; cases hc
    | some e =>
      rw [he] at hc
      have hwf := h.exponent e he
      rcases List.mem_cons.1 hc with rfl | hc
      · rcases hwf.mark with hmark | hmark <;> rw [hmark] <;> decide
      rcases List.mem_append.1 hc with hc | hc
      · rcases hwf.sign c (Option.mem_toList.1 hc) with rfl | rfl <;> decide
      · exact digit c (hwf.digits.2 c hc)

/-! ## Quoted strings -/

namespace StringScan

/-- **A quoted string is read back**: the scan ends at the closing quote, whatever follows. -/
theorem ofChars_quote (cs : List (Char × Bool)) (rest : List Char) :
    ofChars (quoteChars cs ++ '"' :: rest) =
      ⟨quoteChars cs ++ ['"'], rest, cs.map Prod.fst, true, none⟩ := by
  induction cs with
  | nil => rfl
  | cons c cs ih =>
    obtain ⟨c, escapeTab⟩ := c
    have happend : quoteChars ((c, escapeTab) :: cs) ++ '"' :: rest =
        quoteChar c escapeTab ++ (quoteChars cs ++ '"' :: rest) := by
      simp [quoteChars]
    have hcons : quoteChars ((c, escapeTab) :: cs) = quoteChar c escapeTab ++ quoteChars cs := by
      simp [quoteChars]
    rw [happend, hcons]
    generalize hcs : quoteChars cs ++ '"' :: rest = text at ih ⊢
    unfold quoteChar
    split_ifs with hbackslash hquote hnewline htab
    · simp [ofChars, unescape?, ih, push, hbackslash]
    · simp [ofChars, unescape?, ih, push, hquote]
    · simp [ofChars, unescape?, ih, push, hnewline]
    · simp [ofChars, unescape?, ih, push, htab.1]
    · rw [List.singleton_append, ofChars.eq_7 c text hnewline hquote (fun h => absurd h hbackslash)
        (fun _ h => absurd h hbackslash) (fun _ _ h => absurd h hbackslash), ih]
      simp [push]

theorem quoteChar_of_unescape {c d : Char} (h : unescape? c = some d) : quoteChar d true = ['\\', c] := by
  unfold unescape? at h
  split at h <;> cases h <;> rfl

/-- A string that closes and has no unknown escape is a quoted string. -/
theorem exists_quote {cs : List Char} (hclosed : (ofChars cs).closed = true)
    (hunknown : (ofChars cs).unknown = none) :
    ∃ items, (ofChars cs).lexeme = quoteChars items ++ ['"'] ∧
      (ofChars cs).value = items.map Prod.fst := by
  fun_induction ofChars cs with
  | case1 => cases hclosed
  | case2 cs => cases hclosed
  | case3 cs => exact ⟨[], rfl, rfl⟩
  | case4 => cases hclosed
  | case5 cs => cases hclosed
  | case6 c cs hnewline d hd ih =>
    obtain ⟨items, hlexeme, hvalue⟩ := ih hclosed (Option.map_eq_none_iff.1 hunknown)
    refine ⟨(d, true) :: items, ?_, ?_⟩
    · simp [push, hlexeme, quoteChars, quoteChar_of_unescape hd]
    · simp [push, hvalue]
  | case7 c cs hnewline hnone ih => cases hunknown
  | case8 c cs hnewline hquote hlast _ hescape ih =>
    have hbackslash : c ≠ '\\' := by
      intro hc
      cases cs with
      | nil => exact hlast hc rfl
      | cons d ds => exact hescape d ds hc rfl
    obtain ⟨items, hlexeme, hvalue⟩ := ih hclosed (Option.map_eq_none_iff.1 hunknown)
    have hplain : quoteChar c false = [c] := by
      rw [quoteChar, if_neg hbackslash, if_neg hquote, if_neg hnewline, if_neg (by simp)]
    refine ⟨(c, false) :: items, ?_, ?_⟩
    · simp [push, hlexeme, quoteChars, hplain]
    · simp [push, hvalue]

theorem reading_eq_ok {s : StringScan} {k : Kind} (h : s.reading = .ok k) :
    s.closed = true ∧ s.unknown = none ∧ k = .str (String.ofList s.value) := by
  unfold reading at h
  split at h
  · next hclosed =>
    split at h
    · cases h
    · next hunknown =>
      cases h
      exact ⟨hclosed, hunknown, rfl⟩
  · cases h

end StringScan

/-! ## Symbols -/

namespace Symbol

theorem ofSpelling?_spelling (s : Symbol) : ofSpelling? s.spelling = some s := by
  cases s <;> rfl

/-- A symbol has one character or two. -/
theorem spelling_cases (s : Symbol) : (∃ a, s.spelling = [a]) ∨ ∃ a b, s.spelling = [a, b] := by
  cases s with
  | eqEq | bangEq | ltEq | gtEq | arrow => exact .inr ⟨_, _, rfl⟩
  | _ => exact .inl ⟨_, rfl⟩

/-- The characters of symbols stand in no other lexeme outside of quotes, and are not blank. -/
theorem char_spelling (s : Symbol) : ∀ c ∈ s.spelling,
    c.isDigit = false ∧ isWordPart c = false ∧ c ≠ '"' ∧ Text.isBlank c = false := by
  have hall : s.spelling.all (fun c => !c.isDigit && !isWordPart c && c != '"' && !Text.isBlank c) := by
    cases s <;> rfl
  intro c hc
  have hchar := List.all_eq_true.1 hall c hc
  simpa [and_assoc] using hchar

theorem ofChars?_eq_none {c : Char} (h : ∀ s : Symbol, c ∉ s.spelling) (cs : List Char) :
    ofChars? (c :: cs) = none := by
  cases hs : ofChars? (c :: cs) with
  | none => rfl
  | some s =>
    have happend := spelling_append_drop hs
    obtain ⟨a, as, has⟩ := List.exists_cons_of_ne_nil s.spelling_ne_nil
    rw [has, List.cons_append] at happend
    obtain rfl : a = c := (List.cons.inj happend).1
    exact absurd (has ▸ List.mem_cons_self) (h s)

/-- **No symbol at the start of a text is longer than the one that is recognised.** -/
theorem ofChars?_maximal {s : Symbol} {cs : List Char} (h : s.spelling <+: cs) :
    ∃ t, ofChars? cs = some t ∧ s.spelling.length ≤ t.spelling.length := by
  obtain ⟨rest, rfl⟩ := h
  have hs := ofSpelling?_spelling s
  rcases spelling_cases s with ⟨a, ha⟩ | ⟨a, b, hab⟩
  · rw [ha] at hs ⊢
    cases rest with
    | nil => exact ⟨s, hs, by rw [ha]⟩
    | cons d rest =>
      cases hpair : ofSpelling? [a, d] with
      | none => exact ⟨s, by simp [ofChars?, hpair, hs], by rw [ha]⟩
      | some t =>
        refine ⟨t, by simp [ofChars?, hpair], ?_⟩
        rw [ofSpelling?_eq_some hpair]
        exact Nat.le_succ _
  · rw [hab] at hs ⊢
    exact ⟨s, by simp [ofChars?, hs], by rw [hab]⟩

end Symbol

/-! ## The scanner -/

namespace Scan

theorem ofChars_of_symbol {c : Char} {cs : List Char} {s : Symbol} (h : Symbol.ofChars? (c :: cs) = some s) :
    ofChars c cs = ⟨s.spelling, (c :: cs).drop s.spelling.length, .ok (.symbol s)⟩ := by
  have htake : (c :: cs).take s.spelling.length = s.spelling := by
    conv => lhs; rw [← Symbol.spelling_append_drop h]
    exact List.take_left
  simp only [ofChars, h, htake]

theorem ofChars_of_quote (cs : List Char) :
    ofChars '"' cs =
      ⟨'"' :: (StringScan.ofChars cs).lexeme, (StringScan.ofChars cs).rest, (StringScan.ofChars cs).reading⟩ := by
  have hnone : Symbol.ofChars? ('"' :: cs) = none :=
    Symbol.ofChars?_eq_none (fun s hs => (s.char_spelling _ hs).2.2.1 rfl) cs
  simp only [ofChars, hnone, if_true]

theorem ofChars_of_digit {c : Char} (hc : c.isDigit = true) (cs : List Char) :
    ofChars c cs =
      ⟨(Numeral.split (c :: cs)).1.text, (Numeral.split (c :: cs)).2,
        .ok (.num (Numeral.split (c :: cs)).1.value)⟩ := by
  have hnone : Symbol.ofChars? (c :: cs) = none := by
    refine Symbol.ofChars?_eq_none (fun s hs => ?_) cs
    have hnot := (s.char_spelling _ hs).1
    rw [hc] at hnot
    cases hnot
  have hquote : c ≠ '"' := isDigit_ne hc (by decide)
  simp only [ofChars, hnone, hquote, hc, if_true, if_false]

theorem ofChars_of_word {c : Char} (hc : isWordStart c = true) (cs : List Char) :
    ofChars c cs =
      ⟨(c :: cs).takeWhile isWordPart, (c :: cs).dropWhile isWordPart,
        .ok (Kind.ofWord (String.ofList ((c :: cs).takeWhile isWordPart)))⟩ := by
  have hnone : Symbol.ofChars? (c :: cs) = none := by
    refine Symbol.ofChars?_eq_none (fun s hs => ?_) cs
    have hnot := (s.char_spelling _ hs).2.1
    rw [isWordPart_of_isWordStart hc] at hnot
    cases hnot
  have hquote : c ≠ '"' := by
    rintro rfl
    revert hc
    decide
  have hdigit := isDigit_eq_false_of_isWordStart hc
  simp only [ofChars, hnone, hquote, hdigit, hc, if_true, if_false, Bool.false_eq_true]

/-- **What the scanner reads is a lexeme.** -/
theorem exists_lexeme {c : Char} {cs : List Char} {k : Kind} (h : (ofChars c cs).reading = .ok k) :
    ∃ l : Lexeme, l.text = (ofChars c cs).lexeme ∧ l.kind = k := by
  cases hs : Symbol.ofChars? (c :: cs) with
  | some s =>
    rw [ofChars_of_symbol hs] at h ⊢
    exact ⟨.symbol s, rfl, Except.ok.inj h⟩
  | none =>
    by_cases hquote : c = '"'
    · subst hquote
      rw [ofChars_of_quote] at h ⊢
      obtain ⟨hclosed, hunknown, rfl⟩ := StringScan.reading_eq_ok h
      obtain ⟨items, hlexeme, hvalue⟩ := StringScan.exists_quote hclosed hunknown
      refine ⟨.quoted items, ?_, ?_⟩
      · simp [Lexeme.text, hlexeme]
      · simp [Lexeme.kind, hvalue]
    by_cases hdigit : c.isDigit = true
    · rw [ofChars_of_digit hdigit] at h ⊢
      exact ⟨.numeral _ (Numeral.split_wellFormed hdigit cs), rfl, Except.ok.inj h⟩
    by_cases hword : isWordStart c = true
    · rw [ofChars_of_word hword] at h ⊢
      obtain ⟨l, hl, hkind⟩ := Lexeme.exists_of_isWord (isWord_takeWhile hword cs)
      exact ⟨l, hl, hkind.trans (Except.ok.inj h)⟩
    simp only [ofChars, hs, hquote, hdigit, hword, if_false, Bool.false_eq_true] at h
    split at h <;> cases h

/-- A word at the start of a text is part of the word that the scanner cuts off. -/
theorem word_maximal {c : Char} {cs w : List Char} (hw : IsWord w) (h : w <+: c :: cs) :
    w.length ≤ (ofChars c cs).lexeme.length ∧ ∃ k, (ofChars c cs).reading = .ok k := by
  have hall := hw.isWordPart
  obtain ⟨d, ds, rfl, hstart, -⟩ := hw
  obtain ⟨rest, hrest⟩ := h
  obtain rfl : d = c := (List.cons.inj hrest).1
  rw [ofChars_of_word hstart, ← hrest]
  refine ⟨?_, _, rfl⟩
  rw [List.takeWhile_append_of_pos hall, List.length_append]
  omega

/-- **Where a lexeme stands the scanner reads one**, and none is longer. -/
theorem maximal {c : Char} {cs : List Char} {m : Lexeme} (h : m.text <+: c :: cs) :
    m.text.length ≤ (ofChars c cs).lexeme.length ∧ ∃ k, (ofChars c cs).reading = .ok k := by
  cases m with
  | symbol s =>
    obtain ⟨t, ht, hle⟩ := Symbol.ofChars?_maximal h
    rw [ofChars_of_symbol ht]
    exact ⟨hle, _, rfl⟩
  | keyword k => exact word_maximal k.isWord h
  | bool b => exact word_maximal (isWord_boolSpelling b) h
  | name w hw => exact word_maximal hw.word h
  | numeral n hn =>
    obtain ⟨rest, hrest⟩ := h
    have hdigit : c.isDigit = true := by
      obtain ⟨d, ds, htext, hd⟩ := hn.exists_cons
      rw [Lexeme.text, htext, List.cons_append] at hrest
      rwa [← (List.cons.inj hrest).1]
    rw [ofChars_of_digit hdigit, ← hrest]
    exact ⟨Numeral.split_maximal hn rest, _, rfl⟩
  | quoted items =>
    obtain ⟨rest, hrest⟩ := h
    have hcons : (Lexeme.quoted items).text ++ rest = '"' :: (quoteChars items ++ '"' :: rest) := by
      simp [Lexeme.text]
    rw [hcons] at hrest
    obtain ⟨rfl, rfl⟩ := List.cons.inj hrest
    rw [ofChars_of_quote, StringScan.ofChars_quote]
    exact ⟨Nat.le_refl _, _, rfl⟩

end Scan

namespace Lexeme

/-- A lexeme on its own reads as the kind it spells. -/
theorem reading_text {l : Lexeme} {c : Char} {cs : List Char} (h : l.text = c :: cs) :
    (Scan.ofChars c cs).reading = .ok l.kind := by
  have word : ∀ w, IsWord w → w = c :: cs →
      (Scan.ofChars c cs).reading = .ok (Kind.ofWord (String.ofList w)) := by
    rintro w hw rfl
    have hall := List.takeWhile_eq_self_iff.2 hw.isWordPart
    obtain ⟨d, ds, hds, hstart, -⟩ := hw
    obtain rfl := (List.cons.inj hds).1
    rw [Scan.ofChars_of_word hstart, hall]
  cases l with
  | symbol s =>
    have hs : Symbol.ofChars? (c :: cs) = some s := by
      rw [← h]
      cases s <;> rfl
    rw [Scan.ofChars_of_symbol hs]
    rfl
  | keyword k => rw [word _ k.isWord h, Kind.ofWord_keyword]; rfl
  | bool b => rw [word _ (isWord_boolSpelling b) h, Kind.ofWord_boolSpelling]; rfl
  | name w hw => rw [word w hw.word h, Kind.ofWord_name hw]; rfl
  | numeral n hn =>
    obtain ⟨d, ds, htext, hd⟩ := hn.exists_cons
    have hsplit := Numeral.split_text hn
    rw [htext] at hsplit
    obtain ⟨rfl, rfl⟩ := List.cons.inj (htext.symm.trans h)
    rw [Scan.ofChars_of_digit hd, hsplit]
    rfl
  | quoted items =>
    obtain ⟨rfl, rfl⟩ := List.cons.inj h
    have hscan := StringScan.ofChars_quote items []
    rw [Scan.ofChars_of_quote]
    change (StringScan.ofChars (quoteChars items ++ ['"'])).reading = _
    rw [hscan]
    rfl

theorem text_ne_nil (l : Lexeme) : l.text ≠ [] := by
  cases l with
  | symbol s => exact s.spelling_ne_nil
  | keyword k =>
    obtain ⟨c, cs, h, -⟩ := k.isWord
    simp [text, h]
  | bool b =>
    obtain ⟨c, cs, h, -⟩ := isWord_boolSpelling b
    simp [text, h]
  | name w hw =>
    obtain ⟨c, cs, rfl, -⟩ := hw.word
    exact List.cons_ne_nil _ _
  | numeral n hn =>
    obtain ⟨c, cs, h, -⟩ := hn.exists_cons
    simp [text, h]
  | quoted items => exact List.cons_ne_nil _ _

/-- Outside of quotes a lexeme has no blank and no quote. -/
theorem char_text {l : Lexeme} (h : ∀ items, l ≠ quoted items) :
    ∀ c ∈ l.text, Text.isBlank c = false ∧ c ≠ '"' := by
  have word : ∀ w, IsWord w → ∀ c ∈ w, Text.isBlank c = false ∧ c ≠ '"' := by
    intro w hw c hc
    have hpart := hw.isWordPart c hc
    refine ⟨isBlank_of_isWordPart hpart, ?_⟩
    rintro rfl
    revert hpart
    decide
  cases l with
  | symbol s => exact fun c hc => (s.char_spelling c hc).2.2.symm
  | keyword k => exact word _ k.isWord
  | bool b => exact word _ (isWord_boolSpelling b)
  | name w hw => exact word w hw.word
  | numeral n hn => exact fun c hc => hn.char_text c hc
  | quoted items => exact absurd rfl (h items)

/-- Only a quoted string starts with a quote. -/
theorem eq_quoted {l : Lexeme} {cs : List Char} (h : l.text = '"' :: cs) : ∃ items, l = quoted items := by
  by_contra hne
  have hchar := char_text (fun items heq => hne ⟨items, heq⟩) '"' (h ▸ List.mem_cons_self)
  exact hchar.2 rfl

/-- A lexeme does not start with a blank. -/
theorem isBlank_head (l : Lexeme) {c : Char} {cs : List Char} (h : l.text = c :: cs) :
    Text.isBlank c = false := by
  by_cases hquoted : ∃ items, l = quoted items
  · obtain ⟨items, rfl⟩ := hquoted
    obtain ⟨rfl, -⟩ := List.cons.inj h
    decide
  · exact (char_text (fun items heq => hquoted ⟨items, heq⟩) c (h ▸ List.mem_cons_self)).1

/-- A text spells at most one kind. -/
theorem kind_eq_of_text_eq {l m : Lexeme} (h : l.text = m.text) : l.kind = m.kind := by
  obtain ⟨c, cs, hl⟩ := List.exists_cons_of_ne_nil l.text_ne_nil
  have hread := reading_text hl
  rw [reading_text (h ▸ hl : m.text = c :: cs)] at hread
  exact (Except.ok.inj hread).symm

end Lexeme

/-- What the scanner reads is the longest lexeme. -/
theorem Scan.longest {l : Lexeme} {c : Char} {cs : List Char} (h : l.text = (ofChars c cs).lexeme) :
    l.Longest (ofChars c cs).rest := by
  intro m hm
  rw [h, lexeme_append_rest] at hm
  rw [h]
  exact (maximal hm).1

/-- **A lexeme that is the longest at its place is cut off**, and read as what it spells. -/
theorem Scan.ofChars_text {l : Lexeme} {rest : List Char} (hlong : l.Longest rest) {c : Char}
    {cs : List Char} (h : l.text ++ rest = c :: cs) : ofChars c cs = ⟨l.text, rest, .ok l.kind⟩ := by
  have hl : l.text <+: c :: cs := ⟨rest, h⟩
  obtain ⟨hle, k, hk⟩ := maximal hl
  obtain ⟨m, hm, rfl⟩ := exists_lexeme hk
  have happend := lexeme_append_rest c cs
  rw [← hm] at happend hle
  have hprefix : m.text <+: c :: cs := ⟨_, happend⟩
  have hge : m.text.length ≤ l.text.length := hlong m (h ▸ hprefix)
  -- both are prefixes of one text, and neither is longer
  have heq : m.text = l.text :=
    (List.prefix_of_prefix_length_le hprefix hl hge).eq_of_length (by omega)
  have hkind := Lexeme.kind_eq_of_text_eq heq
  rw [heq, ← h] at happend
  have hrest := List.append_cancel_left happend
  rw [← hkind, ← hrest, ← heq, hm, ← hk]

end DistanceField
