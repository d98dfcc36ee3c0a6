import DistanceField.Proofs.ParserProgress

/-!
# Headers of functions

The parameters of a function are scanned twice: by the lookahead, a loop with two states that
builds nothing, and by the parser of the header, which stays on the last token where the tokens
break off. Both agree with one relation between tokens and parameters.

* `Listing`: parameter lists, in tokens.
* `Parser.startsLambda_iff_header`: the lookahead foretells the parser of the header.
* `Parser.expr_eq_attempt`: so it does what trying would do.
-/

namespace DistanceField

/-! ## Parameter lists -/

/-- The parameter that a token names. -/
def Token.param? (t : Token) : Option Param :=
  match t.kind with
  | .ident name => some ⟨name, t.pos⟩
  | _ => none

/-- The names up to the next closing parenthesis. -/
def paramsAhead (ts : List Token) : List Param :=
  (ts.takeWhile fun t => !t.isSymbol .rParen).filterMap Token.param?

theorem paramsAhead_of_rParen {t : Token} {ts : List Token} (ht : t.kind = .symbol .rParen) :
    paramsAhead (t :: ts) = [] := by
  have hstop : t.isSymbol .rParen = true := Token.isSymbol_iff.2 ht
  simp [paramsAhead, hstop]

theorem paramsAhead_of_ne {t : Token} {ts : List Token} (ht : t.kind ≠ .symbol .rParen) :
    paramsAhead (t :: ts) = t.param?.toList ++ paramsAhead ts := by
  have hgo : t.isSymbol .rParen = false := Bool.eq_false_iff.2 fun h => ht (Token.isSymbol_iff.1 h)
  rw [paramsAhead, List.takeWhile_cons_of_pos (by simp [hgo]), List.filterMap_cons, paramsAhead]
  cases t.param? <;> rfl

/-- The tokens list these parameters, with a comma at the end or without; a closing parenthesis
and an arrow come next. -/
inductive Listing : List Token → List Param → Prop
  | close {t arrow : Token} {ts : List Token} (ht : t.kind = .symbol .rParen)
      (harrow : arrow.kind = .symbol .arrow) : Listing (t :: arrow :: ts) []
  | last {t : Token} {ts : List Token} {name : String} (ht : t.kind = .ident name)
      (hclose : Listing ts []) : Listing (t :: ts) [⟨name, t.pos⟩]
  | cons {t comma : Token} {ts : List Token} {name : String} {ps : List Param}
      (ht : t.kind = .ident name) (hcomma : comma.kind = .symbol .comma) (hrest : Listing ts ps) :
      Listing (t :: comma :: ts) (⟨name, t.pos⟩ :: ps)

namespace Listing

variable {ts : List Token} {ps : List Param}

theorem exists_close (h : Listing ts []) :
    ∃ t arrow rest, ts = t :: arrow :: rest ∧ t.kind = .symbol .rParen ∧
      arrow.kind = .symbol .arrow := by
  cases h with
  | close ht harrow => exact ⟨_, _, _, rfl, ht, harrow⟩

/-- A parameter list is closed at once or starts with a name. -/
theorem kind_head {t : Token} (h : Listing (t :: ts) ps) :
    t.kind = .symbol .rParen ∨ ∃ name, t.kind = .ident name := by
  cases h with
  | close ht => exact .inl ht
  | last ht => exact .inr ⟨_, ht⟩
  | cons ht => exact .inr ⟨_, ht⟩

theorem params_eq (h : Listing ts ps) : ps = paramsAhead ts := by
  induction h with
  | close ht harrow => rw [paramsAhead_of_rParen ht]
  | last ht hclose ih =>
    rw [paramsAhead_of_ne (by simp [ht]), ← ih, Token.param?, ht]
    rfl
  | cons ht hcomma hrest ih =>
    rw [paramsAhead_of_ne (by simp [ht]), paramsAhead_of_ne (by simp [hcomma]), ← ih, Token.param?, ht,
      Token.param?, hcomma]
    rfl

theorem endsParams_eq_true (h : Listing ts ps) : endsParams true ts = true := by
  induction h with
  | close ht harrow => simp [endsParams, Token.isSymbol, ht, harrow]
  | last ht hclose =>
    obtain ⟨u, arrow, rest, rfl, hu, harrow⟩ := hclose.exists_close
    simp [endsParams, Token.isSymbol, ht, hu, harrow]
  | cons ht hcomma hrest ih => simpa [endsParams, ht, hcomma] using ih

end Listing

theorem exists_arrow {ts : List Token} (h : ts.head?.any (·.isSymbol .arrow) = true) :
    ∃ arrow rest, ts = arrow :: rest ∧ arrow.kind = .symbol .arrow := by
  cases ts with
  | nil => cases h
  | cons t ts =>
    have harrow : t.isSymbol .arrow = true := h
    exact ⟨t, ts, rfl, Token.isSymbol_iff.1 harrow⟩

/-- What the two states of the lookahead have seen: a parameter list from here on, or one whose
last name has just been passed. -/
theorem exists_listing (ts : List Token) :
    (endsParams true ts = true → ∃ ps, Listing ts ps) ∧
      ∀ t name, t.kind = .ident name → endsParams false ts = true → ∃ ps, Listing (t :: ts) ps := by
  induction ts with
  | nil =>
    refine ⟨fun h => ?_, fun _ _ _ h => ?_⟩
    · cases h
    · cases h
  | cons u ts ih =>
    constructor
    · intro h
      unfold endsParams at h
      split at h
      · next name hu _ => exact ih.2 u name hu h
      · next heq => cases heq
      · next hu =>
        obtain ⟨arrow, rest, rfl, harrow⟩ := exists_arrow h
        exact ⟨[], .close hu harrow⟩
      · cases h
    · intro t name ht h
      unfold endsParams at h
      split at h
      · next heq => cases heq
      · next hu _ =>
        obtain ⟨ps, hps⟩ := ih.1 h
        exact ⟨_, .cons ht hu hps⟩
      · next hu =>
        obtain ⟨arrow, rest, rfl, harrow⟩ := exists_arrow h
        exact ⟨_, .last ht (.close hu harrow)⟩
      · cases h

/-! ## The parser of the header -/

/-- A move that shows another kind of token was a move. -/
theorem Stream.later_of_kind_ne {s : Stream} (h : s.advance.kind ≠ s.kind) :
    s.later = s.advance.current :: s.advance.later := by
  unfold Stream.advance at h ⊢
  cases hlater : s.later with
  | nil =>
    rw [hlater] at h
    exact absurd rfl h
  | cons t ts => rfl

namespace Parser

variable {s t u : Stream} {ps : List Param} {fuel : Nat}

theorem paramList_of_stop (hs : s.kind = .symbol .rParen ∨ s.kind = .eof) :
    paramList (fuel + 1) s = .ok [] s := by
  have hget : (get : Parser Stream) s = .ok s s := rfl
  have hstop : (s.atSymbol .rParen || s.atEnd) = true := by
    rwa [Bool.or_eq_true, Stream.atSymbol_iff, Stream.atEnd_iff]
  rw [paramList, bind_of_ok hget, if_pos hstop]
  rfl

/-- Before a name, the list goes on with the parser of names. -/
theorem paramList_of_not_stop (hs : ¬ (s.kind = .symbol .rParen ∨ s.kind = .eof)) :
    paramList (fuel + 1) s = (do
      let name ← identifier
      if ← accept .comma then return ⟨name, s.pos⟩ :: (← paramList fuel)
      else return [⟨name, s.pos⟩] : Parser (List Param)) s := by
  have hget : (get : Parser Stream) s = .ok s s := rfl
  have hgo : ¬ (s.atSymbol .rParen || s.atEnd) = true := by
    rwa [Bool.or_eq_true, Stream.atSymbol_iff, Stream.atEnd_iff]
  rw [paramList, bind_of_ok hget, if_neg hgo]

theorem paramList_of_last {name : String} (hname : s.kind = .ident name)
    (hnext : s.advance.kind ≠ .symbol .comma) :
    paramList (fuel + 1) s = .ok [⟨name, s.pos⟩] s.advance := by
  rw [paramList_of_not_stop (by simp [hname]), bind_of_ok (identifier_of_kind hname),
    bind_of_ok (accept_of_ne hnext)]
  rfl

theorem paramList_of_comma {name : String} (hname : s.kind = .ident name)
    (hcomma : s.advance.kind = .symbol .comma) :
    paramList (fuel + 1) s =
      (do return ⟨name, s.pos⟩ :: (← paramList fuel) : Parser (List Param)) s.advance.advance := by
  rw [paramList_of_not_stop (by simp [hname]), bind_of_ok (identifier_of_kind hname),
    bind_of_ok (accept_of_kind hcomma)]
  rfl

/-- How a parameter list ends: at once, or after a name, with the rest of the list behind a comma
or with nothing. -/
theorem paramList_eq_ok (h : paramList (fuel + 1) s = .ok ps u) :
    (ps = [] ∧ u = s) ∨ ∃ name, s.kind = .ident name ∧
      ((∃ qs, s.advance.kind = .symbol .comma ∧ paramList fuel s.advance.advance = .ok qs u ∧
          ps = ⟨name, s.pos⟩ :: qs) ∨
        (ps = [⟨name, s.pos⟩] ∧ u = s.advance)) := by
  by_cases hs : s.kind = .symbol .rParen ∨ s.kind = .eof
  · rw [paramList_of_stop hs] at h
    cases h
    exact .inl ⟨rfl, rfl⟩
  have hrun := h
  rw [paramList_of_not_stop hs] at hrun
  obtain ⟨name, _, hident, -⟩ := EStateM.bind_eq_ok.1 hrun
  have hname := (identifier_eq_ok hident).1
  refine .inr ⟨name, hname, ?_⟩
  by_cases hcomma : s.advance.kind = .symbol .comma
  · rw [paramList_of_comma hname hcomma] at h
    obtain ⟨qs, _, hqs, hret⟩ := EStateM.bind_eq_ok.1 h
    obtain ⟨rfl, rfl⟩ := EStateM.pure_eq_ok.1 hret
    exact .inl ⟨qs, hcomma, hqs, rfl⟩
  · rw [paramList_of_last hname hcomma] at h
    cases h
    exact .inr ⟨rfl, rfl⟩

/-- The parser of the header at a parenthesis. -/
theorem lambdaHeader_eq_ok (hs : s.kind = .symbol .lParen) :
    lambdaHeader fuel s = .ok ps t ↔
      ∃ u, paramList fuel s.advance = .ok ps u ∧ u.kind = .symbol .rParen ∧
        u.advance.kind = .symbol .arrow ∧ t = u.advance.advance := by
  rw [lambdaHeader]
  constructor
  · intro h
    obtain ⟨_, _, haccept, h⟩ := EStateM.bind_eq_ok.1 h
    rw [accept_of_kind hs] at haccept
    cases haccept
    obtain ⟨params, u, hlist, h⟩ := EStateM.bind_eq_ok.1 h
    obtain ⟨_, _, hexpect, h⟩ := EStateM.bind_eq_ok.1 h
    obtain ⟨hclose, rfl⟩ := expect_eq_ok hexpect
    obtain ⟨_, _, hexpect, h⟩ := EStateM.bind_eq_ok.1 h
    obtain ⟨harrow, rfl⟩ := expect_eq_ok hexpect
    obtain ⟨rfl, rfl⟩ := EStateM.pure_eq_ok.1 h
    exact ⟨u, hlist, hclose, harrow, rfl⟩
  · rintro ⟨u, hlist, hclose, harrow, rfl⟩
    refine EStateM.bind_eq_ok.2 ⟨true, _, accept_of_kind hs, ?_⟩
    refine EStateM.bind_eq_ok.2 ⟨ps, u, hlist, ?_⟩
    refine EStateM.bind_eq_ok.2 ⟨(), _, expect_of_kind hclose, ?_⟩
    exact EStateM.bind_eq_ok.2 ⟨(), _, expect_of_kind harrow, rfl⟩

/-- The parser of the header at any other token: one name has to stand there. -/
theorem lambdaHeader_eq_ok_of_ne (hs : s.kind ≠ .symbol .lParen) :
    lambdaHeader fuel s = .ok ps t ↔
      ∃ name, s.kind = .ident name ∧ s.advance.kind = .symbol .arrow ∧ ps = [⟨name, s.pos⟩] ∧
        t = s.advance.advance := by
  rw [lambdaHeader]
  constructor
  · intro h
    obtain ⟨_, _, haccept, h⟩ := EStateM.bind_eq_ok.1 h
    rw [accept_of_ne hs] at haccept
    cases haccept
    obtain ⟨_, _, hget, h⟩ := EStateM.bind_eq_ok.1 h
    cases hget
    obtain ⟨name, _, hident, h⟩ := EStateM.bind_eq_ok.1 h
    obtain ⟨hname, rfl⟩ := identifier_eq_ok hident
    obtain ⟨_, _, hexpect, h⟩ := EStateM.bind_eq_ok.1 h
    obtain ⟨harrow, rfl⟩ := expect_eq_ok hexpect
    obtain ⟨rfl, rfl⟩ := EStateM.pure_eq_ok.1 h
    exact ⟨name, hname, harrow, rfl, rfl⟩
  · rintro ⟨name, hname, harrow, rfl, rfl⟩
    refine EStateM.bind_eq_ok.2 ⟨false, s, accept_of_ne hs, ?_⟩
    refine EStateM.bind_eq_ok.2 ⟨s, s, rfl, ?_⟩
    refine EStateM.bind_eq_ok.2 ⟨name, _, identifier_of_kind hname, ?_⟩
    exact EStateM.bind_eq_ok.2 ⟨(), _, expect_of_kind harrow, rfl⟩

/-- A parameter list that closes before an arrow is read up to its closing parenthesis. -/
theorem paramList_of_listing {ts : List Token} (h : Listing ts ps) (hs : s.current :: s.later = ts)
    (hfuel : ts.length ≤ fuel + 1) :
    ∃ u, paramList (fuel + 1) s = .ok ps u ∧ u.kind = .symbol .rParen ∧
      u.advance.kind = .symbol .arrow := by
  induction h generalizing s fuel with
  | close ht harrow =>
    obtain ⟨rfl, hlater⟩ := List.cons.inj hs
    refine ⟨s, paramList_of_stop (.inl ht), ht, ?_⟩
    rw [Stream.advance, hlater]
    exact harrow
  | last ht hclose =>
    obtain ⟨rfl, hlater⟩ := List.cons.inj hs
    obtain ⟨close, arrow, rest, rfl, hkind, harrow⟩ := hclose.exists_close
    have hadvance : s.advance = ⟨close, arrow :: rest⟩ := by rw [Stream.advance, hlater]
    have hnext : s.advance.kind = .symbol .rParen := by rwa [hadvance]
    refine ⟨s.advance, paramList_of_last ht (by simp [hnext]), hnext, ?_⟩
    rw [hadvance]
    exact harrow
  | @cons _ comma ts _ _ ht hcomma hrest ih =>
    obtain ⟨rfl, hlater⟩ := List.cons.inj hs
    simp only [List.length_cons] at hfuel
    obtain ⟨n, rfl⟩ : ∃ n, fuel = n + 1 := ⟨fuel - 1, by omega⟩
    have hadvance : s.advance = ⟨comma, ts⟩ := by rw [Stream.advance, hlater]
    have hnext : s.advance.advance.current :: s.advance.advance.later = ts := by
      rw [hadvance, Stream.advance]
      cases hrest <;> rfl
    have hlen : ts.length ≤ n + 1 := by omega
    obtain ⟨u, hrun, hu⟩ := ih hnext hlen
    refine ⟨u, ?_, hu⟩
    rw [paramList_of_comma ht (by rwa [hadvance])]
    exact EStateM.bind_eq_ok.2 ⟨_, u, hrun, rfl⟩

/-- What is read up to a closing parenthesis before an arrow is a parameter list. Where the
tokens break off, the parser stays on the last one, and no token is both. -/
theorem listing_of_paramList (h : paramList fuel s = .ok ps u) (hclose : u.kind = .symbol .rParen)
    (harrow : u.advance.kind = .symbol .arrow) : Listing (s.current :: s.later) ps := by
  have hu : Listing (u.current :: u.later) [] := by
    rw [Stream.later_of_kind_ne (by simp [hclose, harrow])]
    exact .close hclose harrow
  induction fuel generalizing s ps with
  | zero => cases h
  | succ fuel ih =>
    rcases paramList_eq_ok h with ⟨rfl, rfl⟩ | ⟨name, hname, ⟨qs, hcomma, hqs, rfl⟩ | ⟨rfl, rfl⟩⟩
    · exact hu
    · have hrest := ih hqs
      rw [Stream.later_of_kind_ne (by simp [hname, hcomma])]
      refine .cons hname hcomma ?_
      by_cases hmoved : s.advance.advance.kind = s.advance.kind
      · -- No parameter list starts with a comma.
        have hhead : s.advance.advance.current.kind = .symbol .comma := hmoved.trans hcomma
        rcases hrest.kind_head with hk | ⟨_, hk⟩ <;> rw [hhead] at hk <;> cases hk
      · rwa [Stream.later_of_kind_ne hmoved]
    · rw [Stream.later_of_kind_ne (by simp [hname, hclose])]
      exact .last hname hu

end Parser

/-- The parameters of a function that starts here: the name that stands here or, at a parenthesis,
the names up to the next closing one. -/
def Stream.header (s : Stream) : List Param :=
  match s.kind with
  | .ident name => [⟨name, s.pos⟩]
  | _ => paramsAhead s.later

namespace Parser

variable {s t : Stream} {ps : List Param} {fuel : Nat}

/-- The parser of the header succeeds at a parenthesis exactly before a parameter list. -/
theorem lambdaHeader_iff_listing (hs : s.kind = .symbol .lParen) (hfuel : s.length ≤ fuel) :
    (∃ t, lambdaHeader fuel s = .ok ps t) ↔ Listing s.later ps := by
  simp only [lambdaHeader_eq_ok hs]
  constructor
  · rintro ⟨t, u, hrun, hclose, harrow, -⟩
    have hlist := listing_of_paramList hrun hclose harrow
    by_cases hmoved : s.advance.kind = s.kind
    · have hhead : s.advance.current.kind = .symbol .lParen := hmoved.trans hs
      rcases hlist.kind_head with hk | ⟨_, hk⟩ <;> rw [hhead] at hk <;> cases hk
    · rwa [Stream.later_of_kind_ne hmoved]
  · intro hlist
    have hadvance : s.advance.current :: s.advance.later = s.later := by
      rw [Stream.advance]
      cases hlater : s.later with
      | nil =>
        rw [hlater] at hlist
        cases hlist
      | cons t ts => rfl
    rw [Stream.length] at hfuel
    obtain ⟨n, rfl⟩ : ∃ n, fuel = n + 1 := ⟨fuel - 1, by omega⟩
    have hlen : s.later.length ≤ n + 1 := by omega
    obtain ⟨u, hrun, hclose, harrow⟩ := paramList_of_listing hlist hadvance hlen
    exact ⟨_, u, hrun, hclose, harrow, rfl⟩

/-- What the parser of the header yields are the parameters that stand there. -/
theorem lambdaHeader_eq_header (hfuel : s.length ≤ fuel) (h : lambdaHeader fuel s = .ok ps t) :
    ps = s.header := by
  by_cases hs : s.kind = .symbol .lParen
  · have hlist := (lambdaHeader_iff_listing hs hfuel).1 ⟨t, h⟩
    rw [Stream.header, hs]
    exact hlist.params_eq
  · obtain ⟨name, hname, -, rfl, -⟩ := (lambdaHeader_eq_ok_of_ne hs).1 h
    rw [Stream.header, hname]

/-- **The lookahead foretells the parser of the header.** -/
theorem startsLambda_iff_header (hfuel : s.length ≤ fuel) :
    s.startsLambda = true ↔ ∃ ps t, lambdaHeader fuel s = .ok ps t := by
  by_cases hs : s.kind = .symbol .lParen
  · have hstarts : s.startsLambda = endsParams true s.later := by rw [Stream.startsLambda, hs]
    simp only [hstarts, lambdaHeader_iff_listing hs hfuel]
    constructor
    · exact (exists_listing s.later).1
    · rintro ⟨ps, hps⟩
      exact hps.endsParams_eq_true
  · simp only [lambdaHeader_eq_ok_of_ne hs]
    constructor
    · intro h
      unfold Stream.startsLambda at h
      split at h
      · next name hname =>
        obtain ⟨arrow, rest, hlater, harrow⟩ := exists_arrow h
        refine ⟨_, _, name, hname, ?_, rfl, rfl⟩
        rw [Stream.advance, hlater]
        exact harrow
      · next hk => exact absurd hk hs
      · cases h
    · rintro ⟨_, _, name, hname, harrow, -⟩
      have hlater := Stream.later_of_kind_ne (by simp [hname, harrow] : s.advance.kind ≠ s.kind)
      rw [Stream.startsLambda, hname]
      rw [hlater]
      exact Token.isSymbol_iff.2 harrow

/-- Goes on from the result of one parser or, if it fails, does another from the start. -/
def attempt {α β : Type} (p : Parser α) (f : α → Parser β) (q : Parser β) : Parser β := fun s =>
  match p s with
  | .ok a t => f a t
  | .error _ _ => q s

/-- **With the lookahead, the parser of expressions does what it would do by trying**: it reads a
function if the parser of the header succeeds, and starts again with operands if it fails. -/
theorem expr_eq_attempt (hlet : s.kind ≠ .word .kwLet) (hif : s.kind ≠ .word .kwIf) :
    expr (fuel + 1) s =
      attempt (lambdaHeader s.length) (fun ps => do return .lambda ps (← expr fuel) s.pos)
        (ternary fuel) s := by
  rw [expr_succ, if_neg fun h => hlet (Stream.atWord_iff.1 h),
    if_neg fun h => hif (Stream.atWord_iff.1 h)]
  have hiff := startsLambda_iff_header (Nat.le_refl s.length)
  have hget : (get : Parser Stream) s = .ok s s := rfl
  unfold attempt
  cases hrun : lambdaHeader s.length s with
  | ok ps t =>
    rw [if_pos (hiff.2 ⟨ps, t, hrun⟩), lambda, bind_of_ok hget, bind_of_ok hrun]
  | error d t =>
    rw [if_neg]
    intro h
    obtain ⟨ps, u, hok⟩ := hiff.1 h
    rw [hrun] at hok
    cases hok

end Parser

end DistanceField
