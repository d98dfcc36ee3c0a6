import DistanceField.Expr.Parser
import DistanceField.Proofs.Induction

/-!
# Runs of parsers

What the steps of a parser do to the kinds of the tokens ahead. A stream is seen as the
kinds that come before the end marker; a parser that succeeds takes a word off them.

* `Stream.Spells`: the kinds ahead in a stream.
* `Parser.Yields`: where a parser succeeds, its result belongs to the word that it took.
* `Parser.Leads`: a parser succeeds, what it leaves, and what it gives.
-/

namespace DistanceField

/-! ## Kinds ahead -/

/-- The stream holds tokens of these kinds, and then the end marker. -/
def Stream.Spells (s : Stream) (ks : List Kind) : Prop :=
  (s.current :: s.later).map Token.kind = ks ++ [.eof]

namespace Stream.Spells

variable {s : Stream} {k : Kind} {ks : List Kind}

theorem kind (h : s.Spells (k :: ks)) : s.kind = k :=
  (List.cons.inj h).1

theorem kind_nil (h : s.Spells []) : s.kind = .eof :=
  (List.cons.inj h).1

theorem advance (h : s.Spells (k :: ks)) : s.advance.Spells ks := by
  have htail := (List.cons.inj h).2
  unfold Stream.advance
  cases hl : s.later with
  | nil =>
    rw [hl] at htail
    cases ks <;> cases htail
  | cons t ts =>
    rw [hl] at htail
    exact htail

/-- A token that is not the end marker is ahead. -/
theorem of_kind (h : s.Spells ks) (hk : s.kind = k) (hne : k ≠ .eof) :
    ∃ rest, ks = k :: rest ∧ s.advance.Spells rest := by
  cases ks with
  | nil => exact absurd (hk.symm.trans h.kind_nil) hne
  | cons j rest =>
    obtain rfl : j = k := h.kind.symm.trans hk
    exact ⟨rest, rfl, h.advance⟩

theorem length (h : s.Spells ks) : s.length = ks.length + 1 := by
  have hlen := congrArg List.length h
  simpa [Stream.length] using hlen

end Stream.Spells

theorem Stream.exists_spells (ks : List Kind) : ∃ s : Stream, s.Spells ks := by
  cases ks with
  | nil => exact ⟨⟨⟨.eof, .start⟩, []⟩, rfl⟩
  | cons k ks =>
    refine ⟨⟨⟨k, .start⟩, (ks ++ [Kind.eof]).map fun kind => ⟨kind, .start⟩⟩, ?_⟩
    simp [Stream.Spells, Function.comp_def]

theorem Token.isSymbol_iff {t : Token} {x : Symbol} : t.isSymbol x = true ↔ t.kind = .symbol x := by
  unfold Token.isSymbol
  cases t.kind <;> simp

namespace Stream

variable {s : Stream}

theorem atSymbol_iff {x : Symbol} : s.atSymbol x = true ↔ s.kind = .symbol x :=
  Token.isSymbol_iff

theorem atWord_iff {x : Keyword} : s.atWord x = true ↔ s.kind = .word x := by
  unfold atWord Token.isWord Stream.kind
  cases s.current.kind <;> simp

theorem atEnd_iff : s.atEnd = true ↔ s.kind = .eof := by
  unfold atEnd
  cases s.kind <;> simp

end Stream

namespace Parser

variable {α β : Type} {s t : Stream}

/-! ## Single steps -/

theorem skip_eq : skip s = .ok () s.advance := rfl

theorem accept_of_kind {x : Symbol} (h : s.kind = .symbol x) : accept x s = .ok true s.advance := by
  have hat := Stream.atSymbol_iff.2 h
  change (if s.atSymbol x then _ else _ : Parser Bool) s = _
  rw [if_pos hat]
  rfl

theorem accept_of_ne {x : Symbol} (h : s.kind ≠ .symbol x) : accept x s = .ok false s := by
  have hat : ¬ s.atSymbol x = true := fun hat => h (Stream.atSymbol_iff.1 hat)
  change (if s.atSymbol x then _ else _ : Parser Bool) s = _
  rw [if_neg hat]
  rfl

theorem expect_of_kind {x : Symbol} (h : s.kind = .symbol x) : expect x s = .ok () s.advance := by
  have hat := Stream.atSymbol_iff.2 h
  change (if s.atSymbol x then _ else _ : Parser Unit) s = _
  rw [if_pos hat, skip_eq]

theorem expectWord_of_kind {x : Keyword} (h : s.kind = .word x) :
    expectWord x s = .ok () s.advance := by
  have hat := Stream.atWord_iff.2 h
  change (if s.atWord x then _ else _ : Parser Unit) s = _
  rw [if_pos hat, skip_eq]

theorem identifier_of_kind {name : String} (h : s.kind = .ident name) :
    identifier s = .ok name s.advance := by
  refine EStateM.bind_eq_ok.2 ⟨s, s, rfl, EStateM.bind_eq_ok.2 ⟨(), s.advance, rfl, ?_⟩⟩
  rw [h]
  rfl

theorem fail_eq {reason : Reason} {pos : Pos} : (fail reason pos : Parser α) s = .error ⟨reason, pos⟩ s :=
  rfl

theorem expect_eq_ok {x : Symbol} {u : Unit} (h : expect x s = .ok u t) :
    s.kind = .symbol x ∧ t = s.advance := by
  by_cases hk : s.kind = .symbol x
  · rw [expect_of_kind hk] at h
    cases h
    exact ⟨hk, rfl⟩
  · have hat : ¬ s.atSymbol x = true := fun hat => hk (Stream.atSymbol_iff.1 hat)
    change (if s.atSymbol x then _ else _ : Parser Unit) s = _ at h
    rw [if_neg hat, fail_eq] at h
    cases h

theorem expectWord_eq_ok {x : Keyword} {u : Unit} (h : expectWord x s = .ok u t) :
    s.kind = .word x ∧ t = s.advance := by
  by_cases hk : s.kind = .word x
  · rw [expectWord_of_kind hk] at h
    cases h
    exact ⟨hk, rfl⟩
  · have hat : ¬ s.atWord x = true := fun hat => hk (Stream.atWord_iff.1 hat)
    change (if s.atWord x then _ else _ : Parser Unit) s = _ at h
    rw [if_neg hat, fail_eq] at h
    cases h

theorem identifier_eq_ok {name : String} (h : identifier s = .ok name t) :
    s.kind = .ident name ∧ t = s.advance := by
  obtain ⟨_, _, hget, h⟩ := EStateM.bind_eq_ok.1 h
  cases hget
  obtain ⟨_, _, hskip, h⟩ := EStateM.bind_eq_ok.1 h
  cases hskip
  cases hk : s.kind with
  | ident other =>
    rw [hk] at h
    obtain ⟨rfl, rfl⟩ := EStateM.pure_eq_ok.1 h
    exact ⟨rfl, rfl⟩
  | _ =>
    rw [hk] at h
    cases h

/-! ## Results belong to the words taken -/

/-- Where the parser succeeds at this stream, it takes a word off the kinds ahead, and the
word and the result are related by `D`. -/
def Yields (p : Parser α) (s : Stream) (D : List Kind → α → Prop) : Prop :=
  ∀ a t ks, p s = .ok a t → s.Spells ks → ∃ w rest, ks = w ++ rest ∧ t.Spells rest ∧ D w a

namespace Yields

variable {p : Parser α} {f : α → Parser β} {D D' : List Kind → α → Prop} {E : List Kind → β → Prop}

theorem pure {a : α} (h : D [] a) : Yields (pure a) s D := by
  intro b t ks hrun hs
  obtain ⟨rfl, rfl⟩ := EStateM.pure_eq_ok.1 hrun
  exact ⟨[], ks, rfl, hs, h⟩

theorem fail {reason : Reason} {pos : Pos} : Yields (fail reason pos) s D := by
  intro a t ks hrun
  cases hrun

theorem get {f : Stream → Parser β} (h : Yields (f s) s E) : Yields (get >>= f) s E := h

theorem bind (hp : Yields p s D)
    (hf : ∀ a t w, D w a → Yields (f a) t fun w' b => E (w ++ w') b) : Yields (p >>= f) s E := by
  intro b t ks hrun hs
  obtain ⟨a, u, hpa, hfb⟩ := EStateM.bind_eq_ok.1 hrun
  obtain ⟨w, rest, rfl, hu, hD⟩ := hp a u ks hpa hs
  obtain ⟨w', rest', rfl, ht, hE⟩ := hf a u w hD b t rest hfb hu
  exact ⟨w ++ w', rest', (List.append_assoc ..).symm, ht, hE⟩

theorem mono (hp : Yields p s D) (h : ∀ w a, D w a → D' w a) : Yields p s D' := by
  intro a t ks hrun hs
  obtain ⟨w, rest, hks, ht, hD⟩ := hp a t ks hrun hs
  exact ⟨w, rest, hks, ht, h w a hD⟩

/-- A step that passes the current token. -/
theorem of_advance (k : Kind) (hne : k ≠ .eof)
    (h : ∀ a t, p s = .ok a t → s.kind = k ∧ t = s.advance ∧ D [k] a) : Yields p s D := by
  intro a t ks hrun hs
  obtain ⟨hk, rfl, hD⟩ := h a t hrun
  obtain ⟨rest, rfl, ht⟩ := hs.of_kind hk hne
  exact ⟨[k], rest, rfl, ht, hD⟩

end Yields

theorem skip_yields {k : Kind} (h : s.kind = k) (hne : k ≠ .eof) :
    Yields skip s fun w _ => w = [k] := by
  refine .of_advance k hne fun _ t hrun => ?_
  cases hrun
  exact ⟨h, rfl, rfl⟩

theorem expect_yields (x : Symbol) : Yields (expect x) s fun w _ => w = [.symbol x] :=
  .of_advance (.symbol x) nofun fun _ _ hrun => ⟨(expect_eq_ok hrun).1, (expect_eq_ok hrun).2, rfl⟩

theorem expectWord_yields (x : Keyword) : Yields (expectWord x) s fun w _ => w = [.word x] :=
  .of_advance (.word x) nofun fun _ _ hrun => ⟨(expectWord_eq_ok hrun).1, (expectWord_eq_ok hrun).2, rfl⟩

theorem identifier_yields : Yields identifier s fun w name => w = [.ident name] := by
  intro name t ks hrun hs
  obtain ⟨hk, rfl⟩ := identifier_eq_ok hrun
  obtain ⟨rest, rfl, ht⟩ := hs.of_kind hk nofun
  exact ⟨_, rest, rfl, ht, rfl⟩

/-- A symbol is passed, or it is not there. -/
theorem accept_yields (x : Symbol) :
    Yields (accept x) s fun w b => w = if b then [.symbol x] else [] := by
  by_cases hk : s.kind = .symbol x
  · refine .of_advance (.symbol x) nofun fun b t hrun => ?_
    rw [accept_of_kind hk] at hrun
    cases hrun
    exact ⟨hk, rfl, rfl⟩
  · intro b t ks hrun hs
    rw [accept_of_ne hk] at hrun
    cases hrun
    exact ⟨[], ks, rfl, hs, rfl⟩

/-! ## Runs that succeed -/

/-- The parser succeeds at this stream with a result in `Q`, and these kinds are then
ahead. -/
def Leads (p : Parser α) (s : Stream) (rest : List Kind) (Q : α → Prop) : Prop :=
  ∃ a t, p s = .ok a t ∧ t.Spells rest ∧ Q a

namespace Leads

variable {p : Parser α} {f : α → Parser β} {ks rest : List Kind} {P : α → Prop} {Q : β → Prop}

theorem pure {a : α} (h : s.Spells rest) (ha : P a) : Leads (pure a) s rest P := ⟨a, s, rfl, h, ha⟩

theorem get {f : Stream → Parser β} (h : Leads (f s) s rest Q) : Leads (get >>= f) s rest Q := h

theorem bind (hp : Leads p s ks P) (hf : ∀ a t, t.Spells ks → P a → Leads (f a) t rest Q) :
    Leads (p >>= f) s rest Q := by
  obtain ⟨a, t, hrun, ht, ha⟩ := hp
  obtain ⟨b, u, hrun', hu, hb⟩ := hf a t ht ha
  exact ⟨b, u, EStateM.bind_eq_ok.2 ⟨a, t, hrun, hrun'⟩, hu, hb⟩

/-- A step with a known result. -/
theorem step {a : α} (hp : p s = .ok a t) (hf : Leads (f a) t rest Q) : Leads (p >>= f) s rest Q := by
  obtain ⟨b, u, hrun, hu, hb⟩ := hf
  exact ⟨b, u, EStateM.bind_eq_ok.2 ⟨a, t, hp, hrun⟩, hu, hb⟩

end Leads

end Parser

end DistanceField
