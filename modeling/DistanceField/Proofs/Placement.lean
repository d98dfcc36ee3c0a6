import DistanceField.Operation.Resolve
import DistanceField.Proofs.ParserRuns

/-!
# Places of syntax

Positions are handed on from tokens to expressions and from expressions to operations, and
none is made up on the way. Calls stand at their opening parenthesis.

* `TokenAt`, `ParenAt`: the positions of a list of tokens, and of its opening parentheses.
* `Parser.Places`: a parser that stays among the tokens and whose errors do.
* `Parser.placing`: the parsers of expressions, by induction on the fuel.
* `Expr.resolve_placed`: resolution.
-/

namespace DistanceField

/-- A token stands at the position. -/
def TokenAt (tokens : List Token) (p : Pos) : Prop :=
  ∃ t ∈ tokens, t.pos = p

/-- An opening parenthesis stands at the position. -/
def ParenAt (tokens : List Token) (p : Pos) : Prop :=
  ∃ t ∈ tokens, t.pos = p ∧ t.kind = .symbol .lParen

variable {tokens : List Token}

theorem ParenAt.tokenAt {p : Pos} (h : ParenAt tokens p) : TokenAt tokens p := by
  obtain ⟨t, ht, hpos, -⟩ := h
  exact ⟨t, ht, hpos⟩

/-! ## Expressions -/

mutual

/-- All positions in the expression are those of tokens, and those of calls are of opening
parentheses. -/
def Expr.Placed (tokens : List Token) : Expr → Prop
  | .lit _ pos => TokenAt tokens pos
  | .ident _ pos => TokenAt tokens pos
  | .unary _ e pos => TokenAt tokens pos ∧ e.Placed tokens
  | .binary _ l r pos => TokenAt tokens pos ∧ l.Placed tokens ∧ r.Placed tokens
  | .cond c a b pos => TokenAt tokens pos ∧ c.Placed tokens ∧ a.Placed tokens ∧ b.Placed tokens
  | .call f args pos => ParenAt tokens pos ∧ f.Placed tokens ∧ PlacedAll tokens args
  | .index e i pos => TokenAt tokens pos ∧ e.Placed tokens ∧ i.Placed tokens
  | .field e _ pos => TokenAt tokens pos ∧ e.Placed tokens
  | .list items pos => TokenAt tokens pos ∧ PlacedAll tokens items
  | .record fields pos => TokenAt tokens pos ∧ PlacedNamed tokens fields
  | .lambda params body pos =>
    TokenAt tokens pos ∧ (∀ p ∈ params, TokenAt tokens p.pos) ∧ body.Placed tokens
  | .letIn bindings body pos => TokenAt tokens pos ∧ PlacedNamed tokens bindings ∧ body.Placed tokens

def PlacedAll (tokens : List Token) : List Expr → Prop
  | [] => True
  | e :: es => e.Placed tokens ∧ PlacedAll tokens es

def PlacedNamed (tokens : List Token) : List (Named Expr) → Prop
  | [] => True
  | ⟨_, pos, e⟩ :: bs => TokenAt tokens pos ∧ e.Placed tokens ∧ PlacedNamed tokens bs

end

theorem Expr.Placed.tokenAt {e : Expr} (h : e.Placed tokens) : TokenAt tokens e.pos := by
  cases e with
  | lit => exact h
  | ident => exact h
  | call => exact h.1.tokenAt
  | unary => exact h.1
  | binary => exact h.1
  | cond => exact h.1
  | index => exact h.1
  | field => exact h.1
  | list => exact h.1
  | record => exact h.1
  | lambda => exact h.1
  | letIn => exact h.1

/-! ## Parsers -/

/-- All tokens of the stream are among these. -/
def Stream.Within (s : Stream) (tokens : List Token) : Prop :=
  ∀ t ∈ s.current :: s.later, t ∈ tokens

namespace Stream.Within

variable {s : Stream}

theorem tokenAt (h : s.Within tokens) : TokenAt tokens s.pos :=
  ⟨s.current, h _ List.mem_cons_self, rfl⟩

theorem parenAt (h : s.Within tokens) (hk : s.kind = .symbol .lParen) : ParenAt tokens s.pos :=
  ⟨s.current, h _ List.mem_cons_self, rfl, hk⟩

theorem advance (h : s.Within tokens) : s.advance.Within tokens := by
  unfold Stream.advance
  cases hlater : s.later with
  | nil => exact h
  | cons t ts =>
    intro u hu
    refine h u (List.mem_cons_of_mem _ ?_)
    rw [hlater]
    exact hu

end Stream.Within

namespace Parser

variable {α β : Type}

/-- **The parser stays among the tokens**, its result is in `P`, and an error that it
reports is at one of the tokens. -/
def Places (tokens : List Token) (p : Parser α) (P : α → Prop) : Prop :=
  ∀ s : Stream, s.Within tokens →
    match p s with
    | .ok a t => t.Within tokens ∧ P a
    | .error d _ => TokenAt tokens d.pos

namespace Places

variable {p : Parser α} {f : α → Parser β} {P : α → Prop} {Q : β → Prop}

theorem pure {a : α} (h : P a) : Places tokens (pure a) P :=
  fun _ hs => ⟨hs, h⟩

theorem fail {reason : Reason} {pos : Pos} (h : TokenAt tokens pos) :
    Places tokens (fail reason pos) P :=
  fun _ _ => h

theorem get {f : Stream → Parser β} (h : ∀ s, s.Within tokens → Places tokens (f s) Q) :
    Places tokens (get >>= f) Q :=
  fun s hs => h s hs s hs

theorem bind (hp : Places tokens p P) (hf : ∀ a, P a → Places tokens (f a) Q) :
    Places tokens (p >>= f) Q := by
  intro s hs
  have hresult := hp s hs
  cases hrun : p s with
  | ok a t =>
    have hbind : (p >>= f) s = f a t := by simp only [Bind.bind, EStateM.bind, hrun]
    rw [hrun] at hresult
    rw [hbind]
    exact hf a hresult.2 t hresult.1
  | error d t =>
    have hbind : (p >>= f) s = .error d t := by simp only [Bind.bind, EStateM.bind, hrun]
    rw [hrun] at hresult
    rw [hbind]
    exact hresult

end Places

theorem skip_places : Places tokens skip fun _ => True :=
  fun _ hs => ⟨hs.advance, trivial⟩

theorem accept_places (x : Symbol) : Places tokens (accept x) fun _ => True := by
  refine .get fun s _ => ?_
  split_ifs
  · exact skip_places.bind fun _ _ => .pure trivial
  · exact .pure trivial

theorem expect_places (x : Symbol) : Places tokens (expect x) fun _ => True := by
  refine .get fun s hs => ?_
  split_ifs
  · exact skip_places
  · exact .fail hs.tokenAt

theorem expectWord_places (x : Keyword) : Places tokens (expectWord x) fun _ => True := by
  refine .get fun s hs => ?_
  split_ifs
  · exact skip_places
  · exact .fail hs.tokenAt

theorem identifier_places : Places tokens identifier fun _ => True := by
  refine .get fun s hs => ?_
  refine skip_places.bind fun _ _ => ?_
  split
  · exact .pure trivial
  · exact .fail hs.tokenAt

theorem paramList_places (fuel : Nat) :
    Places tokens (paramList fuel) fun ps => ∀ p ∈ ps, TokenAt tokens p.pos := by
  induction fuel with
  | zero => exact .get fun s hs => .fail hs.tokenAt
  | succ fuel ih =>
    rw [paramList]
    refine .get fun s hs => ?_
    split_ifs
    · exact .pure (List.forall_mem_nil _)
    · refine identifier_places.bind fun name _ => ?_
      refine (accept_places .comma).bind fun more _ => ?_
      split_ifs
      · refine ih.bind fun ps hps => ?_
        exact .pure (List.forall_mem_cons.2 ⟨hs.tokenAt, hps⟩)
      · exact .pure (List.forall_mem_singleton.2 hs.tokenAt)

theorem lambdaHeader_places (fuel : Nat) :
    Places tokens (lambdaHeader fuel) fun ps => ∀ p ∈ ps, TokenAt tokens p.pos := by
  refine (accept_places .lParen).bind fun paren _ => ?_
  split_ifs
  · refine (paramList_places fuel).bind fun ps hps => ?_
    refine (expect_places .rParen).bind fun _ _ => ?_
    exact (expect_places .arrow).bind fun _ _ => .pure hps
  · refine .get fun s hs => ?_
    refine identifier_places.bind fun name _ => ?_
    exact (expect_places .arrow).bind fun _ _ => .pure (List.forall_mem_singleton.2 hs.tokenAt)

/-- The parsers of expressions place what they build. Those that extend an expression keep it
placed. -/
structure Placing (tokens : List Token) (fuel : Nat) : Prop where
  expr : Places tokens (expr fuel) (Expr.Placed tokens)
  bindings : Places tokens (bindings fuel) (PlacedNamed tokens)
  ternary : Places tokens (ternary fuel) (Expr.Placed tokens)
  binary : ∀ level, Places tokens (binary level fuel) (Expr.Placed tokens)
  operand : ∀ level, Places tokens (operand level fuel) (Expr.Placed tokens)
  chain : ∀ level left, left.Placed tokens → Places tokens (chain level left fuel) (Expr.Placed tokens)
  unary : Places tokens (unary fuel) (Expr.Placed tokens)
  suffixes : ∀ base, base.Placed tokens → Places tokens (suffixes base fuel) (Expr.Placed tokens)
  primary : Places tokens (primary fuel) (Expr.Placed tokens)
  items : ∀ close, Places tokens (items close fuel) (PlacedAll tokens)
  fields : Places tokens (fields fuel) (PlacedNamed tokens)

section

variable {fuel : Nat} (ih : Placing tokens fuel)

include ih

theorem expr_places : Places tokens (expr (fuel + 1)) (Expr.Placed tokens) := by
  rw [expr]
  refine .get fun s hs => ?_
  split_ifs
  · refine skip_places.bind fun _ _ => ?_
    refine ih.bindings.bind fun bs hbs => ?_
    refine (expectWord_places .kwIn).bind fun _ _ => ?_
    exact ih.expr.bind fun body hbody => .pure ⟨hs.tokenAt, hbs, hbody⟩
  · refine skip_places.bind fun _ _ => ?_
    refine (expect_places .lParen).bind fun _ _ => ?_
    refine ih.expr.bind fun condition hc => ?_
    refine (expect_places .rParen).bind fun _ _ => ?_
    refine ih.expr.bind fun yes ha => ?_
    refine (expectWord_places .kwElse).bind fun _ _ => ?_
    exact ih.expr.bind fun no hb => .pure ⟨hs.tokenAt, hc, ha, hb⟩
  · refine (lambdaHeader_places _).bind fun params hparams => ?_
    exact ih.expr.bind fun body hbody => .pure ⟨hs.tokenAt, hparams, hbody⟩
  · exact ih.ternary

theorem bindings_places : Places tokens (bindings (fuel + 1)) (PlacedNamed tokens) := by
  rw [bindings]
  refine .get fun s hs => ?_
  refine identifier_places.bind fun name _ => ?_
  refine (expect_places .assign).bind fun _ _ => ?_
  refine ih.expr.bind fun value hvalue => ?_
  have hlast : PlacedNamed tokens [⟨name, s.pos, value⟩] := ⟨hs.tokenAt, hvalue, trivial⟩
  refine (accept_places .semicolon).bind fun more _ => ?_
  split_ifs
  · refine .get fun t _ => ?_
    split_ifs
    · exact .pure hlast
    · exact ih.bindings.bind fun bs hbs => .pure ⟨hs.tokenAt, hvalue, hbs⟩
  · exact .pure hlast

/-- A choice stands where its condition does. -/
theorem ternary_places : Places tokens (ternary (fuel + 1)) (Expr.Placed tokens) := by
  rw [ternary]
  refine (ih.binary .disjunction).bind fun condition hc => ?_
  refine (accept_places .question).bind fun choice _ => ?_
  split_ifs
  · refine (ih.binary .disjunction).bind fun yes ha => ?_
    refine (expect_places .colon).bind fun _ _ => ?_
    exact ih.expr.bind fun no hb => .pure ⟨hc.tokenAt, hc, ha, hb⟩
  · exact .pure hc

theorem binary_places (level : Level) : Places tokens (binary level (fuel + 1)) (Expr.Placed tokens) := by
  rw [binary]
  exact (ih.operand level).bind fun left hleft => ih.chain level left hleft

theorem operand_places (level : Level) :
    Places tokens (operand level (fuel + 1)) (Expr.Placed tokens) := by
  rw [operand]
  split
  · exact ih.binary _
  · exact ih.unary

theorem chain_places (level : Level) (left : Expr) (hleft : left.Placed tokens) :
    Places tokens (chain level left (fuel + 1)) (Expr.Placed tokens) := by
  rw [chain]
  refine .get fun s hs => ?_
  split
  · refine skip_places.bind fun _ _ => ?_
    refine (ih.operand level).bind fun right hright => ?_
    exact ih.chain level _ ⟨hs.tokenAt, hleft, hright⟩
  · exact .pure hleft

theorem unary_places : Places tokens (unary (fuel + 1)) (Expr.Placed tokens) := by
  rw [unary]
  refine .get fun s hs => ?_
  split_ifs
  · refine skip_places.bind fun _ _ => ?_
    exact ih.unary.bind fun e he => .pure ⟨hs.tokenAt, he⟩
  · refine skip_places.bind fun _ _ => ?_
    exact ih.unary.bind fun e he => .pure ⟨hs.tokenAt, he⟩
  · exact ih.primary.bind fun base hbase => ih.suffixes base hbase

/-- A call stands at its opening parenthesis. -/
theorem suffixes_places (base : Expr) (hbase : base.Placed tokens) :
    Places tokens (suffixes base (fuel + 1)) (Expr.Placed tokens) := by
  rw [suffixes]
  refine .get fun s hs => ?_
  split
  · next hparen =>
    refine skip_places.bind fun _ _ => ?_
    refine (ih.items .rParen).bind fun args hargs => ?_
    refine (expect_places .rParen).bind fun _ _ => ?_
    exact ih.suffixes _ ⟨hs.parenAt hparen, hbase, hargs⟩
  · refine skip_places.bind fun _ _ => ?_
    refine identifier_places.bind fun name _ => ?_
    exact ih.suffixes _ ⟨hs.tokenAt, hbase⟩
  · refine skip_places.bind fun _ _ => ?_
    refine ih.expr.bind fun i hi => ?_
    refine (expect_places .rBracket).bind fun _ _ => ?_
    exact ih.suffixes _ ⟨hs.tokenAt, hbase, hi⟩
  · exact .pure hbase

theorem primary_places : Places tokens (primary (fuel + 1)) (Expr.Placed tokens) := by
  rw [primary]
  refine .get fun s hs => ?_
  -- literals and names are the current token
  have hleaf : ∀ e : Expr, e.Placed tokens →
      Places tokens (do skip; return e) (Expr.Placed tokens) :=
    fun e he => skip_places.bind fun _ _ => .pure he
  split
  · exact hleaf _ hs.tokenAt
  · exact hleaf _ hs.tokenAt
  · exact hleaf _ hs.tokenAt
  · exact hleaf _ hs.tokenAt
  · exact hleaf _ hs.tokenAt
  · refine skip_places.bind fun _ _ => ?_
    refine ih.expr.bind fun e he => ?_
    exact (expect_places .rParen).bind fun _ _ => .pure he
  · refine skip_places.bind fun _ _ => ?_
    refine (ih.items .rBracket).bind fun es hes => ?_
    exact (expect_places .rBracket).bind fun _ _ => .pure ⟨hs.tokenAt, hes⟩
  · refine skip_places.bind fun _ _ => ?_
    refine ih.fields.bind fun fs hfs => ?_
    exact (expect_places .rBrace).bind fun _ _ => .pure ⟨hs.tokenAt, hfs⟩
  · exact ih.expr
  · exact ih.expr
  · exact .fail hs.tokenAt

theorem items_places (close : Symbol) : Places tokens (items close (fuel + 1)) (PlacedAll tokens) := by
  rw [items]
  refine .get fun s _ => ?_
  split_ifs
  · exact .pure trivial
  · refine ih.expr.bind fun e he => ?_
    refine (accept_places .comma).bind fun more _ => ?_
    split_ifs
    · exact (ih.items close).bind fun es hes => .pure ⟨he, hes⟩
    · exact .pure ⟨he, trivial⟩

theorem fields_places : Places tokens (fields (fuel + 1)) (PlacedNamed tokens) := by
  rw [fields]
  refine .get fun s hs => ?_
  split_ifs
  · exact .pure trivial
  · refine identifier_places.bind fun name _ => ?_
    refine (expect_places .colon).bind fun _ _ => ?_
    refine ih.expr.bind fun value hvalue => ?_
    refine (accept_places .comma).bind fun more _ => ?_
    split_ifs
    · exact ih.fields.bind fun fs hfs => .pure ⟨hs.tokenAt, hvalue, hfs⟩
    · exact .pure ⟨hs.tokenAt, hvalue, trivial⟩

end

/-- **Parsers place what they build**, at every amount of fuel. -/
theorem placing (fuel : Nat) : Placing tokens fuel := by
  induction fuel with
  | zero =>
    refine ⟨?_, ?_, ?_, fun _ => ?_, fun _ => ?_, fun _ _ _ => ?_, ?_, fun _ _ => ?_, ?_, fun _ => ?_, ?_⟩
    all_goals exact .get fun s hs => .fail hs.tokenAt
  | succ fuel ih =>
    exact ⟨expr_places ih, bindings_places ih, ternary_places ih, binary_places ih, operand_places ih,
      chain_places ih, unary_places ih, suffixes_places ih, primary_places ih, items_places ih,
      fields_places ih⟩

end Parser

theorem parseAll_places : Parser.Places tokens parseAll (Expr.Placed tokens) := by
  refine Parser.Places.bind (.get fun s _ => (Parser.placing _).expr) fun e he => ?_
  refine .get fun s hs => ?_
  split_ifs
  · exact .pure he
  · exact .fail hs.tokenAt

/-- **The syntax error of a stream is at a token**, and so is everything in its expression. -/
theorem parse_placed {s : Stream} (h : s.Within tokens) :
    Ends (fun d => TokenAt tokens d.pos) (Expr.Placed tokens) (parse s) := by
  have hresult := parseAll_places s h
  unfold parse
  cases hrun : parseAll s with
  | ok e t =>
    rw [hrun] at hresult
    exact hresult.2
  | error d t =>
    rw [hrun] at hresult
    exact hresult

/-! ## Operations -/

mutual

/-- All positions in the operation are those of tokens, and those of calls are of opening
parentheses. -/
def Operation.Placed (tokens : List Token) : Operation → Prop
  | .const _ pos => TokenAt tokens pos
  | .load _ pos => TokenAt tokens pos
  | .lambda signature body => TokenAt tokens signature.pos ∧ body.Placed tokens
  | .call callee args pos => ParenAt tokens pos ∧ callee.Placed tokens ∧ PlacedOperations tokens args
  | .builtin _ args pos => TokenAt tokens pos ∧ PlacedOperations tokens args
  | .unary _ e pos => TokenAt tokens pos ∧ e.Placed tokens
  | .binary _ l r pos => TokenAt tokens pos ∧ l.Placed tokens ∧ r.Placed tokens
  | .cond c a b pos => TokenAt tokens pos ∧ c.Placed tokens ∧ a.Placed tokens ∧ b.Placed tokens
  | .letIn bindings body pos => TokenAt tokens pos ∧ PlacedBindings tokens bindings ∧ body.Placed tokens
  | .list items pos => TokenAt tokens pos ∧ PlacedOperations tokens items
  | .record fields pos => TokenAt tokens pos ∧ PlacedFields tokens fields
  | .field e _ pos => TokenAt tokens pos ∧ e.Placed tokens
  | .index e i pos => TokenAt tokens pos ∧ e.Placed tokens ∧ i.Placed tokens

def PlacedOperations (tokens : List Token) : List Operation → Prop
  | [] => True
  | op :: ops => op.Placed tokens ∧ PlacedOperations tokens ops

def PlacedBindings (tokens : List Token) : List (Nat × Operation) → Prop
  | [] => True
  | (_, op) :: bs => op.Placed tokens ∧ PlacedBindings tokens bs

def PlacedFields (tokens : List Token) : List (String × Operation) → Prop
  | [] => True
  | (_, op) :: fs => op.Placed tokens ∧ PlacedFields tokens fs

end

def Lambda.Placed (tokens : List Token) (f : Lambda) : Prop :=
  TokenAt tokens f.signature.pos ∧ f.body.Placed tokens

/-- The resolved value is in `P`, and the scope errors are at tokens. -/
def Resolved.Placed {α : Type} (tokens : List Token) (P : α → Prop) (r : Resolved α) : Prop :=
  P r.value ∧ ∀ d ∈ r.errors, TokenAt tokens d.pos

section

variable {s : Scope} {next : Nat}

theorem duplicateParams_placed {params : List Param} (h : ∀ p ∈ params, TokenAt tokens p.pos)
    (seen : List String) : ∀ d ∈ duplicateParams seen params, TokenAt tokens d.pos := by
  induction params generalizing seen with
  | nil => exact List.forall_mem_nil _
  | cons p ps ih =>
    obtain ⟨hp, hps⟩ := List.forall_mem_cons.1 h
    refine List.forall_mem_append.2 ⟨?_, ih hps _⟩
    split_ifs
    · exact List.forall_mem_singleton.2 hp
    · exact List.forall_mem_nil _

theorem resolveAll_placed {es : List Expr}
    (ih : ∀ e ∈ es, ∀ s next label, e.Placed tokens →
      (e.resolve s next label).Placed tokens (Operation.Placed tokens))
    (h : PlacedAll tokens es) : (resolveAll s next es).Placed tokens (PlacedOperations tokens) := by
  induction es generalizing next with
  | nil => exact ⟨trivial, List.forall_mem_nil _⟩
  | cons e es ihs =>
    obtain ⟨hop, herrors⟩ := ih e List.mem_cons_self s next none h.1
    obtain ⟨hops, herrors'⟩ := ihs (fun o ho => ih o (List.mem_cons_of_mem _ ho)) h.2
    exact ⟨⟨hop, hops⟩, List.forall_mem_append.2 ⟨herrors, herrors'⟩⟩

theorem resolveFields_placed {fs : List (Named Expr)} (seen : List String)
    (ih : ∀ f ∈ fs, ∀ s next label, f.value.Placed tokens →
      (f.value.resolve s next label).Placed tokens (Operation.Placed tokens))
    (h : PlacedNamed tokens fs) : (resolveFields s next seen fs).Placed tokens (PlacedFields tokens) := by
  induction fs generalizing next seen with
  | nil => exact ⟨trivial, List.forall_mem_nil _⟩
  | cons f fs ihs =>
    obtain ⟨hpos, hvalue, hrest⟩ := h
    obtain ⟨hop, herrors⟩ := ih f List.mem_cons_self s next (some f.name) hvalue
    obtain ⟨hops, herrors'⟩ := ihs (f.name :: seen) (fun o ho => ih o (List.mem_cons_of_mem _ ho)) hrest
    refine ⟨⟨hop, hops⟩, List.forall_mem_append.2 ⟨List.forall_mem_append.2 ⟨?_, herrors⟩, herrors'⟩⟩
    split_ifs
    · exact List.forall_mem_singleton.2 hpos
    · exact List.forall_mem_nil _

theorem resolveBindings_placed {bs : List (Named Expr)}
    (ih : ∀ b ∈ bs, ∀ s next label, b.value.Placed tokens →
      (b.value.resolve s next label).Placed tokens (Operation.Placed tokens))
    (h : PlacedNamed tokens bs) : (resolveBindings s next bs).1.Placed tokens (PlacedBindings tokens) := by
  induction bs generalizing s next with
  | nil => exact ⟨trivial, List.forall_mem_nil _⟩
  | cons b bs ihs =>
    obtain ⟨-, hvalue, hrest⟩ := h
    obtain ⟨hop, herrors⟩ := ih b List.mem_cons_self s next (some b.name) hvalue
    obtain ⟨hops, herrors'⟩ := ihs (fun o ho => ih o (List.mem_cons_of_mem _ ho)) hrest
    exact ⟨⟨hop, hops⟩, List.forall_mem_append.2 ⟨herrors, herrors'⟩⟩

end

theorem resolveName_placed (s : Scope) (name : String) {pos : Pos} (h : TokenAt tokens pos) :
    (resolveName s name pos).1.Placed tokens ∧ ∀ d ∈ (resolveName s name pos).2, TokenAt tokens d.pos := by
  unfold resolveName
  split
  · exact ⟨h, List.forall_mem_nil _⟩
  · split
    · exact ⟨h, List.forall_mem_nil _⟩
    · split
      · exact ⟨h, List.forall_mem_singleton.2 h⟩
      · exact ⟨h, List.forall_mem_singleton.2 h⟩

/-- **Resolution places what it makes**, and its errors. -/
theorem Expr.resolve_placed (e : Expr) (s : Scope) (next : Nat) (label : Option String)
    (h : e.Placed tokens) : (e.resolve s next label).Placed tokens (Operation.Placed tokens) := by
  induction e generalizing s next label with
  | lit => exact ⟨h, List.forall_mem_nil _⟩
  | ident name pos => exact resolveName_placed s name h
  | unary op e pos ih =>
    obtain ⟨hop, herrors⟩ := ih s next none h.2
    exact ⟨⟨h.1, hop⟩, herrors⟩
  | binary op l r pos ihl ihr =>
    obtain ⟨hl, hle⟩ := ihl s next none h.2.1
    obtain ⟨hr, hre⟩ := ihr s _ none h.2.2
    exact ⟨⟨h.1, hl, hr⟩, List.forall_mem_append.2 ⟨hle, hre⟩⟩
  | cond c a b pos ihc iha ihb =>
    obtain ⟨hpos, hc, ha, hb⟩ := h
    obtain ⟨hc, hce⟩ := ihc s next none hc
    obtain ⟨ha, hae⟩ := iha s _ none ha
    obtain ⟨hb, hbe⟩ := ihb s _ none hb
    exact ⟨⟨hpos, hc, ha, hb⟩, List.forall_mem_append.2 ⟨List.forall_mem_append.2 ⟨hce, hae⟩, hbe⟩⟩
  | call f args pos ihf ihargs =>
    obtain ⟨hpos, hf, hargs⟩ := h
    obtain ⟨hargs, hargse⟩ : (resolveAll s next args).Placed tokens (PlacedOperations tokens) :=
      resolveAll_placed ihargs hargs
    simp only [Expr.resolve]
    split
    · exact ⟨⟨hpos.tokenAt, hargs⟩, hargse⟩
    · obtain ⟨hf, hfe⟩ := ihf s _ none hf
      exact ⟨⟨hpos, hf, hargs⟩, List.forall_mem_append.2 ⟨hargse, hfe⟩⟩
  | index e i pos ihe ihi =>
    obtain ⟨he, hee⟩ := ihe s next none h.2.1
    obtain ⟨hi, hie⟩ := ihi s _ none h.2.2
    exact ⟨⟨h.1, he, hi⟩, List.forall_mem_append.2 ⟨hee, hie⟩⟩
  | field e name pos ih =>
    obtain ⟨hop, herrors⟩ := ih s next none h.2
    exact ⟨⟨h.1, hop⟩, herrors⟩
  | list items pos ih =>
    obtain ⟨hops, herrors⟩ := resolveAll_placed ih h.2
    exact ⟨⟨h.1, hops⟩, herrors⟩
  | record fields pos ih =>
    obtain ⟨hops, herrors⟩ := resolveFields_placed [] ih h.2
    exact ⟨⟨h.1, hops⟩, herrors⟩
  | lambda params body pos ih =>
    obtain ⟨hpos, hparams, hbody⟩ := h
    obtain ⟨hop, herrors⟩ := ih _ params.length none hbody
    exact ⟨⟨hpos, hop⟩, List.forall_mem_append.2 ⟨duplicateParams_placed hparams [], herrors⟩⟩
  | letIn bindings body pos ihs ih =>
    obtain ⟨hpos, hbindings, hbody⟩ := h
    obtain ⟨hops, herrors⟩ := resolveBindings_placed ihs hbindings
    obtain ⟨hop, herrors'⟩ := ih _ _ none hbody
    exact ⟨⟨hpos, hops, hop⟩, List.forall_mem_append.2 ⟨herrors, herrors'⟩⟩

/-- **The scope errors of a program are at tokens**, and so is everything in its function,
which has no name. -/
theorem Expr.toLambda_placed {e : Expr} (h : e.Placed tokens) :
    Ends (fun errors => ∀ d ∈ errors, TokenAt tokens d.pos)
      (fun main => main.signature.name = none ∧ main.Placed tokens) e.toLambda := by
  obtain ⟨hop, herrors⟩ := e.resolve_placed .empty 0 none h
  unfold Expr.toLambda
  dsimp only
  split
  · exact ⟨rfl, h.tokenAt, hop⟩
  · exact herrors

end DistanceField
