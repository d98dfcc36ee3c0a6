import DistanceField.Proofs.Placement
import DistanceField.Proofs.ScopedRuns
import DistanceField.Proofs.Tiling

/-!
# Locations of errors

Every error says where it is, and the place is real. A lexical error is at a character of
the source text, a syntax or scope error is at a token. An error of a run is at a token too,
and each call on its backtrace is at an opening parenthesis, also where the function that
fails was made elsewhere and called through others.

* `errorsFrom_characterIn`: lexical errors.
* `Program.ofSource_ends`: syntax and scope errors.
* `Operation.evalWith_located`, `applyWithin_located`: evaluation, by induction over the
  operation and on the number of calls that may be nested.
* `Program.locations`: all errors of a source text.
-/

namespace DistanceField

/-! ## Lexical errors -/

/-- A character of `cs`, a text that stands after `before`, is at the position. -/
def CharacterIn (before cs : List Char) (p : Pos) : Prop :=
  ∃ between c after, cs = between ++ c :: after ∧ p = .ofText (before ++ between)

/-- A character of the source text is at the position. -/
def CharacterAt (source : String) (p : Pos) : Prop :=
  CharacterIn [] source.toList p

namespace CharacterIn

variable {before cs : List Char} {p : Pos}

theorem of_lt {offset : Nat} (h : offset < cs.length) :
    CharacterIn before cs (.ofText (before ++ cs.take offset)) := by
  refine ⟨cs.take offset, cs[offset], cs.drop (offset + 1), ?_, rfl⟩
  rw [← List.drop_eq_getElem_cons h, List.take_append_drop]

theorem left (h : CharacterIn before cs p) (rest : List Char) : CharacterIn before (cs ++ rest) p := by
  obtain ⟨between, c, after, rfl, rfl⟩ := h
  exact ⟨between, c, after ++ rest, by simp, rfl⟩

theorem right {skipped : List Char} (h : CharacterIn (before ++ skipped) cs p) :
    CharacterIn before (skipped ++ cs) p := by
  obtain ⟨between, c, after, rfl, rfl⟩ := h
  exact ⟨skipped ++ between, c, after, by simp, by simp⟩

end CharacterIn

/-- The place of a backslash sequence without meaning is inside the literal. -/
theorem StringScan.unknown_lt {cs : List Char} {i : Nat} {c : Char}
    (h : (ofChars cs).unknown = some (i, c)) : i < (ofChars cs).lexeme.length := by
  fun_induction ofChars cs generalizing i with
  | case1 => cases h
  | case2 => cases h
  | case3 => cases h
  | case4 => cases h
  | case5 => cases h
  | case6 d cs _ e he ih =>
    obtain ⟨⟨j, d⟩, hj, heq⟩ := Option.map_eq_some_iff.1 h
    cases heq
    have hlt := ih hj
    simp only [push, List.length_append]
    omega
  | case7 d cs _ he ih =>
    cases h
    simp only [pushUnknown, List.length_cons]
    omega
  | case8 d cs _ _ _ _ _ ih =>
    obtain ⟨⟨j, d⟩, hj, heq⟩ := Option.map_eq_some_iff.1 h
    cases heq
    have hlt := ih hj
    simp only [push, List.length_append]
    omega

/-- What is wrong with a lexeme is at one of its characters. -/
theorem Scan.offset_lt {c : Char} {cs : List Char} {reason : Reason} {offset : Nat}
    (h : (ofChars c cs).reading = .error (reason, offset)) : offset < (ofChars c cs).lexeme.length := by
  have hpos := List.length_pos_iff.2 (lexeme_ne_nil c cs)
  by_cases hzero : offset = 0
  · rw [hzero]
    exact hpos
  -- only a backslash sequence is reported inside its lexeme
  unfold ofChars at h ⊢
  split at h
  · cases h
  · split_ifs at h ⊢
    · dsimp only [StringScan.reading] at h ⊢
      split_ifs at h
      · split at h
        · next i d hunknown =>
          cases h
          have hlt := StringScan.unknown_lt hunknown
          rw [List.length_cons]
          omega
        · cases h
      · cases h
        exact absurd rfl hzero
    · cases h
      exact absurd rfl hzero
    · cases h
      exact absurd rfl hzero

/-- **Lexical errors are at characters** of the text. -/
theorem errorsFrom_characterIn (before cs : List Char) :
    ∀ d ∈ errorsFrom (.ofText before) cs, CharacterIn before cs d.pos := by
  induction cs using pieces.induct generalizing before with
  | case1 cs hcs =>
    rw [(tokensFrom_nil _ hcs).2]
    exact List.forall_mem_nil _
  | case2 cs c rest hcs scan ps trailing hps ih =>
    have happend := splitTrivia_append .plain cs
    rw [hcs, ← Scan.lexeme_append_rest c rest] at happend
    have hwhole : ∀ p, CharacterIn before
        ((splitTrivia .plain cs).1 ++ ((Scan.ofChars c rest).lexeme ++ (Scan.ofChars c rest).rest)) p →
        CharacterIn before cs p := by
      intro p hp
      rwa [happend] at hp
    -- errors after this lexeme
    have hlater := ih (before ++ (splitTrivia .plain cs).1 ++ scan.lexeme)
    rw [Pos.ofText_append, Pos.ofText_append] at hlater
    cases hreading : (Scan.ofChars c rest).reading with
    | ok k =>
      rw [(tokensFrom_cons _ hcs hreading).2]
      exact fun d hd => hwhole _ (hlater d hd).right.right
    | error wrong =>
      obtain ⟨reason, offset⟩ := wrong
      rw [errorsFrom_cons _ hcs hreading]
      refine List.forall_mem_cons.2 ⟨?_, fun d hd => hwhole _ (hlater d hd).right.right⟩
      rw [← Pos.ofText_append, ← Pos.ofText_append]
      exact hwhole _ ((CharacterIn.of_lt (Scan.offset_lt hreading)).left _).right

theorem tokenize_error_characterAt {source : String} {errors : List Diagnostic}
    (h : tokenize source = .error errors) : ∀ d ∈ errors, CharacterAt source d.pos := by
  rw [tokenize_eq] at h
  split at h
  · cases h
  · cases h
    exact errorsFrom_characterIn [] source.toList

/-! ## Syntax and scope errors -/

variable {tokens : List Token}

/-- The end marker is a token. -/
theorem tokenize_ne_nil {source : String} (h : tokenize source = .ok tokens) : tokens ≠ [] := by
  obtain ⟨-, rfl⟩ := tokenize_eq_ok.1 h
  simp [tokensFrom]

/-- **A text whose tokens are read has its errors at tokens.** If it has none, its program is
placed among them and has no name. -/
theorem Program.ofSource_ends {source : String} (h : tokenize source = .ok tokens) :
    Ends (fun f => ∃ errors, f = .report errors ∧ ∀ d ∈ errors, TokenAt tokens d.pos)
      (fun p => p.main.signature.name = none ∧ p.main.Placed tokens) (Program.ofSource source) := by
  unfold Program.ofSource
  rw [h]
  cases tokens with
  | nil => exact absurd rfl (tokenize_ne_nil h)
  | cons t ts =>
    have hparse : Ends (fun f => ∃ errors, f = .report errors ∧ ∀ d ∈ errors, TokenAt (t :: ts) d.pos)
        (Expr.Placed (t :: ts)) (parseTokens (t :: ts)) := by
      have hplaced : Ends _ _ (parse ⟨t, ts⟩) := parse_placed fun u hu => hu
      unfold parseTokens
      dsimp only [Stream.ofList?]
      cases hresult : parse ⟨t, ts⟩ with
      | ok e => exact hplaced.of_eq_ok hresult
      | error d => exact ⟨[d], rfl, List.forall_mem_singleton.2 (hplaced.of_eq_error hresult)⟩
    refine hparse.bind fun e he => ?_
    have hlambda := Expr.toLambda_placed he
    cases hresult : e.toLambda with
    | ok main => exact hlambda.of_eq_ok hresult
    | error errors => exact ⟨errors, rfl, hlambda.of_eq_error hresult⟩

/-! ## Places of failures -/

/-- The place is a token, and the calls that led there are at opening parentheses. -/
def Context.Located (tokens : List Token) (c : Context) : Prop :=
  (∃ p, c.pos = some p ∧ TokenAt tokens p) ∧
    ∀ site ∈ c.backtrace, ∃ q, site.pos = some q ∧ ParenAt tokens q

/-- A failure that is reported says where it is. -/
def Failure.Located (tokens : List Token) : Failure EvalError → Prop
  | .report e => e.context.Located tokens
  | .outOfBounds => True

/-- All calls under way but the start of the run are at opening parentheses. -/
def Chain.Located (tokens : List Token) (chain : Chain) : Prop :=
  ∀ site ∈ chain, site.isRoot = false → ∃ q, site.pos = some q ∧ ParenAt tokens q

theorem Fault.atPos_located (f : Fault) {pos : Pos} {chain : Chain} (hpos : TokenAt tokens pos)
    (hchain : chain.Located tokens) : (f.atPos pos chain).Located tokens := by
  refine ⟨⟨pos, rfl, hpos⟩, fun site hsite => ?_⟩
  obtain ⟨hmem, hroot⟩ := List.mem_filter.1 hsite
  exact hchain site hmem (by simpa using hroot)

/-! ## Code of values -/

/-- All functions in the value, also among captured values, have code in `P`. -/
inductive Value.AllCode (P : Lambda → Prop) : Value → Prop
  | null : AllCode P .null
  | bool (b : Bool) : AllCode P (.bool b)
  | num (x : Float) : AllCode P (.num x)
  | str (s : String) : AllCode P (.str s)
  | list {items : List Value} : (∀ v ∈ items, AllCode P v) → AllCode P (.list items)
  | record {fields : List (String × Value)} : (∀ f ∈ fields, AllCode P f.2) → AllCode P (.record fields)
  | function {code : Lambda} {captured : List Value} {origin : Origin} : P code →
      (∀ v ∈ captured, AllCode P v) → AllCode P (.function code captured origin)

section

variable {P : Lambda → Prop}

theorem Value.Plain.allCode {v : Value} (h : v.Plain) : v.AllCode P := by
  cases h with
  | bool b => exact .bool b
  | num x => exact .num x
  | vector xs =>
    refine .list fun v hv => ?_
    obtain ⟨x, -, rfl⟩ := List.mem_map.1 hv
    exact .num x

theorem Value.ofLiteral_allCode (l : Literal) : (Value.ofLiteral l).AllCode P := by
  cases l with
  | null => exact .null
  | bool b => exact .bool b
  | num x => exact .num x
  | str s => exact .str s

theorem Value.AllCode.of_list {v : Value} (h : v.AllCode P) (items : List Value) (hv : v = .list items) :
    ∀ w ∈ items, w.AllCode P := by
  subst hv
  cases h with
  | list hitems => exact hitems

theorem Value.AllCode.of_record {v : Value} (h : v.AllCode P) (fs : List (String × Value))
    (hv : v = .record fs) : ∀ f ∈ fs, f.2.AllCode P := by
  subst hv
  cases h with
  | record hfields => exact hfields

end

/-! ## Evaluation -/

/-- The functions in the value have placed code. -/
def Value.Placed (tokens : List Token) (v : Value) : Prop :=
  v.AllCode (Lambda.Placed tokens)

structure Frame.Placed (tokens : List Token) (fr : Frame) : Prop where
  slots : ∀ i v, fr.slots.get? i = some v → v.Placed tokens
  captured : ∀ v ∈ fr.captured, v.Placed tokens
  chain : fr.chain.Located tokens

namespace Frame.Placed

variable {fr : Frame}

theorem get? (h : fr.Placed tokens) {ref : Reference} {v : Value} (hv : fr.get? ref = some v) :
    v.Placed tokens := by
  cases ref with
  | slot i => exact h.slots i v hv
  | captured i => exact h.captured v (List.mem_of_getElem? hv)

theorem set (h : fr.Placed tokens) (slot : Nat) {v : Value} (hv : v.Placed tokens) :
    Ends (Failure.Located tokens) (Frame.Placed tokens) (fr.set slot v) := by
  unfold Frame.set
  split
  · next slots hset =>
    refine ⟨fun i w hw => ?_, h.captured, h.chain⟩
    by_cases heq : i = slot
    · subst heq
      have hself := (Slots.get?_set?_self hset).symm.trans hw
      cases hself
      exact hv
    · exact h.slots i w ((Slots.get?_set?_of_ne hset (Ne.symm heq)).symm.trans hw)
  · trivial

theorem locate {α : Type} {E : Fault → Prop} {P : α → Prop} {r : Except Fault α} (h : fr.Placed tokens)
    {pos : Pos} (hpos : TokenAt tokens pos) (hr : Ends E P r) :
    Ends (Failure.Located tokens) P (fr.locate pos r) := by
  cases r with
  | ok a => exact hr
  | error f => exact f.atPos_located hpos h.chain

theorem captureAll (h : fr.Placed tokens) {pos : Pos} (hpos : TokenAt tokens pos)
    (refs : List Reference) :
    Ends (Failure.Located tokens) (fun vs : List Value => ∀ v ∈ vs, v.Placed tokens)
      (captureAll fr pos refs) := by
  induction refs with
  | nil => exact List.forall_mem_nil _
  | cons ref refs ih =>
    unfold DistanceField.captureAll
    split
    · next v hv => exact ih.bind fun vs hvs => List.forall_mem_cons.2 ⟨h.get? hv, hvs⟩
    · exact Fault.atPos_located _ hpos h.chain

end Frame.Placed

section

variable {apply : Call → Except (Failure EvalError) Value}
  (happly : ∀ c : Call, ParenAt tokens c.pos → c.chain.Located tokens → c.callee.toValue.Placed tokens →
    (∀ v ∈ c.args, v.Placed tokens) → Ends (Failure.Located tokens) (Value.Placed tokens) (apply c))
  {fr : Frame}

theorem evalAll_located {ops : List Operation}
    (ih : ∀ op ∈ ops, ∀ fr origin, op.Placed tokens → fr.Placed tokens →
      Ends (Failure.Located tokens) (Value.Placed tokens) (op.evalWith apply fr origin))
    (h : PlacedOperations tokens ops) (hfr : fr.Placed tokens) (origin : Origin) (n : Nat) :
    Ends (Failure.Located tokens) (fun vs : List Value => ∀ v ∈ vs, v.Placed tokens)
      (evalAll apply fr origin n ops) := by
  induction ops generalizing n with
  | nil => exact List.forall_mem_nil _
  | cons op ops ihs =>
    unfold evalAll
    refine (ih op List.mem_cons_self fr _ h.1 hfr).bind fun v hv => ?_
    refine (ihs (fun o ho => ih o (List.mem_cons_of_mem _ ho)) h.2 _).bind fun vs hvs => ?_
    exact List.forall_mem_cons.2 ⟨hv, hvs⟩

theorem evalFields_located {fs : List (String × Operation)}
    (ih : ∀ f ∈ fs, ∀ fr origin, f.2.Placed tokens → fr.Placed tokens →
      Ends (Failure.Located tokens) (Value.Placed tokens) (f.2.evalWith apply fr origin))
    (h : PlacedFields tokens fs) (hfr : fr.Placed tokens) (origin : Origin) (n : Nat) :
    Ends (Failure.Located tokens) (fun vs : List (String × Value) => ∀ v ∈ vs, v.2.Placed tokens)
      (evalFields apply fr origin n fs) := by
  induction fs generalizing n with
  | nil => exact List.forall_mem_nil _
  | cons f fs ihs =>
    unfold evalFields
    refine (ih f List.mem_cons_self fr _ h.1 hfr).bind fun v hv => ?_
    refine (ihs (fun o ho => ih o (List.mem_cons_of_mem _ ho)) h.2 _).bind fun vs hvs => ?_
    exact List.forall_mem_cons.2 ⟨hv, hvs⟩

theorem evalBindings_located {bs : List (Nat × Operation)}
    (ih : ∀ b ∈ bs, ∀ fr origin, b.2.Placed tokens → fr.Placed tokens →
      Ends (Failure.Located tokens) (Value.Placed tokens) (b.2.evalWith apply fr origin))
    (h : PlacedBindings tokens bs) (hfr : fr.Placed tokens) (origin : Origin) (n : Nat) :
    Ends (Failure.Located tokens) (Frame.Placed tokens) (evalBindings apply fr origin n bs) := by
  induction bs generalizing fr n with
  | nil => exact hfr
  | cons b bs ihs =>
    unfold evalBindings
    refine (ih b List.mem_cons_self fr _ h.1 hfr).bind fun v hv => ?_
    refine (hfr.set b.1 hv).bind fun fr' hfr' => ?_
    exact ihs (fun o ho => ih o (List.mem_cons_of_mem _ ho)) h.2 hfr' _

include happly in
/-- **Placed code fails at tokens** and gives values with placed code, if the calls that it
makes do. -/
theorem Operation.evalWith_located {op : Operation} (h : op.Placed tokens) (hfr : fr.Placed tokens)
    (origin : Origin) :
    Ends (Failure.Located tokens) (Value.Placed tokens) (op.evalWith apply fr origin) := by
  induction op generalizing fr origin with
  | const value pos => exact Value.ofLiteral_allCode value
  | load ref pos =>
    unfold Operation.evalWith
    split
    · next v hv => exact hfr.get? hv
    · exact Fault.atPos_located _ h hfr.chain
  | lambda signature body ih =>
    unfold Operation.evalWith
    exact (hfr.captureAll h.1 signature.captures).bind fun vs hvs => Value.AllCode.function h hvs
  | call callee args pos ihf ihs =>
    obtain ⟨hpos, hcallee, hargs⟩ := h
    unfold Operation.evalWith
    refine (ihf hcallee hfr _).bind fun v hv => ?_
    split
    · next f hf =>
      rw [Value.closure?_eq_some hf] at hv
      refine (evalAll_located (fun a ha fr origin h hfr => ihs a ha h hfr origin) hargs hfr
        origin 1).bind fun vs hvs => ?_
      exact happly _ hpos hfr.chain hv hvs
    · exact Fault.atPos_located _ hpos.tokenAt hfr.chain
  | builtin b args pos ihs =>
    unfold Operation.evalWith
    refine (evalAll_located (fun a ha fr origin h hfr => ihs a ha h hfr origin) h.2 hfr
      origin 0).bind fun vs _ => ?_
    exact hfr.locate h.1 ((b.apply_ends vs).mono fun _ hv => hv.allCode)
  | unary op e pos ih =>
    unfold Operation.evalWith
    refine (ih h.2 hfr _).bind fun v _ => ?_
    exact hfr.locate h.1 ((op.apply_ends v).mono fun _ hv => hv.allCode)
  | binary op l r pos ihl ihr =>
    obtain ⟨hpos, hl, hr⟩ := h
    unfold Operation.evalWith
    refine (ihl hl hfr _).bind fun v _ => ?_
    split
    · refine (hfr.locate hpos v.condition_ends).bind fun b _ => ?_
      split
      · exact Value.AllCode.bool _
      · refine (ihr hr hfr _).bind fun w _ => ?_
        exact (hfr.locate hpos w.condition_ends).bind fun b _ => Value.AllCode.bool b
    · refine (ihr hr hfr _).bind fun w _ => ?_
      exact hfr.locate hpos ((op.apply_ends v w).mono fun _ hv => hv.allCode)
  | cond c a b pos ihc iha ihb =>
    obtain ⟨hpos, hc, ha, hb⟩ := h
    unfold Operation.evalWith
    refine (ihc hc hfr _).bind fun v _ => ?_
    refine (hfr.locate hpos v.condition_ends).bind fun t _ => ?_
    split
    · exact iha ha hfr _
    · exact ihb hb hfr _
  | letIn bindings body pos ihs ih =>
    unfold Operation.evalWith
    refine (evalBindings_located (fun b hb fr origin h hfr => ihs b hb h hfr origin) h.2.1 hfr
      origin 1).bind fun inner hinner => ?_
    exact ih h.2.2 hinner _
  | list items pos ihs =>
    unfold Operation.evalWith
    exact (evalAll_located (fun a ha fr origin h hfr => ihs a ha h hfr origin) h.2 hfr
      origin 0).bind fun vs hvs => Value.AllCode.list hvs
  | record fields pos ihs =>
    unfold Operation.evalWith
    refine (evalFields_located (fun f hf fr origin h hfr => ihs f hf h hfr origin) h.2 hfr
      origin 0).bind fun vs hvs => ?_
    exact Value.AllCode.record fun f hf => hvs f (Fields.mem_ofList hf)
  | field e name pos ih =>
    unfold Operation.evalWith
    refine (ih h.2 hfr _).bind fun v hv => ?_
    exact hfr.locate h.1 (v.field_ends name hv.of_record hv.of_list)
  | index e i pos ihe ihi =>
    unfold Operation.evalWith
    refine (ihe h.2.1 hfr _).bind fun v hv => ?_
    refine (ihi h.2.2 hfr _).bind fun w _ => ?_
    exact hfr.locate h.1 (v.index_ends w hv.of_list)

include happly in
theorem Closure.enterWith_located {f : Closure} (hf : f.toValue.Placed tokens) {args : List Value}
    (hargs : ∀ v ∈ args, v.Placed tokens) {chain : Chain} (hchain : chain.Located tokens)
    (origin : Origin) :
    Ends (Failure.Located tokens) (Value.Placed tokens) (f.enterWith apply chain origin args) := by
  cases hf with
  | function hcode hcaptured =>
    unfold Closure.enterWith Frame.enter
    split
    · next slots hslots =>
      refine Operation.evalWith_located happly hcode.2 ⟨fun i v hv => ?_, hcaptured, hchain⟩ origin
      rw [Slots.get?_ofArgs? hslots] at hv
      exact hargs v (List.mem_of_getElem? hv)
    · trivial

end

/-- **Calls fail at tokens.** The call joins the chain of those that are under way inside it,
at its opening parenthesis. -/
theorem applyWithin_located (limit budget : Nat) (c : Call) (hpos : ParenAt tokens c.pos)
    (hchain : c.chain.Located tokens) (hf : c.callee.toValue.Placed tokens)
    (hargs : ∀ v ∈ c.args, v.Placed tokens) :
    Ends (Failure.Located tokens) (Value.Placed tokens) (applyWithin limit budget c) := by
  induction budget generalizing c with
  | zero =>
    unfold applyWithin
    split
    · exact Fault.atPos_located _ hpos.tokenAt hchain
    · exact Fault.atPos_located _ hpos.tokenAt hchain
  | succ budget ih =>
    unfold applyWithin
    split
    · exact Fault.atPos_located _ hpos.tokenAt hchain
    · refine Closure.enterWith_located ih hf hargs (List.forall_mem_cons.2 ⟨fun _ => ?_, hchain⟩) _
      exact ⟨c.pos, rfl, hpos⟩

/-- A run starts with a chain that lists no call. -/
theorem Program.run_located {p : Program} (hname : p.main.signature.name = none)
    (hmain : p.main.Placed tokens) (options : Options) (serial : Nat) :
    Ends (Failure.Located tokens) (Value.Placed tokens) (p.run options serial) := by
  unfold Program.run Closure.call
  split
  · exact ⟨⟨_, rfl, hmain.1⟩, List.forall_mem_nil _⟩
  · have hchain : Chain.Located tokens [⟨p.main.signature.name, none⟩] := by
      refine List.forall_mem_singleton.2 fun hroot => ?_
      rw [hname] at hroot
      cases hroot
    exact Closure.enterWith_located (applyWithin_located _ _) (.function hmain (List.forall_mem_nil _))
      (List.forall_mem_nil _) hchain _

/-- **Every reported location is a real one.** Lexical errors are at characters of the
source text. Where its tokens are read, syntax and scope errors are at tokens, the end marker
included; a run that fails reports an error at a token, and every call on its backtrace is at
an opening parenthesis. -/
theorem Program.locations (source : String) :
    (∀ errors, tokenize source = .error errors → ∀ d ∈ errors, CharacterAt source d.pos) ∧
    ∀ tokens, tokenize source = .ok tokens →
      (∀ failure, Program.ofSource source = .error failure →
        ∃ errors, failure = .report errors ∧ ∀ d ∈ errors, TokenAt tokens d.pos) ∧
      ∀ p, Program.ofSource source = .ok p → ∀ options serial failure,
        p.run options serial = .error failure →
        ∃ e, failure = .report e ∧ (∃ pos, e.context.pos = some pos ∧ TokenAt tokens pos) ∧
          ∀ site ∈ e.context.backtrace, ∃ pos, site.pos = some pos ∧ ParenAt tokens pos := by
  refine ⟨fun errors herrors => tokenize_error_characterAt herrors, fun tokens htokens => ?_⟩
  have hsource := Program.ofSource_ends htokens
  refine ⟨fun failure hfailure => hsource.of_eq_error hfailure, fun p hp options serial failure hfailure => ?_⟩
  obtain ⟨hname, hmain⟩ := hsource.of_eq_ok hp
  have hlocated := (Program.run_located hname hmain options serial).of_eq_error hfailure
  -- a run of a program from a text stays within the bounds of its frames
  have hdynamic := (Program.run_ends hp options serial).of_eq_error hfailure
  cases failure with
  | report e => exact ⟨e, rfl, hlocated.1, hlocated.2⟩
  | outOfBounds => exact hdynamic.elim

/-- Sources that fail at each stage: two lexical errors, two names that are bound nowhere, and
a number that is called two calls below the start of the run. -/
theorem Program.locations_failures :
    (∃ errors, tokenize "1 # \"\\q\"" = .error errors ∧ errors.length = 2 ∧
      ∀ d ∈ errors, CharacterAt "1 # \"\\q\"" d.pos) ∧
    (∃ tokens errors, tokenize "a + b" = .ok tokens ∧
      Program.ofSource "a + b" = .error (.report errors) ∧ errors.length = 2 ∧
      ∀ d ∈ errors, TokenAt tokens d.pos) ∧
    ∃ tokens p e, tokenize "let f = x -> x(1); g = y -> f(y) in g(2)" = .ok tokens ∧
      Program.ofSource "let f = x -> x(1); g = y -> f(y) in g(2)" = .ok p ∧
      p.run .standard 0 = .error (.report e) ∧ e.context.backtrace.length = 2 ∧
      (∃ pos, e.context.pos = some pos ∧ TokenAt tokens pos) ∧
      ∀ site ∈ e.context.backtrace, ∃ pos, site.pos = some pos ∧ ParenAt tokens pos := by
  refine ⟨?_, ?_, ?_⟩
  · have hcheck : (match tokenize "1 # \"\\q\"" with
        | .error errors => errors.length == 2
        | .ok _ => false) = true := by decide +kernel
    split at hcheck
    · next errors herrors =>
      exact ⟨errors, herrors, beq_iff_eq.1 hcheck, (Program.locations _).1 errors herrors⟩
    · cases hcheck
  · have hcheck : (match tokenize "a + b", Program.ofSource "a + b" with
        | .ok _, .error (.report errors) => errors.length == 2
        | _, _ => false) = true := by decide +kernel
    split at hcheck
    · next tokens errors htokens hsource =>
      obtain ⟨_, heq, hat⟩ := ((Program.locations _).2 tokens htokens).1 _ hsource
      cases heq
      exact ⟨tokens, errors, htokens, hsource, beq_iff_eq.1 hcheck, hat⟩
    · cases hcheck
  · have hcheck : (match tokenize "let f = x -> x(1); g = y -> f(y) in g(2)",
          Program.ofSource "let f = x -> x(1); g = y -> f(y) in g(2)" with
        | .ok _, .ok p =>
          match p.run .standard 0 with
          | .error (.report e) => e.context.backtrace.length == 2
          | _ => false
        | _, _ => false) = true := by decide +kernel
    split at hcheck
    · next tokens p htokens hsource =>
      split at hcheck
      · next e hrun =>
        obtain ⟨_, heq, hpos, hat⟩ := ((Program.locations _).2 tokens htokens).2 p hsource _ _ _ hrun
        cases heq
        exact ⟨tokens, p, e, htokens, hsource, hrun, beq_iff_eq.1 hcheck, hpos, hat⟩
      · cases hcheck
    · cases hcheck

end DistanceField
