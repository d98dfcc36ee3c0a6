import DistanceField.Proofs.FieldOrder
import Mathlib

/-!
# Equality of values

Equality compares lists place by place, and records by what they hold under each name;
functions are equal only to themselves. As NaN equals nothing, it is no equivalence: it is
symmetric and transitive, and a value equals itself unless it holds a NaN outside of its
functions.

* `Value.equalsAll_iff`, `Value.equalsFields_iff`: equality of the parts.
* `Value.equals_symm`, `Value.equals_trans`, `Value.equals_self_iff`: the laws of equality.
* `Value.equals_partialEquivalence`: all of them, and the equality of records.
* `Fields.ofList_canonical`: records as maps from names to values.
-/

namespace DistanceField

/-! ## Related lists -/

section

variable {α β γ : Type} {R : α → β → Prop} {S : β → γ → Prop} {T : α → γ → Prop}

theorem forall₂_trans {as : List α} {bs : List β} {cs : List γ} (hR : List.Forall₂ R as bs)
    (hS : List.Forall₂ S bs cs) (hT : ∀ a ∈ as, ∀ b c, R a b → S b c → T a c) :
    List.Forall₂ T as cs := by
  induction hR generalizing cs with
  | nil =>
    cases hS
    exact .nil
  | cons hab _ ih =>
    cases hS with
    | cons hbc hrest =>
      refine .cons (hT _ List.mem_cons_self _ _ hab hbc) (ih hrest ?_)
      intro a ha
      exact hT a (List.mem_cons_of_mem _ ha)

theorem forall₂_symm {R' : β → α → Prop} {as : List α} {bs : List β} (hR : List.Forall₂ R as bs)
    (hR' : ∀ a ∈ as, ∀ b, R a b → R' b a) : List.Forall₂ R' bs as := by
  have hflip : List.Forall₂ (flip R') as bs := by
    have hand := (List.forall₂_and_left as bs).2 ⟨hR', hR⟩
    refine hand.imp ?_
    rintro a b ⟨hswap, hab⟩
    exact hswap b hab
  exact hflip.flip

end

namespace Value

/-! ## Equal parts -/

variable {u v w : Value}

theorem equalsAll_iff {vs ws : List Value} :
    equalsAll vs ws = true ↔ List.Forall₂ (fun v w => v.equals w = true) vs ws := by
  induction vs generalizing ws with
  | nil =>
    cases ws with
    | nil => exact ⟨fun _ => .nil, fun _ => rfl⟩
    | cons w ws => constructor <;> intro h <;> cases h
  | cons v vs ih =>
    cases ws with
    | nil => constructor <;> intro h <;> cases h
    | cons w ws => rw [equalsAll, Bool.and_eq_true, ih, List.forall₂_cons]

theorem equalsFields_iff {fs gs : List (String × Value)} :
    equalsFields fs gs = true ↔ List.Forall₂ (SameField fun v w => v.equals w = true) fs gs := by
  induction fs generalizing gs with
  | nil =>
    cases gs with
    | nil => exact ⟨fun _ => .nil, fun _ => rfl⟩
    | cons g gs => constructor <;> intro h <;> cases h
  | cons f fs ih =>
    cases gs with
    | nil => constructor <;> intro h <;> cases h
    | cons g gs =>
      obtain ⟨m, v⟩ := f
      obtain ⟨n, w⟩ := g
      rw [equalsFields, Bool.and_eq_true, Bool.and_eq_true, ih, List.forall₂_cons, beq_iff_eq]
      refine and_congr_left fun _ => ⟨?_, ?_⟩
      · rintro ⟨rfl, hvw⟩
        exact .intro m hvw
      · rintro ⟨-, hvw⟩
        exact ⟨rfl, hvw⟩

/-- Two values of one kind with parts that are related by `R`. -/
inductive Matches (R : Value → Value → Prop) : Value → Value → Prop
  | null : Matches R .null .null
  | bool (b : Bool) : Matches R (.bool b) (.bool b)
  | num {x y : Float} (h : (x == y) = true) : Matches R (.num x) (.num y)
  | str (s : String) : Matches R (.str s) (.str s)
  | list {vs ws : List Value} (h : List.Forall₂ R vs ws) : Matches R (.list vs) (.list ws)
  | record {fs gs : List (String × Value)} (h : List.Forall₂ (SameField R) fs gs) :
      Matches R (.record fs) (.record gs)
  | function {code code' : Lambda} {captured captured' : List Value} (origin : Origin) :
      Matches R (.function code captured origin) (.function code' captured' origin)

theorem matches_of_equals (h : v.equals w = true) : Matches (fun v w => v.equals w = true) v w := by
  cases v with
  | null =>
    cases w with
    | null => exact .null
    | _ => cases h
  | bool a =>
    cases w with
    | bool b =>
      obtain rfl : a = b := eq_of_beq h
      exact .bool a
    | _ => cases h
  | num x =>
    cases w with
    | num y => exact .num h
    | _ => cases h
  | str s =>
    cases w with
    | str t =>
      obtain rfl : s = t := eq_of_beq h
      exact .str s
    | _ => cases h
  | list vs =>
    cases w with
    | list ws => exact .list (equalsAll_iff.1 h)
    | _ => cases h
  | record fs =>
    cases w with
    | record gs => exact .record (equalsFields_iff.1 h)
    | _ => cases h
  | function code captured origin =>
    cases w with
    | function code' captured' origin' =>
      obtain rfl : origin = origin' := eq_of_beq h
      exact .function origin
    | _ => cases h

/-- **Equality of values is equality of their parts.** -/
theorem equals_iff : v.equals w = true ↔ Matches (fun v w => v.equals w = true) v w := by
  refine ⟨matches_of_equals, ?_⟩
  intro h
  cases h with
  | null => rfl
  | bool b => exact beq_self_eq_true b
  | num h => exact h
  | str s => exact beq_self_eq_true s
  | list h => exact equalsAll_iff.2 h
  | record h => exact equalsFields_iff.2 h
  | function origin => exact beq_self_eq_true origin

/-! ## The laws of equality -/

/-- **Equality is symmetric.** -/
theorem equals_symm (h : v.equals w = true) : w.equals v = true := by
  induction v generalizing w with
  | list vs ih =>
    cases equals_iff.1 h with
    | list hparts => exact equals_iff.2 (.list (forall₂_symm hparts fun v hv w => ih v hv))
  | record fs ih =>
    cases equals_iff.1 h with
    | record hparts =>
      refine equals_iff.2 (.record (forall₂_symm hparts ?_))
      rintro _ hmem _ ⟨name, hvw⟩
      exact .intro name (ih _ hmem hvw)
  | num x =>
    cases equals_iff.1 h with
    | num hxy => exact equals_iff.2 (.num (BEq.symm hxy))
  | function code captured origin =>
    cases equals_iff.1 h with
    | function => exact equals_iff.2 (.function origin)
  | _ =>
    cases equals_iff.1 h
    exact h

/-- **Equality is transitive.** -/
theorem equals_trans (h : u.equals v = true) (h' : v.equals w = true) : u.equals w = true := by
  induction u generalizing v w with
  | list us ih =>
    cases equals_iff.1 h with
    | list hleft =>
      cases equals_iff.1 h' with
      | list hright => exact equals_iff.2 (.list (forall₂_trans hleft hright fun v hv _ _ => ih v hv))
  | record fs ih =>
    cases equals_iff.1 h with
    | record hleft =>
      cases equals_iff.1 h' with
      | record hright =>
        refine equals_iff.2 (.record (forall₂_trans hleft hright ?_))
        rintro _ hmem _ _ ⟨name, huv⟩ ⟨_, hvw⟩
        exact .intro name (ih _ hmem huv hvw)
  | num x =>
    cases equals_iff.1 h with
    | num hxy =>
      cases equals_iff.1 h' with
      | num hyz => exact equals_iff.2 (.num (BEq.trans hxy hyz))
  | function code captured origin =>
    cases equals_iff.1 h with
    | function =>
      cases equals_iff.1 h' with
      | function => exact equals_iff.2 (.function origin)
  | _ =>
    cases equals_iff.1 h
    exact h'

/-- **The numbers in a value**, outside of its functions. -/
inductive Holds : Value → Float → Prop
  | num (x : Float) : Holds (.num x) x
  | item {items : List Value} {v : Value} {x : Float} (hmem : v ∈ items) (h : v.Holds x) :
      Holds (.list items) x
  | field {fields : List (String × Value)} {f : String × Value} {x : Float} (hmem : f ∈ fields)
      (h : f.2.Holds x) : Holds (.record fields) x

/-- No number in the value is NaN. -/
def NaNFree (v : Value) : Prop :=
  ∀ x, v.Holds x → x.isNaN = false

theorem nanFree_num {x : Float} : (num x).NaNFree ↔ x.isNaN = false := by
  constructor
  · intro h
    exact h x (.num x)
  · rintro h _ ⟨⟩
    exact h

theorem nanFree_list {items : List Value} : (list items).NaNFree ↔ ∀ v ∈ items, v.NaNFree := by
  constructor
  · intro h v hmem x hx
    exact h x (.item hmem hx)
  · intro h x hx
    cases hx with
    | item hmem hx => exact h _ hmem x hx

theorem nanFree_record {fields : List (String × Value)} :
    (record fields).NaNFree ↔ ∀ f ∈ fields, f.2.NaNFree := by
  constructor
  · intro h f hmem x hx
    exact h x (.field hmem hx)
  · intro h x hx
    cases hx with
    | field hmem hx => exact h _ hmem x hx

theorem beq_self_iff_not_isNaN {x : Float} : (x == x) = true ↔ x.isNaN = false := by
  rw [Float.beq_self_iff, Float.isNaN_eq_decide_eq_nan, decide_eq_false_iff_not]

/-- **A value equals itself unless it holds a NaN.** -/
theorem equals_self_iff : v.equals v = true ↔ v.NaNFree := by
  induction v with
  | null => exact ⟨fun _ => by rintro x ⟨⟩, fun _ => rfl⟩
  | bool b => exact ⟨fun _ => by rintro x ⟨⟩, fun _ => beq_self_eq_true b⟩
  | str s => exact ⟨fun _ => by rintro x ⟨⟩, fun _ => beq_self_eq_true s⟩
  | function code captured origin _ =>
    exact ⟨fun _ => by rintro x ⟨⟩, fun _ => beq_self_eq_true origin⟩
  | num x =>
    rw [nanFree_num, ← beq_self_iff_not_isNaN]
    rfl
  | list items ih =>
    rw [nanFree_list]
    change equalsAll items items = true ↔ _
    rw [equalsAll_iff, List.forall₂_same]
    exact forall₂_congr fun v hmem => ih v hmem
  | record fields ih =>
    rw [nanFree_record]
    change equalsFields fields fields = true ↔ _
    rw [equalsFields_iff, List.forall₂_same]
    refine forall₂_congr fun f hmem => ?_
    rw [← ih f hmem]
    constructor
    · rintro ⟨-, h⟩
      exact h
    · intro h
      exact .intro f.1 h

/-! ## Records -/

/-- Records are equal if they have the same names and equal values under each name. -/
theorem equals_record_iff {fs gs : List (String × Value)} (hf : Fields.Ordered fs)
    (hg : Fields.Ordered gs) :
    (record fs).equals (record gs) = true ↔
      (∀ name, name ∈ Fields.names fs ↔ name ∈ Fields.names gs) ∧
        ∀ name v w, Fields.get? fs name = some v → Fields.get? gs name = some w →
          v.equals w = true := by
  change equalsFields fs gs = true ↔ _
  rw [equalsFields_iff, hf.forall₂_iff hg]

/-- It is enough to count the fields and to look up those of one record in the other. -/
theorem equals_record_iff_subset {fs gs : List (String × Value)} (hf : Fields.Ordered fs)
    (hg : Fields.Ordered gs) :
    (record fs).equals (record gs) = true ↔
      fs.length = gs.length ∧ ∀ f ∈ fs, ∃ w, Fields.get? gs f.1 = some w ∧ f.2.equals w = true := by
  change equalsFields fs gs = true ↔ _
  rw [equalsFields_iff, hf.forall₂_iff_subset hg]

/-- **Equality is a partial equivalence.** It is symmetric and transitive, and a value equals
itself exactly if none of the numbers that it holds outside of functions is NaN. The records
that two lists of entries make are equal exactly if they have the same names and equal values
under each name; and for that it is enough that they have equally many fields, and that each
field of the one is found in the other with an equal value. -/
theorem equals_partialEquivalence :
    (∀ v w : Value, v.equals w = true → w.equals v = true) ∧
    (∀ u v w : Value, u.equals v = true → v.equals w = true → u.equals w = true) ∧
    (∀ v : Value, v.equals v = true ↔ ∀ x, v.Holds x → x.isNaN = false) ∧
    ∀ (entries entries' : List (String × Value)) (fs gs : List (String × Value)),
      fs = Fields.ofList entries → gs = Fields.ofList entries' →
        ((record fs).equals (record gs) = true ↔
          (∀ name, name ∈ Fields.names fs ↔ name ∈ Fields.names gs) ∧
            ∀ name v w, Fields.get? fs name = some v → Fields.get? gs name = some w →
              v.equals w = true) ∧
        ((record fs).equals (record gs) = true ↔
          fs.length = gs.length ∧
            ∀ f ∈ fs, ∃ w, Fields.get? gs f.1 = some w ∧ f.2.equals w = true) := by
  refine ⟨fun _ _ => equals_symm, fun _ _ _ => equals_trans, fun _ => equals_self_iff, ?_⟩
  rintro entries entries' fs gs rfl rfl
  have hf := Fields.ordered_ofList entries
  have hg := Fields.ordered_ofList entries'
  exact ⟨equals_record_iff hf hg, equals_record_iff_subset hf hg⟩

/-- Two zeros make equal records, whichever was set first; a list with NaN is not equal to
itself. -/
theorem equals_partialEquivalence_zeros :
    (record (Fields.ofList [("b", null), ("a", num 0)])).equals
      (record (Fields.ofList [("a", num (-0.0)), ("b", null)])) = true ∧
    (record (Fields.ofList [("a", num (-0.0)), ("b", null)])).equals
      (record (Fields.ofList [("b", null), ("a", num 0)])) = true ∧
    (list [num (0 / 0)]).equals (list [num (0 / 0)]) = false := by
  obtain ⟨hsymm, -, hself, -⟩ := equals_partialEquivalence
  have hzeros : (record (Fields.ofList [("b", null), ("a", num 0)])).equals
      (record (Fields.ofList [("a", num (-0.0)), ("b", null)])) = true := by decide +kernel
  refine ⟨hzeros, hsymm _ _ hzeros, ?_⟩
  rw [Bool.eq_false_iff]
  intro hequal
  have hfree := (hself _).1 hequal (0 / 0) (.item List.mem_cons_self (.num _))
  have hnan : (0 / 0 : Float).isNaN = true := by decide +kernel
  rw [hnan] at hfree
  cases hfree

end Value

/-! ## Records as maps -/

/-- **Two lists of entries make the same record.** It is one value, so nothing tells the two
apart inside of other values either. -/
structure SameRecord (entries entries' : List (String × Value)) : Prop where
  fields : Fields.ofList entries = Fields.ofList entries'
  names : Fields.names (Fields.ofList entries) = Fields.names (Fields.ofList entries')
  text : (Value.record (Fields.ofList entries)).text = (Value.record (Fields.ofList entries')).text
  equals : (∀ name v, Fields.IsLast entries name v → v.NaNFree) →
    (Value.record (Fields.ofList entries)).equals (.record (Fields.ofList entries')) = true

theorem SameRecord.of_isLast {entries entries' : List (String × Value)}
    (h : ∀ name v, Fields.IsLast entries name v ↔ Fields.IsLast entries' name v) :
    SameRecord entries entries' := by
  have hfields := Fields.ofList_eq_iff.2 h
  refine ⟨hfields, by rw [hfields], by rw [hfields], ?_⟩
  intro hfree
  rw [← hfields, Value.equals_self_iff, Value.nanFree_record]
  rintro ⟨name, v⟩ hmem
  have hget := (Fields.get?_eq_some_iff (Fields.ordered_ofList entries).nodup).2 hmem
  exact hfree name v (Fields.get?_ofList.1 hget)

/-- **Records are maps from names to values.** The record of a list of entries has under each
name the value of its last entry, and nothing under other names. Its names are those of the
entries, in increasing order and hence each once, as many as there are fields. Lists with the
same last entries make the same record, with the same names and the same text, and equal to
itself unless a value holds a NaN; where each name has one entry, their order does not
matter. -/
theorem Fields.ofList_canonical :
    (∀ (entries : List (String × Value)) (name : String),
      (∀ v, get? (ofList entries) name = some v ↔ IsLast entries name v) ∧
        (get? (ofList entries) name = none ↔ name ∉ names entries)) ∧
    (∀ entries : List (String × Value),
      (names (ofList entries)).Pairwise (· < ·) ∧
        (∀ name, name ∈ names (ofList entries) ↔ name ∈ names entries) ∧
        (names (ofList entries)).length = (ofList entries).length ∧
        (ofList entries).length = (names entries).dedup.length) ∧
    (∀ entries entries' : List (String × Value),
      (∀ name v, IsLast entries name v ↔ IsLast entries' name v) → SameRecord entries entries') ∧
    ∀ entries entries' : List (String × Value),
      entries.Perm entries' → (names entries).Nodup → SameRecord entries entries' := by
  refine ⟨?_, ?_, fun _ _ => SameRecord.of_isLast, ?_⟩
  · intro entries name
    refine ⟨fun v => get?_ofList, ?_⟩
    rw [← mem_names_ofList, mem_names_iff, Option.eq_none_iff_forall_ne_some, not_exists]
  · intro entries
    have hordered := ordered_ofList entries
    have hperm : (names (ofList entries)).Perm (names entries).dedup := by
      refine (List.perm_ext_iff_of_nodup hordered.nodup (List.nodup_dedup _)).2 ?_
      intro name
      rw [mem_names_ofList, List.mem_dedup]
    have hlength : (names (ofList entries)).length = (ofList entries).length := List.length_map _
    exact ⟨hordered, fun _ => mem_names_ofList, hlength, hlength ▸ hperm.length_eq⟩
  · intro entries entries' hperm hdistinct
    refine SameRecord.of_isLast ?_
    intro name v
    have hdistinct' : (names entries').Nodup := (hperm.map Prod.fst).nodup_iff.1 hdistinct
    rw [isLast_iff_mem hdistinct, isLast_iff_mem hdistinct', hperm.mem_iff]

/-- The later of two entries for `b` counts, and it does not matter where `a` stands. -/
theorem Fields.ofList_canonical_replaced :
    get? (ofList [("b", .num 1), ("a", .null), ("b", .str "x")]) "b" = some (Value.str "x") ∧
    SameRecord [("a", .null), ("b", .str "x")] [("b", .str "x"), ("a", .null)] := by
  obtain ⟨hget, -, -, hreorder⟩ := ofList_canonical
  have hlast : IsLast [("b", .num 1), ("a", .null), ("b", .str "x")] "b" (Value.str "x") :=
    ⟨[("b", .num 1), ("a", .null)], [], rfl, List.not_mem_nil⟩
  have hdistinct : (names [("a", Value.null), ("b", .str "x")]).Nodup := by decide
  exact ⟨((hget _ "b").1 _).2 hlast, hreorder _ _ (.swap _ _ _) hdistinct⟩

end DistanceField
