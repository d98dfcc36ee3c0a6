import DistanceField.Proofs.Representation
import Mathlib.Data.List.Perm.Subperm

/-!
# Fields as maps

The fields of a record stand in increasing order of their names, each name once. What they
hold under each name therefore says all about them: the order in which the fields were set,
and the entries that were replaced, leave no trace.

* `Fields.ordered_ofList`, `Fields.get?_ofList`: what is left of a list of entries, in order
  and with the last value for each name.
* `Fields.Ordered.forall₂_iff`: fields are related place by place if they have the same names
  and are related under each name.
* `Fields.Ordered.forall₂_iff_subset`: for this, equally many fields and one inclusion of the
  names are enough.
* `Fields.ofList_eq_iff`: two lists of entries leave the same fields.
-/

namespace DistanceField.Fields

variable {α : Type} {fs gs entries : List (String × α)} {name : String}

/-! ## Names -/

/-- **The names are in increasing order**, so each of them stands there once. -/
def Ordered (fs : List (String × α)) : Prop :=
  (names fs).Pairwise (· < ·)

theorem mem_names_insert {other : String} {value : α} :
    other ∈ names (insert name value fs) ↔ other = name ∨ other ∈ names fs := by
  induction fs with
  | nil => simp only [insert, names, List.map_cons, List.map_nil, List.mem_cons]
  | cons f fs ih =>
    obtain ⟨n, v⟩ := f
    unfold insert
    split_ifs with hlt heq
    · simp only [names, List.map_cons, List.mem_cons]
    · subst heq
      simp only [names, List.map_cons, List.mem_cons]
      tauto
    · simp only [names, List.map_cons, List.mem_cons] at ih ⊢
      rw [ih]
      tauto

theorem lt_of_not_lt_of_ne {a b : String} (hlt : ¬ a < b) (hne : a ≠ b) : b < a := by
  by_contra hnot
  exact hne (String.le_antisymm (String.not_lt.1 hnot) (String.not_lt.1 hlt))

/-- Setting a name keeps the order. -/
theorem Ordered.insert (h : Ordered fs) (name : String) (value : α) :
    Ordered (insert name value fs) := by
  induction fs with
  | nil => exact List.pairwise_singleton _ name
  | cons f fs ih =>
    obtain ⟨n, v⟩ := f
    have hcons := List.pairwise_cons.1 h
    unfold Fields.insert
    split_ifs with hlt heq
    · refine List.pairwise_cons.2 ⟨?_, h⟩
      intro other hother
      rcases List.mem_cons.1 hother with rfl | hrest
      · exact hlt
      · exact String.lt_trans hlt (hcons.1 other hrest)
    · subst heq
      exact h
    · refine List.pairwise_cons.2 ⟨?_, ih hcons.2⟩
      intro other hother
      rcases mem_names_insert.1 hother with rfl | hrest
      · exact lt_of_not_lt_of_ne hlt heq
      · exact hcons.1 other hrest

theorem Ordered.nodup (h : Ordered fs) : (names fs).Nodup := by
  refine h.imp ?_
  intro a b hlt heq
  exact String.lt_irrefl b (heq ▸ hlt)

/-- A name is set exactly if there is a value under it. -/
theorem mem_names_iff : name ∈ names fs ↔ ∃ v, get? fs name = some v := by
  rw [← Option.isSome_iff_exists, get?, List.lookup_isSome_iff]
  constructor
  · intro h
    obtain ⟨f, hf, rfl⟩ := List.mem_map.1 h
    exact ⟨f, hf, beq_self_eq_true f.1⟩
  · rintro ⟨f, hf, hname⟩
    exact List.mem_map.2 ⟨f, hf, (eq_of_beq hname).symm⟩

/-- Fields with distinct names hold each of their values under its name. -/
theorem get?_eq_some_iff (h : (names fs).Nodup) {v : α} : get? fs name = some v ↔ (name, v) ∈ fs := by
  refine ⟨mem_of_get?, ?_⟩
  intro hmem
  induction fs with
  | nil => cases hmem
  | cons f fs ih =>
    obtain ⟨n, w⟩ := f
    have hcons := List.nodup_cons.1 h
    rw [get?, List.lookup_cons]
    rcases List.mem_cons.1 hmem with heq | hrest
    · cases heq
      rw [beq_self_eq_true]
    · have hne : name ≠ n := by
        rintro rfl
        have hname : (name, v).1 ∈ names fs := List.mem_map_of_mem hrest
        exact hcons.1 hname
      rw [beq_false_of_ne hne]
      exact ih hcons.2 hrest

/-! ## Entries in turn -/

theorem ordered_foldl (entries : List (String × α)) :
    ∀ fs, Ordered fs → Ordered (entries.foldl (fun fs e => insert e.1 e.2 fs) fs) := by
  induction entries with
  | nil =>
    intro fs h
    exact h
  | cons e entries ih =>
    intro fs h
    exact ih _ (h.insert e.1 e.2)

theorem ordered_ofList (entries : List (String × α)) : Ordered (ofList entries) :=
  ordered_foldl entries [] List.Pairwise.nil

/-- Entries that are set hide what stood under their names, the last one for a name first. -/
theorem get?_foldl (entries : List (String × α)) (name : String) :
    ∀ fs, get? (entries.foldl (fun fs e => insert e.1 e.2 fs) fs) name =
      (entries.reverse.lookup name).or (get? fs name) := by
  induction entries with
  | nil =>
    intro fs
    rfl
  | cons e entries ih =>
    intro fs
    obtain ⟨n, v⟩ := e
    rw [List.foldl_cons, ih, List.reverse_cons, List.lookup_append, Option.or_assoc]
    congr 1
    by_cases hname : name = n
    · subst hname
      rw [get?_insert_self, List.lookup_cons, beq_self_eq_true]
      rfl
    · rw [get?_insert_of_ne hname, List.lookup_cons, beq_false_of_ne hname]
      rfl

theorem get?_ofList_eq (entries : List (String × α)) (name : String) :
    get? (ofList entries) name = entries.reverse.lookup name := by
  have hfold := get?_foldl entries name []
  rw [show get? ([] : List (String × α)) name = none from rfl, Option.or_none] at hfold
  exact hfold

/-- The last entry for a name has this value. -/
def IsLast (entries : List (String × α)) (name : String) (v : α) : Prop :=
  ∃ before after, entries = before ++ (name, v) :: after ∧ name ∉ names after

theorem isLast_iff_lookup {v : α} : IsLast entries name v ↔ entries.reverse.lookup name = some v := by
  rw [List.lookup_eq_some_iff]
  constructor
  · rintro ⟨before, after, rfl, hnot⟩
    refine ⟨after.reverse, before.reverse, by simp, ?_⟩
    intro e he
    rw [bne_iff_ne]
    rintro rfl
    exact hnot (List.mem_map_of_mem (List.mem_reverse.1 he))
  · rintro ⟨later, earlier, hsplit, hne⟩
    refine ⟨earlier.reverse, later.reverse, ?_, ?_⟩
    · rw [← List.reverse_reverse entries, hsplit]
      simp
    · intro hmem
      obtain ⟨e, he, rfl⟩ := List.mem_map.1 hmem
      exact bne_iff_ne.1 (hne e (List.mem_reverse.1 he)) rfl

/-- **The last entry for a name counts.** -/
theorem get?_ofList {v : α} : get? (ofList entries) name = some v ↔ IsLast entries name v := by
  rw [get?_ofList_eq, isLast_iff_lookup]

/-- Where each name has one entry, it is the last one. -/
theorem isLast_iff_mem (hdistinct : (names entries).Nodup) {v : α} :
    IsLast entries name v ↔ (name, v) ∈ entries := by
  have hreverse : (names entries.reverse).Nodup :=
    ((List.reverse_perm entries).map Prod.fst).nodup_iff.2 hdistinct
  rw [isLast_iff_lookup, ← get?, get?_eq_some_iff hreverse, List.mem_reverse]

theorem mem_names_ofList : name ∈ names (ofList entries) ↔ name ∈ names entries := by
  rw [mem_names_iff, get?_ofList_eq, ← get?, ← mem_names_iff, names, List.map_reverse,
    List.mem_reverse, names]

/-! ## Fields are determined by their values -/

section

variable {β : Type} {R : α → β → Prop} {hs : List (String × β)}

/-- Ordered fields with the same names are related if their values are. -/
theorem Ordered.forall₂_of_names_eq (hf : Ordered fs) (hh : Ordered hs) (hnames : names fs = names hs)
    (hR : ∀ name v w, get? fs name = some v → get? hs name = some w → R v w) :
    List.Forall₂ (SameField R) fs hs := by
  have hmembers : ∀ name v w, (name, v) ∈ fs → (name, w) ∈ hs → R v w := by
    intro name v w hv hw
    exact hR name v w ((get?_eq_some_iff hf.nodup).2 hv) ((get?_eq_some_iff hh.nodup).2 hw)
  clear hf hh hR
  induction fs generalizing hs with
  | nil =>
    obtain rfl : hs = [] := List.map_eq_nil_iff.1 hnames.symm
    exact .nil
  | cons f fs ih =>
    obtain ⟨n, v⟩ := f
    obtain ⟨g, gs, rfl, hn, hrest⟩ := List.map_eq_cons_iff.1 hnames.symm
    obtain ⟨m, w⟩ := g
    obtain rfl : m = n := hn
    refine .cons (.intro m (hmembers m v w List.mem_cons_self List.mem_cons_self)) ?_
    refine ih hrest.symm ?_
    intro name v w hv hw
    exact hmembers name v w (List.mem_cons_of_mem _ hv) (List.mem_cons_of_mem _ hw)

theorem Ordered.names_eq (hf : Ordered fs) (hh : Ordered hs) (hperm : (names fs).Perm (names hs)) :
    names fs = names hs := by
  refine hperm.eq_of_pairwise ?_ hf hh
  intro a b _ _ hab hba
  exact absurd hba (String.lt_asymm hab)

theorem names_eq_of_forall₂ (h : List.Forall₂ (SameField R) fs hs) : names fs = names hs := by
  induction h with
  | nil => rfl
  | cons hfg _ ih =>
    obtain ⟨n, -⟩ := hfg
    rw [names, List.map_cons, names, List.map_cons]
    exact congrArg (n :: ·) ih

/-- **Fields place by place, and fields under each name.** -/
theorem Ordered.forall₂_iff (hf : Ordered fs) (hh : Ordered hs) :
    List.Forall₂ (SameField R) fs hs ↔
      (∀ name, name ∈ names fs ↔ name ∈ names hs) ∧
        ∀ name v w, get? fs name = some v → get? hs name = some w → R v w := by
  constructor
  · intro h
    refine ⟨fun name => by rw [names_eq_of_forall₂ h], ?_⟩
    intro name v w hv hw
    have hrel := get?_rel h name
    rw [hv, hw] at hrel
    cases hrel with
    | some hvw => exact hvw
  · rintro ⟨hnames, hR⟩
    have hperm := (List.perm_ext_iff_of_nodup hf.nodup hh.nodup).2 hnames
    exact hf.forall₂_of_names_eq hh (hf.names_eq hh hperm) hR

/-- **One inclusion is enough** if there are equally many fields: distinct names that are
all among as many others are these. -/
theorem Ordered.forall₂_iff_subset (hf : Ordered fs) (hh : Ordered hs) :
    List.Forall₂ (SameField R) fs hs ↔
      fs.length = hs.length ∧ ∀ f ∈ fs, ∃ w, get? hs f.1 = some w ∧ R f.2 w := by
  constructor
  · intro h
    refine ⟨h.length_eq, ?_⟩
    rintro ⟨n, v⟩ hmem
    have hrel := get?_rel h n
    rw [(get?_eq_some_iff hf.nodup).2 hmem] at hrel
    exact exists_of_rel_some hrel rfl
  · rintro ⟨hlen, hsub⟩
    have hsubset : names fs ⊆ names hs := by
      intro n hn
      obtain ⟨f, hmem, rfl⟩ := List.mem_map.1 hn
      obtain ⟨w, hw, -⟩ := hsub f hmem
      exact mem_names_iff.2 ⟨w, hw⟩
    have hle : (names hs).length ≤ (names fs).length := by
      simp only [names, List.length_map]
      omega
    have hperm := (List.subperm_of_subset hf.nodup hsubset).perm_of_length_le hle
    refine hf.forall₂_of_names_eq hh (hf.names_eq hh hperm) ?_
    intro name v w hv hw
    obtain ⟨w', hw', hR⟩ := hsub (name, v) (mem_of_get? hv)
    rw [hw] at hw'
    cases hw'
    exact hR

end

/-- Ordered fields are the same if they hold the same under each name. -/
theorem Ordered.ext (hf : Ordered fs) (hg : Ordered gs) (h : ∀ name, get? fs name = get? gs name) :
    fs = gs := by
  have hsame : List.Forall₂ (SameField Eq) fs gs := by
    refine (hf.forall₂_iff hg).2 ⟨?_, ?_⟩
    · intro name
      rw [mem_names_iff, mem_names_iff, h name]
    · intro name v w hv hw
      rw [h name, hw] at hv
      exact (Option.some.inj hv).symm
  have heq : List.Forall₂ (fun f g => f = g) fs gs := by
    refine hsame.imp ?_
    rintro _ _ ⟨n, rfl⟩
    rfl
  rwa [List.forall₂_eq_eq_eq] at heq

/-- **Entries leave the same fields** exactly if the last entries for each name agree. -/
theorem ofList_eq_iff :
    ofList fs = ofList gs ↔ ∀ name v, IsLast fs name v ↔ IsLast gs name v := by
  constructor
  · intro h name v
    rw [← get?_ofList, ← get?_ofList, h]
  · intro h
    refine (ordered_ofList fs).ext (ordered_ofList gs) ?_
    intro name
    refine Option.ext ?_
    intro v
    rw [get?_ofList, get?_ofList, h name v]

end DistanceField.Fields
