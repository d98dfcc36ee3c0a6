/-!
# Fields

The fields of a record: names with values, kept in increasing order of the names and
each name once. A later entry for a name replaces the earlier one.
-/

namespace DistanceField.Fields

variable {α : Type}

/-- Sets the value of a name. -/
def insert (name : String) (value : α) : List (String × α) → List (String × α)
  | [] => [(name, value)]
  | (n, v) :: fs =>
    if name < n then (name, value) :: (n, v) :: fs
    else if name = n then (name, value) :: fs
    else (n, v) :: insert name value fs

/-- The fields that remain after setting each entry in turn. -/
def ofList (entries : List (String × α)) : List (String × α) :=
  entries.foldl (fun fs (name, value) => insert name value fs) []

/-- The value of a name. -/
def get? (fs : List (String × α)) (name : String) : Option α :=
  fs.lookup name

/-- The names, in increasing order. -/
def names (fs : List (String × α)) : List String :=
  fs.map Prod.fst

@[simp] theorem get?_insert_self (name : String) (value : α) (fs : List (String × α)) :
    get? (insert name value fs) name = some value := by
  induction fs with
  | nil => simp [insert, get?]
  | cons f fs ih =>
    obtain ⟨n, v⟩ := f
    unfold insert
    split
    · simp [get?]
    · split
      · simp [get?]
      · next hne =>
        rw [get?, List.lookup_cons, beq_false_of_ne hne]
        exact ih

theorem get?_insert_of_ne {name other : String} (h : other ≠ name) (value : α)
    (fs : List (String × α)) : get? (insert name value fs) other = get? fs other := by
  induction fs with
  | nil => simp [insert, get?, List.lookup_cons, beq_false_of_ne h]
  | cons f fs ih =>
    obtain ⟨n, v⟩ := f
    unfold insert
    split
    · rw [get?, List.lookup_cons, beq_false_of_ne h]
      rfl
    · split
      · next heq =>
        subst heq
        simp [get?, List.lookup_cons, beq_false_of_ne h]
      · simp only [get?, List.lookup_cons] at ih ⊢
        rw [ih]

end DistanceField.Fields
