/-!
# Frame slots

The slots of a frame hold the arguments of a call, then the bindings of its body. A
slot is empty until it is set. Both evaluators keep their local values in slots.

* `Slots.ofArgs?`: the slots at the start of a call.
* `Slots.get?`, `Slots.set?`: reading and filling one slot.
* `Slots.given`: how many parameters have a value.
-/

namespace DistanceField

abbrev Slots (α : Type) := List (Option α)

namespace Slots

variable {α : Type}

/-- The slots of a call: the arguments in front, the rest empty. None if the arguments
do not fit. -/
def ofArgs? (size : Nat) (args : List α) : Option (Slots α) :=
  if args.length ≤ size then some (args.map some ++ List.replicate (size - args.length) none)
  else none

/-- All slots empty. -/
def empty (size : Nat) : Slots α :=
  List.replicate size none

/-- The value in a slot. -/
def get? (s : Slots α) (i : Nat) : Option α :=
  match s[i]? with
  | some v => v
  | none => none

/-- Fills a slot, which has to exist. -/
def set? (s : Slots α) (i : Nat) (a : α) : Option (Slots α) :=
  if i < s.length then some (List.set s i (some a)) else none

/-- The number of leading slots that have a value, up to `n`. -/
def given (n : Nat) (s : Slots α) : Nat :=
  ((s.take n).takeWhile Option.isSome).length

theorem length_ofArgs? {size : Nat} {args : List α} {s : Slots α}
    (h : ofArgs? size args = some s) : s.length = size := by
  unfold ofArgs? at h
  split at h
  · next hle =>
    obtain rfl := Option.some.inj h
    simp only [List.length_append, List.length_map, List.length_replicate]
    omega
  · cases h

theorem get?_ofArgs? {size : Nat} {args : List α} {s : Slots α} (h : ofArgs? size args = some s)
    (i : Nat) : s.get? i = args[i]? := by
  unfold ofArgs? at h
  split at h
  · obtain rfl := Option.some.inj h
    rcases Nat.lt_or_ge i args.length with hi | hi
    · simp [get?, List.getElem?_append, hi]
    · rw [get?, List.getElem?_append_right (by simpa using hi), List.getElem?_eq_none hi,
        List.getElem?_replicate]
      by_cases hrest : i - (args.map some).length < size - args.length <;> simp only [hrest, if_true, if_false]
  · cases h

theorem length_set? {s t : Slots α} {i : Nat} {a : α} (h : s.set? i a = some t) :
    t.length = s.length := by
  unfold set? at h
  split at h
  · obtain rfl := Option.some.inj h
    exact List.length_set
  · cases h

theorem get?_set?_self {s t : Slots α} {i : Nat} {a : α} (h : s.set? i a = some t) :
    t.get? i = some a := by
  unfold set? at h
  split at h
  · next hi =>
    obtain rfl := Option.some.inj h
    simp [get?, hi]
  · cases h

theorem get?_set?_of_ne {s t : Slots α} {i j : Nat} {a : α} (h : s.set? i a = some t)
    (hij : i ≠ j) : t.get? j = s.get? j := by
  unfold set? at h
  split at h
  · obtain rfl := Option.some.inj h
    simp [get?, hij]
  · cases h

end Slots

end DistanceField
