import Mathlib.Data.List.Basic

/-!
# Arrays that grow

An array has a number of entries; an entry that was never assigned holds `none`.
`reallocate` moves an array to another number of entries and `assign` sets one of
them, which is possible inside the array only. `Holds entries capacity values`
says that the array reaches to the capacity and that its first entries are
the values: growth keeps that, and the next value can be assigned as long as
there is room.
-/

namespace GrowingArray

variable {α : Type*}

/-- The entries are copied as far as both arrays reach. -/
def reallocate (entries : List (Option α)) (count : ℕ) : List (Option α) :=
  entries.take count ++ List.replicate (count - entries.length) none

/-- An entry is set. There is none at an index outside of the array. -/
def assign (entries : List (Option α)) (index : ℕ) (value : α) : Option (List (Option α)) :=
  if index < entries.length then some (entries.set index (some value)) else none

/-- The array has `capacity` entries at least and begins with the values. -/
structure Holds (entries : List (Option α)) (capacity : ℕ) (values : List α) : Prop where
  capacity_le : capacity ≤ entries.length
  values_le : values.length ≤ capacity
  entry_eq : ∀ (i : ℕ) (v : α), values[i]? = some v → entries[i]? = some (some v)

theorem holds_replicate (count : ℕ) :
    Holds (List.replicate count (none : Option α)) count [] where
  capacity_le := by simp
  values_le := Nat.zero_le count
  entry_eq := by simp

theorem length_reallocate (entries : List (Option α)) (count : ℕ) :
    (reallocate entries count).length = count := by
  rw [reallocate, List.length_append, List.length_take, List.length_replicate]
  omega

/-- Only an entry of the array can be assigned, and the array keeps its length. -/
theorem assign_eq_some {entries entries' : List (Option α)} {index : ℕ} {value : α}
    (h : assign entries index value = some entries') :
    index < entries.length ∧ entries'.length = entries.length := by
  rw [assign] at h
  split at h
  case isTrue hlt =>
      cases h
      exact ⟨hlt, List.length_set⟩
  case isFalse => cases h

section Holds

variable {entries : List (Option α)} {capacity : ℕ} {values : List α}

theorem Holds.reallocate (h : Holds entries capacity values) {count : ℕ}
    (hcount : values.length ≤ count) :
    Holds (reallocate entries count) count values where
  capacity_le := Nat.le_of_eq (length_reallocate entries count).symm
  values_le := hcount
  entry_eq := by
    intro i v hv
    have hi : i < values.length := (List.getElem?_eq_some_iff.mp hv).1
    have hentry := h.entry_eq i v hv
    have hlen : i < entries.length := (List.getElem?_eq_some_iff.mp hentry).1
    rw [GrowingArray.reallocate, List.getElem?_append_left (by rw [List.length_take]; omega),
      List.getElem?_take_of_lt (by omega)]
    exact hentry

theorem Holds.take_eq (h : Holds entries capacity values) :
    entries.take values.length = values.map some := by
  apply List.ext_getElem?
  intro i
  by_cases hi : i < values.length
  · rw [List.getElem?_take_of_lt hi, h.entry_eq i values[i] (List.getElem?_eq_getElem hi)]
    simp [hi]
  · rw [List.getElem?_eq_none (by rw [List.length_take]; omega),
      List.getElem?_eq_none (by rw [List.length_map]; omega)]

theorem Holds.assign (h : Holds entries capacity values) (hroom : values.length < capacity)
    (value : α) :
    ∃ entries', assign entries values.length value = some entries' ∧
      Holds entries' capacity (values ++ [value]) := by
  have hlen : values.length < entries.length := Nat.lt_of_lt_of_le hroom h.capacity_le
  refine ⟨_, if_pos hlen, ?_, ?_, ?_⟩
  · rw [List.length_set]
    exact h.capacity_le
  · rw [List.length_append, List.length_singleton]
    exact hroom
  · intro i v hv
    by_cases hi : i < values.length
    · rw [List.getElem?_append_left hi] at hv
      rw [List.getElem?_set_ne (by omega)]
      exact h.entry_eq i v hv
    · rw [List.getElem?_append_right (Nat.not_lt.mp hi), List.getElem?_singleton] at hv
      split at hv
      · obtain rfl : i = values.length := by omega
        rw [List.getElem?_set_self hlen]
        exact congrArg some hv
      · cases hv

end Holds

end GrowingArray
