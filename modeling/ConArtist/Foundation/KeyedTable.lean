import Mathlib.Data.List.Nodup
import Mathlib.Data.List.Perm.Basic
import Mathlib.Data.Set.Card

/-!
# Tables with distinct keys

A table is a list of records, each with a key, and no two with the same. `lookup` finds the
record of a key. A record is added at the end, replaced where it is, or removed by moving
the last one into its place; the table is a partial map from keys to records throughout.
-/

namespace KeyedTable

section SwapRemove

variable {α : Type*}

/-- The list without the element at a place, into which the last one goes. -/
def swapRemove (xs : List α) (i : ℕ) : List α :=
  match xs.getLast? with
  | none => []
  | some x => (xs.set i x).dropLast

theorem swapRemove_concat (xs : List α) (x : α) (i : ℕ) :
    swapRemove (xs ++ [x]) i = xs.set i x := by
  rw [swapRemove, List.getLast?_concat]
  dsimp only
  rcases Nat.lt_or_ge i xs.length with hlt | hge
  · rw [List.set_append_left i x hlt, List.dropLast_concat]
  · rw [List.set_append_right i x hge, List.set_eq_of_length_le hge]
    cases i - xs.length <;> exact List.dropLast_concat

theorem perm_swapRemove {xs : List α} {i : ℕ} {x : α} (h : xs[i]? = some x) :
    (x :: swapRemove xs i).Perm xs := by
  rcases List.eq_nil_or_concat' xs with rfl | ⟨init, last, rfl⟩
  · cases h
  · rw [swapRemove_concat]
    refine List.Perm.trans ?_ (List.perm_append_singleton last init).symm
    rcases Nat.lt_or_ge i init.length with hlt | hge
    · -- the last element goes to the place of the removed one
      rw [List.getElem?_append_left hlt] at h
      obtain ⟨-, rfl⟩ := List.getElem?_eq_some_iff.mp h
      calc (init[i] :: init.set i last).Perm (init[i] :: last :: init.eraseIdx i) :=
            (List.set_perm_cons_eraseIdx hlt last).cons _
        _ |>.Perm (last :: init[i] :: init.eraseIdx i) := .swap _ _ _
        _ |>.Perm (last :: init) := (List.getElem_cons_eraseIdx_perm hlt).cons _
    · rw [List.getElem?_append_right hge] at h
      obtain ⟨hlt, rfl⟩ := List.getElem?_eq_some_iff.mp h
      rw [List.set_eq_of_length_le hge, List.getElem_singleton]

end SwapRemove

section Lookup

variable {α κ : Type*} (key : α → κ) {xs ys : List α} {x y : α} {i : ℕ} {k : κ}

def Keyed (xs : List α) : Prop := (xs.map key).Nodup

variable {key}

theorem keyed_cons : Keyed key (x :: xs) ↔ key x ∉ xs.map key ∧ Keyed key xs :=
  List.nodup_cons

theorem Keyed.of_perm (h : Keyed key xs) (hperm : ys.Perm xs) : Keyed key ys :=
  (hperm.map key).nodup_iff.mpr h

theorem keyed_append (h : Keyed key xs) (hx : key x ∉ xs.map key) : Keyed key (xs ++ [x]) :=
  Keyed.of_perm (keyed_cons.mpr ⟨hx, h⟩) (List.perm_append_singleton x xs)

theorem map_set_of_eq (hx : xs[i]? = some x) (hkey : key y = key x) :
    (xs.set i y).map key = xs.map key := by
  obtain ⟨hlt, rfl⟩ := List.getElem?_eq_some_iff.mp hx
  rw [List.map_set, hkey, ← List.getElem_map key (h := by rwa [List.length_map]),
    List.set_getElem_self]

theorem keyed_set (h : Keyed key xs) (hx : xs[i]? = some x) (hkey : key y = key x) :
    Keyed key (xs.set i y) := by
  rw [Keyed, map_set_of_eq hx hkey]
  exact h

theorem keyed_swapRemove (h : Keyed key xs) (hx : xs[i]? = some x) :
    Keyed key (swapRemove xs i) :=
  (keyed_cons.mp (h.of_perm (perm_swapRemove hx))).2

variable (key) [DecidableEq κ]

/-- The first record with a key. -/
def lookup (xs : List α) (k : κ) : Option α := xs.find? fun x => key x = k

variable {key}

theorem lookup_eq_some_iff (h : Keyed key xs) : lookup key xs k = some x ↔ x ∈ xs ∧ key x = k := by
  constructor
  · intro hx
    have hkey := List.find?_some hx
    exact ⟨List.mem_of_find?_eq_some hx, of_decide_eq_true hkey⟩
  · rintro ⟨hmem, rfl⟩
    induction xs with
    | nil => exact absurd hmem List.not_mem_nil
    | cons y ys ih =>
        obtain ⟨hy, hys⟩ := List.nodup_cons.mp h
        rw [lookup, List.find?_cons]
        rcases List.mem_cons.mp hmem with rfl | hmem
        · simp
        · have hne : key y ≠ key x := fun heq => hy (heq ▸ List.mem_map_of_mem hmem)
          simp only [hne, decide_false]
          exact ih hys hmem

theorem lookup_eq_none_iff : lookup key xs k = none ↔ k ∉ xs.map key := by
  rw [lookup, List.find?_eq_none, List.mem_map]
  simp

theorem lookup_of_perm (h : Keyed key xs) (hperm : ys.Perm xs) (k : κ) :
    lookup key ys k = lookup key xs k := by
  have h' : Keyed key ys := (hperm.map key).nodup_iff.mpr h
  refine Option.ext fun x => ?_
  rw [lookup_eq_some_iff h, lookup_eq_some_iff h', hperm.mem_iff]

theorem lookup_cons (x : α) (xs : List α) (k : κ) :
    lookup key (x :: xs) k = if key x = k then some x else lookup key xs k := by
  rw [lookup, List.find?_cons]
  split <;> simp_all [lookup]

theorem lookup_append (h : Keyed key xs) (hx : key x ∉ xs.map key) (k : κ) :
    lookup key (xs ++ [x]) k = if key x = k then some x else lookup key xs k := by
  rw [lookup_of_perm (keyed_cons.mpr ⟨hx, h⟩) (List.perm_append_singleton x xs), lookup_cons]

theorem lookup_set (h : Keyed key xs) (hx : xs[i]? = some x) (hkey : key y = key x) (k : κ) :
    lookup key (xs.set i y) k = if key y = k then some y else lookup key xs k := by
  obtain ⟨hlt, rfl⟩ := List.getElem?_eq_some_iff.mp hx
  have hbefore := List.getElem_cons_eraseIdx_perm hlt
  have hafter := List.set_perm_cons_eraseIdx hlt y
  have hrest : Keyed key (y :: xs.eraseIdx i) := (keyed_set h hx hkey).of_perm hafter.symm
  rw [lookup_of_perm hrest hafter, ← lookup_of_perm h hbefore, lookup_cons, lookup_cons, hkey]
  split <;> rfl

theorem lookup_swapRemove (h : Keyed key xs) (hx : xs[i]? = some x) (k : κ) :
    lookup key (swapRemove xs i) k = if key x = k then none else lookup key xs k := by
  have hperm := perm_swapRemove hx
  have hnot := (keyed_cons.mp (h.of_perm hperm)).1
  rw [← lookup_of_perm h hperm, lookup_cons]
  split
  case isTrue heq => exact lookup_eq_none_iff.mpr (heq ▸ hnot)
  case isFalse => rfl

theorem ncard_keys (h : Keyed key xs) : {k | lookup key xs k ≠ none}.ncard = xs.length := by
  have hset : {k | lookup key xs k ≠ none} = ((xs.map key).toFinset : Set κ) := by
    ext k
    rw [Set.mem_ofPred_eq, ne_eq, lookup_eq_none_iff, not_not, Finset.mem_coe, List.mem_toFinset]
  rw [hset, Set.ncard_coe_finset, List.toFinset_card_of_nodup h, List.length_map]

end Lookup

end KeyedTable
