import Mathlib.Data.Int.Order.Basic
import Mathlib.Order.Lattice

/-!
# Binary search

The places of a table are integers, and a key is read at each of them, which may fail.
Where all keys between two places can be read and do not decrease, the search comes to a
place of the key it looks for, and to none when there is no such place. It reads keys in the
middle of its rounds only, so that it comes to the same in any table with the same keys there.
-/

namespace BinarySearch

variable {κ : Type*} [LinearOrder κ]

/-- Look for `x` at the places from `left` to `right`. The result is `none` when a key
cannot be read, and `some none` when `x` is at none of the places. -/
def search (key : ℤ → Option κ) (x : κ) (left right : ℤ) : Option (Option ℤ) :=
  if left ≤ right then
    match key ((left + right) / 2) with
    | none => none
    | some k =>
        if x < k then search key x left ((left + right) / 2 - 1)
        else if k < x then search key x ((left + right) / 2 + 1) right
        else some (some ((left + right) / 2))
  else some none
termination_by (right + 1 - left).toNat

/-- The bounds of the rounds of the search, from the first on. -/
def rounds (key : ℤ → Option κ) (x : κ) (left right : ℤ) : List (ℤ × ℤ) :=
  if left ≤ right then
    (left, right) :: match key ((left + right) / 2) with
      | none => []
      | some k =>
          if x < k then rounds key x left ((left + right) / 2 - 1)
          else if k < x then rounds key x ((left + right) / 2 + 1) right
          else []
  else []
termination_by (right + 1 - left).toNat

/-- The keys from `left` to `right` can be read and do not decrease. -/
structure Ordered (key : ℤ → Option κ) (left right : ℤ) : Prop where
  exists_key : ∀ p, left ≤ p → p ≤ right → ∃ k, key p = some k
  le : ∀ p q k l, left ≤ p → p < q → q ≤ right → key p = some k → key q = some l → k ≤ l

variable {key : ℤ → Option κ} {left right : ℤ}

theorem Ordered.mono (h : Ordered key left right) {left' right' : ℤ} (hleft : left ≤ left')
    (hright : right' ≤ right) : Ordered key left' right' where
  exists_key := fun p hp hp' => h.exists_key p (le_trans hleft hp) (le_trans hp' hright)
  le := fun p q k l hp hpq hq => h.le p q k l (le_trans hleft hp) hpq (le_trans hq hright)

section Unfold

variable {x k : κ}

theorem search_of_lt (hle : left ≤ right) (hk : key ((left + right) / 2) = some k) (hlt : x < k) :
    search key x left right = search key x left ((left + right) / 2 - 1) ∧
      rounds key x left right =
        (left, right) :: rounds key x left ((left + right) / 2 - 1) := by
  rw [search, rounds, if_pos hle, if_pos hle, hk]
  simp only [if_pos hlt, and_self]

theorem search_of_gt (hle : left ≤ right) (hk : key ((left + right) / 2) = some k)
    (hnlt : ¬ x < k) (hlt : k < x) :
    search key x left right = search key x ((left + right) / 2 + 1) right ∧
      rounds key x left right =
        (left, right) :: rounds key x ((left + right) / 2 + 1) right := by
  rw [search, rounds, if_pos hle, if_pos hle, hk]
  simp only [if_neg hnlt, if_pos hlt, and_self]

theorem search_of_eq (hle : left ≤ right) (hk : key ((left + right) / 2) = some k)
    (hnlt : ¬ x < k) (hngt : ¬ k < x) :
    search key x left right = some (some ((left + right) / 2)) ∧
      rounds key x left right = [(left, right)] := by
  rw [search, rounds, if_pos hle, if_pos hle, hk]
  simp only [if_neg hnlt, if_neg hngt, and_self]

theorem search_of_none (hle : left ≤ right) (hk : key ((left + right) / 2) = none) :
    search key x left right = none ∧ rounds key x left right = [(left, right)] := by
  rw [search, rounds, if_pos hle, if_pos hle, hk]
  exact ⟨rfl, rfl⟩

theorem search_of_not_le (hgt : ¬ left ≤ right) :
    search key x left right = some none ∧ rounds key x left right = [] := by
  rw [search, rounds, if_neg hgt, if_neg hgt]
  exact ⟨rfl, rfl⟩

end Unfold

theorem of_mem_rounds {x : κ} {l r : ℤ} (h : (l, r) ∈ rounds key x left right) :
    left ≤ l ∧ l ≤ r ∧ r ≤ right := by
  induction left, right using search.induct key x with
  | case1 left right hle hnone =>
      rw [(search_of_none hle hnone).2] at h
      cases List.mem_singleton.mp h
      exact ⟨le_rfl, hle, le_rfl⟩
  | case2 left right hle k hk hlt ih =>
      rw [(search_of_lt hle hk hlt).2] at h
      rcases List.mem_cons.mp h with heq | hmem
      · cases heq
        exact ⟨le_rfl, hle, le_rfl⟩
      · obtain ⟨hl, hlr, hr⟩ := ih hmem
        exact ⟨hl, hlr, by omega⟩
  | case3 left right hle k hk hnlt hlt ih =>
      rw [(search_of_gt hle hk hnlt hlt).2] at h
      rcases List.mem_cons.mp h with heq | hmem
      · cases heq
        exact ⟨le_rfl, hle, le_rfl⟩
      · obtain ⟨hl, hlr, hr⟩ := ih hmem
        exact ⟨by omega, hlr, hr⟩
  | case4 left right hle k hk hnlt hngt =>
      rw [(search_of_eq hle hk hnlt hngt).2] at h
      cases List.mem_singleton.mp h
      exact ⟨le_rfl, hle, le_rfl⟩
  | case5 left right hgt =>
      rw [(search_of_not_le hgt).2] at h
      cases h

theorem search_congr {key' : ℤ → Option κ} {x : κ}
    (h : ∀ l r, (l, r) ∈ rounds key x left right → key' ((l + r) / 2) = key ((l + r) / 2)) :
    search key' x left right = search key x left right := by
  induction left, right using search.induct key x with
  | case1 left right hle hnone =>
      obtain ⟨hsearch, hrounds⟩ := search_of_none (x := x) hle hnone
      rw [hrounds] at h
      rw [hsearch, (search_of_none hle ((h left right List.mem_cons_self).trans hnone)).1]
  | case2 left right hle k hk hlt ih =>
      obtain ⟨hsearch, hrounds⟩ := search_of_lt hle hk hlt
      rw [hrounds] at h
      rw [hsearch, (search_of_lt hle ((h left right List.mem_cons_self).trans hk) hlt).1]
      exact ih fun l r hmem => h l r (List.mem_cons_of_mem _ hmem)
  | case3 left right hle k hk hnlt hlt ih =>
      obtain ⟨hsearch, hrounds⟩ := search_of_gt hle hk hnlt hlt
      rw [hrounds] at h
      rw [hsearch, (search_of_gt hle ((h left right List.mem_cons_self).trans hk) hnlt hlt).1]
      exact ih fun l r hmem => h l r (List.mem_cons_of_mem _ hmem)
  | case4 left right hle k hk hnlt hngt =>
      obtain ⟨hsearch, hrounds⟩ := search_of_eq hle hk hnlt hngt
      rw [hrounds] at h
      rw [hsearch, (search_of_eq hle ((h left right List.mem_cons_self).trans hk) hnlt hngt).1]
  | case5 left right hgt => rw [(search_of_not_le hgt).1, (search_of_not_le hgt).1]

/-- What the search finds holds the key, whatever the order of the keys. -/
theorem key_of_search {x : κ} {p : ℤ} (h : search key x left right = some (some p)) :
    key p = some x ∧ left ≤ p ∧ p ≤ right := by
  induction left, right using search.induct key x with
  | case1 left right hle hnone =>
      rw [(search_of_none hle hnone).1] at h
      cases h
  | case2 left right hle k hk hlt ih =>
      rw [(search_of_lt hle hk hlt).1] at h
      obtain ⟨hkey, hleft, hright⟩ := ih h
      exact ⟨hkey, hleft, by omega⟩
  | case3 left right hle k hk hnlt hlt ih =>
      rw [(search_of_gt hle hk hnlt hlt).1] at h
      obtain ⟨hkey, hleft, hright⟩ := ih h
      exact ⟨hkey, by omega, hright⟩
  | case4 left right hle k hk hnlt hngt =>
      rw [(search_of_eq hle hk hnlt hngt).1] at h
      cases h
      exact ⟨hk.trans (congrArg some (le_antisymm (not_lt.mp hnlt) (not_lt.mp hngt))), by omega,
        by omega⟩
  | case5 left right hgt =>
      rw [(search_of_not_le hgt).1] at h
      cases h

/-- Among keys that do not decrease the search finds the key if it is there. -/
theorem search_spec (h : Ordered key left right) (x : κ) :
    (∃ p, left ≤ p ∧ p ≤ right ∧ key p = some x ∧ search key x left right = some (some p)) ∨
      search key x left right = some none ∧ ∀ p, left ≤ p → p ≤ right → key p ≠ some x := by
  induction left, right using search.induct key x with
  | case1 left right hle hnone =>
      obtain ⟨k, hk⟩ := h.exists_key ((left + right) / 2) (by omega) (by omega)
      rw [hnone] at hk
      cases hk
  | case2 left right hle k hk hlt ih =>
      rw [(search_of_lt hle hk hlt).1]
      -- the places from the middle on hold keys above `x`
      rcases ih (h.mono le_rfl (by omega)) with ⟨p, hp, hp', hfound⟩ | ⟨hsearch, hnot⟩
      · exact Or.inl ⟨p, hp, by omega, hfound⟩
      · refine Or.inr ⟨hsearch, fun p hp hp' hkey => ?_⟩
        rcases lt_trichotomy p ((left + right) / 2) with hlow | rfl | hhigh
        · exact hnot p hp (by omega) hkey
        · rw [hk, Option.some.injEq] at hkey
          exact ne_of_lt hlt hkey.symm
        · exact not_le.mpr hlt (h.le _ _ _ _ (by omega) hhigh hp' hk hkey)
  | case3 left right hle k hk hnlt hlt ih =>
      rw [(search_of_gt hle hk hnlt hlt).1]
      -- the places up to the middle hold keys below `x`
      rcases ih (h.mono (by omega) le_rfl) with ⟨p, hp, hp', hfound⟩ | ⟨hsearch, hnot⟩
      · exact Or.inl ⟨p, by omega, hp', hfound⟩
      · refine Or.inr ⟨hsearch, fun p hp hp' hkey => ?_⟩
        rcases lt_trichotomy p ((left + right) / 2) with hlow | rfl | hhigh
        · exact not_le.mpr hlt (h.le _ _ _ _ hp hlow (by omega) hkey hk)
        · rw [hk, Option.some.injEq] at hkey
          exact ne_of_lt hlt hkey
        · exact hnot p (by omega) hp' hkey
  | case4 left right hle k hk hnlt hngt =>
      have hkey := hk.trans (congrArg some (le_antisymm (not_lt.mp hnlt) (not_lt.mp hngt)))
      exact Or.inl ⟨_, by omega, by omega, hkey, (search_of_eq hle hk hnlt hngt).1⟩
  | case5 left right hgt =>
      exact Or.inr ⟨(search_of_not_le hgt).1, fun p hp hp' => absurd (le_trans hp hp') hgt⟩

end BinarySearch
