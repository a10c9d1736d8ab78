import Mathlib.Data.List.Basic

/-!
# Linked lists

A linked list is read off a pointer `p` and the function `next` of its nodes:
`Path next p l` says that the nodes met from `p` on are those of `l`, and that the
last one has no next node. The lemmas say what a change of `next` does to a list, and
what appending a node takes.
-/

namespace Linked

variable {ι : Type*} {next next' : ι → Option ι}

/-- The nodes met from `p` on are those of the list, to its end. -/
def Path (next : ι → Option ι) : Option ι → List ι → Prop
  | p, [] => p = none
  | p, i :: l => p = some i ∧ Path next (next i) l

theorem Path.congr {p : Option ι} {l : List ι} (h : Path next p l)
    (hnext : ∀ i ∈ l, next' i = next i) : Path next' p l := by
  induction l generalizing p with
  | nil => exact h
  | cons i l ih =>
      refine ⟨h.1, ?_⟩
      rw [hnext i List.mem_cons_self]
      exact ih h.2 fun j hj => hnext j (List.mem_cons_of_mem i hj)

/-- A node is appended by setting the `next` of the last one. -/
theorem Path.concat {p : Option ι} {l : List ι} {t i : ι} (h : Path next p (l ++ [t]))
    (hl : ∀ j ∈ l, next' j = next j) (ht : next' t = some i) (hi : next' i = none) :
    Path next' p (l ++ [t] ++ [i]) := by
  induction l generalizing p with
  | nil => exact ⟨h.1, ht, hi⟩
  | cons j l ih =>
      refine ⟨h.1, ?_⟩
      rw [hl j List.mem_cons_self]
      exact ih h.2 fun k hk => hl k (List.mem_cons_of_mem j hk)

theorem path_range' {next : ℕ → Option ℕ} {k n : ℕ}
    (hnext : ∀ i, k ≤ i → i < k + n → next i = some (i + 1)) (hlast : next (k + n) = none) :
    Path next (some k) (List.range' k (n + 1)) := by
  induction n generalizing k with
  | zero => exact ⟨rfl, hlast⟩
  | succ n ih =>
      refine ⟨rfl, ?_⟩
      rw [hnext k (Nat.le_refl k) (by omega)]
      refine ih (fun i hle hlt => hnext i (by omega) (by omega)) ?_
      rwa [Nat.add_right_comm]

end Linked
