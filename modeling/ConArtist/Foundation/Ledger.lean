import Mathlib.Data.List.Count
import Mathlib.Logic.Function.Basic
import ConArtist.Foundation.Run

/-!
# Ledgers

A ledger is the list of the resources that were acquired, used and released, in order. It can be
replayed from what is held at its start: a resource that is held is not acquired again, and one
that is not held is neither used nor released. So a ledger that can be replayed releases nothing
twice and uses nothing that is gone, and it says what is held at its end.

A resource that a ledger begins and ends without was released as often as it was acquired
(`count_release_eq`).
-/

namespace Ledger

open Function Machine

inductive Entry (κ : Type*) where
  | acquire (k : κ)
  | use (k : κ)
  | release (k : κ)
  deriving DecidableEq

variable {κ : Type*} [DecidableEq κ]

/-- What is held after an entry. -/
def step (held : κ → Bool) : Entry κ → Option (κ → Bool)
  | .acquire k => if held k then none else some (update held k true)
  | .use k => if held k then some held else none
  | .release k => if held k then some (update held k false) else none

def nothing : κ → Bool := fun _ => false

section Step

variable {held held' : κ → Bool} {k : κ}

theorem step_acquire (h : held k = false) :
    step held (.acquire k) = some (update held k true) :=
  if_neg (h ▸ Bool.false_ne_true)

theorem step_use (h : held k = true) : step held (.use k) = some held := if_pos h

theorem step_release (h : held k = true) :
    step held (.release k) = some (update held k false) :=
  if_pos h

theorem step_acquire_eq_some : step held (.acquire k) = some held' ↔
    held k = false ∧ held' = update held k true := by
  rw [step]
  cases held k <;> simp [eq_comm]

theorem step_use_eq_some : step held (.use k) = some held' ↔ held k = true ∧ held' = held := by
  rw [step]
  cases held k <;> simp [eq_comm]

theorem step_release_eq_some : step held (.release k) = some held' ↔
    held k = true ∧ held' = update held k false := by
  rw [step]
  cases held k <;> simp [eq_comm]

end Step

section Run

variable {held held₁ held' : κ → Bool} {entries entries' : List (Entry κ)} {k : κ}

theorem run_append_of_run (h : run step held entries = some held₁)
    (h' : run step held₁ entries' = some held') :
    run step held (entries ++ entries') = some held' :=
  (run_append_eq_some _).mpr ⟨held₁, h, h'⟩

theorem run_acquire_release (h : held k = false) :
    run step held [.acquire k, .release k] = some held := by
  rw [run_cons, step_acquire h, Option.bind_some, run_cons,
    step_release (update_self k true held), Option.bind_some, run_nil, update_idem, ← h,
    update_eq_self]

theorem run_release_each {keys : List κ} (hnodup : keys.Nodup) (hheld : ∀ k ∈ keys, held k = true) :
    run step held (keys.map .release) = some fun k => held k && decide (k ∉ keys) := by
  induction keys generalizing held with
  | nil =>
      rw [List.map_nil, run_nil]
      simp
  | cons l keys ih =>
      obtain ⟨hl, hrest⟩ := List.nodup_cons.mp hnodup
      have hkeep : ∀ k ∈ keys, update held l false k = true := by
        intro k hk
        rw [update_of_ne (ne_of_mem_of_not_mem hk hl)]
        exact hheld k (List.mem_cons_of_mem l hk)
      rw [List.map_cons, run_cons, step_release (hheld l List.mem_cons_self), Option.bind_some,
        ih hrest hkeep]
      congr 1
      funext k
      rcases eq_or_ne k l with rfl | hne
      · simp
      · simp [hne]

/-- Resources are acquired once more than they are released while they are held. -/
theorem count_acquire_add (h : run step held entries = some held') (k : κ) :
    entries.count (.acquire k) + (held k).toNat =
      entries.count (.release k) + (held' k).toNat := by
  induction entries generalizing held with
  | nil =>
      cases h
      rfl
  | cons e entries ih =>
      obtain ⟨held₁, hstep, hrest⟩ := (run_cons_eq_some step).mp h
      have hcount := ih hrest
      rw [List.count_cons, List.count_cons]
      cases e with
      | acquire l =>
          obtain ⟨hheld, rfl⟩ := step_acquire_eq_some.mp hstep
          rcases eq_or_ne k l with rfl | hne
          · rw [update_self] at hcount
            simp [hheld] at hcount ⊢
            omega
          · rw [update_of_ne hne] at hcount
            simp [hne.symm]
            omega
      | use l =>
          obtain ⟨-, rfl⟩ := step_use_eq_some.mp hstep
          simpa using hcount
      | release l =>
          obtain ⟨hheld, rfl⟩ := step_release_eq_some.mp hstep
          rcases eq_or_ne k l with rfl | hne
          · rw [update_self] at hcount
            simp [hheld] at hcount ⊢
            omega
          · rw [update_of_ne hne] at hcount
            simp [hne.symm]
            omega

theorem count_release_eq (h : run step held entries = some held') (hk : held k = false)
    (hk' : held' k = false) : entries.count (.release k) = entries.count (.acquire k) := by
  have hcount := count_acquire_add h k
  rw [hk, hk', Bool.toNat_false, Nat.add_zero, Nat.add_zero] at hcount
  exact hcount.symm

end Run

end Ledger
