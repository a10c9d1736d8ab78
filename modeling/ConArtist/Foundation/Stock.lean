import Mathlib.Data.List.Perm.Lattice
import ConArtist.Foundation.Run

/-!
# Stocks

A stock hands its items out one at a time and takes them back. Its users release an item only
while they hold it. `Implements` is what a stock must do for this to be safe: it keeps the free
items in a stack, `Free s free`, acquires from its top and releases onto it. Then each item is at
any time either free or held by one user.

The last section is about stacks that are kept in an array with a count, the top last.
-/

namespace Stock

open Machine

/-- What users do. -/
inductive Op (ι : Type*) where
  | acquire
  | release (x : ι)

section Use

variable {σ ι : Type*} [DecidableEq ι] (acquire : σ → Option (Option ι × σ))
  (release : σ → ι → Option σ)

/-- An operation, in a state of the stock with the items that are held. -/
def use : σ × List ι → Op ι → Option (σ × List ι)
  | (s, held), .acquire => (acquire s).map fun out => (out.2, out.1.toList ++ held)
  | (s, held), .release x =>
      if x ∈ held then (release s x).map fun t => (t, held.erase x) else none

/-- What an operation on a stock of the items `all` must do: null is for the case that all are
held, and what is handed out is an item that nobody holds. -/
def Proper (all : List ι) : σ × List ι → Op ι → Prop
  | (s, held), .acquire => ∃ x t, acquire s = some (x, t) ∧
      (x = none ↔ held.length = all.length) ∧ ∀ y, x = some y → y ∈ all ∧ y ∉ held
  | (s, held), .release x => x ∈ held → ∃ t, release s x = some t

/-- The stock keeps the items of `Free` as a stack. -/
structure Implements (Free : σ → List ι → Prop) (all : List ι) : Prop where
  acquire_nil : ∀ s, Free s [] → ∃ t, acquire s = some (none, t) ∧ Free t []
  acquire_cons : ∀ s x free, Free s (x :: free) →
    ∃ t, acquire s = some (some x, t) ∧ Free t free
  release_cons : ∀ s x free, Free s free → free.length < all.length → x ∈ all →
    ∃ t, release s x = some t ∧ Free t (x :: free)

/-- Each item is free or held. -/
def Accounts (Free : σ → List ι → Prop) (all : List ι) (u : σ × List ι) : Prop :=
  ∃ free, Free u.1 free ∧ (free ++ u.2).Perm all

variable {acquire release} {Free : σ → List ι → Prop} {all : List ι}

theorem Accounts.release_cons (h : Implements acquire release Free all) {s : σ}
    {held : List ι} (hs : Accounts Free all (s, held)) {x : ι} (hx : x ∈ held) :
    ∃ t, release s x = some t ∧ Accounts Free all (t, held.erase x) := by
  obtain ⟨free, hfree, hperm⟩ : ∃ free, Free s free ∧ (free ++ held).Perm all := hs
  have hlt : free.length < all.length := by
    have hlength := hperm.length_eq
    have hpos := List.length_pos_of_mem hx
    rw [List.length_append] at hlength
    omega
  obtain ⟨t, ht, hfree'⟩ := h.release_cons s x free hfree hlt
    (hperm.mem_iff.mp (List.mem_append_right _ hx))
  refine ⟨t, ht, x :: free, hfree', ?_⟩
  calc List.Perm (x :: free ++ held.erase x) (free ++ x :: held.erase x) := List.perm_middle.symm
    List.Perm _ (free ++ held) := (List.perm_cons_erase hx).symm.append_left free
    List.Perm _ all := hperm

theorem Accounts.use (h : Implements acquire release Free all) {u v : σ × List ι} {op : Op ι}
    (hu : Accounts Free all u) (hstep : use acquire release u op = some v) :
    Accounts Free all v := by
  obtain ⟨s, held⟩ := u
  cases op with
  | acquire =>
      obtain ⟨free, hfree, hperm⟩ : ∃ free, Free s free ∧ (free ++ held).Perm all := hu
      obtain ⟨out, hout, rfl⟩ := Option.map_eq_some_iff.mp hstep
      cases free with
      | nil =>
          obtain ⟨t, ht, hfree'⟩ := h.acquire_nil s hfree
          rw [ht] at hout
          cases hout
          exact ⟨[], hfree', hperm⟩
      | cons x free =>
          obtain ⟨t, ht, hfree'⟩ := h.acquire_cons s x free hfree
          rw [ht] at hout
          cases hout
          exact ⟨free, hfree', List.perm_middle.trans hperm⟩
  | release x =>
      rw [Stock.use] at hstep
      split at hstep
      case isTrue hx =>
        obtain ⟨t, ht, rfl⟩ := Option.map_eq_some_iff.mp hstep
        obtain ⟨t', ht', haccounts⟩ := hu.release_cons h hx
        obtain rfl : t = t' := Option.some.inj (ht.symm.trans ht')
        exact haccounts
      case isFalse => cases hstep

theorem Accounts.proper (h : Implements acquire release Free all) (hall : all.Nodup)
    {u : σ × List ι} (hu : Accounts Free all u) (op : Op ι) : Proper acquire release all u op := by
  obtain ⟨s, held⟩ := u
  cases op with
  | acquire =>
      obtain ⟨free, hfree, hperm⟩ : ∃ free, Free s free ∧ (free ++ held).Perm all := hu
      have hlength := hperm.length_eq
      rw [List.length_append] at hlength
      cases free with
      | nil =>
          obtain ⟨t, ht, -⟩ := h.acquire_nil s hfree
          rw [List.length_nil, Nat.zero_add] at hlength
          exact ⟨none, t, ht, iff_of_true rfl hlength, fun y hy => absurd hy (by simp)⟩
      | cons x free =>
          obtain ⟨t, ht, -⟩ := h.acquire_cons s x free hfree
          rw [List.length_cons] at hlength
          refine ⟨some x, t, ht, iff_of_false (Option.some_ne_none x) (by omega), ?_⟩
          rintro y ⟨⟩
          have hnodup := hperm.nodup_iff.mpr hall
          rw [List.cons_append, List.nodup_cons] at hnodup
          exact ⟨hperm.mem_iff.mp List.mem_cons_self,
            fun hmem => hnodup.1 (List.mem_append_right _ hmem)⟩
  | release x =>
      intro hx
      obtain ⟨t, ht, -⟩ := hu.release_cons h hx
      exact ⟨t, ht⟩

/-- A stock that starts with all its items free does what it must, in every run of its users. -/
theorem attempts_proper (h : Implements acquire release Free all) (hall : all.Nodup) {s : σ}
    (hs : Accounts Free all (s, [])) (ops : List (Op ι)) :
    Attempts (use acquire release) (Proper acquire release all) (s, []) ops :=
  attempts_of_attempts (I := Accounts Free all) (C := fun _ _ => True)
    (fun _ _ _ hu _ hstep => hu.use h hstep) (fun _ op hu _ => hu.proper h hall op) hs
    (attempts_of_forall (fun _ _ => trivial) _ _)

/-- What holds whenever each item is free or held, holds in every run of its users. -/
theorem throughout_of_accounts (h : Implements acquire release Free all) {s : σ}
    (hs : Accounts Free all (s, [])) {P : σ × List ι → Prop}
    (hP : ∀ u, Accounts Free all u → P u) (ops : List (Op ι)) :
    Throughout (use acquire release) P (s, []) ops :=
  throughout_of_step hP (fun _ _ _ _ hu hstep => hu.use h hstep) hs

end Use

section Array

variable {α : Type*} {entries : List α}

/-- The stack in the first `n` entries. -/
def stack (entries : List α) (n : ℕ) : List α := (entries.take n).reverse

theorem stack_succ {n : ℕ} (h : n < entries.length) :
    stack entries (n + 1) = entries[n] :: stack entries n := by
  rw [stack, List.take_succ_eq_append_getElem h, List.reverse_append]
  rfl

theorem stack_set {n : ℕ} (h : n < entries.length) (x : α) :
    stack (entries.set n x) (n + 1) = x :: stack entries n := by
  rw [stack_succ (by rwa [List.length_set]), List.getElem_set_self, stack, stack,
    List.take_set_of_le (Nat.le_refl n)]

end Array

end Stock
