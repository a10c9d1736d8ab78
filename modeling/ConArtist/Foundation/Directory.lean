import Mathlib.Data.Option.Basic
import Mathlib.Logic.Function.Basic
import Mathlib.Tactic.SplitIfs

/-!
# Slots and the register that finds them

Slots hold keys, and a register finds the slot of a key. The register is `Sound` when
the slot it finds holds the key, and `Complete` when it finds every slot that holds
one. Swap-removal vacates a slot by moving the last one into it, which leaves the
register to be brought up to date; it stays sound in any case, and complete exactly
when the moved key is registered again (`complete_swapRemove_iff`).
-/

open Function

/-- Slots, the keys they hold and the register of the keys. -/
@[ext]
structure Directory (σ κ : Type*) where
  holds : σ → Option κ
  finds : κ → Option σ

namespace Directory

variable {σ κ : Type*}

def Sound (d : Directory σ κ) : Prop := ∀ k s, d.finds k = some s → d.holds s = some k

def Complete (d : Directory σ κ) : Prop := ∀ s k, d.holds s = some k → d.finds k = some s

theorem Complete.injective {d : Directory σ κ} (h : d.Complete) {s t : σ} {k : κ}
    (hs : d.holds s = some k) (ht : d.holds t = some k) : s = t :=
  Option.some.inj ((h s k hs).symm.trans (h t k ht))

variable [DecidableEq κ]

/-- Take a key off the register. -/
def forget (d : Directory σ κ) (k : κ) : Directory σ κ :=
  { d with finds := update d.finds k none }

@[simp] theorem forget_finds (d : Directory σ κ) (k : κ) :
    (d.forget k).finds = update d.finds k none := rfl

theorem Sound.forget {d : Directory σ κ} (h : d.Sound) (k : κ) : (d.forget k).Sound := by
  intro k' s hfinds
  have hne : k' ≠ k := by
    rintro rfl
    rw [forget_finds, update_self] at hfinds
    cases hfinds
  rw [forget_finds, update_of_ne hne] at hfinds
  exact h k' s hfinds

variable [DecidableEq σ]

/-- Put a key into a slot and register it. -/
def insert (d : Directory σ κ) (s : σ) (k : κ) : Directory σ κ :=
  ⟨update d.holds s (some k), update d.finds k (some s)⟩

/-- Vacate `s`: its key is taken off the register, and the key of `last` moves into it,
registered again if that is granted. -/
def swapRemove (d : Directory σ κ) (s last : σ) (granted : Bool) : Directory σ κ where
  holds := update (update d.holds s (d.holds last)) last none
  finds k :=
    if d.holds s = some k then none
    else if s ≠ last ∧ d.holds last = some k then if granted then some s else none
    else d.finds k

@[simp] theorem insert_holds (d : Directory σ κ) (s : σ) (k : κ) :
    (d.insert s k).holds = update d.holds s (some k) := rfl

@[simp] theorem insert_finds (d : Directory σ κ) (s : σ) (k : κ) :
    (d.insert s k).finds = update d.finds k (some s) := rfl

@[simp] theorem swapRemove_holds (d : Directory σ κ) (s last : σ) (granted : Bool) :
    (d.swapRemove s last granted).holds =
      update (update d.holds s (d.holds last)) last none := rfl

theorem swapRemove_finds (d : Directory σ κ) (s last : σ) (granted : Bool) (k : κ) :
    (d.swapRemove s last granted).finds k =
      if d.holds s = some k then none
      else if s ≠ last ∧ d.holds last = some k then if granted then some s else none
      else d.finds k := rfl

theorem Sound.insert {d : Directory σ κ} (h : d.Sound) {s : σ} (hs : d.holds s = none) (k : κ) :
    (d.insert s k).Sound := by
  intro k' t hfinds
  rw [insert_finds] at hfinds
  rw [insert_holds]
  rcases eq_or_ne k' k with rfl | hne
  · rw [update_self] at hfinds
    cases hfinds
    exact update_self _ _ _
  · rw [update_of_ne hne] at hfinds
    have hholds := h k' t hfinds
    have hst : t ≠ s := by
      rintro rfl
      rw [hs] at hholds
      cases hholds
    rw [update_of_ne hst]
    exact hholds

theorem Complete.insert {d : Directory σ κ} (h : d.Complete) (s : σ) {k : κ}
    (hk : d.finds k = none) : (d.insert s k).Complete := by
  intro t k' hholds
  rw [insert_holds] at hholds
  rw [insert_finds]
  rcases eq_or_ne t s with rfl | hne
  · rw [update_self] at hholds
    cases hholds
    exact update_self _ _ _
  · rw [update_of_ne hne] at hholds
    have hfinds := h t k' hholds
    have hkk : k' ≠ k := by
      rintro rfl
      rw [hk] at hfinds
      cases hfinds
    rw [update_of_ne hkk]
    exact hfinds

theorem holds_swapRemove_of_ne {d : Directory σ κ} {s last t : σ} {granted : Bool}
    (hs : t ≠ s) (hlast : t ≠ last) : (d.swapRemove s last granted).holds t = d.holds t := by
  rw [swapRemove_holds, update_of_ne hlast, update_of_ne hs]

theorem holds_swapRemove_last (d : Directory σ κ) (s last : σ) (granted : Bool) :
    (d.swapRemove s last granted).holds last = none :=
  update_self _ _ _

theorem holds_swapRemove_self {d : Directory σ κ} {s last : σ} (h : s ≠ last) (granted : Bool) :
    (d.swapRemove s last granted).holds s = d.holds last := by
  rw [swapRemove_holds, update_of_ne h, update_self]

/-- The register after a swap-removal, brought up to date one key after the other. -/
theorem swapRemove_finds_eq {d : Directory σ κ} {s last : σ} {k m : κ} {granted : Bool}
    (hs : d.holds s = some k) (hlast : d.holds last = some m)
    (hgranted : m = k → granted = false) :
    (d.swapRemove s last granted).finds =
      if s = last then update d.finds k none
      else update (update d.finds k none) m (if granted then some s else none) := by
  funext x
  rw [swapRemove_finds, hs, hlast]
  simp only [Option.some.injEq, ne_eq]
  rcases eq_or_ne k x with rfl | hkx
  · rw [if_pos rfl]
    split
    · rw [update_self]
    · rcases eq_or_ne m k with rfl | hmk
      · rw [update_self, hgranted rfl, if_neg Bool.false_ne_true]
      · rw [update_of_ne hmk.symm, update_self]
  · rw [if_neg hkx]
    by_cases heq : s = last
    · rw [if_pos heq, if_neg (fun h => h.1 heq), update_of_ne hkx.symm]
    · rw [if_neg heq]
      rcases eq_or_ne m x with rfl | hmx
      · rw [update_self, if_pos (show ¬ s = last ∧ m = m from ⟨heq, rfl⟩)]
      · rw [update_of_ne hmx.symm, update_of_ne hkx.symm, if_neg (fun h => hmx h.2)]

theorem finds_swapRemove_cases {d : Directory σ κ} {s last t : σ} {granted : Bool} {k : κ}
    (h : (d.swapRemove s last granted).finds k = some t) :
    d.holds s ≠ some k ∧
      ((s ≠ last ∧ t = s ∧ d.holds last = some k ∧ granted = true) ∨
        (¬ (s ≠ last ∧ d.holds last = some k) ∧ d.finds k = some t)) := by
  rw [swapRemove_finds] at h
  split_ifs at h with hkey hmoved hgranted
  · exact ⟨hkey, Or.inl ⟨hmoved.1, (Option.some.inj h).symm, hmoved.2, hgranted⟩⟩
  · exact ⟨hkey, Or.inr ⟨hmoved, h⟩⟩

theorem Sound.swapRemove {d : Directory σ κ} (h : d.Sound) (s last : σ) (granted : Bool) :
    (d.swapRemove s last granted).Sound := by
  intro k t hfinds
  obtain ⟨hkey, ⟨hne, rfl, hmoved, -⟩ | ⟨hmoved, hfinds⟩⟩ := finds_swapRemove_cases hfinds
  · rw [holds_swapRemove_self hne, hmoved]
  · have hholds := h k t hfinds
    have hts : t ≠ s := by
      rintro rfl
      exact hkey hholds
    have htlast : t ≠ last := by
      rintro rfl
      exact hmoved ⟨hts.symm, hholds⟩
    rw [holds_swapRemove_of_ne hts htlast]
    exact hholds

/-- A swap-removal leaves the register complete exactly when the key it moves, if any,
is registered again. -/
theorem complete_swapRemove_iff {d : Directory σ κ} (h : d.Complete) {s last : σ}
    {granted : Bool} :
    (d.swapRemove s last granted).Complete ↔
      (s ≠ last → d.holds last ≠ none → granted = true) := by
  constructor
  · intro hcomplete hne hmoved
    obtain ⟨k, hk⟩ := Option.ne_none_iff_exists'.mp hmoved
    have hkey : d.holds s ≠ some k := fun hs => hne (h.injective hs hk)
    have hfinds := hcomplete s k (by rw [holds_swapRemove_self hne, hk])
    rw [swapRemove_finds, if_neg hkey, if_pos ⟨hne, hk⟩] at hfinds
    by_contra hgranted
    rw [if_neg hgranted] at hfinds
    cases hfinds
  · intro hgranted t k hholds
    have htlast : t ≠ last := by
      rintro rfl
      rw [holds_swapRemove_last] at hholds
      cases hholds
    rcases eq_or_ne t s with rfl | hts
    · rw [holds_swapRemove_self htlast] at hholds
      have hkey : d.holds t ≠ some k := fun ht => htlast (h.injective ht hholds)
      have hmoved : d.holds last ≠ none := fun hnone => by
        rw [hnone] at hholds
        cases hholds
      rw [swapRemove_finds, if_neg hkey, if_pos ⟨htlast, hholds⟩, if_pos (hgranted htlast hmoved)]
    · rw [holds_swapRemove_of_ne hts htlast] at hholds
      have hkey : d.holds s ≠ some k := fun hs => hts (h.injective hholds hs)
      have hmoved : ¬ (s ≠ last ∧ d.holds last = some k) := fun hlast =>
        htlast (h.injective hholds hlast.2)
      rw [swapRemove_finds, if_neg hkey, if_neg hmoved]
      exact h t k hholds

end Directory
