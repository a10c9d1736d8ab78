import Mathlib.Data.List.InsertIdx
import Mathlib.Data.List.Perm.Basic
import Mathlib.Data.List.Range
import Mathlib.Data.Int.Basic
import Mathlib.Algebra.Order.Ring.Nat
import ConArtist.Registry.Model

/-!
# The loops of a shard

What each loop of `shard_t` computes, entry by entry, and what `add` and `find`
make of a shard whose `n` entries are the indices `0 … n - 1` in some order. Such
a shard is what the runs of the registry that stay inside one shard produce: the
value `add` stores, its own count, is then the index it was asked to store.
-/

namespace ConArtist

namespace Registry

section Access

variable {α : Type*} {xs : List α}

theorem read?_natCast (i : ℕ) : read? xs i = xs[i]? := by
  simp [read?]

theorem write?_of_lt {i : ℕ} (h : i < xs.length) (v : α) : write? xs i v = some (xs.set i v) :=
  if_pos h

theorem write?_of_le {i : ℕ} (h : xs.length ≤ i) (v : α) : write? xs i v = none :=
  if_neg (by omega)

theorem write?_eq_some {ys : List α} {i : ℕ} {v : α} :
    write? xs i v = some ys ↔ i < xs.length ∧ ys = xs.set i v := by
  rcases Nat.lt_or_ge i xs.length with hlt | hge
  · rw [write?_of_lt hlt, Option.some.injEq, and_iff_right hlt, eq_comm]
  · rw [write?_of_le hge]
    exact iff_of_false (Option.some_ne_none ys).symm fun h => Nat.not_lt.mpr hge h.1

end Access

theorem toI16_of_lt {n : ℕ} (h : n < 32768) : toI16 n = n := by
  rw [toI16, Int.bmod_def]
  omega

section Copy

variable {sorted : List ℤ}

/-- The copy replaces the first entries of the new block by those of the old one. -/
theorem copyLoop_spec (n i : ℕ) (newSorted : List ℤ) (hold : i + n ≤ sorted.length)
    (hnew : i + n ≤ newSorted.length) :
    ∃ out, copyLoop sorted n i newSorted = some out ∧ out.length = newSorted.length ∧
      ∀ j, out[j]? = if i ≤ j ∧ j < i + n then sorted[j]? else newSorted[j]? := by
  induction n generalizing i newSorted with
  | zero =>
      refine ⟨newSorted, rfl, rfl, fun j => ?_⟩
      rw [if_neg (by omega)]
  | succ n ih =>
      have hi : sorted[i]? = some sorted[i] := List.getElem?_eq_getElem (by omega)
      obtain ⟨out, hout, hlen, hget⟩ := ih (i + 1) (newSorted.set i sorted[i]) (by omega)
        (by rw [List.length_set]; omega)
      refine ⟨out, ?_, by simpa using hlen, fun j => ?_⟩
      · simp [copyLoop, hi, write?_of_lt (show i < newSorted.length by omega), hout]
      · rw [hget, List.getElem?_set]
        by_cases hj : i = j
        · subst hj
          rw [if_neg (by omega), if_pos rfl, if_pos (by omega), if_pos (by omega), hi]
        · rw [if_neg hj]
          exact if_congr (by omega) rfl rfl

theorem copyLoop_eq_none (sorted : List ℤ) (n i : ℕ) (newSorted : List ℤ)
    (hi : i ≤ newSorted.length)
    (hnew : newSorted.length < i + n) : copyLoop sorted n i newSorted = none := by
  induction n generalizing i newSorted with
  | zero => omega
  | succ n ih =>
      rcases hget : sorted[i]? with _ | index
      · simp [copyLoop, hget]
      · rcases Nat.lt_or_ge i newSorted.length with hlt | hge
        · have hrest := ih (i + 1) (newSorted.set i index) (by rw [List.length_set]; omega)
            (by rw [List.length_set]; omega)
          simp [copyLoop, hget, write?_of_lt hlt, hrest]
        · simp [copyLoop, hget, write?_of_le hge]

end Copy

section Insert

variable {sorted : List ℤ} {userIds : List UInt64}

/-- The entries from `i` on, `n` of them, are there and index a registered id. -/
def ReadsIds (sorted : List ℤ) (userIds : List UInt64) (n i : ℕ) : Prop :=
  ∀ j, i ≤ j → j < i + n → ∃ k : ℕ, ∃ id, sorted[j]? = some (k : ℤ) ∧ userIds[k]? = some id

theorem ReadsIds.tail {n i : ℕ} (h : ReadsIds sorted userIds (n + 1) i) :
    ReadsIds sorted userIds n (i + 1) :=
  fun j hj hjn => h j (by omega) (by omega)

theorem posLoop_spec (key : UInt64) (n i : ℕ) (h : ReadsIds sorted userIds n i) :
    ∃ pos, posLoop sorted userIds key n i = some pos ∧ i ≤ pos ∧ pos ≤ i + n := by
  induction n generalizing i with
  | zero => exact ⟨i, rfl, le_rfl, le_rfl⟩
  | succ n ih =>
      obtain ⟨k, id, hsorted, hid⟩ := h i le_rfl (by omega)
      by_cases hlt : id < key
      · obtain ⟨pos, hpos, hle, hle'⟩ := ih (i + 1) h.tail
        refine ⟨pos, ?_, by omega, by omega⟩
        simp [posLoop, hsorted, read?_natCast, hid, hlt, hpos]
      · refine ⟨i, ?_, le_rfl, by omega⟩
        simp [posLoop, hsorted, read?_natCast, hid, hlt]

/-- Each of the `m` entries below `i` moves up by one. -/
theorem shiftLoop_spec (m i : ℕ) (sorted : List ℤ) (hm : m ≤ i) (hi : i < sorted.length) :
    ∃ out, shiftLoop m i sorted = some out ∧ out.length = sorted.length ∧
      ∀ j, out[j]? = if i - m < j ∧ j ≤ i then sorted[j - 1]? else sorted[j]? := by
  induction m generalizing i sorted with
  | zero =>
      refine ⟨sorted, rfl, rfl, fun j => ?_⟩
      rw [if_neg (by omega)]
  | succ m ih =>
      have hget : sorted[i - 1]? = some sorted[i - 1] := List.getElem?_eq_getElem (by omega)
      obtain ⟨out, hout, hlen, hentry⟩ := ih (i - 1) (sorted.set i sorted[i - 1]) (by omega)
        (by rw [List.length_set]; omega)
      refine ⟨out, ?_, by simpa using hlen, fun j => ?_⟩
      · simp [shiftLoop, hget, write?_of_lt hi, hout]
      · rw [hentry]
        by_cases hj : i - 1 - m < j ∧ j ≤ i - 1
        · rw [if_pos hj, if_pos (by omega), List.getElem?_set, if_neg (by omega)]
        · rw [if_neg hj, List.getElem?_set]
          by_cases hij : i = j
          · subst hij
            rw [if_pos rfl, if_pos hi, if_pos (by omega), hget]
          · rw [if_neg hij, if_neg (by omega)]

/-- Shifting the entries from `pos` on and storing `v` at `pos` inserts `v` there. -/
theorem take_insert (sorted : List ℤ) {n pos : ℕ} {shifted : List ℤ} (v : ℤ) (hpos : pos ≤ n)
    (hn : n < sorted.length) (hlen : shifted.length = sorted.length)
    (hshift : ∀ j, shifted[j]? = if pos < j ∧ j ≤ n then sorted[j - 1]? else sorted[j]?) :
    (shifted.set pos v).take (n + 1) = (sorted.take n).insertIdx pos v := by
  have hlength : pos ≤ (sorted.take n).length := by
    rw [List.length_take]
    omega
  refine List.ext_getElem? fun j => ?_
  rw [List.getElem?_take, List.getElem?_insertIdx]
  rcases Nat.lt_trichotomy j pos with hj | rfl | hj
  · rw [if_pos (by omega), if_pos hj, List.getElem?_set, if_neg (by omega), hshift,
      if_neg (by omega), List.getElem?_take, if_pos (by omega)]
  · rw [if_pos (by omega), if_neg (lt_irrefl j), if_pos rfl, if_pos hlength, List.getElem?_set,
      if_pos rfl, if_pos (by omega)]
  · rw [if_neg (show ¬ j < pos by omega), if_neg (show ¬ j = pos by omega), List.getElem?_take]
    by_cases hjn : j ≤ n
    · rw [if_pos (by omega), if_pos (by omega), List.getElem?_set, if_neg (by omega), hshift,
        if_pos ⟨hj, hjn⟩]
    · rw [if_neg (by omega), if_neg (by omega)]

/-- The scan of `find`: it ends on the first entry whose id is the one asked for. -/
theorem findLoop_spec (userId : UInt64) (n i : ℕ) (h : ReadsIds sorted userIds n i) :
    (findLoop sorted userIds userId n i = some (-1) ∧
        ∀ j, i ≤ j → j < i + n → ∀ k : ℕ, sorted[j]? = some (k : ℤ) → userIds[k]? ≠ some userId) ∨
      ∃ j, ∃ k : ℕ, i ≤ j ∧ j < i + n ∧ sorted[j]? = some (k : ℤ) ∧ userIds[k]? = some userId ∧
        findLoop sorted userIds userId n i = some (k : ℤ) := by
  induction n generalizing i with
  | zero => exact Or.inl ⟨rfl, fun j hj hji => by omega⟩
  | succ n ih =>
      obtain ⟨k, id, hsorted, hid⟩ := h i le_rfl (by omega)
      by_cases heq : id = userId
      · refine Or.inr ⟨i, k, le_rfl, by omega, hsorted, heq ▸ hid, ?_⟩
        simp [findLoop, hsorted, read?_natCast, hid, heq]
      · have hstep : findLoop sorted userIds userId (n + 1) i =
            findLoop sorted userIds userId n (i + 1) := by
          simp [findLoop, hsorted, read?_natCast, hid, heq]
        rw [hstep]
        rcases ih (i + 1) h.tail with ⟨hnone, hall⟩ | ⟨j, k', hij, hjn, hj, hk', hfound⟩
        · refine Or.inl ⟨hnone, fun j hij hjn k' hj hk' => ?_⟩
          rcases Nat.eq_or_lt_of_le hij with rfl | hlt
          · obtain rfl : k = k' := Int.ofNat_inj.mp (Option.some.inj (hsorted.symm.trans hj))
            exact heq (Option.some.inj (hid.symm.trans hk'))
          · exact hall j (by omega) (by omega) k' hj hk'
        · exact Or.inr ⟨j, k', by omega, by omega, hj, hk', hfound⟩

end Insert

section Grow

variable {alloc : Allocator} {s : Shard} {n : ℕ}

theorem Shard.grow_full (h : s.capacity ≤ s.count) :
    s.grow alloc = (alloc.allocateI16 s.newCapacity).bind fun block =>
      (copyLoop s.sorted s.count.toNat 0 block).bind fun newSorted =>
        some ⟨s.count, toI16 s.newCapacity, newSorted⟩ := by
  rw [Shard.grow, if_pos h]
  rfl

theorem grow_of_granted (hcount : s.count = n) (hfull : s.capacity ≤ n)
    (hlen : n ≤ s.sorted.length) (hgrants : alloc.grants (bytesFor s.newCapacity) = true)
    (hbytes : n < bytesFor s.newCapacity / 2) :
    ∃ out, s.grow alloc = some ⟨s.count, toI16 s.newCapacity, out⟩ ∧
      out.length = bytesFor s.newCapacity / 2 ∧ out.take n = s.sorted.take n := by
  obtain ⟨out, hout, houtlen, hget⟩ := copyLoop_spec n 0
    (List.replicate (bytesFor s.newCapacity / 2) 0) (show 0 + n ≤ s.sorted.length by omega)
    (by rw [List.length_replicate]; omega)
  refine ⟨out, ?_, by rw [houtlen, List.length_replicate], List.ext_getElem? fun j => ?_⟩
  · rw [Shard.grow_full (hcount ▸ hfull), Allocator.allocateI16, if_pos hgrants, Option.bind_some,
      hcount, Int.toNat_natCast, hout, Option.bind_some]
  · rw [List.getElem?_take, List.getElem?_take]
    by_cases hj : j < n
    · rw [if_pos hj, if_pos hj, hget, if_pos (by omega)]
    · rw [if_neg hj, if_neg hj]

/-- The number of entries a shard can take. The capacity doubles from 4; the
growth at 16384 entries makes it 32768, which is -32768 as an `i16`, so that the
next entry asks for the `size_t` value of minus 128 KiB. An allocator that grants
that too leaves a capacity of 0, and the entry after it does not fit in the
block of 4 that follows. -/
def limit (alloc : Allocator) : ℕ := if alloc.grants (2 ^ 64 - 131072) then 16386 else 16385

/-- The capacity and the array of a shard of `n` entries. -/
def Room (alloc : Allocator) (s : Shard) (n : ℕ) : Prop :=
  (∃ c : ℕ, s.capacity = c ∧ s.sorted.length = c ∧ n ≤ c ∧ (c = 0 ∨ ∃ j ≤ 12, c = 4 * 2 ^ j)) ∨
    (n = 16385 ∧ s.capacity = -32768 ∧ s.sorted.length = 32768) ∨
    (n = 16386 ∧ alloc.grants (2 ^ 64 - 131072) = true ∧ s.capacity = 0 ∧ n ≤ s.sorted.length)

theorem Room.le_length (h : Room alloc s n) : n ≤ s.sorted.length := by
  rcases h with ⟨c, -, hlen, hn, -⟩ | ⟨rfl, -, hlen⟩ | ⟨-, -, -, hlen⟩ <;> omega

theorem le_limit (alloc : Allocator) : 16385 ≤ limit alloc := by
  rw [limit]
  split_ifs <;> omega

theorem doubled_le {c : ℕ} (h : c = 0 ∨ ∃ j ≤ 12, c = 4 * 2 ^ j) : c ≤ 16384 := by
  rcases h with rfl | ⟨j, hj, rfl⟩
  · omega
  · have := Nat.pow_le_pow_right (show 0 < 2 by omega) hj
    omega

theorem Room.le_limit (h : Room alloc s n) : n ≤ limit alloc := by
  rcases h with ⟨c, -, -, hn, hc⟩ | ⟨rfl, -, -⟩ | ⟨rfl, hgrants, -, -⟩
  · have := doubled_le hc
    rw [limit]
    split_ifs <;> omega
  · rw [limit]
    split_ifs <;> omega
  · rw [limit, if_pos hgrants]

theorem doubled_next {c : ℕ} (h : c = 0 ∨ ∃ j ≤ 12, c = 4 * 2 ^ j) (hc : c < 16384) :
    ∃ j ≤ 12, (if c = 0 then 4 else 2 * c) = 4 * 2 ^ j := by
  rcases h with rfl | ⟨j, hj, rfl⟩
  · exact ⟨0, by omega, rfl⟩
  · have hlt : j < 12 := (Nat.pow_lt_pow_iff_right (by omega : 1 < 2)).mp (by omega)
    refine ⟨j + 1, hlt, ?_⟩
    have hpos := Nat.two_pow_pos j
    rw [if_neg (by omega), pow_succ]
    omega

/-- Growth below the limit succeeds, keeps the entries and makes room for one more. -/
theorem grow_spec (hcount : s.count = n) (hroom : Room alloc s n) (hn : n < limit alloc) :
    ∃ s', s.grow alloc = some s' ∧ s'.count = n ∧ n < s'.sorted.length ∧
      s'.sorted.take n = s.sorted.take n ∧ Room alloc s' (n + 1) := by
  have hlength := hroom.le_length
  rcases hroom with ⟨c, hcap, hlen, hnc, hc⟩ | ⟨rfl, hcap, hlen⟩ | ⟨rfl, hgrants, -, -⟩
  · have hc' := doubled_le hc
    rcases Nat.lt_or_ge n c with hlt | hge
    · -- a slot is free
      refine ⟨s, ?_, hcount, by omega, rfl, Or.inl ⟨c, hcap, hlen, hlt, hc⟩⟩
      rw [Shard.grow, if_neg (by omega)]
    · obtain rfl : n = c := by omega
      have hnext : s.newCapacity = ((if n = 0 then 4 else 2 * n : ℕ) : ℤ) := by
        rw [Shard.newCapacity, hcap]
        split_ifs <;> omega
      have hbytes : bytesFor s.newCapacity = 2 * (if n = 0 then 4 else 2 * n) := by
        rw [hnext, bytesFor]
        split_ifs <;> omega
      have hgt : n < bytesFor s.newCapacity / 2 := by
        rw [hbytes]
        split_ifs <;> omega
      obtain ⟨out, hgrow, hout, htake⟩ := grow_of_granted hcount (by omega) hlength
        (alloc.grants_small _ (by rw [hbytes]; split_ifs <;> omega)) hgt
      refine ⟨_, hgrow, hcount, hgt.trans_eq hout.symm, htake, ?_⟩
      rcases Nat.lt_or_ge n 16384 with hlt | hge
      · obtain ⟨j, hj, hnj⟩ := doubled_next hc hlt
        have hle := doubled_le (Or.inr ⟨j, hj, hnj⟩)
        refine Or.inl ⟨if n = 0 then 4 else 2 * n, ?_, ?_, ?_, Or.inr ⟨j, hj, hnj⟩⟩
        · exact (congrArg toI16 hnext).trans (toI16_of_lt (by omega))
        · exact hout.trans (by omega)
        · split_ifs <;> omega
      · obtain rfl : n = 16384 := by omega
        refine Or.inr (Or.inl ⟨rfl, ?_, ?_⟩)
        · exact (congrArg toI16 hnext).trans rfl
        · exact hout.trans (by rw [hbytes]; rfl)
  · -- the capacity has wrapped to -32768
    have hgrants : alloc.grants (2 ^ 64 - 131072) = true := by
      by_contra hno
      rw [limit, if_neg hno] at hn
      omega
    have hnext : s.newCapacity = -65536 := by
      rw [Shard.newCapacity, hcap]
      rfl
    have hbytes : bytesFor s.newCapacity = 2 ^ 64 - 131072 := by
      rw [hnext]
      rfl
    obtain ⟨out, hgrow, hout, htake⟩ := grow_of_granted hcount (by omega) hlength
      (hbytes ▸ hgrants) (by omega)
    have hlt : 16385 < out.length := by omega
    refine ⟨_, hgrow, hcount, hlt, htake, Or.inr (Or.inr ⟨rfl, hgrants, ?_, hlt⟩)⟩
    exact (congrArg toI16 hnext).trans rfl
  · rw [limit, if_pos hgrants] at hn
    omega

/-- Growth at the limit writes through a null pointer or past the new block. -/
theorem grow_limit (hcount : s.count = n) (hroom : Room alloc s n) (hn : n = limit alloc) :
    s.grow alloc = none := by
  rcases hroom with ⟨c, -, -, hnc, hc⟩ | ⟨rfl, hcap, -⟩ | ⟨rfl, -, hcap, -⟩
  · have := doubled_le hc
    rw [limit] at hn
    split_ifs at hn <;> omega
  · have hgrants : ¬ alloc.grants (2 ^ 64 - 131072) = true := by
      intro h
      rw [limit, if_pos h] at hn
      omega
    have hnext : s.newCapacity = -65536 := by
      rw [Shard.newCapacity, hcap]
      rfl
    have hbytes : bytesFor (-65536) = 2 ^ 64 - 131072 := rfl
    rw [Shard.grow_full (by omega), hnext, Allocator.allocateI16, hbytes, if_neg hgrants,
      Option.bind_none]
  · have hnext : s.newCapacity = 4 := by
      rw [Shard.newCapacity, hcap]
      rfl
    have hbytes : bytesFor 4 = 8 := rfl
    have hcopy := copyLoop_eq_none s.sorted 16386 0 (List.replicate 4 0) (by omega)
      (by rw [List.length_replicate]; omega)
    rw [Shard.grow_full (by omega), hnext, Allocator.allocateI16, hbytes,
      if_pos (alloc.grants_small 8 (by omega)), Option.bind_some, hcount, Int.toNat_natCast]
    rw [hcopy, Option.bind_none]

end Grow

end Registry

end ConArtist
