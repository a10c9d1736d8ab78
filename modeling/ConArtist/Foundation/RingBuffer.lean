import Mathlib.Data.List.Rotate
import Mathlib.Data.Nat.ModEq

/-!
# Ring buffers

A ring buffer stores at most as many items as its array has slots: `head` is the
slot of the next item to leave, `tail` the slot of the next one to come. Its
bookkeeping is part of the type, so that every ring buffer has its items, read off
the array by rotating it to the head.

`BoundedFifo` is what a ring buffer is for: a queue that refuses items when it is
full. `RingBuffer.toFifo` maps every operation of the one to that of the other.
-/

/-- A queue of at most `capacity` items. -/
@[ext]
structure BoundedFifo (α : Type*) where
  capacity : ℕ
  items : List α
  length_le : items.length ≤ capacity

namespace BoundedFifo

variable {α : Type*}

def push (q : BoundedFifo α) (x : α) : Option (BoundedFifo α) :=
  if h : q.items.length = q.capacity then none
  else some {
    capacity := q.capacity
    items := q.items ++ [x]
    length_le := by
      have := q.length_le
      rw [List.length_append, List.length_singleton]
      omega }

def pop (q : BoundedFifo α) : Option (α × BoundedFifo α) :=
  match h : q.items with
  | [] => none
  | x :: items => some (x, {
      capacity := q.capacity
      items := items
      length_le := by
        have := q.length_le
        rw [h, List.length_cons] at this
        omega })

theorem pop_eq_none {q : BoundedFifo α} (h : q.items = []) : q.pop = none := by
  rw [pop]
  split
  case h_1 => rfl
  case h_2 x items hcons => exact absurd (h.symm.trans hcons) (by simp)

theorem pop_eq_some {q p : BoundedFifo α} {x : α} (hcapacity : p.capacity = q.capacity)
    (hitems : q.items = x :: p.items) : q.pop = some (x, p) := by
  rw [pop]
  split
  case h_1 hnil => exact absurd (hnil.symm.trans hitems) (by simp)
  case h_2 y items hcons =>
    obtain ⟨rfl, rfl⟩ := List.cons.inj (hcons.symm.trans hitems)
    rw [Option.some.injEq, Prod.mk.injEq]
    exact ⟨rfl, BoundedFifo.ext hcapacity.symm rfl⟩

theorem push_eq_some {q p : BoundedFifo α} {x : α} (hcapacity : p.capacity = q.capacity)
    (hroom : q.items.length ≠ q.capacity) (hitems : p.items = q.items ++ [x]) :
    q.push x = some p := by
  rw [push, dif_neg hroom, Option.some.injEq]
  exact BoundedFifo.ext hcapacity.symm hitems.symm

end BoundedFifo

/-- A ring buffer. The capacity is the number of slots of the array. -/
structure RingBuffer (α : Type*) where
  buf : List α
  head : ℕ
  tail : ℕ
  count : ℕ
  head_lt : head < buf.length
  count_le : count ≤ buf.length
  tail_eq : tail = (head + count) % buf.length

namespace RingBuffer

variable {α : Type*}

def capacity (r : RingBuffer α) : ℕ := r.buf.length

/-- The items of a ring buffer, the next one to leave first. -/
def items (r : RingBuffer α) : List α := (r.buf.rotate r.head).take r.count

/-- An empty ring buffer on an array, whatever its slots hold. -/
def empty (buf : List α) (h : 0 < buf.length) : RingBuffer α where
  buf := buf
  head := 0
  tail := 0
  count := 0
  head_lt := h
  count_le := Nat.zero_le _
  tail_eq := (Nat.zero_mod _).symm

/-- Store an item at the tail, unless the ring buffer is full. -/
def push (r : RingBuffer α) (x : α) : Option (RingBuffer α) :=
  if h : r.count = r.capacity then none
  else some {
    buf := r.buf.set r.tail x
    head := r.head
    tail := (r.tail + 1) % r.capacity
    count := r.count + 1
    head_lt := by rw [List.length_set]; exact r.head_lt
    count_le := by
      have := r.count_le
      rw [capacity] at h
      rw [List.length_set]
      omega
    tail_eq := by
      rw [List.length_set, r.tail_eq, capacity, Nat.mod_add_mod, Nat.add_assoc] }

/-- Take the item at the head, unless the ring buffer is empty. -/
def pop (r : RingBuffer α) : Option (α × RingBuffer α) :=
  if h : r.count = 0 then none
  else some (r.buf.get ⟨r.head, r.head_lt⟩, {
    buf := r.buf
    head := (r.head + 1) % r.capacity
    tail := r.tail
    count := r.count - 1
    head_lt := Nat.mod_lt _ (Nat.zero_lt_of_lt r.head_lt)
    count_le := (Nat.sub_le _ _).trans r.count_le
    tail_eq := by
      rw [r.tail_eq, capacity, Nat.mod_add_mod]
      congr 1
      omega })

theorem capacity_pos (r : RingBuffer α) : 0 < r.capacity := Nat.zero_lt_of_lt r.head_lt

@[simp] theorem length_items (r : RingBuffer α) : r.items.length = r.count := by
  rw [items, List.length_take, List.length_rotate]
  exact min_eq_left r.count_le

theorem getElem?_items (r : RingBuffer α) {i : ℕ} (hi : i < r.count) :
    r.items[i]? = r.buf[(i + r.head) % r.buf.length]? := by
  rw [items, List.getElem?_take_of_lt hi, List.getElem?_rotate (hi.trans_le r.count_le)]

@[simp] theorem items_empty (buf : List α) (h : 0 < buf.length) : (empty buf h).items = [] :=
  List.take_zero

theorem push_eq_none {r : RingBuffer α} {x : α} : r.push x = none ↔ r.count = r.capacity := by
  rw [push]
  split <;> simp [*]

theorem pop_eq_none {r : RingBuffer α} : r.pop = none ↔ r.items = [] := by
  rw [← List.length_eq_zero_iff, length_items, pop]
  split <;> simp [*]

theorem items_of_push {r r' : RingBuffer α} {x : α} (h : r.push x = some r') :
    r'.items = r.items ++ [x] := by
  rw [push] at h
  split at h
  case isTrue => cases h
  case isFalse hfull =>
    cases h
    have hcount := r.count_le
    rw [capacity] at hfull
    refine List.ext_getElem? fun i => ?_
    rcases Nat.lt_trichotomy i r.count with hi | rfl | hi
    · -- the new item does not stand in the slot of an older one
      have hslot : (i + r.head) % r.buf.length ≠ r.tail := by
        rw [r.tail_eq, Nat.add_comm r.head]
        intro heq
        have hmod := Nat.ModEq.add_right_cancel' r.head heq
        rw [Nat.ModEq, Nat.mod_eq_of_lt (by omega), Nat.mod_eq_of_lt (by omega)] at hmod
        omega
      rw [getElem?_items _ (Nat.lt_succ_of_lt hi),
        List.getElem?_append_left (by rwa [length_items]), r.getElem?_items hi]
      simp only [List.length_set]
      exact List.getElem?_set_ne hslot.symm
    · have htail : (r.count + r.head) % r.buf.length = r.tail := by
        rw [r.tail_eq, Nat.add_comm]
      rw [getElem?_items _ (Nat.lt_succ_self _)]
      simp only [List.length_set]
      rw [htail, List.getElem?_set_self (by rw [← htail]; exact Nat.mod_lt _ (by omega))]
      rw [← length_items, List.getElem?_concat_length]
    · rw [List.getElem?_eq_none (by rw [length_items]; exact hi),
        List.getElem?_eq_none (by rw [List.length_append, length_items]; exact hi)]

theorem items_of_pop {r r' : RingBuffer α} {x : α} (h : r.pop = some (x, r')) :
    r.items = x :: r'.items := by
  rw [pop] at h
  split at h
  case isTrue => cases h
  case isFalse hcount =>
    cases h
    refine List.ext_getElem? fun i => ?_
    cases i with
    | zero =>
        rw [r.getElem?_items (by omega), Nat.zero_add, Nat.mod_eq_of_lt r.head_lt,
          List.getElem?_eq_getElem r.head_lt]
        rfl
    | succ i =>
        rw [List.getElem?_cons_succ]
        rcases Nat.lt_or_ge (i + 1) r.count with hi | hi
        · rw [r.getElem?_items hi, getElem?_items _ (Nat.lt_sub_of_add_lt hi)]
          simp only [capacity, Nat.add_mod_mod]
          congr 2
          omega
        · rw [List.getElem?_eq_none (by rwa [length_items]),
            List.getElem?_eq_none (by rw [length_items]; exact Nat.sub_le_of_le_add hi)]

theorem items_eq_nil {r : RingBuffer α} : r.items = [] ↔ r.count = 0 := by
  rw [← List.length_eq_zero_iff, length_items]

theorem count_of_push {r r' : RingBuffer α} {x : α} (h : r.push x = some r') :
    r'.count = r.count + 1 := by
  rw [← length_items, items_of_push h, List.length_append, List.length_singleton, length_items]

theorem count_of_pop {r r' : RingBuffer α} {x : α} (h : r.pop = some (x, r')) :
    r.count = r'.count + 1 := by
  rw [← length_items, items_of_pop h, List.length_cons, length_items]

theorem capacity_of_push {r r' : RingBuffer α} {x : α} (h : r.push x = some r') :
    r'.capacity = r.capacity := by
  rw [push] at h
  split at h
  case isTrue => cases h
  case isFalse =>
    cases h
    exact List.length_set

theorem capacity_of_pop {r r' : RingBuffer α} {x : α} (h : r.pop = some (x, r')) :
    r'.capacity = r.capacity := by
  rw [pop] at h
  split at h
  case isTrue => cases h
  case isFalse =>
    cases h
    rfl

/-- The queue a ring buffer implements. -/
def toFifo (r : RingBuffer α) : BoundedFifo α where
  capacity := r.capacity
  items := r.items
  length_le := by
    rw [length_items]
    exact r.count_le

theorem map_toFifo_push (r : RingBuffer α) (x : α) :
    (r.push x).map toFifo = r.toFifo.push x := by
  rcases hpush : r.push x with _ | r'
  · have hfull := push_eq_none.mp hpush
    rw [BoundedFifo.push, dif_pos (by simpa [toFifo] using hfull)]
    rfl
  · have hroom : r.count ≠ r.capacity := by
      rw [ne_eq, ← push_eq_none (x := x), hpush]
      exact Option.some_ne_none r'
    exact (BoundedFifo.push_eq_some (capacity_of_push hpush) (by simpa [toFifo] using hroom)
      (items_of_push hpush)).symm

theorem map_toFifo_pop (r : RingBuffer α) :
    (r.pop).map (Prod.map id toFifo) = r.toFifo.pop := by
  rcases hpop : r.pop with _ | ⟨x, r'⟩
  · exact (BoundedFifo.pop_eq_none (pop_eq_none.mp hpop)).symm
  · exact (BoundedFifo.pop_eq_some (capacity_of_pop hpop) (items_of_pop hpop)).symm

end RingBuffer
