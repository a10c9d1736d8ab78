import Mathlib.Data.Nat.Basic
import Mathlib.Logic.Relation

/-!
# A bounded buffer with a single condition variable

Writers fill the free slots of a buffer and readers empty the full ones. A thread that
cannot go on parks on the one condition variable that all of them share, and every
access signals it once, which wakes one parked thread of either kind. Only the numbers
of slots and threads are kept. Reading is writing with free and full, and writers and
readers, exchanged.

A signal can be wasted on a thread that has to park again. The last theorem says when
this can leave everybody parked in front of a slot to use: with a writer, a reader and
more than two threads per slot.
-/

namespace SharedWait

open Relation

/-- The threads of one kind that are not parked, and those that are. -/
structure Party where
  awake : ℕ
  parked : ℕ

/-- The slots of the buffer and the threads that use it. -/
structure Buffer where
  free : ℕ
  full : ℕ
  writers : Party
  readers : Party

/-- The buffer seen by the readers. -/
def Buffer.swap (b : Buffer) : Buffer :=
  ⟨b.full, b.free, b.readers, b.writers⟩

/-- A writer parks, or fills a slot and wakes a parked thread if there is one. -/
inductive Write : Buffer → Buffer → Prop
  | parks {s a x : ℕ} {r : Party} : Write ⟨0, s, ⟨a + 1, x⟩, r⟩ ⟨0, s, ⟨a, x + 1⟩, r⟩
  | wakesWriter {f s a x : ℕ} {r : Party} :
      Write ⟨f + 1, s, ⟨a + 1, x + 1⟩, r⟩ ⟨f, s + 1, ⟨a + 1 + 1, x⟩, r⟩
  | wakesReader {f s a b y : ℕ} {x : ℕ} :
      Write ⟨f + 1, s, ⟨a + 1, x⟩, ⟨b, y + 1⟩⟩ ⟨f, s + 1, ⟨a + 1, x⟩, ⟨b + 1, y⟩⟩
  | wakesNobody {f s a b : ℕ} :
      Write ⟨f + 1, s, ⟨a + 1, 0⟩, ⟨b, 0⟩⟩ ⟨f, s + 1, ⟨a + 1, 0⟩, ⟨b, 0⟩⟩

theorem Write.awake {b b' : Buffer} (h : Write b b') : 0 < b.writers.awake := by
  cases h <;> exact Nat.succ_pos _

/-- A step of a writer or of a reader. -/
inductive Step : Buffer → Buffer → Prop
  | write {b b' : Buffer} (h : Write b b') : Step b b'
  | read {b b' : Buffer} (h : Write b.swap b'.swap) : Step b b'

/-- The states that can come of a state. -/
def Reaches : Buffer → Buffer → Prop := ReflTransGen Step

/-- Everybody is parked, in front of a slot to use. -/
def Stuck (b : Buffer) : Prop :=
  b.writers.awake = 0 ∧ b.readers.awake = 0 ∧
    (0 < b.writers.parked ∧ 0 < b.free ∨ 0 < b.readers.parked ∧ 0 < b.full)

/-- All slots are free and nobody is parked. -/
def start (capacity p q : ℕ) : Buffer := ⟨capacity, 0, ⟨p, 0⟩, ⟨q, 0⟩⟩

theorem Step.swap {b b' : Buffer} (h : Step b b') : Step b.swap b'.swap := by
  cases h with
  | write h => exact .read h
  | read h => exact .write h

theorem Reaches.swap {b b' : Buffer} (h : Reaches b b') : Reaches b.swap b'.swap :=
  ReflTransGen.lift Buffer.swap (fun _ _ => Step.swap) _ _ h

theorem Stuck.swap {b : Buffer} (h : Stuck b) : Stuck b.swap :=
  ⟨h.2.1, h.1, h.2.2.symm⟩

section Invariant

variable {capacity : ℕ} {b b' : Buffer}

/-- What a writer and a reader with enough slots for all threads keep: somebody is
awake, and all threads of one kind are only parked while fewer of the other kind are
than there are slots for those to use. -/
structure Lively (capacity : ℕ) (b : Buffer) : Prop where
  slots : b.free + b.full = capacity
  writer : 0 < b.writers.awake + b.writers.parked
  reader : 0 < b.readers.awake + b.readers.parked
  few : b.writers.awake + b.writers.parked + (b.readers.awake + b.readers.parked) ≤ 2 * capacity
  awake : 0 < b.writers.awake + b.readers.awake
  noReader : b.readers.awake = 0 → b.writers.parked < b.free
  noWriter : b.writers.awake = 0 → b.readers.parked < b.full
  manyWriters : capacity ≤ b.writers.parked →
    b.writers.parked + b.readers.parked < capacity + b.full
  manyReaders : capacity ≤ b.readers.parked →
    b.writers.parked + b.readers.parked < capacity + b.free

theorem Lively.swap (h : Lively capacity b) : Lively capacity b.swap where
  slots := (Nat.add_comm _ _).trans h.slots
  writer := h.reader
  reader := h.writer
  few := Nat.add_comm (b.writers.awake + b.writers.parked) _ ▸ h.few
  awake := Nat.add_comm b.writers.awake _ ▸ h.awake
  noReader := h.noWriter
  noWriter := h.noReader
  manyWriters := fun hmany => Nat.add_comm b.writers.parked _ ▸ h.manyReaders hmany
  manyReaders := fun hmany => Nat.add_comm b.writers.parked _ ▸ h.manyWriters hmany

theorem Lively.write (h : Lively capacity b) (hstep : Write b b') : Lively capacity b' := by
  obtain ⟨hslots, hwriter, hreader, hfew, hawake, hnoReader, hnoWriter, hmanyW, hmanyR⟩ := h
  cases hstep with
  | parks => constructor <;> dsimp only at * <;> omega
  | wakesWriter => constructor <;> dsimp only at * <;> omega
  | wakesReader => constructor <;> dsimp only at * <;> omega
  | wakesNobody => constructor <;> dsimp only at * <;> omega

theorem Lively.step (h : Lively capacity b) (hstep : Step b b') : Lively capacity b' := by
  cases hstep with
  | write hwrite => exact h.write hwrite
  | read hwrite => exact (h.swap.write hwrite).swap

theorem lively_start {p q : ℕ} (hcap : 0 < capacity) (hp : 0 < p) (hq : 0 < q)
    (hfew : p + q ≤ 2 * capacity) : Lively capacity (start capacity p q) := by
  constructor <;> simp only [start] <;> omega

theorem Lively.not_stuck (h : Lively capacity b) : ¬ Stuck b := by
  intro hstuck
  have hawake := h.awake
  rw [hstuck.1, hstuck.2.1] at hawake
  exact Nat.lt_irrefl 0 hawake

/-- Without readers a writer is only parked when there is no free slot. -/
structure NoReaders (b : Buffer) : Prop where
  awake : b.readers.awake = 0
  parked : b.readers.parked = 0
  full : 0 < b.writers.parked → b.free = 0

theorem NoReaders.step (h : NoReaders b) (hstep : Step b b') : NoReaders b' := by
  obtain ⟨hawake, hparked, hfull⟩ := h
  cases hstep with
  | write hwrite => cases hwrite <;> constructor <;> dsimp only at * <;> omega
  | read hwrite => exact absurd hawake (Nat.ne_of_gt hwrite.awake)

theorem NoReaders.not_stuck (h : NoReaders b) : ¬ Stuck b := by
  rintro ⟨-, -, ⟨hparked, hfree⟩ | ⟨hparked, -⟩⟩
  · rw [h.full hparked] at hfree
    exact Nat.lt_irrefl 0 hfree
  · rw [h.parked] at hparked
    exact Nat.lt_irrefl 0 hparked

theorem Reaches.invariant {P : Buffer → Prop} (hstep : ∀ {b b'}, P b → Step b b' → P b')
    (hb : P b) (h : Reaches b b') : P b' := by
  induction h with
  | refl => exact hb
  | tail _ hlast ih => exact hstep ih hlast

/-- With a slot for every two threads, or threads of one kind only, nobody is stuck. -/
theorem not_stuck_of_reaches {p q : ℕ} (hcap : 0 < capacity)
    (hfew : p = 0 ∨ q = 0 ∨ p + q ≤ 2 * capacity) (h : Reaches (start capacity p q) b) :
    ¬ Stuck b := by
  rcases Nat.eq_zero_or_pos q with rfl | hq
  · have hnone : NoReaders (start capacity p 0) :=
      ⟨rfl, rfl, fun hparked => absurd hparked (Nat.lt_irrefl 0)⟩
    exact (Reaches.invariant NoReaders.step hnone h).not_stuck
  rcases Nat.eq_zero_or_pos p with rfl | hp
  · have hnone : NoReaders (start capacity 0 q).swap :=
      ⟨rfl, rfl, fun hparked => absurd hparked (Nat.lt_irrefl 0)⟩
    exact fun hstuck => (Reaches.invariant NoReaders.step hnone h.swap).not_stuck hstuck.swap
  · exact (Reaches.invariant Lively.step (lively_start hcap hp hq (by omega)) h).not_stuck

end Invariant

section Runs

variable {f s a x b y : ℕ} {r : Party}

/-- The signals of `k` writers go to writers. -/
theorem reaches_wakesWriter (k : ℕ) :
    Reaches ⟨f + k, s, ⟨a + 1, x + k⟩, r⟩ ⟨f, s + k, ⟨a + 1 + k, x⟩, r⟩ := by
  induction k generalizing s a with
  | zero => exact .refl
  | succ k ih =>
      have hrest := ih (s := s + 1) (a := a + 1)
      rw [Nat.add_right_comm s, Nat.add_right_comm (a + 1)] at hrest
      exact .head (.write .wakesWriter) hrest

/-- The signals of `k` writers go to readers. -/
theorem reaches_wakesReader (k : ℕ) :
    Reaches ⟨f + k, s, ⟨a + 1, x⟩, ⟨b, y + k⟩⟩ ⟨f, s + k, ⟨a + 1, x⟩, ⟨b + k, y⟩⟩ := by
  induction k generalizing s b with
  | zero => exact .refl
  | succ k ih =>
      have hrest := ih (s := s + 1) (b := b + 1)
      rw [Nat.add_right_comm s, Nat.add_right_comm b] at hrest
      exact .head (.write .wakesReader) hrest

/-- The signals of `k` writers are lost. -/
theorem reaches_wakesNobody (k : ℕ) :
    Reaches ⟨f + k, s, ⟨a + 1, 0⟩, ⟨b, 0⟩⟩ ⟨f, s + k, ⟨a + 1, 0⟩, ⟨b, 0⟩⟩ := by
  induction k generalizing s with
  | zero => exact .refl
  | succ k ih =>
      have hrest := ih (s := s + 1)
      rw [Nat.add_right_comm s] at hrest
      exact .head (.write .wakesNobody) hrest

theorem reaches_parks (k : ℕ) : Reaches ⟨0, s, ⟨k, x⟩, r⟩ ⟨0, s, ⟨0, x + k⟩, r⟩ := by
  induction k generalizing x with
  | zero => exact .refl
  | succ k ih =>
      have hrest := ih (x := x + 1)
      rw [Nat.add_right_comm x] at hrest
      exact .head (.write .parks) hrest

variable {capacity p q : ℕ}

/-- The readers have emptied all slots and parked, and `x` of the `p` writers are parked. -/
def emptied (capacity p x q : ℕ) : Buffer := ⟨capacity, 0, ⟨p - x, x⟩, ⟨0, q⟩⟩

/-- With enough writers parked, the next ones wake only writers, and all park again. -/
theorem exists_stuck_of_emptied (hcap : 0 < capacity) (hx : capacity ≤ x) (hp : x < p)
    (hq : 0 < q) : ∃ b, Reaches (emptied capacity p x q) b ∧ Stuck b := by
  obtain ⟨x, rfl⟩ := Nat.exists_eq_add_of_le' hx
  obtain ⟨a, rfl⟩ := Nat.exists_eq_add_of_lt hp
  have hwrites : Reaches ⟨0 + capacity, 0, ⟨a + 1, x + capacity⟩, ⟨0, q⟩⟩ _ :=
    reaches_wakesWriter capacity
  rw [Nat.zero_add] at hwrites
  rw [emptied, show x + capacity + a + 1 - (x + capacity) = a + 1 by omega]
  exact ⟨_, hwrites.trans (reaches_parks _), rfl, rfl, Or.inr ⟨hq, hcap⟩⟩

/-- The signals of `k` writers go to the parked readers, as far as there are any. -/
theorem reaches_wakesReaders (k q : ℕ) :
    Reaches ⟨k, s, ⟨a + 1, 0⟩, ⟨0, q⟩⟩ ⟨0, s + k, ⟨a + 1, 0⟩, ⟨q - (q - k), q - k⟩⟩ := by
  rcases Nat.le_total k q with hk | hq
  · obtain ⟨y, rfl⟩ := Nat.exists_eq_add_of_le' hk
    have hwakes : Reaches ⟨0 + k, s, ⟨a + 1, 0⟩, ⟨0, y + k⟩⟩ _ := reaches_wakesReader k
    rw [Nat.zero_add] at hwakes
    rwa [show y + k - k = y by omega, show y + k - y = k by omega]
  · obtain ⟨f, rfl⟩ := Nat.exists_eq_add_of_le' hq
    have hwakes : Reaches ⟨f + q, s, ⟨a + 1, 0⟩, ⟨0, 0 + q⟩⟩ _ := reaches_wakesReader q
    have hlost : Reaches ⟨0 + f, s + q, ⟨a + 1, 0⟩, ⟨0 + q, 0⟩⟩ _ := reaches_wakesNobody f
    rw [Nat.zero_add, Nat.zero_add, Nat.add_assoc, Nat.add_comm q f] at hlost
    rw [Nat.zero_add] at hwakes
    rw [show q - (f + q) = 0 by omega, Nat.sub_zero]
    exact hwakes.trans hlost

/-- With fewer writers parked than slots, the others fill the slots, waking first the
parked writers, and all park. -/
theorem reaches_turn (hx : x < capacity) (hp : x < p) :
    Reaches (emptied capacity p x q) (emptied capacity q (q + x - capacity) p).swap := by
  obtain ⟨k, rfl⟩ := Nat.exists_eq_add_of_le' (Nat.le_of_lt hx)
  obtain ⟨a, rfl⟩ := Nat.exists_eq_add_of_lt hp
  have hwrites : Reaches ⟨k + x, 0, ⟨a + 1, 0 + x⟩, ⟨0, q⟩⟩ _ := reaches_wakesWriter x
  have hreaders := reaches_wakesReaders (s := x) (a := a + x) k q
  have hparks : Reaches ⟨0, x + k, ⟨a + x + 1, 0⟩, ⟨q - (q - k), q - k⟩⟩ _ := reaches_parks _
  rw [Nat.zero_add, Nat.add_right_comm] at hwrites
  rw [Nat.zero_add, Nat.add_comm x k] at hparks
  rw [Nat.add_comm x k] at hreaders
  rw [emptied, emptied, Buffer.swap, show x + a + 1 - x = a + 1 by omega,
    show q + x - (k + x) = q - k by omega, Nat.add_comm x a]
  exact (hwrites.trans hreaders).trans hparks

/-- With more than two threads for every slot everybody is stuck after some turns: the
parked threads of a kind become more with every second turn. -/
theorem exists_stuck_of_turns (hcap : 0 < capacity) (hq : 0 < q) (hmany : 2 * capacity < p + q)
    (hx : x < p) : ∃ b, Reaches (emptied capacity p x q) b ∧ Stuck b := by
  induction hleft : capacity - x using Nat.strong_induction_on generalizing x with
  | _ left ih =>
      rcases Nat.le_total capacity x with hfull | hfew
      · exact exists_stuck_of_emptied hcap hfull hx hq
      rcases Nat.eq_or_lt_of_le hfew with rfl | hfew
      · exact exists_stuck_of_emptied hcap (Nat.le_refl x) hx hq
      have hturn := reaches_turn (q := q) hfew hx
      by_cases hfull : capacity ≤ q + x - capacity
      · obtain ⟨b, hb, hstuck⟩ := exists_stuck_of_emptied (p := q) (q := p) hcap hfull
          (by omega) (by omega)
        exact ⟨b.swap, hturn.trans hb.swap, hstuck.swap⟩
      · have hback := (reaches_turn (p := q) (q := p) (Nat.lt_of_not_le hfull) (by omega)).swap
        obtain ⟨b, hb, hstuck⟩ := ih (capacity - (p + (q + x - capacity) - capacity)) (by omega)
          (x := p + (q + x - capacity) - capacity) (by omega) rfl
        exact ⟨b, (hturn.trans hback).trans hb, hstuck⟩

/-- Somebody can be left parked in front of a slot to use, with everybody else parked,
exactly when there is a writer, a reader and more than two threads for every slot. -/
theorem exists_stuck_iff (hcap : 0 < capacity) :
    (∃ b, Reaches (start capacity p q) b ∧ Stuck b) ↔
      0 < p ∧ 0 < q ∧ 2 * capacity < p + q := by
  constructor
  · rintro ⟨b, hb, hstuck⟩
    by_contra hfew
    exact not_stuck_of_reaches hcap (by omega) hb hstuck
  · rintro ⟨hp, hq, hmany⟩
    obtain ⟨a, rfl⟩ := Nat.exists_eq_add_of_le' hp
    have hfills : Reaches ⟨0 + capacity, 0, ⟨a + 1, 0⟩, ⟨q, 0⟩⟩ _ := reaches_wakesNobody capacity
    have hparks : Reaches ⟨0, capacity, ⟨a + 1, 0⟩, ⟨q, 0⟩⟩ _ := reaches_parks _
    rw [Nat.zero_add] at hfills
    rw [Nat.zero_add] at hparks
    obtain ⟨b, hb, hstuck⟩ := exists_stuck_of_turns (p := q) (q := a + 1) (x := 0) hcap
      (Nat.succ_pos a) (by omega) hq
    exact ⟨b.swap, (hfills.trans hparks).trans hb.swap, hstuck.swap⟩

end Runs

end SharedWait
