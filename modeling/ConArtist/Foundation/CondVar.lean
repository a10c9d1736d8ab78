import Mathlib.Algebra.BigOperators.Group.List.Basic
import Mathlib.Algebra.Group.Defs

/-!
# Condition variables

Threads are a list of thread states. A condition variable is given by `waiting`:
`waiting t = some t'` says that `t` is the state of a thread parked on it, and
that waking the thread takes it to `t'`.

The lemmas say what waking does and what it does not touch, and how a sum over the
threads, or the number of those of a kind, changes when one of them takes a step.
-/

namespace CondVar

variable {τ β : Type*}

/-- Wake one parked thread, the one named by `wake`. With no thread parked the
signal is lost. -/
def signal (waiting : τ → Option τ) (threads : List τ) (wake : ℕ) : Option (List τ) :=
  if threads.any fun t => (waiting t).isSome then
    threads[wake]?.bind fun t => (waiting t).map fun t' => threads.set wake t'
  else some threads

/-- Wake all parked threads. -/
def broadcast (waiting : τ → Option τ) (threads : List τ) : List τ :=
  threads.map fun t => (waiting t).getD t

variable {waiting : τ → Option τ} {threads : List τ} {f : τ → β}

theorem map_set_of_eq {i : ℕ} {t t' : τ} (h : threads[i]? = some t) (hf : f t' = f t) :
    (threads.set i t').map f = threads.map f := by
  obtain ⟨hi, rfl⟩ := List.getElem?_eq_some_iff.mp h
  have hi' : i < (threads.map f).length := by rwa [List.length_map]
  have hkeep : f t' = (threads.map f)[i] := by rw [List.getElem_map, hf]
  rw [List.map_set, hkeep, List.set_getElem_self]

/-- A signal wakes the thread it names, unless none is parked. -/
theorem signal_cases {wake : ℕ} {threads' : List τ}
    (h : signal waiting threads wake = some threads') :
    (threads' = threads ∧ ∀ t ∈ threads, waiting t = none) ∨
      ∃ t t', threads[wake]? = some t ∧ waiting t = some t' ∧ threads' = threads.set wake t' := by
  rw [signal] at h
  split at h
  case isTrue =>
    obtain ⟨t, ht, hwake⟩ := Option.bind_eq_some_iff.mp h
    obtain ⟨t', ht', rfl⟩ := Option.map_eq_some_iff.mp hwake
    exact Or.inr ⟨t, t', ht, ht', rfl⟩
  case isFalse hnone =>
    cases h
    refine Or.inl ⟨rfl, fun t ht => ?_⟩
    rw [List.any_eq_true] at hnone
    by_contra hsome
    exact hnone ⟨t, ht, Option.isSome_iff_ne_none.mpr hsome⟩

theorem map_signal (hf : ∀ t t', waiting t = some t' → f t' = f t) {wake : ℕ}
    {threads' : List τ} (h : signal waiting threads wake = some threads') :
    threads'.map f = threads.map f := by
  rcases signal_cases h with ⟨rfl, -⟩ | ⟨t, t', ht, hwait, rfl⟩
  · rfl
  · exact map_set_of_eq ht (hf t t' hwait)

theorem map_broadcast (hf : ∀ t t', waiting t = some t' → f t' = f t) :
    (broadcast waiting threads).map f = threads.map f := by
  rw [broadcast, List.map_map]
  refine List.map_congr_left fun t _ => ?_
  rw [Function.comp_apply]
  rcases hwait : waiting t with _ | t'
  · rfl
  · exact hf t t' hwait

theorem length_signal {wake : ℕ} {threads' : List τ}
    (h : signal waiting threads wake = some threads') : threads'.length = threads.length := by
  rcases signal_cases h with ⟨rfl, -⟩ | ⟨t, t', -, -, rfl⟩
  · rfl
  · exact List.length_set

theorem length_broadcast : (broadcast waiting threads).length = threads.length :=
  List.length_map _

theorem mem_signal {wake : ℕ} {threads' : List τ}
    (h : signal waiting threads wake = some threads') {u : τ} (hu : u ∈ threads') :
    u ∈ threads ∨ ∃ t ∈ threads, waiting t = some u := by
  rcases signal_cases h with ⟨rfl, -⟩ | ⟨t, t', ht, hwait, rfl⟩
  · exact Or.inl hu
  · rcases List.mem_or_eq_of_mem_set hu with hu | rfl
    · exact Or.inl hu
    · exact Or.inr ⟨t, List.mem_of_getElem? ht, hwait⟩

theorem signal_of_none (h : ∀ t ∈ threads, waiting t = none) (wake : ℕ) :
    signal waiting threads wake = some threads := by
  rw [signal, if_neg]
  rintro hany
  obtain ⟨t, ht, hsome⟩ := List.any_eq_true.mp hany
  rw [h t ht] at hsome
  cases hsome

theorem signal_of_some {wake : ℕ} {t t' : τ} (ht : threads[wake]? = some t)
    (hwait : waiting t = some t') :
    signal waiting threads wake = some (threads.set wake t') := by
  have hany : threads.any fun t => (waiting t).isSome :=
    List.any_eq_true.mpr ⟨t, List.mem_of_getElem? ht, by rw [hwait, Option.isSome_some]⟩
  rw [signal, if_pos hany, ht, Option.bind_some, hwait, Option.map_some]

theorem exists_signal (waiting : τ → Option τ) (threads : List τ) :
    ∃ wake threads', signal waiting threads wake = some threads' := by
  by_cases hany : threads.any fun t => (waiting t).isSome
  · obtain ⟨t, ht, hsome⟩ := List.any_eq_true.mp hany
    obtain ⟨wake, hwake⟩ := List.mem_iff_getElem?.mp ht
    obtain ⟨t', ht'⟩ := Option.isSome_iff_exists.mp hsome
    refine ⟨wake, threads.set wake t', ?_⟩
    rw [signal, if_pos hany, hwake, Option.bind_some, ht', Option.map_some]
  · exact ⟨0, threads, if_neg hany⟩

/-- After a broadcast a thread is one that was parked and woken, or as it was. -/
theorem mem_broadcast {u : τ} (h : u ∈ broadcast waiting threads) :
    ∃ t ∈ threads, waiting t = some u ∨ (waiting t = none ∧ u = t) := by
  obtain ⟨t, ht, rfl⟩ := List.mem_map.mp h
  refine ⟨t, ht, ?_⟩
  rcases hwait : waiting t with _ | t'
  · exact Or.inr ⟨rfl, rfl⟩
  · exact Or.inl rfl

theorem getElem?_set_cases {i j : ℕ} {t u : τ} (h : (threads.set i t)[j]? = some u) :
    (i = j ∧ u = t) ∨ (i ≠ j ∧ threads[j]? = some u) := by
  rw [List.getElem?_set] at h
  split at h
  case isTrue hij =>
    split at h
    · exact Or.inl ⟨hij, (Option.some.inj h).symm⟩
    · cases h
  case isFalse hij => exact Or.inr ⟨hij, h⟩

section Number

variable {p : τ → Bool} {i : ℕ} {t : τ}

theorem countP_set_add (h : threads[i]? = some t) (t' : τ) :
    (threads.set i t').countP p + (if p t then 1 else 0) =
      threads.countP p + if p t' then 1 else 0 := by
  induction threads generalizing i with
  | nil => cases h
  | cons u threads ih =>
      cases i with
      | zero =>
          cases h
          rw [List.set_cons_zero, List.countP_cons, List.countP_cons, Nat.add_right_comm]
      | succ i =>
          rw [List.set_cons_succ, List.countP_cons, List.countP_cons, Nat.add_right_comm, ih h,
            Nat.add_right_comm]

theorem countP_set_of_eq (h : threads[i]? = some t) {t' : τ} (hp : p t' = p t) :
    (threads.set i t').countP p = threads.countP p := by
  have hadd := countP_set_add (p := p) h t'
  rw [hp] at hadd
  exact Nat.add_right_cancel hadd

theorem countP_set_gain (h : threads[i]? = some t) (t' : τ) (hp : p t = false)
    (hp' : p t' = true) : (threads.set i t').countP p = threads.countP p + 1 := by
  have hadd := countP_set_add (p := p) h t'
  rwa [hp, hp', if_neg Bool.false_ne_true, if_pos rfl, Nat.add_zero] at hadd

theorem countP_set_loss (h : threads[i]? = some t) (t' : τ) (hp : p t = true)
    (hp' : p t' = false) : (threads.set i t').countP p + 1 = threads.countP p := by
  have hadd := countP_set_add (p := p) h t'
  rwa [hp, hp', if_neg Bool.false_ne_true, if_pos rfl, Nat.add_zero] at hadd

/-- What waking does not change in one thread, a signal changes in no count. -/
theorem countP_signal (hp : ∀ t t', waiting t = some t' → p t' = p t) {wake : ℕ}
    {threads' : List τ} (h : signal waiting threads wake = some threads') :
    threads'.countP p = threads.countP p := by
  rcases signal_cases h with ⟨rfl, -⟩ | ⟨t, t', ht, hwait, rfl⟩
  · rfl
  · exact countP_set_of_eq ht (hp t t' hwait)

theorem countP_broadcast (hp : ∀ t t', waiting t = some t' → p t' = p t) :
    (broadcast waiting threads).countP p = threads.countP p := by
  rw [broadcast, List.countP_map]
  refine List.countP_congr fun t _ => ?_
  rw [Function.comp_apply]
  rcases hwait : waiting t with _ | t'
  · exact Iff.rfl
  · rw [Option.getD_some, hp t t' hwait]

end Number

theorem sum_map_set {M : Type*} [AddCommMonoid M] {g : τ → M} {i : ℕ} {t : τ}
    (h : threads[i]? = some t) (t' : τ) :
    ((threads.set i t').map g).sum + g t = (threads.map g).sum + g t' := by
  induction threads generalizing i with
  | nil => cases h
  | cons u threads ih =>
      cases i with
      | zero =>
          cases h
          rw [List.set_cons_zero, List.map_cons, List.sum_cons, List.map_cons, List.sum_cons,
            add_comm (g t'), add_comm (g t), add_right_comm]
      | succ i =>
          rw [List.set_cons_succ, List.map_cons, List.sum_cons, List.map_cons, List.sum_cons,
            add_assoc, ih h, add_assoc]

section Cancel

variable {M : Type*} [AddCommMonoid M] [IsCancelAdd M] {g : τ → M} {i : ℕ} {t t' : τ} {d : M}

theorem sum_map_set_gain (h : threads[i]? = some t) (hgain : g t' = g t + d) :
    ((threads.set i t').map g).sum = (threads.map g).sum + d := by
  have hsum := sum_map_set (g := g) h t'
  rw [hgain, ← add_assoc, add_right_comm] at hsum
  exact add_right_cancel hsum

theorem sum_map_set_loss (h : threads[i]? = some t) (hloss : g t = g t' + d) :
    ((threads.set i t').map g).sum + d = (threads.map g).sum := by
  have hsum := sum_map_set (g := g) h t'
  rw [hloss, ← add_assoc, add_right_comm] at hsum
  exact add_right_cancel hsum

end Cancel

end CondVar
