import Mathlib.Data.List.Basic

/-!
# Runs of a partial machine

A machine is a partial step `step : σ → α → Option σ`: `none` means that the
action is not possible in that state. A run takes its actions one after the
other. `Throughout step P s as` says that `P` holds in every state met on the
run of `as` from `s`, and `Along step C s as` that every action taken on that
run meets the condition `C` in the state it is taken in. `Attempts step C s as` asks
this also of an action that is not possible there, and the run ends with it.

The last section compares the two: when an invariant is kept exactly by the
actions that meet `C`, a property holds throughout a run exactly when `C` holds
along it.
-/

namespace Machine

variable {σ α : Type*} (step : σ → α → Option σ)

/-- The state after the actions, taken one after the other. -/
def run : σ → List α → Option σ
  | s, [] => some s
  | s, a :: as => (step s a).bind fun t => run t as

@[simp] theorem run_nil (s : σ) : run step s [] = some s := rfl

theorem run_cons (s : σ) (a : α) (as : List α) :
    run step s (a :: as) = (step s a).bind fun t => run step t as := rfl

theorem run_cons_eq_some {s u : σ} {a : α} {as : List α} :
    run step s (a :: as) = some u ↔ ∃ t, step s a = some t ∧ run step t as = some u := by
  rw [run_cons, Option.bind_eq_some_iff]

theorem run_singleton (s : σ) (a : α) : run step s [a] = step s a := by
  rw [run_cons]
  cases step s a <;> rfl

theorem run_append (s : σ) (as bs : List α) :
    run step s (as ++ bs) = (run step s as).bind fun t => run step t bs := by
  induction as generalizing s with
  | nil => rfl
  | cons a as ih =>
      rw [List.cons_append, run_cons, run_cons, Option.bind_assoc]
      exact congrArg _ (funext fun t => ih t)

theorem run_append_eq_some {s u : σ} {as bs : List α} :
    run step s (as ++ bs) = some u ↔
      ∃ t, run step s as = some t ∧ run step t bs = some u := by
  rw [run_append, Option.bind_eq_some_iff]

theorem run_flatMap {β : Type*} {step' : σ → β → Option σ} {actions : α → List β}
    (h : ∀ s a, step s a = run step' s (actions a)) (s : σ) (as : List α) :
    run step s as = run step' s (as.flatMap actions) := by
  induction as generalizing s with
  | nil => rfl
  | cons a as ih =>
      rw [run_cons, h, List.flatMap_cons, run_append]
      exact congrArg _ (funext fun t => ih t)

theorem run_invariant_of_mem {I : σ → Prop} {as : List α}
    (hstep : ∀ s, ∀ a ∈ as, ∀ t, I s → step s a = some t → I t) {s t : σ} (hs : I s)
    (hrun : run step s as = some t) : I t := by
  induction as generalizing s with
  | nil =>
      cases hrun
      exact hs
  | cons a as ih =>
      obtain ⟨u, hu, hrest⟩ := (run_cons_eq_some step).mp hrun
      have hu' := hstep s a List.mem_cons_self u hs hu
      exact ih (fun s b hb => hstep s b (List.mem_cons_of_mem a hb)) hu' hrest

theorem run_invariant {I : σ → Prop}
    (hstep : ∀ s a t, I s → step s a = some t → I t) {s t : σ} (as : List α) (hs : I s)
    (hrun : run step s as = some t) : I t :=
  run_invariant_of_mem step (fun s a _ => hstep s a) hs hrun

/-- What each step adds to what a state records, a run adds one after the other. -/
theorem run_records {β : Type*} {R : σ → List β → Prop} {added : α → List β}
    (hstep : ∀ s a t bs, R s bs → step s a = some t → R t (bs ++ added a)) {s t : σ}
    {bs : List β} (as : List α) (hs : R s bs) (hrun : run step s as = some t) :
    R t (bs ++ as.flatMap added) := by
  induction as generalizing s bs with
  | nil =>
      cases hrun
      rw [List.flatMap_nil, List.append_nil]
      exact hs
  | cons a as ih =>
      obtain ⟨u, hu, hrest⟩ := (run_cons_eq_some step).mp hrun
      rw [List.flatMap_cons, ← List.append_assoc]
      exact ih (hstep s a u bs hs hu) hrest

/-- When every state that is not yet final has a step that lowers the measure, a final state can
be reached, by such steps. -/
theorem exists_run_of_lowers {I F : σ → Prop} {A : α → Prop} (μ : σ → ℕ)
    (hstep : ∀ s, I s → ¬ F s → ∃ a t, A a ∧ step s a = some t ∧ I t ∧ μ t < μ s) {s : σ}
    (hs : I s) : ∃ as t, (∀ a ∈ as, A a) ∧ run step s as = some t ∧ I t ∧ F t := by
  induction hμ : μ s using Nat.strongRecOn generalizing s with
  | _ n ih =>
      by_cases hfinal : F s
      · exact ⟨[], s, fun a ha => absurd ha List.not_mem_nil, rfl, hs, hfinal⟩
      · obtain ⟨a, t, ha, ht, hI, hless⟩ := hstep s hs hfinal
        obtain ⟨as, u, has, hrun, hu, hend⟩ := ih (μ t) (hμ ▸ hless) hI rfl
        refine ⟨a :: as, u, ?_, (run_cons_eq_some step).mpr ⟨t, ht, hrun⟩, hu, hend⟩
        intro b hb
        rcases List.mem_cons.mp hb with rfl | hb
        · exact ha
        · exact has b hb

/-- `P` holds in every state met on the run of the actions. -/
def Throughout (P : σ → Prop) : σ → List α → Prop
  | s, [] => P s
  | s, a :: as => P s ∧ ∀ t, step s a = some t → Throughout P t as

/-- Every action taken on the run meets `C` in the state it is taken in. -/
def Along (C : σ → α → Prop) : σ → List α → Prop
  | _, [] => True
  | s, a :: as => ∀ t, step s a = some t → C s a ∧ Along C t as

/-- Every action attempted on the run meets `C` in the state it is attempted in. -/
def Attempts (C : σ → α → Prop) : σ → List α → Prop
  | _, [] => True
  | s, a :: as => C s a ∧ ∀ t, step s a = some t → Attempts C t as

variable {step}

theorem Throughout.head {P : σ → Prop} {s : σ} {as : List α}
    (h : Throughout step P s as) : P s := by
  cases as with
  | nil => exact h
  | cons a as => exact h.1

/-- `Throughout` says that `P` holds after every initial part of the run. -/
theorem throughout_iff_initial {P : σ → Prop} {s : σ} {as : List α} :
    Throughout step P s as ↔
      ∀ pre t, pre <+: as → run step s pre = some t → P t := by
  induction as generalizing s with
  | nil =>
      constructor
      · intro h pre t hpre hrun
        rw [List.prefix_nil.mp hpre] at hrun
        cases hrun
        exact h
      · intro h
        exact h [] s List.prefix_rfl rfl
  | cons a as ih =>
      constructor
      · intro h pre t hpre hrun
        cases pre with
        | nil =>
            cases hrun
            exact h.1
        | cons b pre =>
            obtain ⟨rfl, htail⟩ := List.cons_prefix_cons.mp hpre
            obtain ⟨u, hu, hrest⟩ := (run_cons_eq_some step).mp hrun
            exact (ih.mp (h.2 u hu)) pre t htail hrest
      · intro h
        refine ⟨h [] s List.nil_prefix rfl, fun u hu => ih.mpr ?_⟩
        intro pre t hpre hrun
        exact h (a :: pre) t (List.cons_prefix_cons.mpr ⟨rfl, hpre⟩)
          ((run_cons_eq_some step).mpr ⟨u, hu, hrun⟩)

/-- The run of the actions is possible to its end, and `P` holds throughout. -/
def Completes (step : σ → α → Option σ) (P : σ → Prop) (s : σ) (as : List α) : Prop :=
  (∃ t, run step s as = some t) ∧ Throughout step P s as

theorem Completes.head {P : σ → Prop} {s : σ} {as : List α} (h : Completes step P s as) : P s :=
  h.2.head

theorem attempts_of_forall {C : σ → α → Prop} (h : ∀ s a, C s a) (s : σ) (as : List α) :
    Attempts step C s as := by
  induction as generalizing s with
  | nil => exact trivial
  | cons a as ih => exact ⟨h s a, fun t _ => ih t⟩

theorem not_attempts_append {C : σ → α → Prop} {s t : σ} {as : List α} {a : α}
    (hrun : run step s as = some t) (ha : ¬ C t a) : ¬ Attempts step C s (as ++ [a]) := by
  induction as generalizing s with
  | nil =>
      cases hrun
      exact fun h => ha h.1
  | cons b as ih =>
      obtain ⟨u, hu, hrest⟩ := (run_cons_eq_some step).mp hrun
      exact fun h => ih hrest (h.2 u hu)

/-- A property of the states, and one of the attempts, as one of the attempts. -/
theorem throughout_and_attempts_iff {P : σ → Prop} {D : σ → α → Prop} {s : σ} {as : List α} :
    Throughout step P s as ∧ Attempts step D s as ↔
      P s ∧ Attempts step (fun s a => D s a ∧ ∀ t, step s a = some t → P t) s as := by
  induction as generalizing s with
  | nil => exact Iff.rfl
  | cons a as ih =>
      constructor
      · rintro ⟨⟨hs, hrest⟩, ha, hattempts⟩
        exact ⟨hs, ⟨ha, fun t ht => (hrest t ht).head⟩,
          fun t ht => (ih.mp ⟨hrest t ht, hattempts t ht⟩).2⟩
      · rintro ⟨hs, ⟨ha, hnext⟩, hrest⟩
        exact ⟨⟨hs, fun t ht => (ih.mpr ⟨hnext t ht, hrest t ht⟩).1⟩, ha,
          fun t ht => (ih.mpr ⟨hnext t ht, hrest t ht⟩).2⟩

theorem along_of_forall {C : σ → α → Prop} (h : ∀ s a, C s a) (s : σ) (as : List α) :
    Along step C s as := by
  induction as generalizing s with
  | nil => exact trivial
  | cons a as ih => exact fun t _ => ⟨h s a, ih t⟩

theorem along_and {C D : σ → α → Prop} {s : σ} {as : List α} :
    Along step (fun s a => C s a ∧ D s a) s as ↔ Along step C s as ∧ Along step D s as := by
  induction as generalizing s with
  | nil => exact (and_self_iff (a := True)).symm
  | cons a as ih =>
      constructor
      · intro h
        exact ⟨fun t ht => ⟨(h t ht).1.1, (ih.mp (h t ht).2).1⟩,
          fun t ht => ⟨(h t ht).1.2, (ih.mp (h t ht).2).2⟩⟩
      · rintro ⟨hC, hD⟩ t ht
        exact ⟨⟨(hC t ht).1, (hD t ht).1⟩, ih.mpr ⟨(hC t ht).2, (hD t ht).2⟩⟩

theorem along_cons_of_eq_some {C : σ → α → Prop} {s t : σ} {a : α} {as : List α}
    (h : step s a = some t) : Along step C s (a :: as) ↔ C s a ∧ Along step C t as := by
  constructor
  · exact fun halong => halong t h
  · intro hboth u hu
    exact Option.some.inj (h.symm.trans hu) ▸ hboth

theorem along_cons_of_eq_none {C : σ → α → Prop} {s : σ} {a : α} {as : List α}
    (h : step s a = none) : Along step C s (a :: as) := by
  intro t ht
  rw [h] at ht
  cases ht

/-- A condition on the actions alone, along a run that is possible to its end. -/
theorem along_const_iff {C : α → Prop} {s t : σ} {as : List α} (hrun : run step s as = some t) :
    Along step (fun _ a => C a) s as ↔ ∀ a ∈ as, C a := by
  induction as generalizing s with
  | nil => exact iff_of_true trivial fun a ha => absurd ha List.not_mem_nil
  | cons a as ih =>
      obtain ⟨u, hu, hrest⟩ := (run_cons_eq_some step).mp hrun
      rw [along_cons_of_eq_some hu, ih hrest, List.forall_mem_cons]

instance Along.decidable {C : σ → α → Prop} [∀ s a, Decidable (C s a)] :
    ∀ (s : σ) (as : List α), Decidable (Along step C s as)
  | _, [] => isTrue trivial
  | s, a :: as =>
      match h : step s a with
      | none => isTrue (along_cons_of_eq_none h)
      | some t =>
          have : Decidable (Along step C t as) := Along.decidable t as
          decidable_of_iff (C s a ∧ Along step C t as) (along_cons_of_eq_some h).symm

/-- A run whose steps meet `C` is no longer than a measure that these steps lower. -/
theorem length_add_le_of_along {I : σ → Prop} {C : σ → α → Prop} (μ : σ → ℕ)
    (hstep : ∀ s a t, I s → C s a → step s a = some t → I t ∧ μ t < μ s) {s t : σ} {as : List α}
    (hs : I s) (h : Along step C s as) (hrun : run step s as = some t) :
    I t ∧ as.length + μ t ≤ μ s := by
  induction as generalizing s with
  | nil =>
      cases hrun
      exact ⟨hs, Nat.le_of_eq (Nat.zero_add _)⟩
  | cons a as ih =>
      obtain ⟨u, hu, hrest⟩ := (run_cons_eq_some step).mp hrun
      obtain ⟨hC, halong⟩ := h u hu
      obtain ⟨hI, hless⟩ := hstep s a u hs hC hu
      obtain ⟨ht, hle⟩ := ih hI halong hrest
      refine ⟨ht, ?_⟩
      rw [List.length_cons]
      omega

section Exact

variable {I P : σ → Prop} {C : σ → α → Prop} {as : List α}

/-- Actions that meet `C` keep the invariant, hence the property it implies. -/
theorem throughout_of_along (hP : ∀ s, I s → P s)
    (hkeep : ∀ s t, ∀ a ∈ as, I s → C s a → step s a = some t → I t) {s : σ}
    (hs : I s) (h : Along step C s as) : Throughout step P s as := by
  induction as generalizing s with
  | nil => exact hP s hs
  | cons a as ih =>
      refine ⟨hP s hs, fun t ht => ?_⟩
      obtain ⟨hC, hrest⟩ := h t ht
      exact ih (fun u v b hb => hkeep u v b (List.mem_cons_of_mem a hb))
        (hkeep s t a List.mem_cons_self hs hC ht) hrest

theorem throughout_of_step (hP : ∀ s, I s → P s)
    (hkeep : ∀ s t, ∀ a ∈ as, I s → step s a = some t → I t) {s : σ} (hs : I s) :
    Throughout step P s as := by
  induction as generalizing s with
  | nil => exact hP s hs
  | cons a as ih =>
      refine ⟨hP s hs, fun t ht => ih ?_ (hkeep s t a List.mem_cons_self hs ht)⟩
      exact fun u v b hb => hkeep u v b (List.mem_cons_of_mem a hb)

/-- When an action that misses `C` breaks the property at once, the property
holds throughout a run exactly when `C` holds along it. This is asked of the actions
that meet `L` only, for runs whose actions all do. -/
theorem throughout_iff_along_of_along {L : σ → α → Prop} (hP : ∀ s, I s → P s)
    (hkeep : ∀ s t, ∀ a ∈ as, I s → L s a → C s a → step s a = some t → I t)
    (hbreak : ∀ s t, ∀ a ∈ as, I s → L s a → ¬ C s a → step s a = some t → ¬ P t) {s : σ}
    (hs : I s) (hL : Along step L s as) : Throughout step P s as ↔ Along step C s as := by
  induction as generalizing s with
  | nil => exact iff_of_true (hP s hs) trivial
  | cons a as ih =>
      have hrest : ∀ t, step s a = some t → I t → (Throughout step P t as ↔ Along step C t as) :=
        fun t ht hI => ih (fun u v b hb => hkeep u v b (List.mem_cons_of_mem a hb))
          (fun u v b hb => hbreak u v b (List.mem_cons_of_mem a hb)) hI (hL t ht).2
      constructor
      · intro h t ht
        have hC : C s a := by
          by_contra hC
          exact hbreak s t a List.mem_cons_self hs (hL t ht).1 hC ht (h.2 t ht).head
        have hI : I t := hkeep s t a List.mem_cons_self hs (hL t ht).1 hC ht
        exact ⟨hC, (hrest t ht hI).mp (h.2 t ht)⟩
      · intro h
        refine ⟨hP s hs, fun t ht => ?_⟩
        have hI : I t := hkeep s t a List.mem_cons_self hs (hL t ht).1 (h t ht).1 ht
        exact (hrest t ht hI).mpr (h t ht).2

theorem throughout_iff_along (hP : ∀ s, I s → P s)
    (hkeep : ∀ s t, ∀ a ∈ as, I s → C s a → step s a = some t → I t)
    (hbreak : ∀ s t, ∀ a ∈ as, I s → ¬ C s a → step s a = some t → ¬ P t) {s : σ}
    (hs : I s) : Throughout step P s as ↔ Along step C s as :=
  throughout_iff_along_of_along hP (fun s t a ha hI _ => hkeep s t a ha hI)
    (fun s t a ha hI _ => hbreak s t a ha hI) hs (along_of_forall (fun _ _ => trivial) s as)

/-- The same comparison for a property `Q` of single steps: when `C` decides
`Q` at each step from a state of the invariant, `Q` holds along a run exactly
when `C` does. -/
theorem along_iff_along {Q : σ → α → Prop}
    (hkeep : ∀ s t, ∀ a ∈ as, I s → C s a → step s a = some t → I t)
    (hQ : ∀ s t, ∀ a ∈ as, I s → step s a = some t → (Q s a ↔ C s a)) {s : σ}
    (hs : I s) : Along step Q s as ↔ Along step C s as := by
  induction as generalizing s with
  | nil => exact Iff.rfl
  | cons a as ih =>
      refine forall_congr' fun t => forall_congr' fun ht => ?_
      rw [hQ s t a List.mem_cons_self hs ht]
      refine and_congr_right fun hC => ih ?_ ?_ (hkeep s t a List.mem_cons_self hs hC ht)
      · exact fun u v b hb => hkeep u v b (List.mem_cons_of_mem a hb)
      · exact fun u v b hb => hQ u v b (List.mem_cons_of_mem a hb)

/-- When every attempt that meets `C` has the property `Q` and keeps the invariant, `Q`
holds of the attempts when `C` does. -/
theorem attempts_of_attempts {Q : σ → α → Prop}
    (hkeep : ∀ s a t, I s → C s a → step s a = some t → I t)
    (hQ : ∀ s a, I s → C s a → Q s a) {s : σ} (hs : I s) (h : Attempts step C s as) :
    Attempts step Q s as := by
  induction as generalizing s with
  | nil => exact trivial
  | cons a as ih =>
      exact ⟨hQ s a hs h.1, fun t ht => ih (hkeep s a t hs h.1 ht) (h.2 t ht)⟩

/-- When `C` decides `Q` in the states of the invariant, they hold of the attempts of the
same runs. -/
theorem attempts_iff_attempts {Q : σ → α → Prop}
    (hkeep : ∀ s a t, I s → C s a → step s a = some t → I t)
    (hQ : ∀ s a, I s → (Q s a ↔ C s a)) {s : σ} (hs : I s) :
    Attempts step Q s as ↔ Attempts step C s as := by
  induction as generalizing s with
  | nil => exact Iff.rfl
  | cons a as ih =>
      rw [Attempts, Attempts, hQ s a hs]
      refine and_congr_right fun hC => forall_congr' fun t => forall_congr' fun ht => ?_
      exact ih (hkeep s a t hs hC ht)

/-- When an action that misses `C` leads to a state that is bad from then on, a run
that ends in a state that is not bad meets `C` all along. -/
theorem along_of_run {B : σ → Prop}
    (hkeep : ∀ s a t, I s → C s a → step s a = some t → I t)
    (hbreak : ∀ s a t, I s → ¬ C s a → step s a = some t → B t)
    (hbad : ∀ s a t, B s → step s a = some t → B t) {s t : σ} (hs : I s)
    (hrun : run step s as = some t) (ht : ¬ B t) : Along step C s as := by
  induction as generalizing s with
  | nil => exact trivial
  | cons a as ih =>
      obtain ⟨u, hu, hrest⟩ := (run_cons_eq_some step).mp hrun
      intro u' hu'
      obtain rfl : u = u' := Option.some.inj (hu.symm.trans hu')
      have hC : C s a := by
        by_contra hC
        exact ht (run_invariant step hbad as (hbreak s a u hs hC hu) hrest)
      exact ⟨hC, ih (hkeep s a u hs hC hu) hrest⟩

end Exact

end Machine
