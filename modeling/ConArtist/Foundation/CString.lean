import Mathlib.Data.List.Basic

/-!
# Searching a C string from its end

A C string is the list of its characters, without the closing zero. `strrchr` gives the rest of
the string from the last occurrence of a character on. So a name has an extension, dot and all,
exactly when it ends with it, provided that the extension has no other dot.
-/

namespace CString

variable {α : Type*} [DecidableEq α]

/-- `strrchr`: the rest of the string from the last `c` on. -/
def strrchr (c : α) : List α → Option (List α)
  | [] => none
  | b :: s => (strrchr c s).or (if b = c then some (b :: s) else none)

/-- The extension of a name is `ext`. -/
def hasExtension (dot : α) (ext name : List α) : Bool := strrchr dot name = some ext

section Strrchr

variable {c : α} {s t : List α}

theorem strrchr_eq_none_iff : strrchr c s = none ↔ c ∉ s := by
  induction s with
  | nil => simp [strrchr]
  | cons b s ih =>
      rw [strrchr, Option.or_eq_none_iff, ih, List.mem_cons, not_or, and_comm, eq_comm (a := c)]
      split <;> simp [*]

/-- What is found ends the string, begins with the character and has it nowhere else. -/
theorem strrchr_eq_some_iff : strrchr c s = some t ↔ t <:+ s ∧ ∃ u, t = c :: u ∧ c ∉ u := by
  induction s with
  | nil =>
      rw [strrchr]
      refine iff_of_false (Option.some_ne_none t).symm ?_
      rintro ⟨hsuffix, u, rfl, -⟩
      cases List.suffix_nil.mp hsuffix
  | cons b s ih =>
      rw [strrchr, List.suffix_cons_iff]
      cases hfound : strrchr c s with
      | some r =>
          rw [hfound] at ih
          rw [Option.some_or, ih]
          refine and_congr_left fun ⟨u, ht, hu⟩ => ?_
          refine ⟨Or.inr, ?_⟩
          rintro (rfl | hsuffix)
          · -- the string would have the character behind its first
            cases ht
            exact absurd hu (mt strrchr_eq_none_iff.mpr (hfound ▸ Option.some_ne_none r))
          · exact hsuffix
      | none =>
          have hmem : c ∉ s := strrchr_eq_none_iff.mp hfound
          rw [Option.none_or]
          constructor
          · intro h
            split at h
            case isTrue hb =>
                cases h
                exact ⟨Or.inl rfl, s, by rw [hb], hmem⟩
            case isFalse => cases h
          · rintro ⟨hsuffix, u, rfl, -⟩
            rcases hsuffix with heq | hsuffix
            · obtain ⟨rfl, rfl⟩ := List.cons.inj heq
              exact if_pos rfl
            · exact absurd (hsuffix.subset List.mem_cons_self) hmem

theorem hasExtension_iff {ext name : List α} (h : c ∉ ext) :
    hasExtension c (c :: ext) name = true ↔ (c :: ext) <:+ name := by
  rw [hasExtension, decide_eq_true_iff, strrchr_eq_some_iff]
  exact and_iff_left ⟨ext, rfl, h⟩

end Strrchr

end CString
