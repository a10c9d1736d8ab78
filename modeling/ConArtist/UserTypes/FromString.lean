import Mathlib.Algebra.Group.Int.Defs
import Mathlib.Algebra.Group.Nat.Defs
import ConArtist.UserTypes.Table

/-!
# The user type of a key

`from_string` searches the table of key strings, which is sorted, from 0 to `ID_COUNT - 1`. The
table is shorter than that. The string is compared up to its own length, and where a key begins
with the string, the search goes on behind that key.

The first middle is in the table, and its key is `switch2`. A string that is below that key stays
in the table from there on, and every other string leads to an entry that is not there. Below it
all keys are found, though `co` begins another key.
-/

namespace ConArtist

namespace UserTypes

/-- `strncmp`, of strings that end with a NUL. -/
def strncmp : List UInt8 → List UInt8 → ℕ → ℤ
  | _, _, 0 => 0
  | [], [], _ + 1 => 0
  | [], b :: _, _ + 1 => -b.toNat
  | a :: _, [], _ + 1 => a.toNat
  | a :: s, b :: t, n + 1 => if a = b then strncmp s t n else a.toNat - b.toNat

/-- A length as an `int`. -/
def toInt (n : ℕ) : ℤ := Int.bmod n 4294967296

/-- An `int` as a `size_t`. -/
def toSizeT (n : ℤ) : ℕ := (n % 18446744073709551616).toNat

/-- `xs[i]` for an index of type `int`. -/
def entry {α : Type*} (xs : List α) (i : ℤ) : Option α :=
  if 0 ≤ i then xs[i.toNat]? else none

/-- The loop of `from_string`. It has no result when it reads an entry that is not there. -/
def fromStringLoop (keyStr : List UInt8) (len left right : ℤ) : Option UserType :=
  if left ≤ right then
    let mid := left + (right - left) / 2
    match entry sUserTypeKeyStrings mid with
    | none => none
    | some key =>
        let cmp := strncmp keyStr key (toSizeT len)
        if cmp = 0 ∧ toInt key.length = len then entry sUserTypeTypes mid
        else if cmp < 0 then fromStringLoop keyStr len left (mid - 1)
        else fromStringLoop keyStr len (mid + 1) right
  else some .idUnknown
termination_by (right + 1 - left).toNat

/-- `from_string`, with the end of the string. Its bytes are not NUL. -/
def fromString (keyStr : List UInt8) : Option UserType :=
  fromStringLoop keyStr (toInt keyStr.length) 0 (idCount - 1)

/-- `from_string`, of what is in memory from `key_str` on. -/
def fromCString (memory : List UInt8) : Option UserType :=
  if 0 ∈ memory then fromString (memory.takeWhile (· ≠ 0)) else none

/-- The result is the type of the key that the string is, and `ID_UNKNOWN` if it is none. -/
structure Recognises (keyStr : List UInt8) (result : Option UserType) : Prop where
  key : ∀ i : ℕ, sUserTypeKeyStrings[i]? = some keyStr →
    ∃ type, sUserTypeTypes[i]? = some type ∧ result = some type
  unknown : keyStr ∉ sUserTypeKeyStrings → result = some .idUnknown

/-- Where the strings differ for the first time, the first one has the smaller byte. -/
def Below (s t : List UInt8) : Prop :=
  ∃ p a b s' t', s = p ++ a :: s' ∧ t = p ++ b :: t' ∧ a < b

/-- The bytes that are compared: the low 32 bits of the length count, as long as they are no
negative `int`. -/
def compared (keyStr : List UInt8) : List UInt8 :=
  if 0 ≤ toInt keyStr.length then keyStr.take (toInt keyStr.length).toNat else keyStr

/-- The key in the middle of the first round. -/
def firstKey : List UInt8 := bytesOf "switch2"

section Compare

variable {s t : List UInt8}

theorem not_below_self (s : List UInt8) : ¬ Below s s := by
  rintro ⟨p, a, b, s', t', rfl, h, hlt⟩
  obtain ⟨rfl, -⟩ := List.cons.inj (List.append_cancel_left h)
  exact UInt8.lt_irrefl a hlt

theorem below_cons_cons {a b : UInt8} : Below (a :: s) (b :: t) ↔ a < b ∨ a = b ∧ Below s t := by
  constructor
  · rintro ⟨p, x, y, s', t', hs, ht, hlt⟩
    cases p with
    | nil =>
        cases hs
        cases ht
        exact .inl hlt
    | cons c p =>
        cases hs
        cases ht
        exact .inr ⟨rfl, p, x, y, s', t', rfl, rfl, hlt⟩
  · rintro (hlt | ⟨rfl, p, x, y, s', t', rfl, rfl, hlt⟩)
    · exact ⟨[], a, b, s, t, rfl, rfl, hlt⟩
    · exact ⟨a :: p, x, y, s', t', rfl, rfl, hlt⟩

theorem not_below_nil_left : ¬ Below [] t := by
  rintro ⟨p, a, b, s', t', h, -⟩
  cases p <;> cases h

theorem not_below_nil_right : ¬ Below s [] := by
  rintro ⟨p, a, b, s', t', -, h, -⟩
  cases p <;> cases h

/-- The two strings differ before either of them, or the comparison, is at its end. -/
def Decided (s t : List UInt8) (n : ℕ) : Prop :=
  s.length = n ∨ t.length < s.length ∧ t.length < n

theorem Decided.eq_zero {n : ℕ} (h : Decided [] t n) : n = 0 := by
  rcases h with h | ⟨h, -⟩
  · exact h.symm
  · exact absurd h (Nat.not_lt_zero _)

theorem Decided.ne_zero {a : UInt8} {n : ℕ} (h : Decided (a :: s) t n) : n ≠ 0 := by
  rcases h with h | ⟨-, h⟩
  · exact h ▸ Nat.succ_ne_zero _
  · exact Nat.ne_zero_of_lt h

theorem decided_cons {a b : UInt8} {n : ℕ} :
    Decided (a :: s) (b :: t) (n + 1) ↔ Decided s t n := by
  simp [Decided]

/-- `strncmp` is negative exactly when the first string is below the second. -/
theorem strncmp_lt_iff {n : ℕ} (h : Decided s t n) : strncmp s t n < 0 ↔ Below s t := by
  induction s generalizing t n with
  | nil =>
      obtain rfl := h.eq_zero
      exact iff_of_false (by simp [strncmp]) not_below_nil_left
  | cons a s ih =>
      obtain ⟨n, rfl⟩ := Nat.exists_eq_succ_of_ne_zero h.ne_zero
      cases t with
      | nil => exact iff_of_false (by simp [strncmp]) not_below_nil_right
      | cons b t =>
          rw [strncmp, below_cons_cons]
          by_cases hab : a = b
          · rw [if_pos hab, ih (decided_cons.mp h)]
            simp [hab]
          · rw [if_neg hab, UInt8.lt_iff_toNat_lt]
            simp only [hab, false_and, or_false]
            omega

theorem strncmp_cons_eq_zero {a b : UInt8} {n : ℕ} :
    strncmp (a :: s) (b :: t) (n + 1) = 0 ↔ a = b ∧ strncmp s t n = 0 := by
  rw [strncmp]
  by_cases hab : a = b
  · simp [hab]
  · have hne : a.toNat ≠ b.toNat := fun heq => hab (UInt8.toNat_inj.mp heq)
    simp only [hab, if_false, false_and, iff_false]
    omega

/-- `strncmp` is zero exactly when the second string begins with the first. -/
theorem strncmp_eq_zero_iff (hs : 0 ∉ s) {n : ℕ} (h : Decided s t n) :
    strncmp s t n = 0 ↔ s <+: t := by
  induction s generalizing t n with
  | nil =>
      obtain rfl := h.eq_zero
      exact iff_of_true rfl List.nil_prefix
  | cons a s ih =>
      obtain ⟨n, rfl⟩ := Nat.exists_eq_succ_of_ne_zero h.ne_zero
      obtain ⟨ha, hs⟩ := not_or.mp (List.mem_cons.not.mp hs)
      cases t with
      | nil =>
          refine iff_of_false (fun hzero => ha ?_) (by simp)
          have htoNat : (a.toNat : ℤ) = 0 := hzero
          exact (UInt8.toNat_inj.mp (Int.natCast_eq_zero.mp htoNat)).symm
      | cons b t =>
          rw [strncmp_cons_eq_zero, List.cons_prefix_cons, ih hs (decided_cons.mp h)]

theorem strncmp_take (s t : List UInt8) (n : ℕ) : strncmp (s.take n) t n = strncmp s t n := by
  induction n generalizing s t with
  | zero => simp [strncmp]
  | succ n ih =>
      cases s with
      | nil => rfl
      | cons a s =>
          cases t with
          | nil => rfl
          | cons b t =>
              rw [List.take_succ_cons, strncmp, strncmp, ih]

theorem toInt_of_lt {n : ℕ} (hn : n < 2147483648) : toInt n = n := by
  apply Int.bmod_eq_of_le
  · omega
  · omega

theorem toInt_cases (n : ℕ) :
    0 ≤ toInt n ∧ (toInt n).toNat ≤ n ∧ toSizeT (toInt n) = (toInt n).toNat ∨
      toInt n < 0 ∧ 2147483648 ≤ n ∧ 2147483648 ≤ toSizeT (toInt n) := by
  have hdef := @Int.bmod_def n 4294967296
  unfold toSizeT toInt
  generalize Int.bmod n 4294967296 = len at hdef ⊢
  omega

variable {keyStr key : List UInt8}

theorem round_iff (hstr : 0 ∉ keyStr) (hkey : key.length < 2147483648) :
    (strncmp keyStr key (toSizeT (toInt keyStr.length)) < 0 ↔ Below (compared keyStr) key) ∧
      (strncmp keyStr key (toSizeT (toInt keyStr.length)) = 0 ∧
        toInt key.length = toInt keyStr.length ↔ compared keyStr = key) := by
  rw [toInt_of_lt hkey]
  rcases toInt_cases keyStr.length with ⟨hnonneg, hle, hsize⟩ | ⟨hneg, hlong, hsize⟩
  · have hlength : (keyStr.take (toInt keyStr.length).toNat).length =
        (toInt keyStr.length).toNat := by
      rw [List.length_take, Nat.min_eq_left hle]
    have hnotMem : 0 ∉ keyStr.take (toInt keyStr.length).toNat :=
      fun hmem => hstr (List.mem_of_mem_take hmem)
    rw [compared, if_pos hnonneg, hsize, ← strncmp_take, strncmp_lt_iff (.inl hlength),
      strncmp_eq_zero_iff hnotMem (.inl hlength)]
    refine ⟨.rfl, ?_⟩
    constructor
    · rintro ⟨hbegins, heq⟩
      exact hbegins.eq_of_length (by omega)
    · intro heq
      rw [heq] at hlength ⊢
      exact ⟨List.prefix_rfl, by omega⟩
  · have hdecided : Decided keyStr key (toSizeT (toInt keyStr.length)) :=
      .inr ⟨by omega, by omega⟩
    rw [compared, if_neg (Int.not_le.mpr hneg), strncmp_lt_iff hdecided]
    refine ⟨.rfl, iff_of_false (fun h => ?_) fun heq => ?_⟩
    · omega
    · subst heq
      omega

end Compare

/-- The keys are in order, but that `co` begins the key behind it. -/
theorem sUserTypeKeyStrings_pairwise : sUserTypeKeyStrings.Pairwise fun s t =>
    ¬ strncmp t s t.length < 0 ∧ (s = bytesOf "co" ∨ strncmp s t s.length < 0) := by
  decide +kernel

theorem not_below_of_lt {i j : ℕ} {s t : List UInt8} (hs : sUserTypeKeyStrings[i]? = some s)
    (ht : sUserTypeKeyStrings[j]? = some t) (hij : i < j) : ¬ Below t s := by
  obtain ⟨hi, rfl⟩ := List.getElem?_eq_some_iff.mp hs
  obtain ⟨hj, rfl⟩ := List.getElem?_eq_some_iff.mp ht
  rw [← strncmp_lt_iff (.inl rfl)]
  exact (List.pairwise_iff_getElem.mp sUserTypeKeyStrings_pairwise i j hi hj hij).1

theorem below_of_lt {i j : ℕ} {s t : List UInt8} (hs : sUserTypeKeyStrings[i]? = some s)
    (ht : sUserTypeKeyStrings[j]? = some t) (hij : i < j) (hco : s ≠ bytesOf "co") :
    Below s t := by
  obtain ⟨hi, rfl⟩ := List.getElem?_eq_some_iff.mp hs
  obtain ⟨hj, rfl⟩ := List.getElem?_eq_some_iff.mp ht
  rw [← strncmp_lt_iff (.inl rfl)]
  exact (List.pairwise_iff_getElem.mp sUserTypeKeyStrings_pairwise i j hi hj hij).2.resolve_left hco

theorem index_unique {i j : ℕ} {key : List UInt8} (hi : sUserTypeKeyStrings[i]? = some key)
    (hj : sUserTypeKeyStrings[j]? = some key) : i = j := by
  have hnodup : sUserTypeKeyStrings.Nodup := by decide +kernel
  exact (List.getElem?_inj (List.getElem?_eq_some_iff.mp hi).1 hnodup).mp (hi.trans hj.symm)

theorem length_lt_of_mem {key : List UInt8} (h : key ∈ sUserTypeKeyStrings) :
    key.length < 2147483648 := by
  have hall : ∀ k ∈ sUserTypeKeyStrings, k.length < 2147483648 := by decide +kernel
  exact hall key h

section Search

variable {keyStr key : List UInt8} {left right : ℤ}

theorem entry_natCast {α : Type*} (xs : List α) (i : ℕ) : entry xs i = xs[i]? := by
  simp [entry]

theorem mem_of_entry {i : ℤ} (h : entry sUserTypeKeyStrings i = some key) :
    key ∈ sUserTypeKeyStrings := by
  rw [entry] at h
  split at h
  · exact List.mem_of_getElem? h
  · cases h

/-- The search for `keyStr`. -/
def search (keyStr : List UInt8) (left right : ℤ) : Option UserType :=
  fromStringLoop keyStr (toInt keyStr.length) left right

theorem search_of_lt (hlt : right < left) : search keyStr left right = some .idUnknown := by
  rw [search, fromStringLoop, if_neg (Int.not_le.mpr hlt)]

theorem search_outside (hle : left ≤ right)
    (hmid : entry sUserTypeKeyStrings (left + (right - left) / 2) = none) :
    search keyStr left right = none := by
  rw [search, fromStringLoop, if_pos hle]
  simp only [hmid]

theorem search_found (hstr : 0 ∉ keyStr) (hle : left ≤ right)
    (hmid : entry sUserTypeKeyStrings (left + (right - left) / 2) = some (compared keyStr)) :
    search keyStr left right = entry sUserTypeTypes (left + (right - left) / 2) := by
  rw [search, fromStringLoop, if_pos hle]
  simp only [hmid]
  rw [if_pos ((round_iff hstr (length_lt_of_mem (mem_of_entry hmid))).2.mpr rfl)]

theorem search_lower (key : List UInt8) (hstr : 0 ∉ keyStr) (hle : left ≤ right)
    (hmid : entry sUserTypeKeyStrings (left + (right - left) / 2) = some key)
    (hbelow : Below (compared keyStr) key) :
    search keyStr left right = search keyStr left (left + (right - left) / 2 - 1) := by
  obtain ⟨hlt, heq⟩ := round_iff hstr (length_lt_of_mem (mem_of_entry hmid))
  rw [search, fromStringLoop, if_pos hle]
  simp only [hmid]
  rw [if_neg (heq.not.mpr fun h => not_below_self _ (h ▸ hbelow)), if_pos (hlt.mpr hbelow), search]

theorem search_upper (key : List UInt8) (hstr : 0 ∉ keyStr) (hle : left ≤ right)
    (hmid : entry sUserTypeKeyStrings (left + (right - left) / 2) = some key)
    (hnot : ¬ Below (compared keyStr) key) (hne : compared keyStr ≠ key) :
    search keyStr left right = search keyStr (left + (right - left) / 2 + 1) right := by
  obtain ⟨hlt, heq⟩ := round_iff hstr (length_lt_of_mem (mem_of_entry hmid))
  rw [search, fromStringLoop, if_pos hle]
  simp only [hmid]
  rw [if_neg (heq.not.mpr hne), if_neg (hlt.not.mpr hnot), search]

theorem exists_entry {left right : ℤ} (hleft : 0 ≤ left) (hle : left ≤ right)
    (hright : right < 51) : ∃ i : ℕ, ∃ key, left + (right - left) / 2 = i ∧
      sUserTypeKeyStrings[i]? = some key := by
  have hlength : sUserTypeKeyStrings.length = 51 := rfl
  obtain ⟨i, hi⟩ := Int.eq_ofNat_of_zero_le (show 0 ≤ left + (right - left) / 2 by omega)
  exact ⟨i, _, hi, List.getElem?_eq_getElem (by omega)⟩

theorem search_cases (hstr : 0 ∉ keyStr) (hleft : 0 ≤ left) (hright : right < 51) :
    search keyStr left right = some .idUnknown ∨
      compared keyStr ∈ sUserTypeKeyStrings := by
  generalize hn : (right + 1 - left).toNat = n
  induction n using Nat.strongRecOn generalizing left right with
  | _ n ih =>
      by_cases hle : left ≤ right
      · obtain ⟨i, key, hi, hkey⟩ := exists_entry hleft hle hright
        have hmid : entry sUserTypeKeyStrings (left + (right - left) / 2) = some key := by
          rw [hi, entry_natCast, hkey]
        by_cases heq : compared keyStr = key
        · exact .inr (heq ▸ List.mem_of_getElem? hkey)
        · by_cases hbelow : Below (compared keyStr) key
          · rw [search_lower key hstr hle hmid hbelow]
            exact ih _ (by omega) hleft (by omega) rfl
          · rw [search_upper key hstr hle hmid hbelow heq]
            exact ih _ (by omega) (by omega) hright rfl
      · exact .inl (search_of_lt (Int.not_le.mp hle))

/-- The search comes to an entry when all comparisons on the way lead there. -/
theorem search_finds (hstr : 0 ∉ keyStr) {i : ℕ}
    (hi : sUserTypeKeyStrings[i]? = some (compared keyStr)) (hleft : 0 ≤ left) (hright : right < 51)
    (hfrom : left ≤ i) (hto : (i : ℤ) ≤ right)
    (hlow : ∀ j key, j < i → sUserTypeKeyStrings[j]? = some key →
      ¬ Below (compared keyStr) key ∧ compared keyStr ≠ key)
    (hhigh : ∀ j key, i < j → (j : ℤ) ≤ right → sUserTypeKeyStrings[j]? = some key →
      Below (compared keyStr) key) :
    search keyStr left right = sUserTypeTypes[i]? := by
  generalize hn : (right + 1 - left).toNat = n
  induction n using Nat.strongRecOn generalizing left right with
  | _ n ih =>
      have hle : left ≤ right := Int.le_trans hfrom hto
      obtain ⟨j, key, hj, hkey⟩ := exists_entry hleft hle hright
      have hmid : entry sUserTypeKeyStrings (left + (right - left) / 2) = some key := by
        rw [hj, entry_natCast, hkey]
      rcases Nat.lt_trichotomy i j with hij | rfl | hji
      · rw [search_lower key hstr hle hmid (hhigh j key hij (by omega) hkey)]
        exact ih _ (by omega) hleft (by omega) hfrom (by omega)
          (fun k key hk hle => hhigh k key hk (by omega)) rfl
      · rw [hi] at hkey
        rw [search_found hstr hle (hmid.trans hkey.symm), hj, entry_natCast]
      · obtain ⟨hnot, hne⟩ := hlow j key hji hkey
        rw [search_upper key hstr hle hmid hnot hne]
        exact ih _ (by omega) (by omega) hright (by omega) hto hhigh rfl

theorem firstKey_getElem? : sUserTypeKeyStrings[37]? = some firstKey := rfl

theorem index_of_below {i : ℕ} (hi : sUserTypeKeyStrings[i]? = some key)
    (hbelow : Below key firstKey) : i < 37 := by
  rcases Nat.lt_trichotomy i 37 with hlt | rfl | hgt
  · exact hlt
  · cases hi
    exact absurd hbelow (not_below_self _)
  · exact absurd hbelow (not_below_of_lt firstKey_getElem? hi hgt)

theorem search_co (hstr : 0 ∉ keyStr) (hco : compared keyStr = bytesOf "co") :
    search keyStr 0 36 = sUserTypeTypes[1]? := by
  have hlower : ∀ t : List UInt8, strncmp (bytesOf "co") t 2 < 0 →
      Below (compared keyStr) t := by
    intro t ht
    rw [hco]
    exact (strncmp_lt_iff (.inl rfl)).mp ht
  rw [search_lower (bytesOf "perf2") hstr (by decide) rfl (hlower _ (by decide)),
    search_lower (bytesOf "energy") hstr (by decide) rfl (hlower _ (by decide)),
    search_lower (bytesOf "current") hstr (by decide) rfl (hlower _ (by decide))]
  exact search_found hstr (by decide) (hco ▸ rfl)

/-- The first round of a string that is below its key, and what then is found. -/
theorem fromString_of_below (hstr : 0 ∉ keyStr) (hbelow : Below (compared keyStr) firstKey) :
    (∀ i : ℕ, sUserTypeKeyStrings[i]? = some (compared keyStr) →
      fromString keyStr = sUserTypeTypes[i]?) ∧
    (compared keyStr ∉ sUserTypeKeyStrings → fromString keyStr = some .idUnknown) := by
  have hfirst : fromString keyStr = search keyStr 0 36 :=
    search_lower firstKey hstr (by decide) rfl hbelow
  rw [hfirst]
  constructor
  · intro i hi
    have hlt := index_of_below hi hbelow
    by_cases hco : compared keyStr = bytesOf "co"
    · obtain rfl : i = 1 := index_unique hi (hco ▸ rfl)
      exact search_co hstr hco
    · apply search_finds hstr hi (by omega) (by omega) (by omega) (by omega)
      · intro j key hji hkey
        refine ⟨not_below_of_lt hkey hi hji, fun heq => ?_⟩
        exact absurd (index_unique hi (heq ▸ hkey)) (Nat.ne_of_gt hji)
      · intro j key hij _ hkey
        exact below_of_lt hi hkey hij hco
  · intro hnot
    exact (search_cases hstr (by omega) (by omega)).resolve_right hnot

theorem fromString_eq_none (hstr : 0 ∉ keyStr)
    (h : ¬ (Below (compared keyStr) firstKey ∨ compared keyStr = firstKey)) :
    fromString keyStr = none := by
  obtain ⟨hnot, hne⟩ := not_or.mp h
  have hfirst : fromString keyStr = search keyStr 38 74 :=
    search_upper firstKey hstr (by decide) rfl hnot hne
  rw [hfirst]
  exact search_outside (by decide) rfl

/-- What `from_string` finds otherwise. -/
theorem fromString_spec (hstr : 0 ∉ keyStr)
    (h : Below (compared keyStr) firstKey ∨ compared keyStr = firstKey) :
    (∀ i : ℕ, sUserTypeKeyStrings[i]? = some (compared keyStr) →
      fromString keyStr = sUserTypeTypes[i]?) ∧
    (compared keyStr ∉ sUserTypeKeyStrings → fromString keyStr = some .idUnknown) := by
  rcases h with hbelow | heq
  · exact fromString_of_below hstr hbelow
  · constructor
    · intro i hi
      obtain rfl : i = 37 := index_unique hi (heq ▸ firstKey_getElem?)
      exact search_found hstr (by decide) (heq ▸ rfl)
    · intro hnot
      exact absurd (heq ▸ List.mem_of_getElem? firstKey_getElem?) hnot

theorem fromCString_append (hstr : 0 ∉ keyStr) (rest : List UInt8) :
    fromCString (keyStr ++ 0 :: rest) = fromString keyStr := by
  have hall : ∀ a ∈ keyStr, decide (a ≠ 0) = true := by
    intro a ha
    exact decide_eq_true fun h => hstr (h ▸ ha)
  rw [fromCString, if_pos (by simp), List.takeWhile_append_of_pos hall]
  simp

theorem compared_of_mem (h : keyStr ∈ sUserTypeKeyStrings) : compared keyStr = keyStr := by
  rw [compared, toInt_of_lt (length_lt_of_mem h)]
  simp

/-- No entry up to the first key is that of `unknown`. -/
theorem type_ne_idUnknown {i : ℕ} (hi : i < 38) : sUserTypeTypes[i]? ≠ some .idUnknown := by
  have hall : ∀ j < 38, sUserTypeTypes[j]? ≠ some .idUnknown := by decide
  exact hall i hi

end Search

/-- `from_string` recognises a string exactly when it is `switch2` or below it, and when no key
is left of a string whose length is no `int`. -/
theorem recognises_iff {keyStr : List UInt8} (hstr : 0 ∉ keyStr) (rest : List UInt8) :
    Recognises keyStr (fromString keyStr) ∧
        Recognises keyStr (fromCString (keyStr ++ 0 :: rest)) ↔
      (Below (compared keyStr) firstKey ∨ compared keyStr = firstKey) ∧
        (compared keyStr ∈ sUserTypeKeyStrings → compared keyStr = keyStr) := by
  rw [fromCString_append hstr, and_self_iff]
  constructor
  · intro h
    by_cases hfirst : Below (compared keyStr) firstKey ∨ compared keyStr = firstKey
    · refine ⟨hfirst, fun hmem => ?_⟩
      by_contra hne
      -- the string is none of the keys, but what is left of it is found
      have hnot : keyStr ∉ sUserTypeKeyStrings := fun hk => hne (compared_of_mem hk)
      obtain ⟨i, hi⟩ := List.getElem?_of_mem hmem
      refine type_ne_idUnknown (i := i) ?_
        (((fromString_spec hstr hfirst).1 i hi).symm.trans (h.unknown hnot))
      rcases hfirst with hbelow | heq
      · exact Nat.lt_succ_of_lt (index_of_below hi hbelow)
      · obtain rfl := index_unique hi (heq ▸ firstKey_getElem?)
        decide
    · exfalso
      have hnone := fromString_eq_none hstr hfirst
      by_cases hmem : keyStr ∈ sUserTypeKeyStrings
      · obtain ⟨i, hi⟩ := List.getElem?_of_mem hmem
        obtain ⟨type, -, hresult⟩ := h.key i hi
        rw [hnone] at hresult
        cases hresult
      · have hresult := h.unknown hmem
        rw [hnone] at hresult
        cases hresult
  · rintro ⟨hfirst, hcompared⟩
    obtain ⟨hfound, hunknown⟩ := fromString_spec hstr hfirst
    constructor
    · intro i hi
      have hself : compared keyStr = keyStr := compared_of_mem (List.mem_of_getElem? hi)
      rw [hfound i (hself.symm ▸ hi)]
      have hlt : i < sUserTypeTypes.length := (List.getElem?_eq_some_iff.mp hi).1
      exact ⟨_, List.getElem?_eq_getElem hlt, List.getElem?_eq_getElem hlt⟩
    · intro hnot
      exact hunknown fun hmem => hnot (hcompared hmem ▸ hmem)

theorem recognises_iff_battery :
    (0 ∉ bytesOf "battery") ∧
      (Recognises (bytesOf "battery") (fromString (bytesOf "battery")) ∧
          Recognises (bytesOf "battery") (fromCString (bytesOf "battery" ++ 0 :: [])) ↔
        (Below (compared (bytesOf "battery")) firstKey ∨
            compared (bytesOf "battery") = firstKey) ∧
          (compared (bytesOf "battery") ∈ sUserTypeKeyStrings →
            compared (bytesOf "battery") = bytesOf "battery")) :=
  ⟨by decide, recognises_iff (by decide) []⟩

/-- For `temperature` the search reads behind the table. -/
theorem not_recognises_temperature :
    ¬ ∀ keyStr rest : List UInt8, 0 ∉ keyStr → Recognises keyStr (fromString keyStr) ∧
      Recognises keyStr (fromCString (keyStr ++ 0 :: rest)) := by
  intro h
  have hrecognises := (h (bytesOf "temperature") [] (by decide)).1
  obtain ⟨type, -, hresult⟩ := hrecognises.key 44 rfl
  have hself : compared (bytesOf "temperature") = bytesOf "temperature" :=
    compared_of_mem (by decide)
  have hnone : fromString (bytesOf "temperature") = none := by
    apply fromString_eq_none (by decide)
    rw [hself, ← strncmp_lt_iff (.inl rfl)]
    decide
  rw [hnone] at hresult
  cases hresult

end UserTypes

end ConArtist
