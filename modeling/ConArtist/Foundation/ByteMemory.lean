import Mathlib.Data.List.Basic
import Mathlib.Tactic.Ring
import Mathlib.Tactic.NormNum

/-!
# Byte memories and little-endian words

A memory is a total function from offsets to bytes, so that a write past the
end of an object is still a write one can talk about. `store mem dest bs` lays
the bytes `bs` down from `dest`, and `load mem src n` reads `n` bytes back.
`leBytes` and `leValue` are the little-endian encoding of naturals with a
fixed number of bytes; the encoder keeps the low bytes only.
-/

namespace ByteMemory

/-- A memory seen from some base: one byte for every offset. -/
abbrev Memory := ℕ → UInt8

/-- The memory in which the bytes `bs` lie from `dest` on. -/
def store (mem : Memory) (dest : ℕ) (bs : List UInt8) : Memory := fun i =>
  if dest ≤ i then (bs[i - dest]?).getD (mem i) else mem i

/-- The `n` bytes from `src` on. -/
def load (mem : Memory) (src n : ℕ) : List UInt8 :=
  (List.range n).map fun i => mem (src + i)

/-- The `w` low bytes of `n`, least significant first. -/
def leBytes : ℕ → ℕ → List UInt8
  | 0, _ => []
  | w + 1, n => UInt8.ofNat n :: leBytes w (n / 256)

/-- The natural with the given little-endian bytes. -/
def leValue : List UInt8 → ℕ
  | [] => 0
  | b :: bs => b.toNat + 256 * leValue bs

section Store

variable (mem : Memory) (dest : ℕ) (bs : List UInt8)

@[simp] theorem store_nil : store mem dest [] = mem := by
  funext i
  simp [store]

theorem store_apply_of_lt {i : ℕ} (h : i < dest) : store mem dest bs i = mem i := by
  simp [store, Nat.not_le.mpr h]

theorem store_apply_of_ge {i : ℕ} (h : dest + bs.length ≤ i) :
    store mem dest bs i = mem i := by
  unfold store
  split
  · rw [List.getElem?_eq_none (by omega), Option.getD_none]
  · rfl

theorem store_apply_of_notMem {i : ℕ} (h : i < dest ∨ dest + bs.length ≤ i) :
    store mem dest bs i = mem i :=
  h.elim (store_apply_of_lt mem dest bs) (store_apply_of_ge mem dest bs)

theorem store_apply_add {i : ℕ} (h : i < bs.length) :
    store mem dest bs (dest + i) = bs[i] := by
  simp [store, h]

theorem store_append (cs : List UInt8) :
    store (store mem dest bs) (dest + bs.length) cs = store mem dest (bs ++ cs) := by
  funext i
  by_cases hlow : i < dest
  · rw [store_apply_of_lt _ _ _ (by omega), store_apply_of_lt _ _ _ hlow,
      store_apply_of_lt _ _ _ hlow]
  · obtain ⟨k, rfl⟩ := Nat.exists_eq_add_of_le (Nat.not_lt.mp hlow)
    by_cases hk : k < bs.length
    · rw [store_apply_of_lt _ _ _ (by omega), store_apply_add _ _ _ hk,
        store_apply_add _ _ _ (by simp; omega), List.getElem_append_left hk]
    · obtain ⟨j, rfl⟩ := Nat.exists_eq_add_of_le (Nat.not_lt.mp hk)
      by_cases hj : j < cs.length
      · rw [← Nat.add_assoc, store_apply_add _ _ _ hj, Nat.add_assoc,
          store_apply_add _ _ _ (by simp; omega), List.getElem_append_right (by omega)]
        simp
      · rw [store_apply_of_ge _ _ _ (by omega), store_apply_of_ge _ _ _ (by omega),
          store_apply_of_ge _ _ _ (by simp; omega)]

end Store

section Load

variable (mem : Memory) (src n : ℕ)

@[simp] theorem length_load : (load mem src n).length = n := by
  simp [load]

theorem load_add (m : ℕ) : load mem src (n + m) = load mem src n ++ load mem (src + n) m := by
  simp [load, List.range_add, Nat.add_assoc]

theorem load_congr {mem' : Memory} (h : ∀ i, src ≤ i → i < src + n → mem' i = mem i) :
    load mem' src n = load mem src n := by
  unfold load
  refine List.map_congr_left fun i hi => h _ (Nat.le_add_right _ _) ?_
  have := List.mem_range.mp hi
  omega

theorem load_store_same (dest : ℕ) (bs : List UInt8) :
    load (store mem dest bs) dest bs.length = bs := by
  apply List.ext_getElem
  · simp
  · intro i hi _
    have hlen : i < bs.length := by simpa using hi
    simpa [load] using store_apply_add mem dest bs hlen

theorem load_store_disjoint (dest : ℕ) (bs : List UInt8)
    (h : src + n ≤ dest ∨ dest + bs.length ≤ src) :
    load (store mem dest bs) src n = load mem src n := by
  refine load_congr mem src n fun i hlo hhi => store_apply_of_notMem mem dest bs ?_
  omega

end Load

section LittleEndian

@[simp] theorem length_leBytes (w n : ℕ) : (leBytes w n).length = w := by
  induction w generalizing n with
  | zero => rfl
  | succ w ih => simp [leBytes, ih]

theorem leValue_leBytes (w n : ℕ) : leValue (leBytes w n) = n % 256 ^ w := by
  induction w generalizing n with
  | zero => simp [leBytes, leValue, Nat.mod_one]
  | succ w ih =>
      have hbyte : (UInt8.ofNat n).toNat = n % 256 := by simp
      rw [leBytes, leValue, ih, hbyte, pow_succ', Nat.mod_mul]

theorem leValue_leBytes_of_lt {w n : ℕ} (h : n < 256 ^ w) :
    leValue (leBytes w n) = n := by
  rw [leValue_leBytes, Nat.mod_eq_of_lt h]

end LittleEndian

section Words

variable (mem : Memory) (off : ℕ)

/-- The `u64` at an offset. -/
def loadU64 : UInt64 := UInt64.ofNat (leValue (load mem off 8))

/-- The `u32` at an offset. -/
def loadU32 : UInt32 := UInt32.ofNat (leValue (load mem off 4))

/-- The memory after a `u64` was assigned at an offset. -/
def storeU64 (v : UInt64) : Memory := store mem off (leBytes 8 v.toNat)

@[simp] theorem loadU64_storeU64_same (v : UInt64) : loadU64 (storeU64 mem off v) off = v := by
  have hload := load_store_same mem off (leBytes 8 v.toNat)
  rw [length_leBytes] at hload
  have hlt : v.toNat < 256 ^ 8 := v.toNat_lt
  rw [loadU64, storeU64, hload, leValue_leBytes_of_lt hlt, UInt64.ofNat_toNat]

theorem loadU64_store_disjoint {dest : ℕ} {bs : List UInt8}
    (h : off + 8 ≤ dest ∨ dest + bs.length ≤ off) :
    loadU64 (store mem dest bs) off = loadU64 mem off := by
  rw [loadU64, load_store_disjoint mem off 8 dest bs h, loadU64]

theorem loadU64_storeU64_disjoint {dest : ℕ} {v : UInt64} (h : off + 8 ≤ dest ∨ dest + 8 ≤ off) :
    loadU64 (storeU64 mem dest v) off = loadU64 mem off :=
  loadU64_store_disjoint mem off (by simpa using h)

theorem storeU64_apply_of_notMem {v : UInt64} {i : ℕ} (h : i < off ∨ off + 8 ≤ i) :
    storeU64 mem off v i = mem i :=
  store_apply_of_notMem mem off _ (by simpa using h)

end Words

end ByteMemory
