import Mathlib.Algebra.Group.Int.Defs
import Mathlib.Algebra.Group.Nat.Defs

/-!
# Doubles

A `Binary64` is the bit pattern of a double of IEEE 754. Every finite double is a whole
number of units of `2 ^ -1074`, so that what a pattern stands for is an integer, an infinity
or not a number, and comparisons are those of the integers. A sum is exact in these units and
is then rounded to the nearest double, to the even one of two that are as near.
-/

structure Binary64 where
  bits : UInt64

namespace Binary64

/-- The literal `n`, below `2 ^ 53`. -/
def ofNat (n : ℕ) : Binary64 :=
  ⟨if n = 0 then 0 else .ofNat ((n.log2 + 1023) * 2 ^ 52 + (n * 2 ^ 52 / 2 ^ n.log2 - 2 ^ 52))⟩

instance (n : ℕ) : OfNat Binary64 n := ⟨ofNat n⟩

/-- What a double stands for, in units of `2 ^ -1074`. -/
inductive Value where
  | nan
  | infinite (negative : Bool)
  | finite (units : ℤ)
  deriving DecidableEq

section Decode

variable (x : Binary64)

def exponent : ℕ := x.bits.toNat / 2 ^ 52 % 2 ^ 11

def fraction : ℕ := x.bits.toNat % 2 ^ 52

def negative : Bool := 2 ^ 63 ≤ x.bits.toNat

/-- The magnitude of a finite double. The leading bit of the significand is not stored, except
in the subnormal numbers, which have none. -/
def magnitude : ℕ :=
  if x.exponent = 0 then x.fraction else (2 ^ 52 + x.fraction) * 2 ^ (x.exponent - 1)

def value : Value :=
  if x.exponent = 2047 then if x.fraction = 0 then .infinite x.negative else .nan
  else .finite (if x.negative then -x.magnitude else x.magnitude)

end Decode

/-- The nearest number with 53 significant bits. -/
def roundEven (n : ℕ) : ℕ :=
  let ulp := 2 ^ (n.log2 - 52)
  let below := n / ulp
  let rest := n % ulp
  (if ulp < 2 * rest ∨ ulp = 2 * rest ∧ below % 2 = 1 then below + 1 else below) * ulp

namespace Value

/-- The double for an exact result. Beyond the largest finite one it is an infinity. -/
def round (units : ℤ) : Value :=
  let n := roundEven units.natAbs
  if 2 ^ 2098 ≤ n then .infinite (units < 0) else .finite (if units < 0 then -n else n)

def add : Value → Value → Value
  | .nan, _ => .nan
  | _, .nan => .nan
  | .infinite s, .infinite t => if s = t then .infinite s else .nan
  | .infinite s, .finite _ => .infinite s
  | .finite _, .infinite t => .infinite t
  | .finite a, .finite b => round (a + b)

/-- Nothing is below a value that is not a number, nor above it. -/
def lt : Value → Value → Bool
  | .nan, _ => false
  | _, .nan => false
  | .infinite s, .infinite t => s && !t
  | .infinite s, .finite _ => s
  | .finite _, .infinite t => !t
  | .finite a, .finite b => a < b

end Value

/-- `x + y < z`. -/
def SumBelow (x y z : Binary64) : Prop := ((x.value.add y.value).lt z.value) = true

instance (x y z : Binary64) : Decidable (SumBelow x y z) := inferInstanceAs (Decidable (_ = true))

/-- The double next to 0.3, with ten added, is the double next to 10.3. -/
example : ¬ SumBelow ⟨0x3FD3333333333333⟩ 10 ⟨0x402499999999999A⟩ := by
  decide +kernel

end Binary64
