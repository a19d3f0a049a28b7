import Mathlib.Data.Int.ModEq
import Mathlib.Data.UInt

/-!
# C integers from Python integers

The conversions of the format units of `PyArg_ParseTuple`.  Those of signed types raise
`OverflowError` for an int that does not fit; those of unsigned types reduce it without a check.
-/

namespace CInt

/-- The int is a value of the signed type of `w` bits. -/
def Fits (w : ℕ) (n : ℤ) : Prop := -2 ^ (w - 1) ≤ n ∧ n < 2 ^ (w - 1)

instance (w : ℕ) (n : ℤ) : Decidable (Fits w n) := inferInstanceAs (Decidable (_ ∧ _))

/-- The units 'i' and 'L', for a type of `w` bits; `none` where they raise `OverflowError`. -/
def signed (w : ℕ) (n : ℤ) : Option ℤ := if Fits w n then some n else none

/-- The unit 'I'. -/
def parseI (n : ℤ) : UInt32 := UInt32.ofInt n

/-- The units 'k' and 'K', where `unsigned long` has 64 bits. -/
def parseK (n : ℤ) : UInt64 := UInt64.ofInt n

theorem signed_eq_some_iff {w : ℕ} {n m : ℤ} : signed w n = some m ↔ Fits w n ∧ n = m := by
  unfold signed
  split_ifs with h <;> simp [h]

theorem toNat_parseI (n : ℤ) : ((parseI n).toNat : ℤ) = n % 2 ^ 32 := by
  have h : (parseI n).toNat = (n % 2 ^ 32).toNat := by
    rw [parseI, UInt32.ofInt, UInt32.toNat_ofNat']
    omega
  omega

theorem toNat_parseK (n : ℤ) : ((parseK n).toNat : ℤ) = n % 2 ^ 64 := by
  have h : (parseK n).toNat = (n % 2 ^ 64).toNat := by
    rw [parseK, UInt64.ofInt, UInt64.toNat_ofNat']
    omega
  omega

end CInt
