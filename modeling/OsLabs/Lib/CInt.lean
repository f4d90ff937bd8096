-- SUMMARY: The C types int and unsigned int on a machine with 32-bit two's complement words.
import Mathlib.Algebra.Group.Int.Defs
import Mathlib.Algebra.Group.Nat.Defs
import Mathlib.Data.Int.Basic

/-!
# C integers

An `int` is an `Int` in the range of 32-bit two's complement. Arithmetic is done in
`Int` and brought back into range by `wrap32`; where no overflow happens, `wrap32` is
the identity.
-/

namespace CInt

/-- The value of a 32-bit result as an `int`. -/
def wrap32 (x : Int) : Int := x.bmod (2 ^ 32)

/-- Conversion of an `int` to `unsigned int`. -/
def toUint (x : Int) : Nat := (x % 2 ^ 32).toNat

theorem wrap32_eq_self {x : Int} (h₁ : -2 ^ 31 ≤ x) (h₂ : x < 2 ^ 31) : wrap32 x = x := by
  rw [wrap32, Int.bmod_eq_of_le_mul_two] <;> simp <;> omega

theorem le_wrap32 (x : Int) : -2 ^ 31 ≤ wrap32 x := by
  have := Int.le_bmod (x := x) (m := 2 ^ 32) (by decide)
  simpa [wrap32] using this

theorem wrap32_lt (x : Int) : wrap32 x < 2 ^ 31 := by
  have := Int.bmod_lt (x := x) (m := 2 ^ 32) (by decide)
  simpa [wrap32] using this

/-- An operation has no overflow exactly if its result is in range. -/
theorem wrap32_eq_self_iff {x : Int} : wrap32 x = x ↔ -2 ^ 31 ≤ x ∧ x < 2 ^ 31 := by
  constructor
  · intro h
    rw [← h]
    exact ⟨le_wrap32 x, wrap32_lt x⟩
  · intro h
    exact wrap32_eq_self h.1 h.2

/-- Overflows on the way do not matter to the final one. -/
theorem wrap32_add_wrap32 (x y : Int) : wrap32 (wrap32 x + y) = wrap32 (x + y) :=
  Int.bmod_add_bmod

theorem toUint_wrap32 (x : Int) : toUint (wrap32 x) = toUint x := by
  rw [toUint, toUint, wrap32]
  congr 1
  exact Int.bmod_emod

theorem toUint_of_nonneg {x : Int} (h₁ : 0 ≤ x) (h₂ : x < 2 ^ 32) : (toUint x : Int) = x := by
  rw [toUint, Int.toNat_of_nonneg (Int.emod_nonneg x (by decide)), Int.emod_eq_of_lt h₁ h₂]

end CInt
