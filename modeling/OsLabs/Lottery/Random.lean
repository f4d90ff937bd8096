-- SUMMARY: The pseudo-random generator of the lottery kernel and the range it draws from.
import Mathlib.Data.Finite.Prod
import Mathlib.Data.Nat.Bitwise
import Mathlib.Tactic.FinCases
import OsLabs.Lib.CInt
import OsLabs.Lib.Lfsr

/-!
# `kernel/random.c`

The four static words of `random` are the generator state. `randomrange` mixes `int`
and `unsigned int`: the range is computed as an `int`, then the remainder and the sum
are unsigned, and the result is converted back.
-/

namespace Lottery

open CInt

/-- The static variables of `random`. -/
structure Rng where
  z1 : BitVec 32
  z2 : BitVec 32
  z3 : BitVec 32
  z4 : BitVec 32
deriving DecidableEq

def Rng.seed : Rng := ⟨12345, 12345, 12345, 12345⟩

def random (g : Rng) : BitVec 32 × Rng :=
  let z1 := ((g.z1 &&& 4294967294) <<< 18) ^^^ (((g.z1 <<< 6) ^^^ g.z1) >>> 13)
  let z2 := ((g.z2 &&& 4294967288) <<< 2) ^^^ (((g.z2 <<< 2) ^^^ g.z2) >>> 27)
  let z3 := ((g.z3 &&& 4294967280) <<< 7) ^^^ (((g.z3 <<< 13) ^^^ g.z3) >>> 21)
  let z4 := ((g.z4 &&& 4294967168) <<< 13) ^^^ (((g.z4 <<< 3) ^^^ g.z4) >>> 12)
  ((z1 ^^^ z2 ^^^ z3 ^^^ z4) / 2, ⟨z1, z2, z3, z4⟩)

def randomrange (g : Rng) (lo hi : Int) : Int × Rng :=
  let (lo, hi) := if hi < lo then (hi, lo) else (lo, hi)
  let range := wrap32 (wrap32 (hi - lo) + 1)
  let (r, g') := random g
  (wrap32 ((r.toNat % toUint range : Nat) + lo), g')

/-- `r` is a value that `randomrange lo hi` returns in some generator state. -/
def CanDraw (lo hi r : Int) : Prop := ∃ g, (randomrange g lo hi).1 = r

/-! ## The four registers

Each word is a shift register of its own. Its lowest bits are masked out when it is shifted,
and are overwritten.
-/

def Rng.word (g : Rng) : Fin 4 → BitVec 32
  | 0 => g.z1
  | 1 => g.z2
  | 2 => g.z3
  | 3 => g.z4

/-- The masks in `random`. -/
def Rng.mask : Fin 4 → BitVec 32
  | 0 => 0xFFFFFFFE
  | 1 => 0xFFFFFFF8
  | 2 => 0xFFFFFFF0
  | 3 => 0xFFFFFF80

/-- The part of a word that the next ones depend on. -/
def Rng.significant (g : Rng) (i : Fin 4) : BitVec 32 := g.word i &&& Rng.mask i

def Rng.register : Fin 4 → Lfsr.Register 32
  | 0 => { low := 1, q := 6, s := 18, q_pos := by decide, fits := by decide }
  | 1 => { low := 3, q := 2, s := 2, q_pos := by decide, fits := by decide }
  | 2 => { low := 4, q := 13, s := 7, q_pos := by decide, fits := by decide }
  | 3 => { low := 7, q := 3, s := 13, q_pos := by decide, fits := by decide }

theorem Rng.significant_eq (g : Rng) (i : Fin 4) :
    g.significant i = (Rng.register i).significant (g.word i) := by
  have hmask : ∀ i, Rng.mask i = (Rng.register i).mask := by decide
  rw [Rng.significant, hmask, Lfsr.Register.significant]

/-- `random` steps each register. -/
theorem word_random (g : Rng) (i : Fin 4) :
    (random g).2.word i = (Rng.register i).step (g.word i) := by
  fin_cases i <;> rfl

/-- The significant part of each word determines that of the next one and is determined by it. -/
theorem significant_random_eq_iff (g g' : Rng) (i : Fin 4) :
    (random g).2.significant i = (random g').2.significant i ↔
      g.significant i = g'.significant i := by
  simp only [Rng.significant_eq, word_random]
  exact Lfsr.Register.significant_step_eq_iff

theorem significant_random_eq_zero_iff (g : Rng) (i : Fin 4) :
    (random g).2.significant i = 0 ↔ g.significant i = 0 := by
  simp only [Rng.significant_eq, word_random]
  exact Lfsr.Register.significant_step_eq_zero_iff

/-- The static variables after `n` calls of `random`. -/
def Rng.after (n : Nat) : Rng := (fun g => (random g).2)^[n] Rng.seed

theorem significant_after_ne_zero (n : Nat) (i : Fin 4) : (Rng.after n).significant i ≠ 0 := by
  induction n with
  | zero =>
    revert i
    decide
  | succ n ih =>
    rw [Rng.after, Function.iterate_succ_apply', ne_eq, significant_random_eq_zero_iff]
    exact ih

/-- No register of the generator is ever stuck at zero, none of them forgets anything, and all
    four come back to their seeds together. -/
theorem generator_never_degenerates :
    (∀ n i, (Rng.after n).significant i ≠ 0) ∧
    (∀ g g' i, (random g).2.significant i = (random g').2.significant i ↔
      g.significant i = g'.significant i) ∧
    ∃ p, 0 < p ∧ ∀ n, (Rng.after (n + p)).significant = (Rng.after n).significant := by
  refine ⟨significant_after_ne_zero, significant_random_eq_iff, ?_⟩
  have : Finite (BitVec 32) := Finite.of_injective _ BitVec.toFin_injective
  apply Lfsr.exists_period Rng.significant
  intro g g'
  simp only [funext_iff, significant_random_eq_iff]

/-! ## The range of a draw -/

/-- The divisor of the remainder in `randomrange`: the `int` range between the two ends, used
    as an unsigned number. -/
def divisor (lo hi : Int) : Nat := toUint (wrap32 (wrap32 (max lo hi - min lo hi) + 1))

theorem randomrange_fst (g : Rng) (lo hi : Int) : (randomrange g lo hi).1 =
    wrap32 (((random g).1.toNat % divisor lo hi : Nat) + min lo hi) := by
  rcases Int.lt_or_le hi lo with h | h
  · simp [randomrange, divisor, h, Int.max_eq_left (Int.le_of_lt h),
      Int.min_eq_right (Int.le_of_lt h)]
  · simp [randomrange, divisor, Int.not_lt.mpr h, Int.max_eq_right h, Int.min_eq_left h]

section Ends

variable {lo hi : Int} (hlo₀ : -2 ^ 31 ≤ lo) (hlo₁ : lo < 2 ^ 31) (hhi₀ : -2 ^ 31 ≤ hi)
  (hhi₁ : hi < 2 ^ 31) (hfull : ¬ (min lo hi = -2 ^ 31 ∧ max lo hi = 2 ^ 31 - 1))
include hlo₀ hlo₁ hhi₀ hhi₁ hfull

/-- The range may wrap to a negative `int`, but as an unsigned number it is right. -/
theorem divisor_eq : (divisor lo hi : Int) = max lo hi - min lo hi + 1 := by
  rw [divisor, wrap32_add_wrap32, toUint_wrap32]
  apply toUint_of_nonneg <;> omega

theorem randomrange_bounds (g : Rng) :
    min lo hi ≤ (randomrange g lo hi).1 ∧ (randomrange g lo hi).1 ≤ max lo hi := by
  have hdiv := divisor_eq hlo₀ hlo₁ hhi₀ hhi₁ hfull
  have hmod : (random g).1.toNat % divisor lo hi < divisor lo hi := Nat.mod_lt _ (by omega)
  rw [randomrange_fst, wrap32_eq_self (by omega) (by omega)]
  omega

/-- Whatever the order of the two ends, `randomrange` divides by a number other than zero and
    returns one between them. -/
theorem randomrange_between (g : Rng) : divisor lo hi ≠ 0 ∧
    min lo hi ≤ (randomrange g lo hi).1 ∧ (randomrange g lo hi).1 ≤ max lo hi := by
  have hdiv := divisor_eq hlo₀ hlo₁ hhi₀ hhi₁ hfull
  exact ⟨by omega, randomrange_bounds hlo₀ hlo₁ hhi₀ hhi₁ hfull g⟩

end Ends

/-- Ends given in the wrong order, whose range is negative as an `int`. -/
theorem randomrange_between_wide : divisor (2 ^ 31 - 1) (-5) ≠ 0 ∧
    min (2 ^ 31 - 1) (-5) ≤ (randomrange .seed (2 ^ 31 - 1) (-5)).1 ∧
    (randomrange .seed (2 ^ 31 - 1) (-5)).1 ≤ max (2 ^ 31 - 1) (-5) :=
  randomrange_between (by decide) (by decide) (by decide) (by decide) (by decide) .seed

example : divisor (-2 ^ 31) (2 ^ 31 - 1) = 0 := by decide

/-- Draws from `0` to a non-negative bound are in between, the bound included. -/
theorem CanDraw.bounds {total r : Int} (h : CanDraw 0 total r) (h₀ : 0 ≤ total)
    (h₁ : total < 2 ^ 31) : 0 ≤ r ∧ r ≤ total := by
  obtain ⟨g, rfl⟩ := h
  have hbounds : min 0 total ≤ (randomrange g 0 total).1 ∧
      (randomrange g 0 total).1 ≤ max 0 total :=
    randomrange_bounds (by omega) (by omega) (by omega) h₁ (by omega) g
  omega

/-! ## Every value occurs

The first of the four words alone reaches every value: its bits 1 to 13 move to the top,
and every later bit is combined with the one six places before it, so that the word can be
read off the wanted result from the bottom up. The lowest bit is lost in the division.
-/

/-- Bit `m` of the word that `random` turns into one with the upper bits of `v`. -/
def randomInvBit (v : BitVec 32) (m : Nat) : Bool :=
  if m < 14 then v.getLsbD (m + 18) else v.getLsbD (m - 13) ^^ randomInvBit v (m - 6)

def randomInv (v : BitVec 32) : BitVec 32 :=
  .ofNat 32 (Nat.ofBits fun m : Fin 32 => randomInvBit v m)

theorem getLsbD_randomInv (v : BitVec 32) {m : Nat} (hm : m < 32) :
    (randomInv v).getLsbD m = randomInvBit v m := by
  rw [randomInv, BitVec.getLsbD_ofNat, Nat.testBit_ofBits_lt _ _ hm, decide_eq_true hm,
    Bool.true_and]

/-- What `random` makes of its first word. -/
def stepZ1 (z : BitVec 32) : BitVec 32 :=
  ((z &&& 4294967294) <<< 18) ^^^ (((z <<< 6) ^^^ z) >>> 13)

theorem getLsbD_stepZ1 (z : BitVec 32) {k : Nat} (h₀ : 0 < k) (hk : k < 32) :
    (stepZ1 z).getLsbD k =
      if k < 19 then z.getLsbD (k + 7) ^^ z.getLsbD (k + 13) else z.getLsbD (k - 18) :=
  (Rng.register 0).getLsbD_step h₀ hk

/-- Up to its lowest bit, every word comes out of the first generator. -/
theorem stepZ1_randomInv (v : BitVec 32) : stepZ1 (randomInv v) >>> 1 = v >>> 1 := by
  apply BitVec.eq_of_getLsbD_eq
  intro j hj
  rw [BitVec.getLsbD_ushiftRight, BitVec.getLsbD_ushiftRight]
  rcases Nat.lt_or_ge (1 + j) 32 with hk | hk
  · rw [getLsbD_stepZ1 _ (by omega) hk]
    split
    · rename_i h
      have hbit : randomInvBit v (1 + j + 13) =
          (v.getLsbD (1 + j) ^^ randomInvBit v (1 + j + 7)) := by
        rw [randomInvBit, if_neg (by omega)]
        rfl
      rw [getLsbD_randomInv v (by omega), getLsbD_randomInv v (by omega), hbit,
        Bool.xor_left_comm, Bool.xor_self, Bool.xor_false]
    · rename_i h
      have hback : 1 + j - 18 + 18 = 1 + j := by omega
      rw [getLsbD_randomInv v (by omega), randomInvBit, if_pos (by omega), hback]
  · rw [BitVec.getLsbD_of_ge _ _ hk, BitVec.getLsbD_of_ge _ _ hk]

/-- `random` returns every value below `2 ^ 31` in some state. -/
theorem exists_random_eq {n : Nat} (h : n < 2 ^ 31) : ∃ g, (random g).1.toNat = n := by
  let v := BitVec.ofNat 32 (2 * n)
  refine ⟨⟨randomInv v, 0, 0, 0⟩, ?_⟩
  have hrandom : (random ⟨randomInv v, 0, 0, 0⟩).1 = stepZ1 (randomInv v) / 2 := by
    simp [random, stepZ1]
  have hshift := congrArg BitVec.toNat (stepZ1_randomInv v)
  rw [BitVec.toNat_ushiftRight, BitVec.toNat_ushiftRight, Nat.shiftRight_eq_div_pow,
    Nat.shiftRight_eq_div_pow] at hshift
  calc (random ⟨randomInv v, 0, 0, 0⟩).1.toNat
      = (stepZ1 (randomInv v)).toNat / 2 ^ 1 := by rw [hrandom, BitVec.toNat_udiv]; rfl
    _ = v.toNat / 2 ^ 1                      := hshift
    _ = n                                    := by
        rw [BitVec.toNat_ofNat, Nat.mod_eq_of_lt (by omega)]
        omega

/-- The draws from `0` to a non-negative bound are exactly the numbers in between, the
    bound included. -/
theorem canDraw_iff {total r : Int} (h₀ : 0 ≤ total) (h₁ : total < 2 ^ 31 - 1) :
    CanDraw 0 total r ↔ 0 ≤ r ∧ r ≤ total := by
  constructor
  · intro h
    exact h.bounds h₀ (by omega)
  · rintro ⟨hr₀, hr₁⟩
    obtain ⟨g, hg⟩ := exists_random_eq (n := r.toNat) (by omega)
    refine ⟨g, ?_⟩
    have hrange : wrap32 (total + 1) = total + 1 := wrap32_eq_self (by omega) (by omega)
    have hu := toUint_of_nonneg (x := total + 1) (by omega) (by omega)
    have hsub : wrap32 (total - 0) = total := by
      rw [Int.sub_zero]
      exact wrap32_eq_self (by omega) (by omega)
    simp only [randomrange, if_neg (Int.not_lt.mpr h₀), hsub, Int.add_zero, hg, hrange]
    rw [Nat.mod_eq_of_lt (by omega), Int.toNat_of_nonneg hr₀]
    exact wrap32_eq_self (by omega) (by omega)

end Lottery
