-- SUMMARY: Shift registers with one feedback tap, as combined in Tausworthe generators: their significant part and why it never collapses.
import Mathlib.Data.BitVec
import Mathlib.Data.Fintype.Pigeonhole
import Mathlib.Logic.Function.Iterate

/-!
# Shift registers

A register of `w` bits has some low bits that are not significant. One step moves the
significant bits up by `s` places and fills the room below with the xor of two copies of
the register that are `q` places apart. The new significant bits depend on the old ones
only, and determine them.
-/

namespace Lfsr

/-- The constants of a register of `w` bits. -/
structure Register (w : Nat) where
  /-- The number of insignificant bits. -/
  low : Nat
  /-- The distance of the tap. -/
  q : Nat
  /-- The number of places a step shifts by. -/
  s : Nat
  q_pos : 0 < q
  fits : low + q + s ≤ w

namespace Register

variable {w : Nat} (c : Register w)

def mask : BitVec w := BitVec.allOnes w <<< c.low

def significant (z : BitVec w) : BitVec w := z &&& c.mask

def step (z : BitVec w) : BitVec w :=
  (c.significant z <<< c.s) ^^^ (((z <<< c.q) ^^^ z) >>> (w - c.low - c.s))

variable {c} {z z' : BitVec w}

theorem getLsbD_significant (j : Nat) :
    (c.significant z).getLsbD j = (decide (c.low ≤ j) && z.getLsbD j) := by
  rcases Nat.lt_or_ge j w with hj | hj
  · rcases Nat.lt_or_ge j c.low with hlow | hlow
    · simp [significant, mask, hlow]
    · simp [significant, mask, hj, hlow, Nat.not_lt.mpr hlow]
  · simp [BitVec.getLsbD_of_ge _ _ hj]

/-- Words have the same significant part if they agree from bit `low` on. -/
theorem significant_eq_iff : c.significant z = c.significant z' ↔
    ∀ j, c.low ≤ j → j < w → z.getLsbD j = z'.getLsbD j := by
  constructor
  · intro h j hlow hj
    have hbit := congrArg (BitVec.getLsbD · j) h
    simpa [getLsbD_significant, hlow] using hbit
  · intro h
    apply BitVec.eq_of_getLsbD_eq
    intro j hj
    rw [getLsbD_significant, getLsbD_significant]
    rcases Nat.lt_or_ge j c.low with hlow | hlow
    · simp [Nat.not_le.mpr hlow]
    · rw [h j hlow hj]

/-- The significant bits after a step: the new ones below, the shifted ones above. -/
theorem getLsbD_step {j : Nat} (hlow : c.low ≤ j) (hj : j < w) :
    (c.step z).getLsbD j =
      if j < c.low + c.s then
        z.getLsbD (j + (w - c.low - c.s) - c.q) ^^ z.getLsbD (j + (w - c.low - c.s))
      else z.getLsbD (j - c.s) := by
  have hfits := c.fits
  simp only [step, BitVec.getLsbD_xor, BitVec.getLsbD_shiftLeft, BitVec.getLsbD_ushiftRight,
    getLsbD_significant, Nat.add_comm _ j]
  split
  case isTrue hnew =>
    have hin : j + (w - c.low - c.s) < w := by omega
    have htap : ¬ j + (w - c.low - c.s) < c.q := by omega
    have hout : ¬ c.low ≤ j - c.s ∨ j < c.s := by omega
    rcases hout with hout | hout <;> simp [hin, htap, hout]
  case isFalse hold =>
    have hout : w ≤ j + (w - c.low - c.s) := by omega
    have hs : ¬ j < c.s := by omega
    have hin : c.low ≤ j - c.s := by omega
    simp [BitVec.getLsbD_of_ge _ _ hout, Nat.not_lt.mpr hout, hj, hs, hin]

/-- A step is a one-to-one map of significant parts. -/
theorem significant_step_eq_iff :
    c.significant (c.step z) = c.significant (c.step z') ↔ c.significant z = c.significant z' := by
  have hfits := c.fits
  have hq := c.q_pos
  rw [significant_eq_iff, significant_eq_iff]
  constructor
  · -- Bits that were shifted are read off directly. The others are known from the bit
    -- `q` places below, so the word is recovered from the bottom up.
    intro h m
    induction m using Nat.strong_induction_on with
    | _ m ih =>
      intro hlow hm
      rcases Nat.lt_or_ge (m + c.s) w with hup | htop
      · have hbit := h (m + c.s) (by omega) hup
        rw [getLsbD_step (by omega) hup, getLsbD_step (by omega) hup, if_neg (by omega),
          if_neg (by omega), Nat.add_sub_cancel] at hbit
        exact hbit
      · obtain ⟨j, rfl⟩ : ∃ j, m = j + (w - c.low - c.s) :=
          ⟨m - (w - c.low - c.s), by omega⟩
        have hbit := h j (by omega) (by omega)
        have hbelow := ih (j + (w - c.low - c.s) - c.q) (by omega) (by omega) (by omega)
        rw [getLsbD_step (by omega) (by omega), getLsbD_step (by omega) (by omega),
          if_pos (by omega), if_pos (by omega), hbelow] at hbit
        exact Bool.xor_right_inj.mp hbit
  · intro h j hlow hj
    rw [getLsbD_step hlow hj, getLsbD_step hlow hj]
    split
    · rw [h _ (by omega) (by omega), h _ (by omega) (by omega)]
    · exact h _ (by omega) (by omega)

@[simp] theorem step_zero : c.step 0#w = 0#w := by
  simp [step, significant]

/-- A register reaches zero from zero only, and does not leave it. -/
theorem significant_step_eq_zero_iff :
    c.significant (c.step z) = 0 ↔ c.significant z = 0 := by
  have h : c.significant (c.step z) = c.significant (c.step 0#w) ↔
      c.significant z = c.significant 0#w := c.significant_step_eq_iff
  simpa [significant] using h

end Register

/-! ## Periods

What is observed of a deterministic machine comes back to where it started, if there are
finitely many observations and each determines the one before it and the one after it.
-/

section Period

variable {σ ρ : Type} {f : σ → σ} (obs : σ → ρ)

theorem obs_iterate_eq_iff (h : ∀ a b, obs (f a) = obs (f b) ↔ obs a = obs b) (n : Nat) (a b : σ) :
    obs (f^[n] a) = obs (f^[n] b) ↔ obs a = obs b := by
  induction n generalizing a b with
  | zero => rfl
  | succ n ih => rw [Function.iterate_succ_apply, Function.iterate_succ_apply, ih, h]

theorem exists_period [Finite ρ] (h : ∀ a b, obs (f a) = obs (f b) ↔ obs a = obs b) (a : σ) :
    ∃ p, 0 < p ∧ ∀ n, obs (f^[n + p] a) = obs (f^[n] a) := by
  obtain ⟨m, n, hne, heq⟩ := Finite.exists_ne_map_eq_of_infinite fun n : Nat => obs (f^[n] a)
  wlog hlt : m < n generalizing m n
  · exact this n m hne.symm heq.symm (by omega)
  · refine ⟨n - m, by omega, fun k => ?_⟩
    have hn : n = m + (n - m) := by omega
    have hstart : obs (f^[n - m] a) = obs a := by
      apply (obs_iterate_eq_iff obs h m _ _).mp
      rw [← Function.iterate_add_apply, ← hn]
      exact heq.symm
    rw [Function.iterate_add_apply]
    exact (obs_iterate_eq_iff obs h k _ _).mpr hstart

end Period

end Lfsr
