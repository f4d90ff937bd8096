-- SUMMARY: Byte-addressed memory as a data structure: little-endian words, and singly linked lists whose links are in memory.
import Mathlib.Algebra.Group.Nat.Defs
import Mathlib.Data.List.Basic
import Mathlib.Data.List.Nodup
import Mathlib.Logic.Function.Basic

/-!
# Words and linked lists in memory

`load m a n` is the little-endian number in the `n` bytes from `a`. `Linked next nil p l`
says that the links lead from `p` through the nodes of `l`, in this order, to `nil`; the
rules are that links outside of the list do not matter (`Linked.congr`), that there is only
one such list (`Linked.unique`) and that it visits no node twice (`Linked.nodup`).
-/

namespace Heap

/-! ## Words -/

/-- The number in the `n` bytes from address `a`, lowest byte first. -/
def load (m : Nat → UInt8) (a : Nat) : Nat → Nat
  | 0     => 0
  | n + 1 => (m a).toNat + 256 * load m (a + 1) n

/-- Byte `i` of the number `v`. -/
def byte (v i : Nat) : UInt8 := .ofNat (v / 256 ^ i % 256)

theorem load_congr {m m' : Nat → UInt8} {a n : Nat} (h : ∀ i < n, m' (a + i) = m (a + i)) :
    load m' a n = load m a n := by
  induction n generalizing a with
  | zero => rfl
  | succ n ih =>
      have hhead : m' a = m a := h 0 (Nat.succ_pos n)
      have htail : load m' (a + 1) n = load m (a + 1) n := by
        apply ih
        intro i hi
        have := h (i + 1) (Nat.succ_lt_succ hi)
        rwa [Nat.add_comm i 1, ← Nat.add_assoc] at this
      rw [load, load, hhead, htail]

theorem byte_succ (v i : Nat) : byte v (i + 1) = byte (v / 256) i := by
  unfold byte
  rw [Nat.div_div_eq_div_mul, Nat.pow_succ, Nat.mul_comm (256 ^ i)]

/-- Reading back a number that fits. -/
theorem load_bytes {m : Nat → UInt8} {a n v : Nat} (h : ∀ i < n, m (a + i) = byte v i)
    (hv : v < 256 ^ n) : load m a n = v := by
  induction n generalizing a v with
  | zero =>
      have hzero : v = 0 := Nat.lt_one_iff.mp hv
      rw [hzero]
      rfl
  | succ n ih =>
      have hhead : (m a).toNat = v % 256 := by
        have hbyte : m a = byte v 0 := h 0 (Nat.succ_pos n)
        rw [hbyte, byte, Nat.pow_zero, Nat.div_one]
        exact Nat.mod_eq_of_lt (Nat.mod_lt _ (by decide))
      have htail : load m (a + 1) n = v / 256 := by
        apply ih
        · intro i hi
          have hbyte := h (i + 1) (Nat.succ_lt_succ hi)
          rw [byte_succ, Nat.add_comm i 1, ← Nat.add_assoc] at hbyte
          exact hbyte
        · apply Nat.div_lt_of_lt_mul
          rwa [Nat.mul_comm, ← Nat.pow_succ]
      rw [load, hhead, htail]
      exact Nat.mod_add_div v 256

/-! ## Linked lists -/

variable {α : Type}

/-- The links `next` lead from `p` through the nodes of `l` to `nil`. -/
def Linked (next : α → α) (nil : α) : α → List α → Prop
  | p, []     => p = nil
  | p, a :: l => p = a ∧ a ≠ nil ∧ Linked next nil (next a) l

namespace Linked

variable {next next' : α → α} {nil p : α} {l l' : List α}

theorem congr (h : Linked next nil p l) (hnext : ∀ a ∈ l, next' a = next a) :
    Linked next' nil p l := by
  induction l generalizing p with
  | nil => exact h
  | cons a l ih =>
      obtain ⟨hp, hne, hl⟩ := h
      refine ⟨hp, hne, ?_⟩
      rw [hnext a (by simp)]
      exact ih hl fun b hb => hnext b (by simp [hb])

theorem unique (h : Linked next nil p l) (h' : Linked next nil p l') : l = l' := by
  induction l generalizing p l' with
  | nil =>
      cases l' with
      | nil => rfl
      | cons b l' =>
          obtain ⟨hp, hne, -⟩ := h'
          exact absurd (hp.symm.trans h) hne
  | cons a l ih =>
      obtain ⟨hp, hne, hl⟩ := h
      cases l' with
      | nil => exact absurd (hp.symm.trans h') hne
      | cons b l' =>
          obtain ⟨hp', -, hl'⟩ := h'
          obtain rfl : a = b := hp.symm.trans hp'
          rw [ih hl hl']

/-- From a node of the list, the links lead through the rest of it. -/
theorem rest {a : α} (h : Linked next nil p l) (ha : a ∈ l) :
    ∃ l', Linked next nil a l' ∧ l'.length ≤ l.length := by
  induction l generalizing p with
  | nil => cases ha
  | cons b l ih =>
      have hl := h.2.2
      rcases List.mem_cons.mp ha with rfl | ha
      · exact ⟨a :: l, ⟨rfl, h.2⟩, Nat.le_refl _⟩
      · obtain ⟨l', hl', hle⟩ := ih hl ha
        exact ⟨l', hl', Nat.le_succ_of_le hle⟩

/-- A list that comes to an end visits no node twice. -/
theorem nodup (h : Linked next nil p l) : l.Nodup := by
  induction l generalizing p with
  | nil => exact List.nodup_nil
  | cons a l ih =>
      obtain ⟨-, hne, hl⟩ := h
      refine List.nodup_cons.mpr ⟨?_, ih hl⟩
      -- Otherwise the list from `a` on would be longer than itself.
      intro ha
      obtain ⟨l', hl', hle⟩ := hl.rest ha
      have heq : l' = a :: l := hl'.unique ⟨rfl, hne, hl⟩
      rw [heq] at hle
      exact absurd hle (Nat.not_succ_le_self _)

theorem ne_nil_of_mem {a : α} (h : Linked next nil p l) (ha : a ∈ l) : a ≠ nil := by
  induction l generalizing p with
  | nil => cases ha
  | cons b l ih =>
      rcases List.mem_cons.mp ha with rfl | ha
      · exact h.2.1
      · exact ih h.2.2 ha

/-- A new first node that links to the old one. -/
theorem push {a : α} (h : Linked next nil p l) (ha : next a = p) (hne : a ≠ nil) :
    Linked next nil a (a :: l) := by
  refine ⟨rfl, hne, ?_⟩
  rw [ha]
  exact h

end Linked

end Heap
