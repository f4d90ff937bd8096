-- SUMMARY: Ring buffers with free-running machine counters: what they hold, and what storing and removing an entry do to it.
import Mathlib.Data.Nat.ModEq
import Mathlib.Data.List.Basic

/-!
# Ring buffers

A ring buffer has an array of `N` slots and two counters of `w` bits, one for the entries removed
so far and one for the entries stored so far. Entry number `c` is in the slot `c % N`. The
counters are never reset. They wrap around, which goes unnoticed as long as `N` divides
`2 ^ w`.
-/

namespace RingBuffer

variable {α : Type} {w N : Nat} [NeZero N]

/-- The slot of the entry with number `c`. -/
def slot (N : Nat) [NeZero N] (c : BitVec w) : Fin N := Fin.ofNat N c.toNat

/-- The number of entries between two counters. -/
def size (r e : BitVec w) : Nat := (e - r).toNat

/-- The entries from number `r` up to number `e`, oldest first. -/
def contents (data : Fin N → α) (r e : BitVec w) : List α :=
  (List.range (size r e)).map fun j => data (slot N (r + BitVec.ofNat w j))

@[simp] theorem length_contents (data : Fin N → α) (r e : BitVec w) :
    (contents data r e).length = size r e := by
  simp [contents]

/-! ## Counters -/

theorem add_size (r e : BitVec w) : r + BitVec.ofNat w (size r e) = e := by
  rw [size, BitVec.ofNat_toNat, BitVec.setWidth_eq, BitVec.add_comm, BitVec.sub_add_cancel]

theorem size_lt (r e : BitVec w) : size r e < 2 ^ w := (e - r).isLt

theorem size_eq_iff {r e : BitVec w} {n : Nat} (hn : n < 2 ^ w) :
    size r e = n ↔ e = r + BitVec.ofNat w n := by
  constructor
  · rintro rfl
    exact (add_size r e).symm
  · rintro rfl
    rw [size, BitVec.add_comm, BitVec.add_sub_cancel, BitVec.toNat_ofNat, Nat.mod_eq_of_lt hn]

theorem size_eq_zero {r e : BitVec w} : size r e = 0 ↔ r = e := by
  rw [size_eq_iff (Nat.two_pow_pos w)]
  simp [eq_comm]

theorem size_store {r e : BitVec w} (h : size r e + 1 < 2 ^ w) :
    size r (e + 1) = size r e + 1 := by
  rw [size_eq_iff h, BitVec.ofNat_add, ← BitVec.add_assoc, add_size]
  rfl

theorem size_remove {r e : BitVec w} (h : r ≠ e) : size (r + 1) e + 1 = size r e := by
  have hpos : size r e ≠ 0 := fun hz => h (size_eq_zero.mp hz)
  have hlt := size_lt r e
  have hsucc : size r e - 1 + 1 = size r e := by omega
  have hsize : size (r + 1) e = size r e - 1 := by
    rw [size_eq_iff (by omega), BitVec.add_assoc]
    nth_rewrite 1 [← add_size r e, ← hsucc]
    rw [BitVec.ofNat_add, BitVec.add_comm (BitVec.ofNat w _)]
    rfl
  omega

/-! ## Slots -/

theorem slot_add (hN : N ∣ 2 ^ w) (r : BitVec w) (j : Nat) :
    (slot N (r + BitVec.ofNat w j)).val = (r.toNat + j) % N := by
  have hmod : (r.toNat + j % 2 ^ w) % 2 ^ w % N = (r.toNat + j) % N := by
    rw [Nat.mod_mod_of_dvd _ hN, Nat.add_mod, Nat.mod_mod_of_dvd _ hN, ← Nat.add_mod]
  simpa [slot, Fin.ofNat, BitVec.toNat_add] using hmod

/-- Fewer than `N` entries are in slots of their own. -/
theorem slot_ne (hN : N ∣ 2 ^ w) (r : BitVec w) {i j : Nat} (hi : i < N) (hj : j < N) (hij : i ≠ j) :
    slot N (r + BitVec.ofNat w i) ≠ slot N (r + BitVec.ofNat w j) := by
  intro h
  have hval : (r.toNat + i) % N = (r.toNat + j) % N := by
    rw [← slot_add hN, ← slot_add hN, h]
  exact hij ((Nat.ModEq.add_left_cancel' r.toNat hval).eq_of_lt_of_lt hi hj)

/-! ## Contents -/

@[simp] theorem contents_self (data : Fin N → α) (r : BitVec w) : contents data r r = [] := by
  simp [contents, size_eq_zero.mpr rfl]

/-- Storing an entry in a buffer that is not full appends it. -/
theorem contents_store (hN : N ∣ 2 ^ w) (data : Fin N → α) {r e : BitVec w} (x : α)
    (h : size r e < N) (hlt : size r e + 1 < 2 ^ w) :
    contents (Function.update data (slot N e) x) r (e + 1) = contents data r e ++ [x] := by
  rw [contents, size_store hlt, List.range_succ, List.map_append, contents]
  congr 1
  · apply List.map_congr_left
    intro j hj
    have hj : j < size r e := List.mem_range.mp hj
    have hne := slot_ne hN r (h.trans' hj) h hj.ne
    rw [add_size] at hne
    exact Function.update_of_ne hne ..
  · simp [add_size]

/-- The oldest entry is in the slot of the first counter. -/
theorem contents_remove (data : Fin N → α) {r e : BitVec w} (h : r ≠ e) :
    contents data r e = data (slot N r) :: contents data (r + 1) e := by
  rw [contents, ← size_remove h, List.range_succ_eq_map, List.map_cons, List.map_map]
  congr 1
  · simp
  · apply List.map_congr_left
    intro j _
    have hj : r + BitVec.ofNat w (j + 1) = r + 1 + BitVec.ofNat w j := by
      rw [BitVec.ofNat_add, BitVec.add_comm (BitVec.ofNat w j), ← BitVec.add_assoc]
      rfl
    simp [hj]

end RingBuffer
