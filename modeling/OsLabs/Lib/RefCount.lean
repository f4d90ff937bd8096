-- SUMMARY: Counting references: how many places of a finite set hold a given object, and how one write changes that number.
import Mathlib.Algebra.BigOperators.Group.Finset.Basic
import Mathlib.Data.Finset.Card
import Mathlib.Logic.Function.Basic

/-!
# Counting references

A *place* is anything that can hold a reference to an object: an entry of a table, a
variable. `refs P h a` is the number of places in `P` that hold `a` when `h` tells what
each place holds. A write to one place moves the count by at most one, and a count of
one means that nobody else holds the object. The counts of all objects add up to the
number of places in use.
-/

namespace RefCount

variable {ι α : Type} [DecidableEq α]

/-- The number of places of `P` that hold `a`. -/
def refs (P : Finset ι) (h : ι → Option α) (a : α) : Nat := (P.filter fun i => h i = some a).card

variable {P : Finset ι} {h h' : ι → Option α} {a : α} {i j : ι}

theorem refs_congr (hh : ∀ i ∈ P, h' i = h i) : refs P h' = refs P h := by
  funext a
  unfold refs
  congr 1
  exact Finset.filter_congr fun i hi => by rw [hh i hi]

theorem refs_pos : 0 < refs P h a ↔ ∃ i ∈ P, h i = some a := by
  simp [refs, Finset.card_pos, Finset.filter_nonempty_iff]

theorem refs_pos_of (hi : i ∈ P) (hia : h i = some a) : 0 < refs P h a :=
  refs_pos.mpr ⟨i, hi, hia⟩

/-- An object that is held once is held in one place. -/
theorem eq_of_refs_le_one (hone : refs P h a ≤ 1) (hi : i ∈ P) (hj : j ∈ P) (hia : h i = some a)
    (hja : h j = some a) : i = j :=
  Finset.card_le_one.mp hone i (by simp [hi, hia]) j (by simp [hj, hja])

theorem refs_update_of_notMem [DecidableEq ι] (hi : i ∉ P) (o : Option α) :
    refs P (Function.update h i o) = refs P h :=
  refs_congr fun _ hj => Function.update_of_ne (ne_of_mem_of_not_mem hj hi) ..

/-- Writing to one place. -/
theorem refs_update [DecidableEq ι] (hi : i ∈ P) (o : Option α) (a : α) :
    refs P (Function.update h i o) a + (if h i = some a then 1 else 0) =
      refs P h a + (if o = some a then 1 else 0) := by
  have hsplit : ∀ g : ι → Option α, refs P g a =
      refs (P.erase i) g a + (if g i = some a then 1 else 0) := by
    intro g
    unfold refs
    rw [← Finset.insert_erase hi, Finset.filter_insert, Finset.erase_insert_eq_erase,
      Finset.erase_idem]
    split
    · rw [Finset.card_insert_of_notMem (by simp)]
    · rfl
  rw [hsplit h, hsplit (Function.update h i o), Function.update_self,
    refs_update_of_notMem (Finset.notMem_erase i P)]
  omega

/-- The same for a table that differs in one place. -/
theorem refs_change [DecidableEq ι] (hi : i ∈ P) (hh : ∀ j, j ≠ i → h' j = h j) (a : α) :
    refs P h' a + (if h i = some a then 1 else 0) =
      refs P h a + (if h' i = some a then 1 else 0) := by
  have hupdate : h' = Function.update h i (h' i) := by
    funext j
    obtain rfl | hj := eq_or_ne j i
    · rw [Function.update_self]
    · rw [Function.update_of_ne hj, hh j hj]
  rw [hupdate, refs_update hi, Function.update_self]

/-- Weights that differ in one place. -/
theorem sum_change [DecidableEq ι] {g g' : ι → Nat} (hi : i ∈ P) (hg : ∀ j, j ≠ i → g' j = g j) :
    ∑ j ∈ P, g' j + g i = ∑ j ∈ P, g j + g' i := by
  have hrest : ∑ j ∈ P.erase i, g' j = ∑ j ∈ P.erase i, g j :=
    Finset.sum_congr rfl fun j hj => hg j (Finset.ne_of_mem_erase hj)
  rw [← Finset.add_sum_erase P g' hi, ← Finset.add_sum_erase P g hi, hrest]
  omega

/-- If all places that hold `a` differ under `key`, there are no more of them than keys. -/
theorem refs_le_card {κ : Type} (key : ι → κ) (K : Finset κ)
    (hkey : ∀ i ∈ P, h i = some a → key i ∈ K)
    (hinj : ∀ i ∈ P, ∀ j ∈ P, h i = some a → h j = some a → key i = key j → i = j) :
    refs P h a ≤ K.card := by
  refine Finset.card_le_card_of_injOn key ?_ ?_
  · intro i hi
    obtain ⟨hP, ha⟩ := Finset.mem_filter.mp hi
    exact hkey i hP ha
  · intro i hi j hj hij
    obtain ⟨hP, ha⟩ := Finset.mem_filter.mp hi
    obtain ⟨hP', ha'⟩ := Finset.mem_filter.mp hj
    exact hinj i hP j hP' ha ha' hij

/-- All references together: the places that hold anything. -/
theorem sum_refs {A : Finset α} (hA : ∀ i ∈ P, ∀ a, h i = some a → a ∈ A) :
    ∑ a ∈ A, refs P h a = (P.filter fun i => (h i).isSome).card := by
  have hmaps : ∀ i ∈ P.filter fun i => (h i).isSome, h i ∈ A.map .some := by
    intro i hi
    obtain ⟨hP, hsome⟩ := Finset.mem_filter.mp hi
    obtain ⟨a, ha⟩ := Option.isSome_iff_exists.mp hsome
    exact Finset.mem_map.mpr ⟨a, hA i hP a ha, ha.symm⟩
  rw [Finset.card_eq_sum_card_fiberwise hmaps, Finset.sum_map]
  refine Finset.sum_congr rfl fun a _ => ?_
  rw [Finset.filter_filter, refs]
  congr 1
  refine Finset.filter_congr fun i _ => ?_
  constructor
  · intro ha
    exact ⟨by simp [ha], ha⟩
  · exact And.right

end RefCount
