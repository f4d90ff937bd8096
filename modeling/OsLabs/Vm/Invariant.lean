-- SUMMARY: The invariant of user memory: every reference to a frame is counted, page table pages and writable pages are held once, and each primitive update keeps it.
import Mathlib.Data.Finset.Prod
import OsLabs.Lib.RefCount
import OsLabs.Vm.Ledger
import OsLabs.Vm.Pagetable

/-!
# The invariant of user memory

The references to a frame are the places of the page tables that hold it and the owners
in the kernel that do not belong to a page table: trapframes, kernel stacks, and the
local variables of a function that is running. `Inv κ s x` says that the allocator
accounts for exactly these, where `x f` is the number of other owners of `f`.

The page table code moves references between places and owners one at a time. The lemmas
of this file say for each such move under which condition it keeps the invariant.
-/

namespace Vm

open RefCount

/-! ## Places -/

/-- The number of pages of an address space below the trapframe. -/
@[irreducible] def UPAGES : Nat := TRAPFRAME / PGSIZE

/-- The number of frames below the end of RAM. -/
@[irreducible] def NFRAME : Nat := PHYSTOP / PGSIZE

inductive Kind
  | leaf
  | root
  | level1
  | level0
deriving DecidableEq

/-- An entry of a page table: its kind, the root frame, and its index. -/
abbrev Place := Kind × Nat × Nat

@[irreducible] def places : Finset Place :=
  {.leaf, .root, .level1, .level0} ×ˢ Finset.range NFRAME ×ˢ Finset.range UPAGES

@[simp] theorem mem_places {k : Kind} {r i : Nat} : (k, r, i) ∈ places ↔ r < NFRAME ∧ i < UPAGES := by
  rw [places, Finset.mem_product, Finset.mem_product, Finset.mem_range, Finset.mem_range]
  cases k <;> simp

theorem UPAGES_eq : UPAGES = 67108862 := by
  rw [UPAGES]
  decide

theorem NFRAME_eq : NFRAME = 557056 := by
  rw [NFRAME]
  decide

/-- The frame that an entry of the table `t` with root `r` refers to. -/
def Pagetable.holds (t : Pagetable) (r : Nat) : Kind → Nat → Option Nat
  | .leaf, v   => if (t.pte v).v then some (t.pte v).ppn else none
  | .root, i   => if i = 0 then some r else none
  | .level1, i => t.l1 i
  | .level0, j => t.l0 j

def Memory.holds (s : Memory) : Place → Option Nat
  | (k, r, i) => (s.pgtbl r).bind fun t => t.holds r k i

/-- The level-0 entry of page `v`, or an invalid one. -/
def Memory.pte (s : Memory) (r v : Nat) : Pte :=
  match s.pgtbl r with
  | some t => t.pte v
  | none   => Pte.zero

/-- The number of references to each frame, with `x` of them outside of page tables. -/
def Memory.total (s : Memory) (x : Nat → Nat) (f : Nat) : Nat := refs places s.holds f + x f

variable {κ : Version} {s s' : Memory} {x x' : Nat → Nat} {r f v : Nat} {t t' : Pagetable}

theorem pte_of_some (hr : s.pgtbl r = some t) : s.pte r v = t.pte v := by
  simp [Memory.pte, hr]

theorem live_of_valid (h : (s.pte r v).v = true) : ∃ t, s.pgtbl r = some t := by
  unfold Memory.pte at h
  split at h
  · exact ⟨_, by assumption⟩
  · simp [Pte.zero] at h

theorem holds_of_some (hr : s.pgtbl r = some t) (k : Kind) (i : Nat) :
    s.holds (k, r, i) = t.holds r k i := by
  simp [Memory.holds, hr]

theorem holds_leaf (s : Memory) (r v : Nat) :
    s.holds (.leaf, r, v) = if (s.pte r v).v then some (s.pte r v).ppn else none := by
  cases hr : s.pgtbl r with
  | none => simp [Memory.holds, Memory.pte, hr, Pte.zero]
  | some t => simp [Memory.holds, Memory.pte, hr, Pagetable.holds]

theorem holds_congr (h : s'.pgtbl = s.pgtbl) : s'.holds = s.holds := by
  funext ⟨k, r, i⟩
  simp [Memory.holds, h]

theorem pte_congr (h : s'.pgtbl = s.pgtbl) (r v : Nat) : s'.pte r v = s.pte r v := by
  simp [Memory.pte, h]

theorem total_congr (h : s'.pgtbl = s.pgtbl) : s'.total x = s.total x := by
  funext f
  simp [Memory.total, holds_congr h]

theorem total_inc (s : Memory) (x : Nat → Nat) (f : Nat) :
    s.total (inc x f) = inc (s.total x) f := by
  funext g
  rw [inc_apply, Memory.total, inc_apply, ← Nat.add_assoc]
  rfl

theorem pte_setTable_self (s : Memory) (r : Nat) (t' : Pagetable) (v : Nat) :
    (s.setTable r (some t')).pte r v = t'.pte v := by
  simp [Memory.pte, Memory.setTable]

theorem pte_setTable_of_ne {r' : Nat} (h : r' ≠ r) (o : Option Pagetable) (v : Nat) :
    (s.setTable r o).pte r' v = s.pte r' v := by
  simp [Memory.pte, Memory.setTable, h]

/-! ## Moves -/

/-- Replacing a table by one that differs in one entry. -/
theorem holds_setTable (hr : s.pgtbl r = some t) (k : Kind) (i : Nat)
    (hsame : ∀ k' i', (k', i') ≠ (k, i) → t'.holds r k' i' = t.holds r k' i') :
    (s.setTable r (some t')).holds = Function.update s.holds (k, r, i) (t'.holds r k i) := by
  funext ⟨k', r', i'⟩
  by_cases hr' : r' = r
  · subst hr'
    by_cases hki : (k', i') = (k, i)
    · cases hki
      simp [Memory.holds, Memory.setTable]
    · rw [Function.update_of_ne, holds_of_some hr]
      · simp [Memory.holds, Memory.setTable, hsame k' i' hki]
      · intro heq
        cases heq
        exact hki rfl
  · rw [Function.update_of_ne (by simp [hr'])]
    simp [Memory.holds, Memory.setTable, hr']

/-- A place takes over the reference of an owner. -/
theorem total_take {p : Place} (hp : p ∈ places) (hs : s.holds p = none)
    (hs' : s'.holds = Function.update s.holds p (some f)) : s'.total x = s.total (inc x f) := by
  funext g
  have h := refs_update (h := s.holds) hp (some f) g
  simp only [hs, reduceCtorEq, if_false, Option.some.injEq] at h
  rw [Memory.total, Memory.total, hs', inc_apply]
  omega

/-- A place hands its reference to an owner. -/
theorem total_give {p : Place} (hp : p ∈ places) (hs : s.holds p = some f)
    (hs' : s'.holds = Function.update s.holds p none) : s'.total (inc x f) = s.total x := by
  funext g
  have h := refs_update (h := s.holds) hp none g
  simp only [hs, reduceCtorEq, if_false, Option.some.injEq] at h
  rw [Memory.total, Memory.total, hs', inc_apply]
  omega

theorem total_keep (p : Place) (hs' : s'.holds = Function.update s.holds p (s.holds p)) :
    s'.total x = s.total x := by
  rw [Function.update_eq_self] at hs'
  funext g
  simp [Memory.total, hs']

/-- An entry that is not counted. -/
theorem total_uncounted {p : Place} {o : Option Nat} (hp : p ∉ places)
    (hs' : s'.holds = Function.update s.holds p o) : s'.total x = s.total x := by
  funext g
  simp [Memory.total, hs', refs_update_of_notMem hp]

/-! ## Frames with one reference -/

theorem holds_leaf_of_valid (hval : (s.pte r v).v = true) :
    s.holds (.leaf, r, v) = some (s.pte r v).ppn := by
  rw [holds_leaf, if_pos hval]

theorem total_ne_zero {p : Place} (hp : p ∈ places) (hh : s.holds p = some f) :
    s.total x f ≠ 0 := by
  have := refs_pos_of hp hh
  unfold Memory.total
  omega

/-- A frame with one reference has no second one. -/
theorem unique_of_total_one (hone : s.total x f = 1) {p q : Place} (hp : p ∈ places)
    (hq : q ∈ places) (hpf : s.holds p = some f) (hqf : s.holds q = some f) : q = p := by
  have hle : refs places s.holds f ≤ 1 := by
    unfold Memory.total at hone
    omega
  exact eq_of_refs_le_one hle hq hp hqf hpf

theorem owner_of_total_one (hone : s.total x f = 1) {p : Place} (hp : p ∈ places)
    (hpf : s.holds p = some f) : x f = 0 := by
  have := refs_pos_of hp hpf
  unfold Memory.total at hone
  omega

/-- A frame that is held by its owner alone is in no page table. -/
theorem not_held_of_owned (hone : s.total x f = 1) (hx : x f ≠ 0) {p : Place} (hp : p ∈ places) :
    s.holds p ≠ some f :=
  fun hpf => hx (owner_of_total_one hone hp hpf)

/-! ## The invariant -/

/-- Every page of the table that is in use is linked. -/
structure Shape (t : Pagetable) : Prop where
  l1_lt : ∀ i f, t.l1 i = some f → i < 256
  l0_up : ∀ j f, t.l0 j = some f → (t.l1 (j / 512)).isSome
  pte_up : ∀ v, (t.pte v).v = true → (t.l0 (v / 512)).isSome

/-- No level-0 page is linked below a missing level-1 page. -/
theorem Shape.l0_eq_none (h : Shape t) {j : Nat} (hnone : t.l1 (j / 512) = none) :
    t.l0 j = none := by
  cases hl : t.l0 j with
  | none => rfl
  | some g => simpa [hnone] using h.l0_up j g hl

theorem Shape.invalid (h : Shape t) (hnone : t.l0 (v / 512) = none) : (t.pte v).v = false := by
  by_contra hval
  simpa [hnone] using h.pte_up v (by simpa using hval)

theorem Shape.link1_l0 (h : Shape t) {i : Nat} (hnone : t.l1 i = none) :
    (t.link1 i f).l0 = t.l0 := by
  funext j
  simp only [Pagetable.link1]
  split
  · rename_i hj
    exact (h.l0_eq_none (hj ▸ hnone)).symm
  · rfl

theorem Shape.link1 (h : Shape t) {i : Nat} (hi : i < 256) (hnone : t.l1 i = none) :
    Shape (t.link1 i f) := by
  refine ⟨?_, ?_, ?_⟩
  · intro i' g hg
    by_cases hii : i' = i
    · rwa [hii]
    · exact h.l1_lt i' g (by simpa [Pagetable.link1, hii] using hg)
  · intro j g hg
    rw [h.link1_l0 hnone] at hg
    by_cases hj : j / 512 = i
    · simp [Pagetable.link1, hj]
    · simpa [Pagetable.link1, hj] using h.l0_up j g hg
  · intro w hw
    rw [h.link1_l0 hnone]
    exact h.pte_up w hw

theorem link0_pte {j : Nat} (hval : ((t.link0 j f).pte v).v = true) :
    v / 512 ≠ j ∧ (t.link0 j f).pte v = t.pte v := by
  by_cases hv : v / 512 = j
  · simp [Pagetable.link0, hv, Pte.zero] at hval
  · exact ⟨hv, by simp [Pagetable.link0, hv]⟩

theorem Shape.link0 (h : Shape t) {j : Nat} (hup : (t.l1 (j / 512)).isSome) :
    Shape (t.link0 j f) := by
  refine ⟨h.l1_lt, ?_, ?_⟩
  · intro j' g hg
    by_cases hjj : j' = j
    · rwa [hjj]
    · exact h.l0_up j' g (by simpa [Pagetable.link0, hjj] using hg)
  · intro w hw
    obtain ⟨hwj, hpte⟩ := link0_pte hw
    rw [hpte] at hw
    simpa [Pagetable.link0, hwj] using h.pte_up w hw

theorem Shape.setPte (h : Shape t) {p : Pte} (hup : p.v = true → (t.l0 (v / 512)).isSome) :
    Shape { t with pte := Function.update t.pte v p } := by
  refine ⟨h.l1_lt, h.l0_up, ?_⟩
  intro w hw
  by_cases hwv : w = v
  · subst hwv
    exact hup (by simpa using hw)
  · exact h.pte_up w (by simpa [hwv] using hw)

/-- A valid user entry: it is readable, and writable only if its frame has one
    reference and it is not marked copy-on-write. -/
structure LeafOk (κ : Version) (n : Nat → Nat) (p : Pte) : Prop where
  readable : p.r = true
  write : p.w = true → p.rsw = false ∧ n p.ppn = 1
  unmarked : κ = .unpatched → p.rsw = false

structure Inv [Layout] (κ : Version) (s : Memory) (x : Nat → Nat) : Prop where
  ledger : Ledger κ s (s.total x)
  root_lt : ∀ r t, s.pgtbl r = some t → r < NFRAME
  shape : ∀ r t, s.pgtbl r = some t → Shape t
  /-- A frame of a page table has no other use. -/
  table : ∀ k r i f, k ≠ .leaf → s.holds (k, r, i) = some f → s.total x f = 1
  leaf : ∀ r, ∀ v < UPAGES, (s.pte r v).v = true → LeafOk κ (s.total x) (s.pte r v)
  /-- A frame is mapped at the same page in all address spaces. -/
  same : ∀ r, ∀ v < UPAGES, ∀ r', ∀ v' < UPAGES, (s.pte r v).v = true → (s.pte r' v').v = true →
    (s.pte r' v').ppn = (s.pte r v).ppn → v' = v

variable [Layout]

/-- References have moved between entries and owners. -/
structure Moved (κ : Version) (s : Memory) (x : Nat → Nat) (s' : Memory) (x' : Nat → Nat) :
    Prop where
  inv : Inv κ s' x'
  total : s'.total x' = s.total x

/-! ## Consequences -/

/-- The entries in use are counted. -/
theorem Inv.place_mem (h : Inv κ s x) {k : Kind} {i : Nat} (hh : s.holds (k, r, i) = some f)
    (hi : k = .leaf → i < UPAGES) : (k, r, i) ∈ places := by
  obtain ⟨t, hr, ht⟩ := Option.bind_eq_some_iff.mp hh
  have hshape := h.shape r t hr
  rw [mem_places, UPAGES_eq]
  refine ⟨h.root_lt r t hr, ?_⟩
  cases k with
  | leaf => exact UPAGES_eq ▸ hi rfl
  | root =>
      have : i = 0 := by
        by_contra hne
        simp [Pagetable.holds, hne] at ht
      omega
  | level1 =>
      have := hshape.l1_lt i f ht
      omega
  | level0 =>
      obtain ⟨g, hg⟩ := Option.isSome_iff_exists.mp (hshape.l0_up i f ht)
      have := hshape.l1_lt _ g hg
      omega

theorem Inv.leaf_mem (h : Inv κ s x) (hv : v < UPAGES) (hval : (s.pte r v).v = true) :
    (.leaf, r, v) ∈ places := by
  obtain ⟨t, hr⟩ := live_of_valid hval
  exact mem_places.mpr ⟨h.root_lt r t hr, hv⟩

/-- A mapped frame has a reference. -/
theorem Inv.leaf_total (h : Inv κ s x) (hv : v < UPAGES) (hval : (s.pte r v).v = true) :
    s.total x (s.pte r v).ppn ≠ 0 :=
  total_ne_zero (h.leaf_mem hv hval) (holds_leaf_of_valid hval)

/-! ## Updates of the ledger -/

/-- A place that must be the only reference to its frame. -/
def Memory.Exclusive (s : Memory) : Place → Prop
  | (.leaf, r, v) => (s.pte r v).w = true
  | _             => True

/-- The allocator changed, and the page tables did not. -/
theorem Inv.recount (h : Inv κ s x) (hpt : s'.pgtbl = s.pgtbl) (hled : Ledger κ s' (s.total x'))
    (hone : ∀ p ∈ places, ∀ f, s.holds p = some f → s.Exclusive p → s.total x f = 1 →
      s.total x' f = 1) : Inv κ s' x' where
  ledger := by rwa [total_congr hpt]
  root_lt r t hr := h.root_lt r t (hpt ▸ hr)
  shape r t hr := h.shape r t (hpt ▸ hr)
  table k r i f hk hh := by
    rw [holds_congr hpt] at hh
    rw [total_congr hpt]
    refine hone _ (h.place_mem hh (absurd · hk)) f hh ?_ (h.table k r i f hk hh)
    cases k <;> first | exact absurd rfl hk | trivial
  leaf r v hv hval := by
    rw [pte_congr hpt] at hval ⊢
    rw [total_congr hpt]
    have hok := h.leaf r v hv hval
    refine ⟨hok.readable, fun hw => ⟨(hok.write hw).1, ?_⟩, hok.unmarked⟩
    exact hone _ (h.leaf_mem hv hval) _ (holds_leaf_of_valid hval) hw (hok.write hw).2
  same r v hv r' v' hv' hval hval' hppn := by
    simp only [pte_congr hpt] at hval hval' hppn
    exact h.same r v hv r' v' hv' hval hval' hppn

/-- A frame without references got its first owner. -/
theorem Inv.fresh (h : Inv κ s x) (hpt : s'.pgtbl = s.pgtbl)
    (hled : Ledger κ s' (inc (s.total x) f)) (hzero : s.total x f = 0) : Inv κ s' (inc x f) := by
  apply h.recount hpt (total_inc s x f ▸ hled)
  intro p _ g _ _ hone
  rw [total_inc, inc_of_ne, hone]
  rintro rfl
  omega

/-- An owner gave up its reference. -/
theorem Inv.release (h : Inv κ s (inc x f)) (hpt : s'.pgtbl = s.pgtbl)
    (hled : Ledger κ s' (s.total x)) : Inv κ s' x := by
  apply h.recount hpt hled
  intro p hp g hpg _ hone
  have hgf : g ≠ f := by
    rintro rfl
    exact absurd (owner_of_total_one hone hp hpg) (by simp)
  rwa [total_inc, inc_of_ne hgf] at hone

/-- A frame that is mapped read-only got another owner. -/
theorem Inv.share (h : Inv .cow s x) (hv : v < UPAGES) (hval : (s.pte r v).v = true)
    (hw : (s.pte r v).w = false) (hf : (s.pte r v).ppn = f) :
    Inv .cow (s.setRefcnt f (s.refcnt f + 1)) (inc x f) := by
  have hmem := h.leaf_mem hv hval
  have hheld : s.holds (.leaf, r, v) = some f := by rw [holds_leaf_of_valid hval, hf]
  refine h.recount rfl (total_inc s x f ▸ h.ledger.share (total_ne_zero hmem hheld)) ?_
  intro p hp g hpg hex hone
  have hgf : g ≠ f := by
    rintro rfl
    -- The only place that holds the frame is the read-only leaf.
    have hpe := unique_of_total_one hone hmem hp hheld hpg
    subst hpe
    rw [Memory.Exclusive, hw] at hex
    cases hex
  rwa [total_inc, inc_of_ne hgf]

/-! ## Updates of a page table -/

/-- A page table changed, without a change in the number of references. -/
theorem Inv.setTable (h : Inv κ s x) (hr : s.pgtbl r = some t)
    (htot : (s.setTable r (some t')).total x' = s.total x) (hshape : Shape t')
    (htab : ∀ k i f, k ≠ .leaf → t'.holds r k i = some f → s.total x f = 1)
    (hleaf : ∀ v < UPAGES, (t'.pte v).v = true → LeafOk κ (s.total x) (t'.pte v))
    (hsame : ∀ v < UPAGES, (t'.pte v).v = true → ∀ r', ∀ v' < UPAGES,
      ((s.setTable r (some t')).pte r' v').v = true →
      ((s.setTable r (some t')).pte r' v').ppn = (t'.pte v).ppn → v' = v) :
    Inv κ (s.setTable r (some t')) x' where
  ledger := by
    rw [htot]
    exact h.ledger.congr rfl rfl
  root_lt r' t'' hr' := by
    by_cases hrr : r' = r
    · subst hrr
      exact h.root_lt r' t hr
    · simp only [Memory.setTable, Function.update_of_ne hrr] at hr'
      exact h.root_lt r' t'' hr'
  shape r' t'' hr' := by
    by_cases hrr : r' = r
    · subst hrr
      simp only [Memory.setTable, Function.update_self] at hr'
      cases hr'
      exact hshape
    · simp only [Memory.setTable, Function.update_of_ne hrr] at hr'
      exact h.shape r' t'' hr'
  table k r' i f hk hh := by
    rw [htot]
    by_cases hrr : r' = r
    · subst hrr
      exact htab k i f hk (by simpa [Memory.holds, Memory.setTable] using hh)
    · refine h.table k r' i f hk ?_
      simpa [Memory.holds, Memory.setTable, hrr] using hh
  leaf r' v hv hval := by
    rw [htot]
    by_cases hrr : r' = r
    · subst hrr
      rw [pte_setTable_self] at hval ⊢
      exact hleaf v hv hval
    · rw [pte_setTable_of_ne hrr] at hval ⊢
      exact h.leaf r' v hv hval
  same r₁ v hv r₂ v' hv' hval hval' hppn := by
    by_cases h₁ : r₁ = r
    · subst h₁
      rw [pte_setTable_self] at hval
      rw [pte_setTable_self s r₁ t' v] at hppn
      exact hsame v hv hval r₂ v' hv' hval' hppn
    · by_cases h₂ : r₂ = r
      · subst h₂
        rw [pte_setTable_self] at hval'
        rw [pte_setTable_self s r₂ t' v'] at hppn
        exact (hsame v' hv' hval' r₁ v hv hval hppn.symm).symm
      · rw [pte_setTable_of_ne h₁] at hval hppn
        rw [pte_setTable_of_ne h₂] at hval' hppn
        exact h.same r₁ v hv r₂ v' hv' hval hval' hppn

/-! ## Leaf entries -/

omit [Layout] in
theorem setPte_eq (hr : s.pgtbl r = some t) (v : Nat) (p : Pte) :
    s.setPte r v p = s.setTable r (some { t with pte := Function.update t.pte v p }) := by
  simp [Memory.setPte, Memory.updateTable, hr]

omit [Layout] in
theorem pte_setPte_self (hr : s.pgtbl r = some t) (v : Nat) (p : Pte) :
    (s.setPte r v p).pte r v = p := by
  rw [setPte_eq hr, pte_setTable_self]
  exact Function.update_self ..

omit [Layout] in
theorem pte_setPte_of_ne {w : Nat} (hr : s.pgtbl r = some t) (hne : w ≠ v) (p : Pte) :
    (s.setPte r v p).pte r w = s.pte r w := by
  rw [setPte_eq hr, pte_setTable_self, pte_of_some hr]
  exact Function.update_of_ne hne ..

omit [Layout] in
theorem setPte_live (hr : s.pgtbl r = some t) (v : Nat) (p : Pte) :
    (s.setPte r v p).pgtbl r = some { t with pte := Function.update t.pte v p } := by
  rw [setPte_eq hr]
  simp [Memory.setTable]

omit [Layout] in
theorem holds_setPte (hr : s.pgtbl r = some t) (v : Nat) (p : Pte) :
    (s.setPte r v p).holds =
      Function.update s.holds (.leaf, r, v) (if p.v then some p.ppn else none) := by
  rw [setPte_eq hr, holds_setTable hr .leaf v]
  · simp [Pagetable.holds]
  · intro k i hne
    cases k with
    | leaf =>
        have hi : i ≠ v := fun heq => hne (by rw [heq])
        simp [Pagetable.holds, hi]
    | root => rfl
    | level1 => rfl
    | level0 => rfl

theorem Inv.setPte (h : Inv κ s x) (hr : s.pgtbl r = some t) (p : Pte)
    (htot : (s.setPte r v p).total x' = s.total x)
    (hup : p.v = true → (t.l0 (v / 512)).isSome)
    (hok : v < UPAGES → p.v = true → LeafOk κ (s.total x) p)
    (hsame : v < UPAGES → p.v = true → ∀ r', ∀ v' < UPAGES, (s.pte r' v').v = true →
      (s.pte r' v').ppn = p.ppn → v' = v) : Inv κ (s.setPte r v p) x' := by
  have hshape := h.shape r t hr
  rw [setPte_eq hr] at htot ⊢
  refine h.setTable hr htot (hshape.setPte hup) ?_ ?_ ?_
  · intro k i f hk hh
    refine h.table k r i f hk ?_
    rw [holds_of_some hr]
    cases k <;> first | exact absurd rfl hk | exact hh
  · intro w hw hval
    by_cases hwv : w = v
    · subst hwv
      simp only [Function.update_self] at hval ⊢
      exact hok hw hval
    · simp only [Function.update_of_ne hwv] at hval ⊢
      rw [← pte_of_some hr] at hval ⊢
      exact h.leaf r w hw hval
  · intro w hw hval r' w' hw' hval' hppn
    -- Either entry may be the one that was written.
    have hpte : ∀ r₁ w₁, (r₁, w₁) ≠ (r, v) →
        (s.setTable r (some { t with pte := Function.update t.pte v p })).pte r₁ w₁ =
          s.pte r₁ w₁ := by
      intro r₁ w₁ hne
      by_cases hr₁ : r₁ = r
      · subst hr₁
        rw [pte_setTable_self, pte_of_some hr]
        exact Function.update_of_ne (fun heq => hne (by rw [heq])) ..
      · rw [pte_setTable_of_ne hr₁]
    by_cases hwv : w = v
    · subst hwv
      simp only [Function.update_self] at hval hppn
      by_cases hne : (r', w') = (r, w)
      · exact congrArg Prod.snd hne
      · rw [hpte r' w' hne] at hval' hppn
        exact hsame hw hval r' w' hw' hval' hppn
    · simp only [Function.update_of_ne hwv] at hval hppn
      rw [← pte_of_some hr] at hval hppn
      by_cases hne : (r', w') = (r, v)
      · cases hne
        rw [pte_setTable_self] at hval' hppn
        simp only [Function.update_self] at hval' hppn
        exact (hsame hw' hval' r w hw hval hppn.symm).symm
      · rw [hpte r' w' hne] at hval' hppn
        exact h.same r w hw r' w' hw' hval hval' hppn

/-- Map a frame: the entry takes over the reference of an owner. -/
theorem Inv.map (h : Inv κ s (inc x f)) (hr : s.pgtbl r = some t) (hv : v < UPAGES)
    (hinv : (t.pte v).v = false) (hup : (t.l0 (v / 512)).isSome) {p : Pte} (hp : p.v = true)
    (hf : p.ppn = f) (hok : LeafOk κ (s.total (inc x f)) p)
    (hsame : ∀ r', ∀ v' < UPAGES, (s.pte r' v').v = true → (s.pte r' v').ppn = f → v' = v) :
    Moved κ s (inc x f) (s.setPte r v p) x := by
  have hmem : (.leaf, r, v) ∈ places := mem_places.mpr ⟨h.root_lt r t hr, hv⟩
  have hnone : s.holds (.leaf, r, v) = none := by simp [holds_of_some hr, Pagetable.holds, hinv]
  have htot : (s.setPte r v p).total x = s.total (inc x f) := by
    refine total_take hmem hnone ?_
    rw [holds_setPte hr, if_pos hp, hf]
  exact ⟨h.setPte hr p htot (fun _ => hup) (fun _ _ => hok) fun _ _ => hf ▸ hsame, htot⟩

/-- Make an entry invalid: its reference gets an owner. -/
theorem Inv.unmap (h : Inv κ s x) (hr : s.pgtbl r = some t) (hv : v < UPAGES)
    (hval : (t.pte v).v = true) {p : Pte} (hp : p.v = false) :
    Moved κ s x (s.setPte r v p) (inc x (t.pte v).ppn) := by
  have hmem : (.leaf, r, v) ∈ places := mem_places.mpr ⟨h.root_lt r t hr, hv⟩
  have hheld : s.holds (.leaf, r, v) = some (t.pte v).ppn := by
    simp [holds_of_some hr, Pagetable.holds, hval]
  have htot : (s.setPte r v p).total (inc x (t.pte v).ppn) = s.total x := by
    refine total_give hmem hheld ?_
    rw [holds_setPte hr, hp]
    rfl
  exact ⟨h.setPte hr p htot (by simp [hp]) (by simp [hp]) (by simp [hp]), htot⟩

/-- Change the flags of an entry. -/
theorem Inv.reflag (h : Inv κ s x) (hr : s.pgtbl r = some t) (hv : v < UPAGES)
    (hval : (t.pte v).v = true) {p : Pte} (hp : p.v = true) (hppn : p.ppn = (t.pte v).ppn)
    (hok : LeafOk κ (s.total x) p) : Moved κ s x (s.setPte r v p) x := by
  have hheld : s.holds (.leaf, r, v) = some (t.pte v).ppn := by
    simp [holds_of_some hr, Pagetable.holds, hval]
  have htot : (s.setPte r v p).total x = s.total x := by
    refine total_keep (.leaf, r, v) ?_
    rw [holds_setPte hr, if_pos hp, hheld, hppn]
  refine ⟨h.setPte hr p htot (fun _ => (h.shape r t hr).pte_up v hval) (fun _ _ => hok) ?_, htot⟩
  intro _ _ r' v' hv' hval' hppn'
  rw [← pte_of_some hr] at hval hppn
  exact h.same r v hv r' v' hv' hval hval' (hppn'.trans hppn)

/-- Entries above the user pages are not counted. -/
theorem Inv.setTop (h : Inv κ s x) (hr : s.pgtbl r = some t) (hv : UPAGES ≤ v) {p : Pte}
    (hup : p.v = true → (t.l0 (v / 512)).isSome) : Moved κ s x (s.setPte r v p) x := by
  have htot : (s.setPte r v p).total x = s.total x := by
    refine total_uncounted ?_ (holds_setPte hr v p)
    rw [mem_places]
    omega
  refine ⟨h.setPte hr p htot hup ?_ ?_, htot⟩
  · exact fun hlt => absurd hlt (by omega)
  · exact fun hlt => absurd hlt (by omega)

/-! ## Pages of a page table -/

/-- A change of the upper levels makes no entry valid. -/
theorem Inv.setUpper (h : Inv κ s x) (hr : s.pgtbl r = some t)
    (hpte : ∀ v, (t'.pte v).v = true → t'.pte v = t.pte v)
    (htot : (s.setTable r (some t')).total x' = s.total x) (hshape : Shape t')
    (htab : ∀ k i f, k ≠ .leaf → t'.holds r k i = some f → s.total x f = 1) :
    Inv κ (s.setTable r (some t')) x' := by
  have hptes : ∀ r' v', ((s.setTable r (some t')).pte r' v').v = true →
      (s.setTable r (some t')).pte r' v' = s.pte r' v' := by
    intro r' v' hval
    by_cases hrr : r' = r
    · subst hrr
      rw [pte_setTable_self] at hval ⊢
      rw [pte_of_some hr, hpte v' hval]
    · rw [pte_setTable_of_ne hrr]
  refine h.setTable hr htot hshape htab ?_ ?_
  · intro w hw hval
    have heq := hpte w hval
    rw [heq, ← pte_of_some hr] at hval ⊢
    exact h.leaf r w hw hval
  · intro w hw hval r' w' hw' hval' hppn
    have heq := hpte w hval
    have heq' := hptes r' w' hval'
    rw [heq'] at hval' hppn
    rw [heq, ← pte_of_some hr] at hval hppn
    exact h.same r w hw r' w' hw' hval hval' hppn

/-- A change of one entry of the upper levels. -/
theorem Inv.setEntry (h : Inv κ s x) (hr : s.pgtbl r = some t) {k : Kind} {i : Nat}
    {o : Option Nat} (hpte : ∀ v, (t'.pte v).v = true → t'.pte v = t.pte v)
    (hnew : t'.holds r k i = o)
    (hsame : ∀ k' i', (k', i') ≠ (k, i) → t'.holds r k' i' = t.holds r k' i')
    (htot : (s.setTable r (some t')).holds = Function.update s.holds (k, r, i) o →
      (s.setTable r (some t')).total x' = s.total x)
    (hone : ∀ f, o = some f → s.total x f = 1) (hshape : Shape t') :
    Moved κ s x (s.setTable r (some t')) x' := by
  have htot' := htot (hnew ▸ holds_setTable hr k i hsame)
  refine ⟨h.setUpper hr hpte htot' hshape ?_, htot'⟩
  intro k' i' f hk hf
  by_cases hne : (k', i') = (k, i)
  · cases hne
    exact hone f (hnew ▸ hf)
  · rw [hsame k' i' hne, ← holds_of_some hr] at hf
    exact h.table k' r i' f hk hf

theorem Inv.link1 (h : Inv κ s (inc x f)) (hr : s.pgtbl r = some t) {i : Nat} (hi : i < 256)
    (hnone : t.l1 i = none) (hone : s.total (inc x f) f = 1) :
    Moved κ s (inc x f) (s.setTable r (some (t.link1 i f))) x := by
  have hshape := h.shape r t hr
  have hnew : (t.link1 i f).holds r .level1 i = some f := by
    simp [Pagetable.holds, Pagetable.link1]
  have hmem : (.level1, r, i) ∈ places := by
    rw [mem_places, UPAGES_eq]
    exact ⟨h.root_lt r t hr, by omega⟩
  refine h.setEntry hr (fun _ _ => rfl) hnew ?_ (fun hh => total_take hmem ?_ hh) ?_
    (hshape.link1 hi hnone)
  · intro k' i' hne
    cases k' with
    | level1 => exact Function.update_of_ne (fun heq => hne (by rw [heq])) ..
    | level0 => exact congrFun (hshape.link1_l0 hnone) i'
    | leaf => rfl
    | root => rfl
  · rw [holds_of_some hr]
    exact hnone
  · intro g hg
    cases hg
    exact hone

theorem Inv.link0 (h : Inv κ s (inc x f)) (hr : s.pgtbl r = some t) {j : Nat}
    (hup : (t.l1 (j / 512)).isSome) (hnone : t.l0 j = none) (hone : s.total (inc x f) f = 1) :
    Moved κ s (inc x f) (s.setTable r (some (t.link0 j f))) x := by
  have hshape := h.shape r t hr
  have hinv : ∀ v, v / 512 = j → (t.pte v).v = false :=
    fun v hv => hshape.invalid (hv ▸ hnone)
  have hnew : (t.link0 j f).holds r .level0 j = some f := by
    simp [Pagetable.holds, Pagetable.link0]
  have hmem : (.level0, r, j) ∈ places := by
    obtain ⟨g, hg⟩ := Option.isSome_iff_exists.mp hup
    have := hshape.l1_lt _ g hg
    rw [mem_places, UPAGES_eq]
    exact ⟨h.root_lt r t hr, by omega⟩
  refine h.setEntry hr (fun v hval => (link0_pte hval).2) hnew ?_
    (fun hh => total_take hmem ?_ hh) ?_ (hshape.link0 hup)
  · intro k' i' hne
    cases k' with
    | level0 => exact Function.update_of_ne (fun heq => hne (by rw [heq])) ..
    | leaf =>
        by_cases hv : i' / 512 = j
        · simp [Pagetable.holds, Pagetable.link0, hv, Pte.zero, hinv i' hv]
        · simp [Pagetable.holds, Pagetable.link0, hv]
    | level1 => rfl
    | root => rfl
  · rw [holds_of_some hr]
    exact hnone
  · intro g hg
    cases hg
    exact hone

/-- Unlink a level-0 page without valid entries. -/
theorem Inv.unlink0 (h : Inv κ s x) (hr : s.pgtbl r = some t) {j : Nat} (hj : t.l0 j = some f)
    (hinv : ∀ v, v / 512 = j → (t.pte v).v = false) :
    Moved κ s x (s.setTable r (some { t with l0 := Function.update t.l0 j none })) (inc x f) := by
  have hshape := h.shape r t hr
  have hheld : s.holds (.level0, r, j) = some f := by rw [holds_of_some hr]; exact hj
  have hnew : Pagetable.holds { t with l0 := Function.update t.l0 j none } r .level0 j = none := by
    simp [Pagetable.holds]
  refine h.setEntry hr (fun _ _ => rfl) hnew ?_
    (fun hh => total_give (h.place_mem hheld (by simp)) hheld hh) (by simp)
    ⟨hshape.l1_lt, ?_, ?_⟩
  · intro k' i' hne
    cases k' with
    | level0 => exact Function.update_of_ne (fun heq => hne (by rw [heq])) ..
    | leaf => rfl
    | level1 => rfl
    | root => rfl
  · intro j' g hg
    by_cases hjj : j' = j
    · simp [hjj] at hg
    · exact hshape.l0_up j' g (by simpa [hjj] using hg)
  · intro w hw
    by_cases hwj : w / 512 = j
    · simp [hinv w hwj] at hw
    · simpa [hwj] using hshape.pte_up w hw

/-- Unlink a level-1 page without level-0 pages. -/
theorem Inv.unlink1 (h : Inv κ s x) (hr : s.pgtbl r = some t) {i : Nat} (hi : t.l1 i = some f)
    (hnone : ∀ j, j / 512 = i → t.l0 j = none) :
    Moved κ s x (s.setTable r (some { t with l1 := Function.update t.l1 i none })) (inc x f) := by
  have hshape := h.shape r t hr
  have hheld : s.holds (.level1, r, i) = some f := by rw [holds_of_some hr]; exact hi
  have hnew : Pagetable.holds { t with l1 := Function.update t.l1 i none } r .level1 i = none := by
    simp [Pagetable.holds]
  refine h.setEntry hr (fun _ _ => rfl) hnew ?_
    (fun hh => total_give (h.place_mem hheld (by simp)) hheld hh) (by simp)
    ⟨?_, ?_, hshape.pte_up⟩
  · intro k' i' hne
    cases k' with
    | level1 => exact Function.update_of_ne (fun heq => hne (by rw [heq])) ..
    | leaf => rfl
    | level0 => rfl
    | root => rfl
  · intro i' g hg
    by_cases hii : i' = i
    · simp [hii] at hg
    · exact hshape.l1_lt i' g (by simpa [hii] using hg)
  · intro j g hg
    by_cases hji : j / 512 = i
    · simp [hnone j hji] at hg
    · simpa [hji] using hshape.l0_up j g hg

/-! ## Page tables -/

omit [Layout] in
/-- An update at the root place of a frame that has no valid entries. -/
theorem holds_root {o : Option Pagetable} {u : Option Nat}
    (hold : ∀ k i, (k, i) ≠ (Kind.root, 0) → s.holds (k, r, i) = none)
    (hnew : ∀ k i, (o.bind fun t => t.holds r k i) = if (k, i) = (.root, 0) then u else none) :
    (s.setTable r o).holds = Function.update s.holds (.root, r, 0) u := by
  funext ⟨k, r', i⟩
  by_cases hr : r' = r
  · subst hr
    have hleft : (s.setTable r' o).holds (k, r', i) = if (k, i) = (.root, 0) then u else none := by
      rw [← hnew k i]
      simp [Memory.holds, Memory.setTable]
    rw [hleft]
    split
    · rename_i heq
      cases heq
      rw [Function.update_self]
    · rename_i hne
      rw [Function.update_of_ne, hold k i hne]
      intro heq
      cases heq
      exact hne rfl
  · rw [Function.update_of_ne (by simp [hr])]
    simp [Memory.holds, Memory.setTable, hr]

/-- The frame of a new page table is not a page table yet. -/
theorem Inv.not_root (h : Inv κ s (inc x f)) (hone : s.total (inc x f) f = 1) :
    s.pgtbl f = none := by
  cases hf : s.pgtbl f with
  | none => rfl
  | some t =>
      have hheld : s.holds (.root, f, 0) = some f := by simp [Memory.holds, hf, Pagetable.holds]
      have := owner_of_total_one hone (h.place_mem hheld (by simp)) hheld
      simp at this

theorem Inv.newRoot (h : Inv κ s (inc x f)) (hone : s.total (inc x f) f = 1) :
    Moved κ s (inc x f) (s.setTable f (some Pagetable.empty)) x := by
  have hnone := h.not_root hone
  have hlt : f < NFRAME := by
    have := (managed_iff.mp (h.ledger.inUse f (by omega))).2
    rw [NFRAME_eq]
    exact this
  have hold : ∀ k i, s.holds (k, f, i) = none := fun k i => by simp [Memory.holds, hnone]
  have hpte : ∀ v, ((s.setTable f (some Pagetable.empty)).pte f v).v = false :=
    fun v => by rw [pte_setTable_self]; rfl
  have htot : (s.setTable f (some Pagetable.empty)).total x = s.total (inc x f) := by
    refine total_take (mem_places.mpr ⟨hlt, by rw [UPAGES_eq]; omega⟩) (hold _ _)
      (holds_root (fun k i _ => hold k i) ?_)
    intro k i
    cases k with
    | root => by_cases hi : i = 0 <;> simp [Pagetable.holds, hi]
    | leaf => simp [Pagetable.holds, Pagetable.empty, Pte.zero]
    | level1 => simp [Pagetable.holds, Pagetable.empty]
    | level0 => simp [Pagetable.holds, Pagetable.empty]
  refine ⟨⟨htot ▸ h.ledger.congr rfl rfl, ?_, ?_, ?_, ?_, ?_⟩, htot⟩
  · intro r t hr
    by_cases hrf : r = f
    · rwa [hrf]
    · exact h.root_lt r t (by simpa [Memory.setTable, hrf] using hr)
  · intro r t hr
    by_cases hrf : r = f
    · subst hrf
      have ht : Pagetable.empty = t := by simpa [Memory.setTable] using hr
      subst ht
      exact ⟨by simp [Pagetable.empty], by simp [Pagetable.empty], by simp [Pagetable.empty, Pte.zero]⟩
    · exact h.shape r t (by simpa [Memory.setTable, hrf] using hr)
  · intro k r i g hk hh
    rw [htot]
    by_cases hrf : r = f
    · subst hrf
      have hg : r = g := by
        cases k with
        | root =>
            by_cases hi : i = 0
            · simpa [Memory.holds, Memory.setTable, Pagetable.holds, hi] using hh
            · simp [Memory.holds, Memory.setTable, Pagetable.holds, hi] at hh
        | leaf => exact absurd rfl hk
        | level1 => simp [Memory.holds, Memory.setTable, Pagetable.holds, Pagetable.empty] at hh
        | level0 => simp [Memory.holds, Memory.setTable, Pagetable.holds, Pagetable.empty] at hh
      exact hg ▸ hone
    · exact h.table k r i g hk (by simpa [Memory.holds, Memory.setTable, hrf] using hh)
  · intro r v hv hval
    have hrf : r ≠ f := by
      rintro rfl
      simp [hpte v] at hval
    rw [htot]
    rw [pte_setTable_of_ne hrf] at hval ⊢
    exact h.leaf r v hv hval
  · intro r v hv r' v' hv' hval hval' hppn
    have hrf : r ≠ f := by
      rintro rfl
      simp [hpte v] at hval
    have hrf' : r' ≠ f := by
      rintro rfl
      simp [hpte v'] at hval'
    rw [pte_setTable_of_ne hrf] at hval hppn
    rw [pte_setTable_of_ne hrf'] at hval' hppn
    exact h.same r v hv r' v' hv' hval hval' hppn

/-- Give up a page table in which nothing is linked and nothing is mapped. -/
theorem Inv.dropRoot (h : Inv κ s x) (hr : s.pgtbl r = some t) (hl1 : ∀ i, t.l1 i = none) :
    Moved κ s x (s.setTable r none) (inc x r) := by
  have hshape := h.shape r t hr
  have hl0 : ∀ j, t.l0 j = none := by
    intro j
    cases hj : t.l0 j with
    | none => rfl
    | some g => simpa [hl1] using hshape.l0_up j g hj
  have hinv : ∀ v, (t.pte v).v = false := by
    intro v
    by_contra hval
    simpa [hl0] using hshape.pte_up v (by simpa using hval)
  have hheld : s.holds (.root, r, 0) = some r := by simp [holds_of_some hr, Pagetable.holds]
  have hpte : ∀ r' v, ((s.setTable r none).pte r' v).v = true →
      (s.setTable r none).pte r' v = s.pte r' v := by
    intro r' v hval
    by_cases hrr : r' = r
    · subst hrr
      simp [Memory.pte, Memory.setTable, Pte.zero] at hval
    · rw [pte_setTable_of_ne hrr]
  have htot : (s.setTable r none).total (inc x r) = s.total x := by
    refine total_give (h.place_mem hheld (by simp)) hheld (holds_root ?_ fun k i => by simp)
    intro k i hne
    rw [holds_of_some hr]
    cases k with
    | root =>
        have hi : i ≠ 0 := fun heq => hne (by rw [heq])
        simp [Pagetable.holds, hi]
    | leaf => simp [Pagetable.holds, hinv]
    | level1 => exact hl1 i
    | level0 => exact hl0 i
  have hpgtbl : ∀ r' t', (s.setTable r none).pgtbl r' = some t' → s.pgtbl r' = some t' := by
    intro r' t' hr'
    by_cases hrr : r' = r
    · simp [Memory.setTable, hrr] at hr'
    · simpa [Memory.setTable, hrr] using hr'
  refine ⟨⟨htot ▸ h.ledger.congr rfl rfl, fun r' t' hr' => h.root_lt r' t' (hpgtbl r' t' hr'),
    fun r' t' hr' => h.shape r' t' (hpgtbl r' t' hr'), ?_,
    ?_, ?_⟩, htot⟩
  · intro k r' i g hk hh
    rw [htot]
    obtain ⟨t', hr', ht'⟩ := Option.bind_eq_some_iff.mp hh
    exact h.table k r' i g hk (by rw [holds_of_some (hpgtbl r' t' hr')]; exact ht')
  · intro r' v hv hval
    rw [htot]
    have heq := hpte r' v hval
    rw [heq] at hval ⊢
    exact h.leaf r' v hv hval
  · intro r₁ v hv r₂ v' hv' hval hval' hppn
    have heq := hpte r₁ v hval
    have heq' := hpte r₂ v' hval'
    rw [heq] at hval hppn
    rw [heq'] at hval' hppn
    exact h.same r₁ v hv r₂ v' hv' hval hval' hppn

/-! ## The start -/

/-- Without page tables all references are from the kernel, and after `kinit` there are
    none. -/
theorem Inv.start (hled : Ledger κ s fun _ => 0) (hpt : s.pgtbl = fun _ => none) :
    Inv κ s fun _ => 0 := by
  have hpte : ∀ r v, (s.pte r v).v = false := fun r v => by simp [Memory.pte, hpt, Pte.zero]
  have hholds : ∀ p, s.holds p = none := fun ⟨k, r, i⟩ => by simp [Memory.holds, hpt]
  have htotal : s.total (fun _ => 0) = fun _ => 0 := by
    funext f
    have hrefs : refs places s.holds f = 0 := by
      by_contra hne
      obtain ⟨p, _, hp⟩ := refs_pos.mp (Nat.pos_of_ne_zero hne)
      simp [hholds] at hp
    simp [Memory.total, hrefs]
  refine ⟨by rwa [htotal], ?_, ?_, ?_, ?_, ?_⟩
  · simp [hpt]
  · simp [hpt]
  · intro k r i f _ hh
    simp [hholds] at hh
  · intro r v _ hval
    simp [hpte] at hval
  · intro r v _ r' v' _ hval
    simp [hpte] at hval

end Vm
