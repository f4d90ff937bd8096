-- SUMMARY: What sbrk leaves behind: growing a process and shrinking it again restores its size and mappings, and takes from the free memory exactly the page-table pages that were linked on the way.
import Mathlib.Order.Interval.Finset.Nat
import OsLabs.Vm.Equivalence
import OsLabs.Vm.System
import OsLabs.Vm.Tables

/-!
# Growing and shrinking a process

In the unpatched kernel every frame that is not free has one owner, so that the length of
the free list can be read off the page tables. Growing a process by some bytes and shrinking
it by as many goes back to the same entries. What stays are the pages that `walk` linked into
the page table.
-/

namespace Vm

open Effect RefCount

variable [Layout] {κ : Version} {s s' : Memory} {x : Nat → Nat} {r a b : Nat} {t t' : Pagetable}

/-! ## Free frames -/

/-- Every frame is free or in use, once. -/
theorem Ledger.length_add_sum {n : Nat → Nat} (h : Ledger .unpatched s n) :
    s.freelist.length + ∑ f ∈ Finset.Ico firstFrame NFRAME, n f = NFRAME - firstFrame := by
  have hman : ∀ f, f ∈ Finset.Ico firstFrame NFRAME ↔ Managed f := by
    intro f
    rw [Finset.mem_Ico, managed_iff, NFRAME_eq]
  have hfree : (Finset.Ico firstFrame NFRAME).filter (· ∈ s.freelist) = s.freelist.toFinset := by
    ext f
    rw [Finset.mem_filter, List.mem_toFinset, hman]
    exact ⟨And.right, fun hf => ⟨h.managed f hf, hf⟩⟩
  have hone : ∀ f ∈ Finset.Ico firstFrame NFRAME, (if f ∈ s.freelist then 1 else 0) + n f = 1 := by
    intro f hf
    have hiff := h.free f ((hman f).mp hf)
    have hle := h.unshared rfl f
    split
    · rename_i hmem
      rw [hiff.mp hmem]
    · rename_i hmem
      have := mt hiff.mpr hmem
      omega
  calc s.freelist.length + ∑ f ∈ Finset.Ico firstFrame NFRAME, n f
      = ∑ f ∈ Finset.Ico firstFrame NFRAME, ((if f ∈ s.freelist then 1 else 0) + n f) := by
        rw [Finset.sum_add_distrib, ← Finset.card_filter, hfree,
          List.toFinset_card_of_nodup h.nodup]
    _ = NFRAME - firstFrame := by
        rw [Finset.sum_congr rfl hone, ← Finset.card_eq_sum_ones, Nat.card_Ico]

theorem Ledger.length_le {n : Nat → Nat} (h : Ledger .unpatched s n) :
    s.freelist.length ≤ 2 ^ 15 := by
  have hsum := h.length_add_sum
  obtain ⟨-, hge, -⟩ := pgroundup_kend
  have hbase : 2147483648 ≤ Layout.kend := Layout.kernbase_le
  rw [NFRAME_eq] at hsum
  simp only [PGSIZE] at hge
  omega

/-- The entries of page tables that refer to a frame. -/
def Memory.entries (s : Memory) : Finset Place := places.filter fun p => (s.holds p).isSome

/-- The frames that are not free are those that the page tables and the other owners have. -/
theorem Inv.length_add (h : Inv .unpatched s x) :
    s.freelist.length + (s.entries.card + ∑ f ∈ Finset.Ico firstFrame NFRAME, x f) =
      NFRAME - firstFrame := by
  have hheld : ∀ p ∈ places, ∀ f, s.holds p = some f → f ∈ Finset.Ico firstFrame NFRAME := by
    intro p hp f hf
    rw [Finset.mem_Ico, NFRAME_eq, ← managed_iff]
    exact h.ledger.inUse f (total_ne_zero hp hf)
  rw [← h.ledger.length_add_sum, Memory.entries, ← sum_refs hheld, ← Finset.sum_add_distrib]
  rfl

/-! ## Pages of a page table -/

/-- The pages of the page table with root `r` other than the root, by level and index. -/
def Memory.linkedPages (s : Memory) (r : Nat) : Finset (Kind × Nat) :=
  ({.level1, .level0} ×ˢ Finset.range (512 * 512)).filter fun p => (s.holds (p.1, r, p.2)).isSome

/-- The number of pages that have been linked into the page table `r`. -/
def Memory.created (s : Memory) (r : Nat) (s' : Memory) : Nat :=
  (s'.linkedPages r \ s.linkedPages r).card

omit [Layout] in
theorem mem_linkedPages {k : Kind} {i : Nat} : (k, i) ∈ s.linkedPages r ↔
    (k = .level1 ∨ k = .level0) ∧ i < 512 * 512 ∧ (s.holds (k, r, i)).isSome := by
  simp [Memory.linkedPages, and_assoc]

omit [Layout] in
theorem holds_of_upper {k : Kind} {i : Nat} (h : s'.upper r = s.upper r)
    (hk : k = .level1 ∨ k = .level0) : s'.holds (k, r, i) = s.holds (k, r, i) := by
  have hread : ∀ s : Memory, s.holds (k, r, i) =
      (s.upper r).bind fun u => if k = .level1 then u.1 i else u.2 i := by
    intro s
    rcases hk with rfl | rfl
    · cases hr : s.pgtbl r <;> simp [Memory.holds, Memory.upper, hr, Pagetable.holds]
    · cases hr : s.pgtbl r <;> simp [Memory.holds, Memory.upper, hr, Pagetable.holds]
  rw [hread s', h, ← hread s]

omit [Layout] in
theorem linkedPages_congr (h : s'.upper r = s.upper r) : s'.linkedPages r = s.linkedPages r := by
  ext ⟨k, i⟩
  rw [mem_linkedPages, mem_linkedPages]
  apply and_congr_right
  intro hk
  rw [holds_of_upper h hk]

/-- The indices are those of the pages that there can be. -/
theorem Inv.mem_linkedPages (h : Inv κ s x) {k : Kind} {i : Nat} :
    (k, i) ∈ s.linkedPages r ↔ (k = .level1 ∨ k = .level0) ∧ (s.holds (k, r, i)).isSome := by
  rw [Vm.mem_linkedPages]
  apply and_congr_right
  intro hk
  refine ⟨And.right, fun hsome => ⟨?_, hsome⟩⟩
  obtain ⟨f, hf⟩ := Option.isSome_iff_exists.mp hsome
  obtain ⟨t, hr, ht⟩ := Option.bind_eq_some_iff.mp hf
  have hshape := h.shape r t hr
  rcases hk with rfl | rfl
  · have := hshape.l1_lt i f ht
    omega
  · obtain ⟨g, hg⟩ := Option.isSome_iff_exists.mp (hshape.l0_up i f ht)
    have := hshape.l1_lt _ g hg
    omega

omit [Layout] in
/-- No page is taken out of a page table. -/
theorem Reworked.holds_upper (hw : Reworked r a b s s') {k : Kind} {i : Nat}
    (hk : k = .level1 ∨ k = .level0) (hsome : (s.holds (k, r, i)).isSome) :
    (s'.holds (k, r, i)).isSome := by
  obtain ⟨f, hf⟩ := Option.isSome_iff_exists.mp hsome
  obtain ⟨t, hr, ht⟩ := Option.bind_eq_some_iff.mp hf
  obtain ⟨t', hr', ht'⟩ := hw.table t hr
  rw [holds_of_some hr']
  apply ht'.holds hk
  rw [ht]
  rfl

omit [Layout] in
theorem Reworked.linkedPages_subset (hw : Reworked r a b s s') :
    s.linkedPages r ⊆ s'.linkedPages r := by
  rintro ⟨k, i⟩ hmem
  obtain ⟨hk, hi, hsome⟩ := mem_linkedPages.mp hmem
  exact mem_linkedPages.mpr ⟨hk, hi, hw.holds_upper hk hsome⟩

section

variable (hw : Reworked r a b s s') (hr : s.pgtbl r = some t)
  (hpte : ∀ v < UPAGES, (s.pte r v).Same (s'.pte r v))
include hw hr hpte

omit [Layout] in
/-- No entry is lost, and all new ones are for pages of the table. -/
theorem Reworked.holds_isSome {k : Kind} {r' i : Nat} (hi : i < UPAGES) :
    (s'.holds (k, r', i)).isSome ↔ (s.holds (k, r', i)).isSome ∨
      r' = r ∧ (k = .level1 ∨ k = .level0) ∧ (s'.holds (k, r', i)).isSome := by
  by_cases hrr : r' = r
  · subst hrr
    obtain ⟨t', hr', ht'⟩ := hw.table t hr
    cases k with
    | leaf =>
        rw [holds_leaf, holds_leaf]
        have hv := (hpte i hi).1
        split <;> split <;> simp_all
    | root => simp [holds_of_some hr, holds_of_some hr', Pagetable.holds]
    | level1 =>
        simp only [true_and, true_or]
        exact ⟨.inr, fun h => h.elim (hw.holds_upper (.inl rfl)) id⟩
    | level0 =>
        simp only [true_and, or_true]
        exact ⟨.inr, fun h => h.elim (hw.holds_upper (.inr rfl)) id⟩
  · have hother : s'.holds (k, r', i) = s.holds (k, r', i) := by
      simp only [Memory.holds, hw.others r' hrr]
    simp [hother, hrr]

/-- Two states with the same owners outside of page tables, between which a page table has been
    extended and has kept its mappings, differ in the pages that have been linked into it. -/
theorem Reworked.length_eq (h : Inv .unpatched s x) (h' : Inv .unpatched s' x) :
    s.freelist.length = s'.freelist.length + s.created r s' := by
  have hsub : s.entries ⊆ s'.entries := by
    rintro ⟨k, r', i⟩ hp
    obtain ⟨hp, hsome⟩ := Finset.mem_filter.mp hp
    refine Finset.mem_filter.mpr ⟨hp, ?_⟩
    exact (hw.holds_isSome hr hpte (mem_places.mp hp).2).mpr (.inl hsome)
  have hnew : s'.entries \ s.entries =
      (s'.linkedPages r \ s.linkedPages r).image fun p => (p.1, r, p.2) := by
    ext ⟨k, r', i⟩
    simp only [Memory.entries, Finset.mem_sdiff, Finset.mem_filter, Finset.mem_image,
      Prod.exists, Prod.mk.injEq, h.mem_linkedPages, h'.mem_linkedPages]
    constructor
    · rintro ⟨⟨hp, hsome⟩, hnone⟩
      have hnone : ¬ (s.holds (k, r', i)).isSome := fun hs => hnone ⟨hp, hs⟩
      obtain hs | ⟨rfl, hk, -⟩ := (hw.holds_isSome hr hpte (mem_places.mp hp).2).mp hsome
      · exact absurd hs hnone
      · exact ⟨k, i, ⟨⟨hk, hsome⟩, fun hs => hnone hs.2⟩, rfl, rfl, rfl⟩
    · rintro ⟨k, i, ⟨⟨hk, hsome⟩, hnone⟩, rfl, rfl, rfl⟩
      obtain ⟨f, hf⟩ := Option.isSome_iff_exists.mp hsome
      have hmem := h'.place_mem hf (by rintro rfl; simp at hk)
      exact ⟨⟨hmem, hsome⟩, fun hs => hnone ⟨hk, hs.2⟩⟩
  have hcard := Finset.card_sdiff_add_card_eq_card hsub
  have hinj : Function.Injective fun p : Kind × Nat => (p.1, r, p.2) := by
    intro p q hpq
    cases p
    cases q
    cases hpq
    rfl
  rw [hnew, Finset.card_image_of_injective _ hinj] at hcard
  have hfull := h.length_add
  have hfull' := h'.length_add
  rw [Memory.created]
  omega

end

/-! ## `growproc` -/

variable {held : Nat → Nat} {k k₁ k' : Machine} {i : Nat} {n : Int}

/-- The process table without the size of process `i`. -/
def Machine.unsized (i : Nat) (k : Machine) : Nat → Proc :=
  Function.update k.proc i { k.proc i with sz := 0 }

theorem keeps_growproc (i : Nat) (n : Int) : Keeps (Machine.unsized i) (growproc κ i n) := by
  have hmem : ∀ {α : Type} (m : KernelM α), Keeps (Machine.unsized i) (onMem m) := by
    intro α m
    apply keeps_zoom
    exact fun _ _ => rfl
  have hsz : ∀ sz, Keeps (Machine.unsized i) (do
      modifyProc i fun p => { p with sz := sz }
      return true : ProcM Bool) := by
    intro sz
    apply Keeps.bind
    · refine keeps_modify fun k => ?_
      simp [Machine.unsized, Machine.setProc]
    · exact fun _ => keeps_pure _
  unfold growproc
  apply keeps_get.bind
  intro k
  apply Keeps.ite
  · apply (hmem _).bind
    intro sz
    cases sz with
    | none => exact keeps_pure _
    | some sz => exact (keeps_pure _).ite (hsz sz)
  · apply Keeps.ite
    · exact (hmem _).bind hsz
    · exact keeps_pure _

/-- Growing a process extends its page table. -/
theorem wp_growproc_grow (h : PInv κ held k) (hi : (k.proc i).state ≠ .unused) (hn₀ : 0 < n)
    (hn : n < 2 ^ 31) :
    wp (growproc κ i n) (fun _ k' => Reworked (k.proc i).pagetable (npages (k.proc i).sz)
        (npages ((k.proc i).sz + n).toNat) k.mem k'.mem) (fun _ _ => True) k := by
  have hsz := h.sz_lt hi
  obtain ⟨t, hr⟩ := Option.isSome_iff_exists.mp (h.inUse i hi).2.live
  have hle : (k.proc i).sz ≤ ((k.proc i).sz + n).toNat := by omega
  have hsize := h.userSize_add hi hn
  have hstart : Reworked (k.proc i).pagetable (npages (k.proc i).sz)
      (npages ((k.proc i).sz + n).toNat) k.mem k.mem := .refl (h.inv.shape _)
  have hnew : addU64 (k.proc i).sz n = ((k.proc i).sz + n).toNat :=
    addU64_of_nonneg (by omega) (by omega)
  obtain ⟨s, proc⟩ := k
  unfold growproc
  rw [wp_bind, wp_get]
  dsimp only at hnew ⊢
  rw [if_pos hn₀, hnew, wp_bind, wp_onMem]
  refine (reworked_uvmalloc hr hle hsize s hstart).mono ?_ fun _ _ _ => trivial
  intro sz s' hw
  cases sz with
  | none => exact hw
  | some sz =>
      dsimp only
      split
      · exact hw
      · exact hw

/-- Shrinking it clears entries and takes no page of the table back. -/
theorem wp_growproc_shrink (hr : k.mem.pgtbl (k.proc i).pagetable = some t) (hshape : Shape t)
    (hn : n < 0) :
    wp (growproc κ i n) (fun done k' => done = true ∧
        Reworked (k.proc i).pagetable (npages (addU64 (k.proc i).sz n)) (npages (k.proc i).sz)
          k.mem k'.mem ∧
        k'.mem.upper (k.proc i).pagetable = k.mem.upper (k.proc i).pagetable)
      (fun _ _ => True) k := by
  obtain ⟨s, proc⟩ := k
  have hstart : Reworked (proc i).pagetable (npages (addU64 (proc i).sz n)) (npages (proc i).sz)
      s s := by
    refine .refl fun t' hr' => ?_
    cases hr.symm.trans hr'
    exact hshape
  unfold growproc
  rw [wp_bind, wp_get]
  dsimp only at hr ⊢
  rw [if_neg (by omega), if_pos hn, wp_bind, wp_onMem]
  refine ((reworked_uvmdealloc hr s hstart).mp ((keeps_uvmdealloc s).mono ?_ ?_))
  · intro sz s' hup hw
    exact ⟨rfl, hw, hup⟩
  · intro _ _ _ _
    trivial

/-! ## Growing and shrinking again -/

/-- `k'` has the process table and the mappings of `k`. Its free memory is less by the pages that
    were linked into the page table of process `i` between `k` and `k₁`. -/
structure Restored (i : Nat) (k k₁ k' : Machine) : Prop where
  proc : k'.proc = k.proc
  lookup : ∀ pt va, k'.mem.lookup pt va = k.mem.lookup pt va
  freemem : k'.mem.freemem =
    k.mem.freemem - PGSIZE * k.mem.created (k.proc i).pagetable k₁.mem

omit [Layout] in
/-- Entries outside of the pages `a` to `b` are the same, and those in between are invalid. -/
theorem Reworked.pte_same (hw : Reworked r a b s s') (hr : s.pgtbl r = some t)
    (hb : b ≤ UPAGES) (hmapped : ∀ v, (s.space r v).isSome ↔ v < a)
    (hmapped' : ∀ v, (s'.space r v).isSome ↔ v < a) (v : Nat) : (s.pte r v).Same (s'.pte r v) := by
  by_cases hv : a ≤ v ∧ v < b
  · have hinv : ∀ s : Memory, (∀ v, (s.space r v).isSome ↔ v < a) → (s.pte r v).v = false := by
      intro s hmapped
      have hnot := mt (hmapped v).mp (Nat.not_lt.mpr hv.1)
      rw [space_isSome] at hnot
      simpa [show v < UPAGES by omega] using hnot
    have hold := hinv s hmapped
    exact ⟨by rw [hinv s' hmapped', hold], by simp [hold]⟩
  · obtain ⟨t', hr', ht'⟩ := hw.table t hr
    rw [pte_of_some hr, pte_of_some hr']
    exact ht'.pte v hv

omit [Layout] in
theorem Reworked.lookup_eq (hw : Reworked r a b s s') (hr : s.pgtbl r = some t) (hshape : Shape t)
    (hpte : ∀ v, (s.pte r v).Same (s'.pte r v)) (pt va : Nat) :
    s'.lookup pt va = s.lookup pt va := by
  by_cases hpt : pt = r
  · subst hpt
    obtain ⟨t', hr', ht'⟩ := hw.table t hr
    have hsame := hpte (va / PGSIZE)
    rw [Vm.lookup_eq hshape hr, Vm.lookup_eq ht'.shape hr', hsame.1]
    split
    · rename_i hc
      rw [hsame.2 hc.2]
    · rfl
  · simp only [Memory.lookup, hw.others pt hpt]

theorem restored (h : PInv .unpatched held k) (hi : (k.proc i).state ≠ .unused)
    (hproc : k'.proc = k.proc) (hinv : Inv .unpatched k'.mem (owners held k.proc))
    (hmapped : ∀ v, (k'.mem.space (k.proc i).pagetable v).isSome ↔ v < npages (k.proc i).sz)
    (hw : Reworked (k.proc i).pagetable (npages (k.proc i).sz) b k.mem k'.mem) (hb : b ≤ UPAGES)
    (hup : k'.mem.upper (k.proc i).pagetable = k₁.mem.upper (k.proc i).pagetable) :
    Restored i k k₁ k' := by
  obtain ⟨-, hu⟩ := h.inUse i hi
  obtain ⟨t, hr⟩ := Option.isSome_iff_exists.mp hu.live
  have hpte := hw.pte_same hr hb hu.mapped hmapped
  refine ⟨hproc, hw.lookup_eq hr (h.inv.shape _ t hr) hpte, ?_⟩
  have hlen := hw.length_eq hr (fun v _ => hpte v) h.inv hinv
  rw [Memory.freemem, Memory.freemem, wrap32_countFree h.inv.ledger.length_le,
    wrap32_countFree hinv.ledger.length_le, hlen, Memory.created, Memory.created,
    linkedPages_congr hup, Int.natCast_add, Int.mul_add]
  omega

omit [Layout] in
theorem proc_eq_of_unsized (h : k'.unsized i = k.unsized i) (hsz : (k'.proc i).sz = (k.proc i).sz) :
    k'.proc = k.proc := by
  funext j
  have hj := congrFun h j
  unfold Machine.unsized at hj
  by_cases hji : j = i
  · subst hji
    rw [Function.update_self, Function.update_self] at hj
    cases hp : k.proc j
    cases hp' : k'.proc j
    simp_all
  · simpa only [Function.update_of_ne hji] using hj

omit [Layout] in
theorem sz_of_grow (h : k'.users = Function.update k.users i ((k.users i).grow n))
    (hn : 0 ≤ (k.proc i).sz + n) : (k'.proc i).sz = ((k.proc i).sz + n).toNat := by
  calc (k'.proc i).sz
      = (k'.users i).sz := rfl
    _ = ((k.users i).grow n).sz := by rw [h, Function.update_self]
    _ = ((k.proc i).sz + n).toNat := by
        rw [User.grow, if_pos (show 0 ≤ (k.users i).sz + n from hn)]
        rfl

/-- `growproc` returns, and if it fails it has changed neither the processes nor their memory. -/
theorem growproc_returns (h : PInv κ held k) (hi : (k.proc i).state ≠ .unused)
    (hn₁ : -2 ^ 31 ≤ n) (hn₂ : n < 2 ^ 31) :
    ∃ done k', exec (growproc κ i n) k = (.ok done, k') ∧
      (done = true → Regrown κ held i k k' ∧
        k'.users = Function.update k.users i ((k.users i).grow n)) ∧
      (done = false → k'.proc = k.proc ∧ Inv κ k'.mem (owners held k.proc) ∧
        k'.mem.space = k.mem.space) := by
  apply wp.exists_ok
  refine wp_growproc h hi hn₁ hn₂ ?_ ?_
  · intro k' hgrown husers
    exact ⟨fun _ => ⟨hgrown, husers⟩, nofun⟩
  · intro s' hinv _ hspace _
    exact ⟨nofun, fun _ => ⟨rfl, hinv, hspace⟩⟩

/-- After a growth the same number of bytes can be given back, and that restores the process. -/
theorem shrink_restores (h : PInv .unpatched held k) (hi : (k.proc i).state ≠ .unused)
    (hn₀ : 0 < n) (hn : n < 2 ^ 31) (hgrown : Regrown .unpatched held i k k₁)
    (husers : k₁.users = Function.update k.users i ((k.users i).grow n))
    (hexec : exec (growproc .unpatched i n) k = (.ok true, k₁)) :
    ∃ k₂, exec (growproc .unpatched i (-n)) k₁ = (.ok true, k₂) ∧ Restored i k k₁ k₂ := by
  have hsz := h.sz_lt hi
  obtain ⟨hstate, hpt⟩ := hgrown.slots i
  have hi₁ : (k₁.proc i).state ≠ .unused := by
    rw [hstate]
    exact hi
  obtain ⟨-, hu₁⟩ := hgrown.inv.inUse i hi₁
  obtain ⟨t, hr⟩ := Option.isSome_iff_exists.mp hu₁.live
  have hsz₁ := sz_of_grow husers (by omega)
  have hback : addU64 (k₁.proc i).sz (-n) = (k.proc i).sz := by
    rw [addU64_of_nonneg (by omega) (by omega)]
    omega
  obtain ⟨done, k₂, hexec₂, hok, -⟩ :=
    growproc_returns (n := -n) hgrown.inv hi₁ (by omega) (by omega)
  obtain ⟨rfl, hw₂, hup⟩ :=
    (wp_growproc_shrink hr (hgrown.inv.inv.shape _ t hr) (by omega)).ok hexec₂
  obtain ⟨hre, husers₂⟩ := hok rfl
  have hproc : k₂.proc = k.proc := by
    apply proc_eq_of_unsized
    · exact ((keeps_growproc i (-n) k₁).ok hexec₂).trans ((keeps_growproc i n k).ok hexec)
    · rw [sz_of_grow husers₂ (by omega)]
      omega
  have hi₂ : (k₂.proc i).state ≠ .unused := by
    rw [hproc]
    exact hi
  have hinv₂ := hre.inv.inv
  have hmapped := (hre.inv.inUse i hi₂).2.mapped
  have hw := (wp_growproc_grow h hi hn₀ hn).ok hexec
  rw [hproc] at hinv₂ hmapped
  rw [hback, hpt, hsz₁] at hw₂
  rw [hpt] at hup
  exact ⟨k₂, hexec₂, restored h hi hproc hinv₂ hmapped (hw.trans hw₂) (hsz₁ ▸ hu₁.size).npages_le hup⟩

/-- In every state of the system, `growproc` by `n` bytes returns, and takes no page out of the page
    table of the process. If it succeeds, giving the `n` bytes back succeeds as well. Either way
    the size and all mappings are as before in the end, and `freemem` is less by the new
    pages of the page table. -/
theorem sbrk_restores {w : System} (h : (system .unpatched).Reachable w) {i : Nat} {n : Int}
    (hi : (w.machine.proc i).state ≠ .unused) (hn₀ : 0 < n) (hn : n < 2 ^ 31) :
    ∃ done k₁, exec (growproc .unpatched i n) w.machine = (.ok done, k₁) ∧
      w.machine.mem.linkedPages (w.machine.proc i).pagetable ⊆
        k₁.mem.linkedPages (w.machine.proc i).pagetable ∧
      (done = true → ∃ k₂, exec (growproc .unpatched i (-n)) k₁ = (.ok true, k₂) ∧
        Restored i w.machine k₁ k₂) ∧
      (done = false → Restored i w.machine k₁ k₁) := by
  obtain ⟨held, hw⟩ := sysInv_of_reachable h
  have hP := hw.procs
  obtain ⟨-, hu⟩ := hP.inUse i hi
  obtain ⟨done, k₁, hexec, hok, hfail⟩ := growproc_returns (n := n) hP hi (by omega) hn
  have hgrow := (wp_growproc_grow hP hi hn₀ hn).ok hexec
  refine ⟨done, k₁, hexec, hgrow.linkedPages_subset, ?_, ?_⟩
  · rintro rfl
    obtain ⟨hgrown, husers⟩ := hok rfl
    exact shrink_restores hP hi hn₀ hn hgrown husers hexec
  · intro hdone
    obtain ⟨hproc, hinv, hspace⟩ := hfail hdone
    refine restored hP hi hproc hinv ?_ hgrow (hP.userSize_add hi hn).npages_le rfl
    rw [hspace]
    exact hu.mapped

omit [Layout] in
/-- The first process of the tiny machine gets 5000 bytes and gives them back. There are no frames
    for 50000 bytes. -/
theorem sbrk_restores_started :
    (∃ k₁ k₂, exec (@growproc tinyLayout .unpatched 0 5000) (started .unpatched) = (.ok true, k₁) ∧
      exec (@growproc tinyLayout .unpatched 0 (-5000)) k₁ = (.ok true, k₂) ∧
      Restored 0 (started .unpatched) k₁ k₂) ∧
    ∃ k₁, exec (@growproc tinyLayout .unpatched 0 50000) (started .unpatched) = (.ok false, k₁) ∧
      Restored 0 (started .unpatched) k₁ k₁ := by
  let := tinyLayout
  have hstart : (system .unpatched).Reachable ⟨started .unpatched, [], []⟩ :=
    .init ⟨fun _ => 0, 0, [], started_eq .unpatched, rfl, rfl⟩
  have hi : ((started .unpatched).proc 0).state ≠ .unused := by decide +kernel
  constructor
  · obtain ⟨done, k₁, hexec, -, hok, -⟩ :=
      sbrk_restores (i := 0) (n := 5000) hstart hi (by decide) (by decide)
    have hdone : (exec (growproc .unpatched 0 5000) (started .unpatched)).1 = .ok true := by
      decide +kernel
    rw [hexec] at hdone
    obtain rfl : done = true := Except.ok.inj hdone
    obtain ⟨k₂, hexec₂, hrestored⟩ := hok rfl
    exact ⟨k₁, k₂, hexec, hexec₂, hrestored⟩
  · obtain ⟨done, k₁, hexec, -, -, hfail⟩ :=
      sbrk_restores (i := 0) (n := 50000) hstart hi (by decide) (by decide)
    have hdone : (exec (growproc .unpatched 0 50000) (started .unpatched)).1 = .ok false := by
      decide +kernel
    rw [hexec] at hdone
    obtain rfl : done = false := Except.ok.inj hdone
    exact ⟨k₁, hexec, hfail rfl⟩

end Vm
