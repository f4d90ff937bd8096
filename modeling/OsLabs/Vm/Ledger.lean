-- SUMMARY: The page allocator as a ledger: each frame has a number of references, and allocation, release and sharing move it by one.
import OsLabs.Vm.Memory

/-!
# The allocator's ledger

Seen from outside, the allocator keeps a number of references for each managed frame. A
frame without references is on the free list, once. `kalloc` takes a frame without
references and gives it one; `kfree` takes one away; `addrefcnt` adds one.

The unpatched kernel has no counters: a frame is free or has one owner. It is a ledger
with numbers up to one, so that the code above the allocator can be specified for both
kernels at once.
-/

namespace Vm

open Effect

variable {κ : Version} {s : Memory} {n : Nat → Nat} {f : Nat}

theorem PGSIZE_pos : 0 < PGSIZE := by decide

@[simp] theorem frame_div (f : Nat) : f * PGSIZE / PGSIZE = f :=
  Nat.mul_div_cancel f PGSIZE_pos

theorem PHYSTOP_eq : PHYSTOP = 2281701376 := by decide

theorem MAXVA_eq : MAXVA = 274877906944 := by decide

/-- Sizes in the user range do not wrap around. -/
theorem pgroundup_of_le {a : Nat} (h : a ≤ MAXVA) : pgroundup a = (a + 4095) / 4096 * 4096 := by
  rw [MAXVA_eq] at h
  unfold pgroundup pgrounddown PGSIZE
  rw [Nat.mod_eq_of_lt (by omega)]

/-- One more reference to `f`. -/
def inc (n : Nat → Nat) (f : Nat) : Nat → Nat := Function.update n f (n f + 1)

@[simp] theorem inc_self (n : Nat → Nat) (f : Nat) : inc n f f = n f + 1 :=
  Function.update_self ..

theorem inc_of_ne {g : Nat} (h : g ≠ f) : inc n f g = n g := Function.update_of_ne h ..

theorem inc_apply (n : Nat → Nat) (f g : Nat) : inc n f g = n g + if f = g then 1 else 0 := by
  by_cases h : g = f
  · subst h
    simp
  · rw [inc_of_ne h, if_neg (Ne.symm h), Nat.add_zero]

theorem le_inc (n : Nat → Nat) (f g : Nat) : n g ≤ inc n f g := by
  rw [inc_apply]
  exact Nat.le_add_right ..

theorem inc_comm (n : Nat → Nat) (f g : Nat) : inc (inc n f) g = inc (inc n g) f := by
  by_cases hfg : f = g
  · rw [hfg]
  · unfold inc
    rw [Function.update_of_ne hfg, Function.update_of_ne (Ne.symm hfg),
      Function.update_comm (Ne.symm hfg)]

/-- Frames with references keep their content. -/
def KeepsMem (n : Nat → Nat) (s s' : Memory) : Prop :=
  ∀ a, n (a / PGSIZE) ≠ 0 → s'.mem a = s.mem a

theorem write_of_ne {m src : Nat → UInt8} {a : Nat} (h : a / PGSIZE ≠ f) :
    write m (f * PGSIZE) src PGSIZE a = m a := by
  refine if_neg fun ⟨h₁, h₂⟩ => h ?_
  have hpos := PGSIZE_pos
  rw [Nat.div_eq_iff hpos]
  omega

/-- A frame without references may be filled. -/
theorem keepsMem_memset {s s' : Memory} {c : UInt8}
    (hs' : s'.mem = memset s.mem (f * PGSIZE) c PGSIZE) (hzero : n f = 0) : KeepsMem n s s' := by
  intro a ha
  rw [hs', memset, write_of_ne]
  rintro rfl
  exact ha hzero

variable [Layout]

/-- The frames that `kinit` hands to the allocator. -/
def Managed (f : Nat) : Prop := Layout.kend ≤ f * PGSIZE ∧ f * PGSIZE < PHYSTOP

@[simp] theorem not_badAddress_iff : ¬ BadAddress (f * PGSIZE) ↔ Managed f := by
  simp [BadAddress, Managed]

/-- The allocator accounts for `n f` references to each frame `f`. -/
structure Ledger (κ : Version) (s : Memory) (n : Nat → Nat) : Prop where
  nodup : s.freelist.Nodup
  managed : ∀ f ∈ s.freelist, Managed f
  free : ∀ f, Managed f → (f ∈ s.freelist ↔ n f = 0)
  inUse : ∀ f, n f ≠ 0 → Managed f
  /-- The patched kernel counts. -/
  count : κ = .cow → ∀ f, s.refcnt f = n f
  /-- The unpatched kernel does not share. -/
  unshared : κ = .unpatched → ∀ f, n f ≤ 1

/-- The ledger only looks at the free list and the counters. -/
theorem Ledger.congr {s' : Memory} (h : Ledger κ s n) (hfree : s'.freelist = s.freelist)
    (hcount : s'.refcnt = s.refcnt) : Ledger κ s' n where
  nodup := hfree ▸ h.nodup
  managed := hfree ▸ h.managed
  free := hfree ▸ h.free
  inUse := h.inUse
  count hκ := hcount ▸ h.count hκ
  unshared := h.unshared

/-! ## Allocation -/

/-- Taking the first frame off the free list. -/
theorem Ledger.pop {rest : List Nat} (h : Ledger κ s n) (s' : Memory)
    (hlist : s.freelist = f :: rest) (hfree : s'.freelist = rest)
    (hcount : κ = .cow → s'.refcnt = Function.update s.refcnt f 1) :
    n f = 0 ∧ Managed f ∧ Ledger κ s' (inc n f) := by
  have hmem : f ∈ s.freelist := by simp [hlist]
  have hman := h.managed f hmem
  have hzero := (h.free f hman).mp hmem
  have hnodup := h.nodup
  rw [hlist, List.nodup_cons] at hnodup
  refine ⟨hzero, hman, ⟨hfree ▸ hnodup.2, ?_, ?_, ?_, ?_, ?_⟩⟩
  · intro g hg
    exact h.managed g (by rw [hlist]; exact List.mem_cons_of_mem f (hfree ▸ hg))
  · intro g hg
    rw [hfree]
    by_cases hgf : g = f
    · subst hgf
      simp [hnodup.1]
    · rw [inc_of_ne hgf, ← h.free g hg, hlist]
      simp [hgf]
  · intro g hg
    by_cases hgf : g = f
    · exact hgf ▸ hman
    · exact h.inUse g (by rwa [inc_of_ne hgf] at hg)
  · intro hκ g
    rw [hcount hκ]
    by_cases hgf : g = f
    · subst hgf
      simp [hzero]
    · rw [Function.update_of_ne hgf, inc_of_ne hgf]
      exact h.count hκ g
  · intro hκ g
    by_cases hgf : g = f
    · subst hgf
      simp [hzero]
    · rw [inc_of_ne hgf]
      exact h.unshared hκ g

theorem wp_kalloc {Q : Option Nat → Memory → Prop} {E : Panic → Memory → Prop} (h : Ledger κ s n)
    (hnone : s.freelist = [] → Q none { s with oom := true })
    (hsome : ∀ f s', n f = 0 → Managed f → Ledger κ s' (inc n f) → KeepsMem n s s' →
      s'.pgtbl = s.pgtbl → s'.oom = s.oom → s.freelist = f :: s'.freelist →
      Q (some (f * PGSIZE)) s') :
    wp (kalloc κ) Q E s := by
  unfold kalloc
  simp only [wp_bind, wp_get]
  split
  · rename_i hlist
    exact hnone hlist
  · rename_i f rest hlist
    cases κ with
    | unpatched =>
        obtain ⟨hzero, hman, hled⟩ := h.pop { s with
          freelist := rest, mem := memset s.mem (f * PGSIZE) 5 PGSIZE } hlist rfl (by simp)
        exact hsome f _ hzero hman hled (keepsMem_memset rfl hzero) rfl rfl hlist
    | cow =>
        obtain ⟨hzero, hman, hled⟩ := h.pop { s with
          freelist := rest, refcnt := Function.update s.refcnt f 1
          mem := memset s.mem (f * PGSIZE) 5 PGSIZE } hlist rfl (by simp)
        exact hsome f _ hzero hman hled (keepsMem_memset rfl hzero) rfl rfl hlist

/-! ## Release -/

/-- The counter of a frame that loses a reference. -/
theorem Ledger.count_dec {s' : Memory} (h : Ledger .cow s (inc n f))
    (hcount : s'.refcnt = Function.update s.refcnt f (s.refcnt f - 1)) (g : Nat) :
    s'.refcnt g = n g := by
  rw [hcount]
  by_cases hgf : g = f
  · subst hgf
    have := h.count rfl g
    simp [this]
  · rw [Function.update_of_ne hgf, h.count rfl g, inc_of_ne hgf]

/-- Taking a reference away that is not the last one. -/
theorem Ledger.dec {s' : Memory} (h : Ledger .cow s (inc n f)) (hne : n f ≠ 0)
    (hfree : s'.freelist = s.freelist)
    (hcount : s'.refcnt = Function.update s.refcnt f (s.refcnt f - 1)) : Ledger .cow s' n where
  nodup := hfree ▸ h.nodup
  managed := hfree ▸ h.managed
  free g hg := by
    rw [hfree, h.free g hg]
    by_cases hgf : g = f
    · subst hgf
      simp [hne]
    · rw [inc_of_ne hgf]
  inUse g hg := h.inUse g (by have := le_inc n f g; omega)
  count _ := h.count_dec hcount
  unshared hκ := by cases hκ

/-- Taking the last reference away. -/
theorem Ledger.push {s' : Memory} (h : Ledger κ s (inc n f)) (hzero : n f = 0)
    (hfree : s'.freelist = f :: s.freelist)
    (hcount : κ = .cow → s'.refcnt = Function.update s.refcnt f (s.refcnt f - 1)) :
    Ledger κ s' n := by
  have hman : Managed f := h.inUse f (by simp)
  have hnot : f ∉ s.freelist := fun hmem => by simpa using (h.free f hman).mp hmem
  refine ⟨?_, ?_, ?_, ?_, ?_, ?_⟩
  · rw [hfree, List.nodup_cons]
    exact ⟨hnot, h.nodup⟩
  · intro g hg
    rw [hfree, List.mem_cons] at hg
    rcases hg with rfl | hg
    · exact hman
    · exact h.managed g hg
  · intro g hg
    rw [hfree, List.mem_cons]
    by_cases hgf : g = f
    · subst hgf
      simp [hzero]
    · rw [h.free g hg, inc_of_ne hgf]
      simp [hgf]
  · exact fun g hg => h.inUse g (by have := le_inc n f g; omega)
  · intro hκ
    subst hκ
    exact h.count_dec (hcount rfl)
  · intro hκ g
    have := h.unshared hκ g
    have := le_inc n f g
    omega

theorem wp_kfree {Q : Unit → Memory → Prop} {E : Panic → Memory → Prop}
    (h : Ledger κ s (inc n f))
    (hQ : ∀ s', Ledger κ s' n → KeepsMem n s s' → s'.pgtbl = s.pgtbl → s'.oom = s.oom →
      s'.freelist = (if n f = 0 then f :: s.freelist else s.freelist) → Q () s') :
    wp (kfree κ (f * PGSIZE)) Q E s := by
  have hman : Managed f := h.inUse f (by simp)
  unfold kfree
  simp only [if_neg (not_badAddress_iff.mpr hman), frame_div]
  cases κ with
  | unpatched =>
      have hzero : n f = 0 := by simpa using h.unshared rfl f
      refine hQ _ (h.push hzero rfl (by simp)) (keepsMem_memset rfl hzero) rfl rfl ?_
      simp [hzero, Memory.push]
  | cow =>
      have hcount := h.count rfl f
      simp only [wp_bind, wp_modify, wp_get, wp_ite, wp_pure]
      refine ⟨?_, ?_⟩
      · intro hlast
        have hzero : n f = 0 := by
          simp only [Memory.setRefcnt, Function.update_self, hcount, inc_self] at hlast
          omega
        refine hQ _ (h.push hzero rfl fun _ => rfl) (keepsMem_memset rfl hzero) rfl rfl ?_
        simp [hzero, Memory.push, Memory.setRefcnt]
      · intro hlast
        have hne : n f ≠ 0 := by
          simp only [Memory.setRefcnt, Function.update_self, hcount, inc_self] at hlast
          omega
        refine hQ _ (h.dec hne rfl rfl) (fun _ _ => rfl) rfl rfl ?_
        simp [hne, Memory.setRefcnt]

/-! ## Sharing -/

theorem Ledger.share (h : Ledger .cow s n) (hf : n f ≠ 0) :
    Ledger .cow (s.setRefcnt f (s.refcnt f + 1)) (inc n f) where
  nodup := h.nodup
  managed := h.managed
  free g hg := by
    rw [Memory.setRefcnt, h.free g hg]
    by_cases hgf : g = f
    · subst hgf
      simp [hf]
    · rw [inc_of_ne hgf]
  inUse g hg := by
    by_cases hgf : g = f
    · exact hgf ▸ h.inUse f hf
    · exact h.inUse g (by rwa [inc_of_ne hgf] at hg)
  count hκ g := by
    by_cases hgf : g = f
    · subst hgf
      simp [Memory.setRefcnt, h.count hκ g]
    · simp only [Memory.setRefcnt, Function.update_of_ne hgf, inc_of_ne hgf]
      exact h.count hκ g
  unshared hκ := by cases hκ

theorem wp_addrefcnt {Q : Bool → Memory → Prop} {E : Panic → Memory → Prop} (hf : Managed f)
    (hQ : Q true (s.setRefcnt f (s.refcnt f + 1))) : wp (addrefcnt (f * PGSIZE)) Q E s := by
  unfold addrefcnt
  simp only [if_neg (not_badAddress_iff.mpr hf), frame_div]
  exact hQ

/-! ## Boot -/

/-- The first managed frame. -/
def firstFrame : Nat := pgroundup Layout.kend / PGSIZE

theorem pgroundup_kend : pgroundup Layout.kend = firstFrame * PGSIZE ∧
    Layout.kend ≤ firstFrame * PGSIZE ∧ firstFrame * PGSIZE < Layout.kend + PGSIZE := by
  have hle := Layout.kend_le
  rw [PHYSTOP_eq] at hle
  rw [firstFrame, pgroundup_of_le (by rw [MAXVA_eq]; omega)]
  simp only [PGSIZE]
  omega

theorem managed_iff : Managed f ↔ firstFrame ≤ f ∧ f < 557056 := by
  have h := (pgroundup_kend).2
  rw [Managed, PHYSTOP_eq]
  simp only [PGSIZE] at *
  omega

/-- `freerange` after `i` rounds: the first `i` managed frames are free. -/
structure FreedTo (κ : Version) (i : Nat) (s : Memory) : Prop where
  nodup : s.freelist.Nodup
  mem_iff : ∀ g, g ∈ s.freelist ↔ firstFrame ≤ g ∧ g < firstFrame + i
  count : κ = .cow → ∀ g, s.refcnt g = 0
  pgtbl : s.pgtbl = fun _ => none
  oom : s.oom = false

theorem FreedTo.push {i : Nat} (h : FreedTo κ i s) {s' : Memory}
    (hfree : s'.freelist = (firstFrame + i) :: s.freelist)
    (hcount : κ = .cow → s'.refcnt (firstFrame + i) = 0 ∧
      ∀ g ≠ firstFrame + i, s'.refcnt g = s.refcnt g)
    (hpt : s'.pgtbl = s.pgtbl) (hoom : s'.oom = s.oom) : FreedTo κ (i + 1) s' where
  nodup := by
    rw [hfree, List.nodup_cons, h.mem_iff]
    exact ⟨by omega, h.nodup⟩
  mem_iff g := by
    rw [hfree, List.mem_cons, h.mem_iff]
    omega
  count hκ g := by
    obtain ⟨h₀, h₁⟩ := hcount hκ
    by_cases hgi : g = firstFrame + i
    · rw [hgi, h₀]
    · rw [h₁ g hgi]
      exact h.count hκ g
  pgtbl := hpt.trans h.pgtbl
  oom := hoom.trans h.oom

/-- `kinit` leaves all managed frames free. -/
theorem wp_kinit (ram : Nat → UInt8) :
    wp (kinit κ) (fun _ s => Ledger κ s (fun _ => 0) ∧ s.pgtbl = (fun _ => none) ∧ s.oom = false)
      (fun _ _ => False) (Memory.reset ram) := by
  obtain ⟨hp, hlow, hhigh⟩ := pgroundup_kend
  have hle := Layout.kend_le
  rw [PHYSTOP_eq] at hle
  unfold kinit freerange
  rw [hp, PHYSTOP_eq]
  refine (wp_upto (I := FreedTo κ) ⟨by simp [Memory.reset], ?_, by simp [Memory.reset], rfl, rfl⟩
    ?_).mono ?_ fun _ _ h => h
  · intro g
    simp only [Memory.reset, List.not_mem_nil, false_iff]
    omega
  · intro i hi s hI
    have haddr : firstFrame * PGSIZE + i * PGSIZE = (firstFrame + i) * PGSIZE := by
      rw [Nat.add_mul]
    have hman : Managed (firstFrame + i) := by
      rw [managed_iff]
      simp only [PGSIZE] at *
      omega
    rw [haddr, frame_div]
    cases κ with
    | unpatched =>
        simp only [kfree, if_neg (not_badAddress_iff.mpr hman), frame_div]
        exact hI.push rfl (by simp) rfl rfl
    | cow =>
        simp only [kfree, if_neg (not_badAddress_iff.mpr hman), frame_div, wp_bind, wp_modify,
          wp_get, wp_ite, wp_pure, Memory.setRefcnt, Function.update_self, Function.update_idem]
        refine ⟨fun _ => ⟨?_, fun hne => absurd rfl hne⟩, fun hne => absurd trivial hne⟩
        intro _
        refine hI.push rfl (fun _ => ⟨by simp [Memory.push], ?_⟩) rfl rfl
        intro g hg
        simp [Memory.push, hg]
  · intro _ s hI
    have hend : firstFrame + (2281701376 - firstFrame * PGSIZE) / PGSIZE = 557056 := by
      simp only [PGSIZE] at *
      omega
    have hmem : ∀ g, g ∈ s.freelist ↔ Managed g := by
      intro g
      rw [hI.mem_iff, hend, managed_iff]
    refine ⟨⟨hI.nodup, fun g => (hmem g).mp, fun g hg => by simp [hmem, hg], by simp,
      ?_, by simp⟩, hI.pgtbl, hI.oom⟩
    intro hκ g
    rw [hI.count hκ g]
    rfl

end Vm
