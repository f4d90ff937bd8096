-- SUMMARY: A fork that finds no memory leaves everything as it was: free frames, reference counts, the process table, and what processes read. The parent can still write where it could, up to its size.
import OsLabs.Vm.System

/-!
# Forks that fail

When `fork` runs out of memory, some pages of the parent may already have been shared with
the child. They have been write-protected and marked, and their counts have been raised. The
counts go back when the child is given up. The marks stay, so that the parent's next store
to such a page faults. The handler then finds a page with one reference and makes it
writable again, for which it needs no frame.

The handler kills the process first if the address is not below its size. So a store to the
rest of the last page, which the hardware let through before, is lost.
-/

namespace Vm

open Effect

variable [Layout] {s s' : Memory} {x held : Nat → Nat} {r sz va : Nat} {k k' : Machine}

/-! ## When stores succeed -/

theorem wp_store_canStore {E : Panic → Memory → Prop} {b : UInt8} {t : Pagetable}
    (h : Inv .cow s x) (hr : s.pgtbl r = some t) (htop : Topped s r) :
    wp (store .cow r sz va b) (fun res s' => (res = .done ↔ s.CanStore r sz va) ∧
      (s.refcnt (s.pte r (va / PGSIZE)).ppn = 1 → s'.freelist = s.freelist)) E s := by
  refine wp_store_cow h hr htop ?_ ?_ ?_
  · intro s₁ hcan _ _ _ _ _ hfree
    exact ⟨iff_of_true rfl hcan, hfree⟩
  · intro hw hkill
    refine ⟨iff_of_false (by simp) ?_, fun _ => rfl⟩
    rintro ⟨hp, hyes | ⟨hrsw, hva, _⟩⟩
    · rw [hw hp] at hyes
      cases hyes
    · rw [hkill hva hp] at hrsw
      cases hrsw
  · intro hw hone hfree
    refine ⟨iff_of_false (by simp) ?_, fun _ => rfl⟩
    rintro ⟨_, hyes | ⟨_, _, hcount | hsome⟩⟩
    · rw [hw] at hyes
      cases hyes
    · exact hone hcount
    · exact hsome hfree

/-! ## The same references -/

theorem refcnt_of_outline (h : Inv .cow s x) (h' : Inv .cow s' x) (ho : s'.outline = s.outline)
    (f : Nat) : s'.refcnt f = s.refcnt f := by
  rw [h'.ledger.count rfl f, h.ledger.count rfl f, total_of_outline ho]

theorem page_refcnt_of_outline (h : Inv .cow s x) (h' : Inv .cow s' x)
    (ho : s'.outline = s.outline) (v : Nat) :
    s'.refcnt (s'.pte r v).ppn = s.refcnt (s.pte r v).ppn := by
  have hppn : (s'.pte r v).ppn = (s.pte r v).ppn :=
    congrArg (·.ppn) (pte_of_outline (congrFun ho r) v)
  rw [hppn]
  exact refcnt_of_outline h h' ho _

theorem free_of_outline {κ : Version} (h : Inv κ s x) (h' : Inv κ s' x)
    (ho : s'.outline = s.outline) (f : Nat) : f ∈ s'.freelist ↔ f ∈ s.freelist := by
  constructor
  · intro hf
    have hman := h'.ledger.managed f hf
    rw [h.ledger.free f hman, ← total_of_outline ho]
    exact (h'.ledger.free f hman).mp hf
  · intro hf
    have hman := h.ledger.managed f hf
    rw [h'.ledger.free f hman, total_of_outline ho]
    exact (h.ledger.free f hman).mp hf

/-- An address below the size stays writable if a page is marked and counts are the same. -/
theorem Memory.CanStore.of_outline (hc : s.CanStore r sz va) (h : Inv .cow s x) (h' : Inv .cow s' x)
    (ho : s'.outline = s.outline) (hva : va < sz) : s'.CanStore r sz va := by
  obtain ⟨hp, hc⟩ := hc
  have hpte := pte_of_outline (congrFun ho r) (va / PGSIZE)
  have hvalid : (s'.pte r (va / PGSIZE)).v = (s.pte r (va / PGSIZE)).v := congrArg (·.v) hpte
  have huser : (s'.pte r (va / PGSIZE)).u = (s.pte r (va / PGSIZE)).u := congrArg (·.u) hpte
  have hwrite : ((s'.pte r (va / PGSIZE)).w || (s'.pte r (va / PGSIZE)).rsw) =
      ((s.pte r (va / PGSIZE)).w || (s.pte r (va / PGSIZE)).rsw) := congrArg (·.w) hpte
  have hcount := page_refcnt_of_outline (r := r) h h' ho (va / PGSIZE)
  refine ⟨⟨hp.1, hvalid.trans hp.2.1, huser.trans hp.2.2⟩, ?_⟩
  by_cases hw : (s'.pte r (va / PGSIZE)).w = true
  · exact .inl hw
  · rcases hc with hbefore | ⟨hrsw, _, hframe⟩
    · -- The page has been marked. It was writable, so there is one reference to it.
      have hone := ((h.leaf r _ hp.1 hp.2.1).write hbefore).2
      refine .inr ⟨?_, hva, .inl ?_⟩
      · simpa [hw, hbefore] using hwrite
      · rw [hcount, h.refcnt_eq_one]
        exact hone
    · refine .inr ⟨?_, hva, ?_⟩
      · simpa [hw, hrsw] using hwrite
      · rw [hcount]
        refine hframe.imp_right fun hne hnil => ?_
        obtain ⟨f, hf⟩ := List.exists_mem_of_ne_nil _ hne
        rw [← free_of_outline h h' ho, hnil] at hf
        cases hf

/-! ## After a fork that failed -/

theorem PInv.load_eq {κ : Version} (h : PInv κ held k) (j va : Nat) :
    k.mem.load (k.proc j).pagetable va = (k.mem.space (k.proc j).pagetable).load va := by
  by_cases hj : (k.proc j).state = .unused
  · rw [h.unused j hj]
    simp [Proc.unused, Memory.load, Memory.lookup, h.inv.pgtbl_zero, h.inv.space_zero, Space.load]
  · obtain ⟨_, hu⟩ := h.inUse j hj
    obtain ⟨t, hr⟩ := Option.isSome_iff_exists.mp hu.live
    exact Vm.load_eq h.inv hr hu.topped

/-- What a failed fork leaves unchanged. -/
structure Harmless (i : Nat) (k k' : Machine) : Prop where
  free : ∀ f, f ∈ k'.mem.freelist ↔ f ∈ k.mem.freelist
  refcnt : ∀ f, k'.mem.refcnt f = k.mem.refcnt f
  slot : ∀ np, findSlot (fun j => (k.proc j).state = .unused) = some np →
    (k'.proc np).state = .unused
  proc : k'.proc = k.proc
  load : ∀ j va, k'.mem.load (k'.proc j).pagetable va = k.mem.load (k.proc j).pagetable va
  store : ∀ va < (k.proc i).sz, ∀ b,
    (exec (Vm.store .cow (k.proc i).pagetable (k.proc i).sz va b) k.mem).1 = .ok .done →
    ∃ s, exec (Vm.store .cow (k'.proc i).pagetable (k'.proc i).sz va b) k'.mem = (.ok .done, s) ∧
      (k.mem.refcnt (k.mem.pte (k.proc i).pagetable (va / PGSIZE)).ppn = 1 →
        s.freelist = k'.mem.freelist)

/-- Page tables have the same outlines, and spaces are the same. -/
theorem PInv.harmless {i : Nat} (h : PInv .cow held k) (hi : (k.proc i).state ≠ .unused)
    (hinv : Inv .cow s' (owners held k.proc)) (hk : Kept k.mem s') (hsp : s'.space = k.mem.space)
    (ho : s'.outline = k.mem.outline) : Harmless i k ⟨s', k.proc⟩ := by
  have h' := (h.kept hinv hk hsp).1
  refine ⟨free_of_outline h.inv hinv ho, refcnt_of_outline h.inv hinv ho, ?_, rfl, ?_, ?_⟩
  · intro np hfind
    simpa using (findSlot_some hfind).2
  · intro j va
    rw [h'.load_eq, h.load_eq, hsp]
  · intro va hva b hdone
    obtain ⟨_, hu⟩ := h.inUse i hi
    obtain ⟨_, hu'⟩ := h'.inUse i hi
    obtain ⟨t, hr⟩ := Option.isSome_iff_exists.mp hu.live
    obtain ⟨t', hr'⟩ := Option.isSome_iff_exists.mp hu'.live
    obtain ⟨res, s₁, hexec, hiff, _⟩ := (wp_store_canStore (b := b) h.inv hr hu.topped).exists_ok
    rw [hexec] at hdone
    have hcan := hiff.mp (Except.ok.inj hdone)
    have hcan' := hcan.of_outline h.inv hinv ho hva
    obtain ⟨res', s₂, hexec', hiff', hfree⟩ :=
      (wp_store_canStore (b := b) hinv hr' hu'.topped).exists_ok
    rw [hiff'.mpr hcan'] at hexec'
    refine ⟨s₂, hexec', fun hone => hfree ?_⟩
    rw [page_refcnt_of_outline h.inv hinv ho]
    exact hone

/-- In every state of the system, `fork` by a running process returns, and if it returns -1
    it has done no harm. -/
theorem failed_fork_harmless {w : System} (h : (system .cow).Reachable w) {i : Nat}
    (hi : (w.machine.proc i).state = .runnable) :
    ∃ res k', exec (fork .cow i) w.machine = (.ok res, k') ∧
      (res = none → Harmless i w.machine k') := by
  obtain ⟨held, hw⟩ := sysInv_of_reachable h
  have hused : (w.machine.proc i).state ≠ .unused := by simp [hi]
  have hP := hw.procs
  apply wp.exists_ok
  refine wp_fork hP hused ?_ ?_ ?_
  · intro np k' _ _ hnone
    cases hnone
  · intro _ _
    exact hP.harmless hused hP.inv (.refl _) rfl rfl
  · rintro ⟨s', proc'⟩ hundone _
    obtain rfl : proc' = w.machine.proc := hundone.proc
    exact hP.harmless hused hundone.inv hundone.kept hundone.space hundone.outline

/-- A tiny machine with few free frames, whose first process has a writable segment in
    page 0. -/
def cramped : System :=
  ⟨(exec (@boot tinyLayout .cow 4 [⟨0, 4096, 0, 2, fun _ => 0⟩])
    (Machine.reset fun _ => 0)).2, [], []⟩

/-- The process gives back all but 288 bytes. -/
def shrunk : System :=
  (exec (@Label.run tinyLayout .cow (.event ⟨0, .sbrk (-12000)⟩)) cramped).2

omit [Layout] in
theorem shrunk_reachable : (@system tinyLayout .cow).Reachable shrunk := by
  let := tinyLayout
  have hstart : (system .cow).Reachable cramped :=
    .init ⟨fun _ => 0, 4, [⟨0, 4096, 0, 2, fun _ => 0⟩], Prod.ext (by decide +kernel) rfl, rfl, rfl⟩
  have hrun : (exec (Label.run .cow (.event ⟨0, .sbrk (-12000)⟩)) cramped).1 = .ok () := by
    decide +kernel
  exact hstart.step (e := .event ⟨0, .sbrk (-12000)⟩) ⟨trivial, Prod.ext hrun rfl⟩

omit [Layout] in
/-- There is no frame for the page table of the child. -/
theorem failed_fork_harmless_shrunk :
    ∃ k', exec (@fork tinyLayout .cow 0) shrunk.machine = (.ok none, k') ∧
      @Harmless tinyLayout 0 shrunk.machine k' := by
  let := tinyLayout
  have hrun : (shrunk.machine.proc 0).state = .runnable := by decide +kernel
  obtain ⟨res, k', hexec, hharmless⟩ := failed_fork_harmless shrunk_reachable hrun
  have hnone : (exec (fork .cow 0) shrunk.machine).1 = .ok none := by decide +kernel
  rw [hexec] at hnone
  obtain rfl : res = none := Except.ok.inj hnone
  exact ⟨k', hexec, hharmless rfl⟩

omit [Layout] in
/-- Page 0 goes up to 4096, but the size is 288. The process could store to address 300 before
    the fork, and is killed for it afterwards. -/
theorem failed_fork_kills_beyond_size :
    (@system tinyLayout .cow).Reachable shrunk ∧ (shrunk.machine.proc 0).state = .runnable ∧
    (exec (@fork tinyLayout .cow 0) shrunk.machine).1 = .ok none ∧
    (exec (@store tinyLayout .cow (shrunk.machine.proc 0).pagetable (shrunk.machine.proc 0).sz 300 7)
      shrunk.machine.mem).1 = .ok .done ∧
    (exec (@store tinyLayout .cow (shrunk.machine.proc 0).pagetable (shrunk.machine.proc 0).sz 300 7)
      (exec (@fork tinyLayout .cow 0) shrunk.machine).2.mem).1 = .ok .killed :=
  ⟨shrunk_reachable, by decide +kernel, by decide +kernel, by decide +kernel, by decide +kernel⟩

end Vm
