-- SUMMARY: The memory of the patched kernel as a machine whose steps are calls of its functions, and the invariant of that machine: exact reference counts and exclusive write access.
import Mathlib.Data.Set.Card
import OsLabs.Lib.Transition
import OsLabs.Vm.Image

/-!
# The patched kernel as a machine

A step is one call of a function of the allocator or of the page table code, with any
arguments that keep the promises its callers make. A call that panics ends the run.

Frames that the kernel holds for itself, such as kernel stacks and trapframes, come from a
call of `kalloc` and stay with their owner until `kfree`. The machine keeps a list of
them.
-/

namespace Vm

open Effect

structure Kernel where
  mem : Memory
  /-- The frames owned outside of page tables. The kernel does not record this. -/
  owned : List Nat

/-- A call. -/
inductive Op
  | kalloc
  | kfree (f : Nat)
  | procPagetable (trapframe : Nat)
  | procFreepagetable (pt sz : Nat)
  | uvmfree (pt sz : Nat)
  | uvmalloc (pt oldsz newsz : Nat) (w x : Bool)
  | uvmdealloc (pt oldsz newsz : Nat)
  | uvmunmap (pt va npages : Nat)
  | uvmcopy (old new sz : Nat)
  | cowalloc (pt va : Nat)
  | copyout (pt dstva : Nat) (src : Nat → UInt8) (len : Nat)
  | uvmclear (pt va : Nat)
  | loadseg (pt va : Nat) (src : Nat → UInt8) (sz : Nat)
  | store (pt sz va : Nat) (b : UInt8)

/-- What a call returns, as far as it matters. -/
inductive Ret
  | done
  | page (pa : Option Nat)
  | copied (res : CopyRes)

variable [Layout]

def Op.run : Op → KernelM Ret
  | .kalloc                      => do return .page (← Vm.kalloc .cow)
  | .kfree f                     => do
      Vm.kfree .cow (f * PGSIZE)
      return .done
  | .procPagetable trapframe     => do return .page (← Vm.procPagetable .cow trapframe)
  | .procFreepagetable pt sz     => do
      Vm.procFreepagetable .cow pt sz
      return .done
  | .uvmfree pt sz               => do
      Vm.uvmfree .cow pt sz
      return .done
  | .uvmalloc pt oldsz newsz w x => do return .page (← Vm.uvmalloc .cow pt oldsz newsz w x)
  | .uvmdealloc pt oldsz newsz   => do
      let _ ← Vm.uvmdealloc .cow pt oldsz newsz
      return .done
  | .uvmunmap pt va npages       => do
      Vm.uvmunmap .cow pt va npages true
      return .done
  | .uvmcopy old new sz          => do return .copied (← Vm.uvmcopy .cow old new sz)
  | .cowalloc pt va              => do return .page (← Vm.cowalloc .cow pt va)
  | .copyout pt dstva src len    => do
      let _ ← Vm.copyout .cow pt dstva src len
      return .done
  | .uvmclear pt va              => do
      Vm.uvmclear .cow pt va
      return .done
  | .loadseg pt va src sz        => do
      Vm.loadseg .cow pt va src sz
      return .done
  | .store pt sz va b            => do
      let _ ← Vm.store .cow pt sz va b
      return .done

/-- The owned frames after a call that has returned `ret`. -/
def Op.owned (op : Op) (ret : Ret) (l : List Nat) : List Nat :=
  match op, ret with
  | .kalloc, .page (some pa) => pa / PGSIZE :: l
  | .kfree f, _              => l.erase f
  | _, _                     => l

/-- A page table that has been made and not been freed. -/
def Memory.Live (s : Memory) (pt : Nat) : Prop := (s.pgtbl pt).isSome

/-- What the callers promise: `kfree` is called by an owner, page tables are in use, and
    ranges of user pages end below the trapframe. -/
def Op.Ok (op : Op) (k : Kernel) : Prop :=
  match op with
  | .kalloc | .procPagetable _   => True
  | .kfree f                     => f ∈ k.owned
  | .procFreepagetable pt _      => k.mem.Live pt
  | .uvmfree pt sz               => k.mem.Live pt ∧ UserSize sz
  | .uvmalloc pt _ _ _ _         => k.mem.Live pt
  | .uvmdealloc pt oldsz _       => k.mem.Live pt ∧ UserSize oldsz
  | .uvmunmap pt va npages       => k.mem.Live pt ∧ UserSize (va + npages * PGSIZE)
  | .uvmcopy old new sz          => k.mem.Live old ∧ k.mem.Live new ∧ old ≠ new ∧ UserSize sz
  | .cowalloc pt _               => k.mem.Live pt
  | .copyout pt _ _ _            => k.mem.Live pt
  | .uvmclear pt _               => k.mem.Live pt
  | .loadseg pt _ _ _            => k.mem.Live pt
  | .store pt _ _ _              => k.mem.Live pt

/-- The patched kernel, started by `kinit` with anything in RAM. -/
def kernel : TransitionSystem Kernel Op where
  init k := ∃ ram, exec (kinit .cow) (Memory.reset ram) = (.ok (), k.mem) ∧ k.owned = []
  step k op k' := op.Ok k ∧ ∃ ret, exec op.run k.mem = (.ok ret, k'.mem) ∧
    k'.owned = op.owned ret k.owned

/-! ## The invariant -/

/-- The number of owners outside of page tables. -/
def Kernel.owners (k : Kernel) (f : Nat) : Nat := k.owned.count f

structure KInv (k : Kernel) : Prop where
  inv : Inv .cow k.mem k.owners
  topped : ∀ pt, k.mem.Live pt → Topped k.mem pt
  nodup : k.owned.Nodup

variable {k : Kernel} {s' : Memory}

omit [Layout] in
theorem Kept.live_iff {s : Memory} {pt : Nat} (hk : Kept s s') : s'.Live pt ↔ s.Live pt := by
  rw [Memory.Live, Memory.Live, hk.live pt]

omit [Layout] in
theorem KeptBut.live_iff {s : Memory} {r pt : Nat} (hk : KeptBut r s s') (hne : pt ≠ r) :
    s'.Live pt ↔ s.Live pt := by
  rw [Memory.Live, Memory.Live, hk.live pt hne]

/-- After a function that keeps the page tables. -/
theorem KInv.kept {l : List Nat} (h : KInv k) (h' : Inv .cow s' (Kernel.owners ⟨s', l⟩))
    (hk : Kept k.mem s') (hl : l.Nodup) : KInv ⟨s', l⟩ :=
  ⟨h', fun pt hlive => (h.topped pt (hk.live_iff.mp hlive)).kept hk, hl⟩

/-- After a function that makes a page table. -/
theorem KInv.added {r : Nat} (h : KInv k) (h' : Inv .cow s' k.owners) (hk : KeptBut r k.mem s')
    (htop : Topped s' r) : KInv ⟨s', k.owned⟩ := by
  refine ⟨h', ?_, h.nodup⟩
  intro pt hlive
  by_cases hpt : pt = r
  · rwa [hpt]
  · exact hk.topped hpt (h.topped pt ((hk.live_iff hpt).mp hlive))

/-- After a function that frees a page table. -/
theorem KInv.dropped {r : Nat} (h : KInv k) (h' : Inv .cow s' k.owners) (hk : KeptBut r k.mem s')
    (hdead : s'.pgtbl r = none) : KInv ⟨s', k.owned⟩ := by
  refine ⟨h', ?_, h.nodup⟩
  intro pt hlive
  have hpt : pt ≠ r := by
    rintro rfl
    simp [Memory.Live, hdead] at hlive
  exact hk.topped hpt (h.topped pt ((hk.live_iff hpt).mp hlive))

omit [Layout] in
theorem owners_cons (f : Nat) : Kernel.owners ⟨s', f :: k.owned⟩ = inc k.owners f := by
  funext g
  by_cases hg : g = f
  · subst hg
    simp [Kernel.owners]
  · rw [inc_of_ne hg]
    simp [Kernel.owners, Ne.symm hg]

omit [Layout] in
theorem owners_erase (s' : Memory) {f : Nat} (hf : f ∈ k.owned) :
    k.owners = inc (Kernel.owners ⟨s', k.owned.erase f⟩) f := by
  funext g
  have hpos := List.count_pos_iff.mpr hf
  by_cases hg : g = f
  · subst hg
    simp only [Kernel.owners, inc_self, List.count_erase_self]
    omega
  · rw [inc_of_ne hg]
    simp [Kernel.owners, List.count_erase_of_ne hg]

theorem KInv.alloced {f : Nat} (h : KInv k) (ha : Alloced .cow k.owners f k.mem s') :
    KInv ⟨s', f :: k.owned⟩ := by
  refine h.kept (owners_cons f ▸ ha.inv) ha.kept (List.nodup_cons.mpr ⟨?_, h.nodup⟩)
  intro hmem
  have hpos := List.count_pos_iff.mpr hmem
  have hone := ha.one
  rw [total_congr ha.pgtbl, total_inc, inc_self, Memory.total, Kernel.owners] at hone
  omega

/-! ## Steps -/

/-- A call keeps the invariant. It may panic, but not in `kfree`, and `uvmcopy` never finds
    a frame that it cannot count. -/
theorem wp_run {op : Op} (h : KInv k) (hop : op.Ok k) :
    wp op.run (fun ret s' => KInv ⟨s', op.owned ret k.owned⟩ ∧ ret ≠ .copied .badRef)
      (fun e _ => e ≠ .kfree) k.mem := by
  have hkeep : ∀ s', Inv .cow s' k.owners → Kept k.mem s' → KInv ⟨s', k.owned⟩ :=
    fun s' h' hk => h.kept h' hk h.nodup
  cases op with
  | kalloc =>
      rw [Op.run, wp_bind]
      refine wp_kalloc_inv h.inv (fun _ => ⟨hkeep _ h.inv.setOom .setOom, by simp⟩)
        fun f s' ha => ⟨?_, by simp⟩
      simp only [Op.owned, frame_div]
      exact h.alloced ha
  | kfree f =>
      rw [Op.run, wp_bind]
      refine wp_kfree_inv (owners_erase k.mem hop ▸ h.inv) fun s' h' hpt _ hoom =>
        ⟨h.kept h' (.of_pgtbl hpt fun ho => hoom.trans ho) (h.nodup.erase f), by simp⟩
  | procPagetable trapframe =>
      rw [Op.run, wp_bind]
      exact wp_procPagetable h.inv
        (fun r s' h' hk _ _ htop _ => ⟨h.added h' hk htop, by simp⟩)
        fun s' h' hk _ _ => ⟨hkeep s' h' hk, by simp⟩
  | procFreepagetable pt sz =>
      obtain ⟨t, hr⟩ := Option.isSome_iff_exists.mp hop
      rw [Op.run, wp_bind]
      exact wp_procFreepagetable h.inv hr (h.topped pt hop)
        (fun s' h' hk hdead _ => ⟨h.dropped h' hk hdead, by simp⟩) fun e s' he _ => he
  | uvmfree pt sz =>
      obtain ⟨t, hr⟩ := Option.isSome_iff_exists.mp hop.1
      rw [Op.run, wp_bind]
      exact wp_uvmfree h.inv hr (.inl hop.2)
        (fun s' h' hk hdead _ => ⟨h.dropped h' hk hdead, by simp⟩) fun e s' he _ => he
  | uvmalloc pt oldsz newsz w x =>
      obtain ⟨t, hr⟩ := Option.isSome_iff_exists.mp hop
      rw [Op.run, wp_bind]
      exact wp_uvmalloc h.inv hr (h.topped pt hop) (fun _ => ⟨h, by simp⟩)
        (fun _ s' h' hk _ _ => ⟨hkeep s' h' hk, by simp⟩)
        (fun s' h' hk _ _ => ⟨hkeep s' h' hk, by simp⟩) fun e s' he _ => he
  | uvmdealloc pt oldsz newsz =>
      obtain ⟨t, hr⟩ := Option.isSome_iff_exists.mp hop.1
      rw [Op.run, wp_bind]
      exact wp_uvmdealloc h.inv hr hop.2.le_maxva hop.2.npages_le (fun _ => ⟨h, by simp⟩)
        (fun _ s' h' hk _ => ⟨hkeep s' h' hk, by simp⟩) fun e s' he _ => he
  | uvmunmap pt va npages =>
      obtain ⟨t, hr⟩ := Option.isSome_iff_exists.mp hop.1
      rw [Op.run, wp_bind]
      by_cases hva : va % PGSIZE = 0
      · rw [← Nat.div_mul_cancel (Nat.dvd_of_mod_eq_zero hva)]
        refine wp_uvmunmap h.inv hr (.inl ?_) (fun s' h' hk _ => ⟨hkeep s' h' hk, by simp⟩)
          fun e s' he _ => he
        have hsz : va + npages * PGSIZE ≤ 274877898752 := hop.2
        rw [UPAGES_eq]
        simp only [PGSIZE] at *
        omega
      · unfold Vm.uvmunmap
        rw [if_pos hva]
        simp
  | uvmcopy old new sz =>
      obtain ⟨hold, hnew, hne, hsz⟩ := hop
      obtain ⟨t, ho⟩ := Option.isSome_iff_exists.mp hold
      obtain ⟨t₂, hn⟩ := Option.isSome_iff_exists.mp hnew
      rw [Op.run, wp_bind]
      exact wp_uvmcopy h.inv ho hn hne (h.topped new hnew) hsz
        (fun s' h' hk _ _ => ⟨hkeep s' h' hk, by simp⟩)
        (fun s' h' hk _ _ => ⟨hkeep s' h' hk, by simp⟩) fun e s' he _ => he
  | cowalloc pt va =>
      obtain ⟨t, hr⟩ := Option.isSome_iff_exists.mp hop
      rw [Op.run, wp_bind]
      by_cases hva : va % PGSIZE = 0
      · rw [← Nat.div_mul_cancel (Nat.dvd_of_mod_eq_zero hva)]
        exact wp_cowalloc h.inv hr (h.topped pt hop) (fun _ => ⟨h, by simp⟩)
          (fun g s' hp hs _ => ⟨hkeep s' hs.inv (hs.kept hr hp.1), by simp⟩)
          fun _ _ _ => ⟨hkeep _ h.inv.setOom .setOom, by simp⟩
      · unfold Vm.cowalloc
        rw [if_pos hva]
        exact ⟨h, by simp⟩
  | copyout pt dstva src len =>
      obtain ⟨t, hr⟩ := Option.isSome_iff_exists.mp hop
      rw [Op.run, wp_bind]
      exact (wp_copyoutLoop h.inv hr (h.topped pt hop)).mono
        (fun _ s' hs => ⟨hkeep s' hs.1 hs.2.1, by simp⟩) fun _ _ => id
  | uvmclear pt va =>
      obtain ⟨t, hr⟩ := Option.isSome_iff_exists.mp hop
      rw [Op.run, wp_bind]
      exact wp_uvmclear h.inv hr (h.topped pt hop)
        (fun s' h' hk _ => ⟨hkeep s' h' hk, by simp⟩) fun e he => he
  | loadseg pt va src sz =>
      obtain ⟨t, hr⟩ := Option.isSome_iff_exists.mp hop
      rw [Op.run, wp_bind]
      exact wp_loadseg h.inv hr (h.topped pt hop)
        (fun s' h' hk _ => ⟨hkeep s' h' hk, by simp⟩) fun e s' he => he
  | store pt sz va b =>
      obtain ⟨t, hr⟩ := Option.isSome_iff_exists.mp hop
      rw [Op.run, wp_bind]
      exact wp_store h.inv hr (h.topped pt hop)
        (fun σ s' _ h' hk _ => ⟨hkeep s' h' hk, by simp⟩)
        fun s' h' hk _ _ => ⟨hkeep s' h' hk, by simp⟩

theorem kInv_init (h : kernel.init k) : KInv k := by
  obtain ⟨ram, hinit, howned⟩ := h
  obtain ⟨hled, hpt, _⟩ := (wp_kinit ram).ok hinit
  have howners : k.owners = fun _ => 0 := by
    funext f
    simp [Kernel.owners, howned]
  refine ⟨howners ▸ Inv.start hled hpt, ?_, by simp [howned]⟩
  intro pt hlive
  simp [Memory.Live, hpt] at hlive

theorem kInv_step {op : Op} {k' : Kernel} (h : KInv k) (hs : kernel.step k op k') : KInv k' := by
  obtain ⟨hop, ret, hrun, howned⟩ := hs
  have h' := ((wp_run h hop).ok hrun).1
  rwa [← howned] at h'

theorem kInv_of_reachable (h : kernel.Reachable k) : KInv k :=
  h.invariant (fun _ => kInv_init) fun _ _ _ _ => kInv_step

/-! ## Runs -/

/-- The state after a call. -/
def Op.next (op : Op) (k : Kernel) : Kernel :=
  match exec op.run k.mem with
  | (.ok ret, s')  => ⟨s', op.owned ret k.owned⟩
  | (.error _, s') => ⟨s', k.owned⟩

/-- The calls may be made one after the other, and none of them panics. -/
def Runs : Kernel → List Op → Prop
  | _, []        => True
  | k, op :: ops => op.Ok k ∧ (exec op.run k.mem).1.isOk = true ∧ Runs (op.next k) ops

omit [Layout] in
instance {s : Memory} {pt : Nat} : Decidable (s.Live pt) :=
  inferInstanceAs (Decidable ((s.pgtbl pt).isSome = true))

omit [Layout] in
instance {sz : Nat} : Decidable (UserSize sz) := inferInstanceAs (Decidable (sz ≤ TRAPFRAME))

omit [Layout] in
instance {op : Op} : Decidable (op.Ok k) := by
  unfold Op.Ok
  cases op <;> infer_instance

instance decidableRuns : (k : Kernel) → (ops : List Op) → Decidable (Runs k ops)
  | _, []        => inferInstanceAs (Decidable True)
  | k, op :: ops =>
      have := decidableRuns (op.next k) ops
      inferInstanceAs (Decidable (_ ∧ _ ∧ _))

theorem Runs.reachable (ops : List Op) (hk : kernel.Reachable k) (h : Runs k ops) :
    kernel.Reachable (ops.foldl (fun k op => op.next k) k) := by
  induction ops generalizing k with
  | nil => exact hk
  | cons op ops ih =>
      obtain ⟨hop, hret, hrest⟩ := h
      have hnext : kernel.Reachable (op.next k) := by
        unfold Op.next
        cases hrun : exec op.run k.mem with
        | mk res s' =>
            rw [hrun] at hret
            cases res with
            | ok ret => exact hk.step ⟨hop, ret, hrun, rfl⟩
            | error e => cases hret
      exact ih hnext hrest

/-- A machine with 16 free frames. -/
@[reducible] def tinyLayout : Layout where
  kend := PHYSTOP - 16 * PGSIZE
  trampoline := KERNBASE
  kernbase_le := by decide
  kend_le := by decide

/-- The tiny machine after `kinit`. -/
def booted : Kernel := ⟨(exec (@kinit tinyLayout .cow) (Memory.reset fun _ => 0)).2, []⟩

omit [Layout] in
theorem booted_reachable : (@kernel tinyLayout).Reachable booted := by
  let := tinyLayout
  refine .init ⟨fun _ => 0, ?_, rfl⟩
  have hwp := wp_kinit (κ := .cow) fun _ => 0
  unfold booted
  cases hrun : exec (kinit .cow) (Memory.reset fun _ => 0) with
  | mk res s' =>
      cases res with
      | ok _ => rfl
      | error e => exact (hwp.error hrun).elim

/-- Two processes: one with a writable and a read-only page, and a fork of it. Their page
    tables are in the frames 557054 and 557046. -/
def forkOps : List Op :=
  [.kalloc, .procPagetable (557055 * PGSIZE), .uvmalloc 557054 0 4096 true false,
    .uvmalloc 557054 4096 8192 false true, .kalloc, .procPagetable (557047 * PGSIZE),
    .uvmcopy 557054 557046 8192]

def forked : Kernel := forkOps.foldl (fun k op => @Op.next tinyLayout op k) booted

omit [Layout] in
theorem forked_reachable : (@kernel tinyLayout).Reachable forked :=
  let := tinyLayout
  Runs.reachable forkOps booted_reachable (by decide +kernel)

/-! ## Reference counts -/

/-- The user entries that map a frame: the page table and the page number of each. -/
def Memory.userLeaves (s : Memory) (f : Nat) : Set (Nat × Nat) :=
  { p | p.2 < UPAGES ∧ (s.pte p.1 p.2).v = true ∧ (s.pte p.1 p.2).ppn = f }

/-- The places of page tables that have a frame as one of their own pages. -/
def Memory.tablePages (s : Memory) (f : Nat) : Set Place := { p | p.1 ≠ .leaf ∧ s.holds p = some f }

/-- Every reference from a page table is one of the two kinds. -/
theorem Inv.refs_eq {κ : Version} {s : Memory} {x : Nat → Nat} (h : Inv κ s x) (f : Nat) :
    RefCount.refs places s.holds f = (s.userLeaves f).ncard + (s.tablePages f).ncard := by
  have hleaf : s.userLeaves f = ((places.filter fun p => s.holds p = some f).filter
      fun p => p.1 = .leaf).image Prod.snd := by
    ext ⟨r, v⟩
    simp only [Finset.coe_image, Set.mem_image, Finset.mem_coe, Finset.mem_filter]
    constructor
    · rintro ⟨hv, hval, hf⟩
      exact ⟨(.leaf, r, v), ⟨⟨h.leaf_mem hv hval, hf ▸ holds_leaf_of_valid hval⟩, rfl⟩, rfl⟩
    · rintro ⟨⟨kind, r', v'⟩, ⟨⟨hmem, hheld⟩, hkind⟩, heq⟩
      cases heq
      cases hkind
      rw [holds_leaf] at hheld
      split at hheld
      · rename_i hval
        exact ⟨(mem_places.mp hmem).2, hval, Option.some.inj hheld⟩
      · cases hheld
  have htab : s.tablePages f = ((places.filter fun p => s.holds p = some f).filter
      fun p => ¬ p.1 = .leaf) := by
    ext ⟨kind, r, i⟩
    simp only [Finset.mem_coe, Finset.mem_filter]
    constructor
    · rintro ⟨hkind, hheld⟩
      exact ⟨⟨h.place_mem hheld fun heq => absurd heq hkind, hheld⟩, hkind⟩
    · rintro ⟨⟨_, hheld⟩, hkind⟩
      exact ⟨hkind, hheld⟩
  rw [hleaf, htab, Set.ncard_coe_finset, Set.ncard_coe_finset, Finset.card_image_of_injOn,
    Finset.card_filter_add_card_filter_not]
  · rfl
  · intro p hp q hq hpq
    have hp' := (Finset.mem_filter.mp (Finset.mem_coe.mp hp)).2
    have hq' := (Finset.mem_filter.mp (Finset.mem_coe.mp hq)).2
    exact Prod.ext (hp'.trans hq'.symm) hpq

/-- Every count is the number of user entries that map the frame and of the kernel's
    owners, a frame is on the free list, once, if and only if its count is zero, and what
    is mapped is a page that the allocator manages. So `kfree` never panics, and
    `addrefcnt` never fails. -/
theorem refcnt_exact (h : kernel.Reachable k) :
    (∀ f, Managed f → k.mem.refcnt f =
      (k.mem.userLeaves f).ncard + ((k.mem.tablePages f).ncard + k.owned.count f : Nat)) ∧
    k.mem.freelist.Nodup ∧
    (∀ f, f ∈ k.mem.freelist ↔ Managed f ∧ k.mem.refcnt f = 0) ∧
    (∀ pt, ∀ v < UPAGES, (k.mem.pte pt v).v = true → ¬ BadAddress (k.mem.pte pt v).pa) ∧
    (∀ op : Op, op.Ok k → ∀ ret s', exec op.run k.mem = (ret, s') →
      ret ≠ .error .kfree ∧ ret ≠ .ok (.copied .badRef)) := by
  have hk := kInv_of_reachable h
  have hled := hk.inv.ledger
  refine ⟨?_, hled.nodup, ?_, ?_, ?_⟩
  · intro f _
    rw [hled.count rfl f, Memory.total, hk.inv.refs_eq, Nat.add_assoc]
    rfl
  · intro f
    constructor
    · intro hmem
      have hf := hled.managed f hmem
      refine ⟨hf, ?_⟩
      rw [hled.count rfl f, (hled.free f hf).mp hmem]
      rfl
    · rintro ⟨hf, hzero⟩
      rw [hled.count rfl f] at hzero
      exact (hled.free f hf).mpr (by omega)
  · intro pt v hv hval
    exact not_badAddress_iff.mpr (hled.inUse _ (hk.inv.leaf_total hv hval))
  · intro op hop ret s' hrun
    have hwp := wp_run hk hop
    cases ret with
    | ok ret => exact ⟨by simp, fun heq => (hwp.ok hrun).2 (Except.ok.inj heq)⟩
    | error e => exact ⟨fun heq => hwp.error hrun (Except.error.inj heq), by simp⟩

omit [Layout] in
/-- After a fork the frame of a page is counted twice. -/
theorem refcnt_exact_forked :
    forked.mem.refcnt 557051 = 2 ∧ (forked.mem.userLeaves 557051).ncard +
      ((forked.mem.tablePages 557051).ncard + forked.owned.count 557051 : Nat) = (2 : Int) := by
  let := tinyLayout
  have hcount : forked.mem.refcnt 557051 = 2 := by decide +kernel
  have hman : Managed 557051 := by
    unfold Managed
    decide
  exact ⟨hcount, ((refcnt_exact forked_reachable).1 557051 hman).symm.trans hcount⟩

/-- The `int` counters do not overflow. -/
theorem refcnt_lt (h : kernel.Reachable k) (f : Nat) : k.mem.refcnt f < 2 ^ 31 := by
  have hk := kInv_of_reachable h
  have hcount : k.owned.count f ≤ 1 := List.nodup_iff_count_le_one.mp hk.nodup f
  have hrefs : RefCount.refs places k.mem.holds f ≤ NFRAME := by
    by_cases hone : k.mem.total k.owners f = 1
    · unfold Memory.total at hone
      rw [NFRAME_eq]
      omega
    · -- All references are entries for the same page, in different tables.
      refine (RefCount.refs_le_card (fun p => p.2.1) (Finset.range NFRAME) ?_ ?_).trans_eq
        (Finset.card_range _)
      · rintro ⟨kind, r, i⟩ hp _
        exact Finset.mem_range.mpr (mem_places.mp hp).1
      · rintro ⟨kind, r, i⟩ hp ⟨kind', r', i'⟩ hp' hheld hheld' hr
        have hleaf : ∀ kd rt ix, k.mem.holds (kd, rt, ix) = some f → kd = .leaf := by
          intro kd rt ix hh
          by_contra hne
          exact hone (hk.inv.table kd rt ix f hne hh)
        obtain rfl := hleaf kind r i hheld
        obtain rfl := hleaf kind' r' i' hheld'
        obtain rfl : r = r' := hr
        rw [holds_leaf] at hheld hheld'
        split at hheld
        · rename_i hval
          split at hheld'
          · rename_i hval'
            have hi := hk.inv.same r i (mem_places.mp hp).2 r i' (mem_places.mp hp').2 hval hval'
              ((Option.some.inj hheld').trans (Option.some.inj hheld).symm)
            rw [hi]
          · cases hheld'
        · cases hheld
  rw [hk.inv.ledger.count rfl f, Memory.total, Kernel.owners]
  rw [NFRAME_eq] at hrefs
  omega

/-! ## Write access -/

/-- An entry that allows writing is not marked as copy-on-write, and nobody else maps its
    frame. -/
theorem write_exclusive (h : kernel.Reachable k) :
    ∀ pt, ∀ v < UPAGES, (k.mem.pte pt v).v = true →
      ¬ ((k.mem.pte pt v).w = true ∧ (k.mem.pte pt v).rsw = true) ∧
      ((k.mem.pte pt v).w = true → ∀ pt', ∀ v' < UPAGES, (k.mem.pte pt' v').v = true →
        (k.mem.pte pt' v').ppn = (k.mem.pte pt v).ppn → (pt', v') = (pt, v)) := by
  intro pt v hv hval
  have hk := kInv_of_reachable h
  have hleaf := hk.inv.leaf pt v hv hval
  refine ⟨fun ⟨hw, hrsw⟩ => ?_, fun hw => hk.inv.sole_of_one hv hval (hleaf.write hw).2⟩
  rw [(hleaf.write hw).1] at hrsw
  cases hrsw

/-- The parent writes to the page that it shares with the child. -/
def stored : Kernel := @Op.next tinyLayout (.store 557054 8192 0 7) forked

omit [Layout] in
/-- Afterwards the page of the parent is writable, and its frame is not the child's. -/
theorem write_exclusive_stored :
    (stored.mem.pte 557054 0).w = true ∧ ∀ pt', ∀ v' < UPAGES, (stored.mem.pte pt' v').v = true →
      (stored.mem.pte pt' v').ppn = (stored.mem.pte 557054 0).ppn → (pt', v') = (557054, 0) := by
  let := tinyLayout
  have hreach : kernel.Reachable stored :=
    Runs.reachable [.store 557054 8192 0 7] forked_reachable (by decide +kernel)
  have hv : 0 < UPAGES := by
    rw [UPAGES_eq]
    decide
  have hval : (stored.mem.pte 557054 0).v = true := by decide +kernel
  have hw : (stored.mem.pte 557054 0).w = true := by decide +kernel
  exact ⟨hw, (write_exclusive hreach 557054 0 hv hval).2 hw⟩

end Vm
