-- SUMMARY: The memory of a running system: processes, programs that are being loaded, and pages of the kernel itself. Every state of it has the invariant of the process table.
import OsLabs.Vm.Equivalence

/-!
# The running system

The process table is not all that has memory. `exec` builds the address space of a program
in a page table of its own before it gives it to the process, and sleeps in between, so that
other processes run meanwhile. System calls write to the memory of their processes with
`copyout`, and the kernel takes pages for pipes and the like. All of these are steps of the
system, in any order. A step may run out of memory, but a panic is the end.
-/

namespace Vm

open Effect RefCount

structure System where
  machine : Machine
  /-- The frames that the kernel has taken for itself. -/
  owned : List Nat
  /-- The page tables that `exec` is filling or has replaced, with their sizes. -/
  images : List (Nat × Nat)

abbrev SystemM := Effect System Panic

def onMachine {α : Type} (m : ProcM α) : SystemM α :=
  zoom System.machine (fun k w => { w with machine := k }) m

def onMemory {α : Type} (m : KernelM α) : SystemM α := onMachine (onMem m)

/-- The calls of `exec` are those from `procPagetable` on, and `copyout`. -/
inductive Label
  | event (e : Event)
  | kalloc
  | kfree (f : Nat)
  | copyout (pt dstva : Nat) (src : Nat → UInt8) (len : Nat)
  | procPagetable (i : Nat)
  | uvmalloc (pt sz newsz : Nat) (w x : Bool)
  | loadseg (pt va : Nat) (src : Nat → UInt8) (sz : Nat)
  | uvmclear (pt va : Nat)
  | commit (i pt sz : Nat)
  | procFreepagetable (pt sz : Nat)

/-- Some process has the page table. -/
def Machine.Has (k : Machine) (pt : Nat) : Prop :=
  ∃ i, (k.proc i).state ≠ .unused ∧ (k.proc i).pagetable = pt

/-- `exec` has the page table. -/
def System.Loads (w : System) (pt : Nat) : Prop := ∃ sz, (pt, sz) ∈ w.images

section

variable [Layout] (κ : Version)

def Label.run : Label → SystemM Unit
  | .event e => do
      let _ ← onMachine (e.run κ)
  | .kalloc => do
      match ← onMemory (Vm.kalloc κ) with
      | none    => return ()
      | some pa => modify fun w => { w with owned := pa / PGSIZE :: w.owned }
  | .kfree f => do
      onMemory (Vm.kfree κ (f * PGSIZE))
      modify fun w => { w with owned := w.owned.erase f }
  | .copyout pt dstva src len => do
      let _ ← onMemory (Vm.copyout κ pt dstva src len)
  | .procPagetable i => do
      let w ← get
      match ← onMemory (Vm.procPagetable κ (w.machine.proc i).trapframe) with
      | none    => return ()
      | some pt => modify fun w => { w with images := (pt, 0) :: w.images }
  | .uvmalloc pt sz newsz w x => do
      match ← onMemory (Vm.uvmalloc κ pt sz newsz w x) with
      | none     => return ()
      | some sz' => modify fun w => { w with images := (pt, sz') :: w.images.erase (pt, sz) }
  | .loadseg pt va src sz => onMemory (Vm.loadseg κ pt va src sz)
  | .uvmclear pt va => onMemory (Vm.uvmclear κ pt va)
  | .commit i pt sz => do
      let p := (← get).machine.proc i
      onMachine (modifyProc i fun p => { p with pagetable := pt, sz := sz })
      modify fun w => { w with images := (p.pagetable, p.sz) :: w.images.erase (pt, sz) }
  | .procFreepagetable pt sz => do
      onMemory (Vm.procFreepagetable κ pt sz)
      modify fun w => { w with images := w.images.erase (pt, sz) }

omit [Layout] in
/-- Who can do what: pages are given back by the kernel that took them, `copyout` is to a
    page table in use, and `exec` works on its own page tables with their sizes. -/
def Label.Ok (w : System) : Label → Prop
  | .event _ | .kalloc                => True
  | .kfree f                          => f ∈ w.owned
  | .copyout pt _ _ _                 => w.machine.Has pt ∨ w.Loads pt
  | .procPagetable i                  => (w.machine.proc i).state = .runnable
  | .uvmalloc pt sz _ _ _             => (pt, sz) ∈ w.images
  | .loadseg pt _ _ _ | .uvmclear pt _ => w.Loads pt
  | .commit i pt sz                   => (w.machine.proc i).state = .runnable ∧ (pt, sz) ∈ w.images
  | .procFreepagetable pt sz          => (pt, sz) ∈ w.images

/-- The system after it has booted with some program. -/
def system : TransitionSystem System Label where
  init w := ∃ ram held phs, exec (boot κ held phs) (Machine.reset ram) = (.ok (), w.machine) ∧
    w.owned = [] ∧ w.images = []
  step w l w' := l.Ok w ∧ exec (l.run κ) w = (.ok (), w')

end

/-! ## Page tables that stay as they are -/

/-- A page table with the pages below `sz`, and no others. -/
structure TableOk (s : Memory) (pt sz : Nat) : Prop where
  live : (s.pgtbl pt).isSome
  topped : Topped s pt
  mapped : ∀ v, (s.space pt v).isSome ↔ v < npages sz
  size : UserSize sz

/-- No page of `r` has come or gone. -/
structure SamePages (r : Nat) (s s' : Memory) : Prop where
  live : (s'.pgtbl r).isSome = (s.pgtbl r).isSome
  top : ∀ v, UPAGES ≤ v → (s.pte r v).Same (s'.pte r v)
  pages : ∀ v, (s'.space r v).isSome = (s.space r v).isSome

variable {κ : Version} {held held' : Nat → Nat} {k k' : Machine} {s s' : Memory} {w w' : System}
variable {r i pt sz : Nat} {l : Label}

theorem SamePages.topped (h : SamePages r s s') (htop : Topped s r) : Topped s' r := by
  intro v hv hva
  have hval := htop v hv hva
  rw [(h.top v hv).2 hval.1]
  exact hval

theorem TableOk.same (h : TableOk s pt sz) (hs : SamePages pt s s') : TableOk s' pt sz where
  live := hs.live.trans h.live
  topped := hs.topped h.topped
  mapped v := by
    rw [hs.pages]
    exact h.mapped v
  size := h.size

theorem InUse.tableOk {p : Proc} (h : InUse s p) : TableOk s p.pagetable p.sz :=
  ⟨h.live, h.topped, h.mapped, h.size⟩

theorem InUse.of_tableOk {p p' : Proc} (h : InUse s p) (hs : TableOk s' p'.pagetable p'.sz)
    (hstate : p'.state = p.state) (htf : p'.trapframe = p.trapframe) : InUse s' p' :=
  ⟨hstate ▸ h.state, hs.live, hs.topped, htf ▸ h.trapframe, hs.mapped, hs.size⟩

theorem SamePages.of_pgtbl (h : s'.pgtbl = s.pgtbl) (r : Nat) : SamePages r s s' where
  live := by rw [h]
  top v _ := .of_eq (pte_congr h r v)
  pages v := by
    apply Bool.eq_iff_iff.mpr
    rw [space_isSome, space_isSome, pte_congr h]

theorem KeptBut.samePages (h : KeptBut pt s s') (hr : r ≠ pt) (hsp : s'.space r = s.space r) :
    SamePages r s s' :=
  ⟨h.live r hr, h.top r hr, fun v => by rw [hsp]⟩

theorem Kept.samePages (h : Kept s s') (hsp : ∀ v, (s'.space r v).isSome = (s.space r v).isSome) :
    SamePages r s s' :=
  ⟨h.live r, h.top r, hsp⟩

theorem Kept.samePages_of_space (h : Kept s s') (hsp : s'.space = s.space) (r : Nat) :
    SamePages r s s' :=
  h.samePages fun v => by rw [hsp]

/-! ## Events -/

/-- Page tables that no process has are left alone, and none of them is given to a
    process. -/
structure Apart (k k' : Machine) : Prop where
  same : ∀ r, (k.mem.pgtbl r).isSome → ¬ k.Has r → SamePages r k.mem k'.mem
  fresh : ∀ r, (k.mem.pgtbl r).isSome → k'.Has r → k.Has r

theorem Machine.Has.of_slots {pt : Nat} (h : k'.Has pt)
    (hslots : ∀ j, (k'.proc j).state ≠ .unused → (k.proc j).state ≠ .unused ∧
      (k'.proc j).pagetable = (k.proc j).pagetable) : k.Has pt := by
  obtain ⟨j, hj, hpt⟩ := h
  obtain ⟨hstate, htable⟩ := hslots j hj
  exact ⟨j, hstate, htable ▸ hpt⟩

theorem Machine.Has.of_setProc {p : Proc} (h : (k.setProc i p).Has pt) :
    pt = p.pagetable ∨ ∃ j ≠ i, (k.proc j).state ≠ .unused ∧ (k.proc j).pagetable = pt := by
  obtain ⟨j, hj, hpt⟩ := h
  by_cases hji : j = i
  · subst hji
    simp only [Machine.setProc, Function.update_self] at hpt
    exact .inl hpt.symm
  · simp only [Machine.setProc, Function.update_of_ne hji] at hj hpt
    exact .inr ⟨j, hji, hj, hpt⟩

/-- Memory changes, but no page comes or goes. -/
theorem Apart.of_same (hs : ∀ r, SamePages r k.mem k'.mem)
    (hslots : ∀ j, (k'.proc j).state ≠ .unused → (k.proc j).state ≠ .unused ∧
      (k'.proc j).pagetable = (k.proc j).pagetable) : Apart k k' :=
  ⟨fun r _ _ => hs r, fun _ _ hhas => hhas.of_slots hslots⟩

theorem Apart.refl (k : Machine) : Apart k k :=
  .of_same (fun r => .of_pgtbl rfl r) fun _ hj => ⟨hj, rfl⟩

variable [Layout]

/-- Only memory has changed, and the pages of all processes are those from before. -/
theorem PInv.same (h : PInv κ held k) (hinv : Inv κ s' (owners held' k.proc))
    (hs : ∀ r, k.Has r → SamePages r k.mem s') : PInv κ held' ⟨s', k.proc⟩ where
  inv := hinv
  unused := h.unused
  inUse i hi := by
    obtain ⟨hlt, hu⟩ := h.inUse i hi
    exact ⟨hlt, hu.of_tableOk (hu.tableOk.same (hs _ ⟨i, hi, rfl⟩)) rfl rfl⟩
  root := h.root

theorem Undone.apart (h : Undone κ held k k') (hk : PInv κ held k) :
    PInv κ held k' ∧ Apart k k' := by
  obtain ⟨s', proc'⟩ := k'
  obtain rfl : proc' = k.proc := h.proc
  exact ⟨(hk.kept h.inv h.kept h.space).1,
    .of_same (h.kept.samePages_of_space h.space) fun _ hj => ⟨hj, rfl⟩⟩

theorem Forked.apart {np : Nat} (h : Forked κ held i np k k') : Apart k k' where
  same r hr _ := by
    have hne : r ≠ (k'.proc np).pagetable := by
      rintro rfl
      simp [h.new] at hr
    exact h.kept.samePages hne (h.space r hne)
  fresh r hr hhas := by
    obtain ⟨j, hj, hpt⟩ := hhas
    have hne : j ≠ np := by
      rintro rfl
      rw [← hpt, h.new] at hr
      cases hr
    rw [h.proc j hne] at hj hpt
    exact ⟨j, hj, hpt⟩

theorem Regrown.apart (h : Regrown κ held i k k') (hi : (k.proc i).state ≠ .unused) :
    Apart k k' where
  same r _ hhas := by
    have hne : r ≠ (k.proc i).pagetable := fun heq => hhas ⟨i, hi, heq.symm⟩
    exact h.kept.samePages fun v => by rw [h.space r hne]
  fresh r _ hhas := by
    refine hhas.of_slots fun j hj => ?_
    obtain ⟨hstate, hpt⟩ := h.slots j
    rw [hstate] at hj
    exact ⟨hj, hpt⟩

theorem Freed.apart (h : Freed κ held i k k') (hi : (k.proc i).state ≠ .unused) : Apart k k' where
  same r _ hhas := by
    have hne : r ≠ (k.proc i).pagetable := fun heq => hhas ⟨i, hi, heq.symm⟩
    exact h.kept.samePages hne (h.space r hne)
  fresh r _ hhas := by
    refine hhas.of_slots fun j hj => ?_
    rw [h.proc] at hj ⊢
    by_cases hji : j = i
    · rw [hji, Function.update_self] at hj
      exact absurd rfl hj
    · rw [Function.update_of_ne hji] at hj ⊢
      exact ⟨hj, rfl⟩

/-- The end of a process, after a change to memory that nobody sees. -/
theorem wp_exit_apart {out : Out} (h : PInv κ held k) (hi : (k.proc i).state ≠ .unused)
    (hinv : Inv κ s' (owners held k.proc)) (hk : Kept k.mem s') (hsp : s'.space = k.mem.space) :
    wp (exit i >>= fun _ => pure out) (fun _ k' => PInv κ held k' ∧ Apart k k')
      (fun _ _ => True) ⟨s', k.proc⟩ := by
  rw [wp_bind]
  refine wp_exit (h.kept hinv hk hsp).1 hi (fun _ => trivial) ?_
  intro proc' _ h' _ hpt hstate
  exact ⟨h', .of_same (hk.samePages_of_space hsp) fun j hj => ⟨hstate j hj, hpt j⟩⟩

/-- Whatever a process does, and whether or not there is memory for it. -/
theorem wp_event_apart {e : Event} (h : PInv κ held k) :
    wp (e.run κ) (fun _ k' => PInv κ held k' ∧ Apart k k') (fun _ _ => True) k := by
  obtain ⟨i, a⟩ := e
  unfold Event.run
  rw [wp_bind, wp_get]
  by_cases hrun : (k.proc i).state = .runnable
  · have hi : (k.proc i).state ≠ .unused := by simp [hrun]
    obtain ⟨_, hu⟩ := h.inUse i hi
    obtain ⟨t, hr⟩ := Option.isSome_iff_exists.mp hu.live
    rw [if_pos hrun]
    cases a with
    | fork =>
        unfold Action.run
        rw [wp_bind]
        refine wp_fork h hi ?_ ?_ ?_
        · intro np k' _ hforked
          exact ⟨hforked.inv, hforked.apart⟩
        · intro _
          exact ⟨h, .refl k⟩
        · intro k' hundone
          exact hundone.apart h
    | load va =>
        unfold Action.run
        rw [wp_bind, wp_get]
        cases k.mem.load (k.proc i).pagetable va with
        | some b => exact ⟨h, .refl k⟩
        | none => exact wp_exit_apart h hi h.inv (.refl _) rfl
    | store va b =>
        obtain ⟨s, proc⟩ := k
        unfold Action.run
        rw [wp_bind, wp_get, wp_bind, wp_onMem]
        refine wp_store h.inv hr hu.topped ?_ ?_
        · intro σ s' hσ h' hk hsp
          have hpages : ∀ r, SamePages r s s' := by
            intro r
            apply hk.samePages
            intro v
            rw [hsp]
            by_cases hrr : r = (proc i).pagetable
            · rw [hrr, Function.update_self, Space.isSome_store hσ]
            · rw [Function.update_of_ne hrr]
          exact ⟨h.same h' fun r _ => hpages r, .of_same hpages fun _ hj => ⟨hj, rfl⟩⟩
        · intro s' h' hk hsp _
          exact wp_exit_apart h hi h' hk hsp
    | sbrk n =>
        unfold Action.run
        rw [wp_bind, wp_get, wp_bind]
        refine wp_growproc h hi (CInt.le_wrap32 n) (CInt.wrap32_lt n) ?_ ?_
        · intro k' hgrown _
          rw [if_pos rfl]
          exact ⟨hgrown.inv, hgrown.apart hi⟩
        · intro s' h' hk hsp _
          rw [if_neg (by decide)]
          exact ⟨(h.kept h' hk hsp).1,
            .of_same (hk.samePages_of_space hsp) fun _ hj => ⟨hj, rfl⟩⟩
    | exit => exact wp_exit_apart h hi h.inv (.refl _) rfl
    | wait =>
        unfold Action.run
        rw [wp_bind]
        refine wp_wait h ?_ (fun _ _ => ⟨h, .refl k⟩) fun _ _ => ⟨h, .refl k⟩
        intro j k' _ hj hfreed
        exact ⟨hfreed.inv, hfreed.apart hj⟩
  · rw [if_neg hrun]
    exact ⟨h, .refl k⟩

/-! ## The invariant of the system -/

/-- The owners of each frame in the kernel: `held` since it has booted, and `owned` since. -/
def kernelPages (held : Nat → Nat) (owned : List Nat) (f : Nat) : Nat := held f + owned.count f

omit [Layout] in
theorem kernelPages_cons (held : Nat → Nat) (owned : List Nat) (f : Nat) :
    kernelPages held (f :: owned) = inc (kernelPages held owned) f := by
  funext g
  by_cases hg : g = f
  · subst hg
    rw [inc_self, kernelPages, kernelPages, List.count_cons_self, Nat.add_assoc]
  · rw [inc_of_ne hg, kernelPages, kernelPages, List.count_cons_of_ne (Ne.symm hg)]

omit [Layout] in
theorem kernelPages_erase (held : Nat → Nat) {owned : List Nat} {f : Nat} (hf : f ∈ owned) :
    kernelPages held owned = inc (kernelPages held (owned.erase f)) f := by
  rw [← kernelPages_cons]
  funext g
  rw [kernelPages, kernelPages, (List.perm_cons_erase hf).count_eq g]

omit [Layout] in
theorem owners_inc (held : Nat → Nat) (proc : Nat → Proc) (f : Nat) :
    owners (inc held f) proc = inc (owners held proc) f := by
  funext g
  by_cases hg : g = f
  · subst hg
    rw [inc_self, owners, owners, inc_self]
    omega
  · rw [inc_of_ne hg, owners, owners, inc_of_ne hg]

structure SysInv (κ : Version) (held : Nat → Nat) (w : System) : Prop where
  procs : PInv κ (kernelPages held w.owned) w.machine
  images : ∀ p ∈ w.images, TableOk w.machine.mem p.1 p.2
  apart : ∀ p ∈ w.images, ¬ w.machine.Has p.1
  nodup : (w.images.map Prod.fst).Nodup

theorem SysInv.tableOk (h : SysInv κ held w) (hr : w.machine.Has r ∨ w.Loads r) :
    ∃ sz, TableOk w.machine.mem r sz := by
  rcases hr with ⟨i, hi, rfl⟩ | ⟨sz, hmem⟩
  · exact ⟨_, (h.procs.inUse i hi).2.tableOk⟩
  · exact ⟨sz, h.images _ hmem⟩

/-- A step that neither makes nor frees a page table. -/
theorem SysInv.same {owned : List Nat} (h : SysInv κ held w)
    (hP : PInv κ (kernelPages held owned) k')
    (hs : ∀ r, w.Loads r → SamePages r w.machine.mem k'.mem)
    (hhas : ∀ r, w.Loads r → ¬ k'.Has r) : SysInv κ held ⟨k', owned, w.images⟩ where
  procs := hP
  images p hp := (h.images p hp).same (hs p.1 ⟨p.2, hp⟩)
  apart p hp := hhas p.1 ⟨p.2, hp⟩
  nodup := h.nodup

/-- Of a step on memory only, it is enough to know that the pages of processes and of
    `exec` stay. -/
theorem SysInv.memory {owned : List Nat} (h : SysInv κ held w)
    (hinv : Inv κ s' (owners (kernelPages held owned) w.machine.proc))
    (hs : ∀ r, w.machine.Has r ∨ w.Loads r → SamePages r w.machine.mem s') :
    SysInv κ held ⟨⟨s', w.machine.proc⟩, owned, w.images⟩ := by
  refine h.same (h.procs.same hinv fun r hr => hs r (.inl hr)) (fun r hr => hs r (.inr hr)) ?_
  rintro r ⟨sz, hmem⟩ hhas
  exact h.apart _ hmem hhas

omit [Layout] in
/-- Every page table is in the list once. -/
theorem not_mem_erase_image {l : List (Nat × Nat)} (hl : (l.map Prod.fst).Nodup)
    (hmem : (pt, sz) ∈ l) : ∀ p ∈ l.erase (pt, sz), p.1 ≠ pt := by
  have hperm := ((List.perm_cons_erase hmem).map Prod.fst).nodup_iff.mp hl
  rintro p hp rfl
  exact (List.nodup_cons.mp hperm).1 (List.mem_map.mpr ⟨p, hp, rfl⟩)

/-- A page table of `exec` goes out of sight. -/
theorem SysInv.erase (h : SysInv κ held w) (pt sz : Nat) :
    SysInv κ held { w with images := w.images.erase (pt, sz) } where
  procs := h.procs
  images p hp := h.images p (List.mem_of_mem_erase hp)
  apart p hp := h.apart p (List.mem_of_mem_erase hp)
  nodup := h.nodup.sublist (List.erase_sublist.map Prod.fst)

/-- A page table that nobody has is given to `exec`. -/
theorem SysInv.cons (h : SysInv κ held w) (himage : ∀ p ∈ w.images, p.1 ≠ pt)
    (hhas : ¬ w.machine.Has pt) (hok : TableOk w.machine.mem pt sz) :
    SysInv κ held { w with images := (pt, sz) :: w.images } where
  procs := h.procs
  images := List.forall_mem_cons.mpr ⟨hok, h.images⟩
  apart := List.forall_mem_cons.mpr ⟨hhas, h.apart⟩
  nodup := by
    refine List.nodup_cons.mpr ⟨?_, h.nodup⟩
    intro hin
    obtain ⟨p, hp, hpt⟩ := List.mem_map.mp hin
    exact himage p hp hpt

/-- A page table that nobody has is given to a process. -/
theorem SysInv.install (h : SysInv κ held w) (hi : (w.machine.proc i).state ≠ .unused)
    (himage : ∀ p ∈ w.images, p.1 ≠ pt) (hhas : ¬ w.machine.Has pt)
    (hok : TableOk w.machine.mem pt sz) :
    SysInv κ held { w with
      machine := w.machine.setProc i { w.machine.proc i with pagetable := pt, sz := sz } } := by
  obtain ⟨hlt, hu⟩ := h.procs.inUse i hi
  refine ⟨?_, h.images, ?_, h.nodup⟩
  · refine h.procs.setProc (r := pt) ?_ ((Kept.refl _).but pt) (fun _ _ => rfl) ?_
      (.inr ⟨hlt, rfl, hu.of_tableOk hok rfl rfl⟩)
    · rw [owners_congr]
      · exact h.procs.inv
      · exact (Function.forall_update_iff w.machine.proc fun j p =>
          p.frame = (w.machine.proc j).frame).mpr ⟨rfl, fun _ _ => rfl⟩
    · exact fun j _ hj heq => hhas ⟨j, hj, heq⟩
  · intro p hp hnew
    rcases hnew.of_setProc with heq | ⟨j, _, hj, hpt⟩
    · exact himage p hp heq
    · exact h.apart p hp ⟨j, hj, hpt⟩

/-- A page table has been freed. -/
theorem SysInv.dropped (h : SysInv κ held w) (hmem : (pt, sz) ∈ w.images)
    (hinv : Inv κ s' (owners (kernelPages held w.owned) w.machine.proc))
    (hs : ∀ r ≠ pt, SamePages r w.machine.mem s') :
    SysInv κ held ⟨⟨s', w.machine.proc⟩, w.owned, w.images.erase (pt, sz)⟩ := by
  refine (h.erase pt sz).memory hinv fun r hr => hs r ?_
  rintro rfl
  rcases hr with hhas | ⟨sz', hin⟩
  · exact h.apart _ hmem hhas
  · exact not_mem_erase_image h.nodup hmem _ hin rfl

/-- A step of `exec` on one of its page tables. -/
theorem SysInv.replace {sz' : Nat} (h : SysInv κ held w) (hmem : (pt, sz) ∈ w.images)
    (hinv : Inv κ s' (owners (kernelPages held w.owned) w.machine.proc))
    (hs : ∀ r ≠ pt, SamePages r w.machine.mem s') (hok : TableOk s' pt sz') :
    SysInv κ held ⟨⟨s', w.machine.proc⟩, w.owned, (pt, sz') :: w.images.erase (pt, sz)⟩ :=
  (h.dropped hmem hinv hs).cons (not_mem_erase_image h.nodup hmem) (h.apart _ hmem) hok

/-- A page table that was not there before. -/
theorem SysInv.added (h : SysInv κ held w) (hdead : w.machine.mem.pgtbl pt = none)
    (hinv : Inv κ s' (owners (kernelPages held w.owned) w.machine.proc))
    (hs : ∀ r ≠ pt, SamePages r w.machine.mem s') (hok : TableOk s' pt sz) :
    SysInv κ held ⟨⟨s', w.machine.proc⟩, w.owned, (pt, sz) :: w.images⟩ := by
  have hnew : ∀ r, w.machine.Has r ∨ w.Loads r → r ≠ pt := by
    rintro r hr rfl
    obtain ⟨_, hok⟩ := h.tableOk hr
    have hlive := hok.live
    rw [hdead] at hlive
    cases hlive
  apply (h.memory hinv fun r hr => hs r (hnew r hr)).cons
  · exact fun p hp => hnew p.1 (.inr ⟨p.2, hp⟩)
  · exact fun hhas => hnew pt (.inl hhas) rfl
  · exact hok

/-- A process gets the page table that `exec` has made for it, and leaves its own. -/
theorem SysInv.commit (h : SysInv κ held w) (hi : (w.machine.proc i).state ≠ .unused)
    (hmem : (pt, sz) ∈ w.images) :
    SysInv κ held ⟨w.machine.setProc i { w.machine.proc i with pagetable := pt, sz := sz }, w.owned,
      ((w.machine.proc i).pagetable, (w.machine.proc i).sz) :: w.images.erase (pt, sz)⟩ := by
  have hnew := (h.erase pt sz).install hi (not_mem_erase_image h.nodup hmem) (h.apart _ hmem)
    (h.images _ hmem)
  apply hnew.cons
  · intro p hp heq
    exact h.apart p (List.mem_of_mem_erase hp) ⟨i, hi, heq.symm⟩
  · intro hhas
    rcases hhas.of_setProc with heq | ⟨j, hji, hj, hpt⟩
    · exact h.apart _ hmem ⟨i, hi, heq⟩
    · exact h.procs.others hi j hji hj hpt
  · exact (h.procs.inUse i hi).2.tableOk

/-! ## Steps -/

section

variable {E : Panic → System → Prop} {proc : Nat → Proc} {owned : List Nat}
variable {images : List (Nat × Nat)}

omit [Layout] in
theorem wp_onMachine {α : Type} {m : ProcM α} {Q : α → System → Prop} :
    wp (onMachine m) Q E ⟨k, owned, images⟩ ↔ wp m (fun a k' => Q a ⟨k', owned, images⟩)
      (fun e k' => E e ⟨k', owned, images⟩) k := wp_zoom

omit [Layout] in
theorem wp_onMemory {α : Type} {m : KernelM α} {Q : α → System → Prop} :
    wp (onMemory m) Q E ⟨⟨s, proc⟩, owned, images⟩ ↔
      wp m (fun a s' => Q a ⟨⟨s', proc⟩, owned, images⟩)
        (fun e s' => E e ⟨⟨s', proc⟩, owned, images⟩) s := by
  rw [onMemory, wp_onMachine, wp_onMem]

end

theorem wp_copyout_pages {dstva len : Nat} {src : Nat → UInt8} {x : Nat → Nat} (h : Inv κ s x)
    {t : Pagetable} (hr : s.pgtbl pt = some t) (htop : Topped s pt) :
    wp (copyout κ pt dstva src len) (fun _ s' => Inv κ s' x ∧ ∀ r, SamePages r s s')
      (fun _ _ => True) s := by
  cases κ with
  | unpatched =>
      refine (keeps_copyout_unpatched pt dstva src len s).mono ?_ fun _ _ _ => trivial
      intro _ s' hs'
      rw [eq_of_blank hs']
      exact ⟨h.setMem _, fun r => .of_pgtbl (by rfl) r⟩
  | cow =>
      refine (wp_copyoutLoop h hr htop).mono ?_ fun _ _ => id
      rintro _ s' ⟨h', hk, hvalid⟩
      refine ⟨h', fun r => hk.samePages fun v => ?_⟩
      apply Bool.eq_iff_iff.mpr
      rw [space_isSome, space_isSome, hvalid]

theorem wp_label (h : SysInv κ held w) (hl : l.Ok w) :
    wp (l.run κ) (fun _ w' => SysInv κ held w') (fun _ _ => True) w := by
  obtain ⟨⟨s, proc⟩, owned, images⟩ := w
  have hinv := h.procs.inv
  cases l with
  | event e =>
      unfold Label.run
      rw [wp_bind, wp_onMachine]
      refine (wp_event_apart h.procs).mono ?_ fun _ _ => id
      rintro _ k' ⟨hP, hapart⟩
      refine h.same hP ?_ ?_
      · rintro r ⟨sz, hmem⟩
        exact hapart.same r (h.images _ hmem).live (h.apart _ hmem)
      · rintro r ⟨sz, hmem⟩ hhas
        exact h.apart _ hmem (hapart.fresh r (h.images _ hmem).live hhas)
  | kalloc =>
      unfold Label.run
      rw [wp_bind, wp_onMemory]
      refine wp_kalloc_inv hinv ?_ ?_
      · intro _
        exact h.memory hinv.setOom fun r _ => .of_pgtbl (by rfl) r
      · intro f s' ha
        dsimp only
        rw [wp_modify, frame_div]
        refine h.memory ?_ fun r _ => .of_pgtbl ha.pgtbl r
        rw [kernelPages_cons, owners_inc]
        exact ha.inv
  | kfree f =>
      unfold Label.run
      rw [wp_bind, wp_onMemory]
      rw [kernelPages_erase held hl, owners_inc] at hinv
      apply wp_kfree_inv hinv
      intro s' h' hpt _ _
      rw [wp_modify]
      exact h.memory h' fun r _ => .of_pgtbl hpt r
  | copyout pt dstva src len =>
      obtain ⟨sz, hok⟩ := h.tableOk hl
      obtain ⟨t, hr⟩ := Option.isSome_iff_exists.mp hok.live
      unfold Label.run
      rw [wp_bind, wp_onMemory]
      refine (wp_copyout_pages hinv hr hok.topped).mono ?_ fun _ _ => id
      rintro _ s' ⟨h', hpages⟩
      exact h.memory h' fun r _ => hpages r
  | procPagetable i =>
      unfold Label.run
      rw [wp_bind, wp_get, wp_bind, wp_onMemory]
      refine wp_procPagetable hinv ?_ ?_
      · intro pt s' h' hk hdead hlive htop hsp
        dsimp only
        rw [wp_modify]
        refine h.added hdead h' (fun r hr => hk.samePages hr (by rw [hsp])) ⟨hlive, htop, ?_, ?_⟩
        · intro v
          rw [hsp, space_of_dead hdead]
          simp [npages, pgroundup, pgrounddown, PGSIZE]
        · exact Nat.zero_le _
      · intro s' h' hk hsp _
        exact h.memory h' fun r _ => hk.samePages_of_space hsp r
  | uvmalloc pt sz newsz w x =>
      have hok := h.images _ hl
      obtain ⟨t, hr⟩ := Option.isSome_iff_exists.mp hok.live
      unfold Label.run
      rw [wp_bind, wp_onMemory]
      refine wp_uvmalloc_sized hinv hr hok.topped ⟨hok.size, hok.mapped⟩ ?_ ?_ fun _ _ => trivial
      · intro s' h' hk hsp hsized
        dsimp only
        rw [wp_modify]
        refine h.replace hl h' ?_ ⟨?_, hok.topped.kept hk, hsized.mapped, hsized.size⟩
        · intro r hne
          exact hk.samePages fun v => by rw [hsp, Function.update_of_ne hne]
        · rw [hk.live]
          exact hok.live
      · intro s' h' hk hsp
        exact h.memory h' fun r _ => hk.samePages_of_space hsp r
  | loadseg pt va src sz =>
      obtain ⟨sz', hmem⟩ := hl
      have hok := h.images _ hmem
      obtain ⟨t, hr⟩ := Option.isSome_iff_exists.mp hok.live
      unfold Label.run
      rw [wp_onMemory]
      refine (keeps_loadseg pt va src sz s).mp ?_
      refine wp_loadseg hinv hr hok.topped ?_ fun _ _ _ _ => trivial
      intro s' h' _ _ hblank
      have hpt : s'.pgtbl = s.pgtbl := by rw [eq_of_blank hblank]
      exact h.memory h' fun r _ => .of_pgtbl hpt r
  | uvmclear pt va =>
      obtain ⟨sz, hmem⟩ := hl
      have hok := h.images _ hmem
      obtain ⟨t, hr⟩ := Option.isSome_iff_exists.mp hok.live
      unfold Label.run
      rw [wp_onMemory]
      refine wp_uvmclear hinv hr hok.topped ?_ fun _ _ => trivial
      intro s' h' hk hsp
      refine h.memory h' fun r _ => hk.samePages fun v => ?_
      rw [hsp]
      by_cases hne : r = pt
      · rw [hne, Function.update_self, Space.isSome_clear]
      · rw [Function.update_of_ne hne]
  | commit i pt sz =>
      have hi : (proc i).state ≠ .unused := by
        rw [show (proc i).state = .runnable from hl.1]
        decide
      unfold Label.run
      rw [wp_bind, wp_get, wp_bind, wp_onMachine, wp_modifyProc, wp_modify]
      exact h.commit hi hl.2
  | procFreepagetable pt sz =>
      have hok := h.images _ hl
      obtain ⟨t, hr⟩ := Option.isSome_iff_exists.mp hok.live
      unfold Label.run
      rw [wp_bind, wp_onMemory]
      refine wp_procFreepagetable hinv hr hok.topped ?_ fun _ _ _ _ => trivial
      intro s' h' hk _ hsp
      rw [wp_modify]
      refine h.dropped hl h' fun r hne => hk.samePages hne ?_
      rw [hsp, Function.update_of_ne hne]

theorem sysInv_init (h : (system κ).init w) : ∃ held, SysInv κ held w := by
  obtain ⟨ram, n, phs, hboot, howned, himages⟩ := h
  obtain ⟨⟨held, hP⟩, _⟩ := (wp_boot ram).ok hboot
  have hheld : kernelPages held w.owned = held := by
    funext f
    simp [kernelPages, howned]
  refine ⟨held, ?_, ?_, ?_, ?_⟩
  · rwa [hheld]
  · simp [himages]
  · simp [himages]
  · simp [himages]

/-- Every state of the system has the invariant. -/
theorem sysInv_of_reachable (h : (system κ).Reachable w) : ∃ held, SysInv κ held w := by
  refine h.invariant (fun _ => sysInv_init) ?_
  rintro w l w' _ ⟨held, hw⟩ ⟨hl, hrun⟩
  exact ⟨held, (wp_label hw hl).ok hrun⟩

end Vm
