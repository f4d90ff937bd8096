-- SUMMARY: Both kernels do to processes what users expect, as long as memory lasts: every event of the process table refines the event on private address spaces.
import OsLabs.Vm.Outline
import OsLabs.Vm.Users

/-!
# Events refine what users see

One lemma for each function of the process table: it keeps the invariant, and the view of
users changes as `Users.act` says. Both kernels are covered at once, since the lemmas about
page tables hold for both. A function that runs out of memory leaves the flag `oom` set, and
nothing is said about the rest of that event.
-/

namespace Vm

open Effect

variable [Layout] {κ : Version} {held : Nat → Nat} {k : Machine} {i j : Nat}
variable {E : Panic → Machine → Prop}

section

variable {s : Memory} {proc : Nat → Proc}

omit [Layout] in
theorem wp_onMem {α : Type} {m : KernelM α} {Q : α → Machine → Prop} :
    wp (onMem m) Q E ⟨s, proc⟩ ↔
      wp m (fun a s' => Q a ⟨s', proc⟩) (fun e s' => E e ⟨s', proc⟩) s := wp_zoom

omit [Layout] in
theorem wp_modifyProc {g : Proc → Proc} {Q : Unit → Machine → Prop} :
    wp (modifyProc i g) Q E ⟨s, proc⟩ ↔ Q () ⟨s, Function.update proc i (g (proc i))⟩ := Iff.rfl

omit [Layout] in
theorem wp_modifyProc_update {p : Proc} {g : Proc → Proc} {Q : Unit → Machine → Prop} :
    wp (modifyProc i g) Q E ⟨s, Function.update proc i p⟩ ↔
      Q () ⟨s, Function.update proc i (g p)⟩ := by
  rw [wp_modifyProc, Function.update_self, Function.update_idem]

end

/-! ## Freeing a slot -/

omit [Layout] in
theorem InUse.frame_eq {s : Memory} {p : Proc} (h : InUse s p) :
    p.frame = some (p.trapframe / PGSIZE) := if_neg h.trapframe.1

/-- Other slots have other page tables. -/
theorem PInv.others (h : PInv κ held k) (hi : (k.proc i).state ≠ .unused) :
    ∀ j ≠ i, (k.proc j).state ≠ .unused → (k.proc j).pagetable ≠ (k.proc i).pagetable :=
  fun j hji hj heq => hji (h.root j i hj hi heq)

/-- The slot `i` has been given up, with its page table and trapframe. -/
structure Freed (κ : Version) (held : Nat → Nat) (i : Nat) (k k' : Machine) : Prop where
  inv : PInv κ held k'
  users : k'.users = Function.update k.users i .unused
  proc : k'.proc = Function.update k.proc i .unused
  dead : k'.mem.pgtbl (k.proc i).pagetable = none
  kept : KeptBut (k.proc i).pagetable k.mem k'.mem
  space : ∀ r' ≠ (k.proc i).pagetable, k'.mem.space r' = k.mem.space r'
  others : k'.mem.others (k.proc i).pagetable = k.mem.others (k.proc i).pagetable

theorem wp_freeproc {Q : Unit → Machine → Prop} (h : PInv κ held k)
    (hi : (k.proc i).state ≠ .unused) (hok : ∀ k', Freed κ held i k k' → Q () k') :
    wp (freeproc κ i) Q E k := by
  obtain ⟨hlt, hu⟩ := h.inUse i hi
  obtain ⟨t, hr⟩ := Option.isSome_iff_exists.mp hu.live
  have hroot : (k.proc i).pagetable ≠ 0 := by
    intro hzero
    rw [hzero, h.inv.pgtbl_zero] at hr
    cases hr
  have hinv := h.inv
  rw [owners_give (p := .unused) hlt hu.frame_eq rfl] at hinv
  unfold freeproc
  rw [wp_bind, wp_get, if_pos hu.trapframe.1, if_pos hroot, wp_bind, wp_onMem]
  rw [← hu.trapframe.2]
  apply wp_kfree_inv hinv
  intro s₁ h₁ hpt hsp hoom
  have hk₁ : Kept k.mem s₁ := .of_pgtbl hpt fun ho => hoom.trans ho
  rw [wp_bind, wp_onMem]
  refine (keeps_procFreepagetable (κ := κ) _ (k.proc i).sz s₁).mp ?_
  refine wp_procFreepagetable h₁ (hpt ▸ hr) (hu.topped.kept hk₁) ?_ ?_
  · intro s₂ h₂ hk₂ hdead hsp₂ hothers
    have hk := (hk₁.but _).trans hk₂
    have hsame : ∀ r' ≠ (k.proc i).pagetable, s₂.space r' = k.mem.space r' := by
      intro r' hne
      rw [hsp₂, Function.update_of_ne hne, hsp]
    rw [wp_modifyProc]
    refine hok _ ⟨h.setProc h₂ hk hsame (h.others hi) (.inl rfl), ?_, rfl, hdead, hk, hsame,
      hothers.trans (others_of_outline (outline_congr hpt) _)⟩
    rw [h.users_setProc h₂ hsame (h.others hi)]
    simp only [Proc.unused, h₂.space_zero, User.unused]
  · intro e s₂ _ hbad
    -- The pages of the process are mapped, and no others are.
    rw [hsp] at hbad
    rcases hbad with ⟨w, hw, hnone⟩ | ⟨w, hw, hsome⟩
    · have := (hu.mapped w).mpr hw
      simp [hnone] at this
    · have := (hu.mapped w).mp hsome
      omega

/-! ## Allocating a slot -/

omit [Layout] in
theorem findSlot_some {c : Nat → Bool} (h : findSlot c = some i) : i < NPROC ∧ c i = true :=
  ⟨List.mem_range.mp (List.mem_of_find?_eq_some h), List.find?_some h⟩

/-- Giving up a slot without a page table. -/
theorem wp_freeproc_used {Q : Unit → Machine → Prop} {s : Memory} {proc : Nat → Proc}
    {p : Proc} {x : Nat → Nat} (hpt : p.pagetable = 0)
    (htf : p.trapframe = 0 ∧ Inv κ s x ∨ ∃ f, Inv κ s (inc x f) ∧ p.trapframe = f * PGSIZE)
    (hok : ∀ s', Inv κ s' x → s'.pgtbl = s.pgtbl → s'.space = s.space → s'.oom = s.oom →
      Q () ⟨s', Function.update proc i .unused⟩) :
    wp (freeproc κ i) Q E ⟨s, Function.update proc i p⟩ := by
  unfold freeproc
  rw [wp_bind, wp_get]
  simp only [Function.update_self]
  rcases htf with ⟨hzero, h⟩ | ⟨f, h, hf⟩
  · rw [if_neg (not_not.mpr hzero), if_neg (not_not.mpr hpt), wp_modifyProc_update]
    exact hok s h rfl rfl rfl
  · have hne : f ≠ 0 := h.ne_zero (f := f) (by simp [total_inc])
    have htf : p.trapframe ≠ 0 := by
      rw [hf]
      exact Nat.mul_ne_zero hne (by decide)
    rw [if_pos htf, if_neg (not_not.mpr hpt), wp_bind, wp_onMem, hf]
    apply wp_kfree_inv h
    intro s' h' hpt' hsp hoom
    rw [wp_modifyProc_update]
    exact hok s' h' hpt' hsp hoom

/-- The slot `i` has been taken. It has an empty page table that was not there before. -/
structure Allocated (κ : Version) (held : Nat → Nat) (i : Nat) (k k' : Machine) : Prop where
  inv : PInv κ held k'
  users : k'.users = Function.update k.users i { User.unused with state := .used }
  proc : ∀ j ≠ i, k'.proc j = k.proc j
  new : k.mem.pgtbl (k'.proc i).pagetable = none
  kept : KeptBut (k'.proc i).pagetable k.mem k'.mem
  space : k'.mem.space = k.mem.space
  others : k'.mem.others (k'.proc i).pagetable = k.mem.others (k'.proc i).pagetable

/-- There was no memory for a new process, and what had been done for it has been undone. -/
structure Undone (κ : Version) (held : Nat → Nat) (k k' : Machine) : Prop where
  inv : Inv κ k'.mem (owners held k.proc)
  proc : k'.proc = k.proc
  kept : Kept k.mem k'.mem
  space : k'.mem.space = k.mem.space
  outline : k'.mem.outline = k.mem.outline
  oom : k'.mem.oom = true

theorem wp_allocproc {Q : Option Nat → Machine → Prop} (h : PInv κ held k)
    (hok : ∀ i k', findSlot (fun i => (k.proc i).state = .unused) = some i →
      Allocated κ held i k k' → Q (some i) k')
    (hfull : findSlot (fun i => (k.proc i).state = .unused) = none → Q none k)
    (hoom : ∀ k', Undone κ held k k' → Q none k') : wp (allocproc κ) Q E k := by
  obtain ⟨s, proc⟩ := k
  unfold allocproc
  rw [wp_bind, wp_get]
  dsimp only
  cases hfind : findSlot fun i => (proc i).state = .unused with
  | none => exact hfull hfind
  | some i =>
      obtain ⟨hlt, hc⟩ := findSlot_some hfind
      have hun : proc i = .unused := h.unused i (by simpa using hc)
      have hback : Function.update proc i .unused = proc := by rw [← hun, Function.update_eq_self]
      dsimp only
      rw [wp_bind, wp_modifyProc, wp_bind, wp_onMem, hun]
      refine wp_kalloc_inv h.inv ?_ ?_
      · intro _
        dsimp only
        rw [wp_bind]
        apply wp_freeproc_used rfl (.inl ⟨rfl, h.inv.setOom⟩)
        intro s' h' hpt hsp ho
        rw [hback]
        exact hoom _ ⟨h', rfl, .of_pgtbl hpt fun _ => ho, hsp.trans space_setOom,
          outline_congr hpt, ho⟩
      · intro f s₁ ha
        dsimp only
        rw [wp_bind, wp_modifyProc_update, wp_bind, wp_onMem]
        refine (wp_procPagetable_oneNew ha.inv).mp ?_
        refine wp_procPagetable ha.inv ?_ ?_
        · intro r s₂ h₂ hk₂ hnew hlive htop hsp₂ hone
          dsimp only
          rw [wp_bind, wp_modifyProc_update]
          have hsp : s₂.space = s.space := hsp₂.trans (ha.space_eq h.inv)
          have hspace : s₂.space r = fun _ => none := by
            rw [hsp, space_of_dead (ha.pgtbl ▸ hnew)]
          have hf : f ≠ 0 := ha.inv.ne_zero (by simp [ha.one])
          have hp : InUse s₂ ⟨.used, none, 0, r, f * PGSIZE⟩ := by
            refine ⟨by simp, hlive, htop, ⟨?_, by rw [frame_div]⟩, ?_, Nat.zero_le _⟩
            · exact Nat.mul_ne_zero hf (by decide)
            · intro v
              rw [hspace]
              simp [npages, pgroundup, pgrounddown, PGSIZE]
          have hothers : ∀ j ≠ i, (proc j).state ≠ .unused → (proc j).pagetable ≠ r := by
            rintro j _ hj rfl
            have hl := (h.inUse j hj).2.live
            rw [ha.pgtbl] at hnew
            simp [hnew] at hl
          have hk : KeptBut r s s₂ := (ha.kept.but r).trans hk₂
          have hframe := hp.frame_eq
          rw [frame_div] at hframe
          rw [← owners_take hlt (by simp [hun, Proc.unused, Proc.frame]) hframe] at h₂
          refine hok i _ hfind ⟨h.setProc h₂ hk (fun r' _ => by rw [hsp]) hothers
            (.inr ⟨hlt, rfl, hp⟩), ?_, fun j hj => Function.update_of_ne hj .., ?_, ?_, hsp, ?_⟩
          · rw [h.users_setProc h₂ (fun r' _ => by rw [hsp]) hothers, hspace]
            rfl
          · simp only [Function.update_self]
            exact ha.pgtbl ▸ hnew
          · simp only [Function.update_self]
            exact hk
          · simp only [Function.update_self]
            exact (hone.others hnew hlive).trans (others_of_outline (outline_congr ha.pgtbl) r)
        · intro s₂ h₂ hk₂ hsp₂ ho hone
          dsimp only
          rw [wp_bind]
          apply wp_freeproc_used rfl (.inr ⟨f, h₂, rfl⟩)
          intro s₃ h₃ hpt hsp₃ ho₃
          have hk₃ : Kept s₂ s₃ := .of_pgtbl hpt fun ho => ho₃.trans ho
          rw [hback]
          refine hoom _ ⟨h₃, rfl, (ha.kept.trans hk₂).trans hk₃, ?_, ?_, ho₃.trans ho⟩
          · rw [hsp₃, hsp₂, ha.space_eq h.inv]
          · rw [outline_congr hpt, hone.outline hk₂.live, outline_congr ha.pgtbl]

/-! ## Changes to one address space -/

/-- The memory of one process has changed, with its size. -/
theorem PInv.remap {s' : Memory} {σ : Space} {p : Proc} (h : PInv κ held k)
    (hi : (k.proc i).state ≠ .unused) (hinv : Inv κ s' (owners held k.proc)) (hk : Kept k.mem s')
    (hsp : s'.space = Function.update k.mem.space (k.proc i).pagetable σ)
    (hstate : p.state ≠ .unused) (hpt : p.pagetable = (k.proc i).pagetable)
    (htf : p.trapframe = (k.proc i).trapframe) (hmapped : ∀ v, (σ v).isSome ↔ v < npages p.sz)
    (hsize : UserSize p.sz) :
    PInv κ held ⟨s', Function.update k.proc i p⟩ ∧
      Machine.users ⟨s', Function.update k.proc i p⟩ =
        Function.update k.users i ⟨p.state, p.parent, p.sz, σ⟩ := by
  obtain ⟨hlt, hu⟩ := h.inUse i hi
  have hσ : s'.space p.pagetable = σ := by rw [hsp, hpt, Function.update_self]
  have hsame : ∀ r' ≠ (k.proc i).pagetable, s'.space r' = k.mem.space r' := by
    intro r' hne
    rw [hsp, Function.update_of_ne hne]
  have hp : InUse s' p := by
    refine ⟨hstate, ?_, ?_, htf ▸ hu.trapframe, fun v => by rw [hσ, hmapped], hsize⟩
    · rw [hpt, hk.live]
      exact hu.live
    · rw [hpt]
      exact hu.topped.kept hk
  have hframe : ∀ j, (Function.update k.proc i p j).frame = (k.proc j).frame := by
    intro j
    by_cases hj : j = i
    · subst hj
      simp only [Function.update_self, Proc.frame, htf]
    · rw [Function.update_of_ne hj]
  rw [← owners_congr hframe] at hinv
  refine ⟨h.setProc hinv (hk.but _) hsame (h.others hi) (.inr ⟨hlt, hpt, hp⟩), ?_⟩
  rw [h.users_setProc hinv hsame (h.others hi), hσ]

/-- Nothing that a user could see has changed. -/
theorem PInv.kept {s' : Memory} (h : PInv κ held k) (hinv : Inv κ s' (owners held k.proc))
    (hk : Kept k.mem s') (hsp : s'.space = k.mem.space) :
    PInv κ held ⟨s', k.proc⟩ ∧ Machine.users ⟨s', k.proc⟩ = k.users := by
  refine ⟨⟨hinv, h.unused, ?_, h.root⟩, ?_⟩
  · intro i hi
    obtain ⟨hlt, hu⟩ := h.inUse i hi
    refine ⟨hlt, hu.state, ?_, hu.topped.kept hk, hu.trapframe, ?_, hu.size⟩
    · rw [hk.live]
      exact hu.live
    · intro v
      rw [hsp]
      exact hu.mapped v
  · funext i
    simp only [Machine.users, Machine.user, hsp]

/-! ## Events -/

/-- An event that returned or panicked with `res` has done what users expect, unless there
    was not enough memory. -/
def Matches (κ : Version) (held : Nat → Nat) (spec : Except Panic Out × Users)
    (res : Except Panic Out) (k : Machine) : Prop :=
  k.mem.oom = false → PInv κ held k ∧ spec = (res, k.users)

theorem Matches.of_oom {spec : Except Panic Out × Users} {res : Except Panic Out}
    (h : k.mem.oom = true) : Matches κ held spec res k := fun ho => by simp [h] at ho

/-- States and parents of slots in use have changed. -/
theorem PInv.relabel {proc' : Nat → Proc} (h : PInv κ held k)
    (hunused : ∀ j, (k.proc j).state = .unused → proc' j = k.proc j)
    (hinUse : ∀ j, (k.proc j).state ≠ .unused → (proc' j).state ≠ .unused ∧
      (proc' j).sz = (k.proc j).sz ∧ (proc' j).pagetable = (k.proc j).pagetable ∧
      (proc' j).trapframe = (k.proc j).trapframe) : PInv κ held ⟨k.mem, proc'⟩ := by
  have hstate : ∀ j, (proc' j).state ≠ .unused → (k.proc j).state ≠ .unused := by
    intro j hj hk
    rw [hunused j hk] at hj
    exact hj hk
  refine ⟨?_, ?_, ?_, ?_⟩
  · have hframe : ∀ j, (proc' j).frame = (k.proc j).frame := by
      intro j
      by_cases hj : (k.proc j).state = .unused
      · exact congrArg Proc.frame (hunused j hj)
      · simp only [Proc.frame, (hinUse j hj).2.2.2]
    rw [owners_congr hframe]
    exact h.inv
  · intro j hj
    by_cases hk : (k.proc j).state = .unused
    · exact (hunused j hk).trans (h.unused j hk)
    · exact absurd hj (hinUse j hk).1
  · intro j hj
    obtain ⟨hlt, hu⟩ := h.inUse j (hstate j hj)
    obtain ⟨_, hsz, hpt, htf⟩ := hinUse j (hstate j hj)
    refine ⟨hlt, hj, hpt ▸ hu.live, hpt ▸ hu.topped, htf ▸ hu.trapframe, ?_, hsz ▸ hu.size⟩
    rw [hpt, hsz]
    exact hu.mapped
  · intro a b ha hb hab
    refine h.root a b (hstate a ha) (hstate b hb) ?_
    rwa [← (hinUse a (hstate a ha)).2.2.1, ← (hinUse b (hstate b hb)).2.2.1]

/-- `exit` only touches the process table, and takes no slot out of use. -/
theorem wp_exit {Q : Unit → Machine → Prop} (h : PInv κ held k) (hi : (k.proc i).state ≠ .unused)
    (hinit : i = initproc → E .initExiting k)
    (hok : ∀ proc', i ≠ initproc → PInv κ held ⟨k.mem, proc'⟩ →
      Machine.users ⟨k.mem, proc'⟩ = k.users.exit i →
      (∀ j, (proc' j).pagetable = (k.proc j).pagetable) →
      (∀ j, (proc' j).state ≠ .unused → (k.proc j).state ≠ .unused) → Q () ⟨k.mem, proc'⟩) :
    wp (exit i) Q E k := by
  obtain ⟨s, proc⟩ := k
  unfold exit
  by_cases hi₀ : i = initproc
  · rw [if_pos hi₀]
    exact hinit hi₀
  · rw [if_neg hi₀, wp_bind, reparent, wp_modify, wp_modifyProc]
    refine hok _ hi₀ (h.relabel ?_ ?_) ?_ ?_ ?_
    · intro j hj
      have hji : j ≠ i := by
        rintro rfl
        exact hi hj
      have hun : proc j = .unused := h.unused j hj
      simp [hji, hun, Proc.unused, newParent]
    · intro j hj
      by_cases hji : j = i
      · subst hji
        simp
      · simpa [hji] using hj
    · funext j
      by_cases hji : j = i
      · subst hji
        simp only [Users.exit, Machine.users, Machine.user, Function.update_self]
      · simp only [Users.exit, Machine.users, Machine.user, Function.update_of_ne hji]
    · intro j
      by_cases hji : j = i
      · rw [hji, Function.update_self]
      · rw [Function.update_of_ne hji]
    · intro j hj
      by_cases hji : j = i
      · rwa [hji]
      · rwa [Function.update_of_ne hji] at hj

theorem wp_stop (out : Out) (h : PInv κ held k) (hi : (k.proc i).state ≠ .unused) :
    wp (exit i >>= fun _ => pure out) (fun o => Matches κ held (k.users.stop i out) (.ok o))
      (fun p => Matches κ held (k.users.stop i out) (.error p)) k := by
  unfold Users.stop
  rw [wp_bind]
  refine wp_exit h hi ?_ ?_
  · intro hinit _
    rw [if_pos hinit]
    exact ⟨h, rfl⟩
  · intro proc' hinit h' husers _ _ _
    rw [if_neg hinit, husers]
    exact ⟨h', rfl⟩

omit [Layout] in
/-- The pages that are mapped are all that `fork` copies. -/
theorem InUse.copyFrom {s : Memory} {p : Proc} (h : InUse s p) :
    Space.copyFrom (fun _ => none) (s.space p.pagetable) (npages p.sz) = s.space p.pagetable := by
  funext v
  unfold Space.copyFrom
  split
  · rfl
  · rename_i hv
    exact (Option.not_isSome_iff_eq_none.mp (mt (h.mapped v).mp hv)).symm

/-- The slot `np` has a copy of the process in slot `i`. -/
structure Forked (κ : Version) (held : Nat → Nat) (i np : Nat) (k k' : Machine) : Prop where
  inv : PInv κ held k'
  users : k'.users =
    Function.update k.users np { k.users i with parent := some i, state := .runnable }
  proc : ∀ j ≠ np, k'.proc j = k.proc j
  new : k.mem.pgtbl (k'.proc np).pagetable = none
  kept : KeptBut (k'.proc np).pagetable k.mem k'.mem
  space : ∀ r ≠ (k'.proc np).pagetable, k'.mem.space r = k.mem.space r

/-- Giving up the new slot again, after some of the pages have been shared and unshared. -/
theorem Freed.undone {np : Nat} {k₁ k' : Machine} {s₂ : Memory} (hun : k.proc np = .unused)
    (ha : Allocated κ held np k k₁) (hk₂ : Kept k₁.mem s₂) (hsp₂ : s₂.space = k₁.mem.space)
    (hothers₂ : s₂.others (k₁.proc np).pagetable = k₁.mem.others (k₁.proc np).pagetable)
    (ho : s₂.oom = true) (hf : Freed κ held np ⟨s₂, k₁.proc⟩ k') : Undone κ held k k' := by
  have hproc : k'.proc = k.proc := by
    funext j
    rw [hf.proc]
    by_cases hj : j = np
    · rw [hj, Function.update_self, hun]
    · rw [Function.update_of_ne hj]
      exact ha.proc j hj
  have hinv := hf.inv.inv
  rw [hproc] at hinv
  refine ⟨hinv, hproc, ?_, ?_, ?_, hf.kept.oom ho⟩
  · exact ((ha.kept.trans (hk₂.but _)).trans hf.kept).kept ha.new hf.dead
  · funext r
    by_cases hr : r = (k₁.proc np).pagetable
    · rw [hr, space_of_dead hf.dead, space_of_dead ha.new]
    · rw [hf.space r hr]
      exact congrFun (hsp₂.trans ha.space) r
  · exact outline_of_others (hf.others.trans (hothers₂.trans ha.others)) ha.new hf.dead

theorem wp_fork {Q : Option Nat → Machine → Prop} (h : PInv κ held k)
    (hi : (k.proc i).state ≠ .unused)
    (hok : ∀ np k', findSlot (fun j => (k.proc j).state = .unused) = some np →
      Forked κ held i np k k' → Q (some np) k')
    (hfull : findSlot (fun j => (k.proc j).state = .unused) = none → Q none k)
    (hoom : ∀ k', Undone κ held k k' → Q none k') : wp (fork κ i) Q E k := by
  unfold fork
  rw [wp_bind]
  refine wp_allocproc h ?_ hfull hoom
  intro np k₁ hfind ha
  have hun : k.proc np = .unused := h.unused np (by simpa using (findSlot_some hfind).2)
  have hne : i ≠ np := by
    rintro rfl
    exact hi (by rw [hun]; rfl)
  have hpi : k₁.proc i = k.proc i := ha.proc i hne
  have hi₁ : (k₁.proc i).state ≠ .unused := by rwa [hpi]
  have hui := congrFun ha.users i
  have hunp := congrFun ha.users np
  rw [Function.update_of_ne hne] at hui
  rw [Function.update_self] at hunp
  have hnp₁ : (k₁.proc np).state ≠ .unused := by
    have hstate : (k₁.proc np).state = .used := congrArg User.state hunp
    simp [hstate]
  have hempty : k₁.mem.space (k₁.proc np).pagetable = fun _ => none := congrArg User.space hunp
  have h₁ := ha.inv
  obtain ⟨_, hu⟩ := h₁.inUse i hi₁
  obtain ⟨_, hu'⟩ := h₁.inUse np hnp₁
  obtain ⟨t, hr⟩ := Option.isSome_iff_exists.mp hu.live
  obtain ⟨t', hr'⟩ := Option.isSome_iff_exists.mp hu'.live
  obtain ⟨s₁, proc₁⟩ := k₁
  dsimp only
  rw [wp_bind, wp_get, wp_bind, wp_onMem]
  refine (keeps_uvmcopy (κ := κ) (proc₁ i).pagetable (proc₁ np).pagetable (proc₁ i).sz s₁).mp ?_
  refine wp_uvmcopy h₁.inv hr hr' (fun heq => hne (h₁.root i np hi₁ hnp₁ heq)) hu'.topped hu.size
    ?_ ?_ ?_
  · intro s₂ h₂ hk₂ _ hsp _
    dsimp only
    rw [wp_bind, wp_modifyProc, wp_pure]
    rw [hempty, hu.copyFrom] at hsp
    obtain ⟨h₃, husers₃⟩ := h₁.remap hnp₁ h₂ hk₂ hsp
      (p := { proc₁ np with sz := (proc₁ i).sz, parent := some i, state := .runnable })
      (by simp) rfl rfl hu.mapped hu.size
    have hpt : (Function.update proc₁ np { proc₁ np with
        sz := (proc₁ i).sz, parent := some i, state := .runnable } np).pagetable =
        (proc₁ np).pagetable := by rw [Function.update_self]
    refine hok np _ hfind ⟨h₃, ?_, ?_, ?_, ?_, ?_⟩
    · rw [husers₃, ha.users, Function.update_idem, ← hui]
      rfl
    · intro j hj
      exact (Function.update_of_ne hj _ _).trans (ha.proc j hj)
    · rw [hpt]
      exact ha.new
    · rw [hpt]
      exact ha.kept.trans (hk₂.but _)
    · intro r hr
      rw [hpt] at hr
      rw [hsp, Function.update_of_ne hr]
      exact congrFun ha.space r
  · intro s₂ h₂ hk₂ hsp ho hothers
    -- The child is given up again.
    obtain ⟨h₃, _⟩ := h₁.kept h₂ hk₂ hsp
    dsimp only
    rw [wp_bind]
    apply wp_freeproc h₃ hnp₁
    intro k' hfreed
    exact hoom k' (hfreed.undone hun ha hk₂ hsp hothers ho)
  · rintro e s₂ _ ⟨u, hlt, hc⟩
    exact absurd ⟨(hu.mapped u).mpr hlt, congrFun hempty u⟩ hc

theorem wp_fork_matches (h : PInv κ held k) (hi : (k.proc i).state ≠ .unused) :
    wp (Action.fork.run κ i) (fun o => Matches κ held (k.users.act i .fork) (.ok o))
      (fun p => Matches κ held (k.users.act i .fork) (.error p)) k := by
  unfold Action.run
  rw [wp_bind]
  refine wp_fork h hi ?_ ?_ fun k' hundone => .of_oom hundone.oom
  · intro np k' hfind hforked _
    have hslot : findSlot (fun j => (k.users j).state = .unused) = some np := hfind
    refine ⟨hforked.inv, ?_⟩
    rw [Users.act, hslot, hforked.users]
  · intro hfull _
    have hslot : findSlot (fun j => (k.users j).state = .unused) = none := hfull
    refine ⟨h, ?_⟩
    rw [Users.act, hslot]

/-! ## Changing the size -/

omit [Layout] in
theorem addU64_of_nonneg {sz : Nat} {n : Int} (h₁ : 0 ≤ sz + n) (h₂ : sz + n < 2 ^ 64) :
    addU64 sz n = (sz + n).toNat := by
  rw [addU64, Int.emod_eq_of_lt h₁ h₂]

omit [Layout] in
/-- Giving back too much wraps around. -/
theorem le_addU64_of_neg {sz : Nat} {n : Int} (h₁ : sz + n < 0) (h₂ : -2 ^ 31 ≤ n)
    (h₃ : sz < 2 ^ 32) : sz ≤ addU64 sz n := by
  rw [addU64]
  omega

/-- The size of a process is bounded by the number of frames. -/
theorem PInv.sz_lt (h : PInv κ held k) (hi : (k.proc i).state ≠ .unused) :
    (k.proc i).sz < 2 ^ 32 := by
  have hu := (h.inUse i hi).2
  exact sz_lt_of_npages hu.size (h.inv.le_nframe fun v hv => (hu.mapped v).mpr hv)

/-- So no single growth gets as far as the trapframe. -/
theorem PInv.userSize_add {n : Int} (h : PInv κ held k) (hi : (k.proc i).state ≠ .unused)
    (hn : n < 2 ^ 31) : UserSize ((k.proc i).sz + n).toNat := by
  have hsz := h.sz_lt hi
  have hmax : ((k.proc i).sz + n).toNat ≤ 274877898752 := by omega
  exact hmax

theorem PInv.resize {s' : Memory} {n : Int} (h : PInv κ held k) (hi : (k.proc i).state ≠ .unused)
    (hinv : Inv κ s' (owners held k.proc)) (hk : Kept k.mem s') (hn : 0 ≤ (k.proc i).sz + n)
    (hsize : UserSize ((k.proc i).sz + n).toNat)
    (hsp : s'.space = Function.update k.mem.space (k.proc i).pagetable
      ((k.mem.space (k.proc i).pagetable).resize (npages (k.proc i).sz)
        (npages ((k.proc i).sz + n).toNat) (Page.zero true false))) :
    PInv κ held ⟨s', Function.update k.proc i { k.proc i with sz := ((k.proc i).sz + n).toNat }⟩ ∧
      Machine.users
        ⟨s', Function.update k.proc i { k.proc i with sz := ((k.proc i).sz + n).toNat }⟩ =
        Function.update k.users i ((k.users i).grow n) := by
  have hu := (h.inUse i hi).2
  have hgrow : (k.users i).grow n = ⟨(k.proc i).state, (k.proc i).parent, ((k.proc i).sz + n).toNat,
      (k.mem.space (k.proc i).pagetable).resize (npages (k.proc i).sz)
        (npages ((k.proc i).sz + n).toNat) (Page.zero true false)⟩ := if_pos hn
  rw [hgrow]
  exact h.remap hi hinv hk hsp hi rfl rfl (Space.isSome_resize hu.mapped _ _) hsize

/-- The memory of the process in slot `i` has changed, and nobody else's. -/
structure Regrown (κ : Version) (held : Nat → Nat) (i : Nat) (k k' : Machine) : Prop where
  inv : PInv κ held k'
  kept : Kept k.mem k'.mem
  space : ∀ r ≠ (k.proc i).pagetable, k'.mem.space r = k.mem.space r
  slots : ∀ j, (k'.proc j).state = (k.proc j).state ∧
    (k'.proc j).pagetable = (k.proc j).pagetable

omit [Layout] in
theorem slots_update {proc : Nat → Proc} {p : Proc} (hstate : p.state = (proc i).state)
    (hpt : p.pagetable = (proc i).pagetable) (j : Nat) :
    (Function.update proc i p j).state = (proc j).state ∧
      (Function.update proc i p j).pagetable = (proc j).pagetable := by
  by_cases hj : j = i
  · rw [hj, Function.update_self]
    exact ⟨hstate, hpt⟩
  · rw [Function.update_of_ne hj]
    exact ⟨rfl, rfl⟩

theorem wp_growproc {Q : Bool → Machine → Prop} {n : Int} (h : PInv κ held k)
    (hi : (k.proc i).state ≠ .unused) (hn₁ : -2 ^ 31 ≤ n) (hn₂ : n < 2 ^ 31)
    (hok : ∀ k', Regrown κ held i k k' →
      k'.users = Function.update k.users i ((k.users i).grow n) → Q true k')
    (hfail : ∀ s', Inv κ s' (owners held k.proc) → Kept k.mem s' → s'.space = k.mem.space →
      s'.oom = true → Q false ⟨s', k.proc⟩) : wp (growproc κ i n) Q E k := by
  have hsz := h.sz_lt hi
  obtain ⟨_, hu⟩ := h.inUse i hi
  obtain ⟨t, hr⟩ := Option.isSome_iff_exists.mp hu.live
  have hsize := h.userSize_add hi hn₂
  obtain ⟨s, proc⟩ := k
  dsimp only at hr hu hsz hsize
  -- Nothing happens to a process whose size does not change.
  have hstay : (Machine.users ⟨s, proc⟩ i).grow n = Machine.users ⟨s, proc⟩ i →
      Q true ⟨s, proc⟩ := by
    intro hgrow
    refine hok _ ⟨h, .refl s, fun _ _ => rfl, fun _ => ⟨rfl, rfl⟩⟩ ?_
    rw [hgrow, Function.update_eq_self]
  unfold growproc
  rw [wp_bind, wp_get]
  dsimp only
  by_cases hpos : n > 0
  · have hnew : addU64 (proc i).sz n = ((proc i).sz + n).toNat :=
      addU64_of_nonneg (by omega) (by omega)
    have hle : (proc i).sz ≤ ((proc i).sz + n).toNat := by omega
    have hmono := npages_mono hsize hle
    rw [if_pos hpos, hnew, wp_bind, wp_onMem]
    refine wp_uvmalloc h.inv hr hu.topped (fun hlt => absurd hle (by omega))
      ?_ hfail fun e s' _ ⟨u, hu₁, hu₂, hbad⟩ => ?_
    · intro _ s' h' hk _ hsp
      rw [growth_eq hsize hle, Space.fill_eq_resize hu.mapped hmono] at hsp
      dsimp only
      rw [if_neg (by omega), wp_bind, wp_modifyProc, wp_pure]
      obtain ⟨h₁, husers⟩ := h.resize hi h' hk (by omega) hsize hsp
      refine hok _ ⟨h₁, hk, ?_, slots_update rfl rfl⟩ husers
      intro r hne
      rw [hsp, Function.update_of_ne hne]
    · rw [growth_eq hsize hle] at hu₂
      refine absurd ⟨?_, ?_⟩ hbad
      · have := hsize.npages_le
        omega
      · exact Option.not_isSome_iff_eq_none.mp (mt (hu.mapped u).mp (by omega))
  · rw [if_neg hpos]
    by_cases hneg : n < 0
    · rw [if_pos hneg, wp_bind, wp_onMem]
      refine wp_uvmdealloc h.inv hr hu.size.le_maxva hu.size.npages_le ?_
        ?_ fun e s' _ ⟨w, _, hw, hnone⟩ => ?_
      · intro hge
        -- There is not that much to give back.
        have hlt : ¬ 0 ≤ (proc i).sz + n := by
          intro hnn
          rw [addU64_of_nonneg hnn (by omega)] at hge
          omega
        rw [wp_bind, wp_modifyProc, wp_pure, Function.update_eq_self]
        exact hstay (if_neg hlt)
      · intro hlt s' h' hk hsp
        have hnn : 0 ≤ (proc i).sz + n := by
          by_contra hlt'
          have := le_addU64_of_neg (by omega) hn₁ hsz
          omega
        rw [addU64_of_nonneg hnn (by omega)] at hlt hsp ⊢
        rw [Space.fill_none_eq_resize hu.mapped (npages_mono hu.size (by omega))
          (Page.zero true false)] at hsp
        rw [wp_bind, wp_modifyProc, wp_pure]
        obtain ⟨h₁, husers⟩ := h.resize hi h' hk hnn hsize hsp
        refine hok _ ⟨h₁, hk, ?_, slots_update rfl rfl⟩ husers
        intro r hne
        rw [hsp, Function.update_of_ne hne]
      · have := (hu.mapped w).mpr hw
        simp [hnone] at this
    · obtain rfl : n = 0 := by omega
      rw [if_neg hneg]
      exact hstay (by simp [User.grow, Machine.users, Machine.user, Space.resize_self hu.mapped])

theorem wp_sbrk_matches {n : Int} (h : PInv κ held k) (hi : (k.proc i).state ≠ .unused) :
    wp ((Action.sbrk n).run κ i) (fun o => Matches κ held (k.users.act i (.sbrk n)) (.ok o))
      (fun p => Matches κ held (k.users.act i (.sbrk n)) (.error p)) k := by
  unfold Action.run
  rw [wp_bind, wp_get, wp_bind]
  refine wp_growproc h hi (CInt.le_wrap32 n) (CInt.wrap32_lt n) ?_ ?_
  · intro k' hgrown husers
    rw [if_pos rfl]
    refine fun _ => ⟨hgrown.inv, ?_⟩
    rw [husers]
    rfl
  · intro s' _ _ _ ho
    exact .of_oom ho

/-! ## Loads and stores -/

theorem wp_load_matches {va : Nat} (h : PInv κ held k) (hi : (k.proc i).state ≠ .unused) :
    wp ((Action.load va).run κ i) (fun o => Matches κ held (k.users.act i (.load va)) (.ok o))
      (fun p => Matches κ held (k.users.act i (.load va)) (.error p)) k := by
  have hu := (h.inUse i hi).2
  obtain ⟨t, hr⟩ := Option.isSome_iff_exists.mp hu.live
  have hload : k.mem.load (k.proc i).pagetable va = (k.users i).space.load va :=
    load_eq h.inv hr hu.topped
  unfold Action.run
  rw [wp_bind, wp_get, hload]
  cases hb : (k.users i).space.load va with
  | some b =>
      have hact : k.users.act i (.load va) = (.ok (.byte b), k.users) := by
        simp only [Users.act, hb]
      exact fun _ => ⟨h, hact⟩
  | none =>
      have hact : k.users.act i (.load va) = k.users.stop i .killed := by
        simp only [Users.act, hb]
      rw [hact]
      exact wp_stop _ h hi

/-- A store that the copy-on-write kernel refuses: the page is marked, and the address is
    not below the size of the process. -/
def Event.BeyondSize (e : Event) (k : Machine) : Prop :=
  match e.action with
  | .store va _ =>
      (k.proc e.slot).sz ≤ va ∧ k.mem.UserPage (k.proc e.slot).pagetable (va / PGSIZE) ∧
        (k.mem.pte (k.proc e.slot).pagetable (va / PGSIZE)).rsw = true
  | _ => False

omit [Layout] in
theorem Space.isSome_store {σ σ' : Space} {va : Nat} {b : UInt8} (h : σ.store va b = some σ')
    (v : Nat) : (σ' v).isSome = (σ v).isSome := by
  unfold Space.store at h
  cases hp : σ (va / PGSIZE) with
  | none => simp [hp] at h
  | some p =>
      simp only [hp, Option.bind_eq_bind, Option.bind_some, Option.ite_none_right_eq_some,
        Option.some.injEq] at h
      rw [← h.2]
      by_cases hv : v = va / PGSIZE
      · subst hv
        rw [Function.update_self, hp]
        rfl
      · rw [Function.update_of_ne hv]

omit [Layout] in
/-- `exit` does not touch memory. -/
theorem wp_stop_mem {out : Out} : wp (exit i >>= fun _ => pure out)
    (fun _ k' => k'.mem = k.mem) (fun _ k' => k'.mem = k.mem) k := by
  unfold exit
  split
  · rfl
  · rfl

theorem wp_store_matches {va : Nat} {b : UInt8} (h : PInv κ held k)
    (hi : (k.proc i).state ≠ .unused) (hbelow : ¬ Event.BeyondSize ⟨i, .store va b⟩ k) :
    wp ((Action.store va b).run κ i) (fun o => Matches κ held (k.users.act i (.store va b)) (.ok o))
      (fun p => Matches κ held (k.users.act i (.store va b)) (.error p)) k := by
  have hu := (h.inUse i hi).2
  obtain ⟨t, hr⟩ := Option.isSome_iff_exists.mp hu.live
  obtain ⟨s, proc⟩ := k
  unfold Action.run
  rw [wp_bind, wp_get, wp_bind, wp_onMem]
  refine wp_store h.inv hr hu.topped ?_ ?_
  · intro σ s' hσ h' hk hsp
    have hmapped : ∀ v, (σ v).isSome ↔ v < npages (proc i).sz := by
      intro v
      rw [Space.isSome_store hσ]
      exact hu.mapped v
    have hact : Users.act (Machine.users ⟨s, proc⟩) i (.store va b) =
        (.ok .stored, Function.update (Machine.users ⟨s, proc⟩) i
          { Machine.users ⟨s, proc⟩ i with space := σ }) := by
      have hσ' : (Machine.users ⟨s, proc⟩ i).space.store va b = some σ := hσ
      simp only [Users.act, hσ']
    have hmap := h.remap (p := proc i) hi h' hk hsp hi rfl rfl hmapped hu.size
    rw [Function.update_eq_self] at hmap
    refine fun _ => ⟨hmap.1, ?_⟩
    rw [hact, hmap.2]
    rfl
  · intro s' h' hk hsp hwhy
    obtain ⟨h₁, husers⟩ := h.kept h' hk hsp
    have hstop := wp_stop .killed h₁ hi
    rw [husers] at hstop
    dsimp only
    by_cases ho : s'.oom = true
    · exact wp_stop_mem.mono (fun _ k' hmem => .of_oom (by rw [hmem, ho]))
        fun _ k' hmem => .of_oom (by rw [hmem, ho])
    · have hnone : (Machine.users ⟨s, proc⟩ i).space.store va b = none :=
        hwhy.resolve_right fun hc => hc.elim ho hbelow
      have hact : Users.act (Machine.users ⟨s, proc⟩) i (.store va b) =
          Users.stop (Machine.users ⟨s, proc⟩) i .killed := by
        simp only [Users.act, hnone]
      rw [hact]
      exact hstop

/-! ## Waiting, and all events -/

theorem wp_wait {Q : WaitRes → Machine → Prop} (h : PInv κ held k)
    (hreaped : ∀ j k',
      findSlot (fun j => (k.proc j).parent = some i ∧ (k.proc j).state = .zombie) = some j →
      (k.proc j).state ≠ .unused → Freed κ held j k k' → Q (.reaped j) k')
    (hsleeps : findSlot (fun j => (k.proc j).parent = some i ∧ (k.proc j).state = .zombie) = none →
      (findSlot fun j => (k.proc j).parent = some i).isSome → Q .sleeps k)
    (hnone : findSlot (fun j => (k.proc j).parent = some i ∧ (k.proc j).state = .zombie) = none →
      ¬ (findSlot fun j => (k.proc j).parent = some i).isSome → Q .noChildren k) :
    wp (wait κ i) Q E k := by
  unfold wait
  rw [wp_bind, wp_get]
  cases hz : findSlot fun j => (k.proc j).parent = some i ∧ (k.proc j).state = .zombie with
  | some j =>
      have hc := (findSlot_some hz).2
      simp only [decide_eq_true_eq] at hc
      have hj : (k.proc j).state ≠ .unused := by simp [hc.2]
      dsimp only
      rw [wp_bind]
      apply wp_freeproc h hj
      intro k' hfreed
      exact hreaped j k' hz hj hfreed
  | none =>
      dsimp only
      split
      · rename_i hkids
        exact hsleeps hz hkids
      · rename_i hkids
        exact hnone hz hkids

theorem wp_wait_matches (h : PInv κ held k) :
    wp (Action.wait.run κ i) (fun o => Matches κ held (k.users.act i .wait) (.ok o))
      (fun p => Matches κ held (k.users.act i .wait) (.error p)) k := by
  unfold Action.run
  rw [wp_bind]
  refine wp_wait h ?_ ?_ ?_
  · intro j k' hz _ hfreed _
    have hslot : findSlot (fun j => (k.users j).parent = some i ∧
      (k.users j).state = .zombie) = some j := hz
    refine ⟨hfreed.inv, ?_⟩
    rw [hfreed.users]
    simp only [Users.act, hslot]
  · intro hz hkids _
    have hslot : findSlot (fun j => (k.users j).parent = some i ∧
      (k.users j).state = .zombie) = none := hz
    have hkids' : (findSlot fun j => (k.users j).parent = some i).isSome := hkids
    refine ⟨h, ?_⟩
    simp only [Users.act, hslot]
    rw [if_pos hkids']
  · intro hz hkids _
    have hslot : findSlot (fun j => (k.users j).parent = some i ∧
      (k.users j).state = .zombie) = none := hz
    have hkids' : ¬ (findSlot fun j => (k.users j).parent = some i).isSome := hkids
    refine ⟨h, ?_⟩
    simp only [Users.act, hslot]
    rw [if_neg hkids']

/-- Every event of either kernel does what users expect. -/
theorem wp_event {e : Event} (h : PInv κ held k) (hbelow : ¬ e.BeyondSize k) :
    wp (e.run κ) (fun o => Matches κ held (k.users.step e) (.ok o))
      (fun p => Matches κ held (k.users.step e) (.error p)) k := by
  obtain ⟨i, a⟩ := e
  unfold Event.run Users.step
  rw [wp_bind, wp_get]
  by_cases hrun : (k.proc i).state = .runnable
  · have hi : (k.proc i).state ≠ .unused := by simp [hrun]
    have hrun' : (k.users i).state = .runnable := hrun
    rw [if_pos hrun, if_pos hrun']
    cases a with
    | fork => exact wp_fork_matches h hi
    | load va => exact wp_load_matches h hi
    | store va b => exact wp_store_matches h hi hbelow
    | sbrk n => exact wp_sbrk_matches h hi
    | exit => exact wp_stop _ h hi
    | wait => exact wp_wait_matches h
  · have hrun' : ¬ (k.users i).state = .runnable := hrun
    rw [if_neg hrun, if_neg hrun']
    exact fun _ => ⟨h, rfl⟩

end Vm
