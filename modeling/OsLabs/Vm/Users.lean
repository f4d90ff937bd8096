-- SUMMARY: Processes as their users see them, with a private address space each, and the invariant that relates the process table and memory of either kernel to this view.
import OsLabs.Vm.Proc

/-!
# What users see

`Users` is the purpose of the process and memory code: every process has an address space
of its own, a fork gives the child a copy of it, and memory never runs out. No frames,
page tables or reference counts occur. It is the same for both kernels.

`Machine.users` reads such a state off a kernel, and `PInv` is what makes that view
faithful: each slot in use has its own page table, in which the pages of the process and
no others are mapped.
-/

namespace Vm

open Effect RefCount

/-! ## Users -/

structure User where
  state : ProcState
  parent : Option Nat
  sz : Nat
  space : Space

abbrev Users := Nat → User

def User.unused : User := ⟨.unused, none, 0, fun _ => none⟩

/-- Change the size by `n` bytes. Nobody can give back more than they have. -/
def User.grow (u : User) (n : Int) : User :=
  if 0 ≤ u.sz + n then
    { u with
      sz := (u.sz + n).toNat
      space := u.space.resize (npages u.sz) (npages (u.sz + n).toNat) (Page.zero true false) }
  else u

namespace Users

def exit (us : Users) (i : Nat) : Users :=
  let us' : Users := fun j => { us j with parent := newParent i (us j).parent }
  Function.update us' i { us' i with state := .zombie }

/-- The end of a process. The first one must not end. -/
def stop (us : Users) (i : Nat) (out : Out) : Except Panic Out × Users :=
  if i = initproc then (.error .initExiting, us) else (.ok out, us.exit i)

def act (us : Users) (i : Nat) : Action → Except Panic Out × Users
  | .fork =>
      match findSlot fun j => (us j).state = .unused with
      | none   => (.ok (.forked none), us)
      | some j => (.ok (.forked (some j)),
          Function.update us j { us i with parent := some i, state := .runnable })
  | .load va =>
      match (us i).space.load va with
      | some b => (.ok (.byte b), us)
      | none   => us.stop i .killed
  | .store va b =>
      match (us i).space.store va b with
      | some σ => (.ok .stored, Function.update us i { us i with space := σ })
      | none   => us.stop i .killed
  | .sbrk n =>
      (.ok (.brk (some (us i).sz)), Function.update us i ((us i).grow (CInt.wrap32 n)))
  | .exit => us.stop i .exited
  | .wait =>
      match findSlot fun j => (us j).parent = some i ∧ (us j).state = .zombie with
      | some j => (.ok (.waited (.reaped j)), Function.update us j .unused)
      | none   =>
          if (findSlot fun j => (us j).parent = some i).isSome then (.ok (.waited .sleeps), us)
          else (.ok (.waited .noChildren), us)

def step (us : Users) (e : Event) : Except Panic Out × Users :=
  if (us e.slot).state = .runnable then us.act e.slot e.action else (.ok .idle, us)

/-- What events return, up to a panic, and the users after each of them. -/
def trace : Users → List Event → List (Except Panic Out × Users)
  | _, []       => []
  | us, e :: es =>
      us.step e :: match (us.step e).1 with
        | .ok _    => trace (us.step e).2 es
        | .error _ => []

end Users

def Machine.user (k : Machine) (p : Proc) : User := ⟨p.state, p.parent, p.sz, k.mem.space p.pagetable⟩

def Machine.users (k : Machine) : Users := fun i => k.user (k.proc i)

/-! ## The invariant of the process table -/

/-- The frame of the trapframe. -/
def Proc.frame (p : Proc) : Option Nat :=
  if p.trapframe = 0 then none else some (p.trapframe / PGSIZE)

/-- The number of owners of each frame outside of page tables: `held` of the kernel, and
    the slots whose trapframe it is. -/
def owners (held : Nat → Nat) (proc : Nat → Proc) (f : Nat) : Nat :=
  held f + refs (Finset.range NPROC) (fun i => (proc i).frame) f

/-- A slot in use: it has a trapframe and a page table with the pages below `sz`. -/
structure InUse (s : Memory) (p : Proc) : Prop where
  state : p.state ≠ .unused
  live : (s.pgtbl p.pagetable).isSome
  topped : Topped s p.pagetable
  trapframe : p.trapframe ≠ 0 ∧ p.trapframe / PGSIZE * PGSIZE = p.trapframe
  mapped : ∀ v, (s.space p.pagetable v).isSome ↔ v < npages p.sz
  size : UserSize p.sz

structure PInv [Layout] (κ : Version) (held : Nat → Nat) (k : Machine) : Prop where
  inv : Inv κ k.mem (owners held k.proc)
  unused : ∀ i, (k.proc i).state = .unused → k.proc i = .unused
  inUse : ∀ i, (k.proc i).state ≠ .unused → i < NPROC ∧ InUse k.mem (k.proc i)
  /-- Nobody shares a page table. -/
  root : ∀ i j, (k.proc i).state ≠ .unused → (k.proc j).state ≠ .unused →
    (k.proc i).pagetable = (k.proc j).pagetable → i = j

variable {κ : Version} {held : Nat → Nat} {k : Machine} {proc : Nat → Proc} {s s' : Memory}
variable {x : Nat → Nat} {i j r f n m : Nat} {p : Proc}

/-! ## Owners -/

theorem owners_take (hi : i < NPROC) (hnone : (proc i).frame = none) (hf : p.frame = some f) :
    owners held (Function.update proc i p) = inc (owners held proc) f := by
  have hholds : (fun j => (Function.update proc i p j).frame) =
      Function.update (fun j => (proc j).frame) i (some f) := by
    funext j
    by_cases hj : j = i
    · rw [hj, Function.update_self, Function.update_self, hf]
    · rw [Function.update_of_ne hj, Function.update_of_ne hj]
  funext g
  have hcount := refs_update (h := fun j => (proc j).frame) (Finset.mem_range.mpr hi) (some f) g
  rw [hnone] at hcount
  unfold owners
  rw [hholds]
  by_cases hg : g = f
  · subst hg
    rw [inc_self]
    simp at hcount
    omega
  · rw [inc_of_ne hg]
    simp [Ne.symm hg] at hcount
    omega

theorem owners_give (hi : i < NPROC) (hf : (proc i).frame = some f) (hnone : p.frame = none) :
    owners held proc = inc (owners held (Function.update proc i p)) f := by
  have hempty : (Function.update proc i p i).frame = none := by rwa [Function.update_self]
  rw [← owners_take hi hempty hf, Function.update_idem, Function.update_eq_self]

theorem owners_congr {proc' : Nat → Proc} (h : ∀ i, (proc' i).frame = (proc i).frame) :
    owners held proc' = owners held proc := by
  funext f
  simp only [owners, h]

/-! ## Consequences -/

variable [Layout]

/-- Address `0` is not one of a frame in use. -/
theorem Inv.ne_zero (h : Inv κ s x) (hf : s.total x f ≠ 0) : f ≠ 0 := by
  rintro rfl
  have hman := h.ledger.inUse 0 hf
  have hbase := Layout.kernbase_le
  rw [Managed, Nat.zero_mul] at hman
  exact absurd (hbase.trans hman.1) (by decide)

theorem Inv.pgtbl_zero (h : Inv κ s x) : s.pgtbl 0 = none := by
  by_contra hne
  obtain ⟨t, ht⟩ := Option.ne_none_iff_exists'.mp hne
  have hheld : s.holds (.root, 0, 0) = some 0 := by simp [holds_of_some ht, Pagetable.holds]
  have hone := h.table .root 0 0 0 (by decide) hheld
  exact h.ne_zero (by omega) rfl

theorem Inv.space_zero (h : Inv κ s x) : s.space 0 = fun _ => none := space_of_dead h.pgtbl_zero

/-- The pages of one space are in different frames, so there are not more than these. -/
theorem Inv.le_nframe (h : Inv κ s x) (hmapped : ∀ v < n, (s.space r v).isSome) : n ≤ NFRAME := by
  have hcard := Finset.card_le_card_of_injOn (s := Finset.range n) (t := Finset.range NFRAME)
    (fun v => (s.pte r v).ppn) (fun v hv => ?_) fun v hv w hw hvw => ?_
  · simpa using hcard
  · obtain ⟨hlt, hval⟩ := space_isSome.mp (hmapped v (by simpa using hv))
    have hman := (h.ledger.inUse _ (h.leaf_total hlt hval)).2
    have htop : PHYSTOP = NFRAME * PGSIZE := by
      rw [NFRAME_eq]
      decide
    rw [htop] at hman
    simpa using Nat.lt_of_mul_lt_mul_right hman
  · obtain ⟨hlt, hval⟩ := space_isSome.mp (hmapped v (by simpa using hv))
    obtain ⟨hlt', hval'⟩ := space_isSome.mp (hmapped w (by simpa using hw))
    exact h.same r w hlt' r v hlt hval' hval hvw

omit [Layout] in
/-- The size of a process is far from `MAXVA`. -/
theorem sz_lt_of_npages {sz : Nat} (hsz : UserSize sz) (hn : npages sz ≤ NFRAME) : sz < 2 ^ 32 := by
  rw [npages_of_le hsz.le_maxva, NFRAME_eq] at hn
  omega

omit [Layout] in
/-- A slot in use keeps its memory if its table and its space are kept. -/
theorem InUse.kept (h : InUse s p) (hk : KeptBut r s s') (hr : p.pagetable ≠ r)
    (hsp : s'.space p.pagetable = s.space p.pagetable) : InUse s' p :=
  ⟨h.state, (hk.live _ hr).trans h.live, hk.topped hr h.topped, h.trapframe, hsp ▸ h.mapped, h.size⟩

/-- One slot and one page table have changed. -/
theorem PInv.setProc (h : PInv κ held k) (hinv : Inv κ s' (owners held (Function.update k.proc i p)))
    (hk : KeptBut r k.mem s') (hsp : ∀ r' ≠ r, s'.space r' = k.mem.space r')
    (hr : ∀ j ≠ i, (k.proc j).state ≠ .unused → (k.proc j).pagetable ≠ r)
    (hp : p = .unused ∨ (i < NPROC ∧ p.pagetable = r ∧ InUse s' p)) :
    PInv κ held ⟨s', Function.update k.proc i p⟩ where
  inv := hinv
  unused j hj := by
    by_cases hji : j = i
    · subst hji
      simp only [Function.update_self] at hj ⊢
      exact hp.resolve_right fun hu => hu.2.2.state hj
    · simp only [Function.update_of_ne hji] at hj ⊢
      exact h.unused j hj
  inUse j hj := by
    by_cases hji : j = i
    · subst hji
      simp only [Function.update_self] at hj ⊢
      rcases hp with rfl | hp
      · exact absurd rfl hj
      · exact ⟨hp.1, hp.2.2⟩
    · simp only [Function.update_of_ne hji] at hj ⊢
      obtain ⟨hlt, hu⟩ := h.inUse j hj
      exact ⟨hlt, hu.kept hk (hr j hji hj) (hsp _ (hr j hji hj))⟩
  root := by
    -- The slot that has changed has the table `r`, and nobody else has.
    have hroot : ∀ j ≠ i, (k.proc j).state ≠ .unused → p.state ≠ .unused →
        (k.proc j).pagetable ≠ p.pagetable := by
      intro j hji hj hstate
      rcases hp with rfl | hp
      · exact absurd rfl hstate
      · exact hp.2.1 ▸ hr j hji hj
    intro a b ha hb hab
    by_cases hai : a = i
    · by_cases hbi : b = i
      · rw [hai, hbi]
      · subst hai
        simp only [Function.update_self, Function.update_of_ne hbi] at ha hb hab
        exact absurd hab.symm (hroot b hbi hb ha)
    · by_cases hbi : b = i
      · subst hbi
        simp only [Function.update_self, Function.update_of_ne hai] at ha hb hab
        exact absurd hab (hroot a hai ha hb)
      · simp only [Function.update_of_ne hai, Function.update_of_ne hbi] at ha hb hab
        exact h.root a b ha hb hab

/-- What users see of such a change. -/
theorem PInv.users_setProc (h : PInv κ held k) (hinv : Inv κ s' x)
    (hsp : ∀ r' ≠ r, s'.space r' = k.mem.space r')
    (hr : ∀ j ≠ i, (k.proc j).state ≠ .unused → (k.proc j).pagetable ≠ r) :
    Machine.users ⟨s', Function.update k.proc i p⟩ =
      Function.update k.users i ⟨p.state, p.parent, p.sz, s'.space p.pagetable⟩ := by
  funext j
  by_cases hji : j = i
  · subst hji
    simp only [Machine.users, Machine.user, Function.update_self]
  · simp only [Machine.users, Machine.user, Function.update_of_ne hji]
    by_cases hj : (k.proc j).state = .unused
    · rw [h.unused j hj]
      simp only [Proc.unused, hinv.space_zero, h.inv.space_zero]
    · rw [hsp _ (hr j hji hj)]

end Vm
