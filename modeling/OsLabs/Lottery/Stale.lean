-- SUMMARY: Two runs of the lottery kernel that differ only in what freeproc leaves behind in UNUSED slots dispatch the same processes.
import OsLabs.Lottery.Slots

/-!
# Stale tickets

`freeproc` leaves the ticket fields of a slot as they are, and `allocproc` does not clear
them for the next owner. Nobody can tell: `fork` overwrites the tickets before anybody looks
at them. Here are two kernels that agree on everything but the tickets of UNUSED slots and
`ticks_used`; whatever one of them does, the other does as well. Of `ticks_used` nothing
is said, because `fork` does not overwrite it: no decision of the kernel depends on it, but
`getpinfo` reports it, so a new process shows the ticks of the last owner of its slot.
-/

namespace Lottery

/-! ## Slots that look alike -/

/-- The slot without its ticket fields and `ticks_used`. -/
def Proc.bare (p : Proc) : Proc :=
  { p with initialTickets := 0, currentTickets := 0, ticksUsed := 0 }

/-- The slots agree on everything but `ticks_used`, and on the tickets only if in use. -/
structure Proc.Alike (p q : Proc) : Prop where
  bare : p.bare = q.bare
  initial : p.state ≠ .unused → p.initialTickets = q.initialTickets
  current : p.state ≠ .unused → p.currentTickets = q.currentTickets

theorem Proc.Alike.refl (p : Proc) : p.Alike p := ⟨rfl, fun _ => rfl, fun _ => rfl⟩

section

variable {p q : Proc} (h : p.Alike q)
include h

/-- The slots agree on what can be read off without the tickets. -/
theorem Proc.Alike.field {α : Type} (f : Proc → α) (hf : ∀ r, f r.bare = f r) : f p = f q := by
  rw [← hf p, h.bare, hf q]

theorem Proc.Alike.state : p.state = q.state := h.field Proc.state fun _ => rfl

theorem Proc.Alike.chan : p.chan = q.chan := h.field Proc.chan fun _ => rfl

theorem Proc.Alike.killed : p.killed = q.killed := h.field Proc.killed fun _ => rfl

theorem Proc.Alike.pid : p.pid = q.pid := h.field Proc.pid fun _ => rfl

theorem Proc.Alike.parent : p.parent = q.parent := h.field Proc.parent fun _ => rfl

theorem Proc.Alike.kstack : p.kstack = q.kstack := h.field Proc.kstack fun _ => rfl

/-- A write that has nothing to do with tickets, to a slot in use or one that stays UNUSED. -/
theorem Proc.Alike.map (f : Proc → Proc) (hbare : ∀ r, (f r).bare = f r.bare)
    (hinitial : ∀ r, (f r).initialTickets = r.initialTickets)
    (hcurrent : ∀ r, (f r).currentTickets = r.currentTickets)
    (hstate : (f p).state ≠ .unused → p.state ≠ .unused) : (f p).Alike (f q) where
  bare := by rw [hbare, hbare, h.bare]
  initial hused := by
    rw [hinitial, hinitial]
    exact h.initial (hstate hused)
  current hused := by
    rw [hcurrent, hcurrent]
    exact h.current (hstate hused)

theorem addTickets_alike (total : Int) : addTickets p total = addTickets q total := by
  unfold addTickets
  rw [← h.state]
  split
  · rename_i hrun
    rw [h.current (by rw [hrun]; simp)]
  · rfl

theorem dispatch_alike (hrun : p.state = .runnable) : (dispatch p).Alike (dispatch q) where
  bare := congrArg (fun r : Proc => { r with state := .running }) h.bare
  initial _ := h.initial (by rw [hrun]; simp)
  current _ := by
    have hcurrent := h.current (by rw [hrun]; simp)
    simp only [dispatch, hcurrent]

end

def Alikes (t t' : Table) : Prop := ∀ j, (t j).Alike (t' j)

theorem Alikes.update {t t' : Table} (h : Alikes t t') (i : Nat) {p q : Proc} (hp : p.Alike q) :
    Alikes (Function.update t i p) (Function.update t' i q) := by
  apply (Function.forall_update_iff t fun j r => r.Alike (Function.update t' i q j)).mpr
  constructor
  · rwa [Function.update_self]
  · intro j hj
    rw [Function.update_of_ne hj]
    exact h j

theorem findSlot_alike {t t' : Table} (h : Alikes t t') {test : Proc → Bool}
    (htest : ∀ p q : Proc, p.Alike q → test p = test q) : findSlot test t = findSlot test t' := by
  have heq : (fun i => test (t i)) = fun i => test (t' i) := funext fun i => htest _ _ (h i)
  unfold findSlot
  rw [heq]

/-! ## Calls -/

structure Procs.Alike (k₁ k₂ : Procs) : Prop where
  proc : Alikes k₁.proc k₂.proc
  nextpid : k₁.nextpid = k₂.nextpid
  initproc : k₁.initproc = k₂.initproc

theorem Procs.Alike.set {k₁ k₂ : Procs} (h : k₁.Alike k₂) (i : Nat) {p q : Proc}
    (hp : p.Alike q) : (k₁.set i p).Alike (k₂.set i q) :=
  ⟨h.proc.update i hp, h.nextpid, h.initproc⟩

theorem wakeup_alikes {t t' : Table} (h : Alikes t t') (me : Option Nat) (c : Chan) :
    Alikes (wakeup me c t) (wakeup me c t') := by
  intro j
  unfold wakeup
  rw [← (h j).state, ← (h j).chan]
  split
  · rename_i hw
    apply (h j).map (fun p => { p with state := .runnable })
    · intro _; rfl
    · intro _; rfl
    · intro _; rfl
    · intro _
      rw [hw.2.2.1]
      simp
  · exact h j

theorem reparent_alikes {t t' : Table} (h : Alikes t t') (i initproc : Nat) :
    Alikes (reparent i initproc t) (reparent i initproc t') := by
  have hparent : Alikes
      (fun j => if j < NPROC ∧ (t j).parent = some i then { t j with parent := some initproc }
        else t j)
      (fun j => if j < NPROC ∧ (t' j).parent = some i then { t' j with parent := some initproc }
        else t' j) := by
    intro j
    dsimp only
    rw [← (h j).parent]
    split
    · exact (h j).map (fun p => { p with parent := some initproc }) (fun _ => rfl) (fun _ => rfl)
        (fun _ => rfl) id
    · exact h j
  have hfind : findSlot (fun p => p.parent = some i) t = findSlot (fun p => p.parent = some i) t' :=
    findSlot_alike h fun p q hpq => by rw [hpq.parent]
  unfold reparent
  rw [← hfind]
  split
  · exact wakeup_alikes hparent _ _
  · exact hparent

/-- The same result and tables that look alike. -/
structure Results (x y : Ret × Procs) : Prop where
  ret : x.1 = y.1
  procs : x.2.Alike y.2

/-- The writes of the calls to their own slot, or to that of a child. -/
theorem Procs.Alike.own {k₁ k₂ : Procs} (h : k₁.Alike k₂) {i : Nat}
    (hi : (k₁.proc i).state ≠ .unused) (f : Proc → Proc) (hbare : ∀ r, (f r).bare = f r.bare)
    (hinitial : ∀ r, (f r).initialTickets = r.initialTickets)
    (hcurrent : ∀ r, (f r).currentTickets = r.currentTickets) :
    (k₁.set i (f (k₁.proc i))).Alike (k₂.set i (f (k₂.proc i))) :=
  h.set i ((h.proc i).map f hbare hinitial hcurrent fun _ => hi)

theorem freeproc_alike {p q : Proc} (h : p.Alike q) : (freeproc p).Alike (freeproc q) :=
  h.map freeproc (fun _ => rfl) (fun _ => rfl) (fun _ => rfl) (by simp [freeproc])

/-- The point of it all: before `fork` gives up the lock of the new slot, the tickets in there
    are those of the parent. -/
theorem fork_alike {k₁ k₂ : Procs} (h : k₁.Alike k₂) {i : Nat}
    (hi : (k₁.proc i).state ≠ .unused) (memOk copyOk : Bool) :
    Results (fork i memOk copyOk k₁) (fork i memOk copyOk k₂) := by
  have hfind : findSlot (fun p => p.state = .unused) k₁.proc =
      findSlot (fun p => p.state = .unused) k₂.proc :=
    findSlot_alike h.proc fun p q hpq => by rw [hpq.state]
  unfold fork
  cases hnp : findSlot (fun p => p.state = .unused) k₁.proc with
  | none =>
      have hnone : ∀ k : Procs, findSlot (fun p => p.state = .unused) k.proc = none →
          allocproc memOk k = (none, k) := by
        intro k hk
        unfold allocproc
        rw [hk]
      rw [hnone k₁ hnp, hnone k₂ (hfind.symm.trans hnp)]
      exact ⟨rfl, h⟩
  | some np =>
      have hne : i ≠ np := by
        rintro rfl
        exact hi (unused_of_findSlot hnp)
      rw [allocproc_of_some hnp, allocproc_of_some (hfind.symm.trans hnp), ← h.nextpid]
      cases memOk with
      | false =>
          refine ⟨rfl, h.proc.update np ?_, rfl, h.initproc⟩
          exact (h.proc np).map (fun p => freeproc { p with pid := k₁.nextpid, state := .used })
            (fun _ => rfl) (fun _ => rfl) (fun _ => rfl) (by simp [freeproc])
      | true =>
          cases copyOk with
          | false =>
              simp only [↓reduceIte, Bool.false_eq_true, Procs.set, Function.update_self,
                Function.update_idem]
              refine ⟨rfl, h.proc.update np ?_, rfl, h.initproc⟩
              exact (h.proc np).map (fun p => freeproc { p with
                pid := k₁.nextpid, state := .used, kstack := .user })
                (fun _ => rfl) (fun _ => rfl) (fun _ => rfl) (by simp [freeproc])
          | true =>
              simp only [↓reduceIte, Procs.set, Function.update_self, Function.update_of_ne hne,
                Function.update_idem]
              have hticket := (h.proc i).initial hi
              have hchild : Proc.Alike
                  { k₁.proc np with
                    pid := k₁.nextpid, state := .used, kstack := .user
                    initialTickets := (k₁.proc i).initialTickets
                    currentTickets := (k₁.proc i).initialTickets }
                  { k₂.proc np with
                    pid := k₁.nextpid, state := .used, kstack := .user
                    initialTickets := (k₂.proc i).initialTickets
                    currentTickets := (k₂.proc i).initialTickets } :=
                ⟨congrArg (fun r : Proc => { r with
                  pid := k₁.nextpid, state := .used, kstack := .user }) (h.proc np).bare,
                  fun _ => hticket, fun _ => hticket⟩
              refine ⟨rfl, (h.proc.update np hchild).update i ?_, rfl, h.initproc⟩
              exact (h.proc i).map (fun p => { p with kstack := .forkParent np }) (fun _ => rfl)
                (fun _ => rfl) (fun _ => rfl) id

theorem exit_alike {k₁ k₂ : Procs} (h : k₁.Alike k₂) {i : Nat}
    (hi : (k₁.proc i).state ≠ .unused) (status : Int) :
    Option.Rel Results (exit i status k₁) (exit i status k₂) := by
  unfold exit
  rw [← h.initproc]
  split
  · exact .none
  · have hreparent := reparent_alikes h.proc i k₁.initproc
    have hfinal : ∀ t t' : Table, Alikes t t' → (t i).state ≠ .unused →
        Alikes (Function.update t i { t i with xstate := status, state := .zombie })
          (Function.update t' i { t' i with xstate := status, state := .zombie }) := by
      intro t t' ht hused
      exact ht.update i ((ht i).map (fun p => { p with xstate := status, state := .zombie })
        (fun _ => rfl) (fun _ => rfl) (fun _ => rfl) fun _ => hused)
    have hpoke : ∀ t, Pokes k₁.proc t → (t i).state ≠ .unused := by
      intro t hp hfree
      rcases (hp i).state with heq | ⟨-, heq⟩
      · exact hi (heq.symm.trans hfree)
      · rw [heq] at hfree
        cases hfree
    apply Option.Rel.some
    refine ⟨rfl, ?_, h.nextpid, rfl⟩
    dsimp only
    rw [← (hreparent i).parent]
    split
    · exact hfinal _ _ (wakeup_alikes hreparent _ _)
        (hpoke _ ((reparent_pokes _ _ _).trans (wakeup_pokes _ _ _)))
    · exact hfinal _ _ hreparent (hpoke _ (reparent_pokes _ _ _))

theorem sleep_alike {k₁ k₂ : Procs} (h : k₁.Alike k₂) {i : Nat}
    (hi : (k₁.proc i).state ≠ .unused) (c : Chan) : Results (sleep i c k₁) (sleep i c k₂) :=
  ⟨rfl, h.own hi (fun p => { p with chan := some c, state := .sleeping, kstack := .asleep })
    (fun _ => rfl) (fun _ => rfl) (fun _ => rfl)⟩

theorem wait_alike {k₁ k₂ : Procs} (h : k₁.Alike k₂) {i : Nat}
    (hi : (k₁.proc i).state ≠ .unused) (copyoutOk : Bool) :
    Results (wait i copyoutOk k₁) (wait i copyoutOk k₂) := by
  have hzombie : findSlot (fun p => p.parent = some i && p.state = .zombie) k₁.proc =
      findSlot (fun p => p.parent = some i && p.state = .zombie) k₂.proc :=
    findSlot_alike h.proc fun p q hpq => by rw [hpq.parent, hpq.state]
  have hkids : findSlot (fun p => p.parent = some i) k₁.proc =
      findSlot (fun p => p.parent = some i) k₂.proc :=
    findSlot_alike h.proc fun p q hpq => by rw [hpq.parent]
  unfold wait
  rw [← hzombie, ← hkids, ← (h.proc i).killed]
  split
  · rename_i j _
    split
    · refine ⟨?_, h.set j (freeproc_alike (h.proc j))⟩
      rw [(h.proc j).pid]
    · exact ⟨rfl, h⟩
  · split
    · exact ⟨rfl, h⟩
    · exact sleep_alike h hi _

theorem kill_alike {k₁ k₂ : Procs} (h : k₁.Alike k₂) (pid : Int) :
    Results (kill pid k₁) (kill pid k₂) := by
  have hfind : findSlot (fun p => p.pid = pid) k₁.proc = findSlot (fun p => p.pid = pid) k₂.proc :=
    findSlot_alike h.proc fun p q hpq => by rw [hpq.pid]
  unfold kill
  rw [← hfind]
  split
  · exact ⟨rfl, h⟩
  · rename_i j _
    refine ⟨rfl, h.set j ?_⟩
    have hstate := (h.proc j).state
    dsimp only
    by_cases hs : (k₁.proc j).state = .sleeping
    · rw [if_pos hs, if_pos (hstate.symm.trans hs)]
      exact (h.proc j).map (fun p => { p with killed := true, state := .runnable }) (fun _ => rfl)
        (fun _ => rfl) (fun _ => rfl) fun _ => by rw [hs]; simp
    · rw [if_neg hs, if_neg fun hs' => hs (hstate.trans hs')]
      exact (h.proc j).map (fun p => { p with killed := true }) (fun _ => rfl) (fun _ => rfl)
        (fun _ => rfl) id

theorem settickets_alike {k₁ k₂ : Procs} (h : k₁.Alike k₂) (i : Nat) (n : Int) :
    Option.Rel Results (settickets i n k₁) (settickets i n k₂) := by
  have hfind : findSlot (fun p => p.pid = (k₁.proc i).pid) k₁.proc =
      findSlot (fun p => p.pid = (k₁.proc i).pid) k₂.proc :=
    findSlot_alike h.proc fun p q hpq => by rw [hpq.pid]
  unfold settickets
  rw [← (h.proc i).pid, ← hfind]
  split
  · exact .some ⟨rfl, h⟩
  · split
    · exact .none
    · rename_i j _
      split
      · exact .some ⟨rfl, h.set j ⟨(h.proc j).bare, fun _ => rfl, (h.proc j).current⟩⟩
      · exact .none

/-- Every call does the same in both kernels. -/
theorem call_alike {k₁ k₂ : Procs} (h : k₁.Alike k₂) {i : Nat}
    (hi : (k₁.proc i).state ≠ .unused)
    (hchild : ∀ np, (k₁.proc i).kstack.child = some np → (k₁.proc np).state ≠ .unused) (c : Call) :
    Option.Rel Results (k₁.call i c) (k₂.call i c) := by
  unfold Procs.call
  rw [← (h.proc i).kstack]
  split
  · exact .some (fork_alike h hi _ _)
  · rename_i np hstack
    have hparent := h.own (hchild np (by rw [hstack]; rfl)) (fun p => { p with parent := some i })
      (fun _ => rfl) (fun _ => rfl) (fun _ => rfl)
    refine .some ⟨rfl, hparent.set i ?_⟩
    exact (hparent.proc i).map (fun p => { p with kstack := .forkRunnable np }) (fun _ => rfl)
      (fun _ => rfl) (fun _ => rfl) id
  · rename_i np hstack
    have hwoken := h.own (hchild np (by rw [hstack]; rfl)) (fun p => { p with state := .runnable })
      (fun _ => rfl) (fun _ => rfl) (fun _ => rfl)
    refine .some ⟨?_, hwoken.set i ?_⟩
    · exact congrArg Ret.value (h.proc np).pid
    · exact (hwoken.proc i).map (fun p => { p with kstack := .user }) (fun _ => rfl)
        (fun _ => rfl) (fun _ => rfl) id
  · exact exit_alike h hi _
  · exact .some (wait_alike h hi _)
  · exact .some (sleep_alike h hi _)
  · exact .some ⟨rfl, h.own hi (fun p => { p with chan := none, kstack := .user }) (fun _ => rfl)
      (fun _ => rfl) (fun _ => rfl)⟩
  · exact .some ⟨rfl, h.own hi (fun p => { p with state := .runnable }) (fun _ => rfl)
      (fun _ => rfl) (fun _ => rfl)⟩
  · exact .some (kill_alike h _)
  · exact settickets_alike h i _
  · exact .some ⟨rfl, wakeup_alikes h.proc _ _, h.nextpid, h.initproc⟩
  · exact .none

/-! ## The scheduler -/

/-- What two sections of `scheduler()` have in common. -/
structure Sections (x y : Table × SchedPc) : Prop where
  proc : Alikes x.1 y.1
  pc : x.2 = y.2

theorem schedSection_alike {t t' : Table} (h : Alikes t t') (pc : SchedPc) :
    Option.Rel Sections (schedSection t pc) (schedSection t' pc) := by
  cases pc with
  | test i total =>
      simp only [schedSection, addTickets_alike (h i)]
      split
      · exact .some ⟨h, rfl⟩
      · split <;> exact .some ⟨h, rfl⟩
  | reset i =>
      have hstate := (h i).state
      simp only [schedSection]
      split
      · by_cases hrun : (t i).state = .runnable
        · rw [if_pos hrun, if_pos (hstate.symm.trans hrun)]
          have hticket := (h i).initial (by rw [hrun]; simp)
          exact .some ⟨h.update i ⟨(h i).bare, fun _ => hticket, fun _ => hticket⟩, rfl⟩
        · rw [if_neg hrun, if_neg fun hrun' => hrun (hstate.trans hrun')]
          exact .some ⟨h, rfl⟩
      · exact .some ⟨h, rfl⟩
  | total i total =>
      simp only [schedSection, addTickets_alike (h i)]
      split
      · exact .some ⟨h, rfl⟩
      · exact .none
  | scan i count random =>
      simp only [schedSection, addTickets_alike (h i), ← (h i).state]
      split
      · split <;> exact .some ⟨h, rfl⟩
      · exact .some ⟨h, rfl⟩
  | chosen p =>
      simp only [schedSection, ← (h p).state]
      split
      · exact .none
      · exact .some ⟨h, rfl⟩

/-! ## Runs -/

structure Kernel.Alike (k₁ k₂ : Kernel) : Prop where
  procs : k₁.toProcs.Alike k₂.toProcs
  cpu : k₁.cpu = k₂.cpu

/-- What happens to the kernel from outside: interrupts, the state of the random number
    generator when it is used, the calls of the running process, and writes to memory behind
    the table. Which step `scheduler()` takes, whom it dispatches and who makes a call is up to
    the kernel. -/
inductive Op
  | intr (c : Chan)
  | scheduler
  | draw (g : Rng)
  | call (c : Call)
  | behind (t : Table)

def Label.op : Label → Op
  | .intr c     => .intr c
  | .sched      => .scheduler
  | .draw g     => .draw g
  | .dispatch _ => .scheduler
  | .call _ c   => .call c
  | .behind t   => .behind t

theorem rel_of_some {α β : Type} {R : α → β → Prop} {a : Option α} {b : Option β} {x : α}
    {y : β} (h : Option.Rel R a b) (ha : a = some x) (hb : b = some y) : R x y := by
  rw [ha, hb] at h
  cases h with
  | some hxy => exact hxy

/-- The same happens from outside, so the kernels take the same step and still look alike. -/
theorem step_alike {k₁ k₂ k₁' k₂' : Kernel} {l₁ l₂ : Label} (hsound : k₁.Sound)
    (h : k₁.Alike k₂) (h₁ : kernel.step k₁ l₁ k₁') (h₂ : kernel.step k₂ l₂ k₂')
    (hop : l₁.op = l₂.op) : l₁ = l₂ ∧ k₁'.Alike k₂' := by
  have hcpu := h.cpu
  cases move_of_step h₁ with
  | @intr c =>
      cases move_of_step h₂ with
      | intr =>
          cases hop
          have hme : k₁.myproc = k₂.myproc := by
            unfold Kernel.myproc
            rw [hcpu]
          rw [hme]
          exact ⟨rfl, ⟨wakeup_alikes h.procs.proc _ c, h.procs.nextpid, h.procs.initproc⟩, hcpu⟩
      | _ => cases hop
  | @sched pc pc' t hpc hsection =>
      rw [hpc] at hcpu
      cases move_of_step h₂ with
      | @sched pc₂ pc₂' t₂ hpc₂ hsection₂ =>
          rw [hpc₂] at hcpu
          cases hcpu
          have halike := rel_of_some (schedSection_alike h.procs.proc pc) hsection hsection₂
          refine ⟨rfl, ⟨halike.proc, h.procs.nextpid, h.procs.initproc⟩, ?_⟩
          exact congrArg Cpu.scheduler halike.pc
      | @dispatch p hpc₂ hrun =>
          -- The first kernel would have to find the chosen slot not runnable.
          rw [hpc₂] at hcpu
          cases hcpu
          have hrun₁ : (k₁.proc p).state = .runnable := (h.procs.proc p).state.trans hrun
          simp only [schedSection, if_pos hrun₁] at hsection
          cases hsection
      | _ => cases hop
  | @draw g i total hpc hi =>
      rw [hpc] at hcpu
      cases move_of_step h₂ with
      | @draw g₂ i₂ total₂ hpc₂ hi₂ =>
          cases hop
          rw [hpc₂] at hcpu
          cases hcpu
          exact ⟨rfl, h.procs, rfl⟩
      | _ => cases hop
  | @dispatch p hpc hrun =>
      rw [hpc] at hcpu
      cases move_of_step h₂ with
      | @dispatch p₂ hpc₂ hrun₂ =>
          rw [hpc₂] at hcpu
          cases hcpu
          have hdispatch := dispatch_alike (h.procs.proc p) hrun
          exact ⟨rfl, ⟨h.procs.proc.update p hdispatch, h.procs.nextpid, h.procs.initproc⟩, rfl⟩
      | @sched pc₂ pc₂' t₂ hpc₂ hsection₂ =>
          rw [hpc₂] at hcpu
          cases hcpu
          have hrun₂ : (k₂.proc p).state = .runnable := (h.procs.proc p).state.symm.trans hrun
          simp only [schedSection, if_pos hrun₂] at hsection₂
          cases hsection₂
      | _ => cases hop
  | @call i c r ks hpc hi hcall =>
      rw [hpc] at hcpu
      cases move_of_step h₂ with
      | @call i₂ c₂ r₂ ks₂ hpc₂ hi₂ hcall₂ =>
          cases hop
          rw [hpc₂] at hcpu
          cases hcpu
          have hrun := hsound.running i hi hpc
          have hchild : ∀ np, (k₁.proc i).kstack.child = some np →
              (k₁.proc np).state ≠ .unused := by
            intro np hnp
            rw [(hsound.slots.child i hi np hnp).2]
            simp
          have halike := rel_of_some (call_alike h.procs (by rw [hrun]; simp) hchild c) hcall hcall₂
          have hret : r = r₂ := halike.ret
          refine ⟨rfl, halike.procs, ?_⟩
          dsimp only
          rw [hret]
      | _ => cases hop
  | @behind t =>
      cases move_of_step h₂ with
      | behind =>
          cases hop
          refine ⟨rfl, ⟨?_, h.procs.nextpid, h.procs.initproc⟩, hcpu⟩
          intro j
          dsimp only
          split
          · exact h.procs.proc j
          · exact .refl _
      | _ => cases hop

/-- The states agree on everything but the ticket fields and `ticks_used` of UNUSED slots. -/
structure DifferInUnused (k₁ k₂ : Kernel) : Prop where
  slot : ∀ j, k₁.proc j = k₂.proc j ∨
    (k₁.proc j).state = .unused ∧ (k₁.proc j).bare = (k₂.proc j).bare
  nextpid : k₁.nextpid = k₂.nextpid
  initproc : k₁.initproc = k₂.initproc
  cpu : k₁.cpu = k₂.cpu

theorem DifferInUnused.alike {k₁ k₂ : Kernel} (h : DifferInUnused k₁ k₂) : k₁.Alike k₂ := by
  refine ⟨⟨?_, h.nextpid, h.initproc⟩, h.cpu⟩
  intro j
  rcases h.slot j with heq | ⟨hfree, hbare⟩
  · rw [heq]
    exact .refl _
  · exact ⟨hbare, fun hused => absurd hfree hused, fun hused => absurd hfree hused⟩

/-- The same slots are in use in both tables, with the same tickets. -/
def TicketsAgree (t t' : Table) : Prop :=
  ∀ j < NPROC, (t j).state = (t' j).state ∧ ((t j).state ≠ .unused →
    (t j).initialTickets = (t' j).initialTickets ∧ (t j).currentTickets = (t' j).currentTickets)

theorem Kernel.Alike.ticketsAgree {k₁ k₂ : Kernel} (h : k₁.Alike k₂) :
    TicketsAgree k₁.proc k₂.proc := by
  intro j _
  have hj := h.procs.proc j
  exact ⟨hj.state, fun hused => ⟨hj.initial hused, hj.current hused⟩⟩

/-- Start two kernels from states that differ in the ticket fields and `ticks_used` of UNUSED
    slots only, and let the same happen to them from outside, with the same random numbers. Then
    they take the same steps, so that every round dispatches the same slot, and at every point
    the processes in both have the same tickets. The states to start from are sound, as all
    reachable ones are: the slots of the running process and of forks in progress are taken. -/
theorem stale_tickets_unseen {k₁ k₂ k₁' k₂' : Kernel} {tr₁ tr₂ : List (Kernel × Label)}
    (hsound : k₁.Sound) (hdiffer : DifferInUnused k₁ k₂)
    (h₁ : kernel.Run k₁ tr₁ k₁') (h₂ : kernel.Run k₂ tr₂ k₂')
    (hop : (tr₁.map fun q => q.2.op) = tr₂.map fun q => q.2.op) :
    List.Forall₂ (fun q₁ q₂ => q₁.2 = q₂.2 ∧ TicketsAgree q₁.1.proc q₂.1.proc) tr₁ tr₂ ∧
      TicketsAgree k₁'.proc k₂'.proc := by
  have hlock := h₁.lockstep (R := fun k₁ k₂ : Kernel => k₁.Sound ∧ k₁.Alike k₂) Label.op
    (fun k₁ k₂ l₁ l₂ k₁' k₂' hR hs₁ hs₂ hop =>
      have hstep := step_alike hR.1 hR.2 hs₁ hs₂ hop
      ⟨hstep.1, step_sound hR.1 hs₁, hstep.2⟩)
    h₂ ⟨hsound, hdiffer.alike⟩ hop
  refine ⟨hlock.1.imp ?_, hlock.2.2.ticketsAgree⟩
  rintro q₁ q₂ ⟨hlabel, -, halike⟩
  exact ⟨hlabel, halike.ticketsAgree⟩

/-- The boot state with somebody's tickets left behind in the second slot. -/
def staleBoot : Kernel :=
  { boot with
    proc := Function.update boot.proc 1
      { boot.proc 1 with initialTickets := 5, currentTickets := 9, ticksUsed := 3 } }

/-- A round up to the draw, with the generator in state `g`. -/
def roundTo (g : Rng) : List Label := List.replicate (2 * NPROC + 1) .sched ++ [.draw g]

/-- The first process is dispatched, forks and waits; the child is dispatched. -/
def childRuns (g : Rng) : List Label :=
  roundTo g ++ [.sched, .dispatch 0, .call 0 (.fork true true), .call 0 .forkParent,
    .call 0 .forkRunnable, .call 0 (.wait true)] ++ roundTo g ++ [.sched, .sched, .dispatch 1]

/-- The child in the second slot has the ticket of its parent, and not what was there. -/
theorem stale_tickets_unseen_child :
    ∃ tr₁ tr₂ k₁ k₂, kernel.Run boot tr₁ k₁ ∧ kernel.Run staleBoot tr₂ k₂ ∧
      tr₂.map Prod.snd = childRuns (random Rng.seed).2 ∧
      (staleBoot.proc 1).initialTickets = 5 ∧ (k₂.proc 1).initialTickets = 1 ∧
      TicketsAgree k₁.proc k₂.proc := by
  have hend : (TransitionSystem.play Kernel.step (childRuns (random Rng.seed).2) boot).isSome ∧
      (TransitionSystem.play Kernel.step (childRuns (random Rng.seed).2) staleBoot).any
        (fun r => (r.2.proc 1).initialTickets = 1) = true := by decide +kernel
  obtain ⟨⟨tr₁, k₁⟩, hplay₁⟩ := Option.isSome_iff_exists.mp hend.1
  cases hplay₂ : TransitionSystem.play Kernel.step (childRuns (random Rng.seed).2) staleBoot with
  | none => simp [hplay₂] at hend
  | some r =>
      obtain ⟨tr₂, k₂⟩ := r
      have hone : (k₂.proc 1).initialTickets = 1 := by simpa [hplay₂] using hend.2
      have hrun₁ : kernel.Run boot tr₁ k₁ :=
        TransitionSystem.run_of_play (fun _ _ _ hs => hs) hplay₁
      have hrun₂ : kernel.Run staleBoot tr₂ k₂ :=
        TransitionSystem.run_of_play (fun _ _ _ hs => hs) hplay₂
      have hlabels₁ := TransitionSystem.play_labels hplay₁
      have hlabels₂ := TransitionSystem.play_labels hplay₂
      have hop : (tr₁.map fun q => q.2.op) = tr₂.map fun q => q.2.op := by
        have hmap := congrArg (List.map Label.op) (hlabels₁.trans hlabels₂.symm)
        rw [List.map_map, List.map_map] at hmap
        exact hmap
      have hdiffer : DifferInUnused boot staleBoot := by
        refine ⟨?_, rfl, rfl, rfl⟩
        intro j
        by_cases hj : j = 1
        · subst hj
          exact .inr ⟨rfl, rfl⟩
        · exact .inl (Function.update_of_ne hj ..).symm
      have hsound : boot.Sound := init_sound ⟨boot.proc, by simp⟩
      exact ⟨tr₁, tr₂, k₁, k₂, hrun₁, hrun₂, hlabels₂, rfl, hone,
        (stale_tickets_unseen hsound hdiffer hrun₁ hrun₂ hop).2⟩

end Lottery
