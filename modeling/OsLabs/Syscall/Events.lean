-- SUMMARY: What a step of the system-call kernel does: trace calls, slots taken by fork and freed by wait, their returns, and the slots of forks in progress.
import OsLabs.Syscall.Proc

/-!
# Events of the system-call kernel

Most steps leave alone everything but a process's own progress. Five kinds do not: a
`trace()` call, a `fork` taking a slot, a `wait` freeing one, and the returns of the last
two to their callers. `Kernel.event` names them from the state and the label of a step,
and `Moved` says once what every step does to the table.

A `fork` that has made its child's slot USED still has to come back to it twice. That the
slot is then still USED, and no other fork's, is the invariant `Kernel.Ok`.
-/

namespace Syscall

open CInt
open Lottery (Chan NPROC Procstate)

/-! ## Events -/

inductive Event
  /-- The process in slot `i` calls `trace(arg)`. -/
  | trace (i : Nat) (arg : Int)
  /-- A `fork` that will succeed takes slot `j` for the new process. -/
  | create (j : Nat)
  /-- A `wait` frees slot `j`. -/
  | reap (j : Nat)
  /-- A `fork` returns a pid. -/
  | forked
  /-- A `wait` returns a pid. -/
  | waited
deriving DecidableEq

/-- The event that a step with label `l` from `k` is, if any. -/
def Kernel.event (k : Kernel) : Label → Option Event
  | .run i e =>
      match (k.proc i).pc, e with
      | .call num a0, .none     =>
          if syscalls num = some .trace then some (.trace i (wrap32 a0)) else none
      | .fork j, .alloc .ok     =>
          if j < NPROC ∧ (k.proc j).state = .unused then some (.create j) else none
      | .wait addr, .copyout ok =>
          if addr = 0 ∨ ok then (zombieChild k i).map .reap else none
      | .forked _, .none        => some .forked
      | .reaped _, .none        => some .waited
      | _, _                    => none
  | _ => none

/-! ## What a step does to the table -/

/-- What a process at `pc` still has to do about a slot it has taken or freed. -/
inductive Owed
  | nothing
  | child (np : Nat)
  | forked
  | reaped
deriving DecidableEq

def Pc.owed : Pc → Owed
  | .forkParent np _ | .forkRunnable np _ => .child np
  | .forked _                             => .forked
  | .reaped _                             => .reaped
  | _                                     => .nothing

@[simp] theorem owed_user : Pc.user.owed = .nothing := rfl
@[simp] theorem owed_trapret : Pc.trapret.owed = .nothing := rfl
@[simp] theorem owed_forkParent (np : Nat) (pid : Int) :
    (Pc.forkParent np pid).owed = .child np := rfl
@[simp] theorem owed_forkRunnable (np : Nat) (pid : Int) :
    (Pc.forkRunnable np pid).owed = .child np := rfl
@[simp] theorem owed_forked (pid : Int) : (Pc.forked pid).owed = .forked := rfl
@[simp] theorem owed_reaped (pid : Int) : (Pc.reaped pid).owed = .reaped := rfl

/-- A change of a slot that is no event for it. The slot of a `fork` that fails has its
    tracer cleared again. -/
structure Proc.Calm (p q : Proc) : Prop where
  tracer : q.tracer = p.tracer ∨ q.state = .unused ∧ q.tracer = 0
  unused : q.state = .unused ↔ p.state = .unused
  used : q.state = .used ↔ p.state = .used
  zombie : q.state = .zombie → p.state = .zombie ∨ ∃ status, p.pc = .exit status
  owed : q.pc.owed = p.pc.owed

theorem Proc.Calm.refl (p : Proc) : p.Calm p := ⟨.inl rfl, .rfl, .rfl, .inl, rfl⟩

/-- Calm changes compose as long as the process stays where it is. -/
theorem Proc.Calm.trans {p q r : Proc} (h₁ : p.Calm q)
    (hpc : p.state ≠ .unused → q.pc = p.pc) (h₂ : q.Calm r) : p.Calm r where
  tracer := by
    rcases h₂.tracer with h | h
    · rcases h₁.tracer with h' | ⟨hq, h'⟩
      · exact .inl (h.trans h')
      · exact .inr ⟨h₂.unused.mpr hq, h.trans h'⟩
    · exact .inr h
  unused := h₂.unused.trans h₁.unused
  used := h₂.used.trans h₁.used
  zombie h := by
    rcases h₂.zombie h with hq | ⟨status, hq⟩
    · exact h₁.zombie hq
    · have hp : p.state ≠ .unused := by
        intro hp
        rw [h₂.unused.mpr (h₁.unused.mpr hp)] at h
        cases h
      exact .inr ⟨status, (hpc hp).symm.trans hq⟩
  owed := h₂.owed.trans h₁.owed

/-- A calm change of every slot, in which only the process in slot `i`, if any, moves on. -/
structure Calms (i : Option Nat) (t t' : Table) : Prop where
  calm : ∀ j, (t j).Calm (t' j)
  pc : ∀ j, i ≠ some j → (t j).state ≠ .unused → (t' j).pc = (t j).pc

theorem Calms.trans {i : Option Nat} {t t' t'' : Table} (h₁ : Calms none t t')
    (h₂ : Calms i t' t'') : Calms i t t'' where
  calm j := (h₁.calm j).trans (h₁.pc j nofun) (h₂.calm j)
  pc j hi hj := by
    have hj' : (t' j).state ≠ .unused := mt (h₁.calm j).unused.mp hj
    exact (h₂.pc j hi hj').trans (h₁.pc j nofun hj)

theorem Calms.update {i : Option Nat} {t : Table} {j : Nat} {p : Proc} (h : (t j).Calm p)
    (hpc : i ≠ some j → (t j).state ≠ .unused → p.pc = (t j).pc) :
    Calms i t (Function.update t j p) where
  calm := (Function.forall_update_iff t fun j => (t j).Calm).mpr ⟨h, fun _ _ => .refl _⟩
  pc := (Function.forall_update_iff t fun j p =>
    i ≠ some j → (t j).state ≠ .unused → p.pc = (t j).pc).mpr ⟨hpc, fun _ _ _ _ => rfl⟩

/-- A running process goes on without a debt. -/
theorem Calms.goto {t : Table} {i : Nat} {pc : Pc} (h : pc.owed = (t i).pc.owed) :
    Calms (some i) t (Function.update t i { t i with pc := pc }) :=
  .update ⟨.inl rfl, .rfl, .rfl, .inl, h⟩ fun hi => absurd rfl hi

theorem wakeup_calm (c : Chan) (p : Proc) : p.Calm (p.wakeup c) ∧ (p.wakeup c).pc = p.pc := by
  unfold Proc.wakeup
  split
  · rename_i h
    exact ⟨⟨.inl rfl, by simp [h.1], by simp [h.1], nofun, rfl⟩, rfl⟩
  · exact ⟨.refl p, rfl⟩

theorem wakeup_calms (i me : Option Nat) (c : Chan) (t : Table) : Calms i t (wakeup me c t) := by
  constructor
  · intro j
    unfold wakeup
    split
    · exact (wakeup_calm c (t j)).1
    · exact .refl _
  · intro j _ _
    unfold wakeup
    split
    · exact (wakeup_calm c (t j)).2
    · rfl

theorem reparent_calms (i initproc : Nat) (t : Table) : Calms none t (reparent i initproc t) := by
  have hparent : Calms none t fun j =>
      if j < NPROC ∧ (t j).parent = some i then { t j with parent := some initproc } else t j := by
    constructor
    · intro j
      dsimp only
      split
      · exact ⟨.inl rfl, .rfl, .rfl, .inl, rfl⟩
      · exact .refl _
    · intro j _ _
      dsimp only
      split <;> rfl
  unfold reparent
  split
  · exact hparent.trans (wakeup_calms _ _ _ _)
  · exact hparent

/-- The process that a label runs, if it runs one. -/
def Label.runner : Label → Option Nat
  | .run i _ => some i
  | _        => none

/-- `Moved k l k'`: what a step with label `l` finds in `k` and leaves in the table of
    `k'`. -/
inductive Moved (k : Kernel) : Label → Kernel → Prop
  | calm {l : Label} {k' : Kernel} : k.event l = none → Calms l.runner k.proc k'.proc →
      Moved k l k'
  | trace {i : Nat} {e : Env} {k' : Kernel} {arg : Int} {pc : Pc} :
      k.event (.run i e) = some (.trace i arg) →
      (k.proc i).state = .running → (k.proc i).pc.owed = .nothing → pc.owed = .nothing →
      k'.proc = Function.update k.proc i { k.proc i with tracer := arg, pc := pc } →
      Moved k (.run i e) k'
  | create {i j : Nat} {e : Env} {k' : Kernel} {np : Proc} {pid : Int} :
      k.event (.run i e) = some (.create j) → j < NPROC → i ≠ j →
      (k.proc i).state = .running → (k.proc i).pc.owed = .nothing → (k.proc j).state = .unused →
      k'.proc = Function.update (Function.update k.proc j np) i
        { k.proc i with pc := .forkParent j pid } →
      np.state = .used → np.tracer = (k.proc j).tracer → np.pc = .user →
      Moved k (.run i e) k'
  /-- The end of `fork`, which makes the child runnable. -/
  | ready {i np : Nat} {e : Env} {k' : Kernel} {pid : Int} :
      k.event (.run i e) = none → i ≠ np →
      (k.proc i).state = .running → (k.proc i).pc = .forkRunnable np pid →
      k'.proc = Function.update (Function.update k.proc np { k.proc np with state := .runnable }) i
        { k.proc i with pc := .forked pid } →
      Moved k (.run i e) k'
  | reap {i j : Nat} {e : Env} {k' : Kernel} {pid : Int} :
      k.event (.run i e) = some (.reap j) → j < NPROC → i ≠ j →
      (k.proc i).state = .running → (k.proc i).pc.owed = .nothing → (k.proc j).state = .zombie →
      k'.proc = Function.update (Function.update k.proc j (freeproc (k.proc j))) i
        { k.proc i with pc := .reaped pid } →
      Moved k (.run i e) k'
  | forked {i : Nat} {e : Env} {k' : Kernel} :
      k.event (.run i e) = some .forked → (k.proc i).pc.owed = .forked →
      k'.proc = Function.update k.proc i { k.proc i with pc := .trapret } →
      Moved k (.run i e) k'
  | waited {i : Nat} {e : Env} {k' : Kernel} :
      k.event (.run i e) = some .waited → (k.proc i).pc.owed = .reaped →
      k'.proc = Function.update k.proc i { k.proc i with pc := .trapret } →
      Moved k (.run i e) k'

/-! ## Forks in progress -/

/-- There is no process in the slot, or it has not started or has ended. -/
def Proc.Idle (p : Proc) : Prop := p.state = .unused ∨ p.state = .used ∨ p.state = .zombie

structure Kernel.Ok (k : Kernel) : Prop where
  idle : ∀ i, (k.proc i).Idle → (k.proc i).pc.owed = .nothing
  child : ∀ i np, (k.proc i).pc.owed = .child np → (k.proc np).state = .used
  inj : ∀ i j np, (k.proc i).pc.owed = .child np → (k.proc j).pc.owed = .child np → i = j

variable {k k' : Kernel} {i j : Nat} {e : Env}

/-- A step of process `i` that is no event and only changes where the process is. -/
theorem Moved.of_goto (pc : Pc) (hk' : k'.proc = (k.goto i pc).proc)
    (hev : k.event (.run i e) = none) (howed : pc.owed = (k.proc i).pc.owed) :
    Moved k (.run i e) k' := by
  apply Moved.calm hev
  rw [hk']
  exact .goto howed

/-- The same after a calm change of slot `j` that leaves the process there where it is. -/
theorem Moved.of_set_goto (p : Proc) (pc : Pc) (hk' : k'.proc = ((k.set j p).goto i pc).proc)
    (hev : k.event (.run i e) = none) (howed : pc.owed = (k.proc i).pc.owed)
    (hp : (k.proc j).Calm p) (hpc : (k.proc j).state ≠ .unused → p.pc = (k.proc j).pc) :
    Moved k (.run i e) k' := by
  apply Moved.calm hev
  rw [hk']
  have hset : Calms none k.proc (k.set j p).proc := .update hp fun _ => hpc
  exact hset.trans (.goto (howed.trans (hset.calm i).owed.symm))

/-- A process goes to sleep where it is. -/
theorem Moved.of_sleep {c : Chan} (hev : k.event (.run i e) = none)
    (hrun : (k.proc i).state = .running) :
    Moved k (.run i e) (k.set i { k.proc i with chan := some c, state := .sleeping }) := by
  apply Moved.calm hev
  have hcalm : (k.proc i).Calm { k.proc i with chan := some c, state := .sleeping } :=
    ⟨.inl rfl, by simp [hrun], by simp [hrun], nofun, rfl⟩
  exact .update hcalm fun _ _ => rfl

/-- A `fork` that fails has made the slot unused again when it lets go of it. -/
theorem Moved.of_forkFail {np : Proc} (h : k.Ok) (hunused : (k.proc j).state = .unused)
    (hk' : k'.proc = ((k.set j (freeproc np)).goto i (.ret SYS_fork (-1))).proc)
    (hnp : np.pc.owed = .nothing) (hev : k.event (.run i e) = none)
    (howed : (k.proc i).pc.owed = .nothing) : Moved k (.run i e) k' := by
  apply Moved.of_set_goto _ _ hk' hev howed.symm _ (absurd hunused)
  exact ⟨.inr ⟨rfl, rfl⟩, by simp [freeproc, hunused], by simp [freeproc, hunused], nofun,
    hnp.trans (h.idle j (.inl hunused)).symm⟩

theorem forkScan_moved {a : Alloc} (h : k.Ok) (hrun : (k.proc i).state = .running)
    (hpc : (k.proc i).pc = .fork j) : Moved k (.run i (.alloc a)) (forkScan k i j a) := by
  have howed : (k.proc i).pc.owed = .nothing := by rw [hpc]; rfl
  unfold forkScan
  split
  · rename_i hj
    split
    · rename_i hunused
      have hidle : (k.proc j).pc.owed = .nothing := h.idle j (.inl hunused)
      cases a with
      | ok =>
          have hij : i ≠ j := by
            rintro rfl
            rw [hrun] at hunused
            cases hunused
          have hev : k.event (.run i (.alloc .ok)) = some (.create j) := by
            simp [Kernel.event, hpc, hj, hunused]
          have hproc : (forkFound k i j .ok).proc =
              Function.update (Function.update k.proc j
                { k.proc j with pid := k.nextpid, state := .used, pc := .user }) i
                { k.proc i with pc := .forkParent j k.nextpid } := by
            simp only [forkFound, Kernel.goto, Kernel.set, Function.update_of_ne hij]
          exact .create hev hj hij hrun howed hunused hproc rfl rfl rfl
      | trapframe => exact .of_forkFail h hunused rfl hidle (by simp [Kernel.event, hpc]) howed
      | pagetable => exact .of_forkFail h hunused rfl hidle (by simp [Kernel.event, hpc]) howed
      | uvmcopy => exact .of_forkFail h hunused rfl rfl (by simp [Kernel.event, hpc]) howed
    · rename_i hused
      refine .of_goto _ rfl ?_ howed.symm
      cases a <;> simp [Kernel.event, hpc, hused]
  · rename_i hj
    refine .of_goto _ rfl ?_ howed.symm
    cases a <;> simp [Kernel.event, hpc, hj]

theorem zombieChild_spec (h : zombieChild k i = some j) :
    j < NPROC ∧ (k.proc j).state = .zombie := by
  unfold zombieChild findSlot at h
  have hmem : j ∈ List.range NPROC := List.mem_of_find?_eq_some h
  have htest := List.find?_some h
  simp only [Bool.and_eq_true, decide_eq_true_eq] at htest
  exact ⟨List.mem_range.mp hmem, htest.2⟩

theorem wait_moved {addr : Nat} {ok : Bool} (hrun : (k.proc i).state = .running)
    (hpc : (k.proc i).pc = .wait addr) : Moved k (.run i (.copyout ok)) (wait k i addr ok) := by
  have howed : (k.proc i).pc.owed = .nothing := by rw [hpc]; rfl
  unfold wait
  split
  · rename_i j hj
    obtain ⟨hlt, hzombie⟩ := zombieChild_spec hj
    split
    · rename_i hok
      have hij : i ≠ j := by
        rintro rfl
        rw [hrun] at hzombie
        cases hzombie
      have hev : k.event (.run i (.copyout ok)) = some (.reap j) := by
        simp [Kernel.event, hpc, hok, hj]
      have hproc : ((k.set j (freeproc (k.proc j))).goto i (.reaped (k.proc j).pid)).proc =
          Function.update (Function.update k.proc j (freeproc (k.proc j))) i
            { k.proc i with pc := .reaped (k.proc j).pid } := by
        simp only [Kernel.goto, Kernel.set, Function.update_of_ne hij]
      exact .reap hev hlt hij hrun howed hzombie hproc
    · rename_i hok
      refine .of_goto _ rfl ?_ howed.symm
      simp [Kernel.event, hpc, hok]
  · rename_i hnone
    have hev : k.event (.run i (.copyout ok)) = none := by simp [Kernel.event, hpc, hnone]
    split
    · exact .of_goto _ rfl hev howed.symm
    · exact .of_sleep hev hrun

theorem kill_moved {pid : Int} (hpc : (k.proc i).pc = .kill pid j) :
    Moved k (.run i .none) (kill k i pid j) := by
  have howed : (k.proc i).pc.owed = .nothing := by rw [hpc]; rfl
  have hev : k.event (.run i .none) = none := by simp [Kernel.event, hpc]
  unfold kill
  split
  · split
    · refine .of_set_goto _ _ rfl hev howed.symm ?_ ?_
      · dsimp only
        split
        · rename_i hsleep
          exact ⟨.inl rfl, by simp [hsleep], by simp [hsleep], nofun, rfl⟩
        · exact ⟨.inl rfl, .rfl, .rfl, .inl, rfl⟩
      · intro _
        dsimp only
        split <;> rfl
    · exact .of_goto _ rfl hev howed.symm
  · exact .of_goto _ rfl hev howed.symm

theorem exit_moved {status : Int} (hrun : (k.proc i).state = .running)
    (hpc : (k.proc i).pc = .exit status) (h : exit k i status = some k') :
    Moved k (.run i .none) k' := by
  have hev : k.event (.run i .none) = none := by simp [Kernel.event, hpc]
  -- dying is calm for a table that is calmly reached from the running process's
  have hzombie : ∀ t, Calms none k.proc t →
      Calms (some i) k.proc
        (Function.update t i { t i with xstate := status, state := .zombie }) := by
    intro t ht
    have hunused : (t i).state ≠ .unused := mt (ht.calm i).unused.mp (by simp [hrun])
    have hused : (t i).state ≠ .used := mt (ht.calm i).used.mp (by simp [hrun])
    have hexit : (t i).pc = .exit status := by rw [ht.pc i nofun (by simp [hrun]), hpc]
    have hcalm : (t i).Calm { t i with xstate := status, state := .zombie } :=
      ⟨.inl rfl, by simp [hunused], by simp [hused], fun _ => .inr ⟨status, hexit⟩, rfl⟩
    exact ht.trans (.update hcalm fun _ _ => rfl)
  have hreparent := reparent_calms i k.initproc k.proc
  unfold exit at h
  split at h
  · cases h
  · cases h
    apply Moved.calm hev
    apply hzombie
    split
    · exact hreparent.trans (wakeup_calms _ _ _ _)
    · exact hreparent

theorem dispatch_moved {num : Int} {a0 : Nat} (hrun : (k.proc i).state = .running)
    (hpc : (k.proc i).pc = .call num a0) :
    Moved k (.run i .none) (dispatch k i num a0) := by
  have howed : (k.proc i).pc.owed = .nothing := by rw [hpc]; rfl
  have hev : syscalls num ≠ some .trace → k.event (.run i .none) = none := by
    intro hnum
    simp [Kernel.event, hpc, hnum]
  unfold dispatch
  split
  case h_7 h =>
    have htrace : k.event (.run i .none) = some (.trace i (wrap32 a0)) := by
      simp [Kernel.event, hpc, h]
    exact .trace htrace hrun howed rfl rfl
  all_goals
    rename_i h
    exact .of_goto _ rfl (hev (by simp_all)) howed.symm

theorem sysret_proc (k : Kernel) (i : Nat) (num v : Int) :
    (sysret k i num v).proc = Function.update k.proc i { k.proc i with pc := .trapret } := by
  unfold sysret
  dsimp only
  split <;> rfl

theorem run_moved (h : k.Ok) (hrun : (k.proc i).state = .running) (hs : k.run i e = some k') :
    Moved k (.run i e) k' := by
  unfold Kernel.run at hs
  split at hs
  case h_1 hpc =>
    cases hs
    refine .of_goto _ rfl (by simp [Kernel.event, hpc]) ?_
    rw [hpc]
    split <;> rfl
  case h_2 hpc =>
    cases hs
    exact .of_goto _ rfl (by simp [Kernel.event, hpc]) (by simp [hpc])
  case h_3 hpc =>
    cases hs
    apply Moved.calm (by simp [Kernel.event, hpc])
    apply Calms.update
    · exact ⟨.inl rfl, .rfl, .rfl, .inl, by rw [hpc]; rfl⟩
    · exact absurd rfl
  case h_4 hpc =>
    cases hs
    exact dispatch_moved hrun hpc
  case h_5 hpc =>
    cases hs
    exact forkScan_moved h hrun hpc
  case h_6 hpc =>
    cases hs
    refine .of_set_goto _ _ rfl (by simp [Kernel.event, hpc]) (by rw [hpc]; rfl) ?_ fun _ => rfl
    exact ⟨.inl rfl, .rfl, .rfl, .inl, rfl⟩
  case h_7 np pid hpc =>
    cases hs
    have hused : (k.proc np).state = .used := h.child i np (by rw [hpc]; rfl)
    have hnp : i ≠ np := by
      rintro rfl
      rw [hrun] at hused
      cases hused
    apply Moved.ready (by simp [Kernel.event, hpc]) hnp hrun hpc
    simp only [Kernel.goto, Kernel.set, Function.update_of_ne hnp]
  case h_8 hpc =>
    cases hs
    exact .forked (by simp [Kernel.event, hpc]) (by rw [hpc]; rfl) (sysret_proc _ _ _ _)
  case h_9 hpc => exact exit_moved hrun hpc hs
  case h_10 hpc =>
    cases hs
    exact .of_sleep (by simp [Kernel.event, hpc]) hrun
  case h_11 hpc =>
    cases hs
    exact wait_moved hrun hpc
  case h_12 hpc =>
    cases hs
    exact .waited (by simp [Kernel.event, hpc]) (by rw [hpc]; rfl) (sysret_proc _ _ _ _)
  case h_13 hpc =>
    cases hs
    exact kill_moved hpc
  case h_14 hpc =>
    cases hs
    unfold aliveScan
    split
    · exact .of_goto _ rfl (by simp [Kernel.event, hpc]) (by rw [hpc]; rfl)
    · exact .of_goto _ rfl (by simp [Kernel.event, hpc]) (by rw [hpc]; rfl)
  case h_15 hpc =>
    cases hs
    exact .of_sleep (by simp [Kernel.event, hpc]) hrun
  case h_16 hpc =>
    cases hs
    exact .of_goto _ rfl (by simp [Kernel.event, hpc]) (by rw [hpc]; rfl)
  case h_17 hpc =>
    cases hs
    exact .of_goto _ (sysret_proc _ _ _ _) (by simp [Kernel.event, hpc]) (by rw [hpc]; rfl)
  case h_18 hpc =>
    cases hs
    refine .of_goto _ rfl (by simp [Kernel.event, hpc]) ?_
    rw [hpc]
    split <;> rfl
  case h_19 => cases hs

/-- What a step does, in a state in which the forks in progress own their slots. -/
theorem moved_of_step {l : Label} (h : k.Ok) (hs : kernel.step k l k') : Moved k l k' := by
  cases l with
  | dispatch i =>
      simp only [kernel, Kernel.step, Option.ite_none_right_eq_some, Option.some.injEq] at hs
      obtain ⟨⟨-, hrunnable⟩, rfl⟩ := hs
      apply Moved.calm rfl
      have hcalm : (k.proc i).Calm { k.proc i with state := .running, chan := none } :=
        ⟨.inl rfl, by simp [hrunnable], by simp [hrunnable], nofun, rfl⟩
      exact .update hcalm fun _ _ => rfl
  | yield i =>
      simp only [kernel, Kernel.step, Option.ite_none_right_eq_some, Option.some.injEq] at hs
      obtain ⟨⟨-, hrun⟩, rfl⟩ := hs
      apply Moved.calm rfl
      have hcalm : (k.proc i).Calm { k.proc i with state := .runnable } :=
        ⟨.inl rfl, by simp [hrun], by simp [hrun], nofun, rfl⟩
      exact .update hcalm fun _ _ => rfl
  | wakeup me c j =>
      simp only [kernel, Kernel.step, Option.ite_none_right_eq_some, Option.some.injEq] at hs
      obtain ⟨-, rfl⟩ := hs
      apply Moved.calm rfl
      exact .update (wakeup_calm c _).1 fun _ _ => (wakeup_calm c _).2
  | run i e =>
      simp only [kernel, Kernel.step, Option.ite_none_right_eq_some] at hs
      exact run_moved h hs.1.2 hs.2

/-- A slot changes: its state only if it is nobody's child in progress, and its process
    takes on a child only if that is USED and nobody else's. -/
theorem Kernel.Ok.update {q : Proc} (h : k.Ok) (hk' : k'.proc = Function.update k.proc i q)
    (hidle : q.Idle → q.pc.owed = .nothing)
    (hstate : q.state = (k.proc i).state ∨ ∀ a, (k.proc a).pc.owed ≠ .child i)
    (hchild : ∀ np, q.pc.owed = .child np →
      i ≠ np ∧ (k.proc np).state = .used ∧ ∀ a, (k.proc a).pc.owed ≠ .child np) : k'.Ok := by
  have hself : k'.proc i = q := by rw [hk', Function.update_self]
  have hother : ∀ a, a ≠ i → k'.proc a = k.proc a := by
    intro a ha
    rw [hk', Function.update_of_ne ha]
  constructor
  · rw [hk']
    exact (Function.forall_update_iff k.proc fun _ p => p.Idle → p.pc.owed = .nothing).mpr
      ⟨hidle, fun a _ => h.idle a⟩
  · intro a np ha
    obtain rfl | hai := eq_or_ne a i
    · obtain ⟨hnp, hused, -⟩ := hchild np (hself ▸ ha)
      rw [hother np hnp.symm, hused]
    · rw [hother a hai] at ha
      have hused : (k.proc np).state = .used := h.child a np ha
      obtain rfl | hnp := eq_or_ne np i
      · rcases hstate with hsame | hfree
        · rw [hself, hsame, hused]
        · exact absurd ha (hfree a)
      · rw [hother np hnp, hused]
  · intro a b np ha hb
    obtain rfl | hai := eq_or_ne a i <;> obtain rfl | hbi := eq_or_ne b a
    · rfl
    · rw [hother b hbi] at hb
      exact absurd hb ((hchild np (hself ▸ ha)).2.2 b)
    · rfl
    · rw [hother a hai] at ha
      obtain rfl | hbi := eq_or_ne b i
      · exact absurd ha ((hchild np (hself ▸ hb)).2.2 a)
      · rw [hother b hbi] at hb
        exact h.inj a b np ha hb

/-- A process moves on and owes no child. -/
theorem Kernel.Ok.settle {q : Proc} (h : k.Ok) (hk' : k'.proc = Function.update k.proc i q)
    (hstate : q.state = (k.proc i).state) (hchild : ∀ np, q.pc.owed ≠ .child np)
    (hidle : q.state = .running ∨ q.pc.owed = .nothing) : k'.Ok := by
  apply h.update hk' _ (.inl hstate) fun np hnp => absurd hnp (hchild np)
  intro hq
  rcases hidle with hrun | hnothing
  · simp [Proc.Idle, hrun] at hq
  · exact hnothing

/-- A slot that is nobody's child in progress changes, and its process owes nothing. -/
theorem Kernel.Ok.set {p : Proc} (h : k.Ok) (hk' : k'.proc = Function.update k.proc j p)
    (howed : p.pc.owed = .nothing) (hfree : ∀ a, (k.proc a).pc.owed ≠ .child j) : k'.Ok :=
  h.update hk' (fun _ => howed) (.inr hfree) fun np hnp => by simp [howed] at hnp

/-- A running process takes on a slot that is USED and nobody else's child in progress. -/
theorem Kernel.Ok.adopt {q : Proc} (h : k.Ok) (hk' : k'.proc = Function.update k.proc i q)
    (hij : i ≠ j) (hused : (k.proc j).state = .used) (hfree : ∀ a, (k.proc a).pc.owed ≠ .child j)
    (hrun : (k.proc i).state = .running) (hstate : q.state = .running)
    (howed : q.pc.owed = .child j) : k'.Ok := by
  apply h.update hk' _ (.inl (hstate.trans hrun.symm))
  · intro np hnp
    rw [howed] at hnp
    cases hnp
    exact ⟨hij, hused, hfree⟩
  · intro hq
    simp [Proc.Idle, hstate] at hq

/-- A child in progress is USED. -/
theorem Kernel.Ok.free (h : k.Ok) (hj : (k.proc j).state ≠ .used) (a : Nat) :
    (k.proc a).pc.owed ≠ .child j :=
  fun ha => hj (h.child a j ha)

theorem init_ok {k : Kernel} (h : kernel.init k) : k.Ok := by
  cases h
  have howed : ∀ i, (boot.proc i).pc.owed = .nothing := by
    intro i
    unfold boot
    dsimp only
    split <;> rfl
  exact ⟨fun i _ => howed i, fun i np hi => by simp [howed] at hi,
    fun i j np hi => by simp [howed] at hi⟩

theorem step_ok {l : Label} (h : k.Ok) (hs : kernel.step k l k') : k'.Ok := by
  cases moved_of_step h hs with
  | calm hev hcalm =>
      constructor
      · intro i hi
        rw [(hcalm.calm i).owed]
        rcases hi with hi | hi | hi
        · exact h.idle i (.inl ((hcalm.calm i).unused.mp hi))
        · exact h.idle i (.inr (.inl ((hcalm.calm i).used.mp hi)))
        · rcases (hcalm.calm i).zombie hi with hz | ⟨status, hpc⟩
          · exact h.idle i (.inr (.inr hz))
          · rw [hpc]
            rfl
      · intro i np hi
        rw [(hcalm.calm i).owed] at hi
        exact (hcalm.calm np).used.mpr (h.child i np hi)
      · intro i j np hi hj
        rw [(hcalm.calm i).owed] at hi
        rw [(hcalm.calm j).owed] at hj
        exact h.inj i j np hi hj
  | trace hev hrun howed hpc hproc => exact h.settle hproc rfl (by simp [hpc]) (.inr hpc)
  | @create i j e _ np pid hev hj hij hrun howed hunused hproc hstate htracer hpc =>
      have hfree := h.free (j := j) (by simp [hunused])
      have hset : (k.set j np).Ok := h.set rfl (by simp [hpc]) hfree
      have hi : (k.set j np).proc i = k.proc i := Function.update_of_ne hij _ _
      have hfree' : ∀ a, ((k.set j np).proc a).pc.owed ≠ .child j :=
        (Function.forall_update_iff k.proc fun _ p => p.pc.owed ≠ .child j).mpr
          ⟨by simp [hpc], fun a _ => hfree a⟩
      apply hset.adopt hproc hij _ hfree' (by rw [hi, hrun]) hrun rfl
      rw [show (k.set j np).proc j = np from Function.update_self .., hstate]
  | @ready i np e _ pid hev hnp hrun hpc hproc =>
      have howed : (k.proc i).pc.owed = .child np := by rw [hpc]; rfl
      have hidle : (k.proc np).pc.owed = .nothing := h.idle np (.inr (.inl (h.child i np howed)))
      have hset : (k.goto i (.forked pid)).Ok := h.settle rfl rfl (by simp) (.inl hrun)
      rw [Function.update_comm hnp.symm] at hproc
      refine hset.set hproc hidle ?_
      refine (Function.forall_update_iff k.proc fun _ p => p.pc.owed ≠ .child np).mpr
        ⟨by simp, ?_⟩
      intro a ha hchild
      exact ha (h.inj a i np hchild howed)
  | @reap i j e _ pid hev hj hij hrun howed hzombie hproc =>
      have hidle : (freeproc (k.proc j)).pc.owed = .nothing := h.idle j (.inr (.inr hzombie))
      have hset : (k.set j (freeproc (k.proc j))).Ok :=
        h.set rfl hidle (h.free (by simp [hzombie]))
      have hi : (k.set j (freeproc (k.proc j))).proc i = k.proc i := Function.update_of_ne hij _ _
      exact hset.settle hproc (by rw [hi]) (by simp) (.inl hrun)
  | forked hev howed hproc => exact h.settle hproc rfl (by simp) (.inr rfl)
  | waited hev howed hproc => exact h.settle hproc rfl (by simp) (.inr rfl)

theorem kernel_ok {k : Kernel} (h : kernel.Reachable k) : k.Ok :=
  h.invariant (fun _ => init_ok) fun _ _ _ _ => step_ok

/-! ## What becomes of a slot -/

/-- The slot that an event is about. -/
@[simp] def Event.slot : Event → Option Nat
  | .trace i _ => some i
  | .create j  => some j
  | .reap j    => some j
  | .forked    => none
  | .waited    => none

/-- What a process still has to add to the forks less the waits that have returned. -/
@[simp] def Owed.balance : Owed → Int
  | .nothing => 0
  | .child _ => 1
  | .forked  => 1
  | .reaped  => -1

/-- What an event adds to that. -/
@[simp] def Event.balance : Event → Int
  | .trace _ _ => 0
  | .create _  => 1
  | .reap _    => -1
  | .forked    => -1
  | .waited    => 1

/-- `Slot k l a q`: a step with label `l` from `k` leaves `q` in slot `a`. -/
inductive Slot (k : Kernel) (l : Label) (a : Nat) : Proc → Prop
  | calm {q : Proc} : (∀ ev, k.event l = some ev → ev.slot ≠ some a ∧ l.runner ≠ some a) →
      (k.proc a).Calm q →
      (l.runner ≠ some a → (k.proc a).state ≠ .unused → q.pc = (k.proc a).pc) → Slot k l a q
  /-- Its process goes on in a `fork` or `wait`. -/
  | onward {pc : Pc} : (∀ ev, k.event l = some ev → ev.slot ≠ some a) → l.runner = some a →
      pc.owed.balance = (k.proc a).pc.owed.balance + (k.event l).elim 0 Event.balance →
      Slot k l a { k.proc a with pc := pc }
  | traced {arg : Int} {pc : Pc} : k.event l = some (.trace a arg) → l.runner = some a →
      (k.proc a).state = .running → pc.owed = (k.proc a).pc.owed →
      Slot k l a { k.proc a with tracer := arg, pc := pc }
  | created {q : Proc} : k.event l = some (.create a) → l.runner ≠ some a →
      (k.proc a).state = .unused → q.state = .used → q.tracer = (k.proc a).tracer →
      q.pc.owed = (k.proc a).pc.owed → Slot k l a q
  | ready : k.event l = none → l.runner ≠ some a → (k.proc a).state = .used →
      Slot k l a { k.proc a with state := .runnable }
  | freed : k.event l = some (.reap a) → l.runner ≠ some a → (k.proc a).state = .zombie →
      Slot k l a (freeproc (k.proc a))

/-- A slot that a step does not touch. -/
theorem Slot.rest {l : Label} {a : Nat} (hother : ∀ ev, k.event l = some ev → ev.slot ≠ some a)
    (hrunner : l.runner ≠ some a) : Slot k l a (k.proc a) :=
  .calm (fun ev hev => ⟨hother ev hev, hrunner⟩) (.refl _) fun _ _ => rfl

theorem slot_of_step {l : Label} (hk : k.Ok) (hs : kernel.step k l k') (a : Nat) :
    Slot k l a (k'.proc a) := by
  revert a
  cases moved_of_step hk hs with
  | calm hev hcalm =>
      intro a
      exact .calm (by simp [hev]) (hcalm.calm a) (hcalm.pc a)
  | @trace i e _ arg pc hev hrun howed hpc hproc =>
      rw [hproc]
      refine (Function.forall_update_iff _ fun a q => Slot k _ a q).mpr ⟨?_, fun a ha => ?_⟩
      · exact .traced hev rfl hrun (hpc.trans howed.symm)
      · exact .rest (by simp [hev, ha.symm]) (by simp [Label.runner, ha.symm])
  | @create i j e _ np pid hev hj hij hrun howed hunused hproc hstate htracer hpc =>
      rw [hproc]
      refine forall_update₂ (P := fun a q => Slot k _ a q) ?_ ?_ fun a hi hj => ?_
      · exact .onward (by simp [hev, hij.symm]) rfl (by simp [hev, howed])
      · exact .created hev (by simp [Label.runner, hij]) hunused hstate htracer
          (by simp [hpc, hk.idle j (.inl hunused)])
      · exact .rest (by simp [hev, hj.symm]) (by simp [Label.runner, hi.symm])
  | @ready i np e _ pid hev hnp hrun hpc hproc =>
      rw [hproc]
      refine forall_update₂ (P := fun a q => Slot k _ a q) ?_ ?_ fun a hi _ => ?_
      · exact .onward (by simp [hev]) rfl (by simp [hev, hpc])
      · exact .ready hev (by simp [Label.runner, hnp]) (hk.child i np (by simp [hpc]))
      · exact .rest (by simp [hev]) (by simp [Label.runner, hi.symm])
  | @reap i j e _ pid hev hj hij hrun howed hzombie hproc =>
      rw [hproc]
      refine forall_update₂ (P := fun a q => Slot k _ a q) ?_ ?_ fun a hi hj => ?_
      · exact .onward (by simp [hev, hij.symm]) rfl (by simp [hev, howed])
      · exact .freed hev (by simp [Label.runner, hij]) hzombie
      · exact .rest (by simp [hev, hj.symm]) (by simp [Label.runner, hi.symm])
  | @forked i e _ hev howed hproc =>
      rw [hproc]
      refine (Function.forall_update_iff _ fun a q => Slot k _ a q).mpr ⟨?_, fun a ha => ?_⟩
      · exact .onward (by simp [hev]) rfl (by simp [hev, howed])
      · exact .rest (by simp [hev]) (by simp [Label.runner, ha.symm])
  | @waited i e _ hev howed hproc =>
      rw [hproc]
      refine (Function.forall_update_iff _ fun a q => Slot k _ a q).mpr ⟨?_, fun a ha => ?_⟩
      · exact .onward (by simp [hev]) rfl (by simp [hev, howed])
      · exact .rest (by simp [hev]) (by simp [Label.runner, ha.symm])

end Syscall
