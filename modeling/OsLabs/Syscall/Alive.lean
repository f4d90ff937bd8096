-- SUMMARY: The process count of the system-call kernel: what aliveproc counts at rest, and what it returns while other processes come and go.
import Mathlib.Algebra.BigOperators.Intervals
import OsLabs.Syscall.Events

/-!
# Counting processes

`aliveproc` counts the slots that are not UNUSED. Only two events change that number: a
`fork` taking a slot and a `wait` freeing one. Each is followed, later, by the return of
the call, so at rest the count is 1 plus the forks less the waits that returned a pid.

While other processes run, `aliveproc` looks at every slot at another instant. What it
returns is the count at its start, corrected by what happens *ahead* of it.
-/

namespace Syscall

open TransitionSystem
open Lottery (NPROC)

/-- The slots below `j` that are not UNUSED, counted as the loop of `aliveproc` does. -/
def counted (t : Table) (j : Nat) : Nat :=
  (List.range j).countP fun a => (t a).state ≠ .unused

/-- What `aliveproc()` returns when nothing runs in between. -/
def aliveproc (t : Table) : Nat := counted t NPROC

/-! ## What a step does to the count -/

def Proc.inUse (p : Proc) : Int := if p.state = .unused then 0 else 1

theorem counted_succ (t : Table) (j : Nat) :
    counted t (j + 1) = if (t j).state ≠ .unused then counted t j + 1 else counted t j := by
  unfold counted
  rw [List.range_succ, List.countP_append]
  split <;> simp_all

theorem counted_eq_sum (t : Table) (j : Nat) :
    (counted t j : Int) = ∑ a ∈ Finset.range j, (t a).inUse := by
  induction j with
  | zero => rfl
  | succ j ih =>
      rw [counted_succ, Finset.sum_range_succ, ← ih, Proc.inUse]
      split <;> simp_all

variable {k k' : Kernel} {l : Label} {tr : List (Kernel × Label)}

/-- A slot comes into use when it is taken and goes out of use when it is freed. -/
theorem inUse_step (hk : k.Ok) (hs : kernel.step k l k') (a : Nat) :
    (k'.proc a).inUse = (k.proc a).inUse + (if k.event l = some (.create a) then 1 else 0) -
      (if k.event l = some (.reap a) then 1 else 0) := by
  have hother : (∀ ev, k.event l = some ev → ev.slot ≠ some a) →
      k.event l ≠ some (.create a) ∧ k.event l ≠ some (.reap a) :=
    fun h => ⟨fun hev => h _ hev rfl, fun hev => h _ hev rfl⟩
  have hslot := slot_of_step hk hs a
  generalize k'.proc a = q at hslot
  cases hslot with
  | calm h hcalm =>
      simp [hother fun ev hev => (h ev hev).1, Proc.inUse, hcalm.unused]
  | onward h => simp [hother h, Proc.inUse]
  | traced hev => simp [hev, Proc.inUse]
  | created hev _ hunused hstate => simp [hev, Proc.inUse, hunused, hstate]
  | ready hev _ hused => simp [hev, Proc.inUse, hused]
  | freed hev _ hzombie => simp [hev, Proc.inUse, freeproc, hzombie]

/-- The slots in use among any set of slots. -/
theorem sum_inUse_step (hk : k.Ok) (hs : kernel.step k l k') (S : Finset Nat) :
    ∑ a ∈ S, (k'.proc a).inUse = ∑ a ∈ S, (k.proc a).inUse +
      (∑ a ∈ S, (if k.event l = some (.create a) then 1 else 0) -
        ∑ a ∈ S, (if k.event l = some (.reap a) then 1 else 0)) := by
  rw [Finset.sum_congr rfl fun a _ => inUse_step hk hs a, Finset.sum_sub_distrib,
    Finset.sum_add_distrib, add_sub_assoc]

/-- What an event adds to the number of slots in use. -/
@[simp] def Event.slots : Event → Int
  | .create _ => 1
  | .reap _   => -1
  | _         => 0

theorem aliveproc_step (hk : k.Ok) (hs : kernel.step k l k') :
    (aliveproc k'.proc : Int) = aliveproc k.proc + (k.event l).elim 0 Event.slots := by
  unfold aliveproc
  rw [counted_eq_sum, counted_eq_sum, sum_inUse_step hk hs]
  congr 1
  cases moved_of_step hk hs with
  | calm hev => simp [hev]
  | trace hev => simp [hev]
  | create hev hj => simp [hev, hj]
  | ready hev => simp [hev]
  | reap hev hj => simp [hev, hj]
  | forked hev => simp [hev]
  | waited hev => simp [hev]

/-! ## Calls that have not returned yet -/

theorem owed_step (hk : k.Ok) (hs : kernel.step k l k') (a : Nat) :
    (k'.proc a).pc.owed.balance = (k.proc a).pc.owed.balance +
      if l.runner = some a then (k.event l).elim 0 Event.balance else 0 := by
  have hslot := slot_of_step hk hs a
  generalize k'.proc a = q at hslot
  cases hslot with
  | calm h hcalm =>
      cases hev : k.event l with
      | none => simp [hcalm.owed]
      | some ev => simp [hcalm.owed, (h ev hev).2]
  | onward _ hrunner hbalance =>
      rw [if_pos hrunner]
      exact hbalance
  | traced hev _ _ howed => simp [hev, howed]
  | created _ hrunner _ _ _ howed => simp [hrunner, howed]
  | ready hev hrunner => simp [hrunner]
  | freed _ hrunner => simp [hrunner, freeproc]

theorem runner_lt {i : Nat} (hs : kernel.step k l k') (hl : l.runner = some i) : i < NPROC := by
  cases l with
  | run j e =>
      cases hl
      simp only [kernel, Kernel.step, Option.ite_none_right_eq_some] at hs
      exact hs.1.1
  | dispatch j => cases hl
  | yield j => cases hl
  | wakeup me c j => cases hl

theorem sum_owed_step (hk : k.Ok) (hs : kernel.step k l k') :
    ∑ a ∈ Finset.range NPROC, (k'.proc a).pc.owed.balance =
      ∑ a ∈ Finset.range NPROC, (k.proc a).pc.owed.balance +
        (k.event l).elim 0 Event.balance := by
  rw [Finset.sum_congr rfl fun a _ => owed_step hk hs a, Finset.sum_add_distrib]
  congr 1
  cases hrunner : l.runner with
  | none =>
      have hev : k.event l = none := by
        cases l <;> first | rfl | cases hrunner
      simp [hev]
  | some i => simp [runner_lt hs hrunner]

/-! ## The count at rest -/

/-- The forks that have returned a pid. -/
def forks (tr : List (Kernel × Label)) : Nat := tr.countP fun q => q.1.event q.2 = some .forked

/-- The waits that have returned a pid. -/
def waits (tr : List (Kernel × Label)) : Nat := tr.countP fun q => q.1.event q.2 = some .waited

/-- No process is between taking or freeing a slot and returning from the call. -/
def Kernel.Quiet (k : Kernel) : Prop := ∀ i < NPROC, (k.proc i).pc.owed = .nothing

instance (k : Kernel) : Decidable k.Quiet := inferInstanceAs (Decidable (∀ i < NPROC, _))

/-- The slots in use are those of the forks and waits that have returned, corrected by
    those that have not. -/
theorem run_alive (hrun : kernel.Run boot tr k) :
    (aliveproc k.proc : Int) =
      1 + forks tr - waits tr + ∑ a ∈ Finset.range NPROC, (k.proc a).pc.owed.balance := by
  apply hrun.history (I := fun tr k => (aliveproc k.proc : Int) =
    1 + forks tr - waits tr + ∑ a ∈ Finset.range NPROC, (k.proc a).pc.owed.balance)
  · decide +kernel
  · intro tr t l t' hr h hs
    have hk := kernel_ok ⟨boot, tr, rfl, hr⟩
    rw [aliveproc_step hk hs, sum_owed_step hk hs, h]
    simp only [forks, waits, List.countP_append, List.countP_singleton]
    cases t.event l with
    | none => simp
    | some ev => cases ev <;> simp <;> omega

theorem Kernel.Quiet.sum_eq_zero (h : k.Quiet) :
    ∑ a ∈ Finset.range NPROC, (k.proc a).pc.owed.balance = 0 := by
  apply Finset.sum_eq_zero
  intro a ha
  rw [h a (Finset.mem_range.mp ha), Owed.balance]

/-- The loop of `aliveproc` on its own, up to slot `j`. -/
theorem alive_scan {i j : Nat} (hi : i < NPROC) (hstate : (k.proc i).state = .running)
    (hpc : (k.proc i).pc = .alive 0 0) (hj : j ≤ NPROC) :
    ∃ tr, kernel.Run k tr (k.goto i (.alive j (counted k.proc j))) ∧
      ∀ q ∈ tr, q.2 = .run i .none := by
  induction j with
  | zero =>
      have hstart : k.goto i (.alive 0 (counted k.proc 0)) = k := Kernel.goto_eq_self hpc
      rw [hstart]
      exact ⟨[], .nil k, by simp⟩
  | succ j ih =>
      obtain ⟨tr, hrun, hlabels⟩ := ih (by omega)
      have hstep : kernel.step (k.goto i (.alive j (counted k.proc j))) (.run i .none)
          (k.goto i (.alive (j + 1) (counted k.proc (j + 1)))) := by
        simp [kernel, Kernel.step, Kernel.run, aliveScan, hi, hstate, Nat.lt_of_succ_le hj,
          counted_succ]
      refine ⟨tr ++ [(_, .run i .none)], hrun.snoc hstep, ?_⟩
      intro q hq
      rcases List.mem_append.mp hq with hq | hq
      · exact hlabels q hq
      · rw [List.mem_singleton.mp hq]

/-- When no fork or wait is between changing a slot and returning, `aliveproc` counts the
    first process, the forks and the waits that have returned a pid, and returns that count
    if nothing runs in between. From one such state to another with as many returns of
    `fork` as of `wait`, the count is the same. -/
theorem aliveproc_at_rest (hrun : kernel.Run boot tr k) (hquiet : k.Quiet) :
    (aliveproc k.proc : Int) = 1 + forks tr - waits tr ∧
    (∀ i < NPROC, (k.proc i).state = .running → (k.proc i).pc = .alive 0 0 →
      ∃ tr', kernel.Run k tr' (k.goto i (.alive NPROC (aliveproc k.proc))) ∧
        ∀ q ∈ tr', q.2 = .run i .none) ∧
    (∀ tr' k', kernel.Run k tr' k' → k'.Quiet → forks tr' = waits tr' →
      aliveproc k'.proc = aliveproc k.proc) := by
  have hcount : (aliveproc k.proc : Int) = 1 + forks tr - waits tr := by
    rw [run_alive hrun, hquiet.sum_eq_zero, add_zero]
  refine ⟨hcount, ?_, ?_⟩
  · intro i hi hstate hpc
    exact alive_scan hi hstate hpc le_rfl
  · intro tr' k' hrun' hquiet' hsame
    have hcount' := run_alive (hrun.trans hrun')
    rw [hquiet'.sum_eq_zero] at hcount'
    simp only [forks, waits, List.countP_append] at hcount hcount' hsame
    omega

/-- The first process forks and then calls `sysinfo`. -/
def forkSysinfo : List Label :=
  [.dispatch 0, .run 0 (.ecall 1 0), .run 0 .none, .run 0 (.alloc .ok), .run 0 (.alloc .ok),
    .run 0 .none, .run 0 .none, .run 0 .none, .run 0 .none, .run 0 (.ecall 23 0), .run 0 .none]

/-- It counts two processes. -/
theorem aliveproc_at_rest_fork :
    ∃ tr k, kernel.Run boot tr k ∧ k.Quiet ∧ forks tr = 1 ∧ waits tr = 0 ∧
      ∃ tr', kernel.Run k tr' (k.goto 0 (.alive NPROC 2)) := by
  obtain ⟨tr, k, hrun, -, hp⟩ := exists_run_of_play (M := kernel) (fun _ _ _ h => h)
    forkSysinfo boot
    (fun tr k => decide (k.Quiet ∧ forks tr = 1 ∧ waits tr = 0 ∧
      (k.proc 0).state = .running ∧ (k.proc 0).pc = .alive 0 0))
    (by decide +kernel)
  obtain ⟨hquiet, hforks, hwaits, hstate, hpc⟩ := of_decide_eq_true hp
  obtain ⟨hcount, hscan, -⟩ := aliveproc_at_rest hrun hquiet
  obtain ⟨tr', hrun', -⟩ := hscan 0 (by decide) hstate hpc
  have htwo : aliveproc k.proc = 2 := by
    rw [hforks, hwaits] at hcount
    omega
  rw [htwo] at hrun'
  exact ⟨tr, k, hrun, hquiet, hforks, hwaits, tr', hrun'⟩

end Syscall
