-- SUMMARY: What `getpinfo` reports as time slices: the dispatches of a slot since boot, which are those of its process only if no process before it ran there.
import OsLabs.Lottery.Rounds

/-!
# Time slices

`ticks_used` is set to zero for the first process and never again. So it counts the
dispatches of a slot, whoever owns it. For a process in a slot that was used before, this
includes the time slices of the earlier processes.
-/

namespace Lottery

open CInt

/-! ## The report -/

/-- One index of `struct pstat`. -/
structure PstatEntry where
  inuse : Bool
  pid : Int
  ticketsOriginal : Int
  ticketsCurrent : Int
  timeSlices : Int
deriving DecidableEq

/-- What `getpinfo` reads of slot `i`, under its lock. -/
def getpinfo (t : Table) (i : Nat) : PstatEntry :=
  { inuse := (t i).state ≠ .unused
    pid := (t i).pid
    ticketsOriginal := (t i).initialTickets
    ticketsCurrent := (t i).currentTickets
    timeSlices := (t i).ticksUsed }

/-! ## Counting dispatches -/

def Label.dispatches (i : Nat) : Label → Bool
  | .dispatch p => p = i
  | _           => false

/-- The step creates a process in slot `i`. -/
def creates (i : Nat) (q : Kernel × Label) : Bool :=
  match q.2 with
  | .call _ c => forkSlot q.1.toProcs c = some i
  | _         => false

/-- How often slot `i` has been dispatched. -/
def dispatches (i : Nat) (tr : List (Kernel × Label)) : Nat := tr.countP fun q => q.2.dispatches i

def slicesAfter (i : Nat) (n : Nat) (q : Kernel × Label) : Nat :=
  if creates i q then 0 else if q.2.dispatches i then n + 1 else n

/-- How often slot `i` has been dispatched since its last process was created. -/
def slices (i : Nat) (tr : List (Kernel × Label)) : Nat := tr.foldl (slicesAfter i) 0

theorem dispatches_append (i : Nat) (tr : List (Kernel × Label)) (q : Kernel × Label) :
    dispatches i (tr ++ [q]) = dispatches i tr + (q.2.dispatches i).toNat := by
  rw [dispatches, List.countP_append, List.countP_singleton]
  cases q.2.dispatches i <;> rfl

theorem slices_append (i : Nat) (tr : List (Kernel × Label)) (q : Kernel × Label) :
    slices i (tr ++ [q]) = slicesAfter i (slices i tr) q := List.foldl_concat ..

theorem not_creates_of_dispatches {i : Nat} {q : Kernel × Label} (h : q.2.dispatches i = true) :
    creates i q = false := by
  unfold creates
  cases hl : q.2 with
  | dispatch p => rfl
  | _ => simp [hl, Label.dispatches] at h

/-! ## One step -/

theorem schedSection_ticksUsed {t t' : Table} {pc pc' : SchedPc}
    (h : schedSection t pc = some (t', pc')) (j : Nat) : (t' j).ticksUsed = (t j).ticksUsed := by
  cases pc with
  | reset i =>
      simp only [schedSection] at h
      split at h
      · split at h
        · cases h
          by_cases hj : j = i
          · subst hj
            rw [Function.update_self]
          · rw [Function.update_of_ne hj]
        · cases h
          rfl
      · cases h
        rfl
  | test i total =>
      simp only [schedSection] at h
      split at h
      · cases h
        rfl
      · split at h <;> cases h <;> rfl
  | total i total =>
      simp only [schedSection] at h
      split at h <;> cases h
      rfl
  | scan i count random =>
      simp only [schedSection] at h
      split at h
      · split at h <;> cases h <;> rfl
      · cases h
        rfl
  | chosen p =>
      simp only [schedSection] at h
      split at h <;> cases h
      rfl

/-- Only a dispatch of slot `j` writes its `ticks_used`. -/
theorem step_ticksUsed {k k' : Kernel} {l : Label} (hs : kernel.step k l k') {j : Nat}
    (hj : j < NPROC) :
    (k'.proc j).ticksUsed =
      if l.dispatches j then wrap32 ((k.proc j).ticksUsed + 1) else (k.proc j).ticksUsed := by
  cases move_of_step hs with
  | intr => exact congrArg Prod.snd (wakeup_counts _ _ k.proc j)
  | sched _ hsection => exact schedSection_ticksUsed hsection j
  | draw _ _ => rfl
  | @dispatch p _ _ =>
      by_cases hp : p = j
      · subst hp
        simp [Label.dispatches, dispatch]
      · simp [Label.dispatches, hp, Ne.symm hp]
  | call _ _ hcall => exact congrArg Prod.snd (call_counts hcall j)
  | behind => simp [Label.dispatches, hj]

/-! ## Runs -/

/-- Slot `i` after the steps `tr`, in a run that dispatches it less than `2 ^ 31` times. -/
structure Counted (i : Nat) (tr : List (Kernel × Label)) (k : Kernel) : Prop where
  ticksUsed : (k.proc i).ticksUsed = dispatches i tr
  le : slices i tr ≤ dispatches i tr
  eq_iff : slices i tr = dispatches i tr ↔
    ∀ q ∈ tr, creates i q = true → (q.1.proc i).ticksUsed = 0

theorem Counted.snoc {i : Nat} {tr : List (Kernel × Label)} {k k' : Kernel} {l : Label}
    (h : Counted i tr k) (hi : i < NPROC) (hfew : dispatches i (tr ++ [(k, l)]) < 2 ^ 31)
    (hs : kernel.step k l k') : Counted i (tr ++ [(k, l)]) k' := by
  obtain ⟨hticks, hle, hiff⟩ := h
  have hstep := step_ticksUsed hs hi
  have hall : (∀ q ∈ tr ++ [(k, l)], creates i q = true → (q.1.proc i).ticksUsed = 0) ↔
      (∀ q ∈ tr, creates i q = true → (q.1.proc i).ticksUsed = 0) ∧
      (creates i (k, l) = true → (k.proc i).ticksUsed = 0) := by
    simp [List.mem_append, or_imp, forall_and]
  rw [dispatches_append] at hfew
  by_cases hd : l.dispatches i = true
  · have hno : creates i (k, l) = false := not_creates_of_dispatches (q := (k, l)) hd
    rw [hd] at hfew
    rw [if_pos hd, hticks, wrap32_eq_self (by omega) (by simp at hfew; omega)] at hstep
    refine ⟨?_, ?_, ?_⟩ <;> rw [dispatches_append] <;> simp only [hd, Bool.toNat_true]
    · rw [hstep]
      push_cast
      rfl
    · rw [slices_append, slicesAfter, hno]
      simp [hd, hle]
    · rw [slices_append, slicesAfter, hno, hall, ← hiff]
      simp [hd, hno]
  · have hd' : l.dispatches i = false := by simpa using hd
    rw [if_neg hd, hticks] at hstep
    refine ⟨?_, ?_, ?_⟩ <;> rw [dispatches_append] <;> simp only [hd', Bool.toNat_false, Nat.add_zero]
    · exact hstep
    · rw [slices_append, slicesAfter]
      split
      · exact Nat.zero_le _
      · simpa [hd'] using hle
    · rw [slices_append, slicesAfter, hall, ← hiff]
      by_cases hc : creates i (k, l) = true
      · -- The count starts again; it is right only if there was nothing to count before.
        simp only [hc, if_true, true_imp_iff]
        constructor
        · intro hzero
          exact ⟨by omega, by omega⟩
        · rintro ⟨-, hzero⟩
          omega
      · simp [hc, hd']

theorem counted_of_run {k₀ k : Kernel} {tr : List (Kernel × Label)} (h₀ : kernel.init k₀)
    (hrun : kernel.Run k₀ tr k) {i : Nat} (hi : i < NPROC) (hfew : dispatches i tr < 2 ^ 31) :
    Counted i tr k := by
  refine hrun.history (I := fun tr k => dispatches i tr < 2 ^ 31 → Counted i tr k) ?_ ?_ hfew
  · intro _
    obtain ⟨t, rfl⟩ := h₀
    refine ⟨?_, Nat.le_refl _, by simp [slices, dispatches]⟩
    rcases Nat.eq_zero_or_pos i with rfl | hpos
    · simp [hi, boot, dispatches]
    · simp [hi, boot, userinit, dispatches, Proc.zero, Nat.ne_of_gt hpos]
  · intro tr k l k' _ ih hs hfew
    refine (ih ?_).snoc hi hfew hs
    rw [dispatches_append] at hfew
    omega

/-! ## Silent steps do not count -/

theorem silent_not_counted {i : Nat} {q : Kernel × Label} (h : q.2.silent = true) :
    creates i q = false ∧ q.2.dispatches i = false := by
  unfold creates
  cases hl : q.2 <;> simp [hl, Label.silent, Label.dispatches] at h ⊢

theorem slices_loud (i : Nat) (tr : List (Kernel × Label)) : slices i (loud tr) = slices i tr := by
  unfold slices loud
  rw [List.foldl_filter]
  congr 1
  funext n q
  by_cases hq : q.2.silent = true
  · simp [hq, slicesAfter, silent_not_counted hq]
  · simp [hq]

theorem dispatches_loud (i : Nat) (tr : List (Kernel × Label)) :
    dispatches i (loud tr) = dispatches i tr := by
  unfold dispatches loud
  rw [List.countP_filter]
  apply List.countP_congr
  intro q _
  by_cases hq : q.2.silent = true
  · simp [hq, silent_not_counted hq]
  · simp [hq]

/-! ## The report and the dispatches -/

/-- `getpinfo` reports the dispatches of a slot since boot. They are the dispatches of the
    process in the slot exactly if, whenever a process was created there, nobody had been
    dispatched in the slot before. -/
theorem timeSlices_eq_iff {k₀ k : Kernel} {tr : List (Kernel × Label)} (h₀ : kernel.init k₀)
    (hrun : kernel.Run k₀ tr k) {i : Nat} (hi : i < NPROC) (hfew : dispatches i tr < 2 ^ 31) :
    (getpinfo k.proc i).timeSlices = dispatches i tr ∧
    ((getpinfo k.proc i).timeSlices = slices i tr ↔
      ∀ q ∈ tr, creates i q = true → (q.1.proc i).ticksUsed = 0) := by
  have hcounted := counted_of_run h₀ hrun hi hfew
  have hticks : (getpinfo k.proc i).timeSlices = dispatches i tr := hcounted.ticksUsed
  refine ⟨hticks, ?_⟩
  rw [hticks, ← hcounted.eq_iff]
  omega

/-- The child exits; the first process, dispatched after a reset, collects it and forks again. -/
def forkAgain (g : Rng) : List RoundLabel :=
  [.call 1 (.exit 0), .round g, .dispatch 0, .call 0 .sleepReturn, .call 0 (.wait true),
    .call 0 (.fork true true)]

theorem timeSlices_eq_iff_firstChild :
    ∃ k₀ tr k, kernel.init k₀ ∧ kernel.Run k₀ tr k ∧ (k.proc 1).state = .running ∧
      slices 1 tr = 1 ∧ (getpinfo k.proc 1).timeSlices = slices 1 tr := by
  obtain ⟨k₀, tr, k, hinit, hrun, hp⟩ := exists_run_of_rounds
    (fun tr k => decide ((k.proc 1).state = .running ∧ slices 1 tr = 1 ∧ dispatches 1 tr = 1 ∧
      ∀ q ∈ tr, creates 1 q = true → (q.1.proc 1).ticksUsed = 0))
    (forkOnce (random Rng.seed).2) (by decide +kernel)
  obtain ⟨hstate, hslices, hone, hfirst⟩ := of_decide_eq_true hp
  rw [slices_loud] at hslices
  rw [dispatches_loud] at hone
  refine ⟨k₀, tr, k, hinit, hrun, hstate, hslices, ?_⟩
  refine ((timeSlices_eq_iff hinit hrun (by decide) (by omega)).2).mpr fun q hq hc => hfirst q ?_ hc
  refine List.mem_filter.mpr ⟨hq, ?_⟩
  cases hsilent : q.2.silent with
  | false => rfl
  | true => rw [(silent_not_counted hsilent).1] at hc; cases hc

/-- The second child is in the slot of the first and inherits its time slice: it is reported to
    have been dispatched once, and has never been. -/
theorem timeSlices_inherited :
    ∃ k₀ tr k, kernel.init k₀ ∧ kernel.Run k₀ tr k ∧ (getpinfo k.proc 1).inuse = true ∧
      (getpinfo k.proc 1).pid = 3 ∧ (getpinfo k.proc 1).timeSlices = 1 ∧ slices 1 tr = 0 ∧
      dispatches 1 tr = 1 := by
  obtain ⟨k₀, tr, k, hinit, hrun, hp⟩ := exists_run_of_rounds
    (fun tr k => decide ((getpinfo k.proc 1).inuse = true ∧ (getpinfo k.proc 1).pid = 3 ∧
      (getpinfo k.proc 1).timeSlices = 1 ∧ slices 1 tr = 0 ∧ dispatches 1 tr = 1))
    (forkOnce (random Rng.seed).2 ++ forkAgain (random Rng.seed).2) (by decide +kernel)
  obtain ⟨huse, hpid, hticks, hslices, hone⟩ := of_decide_eq_true hp
  rw [slices_loud] at hslices
  rw [dispatches_loud] at hone
  exact ⟨k₀, tr, k, hinit, hrun, huse, hpid, hticks, hslices, hone⟩

end Lottery
