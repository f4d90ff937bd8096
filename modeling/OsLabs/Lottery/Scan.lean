-- SUMMARY: Where the lottery loop stops: exactly when it leaves the pointer inside the process table, and the off-by-one that takes it past the end.
import Mathlib.Algebra.BigOperators.Intervals
import Mathlib.Algebra.Order.BigOperators.Group.Finset
import OsLabs.Lottery.Scheduler

/-!
# The lottery loop

The loop stops at the first runnable slot whose running total exceeds the draw. The
draw comes from `randomrange(0, total)`, which includes `total` itself; no running
total exceeds that, so the loop runs off the end of the table, and it does so always
when no process is runnable.
-/

namespace Lottery

open CInt

/-- The lottery loop breaks at slot `i` if it gets there. -/
def Stops (t : Table) (random : Int) (i : Nat) : Prop :=
  (t i).state = .runnable ∧ random < runningTotal t (i + 1)

theorem scanFrom_spec (t : Table) (random : Int) (fuel i : Nat) :
    let p := scanFrom t random fuel i (runningTotal t i)
    i ≤ p ∧ p ≤ i + fuel ∧ (∀ m, i ≤ m → m < p → ¬ Stops t random m) ∧
      (p < i + fuel → Stops t random p) := by
  induction fuel generalizing i with
  | zero =>
      refine ⟨Nat.le_refl i, Nat.le_refl i, ?_, ?_⟩
      · intro m h₁ h₂
        exact absurd h₂ (Nat.not_lt.mpr h₁)
      · intro h
        exact absurd h (Nat.lt_irrefl i)
  | succ fuel ih =>
      by_cases hstop : Stops t random i
      · have hp : scanFrom t random (fuel + 1) i (runningTotal t i) = i := if_pos hstop
        simp only [hp]
        exact ⟨Nat.le_refl i, by omega, fun m h₁ h₂ => by omega, fun _ => hstop⟩
      · have hp : scanFrom t random (fuel + 1) i (runningTotal t i) =
            scanFrom t random fuel (i + 1) (runningTotal t (i + 1)) := if_neg hstop
        obtain ⟨h₁, h₂, h₃, h₄⟩ := ih (i + 1)
        simp only [hp]
        refine ⟨by omega, by omega, ?_, fun h => h₄ (by omega)⟩
        intro m hm₁ hm₂
        by_cases hm : m = i
        · subst hm
          exact hstop
        · exact h₃ m (by omega) hm₂

/-- The loop leaves `p` inside the table, at a slot where it breaks, or at the end of
    the table if it breaks nowhere. -/
theorem lotteryScan_cases (t : Table) (random : Int) :
    (lotteryScan t random < NPROC ∧ Stops t random (lotteryScan t random)) ∨
    (lotteryScan t random = NPROC ∧ ∀ i < NPROC, ¬ Stops t random i) := by
  obtain ⟨-, h₂, h₃, h₄⟩ := scanFrom_spec t random NPROC 0
  rw [Nat.zero_add] at h₂ h₄
  rcases Nat.lt_or_ge (lotteryScan t random) NPROC with h | h
  · exact .inl ⟨h, h₄ h⟩
  · have heq : lotteryScan t random = NPROC := Nat.le_antisymm h₂ h
    refine .inr ⟨heq, fun i hi => h₃ i (Nat.zero_le i) ?_⟩
    change i < lotteryScan t random
    omega

/-! ## Rounds without interrupts -/

/-- Without interrupts, `scheduler()` gets from `pc` to `pc'` and leaves the processes
    alone. -/
def Quiet (ks : Procs) (pc pc' : SchedPc) : Prop :=
  ∃ tr, kernel.Run { ks with cpu := .scheduler pc } tr { ks with cpu := .scheduler pc' } ∧
    ∀ q ∈ tr, q.1.toProcs = ks

theorem Quiet.refl (ks : Procs) (pc : SchedPc) : Quiet ks pc pc := ⟨[], .nil _, by simp⟩

theorem Quiet.cons {ks : Procs} {pc pc' pc'' : SchedPc} {l : Label}
    (hs : kernel.step { ks with cpu := .scheduler pc } l { ks with cpu := .scheduler pc' })
    (h : Quiet ks pc' pc'') : Quiet ks pc pc'' := by
  obtain ⟨tr, hrun, htr⟩ := h
  exact ⟨_ :: tr, .cons hs hrun, by simpa using htr⟩

theorem Quiet.sched {ks : Procs} {pc pc' pc'' : SchedPc}
    (hs : schedSection ks.proc pc = some (ks.proc, pc')) (h : Quiet ks pc' pc'') :
    Quiet ks pc pc'' :=
  h.cons (l := .sched) (by simp [kernel, Kernel.step, hs])

theorem quiet_test {ks : Procs} {pc : SchedPc} (fuel i : Nat) (hi : i + fuel = NPROC)
    (h : Quiet ks (.test NPROC (getTotalRunnableTickets ks.proc)) pc) :
    Quiet ks (.test i (runningTotal ks.proc i)) pc := by
  induction fuel generalizing i with
  | zero =>
      obtain rfl : i = NPROC := hi
      exact h
  | succ fuel ih => exact (ih (i + 1) (by omega)).sched (if_pos (by omega))

theorem quiet_total {ks : Procs} {pc : SchedPc} (fuel i : Nat) (hi : i + fuel = NPROC)
    (h : Quiet ks (.total NPROC (getTotalRunnableTickets ks.proc)) pc) :
    Quiet ks (.total i (runningTotal ks.proc i)) pc := by
  induction fuel generalizing i with
  | zero =>
      obtain rfl : i = NPROC := hi
      exact h
  | succ fuel ih => exact (ih (i + 1) (by omega)).sched (if_pos (by omega))

theorem quiet_scan (ks : Procs) (random : Int) (fuel i : Nat) (count : Int)
    (hi : i + fuel = NPROC) :
    Quiet ks (.scan i count random) (.chosen (scanFrom ks.proc random fuel i count)) := by
  induction fuel generalizing i count with
  | zero => exact (Quiet.refl _ _).sched (if_neg (by omega))
  | succ fuel ih =>
      have hlt : i < NPROC := by omega
      by_cases hstop : (ks.proc i).state = .runnable ∧ addTickets (ks.proc i) count > random
      · have hp : scanFrom ks.proc random (fuel + 1) i count = i := if_pos hstop
        rw [hp]
        refine (Quiet.refl _ _).sched ?_
        simp only [schedSection, if_pos hlt, if_pos hstop]
      · have hp : scanFrom ks.proc random (fuel + 1) i count =
            scanFrom ks.proc random fuel (i + 1) (addTickets (ks.proc i) count) := if_neg hstop
        rw [hp]
        refine (ih (i + 1) (addTickets (ks.proc i) count) (by omega)).sched ?_
        simp only [schedSection, if_pos hlt, if_neg hstop]

/-- Without interrupts, the lottery chooses the slot that the loop finds for a draw from the
    total. -/
theorem quiet_lottery (ks : Procs) (g : Rng) :
    Quiet ks (.total 0 0)
      (.chosen (lotteryScan ks.proc (randomrange g 0 (getTotalRunnableTickets ks.proc)).1)) := by
  refine quiet_total NPROC 0 (Nat.zero_add _) ?_
  refine (quiet_scan ks _ NPROC 0 0 (Nat.zero_add _)).cons (l := .draw g) ?_
  simp [kernel, Kernel.step]

/-- A round without interrupts and without a reset chooses the slot that the loop finds
    for a draw from the total. -/
theorem quiet_round (ks : Procs) (g : Rng) (h : getTotalRunnableTickets ks.proc ≠ 0) :
    Quiet ks (.test 0 0)
      (.chosen (lotteryScan ks.proc (randomrange g 0 (getTotalRunnableTickets ks.proc)).1)) := by
  refine quiet_test NPROC 0 (Nat.zero_add _) ?_
  exact (quiet_lottery ks g).sched (by simp [schedSection, h])

/-! ## True sums -/

/-- The tickets of slot `i` that take part in the lottery. -/
def tickets (p : Proc) : Int := if p.state = .runnable then p.currentTickets else 0

/-- The true sum over the first `n` slots. -/
def ticketSum (t : Table) (n : Nat) : Int := ∑ i ∈ Finset.range n, tickets (t i)

theorem ticketSum_succ (t : Table) (n : Nat) :
    ticketSum t (n + 1) = ticketSum t n + tickets (t n) :=
  Finset.sum_range_succ _ n

theorem addTickets_eq {p : Proc} {total : Int} (h₁ : -2 ^ 31 ≤ total + tickets p)
    (h₂ : total + tickets p < 2 ^ 31) : addTickets p total = total + tickets p := by
  unfold addTickets tickets at *
  split
  · rename_i hp
    rw [if_pos hp] at h₁ h₂
    exact wrap32_eq_self h₁ h₂
  · omega

/-- Nobody in the lottery owes tickets. -/
def Solvent (t : Table) : Prop := ∀ i < NPROC, 0 ≤ tickets (t i)

theorem ticketSum_mono {t : Table} (h : Solvent t) {m n : Nat} (hmn : m ≤ n) (hn : n ≤ NPROC) :
    ticketSum t m ≤ ticketSum t n := by
  refine Finset.sum_le_sum_of_subset_of_nonneg (Finset.range_mono hmn) fun i hi _ => h i ?_
  have := Finset.mem_range.mp hi
  omega

/-- Without debts and overflow, running totals are true sums. -/
theorem runningTotal_eq {t : Table} (h : Solvent t) (hsum : ticketSum t NPROC < 2 ^ 31) {n : Nat}
    (hn : n ≤ NPROC) : runningTotal t n = ticketSum t n := by
  induction n with
  | zero => rfl
  | succ n ih =>
      have ih' := ih (by omega)
      have h₀ : 0 ≤ ticketSum t (n + 1) := ticketSum_mono h (Nat.zero_le (n + 1)) hn
      have h₁ : ticketSum t (n + 1) ≤ ticketSum t NPROC := ticketSum_mono h hn (Nat.le_refl _)
      rw [ticketSum_succ] at *
      rw [runningTotal, ih']
      exact addTickets_eq (by omega) (by omega)

/-- While the loop does not break, its running total does not exceed the draw. -/
theorem runningTotal_le_of_not_stops {t : Table} {random : Int} (hr : 0 ≤ random) {n : Nat}
    (hno : ∀ m < n, ¬ Stops t random m) : runningTotal t n ≤ random := by
  induction n with
  | zero => exact hr
  | succ n ih =>
      by_cases hrun : (t n).state = .runnable
      · by_contra hgt
        exact hno n (by omega) ⟨hrun, by omega⟩
      · have hskip : runningTotal t (n + 1) = runningTotal t n := if_neg hrun
        rw [hskip]
        exact ih fun m hm => hno m (by omega)

/-- The slot at which the loop breaks has a ticket: it took the total past the draw. -/
theorem lotteryScan_ticket {t : Table} (h : Solvent t) (hsum : ticketSum t NPROC < 2 ^ 31)
    {random : Int} (hr : 0 ≤ random) (hlt : lotteryScan t random < NPROC) :
    (t (lotteryScan t random)).state = .runnable ∧
      1 ≤ (t (lotteryScan t random)).currentTickets := by
  obtain ⟨-, -, hbefore, hstop⟩ := scanFrom_spec t random NPROC 0
  obtain ⟨hrun, hpast⟩ := hstop (by rwa [Nat.zero_add])
  have hle := runningTotal_le_of_not_stops hr fun m hm => hbefore m (Nat.zero_le m) hm
  change random < runningTotal t (lotteryScan t random + 1) at hpast
  change runningTotal t (lotteryScan t random) ≤ random at hle
  have htick : tickets (t (lotteryScan t random)) = (t (lotteryScan t random)).currentTickets :=
    if_pos hrun
  rw [runningTotal_eq h hsum (by omega)] at hpast hle
  rw [ticketSum_succ, htick] at hpast
  exact ⟨hrun, by omega⟩

/-- Without debts and overflow, the loop breaks somewhere exactly for the draws below
    the total. -/
theorem exists_stops_iff {t : Table} (h : Solvent t) (hsum : ticketSum t NPROC < 2 ^ 31)
    {random : Int} (hr : 0 ≤ random) :
    (∃ i < NPROC, Stops t random i) ↔ random < getTotalRunnableTickets t := by
  have htotal : getTotalRunnableTickets t = ticketSum t NPROC :=
    runningTotal_eq h hsum (Nat.le_refl _)
  constructor
  · rintro ⟨i, hi, -, hlt⟩
    rw [runningTotal_eq h hsum (by omega)] at hlt
    have := ticketSum_mono h (m := i + 1) (n := NPROC) (by omega) (Nat.le_refl _)
    omega
  · intro hlt
    by_contra hno
    push Not at hno
    have hle := runningTotal_le_of_not_stops hr hno
    unfold getTotalRunnableTickets at hlt
    omega

/-! ## The chosen slot -/

/-- `p` is a slot of the table, and a runnable one if there is one. -/
def SlotOk (t : Table) (p : Nat) : Prop :=
  p < NPROC ∧ ((∃ i < NPROC, (t i).state = .runnable) → (t p).state = .runnable)

/-- The pointer that the lottery loop leaves is a slot, and a runnable one if there is
    one, exactly when some running total of runnable tickets exceeds the draw. As long
    as nobody owes tickets and the sum does not overflow, these are the draws other
    than the upper bound of the range, `total`. -/
theorem lotteryScan_slotOk_iff {t : Table} {random : Int}
    (hdraw : CanDraw 0 (getTotalRunnableTickets t) random) :
    (SlotOk t (lotteryScan t random) ↔
      ∃ i < NPROC, (t i).state = .runnable ∧ random < runningTotal t (i + 1)) ∧
    (Solvent t → ticketSum t NPROC < 2 ^ 31 →
      (SlotOk t (lotteryScan t random) ↔ random ≠ getTotalRunnableTickets t)) := by
  have hiff : SlotOk t (lotteryScan t random) ↔ ∃ i < NPROC, Stops t random i := by
    rcases lotteryScan_cases t random with ⟨hlt, hstop⟩ | ⟨heq, hno⟩
    · exact ⟨fun _ => ⟨_, hlt, hstop⟩, fun _ => ⟨hlt, fun _ => hstop.1⟩⟩
    · refine ⟨fun h => absurd h.1 (by omega), fun ⟨i, hi, hs⟩ => absurd hs (hno i hi)⟩
  refine ⟨hiff, ?_⟩
  intro hsol hsum
  have htotal : getTotalRunnableTickets t = ticketSum t NPROC :=
    runningTotal_eq hsol hsum (Nat.le_refl _)
  have hnonneg : 0 ≤ ticketSum t NPROC := ticketSum_mono hsol (Nat.zero_le _) (Nat.le_refl _)
  obtain ⟨h₀, h₁⟩ := hdraw.bounds (by omega) (by omega)
  rw [hiff, exists_stops_iff hsol hsum h₀]
  omega

/-- The first draw after boot is the upper bound of its range, and takes the pointer
    past the end of the table: `scheduler()` is about to lock what lies behind. -/
theorem boot_scan_overruns :
    CanDraw 0 (getTotalRunnableTickets boot.proc) 1 ∧
    (boot.proc 0).state = .runnable ∧
    lotteryScan boot.proc 1 = NPROC ∧ ¬ SlotOk boot.proc (lotteryScan boot.proc 1) ∧
    kernel.Reachable boot ∧ kernel.Reachable { boot with cpu := .scheduler (.chosen NPROC) } := by
  have hboot : kernel.init boot := ⟨boot.proc, by simp⟩
  have hdraw : (randomrange Rng.seed 0 (getTotalRunnableTickets boot.proc)).1 = 1 := by
    decide +kernel
  have hover : lotteryScan boot.proc 1 = NPROC := by decide +kernel
  obtain ⟨tr, hrun, -⟩ := quiet_round boot.toProcs Rng.seed (by decide +kernel)
  rw [hdraw, hover] at hrun
  refine ⟨⟨Rng.seed, hdraw⟩, rfl, hover, ?_, .init hboot, boot, tr, hboot, hrun⟩
  intro h
  rw [hover] at h
  exact Nat.lt_irrefl _ h.1

/-- The second draw from the same table would be `0` and would choose the first process. -/
theorem lotteryScan_slotOk_iff_boot :
    CanDraw 0 (getTotalRunnableTickets boot.proc) 0 ∧ SlotOk boot.proc (lotteryScan boot.proc 0) := by
  have hdraw : CanDraw 0 (getTotalRunnableTickets boot.proc) 0 :=
    ⟨(random Rng.seed).2, by decide +kernel⟩
  have hsol : Solvent boot.proc := by unfold Solvent; decide +kernel
  have hsum : ticketSum boot.proc NPROC < 2 ^ 31 := by decide +kernel
  exact ⟨hdraw, ((lotteryScan_slotOk_iff hdraw).2 hsol hsum).mpr (by decide +kernel)⟩

end Lottery
