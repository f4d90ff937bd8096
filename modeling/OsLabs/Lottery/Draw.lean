-- SUMMARY: How often a draw picks each slot, and when the 32-bit totals behind it are the true sums.
import Mathlib.Data.Finset.Card
import Mathlib.Data.Finset.SDiff
import OsLabs.Lottery.Slots

/-!
# The law of the draw

As long as the tickets of the runnable processes fit into an `int`, slot `i` wins exactly
for the draws between the sums before and after it, so it wins as often as it has tickets.
The kernel does nothing to keep the sum that small: `settickets` takes any positive `int`,
and children inherit it.
-/

namespace Lottery

open CInt

/-! ## Shares -/

/-- The loop stops at `i` for the draws from the sum before `i` up to the sum after it. -/
theorem lotteryScan_eq_iff {t : Table} (h : Solvent t) (hsum : ticketSum t NPROC < 2 ^ 31)
    {i : Nat} (hi : i < NPROC) {r : Int} (hr : 0 ≤ r) :
    lotteryScan t r = i ↔ ticketSum t i ≤ r ∧ r < ticketSum t (i + 1) := by
  obtain ⟨-, -, hbefore, hstop⟩ := scanFrom_spec t r NPROC 0
  constructor
  · rintro rfl
    obtain ⟨-, hpast⟩ := hstop (by rwa [Nat.zero_add])
    have hle := runningTotal_le_of_not_stops hr fun m hm => hbefore m (Nat.zero_le m) hm
    change r < runningTotal t (lotteryScan t r + 1) at hpast
    change runningTotal t (lotteryScan t r) ≤ r at hle
    rw [runningTotal_eq h hsum (by omega)] at hpast hle
    exact ⟨hle, hpast⟩
  · rintro ⟨hle, hlt⟩
    apply Nat.le_antisymm
    · -- The loop does not pass `i`: it would break there.
      by_contra hpast
      apply hbefore i (Nat.zero_le i) (Nat.lt_of_not_le hpast)
      refine ⟨?_, ?_⟩
      · by_contra hrun
        have hzero : tickets (t i) = 0 := if_neg hrun
        have hsucc := ticketSum_succ t i
        omega
      · rw [runningTotal_eq h hsum hi]
        exact hlt
    · -- It does not break before `i`: the sums up to there do not exceed the draw.
      by_contra hearly
      have hscan : lotteryScan t r < i := Nat.lt_of_not_le hearly
      obtain ⟨-, hpast⟩ := hstop (by rw [Nat.zero_add]; exact Nat.lt_trans hscan hi)
      change r < runningTotal t (lotteryScan t r + 1) at hpast
      rw [runningTotal_eq h hsum (by omega)] at hpast
      have hmono := ticketSum_mono h (m := lotteryScan t r + 1) (n := i) hscan (by omega)
      omega

/-- The draws from `0` to a non-negative `total` for which the loop stops at `i`. -/
def draws (t : Table) (total : Int) (i : Nat) : Finset Nat :=
  (Finset.range (total.toNat + 1)).filter fun r => lotteryScan t r = i

theorem card_draws {t : Table} (h : Solvent t) (hsum : ticketSum t NPROC < 2 ^ 31) {i : Nat}
    (hi : i < NPROC) : ((draws t (ticketSum t NPROC) i).card : Int) = tickets (t i) := by
  have hbelow : 0 ≤ ticketSum t i := ticketSum_mono h (Nat.zero_le i) (Nat.le_of_lt hi)
  have hmono : ticketSum t i ≤ ticketSum t (i + 1) := ticketSum_mono h (Nat.le_succ i) hi
  have habove : ticketSum t (i + 1) ≤ ticketSum t NPROC := ticketSum_mono h hi (Nat.le_refl _)
  have hdraws : draws t (ticketSum t NPROC) i =
      Finset.range (ticketSum t (i + 1)).toNat \ Finset.range (ticketSum t i).toNat := by
    ext r
    rw [draws, Finset.mem_filter, lotteryScan_eq_iff h hsum hi (Int.natCast_nonneg r),
      Finset.mem_sdiff, Finset.mem_range, Finset.mem_range, Finset.mem_range]
    omega
  have hsub : Finset.range (ticketSum t i).toNat ⊆ Finset.range (ticketSum t (i + 1)).toNat :=
    Finset.range_subset_range.mpr (Int.toNat_le_toNat hmono)
  rw [hdraws, Finset.card_sdiff_of_subset hsub, Finset.card_range, Finset.card_range]
  have hsucc := ticketSum_succ t i
  omega

/-- If nobody in the lottery owes tickets and the sum is below `2 ^ 31 - 1`, then
    `randomrange(0, total)` returns the numbers from `0` to the sum, and the loop stops at
    each slot for as many of them as the slot has tickets in the lottery. A slot without
    tickets is never drawn. -/
theorem draws_proportional {t : Table}
    (h : ∀ i < NPROC, (t i).state = .runnable → 0 ≤ (t i).currentTickets)
    (hsum : ticketSum t NPROC < 2 ^ 31 - 1) :
    (∀ r, CanDraw 0 (getTotalRunnableTickets t) r ↔ 0 ≤ r ∧ r ≤ ticketSum t NPROC) ∧
    (∀ i < NPROC, ((draws t (ticketSum t NPROC) i).card : Int) =
      if (t i).state = .runnable then (t i).currentTickets else 0) ∧
    (∀ i < NPROC, (t i).currentTickets = 0 → ∀ r, CanDraw 0 (getTotalRunnableTickets t) r →
      lotteryScan t r ≠ i) := by
  have hsol : Solvent t := by
    intro i hi
    unfold tickets
    split
    · rename_i hrun
      exact h i hi hrun
    · exact Int.le_refl 0
  have hlt : ticketSum t NPROC < 2 ^ 31 := by omega
  have hnonneg : 0 ≤ ticketSum t NPROC := ticketSum_mono hsol (Nat.zero_le _) (Nat.le_refl _)
  have htotal : getTotalRunnableTickets t = ticketSum t NPROC :=
    runningTotal_eq hsol hlt (Nat.le_refl _)
  have hdraw : ∀ r, CanDraw 0 (getTotalRunnableTickets t) r ↔ 0 ≤ r ∧ r ≤ ticketSum t NPROC := by
    intro r
    rw [htotal]
    exact canDraw_iff hnonneg hsum
  refine ⟨hdraw, ?_, ?_⟩
  · intro i hi
    exact card_draws hsol hlt hi
  · intro i hi hzero r hr hscan
    obtain ⟨hle, hpast⟩ := (lotteryScan_eq_iff hsol hlt hi ((hdraw r).mp hr).1).mp hscan
    have htick : tickets (t i) = 0 := by
      unfold tickets
      rw [hzero]
      exact ite_self 0
    rw [ticketSum_succ, htick] at hpast
    omega

/-- Three RUNNABLE processes with three tickets, none and five, and one that sleeps on seven. -/
def fourProcs : Table
  | 0 => { Proc.zero with state := .runnable, initialTickets := 4, currentTickets := 3 }
  | 1 => { Proc.zero with state := .runnable, initialTickets := 2, currentTickets := 0 }
  | 2 => { Proc.zero with state := .runnable, initialTickets := 5, currentTickets := 5 }
  | 3 => { Proc.zero with state := .sleeping, initialTickets := 7, currentTickets := 7 }
  | _ => Proc.zero

/-- Of the nine draws three choose the first process and five the third. -/
theorem draws_proportional_four :
    ticketSum fourProcs NPROC = 8 ∧
      (∀ r, CanDraw 0 (getTotalRunnableTickets fourProcs) r ↔ 0 ≤ r ∧ r ≤ 8) ∧
      (∀ i < 4, ((draws fourProcs 8 i).card : Int) = [3, 0, 5, 0].getD i 0) ∧
      ∀ r, CanDraw 0 (getTotalRunnableTickets fourProcs) r → lotteryScan fourProcs r ≠ 1 := by
  have hsum : ticketSum fourProcs NPROC = 8 := by decide +kernel
  have hsol : ∀ i < NPROC, (fourProcs i).state = .runnable → 0 ≤ (fourProcs i).currentTickets := by
    decide +kernel
  obtain ⟨hdraw, hcard, hnone⟩ := draws_proportional hsol (by rw [hsum]; decide)
  rw [hsum] at hdraw hcard
  refine ⟨hsum, hdraw, ?_, hnone 1 (by decide) rfl⟩
  intro i hi
  refine (hcard i (Nat.lt_trans hi (by decide))).trans ?_
  revert i
  decide

/-! ## Overflow -/

theorem addTickets_wrap32 (p : Proc) (x : Int) :
    addTickets p (wrap32 x) = wrap32 (x + tickets p) := by
  unfold addTickets tickets
  split
  · exact wrap32_add_wrap32 x _
  · rw [Int.add_zero]

/-- A running total is the true sum modulo `2 ^ 32`. -/
theorem runningTotal_eq_wrap32 (t : Table) (n : Nat) :
    runningTotal t n = wrap32 (ticketSum t n) := by
  induction n with
  | zero => rfl
  | succ n ih => rw [runningTotal, ih, addTickets_wrap32, ticketSum_succ]

/-- Both loops count the true sums: `get_total_runnable_tickets` over the whole table, and
    the lottery loop up to wherever it gets. -/
def TotalsExact (t : Table) : Prop :=
  getTotalRunnableTickets t = ticketSum t NPROC ∧
    ∀ n ≤ NPROC, runningTotal t n = ticketSum t n

theorem totalsExact_iff {t : Table} (h : Solvent t) :
    TotalsExact t ↔ ticketSum t NPROC < 2 ^ 31 := by
  constructor
  · rintro ⟨htotal, -⟩
    rw [getTotalRunnableTickets, runningTotal_eq_wrap32, wrap32_eq_self_iff] at htotal
    exact htotal.2
  · intro hsum
    exact ⟨runningTotal_eq h hsum (Nat.le_refl _), fun n hn => runningTotal_eq h hsum hn⟩

/-- No slot has or is about to get more than `m` tickets. -/
def Capped (m : Int) (t : Table) : Prop :=
  ∀ j < NPROC, (t j).initialTickets ≤ m ∧ (t j).currentTickets ≤ m

theorem Capped.update {m : Int} {t : Table} (h : Capped m t) {i : Nat} {p : Proc}
    (hp : i < NPROC → p.initialTickets ≤ m ∧ p.currentTickets ≤ m) :
    Capped m (Function.update t i p) := by
  intro j hj
  exact (Function.forall_update_iff t fun j q => j < NPROC →
    q.initialTickets ≤ m ∧ q.currentTickets ≤ m).mpr ⟨hp, fun j _ => h j⟩ j hj

theorem Capped.pokes {m : Int} {t t' : Table} (h : Capped m t) (hp : Pokes t t') :
    Capped m t' := by
  intro j hj
  rw [(hp j).initial, (hp j).current]
  exact h j hj

theorem Capped.sum_le {m : Int} {t : Table} (h : Capped m t) (hm : 0 ≤ m) :
    ticketSum t NPROC ≤ NPROC * m := by
  have hle : ticketSum t NPROC ≤ ∑ _i ∈ Finset.range NPROC, m := by
    apply Finset.sum_le_sum
    intro i hi
    unfold tickets
    split
    · exact (h i (Finset.mem_range.mp hi)).2
    · exact hm
  simpa using hle

/-- The step does not ask for more than `m` tickets. -/
def Label.asksAtMost (m : Int) : Label → Bool
  | .call _ (.settickets n) => n ≤ m
  | _                       => true

theorem asksAtMost_of_silent {m : Int} {l : Label} (h : l.silent = true) :
    l.asksAtMost m = true := by
  cases l with
  | call i c => cases h
  | _ => rfl

theorem Did.capped {m : Int} {k k' : Procs} {i : Nat} {c : Call} {r : Ret}
    (hdid : Did k i c r k') (h : Capped m k.proc) (hi : i < NPROC)
    (hc : (Label.call i c).asksAtMost m = true) : Capped m k'.proc := by
  cases hdid with
  | pokes hp => exact h.pokes hp
  | settickets _ => exact h.update fun hi => ⟨of_decide_eq_true hc, (h i hi).2⟩
  | forkFail _ _ _ _ hinitial hcurrent =>
      apply h.update
      intro hnp
      rw [hinitial, hcurrent]
      exact h _ hnp
  | forkOk _ _ _ _ hinitial hcurrent =>
      apply Capped.update
      · apply h.update
        intro _
        rw [hinitial, hcurrent]
        exact ⟨(h i hi).1, (h i hi).1⟩
      · exact h i
  | forkParent _ hp => exact (h.pokes hp).update (h.pokes hp i)
  | @forkRunnable np _ _ _ =>
      have hwoken : Capped m (k.set np { k.proc np with state := .runnable }).proc :=
        h.update (h np)
      exact hwoken.update (hwoken i)
  | exit _ hp => exact (h.pokes hp).update (h.pokes hp i)
  | reap _ _ => exact h.update (h _)
  | sleep => exact h.update (h i)
  | sleepReturn => exact h.update (h i)
  | yield => exact h.update (h i)

theorem schedSection_capped {m : Int} {t t' : Table} {pc pc' : SchedPc} (h : Capped m t)
    (hs : schedSection t pc = some (t', pc')) : Capped m t' := by
  cases pc with
  | reset i =>
      simp only [schedSection] at hs
      split at hs
      · split at hs
        · cases hs
          exact h.update fun hi => ⟨(h i hi).1, (h i hi).1⟩
        · cases hs
          exact h
      · cases hs
        exact h
  | _ =>
      simp only [schedSection] at hs
      repeat' split at hs
      all_goals
        cases hs
        try exact h

theorem step_capped {m : Int} {k k' : Kernel} {l : Label} (hsound : k.Sound) (hok : k.Ok)
    (hsum : ticketSum k.proc NPROC < 2 ^ 31) (h : Capped m k.proc) (hl : l.asksAtMost m = true)
    (hs : kernel.step k l k') : Capped m k'.proc := by
  cases move_of_step hs with
  | intr => exact h.pokes (wakeup_pokes _ _ _)
  | sched _ hsection => exact schedSection_capped h hsection
  | draw _ _ => exact h
  | @dispatch p hpc _ =>
      apply h.update
      intro hp
      obtain ⟨-, hpay⟩ := dispatch_pays hok hsum hp hpc
      have hcap := h p hp
      exact ⟨hcap.1, by omega⟩
  | @call i c _ _ hcpu hi hcall =>
      have hrun := hsound.running i hi hcpu
      exact (did_of_call (by rw [hrun]; simp) hcall).capped h hi hl
  | behind =>
      intro j hj
      simpa [hj] using h j hj

/-- The largest number of tickets that all slots can have at once. -/
def maxTickets : Int := (2 ^ 31 - 1) / NPROC

theorem Capped.fits {t : Table} (h : Capped maxTickets t) : ticketSum t NPROC < 2 ^ 31 := by
  have hsum := h.sum_le (by decide)
  have hbound : (NPROC : Int) * maxTickets < 2 ^ 31 := by decide
  omega

theorem run_capped {k₀ k : Kernel} {tr : List (Kernel × Label)} (h₀ : kernel.init k₀)
    (hrun : kernel.Run k₀ tr k) (hask : ∀ q ∈ tr, q.2.asksAtMost maxTickets = true) :
    (k.Sound ∧ k.Ok) ∧ Capped maxTickets k.proc := by
  refine hrun.invariant (I := fun k : Kernel => (k.Sound ∧ k.Ok) ∧ Capped maxTickets k.proc)
    ?_ hask ?_
  · refine ⟨⟨init_sound h₀, init_ok h₀⟩, ?_⟩
    obtain ⟨t, rfl⟩ := h₀
    have hboot : ∀ j < NPROC, (boot.proc j).initialTickets ≤ maxTickets ∧
        (boot.proc j).currentTickets ≤ maxTickets := by decide +kernel
    intro j hj
    simpa [hj] using hboot j hj
  · intro k l k' hl hinv hs
    obtain ⟨⟨hsound, hok⟩, hcap⟩ := hinv
    exact ⟨⟨step_sound hsound hs, step_ok hok hcap.fits hs⟩,
      step_capped hsound hok hcap.fits hcap hl hs⟩

/-- In a run in which the tickets of the RUNNABLE processes have fitted into an `int` so far,
    the totals are the true sums exactly if they fit now. They always do if nobody asks for
    more than `maxTickets`. -/
theorem totals_exact_iff {k₀ k : Kernel} {tr : List (Kernel × Label)} (h₀ : kernel.init k₀)
    (hrun : kernel.Run k₀ tr k) :
    ((∀ q ∈ tr, ticketSum q.1.proc NPROC < 2 ^ 31) →
      (TotalsExact k.proc ↔ ticketSum k.proc NPROC < 2 ^ 31)) ∧
    ((∀ q ∈ tr, q.2.asksAtMost maxTickets = true) → TotalsExact k.proc) := by
  constructor
  · intro hsum
    have hok : k.Ok := hrun.invariant (init_ok h₀) hsum fun _ _ _ hs h => step_ok h hs
    exact totalsExact_iff hok.tickets.solvent
  · intro hask
    obtain ⟨⟨-, hok⟩, hcap⟩ := run_capped h₀ hrun hask
    exact (totalsExact_iff hok.tickets.solvent).mpr hcap.fits

/-- The first process sets its tickets and forks twice. -/
def forkTwice (g : Rng) (n : Int) : List RoundLabel :=
  [.round g, .dispatch 0, .call 0 (.settickets n),
    .call 0 (.fork true true), .call 0 .forkParent, .call 0 .forkRunnable,
    .call 0 (.fork true true), .call 0 .forkParent, .call 0 .forkRunnable]

/-- `settickets` accepts the largest `int`, and both children inherit it: their `2 ^ 32 - 2`
    tickets add up to `-2`. -/
theorem totals_overflow :
    ∃ k₀ tr k, kernel.init k₀ ∧ kernel.Run k₀ tr k ∧ ticketSum k.proc NPROC = 2 ^ 32 - 2 ∧
      getTotalRunnableTickets k.proc = -2 ∧ ¬ TotalsExact k.proc := by
  obtain ⟨k₀, tr, k, hinit, hrun, hp⟩ := exists_run_of_rounds
    (fun _ k => decide (ticketSum k.proc NPROC = 2 ^ 32 - 2 ∧ getTotalRunnableTickets k.proc = -2))
    (forkTwice (random Rng.seed).2 (2 ^ 31 - 1)) (by decide +kernel)
  obtain ⟨hsum, htotal⟩ := of_decide_eq_true hp
  refine ⟨k₀, tr, k, hinit, hrun, hsum, htotal, ?_⟩
  rintro ⟨hexact, -⟩
  rw [htotal, hsum] at hexact
  exact absurd hexact (by decide)

/-- With the largest allotment that is safe for a full table, the children have twice that. -/
theorem totals_exact_iff_forkTwice :
    ∃ k₀ tr k, kernel.init k₀ ∧ kernel.Run k₀ tr k ∧
      ticketSum k.proc NPROC = 2 * maxTickets ∧ TotalsExact k.proc := by
  obtain ⟨k₀, tr, k, hinit, hrun, hp⟩ := exists_run_of_rounds
    (fun tr k => decide (ticketSum k.proc NPROC = 2 * maxTickets ∧
      ∀ q ∈ tr, q.2.asksAtMost maxTickets = true))
    (forkTwice (random Rng.seed).2 maxTickets) (by decide +kernel)
  obtain ⟨hsum, hloud⟩ := of_decide_eq_true hp
  refine ⟨k₀, tr, k, hinit, hrun, hsum, (totals_exact_iff hinit hrun).2 ?_⟩
  intro q hq
  cases hsilent : q.2.silent with
  | false => exact hloud q (List.mem_filter.mpr ⟨hq, by rw [hsilent]; rfl⟩)
  | true => exact asksAtMost_of_silent hsilent

end Lottery
