-- SUMMARY: Between two grants of tickets a process is dispatched exactly as often as it was granted tickets, when the next reset comes and finds it runnable.
import OsLabs.Lottery.Rounds

/-!
# Shares

Tickets are granted in three places: the first process gets one at boot, a child gets those
of its parent's allotment at `fork`, and a reset gives each RUNNABLE process its allotment. A
dispatch takes one. An account per slot keeps both numbers, and what is left of it is
`current_tickets`. The reset comes when the RUNNABLE processes have nothing left, so their
accounts are even.
-/

namespace Lottery

open CInt

/-- What the process in a slot was last granted, and how often it has been dispatched since. -/
structure Account where
  granted : Int
  spent : Nat
deriving DecidableEq

/-- The round resets the tickets. -/
def Kernel.Resets (k : Kernel) : Prop := getTotalRunnableTickets k.proc = 0

instance (k : Kernel) : Decidable k.Resets := inferInstanceAs (Decidable (_ = _))

/-- The account of slot `i` after one more step. -/
def Account.after (i : Nat) (a : Account) (q : Kernel × RoundLabel) : Account :=
  match q.2 with
  | .round _    =>
      if q.1.Resets ∧ (q.1.proc i).state = .runnable then ⟨(q.1.proc i).initialTickets, 0⟩ else a
  | .dispatch p => if p = i then { a with spent := a.spent + 1 } else a
  | .call j c   => if forkSlot q.1.toProcs c = some i then ⟨(q.1.proc j).initialTickets, 0⟩ else a
  | _           => a

/-- The account of slot `i` after the steps `tr` from boot, where the first process has been
    granted one ticket. -/
def account (i : Nat) (tr : List (Kernel × RoundLabel)) : Account :=
  tr.foldl (Account.after i) ⟨if i = 0 then 1 else 0, 0⟩

/-! ## The ticket invariant over rounds -/

theorem resetTickets_nexts (t : Table) : Nexts t (resetTickets t) := by
  intro j
  unfold resetTickets
  split
  · exact ⟨fun hf => ⟨hf.1, Int.le_trans (by decide) hf.1⟩, id, fun _ => id⟩
  · exact .refl _

theorem beforeDraw_ok {t : Table} (h : TicketsOk t) : TicketsOk (beforeDraw t) := by
  unfold beforeDraw
  split
  · exact h.nexts (resetTickets_nexts t)
  · exact h

/-- The slot that a round chooses has a ticket. The sum that counts is that of the table which
    the lottery sees, after a reset. -/
theorem round_ok {k : Kernel} {g : Rng} (h : k.Ok)
    (hsum : ticketSum (k.round g).proc NPROC < 2 ^ 31) : (k.round g).Ok := by
  have htickets : TicketsOk (beforeDraw k.proc) := beforeDraw_ok h.tickets
  have hsum : ticketSum (beforeDraw k.proc) NPROC < 2 ^ 31 := hsum
  have htotal : getTotalRunnableTickets (beforeDraw k.proc) = ticketSum (beforeDraw k.proc) NPROC :=
    runningTotal_eq htickets.solvent hsum (Nat.le_refl _)
  have hnonneg : 0 ≤ ticketSum (beforeDraw k.proc) NPROC :=
    ticketSum_mono htickets.solvent (Nat.zero_le _) (Nat.le_refl _)
  have hdraw : CanDraw 0 (getTotalRunnableTickets (beforeDraw k.proc)) _ := ⟨g, rfl⟩
  obtain ⟨hr, -⟩ := hdraw.bounds (by omega) (by omega)
  exact ⟨htickets, fun hp => lotteryScan_ticket htickets.solvent hsum hr hp⟩

/-- Steps other than rounds are steps of the kernel. -/
theorem roundStep_kernel {k k' : Kernel} {l : RoundLabel} (h : rounds.step k l k')
    (hl : ∀ g, l ≠ .round g) : ∃ l', kernel.step k l' k' := by
  cases l with
  | round g => exact absurd rfl (hl g)
  | again =>
      simp only [rounds, Kernel.roundStep] at h
      split at h
      · exact ⟨_, h⟩
      · cases h
  | intr c => exact ⟨.intr c, h⟩
  | dispatch p => exact ⟨.dispatch p, h⟩
  | call i c => exact ⟨.call i c, h⟩
  | behind t => exact ⟨.behind t, h⟩

theorem roundStep_round {k k' : Kernel} {g : Rng} (h : rounds.step k (.round g) k') :
    k' = k.round g := by
  simp only [rounds, Kernel.roundStep] at h
  split at h
  · exact (Option.some.inj h).symm
  · cases h

theorem roundStep_ok {k k' : Kernel} {l : RoundLabel} (h : k.Ok)
    (hsum : ticketSum k.proc NPROC < 2 ^ 31) (hsum' : ticketSum k'.proc NPROC < 2 ^ 31)
    (hs : rounds.step k l k') : k'.Ok := by
  by_cases hl : ∃ g, l = .round g
  · obtain ⟨g, rfl⟩ := hl
    rw [roundStep_round hs] at hsum' ⊢
    exact round_ok h hsum'
  · obtain ⟨l', hs'⟩ := roundStep_kernel hs fun g hg => hl ⟨g, hg⟩
    exact step_ok h hsum hs'

/-! ## Accounts -/

/-- What is left of the account is what the process has. -/
def Account.Balanced (a : Account) (p : Proc) : Prop := p.currentTickets = a.granted - a.spent

theorem Account.Balanced.step {k k' : Kernel} {l : RoundLabel} {a : Account} {i : Nat}
    (h : a.Balanced (k.proc i)) (hok : k.Ok) (hsum : ticketSum k.proc NPROC < 2 ^ 31)
    (hi : i < NPROC) (hs : rounds.step k l k') : (a.after i (k, l)).Balanced (k'.proc i) := by
  unfold Account.Balanced at h ⊢
  cases l with
  | round g =>
      rw [roundStep_round hs]
      simp only [Account.after, Kernel.round, beforeDraw, Kernel.Resets]
      by_cases hreset : getTotalRunnableTickets k.proc = 0
      · rw [if_pos hreset]
        by_cases hrun : (k.proc i).state = .runnable
        · simp [resetTickets, hi, hrun, hreset]
        · simp [resetTickets, hrun, h]
      · simp [hreset, h]
  | again =>
      simp only [rounds, Kernel.roundStep] at hs
      split at hs
      · rename_i hcpu
        simp only [Kernel.step, hcpu, schedSection] at hs
        split at hs
        · cases hs
        · cases hs
          exact h
      · cases hs
  | intr c =>
      cases hs
      exact (congrArg Prod.fst (wakeup_counts _ c k.proc i)).trans h
  | dispatch p =>
      cases move_of_step (l := .dispatch p) hs with
      | dispatch hpc hrun =>
          simp only [Account.after]
          by_cases hp : p = i
          · subst hp
            obtain ⟨-, hpay⟩ := dispatch_pays hok hsum hi hpc
            rw [Function.update_self, hpay, if_pos rfl]
            push_cast
            omega
          · rw [Function.update_of_ne (Ne.symm hp), if_neg hp]
            exact h
  | call j c =>
      cases move_of_step (l := .call j c) hs with
      | call _ _ hcall =>
          refine (congrArg Prod.fst (call_counts hcall i)).trans ?_
          simp only [Account.after]
          by_cases hslot : forkSlot k.toProcs c = some i
          · simp [hslot]
          · simp [hslot, h]
  | behind t =>
      cases hs
      simpa [hi, Account.after] using h

/-- The accounts of all slots agree with the table, in every run of rounds. -/
theorem balanced_of_run {k₀ k : Kernel} {tr : List (Kernel × RoundLabel)} (h₀ : rounds.init k₀)
    (hrun : rounds.Run k₀ tr k) (hsum : ∀ q ∈ tr, ticketSum q.1.proc NPROC < 2 ^ 31)
    (hk : ticketSum k.proc NPROC < 2 ^ 31) {i : Nat} (hi : i < NPROC) :
    k.Ok ∧ (account i tr).Balanced (k.proc i) := by
  revert hsum hk
  refine hrun.history (I := fun (tr : List (Kernel × RoundLabel)) (k : Kernel) =>
    (∀ q ∈ tr, ticketSum q.1.proc NPROC < 2 ^ 31) → ticketSum k.proc NPROC < 2 ^ 31 →
      k.Ok ∧ (account i tr).Balanced (k.proc i)) ?_ ?_
  · intro _ _
    refine ⟨init_ok h₀, ?_⟩
    obtain ⟨t, rfl⟩ := h₀
    rcases Nat.eq_zero_or_pos i with rfl | hpos
    · simp [account, Account.Balanced, hi, boot]
    · simp [account, Account.Balanced, hi, boot, userinit, Proc.zero, Nat.ne_of_gt hpos]
  · intro tr k l k' _ ih hs hsum hk'
    have hk : ticketSum k.proc NPROC < 2 ^ 31 := hsum (k, l) (by simp)
    obtain ⟨hok, hbal⟩ := ih (fun q hq => hsum q (List.mem_append_left _ hq)) hk
    refine ⟨roundStep_ok hok hk hk' hs, ?_⟩
    rw [account, List.foldl_concat]
    exact hbal.step hok hk hi hs

/-! ## Even accounts -/

/-- Whenever a round resets the tickets, every process that is RUNNABLE then has been
    dispatched, since it was last granted tickets, exactly as often as it was granted tickets. The
    sum of tickets is below `2 ^ 31` in every state up to the reset. -/
theorem exact_share {k₀ k k' : Kernel} {tr : List (Kernel × RoundLabel)} {g : Rng}
    (h₀ : rounds.init k₀) (hrun : rounds.Run k₀ (tr ++ [(k, .round g)]) k')
    (hsum : ∀ q ∈ tr ++ [(k, .round g)], ticketSum q.1.proc NPROC < 2 ^ 31) (hreset : k.Resets) :
    ∀ i < NPROC, (k.proc i).state = .runnable →
      ((account i tr).spent : Int) = (account i tr).granted := by
  intro i hi hrunnable
  have hbefore : rounds.Run k₀ tr k := hrun.snoc_inv.1
  have hk : ticketSum k.proc NPROC < 2 ^ 31 := hsum (k, .round g) (by simp)
  obtain ⟨hok, hbal⟩ := balanced_of_run h₀ hbefore
    (fun q hq => hsum q (List.mem_append_left _ hq)) hk hi
  have htotal : ticketSum k.proc NPROC = 0 := by
    rw [← runningTotal_eq hok.tickets.solvent hk (Nat.le_refl _)]
    exact hreset
  have hle := tickets_le_ticketSum hok.tickets.solvent hi
  have hge := hok.tickets.solvent i hi
  have htick : tickets (k.proc i) = (k.proc i).currentTickets := if_pos hrunnable
  unfold Account.Balanced at hbal
  omega

/-- The first process has a child, asks for as many tickets as there are, and yields. Its child
    runs on its one ticket and exits. -/
def asksForMore (g : Rng) : List RoundLabel :=
  [.round g, .dispatch 0, .call 0 (.fork true true), .call 0 .forkParent, .call 0 .forkRunnable,
    .call 0 (.settickets 2147483647), .call 0 .yield, .round g, .dispatch 1, .call 1 (.exit 0)]

/-- The first process has one ticket until the reset, whatever it has asked for. While its child
    was runnable, too, a reset would not have fitted into an `int`. -/
theorem exact_share_settickets :
    ∃ tr k k', rounds.init boot ∧ rounds.Run boot (tr ++ [(k, .round (random Rng.seed).2)]) k' ∧
      (∃ q ∈ tr, 2 ^ 31 ≤ ticketSum (resetTickets q.1.proc) NPROC) ∧
      k.Resets ∧ (k.proc 0).state = .runnable ∧ (k.proc 0).initialTickets = 2147483647 ∧
      (account 0 tr).granted = 1 ∧ (account 0 tr).spent = 1 := by
  have hinit : rounds.init boot := ⟨boot.proc, by simp⟩
  have hplay : (TransitionSystem.play Kernel.roundStep (asksForMore (random Rng.seed).2) boot).any
      (fun r => decide (r.2.cpu = .scheduler (.test 0 0) ∧ r.2.Resets ∧
        (r.2.proc 0).state = .runnable ∧ (r.2.proc 0).initialTickets = 2147483647 ∧
        (account 0 r.1).granted = 1 ∧ ticketSum r.2.proc NPROC < 2 ^ 31 ∧
        (∃ q ∈ r.1, 2 ^ 31 ≤ ticketSum (resetTickets q.1.proc) NPROC) ∧
        ∀ q ∈ r.1, ticketSum q.1.proc NPROC < 2 ^ 31)) = true := by
    decide +kernel
  cases hr : TransitionSystem.play Kernel.roundStep (asksForMore (random Rng.seed).2) boot with
  | none => simp [hr] at hplay
  | some r =>
      obtain ⟨tr, k⟩ := r
      simp only [hr, Option.any_some, decide_eq_true_eq] at hplay
      obtain ⟨hcpu, hreset, hrunnable, hasked, hgranted, hlast, hmore, hbefore⟩ := hplay
      have hrun : rounds.Run boot tr k :=
        TransitionSystem.run_of_play (fun _ _ _ hs => hs) hr
      have hround : rounds.step k (.round (random Rng.seed).2) (k.round (random Rng.seed).2) :=
        if_pos hcpu
      have hsum : ∀ q ∈ tr ++ [(k, .round (random Rng.seed).2)],
          ticketSum q.1.proc NPROC < 2 ^ 31 := by
        intro q hq
        rcases List.mem_append.mp hq with hq | hq
        · exact hbefore q hq
        · rw [List.mem_singleton.mp hq]
          exact hlast
      have hshare := exact_share hinit (hrun.snoc hround) hsum hreset 0 (by decide) hrunnable
      exact ⟨tr, k, _, hinit, hrun.snoc hround, hmore, hreset, hrunnable, hasked, hgranted,
        by omega⟩

end Lottery
