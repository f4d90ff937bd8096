-- SUMMARY: The lottery kernel with whole scheduler rounds as steps, and why each of its runs is a run of the kernel.
import OsLabs.Lottery.Accounts

/-!
# Rounds

A coarser view of the hart: the test for a reset, the reset, the total and the lottery loop
are one step, and interrupts come only before or after it. Every run of this system is one
of the kernel, with the same calls and dispatches.
-/

namespace Lottery

/-- The loop that resets the tickets, over the whole table. -/
def resetTickets (t : Table) : Table := fun i =>
  if i < NPROC ∧ (t i).state = .runnable then
    { t i with currentTickets := (t i).initialTickets }
  else t i

/-- The table that the lottery sees: tickets are reset first if nobody has any. -/
def beforeDraw (t : Table) : Table :=
  if getTotalRunnableTickets t = 0 then resetTickets t else t

/-- A round of `scheduler()` up to the point where it locks the chosen slot. -/
def Kernel.round (k : Kernel) (g : Rng) : Kernel :=
  { k with
    proc := beforeDraw k.proc
    cpu := .scheduler (.chosen (lotteryScan (beforeDraw k.proc)
      (randomrange g 0 (getTotalRunnableTickets (beforeDraw k.proc))).1)) }

inductive RoundLabel
  /-- A round, with the generator in state `g`. -/
  | round (g : Rng)
  /-- `scheduler()` finds that the chosen slot is not runnable, and starts again. -/
  | again
  | intr (c : Chan)
  | dispatch (p : Nat)
  | call (i : Nat) (c : Call)
  | behind (t : Table)

def Kernel.roundStep (k : Kernel) : RoundLabel → Option Kernel
  | .round g    => if k.cpu = .scheduler (.test 0 0) then some (k.round g) else none
  | .again      =>
      match k.cpu with
      | .scheduler (.chosen _) => k.step .sched
      | _                      => none
  | .intr c     => k.step (.intr c)
  | .dispatch p => k.step (.dispatch p)
  | .call i c   => k.step (.call i c)
  | .behind t   => k.step (.behind t)

def rounds : TransitionSystem Kernel RoundLabel where
  init := kernel.init
  step k l k' := k.roundStep l = some k'

/-! ## A round as a run of the kernel -/

/-- Neither a dispatch nor a call. -/
def Label.silent : Label → Bool
  | .dispatch _ => false
  | .call _ _   => false
  | _           => true

/-- The kernel gets from `k` to `k'` without a dispatch or a call. -/
def Silently (k k' : Kernel) : Prop :=
  ∃ tr, kernel.Run k tr k' ∧ ∀ q ∈ tr, q.2.silent = true

theorem Silently.trans {k k' k'' : Kernel} (h : Silently k k') (h' : Silently k' k'') :
    Silently k k'' := by
  obtain ⟨tr, hrun, hsilent⟩ := h
  obtain ⟨tr', hrun', hsilent'⟩ := h'
  refine ⟨tr ++ tr', hrun.trans hrun', ?_⟩
  intro q hq
  rcases List.mem_append.mp hq with hq | hq
  · exact hsilent q hq
  · exact hsilent' q hq

theorem Silently.step {k k' : Kernel} {l : Label} (h : kernel.step k l k')
    (hl : l.silent = true) : Silently k k' :=
  ⟨_, (TransitionSystem.Run.nil k).snoc h, by simpa using hl⟩

/-- While `scheduler()` runs and no process changes, nobody is dispatched or makes a call: a
    dispatch would change the state of its process. -/
theorem silent_of_quiet {ks : Procs} {k k' : Kernel} {tr : List (Kernel × Label)}
    (hrun : kernel.Run k tr k') (hcpu : ∃ pc, k.cpu = .scheduler pc)
    (htr : ∀ q ∈ tr, q.1.toProcs = ks) (hk' : k'.toProcs = ks) :
    (∃ pc, k'.cpu = .scheduler pc) ∧ ∀ q ∈ tr, q.2.silent = true := by
  induction hrun with
  | nil => exact ⟨hcpu, by simp⟩
  | @snoc t u tr l hr hs ih =>
      have ht : t.toProcs = ks := htr (t, l) (by simp)
      obtain ⟨⟨pc, hpc⟩, hsilent⟩ := ih (fun q hq => htr q (by simp [hq])) ht
      have hstep : (∃ pc, u.cpu = .scheduler pc) ∧ l.silent = true := by
        cases move_of_step hs with
        | intr => exact ⟨⟨pc, hpc⟩, rfl⟩
        | sched _ _ => exact ⟨⟨_, rfl⟩, rfl⟩
        | draw _ _ => exact ⟨⟨_, rfl⟩, rfl⟩
        | @dispatch p _ hrun =>
            have hstate : (Function.update t.proc p (dispatch (t.proc p)) p).state =
                (t.proc p).state :=
              congrArg (fun ks : Procs => (ks.proc p).state) (hk'.trans ht.symm)
            rw [Function.update_self, hrun] at hstate
            cases hstate
        | call hcpu _ _ =>
            rw [hpc] at hcpu
            cases hcpu
        | behind => exact ⟨⟨pc, hpc⟩, rfl⟩
      refine ⟨hstep.1, ?_⟩
      intro q hq
      rcases List.mem_append.mp hq with hq | hq
      · exact hsilent q hq
      · rw [List.mem_singleton.mp hq]
        exact hstep.2

theorem Quiet.silently {ks : Procs} {pc pc' : SchedPc} (h : Quiet ks pc pc') :
    Silently { ks with cpu := .scheduler pc } { ks with cpu := .scheduler pc' } := by
  obtain ⟨tr, hrun, htr⟩ := h
  exact ⟨tr, hrun, (silent_of_quiet hrun ⟨pc, rfl⟩ htr rfl).2⟩

/-- The table when the reset loop has come to slot `i`. -/
def resetBelow (i : Nat) (t : Table) : Table := fun j =>
  if j < i ∧ (t j).state = .runnable then
    { t j with currentTickets := (t j).initialTickets }
  else t j

theorem resetBelow_section {i : Nat} (t : Table) (hi : i < NPROC) :
    schedSection (resetBelow i t) (.reset i) = some (resetBelow (i + 1) t, .reset (i + 1)) := by
  have hself : resetBelow i t i = t i := if_neg (by simp)
  have hother : ∀ j ≠ i, resetBelow (i + 1) t j = resetBelow i t j := by
    intro j hj
    have hlt : j < i + 1 ↔ j < i := by omega
    simp only [resetBelow, hlt]
  simp only [schedSection, if_pos hi, hself]
  split
  · rename_i hrun
    have hsucc : Function.update (resetBelow i t) i
        { t i with currentTickets := (t i).initialTickets } = resetBelow (i + 1) t := by
      refine Function.update_eq_iff.mpr ⟨?_, fun j hj => (hother j hj).symm⟩
      simp [resetBelow, hrun]
    rw [hsucc]
  · rename_i hrun
    have hsucc : resetBelow i t = resetBelow (i + 1) t := by
      funext j
      by_cases hj : j = i
      · subst hj
        simp [resetBelow, hrun]
      · exact (hother j hj).symm
    rw [hsucc]

theorem silently_reset (ks : Procs) (fuel i : Nat) (hi : i + fuel = NPROC) :
    Silently { ks with proc := resetBelow i ks.proc, cpu := .scheduler (.reset i) }
      { ks with proc := resetTickets ks.proc, cpu := .scheduler (.total 0 0) } := by
  induction fuel generalizing i with
  | zero =>
      obtain rfl : i = NPROC := hi
      exact .step (l := .sched) rfl rfl
  | succ fuel ih =>
      refine .trans (.step (l := .sched) ?_ rfl) (ih (i + 1) (by omega))
      simp only [kernel, Kernel.step, resetBelow_section ks.proc (show i < NPROC by omega)]
      rfl

/-- A round is a run of sections of `scheduler()`. -/
theorem round_silently {k : Kernel} (g : Rng) (hcpu : k.cpu = .scheduler (.test 0 0)) :
    Silently k (k.round g) := by
  obtain ⟨ks, cpu⟩ := k
  obtain rfl : cpu = .scheduler (.test 0 0) := hcpu
  by_cases hreset : getTotalRunnableTickets ks.proc = 0
  · have htest : Quiet ks (.test 0 0) (.reset 0) := by
      refine quiet_test NPROC 0 (Nat.zero_add _) ((Quiet.refl _ _).sched ?_)
      simp [schedSection, hreset]
    have hzero : resetBelow 0 ks.proc = ks.proc := by
      funext j
      simp [resetBelow]
    have hloop := silently_reset ks NPROC 0 (Nat.zero_add _)
    rw [hzero] at hloop
    have hlottery := quiet_lottery { ks with proc := resetTickets ks.proc } g
    unfold Kernel.round beforeDraw
    rw [if_pos hreset]
    exact htest.silently.trans (hloop.trans hlottery.silently)
  · unfold Kernel.round beforeDraw
    rw [if_neg hreset]
    exact (quiet_round ks g hreset).silently

/-! ## Runs -/

/-- The dispatch or call that a step is. -/
def RoundLabel.label? : RoundLabel → Option Label
  | .dispatch p => some (.dispatch p)
  | .call i c   => some (.call i c)
  | _           => none

/-- The dispatches and calls of a run of the kernel. -/
def loud (tr : List (Kernel × Label)) : List (Kernel × Label) := tr.filter fun q => !q.2.silent

/-- The dispatches and calls of a run of rounds. -/
def loudRounds (tr : List (Kernel × RoundLabel)) : List (Kernel × Label) :=
  tr.filterMap fun q => q.2.label?.map fun l => (q.1, l)

theorem roundStep_cases {k k' : Kernel} {l : RoundLabel} (h : rounds.step k l k') :
    (l.label? = none ∧ Silently k k') ∨ ∃ l', l.label? = some l' ∧ l'.silent = false ∧
      kernel.step k l' k' := by
  cases l with
  | round g =>
      simp only [rounds, Kernel.roundStep] at h
      split at h
      · rename_i hcpu
        cases h
        exact .inl ⟨rfl, round_silently g hcpu⟩
      · cases h
  | again =>
      simp only [rounds, Kernel.roundStep] at h
      split at h
      · exact .inl ⟨rfl, .step h rfl⟩
      · cases h
  | intr c => exact .inl ⟨rfl, .step (l := .intr c) h rfl⟩
  | dispatch p => exact .inr ⟨_, rfl, rfl, h⟩
  | call i c => exact .inr ⟨_, rfl, rfl, h⟩
  | behind t => exact .inl ⟨rfl, .step (l := .behind t) h rfl⟩

/-- Every run of rounds is a run of the kernel with the same dispatches and calls, from the
    same states. -/
theorem rounds_realised {k₀ k : Kernel} {tr : List (Kernel × RoundLabel)}
    (h : rounds.Run k₀ tr k) : ∃ tr', kernel.Run k₀ tr' k ∧ loud tr' = loudRounds tr := by
  induction h with
  | nil => exact ⟨[], .nil _, rfl⟩
  | @snoc k k' tr l _ hs ih =>
      obtain ⟨tr', hrun, hloud⟩ := ih
      simp only [loud, loudRounds] at hloud ⊢
      rcases roundStep_cases hs with ⟨hl, tr'', hrun', hsilent⟩ | ⟨l', hl, hl', hstep⟩
      · refine ⟨tr' ++ tr'', hrun.trans hrun', ?_⟩
        have hnone : tr''.filter (fun q => !q.2.silent) = [] :=
          List.filter_eq_nil_iff.mpr fun q hq => by simp [hsilent q hq]
        simp [hloud, hnone, hl]
      · refine ⟨tr' ++ [(k, l')], hrun.snoc hstep, ?_⟩
        simp [hloud, hl, hl']

/-- Rounds that can be played from the boot state to an end where `p` holds give a run of the
    kernel. -/
theorem exists_run_of_rounds (p : List (Kernel × Label) → Kernel → Bool) (ls : List RoundLabel)
    (h : (TransitionSystem.play Kernel.roundStep ls boot).any
      (fun r => p (loudRounds r.1) r.2) = true) :
    ∃ k₀ tr k, kernel.init k₀ ∧ kernel.Run k₀ tr k ∧ p (loud tr) k = true := by
  cases hplay : TransitionSystem.play Kernel.roundStep ls boot with
  | none => simp [hplay] at h
  | some r =>
      obtain ⟨tr, k⟩ := r
      rw [hplay] at h
      have hrounds : rounds.Run boot tr k :=
        TransitionSystem.run_of_play (fun _ _ _ hs => hs) hplay
      obtain ⟨tr', hrun, hloud⟩ := rounds_realised hrounds
      exact ⟨boot, tr', k, ⟨boot.proc, by simp⟩, hrun, by rw [hloud]; exact h⟩

/-- The first process forks and waits; the child is dispatched. -/
def forkOnce (g : Rng) : List RoundLabel :=
  [.round g, .dispatch 0, .call 0 (.fork true true), .call 0 .forkParent, .call 0 .forkRunnable,
    .call 0 (.wait true), .round g, .dispatch 1]

end Lottery
