-- SUMMARY: What aliveproc returns while other processes fork and wait: a count corrected by what happens ahead of the scan, and not always a count the table ever had.
import OsLabs.Syscall.Alive

/-!
# The scan of aliveproc among other processes

`aliveproc` takes one `p->lock` at a time, so a slot it has passed may be taken, and one
it has not reached yet may be freed, before it returns. The slots ahead of the scan count
as they are when it gets there; what happens behind it goes unnoticed.
-/

namespace Syscall

open TransitionSystem
open Lottery (NPROC)

def Pc.isAlive : Pc → Bool
  | .alive _ _ => true
  | _          => false

/-- One call of `aliveproc` by the process in slot `s`: it starts in `k₀`, other processes
    and harts take part in `tr`, and it is about to return `n` in `k`. -/
structure Scan (s : Nat) (k₀ : Kernel) (tr : List (Kernel × Label)) (k : Kernel) (n : Nat) :
    Prop where
  reachable : kernel.Reachable k₀
  run : kernel.Run k₀ tr k
  running : (k₀.proc s).state = .running
  start : (k₀.proc s).pc = .alive 0 0
  during : ∀ q ∈ tr, (q.1.proc s).pc.isAlive
  done : (k.proc s).pc = .alive NPROC n

/-- The slot the process in slot `s` looks at next. -/
def Kernel.position (k : Kernel) (s : Nat) : Nat :=
  match (k.proc s).pc with
  | .alive j _ => j
  | _          => NPROC

/-- The step takes a slot. -/
def takes (q : Kernel × Label) : Bool :=
  match q.1.event q.2 with
  | some (.create _) => true
  | _                => false

/-- The step frees a slot. -/
def frees (q : Kernel × Label) : Bool :=
  match q.1.event q.2 with
  | some (.reap _) => true
  | _              => false

/-- The step takes a slot that the process in slot `s` has not looked at yet. -/
def takesAhead (s : Nat) (q : Kernel × Label) : Bool :=
  match q.1.event q.2 with
  | some (.create j) => q.1.position s ≤ j
  | _                => false

/-- The step frees a slot that the process in slot `s` has not looked at yet. -/
def freesAhead (s : Nat) (q : Kernel × Label) : Bool :=
  match q.1.event q.2 with
  | some (.reap j) => q.1.position s ≤ j
  | _              => false

theorem takes_of_takesAhead {s : Nat} {q : Kernel × Label} (h : takesAhead s q) : takes q := by
  unfold takesAhead at h
  unfold takes
  split at h
  · rfl
  · cases h

theorem frees_of_freesAhead {s : Nat} {q : Kernel × Label} (h : freesAhead s q) : frees q := by
  unfold freesAhead at h
  unfold frees
  split at h
  · rfl
  · cases h

/-! ## What the scan sees -/

section Scan

variable {k k' k₀ : Kernel} {l : Label} {tr : List (Kernel × Label)} {s n : Nat}

/-- What `aliveproc` would return if nothing changed from now on. -/
def Kernel.seen (k : Kernel) (s : Nat) : Int :=
  match (k.proc s).pc with
  | .alive j n => n + ∑ a ∈ Finset.Ico j NPROC, (k.proc a).inUse
  | _          => 0

theorem seen_eq {j : Nat} (h : (k.proc s).pc = .alive j n) :
    k.seen s = n + ∑ a ∈ Finset.Ico j NPROC, (k.proc a).inUse := by
  rw [Kernel.seen, h]

/-- Only its own steps move a process on. -/
theorem pc_of_other (hk : k.Ok) (hs : kernel.step k l k') (hl : l.runner ≠ some s)
    (hunused : (k.proc s).state ≠ .unused) : (k'.proc s).pc = (k.proc s).pc := by
  have hslot := slot_of_step hk hs s
  generalize k'.proc s = q at hslot
  cases hslot with
  | calm _ _ hpc => exact hpc hl hunused
  | onward _ hrunner => exact absurd hrunner hl
  | traced _ hrunner => exact absurd hrunner hl
  | created _ _ h => exact absurd h hunused
  | ready => rfl
  | freed => rfl

/-- The process that runs `aliveproc` does not go away. -/
theorem live_step (hk : k.Ok) (hs : kernel.step k l k') (halive : (k.proc s).pc.isAlive)
    (hunused : (k.proc s).state ≠ .unused) (hzombie : (k.proc s).state ≠ .zombie) :
    (k'.proc s).state ≠ .unused ∧ (k'.proc s).state ≠ .zombie := by
  have hslot := slot_of_step hk hs s
  generalize k'.proc s = q at hslot
  cases hslot with
  | calm _ hcalm =>
      refine ⟨mt hcalm.unused.mp hunused, fun hq => ?_⟩
      rcases hcalm.zombie hq with h | ⟨status, hpc⟩
      · exact hzombie h
      · rw [hpc] at halive
        cases halive
  | onward => exact ⟨hunused, hzombie⟩
  | traced => exact ⟨hunused, hzombie⟩
  | created _ _ h => exact absurd h hunused
  | ready => exact ⟨nofun, nofun⟩
  | freed _ _ h => exact absurd h hzombie

/-- A step of the scan itself, as long as it is not over. -/
theorem scan_step {e : Env} {j : Nat} (hs : kernel.step k (.run s e) k')
    (hpc : (k.proc s).pc = .alive j n) (halive : (k'.proc s).pc.isAlive) :
    j < NPROC ∧
      k' = k.goto s (.alive (j + 1) (if (k.proc j).state ≠ .unused then n + 1 else n)) := by
  simp only [kernel, Kernel.step, Option.ite_none_right_eq_some] at hs
  obtain ⟨-, hs⟩ := hs
  have hk' : k' = aliveScan k s j n := by
    cases e <;> simp [Kernel.run, hpc] at hs
    exact hs.symm
  unfold aliveScan at hk'
  split at hk'
  · rename_i hj
    exact ⟨hj, hk'⟩
  · rw [hk', Kernel.goto_self] at halive
    cases halive

theorem seen_step (hk : k.Ok) (hs : kernel.step k l k') (halive : (k.proc s).pc.isAlive)
    (halive' : (k'.proc s).pc.isAlive) (hunused : (k.proc s).state ≠ .unused) :
    k'.seen s = k.seen s +
      ((if takesAhead s (k, l) then 1 else 0) - if freesAhead s (k, l) then 1 else 0) := by
  obtain ⟨j, n, hpc⟩ : ∃ j n, (k.proc s).pc = .alive j n := by
    revert halive
    cases (k.proc s).pc <;> simp [Pc.isAlive]
  by_cases hl : l.runner = some s
  · -- the scan moves slot j from what is ahead to what is counted
    obtain ⟨e, rfl⟩ : ∃ e, l = .run s e := by
      cases l <;> simp_all [Label.runner]
    obtain ⟨hj, rfl⟩ := scan_step hs hpc halive'
    have hev : k.event (.run s e) = none := by simp [Kernel.event, hpc]
    have hsame : ∀ pc a, ((k.goto s pc).proc a).inUse = (k.proc a).inUse := by simp [Proc.inUse]
    rw [seen_eq hpc, seen_eq (congrArg Proc.pc (Kernel.goto_self ..)),
      Finset.sum_eq_sum_Ico_succ_bot hj]
    simp only [hsame, takesAhead, freesAhead, hev]
    by_cases hfree : (k.proc j).state = .unused
    · simp [Proc.inUse, hfree]
    · simp [Proc.inUse, hfree, add_assoc]
  · have hpc' : (k'.proc s).pc = .alive j n := (pc_of_other hk hs hl hunused).trans hpc
    have hposition : k.position s = j := by rw [Kernel.position, hpc]
    rw [seen_eq hpc, seen_eq hpc', sum_inUse_step hk hs, add_assoc]
    congr 2
    cases moved_of_step hk hs with
    | calm hev => simp [hev, takesAhead, freesAhead]
    | trace hev => simp [hev, takesAhead, freesAhead]
    | create hev hj => simp [hev, hj, hposition, takesAhead, freesAhead]
    | ready hev => simp [hev, takesAhead, freesAhead]
    | reap hev hj => simp [hev, hj, hposition, takesAhead, freesAhead]
    | forked hev => simp [hev, takesAhead, freesAhead]
    | waited hev => simp [hev, takesAhead, freesAhead]

/-- The scan has seen the slots in use at its start, and what has changed ahead of it. -/
theorem run_seen (hreach : kernel.Reachable k₀) (hrun : kernel.Run k₀ tr k)
    (hrunning : (k₀.proc s).state = .running) (hstart : (k₀.proc s).pc = .alive 0 0)
    (hduring : ∀ q ∈ tr, (q.1.proc s).pc.isAlive) (halive : (k.proc s).pc.isAlive) :
    k.seen s = aliveproc k₀.proc +
      ((tr.countP (takesAhead s) : Int) - tr.countP (freesAhead s)) := by
  have hinv := hrun.history (I := fun tr k => (∀ q ∈ tr, (q.1.proc s).pc.isAlive) → k.Ok ∧
    ((k.proc s).state ≠ .unused ∧ (k.proc s).state ≠ .zombie) ∧ ((k.proc s).pc.isAlive →
      k.seen s = aliveproc k₀.proc +
        ((tr.countP (takesAhead s) : Int) - tr.countP (freesAhead s)))) ?_ ?_
  · exact (hinv hduring).2.2 halive
  · intro _
    refine ⟨kernel_ok hreach, by simp [hrunning], fun _ => ?_⟩
    rw [seen_eq hstart, aliveproc, counted_eq_sum, Finset.range_eq_Ico]
    simp
  · intro tr t l t' _ ih hs hscan
    have hnow : (t.proc s).pc.isAlive := hscan (t, l) (by simp)
    obtain ⟨hk, hlive, hseen⟩ := ih fun q hq => hscan q (by simp [hq])
    refine ⟨step_ok hk hs, live_step hk hs hnow hlive.1 hlive.2, fun halive' => ?_⟩
    rw [seen_step hk hs hnow halive' hlive.1, hseen hnow]
    simp only [List.countP_append, List.countP_singleton, Nat.cast_add, Nat.cast_ite,
      Nat.cast_one, Nat.cast_zero]
    omega

/-- A step takes one slot, frees one, or leaves their number alone. -/
theorem aliveproc_step_le (hk : k.Ok) (hs : kernel.step k l k') :
    (aliveproc k'.proc : Int) ≤ aliveproc k.proc + 1 ∧
      (aliveproc k.proc : Int) ≤ aliveproc k'.proc + 1 := by
  have hslots : ∀ ev : Event, ev.slots ≤ 1 ∧ -1 ≤ ev.slots := by
    intro ev
    cases ev <;> simp
  rw [aliveproc_step hk hs]
  cases k.event l with
  | none => simp
  | some ev =>
      have hev := hslots ev
      simp only [Option.elim_some]
      omega

/-- Between two states, the number of slots in use changes by the slots taken and freed. -/
theorem run_aliveproc (hk : k₀.Ok) (hrun : kernel.Run k₀ tr k) :
    (aliveproc k.proc : Int) = aliveproc k₀.proc + ((tr.countP takes : Int) - tr.countP frees) := by
  have hinv := hrun.history (I := fun tr k => k.Ok ∧ (aliveproc k.proc : Int) =
    aliveproc k₀.proc + ((tr.countP takes : Int) - tr.countP frees)) ⟨hk, by simp⟩ ?_
  · exact hinv.2
  · rintro tr t l t' _ ⟨hk, ih⟩ hs
    refine ⟨step_ok hk hs, ?_⟩
    rw [aliveproc_step hk hs, ih]
    rw [List.countP_append, List.countP_append, List.countP_singleton, List.countP_singleton]
    cases hev : t.event l with
    | none => simp [takes, frees, hev]
    | some ev => cases ev <;> simp [takes, frees, hev] <;> omega

end Scan

/-! ## A count the table never had -/

def forkLabels (i np : Nat) : List Label :=
  [.run i (.ecall 1 0), .run i .none] ++ List.replicate (np + 1) (.run i (.alloc .ok)) ++
    List.replicate 4 (.run i .none)

def exitLabels (i : Nat) : List Label :=
  [.dispatch i, .run i (.ecall 2 0), .run i .none, .run i .none]

def waitLabels (i : Nat) : List Label :=
  [.run i (.ecall 3 0), .run i .none, .run i (.copyout true), .run i .none, .run i .none]

/-- Three children, in slots 1 to 3. The first is reaped, the second is a zombie and the
    third calls `sysinfo`. -/
def beforeScan : List Label :=
  .dispatch 0 :: (forkLabels 0 1 ++ forkLabels 0 2 ++ forkLabels 0 3 ++ exitLabels 1 ++
    waitLabels 0 ++ exitLabels 2 ++ [.dispatch 3, .run 3 (.ecall 23 0), .run 3 .none])

/-- When the scan is past slot 1 a new child takes it, and the zombie in slot 2 is reaped. -/
def duringScan : List Label :=
  List.replicate 2 (.run 3 .none) ++ forkLabels 0 1 ++ waitLabels 0 ++
    List.replicate 62 (.run 3 .none)

/-- The scan is going on in all steps and ends with 2, forks take the lowest UNUSED slot,
    and the table never has 2 slots in use. -/
def neverTwo (tr : List (Kernel × Label)) (k : Kernel) : Prop :=
  (∀ q ∈ tr, (q.1.proc 3).pc.isAlive) ∧ (k.proc 3).pc = .alive NPROC 2 ∧
    (∀ q ∈ tr, ∀ j < NPROC, q.1.event q.2 = some (.create j) →
      ∀ a < j, (q.1.proc a).state ≠ .unused) ∧
    aliveproc k.proc ≠ 2 ∧ ∀ q ∈ tr, aliveproc q.1.proc ≠ 2

instance (tr : List (Kernel × Label)) (k : Kernel) : Decidable (neverTwo tr k) :=
  inferInstanceAs (Decidable (_ ∧ _))

theorem exists_neverTwo : ∃ k₀ tr k, Scan 3 k₀ tr k 2 ∧ neverTwo tr k := by
  obtain ⟨_, k₀, hrun₀, -, hp₀⟩ := exists_run_of_play (M := kernel) (fun _ _ _ h => h)
    beforeScan boot
    (fun _ k₀ => decide ((k₀.proc 3).state = .running ∧ (k₀.proc 3).pc = .alive 0 0) &&
      (play Kernel.step duringScan k₀).any fun r => decide (neverTwo r.1 r.2))
    (by decide +kernel)
  simp only [Bool.and_eq_true, decide_eq_true_eq] at hp₀
  obtain ⟨⟨hrunning, hstart⟩, hscan⟩ := hp₀
  obtain ⟨tr, k, hrun, -, hp⟩ := exists_run_of_play (M := kernel) (fun _ _ _ h => h)
    duringScan k₀ (fun tr k => decide (neverTwo tr k)) hscan
  have hnever := of_decide_eq_true hp
  exact ⟨k₀, tr, k, ⟨⟨boot, _, rfl, hrun₀⟩, hrun, hrunning, hstart, hnever.1, hnever.2.1⟩, hnever⟩

/-- Slots 0, 2 and 3 are in use at the start, then slots 0 to 3, then slots 0, 1 and 3, but
    `aliveproc` returns 2. -/
theorem aliveproc_not_linearizable :
    ∃ k₀ tr k, Scan 3 k₀ tr k 2 ∧
      (∀ q ∈ tr, ∀ j < NPROC, q.1.event q.2 = some (.create j) →
        ∀ a < j, (q.1.proc a).state ≠ .unused) ∧
      aliveproc k.proc ≠ 2 ∧ ∀ q ∈ tr, aliveproc q.1.proc ≠ 2 := by
  obtain ⟨k₀, tr, k, hscan, hnever⟩ := exists_neverTwo
  exact ⟨k₀, tr, k, hscan, hnever.2.2⟩

/-! ## What aliveproc returns -/

/-- `aliveproc` returns the number of slots in use when it was called, plus those taken
    and less those freed ahead of it. If in the meantime slots are only taken, or only
    freed, the table had as many slots in use at some instant of the call. -/
theorem aliveproc_scan {s n : Nat} {k₀ k : Kernel} {tr : List (Kernel × Label)}
    (h : Scan s k₀ tr k n) :
    (n : Int) = aliveproc k₀.proc + tr.countP (takesAhead s) - tr.countP (freesAhead s) ∧
    ((∀ q ∈ tr, ¬ takes q) ∨ (∀ q ∈ tr, ¬ frees q) →
      aliveproc k.proc = n ∨ ∃ q ∈ tr, aliveproc q.1.proc = n) := by
  have hk := kernel_ok h.reachable
  have hn : (n : Int) =
      aliveproc k₀.proc + ((tr.countP (takesAhead s) : Int) - tr.countP (freesAhead s)) := by
    rw [← run_seen h.reachable h.run h.running h.start h.during (by rw [h.done]; rfl),
      seen_eq h.done, Finset.Ico_self, Finset.sum_empty, add_zero]
  refine ⟨by rw [hn, add_sub_assoc], ?_⟩
  intro honly
  have hend := run_aliveproc hk h.run
  have htakes : tr.countP (takesAhead s) ≤ tr.countP takes :=
    List.countP_mono_left fun q _ => takes_of_takesAhead
  have hfrees : tr.countP (freesAhead s) ≤ tr.countP frees :=
    List.countP_mono_left fun q _ => frees_of_freesAhead
  have hbetween : (aliveproc k₀.proc : Int) ≤ n ∧ (n : Int) ≤ aliveproc k.proc ∨
      (aliveproc k.proc : Int) ≤ n ∧ (n : Int) ≤ aliveproc k₀.proc := by
    rcases honly with hnone | hnone
    · have hzero : tr.countP takes = 0 := List.countP_eq_zero.mpr hnone
      omega
    · have hzero : tr.countP frees = 0 := List.countP_eq_zero.mpr hnone
      omega
  have hex := h.run.exists_between (I := Kernel.Ok) (f := fun k => (aliveproc k.proc : Int))
    (fun t l t' ht hs => step_ok ht hs) (fun t l t' ht hs => aliveproc_step_le ht hs) hk hbetween
  exact_mod_cast hex

/-- The scan among the fork and the wait of the first process: nothing is taken ahead of it
    and one slot is freed. -/
theorem aliveproc_scan_missed : ∃ k₀ tr k, Scan 3 k₀ tr k 2 ∧
    aliveproc k₀.proc + tr.countP (takesAhead 3) = 2 + tr.countP (freesAhead 3) := by
  obtain ⟨k₀, tr, k, hscan, -⟩ := exists_neverTwo
  have hreturned := (aliveproc_scan hscan).1
  exact ⟨k₀, tr, k, hscan, by omega⟩

end Syscall
