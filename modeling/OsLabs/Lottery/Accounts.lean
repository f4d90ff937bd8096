-- SUMMARY: Who touches the two counters of a process, its remaining tickets and its time slices: frame lemmas for the calls, and what a step does to them.
import OsLabs.Lottery.Tickets

/-!
# Counters of a slot

`current_tickets` and `ticks_used` are written in few places: by `fork` for the child (only
the tickets), by the reset (only the tickets) and by a dispatch. Neither `allocproc` nor
`freeproc` is among them.
-/

namespace Lottery

open CInt

/-- The two counters of a slot. -/
def Proc.counts (p : Proc) : Int × Int := (p.currentTickets, p.ticksUsed)

/-- No counter has been written. -/
def SameCounts (t t' : Table) : Prop := ∀ j, (t' j).counts = (t j).counts

theorem SameCounts.refl (t : Table) : SameCounts t t := fun _ => rfl

theorem SameCounts.trans {t t' t'' : Table} (h₁ : SameCounts t t') (h₂ : SameCounts t' t'') :
    SameCounts t t'' := fun j => (h₂ j).trans (h₁ j)

theorem SameCounts.update {t : Table} {i : Nat} {p : Proc} (h : p.counts = (t i).counts) :
    SameCounts t (Function.update t i p) :=
  (Function.forall_update_iff t fun j q => q.counts = (t j).counts).mpr ⟨h, fun _ _ => rfl⟩

theorem set_counts (k : Procs) (i : Nat) {p : Proc} (h : p.counts = (k.proc i).counts) :
    SameCounts k.proc (k.set i p).proc := .update h

/-! ## Calls -/

theorem wakeup_counts (me : Option Nat) (c : Chan) (t : Table) : SameCounts t (wakeup me c t) := by
  intro j
  unfold wakeup
  split <;> rfl

theorem reparent_counts (i initproc : Nat) (t : Table) : SameCounts t (reparent i initproc t) := by
  have hparent : SameCounts t fun j =>
      if j < NPROC ∧ (t j).parent = some i then { t j with parent := some initproc } else t j := by
    intro j
    dsimp only
    split <;> rfl
  unfold reparent
  split
  · exact hparent.trans (wakeup_counts _ _ _)
  · exact hparent

/-- `allocproc` leaves all ticket fields as the last owner of the slot left them. -/
theorem allocproc_counts {memOk : Bool} {k k' : Procs} {r : Option Nat}
    (h : allocproc memOk k = (r, k')) :
    SameCounts k.proc k'.proc ∧ ∀ j, (k'.proc j).initialTickets = (k.proc j).initialTickets := by
  unfold allocproc at h
  split at h
  · cases h
    exact ⟨.refl _, fun _ => rfl⟩
  · rename_i i _
    simp only [allocpid] at h
    have hinitial : ∀ p : Proc, p.initialTickets = (k.proc i).initialTickets → ∀ j,
        (Function.update k.proc i p j).initialTickets = (k.proc j).initialTickets := fun p hp =>
      (Function.forall_update_iff k.proc fun j p =>
        p.initialTickets = (k.proc j).initialTickets).mpr ⟨hp, fun _ _ => rfl⟩
    split at h
    · cases h
      exact ⟨.update rfl, hinitial _ rfl⟩
    · cases h
      exact ⟨.update rfl, hinitial _ rfl⟩

/-- The slot of the process that the call `c` creates, if `c` is a `fork` that succeeds. -/
def forkSlot (k : Procs) : Call → Option Nat
  | .fork memOk true => (allocproc memOk k).1
  | _                => none

/-- `fork` hands the allotment of its caller to the child and does not touch other counters;
    the time slices of the child are those of the last owner of its slot. -/
theorem fork_counts (i : Nat) (memOk copyOk : Bool) (k : Procs) (j : Nat) :
    ((fork i memOk copyOk k).2.proc j).counts =
      (if forkSlot k (.fork memOk copyOk) = some j then (k.proc i).initialTickets
        else (k.proc j).currentTickets, (k.proc j).ticksUsed) := by
  unfold fork
  split
  · rename_i k₁ ha
    have hslot : forkSlot k (.fork memOk copyOk) = none := by
      cases copyOk <;> simp [forkSlot, ha]
    rw [hslot, if_neg (by simp)]
    exact (allocproc_counts ha).1 j
  · rename_i np k₁ ha
    obtain ⟨hcounts, hinitial⟩ := allocproc_counts ha
    cases copyOk with
    | false =>
        rw [if_neg (by simp), if_neg (by simp [forkSlot])]
        exact hcounts.trans (set_counts k₁ np (p := freeproc (k₁.proc np)) rfl) j
    | true =>
        have hslot : forkSlot k (.fork memOk true) = some np := by simp [forkSlot, ha]
        rw [if_pos rfl, hslot]
        refine (set_counts _ i (by rfl) j).trans ?_
        simp only [Procs.set]
        by_cases hj : j = np
        · subst hj
          have hticks := congrArg Prod.snd (hcounts j)
          rw [Function.update_self, if_pos rfl, ← hinitial i]
          exact Prod.ext rfl hticks
        · rw [Function.update_of_ne hj, if_neg (by simpa using Ne.symm hj)]
          exact hcounts j

theorem forkParent_counts (i np : Nat) (k : Procs) :
    SameCounts k.proc (forkParent i np k).2.proc :=
  (set_counts k np (p := { k.proc np with parent := some i }) rfl).trans (set_counts _ i rfl)

theorem forkRunnable_counts (i np : Nat) (k : Procs) :
    SameCounts k.proc (forkRunnable i np k).2.proc :=
  (set_counts k np (p := { k.proc np with state := .runnable }) rfl).trans (set_counts _ i rfl)

theorem exit_counts {i : Nat} {status : Int} {k k' : Procs} {r : Ret}
    (h : exit i status k = some (r, k')) : SameCounts k.proc k'.proc := by
  unfold exit at h
  split at h
  · cases h
  · cases h
    have hparent := reparent_counts i k.initproc k.proc
    split
    · exact (hparent.trans (wakeup_counts _ _ _)).trans (.update rfl)
    · exact hparent.trans (.update rfl)

theorem sleep_counts (i : Nat) (c : Chan) (k : Procs) : SameCounts k.proc (sleep i c k).2.proc :=
  set_counts k i rfl

theorem wait_counts (i : Nat) (copyoutOk : Bool) (k : Procs) :
    SameCounts k.proc (wait i copyoutOk k).2.proc := by
  unfold wait
  split
  · split
    · exact set_counts k _ rfl
    · exact .refl _
  · split
    · exact .refl _
    · exact sleep_counts _ _ _

theorem kill_counts (pid : Int) (k : Procs) : SameCounts k.proc (kill pid k).2.proc := by
  unfold kill
  split
  · exact .refl _
  · refine set_counts k _ ?_
    split <;> rfl

theorem settickets_counts {i : Nat} {tickets : Int} {k k' : Procs} {r : Ret}
    (h : settickets i tickets k = some (r, k')) : SameCounts k.proc k'.proc := by
  unfold settickets at h
  split at h
  · cases h
    exact .refl _
  · split at h
    · cases h
    · split at h
      · cases h
        exact set_counts k _ rfl
      · cases h

theorem SameCounts.of_some {t : Table} {x : Ret × Procs} {r : Ret} {k' : Procs}
    (h : SameCounts t x.2.proc) (hk : some x = some (r, k')) : SameCounts t k'.proc := by
  rw [Option.some.inj hk] at h
  exact h

/-- The counters after a call: only a child that has just been created got tickets. -/
theorem call_counts {i : Nat} {c : Call} {k k' : Procs} {r : Ret}
    (h : k.call i c = some (r, k')) (j : Nat) :
    (k'.proc j).counts =
      (if forkSlot k c = some j then (k.proc i).initialTickets else (k.proc j).currentTickets,
        (k.proc j).ticksUsed) := by
  have hother : forkSlot k c = none → SameCounts k.proc k'.proc →
      (k'.proc j).counts =
        (if forkSlot k c = some j then (k.proc i).initialTickets else (k.proc j).currentTickets,
          (k.proc j).ticksUsed) := by
    intro hslot hsame
    rw [hslot, if_neg (by simp)]
    exact hsame j
  unfold Procs.call at h
  split at h
  · rename_i memOk copyOk _
    have hfork := fork_counts i memOk copyOk k j
    rw [Option.some.inj h] at hfork
    exact hfork
  · exact hother rfl ((forkParent_counts _ _ k).of_some h)
  · exact hother rfl ((forkRunnable_counts _ _ k).of_some h)
  · exact hother rfl (exit_counts h)
  · exact hother rfl ((wait_counts _ _ k).of_some h)
  · exact hother rfl ((sleep_counts _ _ k).of_some h)
  · cases h
    exact hother rfl (set_counts k _ rfl)
  · cases h
    exact hother rfl (set_counts k _ rfl)
  · exact hother rfl ((kill_counts _ k).of_some h)
  · exact hother rfl (settickets_counts h)
  · cases h
    exact hother rfl (wakeup_counts _ _ _)
  · cases h

end Lottery
