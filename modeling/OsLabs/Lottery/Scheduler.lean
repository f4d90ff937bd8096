-- SUMMARY: The lottery scheduler on one hart, one locked section at a time, interleaved with interrupts and the calls of the dispatched process.
import OsLabs.Lib.Transition
import OsLabs.Lottery.Proc
import OsLabs.Lottery.Random

/-!
# The lottery scheduler

`scheduler()` holds a lock only while it looks at one slot, and interrupts are on
between two slots. So a step is one such section, and a wakeup from an interrupt may
come before any of them. While a process runs, the scheduler waits in `swtch` for it
to come back through `sched`.
-/

namespace Lottery

open CInt

/-! ## The loops over the table -/

/-- The body of the loop of `get_total_runnable_tickets`. -/
def addTickets (p : Proc) (total : Int) : Int :=
  if p.state = .runnable then wrap32 (total + p.currentTickets) else total

/-- The sum over the first `n` slots. -/
def runningTotal (t : Table) : Nat → Int
  | 0     => 0
  | n + 1 => addTickets (t n) (runningTotal t n)

def getTotalRunnableTickets (t : Table) : Int := runningTotal t NPROC

/-- The lottery loop from slot `i` on, with `fuel` slots to go: the slot at which `p`
    is left, by the `break` or past the last slot. -/
def scanFrom (t : Table) (random : Int) : Nat → Nat → Int → Nat
  | 0, i, _            => i
  | fuel + 1, i, count =>
      let count := addTickets (t i) count
      if (t i).state = .runnable ∧ count > random then i
      else scanFrom t random fuel (i + 1) count

def lotteryScan (t : Table) (random : Int) : Nat := scanFrom t random NPROC 0 0

/-! ## The hart -/

/-- Where `scheduler()` is: in the total of the reset test, in the reset, in the
    second total, in the lottery loop, or about to lock the chosen slot. -/
inductive SchedPc
  | test (i : Nat) (total : Int)
  | reset (i : Nat)
  | total (i : Nat) (total : Int)
  | scan (i : Nat) (count random : Int)
  | chosen (p : Nat)
deriving DecidableEq

/-- The hart is in `scheduler()` or runs the process in a slot. -/
inductive Cpu
  | scheduler (pc : SchedPc)
  | process (i : Nat)
deriving DecidableEq

structure Kernel extends Procs where
  cpu : Cpu

/-- `myproc()`, as a slot number. -/
def Kernel.myproc (k : Kernel) : Option Nat :=
  match k.cpu with
  | .scheduler _ => none
  | .process i   => some i

/-- The section of `scheduler()` at `pc`, where it needs no random number and
    dispatches nobody. -/
def schedSection (t : Table) : SchedPc → Option (Table × SchedPc)
  | .test i total =>
      if i < NPROC then some (t, .test (i + 1) (addTickets (t i) total))
      else if total = 0 then some (t, .reset 0)
      else some (t, .total 0 0)
  | .reset i =>
      if i < NPROC then
        if (t i).state = .runnable then
          some (Function.update t i { t i with currentTickets := (t i).initialTickets },
            .reset (i + 1))
        else some (t, .reset (i + 1))
      else some (t, .total 0 0)
  | .total i total =>
      if i < NPROC then some (t, .total (i + 1) (addTickets (t i) total)) else none
  | .scan i count random =>
      if i < NPROC then
        let count := addTickets (t i) count
        if (t i).state = .runnable ∧ count > random then some (t, .chosen i)
        else some (t, .scan (i + 1) count random)
      else some (t, .chosen i)
  | .chosen p => if (t p).state = .runnable then none else some (t, .test 0 0)

/-- The dispatch of slot `p`. -/
def dispatch (p : Proc) : Proc :=
  { p with
    currentTickets := wrap32 (p.currentTickets - 1)
    ticksUsed := wrap32 (p.ticksUsed + 1)
    state := .running }

inductive Label
  /-- An interrupt handler wakes up the sleepers on `c`. -/
  | intr (c : Chan)
  /-- A section of `scheduler()`. -/
  | sched
  /-- The draw, with the generator in state `g`. -/
  | draw (g : Rng)
  /-- `scheduler()` dispatches `p`. -/
  | dispatch (p : Nat)
  /-- The running process `i` makes a call. -/
  | call (i : Nat) (c : Call)
  /-- The kernel changes memory behind the process table. -/
  | behind (t : Table)

def Kernel.step (k : Kernel) : Label → Option Kernel
  | .intr c => some { k with proc := wakeup k.myproc c k.proc }
  | .sched =>
      match k.cpu with
      | .scheduler pc =>
          (schedSection k.proc pc).map fun (t, pc') => { k with proc := t, cpu := .scheduler pc' }
      | .process _ => none
  | .draw g =>
      match k.cpu with
      | .scheduler (.total i total) =>
          if i < NPROC then none
          else some { k with cpu := .scheduler (.scan 0 0 (randomrange g 0 total).1) }
      | _ => none
  | .dispatch p =>
      if k.cpu = .scheduler (.chosen p) ∧ (k.proc p).state = .runnable then
        some { k with
          proc := Function.update k.proc p (dispatch (k.proc p)), cpu := .process p }
      else none
  | .call i c =>
      if k.cpu = .process i ∧ i < NPROC then
        (k.toProcs.call i c).map fun (r, k') =>
          { k' with cpu := if r = .sched then .scheduler (.test 0 0) else .process i }
      else none
  | .behind t => some { k with proc := fun j => if j < NPROC then k.proc j else t j }

/-- After `userinit`, `scheduler()` gives the first slot its ticket. -/
def boot : Kernel :=
  { userinit with
    proc := Function.update userinit.proc 0
      { userinit.proc 0 with initialTickets := 1, currentTickets := 1, ticksUsed := 0 }
    cpu := .scheduler (.test 0 0) }

/-- The lottery kernel on one hart. Nothing is known about the memory behind the
    process table. -/
def kernel : TransitionSystem Kernel Label where
  init k := ∃ t : Table, k = { boot with proc := fun j => if j < NPROC then boot.proc j else t j }
  step k l k' := k.step l = some k'

/-! ## What one step can do -/

/-- `Move k l k'`: what the step `l` finds in `k` and leaves in `k'`. -/
inductive Move (k : Kernel) : Label → Kernel → Prop
  | intr {c : Chan} : Move k (.intr c) { k with proc := wakeup k.myproc c k.proc }
  | sched {pc pc' : SchedPc} {t : Table} : k.cpu = .scheduler pc →
      schedSection k.proc pc = some (t, pc') →
      Move k .sched { k with proc := t, cpu := .scheduler pc' }
  | draw {g : Rng} {i : Nat} {total : Int} : k.cpu = .scheduler (.total i total) → NPROC ≤ i →
      Move k (.draw g) { k with cpu := .scheduler (.scan 0 0 (randomrange g 0 total).1) }
  | dispatch {p : Nat} : k.cpu = .scheduler (.chosen p) → (k.proc p).state = .runnable →
      Move k (.dispatch p)
        { k with proc := Function.update k.proc p (dispatch (k.proc p)), cpu := .process p }
  | call {i : Nat} {c : Call} {r : Ret} {ks : Procs} : k.cpu = .process i → i < NPROC →
      k.toProcs.call i c = some (r, ks) →
      Move k (.call i c)
        { ks with cpu := if r = .sched then .scheduler (.test 0 0) else .process i }
  | behind {t : Table} :
      Move k (.behind t) { k with proc := fun j => if j < NPROC then k.proc j else t j }

theorem move_of_step {k k' : Kernel} {l : Label} (h : kernel.step k l k') : Move k l k' := by
  cases l with
  | intr c =>
      cases h
      exact .intr
  | sched =>
      simp only [kernel, Kernel.step] at h
      split at h
      · rename_i pc hpc
        obtain ⟨⟨t, pc'⟩, hsection, rfl⟩ := Option.map_eq_some_iff.mp h
        exact .sched hpc hsection
      · cases h
  | draw g =>
      simp only [kernel, Kernel.step] at h
      split at h
      · rename_i i total hpc
        split at h
        · cases h
        · rename_i hge
          cases h
          exact .draw hpc (Nat.le_of_not_lt hge)
      · cases h
  | dispatch p =>
      simp only [kernel, Kernel.step] at h
      split at h
      · rename_i hd
        cases h
        exact .dispatch hd.1 hd.2
      · cases h
  | call i c =>
      simp only [kernel, Kernel.step] at h
      split at h
      · rename_i hcpu
        obtain ⟨⟨r, ks⟩, hcall, rfl⟩ := Option.map_eq_some_iff.mp h
        exact .call hcpu.1 hcpu.2 hcall
      · cases h
  | behind t =>
      cases h
      exact .behind

end Lottery
