-- SUMMARY: The process table of the lottery kernel and the calls a running process makes on it.
import Mathlib.Logic.Function.Basic
import OsLabs.Lib.CInt

/-!
# Processes of the lottery kernel

`kernel/proc.c` on one hart. The table is indexed by slot number, like the pointer
`p - proc`; slots from `NPROC` on are the memory that happens to lie behind `proc[]`.

A call runs to completion except where it leaves the last spinlock with interrupts
on and more to do: `fork` gives up `np->lock` and `wait_lock` before it makes the
child runnable, and `sleep` goes through the scheduler. The rest of such a call stays
on the kernel stack of the process and is a call of its own here.
-/

namespace Lottery

open CInt

def NPROC : Nat := 64

inductive Procstate
  | unused
  | used
  | sleeping
  | runnable
  | running
  | zombie
deriving DecidableEq

/-- A sleep channel: the address of a process, or of some other kernel object. -/
inductive Chan
  | proc (i : Nat)
  | other (n : Nat)
deriving DecidableEq

/-- What a process has left to do in the kernel when it is next dispatched. -/
inductive Kstack
  | user
  | forkParent (np : Nat)
  | forkRunnable (np : Nat)
  | asleep
deriving DecidableEq

structure Proc where
  state : Procstate
  chan : Option Chan
  killed : Bool
  xstate : Int
  pid : Int
  initialTickets : Int
  currentTickets : Int
  ticksUsed : Int
  parent : Option Nat
  kstack : Kstack
deriving DecidableEq

/-- A zeroed table slot. -/
def Proc.zero : Proc :=
  { state := .unused, chan := none, killed := false, xstate := 0, pid := 0, initialTickets := 0
    currentTickets := 0, ticksUsed := 0, parent := none, kstack := .user }

abbrev Table := Nat → Proc

/-- The part of the kernel state that `kernel/proc.c` keeps outside of the hart. -/
structure Procs where
  proc : Table
  nextpid : Int
  initproc : Nat

/-! ## Building blocks -/

/-- Write slot `i`. -/
def Procs.set (k : Procs) (i : Nat) (p : Proc) : Procs :=
  { k with proc := Function.update k.proc i p }

/-- The first slot that passes `test`, as the table loops of the kernel find it. -/
def findSlot (test : Proc → Bool) (t : Table) : Option Nat :=
  (List.range NPROC).find? fun i => test (t i)

def allocpid (k : Procs) : Int × Procs :=
  (k.nextpid, { k with nextpid := wrap32 (k.nextpid + 1) })

/-- `freeproc` leaves the ticket fields and `ticks_used` as they are. -/
def freeproc (p : Proc) : Proc :=
  { p with
    pid := 0, parent := none, chan := none, killed := false, xstate := 0, state := .unused }

/-- `memOk`: the trapframe page and the page table could be allocated. -/
def allocproc (memOk : Bool) (k : Procs) : Option Nat × Procs :=
  match findSlot (fun p => p.state = .unused) k.proc with
  | none   => (none, k)
  | some i =>
      let (pid, k) := allocpid k
      let p := { k.proc i with pid := pid, state := .used }
      if memOk then (some i, k.set i { p with kstack := .user })
      else (none, k.set i (freeproc p))

/-- Wake up every other process that sleeps on `c`; `me` is the caller's slot, if a
    process is running. -/
def wakeup (me : Option Nat) (c : Chan) (t : Table) : Table := fun j =>
  if j < NPROC ∧ me ≠ some j ∧ (t j).state = .sleeping ∧ (t j).chan = some c then
    { t j with state := .runnable }
  else t j

/-- Pass the children of `i` to `init`. -/
def reparent (i initproc : Nat) (t : Table) : Table :=
  let t' : Table := fun j =>
    if j < NPROC ∧ (t j).parent = some i then { t j with parent := some initproc } else t j
  if (findSlot (fun p => p.parent = some i) t).isSome then
    wakeup (some i) (.proc initproc) t'
  else t'

/-! ## Calls -/

/-- A call of the running process, with the outcomes that the process table does not
    determine: whether memory could be allocated or copied. -/
inductive Call
  | fork (memOk copyOk : Bool)
  | forkParent
  | forkRunnable
  | exit (status : Int)
  | wait (copyoutOk : Bool)
  | sleep (c : Chan)
  | sleepReturn
  | yield
  | kill (pid : Int)
  | settickets (tickets : Int)
  | wakeup (c : Chan)

/-- Where a call leaves the process: back in user or kernel code with a return value,
    or in the scheduler. -/
inductive Ret
  | value (n : Int)
  | sched
deriving DecidableEq

/-- `fork` up to the first `release(&np->lock)`. -/
def fork (i : Nat) (memOk copyOk : Bool) (k : Procs) : Ret × Procs :=
  match allocproc memOk k with
  | (none, k)    => (.value (-1), k)
  | (some np, k) =>
      if copyOk then
        let p := k.proc i
        let k := k.set np
          { k.proc np with
            initialTickets := p.initialTickets, currentTickets := p.initialTickets }
        (.value 0, k.set i { k.proc i with kstack := .forkParent np })
      else (.value (-1), k.set np (freeproc (k.proc np)))

/-- `fork` under `wait_lock`. -/
def forkParent (i np : Nat) (k : Procs) : Ret × Procs :=
  let k := k.set np { k.proc np with parent := some i }
  (.value 0, k.set i { k.proc i with kstack := .forkRunnable np })

/-- The end of `fork`. -/
def forkRunnable (i np : Nat) (k : Procs) : Ret × Procs :=
  let pid := (k.proc np).pid
  let k := k.set np { k.proc np with state := .runnable }
  (.value pid, k.set i { k.proc i with kstack := .user })

/-- `exit`, which panics when `init` calls it. -/
def exit (i : Nat) (status : Int) (k : Procs) : Option (Ret × Procs) :=
  if i = k.initproc then none
  else
    let t := reparent i k.initproc k.proc
    let t := match (t i).parent with
      | some q => wakeup (some i) (.proc q) t
      | none   => t
    some (.sched, { k with
      proc := Function.update t i { t i with xstate := status, state := .zombie } })

def sleep (i : Nat) (c : Chan) (k : Procs) : Ret × Procs :=
  (.sched, k.set i { k.proc i with chan := some c, state := .sleeping, kstack := .asleep })

/-- One pass of the loop of `wait`. `copyoutOk`: the exit status could be copied out. -/
def wait (i : Nat) (copyoutOk : Bool) (k : Procs) : Ret × Procs :=
  match findSlot (fun p => p.parent = some i && p.state = .zombie) k.proc with
  | some j =>
      if copyoutOk then (.value (k.proc j).pid, k.set j (freeproc (k.proc j)))
      else (.value (-1), k)
  | none =>
      if (findSlot (fun p => p.parent = some i) k.proc).isNone || (k.proc i).killed then
        (.value (-1), k)
      else sleep i (.proc i) k

def yield (i : Nat) (k : Procs) : Ret × Procs :=
  (.sched, k.set i { k.proc i with state := .runnable })

def kill (pid : Int) (k : Procs) : Ret × Procs :=
  match findSlot (fun p => p.pid = pid) k.proc with
  | none   => (.value (-1), k)
  | some j =>
      let p := { k.proc j with killed := true }
      (.value 0, k.set j (if p.state = .sleeping then { p with state := .runnable } else p))

/-- `settickets` locks its own slot, writes the first slot with its own pid and
    releases that one's lock. Releasing a lock that is not held panics. -/
def settickets (i : Nat) (tickets : Int) (k : Procs) : Option (Ret × Procs) :=
  if tickets < 1 then some (.value (-1), k)
  else
    match findSlot (fun p => p.pid = (k.proc i).pid) k.proc with
    | none   => none
    | some j =>
        if j = i then some (.value 0, k.set j { k.proc j with initialTickets := tickets })
        else none

/-- What the process in slot `i` does with the call `c`. `none`: it panics, or the
    process is not at a point where it makes this call. -/
def Procs.call (k : Procs) (i : Nat) (c : Call) : Option (Ret × Procs) :=
  match c, (k.proc i).kstack with
  | .fork memOk copyOk, .user        => some (fork i memOk copyOk k)
  | .forkParent, .forkParent np      => some (forkParent i np k)
  | .forkRunnable, .forkRunnable np  => some (forkRunnable i np k)
  | .exit status, .user              => exit i status k
  | .wait copyoutOk, .user           => some (wait i copyoutOk k)
  | .sleep c, .user                  => some (sleep i c k)
  | .sleepReturn, .asleep            =>
      some (.value 0, k.set i { k.proc i with chan := none, kstack := .user })
  | .yield, _                        => some (yield i k)
  | .kill pid, .user                 => some (kill pid k)
  | .settickets tickets, .user       => settickets i tickets k
  | .wakeup c, .user                 =>
      some (.value 0, { k with proc := wakeup (some i) c k.proc })
  | _, _                             => none

/-! ## Boot -/

/-- The table after `userinit`: the first process, in the first slot, is runnable. -/
def userinit : Procs :=
  { proc := Function.update (fun _ => Proc.zero) 0
      { Proc.zero with pid := 1, state := .runnable }
    nextpid := 2
    initproc := 0 }

end Lottery
