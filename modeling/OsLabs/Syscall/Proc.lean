-- SUMMARY: Processes and system calls of the system-call kernel, one locked section at a time on any number of harts.
import Mathlib.Tactic.IntervalCases
import OsLabs.Lib.CInt
import OsLabs.Lib.Transition
import OsLabs.Lottery.Proc

/-!
# Processes of the system-call kernel

`kernel/proc.c`, `syscall()` and `usertrap()` of the kernel with `trace` and `sysinfo`.
Processes run on any number of harts at once, so what is atomic is a section under a
lock, not a call. `Pc` says where a process is in the kernel between two such sections:
the loops of `allocproc`, `kill` and `aliveproc` take the table one `p->lock` at a time,
while `wait` and `exit` go through it under `wait_lock`, which every change of a
`parent` field and every step to `ZOMBIE` takes as well.

States, channels and the size of the table are those of the lottery kernel, whose
`proc.h` and `param.h` agree with these.
-/

namespace Syscall

open CInt
open Lottery (Chan NPROC Procstate)

/-! ## System calls -/

inductive Sys
  | fork
  | exit
  | wait
  | pipe
  | read
  | kill
  | exec
  | fstat
  | chdir
  | dup
  | getpid
  | sbrk
  | sleep
  | uptime
  | open_
  | write
  | mknod
  | unlink
  | link
  | mkdir
  | close
  | trace
  | sysinfo
deriving DecidableEq

/-- The table of `syscall.c`: the handler of a number, if there is one. -/
def syscalls : Int → Option Sys
  | 1  => some .fork
  | 2  => some .exit
  | 3  => some .wait
  | 4  => some .pipe
  | 5  => some .read
  | 6  => some .kill
  | 7  => some .exec
  | 8  => some .fstat
  | 9  => some .chdir
  | 10 => some .dup
  | 11 => some .getpid
  | 12 => some .sbrk
  | 13 => some .sleep
  | 14 => some .uptime
  | 15 => some .open_
  | 16 => some .write
  | 17 => some .mknod
  | 18 => some .unlink
  | 19 => some .link
  | 20 => some .mkdir
  | 21 => some .close
  | 22 => some .trace
  | 23 => some .sysinfo
  | _  => none

def SYS_fork : Int := 1
def SYS_wait : Int := 3
def SYS_kill : Int := 6
def SYS_sysinfo : Int := 23

def Sys.title : Sys → String
  | .fork    => "fork"
  | .exit    => "exit"
  | .wait    => "wait"
  | .pipe    => "pipe"
  | .read    => "read"
  | .kill    => "kill"
  | .exec    => "exec"
  | .fstat   => "fstat"
  | .chdir   => "chdir"
  | .dup     => "dup"
  | .getpid  => "getpid"
  | .sbrk    => "sbrk"
  | .sleep   => "sleep"
  | .uptime  => "uptime"
  | .open_   => "open"
  | .write   => "write"
  | .mknod   => "mknod"
  | .unlink  => "unlink"
  | .link    => "link"
  | .mkdir   => "mkdir"
  | .close   => "close"
  | .trace   => "trace"
  | .sysinfo => "sysinfo"

/-- `syscalltitles[num]`. Outside of the table the kernel reads whatever lies there. -/
def syscalltitles (num : Int) : Option String := (syscalls num).map Sys.title

/-- The numbers that have a handler are those from 1 to `SYS_sysinfo`. -/
theorem syscalls_isSome {num : Int} : (syscalls num).isSome ↔ 1 ≤ num ∧ num ≤ SYS_sysinfo := by
  constructor
  · intro h
    unfold syscalls at h
    split at h <;> first | decide | simp at h
  · rintro ⟨h₁, h₂⟩
    simp only [SYS_sysinfo] at h₂
    interval_cases num <;> rfl

/-! ## Processes -/

/-- What the process has to do next. -/
inductive Pc
  /-- Run user code. -/
  | user
  /-- Call the handler of `num` with first argument register `a0`. -/
  | call (num : Int) (a0 : Nat)
  /-- Look at slot `j` in the loop of `allocproc`. -/
  | fork (j : Nat)
  /-- Set `np->parent`. -/
  | forkParent (np : Nat) (pid : Int)
  /-- Make the child runnable. -/
  | forkRunnable (np : Nat) (pid : Int)
  /-- Return the child's pid from `fork`. -/
  | forked (pid : Int)
  /-- Close files and become a zombie. A zombie stays here. -/
  | exit (status : Int)
  /-- Scan the table in `wait`. -/
  | wait (addr : Nat)
  /-- Return the pid of a freed child from `wait`. -/
  | reaped (pid : Int)
  /-- Look at slot `j` in the loop of `kill`. -/
  | kill (pid : Int) (j : Nat)
  /-- Look at slot `j` in the loop of `aliveproc`, `n` slots counted. -/
  | alive (j n : Nat)
  /-- Go on with a handler that leaves the table alone but may sleep. -/
  | busy (num : Int)
  /-- Return `v` from the handler of `num` to `syscall()`. -/
  | ret (num v : Int)
  /-- Go through the end of `usertrap()`. -/
  | trapret
deriving DecidableEq

structure Proc where
  state : Procstate
  chan : Option Chan
  killed : Bool
  xstate : Int
  pid : Int
  tracer : Int
  parent : Option Nat
  pc : Pc
deriving DecidableEq

def Proc.zero : Proc :=
  { state := .unused, chan := none, killed := false, xstate := 0, pid := 0, tracer := 0
    parent := none, pc := .user }

abbrev Table := Nat → Proc

/-- What the kernel prints. `sysinfo` also prints the free memory, which the process
    table does not determine. -/
inductive Line
  | unknown (pid num : Int)
  | trace (pid : Int) (title : Option String) (ret : Int)
  | sysinfo (nproc : Nat)
deriving DecidableEq

structure Kernel where
  proc : Table
  nextpid : Int
  initproc : Nat
  console : List Line

def Kernel.set (k : Kernel) (i : Nat) (p : Proc) : Kernel :=
  { k with proc := Function.update k.proc i p }

def Kernel.goto (k : Kernel) (i : Nat) (pc : Pc) : Kernel :=
  k.set i { k.proc i with pc := pc }

@[simp] theorem Kernel.goto_self (k : Kernel) (i : Nat) (pc : Pc) :
    (k.goto i pc).proc i = { k.proc i with pc := pc } :=
  Function.update_self ..

@[simp] theorem Kernel.goto_state (k : Kernel) (i : Nat) (pc : Pc) (a : Nat) :
    ((k.goto i pc).proc a).state = (k.proc a).state := by
  revert a
  exact (Function.forall_update_iff k.proc fun a p => p.state = (k.proc a).state).mpr
    ⟨rfl, fun _ _ => rfl⟩

@[simp] theorem Kernel.goto_goto (k : Kernel) (i : Nat) (pc pc' : Pc) :
    (k.goto i pc).goto i pc' = k.goto i pc' := by
  simp [Kernel.goto, Kernel.set]

/-- A process that goes where it is stays there. -/
theorem Kernel.goto_eq_self {k : Kernel} {i : Nat} {pc : Pc} (h : (k.proc i).pc = pc) :
    k.goto i pc = k := by
  subst h
  exact congrArg (fun t => { k with proc := t }) (Function.update_eq_self i k.proc)

def Kernel.print (k : Kernel) (line : Line) : Kernel :=
  { k with console := k.console ++ [line] }

/-- The first slot that passes `test`. -/
def findSlot (test : Proc → Bool) (t : Table) : Option Nat :=
  (List.range NPROC).find? fun j => test (t j)

/-- What holds of two slots written one after the other and of all slots left alone holds
    of the whole table. -/
theorem forall_update₂ {P : Nat → Proc → Prop} {t : Table} {i j : Nat} {p q : Proc} (hi : P i q)
    (hj : P j p) (h : ∀ a, a ≠ i → a ≠ j → P a (t a)) (a : Nat) :
    P a (Function.update (Function.update t j p) i q a) := by
  revert a
  apply (Function.forall_update_iff _ P).mpr
  refine ⟨hi, fun a ha => ?_⟩
  by_cases haj : a = j
  · rw [haj, Function.update_self]
    exact hj
  · rw [Function.update_of_ne haj]
    exact h a ha haj

/-! ## Sections -/

def freeproc (p : Proc) : Proc :=
  { p with
    pid := 0, parent := none, chan := none, killed := false, xstate := 0, state := .unused
    tracer := 0 }

/-- Where `fork` runs out of memory, if it does. -/
inductive Alloc
  | ok
  | trapframe
  | pagetable
  | uvmcopy
deriving DecidableEq

/-- `fork` by the process in slot `i` from the unused slot `j` it found to the release of
    `np->lock`. -/
def forkFound (k : Kernel) (i j : Nat) (a : Alloc) : Kernel :=
  let pid := k.nextpid
  let np := { k.proc j with pid := pid, state := .used }
  let k := { k with nextpid := wrap32 (k.nextpid + 1) }
  match a with
  | .trapframe | .pagetable => (k.set j (freeproc np)).goto i (.ret SYS_fork (-1))
  | .uvmcopy => (k.set j (freeproc { np with pc := .user })).goto i (.ret SYS_fork (-1))
  | .ok      => (k.set j { np with pc := .user }).goto i (.forkParent j pid)

/-- One round of the loop of `allocproc`. -/
def forkScan (k : Kernel) (i j : Nat) (a : Alloc) : Kernel :=
  if j < NPROC then
    if (k.proc j).state = .unused then forkFound k i j a else k.goto i (.fork (j + 1))
  else k.goto i (.ret SYS_fork (-1))

/-- `wakeup(c)` at one slot. -/
def Proc.wakeup (c : Chan) (p : Proc) : Proc :=
  if p.state = .sleeping ∧ p.chan = some c then { p with state := .runnable } else p

def wakeup (me : Option Nat) (c : Chan) (t : Table) : Table := fun j =>
  if j < NPROC ∧ me ≠ some j then (t j).wakeup c else t j

/-- Pass the children of `i` to `init`. -/
def reparent (i initproc : Nat) (t : Table) : Table :=
  let t' : Table := fun j =>
    if j < NPROC ∧ (t j).parent = some i then { t j with parent := some initproc } else t j
  if (findSlot (fun p => p.parent = some i) t).isSome then
    wakeup (some i) (.proc initproc) t'
  else t'

/-- `exit` under `wait_lock`. It panics when `init` calls it. -/
def exit (k : Kernel) (i : Nat) (status : Int) : Option Kernel :=
  if i = k.initproc then none
  else
    let t := reparent i k.initproc k.proc
    let t := match (t i).parent with
      | some q => wakeup (some i) (.proc q) t
      | none   => t
    some { k with proc := Function.update t i { t i with xstate := status, state := .zombie } }

/-- The child that `wait` of the process in slot `i` frees. -/
def zombieChild (k : Kernel) (i : Nat) : Option Nat :=
  findSlot (fun p => p.parent = some i && p.state = .zombie) k.proc

/-- One pass of the loop of `wait`. `ok`: the exit status could be copied out. -/
def wait (k : Kernel) (i addr : Nat) (ok : Bool) : Kernel :=
  match zombieChild k i with
  | some j =>
      if addr = 0 ∨ ok then
        (k.set j (freeproc (k.proc j))).goto i (.reaped (k.proc j).pid)
      else k.goto i (.ret SYS_wait (-1))
  | none =>
      if (findSlot (fun p => p.parent = some i) k.proc).isNone || (k.proc i).killed then
        k.goto i (.ret SYS_wait (-1))
      else k.set i { k.proc i with chan := some (.proc i), state := .sleeping }

/-- One round of the loop of `kill`. -/
def kill (k : Kernel) (i : Nat) (pid : Int) (j : Nat) : Kernel :=
  if j < NPROC then
    if (k.proc j).pid = pid then
      let p := { k.proc j with killed := true }
      let p := if p.state = .sleeping then { p with state := .runnable } else p
      (k.set j p).goto i (.ret SYS_kill 0)
    else k.goto i (.kill pid (j + 1))
  else k.goto i (.ret SYS_kill (-1))

/-- One round of the loop of `aliveproc`; after the last one `sys_sysinfo` prints. -/
def aliveScan (k : Kernel) (i j n : Nat) : Kernel :=
  if j < NPROC then
    k.goto i (.alive (j + 1) (if (k.proc j).state ≠ .unused then n + 1 else n))
  else (k.print (.sysinfo n)).goto i (.ret SYS_sysinfo 0)

/-- `syscall()` up to the handler: most handlers only have their arguments fetched here. -/
def dispatch (k : Kernel) (i : Nat) (num : Int) (a0 : Nat) : Kernel :=
  match syscalls num with
  | none          => (k.print (.unknown (k.proc i).pid num)).goto i (.ret num (-1))
  | some .fork    => k.goto i (.fork 0)
  | some .exit    => k.goto i (.exit (wrap32 a0))
  | some .wait    => k.goto i (.wait a0)
  | some .kill    => k.goto i (.kill (wrap32 a0) 0)
  | some .getpid  => k.goto i (.ret num (k.proc i).pid)
  | some .trace   => k.set i { k.proc i with tracer := wrap32 a0, pc := .ret num 0 }
  | some .sysinfo => k.goto i (.alive 0 0)
  | some _        => k.goto i (.busy num)

/-- The end of `syscall()`: the handler of `num` has returned `v`. -/
def sysret (k : Kernel) (i : Nat) (num v : Int) : Kernel :=
  let p := k.proc i
  let k := if p.tracer = num then k.print (.trace p.pid (syscalltitles num) (wrap32 v)) else k
  k.goto i .trapret

/-! ## The system -/

/-- What the process table does not determine about the next section of a process: the
    trap it takes from user mode, whether memory could be allocated or copied, and what the
    handlers that leave the table alone do. -/
inductive Env
  | none
  | ecall (a7 a0 : Nat)
  | interrupt
  | fault
  | alloc (a : Alloc)
  | copyout (ok : Bool)
  | sleep (c : Chan)
  | ret (v : Int)
deriving DecidableEq

/-- The next section of the process in slot `i`. `none`: it panics, or `e` does not fit. -/
def Kernel.run (k : Kernel) (i : Nat) (e : Env) : Option Kernel :=
  match (k.proc i).pc, e with
  | .user, .ecall a7 a0         =>
      some (k.goto i (if (k.proc i).killed then .exit (-1) else .call (wrap32 a7) a0))
  | .user, .interrupt           => some (k.goto i .trapret)
  | .user, .fault               => some (k.set i { k.proc i with killed := true, pc := .trapret })
  | .call num a0, .none         => some (dispatch k i num a0)
  | .fork j, .alloc a           => some (forkScan k i j a)
  | .forkParent np pid, .none   =>
      some ((k.set np { k.proc np with parent := some i }).goto i (.forkRunnable np pid))
  | .forkRunnable np pid, .none =>
      some ((k.set np { k.proc np with state := .runnable }).goto i (.forked pid))
  | .forked pid, .none          => some (sysret k i SYS_fork pid)
  | .exit status, .none         => exit k i status
  | .exit _, .sleep c           =>
      some (k.set i { k.proc i with chan := some c, state := .sleeping })
  | .wait addr, .copyout ok     => some (wait k i addr ok)
  | .reaped pid, .none          => some (sysret k i SYS_wait pid)
  | .kill pid j, .none          => some (kill k i pid j)
  | .alive j n, .none           => some (aliveScan k i j n)
  | .busy _, .sleep c           =>
      some (k.set i { k.proc i with chan := some c, state := .sleeping })
  | .busy num, .ret v           => some (k.goto i (.ret num v))
  | .ret num v, .none           => some (sysret k i num v)
  | .trapret, .none             => some (k.goto i (if (k.proc i).killed then .exit (-1) else .user))
  | _, _                        => none

inductive Label
  /-- A hart picks the process in slot `i`. -/
  | dispatch (i : Nat)
  /-- A timer interrupt makes the process give up its hart. -/
  | yield (i : Nat)
  /-- Some `wakeup(c)` of process `me`, or of an interrupt handler on an idle hart, is at
      slot `j`. -/
  | wakeup (me : Option Nat) (c : Chan) (j : Nat)
  /-- The process in slot `i` runs its next section. -/
  | run (i : Nat) (e : Env)

def Kernel.step (k : Kernel) : Label → Option Kernel
  | .dispatch i =>
      if i < NPROC ∧ (k.proc i).state = .runnable then
        -- a process that slept clears its channel before it gives up p->lock
        some (k.set i { k.proc i with state := .running, chan := none })
      else none
  | .yield i =>
      if i < NPROC ∧ (k.proc i).state = .running then
        some (k.set i { k.proc i with state := .runnable })
      else none
  | .wakeup me c j =>
      if j < NPROC ∧ me ≠ some j then some (k.set j ((k.proc j).wakeup c)) else none
  | .run i e =>
      if i < NPROC ∧ (k.proc i).state = .running then k.run i e else none

/-- `userinit` has made the first process. -/
def boot : Kernel :=
  { proc := fun i =>
      if i = 0 then { Proc.zero with state := .runnable, pid := 1 } else Proc.zero
    nextpid := 2
    initproc := 0
    console := [] }

def kernel : TransitionSystem Kernel Label where
  init k := k = boot
  step k l k' := k.step l = some k'

end Syscall
