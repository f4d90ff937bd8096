-- SUMMARY: The process table of xv6 over either kernel memory: creating, forking, growing, ending and reaping processes, and the events that processes cause.
import OsLabs.Lib.CInt
import OsLabs.Vm.Image

/-!
# Processes and their memory

The memory side of `kernel/proc.c`: what `fork`, `sbrk`, `exit` and `wait` do to the page
tables of the process table, and what becomes of a process whose load or store faults. A
process is named by its slot in the table. Null pointers are `0`, as in the source.

An event is what one process does next. Its system calls run to completion, so the
processes take turns event by event.
-/

namespace Vm

open Effect

def NPROC : Nat := 64

/-- The slot of the first process. -/
def initproc : Nat := 0

/-- `runnable` stands for all states of a process that has not exited. -/
inductive ProcState
  | unused
  | used
  | runnable
  | zombie
deriving DecidableEq

structure Proc where
  state : ProcState
  parent : Option Nat
  sz : Nat
  pagetable : Nat
  trapframe : Nat

def Proc.unused : Proc := ⟨.unused, none, 0, 0, 0⟩

structure Machine where
  mem : Memory
  proc : Nat → Proc

def Machine.reset (ram : Nat → UInt8) : Machine := ⟨.reset ram, fun _ => .unused⟩

abbrev ProcM := Effect Machine Panic

def onMem {α : Type} (m : KernelM α) : ProcM α := zoom Machine.mem (fun s k => { k with mem := s }) m

def Machine.setProc (k : Machine) (i : Nat) (p : Proc) : Machine :=
  { k with proc := Function.update k.proc i p }

def modifyProc (i : Nat) (g : Proc → Proc) : ProcM Unit :=
  modify fun k => k.setProc i (g (k.proc i))

/-- The first slot that meets a condition. -/
def findSlot (c : Nat → Bool) : Option Nat := (List.range NPROC).find? c

/-- `sz + n` for a `uint64` and an `int`. -/
def addU64 (sz : Nat) (n : Int) : Nat := ((sz + n) % 2 ^ 64).toNat

section

variable [Layout] (κ : Version)

/-! ## The process table -/

def freeproc (i : Nat) : ProcM Unit := do
  let p := (← get).proc i
  if p.trapframe ≠ 0 then onMem (kfree κ p.trapframe)
  if p.pagetable ≠ 0 then onMem (procFreepagetable κ p.pagetable p.sz)
  modifyProc i fun _ => .unused

def allocproc : ProcM (Option Nat) := do
  let k ← get
  match findSlot fun i => (k.proc i).state = .unused with
  | none => return none
  | some i => do
      modifyProc i fun p => { p with state := .used }
      match ← onMem (kalloc κ) with
      | none => do
          freeproc κ i
          return none
      | some trapframe => do
          modifyProc i fun p => { p with trapframe := trapframe }
          match ← onMem (procPagetable κ trapframe) with
          | none => do
              freeproc κ i
              return none
          | some pagetable => do
              modifyProc i fun p => { p with pagetable := pagetable }
              return some i

/-- Returns the slot of the child. -/
def fork (i : Nat) : ProcM (Option Nat) := do
  match ← allocproc κ with
  | none => return none
  | some np => do
      let k ← get
      match ← onMem (uvmcopy κ (k.proc i).pagetable (k.proc np).pagetable (k.proc i).sz) with
      | .ok => do
          modifyProc np fun p => { p with sz := (k.proc i).sz, parent := some i, state := .runnable }
          return some np
      | .err | .badRef => do
          freeproc κ np
          return none

/-- Returns whether the size could be changed, `0` or `-1` in the source. -/
def growproc (i : Nat) (n : Int) : ProcM Bool := do
  let p := (← get).proc i
  if n > 0 then
    match ← onMem (uvmalloc κ p.pagetable p.sz (addU64 p.sz n) true false) with
    | none => return false
    | some sz => do
        if sz = 0 then return false
        modifyProc i fun p => { p with sz := sz }
        return true
  else if n < 0 then
    let sz ← onMem (uvmdealloc κ p.pagetable p.sz (addU64 p.sz n))
    modifyProc i fun p => { p with sz := sz }
    return true
  else return true

/-- The parent after process `i` has passed its children to the first process. -/
def newParent (i : Nat) (parent : Option Nat) : Option Nat :=
  if parent = some i then some initproc else parent

def reparent (i : Nat) : ProcM Unit :=
  modify fun k => { k with
    proc := fun j => { k.proc j with parent := newParent i (k.proc j).parent } }

def exit (i : Nat) : ProcM Unit := do
  if i = initproc then throw .initExiting
  reparent i
  modifyProc i fun p => { p with state := .zombie }

/-- How one scan of `wait` ends. After `sleeps` the process scans again later. -/
inductive WaitRes
  | reaped (i : Nat)
  | sleeps
  | noChildren
deriving DecidableEq

def wait (i : Nat) : ProcM WaitRes := do
  let k ← get
  match findSlot fun j => (k.proc j).parent = some i ∧ (k.proc j).state = .zombie with
  | some j => do
      freeproc κ j
      return .reaped j
  | none =>
      if (findSlot fun j => (k.proc j).parent = some i).isSome then return .sleeps
      else return .noChildren

/-! ## Starting up -/

/-- The kernel has started and holds `held` frames for itself, such as its page table and
    the kernel stacks, and the first process has the program `phs`. If the program cannot
    be loaded, the first process exits. -/
def boot (held : Nat) (phs : List Segment) : ProcM Unit := do
  onMem (kinit κ)
  onMem (upto held fun _ => do
    let _ ← kalloc κ)
  match ← allocproc κ with
  | none => throw .notATable
  | some i => do
      let k ← get
      match ← onMem (loadImage κ (k.proc i).pagetable phs) with
      | none => throw .initExiting
      | some sz => modifyProc i fun p => { p with sz := sz, state := .runnable }

/-! ## Events -/

inductive Action
  | fork
  | load (va : Nat)
  | store (va : Nat) (b : UInt8)
  | sbrk (n : Int)
  | exit
  | wait

structure Event where
  slot : Nat
  action : Action

/-- What the process, or somebody who watches it, sees of an event. -/
inductive Out
  | forked (child : Option Nat)
  | byte (b : UInt8)
  | stored
  | killed
  | faultsAgain
  | brk (addr : Option Nat)
  | exited
  | waited (res : WaitRes)
  | idle
deriving DecidableEq

def Action.run (i : Nat) : Action → ProcM Out
  | .fork => do return .forked (← Vm.fork κ i)
  | .load va => do
      let k ← get
      match k.mem.load (k.proc i).pagetable va with
      | some b => return .byte b
      | none => do
          Vm.exit i
          return .killed
  | .store va b => do
      let k ← get
      match ← onMem (Vm.store κ (k.proc i).pagetable (k.proc i).sz va b) with
      | .done => return .stored
      | .killed => do
          Vm.exit i
          return .killed
      | .faultsAgain => return .faultsAgain
  | .sbrk n => do
      let addr := ((← get).proc i).sz
      if ← growproc κ i (CInt.wrap32 n) then return .brk (some addr) else return .brk none
  | .exit => do
      Vm.exit i
      return .exited
  | .wait => do return .waited (← Vm.wait κ i)

/-- A slot without a process does nothing. -/
def Event.run (e : Event) : ProcM Out := do
  if ((← get).proc e.slot).state = .runnable then e.action.run κ e.slot else return .idle

/-- A recorded event. -/
structure Step where
  before : Machine
  event : Event
  result : Except Panic Out
  after : Machine

def Event.step (e : Event) (k : Machine) : Step :=
  ⟨k, e, (exec (e.run κ) k).1, (exec (e.run κ) k).2⟩

/-- Events one after the other. A panic is the last one. -/
def trace : Machine → List Event → List Step
  | _, []      => []
  | k, e :: es =>
      e.step κ k :: match (e.step κ k).result with
        | .ok _    => trace (e.step κ k).after es
        | .error _ => []

end

end Vm
