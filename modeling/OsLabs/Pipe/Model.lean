-- SUMMARY: The pipes of the xv6 kernel as code under the lock of the pipe: pipewrite, piperead and pipeclose, with the failures of their copies and with processes that are killed.
import OsLabs.Lib.Monitor
import OsLabs.Lib.RingBuffer

/-!
# Pipes

A pipe is a ring buffer of `PIPESIZE` bytes with two `uint` counters and two flags, all under one
lock. Any number of processes make calls on it. A call runs from `acquire(&pi->lock)` to
`release(&pi->lock)`, or to a `sleep` that gives the lock up in between, so the code is a program
in the sense of `Monitor.Program`. Its condition variables are the two channels `&pi->nread`
and `&pi->nwrite`.
-/

namespace Pipes

open Monitor

abbrev PIPESIZE : Nat := 512

instance : NeZero PIPESIZE := ⟨by decide⟩

structure Pipe where
  data : Fin PIPESIZE → UInt8
  nread : BitVec 32
  nwrite : BitVec 32
  readopen : Bool
  writeopen : Bool

/-- What `pipealloc` makes of a page that holds anything. -/
def pipealloc (page : Fin PIPESIZE → UInt8) : Pipe :=
  { data := page, nread := 0, nwrite := 0, readopen := true, writeopen := true }

inductive Chan
  | nread
  | nwrite
deriving DecidableEq

/-- The calls that a process makes on a pipe. -/
inductive Call
  /-- `pipewrite`, with what `copyin` finds for each byte of the buffer. -/
  | write (src : List (Option UInt8))
  /-- `piperead` of `n` bytes into a buffer of which `copyout` can fill the first `room`. -/
  | read (n room : Nat)
  | close (writable : Bool)
deriving DecidableEq

/-- A process has calls to make. Of the first one it may have done `i` bytes already. -/
structure Loc where
  i : Nat
  calls : List Call
deriving DecidableEq

/-- What a call has done by the time it gives the lock up. -/
structure Event where
  call : Call
  /-- Bytes that went into the pipe. -/
  put : List UInt8 := []
  /-- Bytes that went out of the pipe. The last one of them may not have reached the reader. -/
  took : List UInt8 := []
  /-- What the call returns, if it does not sleep. -/
  ret : Option Int := none
  /-- `pipeclose` frees the page of the pipe. -/
  freed : Bool := false
deriving DecidableEq

/-! ## pipewrite -/

/-- `pi->data[pi->nwrite++ % PIPESIZE] = ch` -/
def Pipe.store (p : Pipe) (ch : UInt8) : Pipe :=
  { p with
    data := Function.update p.data (RingBuffer.slot PIPESIZE p.nwrite) ch
    nwrite := p.nwrite + 1 }

/-- How the loop of `pipewrite` ends: at the `return -1`, at the `sleep`, or below it. -/
inductive Stop
  | fails
  | sleeps
  | leaves
deriving DecidableEq

/-- The loop of `pipewrite` from byte `i` on, with the bytes it stores. The process finds itself
    killed when it comes to the byte `killed`. -/
def writeLoop (killed : Option Nat) (p : Pipe) (i : Nat) :
    List (Option UInt8) → Pipe × List UInt8 × Stop
  | [] => (p, [], .leaves)
  | c :: cs =>
      if p.readopen = false ∨ killed = some i then (p, [], .fails)
      else if p.nwrite = p.nread + BitVec.ofNat 32 PIPESIZE then (p, [], .sleeps)
      else match c with
        | none    => (p, [], .leaves)
        | some ch =>
            let (p', put, stop) := writeLoop killed (p.store ch) (i + 1) cs
            (p', ch :: put, stop)

def pipewrite (killed : Option Nat) (i : Nat) (src : List (Option UInt8)) (rest : List Call)
    (p : Pipe) : Outcome Pipe Chan Loc Event :=
  let (p', put, stop) := writeLoop killed p i (src.drop i)
  let j := i + put.length
  match stop with
  | .fails =>
      ⟨p', .goto ⟨0, rest⟩, .none, { call := .write src, put := put, ret := some (-1) }⟩
  | .sleeps =>
      ⟨p', .wait .nwrite ⟨j, .write src :: rest⟩, .broadcast .nread,
        { call := .write src, put := put }⟩
  | .leaves =>
      ⟨p', .goto ⟨0, rest⟩, .broadcast .nread, { call := .write src, put := put, ret := some j }⟩

/-! ## piperead -/

/-- The loop of `piperead` that copies, for the last `n` bytes from byte `i` on, with the bytes it
    takes and the value of `i` at its end. A byte that cannot be copied out is gone. -/
def readLoop (room : Nat) : Nat → Nat → Pipe → Pipe × List UInt8 × Nat
  | 0, i, p => (p, [], i)
  | n + 1, i, p =>
      if p.nread = p.nwrite then (p, [], i)
      else
        let ch := p.data (RingBuffer.slot PIPESIZE p.nread)
        let p := { p with nread := p.nread + 1 }
        if i < room then
          let (p', took, j) := readLoop room n (i + 1) p
          (p', ch :: took, j)
        else (p, [ch], i)

def piperead (killed : Bool) (n room : Nat) (rest : List Call) (p : Pipe) :
    Outcome Pipe Chan Loc Event :=
  if p.nread = p.nwrite ∧ p.writeopen = true then
    if killed then ⟨p, .goto ⟨0, rest⟩, .none, { call := .read n room, ret := some (-1) }⟩
    else ⟨p, .wait .nread ⟨0, .read n room :: rest⟩, .none, { call := .read n room }⟩
  else
    let (p', took, i) := readLoop room n 0 p
    ⟨p', .goto ⟨0, rest⟩, .broadcast .nwrite,
      { call := .read n room, took := took, ret := some i }⟩

/-! ## pipeclose -/

def pipeclose (writable : Bool) (rest : List Call) (p : Pipe) : Outcome Pipe Chan Loc Event :=
  let p' := if writable then { p with writeopen := false } else { p with readopen := false }
  ⟨p', .goto ⟨0, rest⟩, .broadcast (if writable then .nread else .nwrite),
    { call := .close writable, freed := !p'.readopen && !p'.writeopen }⟩

/-! ## The program -/

/-- Whether and when a process finds itself killed is up to the rest of the kernel. -/
def code : Program Pipe Chan Loc Event where
  sections
    | ⟨i, .write src :: rest⟩     =>
        (none :: (List.range src.length).map some).map fun killed => pipewrite killed i src rest
    | ⟨_, .read n room :: rest⟩   =>
        [false, true].map fun killed => piperead killed n room rest
    | ⟨_, .close writable :: rest⟩ => [pipeclose writable rest]
    | ⟨_, []⟩                      => []

end Pipes
