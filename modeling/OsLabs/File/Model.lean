-- SUMMARY: The file table of xv6 and the descriptors of all processes: open, dup, close, pipe, fork and exit, one section under a lock at a time.
import OsLabs.Lib.Transition
import OsLabs.Lottery.Proc

/-!
# Open files

A process refers to open files by descriptors. `ftable` has a reference count for each open file,
and an open file may be an end of a pipe, which lives in a page of its own. The counts change in
sections under `ftable.lock` and the ends of a pipe in sections under the lock of the pipe. In
between, the processes run in any order. What a process does to its own descriptors, and to a
file that only it refers to, is seen by nobody else.

Inodes count for themselves. Nothing here depends on what `iput` does.
-/

namespace Files

open Lottery (NPROC)

abbrev NOFILE : Nat := 16

abbrev NFILE : Nat := 100

abbrev Pid : Type := Fin NPROC

inductive FdType
  | none
  | pipe
  | inode
  | device
deriving DecidableEq

structure File where
  type : FdType
  ref : Int
  readable : Bool
  writable : Bool
  /-- The page of the pipe. -/
  pipe : Nat

abbrev Table : Type := Fin NFILE → File

/-- What is left of a `struct pipe` here. -/
structure Ends where
  readopen : Bool
  writeopen : Bool

/-! ## Sections under `ftable.lock` -/

def filealloc (t : Table) : Option (Fin NFILE × Table) :=
  ((List.finRange NFILE).find? fun f => (t f).ref = 0).map fun f =>
    (f, Function.update t f { t f with ref := 1 })

def filedup (t : Table) (f : Fin NFILE) : Except String Table :=
  if (t f).ref < 1 then .error "filedup"
  else .ok (Function.update t f { t f with ref := (t f).ref + 1 })

/-- The section of `fileclose`, with the copy of the file if this was its last reference. -/
def fileclose (t : Table) (f : Fin NFILE) : Except String (Table × Option File) :=
  if (t f).ref < 1 then .error "fileclose"
  else if (t f).ref - 1 > 0 then
    .ok (Function.update t f { t f with ref := (t f).ref - 1 }, none)
  else .ok (Function.update t f { t f with ref := 0, type := .none }, some (t f))

/-! ## Descriptors -/

abbrev Ofile : Type := Fin NOFILE → Option (Fin NFILE)

/-- The descriptor that `fdalloc` takes. -/
def fdalloc (o : Ofile) : Option (Fin NOFILE) := (List.finRange NOFILE).find? fun fd => o fd = none

/-- `sys_pipe` gives both ends a descriptor. -/
def fdallocs (o : Ofile) (rf wf : Fin NFILE) : Option Ofile := do
  let fd0 ← fdalloc o
  let o := Function.update o fd0 (some rf)
  let fd1 ← fdalloc o
  return Function.update o fd1 (some wf)

/-! ## Pipes -/

def Ends.close (e : Ends) (writable : Bool) : Ends :=
  if writable then { e with writeopen := false } else { e with readopen := false }

/-- `pipeclose` on a page. A page that is no pipe any more is none of its business. -/
def pipeclose (pipes : Nat → Option Ends) (pi : Nat) (writable : Bool) :
    Except String (Nat → Option Ends) :=
  match pipes pi with
  | none   => .error "pipeclose after kfree"
  | some e =>
      let e := e.close writable
      if !e.readopen && !e.writeopen then .ok (Function.update pipes pi none)
      else .ok (Function.update pipes pi (some e))

/-- What `pipealloc` makes of the two files. -/
def pipeFiles (t : Table) (rf wf : Fin NFILE) (pi : Nat) : Table :=
  let t := Function.update t rf
    { t rf with type := .pipe, readable := true, writable := false, pipe := pi }
  Function.update t wf { t wf with type := .pipe, readable := false, writable := true, pipe := pi }

/-! ## Processes -/

inductive Pc
  | user
  /-- `sys_dup` has a second descriptor for `f` and calls `filedup`. -/
  | dup (fd : Fin NOFILE) (f : Fin NFILE)
  /-- Calls of `fileclose` to be made. -/
  | close (todo : List (Fin NFILE))
  /-- In `fileclose` of an end of a pipe, before `pipeclose`. -/
  | pipeclose (pi : Nat) (writable : Bool) (todo : List (Fin NFILE))
  /-- `pipealloc` has its first file. -/
  | pipe1 (rf : Fin NFILE)
  /-- `pipealloc` has both files. -/
  | pipe2 (rf wf : Fin NFILE)
  /-- `sys_open` has its file. -/
  | opened (f : Fin NFILE)
  /-- In the loop of `fork` over the descriptors. -/
  | fork (np : Pid) (i : Nat)
  /-- In the loop of `exit` over the descriptors. -/
  | exit (i : Nat)
  /-- In `fileclose` from there, before `pipeclose`. -/
  | exitPipe (pi : Nat) (writable : Bool) (fd : Fin NOFILE)
  /-- In `piperead` or `pipewrite`. -/
  | io (fd : Fin NOFILE) (f : Fin NFILE)
deriving DecidableEq

inductive Life
  | unused
  | used
  | active
  | zombie
deriving DecidableEq

structure Proc where
  life : Life
  ofile : Ofile
  pc : Pc

structure Machine where
  ftable : Table
  /-- The pages that are pipes. -/
  pipes : Nat → Option Ends
  proc : Pid → Proc
  /-- A panic, or a use of a pipe whose page has been freed. -/
  fault : Option String

def Machine.set (m : Machine) (p : Pid) (x : Proc) : Machine :=
  { m with proc := Function.update m.proc p x }

def Machine.goto (m : Machine) (p : Pid) (pc : Pc) : Machine := m.set p { m.proc p with pc := pc }

def Machine.fail (m : Machine) (msg : String) : Machine := { m with fault := some msg }

/-- Process `p` runs, up to the next lock. -/
inductive Step (m : Machine) (p : Pid) : Machine → Prop
  -- sys_dup
  | dup {fd fd' : Fin NOFILE} {f : Fin NFILE} : (m.proc p).pc = .user →
      (m.proc p).ofile fd = some f → fdalloc (m.proc p).ofile = some fd' →
      Step m p (m.set p { m.proc p with
        ofile := Function.update (m.proc p).ofile fd' (some f), pc := .dup fd' f })
  | filedup {fd : Fin NOFILE} {f : Fin NFILE} {t : Table} : (m.proc p).pc = .dup fd f →
      filedup m.ftable f = .ok t → Step m p ({ m with ftable := t }.goto p .user)
  | filedupPanic {fd : Fin NOFILE} {f : Fin NFILE} {msg : String} : (m.proc p).pc = .dup fd f →
      filedup m.ftable f = .error msg → Step m p (m.fail msg)
  -- sys_close and fileclose
  | close {fd : Fin NOFILE} {f : Fin NFILE} : (m.proc p).pc = .user →
      (m.proc p).ofile fd = some f →
      Step m p (m.set p { m.proc p with
        ofile := Function.update (m.proc p).ofile fd none, pc := .close [f] })
  | fileclose {f : Fin NFILE} {todo : List (Fin NFILE)} {t : Table} {ff : Option File} :
      (m.proc p).pc = .close (f :: todo) → fileclose m.ftable f = .ok (t, ff) →
      (∀ x, ff = some x → x.type ≠ .pipe) → Step m p ({ m with ftable := t }.goto p (.close todo))
  | filecloseEnd {f : Fin NFILE} {todo : List (Fin NFILE)} {t : Table} {x : File} :
      (m.proc p).pc = .close (f :: todo) → fileclose m.ftable f = .ok (t, some x) →
      x.type = .pipe →
      Step m p ({ m with ftable := t }.goto p (.pipeclose x.pipe x.writable todo))
  | fileclosePanic {f : Fin NFILE} {todo : List (Fin NFILE)} {msg : String} :
      (m.proc p).pc = .close (f :: todo) → fileclose m.ftable f = .error msg → Step m p (m.fail msg)
  | pipeclose {pi : Nat} {writable : Bool} {todo : List (Fin NFILE)} {pipes : Nat → Option Ends} :
      (m.proc p).pc = .pipeclose pi writable todo → pipeclose m.pipes pi writable = .ok pipes →
      Step m p ({ m with pipes := pipes }.goto p (.close todo))
  | pipecloseFreed {pi : Nat} {writable : Bool} {todo : List (Fin NFILE)} {msg : String} :
      (m.proc p).pc = .pipeclose pi writable todo → pipeclose m.pipes pi writable = .error msg →
      Step m p (m.fail msg)
  | closed : (m.proc p).pc = .close [] → Step m p (m.goto p .user)
  -- sys_pipe
  | pipe1 {f : Fin NFILE} {t : Table} : (m.proc p).pc = .user → filealloc m.ftable = some (f, t) →
      Step m p ({ m with ftable := t }.goto p (.pipe1 f))
  | pipe2 {rf f : Fin NFILE} {t : Table} : (m.proc p).pc = .pipe1 rf →
      filealloc m.ftable = some (f, t) → Step m p ({ m with ftable := t }.goto p (.pipe2 rf f))
  | pipe1Fail {rf : Fin NFILE} : (m.proc p).pc = .pipe1 rf → filealloc m.ftable = none →
      Step m p (m.goto p (.close [rf]))
  /-- `kalloc` returns 0. -/
  | pipe2Fail {rf wf : Fin NFILE} : (m.proc p).pc = .pipe2 rf wf →
      Step m p (m.goto p (.close [rf, wf]))
  /-- `kalloc` returns a page that nobody uses, and both ends get a descriptor. -/
  | pipe {rf wf : Fin NFILE} {pi : Nat} {o : Ofile} : (m.proc p).pc = .pipe2 rf wf →
      m.pipes pi = none → fdallocs (m.proc p).ofile rf wf = some o →
      Step m p ({ m with
        ftable := pipeFiles m.ftable rf wf pi
        pipes := Function.update m.pipes pi (some ⟨true, true⟩) }.set p
          { m.proc p with ofile := o, pc := .user })
  /-- There are not enough descriptors, or they cannot be copied out and are taken back. -/
  | pipeUndone {rf wf : Fin NFILE} {pi : Nat} : (m.proc p).pc = .pipe2 rf wf → m.pipes pi = none →
      Step m p ({ m with
        ftable := pipeFiles m.ftable rf wf pi
        pipes := Function.update m.pipes pi (some ⟨true, true⟩) }.goto p (.close [rf, wf]))
  -- sys_open, once it has an inode
  | open {f : Fin NFILE} {t : Table} : (m.proc p).pc = .user → filealloc m.ftable = some (f, t) →
      Step m p ({ m with ftable := t }.goto p (.opened f))
  | opened {f : Fin NFILE} {fd : Fin NOFILE} {type : FdType} {readable writable : Bool} :
      (m.proc p).pc = .opened f → fdalloc (m.proc p).ofile = some fd →
      type = .inode ∨ type = .device →
      Step m p ({ m with
        ftable := Function.update m.ftable f
          { m.ftable f with type := type, readable := readable, writable := writable } }.set p
          { m.proc p with ofile := Function.update (m.proc p).ofile fd (some f), pc := .user })
  | openFail {f : Fin NFILE} : (m.proc p).pc = .opened f → fdalloc (m.proc p).ofile = none →
      Step m p (m.goto p (.close [f]))
  -- fork
  | fork {np : Pid} : (m.proc p).pc = .user →
      (m.proc np).life = .unused →
      Step m p ((m.set np { m.proc np with life := .used }).goto p (.fork np 0))
  | forkDup {np : Pid} {i : Fin NOFILE} {f : Fin NFILE} {t : Table} :
      (m.proc p).pc = .fork np i → (m.proc p).ofile i = some f → filedup m.ftable f = .ok t →
      Step m p (({ m with ftable := t }.set np { m.proc np with
        ofile := Function.update (m.proc np).ofile i (some f) }).goto p (.fork np (i + 1)))
  | forkPanic {np : Pid} {i : Fin NOFILE} {f : Fin NFILE} {msg : String} :
      (m.proc p).pc = .fork np i → (m.proc p).ofile i = some f → filedup m.ftable f = .error msg →
      Step m p (m.fail msg)
  | forkSkip {np : Pid} {i : Fin NOFILE} : (m.proc p).pc = .fork np i →
      (m.proc p).ofile i = none → Step m p (m.goto p (.fork np (i + 1)))
  | forked {np : Pid} : (m.proc p).pc = .fork np NOFILE →
      Step m p ((m.set np { m.proc np with life := .active }).goto p .user)
  -- exit
  | exit : (m.proc p).pc = .user → Step m p (m.goto p (.exit 0))
  | exitClose {fd : Fin NOFILE} {f : Fin NFILE} {t : Table} {ff : Option File} :
      (m.proc p).pc = .exit fd → (m.proc p).ofile fd = some f → fileclose m.ftable f = .ok (t, ff) →
      (∀ x, ff = some x → x.type ≠ .pipe) →
      Step m p ({ m with ftable := t }.set p { m.proc p with
        ofile := Function.update (m.proc p).ofile fd none, pc := .exit (fd + 1) })
  | exitEnd {fd : Fin NOFILE} {f : Fin NFILE} {t : Table} {x : File} :
      (m.proc p).pc = .exit fd → (m.proc p).ofile fd = some f →
      fileclose m.ftable f = .ok (t, some x) → x.type = .pipe →
      Step m p ({ m with ftable := t }.goto p (.exitPipe x.pipe x.writable fd))
  | exitPanic {fd : Fin NOFILE} {f : Fin NFILE} {msg : String} : (m.proc p).pc = .exit fd →
      (m.proc p).ofile fd = some f → fileclose m.ftable f = .error msg → Step m p (m.fail msg)
  | exitPipe {fd : Fin NOFILE} {pi : Nat} {writable : Bool} {pipes : Nat → Option Ends} :
      (m.proc p).pc = .exitPipe pi writable fd → pipeclose m.pipes pi writable = .ok pipes →
      Step m p ({ m with pipes := pipes }.set p { m.proc p with
        ofile := Function.update (m.proc p).ofile fd none, pc := .exit (fd + 1) })
  | exitFreed {fd : Fin NOFILE} {pi : Nat} {writable : Bool} {msg : String} :
      (m.proc p).pc = .exitPipe pi writable fd → pipeclose m.pipes pi writable = .error msg →
      Step m p (m.fail msg)
  | exitSkip {fd : Fin NOFILE} : (m.proc p).pc = .exit fd → (m.proc p).ofile fd = none →
      Step m p (m.goto p (.exit (fd + 1)))
  | exited : (m.proc p).pc = .exit NOFILE →
      Step m p (m.set p { m.proc p with life := .zombie, pc := .user })
  -- fileread and filewrite
  | io {fd : Fin NOFILE} {f : Fin NFILE} : (m.proc p).pc = .user → (m.proc p).ofile fd = some f →
      (m.ftable f).type = .pipe → Step m p (m.goto p (.io fd f))
  | ioPanic {fd : Fin NOFILE} {f : Fin NFILE} {write : Bool} : (m.proc p).pc = .user →
      (m.proc p).ofile fd = some f → (m.ftable f).type = .none →
      Step m p (m.fail (if write then "filewrite" else "fileread"))
  | ioFreed {fd : Fin NOFILE} {f : Fin NFILE} : (m.proc p).pc = .io fd f →
      m.pipes (m.ftable f).pipe = none → Step m p (m.fail "pipe used after kfree")
  | ioDone {fd : Fin NOFILE} {f : Fin NFILE} : (m.proc p).pc = .io fd f → Step m p (m.goto p .user)

/-- The first process has no open files. -/
def boot : Machine where
  ftable _ := { type := .none, ref := 0, readable := false, writable := false, pipe := 0 }
  pipes _ := none
  proc p := { life := if p.val = 0 then .active else .unused, ofile := fun _ => none, pc := .user }
  fault := none

/-- A panic stops the machine. `wait` of a parent makes a zombie an unused slot. -/
def machine : TransitionSystem Machine Pid where
  init m := m = boot
  step m p m' := m.fault = none ∧ ((m.proc p).life = .active ∧ Step m p m' ∨
    (m.proc p).life = .zombie ∧ m' = m.set p { m.proc p with life := .unused })

end Files
