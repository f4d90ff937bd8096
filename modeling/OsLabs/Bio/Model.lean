-- SUMMARY: The buffer cache of xv6 with its list of buffers, its reference counts and its sleep locks, used by any number of processes at once.
import OsLabs.Lib.BlockCache
import OsLabs.Lib.Ring
import OsLabs.Log.Model
import OsLabs.Lottery.Proc

/-!
# The buffer cache

`bget` and the end of `brelse` are sections under `bcache.lock`. Between them a process waits for
the sleep lock of its buffer, reads the disk, and works with the data. What the processes ask
for is up to them, within the rules that callers of `bio.c` follow: only the holder of a
buffer touches its data or pins it, pins are undone at most once, at most as many are kept as
the log has blocks, and no block of device 0 is asked for, which the buffers start out with.
-/

namespace Bio

open Log (MAXOPBLOCKS LOGSIZE)
open Lottery (NPROC)
open Ring

abbrev NBUF : Nat := MAXOPBLOCKS * 3

abbrev Pid : Type := Fin NPROC

/-- Device and block number. -/
abbrev Key : Type := BitVec 32 × BitVec 32

variable {D : Type}

structure Buf (D : Type) where
  valid : Bool
  dev : BitVec 32
  blockno : BitVec 32
  /-- `locked` and `pid` of the sleep lock. -/
  lock : Option Pid
  refcnt : BitVec 32
  data : D

def Buf.key (b : Buf D) : Key := (b.dev, b.blockno)

structure Bcache (D : Type) where
  buf : Fin NBUF → Buf D
  links : Links (Fin NBUF)

def Bcache.set (s : Bcache D) (b : Fin NBUF) (x : Buf D) : Bcache D :=
  { s with buf := Function.update s.buf b x }

/-- The list of buffers after `binit`. The pointers of a buffer that is not in the list yet are
    null, which `none` stands for as well. -/
def initLinks : Links (Fin NBUF) :=
  (List.finRange NBUF).foldl Links.insert ⟨fun _ => none, fun _ => none⟩

/-- Static memory is zero. -/
def binit (zero : D) : Bcache D where
  buf _ := { valid := false, dev := 0, blockno := 0, lock := none, refcnt := 0, data := zero }
  links := initLinks

/-- `bget` up to the release of `bcache.lock`. `none`: one of its loops does not end. -/
def bget (s : Bcache D) (k : Key) : Option (Except String (Fin NBUF × Bcache D)) := do
  let hit ← find s.links.next (fun b => (s.buf b).dev = k.1 && (s.buf b).blockno = k.2) (NBUF + 1)
    (s.links.next none)
  match hit with
  | some b => return .ok (b, s.set b { s.buf b with refcnt := (s.buf b).refcnt + 1 })
  | none =>
      let victim ← find s.links.prev (fun b => (s.buf b).refcnt = 0) (NBUF + 1) (s.links.prev none)
      match victim with
      | some b =>
          return .ok (b, s.set b
            { s.buf b with dev := k.1, blockno := k.2, valid := false, refcnt := 1 })
      | none => return .error "bget: no buffers"

/-- `brelse` from the acquisition of `bcache.lock` on. -/
def drop (s : Bcache D) (b : Fin NBUF) : Bcache D :=
  let s := s.set b { s.buf b with refcnt := (s.buf b).refcnt - 1 }
  if (s.buf b).refcnt = 0 then { s with links := (s.links.remove b).insert b } else s

def bpin (s : Bcache D) (b : Fin NBUF) : Bcache D :=
  s.set b { s.buf b with refcnt := (s.buf b).refcnt + 1 }

def bunpin (s : Bcache D) (b : Fin NBUF) : Bcache D :=
  s.set b { s.buf b with refcnt := (s.buf b).refcnt - 1 }

/-! ## Processes -/

/-- Where a process stands in a call of `bread` or `brelse`. -/
inductive Pc
  | idle
  /-- In the loop of `acquiresleep`. -/
  | acquire (k : Key) (b : Fin NBUF) (asleep : Bool)
  /-- In `bread`, with the buffer locked. -/
  | locked (k : Key) (b : Fin NBUF)
  /-- In `bread`, after `virtio_disk_rw`. -/
  | filled (k : Key) (b : Fin NBUF)
  /-- In `brelse`, after `releasesleep`. -/
  | release (b : Fin NBUF)
deriving DecidableEq

structure Machine (D : Type) where
  bcache : Bcache D
  disk : Key → D
  /-- How often the log has pinned a buffer. -/
  pins : Fin NBUF → Nat
  pc : Pid → Pc
  panicked : Option String

def Machine.buf (m : Machine D) (b : Fin NBUF) : Buf D := m.bcache.buf b

def Machine.goto (m : Machine D) (p : Pid) (pc : Pc) : Machine D :=
  { m with pc := Function.update m.pc p pc }

def Machine.set (m : Machine D) (b : Fin NBUF) (x : Buf D) : Machine D :=
  { m with bcache := m.bcache.set b x }

def Machine.panic (m : Machine D) (msg : String) : Machine D := { m with panicked := some msg }

/-- `wakeup` of the sleep lock of `b`. -/
def Pc.wakeup (b : Fin NBUF) : Pc → Pc
  | .acquire k b' asleep => .acquire k b' (asleep && b' != b)
  | pc                   => pc

inductive Label (D : Type)
  | bget (p : Pid) (k : Key)
  /-- One round of the loop of `acquiresleep`. -/
  | acquiresleep (p : Pid)
  /-- Somebody kills a process that sleeps. -/
  | kill (p : Pid)
  /-- `bread` goes on. -/
  | bread (p : Pid)
  | modify (p : Pid) (b : Fin NBUF) (f : D → D)
  | bwrite (p : Pid) (b : Fin NBUF)
  | brelse (p : Pid) (b : Fin NBUF)
  | drop (p : Pid)
  | bpin (p : Pid) (b : Fin NBUF)
  | bunpin (p : Pid) (b : Fin NBUF)

inductive Step : Machine D → Label D → Machine D → Prop
  | bget {m : Machine D} {p : Pid} {k : Key} {b : Fin NBUF} {s : Bcache D} :
      m.pc p = .idle → k.1 ≠ 0 → bget m.bcache k = some (.ok (b, s)) →
      Step m (.bget p k) ({ m with bcache := s }.goto p (.acquire k b false))
  | bgetPanic {m : Machine D} {p : Pid} {k : Key} {msg : String} :
      m.pc p = .idle → k.1 ≠ 0 → bget m.bcache k = some (.error msg) →
      Step m (.bget p k) (m.panic msg)
  | lock {m : Machine D} {p : Pid} {k : Key} {b : Fin NBUF} :
      m.pc p = .acquire k b false → (m.buf b).lock = none →
      Step m (.acquiresleep p) ((m.set b { m.buf b with lock := some p }).goto p (.locked k b))
  | sleep {m : Machine D} {p : Pid} {k : Key} {b : Fin NBUF} :
      m.pc p = .acquire k b false → (m.buf b).lock ≠ none →
      Step m (.acquiresleep p) (m.goto p (.acquire k b true))
  | kill {m : Machine D} {p : Pid} {k : Key} {b : Fin NBUF} :
      m.pc p = .acquire k b true → Step m (.kill p) (m.goto p (.acquire k b false))
  | cached {m : Machine D} {p : Pid} {k : Key} {b : Fin NBUF} :
      m.pc p = .locked k b → (m.buf b).valid = true → Step m (.bread p) (m.goto p .idle)
  | fill {m : Machine D} {p : Pid} {k : Key} {b : Fin NBUF} :
      m.pc p = .locked k b → (m.buf b).valid = false →
      Step m (.bread p)
        ((m.set b { m.buf b with data := m.disk (m.buf b).key }).goto p (.filled k b))
  | filled {m : Machine D} {p : Pid} {k : Key} {b : Fin NBUF} :
      m.pc p = .filled k b →
      Step m (.bread p) ((m.set b { m.buf b with valid := true }).goto p .idle)
  | modify {m : Machine D} {p : Pid} {b : Fin NBUF} {f : D → D} :
      m.pc p = .idle → (m.buf b).lock = some p →
      Step m (.modify p b f) (m.set b { m.buf b with data := f (m.buf b).data })
  | bwrite {m : Machine D} {p : Pid} {b : Fin NBUF} :
      m.pc p = .idle → (m.buf b).lock = some p →
      Step m (.bwrite p b)
        { m with disk := Function.update m.disk (m.buf b).key (m.buf b).data }
  | bwritePanic {m : Machine D} {p : Pid} {b : Fin NBUF} :
      m.pc p = .idle → (m.buf b).lock ≠ some p → Step m (.bwrite p b) (m.panic "bwrite")
  | brelse {m : Machine D} {p : Pid} {b : Fin NBUF} :
      m.pc p = .idle → (m.buf b).lock = some p →
      Step m (.brelse p b)
        ({ m.set b { m.buf b with lock := none } with pc := fun q => (m.pc q).wakeup b }.goto p
          (.release b))
  | brelsePanic {m : Machine D} {p : Pid} {b : Fin NBUF} :
      m.pc p = .idle → (m.buf b).lock ≠ some p → Step m (.brelse p b) (m.panic "brelse")
  | drop {m : Machine D} {p : Pid} {b : Fin NBUF} :
      m.pc p = .release b →
      Step m (.drop p) ({ m with bcache := drop m.bcache b }.goto p .idle)
  | bpin {m : Machine D} {p : Pid} {b : Fin NBUF} :
      m.pc p = .idle → (m.buf b).lock = some p → m.pins b < LOGSIZE →
      Step m (.bpin p b)
        { m with bcache := bpin m.bcache b, pins := Function.update m.pins b (m.pins b + 1) }
  | bunpin {m : Machine D} {p : Pid} {b : Fin NBUF} :
      m.pc p = .idle → (m.buf b).lock = some p → 0 < m.pins b →
      Step m (.bunpin p b)
        { m with bcache := bunpin m.bcache b, pins := Function.update m.pins b (m.pins b - 1) }

def boot (zero : D) (disk : Key → D) : Machine D where
  bcache := binit zero
  disk := disk
  pins _ := 0
  pc _ := .idle
  panicked := none

/-- A panic stops the machine. -/
def machine (zero : D) (disk : Key → D) : TransitionSystem (Machine D) (Label D) where
  init m := m = boot zero disk
  step m l m' := m.panicked = none ∧ Step m l m'

end Bio
