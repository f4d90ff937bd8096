-- SUMMARY: The write-ahead log of the xv6 file system: system calls that share a transaction, the commit with each of its disk writes, recovery, and crashes at any point.
import OsLabs.Lib.Monitor

/-!
# The log

A file system call brackets its changes with `begin_op` and `end_op`. It changes blocks in the
buffer cache and names them to `log_write`, which keeps them there. The last call to end commits:
it copies the changed blocks to the log, writes the header of the log, copies the blocks
to their home locations, and erases the header. After a crash `recover_from_log` does the
second half again.

The processes are threads under `log.lock`. A commit runs without the lock, one disk write at a
time, while `log.committing` keeps the other processes out. A write of one block takes effect as
a whole or not at all, and is over when `bwrite` returns.
-/

namespace Log

open Monitor

abbrev MAXOPBLOCKS : Nat := 10

abbrev LOGSIZE : Nat := MAXOPBLOCKS * 3

/-- A disk block, as the ints in its `BSIZE` bytes. -/
abbrev Block : Type := Fin 256 → BitVec 32

/-- Where the log is on the disk: a header block and `size - 1` blocks after it. -/
structure Layout where
  start : Nat
  size : Nat
  pos : 0 < size

/-- A block number outside the log. -/
def Layout.Home (L : Layout) (b : Nat) : Prop :=
  b < 2 ^ 32 ∧ (b < L.start ∨ L.start + L.size ≤ b)

/-- What a file system call does to one block, between `bread` and `brelse`. -/
structure Update (L : Layout) where
  blockno : Nat
  home : L.Home blockno
  modify : Block → Block

/-- The disk, the buffer cache as far as the log depends on it, and `struct log`. The first `n`
    entries of `log.lh.block` are the list `lh`. -/
structure State where
  disk : Nat → Block
  cache : Nat → Option Block
  /-- How often a buffer is pinned. -/
  pins : Nat → Nat
  lh : List Nat
  outstanding : Int
  committing : Bool
  panicked : Option String

/-! ## Buffers -/

/-- The data that `bread` returns. -/
def State.data (s : State) (b : Nat) : Block := (s.cache b).getD (s.disk b)

def State.fill (s : State) (b : Nat) (v : Block) : State :=
  { s with cache := Function.update s.cache b (some v) }

def State.bread (s : State) (b : Nat) : State := s.fill b (s.data b)

/-- A buffer gets new data and goes to the disk. -/
def State.bwrite (s : State) (b : Nat) (v : Block) : State :=
  { s.fill b v with disk := Function.update s.disk b v }

/-- A buffer is used for another block. -/
def State.evict (s : State) (b : Nat) : State :=
  { s with cache := Function.update s.cache b none }

def State.bpin (s : State) (b : Nat) : State :=
  { s with pins := Function.update s.pins b (s.pins b + 1) }

def State.bunpin (s : State) (b : Nat) : State :=
  { s with pins := Function.update s.pins b (s.pins b - 1) }

def State.panic (s : State) (msg : String) : State := { s with panicked := some msg }

/-! ## The header -/

/-- What `write_head` makes of the header block. -/
def Block.setHead (hb : Block) (lh : List Nat) : Block := fun i =>
  if i = 0 then BitVec.ofNat 32 lh.length
  else if i.val ≤ lh.length then BitVec.ofNat 32 (lh.getD (i.val - 1) 0)
  else hb i

/-- What `read_head` finds in the header block. -/
def Block.head (hb : Block) : List Nat :=
  (List.range (hb 0).toInt.toNat).map fun i => (hb (Fin.ofNat 256 (i + 1))).toNat

def read_head (L : Layout) (s : State) : State :=
  { s.bread L.start with lh := (s.data L.start).head }

def write_head (L : Layout) (s : State) : State :=
  (s.bread L.start).bwrite L.start (Block.setHead (s.data L.start) s.lh)

/-! ## Copies between log and home -/

/-- One round of the loop of `write_log`. -/
def write_log (L : Layout) (tail : Nat) (s : State) : State :=
  let dst := L.start + tail + 1
  let b := s.lh.getD tail 0
  let s := (s.bread dst).bread b
  s.bwrite dst (s.data b)

/-- One round of the loop of `install_trans`. -/
def install_trans (L : Layout) (recovering : Bool) (tail : Nat) (s : State) : State :=
  let log := L.start + tail + 1
  let b := s.lh.getD tail 0
  let s := (s.bread log).bread b
  let s := s.bwrite b (s.data log)
  if recovering then s else s.bunpin b

/-! ## System calls -/

/-- Where a commit stands. -/
inductive CommitPc
  | start
  | writeLog (tail : Nat)
  | writeHead
  | install (tail : Nat)
  | clear
  | erase
  | done
deriving DecidableEq

/-- A process has system calls to make, each with its updates. It is between two of them, before
    update `i` of one of them, or in the commit of the one that ended last. -/
inductive Loc (L : Layout)
  | idle (ops : List (List (Update L)))
  | active (op : List (Update L)) (i : Nat) (ops : List (List (Update L)))
  | commit (pc : CommitPc) (ops : List (List (Update L)))

inductive Event (L : Layout)
  | waits
  | begins
  | updates (u : Update L)
  | ends
  /-- The header with the blocks of the transaction is on the disk. -/
  | commits
  /-- `end_op` of the process that has committed returns. -/
  | returns
  | silent
  | panics

variable {L : Layout}

def begin_op (op : List (Update L)) (ops : List (List (Update L))) (s : State) :
    Outcome State Unit (Loc L) (Event L) :=
  if s.committing then ⟨s, .wait () (.idle (op :: ops)), .none, .waits⟩
  else if s.lh.length + (s.outstanding + 1) * MAXOPBLOCKS > LOGSIZE then
    ⟨s, .wait () (.idle (op :: ops)), .none, .waits⟩
  else ⟨{ s with outstanding := s.outstanding + 1 }, .goto (.active op 0 ops), .none, .begins⟩

def log_write (L : Layout) (b : Nat) (s : State) : State :=
  if LOGSIZE ≤ s.lh.length ∨ L.size - 1 ≤ s.lh.length then s.panic "too big a transaction"
  else if s.outstanding < 1 then s.panic "log_write outside of trans"
  else if b ∈ s.lh then s
  else { s.bpin b with lh := s.lh ++ [b] }

/-- `bread`, a change to the data, `log_write` and `brelse`. The lock of the buffer keeps others
    from the block in between. -/
def update (u : Update L) (next : Loc L) (s : State) : Outcome State Unit (Loc L) (Event L) :=
  let s := log_write L u.blockno (s.fill u.blockno (u.modify (s.data u.blockno)))
  ⟨s, .goto next, .none, if s.panicked = none then .updates u else .panics⟩

def end_op (ops : List (List (Update L))) (s : State) : Outcome State Unit (Loc L) (Event L) :=
  let s := { s with outstanding := s.outstanding - 1 }
  if s.committing then ⟨s.panic "log.committing", .goto (.idle ops), .none, .panics⟩
  else if s.outstanding = 0 then
    ⟨{ s with committing := true }, .goto (.commit .start ops), .none, .ends⟩
  else ⟨s, .goto (.idle ops), .broadcast (), .ends⟩

/-- The steps of `commit`, and of `end_op` after it. -/
def commit (pc : CommitPc) (ops : List (List (Update L))) (s : State) :
    Outcome State Unit (Loc L) (Event L) :=
  match pc with
  | .start =>
      ⟨s, .goto (.commit (if 0 < s.lh.length then .writeLog 0 else .done) ops), .none, .silent⟩
  | .writeLog tail =>
      if tail < s.lh.length then
        ⟨write_log L tail s, .goto (.commit (.writeLog (tail + 1)) ops), .none, .silent⟩
      else ⟨s, .goto (.commit .writeHead ops), .none, .silent⟩
  | .writeHead => ⟨write_head L s, .goto (.commit (.install 0) ops), .none, .commits⟩
  | .install tail =>
      if tail < s.lh.length then
        ⟨install_trans L false tail s, .goto (.commit (.install (tail + 1)) ops), .none, .silent⟩
      else ⟨s, .goto (.commit .clear ops), .none, .silent⟩
  | .clear => ⟨{ s with lh := [] }, .goto (.commit .erase ops), .none, .silent⟩
  | .erase => ⟨write_head L s, .goto (.commit .done ops), .none, .silent⟩
  | .done => ⟨{ s with committing := false }, .goto (.idle ops), .broadcast (), .returns⟩

def code (L : Layout) : Program State Unit (Loc L) (Event L) where
  sections
    | .idle []          => []
    | .idle (op :: ops) => [begin_op op ops]
    | .active op i ops  =>
        match op[i]? with
        | some u => [update u (.active op (i + 1) ops)]
        | none   => [end_op ops]
    | .commit pc ops    => [commit pc ops]

/-- What a process may run. -/
theorem section_cases {l : Loc L} {f : State → Outcome State Unit (Loc L) (Event L)}
    (hf : f ∈ (code L).sections l) :
    (∃ op ops, l = .idle (op :: ops) ∧ f = begin_op op ops) ∨
    (∃ op i ops u, l = .active op i ops ∧ op[i]? = some u ∧
      f = update u (.active op (i + 1) ops)) ∨
    (∃ op i ops, l = .active op i ops ∧ f = end_op ops) ∨
    ∃ pc ops, l = .commit pc ops ∧ f = commit pc ops := by
  cases l with
  | idle ops =>
      cases ops with
      | nil => cases hf
      | cons op ops => exact .inl ⟨op, ops, rfl, List.mem_singleton.mp hf⟩
  | active op i ops =>
      simp only [code] at hf
      cases hu : op[i]? with
      | some u =>
          rw [hu] at hf
          exact .inr (.inl ⟨op, i, ops, u, rfl, hu, List.mem_singleton.mp hf⟩)
      | none =>
          rw [hu] at hf
          exact .inr (.inr (.inl ⟨op, i, ops, rfl, List.mem_singleton.mp hf⟩))
  | commit pc ops => exact .inr (.inr (.inr ⟨pc, ops, rfl, List.mem_singleton.mp hf⟩))

/-! ## Crashes -/

/-- The memory of a machine that starts with the disk `d`. -/
def fresh (d : Nat → Block) : State where
  disk := d
  cache _ := none
  pins _ := 0
  lh := []
  outstanding := 0
  committing := false
  panicked := none

/-- Where `recover_from_log` stands. -/
inductive BootPc
  | readHead
  | install (tail : Nat)
  | clear
  | erase
deriving DecidableEq

inductive Machine (T : Type) (L : Layout)
  | boot (s : State) (pc : BootPc)
  | up (k : Config T State Unit (Loc L))

variable {T : Type}

def Machine.log : Machine T L → State
  | .boot s _ => s
  | .up k     => k.shared

def Machine.setLog (s : State) : Machine T L → Machine T L
  | .boot _ pc => .boot s pc
  | .up k      => .up { k with shared := s }

inductive Label (T : Type) (L : Layout)
  | run (e : Monitor.Label T (Event L))
  | evict (b : Nat)
  | crash
  | boot

inductive Step [DecidableEq T] : Machine T L → Label T L → Machine T L → Prop
  /-- A panic holds `log.lock` for ever. -/
  | run {k k' : Config T State Unit (Loc L)} {e : Monitor.Label T (Event L)} :
      k.shared.panicked = none → Monitor.Step (code L) k e k' → Step (.up k) (.run e) (.up k')
  | evict {m : Machine T L} {b : Nat} :
      m.log.pins b = 0 → Step m (.evict b) (m.setLog (m.log.evict b))
  | crash {m : Machine T L} : Step m .crash (.boot (fresh m.log.disk) .readHead)
  -- recover_from_log
  | readHead {s : State} : Step (.boot s .readHead) .boot (.boot (read_head L s) (.install 0))
  | install {s : State} {tail : Nat} : tail < s.lh.length →
      Step (.boot s (.install tail)) .boot
        (.boot (install_trans L true tail s) (.install (tail + 1)))
  | installed {s : State} {tail : Nat} : s.lh.length ≤ tail →
      Step (.boot s (.install tail)) .boot (.boot s .clear)
  | clear {s : State} : Step (.boot s .clear) .boot (.boot { s with lh := [] } .erase)
  /-- Then the processes start, with any system calls. -/
  | erase {s : State} {calls : T → List (List (Update L))} :
      Step (.boot s .erase) .boot (.up ⟨write_head L s, fun t => .ready (.idle (calls t))⟩)

/-- The machine boots from the disk `d`. -/
def machine (T : Type) [DecidableEq T] (L : Layout) (d : Nat → Block) :
    TransitionSystem (Machine T L) (Label T L) where
  init m := m = .boot (fresh d) .readHead
  step := Step

end Log
