-- SUMMARY: The two pthread read-write locks as monitor programs, and what one step of either can do.
import OsLabs.Lib.Monitor

/-!
# Read-write locks

`rwlock-reader-pref.cpp` and `rwlock-writer-pref.cpp` implement the same interface
over the same four counters. They differ in the test of the loop in `ReaderLock` and
in whom the two unlock functions wake; `WriterLock` is the same text in both. A
`Policy` is that difference, and the four functions are written once over it.
-/

namespace Rwlock

open Monitor

/-- The counters of `struct read_write_lock`. They are `int`s in the source. Each of them counts
    threads, so that none can wrap (`counters_fit`). -/
structure RwLock where
  readers : Int
  writers : Int
  waitingReaders : Int
  waitingWriters : Int
deriving DecidableEq

/-- The lock objects are static, and `InitalizeReadWriteLock` does not touch the
    counters. -/
def RwLock.zero : RwLock := ⟨0, 0, 0, 0⟩

inductive Cond
  | read
  | write
deriving DecidableEq

/-- Where a thread is between two critical sections: outside the lock, at the point
    after `pthread_cond_wait` in `ReaderLock` or `WriterLock`, or holding the lock. -/
inductive Pc
  | idle
  | rdWait
  | rdHeld
  | wrWait
  | wrHeld
deriving DecidableEq

/-- What a section did. `rdLocked` and `wrLocked` are the sections at whose end
    `ReaderLock` and `WriterLock` return. -/
inductive Event
  | rdWaits
  | rdLocked
  | rdUnlocked
  | wrWaits
  | wrLocked
  | wrUnlocked
deriving DecidableEq

structure Policy where
  /-- The loop test of `ReaderLock`. -/
  readerBlocked : RwLock → Bool
  /-- Whom `ReaderUnlock` wakes, after `readers--`. -/
  readerUnlockWake : RwLock → Wake Cond
  /-- Whom `WriterUnlock` wakes, after `writers--`. -/
  writerUnlockWake : RwLock → Wake Cond

/-- `rwlock-reader-pref.cpp`. -/
def readerPref : Policy where
  readerBlocked rw := rw.writers > 0
  readerUnlockWake rw := if rw.readers = 0 then .signal .write else .none
  writerUnlockWake rw :=
    if rw.waitingReaders > 0 then .broadcast .read
    else if rw.waitingWriters > 0 then .signal .write
    else .none

/-- `rwlock-writer-pref.cpp`. -/
def writerPref : Policy where
  readerBlocked rw := rw.writers > 0 || rw.waitingWriters > 0
  readerUnlockWake rw :=
    if rw.readers = 0 ∧ rw.waitingWriters > 0 then .signal .write
    else if rw.waitingReaders > 0 then .broadcast .read
    else .none
  writerUnlockWake rw :=
    if rw.waitingWriters > 0 then .signal .write
    else if rw.waitingReaders > 0 then .broadcast .read
    else .none

/-! ## The four functions -/

abbrev Section := RwLock → Outcome RwLock Cond Pc Event

/-- `ReaderLock` from the loop test on. -/
def readerLock (P : Policy) : Section := fun rw =>
  if P.readerBlocked rw then
    { shared := { rw with waitingReaders := rw.waitingReaders + 1 }
      next := .wait .read .rdWait, wake := .none, event := .rdWaits }
  else
    { shared := { rw with readers := rw.readers + 1 }
      next := .goto .rdHeld, wake := .none, event := .rdLocked }

/-- `ReaderLock` from the return of `pthread_cond_wait` on. -/
def readerResume (P : Policy) : Section := fun rw =>
  readerLock P { rw with waitingReaders := rw.waitingReaders - 1 }

def readerUnlock (P : Policy) : Section := fun rw =>
  let rw' := { rw with readers := rw.readers - 1 }
  { shared := rw', next := .goto .idle, wake := P.readerUnlockWake rw', event := .rdUnlocked }

/-- The loop test of `WriterLock`. -/
def writerBlocked (rw : RwLock) : Bool := rw.readers > 0 || rw.writers > 0

/-- `WriterLock` from the loop test on. -/
def writerLock : Section := fun rw =>
  if writerBlocked rw then
    { shared := { rw with waitingWriters := rw.waitingWriters + 1 }
      next := .wait .write .wrWait, wake := .none, event := .wrWaits }
  else
    { shared := { rw with writers := rw.writers + 1 }
      next := .goto .wrHeld, wake := .none, event := .wrLocked }

/-- `WriterLock` from the return of `pthread_cond_wait` on. -/
def writerResume : Section := fun rw =>
  writerLock { rw with waitingWriters := rw.waitingWriters - 1 }

def writerUnlock (P : Policy) : Section := fun rw =>
  let rw' := { rw with writers := rw.writers - 1 }
  { shared := rw', next := .goto .idle, wake := P.writerUnlockWake rw', event := .wrUnlocked }

/-- Threads that lock and unlock in matched pairs, as readers or as writers. -/
def program (P : Policy) : Program RwLock Cond Pc Event where
  sections
    | .idle   => [readerLock P, writerLock]
    | .rdWait => [readerResume P]
    | .rdHeld => [readerUnlock P]
    | .wrWait => [writerResume]
    | .wrHeld => [writerUnlock P]

/-- Any number of threads over one zeroed lock. -/
def lock (T : Type) [DecidableEq T] (P : Policy) :
    TransitionSystem (Config T RwLock Cond Pc) (Label T Event) :=
  Monitor.system T (program P) RwLock.zero .idle

/-! ## What one step can do -/

/-- `Move P old rw new rw' w e`: a thread in mode `old` that gets the mutex with the
    counters at `rw` leaves them at `rw'`, performs the wakeup `w` and ends in mode
    `new`. -/
inductive Move (P : Policy) :
    Mode Cond Pc → RwLock → Mode Cond Pc → RwLock → Wake Cond → Event → Prop
  | rdWait {rw : RwLock} : P.readerBlocked rw = true →
      Move P (.ready .idle) rw (.asleep .read .rdWait)
        { rw with waitingReaders := rw.waitingReaders + 1 } .none .rdWaits
  | rdLock {rw : RwLock} : P.readerBlocked rw = false →
      Move P (.ready .idle) rw (.ready .rdHeld)
        { rw with readers := rw.readers + 1 } .none .rdLocked
  | rdRewait {rw : RwLock} :
      P.readerBlocked { rw with waitingReaders := rw.waitingReaders - 1 } = true →
      Move P (.woken .read .rdWait) rw (.asleep .read .rdWait) rw .none .rdWaits
  | rdRelock {rw : RwLock} :
      P.readerBlocked { rw with waitingReaders := rw.waitingReaders - 1 } = false →
      Move P (.woken .read .rdWait) rw (.ready .rdHeld)
        { rw with waitingReaders := rw.waitingReaders - 1, readers := rw.readers + 1 }
        .none .rdLocked
  | rdUnlock {rw : RwLock} :
      Move P (.ready .rdHeld) rw (.ready .idle) { rw with readers := rw.readers - 1 }
        (P.readerUnlockWake { rw with readers := rw.readers - 1 }) .rdUnlocked
  | wrWait {rw : RwLock} : 0 < rw.readers ∨ 0 < rw.writers →
      Move P (.ready .idle) rw (.asleep .write .wrWait)
        { rw with waitingWriters := rw.waitingWriters + 1 } .none .wrWaits
  | wrLock {rw : RwLock} : rw.readers ≤ 0 → rw.writers ≤ 0 →
      Move P (.ready .idle) rw (.ready .wrHeld)
        { rw with writers := rw.writers + 1 } .none .wrLocked
  | wrRewait {rw : RwLock} : 0 < rw.readers ∨ 0 < rw.writers →
      Move P (.woken .write .wrWait) rw (.asleep .write .wrWait) rw .none .wrWaits
  | wrRelock {rw : RwLock} : rw.readers ≤ 0 → rw.writers ≤ 0 →
      Move P (.woken .write .wrWait) rw (.ready .wrHeld)
        { rw with waitingWriters := rw.waitingWriters - 1, writers := rw.writers + 1 }
        .none .wrLocked
  | wrUnlock {rw : RwLock} :
      Move P (.ready .wrHeld) rw (.ready .idle) { rw with writers := rw.writers - 1 }
        (P.writerUnlockWake { rw with writers := rw.writers - 1 }) .wrUnlocked

/-- Threads wait only inside `ReaderLock` on `read` and inside `WriterLock` on
    `write`; elsewhere they are outside or hold the lock. -/
def ModeOk : Mode Cond Pc → Prop
  | .ready l    => l = .idle ∨ l = .rdHeld ∨ l = .wrHeld
  | .asleep c l => (c = .read ∧ l = .rdWait) ∨ (c = .write ∧ l = .wrWait)
  | .woken c l  => (c = .read ∧ l = .rdWait) ∨ (c = .write ∧ l = .wrWait)

variable {P : Policy}

theorem readerLock_move {rw : RwLock} :
    Move P (.ready .idle) rw (readerLock P rw).next.mode (readerLock P rw).shared
      (readerLock P rw).wake (readerLock P rw).event := by
  cases hb : P.readerBlocked rw with
  | true => simpa [readerLock, hb, Next.mode] using Move.rdWait hb
  | false => simpa [readerLock, hb, Next.mode] using Move.rdLock hb

theorem readerResume_move {rw : RwLock} :
    Move P (.woken .read .rdWait) rw (readerResume P rw).next.mode (readerResume P rw).shared
      (readerResume P rw).wake (readerResume P rw).event := by
  cases hb : P.readerBlocked { rw with waitingReaders := rw.waitingReaders - 1 } with
  | true => simpa [readerResume, readerLock, hb, Next.mode] using Move.rdRewait hb
  | false => simpa [readerResume, readerLock, hb, Next.mode] using Move.rdRelock hb

theorem writerLock_move {rw : RwLock} :
    Move P (.ready .idle) rw (writerLock rw).next.mode (writerLock rw).shared
      (writerLock rw).wake (writerLock rw).event := by
  by_cases hb : 0 < rw.readers ∨ 0 < rw.writers
  · simpa [writerLock, writerBlocked, hb, Next.mode] using Move.wrWait hb
  · have hb' := not_or.mp hb
    simpa [writerLock, writerBlocked, hb, Next.mode] using
      Move.wrLock (P := P) (by omega) (by omega)

theorem writerResume_move {rw : RwLock} :
    Move P (.woken .write .wrWait) rw (writerResume rw).next.mode (writerResume rw).shared
      (writerResume rw).wake (writerResume rw).event := by
  by_cases hb : 0 < rw.readers ∨ 0 < rw.writers
  · simpa [writerResume, writerLock, writerBlocked, hb, Next.mode] using Move.wrRewait hb
  · have hb' := not_or.mp hb
    simpa [writerResume, writerLock, writerBlocked, hb, Next.mode] using
      Move.wrRelock (P := P) (by omega) (by omega)

theorem Move.modeOk {old new : Mode Cond Pc} {rw rw' : RwLock} {w : Wake Cond} {e : Event}
    (h : Move P old rw new rw' w e) : ModeOk new := by
  cases h <;> simp [ModeOk]

variable {T : Type} [DecidableEq T]

/-- A step is a spurious wakeup, or a `Move` of one thread followed by its wakeup. -/
theorem step_cases {k k' : Config T RwLock Cond Pc} {e : Label T Event}
    (hok : ∀ t, ModeOk (k.mode t)) (h : (lock T P).step k e k') :
    (∃ t c l, e = .spurious t ∧ k.mode t = .asleep c l ∧
      k' = ⟨k.shared, Function.update k.mode t (.woken c l)⟩) ∨
    (∃ t x ev w new rw' m, e = .exec t ev ∧ (k.mode t).pc? = some x ∧
      Move P (k.mode t) k.shared new rw' w ev ∧ Wakes w k.mode m ∧
      k' = ⟨rw', Function.update m t new⟩) := by
  cases h with
  | @spurious t c l ht => exact .inl ⟨t, c, l, rfl, ht, rfl⟩
  | @exec t l f m hpc hf hw =>
      have hmove : Move P (k.mode t) k.shared (f k.shared).next.mode (f k.shared).shared
          (f k.shared).wake (f k.shared).event := by
        have hmt := hok t
        cases hm : k.mode t with
        | asleep c l' => simp [hm, Mode.pc?] at hpc
        | ready l' =>
            obtain rfl : l' = l := by simpa [hm, Mode.pc?] using hpc
            rw [hm] at hmt
            rcases hmt with rfl | rfl | rfl
            · rcases List.mem_pair.mp hf with rfl | rfl
              · exact readerLock_move
              · exact writerLock_move
            · obtain rfl := List.mem_singleton.mp hf
              exact Move.rdUnlock
            · obtain rfl := List.mem_singleton.mp hf
              exact Move.wrUnlock
        | woken c l' =>
            obtain rfl : l' = l := by simpa [hm, Mode.pc?] using hpc
            rw [hm] at hmt
            rcases hmt with ⟨rfl, rfl⟩ | ⟨rfl, rfl⟩
            · obtain rfl := List.mem_singleton.mp hf
              exact readerResume_move
            · obtain rfl := List.mem_singleton.mp hf
              exact writerResume_move
      exact .inr ⟨t, l, _, _, _, _, m, rfl, hpc, hmove, hw, rfl⟩

end Rwlock
