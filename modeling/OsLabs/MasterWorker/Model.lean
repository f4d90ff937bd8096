-- SUMMARY: The master-worker program: two loops over one bounded buffer, with their unlocked tests as steps of their own.
import Mathlib.Logic.Function.Basic
import OsLabs.Lib.Monitor

/-!
# Masters and workers

`master-worker.c`: masters put the numbers below `total_items` into a buffer, workers
take them out. Both loops test their counter before they lock the mutex. Such a test reads
one variable, which a critical section writes at most once, so a test that falls into a
section sees the value before or after it and is a step of its own between sections.
-/

namespace MasterWorker

open Monitor

/-- The command line. -/
structure Args where
  totalItems : Int
  maxBufSize : Int

/-- The globals that change. -/
structure Shared where
  itemToProduce : Int
  itemToConsume : Int
  currBufSize : Int
  buffer : Int → Int

inductive Cond
  | fill
  | empty
deriving DecidableEq

inductive Role
  | master
  | worker
deriving DecidableEq

/-- Where a thread is: before the test of its loop, before `pthread_mutex_lock`, after
    `pthread_cond_wait`, or returned. -/
inductive Pc
  | test (r : Role)
  | lock (r : Role)
  | wait (r : Role)
  | done (r : Role)
deriving DecidableEq

/-- What a step did. `produced` and `consumed` carry the index of the buffer access and
    the number that is printed. -/
inductive Event
  | tested
  | waits
  | quits
  | produced (i num : Int)
  | consumed (i num : Int)
deriving DecidableEq

abbrev Section := Shared → Outcome Shared Cond Pc Event

/-- The test of the loop of `generate_requests_loop`. -/
def generateTest (A : Args) : Section := fun s =>
  { shared := s
    next := if s.itemToProduce < A.totalItems then .goto (.lock .master) else .goto (.done .master)
    wake := .none, event := .tested }

/-- The body of `generate_requests_loop`, from the test for a full buffer on. -/
def generateRequests (A : Args) : Section := fun s =>
  if s.currBufSize ≥ A.maxBufSize ∧ s.itemToProduce < A.totalItems then
    { shared := s, next := .wait .empty (.wait .master), wake := .none, event := .waits }
  else if s.itemToProduce = A.totalItems then
    { shared := s, next := .goto (.done .master), wake := .none, event := .quits }
  else
    { shared :=
        { s with
          buffer := Function.update s.buffer s.currBufSize s.itemToProduce
          currBufSize := s.currBufSize + 1
          itemToProduce := s.itemToProduce + 1 }
      next := .goto (.test .master), wake := .broadcast .fill
      event := .produced s.currBufSize s.itemToProduce }

/-- The test of the loop of `consume_requests_loop`. -/
def consumeTest (A : Args) : Section := fun s =>
  { shared := s
    next := if s.itemToConsume < A.totalItems then .goto (.lock .worker) else .goto (.done .worker)
    wake := .none, event := .tested }

/-- The body of `consume_requests_loop`, from the test for an empty buffer on. -/
def consumeRequests (A : Args) : Section := fun s =>
  if s.currBufSize = 0 ∧ s.itemToConsume < A.totalItems then
    { shared := s, next := .wait .fill (.wait .worker), wake := .none, event := .waits }
  else if s.itemToConsume = A.totalItems then
    { shared := s, next := .goto (.done .worker), wake := .none, event := .quits }
  else
    { shared :=
        { s with
          currBufSize := s.currBufSize - 1
          itemToConsume := s.itemToConsume + 1 }
      next := .goto (.test .worker), wake := .broadcast .empty
      event := .consumed (s.currBufSize - 1) (s.buffer (s.currBufSize - 1)) }

def program (A : Args) : Program Shared Cond Pc Event where
  sections
    | .test .master => [generateTest A]
    | .lock .master => [generateRequests A]
    | .wait .master => [generateRequests A]
    | .test .worker => [consumeTest A]
    | .lock .worker => [consumeRequests A]
    | .wait .worker => [consumeRequests A]
    | .done _       => []

/-- The counters are zero, and `malloc` leaves anything in the buffer. -/
def Shared.start (buffer : Int → Int) : Shared := ⟨0, 0, 0, buffer⟩

variable {T : Type} [DecidableEq T]

/-- Threads with the given roles. -/
def system (A : Args) (buffer : Int → Int) (role : T → Role) :
    TransitionSystem (Config T Shared Cond Pc) (Label T Event) :=
  systemOf (program A) (.start buffer) fun t => .test (role t)

/-! ## What one step can do -/

/-- `Move A r s n s' w e`: a step of a thread with role `r` that finds `s`, leaves `s'`,
    performs the wakeup `w` and goes on at `n`. -/
inductive Move (A : Args) :
    Role → Shared → Next Cond Pc → Shared → Wake Cond → Event → Prop
  | produceMore {s : Shared} : s.itemToProduce < A.totalItems →
      Move A .master s (.goto (.lock .master)) s .none .tested
  | produceNoMore {s : Shared} : A.totalItems ≤ s.itemToProduce →
      Move A .master s (.goto (.done .master)) s .none .tested
  | full {s : Shared} : A.maxBufSize ≤ s.currBufSize → s.itemToProduce < A.totalItems →
      Move A .master s (.wait .empty (.wait .master)) s .none .waits
  | allProduced {s : Shared} : s.itemToProduce = A.totalItems →
      Move A .master s (.goto (.done .master)) s .none .quits
  | produce {s : Shared} : s.itemToProduce ≠ A.totalItems →
      (s.itemToProduce < A.totalItems → s.currBufSize < A.maxBufSize) →
      Move A .master s (.goto (.test .master))
        { s with
          buffer := Function.update s.buffer s.currBufSize s.itemToProduce
          currBufSize := s.currBufSize + 1
          itemToProduce := s.itemToProduce + 1 }
        (.broadcast .fill) (.produced s.currBufSize s.itemToProduce)
  | consumeMore {s : Shared} : s.itemToConsume < A.totalItems →
      Move A .worker s (.goto (.lock .worker)) s .none .tested
  | consumeNoMore {s : Shared} : A.totalItems ≤ s.itemToConsume →
      Move A .worker s (.goto (.done .worker)) s .none .tested
  | empty {s : Shared} : s.currBufSize = 0 → s.itemToConsume < A.totalItems →
      Move A .worker s (.wait .fill (.wait .worker)) s .none .waits
  | allConsumed {s : Shared} : s.itemToConsume = A.totalItems →
      Move A .worker s (.goto (.done .worker)) s .none .quits
  | consume {s : Shared} : s.itemToConsume ≠ A.totalItems →
      (s.itemToConsume < A.totalItems → s.currBufSize ≠ 0) →
      Move A .worker s (.goto (.test .worker))
        { s with
          currBufSize := s.currBufSize - 1
          itemToConsume := s.itemToConsume + 1 }
        (.broadcast .empty) (.consumed (s.currBufSize - 1) (s.buffer (s.currBufSize - 1)))

def Pc.role : Pc → Role
  | .test r => r
  | .lock r => r
  | .wait r => r
  | .done r => r

variable {A : Args}

theorem generateTest_move (s : Shared) :
    Move A .master s (generateTest A s).next (generateTest A s).shared
      (generateTest A s).wake (generateTest A s).event := by
  by_cases h : s.itemToProduce < A.totalItems
  · simpa [generateTest, h] using Move.produceMore h
  · simpa [generateTest, h] using Move.produceNoMore (Int.not_lt.mp h)

theorem generateRequests_move (s : Shared) :
    Move A .master s (generateRequests A s).next (generateRequests A s).shared
      (generateRequests A s).wake (generateRequests A s).event := by
  unfold generateRequests
  split
  · rename_i hfull
    exact .full hfull.1 hfull.2
  · rename_i hfull
    split
    · rename_i hall
      exact .allProduced hall
    · rename_i hall
      exact .produce hall fun hlt => Int.not_le.mp fun hge => hfull ⟨hge, hlt⟩

theorem consumeTest_move (s : Shared) :
    Move A .worker s (consumeTest A s).next (consumeTest A s).shared
      (consumeTest A s).wake (consumeTest A s).event := by
  by_cases h : s.itemToConsume < A.totalItems
  · simpa [consumeTest, h] using Move.consumeMore h
  · simpa [consumeTest, h] using Move.consumeNoMore (Int.not_lt.mp h)

theorem consumeRequests_move (s : Shared) :
    Move A .worker s (consumeRequests A s).next (consumeRequests A s).shared
      (consumeRequests A s).wake (consumeRequests A s).event := by
  unfold consumeRequests
  split
  · rename_i hempty
    exact .empty hempty.1 hempty.2
  · rename_i hempty
    split
    · rename_i hall
      exact .allConsumed hall
    · rename_i hall
      exact .consume hall fun hlt hz => hempty ⟨hz, hlt⟩

/-- A thread only does what its role allows. -/
theorem section_move {l : Pc} {f : Section} (hf : f ∈ (program A).sections l) (s : Shared) :
    Move A l.role s (f s).next (f s).shared (f s).wake (f s).event := by
  cases l with
  | test r =>
      cases r with
      | master =>
          obtain rfl := List.mem_singleton.mp hf
          exact generateTest_move s
      | worker =>
          obtain rfl := List.mem_singleton.mp hf
          exact consumeTest_move s
  | lock r =>
      cases r with
      | master =>
          obtain rfl := List.mem_singleton.mp hf
          exact generateRequests_move s
      | worker =>
          obtain rfl := List.mem_singleton.mp hf
          exact consumeRequests_move s
  | wait r =>
      cases r with
      | master =>
          obtain rfl := List.mem_singleton.mp hf
          exact generateRequests_move s
      | worker =>
          obtain rfl := List.mem_singleton.mp hf
          exact consumeRequests_move s
  | done r => cases hf

theorem Move.role {r : Role} {s s' : Shared} {n : Next Cond Pc} {w : Wake Cond} {e : Event}
    (h : Move A r s n s' w e) : n.mode.loc.role = r := by
  cases h <;> rfl

/-- A step is a spurious wakeup, or a `Move` of one thread followed by its wakeup. -/
theorem step_cases {buffer : Int → Int} {role : T → Role} {k k' : Config T Shared Cond Pc}
    {e : Label T Event} (h : (system A buffer role).step k e k') :
    (∃ t c l, e = .spurious t ∧ k.mode t = .asleep c l ∧
      k' = ⟨k.shared, Function.update k.mode t (.woken c l)⟩) ∨
    (∃ t ev w n s' m, e = .exec t ev ∧
      Move A (k.mode t).loc.role k.shared n s' w ev ∧ Wakes w k.mode m ∧
      k' = ⟨s', Function.update m t n.mode⟩) := by
  cases h with
  | @spurious t c l ht => exact .inl ⟨t, c, l, rfl, ht, rfl⟩
  | @exec t l f m hpc hf hw =>
      refine .inr ⟨t, _, _, _, _, m, rfl, ?_, hw, rfl⟩
      rw [Mode.loc_of_pc hpc]
      exact section_move hf k.shared

end MasterWorker
