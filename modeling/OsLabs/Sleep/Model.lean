-- SUMMARY: The sleep and wakeup of the xv6 kernel, statement by statement: processes that share data under a spin lock, the locks of the process table, schedulers, and kill.
import OsLabs.Lib.Monitor

/-!
# `sleep()` and `wakeup()`

Kernel code that waits for something holds a spin lock `lk`, tests what it waits for, and calls
`sleep(chan, lk)`. Kernel code that brings it about holds `lk` and calls `wakeup(chan)`. The
processes here run such code: a program in the sense of `Monitor.Program` lists, for each point at
which a process acquires `lk`, what it may do until it gives `lk` up again. How it
gives it up, and how it gets it back, is the code of `kernel/proc.c`.

A process also has a lock of its own, `p->lock`. It is held by `sleep` from before `lk` is
released until the process is off its hart, and by whoever changes the state of the process.
Schedulers, `kill`, and the wakeups of other channels are the *other* code that takes it.
-/

namespace Sleep

open Monitor

variable {n : Nat} {S C L E : Type}

/-- The states of a process that is in the kernel. -/
inductive Procstate
  | sleeping
  | runnable
  | running
deriving DecidableEq

/-- Who holds a `p->lock`. -/
inductive Owner (n : Nat)
  | proc (t : Fin n)
  | other
deriving DecidableEq

/-- Where a process is. The channel in `w` is the one it has slept on before, if it comes
    from there. -/
inductive Pc (C L : Type)
  /-- At `acquire(lk)`. -/
  | enter (w : Option C) (l : L)
  /-- Holds `lk` and is about to run. -/
  | inside (w : Option C) (l : L)
  /-- In `wakeup(c)`, at the test for process `i`. -/
  | scan (i : Nat) (c : C) (next : Next C L)
  /-- In `wakeup(c)`, with the lock of process `i`. -/
  | look (i : Nat) (c : C) (next : Next C L)
  /-- In `wakeup(c)`, at the release of the lock of process `i`. -/
  | drop (i : Nat) (c : C) (next : Next C L)
  /-- At `release(lk)`, or at the call of `sleep`. -/
  | leave (next : Next C L)
  /-- In `sleep`, at `release(lk)`. -/
  | locked (c : C) (l : L)
  /-- In `sleep`, at `p->chan = chan`. -/
  | unlocked (c : C) (l : L)
  /-- In `sleep`, at `p->state = SLEEPING`. -/
  | marked (c : C) (l : L)
  /-- In `sched()`, called by `sleep`. -/
  | asleep (c : C) (l : L)
  /-- Off its hart, after `sleep`. -/
  | off (c : C) (l : L)
  /-- Back in `sleep`, at `p->chan = 0`. -/
  | resumed (c : C) (l : L)
  /-- In `sleep`, at `release(&p->lock)`. -/
  | tidied (c : C) (l : L)
  /-- In `yield`, at `p->state = RUNNABLE`. -/
  | yields (w : Option C) (l : L)
  /-- In `sched()`, called by `yield`. -/
  | yielded (w : Option C) (l : L)
  /-- Off its hart, after `yield`. -/
  | preempted (w : Option C) (l : L)
  /-- Back in `yield`, at `release(&p->lock)`. -/
  | returned (w : Option C) (l : L)
deriving DecidableEq

structure State (n : Nat) (S C L : Type) where
  /-- What `lk` protects. -/
  shared : S
  lk : Option (Fin n)
  plock : Fin n → Option (Owner n)
  state : Fin n → Procstate
  chan : Fin n → Option C
  pc : Fin n → Pc C L

def State.goto (k : State n S C L) (t : Fin n) (pc : Pc C L) : State n S C L :=
  { k with pc := Function.update k.pc t pc }

def State.setLock (k : State n S C L) (i : Fin n) (o : Option (Owner n)) : State n S C L :=
  { k with plock := Function.update k.plock i o }

def State.setState (k : State n S C L) (i : Fin n) (st : Procstate) : State n S C L :=
  { k with state := Function.update k.state i st }

def State.setChan (k : State n S C L) (i : Fin n) (c : Option C) : State n S C L :=
  { k with chan := Function.update k.chan i c }

section

variable (k : State n S C L) (t i : Fin n) (pc : Pc C L) (o : Option (Owner n)) (st : Procstate)
  (c : Option C)

@[simp] theorem goto_shared : (k.goto t pc).shared = k.shared := rfl
@[simp] theorem goto_lk : (k.goto t pc).lk = k.lk := rfl
@[simp] theorem goto_plock : (k.goto t pc).plock = k.plock := rfl
@[simp] theorem goto_state : (k.goto t pc).state = k.state := rfl
@[simp] theorem goto_chan : (k.goto t pc).chan = k.chan := rfl
@[simp] theorem goto_pc : (k.goto t pc).pc = Function.update k.pc t pc := rfl
@[simp] theorem setLock_shared : (k.setLock i o).shared = k.shared := rfl
@[simp] theorem setLock_lk : (k.setLock i o).lk = k.lk := rfl
@[simp] theorem setLock_plock : (k.setLock i o).plock = Function.update k.plock i o := rfl
@[simp] theorem setLock_state : (k.setLock i o).state = k.state := rfl
@[simp] theorem setLock_chan : (k.setLock i o).chan = k.chan := rfl
@[simp] theorem setLock_pc : (k.setLock i o).pc = k.pc := rfl
@[simp] theorem setState_shared : (k.setState i st).shared = k.shared := rfl
@[simp] theorem setState_lk : (k.setState i st).lk = k.lk := rfl
@[simp] theorem setState_plock : (k.setState i st).plock = k.plock := rfl
@[simp] theorem setState_state : (k.setState i st).state = Function.update k.state i st := rfl
@[simp] theorem setState_chan : (k.setState i st).chan = k.chan := rfl
@[simp] theorem setState_pc : (k.setState i st).pc = k.pc := rfl
@[simp] theorem setChan_shared : (k.setChan i c).shared = k.shared := rfl
@[simp] theorem setChan_lk : (k.setChan i c).lk = k.lk := rfl
@[simp] theorem setChan_plock : (k.setChan i c).plock = k.plock := rfl
@[simp] theorem setChan_state : (k.setChan i c).state = k.state := rfl
@[simp] theorem setChan_chan : (k.setChan i c).chan = Function.update k.chan i c := rfl
@[simp] theorem setChan_pc : (k.setChan i c).pc = k.pc := rfl

end

/-- How a process goes on after a section. The kernel has no signal for a single sleeper. -/
def Pc.after (o : Outcome S C L E) : Pc C L :=
  match o.wake with
  | .none        => .leave o.next
  | .signal c    => .scan 0 c o.next
  | .broadcast c => .scan 0 c o.next

/-- The body of the loop of `wakeup`, for process `i`. -/
def State.wakeup [DecidableEq C] (k : State n S C L) (i : Fin n) (c : C) : State n S C L :=
  if k.state i = .sleeping ∧ k.chan i = some c then k.setState i .runnable else k

inductive Label (n : Nat) (E : Type)
  /-- A process does what it got `lk` for. -/
  | exec (t : Fin n) (e : E)
  /-- Any other statement of a process. -/
  | run (t : Fin n)
  /-- Other code acquires or releases the lock of a process. -/
  | lock (i : Fin n)
  | unlock (i : Fin n)
  /-- A scheduler that holds the lock of process `i` switches to it. -/
  | dispatch (i : Fin n)
  /-- `kill` finds process `i` asleep. -/
  | kill (i : Fin n)
deriving DecidableEq

variable [DecidableEq C]

inductive Step (P : Program S C L E) : State n S C L → Label n E → State n S C L → Prop
  | acquire {k : State n S C L} {t : Fin n} {w : Option C} {l : L} :
      k.pc t = .enter w l → k.lk = none →
      Step P k (.run t) ({ k with lk := some t }.goto t (.inside w l))
  | exec {k : State n S C L} {t : Fin n} {w : Option C} {l : L} {f : S → Outcome S C L E} :
      k.pc t = .inside w l → f ∈ P.sections l →
      Step P k (.exec t (f k.shared).event)
        ({ k with shared := (f k.shared).shared }.goto t (.after (f k.shared)))
  -- wakeup
  | scanSelf {k : State n S C L} {t : Fin n} {c : C} {next : Next C L} :
      k.pc t = .scan t c next → Step P k (.run t) (k.goto t (.scan (t + 1) c next))
  | scanLock {k : State n S C L} {t i : Fin n} {c : C} {next : Next C L} :
      k.pc t = .scan i c next → i ≠ t → k.plock i = none →
      Step P k (.run t) ((k.setLock i (some (.proc t))).goto t (.look i c next))
  | scanLook {k : State n S C L} {t i : Fin n} {c : C} {next : Next C L} :
      k.pc t = .look i c next → Step P k (.run t) ((k.wakeup i c).goto t (.drop i c next))
  | scanDrop {k : State n S C L} {t i : Fin n} {c : C} {next : Next C L} :
      k.pc t = .drop i c next →
      Step P k (.run t) ((k.setLock i none).goto t (.scan (i + 1) c next))
  | scanEnd {k : State n S C L} {t : Fin n} {i : Nat} {c : C} {next : Next C L} :
      k.pc t = .scan i c next → n ≤ i → Step P k (.run t) (k.goto t (.leave next))
  -- release(lk)
  | release {k : State n S C L} {t : Fin n} {l : L} :
      k.pc t = .leave (.goto l) → Step P k (.run t) ({ k with lk := none }.goto t (.enter none l))
  -- sleep
  | sleepLock {k : State n S C L} {t : Fin n} {c : C} {l : L} :
      k.pc t = .leave (.wait c l) → k.plock t = none →
      Step P k (.run t) ((k.setLock t (some (.proc t))).goto t (.locked c l))
  | sleepRelease {k : State n S C L} {t : Fin n} {c : C} {l : L} :
      k.pc t = .locked c l → Step P k (.run t) ({ k with lk := none }.goto t (.unlocked c l))
  | sleepChan {k : State n S C L} {t : Fin n} {c : C} {l : L} :
      k.pc t = .unlocked c l → Step P k (.run t) ((k.setChan t (some c)).goto t (.marked c l))
  | sleepState {k : State n S C L} {t : Fin n} {c : C} {l : L} :
      k.pc t = .marked c l → Step P k (.run t) ((k.setState t .sleeping).goto t (.asleep c l))
  | sleepSwtch {k : State n S C L} {t : Fin n} {c : C} {l : L} :
      k.pc t = .asleep c l → Step P k (.run t) ((k.setLock t none).goto t (.off c l))
  | sleepTidy {k : State n S C L} {t : Fin n} {c : C} {l : L} :
      k.pc t = .resumed c l → Step P k (.run t) ((k.setChan t none).goto t (.tidied c l))
  | sleepUnlock {k : State n S C L} {t : Fin n} {c : C} {l : L} :
      k.pc t = .tidied c l →
      Step P k (.run t) ((k.setLock t none).goto t (.enter (some c) l))
  -- yield, from a timer interrupt: none comes while a spin lock is held
  | yieldLock {k : State n S C L} {t : Fin n} {w : Option C} {l : L} :
      k.pc t = .enter w l → k.plock t = none →
      Step P k (.run t) ((k.setLock t (some (.proc t))).goto t (.yields w l))
  | yieldState {k : State n S C L} {t : Fin n} {w : Option C} {l : L} :
      k.pc t = .yields w l →
      Step P k (.run t) ((k.setState t .runnable).goto t (.yielded w l))
  | yieldSwtch {k : State n S C L} {t : Fin n} {w : Option C} {l : L} :
      k.pc t = .yielded w l → Step P k (.run t) ((k.setLock t none).goto t (.preempted w l))
  | yieldUnlock {k : State n S C L} {t : Fin n} {w : Option C} {l : L} :
      k.pc t = .returned w l → Step P k (.run t) ((k.setLock t none).goto t (.enter w l))
  -- other code
  | lock {k : State n S C L} {i : Fin n} :
      k.plock i = none → Step P k (.lock i) (k.setLock i (some .other))
  | unlock {k : State n S C L} {i : Fin n} :
      k.plock i = some .other → Step P k (.unlock i) (k.setLock i none)
  | kill {k : State n S C L} {i : Fin n} :
      k.plock i = some .other → k.state i = .sleeping →
      Step P k (.kill i) (k.setState i .runnable)
  -- a scheduler hands the lock over with the hart
  | dispatch {k : State n S C L} {i : Fin n} {c : C} {l : L} :
      k.plock i = some .other → k.state i = .runnable → k.pc i = .off c l →
      Step P k (.dispatch i)
        (((k.setLock i (some (.proc i))).setState i .running).goto i (.resumed c l))
  | redispatch {k : State n S C L} {i : Fin n} {w : Option C} {l : L} :
      k.plock i = some .other → k.state i = .runnable → k.pc i = .preempted w l →
      Step P k (.dispatch i)
        (((k.setLock i (some (.proc i))).setState i .running).goto i (.returned w l))

/-- All processes are about to acquire `lk`, each at a point of its own. -/
def system (P : Program S C L E) (s₀ : S) (start : Fin n → L) :
    TransitionSystem (State n S C L) (Label n E) where
  init k := k = ⟨s₀, none, fun _ => none, fun _ => .running, fun _ => none,
    fun t => .enter none (start t)⟩
  step := Step P

end Sleep
