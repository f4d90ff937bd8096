-- SUMMARY: The two barber shop programs, with condition variables and with zemaphores.
import Mathlib.Data.Fintype.BigOperators
import OsLabs.Zemaphore.Model

/-!
# The barber shop

`barbershop_pthread.c` and `barbershop_zemaphore.c`: one barber and `customer_count`
customers, each of whom comes once and leaves if no chair is free. When the barber is done
with a customer, it tests without a lock whether it may go home, and reads two variables to
find out. These are two steps.

With condition variables, a read that falls into a critical section of a customer sees the
value before or after it. A customer writes `waiting` first and `customer_coming` second, and
the barber reads them in the opposite order, so two reads never see the second write without
the first, and sections are still one step. With zemaphores, the two writes are steps of
their own.
-/

namespace Barber

open Monitor

/-- The command line. Both numbers are `int`s, which matters for the counters of zemaphores. -/
structure Args where
  chairCount : Int
  customerCount : Nat
  isInt : customerCount < 2 ^ 31

/-- `none` is the barber. -/
abbrev Thread (A : Args) := Option (Fin A.customerCount)

/-- One chair, one customer. -/
def smallShop : Args := ⟨1, 1, by decide⟩

def onlyCustomer : Thread smallShop := some ⟨0, by decide⟩

/-- No chair, one customer. -/
def standingShop : Args := ⟨0, 1, by decide⟩

def standingCustomer : Thread standingShop := some ⟨0, by decide⟩

/-! ## Condition variables -/

namespace Pthread

structure Shared where
  waiting : Int
  customerComing : Int
deriving DecidableEq

inductive Cond
  | customerReady
  | barberReady
deriving DecidableEq

/-- The barber is before `pthread_mutex_lock`, after `pthread_cond_wait`, before the read of
    `customer_coming` or of `waiting` in its exit test, or has returned. A customer has not
    come yet, is after `pthread_cond_wait`, or has returned. -/
inductive Pc
  | lock
  | wait
  | readComing
  | readWaiting
  | home
  | arrive
  | seated
  | gone
deriving DecidableEq

inductive Event
  | waits
  | serves
  | tested
  | leaves
  | sits
  | haircut
deriving DecidableEq

abbrev Section := Shared → Outcome Shared Cond Pc Event

/-- The body of `barber_thread`, from the test of the inner loop to `pthread_mutex_unlock`. -/
def barberServe : Section := fun s =>
  if s.waiting = 0 ∧ s.customerComing > 0 then
    { shared := s, next := .wait .customerReady .wait, wake := .none, event := .waits }
  else
    { shared := { s with waiting := s.waiting - 1 }, next := .goto .readComing
      wake := .signal .barberReady, event := .serves }

/-- The first half of the exit test. -/
def barberReadComing : Section := fun s =>
  { shared := s, next := if s.customerComing ≤ 0 then .goto .readWaiting else .goto .lock
    wake := .none, event := .tested }

/-- The second half of the exit test. -/
def barberReadWaiting : Section := fun s =>
  { shared := s, next := if s.waiting = 0 then .goto .home else .goto .lock
    wake := .none, event := .tested }

/-- `customer_thread` up to its end or its wait. -/
def customerArrive (A : Args) : Section := fun s =>
  if s.waiting = A.chairCount then
    { shared := { s with customerComing := s.customerComing - 1 }, next := .goto .gone
      wake := .none, event := .leaves }
  else
    { shared := { waiting := s.waiting + 1, customerComing := s.customerComing - 1 }
      next := .wait .barberReady .seated, wake := .signal .customerReady, event := .sits }

/-- `customer_thread` from the return of `pthread_cond_wait` on. There is no loop around it. -/
def customerHaircut : Section := fun s =>
  { shared := s, next := .goto .gone, wake := .none, event := .haircut }

def program (A : Args) : Program Shared Cond Pc Event where
  sections
    | .lock        => [barberServe]
    | .wait        => [barberServe]
    | .readComing  => [barberReadComing]
    | .readWaiting => [barberReadWaiting]
    | .home        => []
    | .arrive      => [customerArrive A]
    | .seated      => [customerHaircut]
    | .gone        => []

def startAt {A : Args} : Thread A → Pc
  | none   => .lock
  | some _ => .arrive

abbrev State (A : Args) := Config (Thread A) Shared Cond Pc

abbrev Trace (A : Args) := List (State A × Label (Thread A) Event)

def shop (A : Args) : TransitionSystem (State A) (Label (Thread A) Event) :=
  systemOf (program A) ⟨0, A.customerCount⟩ startAt

/-- How often the steps of a run have done `ev`. -/
def count {A : Args} (ev : Event) (tr : Trace A) : Nat :=
  tr.countP fun q =>
    match q.2 with
    | .exec _ e   => e = ev
    | .spurious _ => false

/-- "Barber serving a customer now!" -/
def served {A : Args} (tr : Trace A) : Nat := count .serves tr

/-- Customers that have taken a chair. -/
def seated {A : Args} (tr : Trace A) : Nat := count .sits tr

/-- "got haircut" -/
def haircuts {A : Args} (tr : Trace A) : Nat := count .haircut tr

end Pthread

/-! ## Zemaphores -/

namespace Zem

open Zemaphore

inductive Sema
  | mutex
  | barberZ
  | customerZ
deriving DecidableEq

structure Data where
  waiting : Int
  customerPresent : Int
deriving DecidableEq

/-- The statements of `barber_thread`, then those of `customer_thread`. -/
inductive Pc
  | lock
  | test
  | release
  | sleep
  | take
  | raise
  | serve
  | unlock
  | readPresent
  | readWaiting
  | home
  | arrive
  | choose
  | leave
  | leaveUnlock
  | sit
  | sitPresent
  | sitRaise
  | sitUnlock
  | seated
  | gone
deriving DecidableEq

inductive Note
  | serves
  | sits
  | other
deriving DecidableEq

def code (A : Args) : Pc → List (Stmt Sema Data Pc Note)
  | .lock        => [.down .mutex .lock .test]
  -- `while (waiting == 0 && customer_present > 0)`
  | .test        => [.run fun d =>
      (d, if d.waiting = 0 ∧ d.customerPresent > 0 then .release else .take, .other)]
  | .release     => [.up .mutex .sleep]
  | .sleep       => [.down .customerZ .sleep .lock]
  | .take        => [.run fun d => ({ d with waiting := d.waiting - 1 }, .raise, .other)]
  | .raise       => [.up .barberZ .serve]
  | .serve       => [.run fun d => (d, .unlock, .serves)]
  | .unlock      => [.up .mutex .readPresent]
  | .readPresent => [.run fun d =>
      (d, if d.customerPresent ≤ 0 then .readWaiting else .lock, .other)]
  | .readWaiting => [.run fun d => (d, if d.waiting = 0 then .home else .lock, .other)]
  | .home        => []
  | .arrive      => [.down .mutex .arrive .choose]
  | .choose      => [.run fun d => (d, if d.waiting = A.chairCount then .leave else .sit, .other)]
  | .leave       => [.run fun d =>
      ({ d with customerPresent := d.customerPresent - 1 }, .leaveUnlock, .other)]
  | .leaveUnlock => [.up .mutex .gone]
  | .sit         => [.run fun d => ({ d with waiting := d.waiting + 1 }, .sitPresent, .sits)]
  | .sitPresent  => [.run fun d =>
      ({ d with customerPresent := d.customerPresent - 1 }, .sitRaise, .other)]
  | .sitRaise    => [.up .customerZ .sitUnlock]
  | .sitUnlock   => [.up .mutex .seated]
  | .seated      => [.down .barberZ .seated .gone]
  | .gone        => []

def startAt {A : Args} : Thread A → Pc
  | none   => .lock
  | some _ => .arrive

/-- After the three calls of `zem_init`. -/
def startValue : Sema → Int
  | .mutex     => 1
  | .barberZ   => 0
  | .customerZ => 0

abbrev State (A : Args) := Config (Thread A) (Shared Sema Data) Sema Pc

abbrev Trace (A : Args) := List (State A × Label (Thread A) (Event Sema Note))

def shop (A : Args) : TransitionSystem (State A) (Label (Thread A) (Event Sema Note)) :=
  systemOf (program (code A)) ⟨startValue, ⟨0, A.customerCount⟩⟩ startAt

/-- How often the steps of a run have done what `note` says. -/
def count {A : Args} (note : Note) (tr : Trace A) : Nat :=
  tr.countP fun q =>
    match q.2 with
    | .exec _ (.run e) => e = note
    | _                => false

def served {A : Args} (tr : Trace A) : Nat := count .serves tr

def seated {A : Args} (tr : Trace A) : Nat := count .sits tr

end Zem

end Barber
