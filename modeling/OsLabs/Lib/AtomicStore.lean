-- SUMMARY: A store with transactions: changes are seen at once, become durable all together when nobody is in the middle of something, and are undone by a crash otherwise.
import OsLabs.Lib.Transition

/-!
# Atomic stores

What a client of a journal may rely on. The store has a durable content and a volatile one. Clients
change the volatile content between a `start` and a `finish`. A commit makes the volatile
content durable, and happens only while no client is between the two. A crash sets the volatile
content back to the durable one. A client that is told of a `sync` knows that nothing is
left to be made durable.
-/

namespace AtomicStore

variable {α β : Type} [DecidableEq α]

structure State (α β : Type) where
  durable : α → β
  volatile : α → β
  /-- The number of clients between `start` and `finish`. -/
  active : Nat

inductive Label (α β : Type)
  | start
  | update (a : α) (f : β → β)
  | finish
  | commit
  | sync
  | crash

inductive Step : State α β → Label α β → State α β → Prop
  | start {s : State α β} : Step s .start { s with active := s.active + 1 }
  | update {s : State α β} {a : α} {f : β → β} : 0 < s.active →
      Step s (.update a f)
        { s with volatile := Function.update s.volatile a (f (s.volatile a)) }
  | finish {s : State α β} : 0 < s.active → Step s .finish { s with active := s.active - 1 }
  | commit {s : State α β} : s.active = 0 → Step s .commit { s with durable := s.volatile }
  | sync {s : State α β} : s.active = 0 → s.durable = s.volatile → Step s .sync s
  | crash {s : State α β} : Step s .crash { s with volatile := s.durable, active := 0 }

/-- What one step makes of a store. -/
def State.after (s : State α β) : Label α β → State α β
  | .start      => { s with active := s.active + 1 }
  | .update a f => { s with volatile := Function.update s.volatile a (f (s.volatile a)) }
  | .finish     => { s with active := s.active - 1 }
  | .commit     => { s with durable := s.volatile }
  | .sync       => s
  | .crash      => { s with volatile := s.durable, active := 0 }

theorem Step.eq_after {s s' : State α β} {l : Label α β} (h : Step s l s') : s' = s.after l := by
  cases h <;> rfl

/-- A store that holds `c`. -/
def system (c : α → β) : TransitionSystem (State α β) (Label α β) where
  init s := s = ⟨c, c, 0⟩
  step := Step

/-- The steps of a run determine where it ends. -/
theorem run_eq_after {c : α → β} {s s' : State α β} {tr : List (State α β × Label α β)}
    (h : (system c).Run s tr s') : s' = (tr.map Prod.snd).foldl State.after s := by
  induction h with
  | nil => rfl
  | @snoc t u tr l _ hs ih =>
      rw [List.map_append, List.foldl_append, ← ih]
      exact hs.eq_after

end AtomicStore
