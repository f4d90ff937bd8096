-- SUMMARY: A disk behind a cache, one block at a time: who has a block to itself, what a read returns, and which blocks may be dropped.
import OsLabs.Lib.Transition

/-!
# Block caches

What the clients of a block cache may rely on. A client locks a block, reads it, and then has it
to itself until it unlocks it. Reading gives the cached data, or what is on the disk if
nothing is cached. The cache may drop a block at any time, written back or not, unless the block is
locked or pinned.
-/

namespace BlockCache

variable {P K D : Type} [DecidableEq K]

structure State (P K D : Type) where
  disk : K → D
  cache : K → Option D
  holder : K → Option P
  pins : K → Nat

inductive Label (P K D : Type)
  | lock (p : P) (k : K)
  | read (p : P) (k : K) (v : D)
  | modify (p : P) (k : K) (f : D → D)
  | write (p : P) (k : K)
  | unlock (p : P) (k : K)
  | pin (p : P) (k : K)
  | unpin (p : P) (k : K)
  | evict (k : K)

inductive Step : State P K D → Label P K D → State P K D → Prop
  | lock {s : State P K D} {p : P} {k : K} : s.holder k = none →
      Step s (.lock p k) { s with holder := Function.update s.holder k (some p) }
  | read {s : State P K D} {p : P} {k : K} {v : D} : s.holder k = some p →
      v = (s.cache k).getD (s.disk k) →
      Step s (.read p k v) { s with cache := Function.update s.cache k (some v) }
  | modify {s : State P K D} {p : P} {k : K} {v : D} {f : D → D} : s.holder k = some p →
      s.cache k = some v →
      Step s (.modify p k f) { s with cache := Function.update s.cache k (some (f v)) }
  | write {s : State P K D} {p : P} {k : K} {v : D} : s.holder k = some p → s.cache k = some v →
      Step s (.write p k) { s with disk := Function.update s.disk k v }
  | unlock {s : State P K D} {p : P} {k : K} : s.holder k = some p →
      Step s (.unlock p k) { s with holder := Function.update s.holder k none }
  | pin {s : State P K D} {p : P} {k : K} : s.holder k = some p →
      Step s (.pin p k) { s with pins := Function.update s.pins k (s.pins k + 1) }
  | unpin {s : State P K D} {p : P} {k : K} : s.holder k = some p → 0 < s.pins k →
      Step s (.unpin p k) { s with pins := Function.update s.pins k (s.pins k - 1) }
  | evict {s : State P K D} {k : K} : s.holder k = none → s.pins k = 0 →
      Step s (.evict k) { s with cache := Function.update s.cache k none }

/-- Nothing of the disk `d` is cached. -/
def system (P : Type) (d : K → D) : TransitionSystem (State P K D) (Label P K D) where
  init s := s = ⟨d, fun _ => none, fun _ => none, fun _ => 0⟩
  step := Step

end BlockCache
