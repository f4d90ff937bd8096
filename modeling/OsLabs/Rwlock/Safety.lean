-- SUMMARY: Mutual exclusion and exact counters for both read-write locks, in every reachable state.
import Mathlib.Data.Fin.VecNotation
import OsLabs.Rwlock.Model

/-!
# Safety of the read-write locks

The four counters count what their names say, and a writer excludes everybody else.
The only thing a policy has to provide for this is that a reader gets in only when
no writer holds the lock.
-/

namespace Rwlock

open Monitor

variable {P : Policy} {T : Type} [DecidableEq T] [Fintype T]

/-- Between the return of `ReaderLock` and `ReaderUnlock`. -/
def isReading : Mode Cond Pc → Bool := Mode.readyAt .rdHeld

/-- Between the return of `WriterLock` and `WriterUnlock`. -/
def isWriting : Mode Cond Pc → Bool := Mode.readyAt .wrHeld

/-- The counters are exact. -/
structure Counted (k : Config T RwLock Cond Pc) : Prop where
  readers : k.shared.readers = headcount isReading k.mode
  writers : k.shared.writers = headcount isWriting k.mode
  waitingReaders : k.shared.waitingReaders = headcount (Mode.waitsOn .read) k.mode
  waitingWriters : k.shared.waitingWriters = headcount (Mode.waitsOn .write) k.mode

/-- What is true of a read-write lock between two critical sections. -/
structure Safe (k : Config T RwLock Cond Pc) : Prop where
  modeOk : ∀ t, ModeOk (k.mode t)
  counted : Counted k
  oneWriter : k.shared.writers ≤ 1
  exclusive : 0 < k.shared.writers → k.shared.readers = 0

/-- Readers get in only when there is no writer. -/
def Policy.Excludes (P : Policy) : Prop :=
  ∀ rw, P.readerBlocked rw = false → rw.writers ≤ 0

theorem readerPref_excludes : readerPref.Excludes := by
  intro rw h
  simpa [readerPref] using h

theorem writerPref_excludes : writerPref.Excludes := by
  intro rw h
  have h' : rw.writers ≤ 0 ∧ rw.waitingWriters ≤ 0 := by simpa [writerPref] using h
  exact h'.1

/-! ## Preservation -/

omit [DecidableEq T] in
theorem Safe.init : Safe (T := T) ⟨RwLock.zero, fun _ => .ready .idle⟩ where
  modeOk _ := .inl rfl
  counted := by
    constructor <;>
      simp [RwLock.zero, headcount, isReading, isWriting, Mode.readyAt, Mode.waitsOn]
  oneWriter := by simp [RwLock.zero]
  exclusive := by simp [RwLock.zero]

omit [Fintype T] in
theorem modeOk_update {m : T → Mode Cond Pc} (h : ∀ t, ModeOk (m t)) {x : Mode Cond Pc}
    (hx : ModeOk x) (t u : T) : ModeOk (Function.update m t x u) :=
  (Function.forall_update_iff m fun _ => ModeOk).mpr ⟨hx, fun v _ => h v⟩ u

/-- A spurious wakeup changes no counter and leaves the thread in the same wait. -/
theorem Safe.spurious {k : Config T RwLock Cond Pc} (hk : Safe k) {t : T} {c : Cond} {l : Pc}
    (ht : k.mode t = .asleep c l) :
    Safe ⟨k.shared, Function.update k.mode t (.woken c l)⟩ := by
  have hok : ModeOk (.woken c l) := by
    have := hk.modeOk t
    rwa [ht] at this
  obtain ⟨hr, hw, hwr, hww⟩ := hk.counted
  refine ⟨modeOk_update hk.modeOk hok t, ⟨?_, ?_, ?_, ?_⟩, hk.oneWriter, hk.exclusive⟩
  · exact hr.trans (by rw [isReading, headcount_spurious (readyAt_stable _) ht])
  · exact hw.trans (by rw [isWriting, headcount_spurious (readyAt_stable _) ht])
  · exact hwr.trans (by rw [headcount_spurious (waitsOn_stable _) ht])
  · exact hww.trans (by rw [headcount_spurious (waitsOn_stable _) ht])

/-- One critical section keeps the lock safe. -/
theorem Safe.move (hP : P.Excludes) {k : Config T RwLock Cond Pc} (hk : Safe k) {t : T} {x : Pc}
    {new : Mode Cond Pc} {rw' : RwLock} {w : Wake Cond} {e : Event} {m : T → Mode Cond Pc}
    (hpc : (k.mode t).pc? = some x) (hmove : Move P (k.mode t) k.shared new rw' w e)
    (hw : Wakes w k.mode m) : Safe ⟨rw', Function.update m t new⟩ := by
  have hwoken : ∀ u, ModeOk (m u) := hw.forall (fun _ _ _ hx => hx) hk.modeOk
  have hok := modeOk_update hwoken hmove.modeOk t
  obtain ⟨hr, hwr, hrr, hrw⟩ := hk.counted
  have h1 := hw.headcount_section (readyAt_stable .rdHeld) hpc new
  have h2 := hw.headcount_section (readyAt_stable .wrHeld) hpc new
  have h3 := hw.headcount_section (waitsOn_stable .read) hpc new
  have h4 := hw.headcount_section (waitsOn_stable .write) hpc new
  have hone := hk.oneWriter
  have hex := hk.exclusive
  simp only [isReading, isWriting] at hr hwr
  -- Each section changes the counters by exactly what its thread's mode change is.
  cases hmt : k.mode t <;> rw [hmt] at hmove h1 h2 h3 h4 <;> cases hmove <;>
    simp [Mode.readyAt, Mode.waitsOn] at h1 h2 h3 h4
  case ready.rdLock hb =>
    have hb' := hP _ hb
    refine ⟨hok, ⟨?_, ?_, ?_, ?_⟩, ?_, ?_⟩ <;> simp only [isReading, isWriting] <;> omega
  case woken.rdRelock hb =>
    have hb' : k.shared.writers ≤ 0 :=
      hP { k.shared with waitingReaders := k.shared.waitingReaders - 1 } hb
    refine ⟨hok, ⟨?_, ?_, ?_, ?_⟩, ?_, ?_⟩ <;> simp only [isReading, isWriting] <;> omega
  all_goals
    refine ⟨hok, ⟨?_, ?_, ?_, ?_⟩, ?_, ?_⟩ <;> simp only [isReading, isWriting] <;> omega

theorem safe_of_reachable (hP : P.Excludes) {k : Config T RwLock Cond Pc}
    (h : (lock T P).Reachable k) : Safe k := by
  refine h.invariant ?_ ?_
  · intro k hk
    obtain rfl : k = ⟨RwLock.zero, fun _ => .ready .idle⟩ := hk
    exact Safe.init
  · intro k e k' _ hk hs
    rcases step_cases hk.modeOk hs with ⟨t, c, l, -, ht, rfl⟩ |
      ⟨t, x, ev, w, new, rw', m, -, hpc, hmove, hw, rfl⟩
    · exact hk.spurious ht
    · exact hk.move hP hpc hmove hw

/-- With fewer than `2 ^ 31` threads all counters stay in the range of an `int`. -/
theorem counters_fit (hP : P.Excludes) {k : Config T RwLock Cond Pc}
    (h : (lock T P).Reachable k) (hT : Fintype.card T < 2 ^ 31) :
    ∀ c ∈ [k.shared.readers, k.shared.writers, k.shared.waitingReaders, k.shared.waitingWriters],
      0 ≤ c ∧ c < 2 ^ 31 := by
  have hfits : ∀ p : Mode Cond Pc → Bool,
      0 ≤ (headcount p k.mode : Int) ∧ (headcount p k.mode : Int) < 2 ^ 31 := by
    intro p
    have hle := headcount_le_card p k.mode
    omega
  obtain ⟨hr, hw, hwr, hww⟩ := (safe_of_reachable hP h).counted
  rw [hr, hw, hwr, hww]
  simp only [List.forall_mem_cons]
  exact ⟨hfits _, hfits _, hfits _, hfits _, List.forall_mem_nil _⟩

/-- Exact counters and mutual exclusion. In every reachable state of either lock,
    `readers` and `writers` are the numbers of threads that hold it for reading and
    for writing, `waiting_readers` and `waiting_writers` the numbers inside the two
    condition waits, and a writer is alone. -/
theorem counters_exact (hP : P = readerPref ∨ P = writerPref) {k : Config T RwLock Cond Pc}
    (h : (lock T P).Reachable k) :
    k.shared.readers = headcount isReading k.mode ∧
    k.shared.writers = headcount isWriting k.mode ∧
    k.shared.writers ≤ 1 ∧
    (0 < k.shared.writers → k.shared.readers = 0) ∧
    k.shared.waitingReaders = headcount (Mode.waitsOn .read) k.mode ∧
    k.shared.waitingWriters = headcount (Mode.waitsOn .write) k.mode := by
  have hex : P.Excludes := by
    rcases hP with rfl | rfl
    · exact readerPref_excludes
    · exact writerPref_excludes
  obtain ⟨-, ⟨hr, hw, hwr, hww⟩, hone, hexcl⟩ := safe_of_reachable hex h
  exact ⟨hr, hw, hone, hexcl, hwr, hww⟩

/-- Thread 0 reads and thread 1, a writer, waits for it. -/
def readerAndWaitingWriter : Config (Fin 2) RwLock Cond Pc :=
  ⟨⟨1, 0, 0, 1⟩, ![.ready .rdHeld, .asleep .write .wrWait]⟩

theorem readerAndWaitingWriter_reachable :
    (lock (Fin 2) writerPref).Reachable readerAndWaitingWriter := by
  have h₀ : (lock (Fin 2) writerPref).Reachable ⟨RwLock.zero, fun _ => .ready .idle⟩ :=
    .init rfl
  have h₁ : (lock (Fin 2) writerPref).Reachable ⟨⟨1, 0, 0, 0⟩, ![.ready .rdHeld, .ready .idle]⟩ :=
    h₀.step (Step.exec_to (t := 0) (readerLock writerPref) rfl (by simp [program]) .none rfl
      (by decide) (by decide))
  exact h₁.step (Step.exec_to (t := 1) writerLock rfl (by simp [program]) .none rfl (by decide)
    (by decide))

theorem counters_exact_readerAndWaitingWriter :
    (1 : Int) = headcount isReading readerAndWaitingWriter.mode ∧
    (1 : Int) = headcount (Mode.waitsOn .write) readerAndWaitingWriter.mode := by
  obtain ⟨hr, -, -, -, -, hw⟩ := counters_exact (.inr rfl) readerAndWaitingWriter_reachable
  exact ⟨hr, hw⟩

end Rwlock
