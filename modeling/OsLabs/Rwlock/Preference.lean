-- SUMMARY: Who may overtake a waiting thread: the writer-preference lock keeps its promise, the reader-preference lock only if no writer slips in after the broadcast.
import OsLabs.Rwlock.Safety

/-!
# Preference

A preference is a property of runs: between the moment a thread of the preferred kind
starts to wait and the moment it gets the lock, no thread of the other kind gets in.

`rwlock-writer-pref.cpp` has it, because `ReaderLock` tests `waiting_writers` and a
waiting writer is counted there until it gets the lock. In `rwlock-reader-pref.cpp`
the preference is only in whom `WriterUnlock` wakes. `WriterLock` does not test
`waiting_readers`, so a writer that gets the mutex before the woken readers overtakes
them.
-/

namespace Rwlock

open Monitor TransitionSystem

variable {P : Policy} {T : Type} [DecidableEq T]

abbrev Trace (T : Type) := List (Config T RwLock Cond Pc × Label T Event)

/-- In `tr`, whenever a thread `t` starts to wait (`waits`) and some thread `u` gets
    the lock later (`other`), `t` has got it in between (`own`). -/
def NotOvertaken (waits own other : Event) (tr : Trace T) : Prop :=
  ∀ pre mid post k₁ k₂ t u,
    tr = pre ++ (k₁, .exec t waits) :: (mid ++ (k₂, .exec u other) :: post) →
    ∃ q ∈ mid, q.2 = .exec t own

/-! ## The stretch in which a thread waits -/

/-- Getting out of the wait on `c` takes the section that gets the lock. -/
def acquires : Cond → Event
  | .read  => .rdLocked
  | .write => .wrLocked

def starts : Cond → Event
  | .read  => .rdWaits
  | .write => .wrWaits

omit [DecidableEq T] in
/-- A section that ends in a wait on `c` is a `starts c` section. -/
theorem Move.waitsOn_new {old new : Mode Cond Pc} {rw rw' : RwLock} {w : Wake Cond} {e : Event}
    {c : Cond} (h : Move P old rw new rw' w e) : new.waitsOn c = true ↔ e = starts c := by
  cases h <;> cases c <;> simp [Mode.waitsOn, starts]

omit [DecidableEq T] in
/-- A thread that waits on `c` and gets the mutex starts to wait again or gets the lock. -/
theorem Move.of_waitsOn {old new : Mode Cond Pc} {rw rw' : RwLock} {w : Wake Cond} {e : Event}
    {c : Cond} (h : Move P old rw new rw' w e) (hc : old.waitsOn c = true) :
    e = starts c ∨ e = acquires c := by
  cases h <;> cases c <;> simp [Mode.waitsOn, starts, acquires] at hc ⊢

/-- What a step does to the question whether `t` waits on `c`. -/
theorem step_waitsOn {k k' : Config T RwLock Cond Pc} {e : Label T Event} (c : Cond) (t : T)
    (hok : ∀ t, ModeOk (k.mode t)) (h : (lock T P).step k e k') :
    (∃ ev, e = .exec t ev ∧ ((k'.mode t).waitsOn c = true ↔ ev = starts c) ∧
      ((k.mode t).waitsOn c = true → ev = starts c ∨ ev = acquires c)) ∨
    ((∀ ev, e ≠ .exec t ev) ∧ (k'.mode t).waitsOn c = (k.mode t).waitsOn c) := by
  rcases step_cases hok h with ⟨u, d, l, rfl, hu, rfl⟩ |
    ⟨u, x, ev, w, new, rw', m, rfl, hpc, hmove, hw, rfl⟩
  · refine .inr ⟨by simp, ?_⟩
    by_cases htu : t = u
    · subst htu
      simp [hu, Mode.waitsOn]
    · simp [htu]
  · by_cases htu : t = u
    · subst htu
      refine .inl ⟨ev, rfl, ?_, hmove.of_waitsOn⟩
      simpa using hmove.waitsOn_new
    · refine .inr ⟨by simp [Ne.symm htu], ?_⟩
      have := hw.stable_eq (waitsOn_stable c) t
      simpa [htu] using this

section

variable [Fintype T]

/-- From the section in which `t` starts to wait on `c` until the one in which it gets
    the lock, `t` waits on `c`. -/
theorem waitsOn_since (hP : P.Excludes) {c : Cond} {k₀ k k₁ : Config T RwLock Cond Pc} {t : T}
    {pre mid : Trace T} (h₀ : (lock T P).init k₀)
    (h : (lock T P).Run k₀ (pre ++ (k₁, .exec t (starts c)) :: mid) k)
    (hmid : ∀ q ∈ mid, q.2 ≠ .exec t (acquires c)) : (k.mode t).waitsOn c = true := by
  refine h.since (fun k => (k.mode t).waitsOn c = true)
    (fun e => e = .exec t (starts c)) (fun e => e = .exec t (acquires c))
    ?_ ?_ h₀ rfl hmid
  · intro s e s' hr hs he
    subst he
    rcases step_waitsOn c t (safe_of_reachable hP hr).modeOk hs with ⟨ev, hev, hnew, -⟩ | ⟨hno, -⟩
    · cases hev
      exact hnew.mpr rfl
    · exact absurd rfl (hno _)
  · intro s e s' hr hs hw he
    rcases step_waitsOn c t (safe_of_reachable hP hr).modeOk hs with ⟨ev, rfl, hnew, hold⟩ | ⟨-, hsame⟩
    · rcases hold hw with hev | hev
      · exact hnew.mpr hev
      · exact absurd (by rw [hev]) he
    · exact hsame.trans hw

/-- A thread that waits on `c` has started to, and has not got the lock since. -/
theorem exists_starts (hP : P.Excludes) {c : Cond} {k₀ k : Config T RwLock Cond Pc} {t : T}
    {tr : Trace T} (h₀ : (lock T P).init k₀) (h : (lock T P).Run k₀ tr k)
    (ht : (k.mode t).waitsOn c = true) :
    ∃ pre k₁ mid, tr = pre ++ (k₁, .exec t (starts c)) :: mid ∧
      ∀ q ∈ mid, q.2 ≠ .exec t (acquires c) := by
  obtain ⟨pre, ⟨k₁, e⟩, mid, rfl, rfl, hmid⟩ :=
    h.exists_since (fun k => (k.mode t).waitsOn c = true)
      (fun e => e = .exec t (starts c)) (fun e => e = .exec t (acquires c))
      (fun s hs => by cases hs; simp [Mode.waitsOn])
      (fun s e s' hr hs hw => by
        rcases step_waitsOn c t (safe_of_reachable hP hr).modeOk hs with
          ⟨ev, rfl, hnew, -⟩ | ⟨hno, hsame⟩
        · exact .inl (by rw [hnew.mp hw])
        · exact .inr ⟨hsame.symm.trans hw, hno _⟩)
      h₀ ht
  exact ⟨pre, k₁, mid, rfl, hmid⟩

/-- The section a recorded step of a thread performed. -/
theorem recorded_move (hP : P.Excludes) {k₀ k k₁ : Config T RwLock Cond Pc} {t : T} {e : Event}
    {tr : Trace T} (h₀ : (lock T P).init k₀) (h : (lock T P).Run k₀ tr k)
    (hmem : (k₁, .exec t e) ∈ tr) :
    Safe k₁ ∧ ∃ new rw' w, Move P (k₁.mode t) k₁.shared new rw' w e := by
  obtain ⟨hr, k₂, hs⟩ := h.mem_reachable h₀ hmem
  have hsafe := safe_of_reachable hP hr
  refine ⟨hsafe, ?_⟩
  rcases step_cases hsafe.modeOk hs with ⟨u, d, l, he, -⟩ |
    ⟨u, x, ev, w, new, rw', m, he, -, hmove, -⟩
  · cases he
  · cases he
    exact ⟨new, rw', w, hmove⟩

/-! ## Writer preference -/

/-- No reader gets the writer-preference lock while a writer is counted as waiting. -/
theorem Move.writerPref_rdLocked {old new : Mode Cond Pc} {rw rw' : RwLock} {w : Wake Cond}
    (h : Move writerPref old rw new rw' w .rdLocked) : rw.waitingWriters ≤ 0 := by
  cases h with
  | rdLock hb =>
      have hb' : rw.writers ≤ 0 ∧ rw.waitingWriters ≤ 0 := by simpa [writerPref] using hb
      exact hb'.2
  | rdRelock hb =>
      have hb' : rw.writers ≤ 0 ∧ rw.waitingWriters ≤ 0 := by simpa [writerPref] using hb
      exact hb'.2

/-- Writer preference. In every run of the writer-preference lock, from the section in
    which a writer starts to wait until it gets the lock, no `ReaderLock` completes. -/
theorem writer_not_overtaken {k₀ k : Config T RwLock Cond Pc} {tr : Trace T}
    (h₀ : (lock T writerPref).init k₀) (h : (lock T writerPref).Run k₀ tr k) :
    NotOvertaken .wrWaits .wrLocked .rdLocked tr := by
  intro pre mid post k₁ k₂ t u htr
  by_contra hno
  have hmid : ∀ q ∈ mid, q.2 ≠ .exec t (acquires .write) :=
    fun q hq he => hno ⟨q, hq, he⟩
  have hmem : (k₂, .exec u .rdLocked) ∈ tr := by simp [htr]
  obtain ⟨hsafe, new, rw', w, hmove⟩ := recorded_move writerPref_excludes h₀ h hmem
  -- The run up to the reader's section ends in a state in which `t` still waits.
  have hsplit : tr = (pre ++ (k₁, .exec t (starts .write)) :: mid) ++
      (k₂, .exec u .rdLocked) :: post := by simp [htr, starts]
  rw [hsplit] at h
  obtain ⟨_, hrun, -⟩ := h.split
  have hwaits := waitsOn_since writerPref_excludes h₀ hrun hmid
  have hpos : 0 < headcount (Mode.waitsOn .write) k₂.mode := headcount_pos.mpr ⟨t, hwaits⟩
  have hcount := hsafe.counted.waitingWriters
  have := hmove.writerPref_rdLocked
  omega

/-- Thread 0 reads, thread 1 waits to write and gets the lock after thread 0. -/
def writerAfterReader : Trace (Fin 2) :=
  [(⟨RwLock.zero, fun _ => .ready .idle⟩, .exec 0 .rdLocked),
   (⟨⟨1, 0, 0, 0⟩, ![.ready .rdHeld, .ready .idle]⟩, .exec 1 .wrWaits),
   (⟨⟨1, 0, 0, 1⟩, ![.ready .rdHeld, .asleep .write .wrWait]⟩, .exec 0 .rdUnlocked),
   (⟨⟨0, 0, 0, 1⟩, ![.ready .idle, .woken .write .wrWait]⟩, .exec 1 .wrLocked)]

theorem writerAfterReader_run :
    (lock (Fin 2) writerPref).Run ⟨RwLock.zero, fun _ => .ready .idle⟩ writerAfterReader
      ⟨⟨0, 1, 0, 0⟩, ![.ready .idle, .ready .wrHeld]⟩ := by
  refine Run.cons (Step.exec_to (readerLock writerPref) rfl (by simp [program]) .none rfl ?_ ?_) <|
    Run.cons (Step.exec_to writerLock rfl (by simp [program]) .none rfl ?_ ?_) <|
    Run.cons (Step.exec_to (readerUnlock writerPref) rfl (by simp [program])
      (.signal (t := 1) rfl) rfl ?_ ?_) <|
    Run.cons (Step.exec_to writerResume rfl (by simp [program]) .none rfl ?_ ?_) <| .nil _
  all_goals decide

theorem writer_not_overtaken_afterReader :
    NotOvertaken .wrWaits .wrLocked .rdLocked writerAfterReader :=
  writer_not_overtaken rfl writerAfterReader_run

/-! ## Reader preference -/

/-- Every writer that gets to test the loop condition of `WriterLock` while nobody
    holds the lock finds no reader waiting. -/
def WritersYield (tr : Trace T) : Prop :=
  ∀ k t e, (k, .exec t e) ∈ tr → e = .wrWaits ∨ e = .wrLocked →
    k.shared.readers = 0 → k.shared.writers = 0 → k.shared.waitingReaders = 0

omit [Fintype T] in
theorem Move.wrLocked {old new : Mode Cond Pc} {rw rw' : RwLock} {w : Wake Cond}
    (h : Move P old rw new rw' w .wrLocked) : rw.readers ≤ 0 ∧ rw.writers ≤ 0 := by
  cases h with
  | wrLock h1 h2 => exact ⟨h1, h2⟩
  | wrRelock h1 h2 => exact ⟨h1, h2⟩

omit [Fintype T] in
theorem Move.wrWaits {old new : Mode Cond Pc} {rw rw' : RwLock} {w : Wake Cond}
    (h : Move P old rw new rw' w .wrWaits) : 0 < rw.readers ∨ 0 < rw.writers := by
  cases h with
  | wrWait hb => exact hb
  | wrRewait hb => exact hb

/-- Reader preference, and exactly when it holds: in a run of the reader-preference
    lock no waiting reader is overtaken by a writer if and only if no writer gets the
    mutex while the lock is free and a reader waits. -/
theorem reader_not_overtaken_iff {k₀ k : Config T RwLock Cond Pc} {tr : Trace T}
    (h₀ : (lock T readerPref).init k₀) (h : (lock T readerPref).Run k₀ tr k) :
    NotOvertaken .rdWaits .rdLocked .wrLocked tr ↔ WritersYield tr := by
  constructor
  · intro hno k₂ u e hmem he hr hw
    obtain ⟨hsafe, new, rw', w, hmove⟩ := recorded_move readerPref_excludes h₀ h hmem
    by_contra hwait
    have hcount := hsafe.counted.waitingReaders
    obtain ⟨t, ht⟩ : ∃ t, (k₂.mode t).waitsOn .read = true := headcount_pos.mp (by omega)
    -- The writer gets in, so the reader's own start of waiting has been overtaken.
    obtain rfl : e = .wrLocked := by
      rcases he with rfl | rfl
      · have := hmove.wrWaits
        omega
      · rfl
    obtain ⟨pre', post, rfl⟩ := List.append_of_mem hmem
    obtain ⟨_, hrun, -⟩ := h.split
    obtain ⟨pre, k₁, mid, rfl, hmid⟩ := exists_starts readerPref_excludes h₀ hrun ht
    obtain ⟨q, hq, hq'⟩ := hno pre mid post k₁ k₂ t u (by simp [starts])
    exact hmid q hq hq'
  · intro hyield pre mid post k₁ k₂ t u htr
    by_contra hno
    have hmid : ∀ q ∈ mid, q.2 ≠ .exec t (acquires .read) :=
      fun q hq he => hno ⟨q, hq, he⟩
    have hmem : (k₂, .exec u .wrLocked) ∈ tr := by simp [htr]
    obtain ⟨hsafe, new, rw', w, hmove⟩ := recorded_move readerPref_excludes h₀ h hmem
    obtain ⟨hr, hw⟩ := hmove.wrLocked
    obtain ⟨hcr, hcw, hcount, -⟩ := hsafe.counted
    have hzero := hyield k₂ u .wrLocked hmem (.inr rfl) (by omega) (by omega)
    have hsplit : tr = (pre ++ (k₁, .exec t (starts .read)) :: mid) ++
        (k₂, .exec u .wrLocked) :: post := by simp [htr, starts]
    rw [hsplit] at h
    obtain ⟨_, hrun, -⟩ := h.split
    have hwaits := waitsOn_since readerPref_excludes h₀ hrun hmid
    have hpos : 0 < headcount (Mode.waitsOn .read) k₂.mode := headcount_pos.mpr ⟨t, hwaits⟩
    omega

/-- Thread 0 writes, thread 1 waits to read, thread 0 unlocks and wakes it, and thread 2
    gets the lock for writing before thread 1 gets the mutex. -/
def writerOvertakes : Trace (Fin 3) :=
  [(⟨RwLock.zero, fun _ => .ready .idle⟩, .exec 0 .wrLocked),
   (⟨⟨0, 1, 0, 0⟩, ![.ready .wrHeld, .ready .idle, .ready .idle]⟩, .exec 1 .rdWaits),
   (⟨⟨0, 1, 1, 0⟩, ![.ready .wrHeld, .asleep .read .rdWait, .ready .idle]⟩, .exec 0 .wrUnlocked),
   (⟨⟨0, 0, 1, 0⟩, ![.ready .idle, .woken .read .rdWait, .ready .idle]⟩, .exec 2 .wrLocked)]

theorem writerOvertakes_run :
    (lock (Fin 3) readerPref).Run ⟨RwLock.zero, fun _ => .ready .idle⟩ writerOvertakes
      ⟨⟨0, 1, 1, 0⟩, ![.ready .idle, .woken .read .rdWait, .ready .wrHeld]⟩ := by
  refine Run.cons (Step.exec_to writerLock rfl (by simp [program]) .none rfl ?_ ?_) <|
    Run.cons (Step.exec_to (readerLock readerPref) rfl (by simp [program]) .none rfl ?_ ?_) <|
    Run.cons (Step.exec_to (writerUnlock readerPref) rfl (by simp [program]) .broadcast rfl
      ?_ ?_) <|
    Run.cons (Step.exec_to writerLock rfl (by simp [program]) .none rfl ?_ ?_) <| .nil _
  all_goals decide

theorem reader_overtaken :
    ∃ k, (lock (Fin 3) readerPref).Run ⟨RwLock.zero, fun _ => .ready .idle⟩ writerOvertakes k ∧
      ¬ NotOvertaken .rdWaits .rdLocked .wrLocked writerOvertakes := by
  refine ⟨_, writerOvertakes_run, ?_⟩
  intro h
  obtain ⟨q, hq, hev⟩ := h [writerOvertakes[0]] [writerOvertakes[2]] [] _ _ 1 2 rfl
  obtain rfl := List.mem_singleton.mp hq
  cases hev

theorem reader_not_overtaken_iff_writerOvertakes :
    NotOvertaken .rdWaits .rdLocked .wrLocked writerOvertakes ↔ WritersYield writerOvertakes :=
  reader_not_overtaken_iff rfl writerOvertakes_run

end

end Rwlock
