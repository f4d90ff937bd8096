-- SUMMARY: No lost wakeup: when either read-write lock is free, a sleeper never depends on a signal nobody will send.
import OsLabs.Rwlock.Safety

/-!
# No lost wakeup

The unlock functions decide whom to wake from counters that still include threads
already woken, so a signal may go to nobody. What makes up for it differs in the two
locks, and so do the invariants.

* Reader preference: readers sleep only while a writer holds the lock, and when the
  lock becomes free while a writer sleeps, some waiting thread is already woken.
* Writer preference: while the lock is free and a writer waits, a waiting *writer* is
  already woken. A woken reader would not do, as it goes back to sleep; and if no
  writer waits, no reader sleeps.
-/

namespace Rwlock

open Monitor

variable {P : Policy} {T : Type} [DecidableEq T] [Fintype T]

def Free (rw : RwLock) : Prop := rw.readers = 0 ∧ rw.writers = 0

/-! ## Reader preference -/

structure ReaderPrefAwake (k : Config T RwLock Cond Pc) : Prop where
  readersSleep : 0 < headcount (Mode.asleepOn .read) k.mode → 0 < k.shared.writers
  writersSleep : Free k.shared → 0 < headcount (Mode.asleepOn .write) k.mode →
    0 < headcount (Mode.wokenOn .read) k.mode + headcount (Mode.wokenOn .write) k.mode

theorem ReaderPrefAwake.move {k : Config T RwLock Cond Pc} (hs : Safe k)
    (hk : ReaderPrefAwake k) {t : T} {x : Pc} {new : Mode Cond Pc} {rw' : RwLock}
    {w : Wake Cond} {e : Event} {m : T → Mode Cond Pc} (hpc : (k.mode t).pc? = some x)
    (hmove : Move readerPref (k.mode t) k.shared new rw' w e) (hw : Wakes w k.mode m) :
    ReaderPrefAwake ⟨rw', Function.update m t new⟩ := by
  obtain ⟨hr, hwr, hrr, hrw⟩ := hs.counted
  obtain ⟨har, hkr⟩ := section_headcount (c := .read) hw hpc new
  obtain ⟨haw, hkw⟩ := section_headcount (c := .write) hw hpc new
  have hler := hw.asleepOn_le .read
  have hlew := hw.asleepOn_le .write
  have hsr := headcount_waitsOn .read k.mode
  have hsw := headcount_waitsOn .write k.mode
  have hone := hs.oneWriter
  have hex := hs.exclusive
  have hwait := hw.headcount (waitsOn_stable .read)
  have hwait' := headcount_waitsOn .read m
  obtain ⟨hk1, hk2⟩ := hk
  simp only [Free] at hk2
  cases hmt : k.mode t <;> rw [hmt] at hmove hkr hkw <;> cases hmove <;>
    simp [Mode.asleepOn, Mode.wokenOn] at har hkr haw hkw
  case ready.rdWait hb | woken.rdRewait hb =>
    have hb' : 0 < k.shared.writers := by simpa [readerPref] using hb
    refine ⟨fun _ => hb', ?_⟩
    intro hf
    simp only [Free] at hf
    omega
  case ready.rdUnlock =>
    -- The last reader signals a writer, and any waiting writer makes the signal count.
    by_cases hz : k.shared.readers - 1 = 0
    · have hsig : readerPref.readerUnlockWake
          { k.shared with readers := k.shared.readers - 1 } = .signal .write := by
        simp [readerPref, hz]
      rw [hsig] at hw
      have hwoken := hw.signal_wokenOn
      refine ⟨?_, ?_⟩ <;> simp only [Free] <;> omega
    · refine ⟨?_, ?_⟩ <;> simp only [Free] <;> omega
  case ready.wrUnlock =>
    by_cases hwrd : 0 < k.shared.waitingReaders
    · have hbc : readerPref.writerUnlockWake
          { k.shared with writers := k.shared.writers - 1 } = .broadcast .read := by
        simp [readerPref, hwrd]
      rw [hbc] at hw
      have hnone := hw.broadcast_asleepOn
      refine ⟨?_, ?_⟩ <;> simp only [Free] <;> omega
    · by_cases hwwr : 0 < k.shared.waitingWriters
      · have hsig : readerPref.writerUnlockWake
            { k.shared with writers := k.shared.writers - 1 } = .signal .write := by
          simp [readerPref, hwrd, hwwr]
        rw [hsig] at hw
        have hwoken := hw.signal_wokenOn
        refine ⟨?_, ?_⟩ <;> simp only [Free] <;> omega
      · refine ⟨?_, ?_⟩ <;> simp only [Free] <;> omega
  all_goals
    refine ⟨?_, ?_⟩ <;> simp only [Free] <;> omega

theorem readerPref_awake {k : Config T RwLock Cond Pc} (h : (lock T readerPref).Reachable k) :
    ReaderPrefAwake k := by
  refine h.invariant ?_ ?_
  · intro k hk
    obtain rfl : k = ⟨RwLock.zero, fun _ => .ready .idle⟩ := hk
    constructor <;> simp [headcount, Mode.asleepOn]
  · intro k e k' hr hk hs
    have hsafe := safe_of_reachable readerPref_excludes hr
    rcases step_cases hsafe.modeOk hs with ⟨t, c, l, -, ht, rfl⟩ |
      ⟨t, x, ev, w, new, rw', m, -, hpc, hmove, hw, rfl⟩
    · obtain ⟨h1, h2⟩ := spurious_headcount .read ht
      obtain ⟨h3, h4⟩ := spurious_headcount .write ht
      refine ⟨fun hpos => hk.readersSleep (hpos.trans_le h1), ?_⟩
      intro hf hpos
      exact (hk.writersSleep hf (hpos.trans_le h3)).trans_le (Nat.add_le_add h2 h4)
    · exact hk.move hsafe hpc hmove hw

/-! ## Writer preference -/

structure WriterPrefAwake (k : Config T RwLock Cond Pc) : Prop where
  writerWoken : Free k.shared → 0 < headcount (Mode.waitsOn .write) k.mode →
    0 < headcount (Mode.wokenOn .write) k.mode
  readersUp : Free k.shared → headcount (Mode.waitsOn .write) k.mode = 0 →
    headcount (Mode.asleepOn .read) k.mode = 0

theorem WriterPrefAwake.move {k : Config T RwLock Cond Pc} (hs : Safe k)
    (hk : WriterPrefAwake k) {t : T} {x : Pc} {new : Mode Cond Pc} {rw' : RwLock}
    {w : Wake Cond} {e : Event} {m : T → Mode Cond Pc} (hpc : (k.mode t).pc? = some x)
    (hmove : Move writerPref (k.mode t) k.shared new rw' w e) (hw : Wakes w k.mode m) :
    WriterPrefAwake ⟨rw', Function.update m t new⟩ := by
  obtain ⟨hr, hwr, hrr, hrw⟩ := hs.counted
  obtain ⟨har, hkr⟩ := section_headcount (c := .read) hw hpc new
  obtain ⟨haw, hkw⟩ := section_headcount (c := .write) hw hpc new
  have hler := hw.asleepOn_le .read
  have hsr := headcount_waitsOn .read k.mode
  have hsw := headcount_waitsOn .write k.mode
  have hone := hs.oneWriter
  have hex := hs.exclusive
  have hwait := hw.headcount_section (waitsOn_stable .write) hpc new
  have hwait' := headcount_waitsOn .write (Function.update m t new)
  obtain ⟨hk1, hk2⟩ := hk
  simp only [Free] at hk1 hk2
  cases hmt : k.mode t <;> rw [hmt] at hmove hkr hkw hwait <;> cases hmove <;>
    simp [Mode.asleepOn, Mode.wokenOn, Mode.waitsOn] at har hkr haw hkw hwait
  case ready.rdWait hb | woken.rdRewait hb =>
    have hb' : 0 < k.shared.writers ∨ 0 < k.shared.waitingWriters := by
      simpa [writerPref] using hb
    cases hw
    refine ⟨?_, ?_⟩ <;> simp only [Free] <;> omega
  case ready.rdUnlock =>
    by_cases hsig : k.shared.readers - 1 = 0 ∧ 0 < k.shared.waitingWriters
    · have hwk : writerPref.readerUnlockWake
          { k.shared with readers := k.shared.readers - 1 } = .signal .write := by
        simp [writerPref, hsig]
      rw [hwk] at hw
      have hwoken := hw.signal_wokenOn
      refine ⟨?_, ?_⟩ <;> simp only [Free] <;> omega
    · by_cases hwrd : 0 < k.shared.waitingReaders
      · have hwk : writerPref.readerUnlockWake
            { k.shared with readers := k.shared.readers - 1 } = .broadcast .read := by
          simp [writerPref, hsig, hwrd]
        rw [hwk] at hw
        have hnone := hw.broadcast_asleepOn
        refine ⟨?_, ?_⟩ <;> simp only [Free] <;> omega
      · refine ⟨?_, ?_⟩ <;> simp only [Free] <;> omega
  case ready.wrUnlock =>
    by_cases hsig : 0 < k.shared.waitingWriters
    · have hwk : writerPref.writerUnlockWake
          { k.shared with writers := k.shared.writers - 1 } = .signal .write := by
        simp [writerPref, hsig]
      rw [hwk] at hw
      have hwoken := hw.signal_wokenOn
      refine ⟨?_, ?_⟩ <;> simp only [Free] <;> omega
    · by_cases hwrd : 0 < k.shared.waitingReaders
      · have hwk : writerPref.writerUnlockWake
            { k.shared with writers := k.shared.writers - 1 } = .broadcast .read := by
          simp [writerPref, hsig, hwrd]
        rw [hwk] at hw
        have hnone := hw.broadcast_asleepOn
        refine ⟨?_, ?_⟩ <;> simp only [Free] <;> omega
      · refine ⟨?_, ?_⟩ <;> simp only [Free] <;> omega
  all_goals
    refine ⟨?_, ?_⟩ <;> simp only [Free] <;> omega

theorem writerPref_awake {k : Config T RwLock Cond Pc} (h : (lock T writerPref).Reachable k) :
    WriterPrefAwake k := by
  refine h.invariant ?_ ?_
  · intro k hk
    obtain rfl : k = ⟨RwLock.zero, fun _ => .ready .idle⟩ := hk
    constructor <;> simp [headcount, Mode.asleepOn, Mode.waitsOn]
  · intro k e k' hr hk hs
    have hsafe := safe_of_reachable writerPref_excludes hr
    rcases step_cases hsafe.modeOk hs with ⟨t, c, l, -, ht, rfl⟩ |
      ⟨t, x, ev, w, new, rw', m, -, hpc, hmove, hw, rfl⟩
    · have hwait := headcount_spurious (waitsOn_stable .write) ht
      obtain ⟨h1, h2⟩ := spurious_headcount .read ht
      obtain ⟨h3, h4⟩ := spurious_headcount .write ht
      refine ⟨?_, ?_⟩
      · intro hf hpos
        exact (hk.writerWoken hf (hpos.trans_eq hwait)).trans_le h4
      · intro hf hz
        exact Nat.le_zero.mp (h1.trans_eq (hk.readersUp hf (hwait.symm.trans hz)))
    · exact hk.move hsafe hpc hmove hw

/-! ## Both locks -/

omit [DecidableEq T] in
theorem exists_isWoken {c : Cond} {m : T → Mode Cond Pc} (h : 0 < headcount (Mode.wokenOn c) m) :
    ∃ t, (m t).isWoken = true := by
  obtain ⟨t, ht⟩ := headcount_pos.mp h
  refine ⟨t, ?_⟩
  cases hm : m t <;> simp [hm, Mode.wokenOn] at ht
  rfl

/-- No lost wakeup. In every reachable state of either lock in which nobody holds it
    but some thread sleeps in a condition wait, some thread has been woken from its
    wait, by a signal, a broadcast or spuriously, and only needs the mutex. -/
theorem no_lost_wakeup (hP : P = readerPref ∨ P = writerPref) {k : Config T RwLock Cond Pc}
    (h : (lock T P).Reachable k) (hr : k.shared.readers = 0) (hw : k.shared.writers = 0)
    (hsleep : ∃ t, (k.mode t).isAsleep = true) : ∃ t, (k.mode t).isWoken = true := by
  obtain ⟨t, ht⟩ := hsleep
  obtain ⟨c, l, hm⟩ := Mode.isAsleep_iff.mp ht
  have hc : 0 < headcount (Mode.asleepOn c) k.mode := headcount_pos.mpr ⟨t, by simp [hm]⟩
  rcases hP with rfl | rfl
  · obtain ⟨hread, hwrite⟩ := readerPref_awake h
    cases c with
    | read =>
        have := hread hc
        omega
    | write =>
        have hpos := hwrite ⟨hr, hw⟩ hc
        by_cases hz : 0 < headcount (Mode.wokenOn .read) k.mode
        · exact exists_isWoken hz
        · exact exists_isWoken (c := .write) (by omega)
  · obtain ⟨hwrite, hread⟩ := writerPref_awake h
    refine exists_isWoken (hwrite ⟨hr, hw⟩ ?_)
    cases c with
    | read =>
        by_contra hz
        have := hread ⟨hr, hw⟩ (by omega)
        omega
    | write =>
        have := headcount_waitsOn .write k.mode
        omega

/-- Thread 0 has just unlocked as a writer: thread 1, a writer, is woken, and thread 2,
    a reader, still sleeps. -/
def handover : Config (Fin 3) RwLock Cond Pc :=
  ⟨⟨0, 0, 1, 1⟩, ![.ready .idle, .woken .write .wrWait, .asleep .read .rdWait]⟩

theorem handover_reachable : (lock (Fin 3) writerPref).Reachable handover := by
  have h₀ : (lock (Fin 3) writerPref).Reachable ⟨RwLock.zero, fun _ => .ready .idle⟩ :=
    .init rfl
  have h₁ : (lock (Fin 3) writerPref).Reachable
      ⟨⟨0, 1, 0, 0⟩, ![.ready .wrHeld, .ready .idle, .ready .idle]⟩ :=
    h₀.step (Step.exec_to (t := 0) writerLock rfl (by simp [program]) .none rfl rfl (by decide))
  have h₂ : (lock (Fin 3) writerPref).Reachable
      ⟨⟨0, 1, 0, 1⟩, ![.ready .wrHeld, .asleep .write .wrWait, .ready .idle]⟩ :=
    h₁.step (Step.exec_to (t := 1) writerLock rfl (by simp [program]) .none rfl rfl (by decide))
  have h₃ : (lock (Fin 3) writerPref).Reachable
      ⟨⟨0, 1, 1, 1⟩, ![.ready .wrHeld, .asleep .write .wrWait, .asleep .read .rdWait]⟩ :=
    h₂.step (Step.exec_to (t := 2) (readerLock writerPref) rfl (by simp [program]) .none rfl rfl
      (by decide))
  exact h₃.step (Step.exec_to (t := 0) (writerUnlock writerPref) rfl (by simp [program])
    (.signal (t := 1) rfl) rfl rfl (by decide))

theorem no_lost_wakeup_handover : ∃ t, (handover.mode t).isWoken = true :=
  no_lost_wakeup (.inr rfl) handover_reachable rfl rfl ⟨2, rfl⟩

end Rwlock
