-- SUMMARY: Nobody sleeps in begin_op for nothing: while a process sleeps there, the log is full or being committed, and another process is able to go on.
import OsLabs.Log.Space

/-!
# Waiting for the log

A process that finds the log full or busy sleeps on `&log`. Room comes back when a system
call ends, and a commit ends with an empty log; both are followed by a wakeup. An empty log that
nobody uses lets everybody in.
-/

namespace Log

open Monitor TransitionSystem

variable {L : Layout} {s : State}

/-- What `begin_op` waits to be over. -/
def Full (s : State) : Prop :=
  s.committing = true ∨ s.lh.length + (s.outstanding + 1) * MAXOPBLOCKS > LOGSIZE

theorem begin_op_cases (op : List (Update L)) (ops : List (List (Update L))) (s : State) :
    (Full s ∧ begin_op op ops s = ⟨s, .wait () (.idle (op :: ops)), .none, .waits⟩) ∨
    (¬ Full s ∧ begin_op op ops s = ⟨{ s with outstanding := s.outstanding + 1 },
      .goto (.active op 0 ops), .none, .begins⟩) := by
  unfold begin_op
  split
  case isTrue hc => exact .inl ⟨.inl hc, rfl⟩
  case isFalse hc =>
    split
    case isTrue hfull => exact .inl ⟨.inr hfull, rfl⟩
    case isFalse hfull => exact .inr ⟨not_or.mpr ⟨hc, hfull⟩, rfl⟩

/-- `log_write` only adds to the log. -/
theorem log_write_length (b : Nat) (s : State) : s.lh.length ≤ (log_write L b s).lh.length := by
  unfold log_write
  split_ifs with h₁ h₂ h₃
  · exact le_rfl
  · exact le_rfl
  · exact le_rfl
  · simp

/-- A panic is for ever. -/
theorem panicked_of_section {l : Loc L} {f : State → Outcome State Unit (Loc L) (Event L)}
    (hf : f ∈ (code L).sections l) (h : (f s).shared.panicked = none) : s.panicked = none := by
  rcases section_cases hf with ⟨op, ops, -, rfl⟩ | ⟨op, i, ops, u, -, -, rfl⟩ |
    ⟨op, i, ops, -, rfl⟩ | ⟨pc, ops, -, rfl⟩
  · rcases begin_op_cases op ops s with ⟨-, heq⟩ | ⟨-, heq⟩ <;> rw [heq] at h <;> exact h
  · obtain ⟨-, -, heq⟩ := log_write_returns h
    have h : (log_write L u.blockno
      (s.fill u.blockno (u.modify (s.data u.blockno)))).panicked = none := h
    rw [heq] at h
    split at h <;> exact h
  · unfold end_op at h
    dsimp only at h
    split_ifs at h
    · cases h
    · exact h
    · exact h
  · rw [← (commit_cases pc ops s).1]
    exact h

/-! ## Sleepers -/

variable {T : Type} [Fintype T] {locs : T → Loc L} {a : AtomicStore.State (HomeBlock L) Block}

/-- An idle log is empty. -/
def Drained (s : State) : Prop := s.committing = false → s.outstanding = 0 → s.lh = []

theorem drained_section (hlive : Live s locs a) (h : Drained s) {t : T}
    {f : State → Outcome State Unit (Loc L) (Event L)} (hf : f ∈ (code L).sections (locs t)) :
    Drained (f s).shared := by
  have hout := hlive.outstanding
  rcases section_cases hf with ⟨op, ops, -, rfl⟩ | ⟨op, i, ops, u, ht, -, rfl⟩ |
    ⟨op, i, ops, ht, rfl⟩ | ⟨pc, ops, ht, rfl⟩
  · rcases begin_op_cases op ops s with ⟨-, heq⟩ | ⟨-, heq⟩
    · rw [heq]
      exact h
    · rw [heq]
      intro _ hzero
      have hzero : s.outstanding + 1 = 0 := hzero
      omega
  · obtain ⟨-, hpos⟩ := hlive.not_committing_of_active (t := t) (by rw [ht]; rfl)
    obtain ⟨-, -, hout', -⟩ :=
      log_write_frame L u.blockno (s.fill u.blockno (u.modify (s.data u.blockno)))
    intro _ hzero
    have hzero : s.outstanding = 0 := hout'.symm.trans hzero
    omega
  · obtain ⟨hc, -⟩ := hlive.not_committing_of_active (t := t) (by rw [ht]; rfl)
    unfold end_op
    simp only [hc, Bool.false_eq_true, if_false]
    split
    case isTrue hlast => exact fun hfalse => by cases hfalse
    case isFalse hlast => exact fun _ hzero => absurd hzero hlast
  · have hstage := hlive.stage t pc ops ht
    have htrue := hlive.committing_of_commit (t := t) (by rw [ht]; rfl)
    obtain ⟨-, -, ⟨rfl, hlh, -, -, -⟩ | ⟨hcom, -⟩⟩ := commit_cases pc ops s
    · intro _ _
      rw [hlh]
      exact hstage.2
    · intro hfalse
      rw [hcom, htrue] at hfalse
      cases hfalse

/-- A section that may let somebody in wakes the sleepers. -/
theorem full_section (hlive : Live s locs a) {t : T}
    {f : State → Outcome State Unit (Loc L) (Event L)} (hf : f ∈ (code L).sections (locs t))
    (hwake : (f s).wake ≠ .broadcast ()) (hfull : Full s) : Full (f s).shared := by
  rcases section_cases hf with ⟨op, ops, -, rfl⟩ | ⟨op, i, ops, u, ht, -, rfl⟩ |
    ⟨op, i, ops, ht, rfl⟩ | ⟨pc, ops, ht, rfl⟩
  · rcases begin_op_cases op ops s with ⟨-, heq⟩ | ⟨hroom, -⟩
    · rw [heq]
      exact hfull
    · exact absurd hfull hroom
  · obtain ⟨-, -, hout, hcom⟩ :=
      log_write_frame L u.blockno (s.fill u.blockno (u.modify (s.data u.blockno)))
    have hlen := log_write_length (L := L) u.blockno
      (s.fill u.blockno (u.modify (s.data u.blockno)))
    rcases hfull with hc | hfull
    · exact .inl (hcom.trans hc)
    · right
      show ((log_write L u.blockno _).lh.length : Int) +
        ((log_write L u.blockno _).outstanding + 1) * MAXOPBLOCKS > LOGSIZE
      rw [hout]
      have hlen : s.lh.length ≤ (log_write L u.blockno
        (s.fill u.blockno (u.modify (s.data u.blockno)))).lh.length := hlen
      have hsame : (s.fill u.blockno (u.modify (s.data u.blockno))).outstanding = s.outstanding := rfl
      rw [hsame]
      omega
  · obtain ⟨hc, -⟩ := hlive.not_committing_of_active (t := t) (by rw [ht]; rfl)
    unfold end_op at hwake ⊢
    simp only [hc, Bool.false_eq_true, if_false] at hwake ⊢
    split at hwake
    case isTrue hlast =>
      rw [if_pos hlast]
      exact .inl rfl
    case isFalse hlast => exact absurd rfl hwake
  · have htrue := hlive.committing_of_commit (t := t) (by rw [ht]; rfl)
    obtain ⟨-, -, ⟨-, -, -, -, hbroadcast⟩ | ⟨hcom, -⟩⟩ := commit_cases pc ops s
    · exact absurd hbroadcast hwake
    · exact .inl (hcom.trans htrue)

/-- Only `begin_op` sleeps, and only while the log is full. -/
theorem wait_section {l l' : Loc L} {f : State → Outcome State Unit (Loc L) (Event L)}
    (hf : f ∈ (code L).sections l) {c : Unit} (hnext : (f s).next = .wait c l') :
    Full (f s).shared ∧ l'.isActive = false ∧ l'.isCommit = false := by
  rcases section_cases hf with ⟨op, ops, -, rfl⟩ | ⟨op, i, ops, u, -, -, rfl⟩ |
    ⟨op, i, ops, -, rfl⟩ | ⟨pc, ops, -, rfl⟩
  · rcases begin_op_cases op ops s with ⟨hfull, heq⟩ | ⟨-, heq⟩
    · rw [heq] at hnext ⊢
      cases hnext
      exact ⟨hfull, rfl, rfl⟩
    · rw [heq] at hnext
      cases hnext
  · cases hnext
  · unfold end_op at hnext
    dsimp only at hnext
    split_ifs at hnext
  · obtain ⟨-, -, ⟨-, -, -, hgoto, -⟩ | ⟨-, pc', hgoto⟩⟩ := commit_cases pc ops s
    · rw [hgoto] at hnext
      cases hnext
    · rw [hgoto] at hnext
      cases hnext

variable [DecidableEq T] {k k' : Config T State Unit (Loc L)}

/-- What holds of the sleepers as long as there is no panic. -/
structure Attended (k : Config T State Unit (Loc L)) : Prop where
  live : ∃ a, Live k.shared k.locs a
  drained : Drained k.shared
  full : ∀ t c l, k.mode t = .asleep c l → Full k.shared
  outside : ∀ t c l, k.mode t = .asleep c l → l.isActive = false ∧ l.isCommit = false

theorem Attended.step {e : Monitor.Label T (Event L)} (h : k.shared.panicked = none → Attended k)
    (hs : Monitor.Step (code L) k e k') (hp : k'.shared.panicked = none) : Attended k' := by
  have hp₀ : k.shared.panicked = none := by
    rcases hs.locs with ⟨t, -, hshared, -⟩ | ⟨t, f, -, hf, hshared, -⟩
    · rw [← hshared]
      exact hp
    · rw [hshared] at hp
      exact panicked_of_section hf hp
  obtain ⟨⟨a, hlive⟩, hdrained, hfull, houtside⟩ := h hp₀
  refine ⟨?_, ?_, ?_, ?_⟩
  · rcases hs.locs with ⟨t, -, hshared, hlocs⟩ | ⟨t, f, -, hf, hshared, hlocs⟩
    · exact ⟨a, by rw [hshared, hlocs]; exact hlive⟩
    · obtain ⟨-, a', -, hup, -⟩ := matched_section (c := a.durable) hlive hf
      rw [hshared] at hp
      exact ⟨a', by rw [hshared, hlocs]; exact hup.live hp⟩
  · rcases hs.locs with ⟨t, -, hshared, -⟩ | ⟨t, f, -, hf, hshared, -⟩
    · rw [hshared]
      exact hdrained
    · rw [hshared]
      exact drained_section hlive hdrained hf
  · refine hs.asleep_waits (Q := fun _ => Full) ?_ ?_ hfull
    · intro t l f c l' _ hf _ hnext
      exact (wait_section hf hnext).1
    · intro t l f c hpc hf _ hwake
      have hl : k.locs t = l := Mode.loc_of_pc hpc
      rw [← hl] at hf
      exact full_section hlive hf hwake
  · intro t c l ht
    refine hs.forall_mode (Q := fun _ m => ∀ c l, m = .asleep c l → l.isActive = false ∧
      l.isCommit = false) (by simp) ?_ houtside t c l ht
    intro u l' f _ hf c l hm
    cases hnext : (f k.shared).next with
    | goto l₁ =>
        rw [hnext] at hm
        cases hm
    | wait d l₁ =>
        rw [hnext] at hm
        cases hm
        exact (wait_section hf hnext).2

end Log
