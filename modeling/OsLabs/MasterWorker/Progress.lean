-- SUMMARY: The master-worker program does not get stuck, and leaves nothing behind when all threads have returned.
import OsLabs.MasterWorker.Delivery

/-!
# Progress

A master sleeps only while the buffer is full and items are left to produce, a worker
only while it is empty and items are left to consume: whoever ends such a situation
broadcasts to those who sleep because of it. And a thread returns only when its side of
the work is done. So sleepers of one side leave a thread of the other side with work.
-/

namespace MasterWorker

open Monitor

variable {A : Args} {T : Type} [DecidableEq T] {buffer : Int → Int} {role : T → Role}
  {k : Config T Shared Cond Pc}

/-- Nothing is left to do for threads of this role. -/
def RoleDone (A : Args) (s : Shared) : Role → Prop
  | .master => s.itemToProduce = A.totalItems
  | .worker => s.itemToConsume = A.totalItems

/-- Why a thread may be asleep, and what is true once it has returned. -/
def ModeOk (A : Args) (s : Shared) : Mode Cond Pc → Prop
  | .ready (.done r) => RoleDone A s r
  | .ready _         => True
  | .asleep .empty l =>
      l = .wait .master ∧ A.maxBufSize ≤ s.currBufSize ∧ s.itemToProduce < A.totalItems
  | .asleep .fill l  =>
      l = .wait .worker ∧ s.currBufSize = 0 ∧ s.itemToConsume < A.totalItems
  | .woken _ _       => True

def Finished (x : Mode Cond Pc) : Prop := ∃ r, x = .ready (.done r)

structure Lively (A : Args) (role : T → Role) (k : Config T Shared Cond Pc) : Prop where
  role : ∀ t, (k.mode t).loc.role = role t
  modeOk : ∀ t, ModeOk A k.shared (k.mode t)

/-- The thread that made the step. -/
theorem Move.modeOk {r : Role} {s s' : Shared} {n : Next Cond Pc} {w : Wake Cond} {e : Event}
    (hb : Bounded A s) (h : Move A r s n s' w e) : ModeOk A s' n.mode := by
  cases h with
  | produceMore _ => trivial
  | produceNoMore hge => exact Int.le_antisymm hb.produced_le hge
  | full hfull hmore => exact ⟨rfl, hfull, hmore⟩
  | allProduced hall => exact hall
  | produce _ _ => trivial
  | consumeMore _ => trivial
  | consumeNoMore hge => exact Int.le_antisymm hb.consumed_le hge
  | empty hempty hmore => exact ⟨rfl, hempty, hmore⟩
  | allConsumed hall => exact hall
  | consume _ _ => trivial

/-- Everybody else. A full buffer stops being full only by a step that wakes the masters,
    an empty one stops being empty only by one that wakes the workers. -/
theorem Move.modeOk_other {r : Role} {s s' : Shared} {n : Next Cond Pc} {w : Wake Cond} {e : Event}
    (hb : Bounded A s) (h : Move A r s n s' w e) {x : Mode Cond Pc} (hx : ModeOk A s x)
    (hawake : ∀ c l, x = .asleep c l → w ≠ .broadcast c) : ModeOk A s' x := by
  cases h with
  | produce hmore hroom =>
      obtain ⟨hlt, hfree⟩ := hb.room hmore hroom
      cases x with
      | ready l =>
          cases l with
          | done r =>
              cases r with
              | master => exact absurd hx hmore
              | worker => exact hx
          | _ => trivial
      | woken c l => exact hx
      | asleep c l =>
          cases c with
          | fill => exact absurd rfl (hawake _ _ rfl)
          | empty =>
              have := hx.2.1
              omega
  | consume hmore hstock =>
      obtain ⟨hlt, hpos⟩ := hb.stock hmore hstock
      cases x with
      | ready l =>
          cases l with
          | done r =>
              cases r with
              | master => exact hx
              | worker => exact absurd hx hmore
          | _ => trivial
      | woken c l => exact hx
      | asleep c l =>
          cases c with
          | fill =>
              have := hx.2.1
              omega
          | empty => exact absurd rfl (hawake _ _ rfl)
  | _ => exact hx

theorem Lively.step {k' : Config T Shared Cond Pc} {e : Label T Event} (hb : Bounded A k.shared)
    (h : Lively A role k) (hs : (system A buffer role).step k e k') : Lively A role k' := by
  refine ⟨Step.forall_mode (Q := fun t (x : Mode Cond Pc) => x.loc.role = role t) hs
    (fun _ _ _ hrole => hrole) ?_ h.role, ?_⟩
  · intro t l f hpc hf
    have hrole := (section_move hf k.shared).role
    rw [hrole, ← Mode.loc_of_pc hpc]
    exact h.role t
  · rcases step_cases hs with ⟨t, c, l, -, ht, rfl⟩ | ⟨t, ev, w, n, s', m, -, hm, hw, rfl⟩
    · exact (Function.forall_update_iff k.mode fun _ => ModeOk A k.shared).mpr
        ⟨trivial, fun u _ => h.modeOk u⟩
    · refine (Function.forall_update_iff m fun _ => ModeOk A s').mpr ⟨hm.modeOk hb, ?_⟩
      intro u _
      rcases hw.cases_at u with heq | ⟨c, l, -, hwoken⟩
      · rw [heq]
        apply hm.modeOk_other hb (h.modeOk u)
        intro c l hx hbc
        subst hbc
        have hnot := hw.not_asleepOn u
        rw [heq, hx, Mode.asleepOn_asleep, decide_eq_false_iff_not] at hnot
        exact hnot rfl
      · rw [hwoken]
        trivial

theorem lively_of_reachable (h₀ : 0 ≤ A.totalItems) (h₁ : 1 ≤ A.maxBufSize)
    (h : (system A buffer role).Reachable k) : Lively A role k := by
  refine h.invariant ?_ ?_
  · intro k hk
    obtain rfl : k = ⟨.start buffer, fun t => .ready (.test (role t))⟩ := hk
    exact ⟨fun _ => rfl, fun _ => trivial⟩
  · intro k e k' hr hl hs
    exact hl.step (bounded_of_reachable h₀ h₁ hr) hs

omit [DecidableEq T] in
/-- What a thread that has returned knows. -/
theorem Lively.roleDone (h : Lively A role k) {t : T} (hf : Finished (k.mode t)) :
    RoleDone A k.shared (role t) := by
  obtain ⟨r, hr⟩ := hf
  have hok := h.modeOk t
  rw [← h.role t]
  rw [hr] at hok ⊢
  exact hok

/-- A thread of this role has work left and cannot get at it. -/
def Starved (A : Args) (s : Shared) : Role → Prop
  | .master => A.maxBufSize ≤ s.currBufSize ∧ s.itemToProduce < A.totalItems
  | .worker => s.currBufSize = 0 ∧ s.itemToConsume < A.totalItems

omit [DecidableEq T] in
/-- Why a thread sleeps. -/
theorem Lively.starved (h : Lively A role k) {t : T} (ht : (k.mode t).isAsleep = true) :
    Starved A k.shared (role t) := by
  obtain ⟨c, l, hm⟩ := Mode.isAsleep_iff.mp ht
  have hok := h.modeOk t
  rw [← h.role t]
  rw [hm] at hok ⊢
  cases c with
  | fill =>
      obtain ⟨rfl, hok⟩ := hok
      exact hok
  | empty =>
      obtain ⟨rfl, hok⟩ := hok
      exact hok

/-- If one side is starved, the other side has work and can get at it. -/
theorem Bounded.not_starved {s : Shared} (hb : Bounded A s) (h₁ : 1 ≤ A.maxBufSize)
    (h : ∀ r, RoleDone A s r ∨ Starved A s r) (r : Role) : ¬ Starved A s r := by
  have hbal := hb.balance
  have hm := h .master
  have hw := h .worker
  simp only [RoleDone, Starved] at hm hw
  cases r with
  | master =>
      rintro ⟨hfull, hmore⟩
      omega
  | worker =>
      rintro ⟨hempty, hmore⟩
      omega

omit [DecidableEq T] in
/-- With at least one thread of each role, nobody is left asleep for good. -/
theorem Lively.not_stuck (h : Lively A role k) (hb : Bounded A k.shared) (h₁ : 1 ≤ A.maxBufSize)
    (hboth : ∀ r, ∃ t, role t = r) (hall : ∀ t, ¬ Finished (k.mode t) → (k.mode t).isAsleep = true)
    (t : T) : Finished (k.mode t) := by
  have hside : ∀ r, RoleDone A k.shared r ∨ Starved A k.shared r := by
    intro r
    obtain ⟨u, rfl⟩ := hboth r
    by_cases hu : Finished (k.mode u)
    · exact .inl (h.roleDone hu)
    · exact .inr (h.starved (hall u hu))
  by_contra ht
  exact hb.not_starved h₁ hside (role t) (h.starved (hall t ht))

/-- No deadlock, and nothing left behind. With at least one thread of each role, there is
    never an unfinished thread while all unfinished threads sleep without having been
    signalled; and when all threads have returned, all items have been produced and
    consumed. -/
theorem progress (h₀ : 0 ≤ A.totalItems) (h₁ : 1 ≤ A.maxBufSize)
    (hmaster : ∃ t, role t = .master) (hworker : ∃ t, role t = .worker)
    (h : (system A buffer role).Reachable k) :
    ¬ ((∃ t, ¬ Finished (k.mode t)) ∧
      ∀ t, ¬ Finished (k.mode t) → (k.mode t).isAsleep = true) ∧
    ((∀ t, Finished (k.mode t)) →
      k.shared.itemToProduce = A.totalItems ∧ k.shared.itemToConsume = A.totalItems ∧
      k.shared.currBufSize = 0) := by
  have hb := bounded_of_reachable h₀ h₁ h
  have hl := lively_of_reachable h₀ h₁ h
  constructor
  · rintro ⟨⟨t, ht⟩, hall⟩
    have hboth : ∀ r, ∃ t, role t = r := by
      intro r
      cases r with
      | master => exact hmaster
      | worker => exact hworker
    exact ht (hl.not_stuck hb h₁ hboth hall t)
  · intro hall
    obtain ⟨tm, htm⟩ := hmaster
    obtain ⟨tw, htw⟩ := hworker
    have hproduced : RoleDone A k.shared .master := htm ▸ hl.roleDone (hall tm)
    have hconsumed : RoleDone A k.shared .worker := htw ▸ hl.roleDone (hall tw)
    have hbal := hb.balance
    simp only [RoleDone] at hproduced hconsumed
    exact ⟨hproduced, hconsumed, by omega⟩

/-- The worker sleeps before the only item is there, and both threads return. -/
theorem progress_onePair :
    ∃ k, (system ⟨1, 1⟩ (fun _ => 0) onePair).Reachable k ∧ (∀ t, Finished (k.mode t)) ∧
      k.shared.itemToProduce = 1 ∧ k.shared.itemToConsume = 1 ∧ k.shared.currBufSize = 0 := by
  obtain ⟨k₀, tr, k, hinit, hrun, hp⟩ := exists_run_of_play
    (program ⟨1, 1⟩) (.start fun _ => 0) (fun t => .test (onePair t))
    (fun _ k => decide (∀ t, k.mode t = .ready (.done (onePair t))))
    [.run 1 0 none, .run 1 0 none, .run 0 0 none, .run 0 0 none, .run 0 0 none, .run 1 0 none,
      .run 1 0 none]
    (by decide)
  have hreach : (system ⟨1, 1⟩ (fun _ => 0) onePair).Reachable k := ⟨k₀, tr, hinit, hrun⟩
  have hdone : ∀ t, Finished (k.mode t) := fun t => ⟨_, of_decide_eq_true hp t⟩
  exact ⟨k, hreach, hdone,
    (progress (by decide) (by decide) ⟨0, rfl⟩ ⟨1, rfl⟩ hreach).2 hdone⟩

end MasterWorker
