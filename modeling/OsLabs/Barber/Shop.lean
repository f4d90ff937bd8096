-- SUMMARY: Both barber shops: progress and completion, and the shops in which the barber serves nobody.
import OsLabs.Barber.Pthread
import OsLabs.Barber.Zemaphore

/-!
# Both barber shops

With a chair and a customer, both programs do what they are for. Without a chair or without a
customer, there is a time when nobody waits and nobody will come, and the barber serves
nevertheless.
-/

namespace Barber

open Monitor

/-! ## Progress -/

/-- With a chair and a customer, in both programs: there is no deadlock; while the mutex is free,
    those who took a chair have been served or still wait, no more than there are chairs; and
    when the barber has gone home, everybody has come, and everybody who took a chair has been
    served. With condition variables, the mutex is free between any two steps. -/
theorem shop_progress (A : Args) (hchair : 1 ≤ A.chairCount) (hcustomer : 1 ≤ A.customerCount) :
    (∀ k₀ tr k, (Pthread.shop A).init k₀ → (Pthread.shop A).Run k₀ tr k →
      ¬ Pthread.Deadlocked k ∧
      (Pthread.served tr : Int) + k.shared.waiting = Pthread.seated tr ∧
      0 ≤ k.shared.waiting ∧ k.shared.waiting ≤ A.chairCount ∧
      (k.mode none = .ready .home →
        (∀ i, k.mode (some i) ≠ .ready .arrive) ∧ Pthread.served tr = Pthread.seated tr)) ∧
    (∀ k₀ tr k, (Zem.shop A).init k₀ → (Zem.shop A).Run k₀ tr k →
      ¬ Zem.Deadlocked k ∧
      (0 < k.shared.value .mutex →
        (Zem.served tr : Int) + k.shared.data.waiting = Zem.seated tr) ∧
      0 ≤ k.shared.data.waiting ∧ k.shared.data.waiting ≤ A.chairCount ∧
      (k.locs none = .home →
        (∀ i, k.locs (some i) ≠ .arrive) ∧ Zem.served tr = Zem.seated tr)) := by
  refine ⟨?_, ?_⟩
  · intro k₀ tr k hinit hrun
    have hreach : (Pthread.shop A).Reachable k := ⟨k₀, tr, hinit, hrun⟩
    have hsound := Pthread.sound_of_reachable hchair hcustomer hreach
    exact ⟨Pthread.not_deadlocked hchair hcustomer hreach, Pthread.served_add_waiting hinit hrun,
      hsound.nonneg, hsound.le, Pthread.all_served hchair hcustomer hinit hrun⟩
  · intro k₀ tr k hinit hrun
    have hreach : (Zem.shop A).Reachable k := ⟨k₀, tr, hinit, hrun⟩
    have hsound := (Zem.sound_of_reachable hchair hcustomer hreach).2
    exact ⟨Zem.not_deadlocked hchair hcustomer hreach,
      Zem.served_add_waiting_of_free hchair hcustomer hinit hrun,
      hsound.nonneg, hsound.le, Zem.all_served hchair hcustomer hinit hrun⟩

/-- The only customer comes first in one program and second in the other, and is served. -/
theorem shop_progress_small :
    (∃ k₀ tr k, (Pthread.shop smallShop).init k₀ ∧ (Pthread.shop smallShop).Run k₀ tr k ∧
      k.mode none = .ready .home ∧ Pthread.seated tr = 1 ∧ Pthread.served tr = 1) ∧
    (∃ k₀ tr k, (Zem.shop smallShop).init k₀ ∧ (Zem.shop smallShop).Run k₀ tr k ∧
      k.locs none = .home ∧ Zem.seated tr = 1 ∧ Zem.served tr = 1) := by
  obtain ⟨hpthread, hzem⟩ := shop_progress smallShop (by decide) (by decide)
  constructor
  · obtain ⟨k₀, tr, k, hinit, hrun, hp⟩ := exists_run_of_play
      (Pthread.program smallShop) ⟨0, smallShop.customerCount⟩ Pthread.startAt
      (fun tr k => decide (k.mode none = .ready .home ∧ Pthread.seated tr = 1))
      [.run onlyCustomer 0 none, .run none 0 (some onlyCustomer), .run none 0 none, .run none 0 none]
      (by decide)
    obtain ⟨hhome, hseated⟩ := of_decide_eq_true hp
    have hserved := ((hpthread k₀ tr k hinit hrun).2.2.2.2 hhome).2
    exact ⟨k₀, tr, k, hinit, hrun, hhome, hseated, hserved.trans hseated⟩
  · obtain ⟨k₀, tr, k, hinit, hrun, hp⟩ := exists_run_of_play
      (Zemaphore.program (Zem.code smallShop)) ⟨Zem.startValue, ⟨0, smallShop.customerCount⟩⟩
      Zem.startAt (fun tr k => decide (k.locs none = .home ∧ Zem.seated tr = 1))
      -- The barber finds nobody and sleeps on `customer_z`.
      [.run none 0 none, .run none 0 none, .run none 0 none, .run none 0 none,
      -- The customer sits down and wakes it.
        .run onlyCustomer 0 none, .run onlyCustomer 0 none, .run onlyCustomer 0 none,
        .run onlyCustomer 0 none, .run onlyCustomer 0 (some none), .run onlyCustomer 0 none,
      -- The barber serves and goes home.
        .run none 0 none, .run none 0 none, .run none 0 none, .run none 0 none, .run none 0 none,
        .run none 0 none, .run none 0 none, .run none 0 none, .run none 0 none]
      (by decide)
    obtain ⟨hhome, hseated⟩ := of_decide_eq_true hp
    have hserved := ((hzem k₀ tr k hinit hrun).2.2.2.2 hhome).2
    exact ⟨k₀, tr, k, hinit, hrun, hhome, hseated, hserved.trans hseated⟩

/-! ## Nobody left to serve -/

section

variable {A : Args} {L : Type}

/-- The barber is at `b`, the first `m` customers are at `g` and the others at `a`. -/
def firstGone (b a g : L) (m : Nat) : Thread A → L
  | none   => b
  | some i => if i.val < m then g else a

theorem firstGone_update (b a g : L) {m : Nat} (h : m < A.customerCount) :
    Function.update (firstGone (A := A) b a g m) (some ⟨m, h⟩) a = firstGone b a g m :=
  Function.update_eq_self_iff.mpr (by simp [firstGone])

theorem firstGone_succ (b a g : L) {m : Nat} (h : m < A.customerCount) :
    Function.update (firstGone (A := A) b a g m) (some ⟨m, h⟩) g = firstGone b a g (m + 1) := by
  funext t
  cases t with
  | none => rfl
  | some i =>
      by_cases hi : i = ⟨m, h⟩
      · subst hi
        simp [firstGone]
      · have hne : i.val ≠ m := fun heq => hi (Fin.ext heq)
        have hlt : i.val < m ↔ i.val < m + 1 := by omega
        rw [Function.update_of_ne (by simpa using hi)]
        simp only [firstGone, hlt]

end

/-- All customers come, one after the other, while the barber is away; none can sit down. -/
theorem Pthread.reachable_firstGone {A : Args} (h : A.chairCount = 0 ∨ A.customerCount = 0) {m : Nat}
    (hm : m ≤ A.customerCount) :
    (shop A).Reachable ⟨⟨0, A.customerCount - m⟩,
      fun t => .ready (firstGone .lock .arrive .gone m t)⟩ := by
  induction m with
  | zero =>
      refine TransitionSystem.Reachable.init (congrArg₂ Config.mk ?_ ?_)
      · simp
      · funext t
        cases t <;> rfl
  | succ m ih =>
      have hchair : A.chairCount = 0 := by omega
      have hstep := reachable_goto (t := some ⟨m, hm⟩) (l := .gone) (ih (by omega))
        (customerArrive A) (by simp [program, firstGone]) (by simp [customerArrive, hchair])
      have hleft : (customerArrive A ⟨0, A.customerCount - m⟩).shared =
          ⟨0, A.customerCount - (m + 1 : Nat)⟩ := by
        simp only [customerArrive, hchair, if_true, Shared.mk.injEq, true_and]
        omega
      rw [firstGone_succ, hleft] at hstep
      exact hstep

theorem Pthread.exists_negative {A : Args} (h : A.chairCount = 0 ∨ A.customerCount = 0) :
    ∃ k, (shop A).Reachable k ∧ k.shared.waiting < 0 := by
  have hgone := reachable_firstGone h (le_refl A.customerCount)
  rw [Int.sub_self] at hgone
  exact ⟨_, reachable_goto (t := none) (l := .readComing) hgone barberServe
    (by simp [program, firstGone]) (by simp [barberServe]), by simp [barberServe]⟩

theorem Zem.reachable_firstGone {A : Args} (h : A.chairCount = 0 ∨ A.customerCount = 0) {m : Nat}
    (hm : m ≤ A.customerCount) :
    (shop A).Reachable ⟨⟨startValue, ⟨0, A.customerCount - m⟩⟩,
      fun t => .ready (firstGone .lock .arrive .gone m t)⟩ := by
  induction m with
  | zero =>
      refine TransitionSystem.Reachable.init (congrArg₂ Config.mk ?_ ?_)
      · simp
      · funext t
        cases t <;> rfl
  | succ m ih =>
      have hchair : A.chairCount = 0 := by omega
      have hbefore := ih (by omega)
      rw [← firstGone_update Pc.lock Pc.arrive Pc.gone hm] at hbefore
      have hlock := reachable_move hbefore (.arrive (by simp [startValue]))
      have hchoose := reachable_move hlock (.full hchair.symm)
      have hleave := reachable_move hchoose .leave
      have hunlock := reachable_move hleave .leaveUnlock
      rw [firstGone_succ] at hunlock
      refine cast (congrArg (fun s => (shop A).Reachable ⟨s, _⟩) ?_) hunlock
      refine congrArg₂ Zemaphore.Shared.mk (funext ?_) ?_
      · intro z
        cases z <;> rfl
      · simp [Zemaphore.Shared.setValue]
        omega

theorem Zem.exists_negative {A : Args} (h : A.chairCount = 0 ∨ A.customerCount = 0) :
    ∃ k, (shop A).Reachable k ∧ k.shared.data.waiting < 0 := by
  have hgone := reachable_firstGone h (le_refl A.customerCount)
  rw [Int.sub_self, ← Function.update_eq_self none (firstGone _ _ _ _)] at hgone
  have hlock := reachable_move hgone (.lock (by simp [startValue]))
  have htest := reachable_move hlock (.somebody (by simp [Zemaphore.Shared.setValue]))
  exact ⟨_, reachable_move htest .take, by simp [Zemaphore.Shared.setValue]⟩

/-- The barber serves only customers who have taken a chair, in each of the two programs, exactly
    if there is a chair and a customer. -/
theorem serves_only_seated_iff (A : Args) (hchair : 0 ≤ A.chairCount) :
    ((∀ k₀ tr k, (Pthread.shop A).init k₀ → (Pthread.shop A).Run k₀ tr k →
        0 ≤ k.shared.waiting ∧ Pthread.served tr ≤ Pthread.seated tr) ↔
      1 ≤ A.chairCount ∧ 1 ≤ A.customerCount) ∧
    ((∀ k₀ tr k, (Zem.shop A).init k₀ → (Zem.shop A).Run k₀ tr k →
        0 ≤ k.shared.data.waiting ∧ Zem.served tr ≤ Zem.seated tr) ↔
      1 ≤ A.chairCount ∧ 1 ≤ A.customerCount) := by
  refine ⟨⟨?_, ?_⟩, ⟨?_, ?_⟩⟩
  · intro hall
    by_contra hnot
    obtain ⟨k, ⟨k₀, tr, hinit, hrun⟩, hneg⟩ :=
      Pthread.exists_negative (show A.chairCount = 0 ∨ A.customerCount = 0 by omega)
    have := (hall k₀ tr k hinit hrun).1
    omega
  · rintro ⟨hchair, hcustomer⟩ k₀ tr k hinit hrun
    have hnonneg := (Pthread.sound_of_reachable hchair hcustomer ⟨k₀, tr, hinit, hrun⟩).nonneg
    have := Pthread.served_add_waiting hinit hrun
    exact ⟨hnonneg, by omega⟩
  · intro hall
    by_contra hnot
    obtain ⟨k, ⟨k₀, tr, hinit, hrun⟩, hneg⟩ :=
      Zem.exists_negative (show A.chairCount = 0 ∨ A.customerCount = 0 by omega)
    have := (hall k₀ tr k hinit hrun).1
    omega
  · rintro ⟨hchair, hcustomer⟩ k₀ tr k hinit hrun
    have hnonneg := (Zem.sound_of_reachable hchair hcustomer ⟨k₀, tr, hinit, hrun⟩).2.nonneg
    have := Zem.served_add_waiting hinit hrun
    exact ⟨hnonneg, by omega⟩

theorem serves_only_seated_iff_small :
    1 ≤ smallShop.chairCount ∧ 1 ≤ smallShop.customerCount ∧
    (∀ k₀ tr k, (Pthread.shop smallShop).init k₀ → (Pthread.shop smallShop).Run k₀ tr k →
      0 ≤ k.shared.waiting ∧ Pthread.served tr ≤ Pthread.seated tr) ∧
    (∀ k₀ tr k, (Zem.shop smallShop).init k₀ → (Zem.shop smallShop).Run k₀ tr k →
      0 ≤ k.shared.data.waiting ∧ Zem.served tr ≤ Zem.seated tr) := by
  obtain ⟨hpthread, hzem⟩ := serves_only_seated_iff smallShop (by decide)
  exact ⟨by decide, by decide, hpthread.mpr (by decide), hzem.mpr (by decide)⟩

/-- The customer comes and leaves, and the barber serves nobody. -/
theorem serves_nobody :
    (∃ k₀ tr k, (Pthread.shop standingShop).init k₀ ∧ (Pthread.shop standingShop).Run k₀ tr k ∧
      k.shared.waiting = -1 ∧ Pthread.served tr = 1 ∧ Pthread.seated tr = 0) ∧
    (∃ k₀ tr k, (Zem.shop standingShop).init k₀ ∧ (Zem.shop standingShop).Run k₀ tr k ∧
      k.shared.data.waiting = -1 ∧ Zem.served tr = 1 ∧ Zem.seated tr = 0) := by
  constructor
  · obtain ⟨k₀, tr, k, hinit, hrun, hp⟩ := exists_run_of_play
      (Pthread.program standingShop) ⟨0, standingShop.customerCount⟩ Pthread.startAt
      (fun tr k => decide (k.shared.waiting = -1 ∧ Pthread.served tr = 1 ∧ Pthread.seated tr = 0))
      [.run standingCustomer 0 none, .run none 0 none]
      (by decide)
    exact ⟨k₀, tr, k, hinit, hrun, of_decide_eq_true hp⟩
  · obtain ⟨k₀, tr, k, hinit, hrun, hp⟩ := exists_run_of_play
      (Zemaphore.program (Zem.code standingShop)) ⟨Zem.startValue, ⟨0, standingShop.customerCount⟩⟩
      Zem.startAt
      (fun tr k => decide (k.shared.data.waiting = -1 ∧ Zem.served tr = 1 ∧ Zem.seated tr = 0))
      [.run standingCustomer 0 none, .run standingCustomer 0 none, .run standingCustomer 0 none,
        .run standingCustomer 0 none, .run none 0 none, .run none 0 none, .run none 0 none,
        .run none 0 none, .run none 0 none]
      (by decide)
    exact ⟨k₀, tr, k, hinit, hrun, of_decide_eq_true hp⟩

end Barber
