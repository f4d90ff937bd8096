-- SUMMARY: Playing kernel code that sleeps and wakes up along a given schedule, down to the statements of proc.c, and why what is played is a run.
import OsLabs.Sleep.Model

/-!
# Schedules of the kernel

Which hart goes on, when a timer interrupt comes and which process a scheduler takes is settled by
a schedule. Along a schedule the statements of `sleep`, `wakeup`, `yield` and `kill` can be played.
-/

namespace Sleep

open Monitor

variable {n : Nat} {S C L E : Type}

/-- What happens next. -/
inductive Choice (n : Nat)
  /-- Process `t` goes on, with its `m`-th section if it has got `lk`. -/
  | run (t : Fin n) (m : Nat)
  /-- Process `t` is interrupted before it gets `lk`. -/
  | yield (t : Fin n)
  | lock (i : Fin n)
  | unlock (i : Fin n)
  | dispatch (i : Fin n)
  | kill (i : Fin n)

variable [DecidableEq C]

/-- The next statement of process `t`, if it has one and need not wait for a spin lock. -/
def State.runs (P : Program S C L E) (k : State n S C L) (t : Fin n) (m : Nat) :
    Option (Label n E × State n S C L) :=
  match k.pc t with
  | .enter w l =>
      if k.lk = none then some (.run t, { k with lk := some t }.goto t (.inside w l)) else none
  | .inside _ l => do
      let f ← (P.sections l)[m]?
      some (.exec t (f k.shared).event,
        { k with shared := (f k.shared).shared }.goto t (.after (f k.shared)))
  | .scan i c next =>
      if h : i < n then
        if i = t then some (.run t, k.goto t (.scan (t + 1) c next))
        else if k.plock ⟨i, h⟩ = none then
          some (.run t, (k.setLock ⟨i, h⟩ (some (.proc t))).goto t (.look i c next))
        else none
      else some (.run t, k.goto t (.leave next))
  | .look i c next =>
      if h : i < n then some (.run t, (k.wakeup ⟨i, h⟩ c).goto t (.drop i c next)) else none
  | .drop i c next =>
      if h : i < n then some (.run t, (k.setLock ⟨i, h⟩ none).goto t (.scan (i + 1) c next))
      else none
  | .leave (.goto l) => some (.run t, { k with lk := none }.goto t (.enter none l))
  | .leave (.wait c l) =>
      if k.plock t = none then some (.run t, (k.setLock t (some (.proc t))).goto t (.locked c l))
      else none
  | .locked c l   => some (.run t, { k with lk := none }.goto t (.unlocked c l))
  | .unlocked c l => some (.run t, (k.setChan t (some c)).goto t (.marked c l))
  | .marked c l   => some (.run t, (k.setState t .sleeping).goto t (.asleep c l))
  | .asleep c l   => some (.run t, (k.setLock t none).goto t (.off c l))
  | .resumed c l  => some (.run t, (k.setChan t none).goto t (.tidied c l))
  | .tidied c l   => some (.run t, (k.setLock t none).goto t (.enter (some c) l))
  | .yields w l   => some (.run t, (k.setState t .runnable).goto t (.yielded w l))
  | .yielded w l  => some (.run t, (k.setLock t none).goto t (.preempted w l))
  | .returned w l => some (.run t, (k.setLock t none).goto t (.enter w l))
  | .off _ _ | .preempted _ _ => none

def State.next (P : Program S C L E) (k : State n S C L) :
    Choice n → Option (Label n E × State n S C L)
  | .run t m => k.runs P t m
  | .yield t =>
      match k.pc t with
      | .enter w l =>
          if k.plock t = none then
            some (.run t, (k.setLock t (some (.proc t))).goto t (.yields w l))
          else none
      | _ => none
  | .lock i =>
      if k.plock i = none then some (.lock i, k.setLock i (some .other)) else none
  | .unlock i =>
      if k.plock i = some .other then some (.unlock i, k.setLock i none) else none
  | .kill i =>
      if k.plock i = some .other ∧ k.state i = .sleeping then
        some (.kill i, k.setState i .runnable)
      else none
  | .dispatch i =>
      if k.plock i = some .other ∧ k.state i = .runnable then
        match k.pc i with
        | .off c l =>
            some (.dispatch i,
              ((k.setLock i (some (.proc i))).setState i .running).goto i (.resumed c l))
        | .preempted w l =>
            some (.dispatch i,
              ((k.setLock i (some (.proc i))).setState i .running).goto i (.returned w l))
        | _ => none
      else none

variable {P : Program S C L E} {k k' : State n S C L} {e : Label n E}

theorem State.runs_step {t : Fin n} {m : Nat} (h : k.runs P t m = some (e, k')) :
    Step P k e k' := by
  cases hpc : k.pc t with
  | enter w l =>
      simp only [State.runs, hpc, Option.ite_none_right_eq_some, Option.some.injEq] at h
      obtain ⟨hlk, hk⟩ := h
      cases hk
      exact .acquire hpc hlk
  | inside w l =>
      simp only [State.runs, hpc, Option.bind_eq_bind, Option.bind_eq_some_iff] at h
      obtain ⟨f, hf, hk⟩ := h
      cases hk
      exact .exec hpc (List.mem_of_getElem? hf)
  | scan i c next =>
      simp only [State.runs, hpc] at h
      split at h
      · rename_i hi
        split at h
        · rename_i hself
          subst hself
          cases h
          exact .scanSelf hpc
        · rename_i hother
          obtain ⟨hfree, hk⟩ := Option.ite_none_right_eq_some.mp h
          cases hk
          exact .scanLock (i := ⟨i, hi⟩) hpc (fun heq => hother (congrArg Fin.val heq)) hfree
      · rename_i hi
        cases h
        exact .scanEnd hpc (not_lt.mp hi)
  | look i c next =>
      simp only [State.runs, hpc, Option.dite_none_right_eq_some] at h
      obtain ⟨hi, hk⟩ := h
      cases hk
      exact .scanLook (i := ⟨i, hi⟩) hpc
  | drop i c next =>
      simp only [State.runs, hpc, Option.dite_none_right_eq_some] at h
      obtain ⟨hi, hk⟩ := h
      cases hk
      exact .scanDrop (i := ⟨i, hi⟩) hpc
  | leave next =>
      cases next with
      | goto l =>
          simp only [State.runs, hpc] at h
          cases h
          exact .release hpc
      | wait c l =>
          simp only [State.runs, hpc, Option.ite_none_right_eq_some] at h
          obtain ⟨hfree, hk⟩ := h
          cases hk
          exact .sleepLock hpc hfree
  | off c l | preempted w l => simp [State.runs, hpc] at h
  | _ =>
      simp only [State.runs, hpc] at h
      cases h
      first
        | exact .sleepRelease hpc
        | exact .sleepChan hpc
        | exact .sleepState hpc
        | exact .sleepSwtch hpc
        | exact .sleepTidy hpc
        | exact .sleepUnlock hpc
        | exact .yieldState hpc
        | exact .yieldSwtch hpc
        | exact .yieldUnlock hpc

theorem State.next_step {c : Choice n} (h : k.next P c = some (e, k')) : Step P k e k' := by
  cases c with
  | run t m => exact State.runs_step h
  | yield t =>
      simp only [State.next] at h
      split at h
      · rename_i w l hpc
        obtain ⟨hfree, hk⟩ := Option.ite_none_right_eq_some.mp h
        cases hk
        exact .yieldLock hpc hfree
      · cases h
  | lock i =>
      obtain ⟨hfree, hk⟩ := Option.ite_none_right_eq_some.mp h
      cases hk
      exact .lock hfree
  | unlock i =>
      obtain ⟨hheld, hk⟩ := Option.ite_none_right_eq_some.mp h
      cases hk
      exact .unlock hheld
  | kill i =>
      obtain ⟨⟨hheld, hst⟩, hk⟩ := Option.ite_none_right_eq_some.mp h
      cases hk
      exact .kill hheld hst
  | dispatch i =>
      obtain ⟨⟨hheld, hst⟩, hk⟩ := Option.ite_none_right_eq_some.mp h
      split at hk
      · rename_i c l hpc
        cases hk
        exact .dispatch hheld hst hpc
      · rename_i w l hpc
        cases hk
        exact .redispatch hheld hst hpc
      · cases hk

/-- The steps along a schedule from the start of `system P s₀ start`, and the state they lead to. -/
def play (P : Program S C L E) (s₀ : S) (start : Fin n → L) (cs : List (Choice n)) :
    Option (List (State n S C L × Label n E) × State n S C L) :=
  TransitionSystem.follow (fun k c => State.next P k c) cs
    ⟨s₀, none, fun _ => none, fun _ => .running, fun _ => none, fun t => .enter none (start t)⟩

/-- A schedule that can be played to an end where `p` holds gives a run. -/
theorem exists_run_of_play (P : Program S C L E) (s₀ : S) (start : Fin n → L)
    (p : List (State n S C L × Label n E) → State n S C L → Bool) (cs : List (Choice n))
    (h : (play P s₀ start cs).any (fun r => p r.1 r.2) = true) :
    ∃ k₀ tr k, (system P s₀ start).init k₀ ∧ (system P s₀ start).Run k₀ tr k ∧ p tr k = true := by
  obtain ⟨tr, k, hrun, hp⟩ := TransitionSystem.exists_run_of_follow
    (M := system P s₀ start) (fun _ _ _ _ => State.next_step) cs _ p h
  exact ⟨_, tr, k, rfl, hrun, hp⟩

end Sleep
