-- SUMMARY: Playing a monitor program along a given schedule, and why what is played is a run.
import OsLabs.Lib.Monitor

/-!
# Schedules

The steps of a monitor are a relation, because POSIX does not say who gets the mutex and
whom a signal wakes. A schedule settles both, and then a program can be played: this is
how a concrete run is found by computation.
-/

namespace Monitor

variable {T S C L E : Type}

/-- What happens next: the thread `t` runs its `n`-th section, whose signal, if it sends
    one, goes to the sleeper `dst` or is lost; or `t` wakes up by itself. -/
inductive Choice (T : Type)
  | run (t : T) (n : Nat) (dst : Option T)
  | spurious (t : T)

variable [DecidableEq T] [DecidableEq C] [Fintype T]

/-- The modes after the wakeup `w`, if a signal of it can go to `dst`. -/
def playWake (w : Wake C) (m : T → Mode C L) (dst : Option T) : Option (T → Mode C L) :=
  match w, dst with
  | .none, _          => some m
  | .broadcast c, _   => some fun t => (m t).wakeOn c
  | .signal c, some t =>
      if (m t).asleepOn c then some (Function.update m t ((m t).wakeOn c)) else none
  | .signal c, none   => if ∀ t, ¬ (m t).asleepOn c then some m else none

theorem playWake_wakes {w : Wake C} {m m' : T → Mode C L} {dst : Option T}
    (h : playWake w m dst = some m') : Wakes w m m' := by
  unfold playWake at h
  split at h
  · cases h
    exact .none
  · cases h
    exact .broadcast
  · split at h
    · rename_i hasleep
      cases h
      exact .signal hasleep
    · cases h
  · split at h
    · rename_i hnone
      cases h
      exact .lost hnone
    · cases h

def Config.next (P : Program S C L E) (k : Config T S C L) :
    Choice T → Option (Label T E × Config T S C L)
  | .run t n dst => do
      let l ← (k.mode t).pc?
      let f ← (P.sections l)[n]?
      let m ← playWake (f k.shared).wake k.mode dst
      some (.exec t (f k.shared).event,
        ⟨(f k.shared).shared, Function.update m t (f k.shared).next.mode⟩)
  | .spurious t =>
      match k.mode t with
      | .asleep c l => some (.spurious t, ⟨k.shared, Function.update k.mode t (.woken c l)⟩)
      | _           => none

theorem Config.next_step {P : Program S C L E} {k k' : Config T S C L} {c : Choice T}
    {e : Label T E} (h : k.next P c = some (e, k')) : Step P k e k' := by
  cases c with
  | run t n dst =>
      simp only [Config.next, Option.bind_eq_bind, Option.bind_eq_some_iff] at h
      obtain ⟨l, hpc, f, hf, m, hm, hk⟩ := h
      cases hk
      exact .exec hpc (List.mem_of_getElem? hf) (playWake_wakes hm)
  | spurious t =>
      simp only [Config.next] at h
      split at h
      · rename_i c l ht
        cases h
        exact .spurious ht
      · cases h

/-- The steps along a schedule and the state they lead to. -/
def Config.play (P : Program S C L E) :
    List (Choice T) → Config T S C L → Option (List (Config T S C L × Label T E) × Config T S C L) :=
  TransitionSystem.follow fun k c => k.next P c

variable {P : Program S C L E} {s₀ : S} {start : T → L}

omit [Fintype T] in
/-- As long as nobody waits, wakeups are lost, and threads go from point to point. -/
theorem reachable_goto {s : S} {ls : T → L} {t : T} {l : L}
    (h : (systemOf P s₀ start).Reachable (⟨s, fun u => .ready (ls u)⟩ : Config T S C L))
    (f : S → Outcome S C L E) (hf : f ∈ P.sections (ls t)) (hnext : (f s).next = .goto l) :
    (systemOf P s₀ start).Reachable
      ⟨(f s).shared, fun u => .ready (Function.update ls t l u)⟩ := by
  have hwakes : ∀ w : Wake C, Wakes (T := T) w (fun u => .ready (ls u)) fun u => .ready (ls u) := by
    intro w
    cases w with
    | none => exact .none
    | signal c => exact .lost fun u => by simp
    | broadcast c => exact .broadcast
  refine h.step (Step.exec_to f rfl hf (hwakes _) rfl rfl ?_)
  funext u
  rw [hnext]
  exact Function.apply_update (fun _ => Mode.ready) ls t l u

/-- A schedule that can be played to an end where `p` holds gives a run. -/
theorem exists_run_of_play (P : Program S C L E) (s₀ : S) (start : T → L)
    (p : List (Config T S C L × Label T E) → Config T S C L → Bool) (cs : List (Choice T))
    (h : ((Config.mk s₀ fun t => .ready (start t)).play P cs).any (fun r => p r.1 r.2) = true) :
    ∃ k₀ tr k, (systemOf P s₀ start).init k₀ ∧ (systemOf P s₀ start).Run k₀ tr k ∧
      p tr k = true := by
  obtain ⟨tr, k, hrun, hp⟩ := TransitionSystem.exists_run_of_follow
    (M := systemOf P s₀ start) (fun _ _ _ _ => Config.next_step) cs _ p h
  exact ⟨_, tr, k, rfl, hrun, hp⟩

end Monitor
