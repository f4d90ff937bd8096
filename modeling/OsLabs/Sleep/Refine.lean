-- SUMMARY: Sleep and wakeup are condition variables: the locks of the process table make releasing a lock and falling asleep one step, and a wakeup that takes one process after the other one broadcast.
import OsLabs.Lib.Simulation
import OsLabs.Sleep.Schedule

/-!
# No wakeup is missed

The processes of `Sleep.system` do what the threads of `Monitor.systemOf` do. A process is asleep
for its peers from the moment it has decided to sleep, with `lk` in its hands, even though
`p->state` is set much later. A `wakeup` takes effect for all sleepers at once when it
starts, even though it gets to them one by one: nobody else gets `lk` before it is through, and a
sleeper that still has to set `p->state` holds its `p->lock` until then.
-/

namespace Sleep

open Monitor TransitionSystem

variable {n : Nat} {S C L E : Type} {P : Program S C L E}

/-! ## What the locks say -/

/-- The process holds `lk`. -/
def Pc.holds : Pc C L → Bool
  | .inside _ _ | .scan _ _ _ | .look _ _ _ | .drop _ _ _ | .leave _ | .locked _ _ => true
  | _ => false

/-- The process holds its own `p->lock`. -/
def Pc.holdsOwn : Pc C L → Bool
  | .locked _ _ | .unlocked _ _ | .marked _ _ | .asleep _ _ | .resumed _ _ | .tidied _ _
  | .yields _ _ | .yielded _ _ | .returned _ _ => true
  | _ => false

/-- The process whose lock the caller of `wakeup` holds. -/
def Pc.looksAt : Pc C L → Option Nat
  | .look i _ _ | .drop i _ _ => some i
  | _ => none

/-- The channel in `p->chan`. -/
def Pc.chan : Pc C L → Option C
  | .marked c _ | .asleep c _ | .off c _ | .resumed c _ => some c
  | _ => none

/-- The process is in `sleep`, with `p->state` set, or off its hart. -/
def Pc.sleeps : Pc C L → Bool
  | .asleep _ _ | .off _ _ => true
  | _ => false

/-- What the locks and the fields of process `t` say about where it is. -/
structure State.ProcOk (k : State n S C L) (t : Fin n) : Prop where
  lk : (k.pc t).holds = true ↔ k.lk = some t
  own : (k.pc t).holdsOwn = true → k.plock t = some (.proc t)
  looksAt : ∀ i : Fin n, (k.pc t).looksAt = some i.val → k.plock i = some (.proc t) ∧ i ≠ t
  chan : ∀ c, (k.pc t).chan = some c → k.chan t = some c
  asleep : ∀ c l, k.pc t = .asleep c l → k.state t = .sleeping
  sleeps : k.state t = .sleeping → (k.pc t).sleeps = true

def State.Ok (k : State n S C L) : Prop := ∀ t, k.ProcOk t

/-- What a step for one process leaves to another process `u`. -/
structure Frame (k k' : State n S C L) (u : Fin n) : Prop where
  pc : k'.pc u = k.pc u
  lk : k'.lk = some u ↔ k.lk = some u
  plock : ∀ i, k.plock i = some (.proc u) → k'.plock i = some (.proc u)
  chan : k'.chan u = k.chan u
  state : k.plock u = some (.proc u) → k'.state u = k.state u
  sleeping : k'.state u = .sleeping → k.state u = .sleeping

section

variable {k k' k'' : State n S C L} {t u i : Fin n}

theorem Frame.refl (k : State n S C L) (u : Fin n) : Frame k k u :=
  ⟨rfl, .rfl, fun _ => id, rfl, fun _ => rfl, id⟩

theorem Frame.trans (h : Frame k k' u) (h' : Frame k' k'' u) : Frame k k'' u where
  pc := h'.pc.trans h.pc
  lk := h'.lk.trans h.lk
  plock i hi := h'.plock i (h.plock i hi)
  chan := h'.chan.trans h.chan
  state hu := (h'.state (h.plock u hu)).trans (h.state hu)
  sleeping hu := h.sleeping (h'.sleeping hu)

theorem frame_goto (hu : u ≠ t) (pc : Pc C L) : Frame k (k.goto t pc) u :=
  ⟨by simp [hu], .rfl, fun _ => id, rfl, fun _ => rfl, id⟩

theorem frame_setShared (s : S) : Frame k { k with shared := s } u :=
  ⟨rfl, .rfl, fun _ => id, rfl, fun _ => rfl, id⟩

theorem frame_setLk (h : k.lk ≠ some u) {o : Option (Fin n)} (ho : o ≠ some u) :
    Frame k { k with lk := o } u :=
  ⟨rfl, by simp [h, ho], fun _ => id, rfl, fun _ => rfl, id⟩

theorem frame_setLock (h : k.plock i ≠ some (.proc u)) (o : Option (Owner n)) :
    Frame k (k.setLock i o) u := by
  refine ⟨rfl, .rfl, fun j hj => ?_, rfl, fun _ => rfl, id⟩
  have hji : j ≠ i := by
    rintro rfl
    exact h hj
  simpa [hji] using hj

theorem frame_setState {st : Procstate}
    (h : u = i → k.plock i ≠ some (.proc u) ∧ st ≠ .sleeping) :
    Frame k (k.setState i st) u := by
  refine ⟨rfl, .rfl, fun _ => id, rfl, fun hu => ?_, fun hst => ?_⟩
  · have hui : u ≠ i := by
      rintro rfl
      exact (h rfl).1 hu
    simp [hui]
  · by_cases hui : u = i
    · subst hui
      rw [setState_state, Function.update_self] at hst
      exact absurd hst (h rfl).2
    · simpa [hui] using hst

theorem frame_setChan (hu : u ≠ i) (c : Option C) : Frame k (k.setChan i c) u :=
  ⟨rfl, .rfl, fun _ => id, by simp [hu], fun _ => rfl, id⟩

theorem State.ProcOk.frame (h : k.ProcOk u) (hf : Frame k k' u) : k'.ProcOk u where
  lk := by rw [hf.pc, hf.lk, h.lk]
  own hown := hf.plock u (h.own (hf.pc ▸ hown))
  looksAt i hi := by
    obtain ⟨hpl, hne⟩ := h.looksAt i (hf.pc ▸ hi)
    exact ⟨hf.plock i hpl, hne⟩
  chan c hc := by
    rw [hf.chan]
    exact h.chan c (hf.pc ▸ hc)
  asleep c l hpc := by
    have hpc : k.pc u = .asleep c l := hf.pc ▸ hpc
    rw [hf.state (h.own (by rw [hpc]; rfl))]
    exact h.asleep c l hpc
  sleeps hst := by
    rw [hf.pc]
    exact h.sleeps (hf.sleeping hst)

end

/-- The process that a step is about. -/
def Label.target : Label n E → Fin n
  | .exec t _ | .run t | .lock t | .unlock t | .dispatch t | .kill t => t

variable [DecidableEq C] {k k' : State n S C L} {e : Label n E} {t u i : Fin n}

theorem wakeup_eq (k : State n S C L) (i : Fin n) (c : C) :
    k.wakeup i c = k ∨ k.state i = .sleeping ∧ k.chan i = some c ∧
      k.wakeup i c = k.setState i .runnable := by
  unfold State.wakeup
  split
  · rename_i h
    exact .inr ⟨h.1, h.2, rfl⟩
  · exact .inl rfl

theorem Step.frame (hs : Step P k e k') (h : k.ProcOk e.target) (hu : u ≠ e.target) :
    Frame k k' u := by
  -- Nobody but `u` holds what is locked for `u`.
  have hnone : ∀ {i : Fin n}, k.plock i = none → k.plock i ≠ some (.proc u) := by
    intro i hi
    simp [hi]
  have hother : ∀ {i : Fin n}, k.plock i = some .other → k.plock i ≠ some (.proc u) := by
    intro i hi
    simp [hi]
  have hmine : ∀ {i : Fin n}, k.plock i = some (.proc e.target) → k.plock i ≠ some (.proc u) := by
    intro i hi
    simp [hi, Ne.symm hu]
  have hne : some e.target ≠ some u := by simpa using Ne.symm hu
  cases hs <;> dsimp only [Label.target] at h hu hmine hne
  case acquire hpc hfree => exact (frame_setLk (by simp [hfree]) hne).trans (frame_goto hu _)
  case exec hpc hf => exact (frame_setShared _).trans (frame_goto hu _)
  case scanSelf hpc => exact frame_goto hu _
  case scanLock hpc hi hfree => exact (frame_setLock (hnone hfree) _).trans (frame_goto hu _)
  case scanLook t i c next hpc =>
      have hi := (h.looksAt i (by rw [hpc]; rfl)).1
      refine .trans ?_ (frame_goto hu _)
      rcases wakeup_eq k i c with heq | ⟨-, -, heq⟩
      · rw [heq]
        exact .refl k u
      · rw [heq]
        exact frame_setState fun _ => ⟨hmine hi, by decide⟩
  case scanDrop t i c next hpc =>
      have hi := (h.looksAt i (by rw [hpc]; rfl)).1
      exact (frame_setLock (hmine hi) _).trans (frame_goto hu _)
  case scanEnd hpc hi => exact frame_goto hu _
  case release hpc =>
      have hlk := h.lk.mp (by rw [hpc]; rfl)
      exact (frame_setLk (by rwa [hlk]) (by simp)).trans (frame_goto hu _)
  case sleepLock hpc hfree => exact (frame_setLock (hnone hfree) _).trans (frame_goto hu _)
  case sleepRelease hpc =>
      have hlk := h.lk.mp (by rw [hpc]; rfl)
      exact (frame_setLk (by rwa [hlk]) (by simp)).trans (frame_goto hu _)
  case sleepChan hpc => exact (frame_setChan hu _).trans (frame_goto hu _)
  case sleepState hpc => exact (frame_setState fun heq => absurd heq hu).trans (frame_goto hu _)
  case sleepSwtch hpc =>
      have hi := h.own (by rw [hpc]; rfl)
      exact (frame_setLock (hmine hi) _).trans (frame_goto hu _)
  case sleepTidy hpc => exact (frame_setChan hu _).trans (frame_goto hu _)
  case sleepUnlock hpc =>
      have hi := h.own (by rw [hpc]; rfl)
      exact (frame_setLock (hmine hi) _).trans (frame_goto hu _)
  case yieldLock hpc hfree => exact (frame_setLock (hnone hfree) _).trans (frame_goto hu _)
  case yieldState hpc => exact (frame_setState fun heq => absurd heq hu).trans (frame_goto hu _)
  case yieldSwtch hpc =>
      have hi := h.own (by rw [hpc]; rfl)
      exact (frame_setLock (hmine hi) _).trans (frame_goto hu _)
  case yieldUnlock hpc =>
      have hi := h.own (by rw [hpc]; rfl)
      exact (frame_setLock (hmine hi) _).trans (frame_goto hu _)
  case lock hfree => exact frame_setLock (hnone hfree) _
  case unlock hheld => exact frame_setLock (hother hheld) _
  case kill hheld hst => exact frame_setState fun _ => ⟨hother hheld, by decide⟩
  case dispatch hheld hst hpc =>
      exact ((frame_setLock (hother hheld) _).trans (frame_setState fun heq => absurd heq hu)).trans
        (frame_goto hu _)
  case redispatch hheld hst hpc =>
      exact ((frame_setLock (hother hheld) _).trans (frame_setState fun heq => absurd heq hu)).trans
        (frame_goto hu _)

omit [DecidableEq C] in
theorem after_eq (o : Outcome S C L E) :
    Pc.after o = .leave o.next ∧ o.wake = .none ∨
      ∃ c, Pc.after o = .scan 0 c o.next ∧ (o.wake = .signal c ∨ o.wake = .broadcast c) := by
  unfold Pc.after
  cases o.wake with
  | none => exact .inl ⟨rfl, rfl⟩
  | signal c => exact .inr ⟨c, rfl, .inl rfl⟩
  | broadcast c => exact .inr ⟨c, rfl, .inr rfl⟩

theorem Step.procOk (hs : Step P k e k') (h : k.ProcOk e.target) : k'.ProcOk e.target := by
  obtain ⟨hlk, hown, hlook, hchan, hasleep, hsleeps⟩ := h
  cases hs <;> dsimp only [Label.target] at hlk hown hlook hchan hasleep hsleeps ⊢
  case exec t w l f hpc hf =>
      have hrun : k.state t ≠ .sleeping := fun hst => by simpa [hpc, Pc.sleeps] using hsleeps hst
      rw [hpc] at hlk
      rcases after_eq (f k.shared) with ⟨hafter, -⟩ | ⟨c, hafter, -⟩
      · constructor <;> simp [hafter, hrun, Pc.holds, Pc.holdsOwn, Pc.looksAt, Pc.chan, ← hlk]
      · constructor <;> simp [hafter, hrun, Pc.holds, Pc.holdsOwn, Pc.looksAt, Pc.chan, ← hlk]
  case scanLook t i c next hpc =>
      have hrun : k.state t ≠ .sleeping := fun hst => by simpa [hpc, Pc.sleeps] using hsleeps hst
      rw [hpc] at hlk hlook
      have hi := hlook i rfl
      have hk : (k.wakeup i c).lk = k.lk ∧ (k.wakeup i c).plock = k.plock ∧
          (k.wakeup i c).state t = k.state t := by
        rcases wakeup_eq k i c with heq | ⟨-, -, heq⟩
        · rw [heq]
          exact ⟨rfl, rfl, rfl⟩
        · rw [heq]
          exact ⟨rfl, rfl, Function.update_of_ne (Ne.symm hi.2) ..⟩
      constructor
      · simpa [hk.1, Pc.holds] using hlk
      · simp [Pc.holdsOwn]
      · intro j hj
        obtain rfl : i = j := by simpa [Pc.looksAt, Fin.val_inj] using hj
        simpa [hk.2.1] using hi
      · simp [Pc.chan]
      · simp
      · simp [hk.2.2, hrun]
  case scanLock t i c next hpc hne hfree =>
      have hrun : k.state t ≠ .sleeping := fun hst => by simpa [hpc, Pc.sleeps] using hsleeps hst
      rw [hpc] at hlk
      constructor
      · simpa [Pc.holds] using hlk
      · simp [Pc.holdsOwn]
      · intro j hj
        obtain rfl : i = j := by simpa [Pc.looksAt, Fin.val_inj] using hj
        simp [hne]
      · simp [Pc.chan]
      · simp
      · simp [hrun]
  case kill i hheld hst =>
      refine ⟨hlk, hown, hlook, hchan, fun c l hpc => ?_, by simp⟩
      rw [setState_pc] at hpc
      have hmine := hown (by rw [hpc]; rfl)
      simp [hheld] at hmine
  case lock i hfree =>
      refine ⟨hlk, fun ho => ?_, fun j hj => ?_, hchan, hasleep, hsleeps⟩
      · simp [hown ho] at hfree
      · simpa [(hlook j hj).2] using (hlook j hj).1
  case unlock i hheld =>
      refine ⟨hlk, fun ho => ?_, fun j hj => ?_, hchan, hasleep, hsleeps⟩
      · simp [hown ho] at hheld
      · simpa [(hlook j hj).2] using (hlook j hj).1
  all_goals
    constructor <;> simp_all [Pc.holds, Pc.holdsOwn, Pc.looksAt, Pc.chan, Pc.sleeps]

theorem Step.ok (hs : Step P k e k') (h : k.Ok) : k'.Ok := by
  intro u
  by_cases hu : u = e.target
  · rw [hu]
    exact hs.procOk (h e.target)
  · exact (h u).frame (hs.frame (h e.target) hu)

theorem ok_of_reachable {s₀ : S} {start : Fin n → L} (h : (system P s₀ start).Reachable k) :
    k.Ok := by
  refine h.invariant ?_ fun k e k' _ hk hs => Step.ok hs hk
  rintro k rfl t
  constructor <;> simp [Pc.holds, Pc.holdsOwn, Pc.looksAt, Pc.chan]

/-! ## Who sleeps -/

/-- The channel that the caller of `wakeup` still has to wake process `t` from. -/
def Pc.pending (t : Fin n) : Pc C L → Option C
  | .scan i c _ => if i ≤ t then some c else none
  | .look i c _ => if i ≤ t then some c else none
  | .drop i c _ => if i < t then some c else none
  | _ => none

/-- The channel that process `t` is being woken from, by whoever holds `lk`. -/
def State.pending (k : State n S C L) (t : Fin n) : Option C :=
  k.lk.bind fun u => (k.pc u).pending t

/-- A process that wants `lk`, for the first time or back. -/
def comes : Option C → L → Mode C L
  | none, l   => .ready l
  | some c, l => .woken c l

/-- What other processes can tell about a process in state `st` for which a wakeup on `pend` is on
    its way. -/
def Pc.mode (st : Procstate) (pend : Option C) : Pc C L → Mode C L
  | .enter w l | .inside w l | .yields w l | .yielded w l | .preempted w l | .returned w l =>
      comes w l
  | .scan _ _ next | .look _ _ next | .drop _ _ next | .leave next => next.mode
  | .locked c l | .unlocked c l | .marked c l | .asleep c l =>
      if pend = some c then .woken c l else .asleep c l
  | .off c l => if st = .sleeping ∧ pend ≠ some c then .asleep c l else .woken c l
  | .resumed c l | .tidied c l => .woken c l

def State.mode (k : State n S C L) (t : Fin n) : Mode C L :=
  (k.pc t).mode (k.state t) (k.pending t)

def State.config (k : State n S C L) : Config (Fin n) S C L := ⟨k.shared, k.mode⟩

omit [DecidableEq C] in
theorem State.ProcOk.pending_eq (h : k.ProcOk t) (ht : (k.pc t).holds = true) (u : Fin n) :
    k.pending u = (k.pc t).pending u := by
  rw [State.pending, h.lk.mp ht]
  rfl

omit [DecidableEq C] in
theorem pending_of_free (h : k.lk = none) (u : Fin n) : k.pending u = none := by
  rw [State.pending, h]
  rfl

omit [DecidableEq C] in
/-- A process without `lk` takes no part in a wakeup. -/
theorem State.ProcOk.pending_goto (h : k.ProcOk t) (ht : (k.pc t).holds = false)
    (hlk : k'.lk = k.lk) (hpc : ∀ u, u ≠ t → k'.pc u = k.pc u) (u : Fin n) :
    k'.pending u = k.pending u := by
  rw [State.pending, State.pending, hlk]
  cases hv : k.lk with
  | none => rfl
  | some v =>
      have hvt : v ≠ t := by
        rintro rfl
        simp [h.lk.mpr hv] at ht
      exact congrArg (Pc.pending u) (hpc v hvt)

/-- A step that is not seen: process `t` goes on without anybody noticing, and nothing changes for
    the others. -/
theorem config_eq (hshared : k'.shared = k.shared) (hpc : ∀ u, u ≠ t → k'.pc u = k.pc u)
    (hst : ∀ u, u ≠ t → k'.state u = k.state u) (hpend : ∀ u, u ≠ t → k'.pending u = k.pending u)
    (ht : k'.mode t = k.mode t) : k'.config = k.config := by
  have hmode : k'.mode = k.mode := by
    funext u
    by_cases hu : u = t
    · rw [hu, ht]
    · rw [State.mode, State.mode, hpc u hu, hst u hu, hpend u hu]
  rw [State.config, State.config, hshared, hmode]

/-- A step without `lk`. -/
theorem config_eq_outside (h : k.ProcOk t) (ht : (k.pc t).holds = false)
    (hshared : k'.shared = k.shared) (hlk : k'.lk = k.lk) (hpc : ∀ u, u ≠ t → k'.pc u = k.pc u)
    (hst : ∀ u, u ≠ t → k'.state u = k.state u)
    (hmode : ∀ pend, (k'.pc t).mode (k'.state t) pend = (k.pc t).mode (k.state t) pend) :
    k'.config = k.config := by
  have hpend := h.pending_goto ht hlk hpc
  refine config_eq hshared hpc hst (fun u _ => hpend u) ?_
  rw [State.mode, State.mode, hpend, hmode]

/-- A step with `lk`. -/
theorem config_eq_inside (h : k.ProcOk t) (h' : k'.ProcOk t) (ht : (k.pc t).holds = true)
    (ht' : (k'.pc t).holds = true) (hshared : k'.shared = k.shared)
    (hpc : ∀ u, u ≠ t → k'.pc u = k.pc u) (hst : k'.state = k.state)
    (hpend : ∀ u, u ≠ t → (k'.pc t).pending u = (k.pc t).pending u)
    (hmode : ∀ st, (k'.pc t).mode st ((k'.pc t).pending t) =
      (k.pc t).mode st ((k.pc t).pending t)) :
    k'.config = k.config := by
  have heq := h.pending_eq ht
  have heq' := h'.pending_eq ht'
  refine config_eq hshared hpc (fun u _ => congrFun hst u) (fun u hu => ?_) ?_
  · rw [heq, heq', hpend u hu]
  · rw [State.mode, State.mode, heq, heq', hst, hmode]

/-- A step that takes or releases `lk`. -/
theorem config_eq_lk (hshared : k'.shared = k.shared) (hpc : ∀ u, u ≠ t → k'.pc u = k.pc u)
    (hst : k'.state = k.state) (hpend : ∀ u, k.pending u = none) (hpend' : ∀ u, k'.pending u = none)
    (hmode : ∀ st, (k'.pc t).mode st none = (k.pc t).mode st none) : k'.config = k.config := by
  refine config_eq hshared hpc (fun u _ => congrFun hst u) (fun u _ => ?_) ?_
  · rw [hpend, hpend']
  · rw [State.mode, State.mode, hpend, hpend', hst, hmode]

/-- A process whose own lock is free is on its way to `lk`, in the hands of a waker, or off its
    hart. Its state matters in the last case only. -/
theorem Pc.mode_eq {pc : Pc C L} (hown : pc.holdsOwn = false) (hoff : ∀ c l, pc ≠ .off c l)
    (st st' : Procstate) (pend pend' : Option C) : pc.mode st pend = pc.mode st' pend' := by
  cases pc with
  | off c l => exact absurd rfl (hoff c l)
  | locked | unlocked | marked | asleep => cases hown
  | _ => rfl

/-- The process that is looked at has been awake since the wakeup started. -/
theorem config_wakeup {c : C} {next : Next C L} (h : k.Ok) (hpc : k.pc t = .look i c next) :
    ((k.wakeup i c).goto t (.drop i c next)).config = k.config := by
  obtain ⟨hlocked, hne⟩ := (h t).looksAt i (by rw [hpc]; rfl)
  have hlk : k.lk = some t := (h t).lk.mp (by rw [hpc]; rfl)
  obtain ⟨hwlk, hwpc, hwshared⟩ : (k.wakeup i c).lk = k.lk ∧ (k.wakeup i c).pc = k.pc ∧
      (k.wakeup i c).shared = k.shared := by
    rcases wakeup_eq k i c with heq | ⟨-, -, heq⟩ <;> rw [heq] <;> exact ⟨rfl, rfl, rfl⟩
  have hst : ∀ u, u ≠ i → (k.wakeup i c).state u = k.state u := by
    intro u hu
    rcases wakeup_eq k i c with heq | ⟨-, -, heq⟩ <;> rw [heq]
    simp [hu]
  have hpend : ∀ u : Fin n, k.pending u = if i ≤ u then some c else none := by
    intro u
    simp [State.pending, hlk, hpc, Pc.pending]
  have hpend' : ∀ u : Fin n, ((k.wakeup i c).goto t (.drop i c next)).pending u =
      if i < u then some c else none := by
    intro u
    simp [State.pending, hwlk, hlk, Pc.pending]
  have hmode : ((k.wakeup i c).goto t (.drop i c next)).mode = k.mode := by
    funext u
    by_cases hut : u = t
    · subst hut
      simp [State.mode, hpc, Pc.mode]
    · have hpcu : ((k.wakeup i c).goto t (.drop i c next)).pc u = k.pc u := by
        simp [hut, hwpc]
      rw [State.mode, State.mode, hpcu, hpend, hpend', goto_state]
      by_cases hui : u = i
      · subst hui
        have hown : (k.pc u).holdsOwn = false := by
          by_contra hown
          simp [(h u).own (by simpa using hown)] at hlocked
          exact hut hlocked
        by_cases hoff : ∃ d l, k.pc u = .off d l
        · obtain ⟨d, l, hoff⟩ := hoff
          have hchan := (h u).chan d (by rw [hoff]; rfl)
          by_cases hd : d = c
          · subst hd
            simp [hoff, Pc.mode, State.wakeup, hchan]
            split <;> simp_all
          · simp [hoff, Pc.mode, State.wakeup, hchan, hd, Ne.symm hd]
        · exact Pc.mode_eq hown (fun d l heq => hoff ⟨d, l, heq⟩) ..
      · rw [hst u hui]
        congr 2
        simp only [eq_iff_iff]
        have : i ≠ u := Ne.symm hui
        omega
  rw [State.config, State.config, hmode, goto_shared, hwshared]

/-- What is seen of a step. -/
def State.seen (k : State n S C L) : Label n E → List (Monitor.Label (Fin n) E)
  | .exec t e => [.exec t e]
  | .kill i   => if (k.mode i).isAsleep then [.spurious i] else []
  | _         => []

theorem Step.config_eq (hs : Step P k e k') (h : k.Ok) (he : ∀ t ev, e ≠ .exec t ev)
    (hkill : ∀ i, e ≠ .kill i) : k'.config = k.config := by
  have hok := hs.ok h
  have hpcs : ∀ {k : State n S C L} {t : Fin n} {pc : Pc C L} (u : Fin n), u ≠ t →
      (k.goto t pc).pc u = k.pc u := fun u hu => Function.update_of_ne hu ..
  have hsts : ∀ {k : State n S C L} {t : Fin n} {st : Procstate} (u : Fin n), u ≠ t →
      (k.setState t st).state u = k.state u := fun u hu => Function.update_of_ne hu ..
  cases hs
  case exec t w l f hpc hf => exact absurd rfl (he t _)
  case kill i hheld hst => exact absurd rfl (hkill i)
  case acquire t w l hpc hfree =>
      refine config_eq_lk (t := t) rfl hpcs rfl (pending_of_free hfree) (fun u => ?_) fun st => ?_
      · simp [State.pending, Pc.pending]
      · simp [hpc, Pc.mode]
  case scanSelf t c next hpc =>
      refine config_eq_inside (h t) (hok t) (by simp [hpc, Pc.holds]) (by simp [Pc.holds]) rfl hpcs rfl
        (fun u hu => ?_) fun st => ?_
      · have hne : (t : Nat) ≠ u := fun heq => hu (Fin.ext heq.symm)
        simp only [goto_pc, Function.update_self, hpc, Pc.pending]
        congr 1
        simp only [eq_iff_iff]
        omega
      · simp [hpc, Pc.mode]
  case scanLock t i c next hpc hne hfree =>
      refine config_eq_inside (h t) (hok t) (by simp [hpc, Pc.holds]) (by simp [Pc.holds]) rfl hpcs rfl
        (fun u hu => ?_) fun st => ?_
      · simp [hpc, Pc.pending]
      · simp [hpc, Pc.mode]
  case scanLook t i c next hpc => exact config_wakeup h hpc
  case scanDrop t i c next hpc =>
      refine config_eq_inside (h t) (hok t) (by simp [hpc, Pc.holds]) (by simp [Pc.holds]) rfl hpcs rfl
        (fun u hu => ?_) fun st => ?_
      · simp only [goto_pc, Function.update_self, hpc, Pc.pending, Nat.succ_le_iff]
      · simp [hpc, Pc.mode]
  case scanEnd t i c next hpc hi =>
      refine config_eq_inside (h t) (hok t) (by simp [hpc, Pc.holds]) (by simp [Pc.holds]) rfl hpcs rfl
        (fun u hu => ?_) fun st => ?_
      · have : ¬ i ≤ u := by omega
        simp [hpc, Pc.pending, this]
      · simp [hpc, Pc.mode]
  case release t l hpc =>
      refine config_eq_lk (t := t) rfl hpcs rfl (fun u => ?_) (pending_of_free rfl) fun st => ?_
      · rw [(h t).pending_eq (by rw [hpc]; rfl), hpc]
        rfl
      · simp [hpc, Pc.mode, comes, Next.mode]
  case sleepLock t c l hpc hfree =>
      refine config_eq_inside (h t) (hok t) (by simp [hpc, Pc.holds]) (by simp [Pc.holds]) rfl hpcs rfl
        (fun u hu => ?_) fun st => ?_
      · simp [hpc, Pc.pending]
      · simp [hpc, Pc.mode, Pc.pending, Next.mode]
  case sleepRelease t c l hpc =>
      refine config_eq_lk (t := t) rfl hpcs rfl (fun u => ?_) (pending_of_free rfl) fun st => ?_
      · rw [(h t).pending_eq (by rw [hpc]; rfl), hpc]
        rfl
      · simp [hpc, Pc.mode]
  case sleepSwtch t c l hpc =>
      have hst := (h t).asleep c l hpc
      refine config_eq_outside (h t) (by rw [hpc]; rfl) rfl rfl hpcs (fun _ _ => rfl) fun pend => ?_
      by_cases hp : pend = some c
      · simp [hpc, Pc.mode, hp]
      · simp [hpc, Pc.mode, hp, hst]
  case lock i hfree => rfl
  case unlock i hheld => rfl
  case dispatch i c l hheld hst hpc =>
      refine config_eq_outside (h i) (by rw [hpc]; rfl) rfl rfl hpcs hsts fun pend => ?_
      simp [hpc, Pc.mode, hst]
  case redispatch i w l hheld hst hpc =>
      refine config_eq_outside (h i) (by rw [hpc]; rfl) rfl rfl hpcs hsts fun pend => ?_
      simp [hpc, Pc.mode]
  case sleepState t c l hpc =>
      refine config_eq_outside (h t) (by rw [hpc]; rfl) rfl rfl hpcs hsts fun pend => ?_
      simp [hpc, Pc.mode]
  case yieldState t w l hpc =>
      refine config_eq_outside (h t) (by rw [hpc]; rfl) rfl rfl hpcs hsts fun pend => ?_
      simp [hpc, Pc.mode]
  case sleepChan t _ _ hpc | sleepTidy t _ _ hpc | sleepUnlock t _ _ hpc |
      yieldLock t _ _ hpc _ | yieldSwtch t _ _ hpc | yieldUnlock t _ _ hpc =>
      refine config_eq_outside (h t) (by rw [hpc]; rfl) rfl rfl hpcs (fun _ _ => rfl) fun pend => ?_
      simp [hpc, Pc.mode, comes]

/-- A wakeup that has just started counts for everybody. -/
theorem Pc.mode_wakeOn {pc : Pc C L} (h : pc.holds = false) (st : Procstate) (c : C) :
    pc.mode st (some c) = (pc.mode st none).wakeOn c := by
  cases pc with
  | inside | scan | look | drop | leave | locked => cases h
  | enter w l | yields w l | yielded w l | preempted w l | returned w l => cases w <;> rfl
  | unlocked d l | marked d l | asleep d l =>
      by_cases hd : d = c
      · simp [Pc.mode, Mode.wakeOn, hd]
      · simp [Pc.mode, Mode.wakeOn, hd, Ne.symm hd]
  | off d l =>
      by_cases hst : st = .sleeping
      · by_cases hd : d = c
        · simp [Pc.mode, Mode.wakeOn, hst, hd]
        · simp [Pc.mode, Mode.wakeOn, hst, hd, Ne.symm hd]
      · simp [Pc.mode, Mode.wakeOn, hst]
  | resumed | tidied => rfl

/-- The program wakes up all sleepers of a channel or none. -/
def Broadcasts (P : Program S C L E) : Prop :=
  ∀ l, ∀ f ∈ P.sections l, ∀ s c, (f s).wake ≠ .signal c

theorem step_exec (hP : Broadcasts P) (h : k.Ok) {w : Option C} {l : L} {f : S → Outcome S C L E}
    (hpc : k.pc t = .inside w l) (hf : f ∈ P.sections l) :
    Monitor.Step P k.config (.exec t (f k.shared).event)
      ({ k with shared := (f k.shared).shared }.goto t (.after (f k.shared))).config := by
  have hlk : k.lk = some t := (h t).lk.mp (by rw [hpc]; rfl)
  have hpend : ∀ u, k.pending u = none := by
    intro u
    rw [(h t).pending_eq (by rw [hpc]; rfl), hpc]
    rfl
  have hholds : ∀ u, u ≠ t → (k.pc u).holds = false := by
    intro u hu
    by_contra hh
    have huu := (h u).lk.mp (by simpa using hh)
    rw [hlk] at huu
    exact hu (Option.some.inj huu).symm
  have hat : (k.config.mode t).pc? = some l := by
    simp only [State.config, State.mode, hpc, Pc.mode]
    cases w <;> rfl
  have hself : ∀ next pc, (∀ st pend, Pc.mode st pend pc = Next.mode next) →
      ({ k with shared := (f k.shared).shared }.goto t pc).mode t = next.mode := by
    intro next pc hmode
    rw [State.mode, goto_pc, Function.update_self, hmode]
  rcases after_eq (f k.shared) with ⟨hafter, hwake⟩ | ⟨c, hafter, hwake⟩
  · have hw : Wakes (f k.config.shared).wake k.mode k.mode := by
      rw [State.config, hwake]
      exact .none
    refine Monitor.Step.exec_to f hat hf hw rfl rfl (funext fun u => ?_)
    rw [State.config, hafter]
    by_cases hu : u = t
    · subst hu
      rw [Function.update_self]
      exact hself _ _ fun _ _ => rfl
    · have hpend' : ({ k with shared := (f k.shared).shared }.goto t
          (.leave (f k.shared).next)).pending u = none := by
        simp [State.pending, hlk, Pc.pending]
      simp [State.mode, hu, hpend, hpend']
  · have hwake := hwake.resolve_left (hP l f hf _ c)
    have hw : Wakes (f k.config.shared).wake k.mode fun u => (k.mode u).wakeOn c := by
      rw [State.config, hwake]
      exact .broadcast
    refine Monitor.Step.exec_to f hat hf hw rfl rfl (funext fun u => ?_)
    rw [State.config, hafter]
    by_cases hu : u = t
    · subst hu
      rw [Function.update_self]
      exact hself _ _ fun _ _ => rfl
    · have hpend' : ({ k with shared := (f k.shared).shared }.goto t
          (.scan 0 c (f k.shared).next)).pending u = some c := by
        simp [State.pending, hlk, Pc.pending]
      simp [State.mode, hu, hpend, hpend', Pc.mode_wakeOn (hholds u hu)]

/-- `kill` wakes up a sleeper, unless a wakeup has been faster. -/
theorem step_kill (h : k.Ok) (hheld : k.plock i = some .other) (hst : k.state i = .sleeping) :
    ((k.mode i).isAsleep = true →
      Monitor.Step P k.config (.spurious i) (k.setState i .runnable).config) ∧
    ((k.mode i).isAsleep = false → (k.setState i .runnable).config = k.config) := by
  have hpend : ∀ u, (k.setState i .runnable).pending u = k.pending u := fun _ => rfl
  obtain ⟨c, l, hpc⟩ : ∃ c l, k.pc i = .off c l := by
    have hsleeps := (h i).sleeps hst
    have hown := (h i).own
    cases hpc : k.pc i with
    | off c l => exact ⟨c, l, rfl⟩
    | asleep c l =>
        rw [hpc] at hown
        simp [hown rfl] at hheld
    | _ => simp [hpc, Pc.sleeps] at hsleeps
  have hmode : (k.setState i .runnable).mode = Function.update k.mode i (.woken c l) := by
    funext u
    by_cases hu : u = i
    · subst hu
      simp [State.mode, hpc, Pc.mode]
    · simp [State.mode, hu, hpend]
  by_cases hwoken : k.pending i = some c
  · have hm : k.mode i = .woken c l := by simp [State.mode, hpc, Pc.mode, hwoken]
    refine ⟨fun hasleep => ?_, fun _ => ?_⟩
    · rw [hm] at hasleep
      cases hasleep
    · rw [State.config, hmode, ← hm, Function.update_eq_self]
      rfl
  · have hm : k.mode i = .asleep c l := by simp [State.mode, hpc, Pc.mode, hst, hwoken]
    refine ⟨fun _ => ?_, fun hasleep => ?_⟩
    · rw [State.config, State.config, hmode]
      exact .spurious hm
    · rw [hm] at hasleep
      cases hasleep

/-- The kernel does with `sleep` and `wakeup` what POSIX threads do with condition variables. -/
theorem simulates (hP : Broadcasts P) (s₀ : S) (start : Fin n → L) :
    Simulates (system P s₀ start) (systemOf P s₀ start) (fun k c => c = k.config) State.seen where
  init := by
    rintro k rfl
    exact ⟨_, rfl, rfl⟩
  step := by
    rintro k e k' _ hk - rfl hs
    have h := ok_of_reachable hk
    cases e with
    | exec t ev =>
        cases hs with
        | exec hpc hf => exact ⟨_, _, .single (step_exec hP h hpc hf), rfl, rfl⟩
    | kill i =>
        cases hs with
        | kill hheld hst =>
            obtain ⟨hspurious, hstay⟩ := step_kill (P := P) h hheld hst
            cases hm : (k.mode i).isAsleep with
            | true => exact ⟨_, _, .single (hspurious hm), rfl, by simp [State.seen, hm]⟩
            | false =>
                rw [hstay hm]
                exact ⟨[], _, .nil _, rfl, by simp [State.seen, hm]⟩
    | run t | lock t | unlock t | dispatch t =>
        rw [Step.config_eq hs h (by simp) (by simp)]
        exact ⟨[], _, .nil _, rfl, rfl⟩

/-! ## What carries over -/

def Label.exec? : Label n E → Option (Fin n × E)
  | .exec t e => some (t, e)
  | _         => none

/-- Which process did something with `lk` in a run, and what came of it. -/
def execs (tr : List (State n S C L × Label n E)) : List (Fin n × E) :=
  tr.filterMap fun q => q.2.exec?

theorem exec?_seen (k : State n S C L) (e : Label n E) :
    (k.seen e).filterMap Monitor.Label.exec? = e.exec?.toList := by
  cases e with
  | kill i =>
      simp only [State.seen]
      split <;> rfl
  | _ => rfl

/-- What threads with condition variables do in every run, processes of the kernel do. -/
theorem run_execs (hP : Broadcasts P) {s₀ : S} {start : Fin n → L} {k₀ : State n S C L}
    {tr : List (State n S C L × Label n E)} (h₀ : (system P s₀ start).init k₀)
    (h : (system P s₀ start).Run k₀ tr k) :
    ∃ tr', (systemOf P s₀ start).Run ⟨s₀, fun t => .ready (start t)⟩ tr' k.config ∧
      Monitor.execs tr' = execs tr := by
  obtain ⟨a₀, tr', a, ha₀, hrun, rfl, hseen⟩ := (simulates hP s₀ start).run h₀ h
  obtain rfl : a₀ = ⟨s₀, fun t => .ready (start t)⟩ := ha₀
  refine ⟨tr', hrun, ?_⟩
  have hexecs : Monitor.execs tr' = (tr'.map Prod.snd).filterMap Monitor.Label.exec? := by
    rw [List.filterMap_map]
    rfl
  rw [hexecs, hseen, List.filterMap_flatMap]
  simp only [exec?_seen]
  rw [execs, List.filterMap_eq_flatMap_toList]

/-- A process that is marked as sleeping sleeps for its peers as well, unless somebody who holds
    `lk` may be waking it. -/
theorem mode_of_sleeping {c : C} (h : k.Ok) (hlk : k.lk = none) (hst : k.state t = .sleeping)
    (hchan : k.chan t = some c) : ∃ l, k.mode t = .asleep c l := by
  have hpend := pending_of_free hlk t
  have hsleeps := (h t).sleeps hst
  cases hpc : k.pc t with
  | asleep d l | off d l =>
      obtain rfl : d = c := by
        have hd := (h t).chan d (by rw [hpc]; rfl)
        simpa [hchan] using hd.symm
      exact ⟨l, by simp [State.mode, hpc, Pc.mode, hpend, hst]⟩
  | _ =>
      rw [hpc] at hsleeps
      cases hsleeps

/-- A process that finds `lk` free can do its work and release it. Nobody notices, if it wakes
    nobody. -/
theorem run_section {k : State n S C L} {w : Option C} {l l' : L} {f : S → Outcome S C L E}
    (hpc : k.pc t = .enter w l) (hlk : k.lk = none) (hf : f ∈ P.sections l)
    (hwake : (f k.shared).wake = .none) (hnext : (f k.shared).next = .goto l') (s₀ : S)
    (start : Fin n → L) :
    ∃ tr k', (system P s₀ start).Run k tr k' ∧ k'.lk = none ∧ k'.state = k.state ∧
      k'.chan = k.chan ∧ k'.shared = (f k.shared).shared ∧ execs tr = [(t, (f k.shared).event)] := by
  let k₁ := { k with lk := some t }.goto t (.inside w l)
  let k₂ := { k₁ with shared := (f k.shared).shared }.goto t (.after (f k.shared))
  have hacquire : Step P k (.run t) k₁ := .acquire hpc hlk
  have hinside : k₁.pc t = .inside w l := Function.update_self ..
  have hexec : Step P k₁ (.exec t (f k.shared).event) k₂ := .exec hinside hf
  have hleave : k₂.pc t = .leave (.goto l') := by simp [k₂, Pc.after, hwake, hnext]
  have hrelease : Step P k₂ (.run t) ({ k₂ with lk := none }.goto t (.enter none l')) :=
    .release hleave
  exact ⟨_, _, ((Run.single hacquire).snoc hexec).snoc hrelease, rfl, rfl, rfl, rfl, rfl⟩

/-- Every run of kernel code is a run of threads with condition variables, for code that makes at
    most one `wakeup` while it holds `lk`, as the last thing before it sleeps or releases `lk`.
    The threads do the same things in the same order, and a thread sleeps in the end if its process
    does and has no wakeup coming. What `kill` does to a sleeper is a spurious wakeup. -/
theorem sleep_refines_wait (hP : Broadcasts P) {s₀ : S} {start : Fin n → L} {k₀ : State n S C L}
    {tr : List (State n S C L × Label n E)} (h₀ : (system P s₀ start).init k₀)
    (h : (system P s₀ start).Run k₀ tr k) :
    ∃ tr', (systemOf P s₀ start).Run ⟨s₀, fun t => .ready (start t)⟩ tr' k.config ∧
      tr'.map Prod.snd = tr.flatMap fun q => q.1.seen q.2 := by
  obtain ⟨a₀, tr', a, ha₀, hrun, rfl, hseen⟩ := (simulates hP s₀ start).run h₀ h
  obtain rfl : a₀ = ⟨s₀, fun t => .ready (start t)⟩ := ha₀
  exact ⟨tr', hrun, hseen⟩

/-- What a process does that waits for a flag, and one that sets it. -/
def flagSection (sets : Bool) (s : Bool) : Outcome Bool Unit Bool Bool :=
  if sets then ⟨true, .goto true, .broadcast (), true⟩
  else ⟨s, if s then .goto true else .wait () false, .none, s⟩

def flag : Program Bool Unit Bool Bool := ⟨fun sets => [flagSection sets]⟩

/-- Process 0 goes to sleep, is killed there, looks again and sleeps again. Process 1 sets the flag
    and wakes it up. -/
def flagSchedule : List (Choice 2) :=
  let a : Fin 2 := ⟨0, Nat.zero_lt_two⟩
  let b : Fin 2 := ⟨1, Nat.one_lt_two⟩
  List.replicate 7 (.run a 0) ++ [.lock a, .kill a, .unlock a, .lock a, .dispatch a] ++
    List.replicate 9 (.run a 0) ++ List.replicate 8 (.run b 0) ++ [.lock a, .dispatch a] ++
    List.replicate 5 (.run a 0)

omit [DecidableEq C] in
theorem sleep_refines_wait_flag :
    ∃ tr tr' k, (system flag false fun t : Fin 2 => t.val == 1).Run
        ⟨false, none, fun _ => none, fun _ => .running, fun _ => none,
          fun t => .enter none (t.val == 1)⟩ tr k ∧
      (∃ q ∈ tr, q.2 = .run 1 ∧ q.1.state 0 = .sleeping ∧ q.1.chan 0 = some ()) ∧
      k.state 0 = .running ∧ k.pc 0 = .enter none true ∧
      (systemOf flag false fun t : Fin 2 => t.val == 1).Run
        ⟨false, fun t => .ready (t.val == 1)⟩ tr' k.config ∧
      tr'.map Prod.snd = [.exec 0 false, .spurious 0, .exec 0 false, .exec 1 true, .exec 0 true] := by
  have hP : Broadcasts flag := by
    intro l f hf s c
    obtain rfl := List.mem_singleton.mp hf
    cases l <;> simp [flagSection]
  obtain ⟨k₀, tr, k, h₀, hrun, hend⟩ := exists_run_of_play flag false (fun t : Fin 2 => t.val == 1)
    (fun tr k => decide ((∃ q ∈ tr, q.2 = .run 1 ∧ q.1.state 0 = .sleeping ∧
        q.1.chan 0 = some ()) ∧ k.state 0 = .running ∧ k.pc 0 = .enter none true ∧
      (tr.flatMap fun q => q.1.seen q.2) =
        [.exec 0 false, .spurious 0, .exec 0 false, .exec 1 true, .exec 0 true]))
    flagSchedule (by decide +kernel)
  obtain ⟨hasleep, hst, hpc, hseen⟩ := of_decide_eq_true hend
  obtain ⟨tr', hrun', hlabels⟩ := sleep_refines_wait hP h₀ hrun
  obtain rfl : k₀ = _ := h₀
  exact ⟨tr, tr', k, hrun, hasleep, hst, hpc, hrun', hlabels.trans hseen⟩

end Sleep
