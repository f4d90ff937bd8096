-- SUMMARY: The life of a table slot in the lottery kernel: what each call does to the slots, who owns a slot between fork's sections, and why pids are unique.
import OsLabs.Lottery.Rounds

/-!
# Slots and pids

A call writes the slot of its caller, and at most one other slot in more than a harmless
way: `fork` takes an UNUSED slot, later makes it RUNNABLE, and `wait` frees a ZOMBIE. The
first section says so once for all calls. From it follow the two invariants of this file:
the slots of forks in progress are USED and belong to one fork each, and no two slots carry
the same pid. `settickets` relies on the second when it looks for its own slot by pid.
-/

namespace Lottery

open CInt

/-! ## What a call does to the slots -/

/-- What a call may do to any slot: wake its process up, mark it as killed, give it a new
    parent. -/
structure Proc.Poke (p q : Proc) : Prop where
  pid : q.pid = p.pid
  kstack : q.kstack = p.kstack
  state : q.state = p.state ∨ p.state = .sleeping ∧ q.state = .runnable
  initial : q.initialTickets = p.initialTickets
  current : q.currentTickets = p.currentTickets

def Pokes (t t' : Table) : Prop := ∀ j, (t j).Poke (t' j)

theorem Proc.Poke.refl (p : Proc) : p.Poke p := ⟨rfl, rfl, .inl rfl, rfl, rfl⟩

theorem Proc.Poke.trans {p q r : Proc} (h₁ : p.Poke q) (h₂ : q.Poke r) : p.Poke r where
  pid := h₂.pid.trans h₁.pid
  kstack := h₂.kstack.trans h₁.kstack
  state := by
    rcases h₂.state with h | ⟨hs, hr⟩
    · rw [h]
      exact h₁.state
    · rcases h₁.state with h | ⟨-, h⟩
      · exact .inr ⟨h.symm.trans hs, hr⟩
      · rw [h] at hs
        cases hs
  initial := h₂.initial.trans h₁.initial
  current := h₂.current.trans h₁.current

/-- A poke changes no state but that of a sleeper. -/
theorem Proc.Poke.state_eq {p q : Proc} (h : p.Poke q) (hp : p.state ≠ .sleeping) :
    q.state = p.state := by
  rcases h.state with h | ⟨hs, -⟩
  · exact h
  · exact absurd hs hp

theorem Pokes.refl (t : Table) : Pokes t t := fun j => .refl (t j)

theorem Pokes.trans {t t' t'' : Table} (h₁ : Pokes t t') (h₂ : Pokes t' t'') : Pokes t t'' :=
  fun j => (h₁ j).trans (h₂ j)

theorem Pokes.update {t : Table} {i : Nat} {p : Proc} (h : (t i).Poke p) :
    Pokes t (Function.update t i p) :=
  (Function.forall_update_iff t fun j => (t j).Poke).mpr ⟨h, fun _ _ => .refl _⟩

theorem wakeup_pokes (me : Option Nat) (c : Chan) (t : Table) : Pokes t (wakeup me c t) := by
  intro j
  unfold wakeup
  split
  · rename_i h
    exact ⟨rfl, rfl, .inr ⟨h.2.2.1, rfl⟩, rfl, rfl⟩
  · exact .refl _

theorem reparent_pokes (i initproc : Nat) (t : Table) : Pokes t (reparent i initproc t) := by
  have hparent : Pokes t fun j =>
      if j < NPROC ∧ (t j).parent = some i then { t j with parent := some initproc } else t j := by
    intro j
    dsimp only
    split
    · exact ⟨rfl, rfl, .inl rfl, rfl, rfl⟩
    · exact .refl _
  unfold reparent
  split
  · exact hparent.trans (wakeup_pokes _ _ _)
  · exact hparent

/-- `Did k i c r k'`: what the call `c` of the process in slot `i` finds in `k`, returns,
    and leaves in `k'`. -/
inductive Did (k : Procs) (i : Nat) : Call → Ret → Procs → Prop
  /-- Nothing but pokes: `kill`, `wakeup`, and every call that fails without having taken a
      slot. -/
  | pokes {c : Call} {r : Ret} {t : Table} : Pokes k.proc t → Did k i c r { k with proc := t }
  | settickets {n : Int} : 1 ≤ n →
      Did k i (.settickets n) (.value 0) (k.set i { k.proc i with initialTickets := n })
  /-- A `fork` that took slot `np`, ran out of memory and freed it again. -/
  | forkFail {memOk copyOk : Bool} {np : Nat} {q : Proc} :
      findSlot (fun p => p.state = .unused) k.proc = some np →
      q.state = .unused → q.pid = 0 → q.kstack = (k.proc np).kstack ∨ q.kstack = .user →
      q.initialTickets = (k.proc np).initialTickets →
      q.currentTickets = (k.proc np).currentTickets →
      Did k i (.fork memOk copyOk) (.value (-1))
        { k with nextpid := wrap32 (k.nextpid + 1), proc := Function.update k.proc np q }
  | forkOk {memOk copyOk : Bool} {np : Nat} {q : Proc} :
      findSlot (fun p => p.state = .unused) k.proc = some np →
      q.state = .used → q.pid = k.nextpid → q.kstack = .user →
      q.initialTickets = (k.proc i).initialTickets →
      q.currentTickets = (k.proc i).initialTickets →
      Did k i (.fork memOk copyOk) (.value 0)
        { k with
          nextpid := wrap32 (k.nextpid + 1)
          proc := Function.update (Function.update k.proc np q) i
            { k.proc i with kstack := .forkParent np } }
  | forkParent {np : Nat} {t : Table} : (k.proc i).kstack = .forkParent np → Pokes k.proc t →
      Did k i .forkParent (.value 0)
        { k with proc := Function.update t i { t i with kstack := .forkRunnable np } }
  | forkRunnable {np : Nat} {r : Ret} : (k.proc i).kstack = .forkRunnable np → r ≠ .sched →
      Did k i .forkRunnable r
        ((k.set np { k.proc np with state := .runnable }).set i
          { (k.set np { k.proc np with state := .runnable }).proc i with kstack := .user })
  | exit {status : Int} {t : Table} : (k.proc i).kstack = .user → Pokes k.proc t →
      Did k i (.exit status) .sched
        { k with proc := Function.update t i { t i with xstate := status, state := .zombie } }
  | reap {copyoutOk : Bool} {j : Nat} {r : Ret} : j < NPROC → (k.proc j).state = .zombie →
      Did k i (.wait copyoutOk) r (k.set j (freeproc (k.proc j)))
  | sleep {c : Call} {chan : Chan} :
      Did k i c .sched
        (k.set i { k.proc i with chan := some chan, state := .sleeping, kstack := .asleep })
  | sleepReturn :
      Did k i .sleepReturn (.value 0) (k.set i { k.proc i with chan := none, kstack := .user })
  | yield : Did k i .yield .sched (k.set i { k.proc i with state := .runnable })

theorem findSlot_test {test : Proc → Bool} {t : Table} {i : Nat} (h : findSlot test t = some i) :
    test (t i) = true :=
  List.find?_some (p := fun i => test (t i)) h

theorem unused_of_findSlot {t : Table} {np : Nat}
    (h : findSlot (fun p => p.state = .unused) t = some np) : (t np).state = .unused := by
  simpa using findSlot_test h

theorem allocproc_of_some {memOk : Bool} {k : Procs} {np : Nat}
    (h : findSlot (fun p => p.state = .unused) k.proc = some np) :
    allocproc memOk k =
      if memOk then
        (some np, { k with
          nextpid := wrap32 (k.nextpid + 1)
          proc := Function.update k.proc np
            { k.proc np with pid := k.nextpid, state := .used, kstack := .user } })
      else
        (none, { k with
          nextpid := wrap32 (k.nextpid + 1)
          proc := Function.update k.proc np
            (freeproc { k.proc np with pid := k.nextpid, state := .used }) }) := by
  unfold allocproc
  rw [h]
  rfl

theorem did_fork {i : Nat} (memOk copyOk : Bool) {k : Procs} (hi : (k.proc i).state ≠ .unused) :
    Did k i (.fork memOk copyOk) (fork i memOk copyOk k).1 (fork i memOk copyOk k).2 := by
  unfold fork
  cases hnp : findSlot (fun p => p.state = .unused) k.proc with
  | none =>
      have halloc : allocproc memOk k = (none, k) := by
        unfold allocproc
        rw [hnp]
      rw [halloc]
      exact .pokes (.refl _)
  | some np =>
      have hne : i ≠ np := by
        rintro rfl
        exact hi (unused_of_findSlot hnp)
      rw [allocproc_of_some hnp]
      cases memOk with
      | false => exact .forkFail hnp rfl rfl (.inl rfl) rfl rfl
      | true =>
          cases copyOk with
          | false =>
              simp only [↓reduceIte, Bool.false_eq_true, Procs.set, Function.update_self,
                Function.update_idem]
              exact .forkFail hnp rfl rfl (.inr rfl) rfl rfl
          | true =>
              simp only [↓reduceIte, Procs.set, Function.update_self, Function.update_of_ne hne,
                Function.update_idem]
              exact .forkOk hnp rfl rfl rfl rfl rfl

theorem did_exit {i : Nat} {status : Int} {k k' : Procs} {r : Ret}
    (hstack : (k.proc i).kstack = .user) (h : exit i status k = some (r, k')) :
    Did k i (.exit status) r k' := by
  unfold exit at h
  split at h
  · cases h
  · cases h
    refine .exit hstack ?_
    split
    · exact (reparent_pokes _ _ _).trans (wakeup_pokes _ _ _)
    · exact reparent_pokes _ _ _

theorem did_wait (i : Nat) (copyoutOk : Bool) (k : Procs) :
    Did k i (.wait copyoutOk) (wait i copyoutOk k).1 (wait i copyoutOk k).2 := by
  unfold wait
  split
  · rename_i j hj
    split
    · have htest := findSlot_test hj
      simp only [Bool.and_eq_true, decide_eq_true_eq] at htest
      exact .reap (findSlot_lt hj) htest.2
    · exact .pokes (.refl _)
  · split
    · exact .pokes (.refl _)
    · exact .sleep

theorem did_kill (i : Nat) (pid : Int) (k : Procs) :
    Did k i (.kill pid) (kill pid k).1 (kill pid k).2 := by
  unfold kill
  split
  · exact .pokes (.refl _)
  · apply Did.pokes
    apply Pokes.update
    split
    · rename_i hs
      exact ⟨rfl, rfl, .inr ⟨hs, rfl⟩, rfl, rfl⟩
    · exact ⟨rfl, rfl, .inl rfl, rfl, rfl⟩

theorem did_settickets {i : Nat} {n : Int} {k k' : Procs} {r : Ret}
    (h : settickets i n k = some (r, k')) : Did k i (.settickets n) r k' := by
  unfold settickets at h
  split at h
  · cases h
    exact .pokes (.refl _)
  · rename_i hn
    split at h
    · cases h
    · split at h
      · rename_i hj
        cases h
        subst hj
        exact .settickets (Int.not_lt.mp hn)
      · cases h

/-- The inversion of a call: every process that makes one holds a slot. -/
theorem did_of_call {i : Nat} {c : Call} {k k' : Procs} {r : Ret}
    (hi : (k.proc i).state ≠ .unused) (h : k.call i c = some (r, k')) : Did k i c r k' := by
  unfold Procs.call at h
  split at h
  · rename_i memOk copyOk _
    have hdid := did_fork memOk copyOk hi
    rw [Option.some.inj h] at hdid
    exact hdid
  · rename_i np hstack
    cases h
    exact .forkParent hstack (.update ⟨rfl, rfl, .inl rfl, rfl, rfl⟩)
  · rename_i np hstack
    cases h
    exact .forkRunnable hstack (by simp)
  · rename_i hstack
    exact did_exit hstack h
  · rename_i copyoutOk _
    have hdid := did_wait i copyoutOk k
    rw [Option.some.inj h] at hdid
    exact hdid
  · cases h
    exact .sleep
  · cases h
    exact .sleepReturn
  · cases h
    exact .yield
  · rename_i pid _
    have hdid := did_kill i pid k
    rw [Option.some.inj h] at hdid
    exact hdid
  · exact did_settickets h
  · cases h
    exact .pokes (wakeup_pokes _ _ _)
  · cases h

/-- Everything about a slot that `scheduler()` does not touch before a dispatch. -/
def Proc.place (p : Proc) : Procstate × Kstack × Int × Int :=
  (p.state, p.kstack, p.pid, p.initialTickets)

/-- A section of `scheduler()` writes nothing but remaining tickets. -/
theorem schedSection_place {t t' : Table} {pc pc' : SchedPc}
    (h : schedSection t pc = some (t', pc')) (j : Nat) : (t' j).place = (t j).place := by
  cases pc with
  | reset i =>
      simp only [schedSection] at h
      split at h
      · split at h
        · cases h
          refine (Function.forall_update_iff t fun j q => q.place = (t j).place).mpr
            ⟨?_, fun _ _ => rfl⟩ j
          rfl
        · cases h
          rfl
      · cases h
        rfl
  | _ =>
      simp only [schedSection] at h
      repeat' split at h
      all_goals
        cases h
        try rfl

/-! ## Forks in progress -/

/-- The slot of a fork in progress is USED, and no other fork works on it. -/
structure SlotsOk (t : Table) : Prop where
  child : ∀ j < NPROC, ∀ np, (t j).kstack.child = some np → np < NPROC ∧ (t np).state = .used
  distinct : ∀ i < NPROC, ∀ j < NPROC, ∀ np, (t i).kstack.child = some np →
    (t j).kstack.child = some np → i = j

theorem SlotsOk.mono {t t' : Table} (h : SlotsOk t)
    (hused : ∀ j < NPROC, (t j).state = .used → (t' j).state = .used)
    (hchild : ∀ j < NPROC, ∀ np, (t' j).kstack.child = some np → (t j).kstack.child = some np) :
    SlotsOk t' where
  child j hj np hnp := by
    obtain ⟨hlt, hstate⟩ := h.child j hj np (hchild j hj np hnp)
    exact ⟨hlt, hused np hlt hstate⟩
  distinct i hi j hj np hinp hjnp :=
    h.distinct i hi j hj np (hchild i hi np hinp) (hchild j hj np hjnp)

theorem SlotsOk.pokes {t t' : Table} (h : SlotsOk t) (hp : Pokes t t') : SlotsOk t' := by
  apply h.mono
  · intro j _ hj
    rw [(hp j).state_eq (by rw [hj]; simp)]
    exact hj
  · intro j _ np hnp
    rw [(hp j).kstack] at hnp
    exact hnp

theorem SlotsOk.update {t : Table} (h : SlotsOk t) {i : Nat} {p : Proc}
    (hused : (t i).state = .used → p.state = .used)
    (hchild : ∀ np, p.kstack.child = some np → (t i).kstack.child = some np) :
    SlotsOk (Function.update t i p) := by
  apply h.mono
  · intro j _
    exact (Function.forall_update_iff t fun j q => (t j).state = .used → q.state = .used).mpr
      ⟨hused, fun _ _ => id⟩ j
  · intro j _
    exact (Function.forall_update_iff t fun j q => ∀ np, q.kstack.child = some np →
      (t j).kstack.child = some np).mpr ⟨hchild, fun _ _ _ => id⟩ j

/-- `fork` takes a slot that no other fork can be working on. -/
theorem SlotsOk.adopt {t : Table} (h : SlotsOk t) {i np : Nat} {p : Proc} (hnp : np < NPROC)
    (hstate : (t np).state = .used) (hfresh : ∀ j < NPROC, (t j).kstack.child ≠ some np)
    (hp : p.state = (t i).state) (hchild : p.kstack.child = some np) :
    SlotsOk (Function.update t i p) := by
  have hsame : ∀ m, (Function.update t i p m).state = (t m).state :=
    (Function.forall_update_iff t fun m q => q.state = (t m).state).mpr ⟨hp, fun _ _ => rfl⟩
  -- The children in the new table: that of `i` is `np`, the others are as before.
  have hcases : ∀ j m, (Function.update t i p j).kstack.child = some m →
      j = i ∧ m = np ∨ j ≠ i ∧ (t j).kstack.child = some m := by
    intro j m hm
    by_cases hj : j = i
    · subst hj
      rw [Function.update_self, hchild] at hm
      exact .inl ⟨rfl, (Option.some.inj hm).symm⟩
    · rw [Function.update_of_ne hj] at hm
      exact .inr ⟨hj, hm⟩
  constructor
  · intro j hj m hm
    rw [hsame]
    rcases hcases j m hm with ⟨-, rfl⟩ | ⟨-, hm⟩
    · exact ⟨hnp, hstate⟩
    · exact h.child j hj m hm
  · intro j hj j' hj' m hm hm'
    rcases hcases j m hm with ⟨rfl, rfl⟩ | ⟨-, hold⟩
    · rcases hcases j' m hm' with ⟨rfl, -⟩ | ⟨-, hold'⟩
      · rfl
      · exact absurd hold' (hfresh j' hj')
    · rcases hcases j' m hm' with ⟨rfl, rfl⟩ | ⟨-, hold'⟩
      · exact absurd hold (hfresh j hj)
      · exact h.distinct j hj j' hj' m hold hold'

/-- The end of `fork`: the slot is nobody's to set up any more. -/
theorem SlotsOk.release {t : Table} (h : SlotsOk t) {i np : Nat} {p q : Proc} (hi : i < NPROC)
    (hnp : (t i).kstack.child = some np) (hp : p.kstack.child = none)
    (hq : q.kstack = (t np).kstack) (hstate : p.state = (Function.update t np q i).state) :
    SlotsOk (Function.update (Function.update t np q) i p) := by
  have hchild : ∀ j m, (Function.update (Function.update t np q) i p j).kstack.child = some m →
      j ≠ i ∧ (t j).kstack.child = some m := by
    intro j m hm
    by_cases hj : j = i
    · subst hj
      rw [Function.update_self, hp] at hm
      cases hm
    · rw [Function.update_of_ne hj] at hm
      refine ⟨hj, ?_⟩
      by_cases hjnp : j = np
      · subst hjnp
        rw [Function.update_self, hq] at hm
        exact hm
      · rw [Function.update_of_ne hjnp] at hm
        exact hm
  constructor
  · intro j hj m hm
    obtain ⟨hji, hold⟩ := hchild j m hm
    obtain ⟨hlt, hused⟩ := h.child j hj m hold
    have hmnp : m ≠ np := by
      rintro rfl
      exact hji (h.distinct j hj i hi m hold hnp)
    refine ⟨hlt, ?_⟩
    by_cases hmi : m = i
    · subst hmi
      rw [Function.update_self, hstate, Function.update_of_ne hmnp]
      exact hused
    · rw [Function.update_of_ne hmi, Function.update_of_ne hmnp]
      exact hused
  · intro j hj j' hj' m hm hm'
    exact h.distinct j hj j' hj' m (hchild j m hm).2 (hchild j' m hm').2

theorem ne_of_running {t : Table} {i j : Nat} (hi : (t i).state = .running)
    (hj : (t j).state ≠ .running) : i ≠ j := by
  rintro rfl
  exact hj hi

/-- A call of a running process keeps the slots of forks in progress, and leaves the process
    running unless it goes to the scheduler. -/
theorem Did.slots {k k' : Procs} {i : Nat} {c : Call} {r : Ret} (hdid : Did k i c r k')
    (h : SlotsOk k.proc) (hi : i < NPROC) (hrun : (k.proc i).state = .running) :
    SlotsOk k'.proc ∧ (r ≠ .sched → (k'.proc i).state = .running) := by
  have hused : (k.proc i).state ≠ .used := by rw [hrun]; simp
  have hawake : (k.proc i).state ≠ .sleeping := by rw [hrun]; simp
  cases hdid with
  | pokes hp => exact ⟨h.pokes hp, fun _ => ((hp i).state_eq hawake).trans hrun⟩
  | settickets _ =>
      refine ⟨h.update id fun _ => id, ?_⟩
      intro _
      simpa [Procs.set] using hrun
  | @forkFail _ _ np q hnp hstate _ hstack _ _ =>
      have hfree := unused_of_findSlot hnp
      have hne : i ≠ np := ne_of_running hrun (by simp [hfree])
      refine ⟨h.update (by simp [hfree]) ?_, ?_⟩
      · intro m hm
        rcases hstack with hstack | hstack
        · rwa [hstack] at hm
        · simp [hstack, Kstack.child] at hm
      · intro _
        simpa only [Function.update_of_ne hne] using hrun
  | @forkOk _ _ np q hnp hstate _ hstack _ _ =>
      have hfree := unused_of_findSlot hnp
      have hne : i ≠ np := ne_of_running hrun (by simp [hfree])
      have htaken : SlotsOk (Function.update k.proc np q) :=
        h.update (by simp [hfree]) (by simp [hstack, Kstack.child])
      refine ⟨htaken.adopt (findSlot_lt hnp) (by simpa using hstate) ?_ ?_ rfl, ?_⟩
      · intro j hj
        refine (Function.forall_update_iff k.proc fun j q => j < NPROC →
          q.kstack.child ≠ some np).mpr ⟨?_, ?_⟩ j hj
        · intro _
          simp [hstack, Kstack.child]
        · intro j _ hj hchild
          have hstate := (h.child j hj np hchild).2
          rw [hfree] at hstate
          cases hstate
      · rw [Function.update_of_ne hne]
      · intro _
        simpa using hrun
  | forkParent hstack hp =>
      refine ⟨(h.pokes hp).update id ?_, ?_⟩
      · intro m hm
        rw [(hp i).kstack, hstack]
        exact hm
      · intro _
        simpa using ((hp i).state_eq hawake).trans hrun
  | @forkRunnable np r hstack _ =>
      have hnp : (k.proc i).kstack.child = some np := by rw [hstack]; rfl
      have hne : i ≠ np := ne_of_running hrun (by simp [(h.child i hi np hnp).2])
      refine ⟨h.release hi hnp rfl rfl rfl, ?_⟩
      intro _
      simp [Procs.set, Function.update_of_ne hne, hrun]
  | exit hstack hp =>
      refine ⟨(h.pokes hp).update ?_ fun _ => id, by simp⟩
      intro ht
      rw [(hp i).state_eq hawake] at ht
      exact absurd ht hused
  | @reap _ j r hj hzombie =>
      have hne : i ≠ j := ne_of_running hrun (by simp [hzombie])
      refine ⟨h.update (by simp [hzombie]) fun _ => id, ?_⟩
      intro _
      simp only [Procs.set, Function.update_of_ne hne]
      exact hrun
  | sleep => exact ⟨h.update (absurd · hused) (by simp [Kstack.child]), by simp⟩
  | sleepReturn =>
      refine ⟨h.update id (by simp [Kstack.child]), ?_⟩
      intro _
      simpa [Procs.set] using hrun
  | yield => exact ⟨h.update (absurd · hused) fun _ => id, by simp⟩

/-- The slots of forks in progress are taken, and so is that of the running process. -/
structure Kernel.Sound (k : Kernel) : Prop where
  slots : SlotsOk k.proc
  running : ∀ i < NPROC, k.cpu = .process i → (k.proc i).state = .running

theorem step_sound {k k' : Kernel} {l : Label} (h : k.Sound) (hs : kernel.step k l k') :
    k'.Sound := by
  cases move_of_step hs with
  | @intr c =>
      have hp := wakeup_pokes k.myproc c k.proc
      refine ⟨h.slots.pokes hp, ?_⟩
      intro i hi hcpu
      have hrun := h.running i hi hcpu
      exact ((hp i).state_eq (by rw [hrun]; simp)).trans hrun
  | sched _ hsection =>
      have hplace := schedSection_place hsection
      refine ⟨h.slots.mono ?_ ?_, by simp⟩
      · intro j _ hj
        exact (congrArg Prod.fst (hplace j)).trans hj
      · intro j _ np hnp
        have hstack : _ = (k.proc j).kstack := congrArg (fun x => x.2.1) (hplace j)
        rw [← hstack]
        exact hnp
  | draw _ _ => exact ⟨h.slots, by simp⟩
  | @dispatch p _ hrun =>
      refine ⟨h.slots.update (by simp [hrun]) fun _ => id, ?_⟩
      intro i _ hcpu
      obtain rfl : p = i := by simpa using hcpu
      simp [dispatch]
  | @call i c r ks hcpu hi hcall =>
      have hrun := h.running i hi hcpu
      have hdid := did_of_call (by rw [hrun]; simp) hcall
      obtain ⟨hslots, hstill⟩ := hdid.slots h.slots hi hrun
      refine ⟨hslots, ?_⟩
      intro j _ hj
      dsimp only at hj
      split at hj
      · cases hj
      · rename_i hr
        obtain rfl : i = j := by simpa using hj
        exact hstill hr
  | behind =>
      refine ⟨h.slots.mono ?_ ?_, ?_⟩
      · intro j hj hstate
        simpa [hj] using hstate
      · intro j hj np hnp
        simpa [hj] using hnp
      · intro i hi hcpu
        simpa [hi] using h.running i hi hcpu

theorem init_sound {k : Kernel} (h : kernel.init k) : k.Sound := by
  obtain ⟨t, rfl⟩ := h
  have hchild : ∀ j < NPROC, (boot.proc j).kstack.child = none := by decide +kernel
  refine ⟨⟨?_, ?_⟩, by simp [boot]⟩
  · intro j hj np hnp
    simp [hj, hchild j hj] at hnp
  · intro i hi j hj np hnp _
    simp [hi, hchild i hi] at hnp

theorem reachable_sound {k : Kernel} (h : kernel.Reachable k) : k.Sound :=
  h.invariant (fun _ => init_sound) fun _ _ _ _ hk hs => step_sound hk hs

/-! ## Pids -/

/-- Whoever holds a slot has a pid, pids are below `nextpid`, and no two slots share one. -/
structure PidsOk (k : Procs) : Prop where
  next : 1 ≤ k.nextpid
  lt : ∀ j < NPROC, (k.proc j).pid < k.nextpid
  pos : ∀ j < NPROC, (k.proc j).state ≠ .unused → 1 ≤ (k.proc j).pid
  inj : ∀ i < NPROC, ∀ j < NPROC, 1 ≤ (k.proc i).pid → (k.proc i).pid = (k.proc j).pid → i = j

/-- Slots keep their pids or become free, and only `fork` fills a free one. -/
theorem PidsOk.mono {k k' : Procs} (h : PidsOk k) (hnext : k.nextpid ≤ k'.nextpid)
    (hpid : ∀ j < NPROC, (k'.proc j).pid = (k.proc j).pid ∨
      (k'.proc j).pid = 0 ∧ (k'.proc j).state = .unused)
    (hstate : ∀ j < NPROC, (k'.proc j).state ≠ .unused → (k.proc j).state ≠ .unused) :
    PidsOk k' where
  next := Int.le_trans h.next hnext
  lt j hj := by
    have hlt := h.lt j hj
    have hnext₀ := h.next
    rcases hpid j hj with heq | ⟨heq, -⟩ <;> omega
  pos j hj hused := by
    rcases hpid j hj with heq | ⟨-, hfree⟩
    · rw [heq]
      exact h.pos j hj (hstate j hj hused)
    · exact absurd hfree hused
  inj i hi j hj hpos heq := by
    rcases hpid i hi with hi' | ⟨hi', -⟩
    · rcases hpid j hj with hj' | ⟨hj', -⟩
      · rw [hi'] at hpos heq
        exact h.inj i hi j hj hpos (heq.trans hj')
      · omega
    · omega

/-- What `PidsOk.mono` asks of a write to one slot. -/
theorem PidsOk.update {k : Procs} (h : PidsOk k) {n : Int} (hn : k.nextpid ≤ n) {i : Nat}
    {p : Proc} (hpid : p.pid = (k.proc i).pid ∨ p.pid = 0 ∧ p.state = .unused)
    (hstate : p.state ≠ .unused → (k.proc i).state ≠ .unused) :
    PidsOk { k with nextpid := n, proc := Function.update k.proc i p } := by
  refine h.mono hn ?_ ?_
  · intro j _
    exact (Function.forall_update_iff k.proc fun j q => q.pid = (k.proc j).pid ∨
      q.pid = 0 ∧ q.state = .unused).mpr ⟨hpid, fun _ _ => .inl rfl⟩ j
  · intro j _
    exact (Function.forall_update_iff k.proc fun j q => q.state ≠ .unused →
      (k.proc j).state ≠ .unused).mpr ⟨hstate, fun _ _ => id⟩ j

theorem PidsOk.pokes {k : Procs} (h : PidsOk k) {t : Table} (hp : Pokes k.proc t) :
    PidsOk { k with proc := t } := by
  refine h.mono (Int.le_refl _) (fun j _ => .inl (hp j).pid) ?_
  intro j _ hused hfree
  exact hused (((hp j).state_eq (by rw [hfree]; simp)).trans hfree)

/-- A slot that gets the next pid, as long as there is one left. -/
theorem PidsOk.take {k : Procs} (h : PidsOk k) {np : Nat} {q : Proc} (hq : q.pid = k.nextpid) :
    PidsOk { k with nextpid := k.nextpid + 1, proc := Function.update k.proc np q } where
  next := by
    have hnext := h.next
    change 1 ≤ k.nextpid + 1
    omega
  lt := by
    intro j hj
    refine (Function.forall_update_iff k.proc fun j q => j < NPROC →
      q.pid < k.nextpid + 1).mpr ⟨?_, ?_⟩ j hj
    · intro _
      omega
    · intro j _ hj
      have hlt := h.lt j hj
      omega
  pos := by
    intro j hj
    refine (Function.forall_update_iff k.proc fun j q => j < NPROC → q.state ≠ .unused →
      1 ≤ q.pid).mpr ⟨?_, ?_⟩ j hj
    · intro _ _
      rw [hq]
      exact h.next
    · intro j _ hj
      exact h.pos j hj
  inj := by
    intro i hi j hj hpos heq
    dsimp only at hpos heq
    -- The new pid is nobody else's.
    by_cases hin : i = np <;> by_cases hjn : j = np
    · rw [hin, hjn]
    · subst hin
      rw [Function.update_self, Function.update_of_ne hjn, hq] at heq
      have hlt := h.lt j hj
      omega
    · subst hjn
      rw [Function.update_self, Function.update_of_ne hin, hq] at heq
      have hlt := h.lt i hi
      omega
    · rw [Function.update_of_ne hin] at hpos heq
      rw [Function.update_of_ne hjn] at heq
      exact h.inj i hi j hj hpos heq

/-- The call reaches `allocpid`. -/
def Call.takesPid (k : Procs) : Call → Bool
  | .fork _ _ => (findSlot (fun p => p.state = .unused) k.proc).isSome
  | _         => false

theorem Did.pids {k k' : Procs} {i : Nat} {c : Call} {r : Ret} (hdid : Did k i c r k')
    (h : PidsOk k) (hslots : SlotsOk k.proc) (hi : i < NPROC)
    (hrun : (k.proc i).state = .running)
    (hmax : c.takesPid k = true → k.nextpid + 1 < 2 ^ 31) :
    PidsOk k' ∧ k'.nextpid ≤ k.nextpid + (c.takesPid k).toNat := by
  have hnext := h.next
  have hkeep : k.nextpid ≤ k.nextpid + (c.takesPid k).toNat := by omega
  have hused : (k.proc i).state ≠ .unused := by rw [hrun]; simp
  cases hdid with
  | pokes hp => exact ⟨h.pokes hp, hkeep⟩
  | settickets _ => exact ⟨h.update (Int.le_refl _) (.inl rfl) id, hkeep⟩
  | @forkFail memOk copyOk np q hnp hstate hpid _ _ _ =>
      have htakes : Call.takesPid k (.fork memOk copyOk) = true := by simp [Call.takesPid, hnp]
      have hwrap : wrap32 (k.nextpid + 1) = k.nextpid + 1 :=
        wrap32_eq_self (by omega) (hmax htakes)
      rw [hwrap, htakes]
      refine ⟨h.update (by omega) (.inr ⟨hpid, hstate⟩) fun hne => absurd hstate hne, ?_⟩
      exact Int.le_refl _
  | @forkOk memOk copyOk np q hnp hstate hpid _ _ _ =>
      have htakes : Call.takesPid k (.fork memOk copyOk) = true := by simp [Call.takesPid, hnp]
      have hwrap : wrap32 (k.nextpid + 1) = k.nextpid + 1 :=
        wrap32_eq_self (by omega) (hmax htakes)
      have hne : i ≠ np := ne_of_running hrun (by simp [unused_of_findSlot hnp])
      have htaken : PidsOk { k with
          nextpid := k.nextpid + 1, proc := Function.update k.proc np q } := h.take hpid
      rw [hwrap, htakes]
      refine ⟨htaken.update (Int.le_refl _) (.inl ?_) ?_, Int.le_refl _⟩
      · simp [hne]
      · simp [hne]
  | forkParent _ hp => exact ⟨(h.pokes hp).update (Int.le_refl _) (.inl rfl) id, hkeep⟩
  | @forkRunnable np r hstack _ =>
      have hnp : (k.proc i).kstack.child = some np := by rw [hstack]; rfl
      have hchild := (hslots.child i hi np hnp).2
      have hwoken : PidsOk (k.set np { k.proc np with state := .runnable }) := by
        refine h.update (Int.le_refl _) (.inl rfl) ?_
        intro _
        rw [hchild]
        simp
      exact ⟨hwoken.update (Int.le_refl _) (.inl rfl) id, hkeep⟩
  | exit _ hp =>
      refine ⟨(h.pokes hp).update (Int.le_refl _) (.inl rfl) ?_, hkeep⟩
      intro _
      exact fun hfree => hused (((hp i).state_eq (by rw [hrun]; simp)).symm.trans hfree)
  | reap _ _ => exact ⟨h.update (Int.le_refl _) (.inr ⟨rfl, rfl⟩) (by simp [freeproc]), hkeep⟩
  | sleep => exact ⟨h.update (Int.le_refl _) (.inl rfl) fun _ => hused, hkeep⟩
  | sleepReturn => exact ⟨h.update (Int.le_refl _) (.inl rfl) id, hkeep⟩
  | yield => exact ⟨h.update (Int.le_refl _) (.inl rfl) fun _ => hused, hkeep⟩

def Label.takesPid (k : Kernel) : Label → Bool
  | .call _ c => c.takesPid k.toProcs
  | _         => false

theorem step_pids {k k' : Kernel} {l : Label} (hsound : k.Sound) (h : PidsOk k.toProcs)
    (hmax : l.takesPid k = true → k.nextpid + 1 < 2 ^ 31) (hs : kernel.step k l k') :
    PidsOk k'.toProcs ∧ k'.nextpid ≤ k.nextpid + (l.takesPid k).toNat := by
  have hkeep : k.nextpid ≤ k.nextpid + 0 := by omega
  cases move_of_step hs with
  | intr => exact ⟨h.pokes (wakeup_pokes _ _ _), hkeep⟩
  | sched _ hsection =>
      have hplace := schedSection_place hsection
      refine ⟨h.mono (Int.le_refl _) ?_ ?_, hkeep⟩
      · intro j _
        exact .inl (congrArg (fun x => x.2.2.1) (hplace j))
      · intro j _ hused hfree
        exact hused ((congrArg Prod.fst (hplace j)).trans hfree)
  | draw _ _ => exact ⟨h, hkeep⟩
  | dispatch _ hrun => exact ⟨h.update (Int.le_refl _) (.inl rfl) (by simp [hrun]), hkeep⟩
  | @call i c r ks hcpu hi hcall =>
      have hrun := hsound.running i hi hcpu
      have hdid := did_of_call (by rw [hrun]; simp) hcall
      exact hdid.pids h hsound.slots hi hrun hmax
  | behind =>
      refine ⟨h.mono (Int.le_refl _) ?_ ?_, hkeep⟩
      · intro j hj
        simp [hj]
      · intro j hj
        simp [hj]

/-- How often the kernel has called `allocpid`, with the call for the first process. -/
def allocpids (tr : List (Kernel × Label)) : Nat := 1 + tr.countP fun q => q.2.takesPid q.1

/-- Only calls take pids. -/
theorem allocpids_loud (tr : List (Kernel × Label)) :
    allocpids tr = 1 + (loud tr).countP fun q => q.2.takesPid q.1 := by
  unfold allocpids loud
  rw [List.countP_filter]
  congr 2
  funext q
  cases q.2 <;> simp [Label.takesPid, Label.silent]

theorem init_pids {k : Kernel} (h : kernel.init k) : PidsOk k.toProcs ∧ k.nextpid = 2 := by
  obtain ⟨t, rfl⟩ := h
  have hpid : ∀ j < NPROC, (boot.proc j).pid = if j = 0 then 1 else 0 := by decide +kernel
  have hboot : PidsOk boot.toProcs := by
    refine ⟨by decide, by decide +kernel, by decide +kernel, ?_⟩
    intro i hi j hj hpos heq
    rw [hpid i hi] at hpos heq
    rw [hpid j hj] at heq
    grind
  refine ⟨hboot.mono (Int.le_refl _) ?_ ?_, rfl⟩
  · intro j hj
    simp [hj]
  · intro j hj
    simp [hj]

/-- Pids are unique as long as `nextpid` does not overflow. -/
theorem run_pids {k₀ k : Kernel} {tr : List (Kernel × Label)} (h₀ : kernel.init k₀)
    (hrun : kernel.Run k₀ tr k) (hmax : allocpids tr < 2 ^ 31 - 1) : PidsOk k.toProcs := by
  have hhistory : k.Sound ∧ (allocpids tr < 2 ^ 31 - 1 →
      PidsOk k.toProcs ∧ k.nextpid ≤ 1 + allocpids tr) := by
    refine hrun.history (I := fun (tr : List (Kernel × Label)) (k : Kernel) =>
      k.Sound ∧ (allocpids tr < 2 ^ 31 - 1 → PidsOk k.toProcs ∧ k.nextpid ≤ 1 + allocpids tr)) ?_ ?_
    · refine ⟨init_sound h₀, ?_⟩
      intro _
      obtain ⟨hpids, hnext⟩ := init_pids h₀
      exact ⟨hpids, Int.le_of_eq hnext⟩
    · intro tr k l k' _ hinv hs
      obtain ⟨hsound, hpids⟩ := hinv
      refine ⟨step_sound hsound hs, ?_⟩
      intro hmax
      have hcount : allocpids (tr ++ [(k, l)]) = allocpids tr + (l.takesPid k).toNat := by
        cases htakes : l.takesPid k <;> simp [allocpids, htakes, Nat.add_assoc]
      rw [hcount] at hmax ⊢
      obtain ⟨hok, hnext⟩ := hpids (by omega)
      have hroom : l.takesPid k = true → k.nextpid + 1 < 2 ^ 31 := by
        intro htakes
        rw [htakes, Bool.toNat_true] at hmax
        omega
      obtain ⟨hok', hnext'⟩ := step_pids hsound hok hroom hs
      exact ⟨hok', by omega⟩
  exact (hhistory.2 hmax).1

/-! ## `settickets` -/

theorem findSlot_of_unique {test : Proc → Bool} {t : Table} {i : Nat} (hi : i < NPROC)
    (htest : test (t i) = true) (hunique : ∀ j < NPROC, test (t j) = true → j = i) :
    findSlot test t = some i := by
  cases h : findSlot test t with
  | none =>
      have hnone := List.find?_eq_none.mp h i (List.mem_range.mpr hi)
      exact absurd htest hnone
  | some j => rw [hunique j (findSlot_lt h) (findSlot_test h)]

/-- `settickets` of a running process either refuses the number and changes nothing, or
    finds the slot of its caller (so that the lock it releases is the one it took) and
    writes `initial_tickets` there and nothing else. -/
theorem settickets_frame {k₀ k : Kernel} {tr : List (Kernel × Label)} (h₀ : kernel.init k₀)
    (hrun : kernel.Run k₀ tr k) (hmax : allocpids tr < 2 ^ 31 - 1) {i : Nat} (hi : i < NPROC)
    (hstate : (k.proc i).state = .running) (n : Int) :
    (n < 1 → settickets i n k.toProcs = some (.value (-1), k.toProcs)) ∧
    (1 ≤ n → findSlot (fun p => p.pid = (k.proc i).pid) k.proc = some i ∧
      settickets i n k.toProcs =
        some (.value 0, { k.toProcs with
          proc := Function.update k.proc i { k.proc i with initialTickets := n } })) := by
  have hpids := run_pids h₀ hrun hmax
  have hpos : 1 ≤ (k.proc i).pid := hpids.pos i hi (by rw [hstate]; simp)
  have hfind : findSlot (fun p => p.pid = (k.proc i).pid) k.proc = some i := by
    apply findSlot_of_unique hi
    · simp
    · intro j hj htest
      have heq : (k.proc j).pid = (k.proc i).pid := by simpa using htest
      exact (hpids.inj i hi j hj hpos heq.symm).symm
  constructor
  · intro hn
    unfold settickets
    rw [if_pos hn]
  · intro hn
    refine ⟨hfind, ?_⟩
    unfold settickets
    rw [if_neg (Int.not_lt.mpr hn), hfind]
    exact if_pos rfl

/-- The first child, the second process to get a pid, sets its tickets. -/
theorem settickets_frame_child :
    ∃ k₀ tr k, kernel.init k₀ ∧ kernel.Run k₀ tr k ∧ allocpids tr = 2 ∧
      (k.proc 1).state = .running ∧ (k.proc 1).pid = 2 ∧
      settickets 1 7 k.toProcs = some (.value 0, { k.toProcs with
        proc := Function.update k.proc 1 { k.proc 1 with initialTickets := 7 } }) := by
  obtain ⟨k₀, tr, k, hinit, hrun, hp⟩ := exists_run_of_rounds
    (fun tr k => decide ((k.proc 1).state = .running ∧ (k.proc 1).pid = 2 ∧
      1 + tr.countP (fun q => q.2.takesPid q.1) = 2))
    (forkOnce (random Rng.seed).2) (by decide +kernel)
  obtain ⟨hstate, hpid, hcount⟩ := of_decide_eq_true hp
  rw [← allocpids_loud] at hcount
  have hframe := settickets_frame hinit hrun (by rw [hcount]; decide) (i := 1) (by decide) hstate 7
  exact ⟨k₀, tr, k, hinit, hrun, hcount, hstate, hpid, (hframe.2 (by decide)).2⟩

end Lottery
