-- SUMMARY: The ticket invariant of the lottery kernel: every process has tickets to its name, and a dispatch costs the winner exactly one.
import OsLabs.Lottery.Scan

/-!
# Tickets

A process gets its tickets before it first becomes runnable and keeps a positive
allotment from then on, although `freeproc` never clears the ticket fields and a reused
slot starts with those of its last owner. During a round only wakeups change the set of
runnable processes, so what the scheduler has counted so far is never more than what is
there; this is what keeps the dispatched process from going into debt.
-/

namespace Lottery

open CInt

/-! ## Slots -/

/-- The slot holds a process that has been made runnable at some point. -/
def Proc.Live (p : Proc) : Prop :=
  p.state = .sleeping ∨ p.state = .runnable ∨ p.state = .running ∨ p.state = .zombie

def Proc.Funded (p : Proc) : Prop := 1 ≤ p.initialTickets ∧ 0 ≤ p.currentTickets

/-- The child that the process has allocated and not yet made runnable. -/
def Kstack.child : Kstack → Option Nat
  | .forkParent np   => some np
  | .forkRunnable np => some np
  | .user            => none
  | .asleep          => none

/-- What every write to a slot does, the end of `fork` apart. -/
structure Proc.Next (p q : Proc) : Prop where
  funded : p.Funded → q.Funded
  live : q.Live → p.Live
  child : ∀ np, q.kstack.child = some np → p.kstack.child = some np

theorem Proc.Next.refl (p : Proc) : p.Next p := ⟨id, id, fun _ => id⟩

theorem Proc.Next.trans {p q r : Proc} (h₁ : p.Next q) (h₂ : q.Next r) : p.Next r :=
  ⟨h₂.funded ∘ h₁.funded, h₁.live ∘ h₂.live, fun np h => h₁.child np (h₂.child np h)⟩

theorem tickets_nonneg {p : Proc} (h : p.Live → p.Funded) : 0 ≤ tickets p := by
  unfold tickets
  split
  · rename_i hp
    exact (h (.inr (.inl hp))).2
  · exact Int.le_refl 0

/-! ## Tables -/

/-- Whoever is alive has tickets, and so has a child that `fork` is about to make
    runnable. -/
structure TicketsOk (t : Table) : Prop where
  live : ∀ j < NPROC, (t j).Live → (t j).Funded
  child : ∀ j < NPROC, ∀ np, (t j).kstack.child = some np → np < NPROC ∧ (t np).Funded

theorem TicketsOk.solvent {t : Table} (h : TicketsOk t) : Solvent t :=
  fun j hj => tickets_nonneg (h.live j hj)

/-- Every slot goes through `Proc.Next`. -/
def Nexts (t t' : Table) : Prop := ∀ j, (t j).Next (t' j)

theorem Nexts.trans {t t' t'' : Table} (h₁ : Nexts t t') (h₂ : Nexts t' t'') : Nexts t t'' :=
  fun j => (h₁ j).trans (h₂ j)

theorem Nexts.update {t : Table} {i : Nat} {p : Proc} (h : (t i).Next p) :
    Nexts t (Function.update t i p) :=
  (Function.forall_update_iff t fun j => (t j).Next).mpr ⟨h, fun _ _ => .refl _⟩

theorem TicketsOk.nexts {t t' : Table} (h : TicketsOk t) (hn : Nexts t t') : TicketsOk t' where
  live j hj hl := (hn j).funded (h.live j hj ((hn j).live hl))
  child j hj np hc := by
    obtain ⟨hlt, hf⟩ := h.child j hj np ((hn j).child np hc)
    exact ⟨hlt, (hn np).funded hf⟩

theorem wakeup_nexts (me : Option Nat) (c : Chan) (t : Table) : Nexts t (wakeup me c t) := by
  intro j
  unfold wakeup
  split
  · rename_i h
    exact ⟨id, fun _ => .inl h.2.2.1, fun _ => id⟩
  · exact .refl _

theorem reparent_nexts (i initproc : Nat) (t : Table) : Nexts t (reparent i initproc t) := by
  have hparent : Nexts t fun j =>
      if j < NPROC ∧ (t j).parent = some i then { t j with parent := some initproc } else t j := by
    intro j
    dsimp only
    split
    · exact ⟨id, id, fun _ => id⟩
    · exact .refl _
  unfold reparent
  split
  · exact hparent.trans (wakeup_nexts _ _ _)
  · exact hparent

/-! ## Calls -/

theorem findSlot_lt {test : Proc → Bool} {t : Table} {i : Nat} (h : findSlot test t = some i) :
    i < NPROC := by
  simpa using List.mem_of_find?_eq_some h

theorem freeproc_next (p : Proc) : p.Next (freeproc p) where
  funded := id
  live h := by simp [freeproc, Proc.Live] at h
  child _ := id

theorem allocproc_spec {memOk : Bool} {k k' : Procs} {r : Option Nat}
    (h : allocproc memOk k = (r, k')) :
    Nexts k.proc k'.proc ∧ ∀ np, r = some np → np < NPROC ∧ ¬ (k'.proc np).Live := by
  unfold allocproc at h
  split at h
  · cases h
    exact ⟨fun _ => .refl _, by simp⟩
  · rename_i i hi
    simp only [allocpid] at h
    split at h
    · cases h
      refine ⟨.update ⟨id, by simp [Proc.Live], by simp [Kstack.child]⟩, ?_⟩
      rintro np ⟨⟩
      exact ⟨findSlot_lt hi, by simp [Procs.set, Proc.Live]⟩
    · cases h
      refine ⟨.update (.trans ?_ (freeproc_next _)), by simp⟩
      exact ⟨id, by simp [Proc.Live], fun _ => id⟩

/-- What one call keeps: the invariant, and the tickets of everyone who has some. -/
def Keeps (t t' : Table) : Prop := TicketsOk t' ∧ ∀ j, (t j).Funded → (t' j).Funded

theorem TicketsOk.keeps {t t' : Table} (h : TicketsOk t) (hn : Nexts t t') : Keeps t t' :=
  ⟨h.nexts hn, fun j => (hn j).funded⟩

theorem Keeps.trans {t t' t'' : Table} (h₁ : Keeps t t') (h₂ : Keeps t' t'') : Keeps t t'' :=
  ⟨h₂.1, fun j hj => h₂.2 j (h₁.2 j hj)⟩

theorem funded_update {t : Table} {i j : Nat} {p : Proc} (hp : (t i).Funded → p.Funded)
    (hj : (t j).Funded) : (Function.update t i p j).Funded := by
  by_cases hij : j = i
  · subst hij
    rw [Function.update_self]
    exact hp hj
  · rw [Function.update_of_ne hij]
    exact hj

/-- A write to slot `i` that leaves a living process and a child on its kernel stack
    with tickets. -/
theorem TicketsOk.update {t : Table} (h : TicketsOk t) {i : Nat} {p : Proc}
    (hp : (t i).Funded → p.Funded) (hlive : i < NPROC → p.Live → p.Funded)
    (hchild : i < NPROC → ∀ np, p.kstack.child = some np → np < NPROC ∧ (t np).Funded) :
    Keeps t (Function.update t i p) := by
  refine ⟨⟨?_, ?_⟩, fun j => funded_update hp⟩
  · intro j hj hl
    by_cases hij : j = i
    · subst hij
      rw [Function.update_self] at hl ⊢
      exact hlive hj hl
    · rw [Function.update_of_ne hij] at hl
      exact funded_update hp (h.live j hj hl)
  · intro j hj np hc
    have hnp : np < NPROC ∧ (t np).Funded := by
      by_cases hij : j = i
      · subst hij
        rw [Function.update_self] at hc
        exact hchild hj np hc
      · rw [Function.update_of_ne hij] at hc
        exact h.child j hj np hc
    exact ⟨hnp.1, funded_update hp hnp.2⟩

/-- `fork` copies the allotment of its caller into a slot that nobody uses. -/
theorem fork_keeps {i : Nat} {memOk copyOk : Bool} {k : Procs} (h : TicketsOk k.proc)
    (hi : (k.proc i).Funded) : Keeps k.proc (fork i memOk copyOk k).2.proc := by
  unfold fork
  split
  · rename_i k₁ ha
    exact h.keeps (allocproc_spec ha).1
  · rename_i np k₁ ha
    obtain ⟨hn, hnp⟩ := allocproc_spec ha
    obtain ⟨hlt, hdead⟩ := hnp np rfl
    have hk₁ := h.keeps hn
    refine hk₁.trans ?_
    split
    · have hp := hk₁.2 i hi
      have hcopy : (k₁.proc np).Next
          { k₁.proc np with
            initialTickets := (k₁.proc i).initialTickets
            currentTickets := (k₁.proc i).initialTickets } :=
        ⟨fun _ => ⟨hp.1, Int.le_trans (by decide) hp.1⟩, id, fun _ => id⟩
      have hk₂ := hk₁.1.keeps (.update hcopy)
      refine hk₂.trans (hk₂.1.update id (fun hlt => hk₂.1.live i hlt) ?_)
      intro _ np' hnp'
      cases hnp'
      refine ⟨hlt, ?_⟩
      rw [Function.update_self]
      exact ⟨hp.1, Int.le_trans (by decide) hp.1⟩
    · exact hk₁.1.keeps (.update (freeproc_next _))

theorem forkParent_keeps {i np : Nat} {k : Procs} (h : TicketsOk k.proc) (hi : i < NPROC)
    (hnp : (k.proc i).kstack = .forkParent np) :
    Keeps k.proc (forkParent i np k).2.proc := by
  have hk₁ : Keeps k.proc (k.set np { k.proc np with parent := some i }).proc :=
    h.keeps (.update ⟨id, id, fun _ => id⟩)
  obtain ⟨hlt, hf⟩ := h.child i hi np (by rw [hnp]; rfl)
  refine hk₁.trans (hk₁.1.update id (hk₁.1.live i) ?_)
  intro _ np' hnp'
  cases hnp'
  exact ⟨hlt, hk₁.2 np hf⟩

/-- The only place where a process comes to life. -/
theorem forkRunnable_keeps {i np : Nat} {k : Procs} (h : TicketsOk k.proc) (hi : i < NPROC)
    (hnp : (k.proc i).kstack = .forkRunnable np) :
    Keeps k.proc (forkRunnable i np k).2.proc := by
  obtain ⟨-, hf⟩ := h.child i hi np (by rw [hnp]; rfl)
  have hk₁ : Keeps k.proc (k.set np { k.proc np with state := .runnable }).proc :=
    h.update id (fun _ _ => hf) (h.child np)
  exact hk₁.trans (hk₁.1.update id (hk₁.1.live i) (by simp [Kstack.child]))

theorem exit_keeps {i : Nat} {status : Int} {k k' : Procs} {r : Ret} (h : TicketsOk k.proc)
    (hi : (k.proc i).Funded) (hk : exit i status k = some (r, k')) : Keeps k.proc k'.proc := by
  obtain ⟨t, hnexts, hproc⟩ : ∃ t, Nexts k.proc t ∧
      k'.proc = Function.update t i { t i with xstate := status, state := .zombie } := by
    unfold exit at hk
    split at hk
    · cases hk
    · cases hk
      refine ⟨_, ?_, rfl⟩
      split
      · exact (reparent_nexts i k.initproc k.proc).trans (wakeup_nexts _ _ _)
      · exact reparent_nexts i k.initproc k.proc
  have hk₁ := h.keeps hnexts
  rw [hproc]
  exact hk₁.trans (hk₁.1.update id (fun _ _ => hk₁.2 i hi) (hk₁.1.child i))

theorem sleep_keeps {i : Nat} {c : Chan} {k : Procs} (h : TicketsOk k.proc)
    (hi : (k.proc i).Funded) : Keeps k.proc (sleep i c k).2.proc :=
  h.update id (fun _ _ => hi) (by simp [Kstack.child])

theorem wait_keeps {i : Nat} {copyoutOk : Bool} {k : Procs} (h : TicketsOk k.proc)
    (hi : (k.proc i).Funded) : Keeps k.proc (wait i copyoutOk k).2.proc := by
  unfold wait
  split
  · split
    · exact h.keeps (.update (freeproc_next _))
    · exact h.keeps fun _ => .refl _
  · split
    · exact h.keeps fun _ => .refl _
    · exact sleep_keeps h hi

theorem kill_nexts (pid : Int) (k : Procs) : Nexts k.proc (kill pid k).2.proc := by
  unfold kill
  split
  · exact fun _ => .refl _
  · refine .update ?_
    split
    · rename_i hs
      exact ⟨id, fun _ => .inl hs, fun _ => id⟩
    · exact ⟨id, id, fun _ => id⟩

theorem settickets_nexts {i : Nat} {tickets : Int} {k k' : Procs} {r : Ret}
    (h : settickets i tickets k = some (r, k')) : Nexts k.proc k'.proc := by
  unfold settickets at h
  split at h
  · cases h
    exact fun _ => .refl _
  · rename_i hpos
    split at h
    · cases h
    · split at h
      · cases h
        exact .update ⟨fun hf => ⟨Int.not_lt.mp hpos, hf.2⟩, id, fun _ => id⟩
      · cases h

theorem Keeps.of_some {t : Table} {x : Ret × Procs} {r : Ret} {k' : Procs}
    (h : Keeps t x.2.proc) (hk : some x = some (r, k')) : Keeps t k'.proc := by
  rw [Option.some.inj hk] at h
  exact h

/-- Every call of a funded process keeps everyone funded. -/
theorem call_keeps {i : Nat} {c : Call} {k k' : Procs} {r : Ret} (h : TicketsOk k.proc)
    (hi : i < NPROC) (hf : (k.proc i).Funded) (hk : k.call i c = some (r, k')) :
    Keeps k.proc k'.proc := by
  unfold Procs.call at hk
  split at hk
  · exact (fork_keeps h hf).of_some hk
  · rename_i hnp
    exact (forkParent_keeps h hi hnp).of_some hk
  · rename_i hnp
    exact (forkRunnable_keeps h hi hnp).of_some hk
  · exact exit_keeps h hf hk
  · exact (wait_keeps h hf).of_some hk
  · exact (sleep_keeps h hf).of_some hk
  · cases hk
    exact h.update id (h.live i) (by simp [Kstack.child])
  · cases hk
    exact h.update id (fun _ _ => hf) (h.child i)
  · exact (h.keeps (kill_nexts _ k)).of_some hk
  · exact h.keeps (settickets_nexts hk)
  · cases hk
    exact h.keeps (wakeup_nexts _ _ _)
  · cases hk

/-! ## Rounds -/

/-- What `scheduler()` knows: it has counted no more tickets than the table holds, the
    lottery loop has not passed the draw, and a chosen slot has a ticket to give. -/
def SchedPc.Ok (t : Table) : SchedPc → Prop
  | .test i sum          => i ≤ NPROC ∧ 0 ≤ sum ∧ sum ≤ ticketSum t i
  | .reset i             => i ≤ NPROC
  | .total i sum         => i ≤ NPROC ∧ 0 ≤ sum ∧ sum ≤ ticketSum t i
  | .scan i count random => i ≤ NPROC ∧ 0 ≤ count ∧ count ≤ ticketSum t i ∧ count ≤ random
  | .chosen p            => p < NPROC → (t p).state = .runnable ∧ 1 ≤ (t p).currentTickets

/-- The hart runs a funded process, or is at a sound point of the scheduler. -/
def Cpu.Ok (t : Table) : Cpu → Prop
  | .scheduler pc => pc.Ok t
  | .process i    => i < NPROC → (t i).Funded

structure Kernel.Ok (k : Kernel) : Prop where
  tickets : TicketsOk k.proc
  cpu : k.cpu.Ok k.proc

/-- A section of a counting loop counts no more than is there. -/
theorem addTickets_bounds {t : Table} (h : TicketsOk t) (hsum : ticketSum t NPROC < 2 ^ 31)
    {i : Nat} (hi : i < NPROC) {acc : Int} (h₀ : 0 ≤ acc) (h₁ : acc ≤ ticketSum t i) :
    addTickets (t i) acc = acc + tickets (t i) ∧ acc ≤ addTickets (t i) acc ∧
      addTickets (t i) acc ≤ ticketSum t (i + 1) := by
  have hpos := h.solvent i hi
  have hmono := ticketSum_mono h.solvent (m := i + 1) (n := NPROC) hi (Nat.le_refl _)
  have hsucc := ticketSum_succ t i
  have heq : addTickets (t i) acc = acc + tickets (t i) := addTickets_eq (by omega) (by omega)
  omega

theorem schedSection_ok {t t' : Table} {pc pc' : SchedPc} (h : TicketsOk t) (hpc : pc.Ok t)
    (hsum : ticketSum t NPROC < 2 ^ 31) (hs : schedSection t pc = some (t', pc')) :
    TicketsOk t' ∧ pc'.Ok t' := by
  cases pc with
  | test i total =>
      obtain ⟨hi, h₀, h₁⟩ := hpc
      simp only [schedSection] at hs
      split at hs
      · rename_i hlt
        cases hs
        have hb := addTickets_bounds h hsum hlt h₀ h₁
        exact ⟨h, hlt, by omega, hb.2.2⟩
      · split at hs
        · cases hs
          exact ⟨h, Nat.zero_le _⟩
        · cases hs
          exact ⟨h, Nat.zero_le _, Int.le_refl _, Int.le_refl _⟩
  | reset i =>
      simp only [schedSection] at hs
      split at hs
      · rename_i hlt
        split at hs
        · cases hs
          refine ⟨h.nexts (.update ⟨fun hf => ⟨hf.1, ?_⟩, id, fun _ => id⟩), hlt⟩
          exact Int.le_trans (by decide) hf.1
        · cases hs
          exact ⟨h, hlt⟩
      · cases hs
        exact ⟨h, Nat.zero_le _, Int.le_refl _, Int.le_refl _⟩
  | total i total =>
      obtain ⟨hi, h₀, h₁⟩ := hpc
      simp only [schedSection] at hs
      split at hs
      · rename_i hlt
        cases hs
        have hb := addTickets_bounds h hsum hlt h₀ h₁
        exact ⟨h, hlt, by omega, hb.2.2⟩
      · cases hs
  | scan i count random =>
      obtain ⟨hi, h₀, h₁, hr⟩ := hpc
      simp only [schedSection] at hs
      split at hs
      · rename_i hlt
        obtain ⟨heq, hle, hsucc⟩ := addTickets_bounds h hsum hlt h₀ h₁
        split at hs
        · rename_i hstop
          cases hs
          -- The count passed the draw here, so this slot added to it.
          have htick : tickets (t i) = (t i).currentTickets := if_pos hstop.1
          exact ⟨h, fun _ => ⟨hstop.1, by omega⟩⟩
        · rename_i hstop
          cases hs
          refine ⟨h, hlt, by omega, hsucc, ?_⟩
          by_cases hrun : (t i).state = .runnable
          · exact Int.not_lt.mp fun hgt => hstop ⟨hrun, hgt⟩
          · rw [show addTickets (t i) count = count from if_neg hrun]
            exact hr
      · rename_i hge
        cases hs
        exact ⟨h, fun hlt => absurd hlt hge⟩
  | chosen p =>
      simp only [schedSection] at hs
      split at hs
      · cases hs
      · cases hs
        exact ⟨h, Nat.zero_le _, Int.le_refl _, Int.le_refl _⟩

/-- What two tables agree on below `n` adds up to the same. -/
theorem ticketSum_congr {t t' : Table} {n : Nat} (h : ∀ j < n, t' j = t j) :
    ticketSum t' n = ticketSum t n :=
  Finset.sum_congr rfl fun j hj => by rw [h j (Finset.mem_range.mp hj)]

/-- The hart's knowledge survives when the RUNNABLE tickets only grow, runnable slots
    stay and nobody loses the tickets. -/
theorem Cpu.Ok.mono {t t' : Table} {cpu : Cpu} (h : cpu.Ok t)
    (hsum : ∀ n ≤ NPROC, ticketSum t n ≤ ticketSum t' n)
    (hrun : ∀ p < NPROC, (t p).state = .runnable → t' p = t p)
    (hfund : ∀ p < NPROC, (t p).Funded → (t' p).Funded) : cpu.Ok t' := by
  cases cpu with
  | process i => exact fun hi => hfund i hi (h hi)
  | scheduler pc =>
      cases pc with
      | test i sum =>
          obtain ⟨hi, h₀, h₁⟩ := h
          exact ⟨hi, h₀, Int.le_trans h₁ (hsum i hi)⟩
      | reset i => exact h
      | total i sum =>
          obtain ⟨hi, h₀, h₁⟩ := h
          exact ⟨hi, h₀, Int.le_trans h₁ (hsum i hi)⟩
      | scan i count random =>
          obtain ⟨hi, h₀, h₁, hr⟩ := h
          exact ⟨hi, h₀, Int.le_trans h₁ (hsum i hi), hr⟩
      | chosen p =>
          intro hp
          have hc := h hp
          rw [hrun p hp hc.1]
          exact hc

/-! ## Steps -/

theorem wakeup_tickets_le {t : Table} (h : TicketsOk t) (me : Option Nat) (c : Chan) {j : Nat}
    (hj : j < NPROC) : tickets (t j) ≤ tickets (wakeup me c t j) := by
  unfold wakeup
  split
  · rename_i hw
    have hs := hw.2.2.1
    have hf := h.live j hj (.inl hs)
    simpa [tickets, hs] using hf.2
  · exact Int.le_refl _

/-- A wakeup from an interrupt, at any point of a round. -/
theorem wakeup_ok {k : Kernel} (h : k.Ok) (me : Option Nat) (c : Chan) :
    Kernel.Ok { k with proc := wakeup me c k.proc } where
  tickets := h.tickets.nexts (wakeup_nexts me c k.proc)
  cpu := by
    refine h.cpu.mono ?_ ?_ fun p _ => (wakeup_nexts me c _ p).funded
    · intro n hn
      refine Finset.sum_le_sum fun j hj => wakeup_tickets_le h.tickets me c ?_
      have := Finset.mem_range.mp hj
      omega
    · intro p _ hp
      simp [wakeup, hp]

theorem TicketsOk.congr {t t' : Table} (h : TicketsOk t) (ht : ∀ j < NPROC, t' j = t j) :
    TicketsOk t' where
  live j hj hl := by
    rw [ht j hj] at hl ⊢
    exact h.live j hj hl
  child j hj np hc := by
    rw [ht j hj] at hc
    obtain ⟨hlt, hf⟩ := h.child j hj np hc
    rw [ht np hlt]
    exact ⟨hlt, hf⟩

/-- Memory behind the table does not matter. -/
theorem Kernel.Ok.congr {k : Kernel} {t : Table} (h : k.Ok) (ht : ∀ j < NPROC, t j = k.proc j) :
    Kernel.Ok { k with proc := t } where
  tickets := h.tickets.congr ht
  cpu := by
    refine h.cpu.mono ?_ (fun p hp _ => ht p hp) ?_
    · intro n hn
      exact Int.le_of_eq (ticketSum_congr fun j hj => ht j (by omega)).symm
    · intro p hp hf
      change (t p).Funded
      rw [ht p hp]
      exact hf

theorem tickets_le_ticketSum {t : Table} (h : Solvent t) {p : Nat} (hp : p < NPROC) :
    tickets (t p) ≤ ticketSum t NPROC :=
  Finset.single_le_sum (f := fun j => tickets (t j)) (fun j hj => h j (Finset.mem_range.mp hj))
    (Finset.mem_range.mpr hp)

/-- A dispatched slot of the table has a ticket and pays with it. -/
theorem dispatch_pays {k : Kernel} (h : k.Ok) (hsum : ticketSum k.proc NPROC < 2 ^ 31) {p : Nat}
    (hp : p < NPROC) (hcpu : k.cpu = .scheduler (.chosen p)) :
    1 ≤ (k.proc p).currentTickets ∧
      (dispatch (k.proc p)).currentTickets = (k.proc p).currentTickets - 1 := by
  have hc := h.cpu
  rw [hcpu] at hc
  obtain ⟨hrun, hone⟩ := hc hp
  have hle := tickets_le_ticketSum h.tickets.solvent hp
  have htick : tickets (k.proc p) = (k.proc p).currentTickets := if_pos hrun
  exact ⟨hone, wrap32_eq_self (by omega) (by omega)⟩

theorem dispatch_ok {k : Kernel} (h : k.Ok) (hsum : ticketSum k.proc NPROC < 2 ^ 31) {p : Nat}
    (hcpu : k.cpu = .scheduler (.chosen p)) (hrun : (k.proc p).state = .runnable) :
    Kernel.Ok { k with
      proc := Function.update k.proc p (dispatch (k.proc p)), cpu := .process p } := by
  by_cases hp : p < NPROC
  · obtain ⟨hone, hpay⟩ := dispatch_pays h hsum hp hcpu
    have hf := h.tickets.live p hp (.inr (.inl hrun))
    have hf' : (dispatch (k.proc p)).Funded := ⟨hf.1, by omega⟩
    refine ⟨h.tickets.nexts (.update ⟨fun _ => hf', fun _ => .inr (.inl hrun), fun _ => id⟩), ?_⟩
    intro _
    simpa using hf'
  · refine ⟨h.tickets.congr fun j hj => Function.update_of_ne (by omega) .., ?_⟩
    exact fun hp' => absurd hp' hp

theorem step_ok {k k' : Kernel} {l : Label} (h : k.Ok) (hsum : ticketSum k.proc NPROC < 2 ^ 31)
    (hs : kernel.step k l k') : k'.Ok := by
  have hcpu := h.cpu
  cases move_of_step hs with
  | intr => exact wakeup_ok h _ _
  | sched hpc hsection =>
      rw [hpc] at hcpu
      obtain ⟨ht, hpc'⟩ := schedSection_ok h.tickets hcpu hsum hsection
      exact ⟨ht, hpc'⟩
  | @draw g i total hpc hge =>
      rw [hpc] at hcpu
      obtain ⟨hi, h₀, h₁⟩ := hcpu
      obtain rfl : i = NPROC := Nat.le_antisymm hi hge
      have hdraw : CanDraw 0 total (randomrange g 0 total).1 := ⟨g, rfl⟩
      refine ⟨h.tickets, Nat.zero_le _, Int.le_refl _, Int.le_refl _, ?_⟩
      exact (hdraw.bounds h₀ (by omega)).1
  | dispatch hpc hrun => exact dispatch_ok h hsum hpc hrun
  | @call i c r ks hpc hi hcall =>
      rw [hpc] at hcpu
      have hf : (k.proc i).Funded := hcpu hi
      obtain ⟨hok, hfund⟩ := call_keeps h.tickets hi hf hcall
      refine ⟨hok, ?_⟩
      dsimp only
      split
      · exact ⟨Nat.zero_le _, Int.le_refl _, Int.le_refl _⟩
      · exact fun _ => hfund i hf
  | behind => exact h.congr fun j hj => if_pos hj

theorem init_ok {k : Kernel} (h : kernel.init k) : k.Ok := by
  obtain ⟨t, rfl⟩ := h
  have hboot : boot.Ok := by
    refine ⟨⟨?_, ?_⟩, ?_⟩
    · intro j hj hl
      by_cases h0 : j = 0
      · subst h0
        exact ⟨by decide, by decide⟩
      · simp [boot, userinit, h0, Proc.Live, Proc.zero] at hl
    · intro j hj np hc
      by_cases h0 : j = 0
      · subst h0
        simp [boot, userinit, Proc.zero, Kstack.child] at hc
      · simp [boot, userinit, h0, Proc.zero, Kstack.child] at hc
    · exact ⟨Nat.zero_le _, Int.le_refl _, Int.le_refl _⟩
  exact hboot.congr fun j hj => if_pos hj

/-! ## Runs -/

/-- As long as the tickets of the runnable processes fit into an `int`: every process
    that has been made runnable has an allotment and no debt, and a dispatch of a slot of
    the table takes one of its tickets and leaves all other tickets alone. -/
theorem tickets_conserved {k₀ k : Kernel} {tr : List (Kernel × Label)} (h₀ : kernel.init k₀)
    (hrun : kernel.Run k₀ tr k) (hsum : ∀ q ∈ tr, ticketSum q.1.proc NPROC < 2 ^ 31) :
    (∀ i < NPROC, (k.proc i).Live →
      1 ≤ (k.proc i).initialTickets ∧ 0 ≤ (k.proc i).currentTickets) ∧
    (∀ p < NPROC, ∀ k', ticketSum k.proc NPROC < 2 ^ 31 → kernel.step k (.dispatch p) k' →
      1 ≤ (k.proc p).currentTickets ∧
      (k'.proc p).currentTickets = (k.proc p).currentTickets - 1 ∧
      (k'.proc p).initialTickets = (k.proc p).initialTickets ∧
      ∀ j ≠ p, (k'.proc j).initialTickets = (k.proc j).initialTickets ∧
        (k'.proc j).currentTickets = (k.proc j).currentTickets) := by
  have hok : k.Ok := hrun.invariant (init_ok h₀) hsum fun _ _ _ hs h => step_ok h hs
  refine ⟨hok.tickets.live, ?_⟩
  intro p hp k' hk hs
  cases move_of_step hs with
  | dispatch hpc hrun =>
      obtain ⟨hone, hpay⟩ := dispatch_pays hok hk hp hpc
      refine ⟨hone, ?_, ?_, ?_⟩
      · simpa using hpay
      · simp [dispatch]
      · intro j hj
        simp [hj]

/-- The first process is dispatched, has a child with three tickets and one with five, and
    yields. -/
def twoChildren : List Label :=
  [.dispatch 0, .call 0 (.settickets 3), .call 0 (.fork true true), .call 0 .forkParent,
    .call 0 .forkRunnable, .call 0 (.settickets 5), .call 0 (.fork true true), .call 0 .forkParent,
    .call 0 .forkRunnable, .call 0 .yield]

/-- The second child wins the round after that. -/
theorem run_twoChildren : ∃ tr, ∃ ks : Procs,
    kernel.Run boot tr { ks with cpu := .scheduler (.chosen 2) } ∧
    (∀ q ∈ tr, ticketSum q.1.proc NPROC < 2 ^ 31) ∧ ticketSum ks.proc NPROC < 2 ^ 31 ∧
    (∀ i < 3, (ks.proc i).state = .runnable) ∧ (ks.proc 0).currentTickets = 0 ∧
    (ks.proc 1).currentTickets = 3 ∧ (ks.proc 2).currentTickets = 5 ∧
    (ks.proc 2).initialTickets = 5 := by
  have hdraw : lotteryScan boot.proc (randomrange (random Rng.seed).2 0
      (getTotalRunnableTickets boot.proc)).1 = 0 := by decide +kernel
  obtain ⟨tr₁, hrun₁, htr₁⟩ := quiet_round boot.toProcs (random Rng.seed).2 (by decide +kernel)
  rw [hdraw] at hrun₁
  obtain ⟨tr₂, ⟨ks, cpu⟩, hrun₂, -, hend⟩ := TransitionSystem.exists_run_of_play (M := kernel)
    (fun _ _ _ hs => hs) twoChildren { boot with cpu := .scheduler (.chosen 0) }
    (fun tr k => decide (k.cpu = .scheduler (.test 0 0) ∧
      (getTotalRunnableTickets k.proc ≠ 0 ∧ lotteryScan k.proc
        (randomrange (random (random Rng.seed).2).2 0 (getTotalRunnableTickets k.proc)).1 = 2) ∧
      (∀ q ∈ tr, ticketSum q.1.proc NPROC < 2 ^ 31) ∧ ticketSum k.proc NPROC < 2 ^ 31 ∧
      (∀ i < 3, (k.proc i).state = .runnable) ∧ (k.proc 0).currentTickets = 0 ∧
      (k.proc 1).currentTickets = 3 ∧ (k.proc 2).currentTickets = 5 ∧
      (k.proc 2).initialTickets = 5))
    (by decide +kernel)
  obtain ⟨rfl, ⟨htotal, hdraw'⟩, hsum₂, hsum, htable⟩ := of_decide_eq_true hend
  obtain ⟨tr₃, hrun₃, htr₃⟩ := quiet_round ks (random (random Rng.seed).2).2 htotal
  rw [hdraw'] at hrun₃
  refine ⟨_, ks, (hrun₁.trans hrun₂).trans hrun₃, ?_, hsum, htable⟩
  intro q hq
  simp only [List.mem_append] at hq
  rcases hq with (hq | hq) | hq
  · rw [htr₁ q hq]
    decide +kernel
  · exact hsum₂ q hq
  · rw [htr₃ q hq]
    exact hsum

/-- Of three RUNNABLE processes, one of them without tickets, the second child is dispatched and
    pays. -/
theorem tickets_conserved_children :
    ∃ tr k k', kernel.Run boot tr k ∧ kernel.step k (.dispatch 2) k' ∧
      (∀ i < 3, (k.proc i).state = .runnable) ∧ (k.proc 2).currentTickets = 5 ∧
      (k'.proc 0).currentTickets = 0 ∧ (k'.proc 1).currentTickets = 3 ∧
      (k'.proc 2).currentTickets = 5 - 1 ∧ (k'.proc 2).initialTickets = 5 := by
  obtain ⟨tr, ks, hrun, hsums, hsum, hrunnable, hzero, hone, htwo, hinitial⟩ := run_twoChildren
  have hwinner : (ks.proc 2).state = .runnable := hrunnable 2 (by decide)
  have hstep : kernel.step { ks with cpu := .scheduler (.chosen 2) } (.dispatch 2)
      { ks with proc := Function.update ks.proc 2 (dispatch (ks.proc 2)), cpu := .process 2 } := by
    simp [kernel, Kernel.step, hwinner]
  have hinit : kernel.init boot := ⟨boot.proc, by simp⟩
  obtain ⟨-, hpay, hsame, hothers⟩ :=
    (tickets_conserved hinit hrun hsums).2 2 (by decide) _ hsum hstep
  exact ⟨tr, _, _, hrun, hstep, hrunnable, htwo, (hothers 0 (by decide)).2.trans hzero,
    (hothers 1 (by decide)).2.trans hone, hpay.trans (congrArg (· - 1) htwo),
    hsame.trans hinitial⟩

end Lottery
