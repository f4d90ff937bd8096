-- SUMMARY: Parents and children: the processes form a tree under init, and nobody sleeps in wait next to a zombie child.
import Mathlib.Logic.Relation
import OsLabs.Syscall.Events

/-!
# Parents and children

`fork`, `exit` and `wait` change the `parent` fields under `wait_lock`, each in a section of
its own, while harts run other processes between them. `Family` is what all of them keep. The
parents are processes that can still call `wait`, they lead to `init`, and a process that sleeps
in `wait` has been woken if one of its children has become a zombie.
-/

namespace Syscall

open CInt TransitionSystem
open Lottery (Chan NPROC Procstate)

/-! ## Stages of a slot -/

/-- How far the process in a slot is in its life. -/
inductive Stage
  | unused
  | used
  | active
  | zombie
deriving DecidableEq

def Proc.stage (p : Proc) : Stage :=
  match p.state with
  | .unused => .unused
  | .used   => .used
  | .zombie => .zombie
  | .sleeping | .runnable | .running => .active

/-- The process sleeps in `wait`. -/
def Proc.Waits (p : Proc) : Prop := p.state = .sleeping ∧ ∃ addr, p.pc = .wait addr

/-- The process is in the last sections of `fork`, which are about its child. -/
def Pc.Forks : Pc → Prop
  | .forkParent _ _ | .forkRunnable _ _ => True
  | _                                   => False

/-- A change of a slot that neither the parent nor the children notice: it may only end a
    sleep. -/
structure Proc.Kin (p q : Proc) : Prop where
  stage : q.stage = p.stage
  parent : q.parent = p.parent
  waits : q.Waits → p.Waits ∧ q.chan = p.chan
  forks : q.pc.Forks → q.pc = p.pc

theorem Proc.Kin.refl (p : Proc) : p.Kin p := ⟨rfl, rfl, fun h => ⟨h, rfl⟩, fun _ => rfl⟩

theorem Proc.Kin.trans {p q r : Proc} (h₁ : p.Kin q) (h₂ : q.Kin r) : p.Kin r where
  stage := h₂.stage.trans h₁.stage
  parent := h₂.parent.trans h₁.parent
  waits h := by
    obtain ⟨hq, hchan⟩ := h₂.waits h
    obtain ⟨hp, hchan'⟩ := h₁.waits hq
    exact ⟨hp, hchan.trans hchan'⟩
  forks h := by
    have hr : r.pc = q.pc := h₂.forks h
    rw [hr] at h ⊢
    exact h₁.forks h

theorem Proc.not_waits {p : Proc} (h : p.state ≠ .sleeping) : ¬ p.Waits := fun hw => h hw.1

theorem Proc.stage_of_running {p : Proc} (h : p.state = .running) : p.stage = .active := by
  simp [stage, h]

/-- A running process goes on, but not to the end of `fork`. -/
theorem Proc.Kin.goto {p : Proc} {pc : Pc} (hrun : p.state = .running) (hpc : ¬ pc.Forks) :
    p.Kin { p with pc := pc } where
  stage := rfl
  parent := rfl
  waits h := absurd h (not_waits (by simp [hrun]))
  forks h := absurd h hpc

/-- A process goes to sleep outside of `wait`. -/
theorem Proc.Kin.sleep {p : Proc} {c : Chan} (hrun : p.state = .running)
    (hp : ∀ addr, p.pc ≠ .wait addr) : p.Kin { p with chan := some c, state := .sleeping } where
  stage := (stage_of_running hrun).symm
  parent := rfl
  waits h := by
    obtain ⟨-, addr, haddr⟩ := h
    exact absurd haddr (hp addr)
  forks _ := rfl

theorem wakeup_kin_slot (c : Chan) (p : Proc) : p.Kin (p.wakeup c) := by
  unfold Proc.wakeup
  split
  · rename_i h
    exact ⟨by simp [Proc.stage, h.1], rfl, fun hw => absurd hw (Proc.not_waits (by simp)),
      fun _ => rfl⟩
  · exact .refl p

theorem wakeup_kin (me : Option Nat) (c : Chan) (t : Table) (j : Nat) :
    (t j).Kin (wakeup me c t j) := by
  unfold wakeup
  split
  · exact wakeup_kin_slot c (t j)
  · exact .refl _

/-- After `wakeup(c)` nobody but the caller sleeps on `c`. -/
theorem wakeup_not_waits {me : Option Nat} {c : Chan} {t : Table} {j : Nat} (hj : j < NPROC)
    (hme : me ≠ some j) (hc : (t j).chan = some c) : ¬ (wakeup me c t j).Waits := by
  unfold wakeup Proc.wakeup
  rw [if_pos ⟨hj, hme⟩]
  split
  · exact Proc.not_waits (by simp)
  · rename_i h
    exact fun hw => h ⟨hw.1, hc⟩

/-! ## The invariant -/

/-- The process in slot `i` has children, and all of them are still to exit. -/
def Kernel.Expects (k : Kernel) (i : Nat) : Prop :=
  (∃ j, (k.proc j).parent = some i) ∧ ∀ j, (k.proc j).parent = some i → (k.proc j).stage ≠ .zombie

/-- `depth` counts the generations from `init`. -/
structure Family (k : Kernel) (depth : Nat → Nat) : Prop where
  lt : ∀ j, (k.proc j).stage ≠ .unused → j < NPROC
  root : (k.proc k.initproc).stage = .active ∧ depth k.initproc = 0
  unused : ∀ j, (k.proc j).stage = .unused → (k.proc j).parent = none
  parent : ∀ j q, (k.proc j).parent = some q → (k.proc q).stage = .active ∧ depth q < depth j
  /-- A process that has started has a parent, `init` apart. -/
  started : ∀ j, (k.proc j).stage = .active ∨ (k.proc j).stage = .zombie →
    (k.proc j).parent = none → j = k.initproc
  pending : ∀ i np pid, (k.proc i).pc = .forkParent np pid → (k.proc np).parent = none
  adopted : ∀ i np pid, (k.proc i).pc = .forkRunnable np pid → (k.proc np).parent ≠ none
  waits : ∀ i, (k.proc i).Waits → (k.proc i).chan = some (.proc i) ∧ k.Expects i

variable {k k' : Kernel} {d : Nat → Nat} {i j : Nat}

theorem Kernel.Expects.congr (h : k.Expects i)
    (hparent : ∀ j, (k'.proc j).parent = (k.proc j).parent)
    (hstage : ∀ j, (k'.proc j).stage = .zombie → (k.proc j).stage = .zombie) : k'.Expects i := by
  obtain ⟨⟨j, hj⟩, hz⟩ := h
  refine ⟨⟨j, (hparent j).trans hj⟩, fun a ha hdead => ?_⟩
  exact hz a ((hparent a).symm.trans ha) (hstage a hdead)

/-- No process changes its stage or its parent. -/
theorem Family.carry (h : Family k d) (hinit : k'.initproc = k.initproc)
    (hstage : ∀ j, (k'.proc j).stage = (k.proc j).stage)
    (hparent : ∀ j, (k'.proc j).parent = (k.proc j).parent)
    (hpending : ∀ i np pid, (k'.proc i).pc = .forkParent np pid → (k.proc np).parent = none)
    (hadopted : ∀ i np pid, (k'.proc i).pc = .forkRunnable np pid → (k.proc np).parent ≠ none)
    (hwaits : ∀ i, (k'.proc i).Waits → (k.proc i).Waits ∧ (k'.proc i).chan = (k.proc i).chan) :
    Family k' d where
  lt j hj := h.lt j (by rwa [← hstage])
  root := by rw [hinit, hstage]; exact h.root
  unused j hj := by
    rw [hstage] at hj
    rw [hparent]
    exact h.unused j hj
  parent j q hq := by
    rw [hparent] at hq
    rw [hstage]
    exact h.parent j q hq
  started j hj hp := by
    rw [hstage] at hj
    rw [hparent] at hp
    rw [hinit]
    exact h.started j hj hp
  pending i np pid hi := by rw [hparent]; exact hpending i np pid hi
  adopted i np pid hi := by rw [hparent]; exact hadopted i np pid hi
  waits i hi := by
    obtain ⟨hw, hchan⟩ := hwaits i hi
    obtain ⟨hc, hi⟩ := h.waits i hw
    refine ⟨hchan.trans hc, hi.congr hparent fun j hj => ?_⟩
    exact (hstage j).symm.trans hj

theorem Family.gentle (h : Family k d) (hinit : k'.initproc = k.initproc)
    (hkin : ∀ j, (k.proc j).Kin (k'.proc j)) : Family k' d := by
  apply h.carry hinit (fun j => (hkin j).stage) (fun j => (hkin j).parent) _ _
    fun i => (hkin i).waits
  · intro i np pid hi
    have hpc : (k'.proc i).pc = (k.proc i).pc := (hkin i).forks (by rw [hi]; trivial)
    exact h.pending i np pid (hpc.symm.trans hi)
  · intro i np pid hi
    have hpc : (k'.proc i).pc = (k.proc i).pc := (hkin i).forks (by rw [hi]; trivial)
    exact h.adopted i np pid (hpc.symm.trans hi)

theorem Kernel.set_self (k : Kernel) (j : Nat) (p : Proc) : (k.set j p).proc j = p :=
  Function.update_self ..

theorem Kernel.set_of_ne (k : Kernel) (p : Proc) (h : i ≠ j) : (k.set j p).proc i = k.proc i :=
  Function.update_of_ne h ..

theorem Family.set {p : Proc} (h : Family k d) (hp : (k.proc j).Kin p) : Family (k.set j p) d :=
  h.gentle rfl ((Function.forall_update_iff k.proc fun a q => (k.proc a).Kin q).mpr
    ⟨hp, fun _ _ => .refl _⟩)

theorem Family.goto {pc : Pc} (h : Family k d) (hrun : (k.proc i).state = .running)
    (hpc : ¬ pc.Forks) : Family (k.goto i pc) d :=
  h.set (.goto hrun hpc)

/-- A kernel that has only printed something or taken a pid since. -/
theorem Family.congr (h : Family k d) (hproc : k'.proc = k.proc)
    (hinit : k'.initproc = k.initproc) : Family k' d :=
  h.gentle hinit fun j => by rw [hproc]; exact .refl _

/-! ## What each section keeps -/

/-- A slot whose process is not dead changes, but not its parent. -/
theorem Family.restage {p : Proc} (h : Family k d) (hj : j < NPROC)
    (hparent : p.parent = (k.proc j).parent) (hstage : p.stage = .used ∨ p.stage = .active)
    (hactive : (k.proc j).stage = .active → p.stage = .active)
    (hstarted : p.stage = .active → p.parent = none → j = k.initproc) (hforks : ¬ p.pc.Forks)
    (hwaits : p.Waits → p.chan = some (.proc j) ∧ k.Expects j) :
    Family (k.set j p) d := by
  have hself : (k.set j p).proc j = p := k.set_self j p
  have hother : ∀ a, a ≠ j → (k.set j p).proc a = k.proc a := fun a => k.set_of_ne p
  have hpar : ∀ a, ((k.set j p).proc a).parent = (k.proc a).parent :=
    (Function.forall_update_iff k.proc fun a q => q.parent = (k.proc a).parent).mpr
      ⟨hparent, fun _ _ => rfl⟩
  have hdead : ∀ a, ((k.set j p).proc a).stage = .zombie → (k.proc a).stage = .zombie :=
    (Function.forall_update_iff k.proc fun a q => q.stage = .zombie → (k.proc a).stage = .zombie).mpr
      ⟨fun hz => by simp [hz] at hstage, fun _ _ => id⟩
  have halive : ∀ a, (k.proc a).stage = .active → ((k.set j p).proc a).stage = .active :=
    (Function.forall_update_iff k.proc fun a q => (k.proc a).stage = .active → q.stage = .active).mpr
      ⟨hactive, fun _ _ => id⟩
  have hpc : ∀ a, ((k.set j p).proc a).pc.Forks → ((k.set j p).proc a).pc = (k.proc a).pc :=
    (Function.forall_update_iff k.proc fun a q => q.pc.Forks → q.pc = (k.proc a).pc).mpr
      ⟨fun hf => absurd hf hforks, fun _ _ _ => rfl⟩
  constructor
  case lt =>
    intro a ha
    obtain rfl | haj := eq_or_ne a j
    · exact hj
    · exact h.lt a (by rwa [← hother a haj])
  case root => exact ⟨halive _ h.root.1, h.root.2⟩
  case unused =>
    intro a ha
    rw [hpar]
    obtain rfl | haj := eq_or_ne a j
    · rw [hself] at ha
      simp [ha] at hstage
    · exact h.unused a (by rwa [← hother a haj])
  case parent =>
    intro a q hq
    rw [hpar] at hq
    obtain ⟨hq, hdepth⟩ := h.parent a q hq
    exact ⟨halive q hq, hdepth⟩
  case started =>
    intro a ha hnone
    obtain rfl | haj := eq_or_ne a j
    · rw [hself] at ha hnone
      rcases ha with ha | ha
      · exact hstarted ha hnone
      · simp [ha] at hstage
    · rw [hother a haj] at ha hnone
      exact h.started a ha hnone
  case pending =>
    intro a np pid ha
    rw [hpar]
    exact h.pending a np pid ((hpc a (by rw [ha]; trivial)).symm.trans ha)
  case adopted =>
    intro a np pid ha
    rw [hpar]
    exact h.adopted a np pid ((hpc a (by rw [ha]; trivial)).symm.trans ha)
  case waits =>
    intro a ha
    have hold : ((k.set j p).proc a).chan = some (.proc a) ∧ k.Expects a := by
      obtain rfl | haj := eq_or_ne a j
      · rw [hself] at ha ⊢
        exact hwaits ha
      · rw [hother a haj] at ha ⊢
        exact h.waits a ha
    exact ⟨hold.1, hold.2.congr hpar hdead⟩

/-- `fork` goes on to its last sections with a child that has no parent yet. -/
theorem Family.claim {np : Nat} {pid : Int} (h : Family k d) (hrun : (k.proc i).state = .running)
    (hnone : (k.proc np).parent = none) : Family (k.goto i (.forkParent np pid)) d := by
  have hpc : ∀ a pc, ((k.goto i (.forkParent np pid)).proc a).pc = pc →
      pc = .forkParent np pid ∨ (k.proc a).pc = pc := by
    intro a
    exact (Function.forall_update_iff k.proc fun a p => ∀ pc, p.pc = pc →
      pc = .forkParent np pid ∨ (k.proc a).pc = pc).mpr
      ⟨fun _ h => .inl h.symm, fun _ _ _ h => .inr h⟩ a
  refine h.carry rfl ?_ ?_ ?_ ?_ ?_
  · exact (Function.forall_update_iff k.proc fun a p => p.stage = (k.proc a).stage).mpr
      ⟨rfl, fun _ _ => rfl⟩
  · exact (Function.forall_update_iff k.proc fun a p => p.parent = (k.proc a).parent).mpr
      ⟨rfl, fun _ _ => rfl⟩
  · intro a b pid' ha
    rcases hpc a _ ha with heq | hold
    · cases heq
      exact hnone
    · exact h.pending a b pid' hold
  · intro a b pid' ha
    rcases hpc a _ ha with heq | hold
    · cases heq
    · exact h.adopted a b pid' hold
  · exact (Function.forall_update_iff k.proc fun a p => p.Waits →
      (k.proc a).Waits ∧ p.chan = (k.proc a).chan).mpr
      ⟨fun hw => absurd hw (Proc.not_waits (by simp [hrun])), fun _ _ hw => ⟨hw, rfl⟩⟩

/-- `fork` makes the child that slot `np` was taken for its own. -/
theorem Family.adopt {np : Nat} {pid : Int} (h : Family k d) (hrun : (k.proc i).state = .running)
    (hpc : (k.proc i).pc = .forkParent np pid) (hused : (k.proc np).stage = .used)
    (hinj : ∀ a pid', (k.proc a).pc = .forkParent np pid' → a = i)
    (hfork : ∀ a pid', (k.proc a).pc ≠ .forkRunnable np pid') :
    Family ((k.set np { k.proc np with parent := some i }).goto i (.forkRunnable np pid))
      (Function.update d np (d i + 1)) := by
  have hi : (k.proc i).stage = .active := Proc.stage_of_running hrun
  have hne : i ≠ np := by
    rintro rfl
    rw [hi] at hused
    cases hused
  obtain ⟨k', hk'⟩ : ∃ k', k' = (k.set np { k.proc np with parent := some i }).goto i
    (.forkRunnable np pid) := ⟨_, rfl⟩
  rw [← hk']
  have hproc : k'.proc = Function.update (Function.update k.proc np
      { k.proc np with parent := some i }) i { k.proc i with pc := .forkRunnable np pid } := by
    rw [hk']
    simp only [Kernel.goto, Kernel.set, Function.update_of_ne hne]
  have hinit : k'.initproc = k.initproc := by rw [hk']; rfl
  have hstage : ∀ a, (k'.proc a).stage = (k.proc a).stage := by
    rw [hproc]
    exact forall_update₂ (P := fun a p => p.stage = (k.proc a).stage) rfl rfl fun _ _ _ => rfl
  have hself : (k'.proc np).parent = some i := by
    rw [hproc, Function.update_of_ne hne.symm, Function.update_self]
  have hother : ∀ a, a ≠ np → (k'.proc a).parent = (k.proc a).parent := by
    rw [hproc]
    exact forall_update₂ (P := fun a p => a ≠ np → p.parent = (k.proc a).parent) (fun _ => rfl)
      (fun hnp => absurd rfl hnp) fun _ _ _ _ => rfl
  have hpcs : ∀ a, a ≠ i → (k'.proc a).pc = (k.proc a).pc := by
    rw [hproc]
    exact forall_update₂ (P := fun a p => a ≠ i → p.pc = (k.proc a).pc) (fun hi => absurd rfl hi)
      (fun _ => rfl) fun _ _ _ _ => rfl
  have hselfpc : (k'.proc i).pc = .forkRunnable np pid := by rw [hproc, Function.update_self]
  have hnone : (k.proc np).parent = none := h.pending i np pid hpc
  have hactive : ∀ a, (k.proc a).stage = .active → a ≠ np := by
    rintro a ha rfl
    rw [ha] at hused
    cases hused
  constructor
  case lt => exact fun a ha => h.lt a (by rwa [← hstage])
  case root =>
    rw [hinit, hstage, Function.update_of_ne (hactive _ h.root.1)]
    exact h.root
  case unused =>
    intro a ha
    rw [hstage] at ha
    have hanp : a ≠ np := by
      rintro rfl
      rw [ha] at hused
      cases hused
    rw [hother a hanp]
    exact h.unused a ha
  case parent =>
    intro a q hq
    rw [hstage]
    obtain rfl | hanp := eq_or_ne a np
    · cases hself.symm.trans hq
      rw [Function.update_self, Function.update_of_ne hne]
      exact ⟨hi, Nat.lt_succ_self _⟩
    · rw [hother a hanp] at hq
      obtain ⟨hq, hdepth⟩ := h.parent a q hq
      rw [Function.update_of_ne hanp, Function.update_of_ne (hactive q hq)]
      exact ⟨hq, hdepth⟩
  case started =>
    intro a ha hp
    obtain rfl | hanp := eq_or_ne a np
    · cases hself.symm.trans hp
    · rw [hstage] at ha
      rw [hother a hanp] at hp
      rw [hinit]
      exact h.started a ha hp
  case pending =>
    intro a b pid' ha
    have hai : a ≠ i := by
      rintro rfl
      cases hselfpc.symm.trans ha
    rw [hpcs a hai] at ha
    have hb : b ≠ np := by
      rintro rfl
      exact hai (hinj a pid' ha)
    rw [hother b hb]
    exact h.pending a b pid' ha
  case adopted =>
    intro a b pid' ha
    obtain rfl | hai := eq_or_ne a i
    · cases hselfpc.symm.trans ha
      simp [hself]
    · rw [hpcs a hai] at ha
      have hb : b ≠ np := by
        rintro rfl
        exact hfork a pid' ha
      rw [hother b hb]
      exact h.adopted a b pid' ha
  case waits =>
    intro a ha
    have hai : a ≠ i := by
      rintro rfl
      rw [hproc, Function.update_self] at ha
      exact Proc.not_waits (by simp [hrun]) ha
    have hanp : a ≠ np := by
      have hsleep : (k'.proc a).stage = .active := by simp [Proc.stage, ha.1]
      exact hactive a (by rw [← hstage, hsleep])
    have hsame : k'.proc a = k.proc a := by
      rw [hproc, Function.update_of_ne hai, Function.update_of_ne hanp]
    rw [hsame] at ha ⊢
    obtain ⟨hc, ⟨j, hj⟩, hz⟩ := h.waits a ha
    refine ⟨hc, ⟨j, ?_⟩, ?_⟩
    · rw [hother j, hj]
      rintro rfl
      simp [hnone] at hj
    · intro b hb
      rw [hstage]
      obtain rfl | hbnp := eq_or_ne b np
      · simp [hused]
      · exact hz b (by rw [← hother b hbnp, hb])

/-- `wait` frees the dead child in slot `j`. -/
theorem Family.reap (h : Family k d) (hparent : (k.proc j).parent = some i)
    (hi : ¬ (k.proc i).Waits) (hdead : (k.proc j).stage = .zombie) (hpc : ¬ (k.proc j).pc.Forks)
    (hfork : ∀ a pid, (k.proc a).pc ≠ .forkRunnable j pid) :
    Family (k.set j (freeproc (k.proc j))) d := by
  obtain ⟨k', hk'⟩ : ∃ k', k' = k.set j (freeproc (k.proc j)) := ⟨_, rfl⟩
  rw [← hk']
  have hinit : k'.initproc = k.initproc := by rw [hk']; rfl
  have hself : k'.proc j = freeproc (k.proc j) := by rw [hk', k.set_self]
  have hother : ∀ a, a ≠ j → k'.proc a = k.proc a := by
    intro a ha
    rw [hk', k.set_of_ne _ ha]
  have hstage : (k'.proc j).stage = .unused := by rw [hself]; rfl
  have hnone : (k'.proc j).parent = none := by rw [hself]; rfl
  have hactive : ∀ a, (k.proc a).stage = .active → a ≠ j := by
    rintro a ha rfl
    rw [ha] at hdead
    cases hdead
  constructor
  case lt =>
    intro a ha
    obtain rfl | haj := eq_or_ne a j
    · exact absurd hstage ha
    · exact h.lt a (by rwa [← hother a haj])
  case root =>
    rw [hinit, hother _ (hactive _ h.root.1)]
    exact h.root
  case unused =>
    intro a ha
    obtain rfl | haj := eq_or_ne a j
    · exact hnone
    · rw [hother a haj] at ha ⊢
      exact h.unused a ha
  case parent =>
    intro a q hq
    obtain rfl | haj := eq_or_ne a j
    · simp [hnone] at hq
    · rw [hother a haj] at hq
      obtain ⟨hq, hdepth⟩ := h.parent a q hq
      rw [hother q (hactive q hq)]
      exact ⟨hq, hdepth⟩
  case started =>
    intro a ha hp
    obtain rfl | haj := eq_or_ne a j
    · simp [hstage] at ha
    · rw [hother a haj] at ha hp
      rw [hinit]
      exact h.started a ha hp
  case pending =>
    intro a np pid ha
    obtain rfl | haj := eq_or_ne np j
    · exact hnone
    · rw [hother np haj]
      obtain rfl | haj := eq_or_ne a j
      · rw [hself] at ha
        exact absurd (by rw [show (k.proc a).pc = _ from ha]; trivial) hpc
      · exact h.pending a np pid (by rw [← hother a haj, ha])
  case adopted =>
    intro a np pid ha
    have haj : a ≠ j := by
      rintro rfl
      rw [hself] at ha
      exact absurd (by rw [show (k.proc a).pc = _ from ha]; trivial) hpc
    rw [hother a haj] at ha
    have hnp : np ≠ j := by
      rintro rfl
      exact hfork a pid ha
    rw [hother np hnp]
    exact h.adopted a np pid ha
  case waits =>
    intro a ha
    have haj : a ≠ j := by
      rintro rfl
      rw [hself] at ha
      exact Proc.not_waits (by simp [freeproc]) ha
    rw [hother a haj] at ha ⊢
    obtain ⟨hc, ⟨b, hb⟩, hz⟩ := h.waits a ha
    refine ⟨hc, ⟨b, ?_⟩, ?_⟩
    · rw [hother b, hb]
      rintro rfl
      cases hparent.symm.trans hb
      exact hi ha
    · intro c hcp
      obtain rfl | hcj := eq_or_ne c j
      · simp [hstage]
      · rw [hother c hcj] at hcp ⊢
        exact hz c hcp

/-! ## Exit -/

/-- The loop of `reparent`, its calls of `wakeup` apart. -/
def handOver (i initproc : Nat) (t : Table) : Table := fun j =>
  if j < NPROC ∧ (t j).parent = some i then { t j with parent := some initproc } else t j

theorem handOver_of_ne {initproc : Nat} {t : Table} (h : (t j).parent ≠ some i) :
    handOver i initproc t j = t j :=
  if_neg fun hj => h hj.2

theorem handOver_of_lt {initproc : Nat} {t : Table} (hj : j < NPROC) (h : (t j).parent = some i) :
    handOver i initproc t j = { t j with parent := some initproc } :=
  if_pos ⟨hj, h⟩

theorem findSlot_isSome {test : Proc → Bool} {t : Table} (hj : j < NPROC) (h : test (t j) = true) :
    (findSlot test t).isSome := by
  unfold findSlot
  rw [List.find?_isSome]
  exact ⟨j, List.mem_range.mpr hj, h⟩

/-- Only the parent of a child changes hands. -/
theorem handOver_rest (i initproc : Nat) (t : Table) (j : Nat) :
    handOver i initproc t j = { t j with parent := (handOver i initproc t j).parent } := by
  unfold handOver
  split <;> rfl

theorem Family.child_lt {q : Nat} (h : Family k d) (hj : (k.proc j).parent = some q) : j < NPROC := by
  apply h.lt j
  intro hunused
  simp [h.unused j hunused] at hj

theorem Family.not_own_parent (h : Family k d) : (k.proc i).parent ≠ some i := by
  intro hi
  exact absurd (h.parent i i hi).2 (Nat.lt_irrefl _)

/-- What `exit` does to the table: `init` gets the children and has been woken if there are
    any, and the parent has been woken. -/
theorem exit_cases {status : Int} (h : Family k d) (hex : exit k i status = some k') :
    i ≠ k.initproc ∧ k'.initproc = k.initproc ∧ ∃ t : Table,
      k'.proc = Function.update t i { t i with xstate := status, state := .zombie } ∧
      (∀ j, (handOver i k.initproc k.proc j).Kin (t j)) ∧
      ((∃ j, (k.proc j).parent = some i) → ¬ (t k.initproc).Waits) ∧
      ∀ q, (k.proc i).parent = some q → ¬ (t q).Waits := by
  unfold exit at hex
  split at hex
  · cases hex
  rename_i hroot
  cases hex
  refine ⟨hroot, rfl, ?_⟩
  dsimp only
  obtain ⟨t₂, ht₂⟩ : ∃ t₂, t₂ = reparent i k.initproc k.proc := ⟨_, rfl⟩
  have hkin : ∀ j, (handOver i k.initproc k.proc j).Kin (t₂ j) := by
    intro j
    rw [ht₂]
    unfold reparent
    split
    · exact wakeup_kin ..
    · exact .refl _
  -- a sleeper in wait sleeps on its own channel
  have hchan : ∀ a, (handOver i k.initproc k.proc a).Waits →
      (handOver i k.initproc k.proc a).chan = some (.proc a) := by
    intro a ha
    rw [handOver_rest] at ha ⊢
    exact (h.waits a ha).1
  have hinit : (∃ j, (k.proc j).parent = some i) → ¬ (t₂ k.initproc).Waits := by
    rintro ⟨j, hj⟩ hw
    obtain ⟨hw', -⟩ := (hkin _).waits hw
    have hsome : (findSlot (fun p => p.parent = some i) k.proc).isSome :=
      findSlot_isSome (h.child_lt hj) (by simp [hj])
    rw [ht₂] at hw
    unfold reparent at hw
    rw [if_pos hsome] at hw
    have hlt : k.initproc < NPROC := h.lt _ (by simp [h.root.1])
    exact wakeup_not_waits hlt (by simpa using hroot) (hchan _ hw') hw
  have hparent : (t₂ i).parent = (k.proc i).parent := by
    rw [(hkin i).parent, handOver_of_ne h.not_own_parent]
  rw [← ht₂, hparent]
  cases hq : (k.proc i).parent with
  | none => exact ⟨t₂, rfl, hkin, hinit, by simp⟩
  | some q =>
      refine ⟨_, rfl, fun j => (hkin j).trans (wakeup_kin ..), ?_, ?_⟩
      · intro hj hw
        exact hinit hj ((wakeup_kin ..).waits hw).1
      · intro q' hq' hw
        cases hq'
        have hlt : q < NPROC := h.lt q (by simp [(h.parent i q hq).1])
        have hne : some i ≠ some q := by
          intro hiq
          exact h.not_own_parent (hq.trans hiq.symm)
        obtain ⟨hw₂, -⟩ := (wakeup_kin ..).waits hw
        obtain ⟨hw₁, hc⟩ := (hkin q).waits hw₂
        exact wakeup_not_waits hlt hne (hc.trans (hchan q hw₁)) hw

theorem Family.exit {status : Int} (h : Family k d) (hrun : (k.proc i).state = .running)
    (hex : exit k i status = some k') : Family k' d := by
  obtain ⟨hroot, hinit, t, hproc, hkin, hwoken, hparent⟩ := exit_cases h hex
  have hdead : (k'.proc i).stage = .zombie := by rw [hproc, Function.update_self]; rfl
  have hother : ∀ a, a ≠ i → k'.proc a = t a := by
    intro a ha
    rw [hproc, Function.update_of_ne ha]
  have hstage : ∀ a, a ≠ i → (k'.proc a).stage = (k.proc a).stage := by
    intro a ha
    rw [hother a ha, (hkin a).stage, handOver_rest]
    rfl
  have hpar : ∀ a, (k'.proc a).parent = (handOver i k.initproc k.proc a).parent := by
    rw [hproc]
    exact (Function.forall_update_iff t fun a p =>
      p.parent = (handOver i k.initproc k.proc a).parent).mpr
      ⟨(hkin i).parent, fun a _ => (hkin a).parent⟩
  have hpc : ∀ a, (k'.proc a).pc.Forks → (k'.proc a).pc = (k.proc a).pc := by
    rw [hproc]
    have hpc : ∀ a, (t a).pc.Forks → (t a).pc = (k.proc a).pc := by
      intro a ha
      rw [(hkin a).forks ha, handOver_rest]
    exact (Function.forall_update_iff t fun a p => p.pc.Forks → p.pc = (k.proc a).pc).mpr
      ⟨hpc i, fun a _ => hpc a⟩
  -- the parent of a slot is what it was, or init has taken the place of the dead parent
  have hcases : ∀ a q, (k'.proc a).parent = some q →
      (k.proc a).parent = some q ∧ q ≠ i ∨ (k.proc a).parent = some i ∧ q = k.initproc := by
    intro a q hq
    rw [hpar] at hq
    by_cases ha : (k.proc a).parent = some i
    · rw [handOver_of_lt (h.child_lt ha) ha] at hq
      cases hq
      exact .inr ⟨ha, rfl⟩
    · rw [handOver_of_ne ha] at hq
      refine .inl ⟨hq, ?_⟩
      rintro rfl
      exact ha hq
  have hnone : ∀ a, (k'.proc a).parent = none ↔ (k.proc a).parent = none := by
    intro a
    rw [hpar]
    by_cases ha : (k.proc a).parent = some i
    · rw [handOver_of_lt (h.child_lt ha) ha]
      simp [ha]
    · rw [handOver_of_ne ha]
  constructor
  case lt =>
    intro a ha
    obtain rfl | hai := eq_or_ne a i
    · exact h.lt a (by simp [Proc.stage_of_running hrun])
    · exact h.lt a (by rwa [← hstage a hai])
  case root =>
    rw [hinit, hstage _ hroot.symm]
    exact h.root
  case unused =>
    intro a ha
    have hai : a ≠ i := by
      rintro rfl
      cases hdead.symm.trans ha
    exact (hnone a).mpr (h.unused a (by rw [← hstage a hai, ha]))
  case parent =>
    intro a q hq
    rcases hcases a q hq with ⟨hq, hqi⟩ | ⟨ha, rfl⟩
    · rw [hstage q hqi]
      exact h.parent a q hq
    · rw [hstage _ hroot.symm, h.root.2]
      exact ⟨h.root.1, (Nat.zero_le _).trans_lt (h.parent a i ha).2⟩
  case started =>
    intro a ha hp
    rw [hinit]
    apply h.started a _ ((hnone a).mp hp)
    obtain rfl | hai := eq_or_ne a i
    · exact .inl (Proc.stage_of_running hrun)
    · rwa [hstage a hai] at ha
  case pending =>
    intro a np pid ha
    exact (hnone np).mpr (h.pending a np pid ((hpc a (by rw [ha]; trivial)).symm.trans ha))
  case adopted =>
    intro a np pid ha hp
    exact h.adopted a np pid ((hpc a (by rw [ha]; trivial)).symm.trans ha) ((hnone np).mp hp)
  case waits =>
    intro a ha
    have hai : a ≠ i := by
      rintro rfl
      have hsleep : (k'.proc a).stage = .active := by simp [Proc.stage, ha.1]
      cases hsleep.symm.trans hdead
    rw [hother a hai] at ha ⊢
    obtain ⟨hw, hc⟩ := (hkin a).waits ha
    rw [handOver_rest] at hw hc
    obtain ⟨hchan, ⟨j, hj⟩, hz⟩ := h.waits a hw
    refine ⟨hc.trans hchan, ⟨j, ?_⟩, ?_⟩
    · rw [hpar, handOver_of_ne (by rw [hj]; simpa using hai), hj]
    · intro b hb
      rcases hcases b a hb with ⟨hold, -⟩ | ⟨hold, rfl⟩
      · -- a dead child has woken its parent
        have hbi : b ≠ i := by
          rintro rfl
          exact hparent a hold ha
        rw [hstage b hbi]
        exact hz b hold
      · exact absurd ha (hwoken ⟨b, hold⟩)

/-! ## Every step -/

variable {e : Env}

theorem Kernel.Ok.not_forks (hk : k.Ok) (hi : (k.proc i).Idle) : ¬ (k.proc i).pc.Forks := by
  intro hf
  have howed := hk.idle i hi
  unfold Pc.Forks at hf
  split at hf
  · simp_all
  · simp_all
  · exact hf

theorem Family.forkScan {a : Alloc} (hk : k.Ok) (h : Family k d)
    (hrun : (k.proc i).state = .running) : Family (forkScan k i j a) d := by
  unfold Syscall.forkScan
  split
  · rename_i hj
    split
    · rename_i hunused
      have hstage : (k.proc j).stage = .unused := by simp [Proc.stage, hunused]
      have hidle := hk.not_forks (i := j) (.inl hunused)
      have hnone := h.unused j hstage
      have hij : i ≠ j := by
        rintro rfl
        rw [hrun] at hunused
        cases hunused
      have hpid : Family { k with nextpid := wrap32 (k.nextpid + 1) } d := h.congr rfl rfl
      have hset : ∀ {q : Proc}, ((Kernel.set { k with nextpid := wrap32 (k.nextpid + 1) } j q).proc i)
          = k.proc i := Kernel.set_of_ne _ _ hij
      -- a slot that is given back is as unused as before
      have hfail : ∀ np : Proc, ¬ np.pc.Forks → (k.proc j).Kin (Syscall.freeproc np) := fun np hnp =>
        ⟨hstage.symm, hnone.symm, fun hw => absurd hw (Proc.not_waits (by simp [Syscall.freeproc])),
          fun hf => absurd hf hnp⟩
      cases a with
      | ok =>
          have hnew : Family (Kernel.set { k with nextpid := wrap32 (k.nextpid + 1) } j
              { k.proc j with pid := k.nextpid, state := .used, pc := .user }) d :=
            hpid.restage hj rfl (.inl rfl) (by simp [hstage]) (by simp [Proc.stage]) id
              fun hw => absurd hw (Proc.not_waits (by simp))
          apply hnew.claim (by rw [hset, hrun])
          rw [Kernel.set_self]
          exact hnone
      | trapframe => exact (hpid.set (hfail _ hidle)).goto (by rw [hset, hrun]) id
      | pagetable => exact (hpid.set (hfail _ hidle)).goto (by rw [hset, hrun]) id
      | uvmcopy => exact (hpid.set (hfail _ id)).goto (by rw [hset, hrun]) id
    · exact h.goto hrun id
  · exact h.goto hrun id

theorem zombieChild_parent (h : zombieChild k i = some j) : (k.proc j).parent = some i := by
  unfold zombieChild findSlot at h
  have htest := List.find?_some h
  simp only [Bool.and_eq_true, decide_eq_true_eq] at htest
  exact htest.1

theorem zombieChild_none (h : Family k d) (hnone : zombieChild k i = none)
    (hj : (k.proc j).parent = some i) : (k.proc j).stage ≠ .zombie := by
  intro hz
  have hstate : (k.proc j).state = .zombie := by
    unfold Proc.stage at hz
    split at hz <;> simp_all
  have hsome : (zombieChild k i).isSome := findSlot_isSome (h.child_lt hj) (by simp [hj, hstate])
  simp [hnone] at hsome

theorem Family.wait {addr : Nat} {ok : Bool} (hk : k.Ok) (h : Family k d) (hi : i < NPROC)
    (hrun : (k.proc i).state = .running) (hpc : (k.proc i).pc = .wait addr) :
    Family (wait k i addr ok) d := by
  unfold Syscall.wait
  split
  · rename_i j hj
    split
    · obtain ⟨-, hzombie⟩ := zombieChild_spec hj
      have hdead : (k.proc j).stage = .zombie := by simp [Proc.stage, hzombie]
      have hfork : ∀ a pid, (k.proc a).pc ≠ .forkRunnable j pid := by
        intro a pid ha
        have hused : (k.proc j).state = .used := hk.child a j (by rw [ha]; rfl)
        simp [hzombie] at hused
      have hij : i ≠ j := by
        rintro rfl
        simp [hrun] at hzombie
      have hreap := h.reap (zombieChild_parent hj) (Proc.not_waits (by simp [hrun])) hdead
        (hk.not_forks (.inr (.inr hzombie))) hfork
      apply hreap.goto _ id
      rw [k.set_of_ne _ hij, hrun]
    · exact h.goto hrun id
  · rename_i hnone
    split
    · exact h.goto hrun id
    · rename_i hkids
      simp only [Bool.or_eq_true, not_or, Option.isNone_iff_eq_none, Bool.not_eq_true] at hkids
      obtain ⟨j, hj⟩ := Option.ne_none_iff_exists'.mp hkids.1
      have hchild : (k.proc j).parent = some i := by simpa using List.find?_some hj
      have hactive : (k.proc i).stage = .active := Proc.stage_of_running hrun
      refine h.restage hi rfl (.inr rfl) (fun _ => rfl) (fun _ hp => h.started i (.inl hactive) hp)
        (by simp [hpc, Pc.Forks]) fun _ => ⟨rfl, ⟨j, hchild⟩, fun a ha => ?_⟩
      exact zombieChild_none h hnone ha

theorem Family.kill {pid : Int} (h : Family k d) (hrun : (k.proc i).state = .running) :
    Family (kill k i pid j) d := by
  unfold Syscall.kill
  split
  · split
    · have hkin : (k.proc j).Kin (if (k.proc j).state = .sleeping then
          { k.proc j with killed := true, state := .runnable }
          else { k.proc j with killed := true }) := by
        split
        · rename_i hsleep
          exact ⟨by simp [Proc.stage, hsleep], rfl,
            fun hw => absurd hw (Proc.not_waits (by simp)), fun _ => rfl⟩
        · exact ⟨rfl, rfl, fun hw => ⟨hw, rfl⟩, fun _ => rfl⟩
      refine (h.set hkin).goto ?_ id
      revert hrun
      exact (Function.forall_update_iff k.proc fun a p =>
        (k.proc a).state = .running → p.state = .running).mpr
        ⟨fun hrun => by simp [hrun], fun _ _ => id⟩ i
    · exact h.goto hrun id
  · exact h.goto hrun id

theorem Family.dispatch {num : Int} {a0 : Nat} (h : Family k d)
    (hrun : (k.proc i).state = .running) : Family (dispatch k i num a0) d := by
  have hprint : Family (k.print (.unknown (k.proc i).pid num)) d := h.congr rfl rfl
  unfold Syscall.dispatch
  split
  · exact hprint.goto hrun id
  case h_7 =>
    exact h.set ⟨by unfold Proc.stage; rfl, rfl, fun hw => absurd hw (Proc.not_waits (by simp [hrun])),
      fun hf => absurd hf id⟩
  all_goals exact h.goto hrun id

theorem Family.sysret {num v : Int} (h : Family k d) (hrun : (k.proc i).state = .running) :
    Family (sysret k i num v) d := by
  unfold Syscall.sysret
  dsimp only
  split
  · have hprint : Family (k.print (.trace (k.proc i).pid (syscalltitles num) (wrap32 v))) d :=
      h.congr rfl rfl
    exact hprint.goto hrun id
  · exact h.goto hrun id

/-- The last section of `fork` starts the child. -/
theorem Family.ready {np : Nat} {pid : Int} (hk : k.Ok) (h : Family k d)
    (hrun : (k.proc i).state = .running) (hpc : (k.proc i).pc = .forkRunnable np pid) :
    Family ((k.set np { k.proc np with state := .runnable }).goto i (.forked pid)) d := by
  have hused : (k.proc np).state = .used := hk.child i np (by rw [hpc]; rfl)
  have hne : i ≠ np := by
    rintro rfl
    simp [hrun] at hused
  have hlt : np < NPROC := h.lt np (by simp [Proc.stage, hused])
  have hparent := h.adopted i np pid hpc
  have hset : Family (k.set np { k.proc np with state := .runnable }) d :=
    h.restage hlt rfl (.inr rfl) (fun _ => rfl) (fun _ hp => absurd hp hparent)
      (hk.not_forks (.inr (.inl hused))) fun hw => absurd hw (Proc.not_waits (by simp))
  apply hset.goto _ id
  rw [k.set_of_ne _ hne, hrun]

theorem run_family (hk : k.Ok) (h : Family k d) (hi : i < NPROC)
    (hrun : (k.proc i).state = .running) (hs : k.run i e = some k') : ∃ d', Family k' d' := by
  unfold Kernel.run at hs
  split at hs
  case h_1 =>
    cases hs
    refine ⟨d, h.goto hrun ?_⟩
    split <;> exact id
  case h_3 =>
    cases hs
    exact ⟨d, h.set ⟨rfl, rfl, fun hw => absurd hw (Proc.not_waits (by simp [hrun])),
      fun hf => absurd hf id⟩⟩
  case h_4 =>
    cases hs
    exact ⟨d, h.dispatch hrun⟩
  case h_5 =>
    cases hs
    exact ⟨d, h.forkScan hk hrun⟩
  case h_6 np pid hpc =>
    cases hs
    have howed : (k.proc i).pc.owed = .child np := by rw [hpc]; rfl
    have hused : (k.proc np).stage = .used := by simp [Proc.stage, hk.child i np howed]
    refine ⟨_, h.adopt hrun hpc hused ?_ ?_⟩
    · intro a pid' ha
      exact hk.inj a i np (by rw [ha]; rfl) howed
    · intro a pid' ha
      cases hk.inj a i np (by rw [ha]; rfl) howed
      cases hpc.symm.trans ha
  case h_7 hpc =>
    cases hs
    exact ⟨d, h.ready hk hrun hpc⟩
  case h_8 =>
    cases hs
    exact ⟨d, h.sysret hrun⟩
  case h_9 => exact ⟨d, h.exit hrun hs⟩
  case h_10 hpc =>
    cases hs
    exact ⟨d, h.set (.sleep hrun (by simp [hpc]))⟩
  case h_11 hpc =>
    cases hs
    exact ⟨d, h.wait hk hi hrun hpc⟩
  case h_12 =>
    cases hs
    exact ⟨d, h.sysret hrun⟩
  case h_13 =>
    cases hs
    exact ⟨d, h.kill hrun⟩
  case h_14 =>
    cases hs
    unfold aliveScan
    split
    · exact ⟨d, h.goto hrun id⟩
    · exact ⟨d, (h.congr rfl rfl : Family (k.print _) d).goto hrun id⟩
  case h_15 hpc =>
    cases hs
    exact ⟨d, h.set (.sleep hrun (by simp [hpc]))⟩
  case h_17 =>
    cases hs
    exact ⟨d, h.sysret hrun⟩
  case h_18 =>
    cases hs
    refine ⟨d, h.goto hrun ?_⟩
    split <;> exact id
  case h_19 => cases hs
  all_goals
    cases hs
    exact ⟨d, h.goto hrun id⟩

theorem step_family {l : Label} (hk : k.Ok) (h : Family k d) (hs : kernel.step k l k') :
    ∃ d', Family k' d' := by
  cases l with
  | dispatch i =>
      simp only [kernel, Kernel.step, Option.ite_none_right_eq_some, Option.some.injEq] at hs
      obtain ⟨⟨-, hrunnable⟩, rfl⟩ := hs
      refine ⟨d, h.set ⟨by simp [Proc.stage, hrunnable], rfl, fun hw => ?_, fun _ => rfl⟩⟩
      exact absurd hw (Proc.not_waits (by simp))
  | yield i =>
      simp only [kernel, Kernel.step, Option.ite_none_right_eq_some, Option.some.injEq] at hs
      obtain ⟨⟨-, hrun⟩, rfl⟩ := hs
      refine ⟨d, h.set ⟨by simp [Proc.stage, hrun], rfl, fun hw => ?_, fun _ => rfl⟩⟩
      exact absurd hw (Proc.not_waits (by simp))
  | wakeup me c j =>
      simp only [kernel, Kernel.step, Option.ite_none_right_eq_some, Option.some.injEq] at hs
      obtain ⟨-, rfl⟩ := hs
      exact ⟨d, h.set (wakeup_kin_slot c _)⟩
  | run i e =>
      simp only [kernel, Kernel.step, Option.ite_none_right_eq_some] at hs
      exact run_family hk h hs.1.1 hs.1.2 hs.2

theorem init_family (h : kernel.init k) : Family k fun _ => 0 := by
  cases h
  have hparent : ∀ i, (boot.proc i).parent = none := by
    intro i
    unfold boot
    dsimp only
    split <;> rfl
  have hpc : ∀ i, (boot.proc i).pc = .user := by
    intro i
    unfold boot
    dsimp only
    split <;> rfl
  have hother : ∀ i, i ≠ 0 → (boot.proc i).stage = .unused := by
    intro i hi
    unfold boot
    dsimp only
    rw [if_neg hi]
    rfl
  constructor
  case lt =>
    intro j hj
    by_contra hlt
    exact hj (hother j (by rintro rfl; exact hlt (by decide)))
  case root => exact ⟨rfl, rfl⟩
  case unused => exact fun j _ => hparent j
  case parent => exact fun j q hq => by simp [hparent] at hq
  case started =>
    intro j hj _
    by_contra hne
    simp [hother j hne] at hj
  case pending => exact fun i np pid hi => by simp [hpc] at hi
  case adopted => exact fun i np pid hi => by simp [hpc] at hi
  case waits =>
    rintro i ⟨-, addr, haddr⟩
    simp [hpc] at haddr

theorem family_of_reachable (h : kernel.Reachable k) : ∃ d, Family k d := by
  apply h.invariant (I := fun k => ∃ d, Family k d)
  · intro k hk
    exact ⟨_, init_family hk⟩
  · rintro k l k' hr ⟨d, hd⟩ hs
    exact step_family (kernel_ok hr) hd hs

/-! ## Results -/

/-- `p->parent` of the process in slot `p` is `q`. -/
def Kernel.Parent (k : Kernel) (q p : Nat) : Prop := (k.proc p).parent = some q

/-- `q` is the parent of `p` and can still wait for it. -/
def Kernel.ParentOf (k : Kernel) (q p : Nat) : Prop :=
  k.Parent q p ∧ (k.proc q).stage = .active

/-- A process that has started descends from `init` through processes that are alive. -/
theorem Family.descends (h : Family k d)
    (hj : (k.proc j).stage = .active ∨ (k.proc j).stage = .zombie) :
    Relation.ReflTransGen k.ParentOf k.initproc j := by
  -- by induction on the generation
  induction hn : d j using Nat.strong_induction_on generalizing j with
  | h n ih =>
      cases hp : (k.proc j).parent with
      | none =>
          cases h.started j hj hp
          exact .refl
      | some q =>
          obtain ⟨hq, hdepth⟩ := h.parent j q hp
          exact .tail (ih (d q) (hn ▸ hdepth) (.inl hq) rfl) ⟨hp, hq⟩

/-- An ancestor is of an earlier generation. -/
theorem Family.depth_lt (h : Family k d) {q p : Nat} (hqp : Relation.TransGen k.Parent q p) :
    d q < d p := by
  induction hqp with
  | single hp => exact (h.parent _ _ hp).2
  | tail _ hp ih => exact ih.trans (h.parent _ _ hp).2

/-- Whatever the harts interleave, every process that has started, alive or zombie, descends from
    `init` through processes that are alive: `exit` leaves no orphan behind, and no parent dies
    before it has handed its children over. The parent pointers of all slots, in use or not, form
    no cycle, and `init` has no parent. -/
theorem processes_descend_from_init (hr : kernel.Reachable k) :
    (∀ j, (k.proc j).stage = .active ∨ (k.proc j).stage = .zombie →
      Relation.ReflTransGen k.ParentOf k.initproc j) ∧
    (k.proc k.initproc).parent = none ∧ ∀ j, ¬ Relation.TransGen k.Parent j j := by
  obtain ⟨d, h⟩ := family_of_reachable hr
  refine ⟨fun j hj => h.descends hj, ?_, ?_⟩
  · cases hp : (k.proc k.initproc).parent with
    | none => rfl
    | some q =>
        have hdepth := (h.parent _ q hp).2
        rw [h.root.2] at hdepth
        exact absurd hdepth (Nat.not_lt_zero _)
  · intro j hj
    exact Nat.lt_irrefl _ (h.depth_lt hj)

/-- The first process forks, its child forks and exits. -/
def forkTwiceExit : List Label :=
  [.dispatch 0, .run 0 (.ecall 1 0), .run 0 .none, .run 0 (.alloc .ok), .run 0 (.alloc .ok),
    .run 0 .none, .run 0 .none, .dispatch 1, .run 1 (.ecall 1 0), .run 1 .none,
    .run 1 (.alloc .ok), .run 1 (.alloc .ok), .run 1 (.alloc .ok), .run 1 .none, .run 1 .none,
    .run 1 .none, .run 1 .none, .run 1 (.ecall 2 7), .run 1 .none, .run 1 .none]

/-- The grandchild is now a child of `init`, and its old parent a zombie. -/
theorem processes_descend_from_init_grandchild :
    ∃ k, kernel.Reachable k ∧ (k.proc 1).stage = .zombie ∧ (k.proc 2).parent = some 0 ∧
      Relation.ReflTransGen k.ParentOf k.initproc 2 ∧ (k.proc k.initproc).parent = none ∧
      ¬ Relation.TransGen k.Parent 2 2 := by
  obtain ⟨tr, k, hrun, -, hp⟩ := exists_run_of_play (M := kernel) (fun _ _ _ h => h)
    forkTwiceExit boot
    (fun _ k => decide ((k.proc 1).stage = .zombie ∧ (k.proc 2).parent = some 0 ∧
      (k.proc 2).stage = .active))
    (by decide +kernel)
  obtain ⟨hzombie, hparent, hactive⟩ := of_decide_eq_true hp
  have hr : kernel.Reachable k := ⟨_, _, rfl, hrun⟩
  obtain ⟨hdescends, hinit, hacyclic⟩ := processes_descend_from_init hr
  exact ⟨k, hr, hzombie, hparent, hdescends 2 (.inl hactive), hinit, hacyclic 2⟩

/-- A process that sleeps in `wait` has children, and none of them is a zombie: the `wakeup` of an
    exiting child is never lost, also not if the child came from a parent that has exited. -/
theorem wait_sleeper_has_no_zombie (hr : kernel.Reachable k) (hw : (k.proc i).Waits) :
    (∃ j < NPROC, (k.proc j).parent = some i) ∧
      ∀ j, (k.proc j).parent = some i → (k.proc j).state ≠ .zombie := by
  obtain ⟨d, h⟩ := family_of_reachable hr
  obtain ⟨-, ⟨j, hj⟩, hz⟩ := h.waits i hw
  refine ⟨⟨j, h.child_lt hj, hj⟩, fun a ha hdead => ?_⟩
  exact hz a ha (by simp [Proc.stage, hdead])

/-- The first process forks and waits. -/
def forkWait : List Label :=
  [.dispatch 0, .run 0 (.ecall 1 0), .run 0 .none, .run 0 (.alloc .ok), .run 0 (.alloc .ok),
    .run 0 .none, .run 0 .none, .run 0 .none, .run 0 .none, .run 0 (.ecall 3 0), .run 0 .none,
    .run 0 (.copyout true)]

theorem wait_sleeper_has_no_zombie_fork :
    ∃ k, kernel.Reachable k ∧ (k.proc 0).Waits ∧ (∃ j < NPROC, (k.proc j).parent = some 0) ∧
      ∀ j, (k.proc j).parent = some 0 → (k.proc j).state ≠ .zombie := by
  obtain ⟨tr, k, hrun, -, hp⟩ := exists_run_of_play (M := kernel) (fun _ _ _ h => h)
    forkWait boot
    (fun _ k => decide ((k.proc 0).state = .sleeping ∧ (k.proc 0).pc = .wait 0))
    (by decide +kernel)
  obtain ⟨hsleep, hpc⟩ := of_decide_eq_true hp
  have hr : kernel.Reachable k := ⟨_, _, rfl, hrun⟩
  have hw : (k.proc 0).Waits := ⟨hsleep, 0, hpc⟩
  exact ⟨k, hr, hw, wait_sleeper_has_no_zombie hr hw⟩

end Syscall
