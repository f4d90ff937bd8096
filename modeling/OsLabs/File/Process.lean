-- SUMMARY: What every process has in its descriptors at each place of the code, and that it stays so when one process takes a step.
import OsLabs.File.Model

/-!
# Processes and their descriptors

A process changes its own descriptors, and those of a child during `fork`. Until `fork` lets the
child run, nobody else touches the slot.
-/

namespace Files

/-- What a process has in its descriptors at each place of the code. -/
def Pc.Fits (o : Ofile) : Pc → Prop
  | .dup fd f           => o fd = some f ∧ ∃ a, a ≠ fd ∧ o a = some f
  | .io fd f            => o fd = some f
  | .exit i             => ∀ a : Fin NOFILE, a.val < i → o a = none
  | .exitPipe _ _ fd    => ∀ a, a < fd → o a = none
  | .close todo         => todo.length ≤ 2
  | .pipeclose _ _ todo => todo.length ≤ 2
  | _                   => True

def Pc.child : Pc → Option Pid
  | .fork np _ => some np
  | _          => none

/-- The slot of a child during `fork`. -/
def Proc.Child (x : Proc) (i : Nat) : Prop :=
  x.life = .used ∧ ∀ fd : Fin NOFILE, i ≤ fd.val → x.ofile fd = none

structure Tidy (proc : Pid → Proc) : Prop where
  fits : ∀ p, (proc p).pc.Fits (proc p).ofile
  idle : ∀ p, (proc p).life ≠ .active → (proc p).pc = .user
  empty : ∀ p, (proc p).life = .unused ∨ (proc p).life = .zombie → ∀ fd, (proc p).ofile fd = none
  fork : ∀ p np i, (proc p).pc = .fork np i → (proc np).Child i
  sole : ∀ p q np i j, (proc p).pc = .fork np i → (proc q).pc = .fork np j → p = q

variable {proc : Pid → Proc} {p np : Pid} {x' : Proc} {i : Nat}

/-- Only the slot of a child belongs to somebody else. -/
theorem Tidy.not_forked (h : Tidy proc) (hp : (proc p).life ≠ .used) (q : Pid) (i : Nat) :
    (proc q).pc ≠ .fork p i := by
  intro hq
  exact hp (h.fork q p i hq).1

/-- The process in `fork` is active, and its child is another one. -/
theorem Tidy.forker (h : Tidy proc) (hp : (proc p).pc = .fork np i) :
    (proc p).life = .active ∧ (proc np).pc = .user ∧ p ≠ np := by
  have huser := h.idle np (by simp [(h.fork p np i hp).1])
  refine ⟨?_, huser, ?_⟩
  · by_contra hlife
    simp [h.idle p hlife] at hp
  · rintro rfl
    simp [huser] at hp

/-- One process changes. If it is a child, it stays good enough for its parent, and if it
    copies its descriptors, nobody else does so to the same slot. -/
theorem Tidy.set (h : Tidy proc) (hfits : x'.pc.Fits x'.ofile)
    (hidle : x'.life ≠ .active → x'.pc = .user)
    (hempty : x'.life = .unused ∨ x'.life = .zombie → ∀ fd, x'.ofile fd = none)
    (hchild : ∀ q i, q ≠ p → (proc q).pc = .fork p i → x'.Child i)
    (hfork : ∀ np i, x'.pc = .fork np i → np ≠ p ∧ (proc np).Child i ∧
      ∀ q j, (proc q).pc = .fork np j → q = p) : Tidy (Function.update proc p x') := by
  constructor
  case fits =>
    intro q
    obtain rfl | hq := eq_or_ne q p
    · rw [Function.update_self]
      exact hfits
    · rw [Function.update_of_ne hq]
      exact h.fits q
  case idle =>
    intro q hlife
    obtain rfl | hq := eq_or_ne q p
    · rw [Function.update_self] at hlife ⊢
      exact hidle hlife
    · rw [Function.update_of_ne hq] at hlife ⊢
      exact h.idle q hlife
  case empty =>
    intro q hlife
    obtain rfl | hq := eq_or_ne q p
    · rw [Function.update_self] at hlife ⊢
      exact hempty hlife
    · rw [Function.update_of_ne hq] at hlife ⊢
      exact h.empty q hlife
  case fork =>
    intro q np i hq
    obtain rfl | hqp := eq_or_ne q p
    · rw [Function.update_self] at hq
      obtain ⟨hnp, hready, -⟩ := hfork np i hq
      rw [Function.update_of_ne hnp]
      exact hready
    · rw [Function.update_of_ne hqp] at hq
      obtain rfl | hnp := eq_or_ne np p
      · rw [Function.update_self]
        exact hchild q i hqp hq
      · rw [Function.update_of_ne hnp]
        exact h.fork q np i hq
  case sole =>
    intro q r np i j hq hr
    obtain rfl | hqp := eq_or_ne q p
    · rw [Function.update_self] at hq
      obtain rfl | hrq := eq_or_ne r q
      · rfl
      · rw [Function.update_of_ne hrq] at hr
        exact ((hfork np i hq).2.2 r j hr).symm
    · rw [Function.update_of_ne hqp] at hq
      obtain rfl | hrp := eq_or_ne r p
      · rw [Function.update_self] at hr
        exact (hfork np j hr).2.2 q i hq
      · rw [Function.update_of_ne hrp] at hr
        exact h.sole q r np i j hq hr

/-- A process that is active goes on. -/
theorem Tidy.run {o : Ofile} {pc : Pc} (h : Tidy proc) (hp : (proc p).life = .active)
    (hfits : pc.Fits o) (hchild : pc.child = none) :
    Tidy (Function.update proc p { proc p with ofile := o, pc := pc }) := by
  apply h.set
  · exact hfits
  · intro hidle
    exact absurd hp hidle
  · intro hempty
    simp [hp] at hempty
  · intro q i _ hq
    exact absurd hq (h.not_forked (by simp [hp]) q i)
  · intro np i hnp
    have hpc : pc = .fork np i := hnp
    rw [hpc] at hchild
    cases hchild

/-- `allocproc` takes an unused slot. -/
theorem Tidy.forkStart (h : Tidy proc) (hp : (proc p).life = .active)
    (hnp : (proc np).life = .unused) :
    Tidy (Function.update (Function.update proc np { proc np with life := .used }) p
      { proc p with pc := .fork np 0 }) := by
  have hne : p ≠ np := by
    rintro rfl
    simp [hp] at hnp
  have hnone : ∀ q i, (proc q).pc ≠ .fork np i := h.not_forked (by simp [hnp])
  have hused : Tidy (Function.update proc np { proc np with life := .used }) := by
    apply h.set
    · exact h.fits np
    · intro _
      exact h.idle np (by simp [hnp])
    · intro hempty
      simp at hempty
    · intro q i _ hq
      exact absurd hq (hnone q i)
    · intro a i ha
      simp [h.idle np (by simp [hnp])] at ha
  apply hused.set
  · trivial
  · intro hidle
    exact absurd hp hidle
  · intro hempty
    simp [hp] at hempty
  · intro q i hqp hq
    refine absurd hq (hused.not_forked ?_ q i)
    simp [Function.update_of_ne hne, hp]
  · intro a i ha
    cases ha
    refine ⟨hne.symm, ?_, ?_⟩
    · rw [Function.update_self]
      exact ⟨rfl, fun fd _ => h.empty np (.inl hnp) fd⟩
    · intro q j hq
      obtain rfl | hqn := eq_or_ne q np
      · simp [h.idle q (by simp [hnp])] at hq
      · rw [Function.update_of_ne hqn] at hq
        exact absurd hq (hnone q j)

/-- The loop of `fork` goes on, after it may have filled the descriptor at which it was. -/
theorem Tidy.forkNext {i : Fin NOFILE} {o : Ofile} (h : Tidy proc)
    (hp : (proc p).pc = .fork np i) (ho : ∀ fd, fd ≠ i → o fd = (proc np).ofile fd) :
    Tidy (Function.update (Function.update proc np { proc np with ofile := o }) p
      { proc p with pc := .fork np (i + 1) }) := by
  obtain ⟨hused, hfree⟩ := h.fork p np i hp
  obtain ⟨hact, huser, hne⟩ := h.forker hp
  rw [Function.update_comm hne.symm]
  have hnext : Tidy (Function.update proc p { proc p with pc := .fork np (i + 1) }) := by
    apply h.set
    · trivial
    · intro hidle
      exact absurd hact hidle
    · intro hempty
      simp [hact] at hempty
    · intro q j _ hq
      exact absurd hq (h.not_forked (by simp [hact]) q j)
    · intro a j ha
      cases ha
      refine ⟨hne.symm, ⟨hused, fun fd hfd => hfree fd (Nat.le_of_succ_le hfd)⟩, ?_⟩
      intro q j hq
      exact h.sole q p np j i hq hp
  apply hnext.set
  · simp only [huser]
    trivial
  · intro _
    exact huser
  · intro hempty
    simp [hused] at hempty
  · intro q j _ hq
    refine ⟨hused, ?_⟩
    obtain rfl | hqp := eq_or_ne q p
    · rw [Function.update_self] at hq
      cases hq
      intro fd hfd
      exact (ho fd (Fin.ne_of_gt hfd)).trans (hfree fd (Nat.le_of_succ_le hfd))
    · rw [Function.update_of_ne hqp] at hq
      exact absurd (h.sole q p np j i hq hp) hqp
  · intro a j ha
    simp [huser] at ha

/-- `fork` lets the child run. -/
theorem Tidy.forkEnd (h : Tidy proc) (hp : (proc p).pc = .fork np i) :
    Tidy (Function.update (Function.update proc np { proc np with life := .active }) p
      { proc p with pc := .user }) := by
  obtain ⟨hused, hfree⟩ := h.fork p np i hp
  obtain ⟨hact, huser, hne⟩ := h.forker hp
  rw [Function.update_comm hne.symm]
  have hdone : Tidy (Function.update proc p { proc p with pc := .user }) :=
    h.run hact trivial rfl
  apply hdone.set
  · simp only [huser]
    trivial
  · intro _
    exact huser
  · intro hempty
    simp at hempty
  · intro q j _ hq
    obtain rfl | hqp := eq_or_ne q p
    · rw [Function.update_self] at hq
      cases hq
    · rw [Function.update_of_ne hqp] at hq
      exact absurd (h.sole q p np j i hq hp) hqp
  · intro a j ha
    simp [huser] at ha

/-- A process ends, with no descriptors left. -/
theorem Tidy.exited (h : Tidy proc) (life : Life) (hp : (proc p).life ≠ .used)
    (hempty : ∀ fd, (proc p).ofile fd = none) :
    Tidy (Function.update proc p { proc p with life := life, pc := .user }) := by
  apply h.set
  · trivial
  · exact fun _ => rfl
  · exact fun _ => hempty
  · intro q i _ hq
    exact absurd hq (h.not_forked hp q i)
  · intro np i hnp
    cases hnp

end Files
