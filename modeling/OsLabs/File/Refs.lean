-- SUMMARY: References to open files and ends of pipes: what is counted where, and what each kind of change does to the counts.
import Mathlib.Algebra.Order.BigOperators.Group.Finset
import Mathlib.Data.Fintype.BigOperators
import OsLabs.File.Model
import OsLabs.Lib.RefCount

/-!
# References

A reference to an open file is a descriptor or a variable of a system call in progress. Two
descriptors do not count. One is that which `sys_dup` has taken before it calls `filedup`. The other
is that of a file which `exit` has closed and not yet cleared. An open end of a pipe belongs to one
open file, or to the one process that is about to close it.
-/

namespace Files

open Lottery (NPROC)
open RefCount

/-! ## What is counted -/

def Pc.skips : Pc → Option (Fin NOFILE)
  | .dup fd _        => some fd
  | .exitPipe _ _ fd => some fd
  | _                => none

/-- Files that only the process refers to, and that are nothing yet. -/
def Pc.fresh : Pc → List (Fin NFILE)
  | .pipe1 rf    => [rf]
  | .pipe2 rf wf => [rf, wf]
  | .opened f    => [f]
  | _            => []

/-- The references of the variables of a system call. -/
def Pc.locals : Pc → List (Fin NFILE)
  | .close todo         => todo
  | .pipeclose _ _ todo => todo
  | .pipe1 rf           => [rf]
  | .pipe2 rf wf        => [rf, wf]
  | .opened f           => [f]
  | _                   => []

theorem fresh_locals {pc : Pc} {f : Fin NFILE} (h : f ∈ pc.fresh) : f ∈ pc.locals := by
  cases pc <;> first | exact h | cases h

/-- The end of a pipe that the process is about to close. -/
def Pc.closing : Pc → Option (Nat × Bool)
  | .pipeclose pi writable _ => some (pi, writable)
  | .exitPipe pi writable _  => some (pi, writable)
  | _                        => none

def Proc.desc (x : Proc) (fd : Fin NOFILE) : Option (Fin NFILE) :=
  if x.pc.skips = some fd then none else x.ofile fd

def Proc.refs (x : Proc) (f : Fin NFILE) : Nat :=
  RefCount.refs Finset.univ x.desc f + x.pc.locals.count f

def Machine.refs (m : Machine) (f : Fin NFILE) : Nat := ∑ p, (m.proc p).refs f

def File.end (x : File) : Option (Nat × Bool) :=
  if x.type = .pipe then some (x.pipe, x.writable) else none

/-- Who is responsible for an end of a pipe. -/
def Machine.owners (m : Machine) (e : Nat × Bool) : Nat :=
  RefCount.refs Finset.univ (fun f => (m.ftable f).end) e +
    RefCount.refs Finset.univ (fun p => (m.proc p).pc.closing) e

def Ends.isOpen (e : Ends) (writable : Bool) : Bool := if writable then e.writeopen else e.readopen

def Machine.isOpen (m : Machine) (e : Nat × Bool) : Bool :=
  match m.pipes e.1 with
  | none   => false
  | some x => x.isOpen e.2

/-- The counts are exact, and files and pipes are what the references to them need. -/
structure Sound (m : Machine) : Prop where
  ref : ∀ f, (m.ftable f).ref = m.refs f
  idle : ∀ f, m.refs f = 0 → (m.ftable f).type = .none
  fresh : ∀ p f, f ∈ (m.proc p).pc.fresh → (m.ftable f).type = .none ∧ m.refs f = 1
  typed : ∀ p fd f, (m.proc p).desc fd = some f → (m.ftable f).type ≠ .none
  owners : ∀ e, m.owners e = if m.isOpen e then 1 else 0
  /-- The page of a pipe goes with its last end. -/
  live : ∀ pi x, m.pipes pi = some x → x.readopen = true ∨ x.writeopen = true

/-! ## Changes of one process -/

variable {m m' : Machine} {p q : Pid} {x x' : Proc} {fd : Fin NOFILE} {f g : Fin NFILE}

theorem Proc.refs_change (hdesc : ∀ a, a ≠ fd → x'.desc a = x.desc a) (f : Fin NFILE) :
    x'.refs f + ((if x.desc fd = some f then 1 else 0) + x.pc.locals.count f) =
      x.refs f + ((if x'.desc fd = some f then 1 else 0) + x'.pc.locals.count f) := by
  have h := RefCount.refs_change (Finset.mem_univ fd) hdesc f
  unfold Proc.refs
  omega

theorem Proc.refs_of_desc (h : x.desc fd = some f) : 0 < x.refs f := by
  have hpos := refs_pos_of (Finset.mem_univ fd) h
  unfold Proc.refs
  omega

theorem Proc.refs_of_local (h : f ∈ x.pc.locals) : 0 < x.refs f := by
  have hpos := List.count_pos_iff.mpr h
  unfold Proc.refs
  omega

theorem refs_change (hproc : ∀ q, q ≠ p → m'.proc q = m.proc q) (f : Fin NFILE) :
    m'.refs f + (m.proc p).refs f = m.refs f + (m'.proc p).refs f := by
  unfold Machine.refs
  apply sum_change (Finset.mem_univ p)
  intro q hq
  rw [hproc q hq]

theorem refs_le (m : Machine) (p : Pid) (f : Fin NFILE) : (m.proc p).refs f ≤ m.refs f :=
  Finset.single_le_sum (f := fun q => (m.proc q).refs f) (fun _ _ => Nat.zero_le _)
    (Finset.mem_univ p)

theorem refs_add_le (m : Machine) (hpq : p ≠ q) (f : Fin NFILE) :
    (m.proc p).refs f + (m.proc q).refs f ≤ m.refs f := by
  unfold Machine.refs
  rw [← Finset.add_sum_erase _ _ (Finset.mem_univ p)]
  apply Nat.add_le_add_left
  exact Finset.single_le_sum (f := fun q => (m.proc q).refs f) (fun _ _ => Nat.zero_le _)
    (Finset.mem_erase.mpr ⟨hpq.symm, Finset.mem_univ q⟩)

theorem refs_of_desc (h : (m.proc p).desc fd = some f) : 0 < m.refs f :=
  (Proc.refs_of_desc h).trans_le (refs_le m p f)

theorem refs_of_fresh (h : f ∈ (m.proc p).pc.fresh) : 0 < m.refs f :=
  (Proc.refs_of_local (fresh_locals h)).trans_le (refs_le m p f)

/-! ## Changes of the table -/

/-- No process gets a descriptor for a file that no one had, or takes a file. -/
structure Keeps (m m' : Machine) : Prop where
  desc : ∀ q fd g, (m'.proc q).desc fd = some g → ∃ q fd, (m.proc q).desc fd = some g
  fresh : ∀ q g, g ∈ (m'.proc q).pc.fresh → g ∈ (m.proc q).pc.fresh

theorem ends_change (h : ∀ g, g ≠ f → m'.ftable g = m.ftable g) (e : Nat × Bool) :
    RefCount.refs Finset.univ (fun g => (m'.ftable g).end) e +
        (if (m.ftable f).end = some e then 1 else 0) =
      RefCount.refs Finset.univ (fun g => (m.ftable g).end) e +
        (if (m'.ftable f).end = some e then 1 else 0) := by
  have hends : ∀ g, g ≠ f → (m'.ftable g).end = (m.ftable g).end := by
    intro g hg
    rw [h g hg]
  exact RefCount.refs_change (Finset.mem_univ f) hends e

theorem closings_change (h : ∀ q, q ≠ p → (m'.proc q).pc.closing = (m.proc q).pc.closing)
    (e : Nat × Bool) :
    RefCount.refs Finset.univ (fun q => (m'.proc q).pc.closing) e +
        (if (m.proc p).pc.closing = some e then 1 else 0) =
      RefCount.refs Finset.univ (fun q => (m.proc q).pc.closing) e +
        (if (m'.proc p).pc.closing = some e then 1 else 0) :=
  RefCount.refs_change (Finset.mem_univ p) h e

theorem owners_congr (hend : ∀ f, (m'.ftable f).end = (m.ftable f).end)
    (hclosing : ∀ q, (m'.proc q).pc.closing = (m.proc q).pc.closing) (e : Nat × Bool) :
    m'.owners e = m.owners e := by
  unfold Machine.owners
  simp only [hend, hclosing]

theorem isOpen_congr (hpipes : m'.pipes = m.pipes) (e : Nat × Bool) : m'.isOpen e = m.isOpen e := by
  unfold Machine.isOpen
  rw [hpipes]

/-- A change of one count, with no change of what the files are. -/
theorem Sound.count (h : Sound m) (hk : Keeps m m') (hpipes : m'.pipes = m.pipes)
    (hclosing : ∀ q, (m'.proc q).pc.closing = (m.proc q).pc.closing)
    (hother : ∀ g, g ≠ f → m'.ftable g = m.ftable g ∧ m'.refs g = m.refs g)
    (hself : ∃ r, m'.ftable f = { m.ftable f with ref := r }) (href : (m'.ftable f).ref = m'.refs f)
    (hpos : 0 < m'.refs f)
    (hfresh : (∃ q, f ∈ (m.proc q).pc.fresh) → m'.refs f = m.refs f) : Sound m' := by
  obtain ⟨r, hr⟩ := hself
  have htype : ∀ g, (m'.ftable g).type = (m.ftable g).type := by
    intro g
    obtain rfl | hg := eq_or_ne g f
    · rw [hr]
    · rw [(hother g hg).1]
  have hend : ∀ g, (m'.ftable g).end = (m.ftable g).end := by
    intro g
    obtain rfl | hg := eq_or_ne g f
    · rw [hr]
      rfl
    · rw [(hother g hg).1]
  constructor
  case ref =>
    intro g
    obtain rfl | hg := eq_or_ne g f
    · exact href
    · rw [(hother g hg).1, (hother g hg).2]
      exact h.ref g
  case idle =>
    intro g hzero
    obtain rfl | hg := eq_or_ne g f
    · exact absurd hzero hpos.ne'
    · rw [(hother g hg).2] at hzero
      rw [htype]
      exact h.idle g hzero
  case fresh =>
    intro q g hg
    have hold := hk.fresh q g hg
    rw [htype]
    refine ⟨(h.fresh q g hold).1, ?_⟩
    obtain rfl | hgf := eq_or_ne g f
    · rw [hfresh ⟨q, hold⟩]
      exact (h.fresh q g hold).2
    · rw [(hother g hgf).2]
      exact (h.fresh q g hold).2
  case typed =>
    intro q fd g hg
    obtain ⟨q', fd', hold⟩ := hk.desc q fd g hg
    rw [htype]
    exact h.typed q' fd' g hold
  case owners =>
    intro e
    rw [owners_congr hend hclosing, isOpen_congr hpipes]
    exact h.owners e
  case live =>
    rw [hpipes]
    exact h.live

/-- No count changes. -/
theorem Sound.quiet (h : Sound m) (hk : Keeps m m') (ht : m'.ftable = m.ftable)
    (hpipes : m'.pipes = m.pipes)
    (hclosing : ∀ q, (m'.proc q).pc.closing = (m.proc q).pc.closing)
    (hrefs : ∀ g, m'.refs g = m.refs g) : Sound m' := by
  constructor
  case ref =>
    intro g
    rw [ht, hrefs]
    exact h.ref g
  case idle =>
    intro g hzero
    rw [hrefs] at hzero
    rw [ht]
    exact h.idle g hzero
  case fresh =>
    intro q g hg
    rw [ht, hrefs]
    exact h.fresh q g (hk.fresh q g hg)
  case typed =>
    intro q fd g hg
    obtain ⟨q', fd', hold⟩ := hk.desc q fd g hg
    rw [ht]
    exact h.typed q' fd' g hold
  case owners =>
    intro e
    rw [owners_congr (fun f => by rw [ht]) hclosing, isOpen_congr hpipes]
    exact h.owners e
  case live =>
    rw [hpipes]
    exact h.live

/-- The last reference to a file goes. Its end of a pipe, if it is one, goes to the process. -/
theorem Sound.last (h : Sound m) (hk : Keeps m m') (hpipes : m'.pipes = m.pipes)
    (hother : ∀ g, g ≠ f → m'.ftable g = m.ftable g ∧ m'.refs g = m.refs g)
    (hself : m'.ftable f = { m.ftable f with ref := 0, type := .none }) (hzero : m'.refs f = 0)
    (hclosing : ∀ q, q ≠ p → (m'.proc q).pc.closing = (m.proc q).pc.closing)
    (hold : (m.proc p).pc.closing = none) (hnew : (m'.proc p).pc.closing = (m.ftable f).end) :
    Sound m' := by
  constructor
  case ref =>
    intro g
    obtain rfl | hg := eq_or_ne g f
    · rw [hself, hzero]
      rfl
    · rw [(hother g hg).1, (hother g hg).2]
      exact h.ref g
  case idle =>
    intro g hg
    obtain rfl | hgf := eq_or_ne g f
    · rw [hself]
    · rw [(hother g hgf).2] at hg
      rw [(hother g hgf).1]
      exact h.idle g hg
  case fresh =>
    intro q g hg
    have hgf : g ≠ f := by
      rintro rfl
      exact (refs_of_fresh hg).ne' hzero
    rw [(hother g hgf).1, (hother g hgf).2]
    exact h.fresh q g (hk.fresh q g hg)
  case typed =>
    intro q fd g hg
    have hgf : g ≠ f := by
      rintro rfl
      exact (refs_of_desc hg).ne' hzero
    obtain ⟨q', fd', hold⟩ := hk.desc q fd g hg
    rw [(hother g hgf).1]
    exact h.typed q' fd' g hold
  case owners =>
    intro e
    rw [isOpen_congr hpipes, ← h.owners e]
    have hfile := ends_change (fun g hg => (hother g hg).1) e
    have hproc := closings_change hclosing e
    have hgone : (m'.ftable f).end = none := by rw [hself]; rfl
    simp only [hgone, hold, hnew, reduceCtorEq, if_false] at hfile hproc
    unfold Machine.owners
    omega
  case live =>
    rw [hpipes]
    exact h.live

/-- `filealloc` takes a file that nobody refers to. -/
theorem Sound.alloc (h : Sound m)
    (hdesc : ∀ q fd g, (m'.proc q).desc fd = some g → ∃ q fd, (m.proc q).desc fd = some g)
    (hfresh : ∀ q g, g ∈ (m'.proc q).pc.fresh → g ∈ (m.proc q).pc.fresh ∨ g = f)
    (hpipes : m'.pipes = m.pipes) (hclosing : ∀ q, (m'.proc q).pc.closing = (m.proc q).pc.closing)
    (hother : ∀ g, g ≠ f → m'.ftable g = m.ftable g ∧ m'.refs g = m.refs g)
    (hself : m'.ftable f = { m.ftable f with ref := 1 }) (hzero : m.refs f = 0)
    (hone : m'.refs f = 1) : Sound m' := by
  have htype : ∀ g, (m'.ftable g).type = (m.ftable g).type := by
    intro g
    obtain rfl | hg := eq_or_ne g f
    · rw [hself]
    · rw [(hother g hg).1]
  constructor
  case ref =>
    intro g
    obtain rfl | hg := eq_or_ne g f
    · rw [hself, hone]
      rfl
    · rw [(hother g hg).1, (hother g hg).2]
      exact h.ref g
  case idle =>
    intro g hg
    rw [htype]
    obtain rfl | hgf := eq_or_ne g f
    · exact h.idle g hzero
    · rw [(hother g hgf).2] at hg
      exact h.idle g hg
  case fresh =>
    intro q g hg
    rw [htype]
    obtain rfl | hgf := eq_or_ne g f
    · exact ⟨h.idle g hzero, hone⟩
    · rw [(hother g hgf).2]
      exact h.fresh q g ((hfresh q g hg).resolve_right hgf)
  case typed =>
    intro q fd g hg
    obtain ⟨q', fd', hold⟩ := hdesc q fd g hg
    rw [htype]
    exact h.typed q' fd' g hold
  case owners =>
    intro e
    rw [isOpen_congr hpipes, ← h.owners e]
    apply owners_congr _ hclosing
    intro g
    obtain rfl | hg := eq_or_ne g f
    · rw [hself]
      rfl
    · rw [(hother g hg).1]
  case live =>
    rw [hpipes]
    exact h.live

/-- A file that a process has just taken is its own. -/
theorem Sound.fresh_sole (h : Sound m) (hp : f ∈ (m.proc p).pc.fresh) (hq : f ∈ (m.proc q).pc.fresh) :
    q = p := by
  by_contra hne
  have hle := refs_add_le m hne f
  have hp' := Proc.refs_of_local (fresh_locals hp)
  have hq' := Proc.refs_of_local (fresh_locals hq)
  have hone := (h.fresh p f hp).2
  omega

/-- `sys_open` makes something of the file that it has taken. -/
theorem Sound.inode (h : Sound m) (hp : f ∈ (m.proc p).pc.fresh) (hnew : f ∉ (m'.proc p).pc.fresh)
    (hdesc : ∀ q fd g, (m'.proc q).desc fd = some g →
      (∃ q fd, (m.proc q).desc fd = some g) ∨ g = f)
    (hfresh : ∀ q g, g ∈ (m'.proc q).pc.fresh → g ∈ (m.proc q).pc.fresh)
    (hpipes : m'.pipes = m.pipes) (hclosing : ∀ q, (m'.proc q).pc.closing = (m.proc q).pc.closing)
    (hother : ∀ g, g ≠ f → m'.ftable g = m.ftable g) (hrefs : ∀ g, m'.refs g = m.refs g)
    (href : (m'.ftable f).ref = (m.ftable f).ref)
    (htype : (m'.ftable f).type = .inode ∨ (m'.ftable f).type = .device) : Sound m' := by
  have hnone := (h.fresh p f hp).1
  have hdiff : ∀ q g, g ∈ (m'.proc q).pc.fresh → g ≠ f := by
    rintro q g hg rfl
    obtain rfl := h.fresh_sole hp (hfresh q g hg)
    exact hnew hg
  constructor
  case ref =>
    intro g
    rw [hrefs, ← h.ref g]
    obtain rfl | hg := eq_or_ne g f
    · exact href
    · rw [hother g hg]
  case idle =>
    intro g hg
    rw [hrefs] at hg
    have hgf : g ≠ f := by
      rintro rfl
      exact (refs_of_fresh hp).ne' hg
    rw [hother g hgf]
    exact h.idle g hg
  case fresh =>
    intro q g hg
    rw [hother g (hdiff q g hg), hrefs]
    exact h.fresh q g (hfresh q g hg)
  case typed =>
    intro q fd g hg
    obtain rfl | hgf := eq_or_ne g f
    · obtain ht | ht := htype <;> simp [ht]
    · obtain ⟨q', fd', hold⟩ := (hdesc q fd g hg).resolve_right hgf
      rw [hother g hgf]
      exact h.typed q' fd' g hold
  case owners =>
    intro e
    rw [isOpen_congr hpipes, ← h.owners e]
    apply owners_congr _ hclosing
    intro g
    obtain rfl | hg := eq_or_ne g f
    · unfold File.end
      obtain ht | ht := htype <;> simp [ht, hnone]
    · rw [hother g hg]
  case live =>
    rw [hpipes]
    exact h.live

/-! ## Pipes -/

theorem isOpen_of_page {pi : Nat} (h : m'.pipes pi = m.pipes pi) (w : Bool) :
    m'.isOpen (pi, w) = m.isOpen (pi, w) := by
  unfold Machine.isOpen
  rw [h]

theorem owners_pipe {rf wf : Fin NFILE} {pi : Nat} (hne : rf ≠ wf)
    (hrf : (m.ftable rf).type = .none) (hwf : (m.ftable wf).type = .none)
    (ht : m'.ftable = pipeFiles m.ftable rf wf pi)
    (hclosing : ∀ q, (m'.proc q).pc.closing = (m.proc q).pc.closing) (e : Nat × Bool) :
    m'.owners e = m.owners e + if pi = e.1 then 1 else 0 := by
  have hends : (fun g => (m'.ftable g).end) = Function.update (Function.update
      (fun g => (m.ftable g).end) rf (some (pi, false))) wf (some (pi, true)) := by
    funext g
    obtain rfl | hgw := eq_or_ne g wf
    · simp [ht, pipeFiles, File.end]
    · obtain rfl | hgr := eq_or_ne g rf
      · simp [ht, pipeFiles, File.end, hgw]
      · simp [ht, pipeFiles, hgw, hgr]
  have hrf' : (m.ftable rf).end = none := by simp [File.end, hrf]
  have hwf' : (m.ftable wf).end = none := by simp [File.end, hwf]
  have hread := refs_update (h := fun g => (m.ftable g).end) (Finset.mem_univ rf)
    (some (pi, false)) e
  have hwrite := refs_update
    (h := Function.update (fun g => (m.ftable g).end) rf (some (pi, false)))
    (Finset.mem_univ wf) (some (pi, true)) e
  rw [Function.update_of_ne hne.symm, hwf'] at hwrite
  simp only [hrf'] at hread
  unfold Machine.owners
  rw [hends]
  simp only [hclosing]
  obtain ⟨page, w⟩ := e
  obtain rfl | hpi := eq_or_ne pi page
  · cases w <;> simp at hread hwrite ⊢ <;> omega
  · simp [hpi] at hread hwrite ⊢
    omega

/-- `pipealloc` makes the two ends of a new pipe of the files that it has taken. -/
theorem Sound.pipe {rf wf : Fin NFILE} {pi : Nat} (h : Sound m) (hne : rf ≠ wf)
    (hrf : rf ∈ (m.proc p).pc.fresh) (hwf : wf ∈ (m.proc p).pc.fresh)
    (hnew : (m'.proc p).pc.fresh = []) (hpage : m.pipes pi = none)
    (hdesc : ∀ q fd g, (m'.proc q).desc fd = some g →
      (∃ q fd, (m.proc q).desc fd = some g) ∨ g = rf ∨ g = wf)
    (hfresh : ∀ q g, g ∈ (m'.proc q).pc.fresh → g ∈ (m.proc q).pc.fresh)
    (hpipes : m'.pipes = Function.update m.pipes pi (some ⟨true, true⟩))
    (hclosing : ∀ q, (m'.proc q).pc.closing = (m.proc q).pc.closing)
    (ht : m'.ftable = pipeFiles m.ftable rf wf pi) (hrefs : ∀ g, m'.refs g = m.refs g) :
    Sound m' := by
  have hfile : ∀ g, g ≠ rf → g ≠ wf → m'.ftable g = m.ftable g := by
    intro g hgr hgw
    simp [ht, pipeFiles, hgr, hgw]
  have htype : ∀ g, g = rf ∨ g = wf → (m'.ftable g).type = .pipe := by
    rintro g (rfl | rfl) <;> simp [ht, pipeFiles, hne]
  have hdiff : ∀ q g, g ∈ (m'.proc q).pc.fresh → g ≠ rf ∧ g ≠ wf := by
    intro q g hg
    have hq : q ≠ p := by
      rintro rfl
      simp [hnew] at hg
    constructor
    · rintro rfl
      exact hq (h.fresh_sole hrf (hfresh q g hg))
    · rintro rfl
      exact hq (h.fresh_sole hwf (hfresh q g hg))
  constructor
  case ref =>
    intro g
    rw [hrefs, ← h.ref g]
    obtain rfl | hgw := eq_or_ne g wf
    · simp [ht, pipeFiles, hne.symm]
    · obtain rfl | hgr := eq_or_ne g rf
      · simp [ht, pipeFiles, hne]
      · rw [hfile g hgr hgw]
  case idle =>
    intro g hg
    rw [hrefs] at hg
    have hgr : g ≠ rf := by
      rintro rfl
      exact (refs_of_fresh hrf).ne' hg
    have hgw : g ≠ wf := by
      rintro rfl
      exact (refs_of_fresh hwf).ne' hg
    rw [hfile g hgr hgw]
    exact h.idle g hg
  case fresh =>
    intro q g hg
    rw [hfile g (hdiff q g hg).1 (hdiff q g hg).2, hrefs]
    exact h.fresh q g (hfresh q g hg)
  case typed =>
    intro q fd g hg
    by_cases hends : g = rf ∨ g = wf
    · rw [htype g hends]
      simp
    · obtain ⟨q', fd', hold⟩ := (hdesc q fd g hg).resolve_right hends
      rw [hfile g (fun he => hends (.inl he)) (fun he => hends (.inr he))]
      exact h.typed q' fd' g hold
  case owners =>
    intro e
    have hcount := owners_pipe hne (h.fresh p rf hrf).1 (h.fresh p wf hwf).1 ht hclosing e
    have hold := h.owners e
    obtain ⟨page, w⟩ := e
    obtain rfl | hpi := eq_or_ne page pi
    · have hopen : m.isOpen (page, w) = false := by
        unfold Machine.isOpen
        rw [hpage]
      have hopen' : m'.isOpen (page, w) = true := by
        unfold Machine.isOpen Ends.isOpen
        cases w <;> simp [hpipes]
      rw [hopen] at hold
      rw [hcount, hold, hopen']
      simp
    · have hsame : m'.pipes page = m.pipes page := by
        rw [hpipes]
        exact Function.update_of_ne hpi ..
      rw [hcount, hold, isOpen_of_page hsame]
      simp [hpi.symm]
  case live =>
    intro page x hx
    rw [hpipes] at hx
    obtain rfl | hpi := eq_or_ne page pi
    · rw [Function.update_self] at hx
      cases hx
      exact .inl rfl
    · rw [Function.update_of_ne hpi] at hx
      exact h.live page x hx

theorem Ends.isOpen_close (x : Ends) (w v : Bool) :
    (x.close w).isOpen v = if v = w then false else x.isOpen v := by
  cases w <;> cases v <;> rfl

/-- A page that is freed has no open end. -/
theorem pipeclose_ok {pipes pipes' : Nat → Option Ends} {pi : Nat} {w : Bool}
    (h : pipeclose pipes pi w = .ok pipes') :
    ∃ x o, pipes pi = some x ∧ pipes' = Function.update pipes pi o ∧
      (∀ v, (o.elim false fun y => y.isOpen v) = (x.close w).isOpen v) ∧
      ∀ y, o = some y → y.readopen = true ∨ y.writeopen = true := by
  unfold pipeclose at h
  cases hx : pipes pi with
  | none => simp [hx] at h
  | some x =>
    rw [hx] at h
    by_cases hshut : (x.close w).readopen = false ∧ (x.close w).writeopen = false
    · simp [hshut] at h
      refine ⟨x, none, rfl, h.symm, ?_, by simp⟩
      intro v
      unfold Ends.isOpen
      cases v <;> simp [hshut]
    · simp [hshut] at h
      refine ⟨x, some (x.close w), rfl, h.symm, fun _ => rfl, ?_⟩
      rintro y ⟨⟩
      grind

theorem isOpen_pipeclose_self {e : Nat × Bool} (h : pipeclose m.pipes e.1 e.2 = .ok m'.pipes) :
    m'.isOpen e = false := by
  obtain ⟨x, o, -, hp, hopen, -⟩ := pipeclose_ok h
  have hself := hopen e.2
  rw [Ends.isOpen_close, if_pos rfl] at hself
  unfold Machine.isOpen
  rw [hp, Function.update_self]
  cases o with
  | none => rfl
  | some y => exact hself

theorem isOpen_pipeclose_of_ne {e a : Nat × Bool} (h : pipeclose m.pipes e.1 e.2 = .ok m'.pipes)
    (hne : a ≠ e) : m'.isOpen a = m.isOpen a := by
  obtain ⟨x, o, hx, hp, hopen, -⟩ := pipeclose_ok h
  obtain ⟨page, w⟩ := a
  obtain rfl | hpage := eq_or_ne page e.1
  · have hw : w ≠ e.2 := by
      rintro rfl
      exact hne rfl
    have hother := hopen w
    rw [Ends.isOpen_close, if_neg hw] at hother
    unfold Machine.isOpen
    simp only [hp, Function.update_self, hx]
    cases o with
    | none => exact hother
    | some y => exact hother
  · apply isOpen_of_page
    rw [hp]
    exact Function.update_of_ne hpage ..

/-- A process that has an end of a pipe to close finds it open. -/
theorem Sound.closing_open {e : Nat × Bool} (h : Sound m) (hp : (m.proc p).pc.closing = some e) :
    m.isOpen e = true := by
  have hpos := refs_pos_of (h := fun q => (m.proc q).pc.closing) (Finset.mem_univ p) hp
  have howners := h.owners e
  unfold Machine.owners at howners
  by_contra hopen
  rw [if_neg hopen] at howners
  omega

/-- `pipeclose` by the process that has the end. -/
theorem Sound.closeEnd {e : Nat × Bool} (h : Sound m) (hk : Keeps m m')
    (hp : (m.proc p).pc.closing = some e) (hnew : (m'.proc p).pc.closing = none)
    (hclosing : ∀ q, q ≠ p → (m'.proc q).pc.closing = (m.proc q).pc.closing)
    (ht : m'.ftable = m.ftable) (hpipes : pipeclose m.pipes e.1 e.2 = .ok m'.pipes)
    (hrefs : ∀ g, m'.refs g = m.refs g) : Sound m' := by
  constructor
  case ref =>
    intro g
    rw [ht, hrefs]
    exact h.ref g
  case idle =>
    intro g hzero
    rw [hrefs] at hzero
    rw [ht]
    exact h.idle g hzero
  case fresh =>
    intro q g hg
    rw [ht, hrefs]
    exact h.fresh q g (hk.fresh q g hg)
  case typed =>
    intro q fd g hg
    obtain ⟨q', fd', hold⟩ := hk.desc q fd g hg
    rw [ht]
    exact h.typed q' fd' g hold
  case owners =>
    intro a
    have hopen := h.closing_open hp
    have hcount := closings_change hclosing a
    have howners := h.owners a
    unfold Machine.owners at howners ⊢
    rw [ht]
    obtain rfl | hae := eq_or_ne a e
    · have hshut : m'.isOpen a = false := isOpen_pipeclose_self hpipes
      simp only [hp, hnew, hopen, hshut, reduceCtorEq, if_true, if_false] at hcount howners ⊢
      omega
    · have hsame : m'.isOpen a = m.isOpen a := isOpen_pipeclose_of_ne hpipes hae
      rw [hsame]
      simp only [hp, hnew, Option.some.injEq, hae.symm, reduceCtorEq, if_false] at hcount
      omega
  case live =>
    obtain ⟨x, o, hx, hp', -, hlive⟩ := pipeclose_ok hpipes
    intro page y hy
    rw [hp'] at hy
    obtain rfl | hpage := eq_or_ne page e.1
    · rw [Function.update_self] at hy
      exact hlive y hy
    · rw [Function.update_of_ne hpage] at hy
      exact h.live page y hy

end Files
