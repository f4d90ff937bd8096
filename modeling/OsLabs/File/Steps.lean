-- SUMMARY: What one step of a process does to the references to open files, section by section of the code.
import OsLabs.File.Process
import OsLabs.File.Refs

/-!
# References step by step

Each section under a lock changes one process, and is one of the changes of `Refs`.
-/

namespace Files

open RefCount

variable {m m' : Machine} {p q np : Pid} {x x' : Proc} {fd : Fin NOFILE} {f : Fin NFILE}
  {t t' : Table}

/-! ## Sections under `ftable.lock` -/

theorem filealloc_some (h : filealloc t = some (f, t')) :
    (t f).ref = 0 ∧ t' = Function.update t f { t f with ref := 1 } := by
  unfold filealloc at h
  obtain ⟨a, ha, hpair⟩ := Option.map_eq_some_iff.mp h
  cases hpair
  exact ⟨by simpa using List.find?_some ha, rfl⟩

theorem filedup_ok (h : filedup t f = .ok t') :
    t' = Function.update t f { t f with ref := (t f).ref + 1 } := by
  unfold filedup at h
  split at h
  · cases h
  · exact (Except.ok.inj h).symm

theorem fileclose_ok {ff : Option File} (h : fileclose t f = .ok (t', ff)) :
    1 < (t f).ref ∧ ff = none ∧ t' = Function.update t f { t f with ref := (t f).ref - 1 } ∨
      (t f).ref = 1 ∧ ff = some (t f) ∧
        t' = Function.update t f { t f with ref := 0, type := .none } := by
  unfold fileclose at h
  split at h
  · cases h
  · split at h
    · cases h
      exact .inl ⟨by omega, rfl, rfl⟩
    · cases h
      exact .inr ⟨by omega, rfl, rfl⟩

/-! ## The counts when one process changes -/

structure Moves (m m' : Machine) (p : Pid) (x' : Proc) : Prop where
  self : m'.proc p = x'
  other : ∀ q, q ≠ p → m'.proc q = m.proc q

theorem moves_set (t : Table) (pipes : Nat → Option Ends) (fault : Option String) (p : Pid)
    (x : Proc) : Moves m (Machine.set ⟨t, pipes, m.proc, fault⟩ p x) p x := by
  constructor
  case self => exact Function.update_self ..
  case other => exact fun q hq => Function.update_of_ne hq ..

theorem desc_eq_ofile (h : x.pc.skips = none) : x.desc = x.ofile := by
  funext fd
  simp [Proc.desc, h]

namespace Moves

theorem refs (h : Moves m m' p x') (g : Fin NFILE) :
    m'.refs g + (m.proc p).refs g = m.refs g + x'.refs g := by
  have hchange := refs_change h.other g
  rwa [h.self] at hchange

theorem closing (h : Moves m m' p x') (hx : x'.pc.closing = (m.proc p).pc.closing) (q : Pid) :
    (m'.proc q).pc.closing = (m.proc q).pc.closing := by
  obtain rfl | hq := eq_or_ne q p
  · rw [h.self, hx]
  · rw [h.other q hq]

theorem fresh (h : Moves m m' p x') (hx : ∀ g, g ∈ x'.pc.fresh → g ∈ (m.proc p).pc.fresh) (q : Pid)
    (g : Fin NFILE) (hg : g ∈ (m'.proc q).pc.fresh) : g ∈ (m.proc q).pc.fresh := by
  obtain rfl | hq := eq_or_ne q p
  · rw [h.self] at hg
    exact hx g hg
  · rwa [h.other q hq] at hg

theorem desc (h : Moves m m' p x')
    (hx : ∀ fd g, x'.desc fd = some g → ∃ q fd, (m.proc q).desc fd = some g) (q : Pid)
    (fd : Fin NOFILE) (g : Fin NFILE) (hg : (m'.proc q).desc fd = some g) :
    ∃ q fd, (m.proc q).desc fd = some g := by
  obtain rfl | hq := eq_or_ne q p
  · rw [h.self] at hg
    exact hx fd g hg
  · rw [h.other q hq] at hg
    exact ⟨q, fd, hg⟩

end Moves

/-- The process has one reference to `f` more. -/
def Proc.Gains (x x' : Proc) (f : Fin NFILE) : Prop :=
  ∀ g, x'.refs g = x.refs g + if f = g then 1 else 0

/-- The process has one reference to `f` less. -/
def Proc.Drops (x x' : Proc) (f : Fin NFILE) : Prop :=
  ∀ g, x'.refs g + (if f = g then 1 else 0) = x.refs g

/-- The process keeps its references. -/
theorem Sound.silent (h : Sound m) (hm : Moves m m' p x') (ht : m'.ftable = m.ftable)
    (hpipes : m'.pipes = m.pipes) (hdesc : x'.desc = (m.proc p).desc)
    (hlocals : x'.pc.locals = (m.proc p).pc.locals)
    (hfresh : ∀ g, g ∈ x'.pc.fresh → g ∈ (m.proc p).pc.fresh)
    (hclosing : x'.pc.closing = (m.proc p).pc.closing) : Sound m' := by
  apply h.quiet ⟨hm.desc _, hm.fresh hfresh⟩ ht hpipes (hm.closing hclosing)
  · intro g
    have hrefs := hm.refs g
    unfold Proc.refs at hrefs
    rw [hdesc, hlocals] at hrefs
    omega
  · intro fd g hg
    rw [hdesc] at hg
    exact ⟨p, fd, hg⟩

/-- `filedup` of a file that has a descriptor. -/
theorem Sound.gain (h : Sound m) (hm : Moves m m' p x') (hpipes : m'.pipes = m.pipes)
    (hdup : filedup m.ftable f = .ok m'.ftable) (hgains : (m.proc p).Gains x' f)
    (hheld : (m.proc q).desc fd = some f)
    (hdesc : ∀ fd g, x'.desc fd = some g → ∃ q fd, (m.proc q).desc fd = some g)
    (hfresh : ∀ g, g ∈ x'.pc.fresh → g ∈ (m.proc p).pc.fresh)
    (hclosing : x'.pc.closing = (m.proc p).pc.closing) : Sound m' := by
  have ht := filedup_ok hdup
  have hrefs : ∀ g, m'.refs g = m.refs g + if f = g then 1 else 0 := by
    intro g
    have hset := hm.refs g
    rw [hgains g] at hset
    omega
  have hself := hrefs f
  rw [if_pos rfl] at hself
  apply h.count (f := f) ⟨hm.desc hdesc, hm.fresh hfresh⟩ hpipes (hm.closing hclosing)
  case hother =>
    intro g hg
    rw [ht, hrefs, if_neg hg.symm]
    exact ⟨Function.update_of_ne hg .., Nat.add_zero _⟩
  case hself =>
    rw [ht]
    exact ⟨_, Function.update_self ..⟩
  case href =>
    rw [ht, Function.update_self, hself, h.ref]
    rfl
  case hpos => omega
  case hfresh =>
    rintro ⟨r, hr⟩
    exact absurd (h.fresh r f hr).1 (h.typed q fd f hheld)

/-- `fileclose` takes a reference. With the last one it leaves the end of a pipe to the process. -/
theorem Sound.drop {ff : Option File} (h : Sound m) (hm : Moves m m' p x')
    (hpipes : m'.pipes = m.pipes) (hclose : fileclose m.ftable f = .ok (m'.ftable, ff))
    (hdrops : (m.proc p).Drops x' f)
    (hdesc : ∀ fd g, x'.desc fd = some g → ∃ q fd, (m.proc q).desc fd = some g)
    (hfresh : ∀ g, g ∈ x'.pc.fresh → g ∈ (m.proc p).pc.fresh)
    (hold : (m.proc p).pc.closing = none) (hnew : x'.pc.closing = ff.bind File.end) : Sound m' := by
  have hrefs : ∀ g, m'.refs g + (if f = g then 1 else 0) = m.refs g := by
    intro g
    have hset := hm.refs g
    rw [← hdrops g] at hset
    omega
  have hself := hrefs f
  rw [if_pos rfl] at hself
  have href := h.ref f
  have hother : ∀ g, g ≠ f → m'.refs g = m.refs g := by
    intro g hg
    have hset := hrefs g
    rwa [if_neg hg.symm, Nat.add_zero] at hset
  obtain ⟨hleft, rfl, ht⟩ | ⟨hlast, rfl, ht⟩ := fileclose_ok hclose
  · apply h.count (f := f) ⟨hm.desc hdesc, hm.fresh hfresh⟩ hpipes
      (hm.closing (hnew.trans hold.symm))
    case hother =>
      intro g hg
      rw [ht]
      exact ⟨Function.update_of_ne hg .., hother g hg⟩
    case hself =>
      rw [ht]
      exact ⟨_, Function.update_self ..⟩
    case href =>
      rw [ht, Function.update_self]
      simp only [href]
      omega
    case hpos => omega
    case hfresh =>
      rintro ⟨r, hr⟩
      have hone := (h.fresh r f hr).2
      omega
  · apply h.last (f := f) (p := p) ⟨hm.desc hdesc, hm.fresh hfresh⟩ hpipes
    case hother =>
      intro g hg
      rw [ht]
      exact ⟨Function.update_of_ne hg .., hother g hg⟩
    case hself =>
      rw [ht]
      exact Function.update_self ..
    case hzero => omega
    case hclosing =>
      intro q hq
      rw [hm.other q hq]
    case hold => exact hold
    case hnew =>
      rw [hm.self]
      exact hnew

/-- `filealloc` gives the process a file. -/
theorem Sound.take (h : Sound m) (hm : Moves m m' p x') (hpipes : m'.pipes = m.pipes)
    (halloc : filealloc m.ftable = some (f, m'.ftable)) (hgains : (m.proc p).Gains x' f)
    (hdesc : x'.desc = (m.proc p).desc)
    (hfresh : ∀ g, g ∈ x'.pc.fresh → g ∈ (m.proc p).pc.fresh ∨ g = f)
    (hclosing : x'.pc.closing = (m.proc p).pc.closing) : Sound m' := by
  obtain ⟨href, ht⟩ := filealloc_some halloc
  have hzero : m.refs f = 0 := by
    rw [h.ref f] at href
    exact_mod_cast href
  have hrefs : ∀ g, m'.refs g = m.refs g + if f = g then 1 else 0 := by
    intro g
    have hset := hm.refs g
    rw [hgains g] at hset
    omega
  apply h.alloc (f := f) _ _ hpipes (hm.closing hclosing)
  case hother =>
    intro g hg
    rw [ht, hrefs, if_neg hg.symm]
    exact ⟨Function.update_of_ne hg .., Nat.add_zero _⟩
  case hself =>
    rw [ht]
    exact Function.update_self ..
  case hzero => exact hzero
  case hone =>
    rw [hrefs, if_pos rfl, hzero, Nat.zero_add]
  · apply hm.desc
    intro fd g hg
    rw [hdesc] at hg
    exact ⟨p, fd, hg⟩
  · intro q g hg
    obtain rfl | hq := eq_or_ne q p
    · rw [hm.self] at hg
      exact hfresh g hg
    · rw [hm.other q hq] at hg
      exact .inl hg

/-! ## Steps -/

theorem fdalloc_some {o : Ofile} (h : fdalloc o = some fd) : o fd = none := by
  simpa using List.find?_some h

/-- A process writes to a descriptor and goes on. -/
theorem refs_write {o : Option (Fin NFILE)} (hx : x.pc.skips = none) (hx' : x'.pc.skips = none)
    (ho : x'.ofile = Function.update x.ofile fd o) (g : Fin NFILE) :
    x'.refs g + ((if x.ofile fd = some g then 1 else 0) + x.pc.locals.count g) =
      x.refs g + ((if o = some g then 1 else 0) + x'.pc.locals.count g) := by
  have hdesc : x'.desc = Function.update x.desc fd o := by
    rw [desc_eq_ofile hx', desc_eq_ofile hx, ho]
  have hsame : ∀ a, a ≠ fd → x'.desc a = x.desc a := by
    intro a ha
    rw [hdesc, Function.update_of_ne ha]
  have hchange := Proc.refs_change hsame g
  rwa [hdesc, Function.update_self, desc_eq_ofile hx] at hchange

/-- A process goes on with the same descriptors. -/
theorem desc_congr (ho : x'.ofile = x.ofile) (h : x'.pc.skips = x.pc.skips) : x'.desc = x.desc := by
  funext fd
  simp [Proc.desc, h, ho]

theorem refs_congr_desc (h : x'.desc = x.desc) (g : Fin NFILE) :
    x'.refs g + x.pc.locals.count g = x.refs g + x'.pc.locals.count g := by
  unfold Proc.refs
  rw [h]
  omega

/-- A place where the process has the references of its descriptors only. -/
def Pc.Plain (pc : Pc) : Prop :=
  pc.skips = none ∧ pc.locals = [] ∧ pc.fresh = [] ∧ pc.closing = none

section

variable (h : Sound m) (hm : Moves m m' p x')
include h hm

/-- The process goes on, or ends, with the same descriptors. -/
theorem Sound.plain (ht : m'.ftable = m.ftable) (hpipes : m'.pipes = m.pipes)
    (ho : x'.ofile = (m.proc p).ofile) (hold : (m.proc p).pc.Plain) (hnew : x'.pc.Plain) :
    Sound m' := by
  apply h.silent hm ht hpipes
  case hdesc => exact desc_congr ho (hnew.1.trans hold.1.symm)
  case hlocals => exact hnew.2.1.trans hold.2.1.symm
  case hfresh =>
    intro g hg
    rw [hnew.2.2.1] at hg
    cases hg
  case hclosing => exact hnew.2.2.2.trans hold.2.2.2.symm

/-- The process gives up what it has taken. -/
theorem Sound.giveUp {todo : List (Fin NFILE)} (ht : m'.ftable = m.ftable)
    (hpipes : m'.pipes = m.pipes) (ho : x'.ofile = (m.proc p).ofile) (hpc' : x'.pc = .close todo)
    (hskips : (m.proc p).pc.skips = none) (hlocals : (m.proc p).pc.locals = todo)
    (hclosing : (m.proc p).pc.closing = none) : Sound m' := by
  apply h.silent hm ht hpipes
  case hdesc =>
    apply desc_congr ho
    rw [hpc', hskips]
    rfl
  case hlocals =>
    rw [hpc', hlocals]
    rfl
  case hfresh =>
    intro g hg
    rw [hpc'] at hg
    cases hg
  case hclosing =>
    rw [hpc', hclosing]
    rfl

/-- `sys_dup` takes a descriptor. It does not count yet. -/
theorem Sound.dup (ht : m'.ftable = m.ftable) (hpipes : m'.pipes = m.pipes)
    (hpc : (m.proc p).pc = .user) (hfd : (m.proc p).ofile fd = none)
    (ho : x'.ofile = Function.update (m.proc p).ofile fd (some f)) (hpc' : x'.pc = .dup fd f) :
    Sound m' := by
  apply h.silent hm ht hpipes
  case hdesc =>
    funext a
    obtain rfl | ha := eq_or_ne a fd
    · simp [Proc.desc, Pc.skips, hpc, hpc', hfd]
    · simp [Proc.desc, Pc.skips, hpc, hpc', ho, ha, ha.symm]
  case hlocals =>
    rw [hpc, hpc']
    rfl
  case hfresh =>
    intro g hg
    rw [hpc'] at hg
    cases hg
  case hclosing =>
    rw [hpc, hpc']
    rfl

/-- `sys_dup` calls `filedup`, and its descriptor counts. -/
theorem Sound.filedup (hdup : Files.filedup m.ftable f = .ok m'.ftable) (hpipes : m'.pipes = m.pipes)
    (hpc : (m.proc p).pc = .dup fd f) (hfits : (m.proc p).pc.Fits (m.proc p).ofile)
    (ho : x'.ofile = (m.proc p).ofile) (hpc' : x'.pc = .user) : Sound m' := by
  rw [hpc] at hfits
  obtain ⟨hfd, a, ha, hheld⟩ := hfits
  have hdesc : (m.proc p).desc = Function.update (m.proc p).ofile fd none := by
    funext b
    obtain rfl | hb := eq_or_ne b fd
    · simp [Proc.desc, Pc.skips, hpc]
    · simp [Proc.desc, Pc.skips, hpc, hb, hb.symm]
  have hdesc' : x'.desc = (m.proc p).ofile := by
    rw [desc_eq_ofile (by rw [hpc']; rfl), ho]
  have hsame : ∀ b, b ≠ fd → x'.desc b = (m.proc p).desc b := by
    intro b hb
    rw [hdesc, hdesc', Function.update_of_ne hb]
  have hknown : (m.proc p).desc a = some f := by
    rw [← hsame a ha, hdesc', hheld]
  apply h.gain hm hpipes hdup _ hknown
  case hdesc =>
    intro b g hb
    obtain rfl | hne := eq_or_ne b fd
    · rw [hdesc', hfd] at hb
      cases hb
      exact ⟨p, a, hknown⟩
    · rw [hsame b hne] at hb
      exact ⟨p, b, hb⟩
  case hfresh =>
    intro g hg
    rw [hpc'] at hg
    cases hg
  case hclosing =>
    rw [hpc, hpc']
    rfl
  · intro g
    have hchange := Proc.refs_change hsame g
    rw [hdesc', hdesc, Function.update_self, hfd, hpc, hpc'] at hchange
    simpa [Pc.locals] using hchange

/-- `sys_close` takes the file out of the descriptor and calls `fileclose`. -/
theorem Sound.close (ht : m'.ftable = m.ftable) (hpipes : m'.pipes = m.pipes)
    (hpc : (m.proc p).pc = .user) (hfd : (m.proc p).ofile fd = some f)
    (ho : x'.ofile = Function.update (m.proc p).ofile fd none) (hpc' : x'.pc = .close [f]) :
    Sound m' := by
  have hskips : (m.proc p).pc.skips = none := by rw [hpc]; rfl
  have hskips' : x'.pc.skips = none := by rw [hpc']; rfl
  apply h.quiet ⟨hm.desc _, hm.fresh _⟩ ht hpipes (hm.closing _)
  · intro g
    have hset := hm.refs g
    have hwrite := refs_write hskips hskips' ho g
    rw [hfd, hpc, hpc'] at hwrite
    simp [Pc.locals, List.count_cons] at hwrite
    omega
  · intro a g ha
    rw [desc_eq_ofile hskips', ho] at ha
    refine ⟨p, a, ?_⟩
    rw [desc_eq_ofile hskips]
    obtain rfl | hne := eq_or_ne a fd
    · simp at ha
    · rwa [Function.update_of_ne hne] at ha
  · intro g hg
    rw [hpc'] at hg
    cases hg
  · rw [hpc, hpc']
    rfl

/-- `fileclose` of a reference that is in a variable. -/
theorem Sound.fileclose {todo : List (Fin NFILE)} {ff : Option File}
    (hclose : Files.fileclose m.ftable f = .ok (m'.ftable, ff)) (hpipes : m'.pipes = m.pipes)
    (hpc : (m.proc p).pc = .close (f :: todo)) (ho : x'.ofile = (m.proc p).ofile)
    (hskips : x'.pc.skips = none) (hfresh : x'.pc.fresh = []) (hlocals : x'.pc.locals = todo)
    (hnew : x'.pc.closing = ff.bind File.end) : Sound m' := by
  have hdesc : x'.desc = (m.proc p).desc := by
    apply desc_congr ho
    rw [hskips, hpc]
    rfl
  apply h.drop hm hpipes hclose
  case hdrops =>
    intro g
    have hgoto := refs_congr_desc hdesc g
    rw [hpc, hlocals] at hgoto
    simp only [Pc.locals, List.count_cons, beq_iff_eq] at hgoto
    omega
  case hdesc =>
    intro a g ha
    rw [hdesc] at ha
    exact ⟨p, a, ha⟩
  case hfresh =>
    intro g hg
    rw [hfresh] at hg
    cases hg
  case hold =>
    rw [hpc]
    rfl
  case hnew => exact hnew

/-- `fileclose` of a descriptor in `exit`, which stays and does not count, or goes. -/
theorem Sound.exitClose {fd : Fin NOFILE} {ff : Option File}
    (hclose : Files.fileclose m.ftable f = .ok (m'.ftable, ff)) (hpipes : m'.pipes = m.pipes)
    (hpc : (m.proc p).pc = .exit fd) (hfd : (m.proc p).ofile fd = some f)
    (hdesc : x'.desc = Function.update (m.proc p).ofile fd none) (hlocals : x'.pc.locals = [])
    (hfresh : x'.pc.fresh = []) (hnew : x'.pc.closing = ff.bind File.end) : Sound m' := by
  have hofile : (m.proc p).desc = (m.proc p).ofile := desc_eq_ofile (by rw [hpc]; rfl)
  have hsame : ∀ a, a ≠ fd → x'.desc a = (m.proc p).desc a := by
    intro a ha
    rw [hdesc, hofile, Function.update_of_ne ha]
  apply h.drop hm hpipes hclose
  case hdrops =>
    intro g
    have hchange := Proc.refs_change hsame g
    rw [hdesc, hofile, hpc, hfd, hlocals, Function.update_self] at hchange
    simpa [Pc.locals] using hchange
  case hdesc =>
    intro a g ha
    obtain rfl | hne := eq_or_ne a fd
    · rw [hdesc, Function.update_self] at ha
      cases ha
    · rw [hsame a hne] at ha
      exact ⟨p, a, ha⟩
  case hfresh =>
    intro g hg
    rw [hfresh] at hg
    cases hg
  case hold =>
    rw [hpc]
    rfl
  case hnew => exact hnew

/-- `pipeclose`, after which the process goes on with the descriptors that count. -/
theorem Sound.pipeclose {pi : Nat} {w : Bool} (ht : m'.ftable = m.ftable)
    (hpipes : Files.pipeclose m.pipes pi w = .ok m'.pipes)
    (hclosing : (m.proc p).pc.closing = some (pi, w)) (hdesc : x'.desc = (m.proc p).desc)
    (hlocals : x'.pc.locals = (m.proc p).pc.locals) (hfresh : x'.pc.fresh = [])
    (hnew : x'.pc.closing = none) : Sound m' := by
  apply h.closeEnd _ hclosing
  case hnew =>
    rw [hm.self]
    exact hnew
  case hclosing =>
    intro q hq
    rw [hm.other q hq]
  case ht => exact ht
  case hpipes => exact hpipes
  case hrefs =>
    intro g
    have hset := hm.refs g
    have hgoto := refs_congr_desc hdesc g
    rw [hlocals] at hgoto
    omega
  · refine ⟨hm.desc ?_, hm.fresh ?_⟩
    · intro a g ha
      rw [hdesc] at ha
      exact ⟨p, a, ha⟩
    · intro g hg
      rw [hfresh] at hg
      cases hg

/-- `filealloc`, in `pipealloc` and in `sys_open`. -/
theorem Sound.filealloc (halloc : Files.filealloc m.ftable = some (f, m'.ftable))
    (hpipes : m'.pipes = m.pipes) (ho : x'.ofile = (m.proc p).ofile)
    (hskips : x'.pc.skips = (m.proc p).pc.skips)
    (hlocals : ∀ g, x'.pc.locals.count g = (m.proc p).pc.locals.count g + if f = g then 1 else 0)
    (hfresh : ∀ g, g ∈ x'.pc.fresh → g ∈ (m.proc p).pc.fresh ∨ g = f)
    (hclosing : x'.pc.closing = (m.proc p).pc.closing) : Sound m' := by
  have hdesc := desc_congr ho hskips
  apply h.take hm hpipes halloc _ hdesc hfresh hclosing
  intro g
  have hgoto := refs_congr_desc hdesc g
  have hcount := hlocals g
  omega

/-- `sys_open` sets the file up and gives it a descriptor. -/
theorem Sound.opened {type : FdType} {readable writable : Bool} (hpipes : m'.pipes = m.pipes)
    (ht : m'.ftable = Function.update m.ftable f
      { m.ftable f with type := type, readable := readable, writable := writable })
    (htype : type = .inode ∨ type = .device) (hpc : (m.proc p).pc = .opened f)
    (hfd : (m.proc p).ofile fd = none)
    (ho : x'.ofile = Function.update (m.proc p).ofile fd (some f)) (hpc' : x'.pc = .user) :
    Sound m' := by
  have hskips : (m.proc p).pc.skips = none := by rw [hpc]; rfl
  have hskips' : x'.pc.skips = none := by rw [hpc']; rfl
  apply h.inode (p := p) (f := f)
  case hp =>
    rw [hpc]
    exact List.mem_singleton_self f
  case hnew =>
    rw [hm.self, hpc']
    exact List.not_mem_nil
  case hdesc =>
    intro q a g ha
    obtain rfl | hq := eq_or_ne q p
    · rw [hm.self, desc_eq_ofile hskips', ho] at ha
      obtain rfl | hne := eq_or_ne a fd
      · rw [Function.update_self] at ha
        exact .inr (Option.some.inj ha).symm
      · rw [Function.update_of_ne hne, ← desc_eq_ofile hskips] at ha
        exact .inl ⟨q, a, ha⟩
    · rw [hm.other q hq] at ha
      exact .inl ⟨q, a, ha⟩
  case hfresh =>
    apply hm.fresh
    intro g hg
    rw [hpc'] at hg
    cases hg
  case hpipes => exact hpipes
  case hclosing =>
    apply hm.closing
    rw [hpc, hpc']
    rfl
  case hother =>
    intro g hg
    rw [ht, Function.update_of_ne hg]
  case hrefs =>
    intro g
    have hset := hm.refs g
    have hwrite := refs_write hskips hskips' ho g
    rw [hfd, hpc, hpc'] at hwrite
    simp [Pc.locals, List.count_cons] at hwrite
    omega
  case href => rw [ht, Function.update_self]
  case htype =>
    rw [ht, Function.update_self]
    exact htype

omit hm in
/-- The two files of `pipealloc` differ. -/
theorem Sound.pipe_ne {rf wf : Fin NFILE} (hpc : (m.proc p).pc = .pipe2 rf wf) : rf ≠ wf := by
  rintro rfl
  have hone := (h.fresh p rf (by rw [hpc]; exact List.mem_cons_self)).2
  have hle := refs_le m p rf
  unfold Proc.refs at hle
  rw [hpc] at hle
  simp [Pc.locals] at hle
  omega

/-- `pipealloc`. The two references stay where they are or get descriptors. -/
theorem Sound.pipealloc {rf wf : Fin NFILE} {pi : Nat} (hpage : m.pipes pi = none)
    (ht : m'.ftable = pipeFiles m.ftable rf wf pi)
    (hpipes : m'.pipes = Function.update m.pipes pi (some ⟨true, true⟩))
    (hpc : (m.proc p).pc = .pipe2 rf wf) (hfresh : x'.pc.fresh = []) (hclosing : x'.pc.closing = none)
    (hdesc : ∀ fd g, x'.desc fd = some g → (m.proc p).desc fd = some g ∨ g = rf ∨ g = wf)
    (hrefs : ∀ g, x'.refs g = (m.proc p).refs g) : Sound m' := by
  apply h.pipe (p := p) (h.pipe_ne hpc)
  case hrf =>
    rw [hpc]
    exact List.mem_cons_self
  case hwf =>
    rw [hpc]
    exact List.mem_cons_of_mem _ (List.mem_singleton_self wf)
  case hnew =>
    rw [hm.self]
    exact hfresh
  case hpage => exact hpage
  case hdesc =>
    intro q a g ha
    obtain rfl | hq := eq_or_ne q p
    · rw [hm.self] at ha
      exact (hdesc a g ha).imp_left fun hold => ⟨q, a, hold⟩
    · rw [hm.other q hq] at ha
      exact .inl ⟨q, a, ha⟩
  case hfresh =>
    apply hm.fresh
    intro g hg
    rw [hfresh] at hg
    cases hg
  case hpipes => exact hpipes
  case hclosing =>
    apply hm.closing
    rw [hclosing, hpc]
    rfl
  case ht => exact ht
  case hrefs =>
    intro g
    have hset := hm.refs g
    rw [hrefs] at hset
    omega

end

theorem fdallocs_some {o o' : Ofile} {rf wf : Fin NFILE} (h : fdallocs o rf wf = some o') :
    ∃ a b, o a = none ∧ Function.update o a (some rf) b = none ∧
      o' = Function.update (Function.update o a (some rf)) b (some wf) := by
  unfold fdallocs at h
  cases ha : fdalloc o with
  | none => simp [ha] at h
  | some a =>
    cases hb : fdalloc (Function.update o a (some rf)) with
    | none => simp [ha, hb] at h
    | some b =>
      refine ⟨a, b, fdalloc_some ha, fdalloc_some hb, ?_⟩
      simpa [ha, hb] using h.symm

/-- `sys_pipe` gives both ends a descriptor. -/
theorem fdallocs_refs (x' : Proc) {rf wf : Fin NFILE} (h : fdallocs x.ofile rf wf = some x'.ofile)
    (hpc : x.pc = .pipe2 rf wf) (hpc' : x'.pc = .user) :
    (∀ fd g, x'.desc fd = some g → x.desc fd = some g ∨ g = rf ∨ g = wf) ∧
      ∀ g, x'.refs g = x.refs g := by
  have hskips : x.pc.skips = none := by rw [hpc]; rfl
  have hskips' : x'.pc.skips = none := by rw [hpc']; rfl
  obtain ⟨a, b, ha, hb, ho⟩ := fdallocs_some h
  constructor
  · intro c g hc
    rw [desc_eq_ofile hskips', ho] at hc
    obtain rfl | hcb := eq_or_ne c b
    · rw [Function.update_self] at hc
      exact .inr (.inr (Option.some.inj hc).symm)
    · rw [Function.update_of_ne hcb] at hc
      obtain rfl | hca := eq_or_ne c a
      · rw [Function.update_self] at hc
        exact .inr (.inl (Option.some.inj hc).symm)
      · rw [Function.update_of_ne hca, ← desc_eq_ofile hskips] at hc
        exact .inl hc
  · -- one end after the other
    intro g
    obtain ⟨y, hy, hyo⟩ : ∃ y : Proc, y.pc = .pipe1 wf ∧
        y.ofile = Function.update x.ofile a (some rf) := ⟨⟨.active, _, _⟩, rfl, rfl⟩
    have hskipsy : y.pc.skips = none := by rw [hy]; rfl
    have hread := refs_write hskips hskipsy hyo g
    have hwrite := refs_write hskipsy hskips' (by rw [hyo]; exact ho) g
    rw [hpc, hy, ha] at hread
    rw [hy, hpc', hyo, hb] at hwrite
    simp [Pc.locals, List.count_cons] at hread hwrite
    omega

/-- `fork` copies a descriptor to the child. -/
theorem Sound.forkDup {fd' : Fin NOFILE} (h : Sound m) (hm : Moves m m' np x')
    (hpipes : m'.pipes = m.pipes) (hdup : Files.filedup m.ftable f = .ok m'.ftable)
    (hheld : (m.proc p).desc fd' = some f) (hpc : (m.proc np).pc = .user)
    (hfd : (m.proc np).ofile fd = none)
    (ho : x'.ofile = Function.update (m.proc np).ofile fd (some f)) (hpc' : x'.pc = .user) :
    Sound m' := by
  have hskips : (m.proc np).pc.skips = none := by rw [hpc]; rfl
  have hskips' : x'.pc.skips = none := by rw [hpc']; rfl
  apply h.gain hm hpipes hdup _ hheld
  case hdesc =>
    intro a g ha
    rw [desc_eq_ofile hskips', ho] at ha
    obtain rfl | hne := eq_or_ne a fd
    · rw [Function.update_self] at ha
      cases ha
      exact ⟨p, fd', hheld⟩
    · rw [Function.update_of_ne hne, ← desc_eq_ofile hskips] at ha
      exact ⟨np, a, ha⟩
  case hfresh =>
    intro g hg
    rw [hpc'] at hg
    cases hg
  case hclosing => rw [hpc, hpc']
  · intro g
    have hwrite := refs_write hskips hskips' ho g
    rw [hfd, hpc, hpc'] at hwrite
    simpa [Pc.locals] using hwrite

end Files
