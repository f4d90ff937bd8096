-- SUMMARY: The file table in every run of xv6: reference counts are exact, no panic is reached, and the page of a pipe lives exactly as long as an end of it is open.
import Mathlib.Algebra.Group.Action.Defs
import OsLabs.File.Steps

/-!
# Open files in every run
-/

namespace Files

open Lottery (NPROC)

variable {m m' : Machine} {p q : Pid} {fd : Fin NOFILE} {f : Fin NFILE}

/-! ## Processes -/

theorem set_proc_of_ne (h : q ≠ p) (x : Proc) : (m.set p x).proc q = m.proc q :=
  Function.update_of_ne h ..

theorem goto_set_proc {np : Pid} (h : p ≠ np) (y : Proc) (pc : Pc) :
    ((m.set np y).goto p pc).proc =
      Function.update (Function.update m.proc np y) p { m.proc p with pc := pc } := by
  unfold Machine.goto Machine.set
  simp only [Function.update_of_ne h]

/-- The loop of `exit` over the descriptors goes on. -/
theorem exit_next {o : Ofile} (h : ∀ a, a ≠ fd → a.val ≤ fd.val → o a = none) (hfd : o fd = none) :
    (Pc.exit (fd + 1)).Fits o := by
  intro a ha
  obtain rfl | hne := eq_or_ne a fd
  · exact hfd
  · exact h a hne (Nat.le_of_lt_succ ha)

/-- Having closed a descriptor, `exit` clears it. -/
theorem exit_clear {o : Ofile} (h : ∀ a, a < fd → o a = none) :
    (Pc.exit (fd + 1)).Fits (Function.update o fd none) := by
  apply exit_next
  · intro a hne hle
    rw [Function.update_of_ne hne]
    exact h a (lt_of_le_of_ne hle hne)
  · exact Function.update_self ..

theorem step_tidy (h : Tidy m.proc) (hp : (m.proc p).life = .active) (hstep : Step m p m') :
    Tidy m'.proc := by
  have hfits := h.fits p
  cases hstep with
  | @dup fd fd' f hpc hfd hnew =>
    apply h.run hp _ rfl
    have hne : fd ≠ fd' := by
      rintro rfl
      rw [fdalloc_some hnew] at hfd
      cases hfd
    refine ⟨Function.update_self .., fd, hne, ?_⟩
    rw [Function.update_of_ne hne]
    exact hfd
  | filedup => exact h.run hp trivial rfl
  | filedupPanic => exact h
  | close =>
    apply h.run hp _ rfl
    exact Nat.le_succ 1
  | fileclose hpc =>
    rw [hpc] at hfits
    apply h.run hp _ rfl
    exact Nat.le_of_succ_le hfits
  | filecloseEnd hpc =>
    rw [hpc] at hfits
    apply h.run hp _ rfl
    exact Nat.le_of_succ_le hfits
  | fileclosePanic => exact h
  | pipeclose hpc =>
    rw [hpc] at hfits
    exact h.run hp hfits rfl
  | pipecloseFreed => exact h
  | closed => exact h.run hp trivial rfl
  | pipe1 => exact h.run hp trivial rfl
  | pipe2 => exact h.run hp trivial rfl
  | pipe1Fail =>
    apply h.run hp _ rfl
    exact Nat.le_succ 1
  | pipe2Fail =>
    apply h.run hp _ rfl
    exact Nat.le_refl 2
  | pipe => exact h.run hp trivial rfl
  | pipeUndone =>
    apply h.run hp _ rfl
    exact Nat.le_refl 2
  | «open» => exact h.run hp trivial rfl
  | opened => exact h.run hp trivial rfl
  | openFail =>
    apply h.run hp _ rfl
    exact Nat.le_succ 1
  | fork hpc hfree =>
    rw [goto_set_proc]
    · exact h.forkStart hp hfree
    · rintro rfl
      simp [hp] at hfree
  | forkDup hpc hfd hdup =>
    rw [goto_set_proc (h.forker hpc).2.2]
    exact h.forkNext hpc fun a ha => Function.update_of_ne ha ..
  | forkPanic => exact h
  | @forkSkip np i hpc hnone =>
    have hnext := h.forkNext (o := (m.proc np).ofile) hpc fun _ _ => rfl
    rwa [Function.update_eq_self] at hnext
  | forked hpc =>
    rw [goto_set_proc (h.forker hpc).2.2]
    exact h.forkEnd hpc
  | exit =>
    apply h.run hp _ rfl
    intro a ha
    exact absurd ha (Nat.not_lt_zero _)
  | exitClose hpc =>
    rw [hpc] at hfits
    exact h.run hp (exit_clear hfits) rfl
  | exitEnd hpc =>
    rw [hpc] at hfits
    exact h.run hp hfits rfl
  | exitPanic => exact h
  | exitPipe hpc =>
    rw [hpc] at hfits
    exact h.run hp (exit_clear hfits) rfl
  | exitFreed => exact h
  | exitSkip hpc hnone =>
    rw [hpc] at hfits
    apply h.run hp _ rfl
    exact exit_next (fun a hne hle => hfits a (lt_of_le_of_ne hle (Fin.val_ne_of_ne hne))) hnone
  | exited hpc =>
    rw [hpc] at hfits
    apply h.exited _ (by simp [hp])
    exact fun a => hfits a a.isLt
  | io hpc hfd => exact h.run hp hfd rfl
  | ioPanic => exact h
  | ioFreed => exact h
  | ioDone => exact h.run hp trivial rfl

/-! ## References -/

theorem plain_user : Pc.user.Plain := ⟨rfl, rfl, rfl, rfl⟩

theorem plain_fork (np : Pid) (i : Nat) : (Pc.fork np i).Plain := ⟨rfl, rfl, rfl, rfl⟩

theorem plain_exit (i : Nat) : (Pc.exit i).Plain := ⟨rfl, rfl, rfl, rfl⟩

theorem plain_io (fd : Fin NOFILE) (f : Fin NFILE) : (Pc.io fd f).Plain := ⟨rfl, rfl, rfl, rfl⟩

theorem bind_end_eq_none {ff : Option File} (h : ∀ x, ff = some x → x.type ≠ .pipe) :
    ff.bind File.end = none := by
  cases ff with
  | none => rfl
  | some x => simp [File.end, h x rfl]

theorem end_of_pipe {x : File} (h : x.type = .pipe) : x.end = some (x.pipe, x.writable) := by
  simp [File.end, h]

/-- A descriptor counts before `exit` closes it, and after that it is skipped. -/
theorem desc_exitPipe {x : Proc} {pi : Nat} {w : Bool} (h : x.pc = .exitPipe pi w fd) :
    x.desc = Function.update x.ofile fd none := by
  funext a
  obtain rfl | ha := eq_or_ne a fd
  · simp [Proc.desc, Pc.skips, h]
  · simp [Proc.desc, Pc.skips, h, ha, ha.symm]

theorem Sound.fail (h : Sound m) (msg : String) : Sound (m.fail msg) :=
  ⟨h.ref, h.idle, h.fresh, h.typed, h.owners, h.live⟩

theorem step_sound (h : Sound m) (hs : Tidy m.proc) (hp : (m.proc p).life = .active)
    (hstep : Step m p m') : Sound m' := by
  cases hstep with
  | dup hpc hfd hnew => exact h.dup (moves_set ..) rfl rfl hpc (fdalloc_some hnew) rfl rfl
  | filedup hpc hdup => exact h.filedup (moves_set ..) hdup rfl hpc (hs.fits p) rfl rfl
  | filedupPanic => exact h.fail _
  | close hpc hfd => exact h.close (moves_set ..) rfl rfl hpc hfd rfl rfl
  | fileclose hpc hclose hff =>
    exact h.fileclose (moves_set ..) hclose rfl hpc rfl rfl rfl rfl (bind_end_eq_none hff).symm
  | filecloseEnd hpc hclose htype =>
    exact h.fileclose (moves_set ..) hclose rfl hpc rfl rfl rfl rfl (end_of_pipe htype).symm
  | fileclosePanic => exact h.fail _
  | pipeclose hpc hclose =>
    refine h.pipeclose (moves_set ..) rfl hclose ?_ ?_ ?_ ?_ ?_
    · rw [hpc]
      rfl
    · refine desc_congr rfl ?_
      rw [hpc]
      rfl
    · rw [hpc]
      rfl
    · rfl
    · rfl
  | pipecloseFreed => exact h.fail _
  | closed hpc =>
    refine h.plain (moves_set ..) rfl rfl rfl ?_ plain_user
    rw [hpc]
    exact ⟨rfl, rfl, rfl, rfl⟩
  | pipe1 hpc halloc =>
    refine h.filealloc (moves_set ..) halloc rfl rfl ?_ ?_ ?_ ?_ <;> rw [hpc]
    · rfl
    · intro g
      simp [Pc.locals, List.count_cons]
    · intro g hg
      exact .inr (List.mem_singleton.mp hg)
    · rfl
  | pipe2 hpc halloc =>
    refine h.filealloc (moves_set ..) halloc rfl rfl ?_ ?_ ?_ ?_ <;> rw [hpc]
    · rfl
    · intro g
      simp only [Pc.locals, List.count_cons, List.count_nil, beq_iff_eq]
      omega
    · intro g hg
      obtain rfl | hlast := List.mem_cons.mp hg
      · exact .inl (List.mem_singleton_self _)
      · exact .inr (List.mem_singleton.mp hlast)
    · rfl
  | pipe1Fail hpc => refine h.giveUp (moves_set ..) rfl rfl rfl rfl ?_ ?_ ?_ <;> rw [hpc] <;> rfl
  | pipe2Fail hpc => refine h.giveUp (moves_set ..) rfl rfl rfl rfl ?_ ?_ ?_ <;> rw [hpc] <;> rfl
  | @pipe rf wf pi o hpc hpage hfds =>
    obtain ⟨hdesc, hrefs⟩ := fdallocs_refs ⟨(m.proc p).life, o, .user⟩ hfds hpc rfl
    exact h.pipealloc (moves_set ..) hpage rfl rfl hpc rfl rfl hdesc hrefs
  | @pipeUndone rf wf pi hpc hpage =>
    have hdesc : ({ m.proc p with pc := .close [rf, wf] } : Proc).desc = (m.proc p).desc := by
      refine desc_congr rfl ?_
      rw [hpc]
      rfl
    refine h.pipealloc (moves_set ..) hpage rfl rfl hpc rfl rfl ?_ ?_
    · intro a g ha
      rw [hdesc] at ha
      exact .inl ha
    · intro g
      have hgoto := refs_congr_desc hdesc g
      rw [hpc] at hgoto
      exact Nat.add_right_cancel hgoto
  | «open» hpc halloc =>
    refine h.filealloc (moves_set ..) halloc rfl rfl ?_ ?_ ?_ ?_ <;> rw [hpc]
    · rfl
    · intro g
      simp [Pc.locals, List.count_cons]
    · intro g hg
      exact .inr (List.mem_singleton.mp hg)
    · rfl
  | opened hpc hnew htype =>
    exact h.opened (moves_set ..) rfl rfl htype hpc (fdalloc_some hnew) rfl rfl
  | openFail hpc => refine h.giveUp (moves_set ..) rfl rfl rfl rfl ?_ ?_ ?_ <;> rw [hpc] <;> rfl
  | @fork np hpc hfree =>
    have hne : p ≠ np := by
      rintro rfl
      simp [hp] at hfree
    have huser := hs.idle np (by simp [hfree])
    have hused : Sound (m.set np { m.proc np with life := .used }) := by
      refine h.plain (moves_set ..) rfl rfl rfl ?_ ?_ <;> rw [huser] <;> exact plain_user
    refine hused.plain (moves_set ..) rfl rfl rfl ?_ (plain_fork ..)
    rw [set_proc_of_ne hne, hpc]
    exact plain_user
  | @forkDup np i f t hpc hfd hdup =>
    obtain ⟨-, huser, hne⟩ := hs.forker hpc
    have hheld : (m.proc p).desc i = some f := by
      rw [desc_eq_ofile (by rw [hpc]; rfl), hfd]
    have hchild : Sound ({ m with ftable := t }.set np { m.proc np with
        ofile := Function.update (m.proc np).ofile i (some f) }) :=
      h.forkDup (moves_set ..) rfl hdup hheld huser ((hs.fork p np i hpc).2 i (Nat.le_refl i)) rfl
        huser
    refine hchild.plain (moves_set ..) rfl rfl rfl ?_ (plain_fork ..)
    rw [set_proc_of_ne hne]
    exact hpc ▸ plain_fork ..
  | forkPanic => exact h.fail _
  | forkSkip hpc =>
    refine h.plain (moves_set ..) rfl rfl rfl ?_ (plain_fork ..)
    rw [hpc]
    exact plain_fork ..
  | @forked np hpc =>
    obtain ⟨-, huser, hne⟩ := hs.forker hpc
    have hactive : Sound (m.set np { m.proc np with life := .active }) := by
      refine h.plain (moves_set ..) rfl rfl rfl ?_ ?_ <;> rw [huser] <;> exact plain_user
    refine hactive.plain (moves_set ..) rfl rfl rfl ?_ plain_user
    rw [set_proc_of_ne hne, hpc]
    exact plain_fork ..
  | exit hpc =>
    refine h.plain (moves_set ..) rfl rfl rfl ?_ (plain_exit 0)
    rw [hpc]
    exact plain_user
  | exitClose hpc hfd hclose hff =>
    exact h.exitClose (moves_set ..) hclose rfl hpc hfd (desc_eq_ofile rfl) rfl rfl
      (bind_end_eq_none hff).symm
  | exitEnd hpc hfd hclose htype =>
    exact h.exitClose (moves_set ..) hclose rfl hpc hfd (desc_exitPipe rfl) rfl rfl
      (end_of_pipe htype).symm
  | exitPanic => exact h.fail _
  | exitPipe hpc hclose =>
    refine h.pipeclose (moves_set ..) rfl hclose ?_ ?_ ?_ ?_ ?_
    · rw [hpc]
      rfl
    · rw [desc_exitPipe hpc]
      exact desc_eq_ofile rfl
    · rw [hpc]
      rfl
    · rfl
    · rfl
  | exitFreed => exact h.fail _
  | exitSkip hpc =>
    refine h.plain (moves_set ..) rfl rfl rfl ?_ (plain_exit _)
    rw [hpc]
    exact plain_exit _
  | exited hpc =>
    refine h.plain (moves_set ..) rfl rfl rfl ?_ plain_user
    rw [hpc]
    exact plain_exit _
  | io hpc =>
    refine h.plain (moves_set ..) rfl rfl rfl ?_ (plain_io ..)
    rw [hpc]
    exact plain_user
  | ioPanic => exact h.fail _
  | ioFreed => exact h.fail _
  | ioDone hpc =>
    refine h.plain (moves_set ..) rfl rfl rfl ?_ plain_user
    rw [hpc]
    exact plain_io ..

/-! ## Pipes in use -/

/-- In `piperead` and `pipewrite` the file is an end of a pipe. -/
def Piped (m : Machine) : Prop :=
  ∀ p fd f, (m.proc p).pc = .io fd f → (m.ftable f).type = .pipe

theorem filedup_type {t t' : Table} {g : Fin NFILE} (h : filedup t g = .ok t') (f : Fin NFILE) :
    (t' f).type = (t f).type := by
  rw [filedup_ok h]
  obtain rfl | hf := eq_or_ne f g
  · rw [Function.update_self]
  · rw [Function.update_of_ne hf]

theorem filealloc_type {t t' : Table} {g : Fin NFILE} (h : filealloc t = some (g, t'))
    (f : Fin NFILE) : (t' f).type = (t f).type := by
  rw [(filealloc_some h).2]
  obtain rfl | hf := eq_or_ne f g
  · rw [Function.update_self]
  · rw [Function.update_of_ne hf]

theorem fileclose_type {t t' : Table} {g : Fin NFILE} {ff : Option File}
    (h : fileclose t g = .ok (t', ff)) (f : Fin NFILE) :
    (t' f).ref = 0 ∨ (t' f).type = (t f).type := by
  obtain rfl | hf := eq_or_ne f g
  · obtain ⟨-, -, ht⟩ | ⟨-, -, ht⟩ := fileclose_ok h <;> rw [ht, Function.update_self]
    · exact .inr rfl
    · exact .inl rfl
  · obtain ⟨-, -, ht⟩ | ⟨-, -, ht⟩ := fileclose_ok h <;> rw [ht, Function.update_of_ne hf] <;>
      exact .inr rfl

theorem pipeFiles_type {t : Table} (h : (t f).type = .pipe) (rf wf : Fin NFILE) (pi : Nat) :
    (pipeFiles t rf wf pi f).type = .pipe := by
  unfold pipeFiles
  obtain rfl | hw := eq_or_ne f wf
  · simp
  · obtain rfl | hr := eq_or_ne f rf
    · simp [hw]
    · simp [hw, hr, h]

/-- An end of a pipe stays one as long as there are references to the file. -/
theorem step_type (h : Sound m) (h' : Sound m') (hstep : Step m p m')
    (hf : (m.ftable f).type = .pipe) (hpos : 0 < m'.refs f) : (m'.ftable f).type = .pipe := by
  have href : (m'.ftable f).ref ≠ 0 := by
    rw [h'.ref f]
    omega
  cases hstep with
  | filedup _ hdup => exact (filedup_type hdup f).trans hf
  | forkDup _ _ hdup => exact (filedup_type hdup f).trans hf
  | pipe1 _ halloc => exact (filealloc_type halloc f).trans hf
  | pipe2 _ halloc => exact (filealloc_type halloc f).trans hf
  | «open» _ halloc => exact (filealloc_type halloc f).trans hf
  | fileclose _ hclose => exact ((fileclose_type hclose f).resolve_left href).trans hf
  | filecloseEnd _ hclose => exact ((fileclose_type hclose f).resolve_left href).trans hf
  | exitClose _ _ hclose => exact ((fileclose_type hclose f).resolve_left href).trans hf
  | exitEnd _ _ hclose => exact ((fileclose_type hclose f).resolve_left href).trans hf
  | pipe => exact pipeFiles_type hf ..
  | pipeUndone => exact pipeFiles_type hf ..
  | @opened g fd type readable writable hpc =>
    have hne : f ≠ g := by
      rintro rfl
      have hnone := (h.fresh p f (by rw [hpc]; exact List.mem_singleton_self f)).1
      rw [hf] at hnone
      cases hnone
    exact (congrArg File.type (Function.update_of_ne hne ..)).trans hf
  | _ => exact hf

theorem goto_set_pc {np : Pid} {y : Proc} {pc : Pc} (hq : q ≠ p) (hy : y.pc = (m.proc np).pc) :
    (((m.set np y).goto p pc).proc q).pc = (m.proc q).pc := by
  unfold Machine.goto
  rw [set_proc_of_ne hq]
  obtain rfl | hne := eq_or_ne q np
  · rw [← hy]
    exact congrArg Proc.pc (Function.update_self ..)
  · rw [set_proc_of_ne hne]

/-- A step does not move the other processes. -/
theorem step_pc (hstep : Step m p m') (hq : q ≠ p) : (m'.proc q).pc = (m.proc q).pc := by
  cases hstep with
  | fork => exact goto_set_pc hq rfl
  | forkDup => exact goto_set_pc (m := { m with ftable := _ }) hq rfl
  | forked => exact goto_set_pc hq rfl
  | _ => first | rfl | exact congrArg Proc.pc (set_proc_of_ne hq _)

theorem set_pc (m : Machine) (p : Pid) (x : Proc) : ((m.set p x).proc p).pc = x.pc :=
  congrArg Proc.pc (Function.update_self ..)

theorem goto_pc (m : Machine) (p : Pid) (pc : Pc) : ((m.goto p pc).proc p).pc = pc := set_pc ..

/-- A process gets into `piperead` or `pipewrite` by a descriptor for an end of a pipe. -/
theorem step_io (hstep : Step m p m') (hp : (m'.proc p).pc = .io fd f) :
    (m.proc p).pc = .io fd f ∨ (m.ftable f).type = .pipe := by
  cases hstep with
  | io hpc hfd htype =>
    rw [goto_pc] at hp
    cases hp
    exact .inr htype
  | filedupPanic => exact .inl hp
  | fileclosePanic => exact .inl hp
  | pipecloseFreed => exact .inl hp
  | forkPanic => exact .inl hp
  | exitPanic => exact .inl hp
  | exitFreed => exact .inl hp
  | ioPanic => exact .inl hp
  | ioFreed => exact .inl hp
  | _ => first | (rw [goto_pc] at hp; cases hp) | (rw [set_pc] at hp; cases hp)

theorem step_piped (h : Sound m) (h' : Sound m') (hs' : Tidy m'.proc) (hpiped : Piped m)
    (hstep : Step m p m') : Piped m' := by
  intro q fd f hq
  have hfits := hs'.fits q
  rw [hq] at hfits
  have hheld : (m'.proc q).desc fd = some f := by
    rw [desc_eq_ofile (by rw [hq]; rfl)]
    exact hfits
  apply step_type h h' hstep _ (refs_of_desc hheld)
  obtain rfl | hne := eq_or_ne q p
  · exact (step_io hstep hq).elim (hpiped q fd f) id
  · rw [step_pc hstep hne] at hq
    exact hpiped q fd f hq

/-! ## No panic -/

theorem Sound.ref_pos (h : Sound m) (hf : 0 < (m.proc p).refs f) : ¬(m.ftable f).ref < 1 := by
  have hle := refs_le m p f
  rw [h.ref f]
  omega

theorem filedup_error {t : Table} {msg : String} (h : filedup t f = .error msg) : (t f).ref < 1 := by
  unfold filedup at h
  split at h
  · assumption
  · cases h

theorem fileclose_error {t : Table} {msg : String} (h : fileclose t f = .error msg) :
    (t f).ref < 1 := by
  unfold fileclose at h
  split at h
  · assumption
  · split at h <;> cases h

theorem pipeclose_error {pipes : Nat → Option Ends} {pi : Nat} {w : Bool} {msg : String}
    (h : pipeclose pipes pi w = .error msg) : pipes pi = none := by
  unfold pipeclose at h
  cases hx : pipes pi with
  | none => rfl
  | some x =>
    simp only [hx] at h
    split at h <;> cases h

theorem page_of_open {e : Nat × Bool} (h : m.isOpen e = true) : m.pipes e.1 ≠ none := by
  intro hnone
  simp [Machine.isOpen, hnone] at h

/-- An open file that is an end of a pipe has an open end. -/
theorem Sound.end_open (h : Sound m) {e : Nat × Bool} (hf : (m.ftable f).end = some e) :
    m.isOpen e = true := by
  have hpos := RefCount.refs_pos_of (h := fun g => (m.ftable g).end) (Finset.mem_univ f) hf
  have howners := h.owners e
  unfold Machine.owners at howners
  by_contra hopen
  rw [if_neg hopen] at howners
  omega

/-- A step reaches no panic, and no pipe whose page has been freed. -/
theorem step_fault (h : Sound m) (hs : Tidy m.proc) (hpiped : Piped m) (hfault : m.fault = none)
    (hstep : Step m p m') : m'.fault = none := by
  have hfits := hs.fits p
  cases hstep with
  | @filedupPanic fd f msg hpc hdup =>
    rw [hpc] at hfits
    obtain ⟨-, a, ha, hheld⟩ := hfits
    have hdesc : (m.proc p).desc a = some f := by
      simp [Proc.desc, Pc.skips, hpc, ha.symm, hheld]
    exact absurd (filedup_error hdup) (h.ref_pos (Proc.refs_of_desc hdesc))
  | @fileclosePanic f todo msg hpc hclose =>
    have hlocal : f ∈ (m.proc p).pc.locals := by
      rw [hpc]
      exact List.mem_cons_self
    exact absurd (fileclose_error hclose) (h.ref_pos (Proc.refs_of_local hlocal))
  | @pipecloseFreed pi w todo msg hpc hclose =>
    have hopen := h.closing_open (p := p) (e := (pi, w)) (by rw [hpc]; rfl)
    exact absurd (pipeclose_error hclose) (page_of_open hopen)
  | @forkPanic np i f msg hpc hfd hdup =>
    have hdesc : (m.proc p).desc i = some f := by
      rw [desc_eq_ofile (by rw [hpc]; rfl), hfd]
    exact absurd (filedup_error hdup) (h.ref_pos (Proc.refs_of_desc hdesc))
  | @exitPanic fd f msg hpc hfd hclose =>
    have hdesc : (m.proc p).desc fd = some f := by
      rw [desc_eq_ofile (by rw [hpc]; rfl), hfd]
    exact absurd (fileclose_error hclose) (h.ref_pos (Proc.refs_of_desc hdesc))
  | @exitFreed fd pi w msg hpc hclose =>
    have hopen := h.closing_open (p := p) (e := (pi, w)) (by rw [hpc]; rfl)
    exact absurd (pipeclose_error hclose) (page_of_open hopen)
  | @ioPanic fd f w hpc hfd htype =>
    have hdesc : (m.proc p).desc fd = some f := by
      rw [desc_eq_ofile (by rw [hpc]; rfl), hfd]
    exact absurd htype (h.typed p fd f hdesc)
  | @ioFreed fd f hpc hfree =>
    have hopen := h.end_open (end_of_pipe (hpiped p fd f hpc))
    exact absurd hfree (page_of_open hopen)
  | _ => exact hfault

/-! ## Every run -/

structure Good (m : Machine) : Prop where
  sound : Sound m
  tidy : Tidy m.proc
  piped : Piped m
  fault : m.fault = none

theorem refs_boot (f : Fin NFILE) : boot.refs f = 0 := by
  apply Finset.sum_eq_zero
  intro p _
  have hdesc : (boot.proc p).desc = fun _ => none := desc_eq_ofile rfl
  unfold Proc.refs
  rw [hdesc]
  simp [RefCount.refs, boot, Pc.locals]

theorem good_boot : Good boot := by
  constructor
  case fault => rfl
  case piped =>
    intro p fd f hp
    cases hp
  case tidy =>
    constructor
    case fits => exact fun p => trivial
    case idle => exact fun p _ => rfl
    case empty => exact fun p _ fd => rfl
    case fork =>
      intro p np i hp
      cases hp
    case sole =>
      intro p q np i j hp
      cases hp
  case sound =>
    constructor
    case ref =>
      intro f
      rw [refs_boot]
      rfl
    case idle => exact fun f _ => rfl
    case fresh =>
      intro p f hf
      cases hf
    case typed =>
      intro p fd f hf
      have hdesc : (boot.proc p).desc = fun _ => none := desc_eq_ofile rfl
      simp [hdesc] at hf
    case owners =>
      intro e
      simp [Machine.owners, RefCount.refs, Machine.isOpen, boot, File.end, Pc.closing]
    case live =>
      intro pi x hx
      cases hx

theorem good_step (h : Good m) (hstep : machine.step m p m') : Good m' := by
  obtain ⟨-, ⟨hp, hstep⟩ | ⟨hp, rfl⟩⟩ := hstep
  · have hs := step_sound h.sound h.tidy hp hstep
    have ht := step_tidy h.tidy hp hstep
    exact ⟨hs, ht, step_piped h.sound hs ht h.piped hstep,
      step_fault h.sound h.tidy h.piped h.fault hstep⟩
  · -- the parent takes a zombie away
    have huser := h.tidy.idle p (by simp [hp])
    constructor
    case sound =>
      refine h.sound.plain (moves_set ..) rfl rfl rfl ?_ ?_ <;> rw [huser] <;> exact plain_user
    case tidy =>
      have hgone := h.tidy.exited .unused (by simp [hp]) (h.tidy.empty p (.inr hp))
      rw [← huser] at hgone
      exact hgone
    case piped =>
      intro q fd f hq
      obtain rfl | hne := eq_or_ne q p
      · rw [set_pc] at hq
        exact h.piped q fd f hq
      · rw [set_proc_of_ne hne] at hq
        exact h.piped q fd f hq
    case fault => exact h.fault

theorem good_of_reachable (h : machine.Reachable m) : Good m := by
  refine h.invariant ?_ ?_
  · rintro s rfl
    exact good_boot
  · intro s e s' _ hs hstep
    exact good_step hs hstep

/-- A process refers to a file at most once for each descriptor, and by two variables. -/
theorem Proc.refs_le {x : Proc} (h : x.pc.Fits x.ofile) (f : Fin NFILE) : x.refs f ≤ NOFILE + 2 := by
  have hdesc : RefCount.refs Finset.univ x.desc f ≤ NOFILE := by
    simpa [RefCount.refs] using Finset.card_filter_le Finset.univ fun fd => x.desc fd = some f
  have hlocals : x.pc.locals.length ≤ 2 := by
    cases hpc : x.pc <;> rw [hpc] at h <;> first | exact h | simp [Pc.locals]
  have hcount := List.count_le_length (a := f) (l := x.pc.locals)
  unfold Proc.refs
  omega

/-- In every run, however the processes take turns, no section of the file layer panics or uses a
    pipe whose page has been freed. The count of each file is the number of references to it,
    and is small enough for an `int`. -/
theorem file_refs_exact (h : machine.Reachable m) :
    m.fault = none ∧ ∀ f, (m.ftable f).ref = m.refs f ∧ m.refs f ≤ NPROC * (NOFILE + 2) := by
  have hgood := good_of_reachable h
  refine ⟨hgood.fault, fun f => ⟨hgood.sound.ref f, ?_⟩⟩
  have hsum := Finset.sum_le_card_nsmul Finset.univ (fun p => (m.proc p).refs f) (NOFILE + 2)
    fun p _ => Proc.refs_le (hgood.tidy.fits p) f
  rwa [Finset.card_univ, Fintype.card_fin, smul_eq_mul] at hsum

theorem filealloc_boot : ∃ rf t wf t', filealloc boot.ftable = some (rf, t) ∧
    filealloc t = some (wf, t') := ⟨_, _, _, _, rfl, rfl⟩

/-- The first process makes a pipe. -/
theorem reachable_pipe (pi : Nat) : ∃ m rf, machine.Reachable m ∧
    m.pipes pi = some ⟨true, true⟩ ∧ (m.ftable rf).end = some (pi, false) := by
  obtain ⟨p, hp⟩ : ∃ p : Pid, p = ⟨0, by decide⟩ := ⟨_, rfl⟩
  have hlife : (boot.proc p).life = .active := by rw [hp]; rfl
  obtain ⟨rf, t, wf, t', hread, hwrite⟩ := filealloc_boot
  obtain ⟨m₁, hm₁⟩ : ∃ m, m = { boot with ftable := t }.goto p (.pipe1 rf) := ⟨_, rfl⟩
  have hproc₁ : m₁.proc p = { boot.proc p with pc := .pipe1 rf } := by
    rw [hm₁]
    exact Function.update_self ..
  have hreach₁ : machine.Reachable m₁ := by
    apply (TransitionSystem.Reachable.init rfl).step (e := p)
    rw [hm₁]
    exact ⟨rfl, .inl ⟨hlife, .pipe1 rfl hread⟩⟩
  obtain ⟨m₂, hm₂⟩ : ∃ m, m = { m₁ with ftable := t' }.goto p (.pipe2 rf wf) := ⟨_, rfl⟩
  have hproc₂ : m₂.proc p = { boot.proc p with pc := .pipe2 rf wf } := by
    rw [hm₂]
    refine (Function.update_self ..).trans ?_
    rw [hproc₁]
  have hreach₂ : machine.Reachable m₂ := by
    apply hreach₁.step (e := p)
    rw [hm₂]
    refine ⟨by rw [hm₁]; rfl, .inl ⟨by rw [hproc₁]; exact hlife, .pipe2 (by rw [hproc₁]) ?_⟩⟩
    rw [hm₁]
    exact hwrite
  obtain ⟨o, ho⟩ : ∃ o, fdallocs (fun _ => none) rf wf = some o := ⟨_, rfl⟩
  have hne := (good_of_reachable hreach₂).sound.pipe_ne (p := p) (by rw [hproc₂])
  have hstep : machine.step m₂ p ({ m₂ with
      ftable := pipeFiles m₂.ftable rf wf pi
      pipes := Function.update m₂.pipes pi (some ⟨true, true⟩) }.set p
        { m₂.proc p with ofile := o, pc := .user }) := by
    refine ⟨(good_of_reachable hreach₂).fault, .inl ⟨by rw [hproc₂]; exact hlife, ?_⟩⟩
    apply Step.pipe (by rw [hproc₂])
    · rw [hm₂, hm₁]
      rfl
    · rw [hproc₂]
      exact ho
  refine ⟨_, rf, hreach₂.step hstep, Function.update_self .., ?_⟩
  simp [Machine.set, pipeFiles, File.end, hne]

theorem file_refs_exact_pipe : ∃ m rf, machine.Reachable m ∧ (m.ftable rf).type = .pipe ∧
    m.fault = none ∧ (m.ftable rf).ref = m.refs rf := by
  obtain ⟨m, rf, hreach, -, hend⟩ := reachable_pipe 7
  obtain ⟨hfault, hrefs⟩ := file_refs_exact hreach
  refine ⟨m, rf, hreach, ?_, hfault, (hrefs rf).1⟩
  unfold File.end at hend
  split at hend
  · assumption
  · cases hend

theorem Sound.isOpen_iff (h : Sound m) (e : Nat × Bool) : m.isOpen e = true ↔
    (∃ f, (m.ftable f).end = some e) ∨ ∃ p, (m.proc p).pc.closing = some e := by
  constructor
  · intro hopen
    have howners := h.owners e
    rw [if_pos hopen] at howners
    unfold Machine.owners at howners
    obtain hpos | hpos : 0 < RefCount.refs Finset.univ (fun f => (m.ftable f).end) e ∨
        0 < RefCount.refs Finset.univ (fun p => (m.proc p).pc.closing) e := by omega
    · obtain ⟨f, -, hf⟩ := RefCount.refs_pos.mp hpos
      exact .inl ⟨f, hf⟩
    · obtain ⟨p, -, hp⟩ := RefCount.refs_pos.mp hpos
      exact .inr ⟨p, hp⟩
  · rintro (⟨f, hf⟩ | ⟨p, hp⟩)
    · exact h.end_open hf
    · exact h.closing_open hp

theorem Sound.page_iff (h : Sound m) (pi : Nat) :
    m.pipes pi ≠ none ↔ ∃ w, m.isOpen (pi, w) = true := by
  constructor
  · intro hpage
    obtain ⟨x, hx⟩ := Option.ne_none_iff_exists'.mp hpage
    unfold Machine.isOpen
    simp only [hx]
    obtain hread | hwrite := h.live pi x hx
    · exact ⟨false, hread⟩
    · exact ⟨true, hwrite⟩
  · rintro ⟨w, hopen⟩
    exact page_of_open hopen

theorem Sound.refs_of_end (h : Sound m) {e : Nat × Bool} (hf : (m.ftable f).end = some e) :
    0 < m.refs f := by
  apply Nat.pos_of_ne_zero
  intro hzero
  simp [File.end, h.idle f hzero] at hf

/-- In every run, the page of a pipe is one as long as somebody refers to a file that is an end of
    it, or is about to close an end. Its flags tell which ends those are, and no two files are
    the same end. -/
theorem pipe_lives_with_ends (h : machine.Reachable m) (pi : Nat) :
    (m.pipes pi ≠ none ↔ (∃ f w, (m.ftable f).end = some (pi, w) ∧ 0 < m.refs f) ∨
      ∃ p w, (m.proc p).pc.closing = some (pi, w)) ∧
    (∀ x w, m.pipes pi = some x → (x.isOpen w = true ↔
      (∃ f, (m.ftable f).end = some (pi, w)) ∨ ∃ p, (m.proc p).pc.closing = some (pi, w))) ∧
    ∀ f g w, (m.ftable f).end = some (pi, w) → (m.ftable g).end = some (pi, w) → f = g := by
  have hs := (good_of_reachable h).sound
  refine ⟨?_, ?_, ?_⟩
  · rw [hs.page_iff]
    constructor
    · rintro ⟨w, hopen⟩
      obtain ⟨f, hf⟩ | ⟨p, hp⟩ := (hs.isOpen_iff _).mp hopen
      · exact .inl ⟨f, w, hf, hs.refs_of_end hf⟩
      · exact .inr ⟨p, w, hp⟩
    · rintro (⟨f, w, hf, -⟩ | ⟨p, w, hp⟩)
      · exact ⟨w, hs.end_open hf⟩
      · exact ⟨w, hs.closing_open hp⟩
  · intro x w hx
    have hopen := hs.isOpen_iff (pi, w)
    unfold Machine.isOpen at hopen
    simp only [hx] at hopen
    exact hopen
  · intro f g w hf hg
    have howners := hs.owners (pi, w)
    have hle : RefCount.refs Finset.univ (fun f => (m.ftable f).end) (pi, w) ≤ 1 := by
      unfold Machine.owners at howners
      split at howners <;> omega
    exact RefCount.eq_of_refs_le_one hle (Finset.mem_univ f) (Finset.mem_univ g) hf hg

theorem pipe_lives_with_ends_open : ∃ m f w, machine.Reachable m ∧ m.pipes 7 = some ⟨true, true⟩ ∧
    (m.ftable f).end = some (7, w) ∧ m.pipes 7 ≠ none := by
  obtain ⟨m, rf, hreach, hpage, hend⟩ := reachable_pipe 7
  refine ⟨m, rf, false, hreach, hpage, hend, ?_⟩
  have hrefs := (good_of_reachable hreach).sound.refs_of_end hend
  exact (pipe_lives_with_ends hreach 7).1.mpr (.inl ⟨rf, false, hend, hrefs⟩)

end Files
