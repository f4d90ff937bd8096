-- SUMMARY: The array of system-call names is indexed with whatever the process asked to trace; when the index is in bounds, and when it is not.
import OsLabs.Syscall.Trace

/-!
# Indexing `syscalltitles`

At its end `syscall()` prints `syscalltitles[num]` if `num` is the process's tracer. The
range check on `num` is behind it by then: a number without a handler comes here as well,
after the line about an unknown system call. All that stands between such a number and the
array is that the process has not asked to trace it, and a process that has not asked for
anything traces 0.
-/

namespace Syscall

open CInt TransitionSystem
open Lottery (NPROC)

/-- `num` is an index of `syscalltitles` with a title. -/
def TitleOk (num : Int) : Prop :=
  0 ≤ num ∧ num ≤ SYS_sysinfo ∧ (syscalltitles num).isSome

/-- The index at which a step with label `l` evaluates `syscalltitles`, if it does. -/
def Kernel.titleIndex (k : Kernel) : Label → Option Int
  | .run i _ => ((k.proc i).pc.returns.map Prod.fst).filter fun num => (k.proc i).tracer = num
  | _        => none

theorem titleOk_iff {num : Int} : TitleOk num ↔ (syscalls num).isSome := by
  unfold TitleOk syscalltitles
  rw [Option.isSome_map, syscalls_isSome]
  omega

variable {k k' : Kernel} {l : Label} {tr : List (Kernel × Label)} {i : Nat} {e : Env} {num : Int}

theorem titleIndex_run : k.titleIndex (.run i e) = some num ↔
    (∃ v, (k.proc i).pc.returns = some (num, v)) ∧ (k.proc i).tracer = num := by
  simp [Kernel.titleIndex, Option.filter_eq_some_iff]

/-- The step that evaluates the array prints what it finds there. -/
theorem console_of_titleIndex (hs : kernel.step k (.run i e) k')
    (h : k.titleIndex (.run i e) = some num) :
    ∃ v, k'.console = k.console ++ [.trace (k.proc i).pid (syscalltitles num) v] := by
  obtain ⟨⟨v, hret⟩, htracer⟩ := titleIndex_run.mp h
  simp only [kernel, Kernel.step, Option.ite_none_right_eq_some] at hs
  refine ⟨wrap32 v, ?_⟩
  rw [sysret_of_returns hs.2 hret, sysret_console, if_pos htracer]

/-! ## Numbers without a handler -/

/-- The number of the system call that the process is in, where its handler has no place of
    its own in `Pc`. -/
def Pc.pending : Pc → Option Int
  | .call num _ => some num
  | .busy num   => some num
  | .ret num _  => some num
  | _           => none

theorem returns_pending {pc : Pc} {v : Int} (h : pc.returns = some (num, v))
    (hnum : syscalls num = none) : pc.pending = some num := by
  unfold Pc.returns at h
  split at h <;> cases h
  · rfl
  · cases hnum
  · cases hnum

theorem exit_pc {status : Int} (hrun : (k.proc i).state = .running)
    (h : exit k i status = some k') : (k'.proc i).pc = (k.proc i).pc := by
  have hstate : (k.proc i).state ≠ .unused := by simp [hrun]
  have hreparent := reparent_calms i k.initproc k.proc
  unfold exit at h
  split at h
  · cases h
  · cases h
    simp only [Function.update_self]
    split
    · exact (hreparent.trans (wakeup_calms none _ _ _)).pc i nofun hstate
    · exact hreparent.pc i nofun hstate

/-- The handlers with a place of their own in `Pc` return under their own number. -/
theorem forkScan_pending {j : Nat} {a : Alloc} (hnum : syscalls num = none) :
    ((forkScan k i j a).proc i).pc.pending ≠ some num := by
  have hne : SYS_fork ≠ num := by rintro rfl; cases hnum
  unfold forkScan
  split
  · split
    · unfold forkFound
      dsimp only
      split <;> simp [Pc.pending, hne]
    · simp [Pc.pending]
  · simp [Pc.pending, hne]

theorem wait_pending {addr : Nat} {ok : Bool} (hpc : (k.proc i).pc = .wait addr)
    (hnum : syscalls num = none) : ((wait k i addr ok).proc i).pc.pending ≠ some num := by
  have hne : SYS_wait ≠ num := by rintro rfl; cases hnum
  unfold wait
  split
  · split <;> simp [Pc.pending, hne]
  · split
    · simp [Pc.pending, hne]
    · simp [Kernel.set, Pc.pending, hpc]

theorem kill_pending {pid : Int} {j : Nat} (hnum : syscalls num = none) :
    ((kill k i pid j).proc i).pc.pending ≠ some num := by
  have hne : SYS_kill ≠ num := by rintro rfl; cases hnum
  unfold kill
  split
  · split <;> simp [Pc.pending, hne]
  · simp [Pc.pending, hne]

theorem aliveScan_pending {j n : Nat} (hnum : syscalls num = none) :
    ((aliveScan k i j n).proc i).pc.pending ≠ some num := by
  have hne : SYS_sysinfo ≠ num := by rintro rfl; cases hnum
  unfold aliveScan
  split <;> simp [Pc.pending, hne]

theorem sysret_pending {n v : Int} : ((sysret k i n v).proc i).pc.pending ≠ some num := by
  simp [sysret_proc, Pc.pending]

/-- `syscall()` keeps a number without a handler and calls nothing for it. -/
theorem dispatch_unhandled {n : Int} {a0 : Nat} (hnum : syscalls num = none)
    (hpend : ((dispatch k i n a0).proc i).pc.pending = some num) :
    n = num ∧ ((dispatch k i n a0).proc i).tracer = (k.proc i).tracer := by
  unfold dispatch at hpend ⊢
  split at hpend
  case h_1 hn =>
    rw [Kernel.goto_self] at hpend
    refine ⟨Option.some.inj hpend, ?_⟩
    simp only [Kernel.goto_self]
    rfl
  all_goals
    rename_i hn
    simp only [Kernel.goto_self, Kernel.set, Function.update_self, Pc.pending, reduceCtorEq,
      Option.some.injEq] at hpend
  all_goals
    subst hpend
    rw [hn] at hnum
    cases hnum

/-- A process gets to a number without a handler by an `ecall` with that number only, which it
    makes before it is killed, and on its way keeps its tracer. -/
theorem run_unhandled (hrun : (k.proc i).state = .running) (hs : k.run i e = some k')
    (hnum : syscalls num = none) (hpend : (k'.proc i).pc.pending = some num) :
    (k'.proc i).tracer = (k.proc i).tracer ∧
      ((k.proc i).pc.pending = some num ∨
        ∃ a7 a0, e = .ecall a7 a0 ∧ wrap32 a7 = num ∧ (k.proc i).killed = false) := by
  unfold Kernel.run at hs
  split at hs
  case h_1 a7 a0 hpc =>
    cases hs
    rw [Kernel.goto_self] at hpend ⊢
    split at hpend
    · cases hpend
    · rename_i halive
      exact ⟨rfl, .inr ⟨a7, a0, rfl, Option.some.inj hpend, by simpa using halive⟩⟩
  case h_4 n a0 hpc =>
    cases hs
    obtain ⟨rfl, htracer⟩ := dispatch_unhandled hnum hpend
    exact ⟨htracer, .inl (by rw [hpc]; rfl)⟩
  case h_5 =>
    cases hs
    exact absurd hpend (forkScan_pending hnum)
  case h_8 =>
    cases hs
    exact absurd hpend sysret_pending
  case h_9 hpc =>
    rw [exit_pc hrun hs, hpc] at hpend
    cases hpend
  case h_11 hpc =>
    cases hs
    exact absurd hpend (wait_pending hpc hnum)
  case h_12 =>
    cases hs
    exact absurd hpend sysret_pending
  case h_13 =>
    cases hs
    exact absurd hpend (kill_pending hnum)
  case h_14 =>
    cases hs
    exact absurd hpend (aliveScan_pending hnum)
  case h_15 =>
    -- asleep in the handler
    cases hs
    simp only [Kernel.set, Function.update_self] at hpend ⊢
    exact ⟨trivial, .inl hpend⟩
  case h_16 hpc =>
    cases hs
    rw [Kernel.goto_self] at hpend ⊢
    exact ⟨rfl, .inl (by rw [hpc]; exact hpend)⟩
  case h_17 =>
    cases hs
    exact absurd hpend sysret_pending
  case h_18 =>
    cases hs
    rw [Kernel.goto_self] at hpend
    split at hpend <;> cases hpend
  case h_19 => cases hs
  all_goals
    cases hs
    simp_all [Kernel.set, Pc.pending]

/-- A slot whose process does not run in a step holds what it held, or a process that has yet
    to start. -/
theorem Moved.other {a : Nat} (hk : k.Ok) (h : Moved k l k') (hrunner : l.runner ≠ some a)
    (hstate : (k'.proc a).state ≠ .unused) : (k'.proc a).pc = .user ∨
      (k.proc a).state ≠ .unused ∧ (k'.proc a).pc = (k.proc a).pc ∧
        (k'.proc a).tracer = (k.proc a).tracer := by
  have hrest : k'.proc a = k.proc a → (k'.proc a).pc = .user ∨
      (k.proc a).state ≠ .unused ∧ (k'.proc a).pc = (k.proc a).pc ∧
        (k'.proc a).tracer = (k.proc a).tracer := by
    intro hsame
    rw [hsame] at hstate ⊢
    exact .inr ⟨hstate, rfl, rfl⟩
  have hne : ∀ {i : Nat} {e : Env}, l = .run i e → a ≠ i := by
    rintro i e rfl rfl
    exact hrunner rfl
  cases h with
  | calm hev hcalm =>
      have hused := mt (hcalm.calm a).unused.mpr hstate
      have htracer := (hcalm.calm a).tracer.resolve_right fun hfree => hstate hfree.1
      exact .inr ⟨hused, hcalm.pc a hrunner hused, htracer⟩
  | trace hev hrun howed hpc hproc => exact hrest (by rw [hproc, Function.update_of_ne (hne rfl)])
  | @create i j e _ np pid hev hj hij hrun howed hunused hproc hused htracer hpc =>
      rw [Function.update_comm hij.symm] at hproc
      obtain rfl | haj := eq_or_ne a j
      · exact .inl (by rw [hproc, Function.update_self, hpc])
      · exact hrest (by rw [hproc, Function.update_of_ne haj, Function.update_of_ne (hne rfl)])
  | @ready i np e _ pid hev hnp hrun hpc hproc =>
      rw [Function.update_comm hnp.symm] at hproc
      obtain rfl | ha := eq_or_ne a np
      · have hused : (k.proc a).state = .used := hk.child i a (by rw [hpc]; rfl)
        rw [hproc, Function.update_self]
        exact .inr ⟨by simp [hused], rfl, rfl⟩
      · exact hrest (by rw [hproc, Function.update_of_ne ha, Function.update_of_ne (hne rfl)])
  | @reap i j e _ pid hev hj hij hrun howed hzombie hproc =>
      rw [Function.update_comm hij.symm] at hproc
      obtain rfl | ha := eq_or_ne a j
      · rw [hproc, Function.update_self] at hstate
        exact absurd rfl hstate
      · exact hrest (by rw [hproc, Function.update_of_ne ha, Function.update_of_ne (hne rfl)])
  | forked hev howed hproc => exact hrest (by rw [hproc, Function.update_of_ne (hne rfl)])
  | waited hev howed hproc => exact hrest (by rw [hproc, Function.update_of_ne (hne rfl)])

/-- No process that has come to the kernel with a number without a handler traces it. -/
def Kernel.TitlesOk (k : Kernel) : Prop :=
  ∀ i, (k.proc i).state ≠ .unused → ∀ num, syscalls num = none →
    (k.proc i).pc.pending = some num → (k.proc i).tracer ≠ num

/-- `n` is the argument of the last `trace()` call of the process that is now in slot `i`. No
    call at all counts as `trace(0)`. -/
def Asked (i : Nat) (n : Int) (tr : List (Kernel × Label)) : Prop :=
  (n ≠ 0 → LastTrace i n tr) ∧ (n = 0 → ∀ m ≠ 0, ¬ LastTrace i m tr)

theorem tracer_eq_iff (hrun : kernel.Run boot tr k) (hstate : (k.proc i).state ≠ .unused) :
    (k.proc i).tracer = num ↔ Asked i num tr := by
  have hlast := (run_tracers hrun i).last hstate
  constructor
  · rintro rfl
    refine ⟨fun hne => (hlast _ hne).mp rfl, fun hzero m hm => ?_⟩
    rw [← hlast m hm, hzero]
    exact hm.symm
  · rintro ⟨hsome, hnone⟩
    by_cases hzero : num = 0
    · subst hzero
      by_contra htracer
      exact hnone rfl _ htracer ((hlast _ htracer).mp rfl)
    · exact (hlast num hzero).mpr (hsome hzero)

/-- The step is no `ecall` with a number that has no handler and that the process asked to
    trace. An `ecall` of a killed process does not count: `usertrap` ends it before `syscall`. -/
def Proper (tr : List (Kernel × Label)) (q : Kernel × Label) : Prop :=
  ∀ i a7 a0, q.2 = .run i (.ecall a7 a0) → (q.1.proc i).killed = false →
    syscalls (wrap32 a7) = none → ¬ Asked i (wrap32 a7) tr

theorem step_titles (hrun : kernel.Run boot tr k) (h : k.TitlesOk) (hproper : Proper tr (k, l))
    (hs : kernel.step k l k') : k'.TitlesOk := by
  intro a hstate num hnum hpend
  by_cases hrunner : l.runner = some a
  · cases l with
    | run i e =>
        cases hrunner
        simp only [kernel, Kernel.step, Option.ite_none_right_eq_some] at hs
        obtain ⟨⟨-, hrunning⟩, hs⟩ := hs
        have hused : (k.proc a).state ≠ .unused := by simp [hrunning]
        obtain ⟨htracer, hpend' | ⟨a7, a0, rfl, rfl, halive⟩⟩ :=
          run_unhandled hrunning hs hnum hpend
        · rw [htracer]
          exact h a hused num hnum hpend'
        · rw [htracer, ne_eq, tracer_eq_iff hrun hused]
          exact hproper a a7 a0 rfl halive hnum
    | dispatch i => cases hrunner
    | yield i => cases hrunner
    | wakeup me c j => cases hrunner
  · have hok : k.Ok := kernel_ok ⟨boot, tr, rfl, hrun⟩
    rcases (moved_of_step hok hs).other hok hrunner hstate with hpc | ⟨hused, hpc, htracer⟩
    · rw [hpc] at hpend
      cases hpend
    · rw [htracer]
      exact h a hused num hnum (hpc ▸ hpend)

theorem init_titles : boot.TitlesOk := by
  intro i _ num _ hpend
  have hpc : (boot.proc i).pc = .user := by
    unfold boot
    dsimp only
    split <;> rfl
  rw [hpc] at hpend
  cases hpend

/-- All steps of a run are proper, each after the steps before it. -/
def AllProper (tr : List (Kernel × Label)) : Prop :=
  ∀ pre q post, tr = pre ++ q :: post → Proper pre q

theorem AllProper.snoc_inv {q : Kernel × Label} (h : AllProper (tr ++ [q])) :
    AllProper tr ∧ Proper tr q := by
  constructor
  · intro pre q' post htr
    exact h pre q' (post ++ [q]) (by simp [htr])
  · exact h tr q [] rfl

theorem run_titles (hrun : kernel.Run boot tr k) (h : AllProper tr) : k.TitlesOk := by
  revert h
  apply hrun.history (I := fun tr k => AllProper tr → k.TitlesOk) fun _ => init_titles
  intro tr k l k' hr ih hs hproper
  exact step_titles hr (ih hproper.snoc_inv.1) hproper.snoc_inv.2 hs

theorem Kernel.TitlesOk.titleOk (h : k.TitlesOk) (hs : kernel.step k l k')
    (hindex : k.titleIndex l = some num) : TitleOk num := by
  cases l with
  | run i e =>
      simp only [kernel, Kernel.step, Option.ite_none_right_eq_some] at hs
      obtain ⟨⟨v, hret⟩, htracer⟩ := titleIndex_run.mp hindex
      rw [titleOk_iff, Option.isSome_iff_ne_none]
      intro hnum
      exact h i (by simp [hs.1.2]) num hnum (returns_pending hret hnum) htracer
  | dispatch i => cases hindex
  | yield i => cases hindex
  | wakeup me c j => cases hindex

/-- A number without a handler that the process traces: the array is indexed with it after the
    line about an unknown system call. -/
theorem titleIndex_of_call {a0 : Nat} (hi : i < NPROC) (hrunning : (k.proc i).state = .running)
    (hpc : (k.proc i).pc = .call num a0) (hnum : syscalls num = none)
    (htracer : (k.proc i).tracer = num) :
    ∃ k₁ k₂, kernel.step k (.run i .none) k₁ ∧ kernel.step k₁ (.run i .none) k₂ ∧
      k₁.titleIndex (.run i .none) = some num := by
  have hself : (dispatch k i num a0).proc i = { k.proc i with pc := .ret num (-1) } := by
    simp only [dispatch, hnum, Kernel.goto_self]
    rfl
  refine ⟨dispatch k i num a0, sysret (dispatch k i num a0) i num (-1), ?_, ?_, ?_⟩
  · simp [kernel, Kernel.step, Kernel.run, hi, hrunning, hpc]
  · simp [kernel, Kernel.step, Kernel.run, hi, hrunning, hself]
  · rw [titleIndex_run, hself]
    exact ⟨⟨-1, rfl⟩, htracer⟩

/-- An `ecall` of a process that is not killed. -/
theorem ecall_step {a7 a0 : Nat} (hs : kernel.step k (.run i (.ecall a7 a0)) k')
    (halive : (k.proc i).killed = false) : i < NPROC ∧ (k.proc i).state = .running ∧
      k'.proc i = { k.proc i with pc := .call (wrap32 a7) a0 } := by
  simp only [kernel, Kernel.step, Option.ite_none_right_eq_some] at hs
  obtain ⟨⟨hi, hrunning⟩, hs⟩ := hs
  refine ⟨hi, hrunning, ?_⟩
  unfold Kernel.run at hs
  split at hs
  case h_1 he =>
    cases he
    cases hs
    simp [halive]
  all_goals simp_all

/-- In a run without an `ecall` whose number has no handler but is the one its process asked to
    trace, every evaluation of `syscalltitles` is at an index of the array with a title. Such an
    `ecall` leads to one that is not. `ecall`s of killed processes do not matter. -/
theorem titles_in_bounds (hrun : kernel.Run boot tr k) :
    (AllProper tr → ∀ pre q post, tr = pre ++ q :: post → ∀ num, q.1.titleIndex q.2 = some num →
      TitleOk num) ∧
    ∀ i a7 a0 k', kernel.step k (.run i (.ecall a7 a0)) k' →
      ¬ Proper tr (k, .run i (.ecall a7 a0)) →
      ∃ k₁ k₂, kernel.step k' (.run i .none) k₁ ∧ kernel.step k₁ (.run i .none) k₂ ∧
        ∃ num, k₁.titleIndex (.run i .none) = some num ∧ ¬ TitleOk num := by
  constructor
  · intro hproper pre q post htr num hindex
    subst htr
    obtain ⟨t, hr, hs⟩ := hrun.split
    have hpre : AllProper pre := by
      intro pre' q' post' hpre
      exact hproper pre' q' (post' ++ q :: post) (by simp [hpre])
    exact (run_titles hr hpre).titleOk hs hindex
  · intro i a7 a0 k' hs himproper
    unfold Proper at himproper
    push Not at himproper
    obtain ⟨_, _, _, hlabel, halive, hnum, hasked⟩ := himproper
    cases hlabel
    obtain ⟨hi, hrunning, hcall⟩ := ecall_step hs halive
    have htracer := (tracer_eq_iff (i := i) hrun (by simp [hrunning])).mpr hasked
    obtain ⟨k₁, k₂, hs₁, hs₂, hindex⟩ := titleIndex_of_call hi (by rw [hcall, hrunning])
      (by rw [hcall]) hnum (by rw [hcall, htracer])
    refine ⟨k₁, k₂, hs₁, hs₂, _, hindex, ?_⟩
    rw [titleOk_iff, hnum]
    nofun

theorem allProper_of_handled
    (h : ∀ i a7 a0 : Nat, .run i (.ecall a7 a0) ∈ tr.map Prod.snd → syscalls (wrap32 a7) ≠ none) :
    AllProper tr := by
  intro pre q post htr i a7 a0 hlabel _ hnum
  refine absurd hnum (h i a7 a0 ?_)
  rw [← hlabel, htr]
  simp

/-- The first process asks to trace `getpid` and calls it. -/
def traceGetpid : List Label :=
  [.dispatch 0, .run 0 (.ecall 22 11), .run 0 .none, .run 0 .none, .run 0 .none,
    .run 0 (.ecall 11 0), .run 0 .none, .run 0 .none]

/-- The title of `getpid` is read in bounds. -/
theorem titles_in_bounds_getpid : ∃ tr k, kernel.Run boot tr k ∧ AllProper tr ∧
    (∃ pre q post, tr = pre ++ q :: post ∧ q.1.titleIndex q.2 = some 11) ∧ TitleOk 11 := by
  obtain ⟨tr, k, hrun, hlabels, hp⟩ := exists_run_of_play (M := kernel) (fun _ _ _ h => h)
    traceGetpid boot
    (fun tr _ => decide (tr[7]?.bind (fun q : Kernel × Label => q.1.titleIndex q.2) = some 11))
    (by decide +kernel)
  have hproper : AllProper tr := by
    apply allProper_of_handled
    intro i a7 a0 hmem
    rw [hlabels] at hmem
    simp only [traceGetpid, List.mem_cons, Label.run.injEq, Env.ecall.injEq] at hmem
    have ha7 : a7 = 22 ∨ a7 = 11 := by simp_all; omega
    rcases ha7 with rfl | rfl <;> decide
  obtain ⟨q, hq, hindex⟩ := Option.bind_eq_some_iff.mp (of_decide_eq_true hp)
  obtain ⟨pre, post, htr⟩ := List.append_of_mem (List.mem_of_getElem? hq)
  exact ⟨tr, k, hrun, hproper, ⟨pre, q, post, htr, hindex⟩,
    (titles_in_bounds hrun).1 hproper pre q post htr 11 hindex⟩

/-- A number without a handler that is looked up where a run along `labels` ends. -/
theorem exists_title_out_of_bounds (labels : List Label) (hnum : syscalls num = none)
    (hplay : ((play Kernel.step labels boot).any fun r =>
      decide (r.2.titleIndex (.run 0 .none) = some num ∧ (r.2.step (.run 0 .none)).isSome)) = true) :
    ∃ tr k k', kernel.Run boot tr k ∧ tr.map Prod.snd = labels ∧
      kernel.step k (.run 0 .none) k' ∧ k.titleIndex (.run 0 .none) = some num ∧
      ¬ TitleOk num := by
  obtain ⟨tr, k, hrun, hlabels, hp⟩ := exists_run_of_play (M := kernel) (fun _ _ _ h => h) labels
    boot (fun _ k => decide (k.titleIndex (.run 0 .none) = some num ∧
      (k.step (.run 0 .none)).isSome)) hplay
  obtain ⟨hindex, hs⟩ := of_decide_eq_true hp
  obtain ⟨k', hs⟩ := Option.isSome_iff_exists.mp hs
  exact ⟨tr, k, k', hrun, hlabels, hs, hindex, by rw [titleOk_iff, hnum]; nofun⟩

/-- A process asks to trace the number 100, which no system call has, and then makes an `ecall`
    with it. A process that has asked for nothing makes an `ecall` with 0. -/
theorem titles_out_of_bounds :
    (∃ tr k k', kernel.Run boot tr k ∧
      tr.map Prod.snd = [.dispatch 0, .run 0 (.ecall 22 100), .run 0 .none, .run 0 .none,
        .run 0 .none, .run 0 (.ecall 100 0), .run 0 .none] ∧
      kernel.step k (.run 0 .none) k' ∧ k.titleIndex (.run 0 .none) = some 100 ∧ ¬ TitleOk 100) ∧
    ∃ tr k k', kernel.Run boot tr k ∧
      tr.map Prod.snd = [.dispatch 0, .run 0 (.ecall 0 0), .run 0 .none] ∧
      kernel.step k (.run 0 .none) k' ∧ k.titleIndex (.run 0 .none) = some 0 ∧ ¬ TitleOk 0 := by
  constructor
  · exact exists_title_out_of_bounds _ (by decide) (by decide +kernel)
  · exact exists_title_out_of_bounds _ (by decide) (by decide +kernel)

end Syscall
