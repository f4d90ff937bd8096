-- SUMMARY: System-call tracing: a trace line is printed for a call exactly when the process itself last asked for it.
import OsLabs.Syscall.Events

/-!
# Tracing

`tracer` is written by `sys_trace` and cleared by `freeproc`; `fork` does not copy it and
`allocproc` does not set it. So the value a process finds in its slot is its own only if
every way a slot becomes UNUSED again goes through `freeproc`. The invariant of this file
reads the tracer of every slot off the recorded steps.
-/

namespace Syscall

open CInt TransitionSystem

/-- The step calls `trace(n)` in slot `i`. -/
def Traces (i : Nat) (n : Int) (q : Kernel × Label) : Prop :=
  q.1.event q.2 = some (.trace i n)

/-- The step creates the process in slot `i`. -/
def Creates (i : Nat) (q : Kernel × Label) : Prop :=
  q.1.event q.2 = some (.create i)

/-- The last `trace()` call of the process that is now in slot `i`, since its creation,
    had the argument `n`. -/
def LastTrace (i : Nat) (n : Int) (tr : List (Kernel × Label)) : Prop :=
  Since (Traces i n) (fun q => ¬ Creates i q ∧ ∀ m, ¬ Traces i m q) tr

variable {k k' : Kernel} {l : Label} {tr : List (Kernel × Label)} {i : Nat} {n : Int}

/-- Steps that are no event for slot `i` leave its last `trace()` call what it is. -/
theorem lastTrace_of_other (h : ∀ ev, k.event l = some ev → ev.slot ≠ some i) :
    LastTrace i n (tr ++ [(k, l)]) ↔ LastTrace i n tr := by
  have htrace : ∀ m, ¬ Traces i m (k, l) := fun m hm => h _ hm rfl
  have hcreate : ¬ Creates i (k, l) := fun hc => h _ hc rfl
  unfold LastTrace
  rw [since_snoc]
  constructor
  · rintro (h' | h')
    · exact absurd h' (htrace n)
    · exact h'.1
  · intro h'
    exact .inr ⟨h', hcreate, htrace⟩

theorem lastTrace_of_trace {arg : Int} (h : k.event l = some (.trace i arg)) :
    LastTrace i n (tr ++ [(k, l)]) ↔ arg = n := by
  unfold LastTrace
  rw [since_snoc]
  constructor
  · rintro (h' | ⟨-, -, h'⟩)
    · rw [Traces, h] at h'
      cases h'
      rfl
    · exact absurd h (h' arg)
  · rintro rfl
    exact .inl h

theorem not_lastTrace_of_create (h : k.event l = some (.create i)) :
    ¬ LastTrace i n (tr ++ [(k, l)]) := by
  unfold LastTrace
  rw [since_snoc]
  rintro (h' | ⟨-, h', -⟩)
  · rw [Traces, h] at h'
    cases h'
  · exact h' h

/-- The tracer of a slot is what the recorded steps say: 0 in an unused slot, and the
    argument of the last `trace()` call of its own process in any other, where 0 stands
    for none. -/
structure Proc.TracerOk (p : Proc) (i : Nat) (tr : List (Kernel × Label)) : Prop where
  unused : p.state = .unused → p.tracer = 0
  last : p.state ≠ .unused → ∀ n ≠ 0, p.tracer = n ↔ LastTrace i n tr

def TracersOk (tr : List (Kernel × Label)) (k : Kernel) : Prop := ∀ i, (k.proc i).TracerOk i tr

/-- A step that is no event for slot `i` and leaves its tracer, or clears it with the
    slot. -/
theorem Proc.TracerOk.keep {p q : Proc} (h : p.TracerOk i tr)
    (hother : ∀ ev, k.event l = some ev → ev.slot ≠ some i)
    (hunused : p.state = .unused → q.state = .unused)
    (htracer : q.tracer = p.tracer ∧ (q.state = .unused → p.state = .unused) ∨
      q.state = .unused ∧ q.tracer = 0) : q.TracerOk i (tr ++ [(k, l)]) := by
  constructor
  · intro hq
    rcases htracer with ⟨htracer, hp⟩ | ⟨-, htracer⟩
    · rw [htracer, h.unused (hp hq)]
    · exact htracer
  · intro hq n hn
    rw [lastTrace_of_other hother, ← h.last (mt hunused hq) n hn]
    rcases htracer with ⟨htracer, -⟩ | ⟨hq', -⟩
    · rw [htracer]
    · exact absurd hq' hq

theorem init_tracers (h : kernel.init k) : TracersOk [] k := by
  cases h
  intro i
  have htracer : (boot.proc i).tracer = 0 := by
    unfold boot
    dsimp only
    split <;> rfl
  refine ⟨fun _ => htracer, fun _ n hn => ?_⟩
  rw [htracer]
  exact iff_of_false hn.symm not_since_nil

theorem step_tracers (hk : k.Ok) (h : TracersOk tr k) (hs : kernel.step k l k') :
    TracersOk (tr ++ [(k, l)]) k' := by
  intro a
  have hslot := slot_of_step hk hs a
  generalize k'.proc a = q at hslot
  cases hslot with
  | calm hother hcalm =>
      apply (h a).keep (fun ev hev => (hother ev hev).1) hcalm.unused.mpr
      exact hcalm.tracer.imp (fun htracer => ⟨htracer, hcalm.unused.mp⟩) id
  | onward hother => exact (h a).keep hother id (.inl ⟨rfl, id⟩)
  | traced hev _ hrun => exact ⟨by simp [hrun], fun _ n _ => (lastTrace_of_trace hev).symm⟩
  | created hev _ hunused hstate htracer =>
      -- the slot was unused, so the new process starts with tracer 0
      have hzero : q.tracer = 0 := htracer.trans ((h a).unused hunused)
      refine ⟨fun _ => hzero, fun _ n hn => ?_⟩
      rw [hzero]
      exact iff_of_false hn.symm (not_lastTrace_of_create hev)
  | ready hev _ hused =>
      exact (h a).keep (by simp [hev]) (by simp [hused]) (.inl ⟨rfl, nofun⟩)
  | freed hev => exact ⟨fun _ => rfl, fun hfree => absurd rfl hfree⟩

theorem run_tracers (hrun : kernel.Run boot tr k) : TracersOk tr k := by
  apply hrun.history (I := TracersOk) (init_tracers rfl)
  intro tr t l t' hr h hs
  exact step_tracers (kernel_ok ⟨boot, tr, rfl, hr⟩) h hs

/-! ## Trace lines -/

/-- The handler of which system call is about to return to `syscall()`, and what. -/
def Pc.returns : Pc → Option (Int × Int)
  | .ret num v  => some (num, v)
  | .forked pid => some (SYS_fork, pid)
  | .reaped pid => some (SYS_wait, pid)
  | _           => none

theorem sysret_of_returns {e : Env} {num v : Int} (hs : k.run i e = some k')
    (hret : (k.proc i).pc.returns = some (num, v)) : k' = sysret k i num v := by
  unfold Kernel.run at hs
  split at hs <;> rename_i hpc <;> simp_all [Pc.returns]

theorem sysret_console (k : Kernel) (i : Nat) (num v : Int) :
    (sysret k i num v).console = if (k.proc i).tracer = num then
      k.console ++ [.trace (k.proc i).pid (syscalltitles num) (wrap32 v)] else k.console := by
  unfold sysret
  dsimp only
  split <;> rfl

/-- When the handler of a valid system call returns to `syscall()`, a line with the pid of
    the process, the name of the call and its return value is printed if the last `trace()`
    call that this very process has made since its creation, this call included, asked for
    this number. Otherwise nothing is printed. -/
theorem trace_line_iff {e : Env} {num v : Int} (hrun : kernel.Run boot tr k)
    (hs : kernel.step k (.run i e) k') (hret : (k.proc i).pc.returns = some (num, v))
    (hnum : 1 ≤ num ∧ num ≤ SYS_sysinfo) :
    (LastTrace i num tr → ∃ title, syscalltitles num = some title ∧
      k'.console = k.console ++ [.trace (k.proc i).pid (some title) (wrap32 v)]) ∧
    (¬ LastTrace i num tr → k'.console = k.console) := by
  simp only [kernel, Kernel.step, Option.ite_none_right_eq_some] at hs
  obtain ⟨⟨-, hstate⟩, hs⟩ := hs
  have hiff : (k.proc i).tracer = num ↔ LastTrace i num tr := by
    apply (run_tracers hrun i).last (by simp [hstate])
    omega
  obtain ⟨sys, hsys⟩ := Option.isSome_iff_exists.mp (syscalls_isSome.mpr hnum)
  rw [sysret_of_returns hs hret, sysret_console, ← hiff]
  constructor
  · intro htracer
    rw [if_pos htracer]
    exact ⟨sys.title, by simp [syscalltitles, hsys], by simp [syscalltitles, hsys]⟩
  · intro htracer
    exact if_neg htracer

/-- The first process asks to trace `getpid` and forks; then it and its child call
    `getpid`. -/
def traceForkGetpid : List Label :=
  [.dispatch 0, .run 0 (.ecall 22 11), .run 0 .none, .run 0 .none, .run 0 .none,
    .run 0 (.ecall 1 0), .run 0 .none, .run 0 (.alloc .ok), .run 0 (.alloc .ok), .run 0 .none,
    .run 0 .none, .run 0 .none, .run 0 .none, .dispatch 1,
    .run 0 (.ecall 11 0), .run 0 .none, .run 1 (.ecall 11 0), .run 1 .none]

/-- The line is printed for the parent and not for the child. -/
theorem trace_line_iff_child :
    ∃ tr k k₀ k₁, kernel.Run boot tr k ∧
      kernel.step k (.run 0 .none) k₀ ∧ LastTrace 0 11 tr ∧
      k₀.console = [.trace 1 (some "getpid") 1] ∧
      kernel.step k (.run 1 .none) k₁ ∧ ¬ LastTrace 1 11 tr ∧ k₁.console = [] := by
  obtain ⟨tr, k, hrun, -, hp⟩ := exists_run_of_play (M := kernel) (fun _ _ _ h => h)
    traceForkGetpid boot
    (fun _ k => decide (k.console = [] ∧
      k.proc 0 = { Proc.zero with state := .running, pid := 1, tracer := 11, pc := .ret 11 1 } ∧
      k.proc 1 = { Proc.zero with state := .running, pid := 2, parent := some 0, pc := .ret 11 2 }))
    (by decide +kernel)
  obtain ⟨hconsole, h₀, h₁⟩ := of_decide_eq_true hp
  have hs₀ : kernel.step k (.run 0 .none) (sysret k 0 11 1) := by
    simp [kernel, Kernel.step, Kernel.run, h₀, Lottery.NPROC]
  have hs₁ : kernel.step k (.run 1 .none) (sysret k 1 11 2) := by
    simp [kernel, Kernel.step, Kernel.run, h₁, Lottery.NPROC]
  have hiff₀ := trace_line_iff hrun hs₀ (by rw [h₀]; rfl) (by decide)
  have hiff₁ := trace_line_iff hrun hs₁ (by rw [h₁]; rfl) (by decide)
  have hline : (sysret k 0 11 1).console = [.trace 1 (some "getpid") 1] := by
    rw [sysret_console, h₀, hconsole]
    rfl
  have hnone : (sysret k 1 11 2).console = [] := by
    rw [sysret_console, h₁, hconsole]
    rfl
  refine ⟨tr, k, _, _, hrun, hs₀, ?_, hline, hs₁, ?_, hnone⟩
  · by_contra hlast
    have hsame := hiff₀.2 hlast
    rw [hline, hconsole] at hsame
    cases hsame
  · intro hlast
    obtain ⟨title, -, hprinted⟩ := hiff₁.1 hlast
    rw [hnone, hconsole] at hprinted
    cases hprinted

end Syscall
