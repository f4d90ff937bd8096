-- SUMMARY: Who sleeps on a pipe has nothing to do there: readers sleep on an empty pipe and writers on a full one, unless a writer is killed between two bytes.
import OsLabs.Pipe.Stream

/-!
# Sleepers

A process that sleeps on a pipe should have a reason to. For a reader the reason is an empty pipe
that is still open for writing, for a writer a full pipe that is still open for reading. All code
of the pipe that ends such a state wakes the sleepers, with one exception: `pipewrite`
returns at once when it finds its process killed, also if it has stored bytes before.
-/

namespace Pipes

open Monitor TransitionSystem

section

variable {T : Type} [DecidableEq T] {page : Fin PIPESIZE → UInt8} {calls : T → List Call}

/-- Every sleeper has a reason to sleep. -/
def Rested (k : Config T Pipe Chan Loc) : Prop :=
  k.shared.Ok ∧ ∀ t c l, k.mode t = .asleep c l → Idle c k.shared

theorem Rested.step {k k' : Config T Pipe Chan Loc} {e : Label T Event} (h : Rested k)
    (hs : Step code k e k') (hwhole : ∀ t ev, e = .exec t ev → ev.Whole) : Rested k' := by
  constructor
  · rcases hs.locs with ⟨t, -, hshared, -⟩ | ⟨t, f, -, hf, hshared, -⟩
    · rw [hshared]
      exact h.1
    · rw [hshared]
      exact (section_spec hf h.1).ok
  · refine hs.asleep_waits ?_ ?_ h.2
    · intro t l f c l' _ hf _ hnext
      exact (section_spec hf h.1).waits c l' hnext
    · intro t l f c _ hf he hwake hc
      exact (section_spec hf h.1).keeps c hwake (hwhole t _ he) hc

theorem rested_of_run {k₀ k : Config T Pipe Chan Loc}
    {tr : List (Config T Pipe Chan Loc × Label T Event)} (h₀ : (threads page calls).init k₀)
    (h : (threads page calls).Run k₀ tr k) (hwhole : ∀ q ∈ execs tr, q.2.Whole) : Rested k := by
  refine h.invariant (I := Rested) (G := fun q => ∀ t ev, q.2 = .exec t ev → ev.Whole) ?_ ?_ ?_
  · obtain rfl : k₀ = _ := h₀
    exact ⟨by simp [Pipe.Ok, Pipe.contents, pipealloc], by simp⟩
  · intro q hq t ev hev
    exact hwhole (t, ev) (List.mem_filterMap.mpr ⟨q, hq, by rw [hev]; rfl⟩)
  · intro k e k' hG hk hs
    exact hk.step hs hG

end

variable {n : Nat} {page : Fin PIPESIZE → UInt8} {calls : Fin n → List Call}
  {k₀ k : Sleep.State n Pipe Chan Loc}
  {tr : List (Sleep.State n Pipe Chan Loc × Sleep.Label n Event)}

/-- As long as no write fails after it has stored bytes, no wakeup is lost: whenever the lock of
    the pipe is free, a sleeping reader finds the pipe empty and open for writing, and a sleeping
    writer finds it full and open for reading. So there are never both. -/
theorem pipe_sleepers_idle (h₀ : (kernel page calls).init k₀)
    (h : (kernel page calls).Run k₀ tr k) (hwhole : ∀ q ∈ Sleep.execs tr, q.2.Whole)
    (hlk : k.lk = none) :
    (∀ t c, k.state t = .sleeping → k.chan t = some c → Idle c k.shared) ∧
      ¬ ∃ t u, k.state t = .sleeping ∧ k.chan t = some .nread ∧
        k.state u = .sleeping ∧ k.chan u = some .nwrite := by
  obtain ⟨tr', hrun, hexecs⟩ := Sleep.run_execs code_broadcasts h₀ h
  rw [← hexecs] at hwhole
  have hrested := rested_of_run rfl hrun hwhole
  have hok : k.Ok := Sleep.ok_of_reachable ⟨k₀, tr, h₀, h⟩
  have hidle : ∀ t c, k.state t = .sleeping → k.chan t = some c → Idle c k.shared := by
    intro t c hst hchan
    obtain ⟨l, hmode⟩ := Sleep.mode_of_sleeping hok hlk hst hchan
    exact hrested.2 t c l hmode
  refine ⟨hidle, ?_⟩
  rintro ⟨t, u, htst, htchan, hust, huchan⟩
  have hempty := (hidle t .nread htst htchan).1
  have hfull := (hidle u .nwrite hust huchan).1
  rw [hempty] at hfull
  cases hfull

/-- A process that reads a byte twice, and one that writes a byte. -/
def readerAndShortWriter (t : Fin 2) : List Call :=
  if t.val = 0 then [.read 1 1, .read 1 1] else [.write [some 7]]

/-- The reader sleeps, gets its byte, and sleeps again. -/
theorem pipe_sleepers_idle_second :
    ∃ k₀ tr k, (kernel (fun _ => 0) readerAndShortWriter).init k₀ ∧
      (kernel (fun _ => 0) readerAndShortWriter).Run k₀ tr k ∧
      ((Sleep.execs tr).flatMap fun q => q.2.took) = [7] ∧ k.state 0 = .sleeping ∧
      Idle .nread k.shared := by
  obtain ⟨k₀, tr, k, h₀, hrun, hend⟩ := exists_run_of_play readerAndShortWriter
    (fun tr k => decide (((Sleep.execs tr).flatMap fun q => q.2.took) = [7] ∧
      (∀ q ∈ Sleep.execs tr, q.2.ret ≠ some (-1)) ∧ k.lk = none ∧ k.state 0 = .sleeping ∧
      k.chan 0 = some .nread))
    (List.replicate 7 (.run 0 0) ++ List.replicate 8 (.run 1 0) ++ [.lock 0, .dispatch 0] ++
      List.replicate 17 (.run 0 0)) (by decide +kernel)
  obtain ⟨htook, hret, hlk, hst, hchan⟩ := of_decide_eq_true hend
  have hidle := (pipe_sleepers_idle h₀ hrun (fun q hq hfail => absurd hfail (hret q hq)) hlk).1
  exact ⟨k₀, tr, k, h₀, hrun, htook, hst, hidle 0 .nread hst hchan⟩

/-- A write that is killed after its first byte. -/
theorem pipewrite_killed {p : Pipe} {i : Nat} {src : List (Option UInt8)} {ch : UInt8}
    (hopen : p.readopen = true) (hroom : p.contents.length < PIPESIZE)
    (hsrc : src[i]? = some (some ch)) (hmore : i + 1 < src.length) (rest : List Call) :
    pipewrite (some (i + 1)) i src rest p = ⟨p.store ch, .goto ⟨0, rest⟩, .none,
      { call := .write src, put := [ch], ret := some (-1) }⟩ := by
  have hfull : p.nwrite ≠ p.nread + BitVec.ofNat 32 PIPESIZE :=
    fun hfull => hroom.ne (Pipe.full_iff.mp hfull)
  obtain ⟨hi, hget⟩ := List.getElem?_eq_some_iff.mp hsrc
  have hloop : writeLoop (some (i + 1)) p i (src.drop i) = (p.store ch, [ch], .fails) := by
    rw [List.drop_eq_getElem_cons hi, hget, List.drop_eq_getElem_cons hmore]
    simp [writeLoop, hopen, hfull]
  rw [pipewrite, hloop]

/-- The exception is real. From every state in which a process is about to write two bytes or more
    and the pipe takes one, the kernel can go on, with a `kill` between the two bytes for which
    `pipewrite` returns -1, to a state with a free lock in which that byte is in the pipe and all
    sleepers still sleep. -/
theorem killed_write_wakes_nobody {u : Fin n} {w : Option Chan} {i : Nat}
    {src : List (Option UInt8)} {rest : List Call} {ch : UInt8} (hlk : k.lk = none)
    (hpc : k.pc u = .enter w ⟨i, .write src :: rest⟩) (hopen : k.shared.readopen = true)
    (hroom : k.shared.contents.length < PIPESIZE) (hsrc : src[i]? = some (some ch))
    (hmore : i + 1 < src.length) :
    ∃ tr k', (kernel page calls).Run k tr k' ∧ k'.lk = none ∧ k'.state = k.state ∧
      k'.chan = k.chan ∧ k'.shared.contents = k.shared.contents ++ [ch] ∧
      Sleep.execs tr = [(u, { call := .write src, put := [ch], ret := some (-1) })] := by
  have hkilled := pipewrite_killed hopen hroom hsrc hmore rest
  have hmem : pipewrite (some (i + 1)) i src rest ∈ code.sections ⟨i, .write src :: rest⟩ :=
    List.mem_map.mpr ⟨some (i + 1), by simpa using hmore, rfl⟩
  have hnext : (pipewrite (some (i + 1)) i src rest k.shared).next = .goto ⟨0, rest⟩ := by
    rw [hkilled]
  obtain ⟨tr, k', hrun, hlk', hst, hchan, hshared, hexecs⟩ := Sleep.run_section hpc hlk hmem
    (by rw [hkilled]) hnext (pipealloc page) fun t => ⟨0, calls t⟩
  refine ⟨tr, k', hrun, hlk', hst, hchan, ?_, ?_⟩
  · rw [hshared, hkilled]
    exact Pipe.contents_store ch hroom
  · rw [hexecs, hkilled]

/-- A reader of one byte, and a writer of two. -/
def readerAndKilledWriter (t : Fin 2) : List Call :=
  if t.val = 0 then [.read 1 1] else [.write [some 7, some 8]]

/-- The reader goes to sleep, the writer is killed, and the reader sleeps on in front of a byte. -/
theorem killed_write_wakes_nobody_asleep :
    ∃ k, (kernel (fun _ => 0) readerAndKilledWriter).Reachable k ∧ k.lk = none ∧
      k.state 0 = .sleeping ∧ k.chan 0 = some .nread ∧ k.shared.contents = [7] := by
  obtain ⟨k₀, tr, k, h₀, hrun, hend⟩ := exists_run_of_play readerAndKilledWriter
    (fun _ k => decide (k.lk = none ∧ k.state 0 = .sleeping ∧ k.chan 0 = some .nread ∧
      k.pc 1 = .enter none ⟨0, readerAndKilledWriter 1⟩ ∧ k.shared.readopen = true ∧
      k.shared.contents = []))
    (List.replicate 7 (.run 0 0)) (by decide +kernel)
  obtain ⟨hlk, hst, hchan, hpc, hopen, hempty⟩ := of_decide_eq_true hend
  obtain ⟨tr', k', hrun', hlk', hst', hchan', hcontents, -⟩ := killed_write_wakes_nobody hlk hpc
    hopen (by rw [hempty]; decide) rfl (by decide)
  refine ⟨k', ⟨k₀, _, h₀, hrun.trans hrun'⟩, hlk', hst' ▸ hst, hchan' ▸ hchan, ?_⟩
  rw [hcontents, hempty]
  rfl

end Pipes
