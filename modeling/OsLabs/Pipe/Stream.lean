-- SUMMARY: A pipe is a stream: the bytes that went in come out in that order, a write stores a part of its buffer from the start, and a read finds the end of the stream only behind its last byte.
import OsLabs.Pipe.Model
import OsLabs.Sleep.Refine

/-!
# The stream of bytes

What a pipe holds is the list of bytes between its two counters. A section of `pipewrite` appends
to it, and a section of `piperead` removes from its front, whatever the values of the
counters. Everything that is said here about a run is said for any number of readers and
writers, and for the kernel's own `sleep` and `wakeup`.
-/

namespace Pipes

open Monitor TransitionSystem

/-! ## The buffer -/

def Pipe.contents (p : Pipe) : List UInt8 := RingBuffer.contents p.data p.nread p.nwrite

/-- The pipe holds at most as many bytes as it has slots. -/
def Pipe.Ok (p : Pipe) : Prop := p.contents.length ≤ PIPESIZE

theorem pipesize_dvd : PIPESIZE ∣ 2 ^ 32 := by decide

variable {p : Pipe}

theorem Pipe.empty_iff : p.nread = p.nwrite ↔ p.contents = [] := by
  rw [← RingBuffer.size_eq_zero, ← RingBuffer.length_contents p.data, List.length_eq_zero_iff]
  rfl

theorem Pipe.full_iff :
    p.nwrite = p.nread + BitVec.ofNat 32 PIPESIZE ↔ p.contents.length = PIPESIZE := by
  rw [← RingBuffer.size_eq_iff (by decide), ← RingBuffer.length_contents p.data]
  rfl

theorem Pipe.contents_store (ch : UInt8) (h : p.contents.length < PIPESIZE) :
    (p.store ch).contents = p.contents ++ [ch] := by
  rw [Pipe.contents, RingBuffer.length_contents] at h
  have hlt : RingBuffer.size p.nread p.nwrite + 1 < 2 ^ 32 := by
    have : PIPESIZE < 2 ^ 32 := by decide
    omega
  exact RingBuffer.contents_store pipesize_dvd p.data ch h hlt

theorem Pipe.contents_pop (h : p.nread ≠ p.nwrite) :
    p.contents = p.data (RingBuffer.slot PIPESIZE p.nread) ::
      { p with nread := p.nread + 1 }.contents :=
  RingBuffer.contents_remove p.data h

/-! ## The loops -/

/-- What the loop of `pipewrite` does: it appends a first part of its bytes, and it goes to
    sleep only on a full pipe that is open for reading. -/
structure Writes (cs : List (Option UInt8)) (p : Pipe) (r : Pipe × List UInt8 × Stop) : Prop where
  ok : r.1.Ok
  contents : r.1.contents = p.contents ++ r.2.1
  put : r.2.1.map some = cs.take r.2.1.length
  readopen : r.1.readopen = p.readopen
  writeopen : r.1.writeopen = p.writeopen
  sleeps : r.2.2 = .sleeps → r.1.contents.length = PIPESIZE ∧ r.1.readopen = true

theorem Writes.stay {cs : List (Option UInt8)} (h : p.Ok) {stop : Stop}
    (hs : stop = .sleeps → p.contents.length = PIPESIZE ∧ p.readopen = true) :
    Writes cs p (p, [], stop) :=
  ⟨h, by simp, rfl, rfl, rfl, hs⟩

theorem writeLoop_writes (killed : Option Nat) (h : p.Ok) (i : Nat) (cs : List (Option UInt8)) :
    Writes cs p (writeLoop killed p i cs) := by
  induction cs generalizing p i with
  | nil => exact .stay h (by simp)
  | cons c cs ih =>
      unfold writeLoop
      split
      · exact .stay h (by simp)
      case isFalse hgo =>
        split
        case isTrue hfull =>
            exact .stay h fun _ => ⟨Pipe.full_iff.mp hfull, by simpa using (not_or.mp hgo).1⟩
        case isFalse hfull =>
            cases c with
            | none => exact .stay h (by simp)
            | some ch =>
                have hlt : p.contents.length < PIPESIZE :=
                  lt_of_le_of_ne h fun heq => hfull (Pipe.full_iff.mpr heq)
                have hstore := Pipe.contents_store ch hlt
                have hok : (p.store ch).Ok := by
                  rw [Pipe.Ok, hstore, List.length_append]
                  exact hlt
                obtain ⟨hok', hcontents, hput, hr, hw, hsleeps⟩ := ih hok (i + 1)
                refine ⟨hok', ?_, ?_, hr, hw, hsleeps⟩
                · rw [hcontents, hstore, List.append_assoc]
                  rfl
                · simpa using hput

/-- What the loop of `piperead` does: it takes bytes off the front of the pipe. It counts those
    that reach the reader, which are all but at most one. -/
structure Reads (n room i : Nat) (p : Pipe) (r : Pipe × List UInt8 × Nat) : Prop where
  contents : p.contents = r.2.1 ++ r.1.contents
  readopen : r.1.readopen = p.readopen
  writeopen : r.1.writeopen = p.writeopen
  count : r.2.2 = min (i + r.2.1.length) room
  length_le : r.2.1.length ≤ n
  lost_le : i + r.2.1.length ≤ room + 1
  starts : 0 < n → r.2.1 = [] → p.contents = []

theorem readLoop_reads {room i : Nat} (hi : i ≤ room) (n : Nat) :
    Reads n room i p (readLoop room n i p) := by
  induction n generalizing p i with
  | zero =>
      exact ⟨rfl, rfl, rfl, by simp [readLoop, hi], le_rfl, by simp [readLoop]; omega, by simp⟩
  | succ n ih =>
      unfold readLoop
      split
      case isTrue hempty =>
        exact ⟨rfl, rfl, rfl, by simp [hi], by simp, by simp; omega,
          fun _ _ => Pipe.empty_iff.mp hempty⟩
      case isFalse hempty =>
        have hpop := Pipe.contents_pop hempty
        dsimp only
        split
        case isTrue hroom =>
          obtain ⟨hcontents, hr, hw, hcount, hle, hlost, -⟩ :=
            ih (p := { p with nread := p.nread + 1 }) hroom
          refine ⟨?_, hr, hw, ?_, ?_, ?_, by simp⟩
          · rw [hpop, hcontents]
            rfl
          · rw [hcount, List.length_cons, Nat.succ_add_eq_add_succ]
          · rw [List.length_cons]
            exact Nat.succ_le_succ hle
          · rw [List.length_cons, ← Nat.succ_add_eq_add_succ]
            exact hlost
        case isFalse hroom =>
          exact ⟨hpop, rfl, rfl, by simp; omega, by simp, by simpa using hi, by simp⟩

/-! ## The sections -/

/-- What a sleeper on a channel waits to be over. -/
def Idle : Chan → Pipe → Prop
  | .nread, p  => p.contents = [] ∧ p.writeopen = true
  | .nwrite, p => p.contents.length = PIPESIZE ∧ p.readopen = true

/-- A `pipewrite` that fails after it has stored bytes tells nobody about them. -/
def Event.Whole (e : Event) : Prop := e.ret = some (-1) → e.put = []

/-- The bytes that a read delivers. -/
def Event.got (e : Event) : List UInt8 := e.took.take (e.ret.getD 0).toNat

/-- What the current call of a process has put into the pipe before. -/
def Loc.done : Loc → List (Option UInt8)
  | ⟨i, .write src :: _⟩ => src.take i
  | _                    => []

@[simp] theorem done_zero (calls : List Call) : Loc.done ⟨0, calls⟩ = [] := by
  cases calls with
  | nil => rfl
  | cons c calls => cases c <;> rfl

/-- What a section does to the pipe and for its process. -/
structure Spec (l : Loc) (p : Pipe) (o : Outcome Pipe Chan Loc Event) : Prop where
  ok : o.shared.Ok
  moves : p.contents ++ o.event.put = o.event.took ++ o.shared.contents
  waits : ∀ c l', o.next = .wait c l' → Idle c o.shared
  keeps : ∀ c, o.wake ≠ .broadcast c → o.event.Whole → Idle c p → Idle c o.shared
  done : o.next.loc.done = if o.event.ret = none then l.done ++ o.event.put.map some else []
  wrote : ∀ src r, o.event.call = .write src → o.event.ret = some r → 0 ≤ r →
    l.done ++ o.event.put.map some = src.take r.toNat
  ends : ∀ n room, o.event.call = .read n room → o.event.ret = some 0 → 0 < n → 0 < room →
    p.contents = [] ∧ p.writeopen = false
  lost : o.event.took = o.event.got ∨ ∃ n room ch, o.event.call = .read n room ∧ room < n ∧
    o.event.ret = some (room : Int) ∧ o.event.took = o.event.got ++ [ch]

theorem Idle.congr {c : Chan} {p' : Pipe} (h : Idle c p) (hcontents : p'.contents = p.contents)
    (hr : p'.readopen = p.readopen) (hw : p'.writeopen = p.writeopen) : Idle c p' := by
  cases c with
  | nread => exact ⟨hcontents.trans h.1, hw.trans h.2⟩
  | nwrite => exact ⟨(congrArg List.length hcontents).trans h.1, hr.trans h.2⟩

/-- A full pipe stays as it is. -/
theorem Writes.put_eq_nil {cs : List (Option UInt8)} {r : Pipe × List UInt8 × Stop}
    (h : Writes cs p r) (hfull : p.contents.length = PIPESIZE) : r.2.1 = [] := by
  have hlen := h.ok
  rw [Pipe.Ok, h.contents, List.length_append, hfull] at hlen
  exact List.length_eq_zero_iff.mp (by omega)

theorem Writes.idle {cs : List (Option UInt8)} {r : Pipe × List UInt8 × Stop} {c : Chan}
    (h : Writes cs p r) (hput : c = .nread → r.2.1 = []) (hc : Idle c p) : Idle c r.1 := by
  have hnil : r.2.1 = [] := by
    cases c with
    | nread => exact hput rfl
    | nwrite => exact h.put_eq_nil hc.1
  refine hc.congr ?_ h.readopen h.writeopen
  rw [h.contents, hnil, List.append_nil]

theorem pipewrite_spec (killed : Option Nat) (i : Nat) (src : List (Option UInt8))
    (rest : List Call) (h : p.Ok) :
    Spec ⟨i, .write src :: rest⟩ p (pipewrite killed i src rest p) := by
  have hw := writeLoop_writes killed h i (src.drop i)
  unfold pipewrite
  generalize writeLoop killed p i (src.drop i) = r at hw
  obtain ⟨p', put, stop⟩ := r
  have hdone : src.take i ++ put.map some = src.take (i + put.length) := by
    rw [List.take_add, hw.put]
  have hkeeps : ∀ c, c ≠ .nread ∨ put = [] → Idle c p → Idle c p' := by
    intro c hc
    exact hw.idle fun heq => hc.resolve_left (not_not.mpr heq)
  cases stop with
  | fails =>
      refine ⟨hw.ok, hw.contents.symm, by simp, ?_, by simp [Next.loc], ?_, by simp, .inl rfl⟩
      · intro c _ hwhole
        exact hkeeps c (.inr (hwhole rfl))
      · intro src' r _ hret hr
        cases hret
        simp at hr
  | sleeps =>
      refine ⟨hw.ok, hw.contents.symm, ?_, ?_, by simp [Next.loc, Loc.done, hdone], by simp,
        by simp, .inl rfl⟩
      · intro c l' hnext
        cases hnext
        exact hw.sleeps rfl
      · intro c hwake _
        exact hkeeps c (.inl fun heq => hwake (heq ▸ rfl))
  | leaves =>
      refine ⟨hw.ok, hw.contents.symm, by simp, ?_, by simp [Next.loc], ?_, by simp, .inl ?_⟩
      · intro c hwake _
        exact hkeeps c (.inl fun heq => hwake (heq ▸ rfl))
      · intro src' r hcall hret _
        cases hcall
        cases hret
        rw [Int.toNat_natCast]
        exact hdone
      · simp [Event.got]

theorem piperead_spec (killed : Bool) (i n room : Nat) (rest : List Call) (h : p.Ok) :
    Spec ⟨i, .read n room :: rest⟩ p (piperead killed n room rest p) := by
  unfold piperead
  split
  case isTrue hidle =>
    have hidle : Idle .nread p := ⟨Pipe.empty_iff.mp hidle.1, hidle.2⟩
    cases killed with
    | true =>
        exact ⟨h, by simp, by simp, fun _ _ _ hc => hc, by simp [Next.loc], by simp, by simp,
          .inl rfl⟩
    | false =>
        refine ⟨h, by simp, ?_, fun _ _ _ hc => hc, by simp [Next.loc, Loc.done], by simp, by simp,
          .inl rfl⟩
        intro c l' hnext
        cases hnext
        exact hidle
  case isFalse hidle =>
    have hr := readLoop_reads (p := p) (Nat.zero_le room) n
    generalize readLoop room n 0 p = r at hr
    obtain ⟨p', took, j⟩ := r
    have hcount : j = min took.length room := by simpa using hr.count
    refine ⟨?_, ?_, by simp, ?_, by simp [Next.loc], by simp, ?_, ?_⟩
    · have hlen := h
      rw [Pipe.Ok, hr.contents, List.length_append] at hlen
      exact le_trans (Nat.le_add_left ..) hlen
    · simpa using hr.contents
    · intro c hwake _ hc
      cases c with
      | nread => exact absurd ⟨Pipe.empty_iff.mpr hc.1, hc.2⟩ hidle
      | nwrite => exact absurd rfl hwake
    · intro n' room' hcall hret hn hroom
      cases hcall
      have hj : j = 0 := by simpa using hret
      have htook : took = [] := List.length_eq_zero_iff.mp (by omega)
      have hempty : p.contents = [] := hr.starts hn htook
      refine ⟨hempty, ?_⟩
      simpa [Pipe.empty_iff.mpr hempty] using hidle
    · have hgot : Event.got { call := .read n room, took := took, ret := some j } = took.take j := by
        rw [Event.got, Option.getD_some, Int.toNat_natCast]
      rcases Nat.lt_or_ge room took.length with hlt | hle
      · have hj : j = room := by omega
        have hlost : 0 + took.length ≤ room + 1 := hr.lost_le
        have hlen : (took.drop room).length = 1 := by
          rw [List.length_drop]
          omega
        obtain ⟨ch, hch⟩ := List.length_eq_one_iff.mp hlen
        refine .inr ⟨n, room, ch, rfl, hlt.trans_le hr.length_le, by rw [hj], ?_⟩
        rw [hgot, hj, ← hch, List.take_append_drop]
      · left
        rw [hgot, List.take_of_length_le (by omega)]

theorem pipeclose_spec (writable : Bool) (i : Nat) (rest : List Call) (h : p.Ok) :
    Spec ⟨i, .close writable :: rest⟩ p (pipeclose writable rest p) := by
  unfold pipeclose
  cases writable with
  | true =>
      refine ⟨h, by simp; rfl, by simp, ?_, by simp [Next.loc]; rfl, by simp, by simp, .inl rfl⟩
      intro c hwake _ hc
      cases c with
      | nread => exact absurd rfl hwake
      | nwrite => exact hc
  | false =>
      refine ⟨h, by simp; rfl, by simp, ?_, by simp [Next.loc]; rfl, by simp, by simp, .inl rfl⟩
      intro c hwake _ hc
      cases c with
      | nread => exact hc
      | nwrite => exact absurd rfl hwake

theorem section_spec {l : Loc} {f : Pipe → Outcome Pipe Chan Loc Event}
    (hf : f ∈ code.sections l) (h : p.Ok) : Spec l p (f p) := by
  obtain ⟨i, calls⟩ := l
  cases calls with
  | nil => cases hf
  | cons c rest =>
      cases c with
      | write src =>
          obtain ⟨killed, -, rfl⟩ := List.mem_map.mp hf
          exact pipewrite_spec killed i src rest h
      | read n room =>
          obtain ⟨killed, -, rfl⟩ := List.mem_map.mp hf
          exact piperead_spec killed i n room rest h
      | close writable =>
          obtain rfl := List.mem_singleton.mp hf
          exact pipeclose_spec writable i rest h

/-- A section wakes all sleepers of a channel or none. -/
theorem code_broadcasts : Sleep.Broadcasts code := by
  intro l f hf p c
  obtain ⟨i, calls⟩ := l
  cases calls with
  | nil => cases hf
  | cons call rest =>
      cases call with
      | write src =>
          obtain ⟨killed, -, rfl⟩ := List.mem_map.mp hf
          unfold pipewrite
          generalize writeLoop killed p i (src.drop i) = r
          obtain ⟨p', put, stop⟩ := r
          cases stop <;> simp
      | read n room =>
          obtain ⟨killed, -, rfl⟩ := List.mem_map.mp hf
          unfold piperead
          split
          · cases killed <;> simp
          · simp
      | close writable =>
          obtain rfl := List.mem_singleton.mp hf
          simp [pipeclose]

/-! ## Runs -/

/-- The bytes that process `t` has put into the pipe since its last call returned. -/
def putSince {T : Type} [DecidableEq T] (t : T) (es : List (T × Event)) : List UInt8 :=
  es.foldl (fun acc q =>
    if q.1 = t then if q.2.ret = none then acc ++ q.2.put else [] else acc) []

theorem putSince_snoc {T : Type} [DecidableEq T] (t : T) (es : List (T × Event)) (q : T × Event) :
    putSince t (es ++ [q]) = if q.1 = t then
      if q.2.ret = none then putSince t es ++ q.2.put else [] else putSince t es := by
  rw [putSince, List.foldl_append, List.foldl_cons, List.foldl_nil]
  rfl

/-- The processes of the kernel, each with the calls it makes on a new pipe. -/
def kernel {n : Nat} (page : Fin PIPESIZE → UInt8) (calls : Fin n → List Call) :
    TransitionSystem (Sleep.State n Pipe Chan Loc) (Sleep.Label n Event) :=
  Sleep.system code (pipealloc page) fun t => ⟨0, calls t⟩

/-- A run with an empty pipe at its start, found by playing a schedule. -/
theorem exists_run_of_play {n : Nat} (calls : Fin n → List Call)
    (p : List (Sleep.State n Pipe Chan Loc × Sleep.Label n Event) → Sleep.State n Pipe Chan Loc →
      Bool) (cs : List (Sleep.Choice n))
    (h : (Sleep.play code (pipealloc fun _ => 0) (fun t => ⟨0, calls t⟩) cs).any
      (fun r => p r.1 r.2) = true) :
    ∃ k₀ tr k, (kernel (fun _ => 0) calls).init k₀ ∧ (kernel (fun _ => 0) calls).Run k₀ tr k ∧
      p tr k = true :=
  Sleep.exists_run_of_play code _ _ p cs h

section

variable {T : Type} [DecidableEq T] {page : Fin PIPESIZE → UInt8} {calls : T → List Call}

def threads (page : Fin PIPESIZE → UInt8) (calls : T → List Call) :
    TransitionSystem (Config T Pipe Chan Loc) (Label T Event) :=
  systemOf code (pipealloc page) fun t => ⟨0, calls t⟩

/-- What a run so far says about the pipe and the processes. -/
structure Sound (es : List (T × Event)) (k : Config T Pipe Chan Loc) : Prop where
  ok : k.shared.Ok
  fifo : (es.flatMap fun q => q.2.put) = (es.flatMap fun q => q.2.took) ++ k.shared.contents
  lost : ∀ q ∈ es, q.2.took = q.2.got ∨ ∃ n room ch, q.2.call = .read n room ∧ room < n ∧
    q.2.ret = some (room : Int) ∧ q.2.took = q.2.got ++ [ch]
  done : ∀ t, (putSince t es).map some = (k.locs t).done

theorem Sound.step {es : List (T × Event)} {k k' : Config T Pipe Chan Loc} {e : Label T Event}
    (h : Sound es k) (hs : Step code k e k') : Sound (es ++ e.exec?.toList) k' := by
  rcases hs.locs with ⟨t, rfl, hshared, hlocs⟩ | ⟨t, f, rfl, hf, hshared, hlocs⟩
  · refine ⟨hshared ▸ h.ok, ?_, ?_, ?_⟩
    · simpa [Label.exec?, hshared] using h.fifo
    · simpa [Label.exec?] using h.lost
    · simpa [Label.exec?, hlocs] using h.done
  · have hspec := section_spec hf h.ok
    have hes : es ++ (Label.exec? (.exec t (f k.shared).event)).toList =
        es ++ [(t, (f k.shared).event)] := rfl
    rw [hes]
    refine ⟨hshared ▸ hspec.ok, ?_, ?_, ?_⟩
    · rw [List.flatMap_append, List.flatMap_append, h.fifo, hshared]
      simp only [List.flatMap_singleton, List.append_assoc]
      rw [hspec.moves]
    · intro q hq
      rcases List.mem_append.mp hq with hq | hq
      · exact h.lost q hq
      · rw [List.mem_singleton.mp hq]
        exact hspec.lost
    · intro u
      rw [putSince_snoc, hlocs]
      by_cases hut : u = t
      · subst hut
        rw [Function.update_self, hspec.done, if_pos rfl]
        split
        · rw [List.map_append, h.done]
        · rfl
      · rw [Function.update_of_ne hut, if_neg (Ne.symm hut)]
        exact h.done u

theorem sound_of_run {k₀ k : Config T Pipe Chan Loc} {tr : List (Config T Pipe Chan Loc × Label T Event)}
    (h₀ : (threads page calls).init k₀) (h : (threads page calls).Run k₀ tr k) :
    Sound (execs tr) k := by
  refine h.history (I := fun tr k => Sound (execs tr) k) ?_ ?_
  · obtain rfl : k₀ = _ := h₀
    exact ⟨by simp [Pipe.Ok, Pipe.contents, pipealloc], by simp [execs, Pipe.contents, pipealloc],
      by simp [execs], by simp [execs, putSince, Config.locs, Mode.loc]⟩
  · intro tr k e k' _ hsound hs
    have hexecs : execs (tr ++ [(k, e)]) = execs tr ++ e.exec?.toList := by
      cases e <;> simp [execs, Label.exec?]
    rw [hexecs]
    exact hsound.step hs

end

variable {n : Nat} {page : Fin PIPESIZE → UInt8} {calls : Fin n → List Call}
  {k₀ k k' : Sleep.State n Pipe Chan Loc}
  {tr : List (Sleep.State n Pipe Chan Loc × Sleep.Label n Event)}

theorem sound_of_kernel (h₀ : (kernel page calls).init k₀) (h : (kernel page calls).Run k₀ tr k) :
    Sound (Sleep.execs tr) k.config := by
  obtain ⟨tr', hrun, hexecs⟩ := Sleep.run_execs code_broadcasts h₀ h
  rw [← hexecs]
  exact sound_of_run rfl hrun

/-- In every run the bytes that went into the pipe are the bytes that came out, in
    order, followed by those still in it, at most `PIPESIZE`. Every byte that came out reached its
    reader, except for one byte of a read whose buffer cannot be written. -/
theorem pipe_fifo (h₀ : (kernel page calls).init k₀) (h : (kernel page calls).Run k₀ tr k) :
    ((Sleep.execs tr).flatMap fun q => q.2.put) =
        ((Sleep.execs tr).flatMap fun q => q.2.took) ++ k.shared.contents ∧
      k.shared.contents.length ≤ PIPESIZE ∧
      ∀ q ∈ Sleep.execs tr, q.2.took = q.2.got ∨
        ∃ n room ch, q.2.call = .read n room ∧ room < n ∧ q.2.ret = some (room : Int) ∧
          q.2.took = q.2.got ++ [ch] := by
  have hsound := sound_of_kernel h₀ h
  exact ⟨hsound.fifo, hsound.ok, hsound.lost⟩

/-- A reader of two bytes and a writer of three. -/
def readerAndWriter (t : Fin 2) : List Call :=
  if t.val = 0 then [.read 2 2] else [.write [some 7, some 8, some 9]]

/-- The reader finds the pipe empty and sleeps, the writer stores its bytes and wakes the reader
    up, and the reader reads. -/
theorem pipe_fifo_sleeping_reader :
    ∃ k₀ tr k, (kernel (fun _ => 0) readerAndWriter).init k₀ ∧
      (kernel (fun _ => 0) readerAndWriter).Run k₀ tr k ∧
      (∃ q ∈ tr, q.1.state 0 = .sleeping) ∧
      ((Sleep.execs tr).flatMap fun q => q.2.took) = [7, 8] ∧ k.shared.contents = [9] := by
  obtain ⟨k₀, tr, k, h₀, hrun, hend⟩ := exists_run_of_play readerAndWriter
    (fun tr _ => decide ((∃ q ∈ tr, q.1.state 0 = .sleeping) ∧
      ((Sleep.execs tr).flatMap fun q => q.2.put) = [7, 8, 9] ∧
      ((Sleep.execs tr).flatMap fun q => q.2.took) = [7, 8]))
    (List.replicate 7 (.run 0 0) ++ List.replicate 8 (.run 1 0) ++ [.lock 0, .dispatch 0] ++
      List.replicate 4 (.run 0 0)) (by decide +kernel)
  obtain ⟨hslept, hput, htook⟩ := of_decide_eq_true hend
  have hfifo := (pipe_fifo h₀ hrun).1
  rw [hput, htook] at hfifo
  exact ⟨k₀, tr, k, h₀, hrun, hslept, htook, by simpa using hfifo.symm⟩

/-- What a section does in a run. -/
theorem spec_of_kernel {t : Fin n} {e : Event} (h₀ : (kernel page calls).init k₀)
    (h : (kernel page calls).Run k₀ tr k) (hs : (kernel page calls).step k (.exec t e) k') :
    ∃ o, o.event = e ∧ Spec (k.config.locs t) k.shared o := by
  cases hs with
  | @exec _ w l f hpc hf =>
      have hl : k.config.locs t = l := by
        cases w <;> simp [Config.locs, Sleep.State.config, Sleep.State.mode, hpc, Sleep.Pc.mode,
          Sleep.comes, Mode.loc]
      rw [hl]
      exact ⟨f k.shared, rfl, section_spec hf (sound_of_kernel h₀ h).ok⟩

/-- A write that returns `r` bytes has put exactly the first `r` bytes of its buffer into the pipe,
    in order, however often it slept in between. -/
theorem pipewrite_puts_prefix {t : Fin n} {e : Event} {src : List (Option UInt8)} {r : Int}
    (h₀ : (kernel page calls).init k₀) (h : (kernel page calls).Run k₀ tr k)
    (hs : (kernel page calls).step k (.exec t e) k') (hcall : e.call = .write src)
    (hret : e.ret = some r) (hr : 0 ≤ r) :
    (putSince t (Sleep.execs tr) ++ e.put).map some = src.take r.toNat := by
  obtain ⟨o, rfl, hspec⟩ := spec_of_kernel h₀ h hs
  rw [List.map_append, (sound_of_kernel h₀ h).done t]
  exact hspec.wrote src r hcall hret hr

/-- A buffer with one byte more than a pipe holds, and no memory behind it. -/
def overfull : List (Option UInt8) := List.replicate PIPESIZE (some 7) ++ [some 8, none]

/-- A writer that fills the pipe, and a reader. -/
def fillerAndReader (t : Fin 2) : List Call :=
  if t.val = 0 then [.write overfull] else [.read 2 2]

/-- The writer sleeps when the pipe is full, and stores its last byte after the reader has made
    room. -/
theorem pipewrite_puts_prefix_slept :
    ∃ k₀ tr k e k', (kernel (fun _ => 0) fillerAndReader).init k₀ ∧
      (kernel (fun _ => 0) fillerAndReader).Run k₀ tr k ∧ (∃ q ∈ tr, q.1.state 0 = .sleeping) ∧
      (kernel (fun _ => 0) fillerAndReader).step k (.exec 0 e) k' ∧ e.put = [8] ∧
      (putSince 0 (Sleep.execs tr) ++ [8]).map some = overfull.take (PIPESIZE + 1) := by
  obtain ⟨k₀, tr, k, h₀, hrun, hend⟩ := exists_run_of_play fillerAndReader
    (fun tr k => decide ((∃ q ∈ tr, q.1.state 0 = .sleeping) ∧
      (k.next code (.run 0 0)).any fun r =>
        r.1 = .exec 0 { call := .write overfull, put := [8], ret := some (PIPESIZE + 1 : Nat) }))
    (List.replicate 12 (.run 0 0) ++ List.replicate 8 (.run 1 0) ++ [.lock 0, .dispatch 0] ++
      List.replicate 3 (.run 0 0)) (by decide +kernel)
  obtain ⟨hslept, hlast⟩ := of_decide_eq_true hend
  obtain ⟨⟨l, k'⟩, hnext, hl⟩ := (Option.any_eq_true _ _).mp hlast
  obtain rfl := of_decide_eq_true hl
  have hs := Sleep.State.next_step hnext
  have hputs := pipewrite_puts_prefix h₀ hrun hs rfl rfl (by decide)
  exact ⟨k₀, tr, k, _, k', h₀, hrun, hslept, hs, rfl, hputs⟩

/-- A read that asks for bytes, has room for them and returns 0 comes after the write end was closed and after
    every byte of the pipe was read. -/
theorem piperead_end_of_stream {t : Fin n} {e : Event} {m room : Nat}
    (h₀ : (kernel page calls).init k₀) (h : (kernel page calls).Run k₀ tr k)
    (hs : (kernel page calls).step k (.exec t e) k') (hcall : e.call = .read m room)
    (hm : 0 < m) (hroom : 0 < room) (hret : e.ret = some 0) :
    k.shared.writeopen = false ∧
      ((Sleep.execs tr).flatMap fun q => q.2.put) = (Sleep.execs tr).flatMap fun q => q.2.took := by
  obtain ⟨o, rfl, hspec⟩ := spec_of_kernel h₀ h hs
  obtain ⟨hempty, hclosed⟩ := hspec.ends m room hcall hret hm hroom
  have hfifo := (sound_of_kernel h₀ h).fifo
  refine ⟨hclosed, ?_⟩
  rw [hfifo, Sleep.State.config, hempty, List.append_nil]

/-- A process that reads a byte twice, and one that writes a byte and closes its end. -/
def readerAndCloser (t : Fin 2) : List Call :=
  if t.val = 0 then [.read 1 1, .read 1 1] else [.write [some 7], .close true]

theorem piperead_end_of_stream_second :
    ∃ k₀ tr k k', (kernel (fun _ => 0) readerAndCloser).init k₀ ∧
      (kernel (fun _ => 0) readerAndCloser).Run k₀ tr k ∧
      (kernel (fun _ => 0) readerAndCloser).step k
        (.exec 0 { call := .read 1 1, ret := some 0 }) k' ∧
      k.shared.writeopen = false ∧ ((Sleep.execs tr).flatMap fun q => q.2.put) = [7] ∧
      ((Sleep.execs tr).flatMap fun q => q.2.took) = [7] := by
  obtain ⟨k₀, tr, k, h₀, hrun, hend⟩ := exists_run_of_play readerAndCloser
    (fun tr k => decide (((Sleep.execs tr).flatMap fun q => q.2.put) = [7] ∧
      (k.next code (.run 0 0)).any fun r => r.1 = .exec 0 { call := .read 1 1, ret := some 0 }))
    (List.replicate 7 (.run 0 0) ++ List.replicate 16 (.run 1 0) ++ [.lock 0, .dispatch 0] ++
      List.replicate 11 (.run 0 0)) (by decide +kernel)
  obtain ⟨hput, hlast⟩ := of_decide_eq_true hend
  obtain ⟨⟨l, k'⟩, hnext, hl⟩ := (Option.any_eq_true _ _).mp hlast
  obtain rfl := of_decide_eq_true hl
  have hs := Sleep.State.next_step hnext
  obtain ⟨hclosed, hall⟩ := piperead_end_of_stream h₀ hrun hs rfl (by decide) (by decide) rfl
  exact ⟨k₀, tr, k, k', h₀, hrun, hs, hclosed, hput, hall.symm.trans hput⟩

end Pipes
