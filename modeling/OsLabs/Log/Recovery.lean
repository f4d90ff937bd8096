-- SUMMARY: The log makes system calls atomic: any run with any crashes is a run of a store with transactions, and recovery brings back what the disk held.
import OsLabs.Log.Commit

/-!
# Crash safety

A crash finds the disk in a stage of a commit, or in one of a recovery. Either way the disk holds
the durable content. The recovery moves it home, and may itself be cut short by a crash.
-/

namespace Log

open Monitor TransitionSystem

variable {L : Layout} {s : State} {D : HomeBlock L → Block}

/-! ## Recovery -/


def BootStage (L : Layout) (s : State) (D : HomeBlock L → Block) : BootPc → Prop
  | .readHead     => ∃ hs, Holds L s.disk hs D
  | .install tail => Holds L s.disk s.lh D ∧
      ∀ i (b : HomeBlock L), i < tail → s.lh[i]? = some b.1 → s.disk b.1 = D b
  | .clear        => Holds L s.disk s.lh D ∧ ∀ b : HomeBlock L, s.disk b.1 = D b
  | .erase        => s.lh = [] ∧ (∃ hs, Holds L s.disk hs D) ∧ ∀ b : HomeBlock L, s.disk b.1 = D b

/-- A recovery at work. The cache never differs from the disk. -/
structure Booting (L : Layout) (s : State) (D : HomeBlock L → Block) (pc : BootPc) : Prop where
  data : s.data = s.disk
  pins : ∀ b, s.pins b = 0
  outstanding : s.outstanding = 0
  committing : s.committing = false
  panicked : s.panicked = none
  stage : BootStage L s D pc

theorem Booting.holds {pc : BootPc} (h : Booting L s D pc) : ∃ hs, Holds L s.disk hs D := by
  have hstage := h.stage
  cases pc with
  | readHead => exact hstage
  | install tail | clear => exact ⟨s.lh, hstage.1⟩
  | erase => exact hstage.2.1

theorem booting_fresh {d : Nat → Block} {hs : List Nat} (h : Holds L d hs D) :
    Booting L (fresh d) D .readHead where
  data := rfl
  pins _ := rfl
  outstanding := rfl
  committing := rfl
  panicked := rfl
  stage := ⟨hs, h⟩

theorem Booting.read_head (h : Booting L s D .readHead) :
    Booting L (read_head L s) D (.install 0) where
  data := (data_bread L.start).trans h.data
  pins := h.pins
  outstanding := h.outstanding
  committing := h.committing
  panicked := h.panicked
  stage := by
    obtain ⟨hs, hholds⟩ := h.stage
    refine ⟨?_, by simp⟩
    have hlh : (Log.read_head L s).lh = hs := by
      rw [← hholds.head, ← h.data]
      rfl
    rw [hlh]
    exact hholds

theorem Booting.install {tail : Nat} (h : Booting L s D (.install tail)) (ht : tail < s.lh.length) :
    Booting L (install_trans L true tail s) D (.install (tail + 1)) where
  data := by rw [data_install_trans, disk_install_trans, h.data]
  pins := h.pins
  outstanding := h.outstanding
  committing := h.committing
  panicked := h.panicked
  stage := by
    obtain ⟨hholds, hinstalled⟩ := h.stage
    have hget : s.lh[tail]? = some (s.lh.getD tail 0) := by simp [ht]
    have hhome := hholds.listed.home_at hget
    have hlog : s.data (L.start + tail + 1) = D ⟨_, hhome⟩ := by
      rw [h.data]
      exact hholds.logged tail ⟨_, hhome⟩ hget
    have hdisk := disk_install_trans (s := s) L true tail
    rw [hlog] at hdisk
    refine ⟨hdisk ▸ hholds.install ⟨_, hhome⟩, ?_⟩
    intro i b hi hib
    rw [hdisk]
    by_cases hb : b = ⟨_, hhome⟩
    · rw [hb, Function.update_self]
    · rw [Function.update_of_ne fun hval => hb (Subtype.ext hval)]
      have hne : i ≠ tail := by
        rintro rfl
        exact hb (Subtype.ext (Option.some.inj (hib.symm.trans hget)))
      exact hinstalled i b (by omega) hib

theorem Booting.installed {tail : Nat} (h : Booting L s D (.install tail))
    (ht : s.lh.length ≤ tail) : Booting L s D .clear := by
  obtain ⟨hdata, hpins, hout, hcom, hpan, hholds, hinstalled⟩ := h
  refine ⟨hdata, hpins, hout, hcom, hpan, hholds, ?_⟩
  intro b
  by_cases hb : b.1 ∈ s.lh
  · obtain ⟨i, hi⟩ := List.getElem?_of_mem hb
    have hlt := (List.getElem?_eq_some_iff.mp hi).1
    exact hinstalled i b (by omega) hi
  · exact hholds.other b hb

/-- The last write of the recovery hands over a machine with an empty log. -/
theorem Booting.erase (h : Booting L s D .erase) :
    Before L (write_head L s) D D 0 ∧ (write_head L s).lh = [] := by
  obtain ⟨hlh, hholds, hhome⟩ := h.stage
  have hmem : Mem L s [] D :=
    ⟨fun b => by rw [h.data, hhome], fun b _ => by rw [h.data], fun b => by simp [h.pins]⟩
  exact Erasing.write_head ⟨rfl, hlh, hholds, hmem⟩

/-! ## Evictions -/

theorem stage_evict {V : HomeBlock L → Block} {pc : CommitPc} {b : Nat} (h : Stage L s D V pc)
    (hb : s.pins b = 0) : Stage L (s.evict b) D V pc := by
  have hbefore : ∀ {tail}, Before L s D V tail → Before L (s.evict b) D V tail := fun h =>
    ⟨h.listed, h.holds, h.mem.evict hb, h.written⟩
  have hafter : ∀ {X}, After L s D V X → After L (s.evict b) D V X := fun h =>
    ⟨h.eq, h.holds, h.mem.evict hb⟩
  cases pc with
  | start | writeLog tail | writeHead => exact hbefore h
  | install tail | clear => exact hafter h
  | erase =>
      obtain ⟨heq, hlh, hholds, hmem⟩ := h
      exact ⟨heq, hlh, hholds, hmem.evict hb⟩
  | done => exact ⟨hbefore h.1, h.2⟩

theorem Booting.evict {pc : BootPc} (h : Booting L s D pc) (b : Nat) :
    Booting L (s.evict b) D pc where
  data := by
    rw [data_evict, ← h.data, Function.update_eq_self]
    exact h.data
  pins := h.pins
  outstanding := h.outstanding
  committing := h.committing
  panicked := h.panicked
  stage := by
    have hstage := h.stage
    cases pc <;> exact hstage

variable {T : Type} [Fintype T] {a : AtomicStore.State (HomeBlock L) Block}

theorem Up.evict {locs : T → Loc L} (h : Up s locs a) {b : Nat} (hb : s.pins b = 0) :
    Up (s.evict b) locs a := by
  refine ⟨h.holds, fun hp => ?_⟩
  have hlive := h.live hp
  refine ⟨hlive.outstanding, hlive.active, hlive.committing, hlive.rest, ?_, ?_⟩
  · intro hc
    have hstart : Stage L s a.durable a.volatile .start := hlive.quiet hc
    exact stage_evict hstart hb
  · intro t pc ops ht
    exact stage_evict (hlive.stage t pc ops ht) hb

/-! ## The simulation -/

/-- The relation between the machine and the store. -/
def Rel (m : Machine T L) (a : AtomicStore.State (HomeBlock L) Block) : Prop :=
  match m with
  | .boot s pc => Booting L s a.durable pc ∧ a.volatile = a.durable ∧ a.active = 0
  | .up k      => Up k.shared k.locs a

/-- What a client of the store sees of a step of the machine. -/
def Label.seen : Label T L → List (AtomicStore.Label (HomeBlock L) Block)
  | .run (.exec _ e) => e.seen
  | .crash           => [.crash]
  | _                => []

theorem rel_holds {m : Machine T L} (h : Rel m a) : ∃ hs, Holds L m.log.disk hs a.durable := by
  cases m with
  | boot s pc => exact h.1.holds
  | up k => exact h.holds

variable [DecidableEq T] {d : Nat → Block} {hs : List Nat} {c : HomeBlock L → Block}

theorem simulates (hd : Holds L d hs c) :
    Simulates (machine T L d) (AtomicStore.system c) Rel (fun _ => Label.seen) where
  init := by
    rintro _ rfl
    exact ⟨⟨c, c, 0⟩, rfl, booting_fresh hd, rfl, rfl⟩
  step := by
    rintro m e m' a - - hR hstep
    cases hstep with
    | @run k k' e hp hrun =>
        have hup : Up k.shared k.locs a := hR
        rcases hrun.locs with ⟨t, rfl, hshared, hlocs⟩ | ⟨t, f, rfl, hf, hshared, hlocs⟩
        · refine ⟨[], a, .nil a, ?_, rfl⟩
          show Up k'.shared k'.locs a
          rw [hshared, hlocs]
          exact hup
        · obtain ⟨tr, a', hrun', hup', hseen⟩ := matched_section (hup.live hp) hf
          refine ⟨tr, a', hrun', ?_, hseen⟩
          show Up k'.shared k'.locs a'
          rw [hshared, hlocs]
          exact hup'
    | @evict _ b hb =>
        refine ⟨[], a, .nil a, ?_, rfl⟩
        cases m with
        | boot s pc => exact ⟨hR.1.evict b, hR.2⟩
        | up k => exact Up.evict hR hb
    | crash =>
        obtain ⟨hs', hholds⟩ := rel_holds hR
        exact ⟨_, _, .single .crash, ⟨booting_fresh hholds, rfl, rfl⟩, rfl⟩
    | readHead => exact ⟨[], a, .nil a, ⟨hR.1.read_head, hR.2⟩, rfl⟩
    | install ht => exact ⟨[], a, .nil a, ⟨hR.1.install ht, hR.2⟩, rfl⟩
    | installed ht => exact ⟨[], a, .nil a, ⟨hR.1.installed ht, hR.2⟩, rfl⟩
    | clear =>
        obtain ⟨⟨hdata, hpins, hout, hcom, hpan, hholds, hhome⟩, heq⟩ := hR
        exact ⟨[], a, .nil a,
          ⟨⟨hdata, hpins, hout, hcom, hpan, rfl, ⟨_, hholds⟩, hhome⟩, heq⟩, rfl⟩
    | @erase s calls =>
        obtain ⟨hboot, hvol, hact⟩ := hR
        obtain ⟨hbefore, -⟩ := hboot.erase
        refine ⟨[], a, .nil a, Live.up ⟨?_, ?_, ?_, by simp [hact], ?_, ?_⟩, rfl⟩
        · rw [hact]
          exact hboot.outstanding
        · rw [hact, headcount_eq_zero]
          intro t
          rfl
        · have hcom : (write_head L s).committing = false := hboot.committing
          rw [hcom, Bool.toNat_false, headcount_eq_zero]
          intro t
          rfl
        · intro _
          rw [hvol]
          exact hbefore
        · intro t pc ops ht
          cases ht

/-- Whatever the processes do, and wherever the machine crashes, also during a recovery: the run
    is a run of a store with transactions. The disk holds the durable content in the end, and
    the processes find the volatile content in the cache. -/
theorem log_refines_store {m₀ m : Machine T L} {tr : List (Machine T L × Label T L)}
    (hd : Holds L d hs c) (h₀ : (machine T L d).init m₀) (h : (machine T L d).Run m₀ tr m) :
    ∃ tr' a, (AtomicStore.system c).Run ⟨c, c, 0⟩ tr' a ∧
      tr'.map Prod.snd = (tr.flatMap fun q => q.2.seen) ∧
      (∃ hs', Holds L m.log.disk hs' a.durable) ∧
      ∀ k, m = .up k → k.shared.panicked = none →
        ∀ b : HomeBlock L, k.shared.data b.1 = a.volatile b := by
  obtain ⟨a₀, tr', a, ha₀, hrun, hR, hseen⟩ := (simulates hd).run h₀ h
  obtain rfl : a₀ = ⟨c, c, 0⟩ := ha₀
  refine ⟨tr', a, hrun, hseen, rel_holds hR, ?_⟩
  rintro k rfl hp b
  exact (Up.live hR hp).data b

omit [Fintype T] in
/-- A process runs a section that wakes nobody. -/
theorem run_section {m₀ : Machine T L} {tr : List (Machine T L × Label T L)}
    {k : Config T State Unit (Loc L)} {l : Loc L} {f : State → Outcome State Unit (Loc L) (Event L)}
    (h : (machine T L d).Run m₀ tr (.up k)) (t : T) (hp : k.shared.panicked = none)
    (hl : (k.mode t).pc? = some l) (hf : (code L).sections l = [f])
    (hw : (f k.shared).wake = .none) :
    (machine T L d).Run m₀ (tr ++ [(.up k, .run (.exec t (f k.shared).event))])
      (.up ⟨(f k.shared).shared, Function.update k.mode t (f k.shared).next.mode⟩) := by
  refine h.snoc (.run hp (.exec hl (by rw [hf]; exact List.mem_singleton_self f) ?_))
  rw [hw]
  exact .none

/-- A disk on which every block holds its number, and the log is empty. -/
def numbered (b : Nat) : Block := fun _ => if b = 2 then 0 else BitVec.ofNat 32 b

theorem home_100 : mkfsLayout.Home 100 := ⟨by decide, .inr (by decide)⟩

theorem home_200 : mkfsLayout.Home 200 := ⟨by decide, .inr (by decide)⟩

/-- A call that fills a block with sevens. -/
def fillSevens (b : HomeBlock mkfsLayout) : List (Update mkfsLayout) := [⟨b.1, b.2, fun _ _ => 7⟩]

/-- A call writes block 100 and ends, and the machine crashes when the header of the log is
    written and nothing is at home. After the recovery a call writes block 200, and the
    machine crashes before it ends. The first write is kept, and the second one is lost. -/
theorem log_refines_store_crashes :
    ∃ tr k, (machine (Fin 1) mkfsLayout numbered).Run (.boot (fresh numbered) .readHead) tr (.up k) ∧
      (tr.flatMap fun q => q.2.seen) =
        [.start, .update ⟨100, home_100⟩ fun _ _ => 7, .finish, .commit, .crash, .start,
          .update ⟨200, home_200⟩ fun _ _ => 7, .crash] ∧
      k.shared.data 100 = (fun _ => 7) ∧ k.shared.data 200 = fun _ => 200 := by
  have hread : Step (T := Fin 1) (.boot (fresh numbered) .readHead) .boot
    (.boot (read_head mkfsLayout (fresh numbered)) (.install 0)) := .readHead
  have hstart : (machine (Fin 1) mkfsLayout numbered).Run _ _ _ := .single hread
  have hup : (machine (Fin 1) mkfsLayout numbered).Run _ _
      (.up ⟨_, fun _ => .ready (.idle [fillSevens ⟨100, home_100⟩])⟩) :=
    ((hstart.snoc (.installed le_rfl)).snoc .clear).snoc .erase
  have hbegin := run_section hup 0 rfl rfl rfl rfl
  have hupdate := run_section hbegin 0 rfl rfl rfl rfl
  have hend := run_section hupdate 0 rfl rfl rfl rfl
  have hcommit := run_section hend 0 rfl rfl rfl rfl
  have hlogged := run_section hcommit 0 rfl rfl rfl rfl
  have hdone := run_section hlogged 0 rfl rfl rfl rfl
  have hhead := run_section hdone 0 rfl rfl rfl rfl
  have hinstall := ((hhead.snoc .crash).snoc .readHead).snoc (.install (by decide))
  have hup' : (machine (Fin 1) mkfsLayout numbered).Run _ _
      (.up ⟨_, fun _ => .ready (.idle [fillSevens ⟨200, home_200⟩])⟩) :=
    ((hinstall.snoc (.installed (by decide))).snoc .clear).snoc .erase
  have hbegin' := run_section hup' 0 rfl rfl rfl rfl
  have hupdate' := run_section hbegin' 0 rfl rfl rfl rfl
  have hagain := ((hupdate'.snoc .crash).snoc .readHead).snoc (.installed (by decide))
  have hrun : (machine (Fin 1) mkfsLayout numbered).Run _ _ (.up ⟨_, fun _ => .ready (.idle [])⟩) :=
    (hagain.snoc .clear).snoc .erase
  obtain ⟨tr', a, hstore, hseen, -, hdata⟩ := log_refines_store (holds_home rfl) rfl hrun
  -- the store says what is left
  have hlabels : tr'.map Prod.snd =
      [.start, .update ⟨100, home_100⟩ fun _ _ => 7, .finish, .commit, .crash, .start,
        .update ⟨200, home_200⟩ fun _ _ => 7, .crash] := hseen
  have hvolatile : a.volatile = Function.update (fun b => numbered b.1) ⟨100, home_100⟩
      fun _ => 7 := by
    rw [AtomicStore.run_eq_after hstore, hlabels]
    rfl
  have hkept : a.volatile ⟨100, home_100⟩ = fun _ => 7 := by
    rw [hvolatile, Function.update_self]
  have hlost : a.volatile ⟨200, home_200⟩ = fun _ => 200 := by
    rw [hvolatile, Function.update_of_ne (by simp)]
    rfl
  exact ⟨_, _, hrun, rfl, (hdata _ rfl rfl _).trans hkept, (hdata _ rfl rfl _).trans hlost⟩

/-! ## Termination -/

end Log
