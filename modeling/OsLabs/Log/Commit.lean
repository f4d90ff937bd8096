-- SUMMARY: The invariant of the log: what the disk holds and what the cache holds while system calls run and in each stage of a commit, related to a store with transactions.
import OsLabs.Lib.AtomicStore
import OsLabs.Lib.Simulation
import OsLabs.Log.Disk

/-!
# Commits

The invariant of a commit says, for each of its stages, what the disk holds and which blocks are
pinned. Before the header is written the disk holds the old content, with an empty log. From
then on it holds the new content, first in the log and then at home.

Every section of a process is matched by what a store with transactions does.
-/

namespace Log

open Monitor TransitionSystem

variable {L : Layout} {s s' : State} {D V : HomeBlock L → Block} {X : List Nat}

/-! ## Memory -/

/-- The cache holds the content `V`. What is not pinned is also on the disk. -/
structure Mem (L : Layout) (s : State) (X : List Nat) (V : HomeBlock L → Block) : Prop where
  data : ∀ b : HomeBlock L, s.data b.1 = V b
  coherent : ∀ b, s.pins b = 0 → s.data b = s.disk b
  pinned : ∀ b, s.pins b = if b ∈ X then 1 else 0

theorem Mem.home (h : Mem L s X V) (b : HomeBlock L) (hb : b.1 ∉ X) : s.disk b.1 = V b := by
  rw [← h.coherent b.1 (by simp [h.pinned, hb]), h.data]

/-- A block is written to the disk. -/
theorem Mem.write (h : Mem L s X V) {x : Nat} {v : Block} {X' : List Nat}
    (hdata : s'.data = Function.update s.data x v) (hdisk : s'.disk = Function.update s.disk x v)
    (hpins : ∀ b, s'.pins b = if b ∈ X' then 1 else 0) (hX : ∀ b, b ≠ x → b ∈ X → b ∈ X')
    (hv : ∀ b : HomeBlock L, b.1 = x → v = V b) : Mem L s' X' V where
  data b := by
    rw [hdata]
    by_cases hb : b.1 = x
    · rw [← hv b hb, hb, Function.update_self]
    · rw [Function.update_of_ne hb, h.data]
  coherent b hb := by
    rw [hdata, hdisk]
    by_cases hbx : b = x
    · rw [hbx, Function.update_self, Function.update_self]
    · rw [Function.update_of_ne hbx, Function.update_of_ne hbx]
      apply h.coherent
      have hb' : b ∉ X' := by
        intro hmem
        simp [hpins, hmem] at hb
      have hbX : b ∉ X := fun hmem => hb' (hX b hbx hmem)
      simp [h.pinned, hbX]
  pinned := hpins

theorem Mem.evict (h : Mem L s X V) {b : Nat} (hb : s.pins b = 0) : Mem L (s.evict b) X V := by
  have hdata : (s.evict b).data = s.data := by
    rw [data_evict, ← h.coherent b hb, Function.update_eq_self]
  exact ⟨fun c => hdata ▸ h.data c, fun c hc => hdata ▸ h.coherent c hc, h.pinned⟩

/-! ## Stages of a commit -/

/-- Before the header is written. The first `tail` blocks are in the log. -/
structure Before (L : Layout) (s : State) (D V : HomeBlock L → Block) (tail : Nat) : Prop where
  listed : Listed L s.lh
  holds : Holds L s.disk [] D
  mem : Mem L s s.lh V
  written : ∀ i (b : HomeBlock L), i < tail → s.lh[i]? = some b.1 → s.disk (L.start + i + 1) = V b

/-- After the header is written. The blocks `X` are still to be installed. -/
structure After (L : Layout) (s : State) (D V : HomeBlock L → Block) (X : List Nat) : Prop where
  eq : D = V
  holds : Holds L s.disk s.lh V
  mem : Mem L s X V

/-- After all blocks are installed. -/
structure Erasing (L : Layout) (s : State) (D V : HomeBlock L → Block) : Prop where
  eq : D = V
  lh : s.lh = []
  holds : ∃ hs, Holds L s.disk hs V
  mem : Mem L s [] V

def Stage (L : Layout) (s : State) (D V : HomeBlock L → Block) : CommitPc → Prop
  | .start         => Before L s D V 0
  | .writeLog tail => Before L s D V tail
  | .writeHead     => Before L s D V s.lh.length
  | .install tail  => After L s D V (s.lh.drop tail)
  | .clear         => After L s D V []
  | .erase         => Erasing L s D V
  | .done          => Before L s D V 0 ∧ s.lh = []

/-- In every stage the disk holds the durable content. -/
theorem stage_holds {pc : CommitPc} (h : Stage L s D V pc) : ∃ hs, Holds L s.disk hs D := by
  cases pc with
  | start | writeLog tail | writeHead => exact ⟨[], Before.holds h⟩
  | install tail | clear =>
      obtain rfl : D = V := After.eq h
      exact ⟨s.lh, After.holds h⟩
  | erase =>
      obtain rfl : D = V := Erasing.eq h
      exact Erasing.holds h
  | done => exact ⟨[], h.1.holds⟩

/-- In every stage the cache holds the volatile content. -/
theorem stage_mem {pc : CommitPc} (h : Stage L s D V pc) : ∃ X, Mem L s X V := by
  cases pc with
  | start | writeLog tail | writeHead => exact ⟨_, Before.mem h⟩
  | install tail | clear => exact ⟨_, After.mem h⟩
  | erase => exact ⟨_, Erasing.mem h⟩
  | done => exact ⟨_, h.1.mem⟩

theorem Before.write_log {tail : Nat} (h : Before L s D V tail) (ht : tail < s.lh.length) :
    Before L (write_log L tail s) D V (tail + 1) := by
  have hget : s.lh[tail]? = some (s.lh.getD tail 0) := by simp [ht]
  have hfits := h.listed.fits hget
  have hhome := h.listed.home_at hget
  have hdisk := disk_write_log (s := s) L tail
  refine ⟨h.listed, ?_, ?_, ?_⟩
  · rw [hdisk]
    exact h.holds.write_log hfits _
  · refine h.mem.write (data_write_log L tail) hdisk h.mem.pinned (fun _ _ hb => hb) ?_
    intro b hb
    exact absurd hb (b.2.ne_log hfits)
  · intro i b hi hib
    have hib : s.lh[i]? = some b.1 := hib
    rw [hdisk]
    rcases Nat.lt_succ_iff_lt_or_eq.mp hi with hlt | rfl
    · rw [Function.update_of_ne (by omega)]
      exact h.written i b hlt hib
    · rw [Function.update_self, ← h.mem.data b]
      congr 1
      exact Option.some.inj (hget.symm.trans hib)

theorem Before.write_head (h : Before L s D V s.lh.length) :
    After L (write_head L s) V V s.lh := by
  have hdisk : (Log.write_head L s).disk =
      Function.update s.disk L.start (Block.setHead (s.data L.start) s.lh) := rfl
  refine ⟨rfl, ?_, ?_⟩
  · rw [hdisk]
    refine h.holds.commit h.listed ?_ ?_ _
    · intro i b hi
      exact h.written i b (List.getElem?_eq_some_iff.mp hi).1 hi
    · intro b hb
      rw [← h.holds.home b, h.mem.home b hb]
  · refine h.mem.write (data_write_head L) hdisk h.mem.pinned (fun _ _ hb => hb) ?_
    intro b hb
    exact absurd hb b.2.ne_start

theorem After.install {tail : Nat} (h : After L s D V (s.lh.drop tail)) (ht : tail < s.lh.length) :
    After L (install_trans L false tail s) D V (s.lh.drop (tail + 1)) := by
  have hget : s.lh[tail]? = some (s.lh.getD tail 0) := by simp [ht]
  have hlisted := h.holds.listed
  have hhome := hlisted.home_at hget
  have hfits := hlisted.fits hget
  have hlog : s.data (L.start + tail + 1) = V ⟨_, hhome⟩ := by
    have hnot : L.start + tail + 1 ∉ s.lh.drop tail := by
      intro hmem
      exact (hlisted.home _ (List.mem_of_mem_drop hmem)).ne_log hfits rfl
    rw [h.mem.coherent _ (by simp [h.mem.pinned, hnot])]
    exact h.holds.logged tail ⟨_, hhome⟩ hget
  have hdrop : s.lh.drop tail = s.lh.getD tail 0 :: s.lh.drop (tail + 1) := by
    rw [List.drop_eq_getElem_cons ht]
    simp [ht]
  have hnodup : s.lh.getD tail 0 ∉ s.lh.drop (tail + 1) := by
    have hnd := hlisted.nodup.sublist (List.drop_sublist tail s.lh)
    rw [hdrop] at hnd
    exact (List.nodup_cons.mp hnd).1
  have hdisk := disk_install_trans (s := s) L false tail
  refine ⟨h.eq, ?_, ?_⟩
  · rw [hdisk, hlog]
    exact h.holds.install ⟨_, hhome⟩
  · refine h.mem.write (data_install_trans L false tail) hdisk ?_ ?_ ?_
    · intro b
      have hpins : (install_trans L false tail s).pins =
          Function.update s.pins (s.lh.getD tail 0) (s.pins (s.lh.getD tail 0) - 1) := rfl
      rw [hpins]
      by_cases hb : b = s.lh.getD tail 0
      · rw [hb, Function.update_self, h.mem.pinned, hdrop, if_neg hnodup]
        simp
      · rw [Function.update_of_ne hb, h.mem.pinned, hdrop]
        simp only [List.mem_cons, hb, false_or]
    · intro b hb hmem
      rw [hdrop] at hmem
      exact (List.mem_cons.mp hmem).resolve_left hb
    · intro b hb
      rw [hlog]
      congr 1
      exact Subtype.ext hb.symm

theorem Erasing.write_head (h : Erasing L s D V) :
    Before L (write_head L s) D V 0 ∧ (write_head L s).lh = [] := by
  have hdisk : (Log.write_head L s).disk =
      Function.update s.disk L.start (Block.setHead (s.data L.start) s.lh) := rfl
  have hlh : (Log.write_head L s).lh = [] := h.lh
  refine ⟨⟨?_, ?_, ?_, by simp⟩, hlh⟩
  · rw [hlh]
    exact .nil L
  · rw [hdisk, h.lh, h.eq]
    exact Holds.erase (fun b => h.mem.home b (by simp)) _
  · rw [hlh]
    refine h.mem.write (data_write_head L) hdisk h.mem.pinned (fun _ _ hb => hb) ?_
    intro b hb
    exact absurd hb b.2.ne_start

/-- With nothing left in the log, nothing is left to be made durable. -/
theorem Before.durable_eq {tail : Nat} (h : Before L s D V tail) (hlh : s.lh = []) : D = V := by
  funext b
  rw [← h.holds.home b, h.mem.home b (by simp [hlh])]

/-! ## log_write -/

theorem log_write_frame (L : Layout) (b : Nat) (s : State) :
    (log_write L b s).disk = s.disk ∧ (log_write L b s).data = s.data ∧
      (log_write L b s).outstanding = s.outstanding ∧
      (log_write L b s).committing = s.committing := by
  unfold log_write
  split_ifs <;> exact ⟨rfl, rfl, rfl, rfl⟩

/-- What `log_write` does when it returns. -/
theorem log_write_returns {b : Nat} (h : (log_write L b s).panicked = none) :
    s.lh.length < LOGSIZE ∧ s.lh.length + 1 < L.size ∧
      log_write L b s = if b ∈ s.lh then s else { s.bpin b with lh := s.lh ++ [b] } := by
  unfold log_write at h ⊢
  split at h
  · cases h
  case isFalse hsmall =>
    split at h
    · cases h
    case isFalse hout =>
      rw [if_neg hsmall, if_neg hout]
      exact ⟨by omega, by omega, rfl⟩

theorem Listed.append {hs : List Nat} {b : Nat} (h : Listed L hs) (hb : b ∉ hs) (hhome : L.Home b)
    (hle : hs.length < LOGSIZE) (hlt : hs.length + 1 < L.size) : Listed L (hs ++ [b]) where
  nodup := by
    rw [← List.concat_eq_append]
    exact h.nodup.concat hb
  home c hc := by
    rcases List.mem_append.mp hc with hc | hc
    · exact h.home c hc
    · rw [List.mem_singleton.mp hc]
      exact hhome
  le := by
    rw [List.length_append]
    exact hle
  lt := by
    rw [List.length_append]
    exact hlt

/-- A block is listed and pinned at the same time. -/
theorem log_write_listed {b : Nat} (hlisted : Listed L s.lh)
    (hpins : ∀ c, s.pins c = if c ∈ s.lh then 1 else 0) (hhome : L.Home b)
    (h : (log_write L b s).panicked = none) :
    Listed L (log_write L b s).lh ∧
      (∀ c, (log_write L b s).pins c = if c ∈ (log_write L b s).lh then 1 else 0) ∧
      ∀ c, c ∈ (log_write L b s).lh ↔ c ∈ s.lh ∨ c = b := by
  obtain ⟨hle, hlt, heq⟩ := log_write_returns h
  rw [heq]
  split
  case isTrue hb =>
    refine ⟨hlisted, hpins, ?_⟩
    intro c
    constructor
    · exact .inl
    · rintro (hc | rfl)
      · exact hc
      · exact hb
  case isFalse hb =>
    refine ⟨hlisted.append hb hhome hle hlt, ?_, by simp⟩
    intro c
    by_cases hc : c = b
    · subst hc
      simp [State.bpin, hpins, hb]
    · simp [State.bpin, hpins, hc]

/-- An update in memory. The disk is not touched. -/
theorem Before.update (h : Before L s D V 0) (u : Update L)
    (hp : (log_write L u.blockno
      (s.fill u.blockno (u.modify (s.data u.blockno)))).panicked = none) :
    Before L (log_write L u.blockno (s.fill u.blockno (u.modify (s.data u.blockno)))) D
      (Function.update V ⟨u.blockno, u.home⟩ (u.modify (V ⟨u.blockno, u.home⟩))) 0 := by
  obtain ⟨hlisted, hpins, hmem⟩ := log_write_listed
    (s := s.fill u.blockno (u.modify (s.data u.blockno))) h.listed h.mem.pinned u.home hp
  obtain ⟨hdisk, hdata, -, -⟩ :=
    log_write_frame L u.blockno (s.fill u.blockno (u.modify (s.data u.blockno)))
  rw [data_fill] at hdata
  refine ⟨hlisted, ?_, ⟨?_, ?_, hpins⟩, by simp⟩
  · rw [hdisk]
    exact h.holds
  · intro c
    rw [hdata, h.mem.data ⟨u.blockno, u.home⟩]
    by_cases hc : c = ⟨u.blockno, u.home⟩
    · rw [hc, Function.update_self, Function.update_self]
    · rw [Function.update_of_ne hc, Function.update_of_ne fun hval => hc (Subtype.ext hval),
        h.mem.data]
  · intro c hc
    have hc : ¬ (c ∈ s.lh ∨ c = u.blockno) := by
      intro hor
      rw [hpins, if_pos ((hmem c).mpr hor)] at hc
      cases hc
    have hcb : c ≠ u.blockno := fun heq => hc (.inr heq)
    have hcs : c ∉ s.lh := fun hin => hc (.inl hin)
    rw [hdata, hdisk, Function.update_of_ne hcb]
    exact h.mem.coherent c (by rw [h.mem.pinned, if_neg hcs])

/-! ## Processes -/

def Loc.isActive : Loc L → Bool
  | .active _ _ _ => true
  | _             => false

def Loc.isCommit : Loc L → Bool
  | .commit _ _ => true
  | _           => false

variable {T : Type} [Fintype T]

/-- What the log and the processes say while there is no panic. -/
structure Live (s : State) (locs : T → Loc L) (a : AtomicStore.State (HomeBlock L) Block) :
    Prop where
  outstanding : s.outstanding = a.active
  active : headcount Loc.isActive locs = a.active
  committing : headcount Loc.isCommit locs = s.committing.toNat
  rest : s.committing = true → a.active = 0
  quiet : s.committing = false → Before L s a.durable a.volatile 0
  stage : ∀ t pc ops, locs t = .commit pc ops → Stage L s a.durable a.volatile pc

variable {locs : T → Loc L} {a a' : AtomicStore.State (HomeBlock L) Block}

theorem Live.committing_of_commit (h : Live s locs a) {t : T} (ht : (locs t).isCommit = true) :
    s.committing = true := by
  have hpos : 0 < headcount Loc.isCommit locs := headcount_pos.mpr ⟨t, ht⟩
  rw [h.committing] at hpos
  cases hc : s.committing with
  | true => rfl
  | false => simp [hc] at hpos

theorem Live.not_committing_of_active (h : Live s locs a) {t : T} (ht : (locs t).isActive = true) :
    s.committing = false ∧ 0 < a.active := by
  have hpos : 0 < headcount Loc.isActive locs := headcount_pos.mpr ⟨t, ht⟩
  rw [h.active] at hpos
  refine ⟨?_, hpos⟩
  cases hc : s.committing with
  | true => exact absurd (h.rest hc) hpos.ne'
  | false => rfl

variable [DecidableEq T]

/-- One process moves on. The others notice nothing, or none of them commits. -/
theorem Live.move (h : Live s locs a) {t : T} {l : Loc L}
    (hout : s'.outstanding = a'.active)
    (hactive : a'.active + (locs t).isActive.toNat = a.active + l.isActive.toNat)
    (hcommitting : s'.committing.toNat + (locs t).isCommit.toNat =
      s.committing.toNat + l.isCommit.toNat)
    (hrest : s'.committing = true → a'.active = 0)
    (hquiet : s'.committing = false → Before L s' a'.durable a'.volatile 0)
    (hstage : ∀ pc ops, l = .commit pc ops → Stage L s' a'.durable a'.volatile pc)
    (hothers : (s' = s ∧ a' = a) ∨ s.committing = false ∨ (locs t).isCommit = true) :
    Live s' (Function.update locs t l) a' where
  outstanding := hout
  active := by
    have hcount := headcount_update Loc.isActive locs t l
    have := h.active
    omega
  committing := by
    have hcount := headcount_update Loc.isCommit locs t l
    have := h.committing
    omega
  rest := hrest
  quiet := hquiet
  stage u pc ops hu := by
    by_cases hut : u = t
    · subst hut
      rw [Function.update_self] at hu
      exact hstage pc ops hu
    · rw [Function.update_of_ne hut] at hu
      rcases hothers with ⟨rfl, rfl⟩ | hfalse | htrue
      · exact h.stage u pc ops hu
      · have := h.committing_of_commit (t := u) (by rw [hu]; rfl)
        rw [hfalse] at this
        cases this
      · have hone : headcount Loc.isCommit locs ≤ 1 := by
          rw [h.committing]
          exact Bool.toNat_le _
        exact absurd (eq_of_headcount_le_one hone (by rw [hu]; rfl) htrue) hut

/-! ## Sections -/

/-- What a client of the store sees. -/
def Event.seen : Event L → List (AtomicStore.Label (HomeBlock L) Block)
  | .begins    => [.start]
  | .updates u => [.update ⟨u.blockno, u.home⟩ u.modify]
  | .ends      => [.finish]
  | .commits   => [.commit]
  | .returns   => [.sync]
  | _          => []

/-- The relation between the machine with its processes and the store. After a panic only the
    disk counts. -/
structure Up (s : State) (locs : T → Loc L) (a : AtomicStore.State (HomeBlock L) Block) :
    Prop where
  holds : ∃ hs, Holds L s.disk hs a.durable
  live : s.panicked = none → Live s locs a

omit [DecidableEq T] in
theorem Live.exists_stage (h : Live s locs a) : ∃ pc, Stage L s a.durable a.volatile pc := by
  cases hc : s.committing with
  | false => exact ⟨.start, h.quiet hc⟩
  | true =>
      have hpos : 0 < headcount Loc.isCommit locs := by
        rw [h.committing, hc]
        decide
      obtain ⟨t, ht⟩ := headcount_pos.mp hpos
      cases hloc : locs t with
      | commit pc ops => exact ⟨pc, h.stage t pc ops hloc⟩
      | idle ops | active op i ops =>
          rw [hloc] at ht
          cases ht

omit [DecidableEq T] in
theorem Live.holds (h : Live s locs a) : ∃ hs, Holds L s.disk hs a.durable := by
  obtain ⟨pc, hstage⟩ := h.exists_stage
  exact stage_holds hstage

omit [DecidableEq T] in
theorem Live.data (h : Live s locs a) (b : HomeBlock L) : s.data b.1 = a.volatile b := by
  obtain ⟨pc, hstage⟩ := h.exists_stage
  obtain ⟨X, hmem⟩ := stage_mem hstage
  exact hmem.data b

omit [DecidableEq T] in
theorem Live.up (h : Live s locs a) : Up s locs a := ⟨h.holds, fun _ => h⟩

variable {c : HomeBlock L → Block}

/-- A section of a process, and what the store does. -/
def Matched (c : HomeBlock L → Block) (a : AtomicStore.State (HomeBlock L) Block) (locs : T → Loc L) (t : T)
    (o : Outcome State Unit (Loc L) (Event L)) : Prop :=
  ∃ tr a', (AtomicStore.system c).Run a tr a' ∧
    Up o.shared (Function.update locs t o.next.loc) a' ∧ tr.map Prod.snd = o.event.seen

theorem matched_begin_op (h : Live s locs a) {t : T} {op : List (Update L)}
    {ops : List (List (Update L))} (ht : locs t = .idle (op :: ops)) :
    Matched c a locs t (begin_op op ops s) := by
  have hwait : Live s (Function.update locs t (.idle (op :: ops))) a := by
    rw [← ht, Function.update_eq_self]
    exact h
  unfold begin_op
  split
  case isTrue hc => exact ⟨[], a, .nil a, hwait.up, rfl⟩
  case isFalse hc =>
    split
    case isTrue hfull => exact ⟨[], a, .nil a, hwait.up, rfl⟩
    case isFalse hfull =>
      have hc : s.committing = false := by simpa using hc
      refine ⟨_, _, .single .start, Live.up ?_, rfl⟩
      refine h.move ?_ ?_ ?_ ?_ ?_ (by simp [Next.loc]) (.inr (.inl hc))
      · simp [h.outstanding]
      · simp [ht, Loc.isActive, Next.loc]
      · simp [ht, Loc.isCommit, Next.loc]
      · simp [hc]
      · intro _
        obtain ⟨hlisted, hholds, ⟨hdata, hcoherent, hpinned⟩, hwritten⟩ := h.quiet hc
        exact ⟨hlisted, hholds, ⟨hdata, hcoherent, hpinned⟩, hwritten⟩

theorem matched_update (h : Live s locs a) {t : T} {op : List (Update L)} {i j : Nat}
    {ops : List (List (Update L))} (ht : locs t = .active op i ops) (u : Update L) :
    Matched c a locs t (update u (.active op j ops) s) := by
  have hactive : (locs t).isActive = true := by
    rw [ht]
    rfl
  obtain ⟨hc, hpos⟩ := h.not_committing_of_active hactive
  have hquiet := h.quiet hc
  obtain ⟨hdisk, -, hout, hcom⟩ :=
    log_write_frame L u.blockno (s.fill u.blockno (u.modify (s.data u.blockno)))
  have hcom : (log_write L u.blockno
      (s.fill u.blockno (u.modify (s.data u.blockno)))).committing = false := hcom.trans hc
  unfold Log.update
  dsimp only
  by_cases hp : (log_write L u.blockno
      (s.fill u.blockno (u.modify (s.data u.blockno)))).panicked = none
  · rw [if_pos hp]
    refine ⟨_, _, .single (.update hpos), Live.up ?_, rfl⟩
    refine h.move ?_ ?_ ?_ ?_ ?_ (by simp [Next.loc]) (.inr (.inl hc))
    · rw [hout]
      exact h.outstanding
    · simp [ht, Loc.isActive, Next.loc]
    · simp [ht, hc, hcom, Loc.isCommit, Next.loc]
    · simp [hcom]
    · intro _
      exact hquiet.update u hp
  · rw [if_neg hp]
    refine ⟨[], a, .nil a, ⟨?_, fun hnone => absurd hnone hp⟩, rfl⟩
    rw [hdisk]
    exact ⟨[], hquiet.holds⟩

theorem matched_end_op (h : Live s locs a) {t : T} {op : List (Update L)} {i : Nat}
    {ops : List (List (Update L))} (ht : locs t = .active op i ops) :
    Matched c a locs t (end_op ops s) := by
  have hactive : (locs t).isActive = true := by
    rw [ht]
    rfl
  obtain ⟨hc, hpos⟩ := h.not_committing_of_active hactive
  obtain ⟨hlisted, hholds, ⟨hdata, hcoherent, hpinned⟩, hwritten⟩ := h.quiet hc
  have hout : s.outstanding - 1 = ((a.active - 1 : Nat) : Int) := by
    rw [h.outstanding]
    omega
  unfold end_op
  simp only [hc, Bool.false_eq_true, if_false]
  split
  case isTrue hlast =>
    refine ⟨_, _, .single (.finish hpos), Live.up ?_, rfl⟩
    refine h.move hout ?_ ?_ ?_ (by simp) ?_ (.inr (.inl hc))
    · simp only [ht, Loc.isActive, Next.loc, Bool.toNat_true, Bool.toNat_false]
      omega
    · simp [ht, hc, Loc.isCommit, Next.loc]
    · intro _
      simp only
      omega
    · intro pc ops' hl
      cases hl
      exact ⟨hlisted, hholds, ⟨hdata, hcoherent, hpinned⟩, hwritten⟩
  case isFalse hlast =>
    refine ⟨_, _, .single (.finish hpos), Live.up ?_, rfl⟩
    refine h.move hout ?_ ?_ (by simp) ?_ (by simp [Next.loc]) (.inr (.inl hc))
    · simp only [ht, Loc.isActive, Next.loc, Bool.toNat_true, Bool.toNat_false]
      omega
    · simp [ht, hc, Loc.isCommit, Next.loc]
    · intro _
      exact ⟨hlisted, hholds, ⟨hdata, hcoherent, hpinned⟩, hwritten⟩

/-- One step within a commit. -/
theorem Live.commit (h : Live s locs a) {t : T} {pc pc' : CommitPc}
    {ops : List (List (Update L))} (ht : locs t = .commit pc ops)
    (hout : s'.outstanding = s.outstanding) (hcom : s'.committing = s.committing)
    (ha : a'.active = a.active) (hstage : Stage L s' a'.durable a'.volatile pc') :
    Live s' (Function.update locs t (.commit pc' ops)) a' := by
  have hcommit : (locs t).isCommit = true := by
    rw [ht]
    rfl
  have htrue := h.committing_of_commit hcommit
  refine h.move ?_ ?_ ?_ ?_ ?_ ?_ (.inr (.inr hcommit))
  · rw [hout, ha, h.outstanding]
  · simp [ht, ha, Loc.isActive]
  · simp [ht, hcom, Loc.isCommit]
  · intro _
    rw [ha]
    exact h.rest htrue
  · intro hfalse
    rw [hcom, htrue] at hfalse
    cases hfalse
  · intro pc₁ ops₁ hl
    cases hl
    exact hstage

theorem matched_commit (h : Live s locs a) {t : T} {pc : CommitPc}
    {ops : List (List (Update L))} (ht : locs t = .commit pc ops) :
    Matched c a locs t (commit pc ops s) := by
  have hstage := h.stage t pc ops ht
  have hcommit : (locs t).isCommit = true := by
    rw [ht]
    rfl
  have htrue := h.committing_of_commit hcommit
  -- a step of which the store sees nothing
  have hsilent : ∀ {s' : State} {pc' : CommitPc}, s'.outstanding = s.outstanding →
      s'.committing = s.committing → Stage L s' a.durable a.volatile pc' →
      Matched c a locs t ⟨s', .goto (.commit pc' ops), .none, .silent⟩ := by
    intro s' pc' hout hcom hstage'
    exact ⟨[], a, .nil a, (h.commit ht hout hcom rfl hstage').up, rfl⟩
  cases pc with
  | start =>
      by_cases hn : 0 < s.lh.length
      · rw [Log.commit, if_pos hn]
        exact hsilent rfl rfl hstage
      · rw [Log.commit, if_neg hn]
        exact hsilent rfl rfl ⟨hstage, by simpa using hn⟩
  | writeLog tail =>
      by_cases htail : tail < s.lh.length
      · rw [Log.commit, if_pos htail]
        exact hsilent rfl rfl (Before.write_log hstage htail)
      · rw [Log.commit, if_neg htail]
        obtain ⟨hlisted, hholds, hmem, hwritten⟩ : Before L s a.durable a.volatile tail := hstage
        refine hsilent rfl rfl ⟨hlisted, hholds, hmem, ?_⟩
        intro i b hi hib
        exact hwritten i b (by omega) hib
  | writeHead =>
      refine ⟨_, _, .single (.commit (h.rest htrue)), Live.up ?_, rfl⟩
      have hinstall : Stage L (write_head L s) a.volatile a.volatile (.install 0) :=
        Before.write_head hstage
      exact h.commit ht rfl rfl rfl hinstall
  | install tail =>
      by_cases htail : tail < s.lh.length
      · rw [Log.commit, if_pos htail]
        exact hsilent rfl rfl (After.install hstage htail)
      · rw [Log.commit, if_neg htail]
        obtain ⟨heq, hholds, hmem⟩ : After L s a.durable a.volatile (s.lh.drop tail) := hstage
        rw [List.drop_eq_nil_of_le (by omega)] at hmem
        exact hsilent rfl rfl ⟨heq, hholds, hmem⟩
  | clear =>
      obtain ⟨heq, hholds, hmem⟩ : After L s a.durable a.volatile [] := hstage
      have herase : Erasing L { s with lh := [] } a.durable a.volatile :=
        ⟨heq, rfl, ⟨s.lh, hholds⟩, ⟨hmem.data, hmem.coherent, hmem.pinned⟩⟩
      exact hsilent rfl rfl herase
  | erase => exact hsilent rfl rfl (Erasing.write_head hstage)
  | done =>
      obtain ⟨hbefore, hlh⟩ := hstage
      unfold Log.commit
      refine ⟨_, _, .single (.sync (h.rest htrue) (hbefore.durable_eq hlh)), Live.up ?_, rfl⟩
      obtain ⟨hlisted, hholds, ⟨hdata, hcoherent, hpinned⟩, hwritten⟩ := hbefore
      refine h.move h.outstanding ?_ ?_ (by simp) ?_ (by simp [Next.loc]) (.inr (.inr hcommit))
      · simp [ht, Loc.isActive, Next.loc]
      · simp [ht, htrue, Loc.isCommit, Next.loc]
      · intro _
        exact ⟨hlisted, hholds, ⟨hdata, hcoherent, hpinned⟩, hwritten⟩

theorem matched_section (h : Live s locs a) {t : T} {f : State → Outcome State Unit (Loc L) (Event L)}
    (hf : f ∈ (code L).sections (locs t)) : Matched c a locs t (f s) := by
  rcases section_cases hf with ⟨op, ops, ht, rfl⟩ | ⟨op, i, ops, u, ht, -, rfl⟩ |
    ⟨op, i, ops, ht, rfl⟩ | ⟨pc, ops, ht, rfl⟩
  · exact matched_begin_op h ht
  · exact matched_update h ht u
  · exact matched_end_op h ht
  · exact matched_commit h ht

end Log
