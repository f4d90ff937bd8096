-- SUMMARY: Space in the log: what begin_op reserves is enough for log_write, if the log has a block more than mkfs gives it, and whoever sleeps in begin_op has somebody to wait for.
import OsLabs.Log.Commit
import OsLabs.Lib.Schedule

/-!
# Reservations

`begin_op` lets a system call in only if there is room in the log for `MAXOPBLOCKS` blocks of its
own, next to what is logged already and to what the calls in progress may still
need. The blocks that a call has logged count against its reservation.

`log_write` tests for room before it looks whether the block is logged already. So a call may
not come to `log_write` again after its reservation is used up, for whatever block.
-/

namespace Log

open Monitor TransitionSystem

variable {L : Layout}

/-- The blocks of a list of updates. -/
def blocks (us : List (Update L)) : Finset Nat := (us.map Update.blockno).toFinset

/-- A system call that keeps to its reservation: before its last update it has changed fewer than
    `MAXOPBLOCKS` blocks. -/
def Fits (op : List (Update L)) : Prop := (blocks op.dropLast).card < MAXOPBLOCKS

instance (op : List (Update L)) : Decidable (Fits op) :=
  inferInstanceAs (Decidable ((blocks op.dropLast).card < MAXOPBLOCKS))

/-- What a process may still add to the log. -/
def Loc.need : Loc L → Nat
  | .active op i _ => MAXOPBLOCKS - (blocks (op.take i)).card
  | _              => 0

def Loc.Fits : Loc L → Prop
  | .idle ops        => ∀ op ∈ ops, Log.Fits op
  | .active op _ ops => Log.Fits op ∧ ∀ op ∈ ops, Log.Fits op
  | .commit _ ops    => ∀ op ∈ ops, Log.Fits op

variable {T : Type} [Fintype T] [DecidableEq T]

/-- The processes start with an empty log. -/
def threads (s₀ : State) (calls : T → List (List (Update L))) :
    TransitionSystem (Config T State Unit (Loc L)) (Monitor.Label T (Event L)) :=
  systemOf (code L) s₀ fun t => .idle (calls t)

/-- A log as recovery leaves it behind. -/
structure Clean (L : Layout) (s : State) (c : HomeBlock L → Block) : Prop where
  before : Before L s c c 0
  lh : s.lh = []
  outstanding : s.outstanding = 0
  committing : s.committing = false
  panicked : s.panicked = none

variable {s s' : State} {locs : T → Loc L} {a : AtomicStore.State (HomeBlock L) Block}

/-- The reservations, as long as there is no panic. -/
structure Room (s : State) (locs : T → Loc L) : Prop where
  room : s.committing = false → s.lh.length + ∑ t, (locs t).need ≤ LOGSIZE
  logged : ∀ t op i ops, locs t = .active op i ops → ∀ u ∈ op.take i, u.blockno ∈ s.lh
  fits : ∀ t, (locs t).Fits

theorem sum_need_update (locs : T → Loc L) (t : T) (l : Loc L) :
    ∑ u, (Function.update locs t l u).need + (locs t).need = ∑ u, (locs u).need + l.need := by
  have hrest : ∑ u ∈ Finset.univ.erase t, (Function.update locs t l u).need =
      ∑ u ∈ Finset.univ.erase t, (locs u).need := by
    apply Finset.sum_congr rfl
    intro u hu
    rw [Function.update_of_ne (Finset.ne_of_mem_erase hu)]
  rw [← Finset.add_sum_erase _ _ (Finset.mem_univ t),
    ← Finset.add_sum_erase _ (fun u => (locs u).need) (Finset.mem_univ t), hrest,
    Function.update_self]
  omega

omit [DecidableEq T] in
theorem sum_need_le (locs : T → Loc L) :
    ∑ t, (locs t).need ≤ MAXOPBLOCKS * headcount Loc.isActive locs := by
  rw [headcount_eq_sum, Finset.mul_sum]
  apply Finset.sum_le_sum
  intro t _
  cases locs t with
  | active op i ops => exact Nat.sub_le ..
  | idle ops | commit pc ops => exact Nat.zero_le _

/-- One process moves on. The others keep what they have logged, or are not in a system call. -/
theorem Room.move (h : Room s locs) {t : T} {l : Loc L}
    (hroom : s'.committing = false → s'.lh.length + ∑ u, (Function.update locs t l u).need ≤ LOGSIZE)
    (hlogged : ∀ op i ops, l = .active op i ops → ∀ u ∈ op.take i, u.blockno ∈ s'.lh)
    (hkeep : s.lh ⊆ s'.lh ∨ ∀ u, (locs u).isActive = false) (hfits : l.Fits) :
    Room s' (Function.update locs t l) where
  room := hroom
  logged u op i ops hu := by
    by_cases hut : u = t
    · subst hut
      rw [Function.update_self] at hu
      exact hlogged op i ops hu
    · rw [Function.update_of_ne hut] at hu
      rcases hkeep with hkeep | hnone
      · exact fun v hv => hkeep (h.logged u op i ops hu v hv)
      · have := hnone u
        rw [hu] at this
        cases this
  fits u := by
    by_cases hut : u = t
    · subst hut
      rw [Function.update_self]
      exact hfits
    · rw [Function.update_of_ne hut]
      exact h.fits u

theorem room_begin_op (hlive : Live s locs a) (h : Room s locs) {t : T} {op : List (Update L)}
    {ops : List (List (Update L))} (ht : locs t = .idle (op :: ops)) :
    Room (begin_op op ops s).shared
      (Function.update locs t (begin_op op ops s).next.loc) := by
  have hwait : Room s (Function.update locs t (.idle (op :: ops))) := by
    rw [← ht, Function.update_eq_self]
    exact h
  have hfits : ∀ op' ∈ op :: ops, Log.Fits op' := by
    have := h.fits t
    rw [ht] at this
    exact this
  unfold begin_op
  split
  case isTrue hc => exact hwait
  case isFalse hc =>
    split
    case isTrue hfull => exact hwait
    case isFalse hfull =>
      refine h.move ?_ ?_ (.inl fun _ hb => hb)
        ⟨hfits op (by simp), fun op' hop' => hfits op' (by simp [hop'])⟩
      · intro _
        have hsum := sum_need_update locs t (.active op 0 ops)
        have hle := sum_need_le locs
        have hneed : (Loc.active op 0 ops).need = MAXOPBLOCKS := by simp [Loc.need, blocks]
        have hidle : (locs t).need = 0 := by
          rw [ht]
          rfl
        rw [hlive.outstanding] at hfull
        rw [hlive.active] at hle
        simp only [MAXOPBLOCKS, LOGSIZE, Next.loc] at *
        omega
      · rintro _ _ _ heq
        cases heq
        simp

theorem blocks_take_succ {op : List (Update L)} {i : Nat} {u : Update L} (hu : op[i]? = some u) :
    blocks (op.take (i + 1)) = insert u.blockno (blocks (op.take i)) := by
  rw [List.take_add_one, hu]
  ext b
  simp [blocks]

/-- Before its last update a call has something left of its reservation. -/
theorem need_pos {op : List (Update L)} {i : Nat} {u : Update L} (hfits : Log.Fits op)
    (hu : op[i]? = some u) : (blocks (op.take i)).card < MAXOPBLOCKS := by
  refine lt_of_le_of_lt (Finset.card_le_card ?_) hfits
  have hlt := (List.getElem?_eq_some_iff.mp hu).1
  intro b hb
  rw [blocks, List.mem_toFinset, List.mem_map] at hb ⊢
  obtain ⟨v, hv, rfl⟩ := hb
  refine ⟨v, ?_, rfl⟩
  rw [List.dropLast_eq_take]
  exact List.take_subset_take_left op (by omega) hv

theorem log_write_room {b : Nat} (hle : s.lh.length < LOGSIZE) (hlt : s.lh.length + 1 < L.size)
    (hout : 1 ≤ s.outstanding) (hp : s.panicked = none) : (log_write L b s).panicked = none := by
  unfold log_write
  rw [if_neg (by omega), if_neg (by omega)]
  split <;> exact hp

omit [DecidableEq T] in
/-- With a reservation left, `log_write` finds room. -/
theorem room_log_write (hlive : Live s locs a) (h : Room s locs) (hsize : LOGSIZE < L.size) {t : T}
    {op : List (Update L)} {i : Nat} {ops : List (List (Update L))} {u : Update L}
    (ht : locs t = .active op i ops) (hu : op[i]? = some u) (hp : s.panicked = none) (v : Block) :
    (log_write L u.blockno (s.fill u.blockno v)).panicked = none := by
  have hactive : (locs t).isActive = true := by
    rw [ht]
    rfl
  obtain ⟨hc, hpos⟩ := hlive.not_committing_of_active hactive
  have hfits : Log.Fits op := by
    have := h.fits t
    rw [ht] at this
    exact this.1
  have hneed : 1 ≤ (locs t).need := by
    rw [ht]
    exact Nat.sub_pos_of_lt (need_pos hfits hu)
  have hle : (locs t).need ≤ ∑ t, (locs t).need :=
    Finset.single_le_sum (f := fun t => (locs t).need) (fun _ _ => Nat.zero_le _) (Finset.mem_univ t)
  have hroom := h.room hc
  refine log_write_room ?_ ?_ ?_ hp
  · show s.lh.length < LOGSIZE
    omega
  · show s.lh.length + 1 < L.size
    omega
  · show 1 ≤ s.outstanding
    rw [hlive.outstanding]
    omega

theorem room_update (hlive : Live s locs a) (h : Room s locs) {t : T}
    {op : List (Update L)} {i : Nat} {ops : List (List (Update L))} {u : Update L}
    (ht : locs t = .active op i ops) (hu : op[i]? = some u) {v : Block}
    (hp : (log_write L u.blockno (s.fill u.blockno v)).panicked = none) :
    Room (log_write L u.blockno (s.fill u.blockno v))
      (Function.update locs t (.active op (i + 1) ops)) := by
  have hactive : (locs t).isActive = true := by
    rw [ht]
    rfl
  obtain ⟨hc, hpos⟩ := hlive.not_committing_of_active hactive
  have hfits := h.fits t
  rw [ht] at hfits
  have hlogged := h.logged t op i ops ht
  obtain ⟨-, -, heq⟩ := log_write_returns hp
  have hsub : s.lh ⊆ (log_write L u.blockno (s.fill u.blockno v)).lh := by
    rw [heq]
    split
    · exact fun _ hb => hb
    · exact List.subset_append_left ..
  have hself : u.blockno ∈ (log_write L u.blockno (s.fill u.blockno v)).lh := by
    rw [heq]
    split
    case isTrue hb => exact hb
    case isFalse => simp
  refine h.move ?_ ?_ (.inl hsub) hfits
  · intro _
    have hsum := sum_need_update locs t (.active op (i + 1) ops)
    have hroom := h.room hc
    have hcard := need_pos hfits.1 hu
    have hold : (locs t).need = MAXOPBLOCKS - (blocks (op.take i)).card := by
      rw [ht]
      rfl
    have hnew : (Loc.active op (i + 1) ops).need =
        MAXOPBLOCKS - (insert u.blockno (blocks (op.take i))).card := by
      rw [← blocks_take_succ hu]
      rfl
    have hle := Finset.card_le_card (Finset.subset_insert u.blockno (blocks (op.take i)))
    rw [heq]
    split
    case isTrue hb =>
      have hlen : (s.fill u.blockno v).lh.length = s.lh.length := rfl
      omega
    case isFalse hb =>
      -- a block that is new to the log is new to the call
      have hfresh : u.blockno ∉ blocks (op.take i) := by
        intro hmem
        rw [blocks, List.mem_toFinset, List.mem_map] at hmem
        obtain ⟨w, hw, hwb⟩ := hmem
        exact hb (hwb ▸ hlogged w hw)
      rw [Finset.card_insert_of_notMem hfresh] at hnew
      have hlen : ((s.fill u.blockno v).lh ++ [u.blockno]).length = s.lh.length + 1 := by
        simp [State.fill]
      dsimp only
      omega
  · intro op' i' ops' hl w hw
    cases hl
    rw [List.take_add_one, hu] at hw
    rcases List.mem_append.mp hw with hw | hw
    · exact hsub (hlogged w hw)
    · obtain rfl : w = u := by simpa using hw
      exact hself

theorem room_end_op (hlive : Live s locs a) (h : Room s locs) (hp : s.panicked = none) {t : T}
    {op : List (Update L)} {i : Nat} {ops : List (List (Update L))}
    (ht : locs t = .active op i ops) :
    (end_op ops s).shared.panicked = none ∧
      Room (end_op ops s).shared (Function.update locs t (end_op ops s).next.loc) := by
  have hactive : (locs t).isActive = true := by
    rw [ht]
    rfl
  obtain ⟨hc, -⟩ := hlive.not_committing_of_active hactive
  have hfits := h.fits t
  rw [ht] at hfits
  have hroom := h.room hc
  unfold end_op
  simp only [hc, Bool.false_eq_true, if_false]
  split
  · exact ⟨hp, h.move (by simp) (by simp [Next.loc]) (.inl fun _ hb => hb) hfits.2⟩
  · refine ⟨hp, h.move ?_ (by simp [Next.loc]) (.inl fun _ hb => hb) hfits.2⟩
    intro _
    have hsum := sum_need_update locs t (.idle ops)
    have hneed : (Loc.idle ops).need = 0 := rfl
    dsimp only [Next.loc]
    omega

/-- A step of a commit goes on with the commit, or is the last one. -/
theorem commit_cases (pc : CommitPc) (ops : List (List (Update L))) (s : State) :
    (commit pc ops s).shared.panicked = s.panicked ∧
    (commit pc ops s).shared.outstanding = s.outstanding ∧
    ((pc = .done ∧ (commit pc ops s).shared.lh = s.lh ∧
        (commit pc ops s).shared.committing = false ∧ (commit pc ops s).next = .goto (.idle ops) ∧
        (commit pc ops s).wake = .broadcast ()) ∨
      ((commit pc ops s).shared.committing = s.committing ∧
        ∃ pc', (commit pc ops s).next = .goto (.commit pc' ops))) := by
  cases pc with
  | writeLog tail | install tail =>
      by_cases htail : tail < s.lh.length
      · rw [commit, if_pos htail]
        exact ⟨rfl, rfl, .inr ⟨rfl, _, rfl⟩⟩
      · rw [commit, if_neg htail]
        exact ⟨rfl, rfl, .inr ⟨rfl, _, rfl⟩⟩
  | start | writeHead | clear | erase => exact ⟨rfl, rfl, .inr ⟨rfl, _, rfl⟩⟩
  | done => exact ⟨rfl, rfl, .inl ⟨rfl, rfl, rfl, rfl, rfl⟩⟩

theorem room_commit (hlive : Live s locs a) (h : Room s locs) {t : T} {pc : CommitPc}
    {ops : List (List (Update L))} (ht : locs t = .commit pc ops) :
    Room (commit pc ops s).shared (Function.update locs t (commit pc ops s).next.loc) := by
  have hcommit : (locs t).isCommit = true := by
    rw [ht]
    rfl
  have htrue := hlive.committing_of_commit hcommit
  have hnone : headcount Loc.isActive locs = 0 := by
    rw [hlive.active]
    exact hlive.rest htrue
  have hfits : ∀ op ∈ ops, Log.Fits op := by
    have := h.fits t
    rw [ht] at this
    exact this
  have hstage := hlive.stage t pc ops ht
  obtain ⟨-, -, ⟨rfl, hlh, -, hnext, -⟩ | ⟨hcom, pc', hnext⟩⟩ := commit_cases pc ops s
  · refine h.move ?_ (by simp [hnext, Next.loc]) (.inr (headcount_eq_zero.mp hnone)) ?_
    · intro _
      have hsum := sum_need_update locs t (.idle ops)
      have hle := sum_need_le locs
      have hneed : (Loc.idle ops).need = 0 := rfl
      rw [hnone, Nat.mul_zero] at hle
      rw [hlh, hstage.2, hnext]
      simp only [List.length_nil, Next.loc]
      omega
    · rw [hnext]
      exact hfits
  · refine h.move ?_ (by simp [hnext, Next.loc]) (.inr (headcount_eq_zero.mp hnone)) ?_
    · intro hfalse
      rw [hcom, htrue] at hfalse
      cases hfalse
    · rw [hnext]
      exact hfits

theorem room_section (hlive : Live s locs a) (h : Room s locs) (hsize : LOGSIZE < L.size)
    (hp : s.panicked = none) {t : T} {f : State → Outcome State Unit (Loc L) (Event L)}
    (hf : f ∈ (code L).sections (locs t)) :
    (f s).shared.panicked = none ∧ Room (f s).shared (Function.update locs t (f s).next.loc) := by
  rcases section_cases hf with ⟨op, ops, ht, rfl⟩ | ⟨op, i, ops, u, ht, hu, rfl⟩ |
    ⟨op, i, ops, ht, rfl⟩ | ⟨pc, ops, ht, rfl⟩
  · refine ⟨?_, room_begin_op hlive h ht⟩
    unfold begin_op
    split_ifs <;> exact hp
  · have hroom := room_log_write hlive h hsize ht hu hp (u.modify (s.data u.blockno))
    exact ⟨hroom, room_update hlive h ht hu hroom⟩
  · exact room_end_op hlive h hp ht
  · exact ⟨(commit_cases pc ops s).1.trans hp, room_commit hlive h ht⟩

/-! ## Runs -/

omit [DecidableEq T] in
/-- The processes and the log agree with a store, as long as there is no panic. -/
theorem live_init {c : HomeBlock L → Block} {s₀ : State} (h₀ : Clean L s₀ c)
    (calls : T → List (List (Update L))) :
    Live s₀ (fun t => .idle (calls t)) (⟨c, c, 0⟩ : AtomicStore.State (HomeBlock L) Block) where
  outstanding := h₀.outstanding
  active := headcount_eq_zero.mpr fun _ => rfl
  committing := by
    rw [h₀.committing]
    exact headcount_eq_zero.mpr fun _ => rfl
  rest := fun _ => rfl
  quiet := fun _ => h₀.before
  stage := by
    intro t pc ops ht
    cases ht

/-- If every system call keeps to its reservation and the log has room for `LOGSIZE` blocks and
    the header, then nothing in `log.c` panics, in any order of any system calls. -/
theorem log_never_panics {c : HomeBlock L → Block} {s₀ : State} (h₀ : Clean L s₀ c)
    {calls : T → List (List (Update L))} (hsize : LOGSIZE < L.size)
    (hfits : ∀ t, ∀ op ∈ calls t, Fits op) {k : Config T State Unit (Loc L)}
    (hk : (threads s₀ calls).Reachable k) : k.shared.panicked = none := by
  have hinv : k.shared.panicked = none ∧ (∃ a, Live k.shared k.locs a) ∧ Room k.shared k.locs := by
    refine hk.invariant (I := fun k => k.shared.panicked = none ∧ (∃ a, Live k.shared k.locs a) ∧
      Room k.shared k.locs) ?_ ?_
    · rintro _ rfl
      refine ⟨h₀.panicked, ⟨_, live_init h₀ calls⟩, ?_, ?_, hfits⟩
      · intro _
        simp [Loc.need, h₀.lh]
      · intro t op i ops ht
        cases ht
    · rintro k e k' - ⟨hp, ⟨a, hlive⟩, hroom⟩ hstep
      rcases hstep.locs with ⟨t, rfl, hshared, hlocs⟩ | ⟨t, f, rfl, hf, hshared, hlocs⟩
      · rw [hshared, hlocs]
        exact ⟨hp, ⟨a, hlive⟩, hroom⟩
      · obtain ⟨hp', hroom'⟩ := room_section hlive hroom hsize hp hf
        obtain ⟨-, a', -, hup, -⟩ := matched_section (c := c) hlive hf
        rw [hshared, hlocs]
        exact ⟨hp', ⟨a', hup.live hp'⟩, hroom'⟩
  exact hinv.1

theorem clean_blank (L : Layout) : Clean L (fresh fun _ _ => 0) (fun _ _ => 0) where
  before := ⟨.nil L, holds_blank L, ⟨fun _ => rfl, fun _ _ => rfl, by simp [fresh]⟩, by simp⟩
  lh := rfl
  outstanding := rfl
  committing := rfl
  panicked := rfl

/-- A log with a block more than `mkfs` makes. -/
def roomyLayout : Layout := ⟨2, LOGSIZE + 1, by decide⟩

/-- An update of one of ten blocks behind that log. -/
def setSeven (i : Fin 10) : Update roomyLayout :=
  ⟨100 + i, ⟨by omega, .inr (by simp only [roomyLayout, LOGSIZE, MAXOPBLOCKS]; omega)⟩,
    fun _ _ => 7⟩

/-- Two processes make a call each, and one block is common to both calls. -/
def sharedCalls (t : Fin 2) : List (List (Update roomyLayout)) :=
  if t.val = 0 then [[setSeven ⟨0, by decide⟩, setSeven ⟨1, by decide⟩]]
  else [[setSeven ⟨0, by decide⟩]]

/-- Both begin, update their blocks in turn and end, and the first process commits. -/
def sharedCommit : List (Choice (Fin 2)) :=
  let a := Choice.run ⟨0, Nat.zero_lt_two⟩ 0 none
  let b := Choice.run ⟨1, Nat.one_lt_two⟩ 0 none
  [a, b, a, b, a, b, a] ++ List.replicate 11 a

theorem log_never_panics_shared :
    ∃ k, (threads (fresh fun _ _ => 0) sharedCalls).Reachable k ∧ k.shared.lh = [] ∧
      k.shared.committing = false ∧ k.shared.disk 100 ⟨3, by decide⟩ = 7 ∧
      k.shared.disk 101 ⟨3, by decide⟩ = 7 ∧ k.shared.panicked = none := by
  obtain ⟨k₀, tr, k, h₀, hrun, hp⟩ := exists_run_of_play (code roomyLayout) (fresh fun _ _ => 0)
    (fun t => .idle (sharedCalls t))
    (fun _ k => decide (k.shared.lh = [] ∧ k.shared.committing = false ∧
      k.shared.disk 100 ⟨3, by decide⟩ = 7 ∧ k.shared.disk 101 ⟨3, by decide⟩ = 7))
    sharedCommit (by decide +kernel)
  obtain ⟨hlh, hdone, h100, h101⟩ := of_decide_eq_true hp
  have hk : (threads (fresh fun _ _ => 0) sharedCalls).Reachable k := ⟨k₀, tr, h₀, hrun⟩
  refine ⟨k, hk, hlh, hdone, h100, h101, log_never_panics (clean_blank _) (by decide) ?_ hk⟩
  decide

/-! ## A full log -/

variable {k : Config T State Unit (Loc L)} {s₀ : State} {calls : T → List (List (Update L))}

omit [Fintype T] in
theorem step_begin_op {t : T} {op : List (Update L)} {ops : List (List (Update L))}
    (ht : k.mode t = .ready (.idle (op :: ops))) (hc : k.shared.committing = false)
    (hroom : k.shared.lh.length + (k.shared.outstanding + 1) * MAXOPBLOCKS ≤ LOGSIZE) :
    ∃ k', Monitor.Step (code L) k (.exec t .begins) k' ∧
      k'.mode = Function.update k.mode t (.ready (.active op 0 ops)) ∧
      k'.shared = { k.shared with outstanding := k.shared.outstanding + 1 } := by
  have hbegin : begin_op op ops k.shared =
      ⟨{ k.shared with outstanding := k.shared.outstanding + 1 }, .goto (.active op 0 ops), .none,
        .begins⟩ := by
    rw [begin_op, if_neg (by simp [hc]), if_neg (by omega)]
  have hwakes : Wakes (begin_op op ops k.shared).wake k.mode k.mode := by
    rw [hbegin]
    exact .none
  exact ⟨⟨_, _⟩, Monitor.Step.exec_to (begin_op op ops) (by rw [ht]; rfl) (by simp [code]) hwakes
    (by rw [hbegin]) (by rw [hbegin]) (by rw [hbegin]; rfl), rfl, rfl⟩

omit [Fintype T] in
theorem step_update {t : T} {op : List (Update L)} {i : Nat} {ops : List (List (Update L))}
    {u : Update L} (ht : k.mode t = .ready (.active op i ops)) (hu : op[i]? = some u) :
    ∃ e k', Monitor.Step (code L) k (.exec t e) k' ∧
      k'.mode = Function.update k.mode t (.ready (.active op (i + 1) ops)) ∧
      k'.shared =
        log_write L u.blockno (k.shared.fill u.blockno (u.modify (k.shared.data u.blockno))) :=
  ⟨_, ⟨_, _⟩, Monitor.Step.exec_to (update u (.active op (i + 1) ops)) (by rw [ht]; rfl)
    (by simp [code, hu]) .none rfl rfl rfl, rfl, rfl⟩

/-- System calls are in progress, and the log has taken what they have written so far. -/
structure Filling (s : State) (n : Nat) : Prop where
  outstanding : 1 ≤ s.outstanding
  panicked : s.panicked = none
  length : s.lh.length = n

theorem Filling.update {n : Nat} (h : Filling s n) (hn : n < LOGSIZE) (hlt : n + 1 < L.size)
    {b : Nat} (hb : b ∉ s.lh) (v : Block) :
    Filling (log_write L b (s.fill b v)) (n + 1) ∧
      (log_write L b (s.fill b v)).lh = s.lh ++ [b] := by
  have hlen : (s.fill b v).lh.length = n := h.length
  have hroom : (log_write L b (s.fill b v)).panicked = none :=
    log_write_room (by rw [hlen]; exact hn) (by rw [hlen]; exact hlt) h.outstanding h.panicked
  obtain ⟨-, -, hout, -⟩ := log_write_frame L b (s.fill b v)
  obtain ⟨-, -, heq⟩ := log_write_returns hroom
  have hlh : (log_write L b (s.fill b v)).lh = s.lh ++ [b] := by
    have hb : b ∉ (s.fill b v).lh := hb
    rw [heq, if_neg hb]
    rfl
  refine ⟨⟨by rw [hout]; exact h.outstanding, hroom, ?_⟩, hlh⟩
  rw [hlh, List.length_append, h.length]
  rfl

omit [Fintype T] in
/-- A system call makes `j` more updates, of blocks that are new to the log. -/
theorem run_updates {t : T} {op : List (Update L)} {ops : List (List (Update L))} {i n : Nat}
    (hk : (threads s₀ calls).Reachable k) (j : Nat) (ht : k.mode t = .ready (.active op i ops))
    (hj : i + j ≤ op.length) (h : Filling k.shared n) (hn : n + j ≤ LOGSIZE) (hlt : n + j < L.size)
    (hfresh : (k.shared.lh ++ (op.drop i).map Update.blockno).Nodup) :
    ∃ k', (threads s₀ calls).Reachable k' ∧ Filling k'.shared (n + j) ∧
      k'.mode = Function.update k.mode t (.ready (.active op (i + j) ops)) ∧
      k'.shared.lh = k.shared.lh ++ ((op.drop i).take j).map Update.blockno := by
  induction j generalizing k i n with
  | zero =>
      refine ⟨k, hk, h, ?_, by simp⟩
      rw [Nat.add_zero, ← ht, Function.update_eq_self]
  | succ j ih =>
      have hi : i < op.length := by omega
      have hu : op[i]? = some op[i] := List.getElem?_eq_getElem hi
      obtain ⟨e, k₁, hstep, hmode₁, hshared₁⟩ := step_update ht hu
      rw [List.drop_eq_getElem_cons hi, List.map_cons] at hfresh
      have hb : op[i].blockno ∉ k.shared.lh := by
        intro hmem
        exact (List.nodup_append.mp hfresh).2.2 _ hmem _ (by simp) rfl
      obtain ⟨hfill, hlh⟩ := h.update (L := L) (by omega) (by omega) hb
        (op[i].modify (k.shared.data op[i].blockno))
      rw [← hshared₁] at hfill hlh
      have hready : k₁.mode t = .ready (.active op (i + 1) ops) := by
        rw [hmode₁, Function.update_self]
      obtain ⟨k', hk', hfill', hmode, hlh'⟩ := ih (hk.step hstep) hready (by omega) hfill (by omega)
        (by omega) (by rw [hlh]; simpa using hfresh)
      refine ⟨k', hk', ?_, ?_, ?_⟩
      · rw [Nat.add_comm j 1, ← Nat.add_assoc]
        exact hfill'
      · rw [hmode, hmode₁, Nat.add_comm j 1, ← Nat.add_assoc]
        exact Function.update_idem ..
      · rw [hlh', hlh, List.drop_eq_getElem_cons hi, List.take_succ_cons, List.map_cons,
          List.append_assoc]
        rfl

omit [Fintype T] in
/-- Three system calls are let into an empty log. -/
theorem run_begin_ops {c : HomeBlock L → Block} (h₀ : Clean L s₀ c) {t₁ t₂ t₃ : T} (h₁₂ : t₁ ≠ t₂)
    (h₁₃ : t₁ ≠ t₃) (h₂₃ : t₂ ≠ t₃) {op₁ op₂ op₃ : List (Update L)}
    {ops₁ ops₂ ops₃ : List (List (Update L))} (hc₁ : calls t₁ = op₁ :: ops₁)
    (hc₂ : calls t₂ = op₂ :: ops₂) (hc₃ : calls t₃ = op₃ :: ops₃) :
    ∃ k, (threads s₀ calls).Reachable k ∧ Filling k.shared 0 ∧
      k.mode t₁ = .ready (.active op₁ 0 ops₁) ∧ k.mode t₂ = .ready (.active op₂ 0 ops₂) ∧
      k.mode t₃ = .ready (.active op₃ 0 ops₃) := by
  let k₀ : Config T State Unit (Loc L) := ⟨s₀, fun t => .ready (.idle (calls t))⟩
  have hk₀ : ∀ {t op ops}, calls t = op :: ops → k₀.mode t = .ready (.idle (op :: ops)) := by
    intro t op ops ht
    simp only [k₀, ht]
  obtain ⟨k₁, hs₁, hm₁, hsh₁⟩ := step_begin_op (hk₀ hc₁) h₀.committing
    (by simp [k₀, h₀.lh, h₀.outstanding])
  obtain ⟨k₂, hs₂, hm₂, hsh₂⟩ := step_begin_op (k := k₁)
    (by rw [hm₁, Function.update_of_ne h₁₂.symm]; exact hk₀ hc₂) (by rw [hsh₁]; exact h₀.committing)
    (by simp [hsh₁, k₀, h₀.lh, h₀.outstanding])
  obtain ⟨k₃, hs₃, hm₃, hsh₃⟩ := step_begin_op (k := k₂)
    (by
      rw [hm₂, Function.update_of_ne h₂₃.symm, hm₁, Function.update_of_ne h₁₃.symm]
      exact hk₀ hc₃)
    (by rw [hsh₂, hsh₁]; exact h₀.committing) (by simp [hsh₂, hsh₁, k₀, h₀.lh, h₀.outstanding])
  refine ⟨k₃, (((Reachable.init rfl).step hs₁).step hs₂).step hs₃, ⟨?_, ?_, ?_⟩, ?_, ?_, ?_⟩
  · simp [hsh₃, hsh₂, hsh₁, k₀, h₀.outstanding]
  · simp [hsh₃, hsh₂, hsh₁, k₀, h₀.panicked]
  · simp [hsh₃, hsh₂, hsh₁, k₀, h₀.lh]
  · rw [hm₃, Function.update_of_ne h₁₃, hm₂, Function.update_of_ne h₁₂, hm₁, Function.update_self]
  · rw [hm₃, Function.update_of_ne h₂₃, hm₂, Function.update_self]
  · rw [hm₃, Function.update_self]

omit [Fintype T] in
/-- In a log of the size that `mkfs` makes there is no room for what `begin_op` reserves. Three
    system calls that update `MAXOPBLOCKS` blocks each, all of them different, can run into the
    panic of `log_write`. -/
theorem full_transaction_panics {c : HomeBlock L → Block} (h₀ : Clean L s₀ c)
    (hsize : L.size = LOGSIZE) {t₁ t₂ t₃ : T} (h₁₂ : t₁ ≠ t₂) (h₁₃ : t₁ ≠ t₃) (h₂₃ : t₂ ≠ t₃)
    {op₁ op₂ op₃ : List (Update L)} {ops₁ ops₂ ops₃ : List (List (Update L))}
    (hc₁ : calls t₁ = op₁ :: ops₁) (hc₂ : calls t₂ = op₂ :: ops₂) (hc₃ : calls t₃ = op₃ :: ops₃)
    (hl₁ : op₁.length = MAXOPBLOCKS) (hl₂ : op₂.length = MAXOPBLOCKS)
    (hl₃ : op₃.length = MAXOPBLOCKS)
    (hnodup : ((op₁ ++ op₂ ++ op₃).map Update.blockno).Nodup) :
    ∃ k, (threads s₀ calls).Reachable k ∧ k.shared.panicked = some "too big a transaction" := by
  rw [List.map_append, List.map_append] at hnodup
  obtain ⟨k₁, hk₁, hfill₁, ht₁, ht₂, ht₃⟩ := run_begin_ops h₀ h₁₂ h₁₃ h₂₃ hc₁ hc₂ hc₃
  have hlh₁ : k₁.shared.lh = [] := List.length_eq_zero_iff.mp hfill₁.length
  have hcap : ∀ {n}, n < LOGSIZE → n < L.size := by
    intro n hn
    rw [hsize]
    exact hn
  -- they fill the log up to its last block
  obtain ⟨k₂, hk₂, hfill₂, hm₂, hlh₂⟩ := run_updates hk₁ MAXOPBLOCKS ht₁ (by omega) hfill₁
    (by decide) (hcap (by decide)) (by rw [hlh₁]; exact hnodup.of_append_left.of_append_left)
  rw [hlh₁, List.drop_zero, ← hl₁, List.take_length, List.nil_append] at hlh₂
  have ht₂ : k₂.mode t₂ = .ready (.active op₂ 0 ops₂) := by
    rw [hm₂, Function.update_of_ne h₁₂.symm, ht₂]
  have ht₃ : k₂.mode t₃ = .ready (.active op₃ 0 ops₃) := by
    rw [hm₂, Function.update_of_ne h₁₃.symm, ht₃]
  obtain ⟨k₃, hk₃, hfill₃, hm₃, hlh₃⟩ := run_updates hk₂ MAXOPBLOCKS ht₂ (by omega) hfill₂
    (by decide) (hcap (by decide)) (by rw [hlh₂]; exact hnodup.of_append_left)
  rw [hlh₂, List.drop_zero, ← hl₂, List.take_length] at hlh₃
  have ht₃ : k₃.mode t₃ = .ready (.active op₃ 0 ops₃) := by
    rw [hm₃, Function.update_of_ne h₂₃.symm, ht₃]
  obtain ⟨k₄, hk₄, hfill₄, hm₄, -⟩ := run_updates hk₃ (MAXOPBLOCKS - 1) ht₃ (by omega) hfill₃
    (by decide) (hcap (by decide)) (by rw [hlh₃]; exact hnodup)
  -- and then there is one more
  obtain ⟨u, hu⟩ : ∃ u, op₃[0 + (MAXOPBLOCKS - 1)]? = some u :=
    ⟨_, List.getElem?_eq_getElem (by rw [hl₃]; decide)⟩
  have ht₃ : k₄.mode t₃ = .ready (.active op₃ (0 + (MAXOPBLOCKS - 1)) ops₃) := by
    rw [hm₄, Function.update_self]
  obtain ⟨e, k₅, hstep, -, hshared⟩ := step_update ht₃ hu
  refine ⟨k₅, hk₄.step hstep, ?_⟩
  have hfull : L.size - 1 ≤ (k₄.shared.fill u.blockno
      (u.modify (k₄.shared.data u.blockno))).lh.length := by
    have hlen : k₄.shared.lh.length = LOGSIZE - 1 := hfill₄.length
    rw [hsize]
    exact hlen.ge
  rw [hshared, log_write, if_pos (.inr hfull)]
  rfl

/-- Ten updates of different blocks. -/
def tenUpdates (i : Fin 3) : List (Update mkfsLayout) :=
  (List.range MAXOPBLOCKS).map fun j =>
    ⟨100 + 10 * i + j % 10, ⟨by omega, .inr (by simp only [mkfsLayout, LOGSIZE, MAXOPBLOCKS]; omega)⟩,
      id⟩

theorem full_transaction_panics_mkfs :
    ∃ k, (threads (fresh fun _ _ => 0) fun i : Fin 3 => [tenUpdates i]).Reachable k ∧
      k.shared.panicked = some "too big a transaction" := by
  have h₀₁ : (0 : Fin 3) ≠ 1 := by decide
  have h₀₂ : (0 : Fin 3) ≠ 2 := by decide
  have h₁₂ : (1 : Fin 3) ≠ 2 := by decide
  exact full_transaction_panics (clean_blank mkfsLayout) rfl h₀₁ h₀₂ h₁₂ rfl rfl rfl rfl rfl rfl
    (by decide)

end Log
