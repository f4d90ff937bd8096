-- SUMMARY: The reference counts of the buffer cache are exact, and its list always has every buffer once.
import Mathlib.Data.Fintype.Card
import OsLabs.Bio.Model
import OsLabs.Lib.RefCount

/-!
# Reference counts

A buffer is in use by the processes that wait for its lock or are about to give it back, by the
process that has it locked, and by the pins of the log. `refcnt` counts them all, also while
`bread` and `brelse` are under way.
-/

namespace Bio

open Log (MAXOPBLOCKS LOGSIZE)
open Lottery (NPROC)
open RefCount Ring

variable {D : Type} {m m' : Machine D} {p : Pid} {b b' : Fin NBUF} {k : Key}

/-! ## What a step does -/

/-- The two ways of `bget` to a buffer, and the panic. -/
inductive Got (s : Bcache D) (order : List (Fin NBUF)) (k : Key) :
    Except String (Fin NBUF × Bcache D) → Prop
  | hit {b : Fin NBUF} : (s.buf b).key = k →
      Got s order k (.ok (b, s.set b { s.buf b with refcnt := (s.buf b).refcnt + 1 }))
  | recycled {b : Fin NBUF} {l₁ l₂ : List (Fin NBUF)} : (∀ b, (s.buf b).key ≠ k) →
      (s.buf b).refcnt = 0 → order = l₁ ++ b :: l₂ → (∀ b' ∈ l₂, (s.buf b').refcnt ≠ 0) →
      Got s order k (.ok (b, s.set b
        { s.buf b with dev := k.1, blockno := k.2, valid := false, refcnt := 1 }))
  | exhausted : (∀ b, (s.buf b).key ≠ k) → (∀ b, (s.buf b).refcnt ≠ 0) →
      Got s order k (.error "bget: no buffers")

/-- The list of buffers, from the most to the least recently released one. -/
structure Listed (s : Bcache D) (order : List (Fin NBUF)) : Prop where
  ring : IsRing s.links order
  all : ∀ b, b ∈ order

theorem Listed.length {s : Bcache D} {order : List (Fin NBUF)} (h : Listed s order) :
    order.length < NBUF + 1 := by
  have hcard := List.Nodup.length_le_card h.ring.nodup
  rw [Fintype.card_fin] at hcard
  exact Nat.lt_succ_of_le hcard

/-- `bget` looks at all buffers, and then takes one or panics. -/
theorem bget_got {s : Bcache D} {order : List (Fin NBUF)} (h : Listed s order) (k : Key) :
    ∃ r, bget s k = some r ∧ Got s order k r := by
  unfold bget
  rw [h.ring.find_next h.length, Option.bind_eq_bind, Option.bind_some]
  cases hhit : order.find? fun b => (s.buf b).dev = k.1 && (s.buf b).blockno = k.2 with
  | some b =>
      refine ⟨_, rfl, .hit ?_⟩
      have htest := List.find?_some hhit
      simp only [Bool.and_eq_true, decide_eq_true_eq] at htest
      exact Prod.ext htest.1 htest.2
  | none =>
      have hmiss : ∀ b, (s.buf b).key ≠ k := by
        rintro b rfl
        have htest := List.find?_eq_none.mp hhit b (h.all b)
        simp [Buf.key] at htest
      rw [h.ring.find_prev h.length]
      cases hvictim : order.reverse.find? fun b => (s.buf b).refcnt = 0 with
      | some b =>
          obtain ⟨hzero, l₁, l₂, hsplit, hbehind⟩ := List.find?_eq_some_iff_append.mp hvictim
          have horder : order = l₂.reverse ++ b :: l₁.reverse := by
            rw [← List.reverse_reverse order, hsplit]
            simp
          refine ⟨_, rfl, .recycled hmiss (by simpa using hzero) horder ?_⟩
          intro b' hb'
          simpa using hbehind b' (List.mem_reverse.mp hb')
      | none =>
          refine ⟨_, rfl, .exhausted hmiss fun b => ?_⟩
          simpa using List.find?_eq_none.mp hvictim b (List.mem_reverse.mpr (h.all b))

/-! ## The list -/

/-- The order of the buffers after one of them has been moved to the front. -/
theorem Listed.front {s : Bcache D} {l₁ l₂ : List (Fin NBUF)} (h : Listed s (l₁ ++ b :: l₂)) :
    Listed { s with links := (s.links.remove b).insert b } (b :: (l₁ ++ l₂)) where
  ring := by
    apply h.ring.remove.insert
    have hnodup := h.ring.nodup
    rw [List.nodup_middle, List.nodup_cons] at hnodup
    exact hnodup.1
  all b' := by simpa [or_left_comm] using h.all b'

theorem Listed.congr {s s' : Bcache D} {order : List (Fin NBUF)} (h : Listed s order)
    (hlinks : s'.links = s.links) : Listed s' order :=
  ⟨hlinks ▸ h.ring, h.all⟩

theorem listed_binit (zero : D) : Listed (binit zero) (List.finRange NBUF).reverse := by
  have hfold : ∀ (l : List (Fin NBUF)) (s : Links (Fin NBUF)) (order : List (Fin NBUF)),
      IsRing s order → (l.reverse ++ order).Nodup →
      IsRing (l.foldl Links.insert s) (l.reverse ++ order) := by
    intro l
    induction l with
    | nil => exact fun s order h _ => h
    | cons b l ih =>
        intro s order h hnodup
        rw [List.reverse_cons, List.append_assoc] at hnodup ⊢
        apply ih _ _ (h.insert _) hnodup
        intro hb
        have hnodup := hnodup.of_append_right
        simp [hb] at hnodup
  refine ⟨?_, by simp⟩
  have h := hfold (List.finRange NBUF) ⟨fun _ => none, fun _ => none⟩ [] ⟨.nil, rfl, rfl⟩
    (by simpa using List.nodup_finRange NBUF)
  rw [List.append_nil] at h
  exact h

/-! ## Users of a buffer -/

/-- The buffer that a process refers to without having it locked. -/
def Pc.refers : Pc → Option (Fin NBUF)
  | .acquire _ b _ => some b
  | .release b     => some b
  | _              => none

@[simp] theorem refers_wakeup (b : Fin NBUF) (pc : Pc) : (pc.wakeup b).refers = pc.refers := by
  cases pc <;> rfl

/-- The users that a sleep lock stands for. -/
def lockRefs : Option Pid → Nat
  | none   => 0
  | some _ => 1

def Machine.users (m : Machine D) (b : Fin NBUF) : Nat :=
  refs Finset.univ (fun p => (m.pc p).refers) b + lockRefs (m.buf b).lock + m.pins b

def Machine.Used (m : Machine D) (b : Fin NBUF) : Prop :=
  (∃ p, (m.pc p).refers = some b) ∨ (m.buf b).lock ≠ none ∨ 0 < m.pins b

theorem users_pos : 0 < m.users b ↔ m.Used b := by
  have hrefs : 0 < refs Finset.univ (fun p => (m.pc p).refers) b ↔ ∃ p, (m.pc p).refers = some b := by
    simp [refs_pos]
  unfold Machine.users Machine.Used
  rw [← hrefs]
  cases (m.buf b).lock <;> simp [lockRefs, Nat.pos_iff_ne_zero]

theorem users_lt (hpins : m.pins b ≤ LOGSIZE) : m.users b + 1 < 2 ^ 32 := by
  have hrefs : refs Finset.univ (fun p => (m.pc p).refers) b ≤ NPROC := by
    unfold refs
    exact (Finset.card_filter_le _ _).trans (by simp [Pid])
  have hlock : lockRefs (m.buf b).lock ≤ 1 := by cases (m.buf b).lock <;> simp [lockRefs]
  unfold Machine.users
  simp only [NPROC, LOGSIZE, MAXOPBLOCKS] at *
  omega

/-- The counts, and a bound on the pins that keeps them from wrapping. -/
structure Counted (m : Machine D) : Prop where
  pins : ∀ b, m.pins b ≤ LOGSIZE
  refcnt : ∀ b, (m.buf b).refcnt = BitVec.ofNat 32 (m.users b)

theorem Counted.refcnt_eq_zero (h : Counted m) : (m.buf b).refcnt = 0 ↔ ¬ m.Used b := by
  rw [h.refcnt, ← users_pos, ← BitVec.toNat_inj, BitVec.toNat_ofNat]
  have hlt := users_lt (h.pins b)
  rw [Nat.mod_eq_of_lt (by omega)]
  simp

theorem refs_goto (f : Pid → Pc) (p : Pid) (pc : Pc) (b : Fin NBUF) :
    refs Finset.univ (fun q => (Function.update f p pc q).refers) b +
        (if (f p).refers = some b then 1 else 0) =
      refs Finset.univ (fun q => (f q).refers) b + (if pc.refers = some b then 1 else 0) := by
  have hcomp : (fun q => (Function.update f p pc q).refers) =
      Function.update (fun q => (f q).refers) p pc.refers := Function.comp_update Pc.refers f p pc
  rw [hcomp]
  exact refs_update (Finset.mem_univ p) pc.refers b

/-- What a machine is as far as the counts go. -/
theorem Counted.congr (h : Counted m) (hpc : ∀ p, (m'.pc p).refers = (m.pc p).refers)
    (hpins : m'.pins = m.pins) (hrefcnt : ∀ b, (m'.buf b).refcnt = (m.buf b).refcnt)
    (hlock : ∀ b, (m'.buf b).lock = (m.buf b).lock) : Counted m' := by
  have husers : ∀ b, m'.users b = m.users b := by
    intro b
    unfold Machine.users
    simp only [hpc, hpins, hlock]
  exact ⟨fun b => hpins ▸ h.pins b, fun b => by rw [hrefcnt, husers, h.refcnt]⟩

/-- One buffer gets one more user, or one less, or changes its users. -/
theorem Counted.change (h : Counted m) (hpins : ∀ b', m'.pins b' ≤ LOGSIZE)
    (hother : ∀ b', b' ≠ b → (m'.buf b').refcnt = (m.buf b').refcnt ∧ m'.users b' = m.users b')
    (hself : (m'.buf b).refcnt = (m.buf b).refcnt + 1 ∧ m'.users b = m.users b + 1 ∨
      (m'.buf b).refcnt = (m.buf b).refcnt - 1 ∧ m'.users b + 1 = m.users b ∨
      (m'.buf b).refcnt = (m.buf b).refcnt ∧ m'.users b = m.users b) : Counted m' := by
  refine ⟨hpins, fun b' => ?_⟩
  obtain rfl | hb := eq_or_ne b' b
  · rcases hself with ⟨hr, hu⟩ | ⟨hr, hu⟩ | ⟨hr, hu⟩
    · rw [hr, hu, h.refcnt, BitVec.ofNat_add]
      rfl
    · rw [hr, h.refcnt, ← hu, BitVec.ofNat_add]
      exact BitVec.add_sub_cancel ..
    · rw [hr, hu, h.refcnt]
  · rw [(hother b' hb).1, (hother b' hb).2, h.refcnt]

/-- How the users change when a process goes on. -/
theorem users_goto {pc : Pc} (hpc : m'.pc = Function.update m.pc p pc) (b : Fin NBUF) :
    m'.users b + ((if (m.pc p).refers = some b then 1 else 0) +
        lockRefs (m.buf b).lock + m.pins b) =
      m.users b + ((if pc.refers = some b then 1 else 0) +
        lockRefs (m'.buf b).lock + m'.pins b) := by
  have hrefs := refs_goto m.pc p pc b
  unfold Machine.users
  rw [hpc]
  omega

@[simp] theorem Machine.buf_goto (m : Machine D) (p : Pid) (pc : Pc) (b : Fin NBUF) :
    (m.goto p pc).buf b = m.buf b := rfl

theorem Machine.buf_set (m : Machine D) (b : Fin NBUF) (x : Buf D) : (m.set b x).buf b = x :=
  Function.update_self ..

theorem Machine.buf_set_of_ne (m : Machine D) (x : Buf D) (h : b' ≠ b) :
    (m.set b x).buf b' = m.buf b' :=
  Function.update_of_ne h ..

/-- A process goes on and changes a buffer, and refers to no other one. -/
theorem Counted.move {x : Buf D} {pc : Pc} (h : Counted m)
    (hold : ∀ b', (m.pc p).refers = some b' → b' = b) (hnew : ∀ b', pc.refers = some b' → b' = b)
    {w w' : Nat}
    (hw : w = (if (m.pc p).refers = some b then 1 else 0) +
      lockRefs (m.buf b).lock)
    (hw' : w' = (if pc.refers = some b then 1 else 0) + lockRefs x.lock)
    (hx : x.refcnt = (m.buf b).refcnt + 1 ∧ w' = w + 1 ∨
      x.refcnt = (m.buf b).refcnt - 1 ∧ w' + 1 = w ∨ x.refcnt = (m.buf b).refcnt ∧ w' = w) :
    Counted ((m.set b x).goto p pc) := by
  have husers : ∀ b', ((m.set b x).goto p pc).users b' +
      ((if (m.pc p).refers = some b' then 1 else 0) + lockRefs (m.buf b').lock + m.pins b') =
        m.users b' + ((if pc.refers = some b' then 1 else 0) +
          lockRefs (((m.set b x).goto p pc).buf b').lock + ((m.set b x).goto p pc).pins b') :=
    users_goto rfl
  have hpins : ((m.set b x).goto p pc).pins = m.pins := rfl
  refine h.change (b := b) h.pins ?_ ?_
  · intro b' hb'
    have hu := husers b'
    rw [Machine.buf_goto, m.buf_set_of_ne x hb', if_neg (mt (hold b') hb'),
      if_neg (mt (hnew b') hb'), hpins] at hu
    refine ⟨by rw [Machine.buf_goto, m.buf_set_of_ne x hb'], by omega⟩
  · have hu := husers b
    rw [Machine.buf_goto, m.buf_set, hpins, ← hw, ← hw'] at hu
    rw [Machine.buf_goto, m.buf_set]
    rcases hx with ⟨hr, hx⟩ | ⟨hr, hx⟩ | ⟨hr, hx⟩
    · exact .inl ⟨hr, by omega⟩
    · exact .inr (.inl ⟨hr, by omega⟩)
    · exact .inr (.inr ⟨hr, by omega⟩)

/-- The log pins or unpins a buffer. -/
theorem Counted.pin {n : Nat} {x : Buf D} (h : Counted m) (hpc : m'.pc = m.pc)
    (hbuf : m'.bcache = m.bcache.set b x) (hpins : m'.pins = Function.update m.pins b n)
    (hn : n ≤ LOGSIZE) (hlock : x.lock = (m.buf b).lock)
    (hx : x.refcnt = (m.buf b).refcnt + 1 ∧ n = m.pins b + 1 ∨
      x.refcnt = (m.buf b).refcnt - 1 ∧ n + 1 = m.pins b) : Counted m' := by
  have hself : m'.buf b = x := by
    rw [Machine.buf, hbuf]
    exact m.buf_set b x
  have hother : ∀ b', b' ≠ b → m'.buf b' = m.buf b' := by
    intro b' hb'
    rw [Machine.buf, hbuf]
    exact m.buf_set_of_ne x hb'
  refine h.change (b := b) ?_ ?_ ?_
  · rw [hpins]
    exact (Function.forall_update_iff m.pins fun _ n => n ≤ LOGSIZE).mpr ⟨hn, fun b' _ => h.pins b'⟩
  · intro b' hb'
    refine ⟨by rw [hother b' hb'], ?_⟩
    unfold Machine.users
    rw [hother b' hb', hpins, hpc, Function.update_of_ne hb']
  · rw [hself]
    unfold Machine.users
    rw [hself, hpins, hpc, Function.update_self, hlock]
    rcases hx with ⟨hr, hx⟩ | ⟨hr, hx⟩
    · exact .inl ⟨hr, by omega⟩
    · exact .inr (.inl ⟨hr, by omega⟩)

theorem drop_buf (s : Bcache D) (b : Fin NBUF) :
    (drop s b).buf = (s.set b { s.buf b with refcnt := (s.buf b).refcnt - 1 }).buf := by
  unfold drop
  dsimp only
  split <;> rfl

theorem counted_step {l : Label D} {order : List (Fin NBUF)} (hl : Listed m.bcache order)
    (h : Counted m) (hs : Step m l m') : Counted m' := by
  cases hs with
  | @bget p k b s hpc hk hget =>
      obtain ⟨r, hr, hgot⟩ := bget_got hl k
      cases hget.symm.trans hr
      cases hgot with
      | hit hkey =>
          have hnew : ∀ b', (Pc.acquire k b false).refers = some b' → b' = b := by
            simp [Pc.refers, eq_comm]
          exact h.move (p := p) (by simp [hpc, Pc.refers]) hnew rfl rfl
            (.inl ⟨rfl, by simp [hpc, Pc.refers, Machine.buf, Nat.add_comm]⟩)
      | recycled hmiss hzero horder hbehind =>
          have hone : (1 : BitVec 32) = (m.buf b).refcnt + 1 := by
            rw [show (m.buf b).refcnt = 0 from hzero]
            rfl
          have hnew : ∀ b', (Pc.acquire k b false).refers = some b' → b' = b := by
            simp [Pc.refers, eq_comm]
          exact h.move (p := p) (by simp [hpc, Pc.refers]) hnew rfl rfl
            (.inl ⟨hone, by simp [hpc, Pc.refers, Machine.buf, Nat.add_comm]⟩)
  | bgetPanic => exact h.congr (fun _ => rfl) rfl (fun _ => rfl) fun _ => rfl
  | @lock p k b hpc hlock =>
      exact h.move (by simp [hpc, Pc.refers, eq_comm]) (by simp [Pc.refers]) rfl rfl
        (.inr (.inr ⟨rfl, by simp [hpc, hlock, Pc.refers, lockRefs]⟩))
  | @sleep p k b hpc hlock =>
      refine h.congr ?_ rfl (fun _ => rfl) fun _ => rfl
      exact (Function.forall_update_iff m.pc fun q pc => pc.refers = (m.pc q).refers).mpr
        ⟨by rw [hpc]; rfl, fun _ _ => rfl⟩
  | @kill p k b hpc =>
      refine h.congr ?_ rfl (fun _ => rfl) fun _ => rfl
      exact (Function.forall_update_iff m.pc fun q pc => pc.refers = (m.pc q).refers).mpr
        ⟨by rw [hpc]; rfl, fun _ _ => rfl⟩
  | @cached p k b hpc hvalid =>
      refine h.congr ?_ rfl (fun _ => rfl) fun _ => rfl
      exact (Function.forall_update_iff m.pc fun q pc => pc.refers = (m.pc q).refers).mpr
        ⟨by rw [hpc]; rfl, fun _ _ => rfl⟩
  | @fill p k b hpc hvalid =>
      exact h.move (by simp [hpc, Pc.refers]) (by simp [Pc.refers]) rfl rfl
        (.inr (.inr ⟨rfl, by simp [hpc, Pc.refers]⟩))
  | @filled p k b hpc =>
      exact h.move (by simp [hpc, Pc.refers]) (by simp [Pc.refers]) rfl rfl
        (.inr (.inr ⟨rfl, by simp [hpc, Pc.refers]⟩))
  | @modify p b f hpc hlock =>
      refine h.congr (fun _ => rfl) rfl ?_ ?_
      · exact (Function.forall_update_iff m.bcache.buf fun b x => x.refcnt = (m.buf b).refcnt).mpr
          ⟨rfl, fun _ _ => rfl⟩
      · exact (Function.forall_update_iff m.bcache.buf fun b x =>
          x.lock = (m.buf b).lock).mpr ⟨rfl, fun _ _ => rfl⟩
  | bwrite => exact h.congr (fun _ => rfl) rfl (fun _ => rfl) fun _ => rfl
  | bwritePanic => exact h.congr (fun _ => rfl) rfl (fun _ => rfl) fun _ => rfl
  | @brelse p b hpc hlock =>
      have hmove : Counted ((m.set b { m.buf b with lock := none }).goto p (.release b)) :=
        h.move (by simp [hpc, Pc.refers]) (by simp [Pc.refers, eq_comm]) rfl rfl
          (.inr (.inr ⟨rfl, by simp [hpc, hlock, Pc.refers, lockRefs]⟩))
      refine hmove.congr ?_ rfl (fun _ => rfl) fun _ => rfl
      intro q
      obtain rfl | hq := eq_or_ne q p
      · simp [Machine.goto]
      · simp [Machine.goto, Machine.set, Function.update_of_ne hq]
  | brelsePanic => exact h.congr (fun _ => rfl) rfl (fun _ => rfl) fun _ => rfl
  | @drop p b hpc =>
      have hmove : Counted ((m.set b { m.buf b with refcnt := (m.buf b).refcnt - 1 }).goto p .idle) :=
        h.move (by simp [hpc, Pc.refers, eq_comm]) (by simp [Pc.refers]) rfl rfl
          (.inr (.inl ⟨rfl, by simp [hpc, Pc.refers, Nat.add_comm]⟩))
      have hbuf : ∀ b', ({ m with bcache := drop m.bcache b }.goto p .idle).buf b' =
          ((m.set b { m.buf b with refcnt := (m.buf b).refcnt - 1 }).goto p .idle).buf b' :=
        fun b' => congrFun (drop_buf m.bcache b) b'
      exact hmove.congr (fun _ => rfl) rfl (fun b' => by rw [hbuf]) fun b' => by rw [hbuf]
  | @bpin p b hpc hlock hlt => exact h.pin rfl rfl rfl hlt rfl (.inl ⟨rfl, rfl⟩)
  | @bunpin p b hpc hlock hpos =>
      exact h.pin rfl rfl rfl ((Nat.sub_le _ _).trans (h.pins b)) rfl
        (.inr ⟨rfl, Nat.sub_add_cancel hpos⟩)

/-! ## Order of release -/

/-- The buffer that a step moves to the front of the list. -/
def Label.front (m : Machine D) : Label D → Option (Fin NBUF)
  | .drop p =>
      match m.pc p with
      | .release b => if (m.buf b).refcnt - 1 = 0 then some b else none
      | _          => none
  | _ => none

/-- The list after a step. -/
inductive Reordered (order : List (Fin NBUF)) : Option (Fin NBUF) → List (Fin NBUF) → Prop
  | same : Reordered order none order
  | front {b : Fin NBUF} {l₁ l₂ : List (Fin NBUF)} : order = l₁ ++ b :: l₂ →
      Reordered order (some b) (b :: (l₁ ++ l₂))

theorem listed_drop {order : List (Fin NBUF)} (hl : Listed m.bcache order)
    (hpc : m.pc p = .release b) :
    ∃ order', Listed (drop m.bcache b) order' ∧
      Reordered order ((Label.drop (D := D) p).front m) order' := by
  have hself : ((m.bcache.set b { m.bcache.buf b with
      refcnt := (m.bcache.buf b).refcnt - 1 }).buf b).refcnt = (m.buf b).refcnt - 1 :=
    congrArg Buf.refcnt (m.buf_set b _)
  have hset : Listed (m.bcache.set b { m.bcache.buf b with
      refcnt := (m.bcache.buf b).refcnt - 1 }) order := hl.congr rfl
  simp only [Label.front, hpc]
  unfold drop
  dsimp only
  rw [hself]
  split
  · obtain ⟨l₁, l₂, rfl⟩ := List.append_of_mem (hl.all b)
    exact ⟨_, hset.front, .front rfl⟩
  · exact ⟨order, hset, .same⟩

theorem listed_step {l : Label D} {order : List (Fin NBUF)} (hl : Listed m.bcache order)
    (hs : Step m l m') : ∃ order', Listed m'.bcache order' ∧ Reordered order (l.front m) order' := by
  cases hs with
  | @bget p k b s hpc hk hget =>
      obtain ⟨r, hr, hgot⟩ := bget_got hl k
      cases hget.symm.trans hr
      refine ⟨order, ?_, .same⟩
      cases hgot with
      | hit | recycled => exact hl.congr rfl
  | drop hpc => exact listed_drop hl hpc
  | _ => exact ⟨order, hl.congr rfl, .same⟩

end Bio
