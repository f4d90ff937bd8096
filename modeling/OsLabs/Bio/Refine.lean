-- SUMMARY: The buffer cache is a block cache: no block is in two buffers, a locked buffer keeps its block, and every run is one of the abstract cache.
import OsLabs.Bio.Count
import OsLabs.Lib.Simulation

/-!
# What the buffer cache is for

The buffers are the cached blocks of `BlockCache`, found by device and block number. A buffer that
is given to another block is a block that is dropped. It has no users then, so nobody who waits
for it, has it locked or has pinned it ever finds another block in it.
-/

namespace Bio

open Log (LOGSIZE)
open Lottery (NPROC)
open RefCount Ring TransitionSystem

variable {D : Type} {m m' : Machine D} {p q : Pid} {b b' : Fin NBUF} {k : Key}

/-! ## Buffers and their blocks -/

/-- The buffer that `bread` of a process is about to read the disk into. -/
def Pc.fills : Pc → Option (Fin NBUF)
  | .locked _ b | .filled _ b => some b
  | _                         => none

/-- What a process may rely on inside of a call. -/
def Pc.Ok (m : Machine D) (p : Pid) : Pc → Prop
  | .idle               => True
  | .acquire k b asleep => (m.buf b).key = k ∧ (asleep = true → (m.buf b).lock ≠ none)
  | .locked k b         => (m.buf b).key = k ∧ (m.buf b).lock = some p
  | .filled k b         => (m.buf b).key = k ∧ (m.buf b).lock = some p ∧
      (m.buf b).valid = false ∧ (m.buf b).data = m.disk k
  | .release _          => True

structure Sound (m : Machine D) : Prop where
  /-- A block is in one buffer. Only buffers that were never used share a block number. -/
  unique : ∀ b b', (m.buf b).dev ≠ 0 → (m.buf b').key = (m.buf b).key → b' = b
  used : ∀ b, m.Used b → (m.buf b).dev ≠ 0
  pc : ∀ p, (m.pc p).Ok m p
  valid : ∀ b p, (m.buf b).lock = some p → (m.pc p).fills ≠ some b → (m.buf b).valid = true

theorem fills_wakeup (b : Fin NBUF) (pc : Pc) : (pc.wakeup b).fills = pc.fills := by
  cases pc <;> rfl

theorem Sound.locked_dev (h : Sound m) (hlock : (m.buf b).lock = some p) : (m.buf b).dev ≠ 0 :=
  h.used b (.inr (.inl (by simp [hlock])))

/-- `p` changes a buffer: it has it to itself, or it only counts users. -/
theorem Sound.change (h : Sound m) (hother : ∀ b', b' ≠ b → m'.buf b' = m.buf b')
    (hkey : (m'.buf b).key = (m.buf b).key) (hused : ∀ b', m'.Used b' → (m.buf b').dev ≠ 0)
    (hpc : ∀ q, q ≠ p → m'.pc q = m.pc q ∨ m'.pc q = (m.pc q).wakeup b)
    (hasleep : ∀ q k, q ≠ p → m'.pc q = .acquire k b true → (m'.buf b).lock ≠ none)
    (hmine : ∀ b', (m.pc p).fills = some b' → b' = b)
    (hrights : (∃ r, m'.buf b = { m.buf b with refcnt := r }) ∧ m'.disk = m.disk ∨
      (∀ q, q ≠ p → (m.buf b).lock ≠ some q ∧ (m'.buf b).lock ≠ some q) ∧
        ∀ k, k ≠ (m.buf b).key → m'.disk k = m.disk k)
    (hp : (m'.pc p).Ok m' p)
    (hvalid : (m'.buf b).lock = some p → (m'.pc p).fills ≠ some b → (m'.buf b).valid = true) :
    Sound m' := by
  have hkeys : ∀ b', (m'.buf b').key = (m.buf b').key := by
    intro b'
    obtain rfl | hb := eq_or_ne b' b
    · exact hkey
    · rw [hother b' hb]
  have hdev : ∀ b', (m'.buf b').dev = (m.buf b').dev := fun b' => congrArg Prod.fst (hkeys b')
  constructor
  case unique =>
    intro b₁ b₂ h₁ h₂
    rw [hdev] at h₁
    rw [hkeys, hkeys] at h₂
    exact h.unique b₁ b₂ h₁ h₂
  case used =>
    intro b' hb'
    rw [hdev]
    exact hused b' hb'
  case pc =>
    intro q
    obtain rfl | hq := eq_or_ne q p
    · exact hp
    have hok := h.pc q
    have hwoken := hpc q hq
    -- a buffer that q has locked is as it was, but for the number of its users
    have hlocked : ∀ c, (m.buf c).lock = some q → (∃ r, m'.buf c = { m.buf c with refcnt := r }) ∧
        m'.disk (m.buf c).key = m.disk (m.buf c).key := by
      intro c hc
      obtain rfl | hcb := eq_or_ne c b
      · rcases hrights with ⟨hr, hdisk⟩ | ⟨hr, -⟩
        · exact ⟨hr, by rw [hdisk]⟩
        · exact absurd hc (hr q hq).1
      · refine ⟨⟨(m.buf c).refcnt, hother c hcb⟩, ?_⟩
        rcases hrights with ⟨-, hdisk⟩ | ⟨-, hdisk⟩
        · rw [hdisk]
        · apply hdisk
          intro hck
          exact hcb (h.unique c b (h.locked_dev hc) hck.symm).symm
    cases hm : m.pc q with
    | idle =>
        rw [hm] at hwoken
        have hidle : m'.pc q = .idle := hwoken.elim id id
        rw [hidle]
        trivial
    | acquire k c asleep =>
        rw [hm] at hok hwoken
        obtain ⟨asleep', hpc', hle⟩ : ∃ a, m'.pc q = .acquire k c a ∧ (a = true → asleep = true) := by
          rcases hwoken with hsame | hwoken
          · exact ⟨asleep, hsame, id⟩
          · exact ⟨_, hwoken, fun ha => (Bool.and_eq_true_iff.mp ha).1⟩
        rw [hpc']
        refine ⟨(hkeys c).trans hok.1, ?_⟩
        rintro rfl
        obtain rfl | hcb := eq_or_ne c b
        · exact hasleep q k hq hpc'
        · rw [hother c hcb]
          exact hok.2 (hle rfl)
    | locked k c =>
        rw [hm] at hok hwoken
        have hpc' : m'.pc q = .locked k c := hwoken.elim id id
        obtain ⟨⟨r, hr⟩, -⟩ := hlocked c hok.2
        rw [hpc']
        exact ⟨(hkeys c).trans hok.1, by rw [hr]; exact hok.2⟩
    | filled k c =>
        rw [hm] at hok hwoken
        have hpc' : m'.pc q = .filled k c := hwoken.elim id id
        obtain ⟨hk, hlock, hvalid, hdata⟩ := hok
        obtain ⟨⟨r, hr⟩, hdisk⟩ := hlocked c hlock
        rw [hpc']
        refine ⟨(hkeys c).trans hk, ?_⟩
        rw [hr, ← hk, hdisk, hk]
        exact ⟨hlock, hvalid, hdata⟩
    | release c =>
        rw [hm] at hwoken
        have hpc' : m'.pc q = .release c := hwoken.elim id id
        rw [hpc']
        trivial
  case valid =>
    intro c q hc hfills
    obtain rfl | hq := eq_or_ne q p
    · obtain rfl | hcb := eq_or_ne c b
      · exact hvalid hc hfills
      · rw [hother c hcb] at hc ⊢
        exact h.valid c q hc fun hf => hcb (hmine c hf)
    · have hfills' : (m.pc q).fills ≠ some c := by
        rcases hpc q hq with hsame | hwoken
        · rwa [← hsame]
        · rwa [hwoken, fills_wakeup] at hfills
      obtain rfl | hcb := eq_or_ne c b
      · rcases hrights with ⟨⟨r, hr⟩, -⟩ | ⟨hr, -⟩
        · rw [hr] at hc ⊢
          exact h.valid c q hc hfills'
        · exact absurd hc (hr q hq).2
      · rw [hother c hcb] at hc ⊢
        exact h.valid c q hc hfills'

/-- Users that are left, the process that goes on apart. -/
theorem Sound.used_of (h : Sound m) (hpc : ∀ q, q ≠ p → (m'.pc q).refers = (m.pc q).refers)
    (hp : ∀ b, (m'.pc p).refers = some b → (m.buf b).dev ≠ 0)
    (hlock : ∀ b, (m'.buf b).lock ≠ none → (m.buf b).dev ≠ 0)
    (hpins : ∀ b, 0 < m'.pins b → (m.buf b).dev ≠ 0) (b : Fin NBUF) (hb : m'.Used b) :
    (m.buf b).dev ≠ 0 := by
  rcases hb with ⟨q, hq⟩ | hb | hb
  · obtain rfl | hqp := eq_or_ne q p
    · exact hp b hq
    · rw [hpc q hqp] at hq
      exact h.used b (.inl ⟨q, hq⟩)
  · exact hlock b hb
  · exact hpins b hb

theorem Sound.lock_dev (h : Sound m) (hlock : (m.buf b).lock ≠ none) : (m.buf b).dev ≠ 0 :=
  h.used b (.inr (.inl hlock))

theorem Sound.pins_dev (h : Sound m) (hpins : 0 < m.pins b) : (m.buf b).dev ≠ 0 :=
  h.used b (.inr (.inr hpins))

/-- A process goes on and changes nothing, or the data and the lock of one buffer. -/
theorem Sound.move {x : Buf D} {pc : Pc} (h : Sound m) (hb : (m.buf b).dev ≠ 0)
    (hkey : x.key = (m.buf b).key) (hasleep : (m.buf b).lock ≠ none → x.lock ≠ none)
    (hmine : ∀ b', (m.pc p).fills = some b' → b' = b)
    (hrights : (∃ r, x = { m.buf b with refcnt := r }) ∨
      ∀ q, q ≠ p → (m.buf b).lock ≠ some q ∧ x.lock ≠ some q)
    (hrefers : ∀ b', pc.refers = some b' → b' = b)
    (hp : pc.Ok ((m.set b x).goto p pc) p)
    (hvalid : x.lock = some p → pc.fills ≠ some b → x.valid = true) :
    Sound ((m.set b x).goto p pc) := by
  have hself : ((m.set b x).goto p pc).buf b = x := m.buf_set b x
  have hother : ∀ b', b' ≠ b → ((m.set b x).goto p pc).buf b' = m.buf b' :=
    fun b' => m.buf_set_of_ne x
  have hpc : ∀ q, q ≠ p → ((m.set b x).goto p pc).pc q = m.pc q := fun q hq =>
    Function.update_of_ne hq ..
  have hpcp : ((m.set b x).goto p pc).pc p = pc := Function.update_self ..
  refine h.change (b := b) (p := p) hother (by rw [hself, hkey]) ?_ (fun q hq => .inl (hpc q hq)) ?_
    hmine ?_ (by rw [hpcp]; exact hp) (by rw [hself, hpcp]; exact hvalid)
  · refine h.used_of (p := p) (fun q hq => by rw [hpc q hq]) ?_ ?_ fun _ => h.pins_dev
    · intro b' hb'
      rw [hpcp] at hb'
      rw [hrefers b' hb']
      exact hb
    · intro b' hb'
      obtain rfl | hne := eq_or_ne b' b
      · exact hb
      · rw [hother b' hne] at hb'
        exact h.lock_dev hb'
  · intro q k hq hacq
    have hok := h.pc q
    rw [hpc q hq] at hacq
    rw [hacq] at hok
    rw [hself]
    exact hasleep (hok.2 rfl)
  · rw [hself]
    exact hrights.imp (fun hr => ⟨hr, rfl⟩) fun hr => ⟨hr, fun _ _ => rfl⟩

/-- Neither the list nor a panic matters. -/
theorem Sound.congr (h : Sound m) (hbuf : m'.buf = m.buf) (hpins : m'.pins = m.pins)
    (hpc : m'.pc = m.pc) (hdisk : m'.disk = m.disk) : Sound m' where
  unique := by
    rw [hbuf]
    exact h.unique
  used b hb := by
    unfold Machine.Used at hb
    rw [hbuf, hpins, hpc] at hb
    rw [hbuf]
    exact h.used b hb
  pc q := by
    have hok := h.pc q
    rw [hpc]
    cases hm : m.pc q with
    | idle | release => trivial
    | acquire | locked | filled =>
        rw [hm] at hok
        simp only [Pc.Ok, hbuf, hdisk]
        exact hok
  valid := by
    rw [hbuf, hpc]
    exact h.valid

/-- A buffer without users is given to a block that is in no buffer. -/
theorem Sound.recycle {x : Buf D} (h : Sound m) (hfree : ¬ m.Used b) (hmiss : ∀ b, (m.buf b).key ≠ k)
    (hk : k.1 ≠ 0) (hpc : (m.pc p).fills = none) (hx : x.key = k) (hlock : x.lock = (m.buf b).lock) :
    Sound ((m.set b x).goto p (.acquire k b false)) := by
  have hself : ((m.set b x).goto p (.acquire k b false)).buf b = x := m.buf_set b x
  have hother : ∀ b', b' ≠ b → ((m.set b x).goto p (.acquire k b false)).buf b' = m.buf b' :=
    fun b' => m.buf_set_of_ne x
  have hpcs : ∀ q, q ≠ p → ((m.set b x).goto p (.acquire k b false)).pc q = m.pc q := fun q hq =>
    Function.update_of_ne hq ..
  have hpcp : ((m.set b x).goto p (.acquire k b false)).pc p = .acquire k b false :=
    Function.update_self ..
  simp only [Machine.Used, not_or, not_exists, ne_eq, not_not] at hfree
  obtain ⟨hrefers, hnone, hpins⟩ := hfree
  have hkey : ∀ b', b' ≠ b → (((m.set b x).goto p (.acquire k b false)).buf b').key ≠ k := by
    intro b' hb'
    rw [hother b' hb']
    exact hmiss b'
  constructor
  case unique =>
    intro b₁ b₂ h₁ h₂
    obtain rfl | hb₁ := eq_or_ne b₁ b <;> obtain rfl | hb₂ := eq_or_ne b₂ b₁
    · rfl
    · rw [hself, hx] at h₂
      exact absurd h₂ (hkey b₂ hb₂)
    · rfl
    · obtain rfl | hb₂' := eq_or_ne b₂ b
      · rw [hself, hx] at h₂
        exact absurd h₂.symm (hkey b₁ hb₁)
      · rw [hother b₁ hb₁] at h₁ h₂
        rw [hother b₂ hb₂'] at h₂
        exact h.unique b₁ b₂ h₁ h₂
  case used =>
    intro b' hb'
    obtain rfl | hne := eq_or_ne b' b
    · rw [hself, show x.dev = k.1 from congrArg Prod.fst hx]
      exact hk
    · rw [hother b' hne]
      rcases hb' with ⟨q, hq⟩ | hb' | hb'
      · obtain rfl | hqp := eq_or_ne q p
        · rw [hpcp] at hq
          cases hq
          exact absurd rfl hne
        · rw [hpcs q hqp] at hq
          exact h.used b' (.inl ⟨q, hq⟩)
      · rw [hother b' hne] at hb'
        exact h.lock_dev hb'
      · exact h.pins_dev hb'
  case pc =>
    intro q
    obtain rfl | hqp := eq_or_ne q p
    · rw [hpcp]
      exact ⟨by rw [hself, hx], by simp⟩
    · have hok := h.pc q
      have hlocked : ∀ c, (m.buf c).lock = some q → c ≠ b := by
        rintro c hc rfl
        simp [hnone] at hc
      rw [hpcs q hqp]
      cases hm : m.pc q with
      | idle | release => trivial
      | acquire k' c asleep =>
          rw [hm] at hok
          have hcb : c ≠ b := by
            rintro rfl
            exact hrefers q (by rw [hm]; rfl)
          simp only [Pc.Ok, hother c hcb]
          exact hok
      | locked k' c =>
          rw [hm] at hok
          simp only [Pc.Ok, hother c (hlocked c hok.2)]
          exact hok
      | filled k' c =>
          rw [hm] at hok
          simp only [Pc.Ok, hother c (hlocked c hok.2.1)]
          exact hok
  case valid =>
    intro c q hc hfills
    have hcb : c ≠ b := by
      rintro rfl
      rw [hself, hlock, hnone] at hc
      cases hc
    rw [hother c hcb] at hc ⊢
    apply h.valid c q hc
    obtain rfl | hqp := eq_or_ne q p
    · simp [hpc]
    · rwa [hpcs q hqp] at hfills

theorem Machine.set_buf (m : Machine D) (b : Fin NBUF) : m.set b (m.buf b) = m :=
  congrArg (fun f => { m with bcache := { m.bcache with buf := f } })
    (Function.update_eq_self b m.bcache.buf)

theorem Machine.goto_pc (m : Machine D) (p : Pid) : m.goto p (m.pc p) = m :=
  congrArg (fun f => { m with pc := f }) (Function.update_eq_self p m.pc)

/-- A process goes on and changes nothing else. -/
theorem Sound.goto {pc : Pc} (h : Sound m) (hb : (m.buf b).dev ≠ 0)
    (hmine : ∀ b', (m.pc p).fills = some b' → b' = b)
    (hrefers : ∀ b', pc.refers = some b' → b' = b) (hp : pc.Ok m p)
    (hvalid : (m.buf b).lock = some p → pc.fills ≠ some b → (m.buf b).valid = true) :
    Sound (m.goto p pc) := by
  have hok : pc.Ok ((m.set b (m.buf b)).goto p pc) p := by
    rw [m.set_buf]
    cases pc <;> exact hp
  have hmove := h.move hb rfl id hmine (.inl ⟨_, rfl⟩) hrefers hok hvalid
  rwa [m.set_buf] at hmove

/-- The log pins or unpins a buffer. -/
theorem Sound.pin {r : BitVec 32} (h : Sound m) (hidle : m.pc p = .idle)
    (hlock : (m.buf b).lock = some p) (hpc : m'.pc = m.pc) (hdisk : m'.disk = m.disk)
    (hbuf : m'.bcache = m.bcache.set b { m.buf b with refcnt := r })
    (hpins : ∀ b', b' ≠ b → m'.pins b' = m.pins b') : Sound m' := by
  have hself : m'.buf b = { m.buf b with refcnt := r } := by
    rw [Machine.buf, hbuf]
    exact m.buf_set b _
  have hother : ∀ b', b' ≠ b → m'.buf b' = m.buf b' := by
    intro b' hb'
    rw [Machine.buf, hbuf]
    exact m.buf_set_of_ne _ hb'
  refine h.change (b := b) (p := p) hother (by rw [hself]; rfl) ?_ (fun q _ => .inl (by rw [hpc])) ?_
    (by simp [hidle, Pc.fills]) (.inl ⟨⟨r, hself⟩, hdisk⟩) ?_ ?_
  · refine h.used_of (p := p) (fun q _ => by rw [hpc]) ?_ ?_ ?_
    · intro b' hb'
      rw [hpc] at hb'
      exact h.used b' (.inl ⟨p, hb'⟩)
    · intro b' hb'
      obtain rfl | hne := eq_or_ne b' b
      · exact h.locked_dev hlock
      · rw [hother b' hne] at hb'
        exact h.lock_dev hb'
    · intro b' hb'
      obtain rfl | hne := eq_or_ne b' b
      · exact h.locked_dev hlock
      · rw [hpins b' hne] at hb'
        exact h.pins_dev hb'
  · intro q k _ hq
    rw [hself]
    simp [hlock]
  · rw [hpc, hidle]
    trivial
  · intro _ _
    rw [hself]
    exact h.valid b p hlock (by simp [hidle, Pc.fills])

/-- `releasesleep` wakes everybody who sleeps on the lock. -/
theorem Sound.release (h : Sound m) (hpc : m.pc p = .idle) (hlock : (m.buf b).lock = some p) :
    Sound ({ m.set b { m.buf b with lock := none } with pc := fun q => (m.pc q).wakeup b }.goto p
      (.release b)) := by
  obtain ⟨m', hm'⟩ : ∃ m', m' = ({ m.set b { m.buf b with lock := none } with
    pc := fun q => (m.pc q).wakeup b }.goto p (.release b)) := ⟨_, rfl⟩
  rw [← hm']
  have hself : m'.buf b = { m.buf b with lock := none } := by
    rw [hm']
    exact m.buf_set b _
  have hother : ∀ b', b' ≠ b → m'.buf b' = m.buf b' := by
    intro b' hb'
    rw [hm']
    exact m.buf_set_of_ne _ hb'
  have hpcs : ∀ q, q ≠ p → m'.pc q = (m.pc q).wakeup b := by
    intro q hq
    rw [hm']
    exact Function.update_of_ne hq ..
  have hpcp : m'.pc p = .release b := by
    rw [hm']
    exact Function.update_self ..
  have hpins : m'.pins = m.pins := by rw [hm']; rfl
  have hdisk : m'.disk = m.disk := by rw [hm']; rfl
  refine h.change (b := b) (p := p) hother (by rw [hself]; rfl) ?_ (fun q hq => .inr (hpcs q hq)) ?_
    (by simp [hpc, Pc.fills]) (.inr ⟨?_, fun _ _ => by rw [hdisk]⟩) (by rw [hpcp]; trivial)
    (by simp [hself])
  · refine h.used_of (p := p) (fun q hq => by rw [hpcs q hq, refers_wakeup]) ?_ ?_ ?_
    · intro b' hb'
      rw [hpcp] at hb'
      cases hb'
      exact h.locked_dev hlock
    · intro b' hb'
      obtain rfl | hne := eq_or_ne b' b
      · exact h.locked_dev hlock
      · rw [hother b' hne] at hb'
        exact h.lock_dev hb'
    · intro b' hb'
      rw [hpins] at hb'
      exact h.pins_dev hb'
  · intro q k hq hacq
    rw [hpcs q hq] at hacq
    cases hm : m.pc q with
    | idle | locked | filled | release => simp [hm, Pc.wakeup] at hacq
    | acquire k' c asleep =>
        simp only [hm, Pc.wakeup, Pc.acquire.injEq, Bool.and_eq_true, bne_iff_ne] at hacq
        exact absurd hacq.2.1 hacq.2.2.2
  · intro q hq
    rw [hself, hlock]
    exact ⟨by simpa using hq.symm, by simp⟩

theorem sound_step {l : Label D} {order : List (Fin NBUF)} (hl : Listed m.bcache order)
    (hc : Counted m) (h : Sound m) (hs : Step m l m') : Sound m' := by
  cases hs with
  | @bget p k b s hpc hk hget =>
      have hfills : (m.pc p).fills = none := by rw [hpc]; rfl
      obtain ⟨r, hr, hgot⟩ := bget_got hl k
      cases hget.symm.trans hr
      cases hgot with
      | hit hkey =>
          have hnew : ∀ b', (Pc.acquire k b false).refers = some b' → b' = b := by
            simp [Pc.refers, eq_comm]
          refine h.move (p := p) ?_ rfl id (by simp [hfills]) (.inl ⟨_, rfl⟩) hnew ?_
            fun hlock _ => ?_
          · rw [show (m.buf b).dev = k.1 from congrArg Prod.fst hkey]
            exact hk
          · exact ⟨(congrArg Buf.key (m.buf_set b _)).trans hkey, by simp⟩
          · exact h.valid b p hlock (by simp [hfills])
      | recycled hmiss hzero horder hbehind =>
          exact h.recycle (hc.refcnt_eq_zero.mp hzero) hmiss hk hfills rfl rfl
  | bgetPanic => exact h.congr rfl rfl rfl rfl
  | @lock p k b hpc hlock =>
      have hok := h.pc p
      rw [hpc] at hok
      refine h.move (h.used b (.inl ⟨p, by rw [hpc]; rfl⟩)) rfl (fun _ => by simp)
        (by simp [hpc, Pc.fills]) (.inr fun q hq => ⟨by simp [hlock], by simpa using hq.symm⟩)
        (by simp [Pc.refers]) ?_ (by simp [Pc.fills])
      exact ⟨(congrArg Buf.key (m.buf_set b _)).trans hok.1, congrArg Buf.lock (m.buf_set b _)⟩
  | @sleep p k b hpc hlock =>
      have hok := h.pc p
      rw [hpc] at hok
      refine h.goto (h.lock_dev hlock) (by simp [hpc, Pc.fills]) (by simp [Pc.refers, eq_comm])
        ⟨hok.1, fun _ => hlock⟩ fun hp _ => ?_
      exact h.valid b p hp (by simp [hpc, Pc.fills])
  | @kill p k b hpc =>
      have hok := h.pc p
      rw [hpc] at hok
      refine h.goto (h.lock_dev (hok.2 rfl)) (by simp [hpc, Pc.fills])
        (by simp [Pc.refers, eq_comm]) ⟨hok.1, by simp⟩ fun hp _ => ?_
      exact h.valid b p hp (by simp [hpc, Pc.fills])
  | @cached p k b hpc hvalid =>
      have hok := h.pc p
      rw [hpc] at hok
      exact h.goto (h.locked_dev hok.2) (by simp [hpc, Pc.fills, eq_comm]) (by simp [Pc.refers])
        trivial fun _ _ => hvalid
  | @fill p k b hpc hvalid =>
      have hok := h.pc p
      rw [hpc] at hok
      obtain ⟨hkey, hlock⟩ := hok
      refine h.move (h.locked_dev hlock) rfl id (by simp [hpc, Pc.fills, eq_comm])
        (.inr fun q hq => ?_) (by simp [Pc.refers]) ?_ (by simp [Pc.fills])
      · rw [hlock]
        exact ⟨by simpa using hq.symm, by simpa using hq.symm⟩
      · simp only [Pc.Ok, Machine.buf_goto, m.buf_set]
        exact ⟨hkey, hlock, hvalid, by rw [hkey]; rfl⟩
  | @filled p k b hpc =>
      have hok := h.pc p
      rw [hpc] at hok
      obtain ⟨hkey, hlock, -⟩ := hok
      refine h.move (h.locked_dev hlock) rfl id (by simp [hpc, Pc.fills, eq_comm])
        (.inr fun q hq => ?_) (by simp [Pc.refers]) trivial fun _ _ => rfl
      rw [hlock]
      exact ⟨by simpa using hq.symm, by simpa using hq.symm⟩
  | @modify p b f hpc hlock =>
      have hmove : Sound ((m.set b { m.buf b with data := f (m.buf b).data }).goto p .idle) := by
        refine h.move (h.locked_dev hlock) rfl id (by simp [hpc, Pc.fills])
          (.inr fun q hq => ?_) (by simp [Pc.refers]) trivial fun _ _ => ?_
        · rw [hlock]
          exact ⟨by simpa using hq.symm, by simpa using hq.symm⟩
        · exact h.valid b p hlock (by simp [hpc, Pc.fills])
      exact hmove.congr rfl rfl (by rw [← hpc]; exact (Function.update_eq_self p m.pc).symm) rfl
  | @bwrite p b hpc hlock =>
      refine h.change (b := b) (p := p) (fun _ _ => rfl) rfl (fun _ => h.used _)
        (fun _ _ => .inl rfl) ?_ (by simp [hpc, Pc.fills]) (.inr ⟨fun q hq => ?_, fun k hk => ?_⟩) ?_
        fun hp hfills => h.valid b p hp hfills
      · intro q k _ hq
        have hok := h.pc q
        rw [show m.pc q = _ from hq] at hok
        exact hok.2 rfl
      · have hne : (m.buf b).lock ≠ some q := by
          rw [hlock]
          simpa using hq.symm
        exact ⟨hne, hne⟩
      · exact Function.update_of_ne hk ..
      · rw [show _ = Pc.idle from hpc]
        trivial
  | bwritePanic => exact h.congr rfl rfl rfl rfl
  | @brelse p b hpc hlock => exact h.release hpc hlock
  | brelsePanic => exact h.congr rfl rfl rfl rfl
  | @drop p b hpc =>
      have hmove : Sound ((m.set b { m.buf b with refcnt := (m.buf b).refcnt - 1 }).goto p .idle) := by
        refine h.move (h.used b (.inl ⟨p, by rw [hpc]; rfl⟩)) rfl id (by simp [hpc, Pc.fills])
          (.inl ⟨_, rfl⟩) (by simp [Pc.refers]) trivial fun hlock _ => ?_
        exact h.valid b p hlock (by simp [hpc, Pc.fills])
      exact hmove.congr (drop_buf m.bcache b) rfl rfl rfl
  | @bpin p b hpc hlock hlt =>
      exact h.pin hpc hlock rfl rfl rfl fun b' hb' => Function.update_of_ne hb' ..
  | @bunpin p b hpc hlock hpos =>
      exact h.pin hpc hlock rfl rfl rfl fun b' hb' => Function.update_of_ne hb' ..

/-- What holds of the buffer cache at any time. -/
structure Fine (m : Machine D) (order : List (Fin NBUF)) : Prop where
  listed : Listed m.bcache order
  counted : Counted m
  sound : Sound m

variable {zero : D} {disk : Key → D}

theorem fine_boot (zero : D) (disk : Key → D) :
    Fine (boot zero disk) (List.finRange NBUF).reverse where
  listed := listed_binit zero
  counted := by
    refine ⟨fun _ => Nat.zero_le _, fun b => ?_⟩
    have hzero : (boot zero disk).users b = 0 := by
      simp [Machine.users, boot, refs, Pc.refers, Machine.buf, binit, lockRefs]
    rw [hzero]
    rfl
  sound := by
    have hunused : ∀ b, ¬ (boot zero disk).Used b := by
      intro b
      simp [Machine.Used, boot, Pc.refers, Machine.buf, binit]
    refine ⟨fun b b' hb => absurd rfl hb, fun b hb => absurd hb (hunused b), fun _ => trivial, ?_⟩
    intro b p hb
    cases hb

theorem fine_step {l : Label D} {order : List (Fin NBUF)} (h : Fine m order)
    (hs : (machine zero disk).step m l m') : ∃ order', Fine m' order' ∧
      Reordered order (l.front m) order' := by
  obtain ⟨order', hlisted, hre⟩ := listed_step h.listed hs.2
  exact ⟨order', ⟨hlisted, counted_step h.listed h.counted hs.2,
    sound_step h.listed h.counted h.sound hs.2⟩, hre⟩

theorem fine_of_reachable (h : (machine zero disk).Reachable m) : ∃ order, Fine m order := by
  apply h.invariant (I := fun m => ∃ order, Fine m order)
  · rintro m rfl
    exact ⟨_, fine_boot zero disk⟩
  · rintro m l m' - ⟨order, hm⟩ hs
    obtain ⟨order', hm', -⟩ := fine_step hm hs
    exact ⟨order', hm'⟩

/-! ## The abstract cache -/

def Buf.cached (x : Buf D) : Option D := if x.valid then some x.data else none

/-- The block cache that the buffers are. Of device 0 nothing is said. -/
structure Rel (m : Machine D) (a : BlockCache.State Pid Key D) : Prop where
  disk : a.disk = m.disk
  cached : ∀ b, (m.buf b).dev ≠ 0 → a.cache (m.buf b).key = (m.buf b).cached ∧
    a.holder (m.buf b).key = (m.buf b).lock ∧ a.pins (m.buf b).key = m.pins b
  missing : ∀ k : Key, k.1 ≠ 0 → (∀ b, (m.buf b).key ≠ k) →
    a.cache k = none ∧ a.holder k = none ∧ a.pins k = 0

/-- What a step of the buffer cache is to its clients. -/
def Label.seen (m : Machine D) : Label D → List (BlockCache.Label Pid Key D)
  | .bget _ k =>
      match Bio.bget m.bcache k with
      | some (.ok (b, _)) =>
          if (m.buf b).key = k ∨ (m.buf b).dev = 0 then [] else [.evict (m.buf b).key]
      | _ => []
  | .acquiresleep p =>
      match m.pc p with
      | .acquire k b false => if (m.buf b).lock = none then [.lock p k] else []
      | _                  => []
  | .kill _ => []
  | .bread p =>
      match m.pc p with
      | .locked k b => if (m.buf b).valid then [.read p k (m.buf b).data] else []
      | .filled k b => [.read p k (m.buf b).data]
      | _           => []
  | .modify p b f => [.modify p (m.buf b).key f]
  | .bwrite p b => if (m.buf b).lock = some p then [.write p (m.buf b).key] else []
  | .brelse p b => if (m.buf b).lock = some p then [.unlock p (m.buf b).key] else []
  | .drop _ => []
  | .bpin p b => [.pin p (m.buf b).key]
  | .bunpin p b => [.unpin p (m.buf b).key]

variable {a a' : BlockCache.State Pid Key D}

/-- One buffer and its block change. -/
theorem Rel.change (hm : Sound m) (h : Rel m a) (hb : (m.buf b).dev ≠ 0)
    (hother : ∀ b', b' ≠ b → m'.buf b' = m.buf b' ∧ m'.pins b' = m.pins b')
    (hkey : (m'.buf b).key = (m.buf b).key) (hdisk : a'.disk = m'.disk)
    (hrest : ∀ k, k ≠ (m.buf b).key →
      a'.cache k = a.cache k ∧ a'.holder k = a.holder k ∧ a'.pins k = a.pins k)
    (hself : a'.cache (m.buf b).key = (m'.buf b).cached ∧
      a'.holder (m.buf b).key = (m'.buf b).lock ∧ a'.pins (m.buf b).key = m'.pins b) :
    Rel m' a' where
  disk := hdisk
  cached c hc := by
    obtain rfl | hcb := eq_or_ne c b
    · rw [hkey]
      exact hself
    · rw [(hother c hcb).1] at hc ⊢
      rw [(hother c hcb).2]
      have hne : (m.buf c).key ≠ (m.buf b).key := fun hck => hcb (hm.unique b c hb hck)
      obtain ⟨h₁, h₂, h₃⟩ := hrest _ hne
      rw [h₁, h₂, h₃]
      exact h.cached c hc
  missing k hk hmiss := by
    have hkb : k ≠ (m.buf b).key := by
      rintro rfl
      exact hmiss b hkey
    obtain ⟨h₁, h₂, h₃⟩ := hrest k hkb
    rw [h₁, h₂, h₃]
    apply h.missing k hk
    intro c hc
    obtain rfl | hcb := eq_or_ne c b
    · exact hkb hc.symm
    · exact hmiss c (by rw [(hother c hcb).1, hc])

/-- Neither the counts nor the pcs matter. -/
theorem Rel.congr (h : Rel m a) (hdisk : m'.disk = m.disk) (hpins : m'.pins = m.pins)
    (hbuf : ∀ b, ∃ r, m'.buf b = { m.buf b with refcnt := r }) : Rel m' a where
  disk := h.disk.trans hdisk.symm
  cached b hb := by
    obtain ⟨r, hr⟩ := hbuf b
    rw [hr] at hb ⊢
    rw [hpins]
    exact h.cached b hb
  missing k hk hmiss := by
    apply h.missing k hk
    intro b hb
    obtain ⟨r, hr⟩ := hbuf b
    exact hmiss b (by rw [hr]; exact hb)

/-- A buffer without users is given to another block, and its old block is dropped. -/
theorem Rel.recycle {x : Buf D} {pc : Pc} (hm : Sound m) (h : Rel m a) (hfree : ¬ m.Used b)
    (hmiss : ∀ b, (m.buf b).key ≠ k) (hk : k.1 ≠ 0) (hx : x.key = k) (hvalid : x.valid = false)
    (hlock : x.lock = (m.buf b).lock) (hdisk : a'.disk = a.disk)
    (hrest : ∀ k, k ≠ (m.buf b).key →
      a'.cache k = a.cache k ∧ a'.holder k = a.holder k ∧ a'.pins k = a.pins k)
    (hold : (m.buf b).dev ≠ 0 → a'.cache (m.buf b).key = none ∧ a'.holder (m.buf b).key = none ∧
      a'.pins (m.buf b).key = 0) : Rel ((m.set b x).goto p pc) a' := by
  have hself : ((m.set b x).goto p pc).buf b = x := m.buf_set b x
  have hother : ∀ b', b' ≠ b → ((m.set b x).goto p pc).buf b' = m.buf b' :=
    fun b' => m.buf_set_of_ne x
  simp only [Machine.Used, not_or, not_exists, ne_eq, not_not, Nat.pos_iff_ne_zero] at hfree
  constructor
  case disk => exact hdisk.trans h.disk
  case cached =>
    intro c hc
    obtain rfl | hcb := eq_or_ne c b
    · obtain ⟨h₁, h₂, h₃⟩ := hrest k (hmiss c).symm
      rw [hself, hx, h₁, h₂, h₃, hlock, hfree.2.1, Buf.cached, hvalid]
      obtain ⟨h₁, h₂, h₃⟩ := h.missing k hk hmiss
      exact ⟨h₁, h₂, h₃.trans hfree.2.2.symm⟩
    · rw [hother c hcb] at hc ⊢
      have hne : (m.buf c).key ≠ (m.buf b).key := fun hck =>
        hcb (hm.unique c b hc hck.symm).symm
      obtain ⟨h₁, h₂, h₃⟩ := hrest _ hne
      rw [h₁, h₂, h₃]
      exact h.cached c hc
  case missing =>
    intro k' hk' hmiss'
    by_cases hkb : k' = (m.buf b).key
    · rw [hkb] at hk' ⊢
      exact hold hk'
    · obtain ⟨h₁, h₂, h₃⟩ := hrest k' hkb
      rw [h₁, h₂, h₃]
      apply h.missing k' hk'
      intro c hc
      obtain rfl | hcb := eq_or_ne c b
      · exact hkb hc.symm
      · exact hmiss' c (by rw [hother c hcb, hc])

theorem Rel.cache_valid (h : Rel m a) (hb : (m.buf b).dev ≠ 0) (hvalid : (m.buf b).valid = true) :
    a.cache (m.buf b).key = some (m.buf b).data := by
  rw [(h.cached b hb).1, Buf.cached, hvalid]
  rfl

theorem Rel.set {x : Buf D} (hm : Sound m) (h : Rel m a) (hb : (m.buf b).dev ≠ 0)
    (hkey : x.key = (m.buf b).key) (hdisk : a'.disk = a.disk)
    (hrest : ∀ k, k ≠ (m.buf b).key →
      a'.cache k = a.cache k ∧ a'.holder k = a.holder k ∧ a'.pins k = a.pins k)
    (hself : a'.cache (m.buf b).key = x.cached ∧ a'.holder (m.buf b).key = x.lock ∧
      a'.pins (m.buf b).key = m.pins b) : Rel (m.set b x) a' :=
  h.change hm hb (fun _ hb' => ⟨m.buf_set_of_ne x hb', rfl⟩) (by rw [m.buf_set, hkey])
    (hdisk.trans h.disk) hrest (by rw [m.buf_set]; exact hself)

theorem Rel.goto {pc : Pc} (h : Rel m a) : Rel (m.goto p pc) a :=
  h.congr rfl rfl fun _ => ⟨_, rfl⟩

theorem counted_buf {s : Bcache D} {r : BitVec 32}
    (hs : s.buf = (m.bcache.set b { m.buf b with refcnt := r }).buf) (c : Fin NBUF) :
    ∃ r, s.buf c = { m.buf c with refcnt := r } := by
  rw [hs]
  obtain rfl | hcb := eq_or_ne c b
  · exact ⟨r, m.buf_set c _⟩
  · exact ⟨_, m.buf_set_of_ne _ hcb⟩

theorem Rel.pin {r : BitVec 32} {n n' : Nat} (hm : Sound m) (h : Rel m a) (hb : (m.buf b).dev ≠ 0)
    (hdisk : m'.disk = m.disk) (hbuf : m'.bcache = m.bcache.set b { m.buf b with refcnt := r })
    (hpins : m'.pins = Function.update m.pins b n) (hn : n' = n) :
    Rel m' { a with pins := Function.update a.pins (m.buf b).key n' } := by
  have hself : m'.buf b = { m.buf b with refcnt := r } := by
    rw [Machine.buf, hbuf]
    exact m.buf_set b _
  obtain ⟨hcache, hholder, -⟩ := h.cached b hb
  refine h.change (b := b) hm hb ?_ (by rw [hself]; rfl) (h.disk.trans hdisk.symm) ?_ ?_
  · intro c hcb
    rw [Machine.buf, hbuf, hpins]
    exact ⟨m.buf_set_of_ne _ hcb, Function.update_of_ne hcb ..⟩
  · intro k hk
    exact ⟨rfl, rfl, Function.update_of_ne hk ..⟩
  · rw [hself, hpins, Function.update_self]
    exact ⟨hcache, hholder, (Function.update_self ..).trans hn⟩

/-- Only the cached data of one block changes. -/
theorem rest_cache (a : BlockCache.State Pid Key D) (k : Key) (o : Option D) (k' : Key) (h : k' ≠ k) :
    Function.update a.cache k o k' = a.cache k' ∧ a.holder k' = a.holder k' ∧
      a.pins k' = a.pins k' :=
  ⟨Function.update_of_ne h .., rfl, rfl⟩

theorem rest_holder (a : BlockCache.State Pid Key D) (k : Key) (o : Option Pid) (k' : Key)
    (h : k' ≠ k) : a.cache k' = a.cache k' ∧ Function.update a.holder k o k' = a.holder k' ∧
      a.pins k' = a.pins k' :=
  ⟨rfl, Function.update_of_ne h .., rfl⟩

theorem simulates (zero : D) (disk : Key → D) :
    Simulates (machine zero disk) (BlockCache.system Pid disk) Rel fun m l => l.seen m := by
  constructor
  case init =>
    rintro m rfl
    refine ⟨_, rfl, rfl, fun b hb => absurd rfl hb, fun _ _ _ => ⟨rfl, rfl, rfl⟩⟩
  case step =>
    intro m l m' a hr _ h hs
    obtain ⟨order, hfine⟩ := fine_of_reachable hr
    have hm := hfine.sound
    have hsame : ∀ b, ∃ r, m.buf b = { m.buf b with refcnt := r } := fun b => ⟨_, rfl⟩
    cases hs.2 with
    | @bget p k b s hpc hk hget =>
        obtain ⟨r, hr, hgot⟩ := bget_got hfine.listed k
        have hseen : Label.seen m (.bget p k) = if (m.buf b).key = k ∨ (m.buf b).dev = 0 then []
            else [.evict (m.buf b).key] := by
          simp only [Label.seen, hget]
        cases hget.symm.trans hr
        rw [hseen]
        cases hgot with
        | hit hkey =>
            refine ⟨[], a, .nil a, ?_, by simp [Machine.buf, hkey]⟩
            exact h.congr rfl rfl (counted_buf rfl)
        | recycled hmiss hzero horder hbehind =>
            have hfree := hfine.counted.refcnt_eq_zero.mp hzero
            by_cases hdev : (m.buf b).dev = 0
            · refine ⟨[], a, .nil a, ?_, by simp [hdev]⟩
              exact h.recycle hm hfree hmiss hk rfl rfl rfl rfl (fun _ _ => ⟨rfl, rfl, rfl⟩)
                fun hne => absurd hdev hne
            · obtain ⟨hcache, hholder, hpins⟩ := h.cached b hdev
              have hunused := hfree
              simp only [Machine.Used, not_or, not_exists, ne_eq, not_not, Nat.pos_iff_ne_zero]
                at hunused
              have hnone := hholder.trans hunused.2.1
              have hzero := hpins.trans hunused.2.2
              have hother : ¬ ((m.buf b).key = k ∨ (m.buf b).dev = 0) :=
                not_or.mpr ⟨hmiss b, hdev⟩
              refine ⟨_, _, .single (.evict hnone hzero), ?_, by rw [if_neg hother]; rfl⟩
              exact h.recycle hm hfree hmiss hk rfl rfl rfl rfl (rest_cache a _ _)
                fun _ => ⟨Function.update_self .., hnone, hzero⟩
    | @bgetPanic p k msg hpc hk hget =>
        exact ⟨[], a, .nil a, h.congr rfl rfl hsame, by simp [Label.seen, hget]⟩
    | @lock p k b hpc hlock =>
        have hok := hm.pc p
        rw [hpc] at hok
        obtain ⟨rfl, -⟩ := hok
        have hdev : (m.buf b).dev ≠ 0 := hm.used b (.inl ⟨p, by rw [hpc]; rfl⟩)
        obtain ⟨hcache, hholder, hpins⟩ := h.cached b hdev
        refine ⟨_, _, .single (.lock (p := p) (hholder.trans hlock)), ?_,
          by simp [Label.seen, hpc, hlock]⟩
        apply Rel.goto
        exact h.set hm hdev rfl rfl (rest_holder a _ _) ⟨hcache, Function.update_self .., hpins⟩
    | @sleep p k b hpc hlock =>
        exact ⟨[], a, .nil a, h.goto, by simp [Label.seen, hpc, hlock]⟩
    | kill => exact ⟨[], a, .nil a, h.goto, rfl⟩
    | @cached p k b hpc hvalid =>
        have hok := hm.pc p
        rw [hpc] at hok
        obtain ⟨rfl, hlock⟩ := hok
        have hdev := hm.locked_dev hlock
        obtain ⟨hcache, hholder, hpins⟩ := h.cached b hdev
        have hdata := h.cache_valid hdev hvalid
        refine ⟨_, _, .single (.read (v := (m.buf b).data) (hholder.trans hlock) (by rw [hdata]; rfl)),
          ?_, by simp [Label.seen, hpc, hvalid]⟩
        rw [← hdata, Function.update_eq_self]
        exact h.goto
    | @fill p k b hpc hvalid =>
        have hok := hm.pc p
        rw [hpc] at hok
        have hdev := hm.locked_dev hok.2
        obtain ⟨hcache, hholder, hpins⟩ := h.cached b hdev
        refine ⟨[], a, .nil a, ?_, by simp [Label.seen, hpc, hvalid]⟩
        apply Rel.goto
        refine h.set hm hdev rfl rfl (fun _ _ => ⟨rfl, rfl, rfl⟩) ⟨?_, hholder, hpins⟩
        rw [hcache, Buf.cached, Buf.cached, hvalid]
        rfl
    | @filled p k b hpc =>
        have hok := hm.pc p
        rw [hpc] at hok
        obtain ⟨rfl, hlock, hvalid, hdata⟩ := hok
        have hdev := hm.locked_dev hlock
        obtain ⟨hcache, hholder, hpins⟩ := h.cached b hdev
        rw [Buf.cached, hvalid] at hcache
        refine ⟨_, _, .single (.read (v := (m.buf b).data) (hholder.trans hlock) ?_), ?_,
          by simp [Label.seen, hpc]⟩
        · rw [hcache, h.disk, hdata]
          rfl
        · apply Rel.goto
          exact h.set hm hdev rfl rfl (rest_cache a _ _) ⟨Function.update_self .., hholder, hpins⟩
    | @modify p b f hpc hlock =>
        have hdev := hm.locked_dev hlock
        obtain ⟨hcache, hholder, hpins⟩ := h.cached b hdev
        have hvalid := hm.valid b p hlock (by simp [hpc, Pc.fills])
        refine ⟨_, _, .single (.modify (f := f) (hholder.trans hlock) (h.cache_valid hdev hvalid)), ?_,
          rfl⟩
        refine h.set hm hdev rfl rfl (rest_cache a _ _) ⟨?_, hholder, hpins⟩
        refine (Function.update_self ..).trans ?_
        rw [Buf.cached, hvalid]
        rfl
    | @bwrite p b hpc hlock =>
        have hdev := hm.locked_dev hlock
        obtain ⟨hcache, hholder, hpins⟩ := h.cached b hdev
        have hvalid := hm.valid b p hlock (by simp [hpc, Pc.fills])
        refine ⟨_, _, .single (.write (hholder.trans hlock) (h.cache_valid hdev hvalid)), ?_,
          by simp [Label.seen, hlock]⟩
        refine h.change hm hdev (fun _ _ => ⟨rfl, rfl⟩) rfl ?_ (fun _ _ => ⟨rfl, rfl, rfl⟩)
          ⟨hcache, hholder, hpins⟩
        rw [h.disk]
    | @bwritePanic p b hpc hlock =>
        exact ⟨[], a, .nil a, h.congr rfl rfl hsame, by simp [Label.seen, hlock]⟩
    | @brelse p b hpc hlock =>
        have hdev := hm.locked_dev hlock
        obtain ⟨hcache, hholder, hpins⟩ := h.cached b hdev
        refine ⟨_, _, .single (.unlock (hholder.trans hlock)), ?_, by simp [Label.seen, hlock]⟩
        have hset : Rel (m.set b { m.buf b with lock := none })
            { a with holder := Function.update a.holder (m.buf b).key none } :=
          h.set hm hdev rfl rfl (rest_holder a _ _) ⟨hcache, Function.update_self .., hpins⟩
        exact hset.congr rfl rfl fun _ => ⟨_, rfl⟩
    | @brelsePanic p b hpc hlock =>
        exact ⟨[], a, .nil a, h.congr rfl rfl hsame, by simp [Label.seen, hlock]⟩
    | @drop p b hpc =>
        refine ⟨[], a, .nil a, h.congr rfl rfl (counted_buf (drop_buf m.bcache b)), rfl⟩
    | @bpin p b hpc hlock hlt =>
        have hdev := hm.locked_dev hlock
        obtain ⟨hcache, hholder, hpins⟩ := h.cached b hdev
        refine ⟨_, _, .single (.pin (hholder.trans hlock)), ?_, rfl⟩
        exact h.pin hm hdev rfl rfl rfl (by rw [hpins])
    | @bunpin p b hpc hlock hpos =>
        have hdev := hm.locked_dev hlock
        obtain ⟨hcache, hholder, hpins⟩ := h.cached b hdev
        refine ⟨_, _, .single (.unpin (hholder.trans hlock) (by rwa [hpins])), ?_, rfl⟩
        exact h.pin hm hdev rfl rfl rfl (by rw [hpins])

/-! ## Result -/

/-- Whatever calls the processes make and however they interleave, the buffer cache is a cache: its
    run is one of `BlockCache`, in which every `bread` returns the data of the block, only one process
    at a time has a block, and no block that is locked or pinned is dropped. The buffers are the
    cached blocks at any time, and no block is in two of them. Device 0 is none: `binit` leaves all
    buffers at its block 0. -/
theorem bio_refines_cache {tr : List (Machine D × Label D)}
    (hrun : (machine zero disk).Run (boot zero disk) tr m) :
    (∃ a₀ tr' a, (BlockCache.system Pid disk).init a₀ ∧ (BlockCache.system Pid disk).Run a₀ tr' a ∧
      tr'.map Prod.snd = tr.flatMap (fun q => q.2.seen q.1) ∧ Rel m a) ∧
    ∀ b b', (m.buf b).dev ≠ 0 → (m.buf b').key = (m.buf b).key → b' = b := by
  obtain ⟨order, hfine⟩ := fine_of_reachable ⟨_, tr, rfl, hrun⟩
  obtain ⟨a₀, tr', a, h₀, hrun', hrel, hlab⟩ := (simulates zero disk).run rfl hrun
  exact ⟨⟨a₀, tr', a, h₀, hrun', hlab, hrel⟩, hfine.sound.unique⟩

/-- A process that has come through `bget` reads the block. -/
theorem run_fill (zero : D) (disk : Key → D) (hidle : m.panicked = none)
    (hpc : m.pc p = .acquire k b false) (hkey : (m.buf b).key = k) (hlock : (m.buf b).lock = none)
    (hvalid : (m.buf b).valid = false) :
    ∃ tr m', (machine zero disk).Run m tr m' ∧ (m'.buf b).key = k ∧
      tr.flatMap (fun q => q.2.seen q.1) = [.lock p k, .read p k (m.disk k)] := by
  obtain ⟨m₁, hm₁⟩ : ∃ m₁, m₁ = (m.set b { m.buf b with lock := some p }).goto p (.locked k b) :=
    ⟨_, rfl⟩
  have hbuf₁ : m₁.buf b = { m.buf b with lock := some p } := by rw [hm₁]; exact m.buf_set b _
  have hpc₁ : m₁.pc p = .locked k b := by rw [hm₁]; exact Function.update_self ..
  have hdisk₁ : m₁.disk = m.disk := by rw [hm₁]; rfl
  have hidle₁ : m₁.panicked = none := by rw [hm₁]; exact hidle
  have hvalid₁ : (m₁.buf b).valid = false := by rw [hbuf₁]; exact hvalid
  obtain ⟨m₂, hm₂⟩ : ∃ m₂, m₂ = (m₁.set b { m₁.buf b with data := m₁.disk (m₁.buf b).key }).goto p
    (.filled k b) := ⟨_, rfl⟩
  have hbuf₂ : m₂.buf b = { m₁.buf b with data := m₁.disk (m₁.buf b).key } := by
    rw [hm₂]
    exact m₁.buf_set b _
  have hpc₂ : m₂.pc p = .filled k b := by rw [hm₂]; exact Function.update_self ..
  have hidle₂ : m₂.panicked = none := by rw [hm₂]; exact hidle₁
  have hdata : (m₂.buf b).data = m.disk k := by
    rw [hbuf₂, hbuf₁, hdisk₁, ← hkey]
    rfl
  have hs₁ : (machine zero disk).step m (.acquiresleep p) m₁ := ⟨hidle, hm₁ ▸ .lock hpc hlock⟩
  have hs₂ : (machine zero disk).step m₁ (.bread p) m₂ := ⟨hidle₁, hm₂ ▸ .fill hpc₁ hvalid₁⟩
  have hs₃ : (machine zero disk).step m₂ (.bread p) _ := ⟨hidle₂, .filled hpc₂⟩
  refine ⟨_, _, ((Run.single hs₁).snoc hs₂).snoc hs₃, ?_, ?_⟩
  · rw [Machine.buf_goto, m₂.buf_set, hbuf₂, hbuf₁]
    exact hkey
  · simp [Label.seen, hpc, hlock, hpc₁, hvalid₁, hpc₂, hdata]

/-- A process reads a block after boot. -/
theorem run_bread (zero : D) (disk : Key → D) (p : Pid) (hk : k.1 ≠ 0) :
    ∃ tr m b, (machine zero disk).Run (boot zero disk) tr m ∧ (m.buf b).key = k ∧
      tr.flatMap (fun q => q.2.seen q.1) = [.lock p k, .read p k (disk k)] := by
  obtain ⟨r, hget, hgot⟩ := bget_got (fine_boot zero disk).listed k
  cases hgot with
  | hit hkey => exact absurd (congrArg Prod.fst hkey).symm hk
  | exhausted hmiss hused => exact absurd rfl (hused ⟨0, by decide⟩)
  | @recycled b l₁ l₂ hmiss hzero horder hbehind =>
      obtain ⟨x, hx⟩ : ∃ x : Buf D, x = { (boot zero disk).buf b with
        dev := k.1, blockno := k.2, valid := false, refcnt := 1 } := ⟨_, rfl⟩
      obtain ⟨m₁, hm₁⟩ : ∃ m₁, m₁ = ((boot zero disk).set b x).goto p (.acquire k b false) :=
        ⟨_, rfl⟩
      have hs : (machine zero disk).step (boot zero disk) (.bget p k) m₁ := by
        refine ⟨rfl, ?_⟩
        rw [hm₁, hx]
        exact .bget rfl hk hget
      have hbuf : m₁.buf b = x := by rw [hm₁]; exact (boot zero disk).buf_set b x
      have hpc : m₁.pc p = .acquire k b false := by rw [hm₁]; exact Function.update_self ..
      have hdisk : m₁.disk = disk := by rw [hm₁]; rfl
      obtain ⟨tr, m, hrun, hkey, hseen⟩ := run_fill zero disk
        (by rw [hm₁]; rfl) hpc (by rw [hbuf, hx]; rfl) (by rw [hbuf, hx]; rfl) (by rw [hbuf, hx])
      refine ⟨_, m, b, (Run.single hs).trans hrun, hkey, ?_⟩
      have hfresh : Label.seen (boot zero disk) (.bget p k) = [] := by
        simp only [Label.seen, hget]
        exact if_pos (.inr rfl)
      rw [List.flatMap_append, hseen, hdisk, List.flatMap_singleton, hfresh]
      rfl

theorem bio_refines_cache_read :
    ∃ tr m b a₀ tr' a, (machine 0 fun _ => 5).Run (boot 0 fun _ => 5) tr m ∧
      (BlockCache.system Pid fun _ => 5).Run a₀ tr' a ∧
      tr'.map Prod.snd = [.lock ⟨3, by decide⟩ (1, 7), .read ⟨3, by decide⟩ (1, 7) 5] ∧ Rel m a ∧
      ∀ b', (m.buf b').key = (1, 7) ↔ b' = b := by
  obtain ⟨tr, m, b, hrun, hkey, hseen⟩ := run_bread (0 : Nat) (fun _ => 5) ⟨3, by decide⟩
    (k := (1, 7)) (by decide)
  obtain ⟨⟨a₀, tr', a, -, hrun', hlab, hrel⟩, hunique⟩ := bio_refines_cache hrun
  have hdev : (m.buf b).dev ≠ 0 := by
    rw [show (m.buf b).dev = 1 from congrArg Prod.fst hkey]
    decide
  refine ⟨tr, m, b, a₀, tr', a, hrun, hrun', hlab.trans hseen, hrel, ?_⟩
  intro b'
  constructor
  · intro hkey'
    exact hunique b b' hdev (hkey'.trans hkey.symm)
  · rintro rfl
    exact hkey

end Bio
