-- SUMMARY: The barber shop with zemaphores: what one statement can do, the units and customers it counts, and progress.
import OsLabs.Barber.Model
import OsLabs.Zemaphore.Counting

/-!
# The barber shop with zemaphores

Here `mutex` is a zemaphore as well, and every statement is a step. The invariant counts
threads by where they are: its numbers are those of the three zemaphores and of the two
variables. What a thread has found out about the variables while it holds `mutex` stays true
until it gives it up.
-/

namespace Barber.Zem

open Monitor Zemaphore CInt

variable {A : Args} {k k' k₀ : State A} {tr : Trace A}
  {e : Label (Thread A) (Event Sema Note)} {s s' : Shared Sema Data} {f f' : Thread A → Pc}
  {l l' : Pc} {ev : Event Sema Note}

/-! ## What one step can do -/

/-- `Move A s l l' s' ev`: a statement takes its thread from `l` to `l'` and the shared state
    from `s` to `s'`. A `zem_down` that has to wait is not one. -/
inductive Move (A : Args) (s : Shared Sema Data) :
    Pc → Pc → Shared Sema Data → Event Sema Note → Prop
  | lock : 0 < s.value .mutex →
      Move A s .lock .test (s.setValue .mutex (s.value .mutex - 1)) (.down .mutex)
  | nobody : s.data.waiting = 0 → 0 < s.data.customerPresent →
      Move A s .test .release s (.run .other)
  | somebody : ¬ (s.data.waiting = 0 ∧ s.data.customerPresent > 0) →
      Move A s .test .take s (.run .other)
  | release : Move A s .release .sleep (s.setValue .mutex (wrap32 (s.value .mutex + 1))) (.up .mutex)
  | sleep : 0 < s.value .customerZ →
      Move A s .sleep .lock (s.setValue .customerZ (s.value .customerZ - 1)) (.down .customerZ)
  | take : Move A s .take .raise
      { s with data := { s.data with waiting := s.data.waiting - 1 } } (.run .other)
  | raise : Move A s .raise .serve (s.setValue .barberZ (wrap32 (s.value .barberZ + 1)))
      (.up .barberZ)
  | serve : Move A s .serve .unlock s (.run .serves)
  | unlock : Move A s .unlock .readPresent (s.setValue .mutex (wrap32 (s.value .mutex + 1)))
      (.up .mutex)
  | morePresent : 0 < s.data.customerPresent → Move A s .readPresent .lock s (.run .other)
  | nonePresent : s.data.customerPresent ≤ 0 → Move A s .readPresent .readWaiting s (.run .other)
  | someWait : s.data.waiting ≠ 0 → Move A s .readWaiting .lock s (.run .other)
  | noneWait : s.data.waiting = 0 → Move A s .readWaiting .home s (.run .other)
  | arrive : 0 < s.value .mutex →
      Move A s .arrive .choose (s.setValue .mutex (s.value .mutex - 1)) (.down .mutex)
  | full : s.data.waiting = A.chairCount → Move A s .choose .leave s (.run .other)
  | free : s.data.waiting ≠ A.chairCount → Move A s .choose .sit s (.run .other)
  | leave : Move A s .leave .leaveUnlock
      { s with data := { s.data with customerPresent := s.data.customerPresent - 1 } } (.run .other)
  | leaveUnlock : Move A s .leaveUnlock .gone (s.setValue .mutex (wrap32 (s.value .mutex + 1)))
      (.up .mutex)
  | sit : Move A s .sit .sitPresent
      { s with data := { s.data with waiting := s.data.waiting + 1 } } (.run .sits)
  | sitPresent : Move A s .sitPresent .sitRaise
      { s with data := { s.data with customerPresent := s.data.customerPresent - 1 } } (.run .other)
  | sitRaise : Move A s .sitRaise .sitUnlock
      (s.setValue .customerZ (wrap32 (s.value .customerZ + 1))) (.up .customerZ)
  | sitUnlock : Move A s .sitUnlock .seated (s.setValue .mutex (wrap32 (s.value .mutex + 1)))
      (.up .mutex)
  | seated : 0 < s.value .barberZ →
      Move A s .seated .gone (s.setValue .barberZ (s.value .barberZ - 1)) (.down .barberZ)

/-- A statement that is executed does what its line says, or it waits and changes nothing. -/
theorem moves_cases {st : Stmt Sema Data Pc Note} (hst : st ∈ code A l)
    (h : Moves st s l' s' ev) :
    (l' = l ∧ s' = s ∧ ∃ z, ev = .waits z) ∨ Move A s l l' s' ev := by
  cases l <;> simp only [code, List.mem_singleton, List.not_mem_nil] at hst <;> subst hst <;>
    cases h
  case lock.waits => exact .inl ⟨rfl, rfl, _, rfl⟩
  case sleep.waits => exact .inl ⟨rfl, rfl, _, rfl⟩
  case arrive.waits => exact .inl ⟨rfl, rfl, _, rfl⟩
  case seated.waits => exact .inl ⟨rfl, rfl, _, rfl⟩
  case lock.down h => exact .inr (.lock h)
  case sleep.down h => exact .inr (.sleep h)
  case arrive.down h => exact .inr (.arrive h)
  case seated.down h => exact .inr (.seated h)
  case release.up => exact .inr .release
  case raise.up => exact .inr .raise
  case unlock.up => exact .inr .unlock
  case leaveUnlock.up => exact .inr .leaveUnlock
  case sitRaise.up => exact .inr .sitRaise
  case sitUnlock.up => exact .inr .sitUnlock
  case take.run => exact .inr .take
  case serve.run => exact .inr .serve
  case leave.run => exact .inr .leave
  case sit.run => exact .inr .sit
  case sitPresent.run => exact .inr .sitPresent
  case test.run =>
    by_cases h : s.data.waiting = 0 ∧ s.data.customerPresent > 0
    · simpa only [if_pos h] using .inr (.nobody h.1 h.2)
    · simpa only [if_neg h] using .inr (.somebody h)
  case readPresent.run =>
    by_cases h : s.data.customerPresent ≤ 0
    · simpa only [if_pos h] using .inr (.nonePresent h)
    · simpa only [if_neg h] using .inr (.morePresent (Int.not_le.mp h))
  case readWaiting.run =>
    by_cases h : s.data.waiting = 0
    · simpa only [if_pos h] using .inr (.noneWait h)
    · simpa only [if_neg h] using .inr (.someWait h)
  case choose.run =>
    by_cases h : s.data.waiting = A.chairCount
    · simpa only [if_pos h] using .inr (.full h)
    · simpa only [if_neg h] using .inr (.free h)

/-- Conversely, every such move is one of a statement. -/
theorem Move.exists_moves (h : Move A s l l' s' ev) :
    ∃ st ∈ code A l, Moves st s l' s' ev ∧ ∀ z, ev ≠ .waits z := by
  cases h with
  | lock hpos | arrive hpos | sleep hpos | seated hpos =>
      exact ⟨_, List.mem_singleton_self _, .down hpos, by simp⟩
  | release | raise | unlock | leaveUnlock | sitRaise | sitUnlock =>
      exact ⟨_, List.mem_singleton_self _, .up, by simp⟩
  | take | serve | leave | sit | sitPresent =>
      exact ⟨_, List.mem_singleton_self _, .run, by simp⟩
  | nobody hw hp => exact ⟨_, List.mem_singleton_self _, .run_of_eq (by simp [hw, hp]), by simp⟩
  | somebody h => exact ⟨_, List.mem_singleton_self _, .run_of_eq (by rw [if_neg h]), by simp⟩
  | morePresent h =>
      exact ⟨_, List.mem_singleton_self _, .run_of_eq (by rw [if_neg (Int.not_le.mpr h)]), by simp⟩
  | nonePresent h | noneWait h | full h =>
      exact ⟨_, List.mem_singleton_self _, .run_of_eq (by rw [if_pos h]), by simp⟩
  | someWait h | free h =>
      exact ⟨_, List.mem_singleton_self _, .run_of_eq (by rw [if_neg h]), by simp⟩

/-- A thread makes a move while nobody waits. -/
theorem reachable_move {t : Thread A}
    (h : (shop A).Reachable ⟨s, fun u => .ready (Function.update f t l u)⟩)
    (hm : Move A s l l' s' ev) :
    (shop A).Reachable ⟨s', fun u => .ready (Function.update f t l' u)⟩ := by
  obtain ⟨st, hst, hmoves, hev⟩ := hm.exists_moves
  obtain ⟨hshared, hnext⟩ := hmoves.exec_eq hev
  have hmem : st.exec ∈ (program (code A)).sections (Function.update f t l t) := by
    rw [Function.update_self]
    exact List.mem_map_of_mem hst
  have hgoto := reachable_goto h st.exec hmem hnext
  rwa [hshared, Function.update_idem] at hgoto

/-- What a step does to the shared state and to the locations. -/
theorem step_cases (h : (shop A).step k e k') :
    (k'.shared = k.shared ∧ k'.locs = k.locs ∧ ∀ t n, e ≠ .exec t (.run n)) ∨
    (∃ t l' ev, e = .exec t ev ∧ Move A k.shared (k.locs t) l' k'.shared ev ∧
      k'.locs = Function.update k.locs t l') := by
  rcases step_moves h with ⟨t, rfl, hshared, hlocs⟩ | ⟨t, st, l', ev, rfl, hst, hm, hlocs⟩
  · exact .inl ⟨hshared, hlocs, by simp⟩
  · rcases moves_cases hst hm with ⟨rfl, hshared, z, rfl⟩ | hmove
    · refine .inl ⟨hshared, ?_, by simp⟩
      rw [hlocs]
      exact Function.update_eq_self t k.locs
    · exact .inr ⟨t, l', ev, rfl, hmove, hlocs⟩

/-! ## Counting threads -/

/-- The points of `barber_thread`. -/
def Pc.isBarber : Pc → Bool
  | .lock | .test | .release | .sleep | .take | .raise | .serve | .unlock | .readPresent
  | .readWaiting | .home => true
  | _                    => false

/-- Between a `zem_down` and the next `zem_up` of `mutex`. -/
def Pc.holds : Pc → Bool
  | .test | .release | .take | .raise | .serve | .unlock | .choose | .leave | .leaveUnlock | .sit
  | .sitPresent | .sitRaise | .sitUnlock => true
  | _                                    => false

/-- A customer who is still counted in `customer_present`. -/
def Pc.toCome : Pc → Bool
  | .arrive | .choose | .leave | .sit | .sitPresent => true
  | _                                               => false

/-- A customer who has taken a chair and has no haircut yet. -/
def Pc.inChair : Pc → Bool
  | .sitPresent | .sitRaise | .sitUnlock | .seated => true
  | _                                              => false

/-- A customer who has taken a chair and has not told the barber yet. -/
def Pc.unannounced : Pc → Bool
  | .sitPresent | .sitRaise => true
  | _                       => false

/-- A customer who will not raise `customer_z` any more. -/
def Pc.quiet : Pc → Bool
  | .sitUnlock | .seated | .gone => true
  | _                            => false

/-- The barber, who has called a customer from a chair and not raised `barber_z` yet. -/
def Pc.calling : Pc → Bool
  | .raise => true
  | _      => false

theorem Move.isBarber (h : Move A s l l' s' ev) : l'.isBarber = l.isBarber := by
  cases h <;> rfl

/-- A counter that is raised does not overflow. -/
def Fits (s : Shared Sema Data) (ev : Event Sema Note) : Prop :=
  ∀ z, ev = .up z → wrap32 (s.value z + 1) = s.value z + 1

theorem Move.mutex (h : Move A s l l' s' ev) (hfits : Fits s ev) :
    s'.value .mutex + l'.holds.toNat = s.value .mutex + l.holds.toNat := by
  cases h <;> simp [Fits] at hfits <;> simp [Shared.setValue, Pc.holds] <;> omega

theorem Move.present (h : Move A s l l' s' ev) :
    s'.data.customerPresent - l'.toCome.toNat = s.data.customerPresent - l.toCome.toNat := by
  cases h <;> simp [Shared.setValue, Pc.toCome]

theorem Move.chairs (h : Move A s l l' s' ev) (hfits : Fits s ev) :
    s'.data.waiting + s'.value .barberZ + l'.calling.toNat - l'.inChair.toNat =
      s.data.waiting + s.value .barberZ + l.calling.toNat - l.inChair.toNat := by
  cases h <;> simp [Fits] at hfits <;> simp [Shared.setValue, Pc.calling, Pc.inChair] <;> omega

theorem Move.announced (h : Move A s l l' s' ev) (hfits : Fits s ev) :
    s'.value .customerZ - l'.quiet.toNat ≤ s.value .customerZ - l.quiet.toNat := by
  cases h <;> simp [Fits] at hfits <;> simp [Shared.setValue, Pc.quiet]
  omega

theorem Move.nonneg (h : Move A s l l' s' ev) (hfits : Fits s ev) (h₀ : ∀ z, 0 ≤ s.value z)
    (z : Sema) : 0 ≤ s'.value z := by
  have hset : ∀ z v, 0 ≤ v → ∀ z', 0 ≤ (s.setValue z v).value z' := fun z v hv =>
    (Function.forall_update_iff s.value fun _ v => 0 ≤ v).mpr ⟨hv, fun z' _ => h₀ z'⟩
  have hup : ∀ z, ev = .up z → 0 ≤ wrap32 (s.value z + 1) := by
    intro z hz
    have := h₀ z
    rw [hfits z hz]
    omega
  cases h with
  | lock hpos | arrive hpos | sleep hpos | seated hpos => exact hset _ _ (by omega) z
  | release | raise | unlock | leaveUnlock | sitRaise | sitUnlock => exact hset _ _ (hup _ rfl) z
  | _ => exact h₀ z

/-- The zemaphores and the two variables, in terms of where the threads are. -/
structure Counted (s : Shared Sema Data) (f : Thread A → Pc) : Prop where
  place : ∀ t, (f t).isBarber = t.isNone
  nonneg : ∀ z, 0 ≤ s.value z
  mutex : s.value .mutex + headcount Pc.holds f = 1
  present : s.data.customerPresent = headcount Pc.toCome f
  chairs : (headcount Pc.inChair f : Int) =
    s.data.waiting + s.value .barberZ + headcount Pc.calling f
  announced : s.value .customerZ ≤ headcount Pc.quiet f

theorem headcount_le_customers {p : Pc → Bool} (h : p (f none) = false) :
    headcount p f ≤ A.customerCount := by
  rw [headcount_eq_sum, Fintype.sum_option, h]
  simpa using Finset.sum_le_card_nsmul Finset.univ (fun i => (p (f (some i))).toNat) 1
    fun i _ => Bool.toNat_le _

theorem Pc.not_inChair_of_isBarber {l : Pc} (h : l.isBarber = true) : l.inChair = false := by
  cases l <;> first | rfl | cases h

theorem Pc.not_quiet_of_isBarber {l : Pc} (h : l.isBarber = true) : l.quiet = false := by
  cases l <;> first | rfl | cases h

/-- No counter is near the largest `int` when it is raised: there are not enough customers. -/
theorem Counted.lt_of_up {t : Thread A} {z : Sema} (h : Counted s f) (h₀ : 0 ≤ s.data.waiting)
    (hm : Move A s (f t) l' s' (.up z)) : s.value z < 2 ^ 31 - 1 := by
  have hmutex := h.mutex
  have hchairs := h.chairs
  have hann := h.announced
  have hcount := A.isInt
  have hseats : headcount Pc.inChair f ≤ A.customerCount :=
    headcount_le_customers (Pc.not_inChair_of_isBarber (h.place none))
  generalize hl : f t = l at hm
  cases hm with
  | release | unlock | leaveUnlock | sitUnlock => omega
  | raise =>
      have : 0 < headcount Pc.calling f := headcount_pos.mpr ⟨t, by rw [hl]; rfl⟩
      omega
  | sitRaise =>
      -- The customer who is about to raise it is not among those who have done so.
      have hmore := headcount_update Pc.quiet f t .sitUnlock
      have hquiet : headcount Pc.quiet (Function.update f t .sitUnlock) ≤ A.customerCount := by
        refine headcount_le_customers (Pc.not_quiet_of_isBarber ?_)
        have ht : t ≠ none := by
          rintro rfl
          have := h.place none
          rw [hl] at this
          cases this
        rw [Function.update_of_ne ht.symm]
        exact h.place none
      rw [hl] at hmore
      simp [Pc.quiet] at hmore
      omega

theorem Counted.fits {t : Thread A} (h : Counted s f) (h₀ : 0 ≤ s.data.waiting)
    (hm : Move A s (f t) l' s' ev) : Fits s ev := by
  rintro z rfl
  have := h.lt_of_up h₀ hm
  have := h.nonneg z
  exact wrap32_eq_self (by omega) (by omega)

theorem Counted.move {t : Thread A} (h : Counted s f) (h₀ : 0 ≤ s.data.waiting)
    (hm : Move A s (f t) l' s' ev) : Counted s' (Function.update f t l') := by
  have hfits := h.fits h₀ hm
  have hcount := fun p => headcount_update p f t l'
  refine ⟨?_, hm.nonneg hfits h.nonneg, ?_, ?_, ?_, ?_⟩
  · refine (Function.forall_update_iff f fun u l => l.isBarber = u.isNone).mpr
      ⟨?_, fun u _ => h.place u⟩
    rw [hm.isBarber]
    exact h.place t
  · have := hm.mutex hfits
    have := hcount Pc.holds
    have := h.mutex
    omega
  · have := hm.present
    have := hcount Pc.toCome
    have := h.present
    omega
  · have := hm.chairs hfits
    have := hcount Pc.inChair
    have := hcount Pc.calling
    have := h.chairs
    omega
  · have := hm.announced hfits
    have := hcount Pc.quiet
    have := h.announced
    omega

/-- Only one thread holds `mutex`. -/
theorem Counted.exclusive {t u : Thread A} (h : Counted s f) (ht : (f t).holds = true)
    (hu : (f u).holds = true) : t = u := by
  refine eq_of_headcount_le_one ?_ ht hu
  have := h.mutex
  have := h.nonneg .mutex
  omega

/-! ## The barber does not go to an empty chair -/

/-- What a thread at `l` can rely on. `u` is the number of chairs taken that the barber has been
    told of or is about to be told of. -/
def Knows (A : Args) (d : Data) (u : Int) : Pc → Prop
  | .lock        => 0 < d.waiting ∨ 0 < d.customerPresent
  | .test        => 0 < d.waiting ∨ 0 < d.customerPresent
  | .release     => d.waiting = 0 ∧ 0 < d.customerPresent
  | .sleep       => (0 < d.waiting ∨ 0 < d.customerPresent) ∧ d.waiting ≤ u
  | .take        => 0 < d.waiting
  | .readWaiting => d.customerPresent ≤ 0
  | .home        => d.customerPresent ≤ 0 ∧ d.waiting = 0
  | .leave       => d.waiting = A.chairCount
  | .sit         => d.waiting ≠ A.chairCount
  | .sitPresent  => 0 < d.waiting
  | _            => True

def announcements (s : Shared Sema Data) (f : Thread A → Pc) : Int :=
  s.value .customerZ + headcount Pc.unannounced f

structure Sound (A : Args) (s : Shared Sema Data) (f : Thread A → Pc) : Prop where
  knows : ∀ t, Knows A s.data (announcements s f) (f t)
  nonneg : 0 ≤ s.data.waiting
  le : s.data.waiting ≤ A.chairCount

/-- The thread that makes the step. -/
theorem Move.knows {u u' : Int} (h : Move A s l l' s' ev) (hk : Knows A s.data u l)
    (h₀ : 0 ≤ s.data.waiting) (hu : 0 ≤ u') : Knows A s'.data u' l' := by
  cases h <;> simp only [Knows, Shared.setValue] at hk ⊢ <;> omega

theorem Move.waiting (h : Move A s l l' s' ev) {u : Int} (hk : Knows A s.data u l)
    (h₀ : 0 ≤ s.data.waiting) (hle : s.data.waiting ≤ A.chairCount) :
    0 ≤ s'.data.waiting ∧ s'.data.waiting ≤ A.chairCount := by
  cases h <;> simp only [Knows, Shared.setValue] at hk ⊢ <;> omega

/-- The variables change only under `mutex`. -/
theorem Move.data (h : Move A s l l' s' ev) : s'.data = s.data ∨ l.holds = true := by
  cases h <;> first | exact .inl rfl | exact .inr rfl

theorem Move.announcements (h : Move A s l l' s' ev) (hl : l.isBarber = false)
    (hfits : Fits s ev) :
    s'.value .customerZ + l'.unannounced.toNat - s'.data.waiting =
      s.value .customerZ + l.unannounced.toNat - s.data.waiting := by
  cases h <;> cases hl <;> simp [Fits] at hfits <;>
    simp [Shared.setValue, Pc.unannounced]
  omega

/-- What a customer does to the variables: it leaves a full row of chairs, or takes a chair,
    or is not expected any more after it has taken one. -/
theorem Move.customer (h : Move A s l l' s' ev) (hl : l.isBarber = false) {u : Int}
    (hk : Knows A s.data u l) :
    s'.data = s.data ∨
    (s.data.waiting = A.chairCount ∧ s'.data = ⟨s.data.waiting, s.data.customerPresent - 1⟩) ∨
    (l.toCome = true ∧ s'.data = ⟨s.data.waiting + 1, s.data.customerPresent⟩) ∨
    (0 < s.data.waiting ∧ s'.data = ⟨s.data.waiting, s.data.customerPresent - 1⟩) := by
  cases h with
  | leave => exact .inr (.inl ⟨hk, rfl⟩)
  | sit => exact .inr (.inr (.inl ⟨rfl, rfl⟩))
  | sitPresent => exact .inr (.inr (.inr ⟨hk, rfl⟩))
  | arrive _ | full _ | free _ | leaveUnlock | sitRaise | sitUnlock | seated _ => exact .inl rfl
  | _ => cases hl

theorem Knows.of_holds {b : Pc} {d : Data} {u : Int} (hb : b.holds = true) (h : Knows A d u b)
    (u' : Int) : Knows A d u' b := by
  cases b <;> first | exact h | cases hb

theorem knows_of_customer {b : Pc} (hl : b.isBarber = false) (hb : b.holds = false) (d : Data)
    (u : Int) : Knows A d u b := by
  cases b <;> trivial

/-- The barber, when a customer makes a step and the barber does not hold `mutex`. -/
theorem Move.knows_barber {b : Pc} {u u' : Int} (h : Move A s l l' s' ev)
    (hl : l.isBarber = false) (hk : Knows A s.data u l) (hchair : 1 ≤ A.chairCount)
    (h₀ : 0 ≤ s.data.waiting) (hcome : l.toCome = true → 0 < s.data.customerPresent)
    (hu : u' - s'.data.waiting = u - s.data.waiting) (hb : b.holds = false)
    (hkb : Knows A s.data u b) : Knows A s'.data u' b := by
  rcases h.customer hl hk with hd | ⟨hfull, hd⟩ | ⟨hto, hd⟩ | ⟨hpos, hd⟩
  · rw [hd] at hu ⊢
    obtain rfl : u' = u := by omega
    exact hkb
  · rw [hd] at hu ⊢
    cases b <;> simp only [Knows] at hu hkb ⊢ <;> omega
  · have := hcome hto
    rw [hd] at hu ⊢
    cases b <;> simp only [Knows] at hu hkb ⊢ <;> first | omega | cases hb
  · rw [hd] at hu ⊢
    cases b <;> simp only [Knows] at hu hkb ⊢ <;> omega

theorem Sound.move {t : Thread A} (hchair : 1 ≤ A.chairCount) (hc : Counted s f)
    (h : Sound A s f) (hm : Move A s (f t) l' s' ev) : Sound A s' (Function.update f t l') := by
  have hfits := hc.fits h.nonneg hm
  have hc' := hc.move h.nonneg hm
  obtain ⟨hnonneg, hle⟩ := hm.waiting (h.knows t) h.nonneg h.le
  refine ⟨?_, hnonneg, hle⟩
  refine (Function.forall_update_iff f fun _ l =>
    Knows A s'.data (announcements s' (Function.update f t l')) l).mpr ⟨?_, ?_⟩
  · refine hm.knows (h.knows t) h.nonneg ?_
    have := hc'.nonneg .customerZ
    unfold announcements
    omega
  · intro v hv
    have hkv := h.knows v
    by_cases hholds : (f v).holds = true
    · -- `v` holds `mutex`, so `t` does not and has not changed the variables.
      have hdata : s'.data = s.data := by
        rcases hm.data with hdata | ht
        · exact hdata
        · exact absurd (hc.exclusive hholds ht) hv
      rw [hdata]
      exact hkv.of_holds hholds _
    · have hb : (f v).holds = false := by simpa using hholds
      cases v with
      | some j => exact knows_of_customer (hc.place (some j)) hb _ _
      | none =>
          obtain ⟨i, rfl⟩ : ∃ i, t = some i := Option.ne_none_iff_exists'.mp (Ne.symm hv)
          have hl := hc.place (some i)
          refine hm.knows_barber hl (h.knows (some i)) hchair h.nonneg ?_ ?_ hb hkv
          · intro hto
            rw [hc.present]
            exact_mod_cast headcount_pos.mpr ⟨some i, hto⟩
          · have := hm.announcements hl hfits
            have := headcount_update Pc.unannounced f (some i) l'
            unfold announcements
            omega

/-! ## Runs -/

theorem sound_of_reachable (hchair : 1 ≤ A.chairCount) (hcustomer : 1 ≤ A.customerCount)
    (h : (shop A).Reachable k) : Counted k.shared k.locs ∧ Sound A k.shared k.locs := by
  refine h.invariant (I := fun k => Counted k.shared k.locs ∧ Sound A k.shared k.locs) ?_ ?_
  · intro k hk
    obtain rfl : k = ⟨⟨startValue, ⟨0, A.customerCount⟩⟩, fun t => .ready (startAt t)⟩ := hk
    have hcount : ∀ p : Pc → Bool, headcount p (startAt (A := A)) =
        (p .lock).toNat + A.customerCount * (p .arrive).toNat := by
      intro p
      rw [headcount_eq_sum, Fintype.sum_option]
      simp [startAt]
    rw [locs_ready]
    refine ⟨⟨?_, ?_, ?_, ?_, ?_, ?_⟩, ?_, le_rfl, by dsimp only; omega⟩
    · rintro (_ | i) <;> rfl
    · rintro (_ | _ | _) <;> simp [startValue]
    · simp [hcount, startValue, Pc.holds]
    · simp [hcount, Pc.toCome]
    · simp [hcount, startValue, Pc.inChair, Pc.calling]
    · simp [startValue]
    · rintro (_ | i)
      · exact .inr (by dsimp only; omega)
      · trivial
  · intro k e k' _ ih hs
    rcases step_cases hs with ⟨hshared, hlocs, -⟩ | ⟨t, l', ev, -, hm, hlocs⟩
    · rw [hshared, hlocs]
      exact ih
    · rw [hlocs]
      exact ⟨ih.1.move ih.2.nonneg hm, ih.2.move hchair ih.1 hm⟩

theorem code_retests : Retests (code A) := by
  intro l z r n h
  cases l <;> simp [code] at h <;> obtain ⟨rfl, rfl, rfl⟩ := h <;> rfl

theorem covered_of_reachable (hchair : 1 ≤ A.chairCount) (hcustomer : 1 ≤ A.customerCount)
    (h : (shop A).Reachable k) (z : Sema) : Covered z k := by
  refine h.invariant ?_ ?_
  · intro k hk
    obtain rfl : k = ⟨⟨startValue, ⟨0, A.customerCount⟩⟩, fun t => .ready (startAt t)⟩ := hk
    refine ⟨by cases z <;> simp [startValue], ?_⟩
    intro hpos
    obtain ⟨t, ht⟩ := headcount_pos.mp hpos
    cases ht
  · intro k e k' hr ih hs
    rcases Zemaphore.step_cases hs with ⟨t, z', l, -, ht, rfl⟩ | ⟨t, l, st, hpc, hst, hact⟩
    · exact ih.spurious ht
    · refine ih.act (waitsOk_of_reachable code_retests hr t) hpc hst hact ?_ ?_
      · rintro v n rfl
        cases l <;> simp [code] at hst
      · rintro n rfl
        obtain ⟨hcounted, hsound⟩ := sound_of_reachable hchair hcustomer hr
        have hl : k.locs t = l := Mode.loc_of_pc hpc
        rcases moves_cases (s := k.shared) hst .up with ⟨-, -, z', hz⟩ | hm
        · cases hz
        · rw [← hl] at hm
          exact hcounted.lt_of_up hsound.nonneg hm

/-! ## Nobody is forgotten -/

/-- The thread has returned. -/
def Finished (l : Pc) : Prop := l = .home ∨ l = .gone

/-- Some thread has not returned, and all such threads are blocked. -/
def Deadlocked (k : State A) : Prop :=
  (∃ t, ¬ Finished (k.locs t)) ∧ ∀ t, ¬ Finished (k.locs t) → Blocked (code A) k t

theorem code_ne_nil (l : Pc) : code A l ≠ [] ↔ ¬ Finished l := by
  cases l <;> simp [code, Finished]

/-- Where a thread that has no way to go on can be while nobody holds `mutex`. -/
def AtRest (s : Shared Sema Data) (l : Pc) : Prop :=
  Finished l ∨ (l = .sleep ∧ s.value .customerZ ≤ 0) ∨ (l = .seated ∧ s.value .barberZ ≤ 0)

theorem Counted.atRest (h : Counted s f) (hdown : ∀ u, ¬ Finished (f u) →
      ∃ z r n, .down z r n ∈ code A (f u) ∧ s.value z ≤ 0) (t : Thread A) : AtRest s (f t) := by
  -- Whoever holds `mutex` can go on, so nobody does, and nobody waits for it either.
  have hfree : headcount Pc.holds f = 0 := by
    apply headcount_eq_zero.mpr
    intro u
    by_cases hu : Finished (f u)
    · rcases hu with hu | hu <;> rw [hu] <;> rfl
    · obtain ⟨z, r, n, hmem, -⟩ := hdown u hu
      generalize f u = l at hmem
      cases l <;> first | rfl | simp [code] at hmem
  have hmutex := h.mutex
  by_cases ht : Finished (f t)
  · exact .inl ht
  · obtain ⟨z, r, n, hmem, hz⟩ := hdown t ht
    generalize f t = l at hmem
    cases l <;> simp [code] at hmem
    all_goals obtain ⟨rfl, -⟩ := hmem
    case lock => omega
    case arrive => omega
    case sleep => exact .inr (.inl ⟨rfl, hz⟩)
    case seated => exact .inr (.inr ⟨rfl, hz⟩)

theorem headcount_of_atRest (h : ∀ u, AtRest s (f u)) {p : Pc → Bool} (hhome : p .home = false)
    (hgone : p .gone = false) (hsleep : p .sleep = false) (hseated : p .seated = false) :
    headcount p f = 0 := by
  apply headcount_eq_zero.mpr
  intro u
  rcases h u with (hu | hu) | ⟨hu, -⟩ | ⟨hu, -⟩ <;> rw [hu] <;> assumption

/-- The barber rests only at home: one who sleeps is waiting for somebody who is not at rest. -/
theorem Sound.home_of_atRest (h : Sound A s f) (hc : Counted s f) (hrest : ∀ u, AtRest s (f u)) :
    f none = .home := by
  have hpresent := hc.present
  rw [headcount_of_atRest hrest rfl rfl rfl rfl] at hpresent
  have hknows := h.knows none
  have hbarber := hc.place none
  rcases hrest none with (hn | hn) | ⟨hn, hz⟩ | ⟨hn, -⟩
  · exact hn
  · rw [hn] at hbarber
    cases hbarber
  · rw [hn] at hknows
    have hnone : headcount Pc.unannounced f = 0 := headcount_of_atRest hrest rfl rfl rfl rfl
    simp only [Knows, announcements, hnone] at hknows
    omega
  · rw [hn] at hbarber
    cases hbarber

/-- With the barber at home every chair is free, so everybody has gone. -/
theorem Sound.finished_of_atRest (h : Sound A s f) (hc : Counted s f)
    (hrest : ∀ u, AtRest s (f u)) (t : Thread A) : Finished (f t) := by
  have hhome := h.home_of_atRest hc hrest
  cases t with
  | none => exact .inl hhome
  | some i =>
      rcases hrest (some i) with hf | ⟨hs, -⟩ | ⟨hs, hz⟩
      · exact hf
      · have hplace := hc.place (some i)
        rw [hs] at hplace
        cases hplace
      · have hknows := h.knows none
        rw [hhome] at hknows
        have hchairs := hc.chairs
        have hnone : headcount Pc.calling f = 0 := headcount_of_atRest hrest rfl rfl rfl rfl
        have hsits : 0 < headcount Pc.inChair f := headcount_pos.mpr ⟨some i, by rw [hs]; rfl⟩
        rw [hnone, hknows.2] at hchairs
        omega

theorem not_deadlocked (hchair : 1 ≤ A.chairCount) (hcustomer : 1 ≤ A.customerCount)
    (h : (shop A).Reachable k) : ¬ Deadlocked k := by
  rintro ⟨⟨t, ht⟩, hall⟩
  obtain ⟨hcounted, hsound⟩ := sound_of_reachable hchair hcustomer h
  have hdown : ∀ u, ¬ Finished (k.locs u) →
      ∃ z r n, .down z r n ∈ code A (k.locs u) ∧ k.shared.value z ≤ 0 := fun u hu =>
    no_unit_of_blocked (waitsOk_of_reachable code_retests h)
      (covered_of_reachable hchair hcustomer h) (fun v hv => hall v ((code_ne_nil _).mp hv))
      ((code_ne_nil _).mpr hu)
  exact ht (hsound.finished_of_atRest hcounted (hcounted.atRest hdown) t)

/-! ## Services and seats -/

@[simp] theorem count_exec (note : Note) (k : State A) (t : Thread A) (ev : Event Sema Note) :
    count note (tr ++ [(k, .exec t ev)]) = count note tr + if ev = .run note then 1 else 0 := by
  cases ev <;> simp [count, List.countP_append, List.countP_singleton]

@[simp] theorem count_spurious (note : Note) (k : State A) (t : Thread A) :
    count note (tr ++ [(k, .spurious t)]) = count note tr := by
  simp [count, List.countP_append]

/-- The barber, with a customer who is no longer counted in `waiting` and not yet served. -/
def Pc.owes : Pc → Bool
  | .raise | .serve => true
  | _               => false

/-- `waiting` is what it says it is, in every run of every shop, up to the customer whom the
    barber has just called. -/
theorem served_add_waiting (hinit : (shop A).init k₀) (hrun : (shop A).Run k₀ tr k) :
    (served tr : Int) + k.shared.data.waiting + headcount Pc.owes k.locs = seated tr := by
  refine hrun.history (I := fun tr k =>
    (served tr : Int) + k.shared.data.waiting + headcount Pc.owes k.locs = seated tr) ?_ ?_
  · obtain rfl : k₀ = ⟨⟨startValue, ⟨0, A.customerCount⟩⟩, fun t => .ready (startAt t)⟩ := hinit
    have : headcount Pc.owes (startAt (A := A)) = 0 :=
      headcount_eq_zero.mpr (by rintro (_ | i) <;> rfl)
    simpa [served, seated, count] using this
  · intro tr k e k' _ ih hs
    simp only [served, seated] at ih ⊢
    rcases step_cases hs with ⟨hshared, hlocs, hnot⟩ | ⟨t, l', ev, rfl, hm, hlocs⟩
    · rw [hshared, hlocs]
      cases e with
      | spurious t => simpa using ih
      | exec t ev =>
          have hne : ∀ n, ev ≠ .run n := fun n hn => hnot t n (by rw [hn])
          simpa [hne] using ih
    · have hcount := headcount_update Pc.owes k.locs t l'
      rw [hlocs]
      generalize k.locs t = l at hm hcount
      generalize k'.shared = s' at hm
      cases hm <;> simp [Pc.owes, Shared.setValue] at hcount ⊢ <;> omega

/-- Nobody comes after the barber has gone home, and everybody who took a chair was served. -/
theorem all_served (hchair : 1 ≤ A.chairCount) (hcustomer : 1 ≤ A.customerCount)
    (hinit : (shop A).init k₀) (hrun : (shop A).Run k₀ tr k) (hhome : k.locs none = .home) :
    (∀ i, k.locs (some i) ≠ .arrive) ∧ served tr = seated tr := by
  obtain ⟨hcounted, hsound⟩ := sound_of_reachable hchair hcustomer ⟨k₀, tr, hinit, hrun⟩
  have hknows := hsound.knows none
  rw [hhome] at hknows
  obtain ⟨hpresent, hwaiting⟩ := hknows
  refine ⟨?_, ?_⟩
  · intro i hi
    have : 0 < headcount Pc.toCome k.locs := headcount_pos.mpr ⟨some i, by rw [hi]; rfl⟩
    have := hcounted.present
    omega
  · have howes : headcount Pc.owes k.locs = 0 := by
      apply headcount_eq_zero.mpr
      intro t
      cases t with
      | none => rw [hhome]; rfl
      | some i =>
          have hplace := hcounted.place (some i)
          generalize k.locs (some i) = l at hplace
          cases l <;> first | rfl | cases hplace
    have := served_add_waiting hinit hrun
    omega

/-- While `mutex` is free, the numbers agree. -/
theorem served_add_waiting_of_free (hchair : 1 ≤ A.chairCount) (hcustomer : 1 ≤ A.customerCount)
    (hinit : (shop A).init k₀) (hrun : (shop A).Run k₀ tr k) (hfree : 0 < k.shared.value .mutex) :
    (served tr : Int) + k.shared.data.waiting = seated tr := by
  obtain ⟨hcounted, -⟩ := sound_of_reachable hchair hcustomer ⟨k₀, tr, hinit, hrun⟩
  have hmutex := hcounted.mutex
  have hnone : headcount Pc.holds k.locs = 0 := by omega
  have howes : headcount Pc.owes k.locs = 0 := by
    apply headcount_eq_zero.mpr
    intro t
    have hholds := headcount_eq_zero.mp hnone t
    generalize k.locs t = l at hholds
    cases l <;> first | rfl | cases hholds
  have := served_add_waiting hinit hrun
  omega

end Barber.Zem
