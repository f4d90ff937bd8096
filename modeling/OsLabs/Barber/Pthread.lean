-- SUMMARY: The barber shop with condition variables: what one step can do, who can be where, progress, and haircuts against services.
import OsLabs.Barber.Model
import OsLabs.Lib.Schedule

/-!
# The barber shop with condition variables

The barber decrements `waiting` after a loop with two exits, and only one of them means that
somebody is there. With a chair and a customer, the other one is never taken: at the loop,
somebody is seated or still to come. Customers who sleep on `barber_ready` never outnumber
`waiting`, so none of them is forgotten.
-/

namespace Barber.Pthread

open Monitor

variable {A : Args} {k k' k₀ : State A} {tr : Trace A} {e : Label (Thread A) Event}

/-! ## What one step can do -/

/-- `Move A l s n s' w e`: a step from `l` that finds `s`, leaves `s'`, performs the wakeup
    `w` and goes on at `n`. -/
inductive Move (A : Args) : Pc → Shared → Next Cond Pc → Shared → Wake Cond → Event → Prop
  | waits {l : Pc} {s : Shared} : l = .lock ∨ l = .wait → s.waiting = 0 → 0 < s.customerComing →
      Move A l s (.wait .customerReady .wait) s .none .waits
  | serves {l : Pc} {s : Shared} : l = .lock ∨ l = .wait →
      ¬ (s.waiting = 0 ∧ s.customerComing > 0) →
      Move A l s (.goto .readComing) { s with waiting := s.waiting - 1 } (.signal .barberReady)
        .serves
  | moreToCome {s : Shared} : 0 < s.customerComing →
      Move A .readComing s (.goto .lock) s .none .tested
  | noneToCome {s : Shared} : s.customerComing ≤ 0 →
      Move A .readComing s (.goto .readWaiting) s .none .tested
  | someWait {s : Shared} : s.waiting ≠ 0 →
      Move A .readWaiting s (.goto .lock) s .none .tested
  | noneWait {s : Shared} : s.waiting = 0 →
      Move A .readWaiting s (.goto .home) s .none .tested
  | leaves {s : Shared} : s.waiting = A.chairCount →
      Move A .arrive s (.goto .gone) { s with customerComing := s.customerComing - 1 } .none
        .leaves
  | sits {s : Shared} : s.waiting ≠ A.chairCount →
      Move A .arrive s (.wait .barberReady .seated) ⟨s.waiting + 1, s.customerComing - 1⟩
        (.signal .customerReady) .sits
  | haircut {s : Shared} : Move A .seated s (.goto .gone) s .none .haircut

theorem section_moves {l : Pc} {f : Section} (hf : f ∈ (program A).sections l) (s : Shared) :
    Move A l s (f s).next (f s).shared (f s).wake (f s).event := by
  have hserve : l = .lock ∨ l = .wait → Move A l s (barberServe s).next (barberServe s).shared
      (barberServe s).wake (barberServe s).event := by
    intro hl
    unfold barberServe
    split
    · rename_i h
      exact .waits hl h.1 h.2
    · rename_i h
      exact .serves hl h
  cases l with
  | lock =>
      obtain rfl := List.mem_singleton.mp hf
      exact hserve (.inl rfl)
  | wait =>
      obtain rfl := List.mem_singleton.mp hf
      exact hserve (.inr rfl)
  | readComing =>
      obtain rfl := List.mem_singleton.mp hf
      unfold barberReadComing
      by_cases h : s.customerComing ≤ 0
      · simpa only [if_pos h] using Move.noneToCome h
      · simpa only [if_neg h] using Move.moreToCome (Int.not_le.mp h)
  | readWaiting =>
      obtain rfl := List.mem_singleton.mp hf
      unfold barberReadWaiting
      by_cases h : s.waiting = 0
      · simpa only [if_pos h] using Move.noneWait h
      · simpa only [if_neg h] using Move.someWait h
  | arrive =>
      obtain rfl := List.mem_singleton.mp hf
      unfold customerArrive
      split
      · rename_i h
        exact .leaves h
      · rename_i h
        exact .sits h
  | seated =>
      obtain rfl := List.mem_singleton.mp hf
      exact .haircut
  | home => cases hf
  | gone => cases hf

theorem step_cases (h : (shop A).step k e k') :
    (∃ t c l, e = .spurious t ∧ k.mode t = .asleep c l ∧
      k' = ⟨k.shared, Function.update k.mode t (.woken c l)⟩) ∨
    (∃ t l n s' w ev m, e = .exec t ev ∧ (k.mode t).pc? = some l ∧
      Move A l k.shared n s' w ev ∧ Wakes w k.mode m ∧
      k' = ⟨s', Function.update m t n.mode⟩) := by
  cases h with
  | @spurious t c l ht => exact .inl ⟨t, c, l, rfl, ht, rfl⟩
  | @exec t l f m hpc hf hw =>
      exact .inr ⟨t, l, _, _, _, _, m, rfl, hpc, section_moves hf k.shared, hw, rfl⟩

/-! ## Who can be where -/

/-- The barber waits for `customer_ready` and a customer for `barber_ready`, each at one point
    of its code. -/
def ModeOk : Thread A → Mode Cond Pc → Prop
  | none, .ready l      => l = .lock ∨ l = .readComing ∨ l = .readWaiting ∨ l = .home
  | none, .asleep c l   => c = .customerReady ∧ l = .wait
  | none, .woken c l    => c = .customerReady ∧ l = .wait
  | some _, .ready l    => l = .arrive ∨ l = .gone
  | some _, .asleep c l => c = .barberReady ∧ l = .seated
  | some _, .woken c l  => c = .barberReady ∧ l = .seated

/-- A thread goes on where it may. -/
theorem Move.modeOk {t : Thread A} {x : Mode Cond Pc} {l : Pc} {n : Next Cond Pc} {s s' : Shared}
    {w : Wake Cond} {ev : Event} (h : Move A l s n s' w ev) (hx : ModeOk t x)
    (hpc : x.pc? = some l) : ModeOk t n.mode := by
  obtain rfl : x.loc = l := Mode.loc_of_pc hpc
  cases t with
  | none =>
      cases x with
      | asleep c l => cases hpc
      | woken c l =>
          obtain ⟨rfl, rfl⟩ := hx
          cases h <;> simp [ModeOk, Next.mode]
      | ready l => rcases hx with rfl | rfl | rfl | rfl <;> cases h <;> simp [ModeOk, Next.mode]
  | some i =>
      cases x with
      | asleep c l => cases hpc
      | woken c l =>
          obtain ⟨rfl, rfl⟩ := hx
          cases h <;> simp_all [ModeOk, Next.mode, Mode.loc]
      | ready l => rcases hx with rfl | rfl <;> cases h <;> simp_all [ModeOk, Next.mode, Mode.loc]

theorem ModeOk.woken {t : Thread A} {c : Cond} {l : Pc} (h : ModeOk t (.asleep c l)) :
    ModeOk t (.woken c l) := by
  cases t with
  | none => exact h
  | some i => exact h

theorem modeOk_of_reachable (h : (shop A).Reachable k) (t : Thread A) : ModeOk t (k.mode t) := by
  refine h.invariant (I := fun k => ∀ t, ModeOk t (k.mode t)) ?_ ?_ t
  · intro k hk t
    obtain rfl : k = ⟨⟨0, A.customerCount⟩, fun t => .ready (startAt t)⟩ := hk
    cases t <;> simp [ModeOk, startAt]
  · intro k e k' _ hk hs
    exact Step.forall_mode hs (fun _ _ _ hok => hok.woken)
      (fun t l f hpc hf => (section_moves hf k.shared).modeOk (hk t) hpc) hk

/-- Whoever is still to come is not inside a wait. -/
theorem ModeOk.eq_arrive {t : Thread A} {x : Mode Cond Pc} (h : ModeOk t x)
    (hloc : x.loc = .arrive) : x = .ready .arrive := by
  cases x with
  | ready l => exact congrArg Mode.ready hloc
  | asleep c l =>
      obtain rfl : l = .arrive := hloc
      cases t <;> cases h.2
  | woken c l =>
      obtain rfl : l = .arrive := hloc
      cases t <;> cases h.2

/-- Whoever goes on after the wait for the barber has been woken there. -/
theorem ModeOk.wokenOn {t : Thread A} {x : Mode Cond Pc} (h : ModeOk t x)
    (hpc : x.pc? = some .seated) : x.wokenOn .barberReady = true := by
  cases x with
  | ready l =>
      obtain rfl : l = .seated := Option.some.inj hpc
      cases t <;> simp [ModeOk] at h
  | asleep c l => cases hpc
  | woken c l =>
      obtain rfl : l = .seated := Option.some.inj hpc
      cases t with
      | none => cases h.2
      | some i => exact decide_eq_true h.1

/-- The points of `barber_thread`. -/
def Pc.isBarber : Pc → Bool
  | .lock        => true
  | .wait        => true
  | .readComing  => true
  | .readWaiting => true
  | .home        => true
  | .arrive      => false
  | .seated      => false
  | .gone        => false

theorem ModeOk.isBarber {t : Thread A} {x : Mode Cond Pc} (h : ModeOk t x) :
    x.loc.isBarber = t.isNone := by
  cases t with
  | none =>
      cases x with
      | ready l => rcases h with rfl | rfl | rfl | rfl <;> rfl
      | asleep c l => rw [Mode.loc, h.2]; rfl
      | woken c l => rw [Mode.loc, h.2]; rfl
  | some i =>
      cases x with
      | ready l => rcases h with rfl | rfl <;> rfl
      | asleep c l => rw [Mode.loc, h.2]; rfl
      | woken c l => rw [Mode.loc, h.2]; rfl

/-- What a step does to the shared state and to the locations. -/
theorem step_moves (h : (shop A).step k e k') :
    (∃ t, e = .spurious t ∧ k'.shared = k.shared ∧ k'.locs = k.locs) ∨
    (∃ t n w ev, e = .exec t ev ∧ Move A (k.locs t) k.shared n k'.shared w ev ∧
      k'.locs = Function.update k.locs t n.loc) := by
  rcases Step.locs h with hsp | ⟨t, f, he, hf, hshared, hlocs⟩
  · exact .inl hsp
  · refine .inr ⟨t, _, (f k.shared).wake, _, he, ?_, hlocs⟩
    rw [hshared]
    exact section_moves hf k.shared

/-! ## Counting -/

@[simp] theorem count_exec (ev ev' : Event) (k : State A) (t : Thread A) :
    count ev (tr ++ [(k, .exec t ev')]) = count ev tr + if ev' = ev then 1 else 0 := by
  simp [count, List.countP_append, List.countP_singleton]

@[simp] theorem count_spurious (ev : Event) (k : State A) (t : Thread A) :
    count ev (tr ++ [(k, .spurious t)]) = count ev tr := by
  simp [count, List.countP_append]

/-- `waiting` is what it says it is, in every run of every shop. -/
theorem served_add_waiting (hinit : (shop A).init k₀) (hrun : (shop A).Run k₀ tr k) :
    (served tr : Int) + k.shared.waiting = seated tr := by
  refine hrun.history (I := fun tr k => (served tr : Int) + k.shared.waiting = seated tr) ?_ ?_
  · obtain rfl : k₀ = ⟨⟨0, A.customerCount⟩, fun t => .ready (startAt t)⟩ := hinit
    rfl
  · intro tr k e k' _ ih hs
    simp only [served, seated] at ih ⊢
    rcases step_moves hs with ⟨t, rfl, hshared, -⟩ | ⟨t, n, w, ev, rfl, hm, -⟩
    · rw [hshared]
      simpa using ih
    · generalize k'.shared = s' at hm ⊢
      generalize k.locs t = l at hm
      cases hm <;> simp <;> omega

def Pc.toCome (l : Pc) : Bool := l = .arrive

/-- So is `customer_coming`. -/
theorem customerComing_eq (h : (shop A).Reachable k) :
    k.shared.customerComing = headcount Pc.toCome k.locs := by
  refine h.invariant (I := fun k => k.shared.customerComing = (headcount Pc.toCome k.locs : Int))
    ?_ ?_
  · intro k hk
    obtain rfl : k = ⟨⟨0, A.customerCount⟩, fun t => .ready (startAt t)⟩ := hk
    rw [headcount_eq_sum, Fintype.sum_option]
    simp [Config.locs, Mode.loc, startAt, Pc.toCome]
  · intro k e k' _ ih hs
    rcases step_moves hs with ⟨t, -, hshared, hlocs⟩ | ⟨t, n, w, ev, -, hm, hlocs⟩
    · rw [hshared, hlocs]
      exact ih
    · have hcount := headcount_update Pc.toCome k.locs t n.loc
      rw [hlocs]
      generalize k'.shared = s' at hm ⊢
      generalize k.locs t = l at hm hcount
      cases hm with
      | waits hl _ _ => rcases hl with rfl | rfl <;> simp [Pc.toCome, Next.loc] at hcount ⊢ <;> omega
      | serves hl _ => rcases hl with rfl | rfl <;> simp [Pc.toCome, Next.loc] at hcount ⊢ <;> omega
      | _ =>
          simp [Pc.toCome, Next.loc] at hcount ⊢
          omega

/-! ## The barber does not go to an empty chair -/

/-- What the barber can rely on at `l`. -/
def Knows (s : Shared) : Pc → Prop
  | .lock        => 0 < s.waiting ∨ 0 < s.customerComing
  | .wait        => 0 < s.waiting ∨ 0 < s.customerComing
  | .readWaiting => s.customerComing ≤ 0
  | .home        => s.customerComing ≤ 0 ∧ s.waiting = 0
  | _            => True

structure Sound (A : Args) (k : State A) : Prop where
  knows : Knows k.shared (k.locs none)
  nonneg : 0 ≤ k.shared.waiting
  le : k.shared.waiting ≤ A.chairCount

theorem Move.barber {l : Pc} {n : Next Cond Pc} {s s' : Shared} {w : Wake Cond} {ev : Event}
    (h : Move A l s n s' w ev) (hl : l.isBarber = true) (hk : Knows s l) (h₀ : 0 ≤ s.waiting) :
    Knows s' n.loc ∧ 0 ≤ s'.waiting ∧ s'.waiting ≤ s.waiting := by
  cases h with
  | waits _ _ hcoming => exact ⟨.inr hcoming, h₀, le_rfl⟩
  | serves hl hnot =>
      have hpos : 0 < s.waiting ∨ 0 < s.customerComing := by rcases hl with rfl | rfl <;> exact hk
      exact ⟨trivial, by dsimp only; omega, by dsimp only; omega⟩
  | moreToCome hcoming => exact ⟨.inr hcoming, h₀, le_rfl⟩
  | noneToCome hcoming => exact ⟨hcoming, h₀, le_rfl⟩
  | someWait hwait => exact ⟨.inl (by omega), h₀, le_rfl⟩
  | noneWait hwait => exact ⟨⟨hk, hwait⟩, h₀, le_rfl⟩
  | leaves _ => cases hl
  | sits _ => cases hl
  | haircut => cases hl

/-- A customer who comes leaves a full row of chairs behind or sits down. -/
theorem Move.customer {l b : Pc} {n : Next Cond Pc} {s s' : Shared} {w : Wake Cond} {ev : Event}
    (h : Move A l s n s' w ev) (hl : l.isBarber = false) (hchair : 1 ≤ A.chairCount)
    (hcoming : l = .arrive → 0 < s.customerComing) (hk : Knows s b) (h₀ : 0 ≤ s.waiting)
    (hle : s.waiting ≤ A.chairCount) :
    Knows s' b ∧ 0 ≤ s'.waiting ∧ s'.waiting ≤ A.chairCount := by
  cases h with
  | waits hl' _ _ => rcases hl' with rfl | rfl <;> cases hl
  | serves hl' _ => rcases hl' with rfl | rfl <;> cases hl
  | leaves hfull =>
      have hpos := hcoming rfl
      refine ⟨?_, h₀, hle⟩
      cases b <;> simp only [Knows] at hk ⊢ <;> omega
  | sits hroom =>
      have hpos := hcoming rfl
      refine ⟨?_, by dsimp only; omega, by dsimp only; omega⟩
      cases b <;> simp only [Knows] at hk ⊢ <;> omega
  | haircut => exact ⟨hk, h₀, hle⟩
  | _ => cases hl

theorem Sound.step (hchair : 1 ≤ A.chairCount) (hr : (shop A).Reachable k) (h : Sound A k)
    (hs : (shop A).step k e k') : Sound A k' := by
  rcases step_moves hs with ⟨t, -, hshared, hlocs⟩ | ⟨t, n, w, ev, -, hm, hlocs⟩
  · constructor <;> rw [hshared]
    · rw [hlocs]
      exact h.knows
    · exact h.nonneg
    · exact h.le
  · have hplace : (k.locs t).isBarber = t.isNone := (modeOk_of_reachable hr t).isBarber
    cases t with
    | none =>
        obtain ⟨hknows, hnonneg, hle⟩ := hm.barber hplace h.knows h.nonneg
        refine ⟨?_, hnonneg, hle.trans h.le⟩
        rw [hlocs, Function.update_self]
        exact hknows
    | some i =>
        have hcoming : k.locs (some i) = .arrive → 0 < k.shared.customerComing := by
          intro harrive
          rw [customerComing_eq hr]
          exact_mod_cast headcount_pos.mpr ⟨some i, by rw [harrive]; rfl⟩
        obtain ⟨hknows, hnonneg, hle⟩ := hm.customer hplace hchair hcoming h.knows h.nonneg h.le
        refine ⟨?_, hnonneg, hle⟩
        rw [hlocs, Function.update_of_ne (by simp)]
        exact hknows

theorem sound_of_reachable (hchair : 1 ≤ A.chairCount) (hcustomer : 1 ≤ A.customerCount)
    (h : (shop A).Reachable k) : Sound A k := by
  refine h.invariant ?_ fun k e k' hr hk hs => hk.step hchair hr hs
  intro k hk
  obtain rfl : k = ⟨⟨0, A.customerCount⟩, fun t => .ready (startAt t)⟩ := hk
  exact ⟨.inr (by dsimp only; omega), le_rfl, by dsimp only; omega⟩

/-! ## Nobody is forgotten -/

/-- The barber sleeps only while nobody waits, and never more customers sleep than wait. -/
structure Rested (k : State A) : Prop where
  barber : ∀ c l, k.mode none = .asleep c l → k.shared.waiting = 0
  customers : (headcount (Mode.asleepOn .barberReady) k.mode : Int) ≤ k.shared.waiting

/-- Only the barber sleeps on `customer_ready`, so a signal there does not miss it. -/
theorem signal_wakes_barber {m : Thread A → Mode Cond Pc} (hr : (shop A).Reachable k)
    (hw : Wakes (.signal .customerReady) k.mode m) (c : Cond) (l : Pc) : m none ≠ .asleep c l := by
  intro hm
  have honly : ∀ u, (k.mode u).asleepOn .customerReady = true → u = none := by
    intro u hu
    obtain ⟨l', hasleep⟩ := Mode.asleepOn_iff.mp hu
    have hok := modeOk_of_reachable hr u
    rw [hasleep] at hok
    cases u with
    | none => rfl
    | some i => cases hok.1
  have hok : ModeOk none (m none) :=
    hw.forall (fun _ _ _ hok => hok.woken) (modeOk_of_reachable hr) none
  rw [hm] at hok
  obtain ⟨rfl, -⟩ := hok
  have hmiss := hw.signal_only honly
  simp [hm] at hmiss

theorem Rested.barber_step (hr : (shop A).Reachable k) (h : Rested k) (hs : (shop A).step k e k')
    (c : Cond) (l : Pc) (hasleep : k'.mode none = .asleep c l) : k'.shared.waiting = 0 := by
  rcases step_cases hs with ⟨t, c', l', -, ht, rfl⟩ | ⟨t, l', n, s', w, ev, m, -, hpc, hm, hw, rfl⟩
  · dsimp only at hasleep ⊢
    by_cases hn : none = t
    · subst hn
      rw [Function.update_self] at hasleep
      cases hasleep
    · rw [Function.update_of_ne hn] at hasleep
      exact h.barber c l hasleep
  · have hplace := (modeOk_of_reachable hr t).isBarber
    rw [Mode.loc_of_pc hpc] at hplace
    dsimp only at hasleep ⊢
    cases t with
    | none =>
        rw [Function.update_self] at hasleep
        cases hm with
        | waits _ hzero _ => exact hzero
        | sits _ => cases hplace
        | _ => cases hasleep
    | some i =>
        rw [Function.update_of_ne (by simp)] at hasleep
        have hbefore : k.mode none = .asleep c l := by
          rcases hw.cases_at none with heq | ⟨d, l', -, hwoken⟩
          · rw [← heq, hasleep]
          · rw [hasleep] at hwoken
            cases hwoken
        have hzero := h.barber c l hbefore
        cases hm with
        | waits _ hzero _ => exact hzero
        | serves hl _ => rcases hl with rfl | rfl <;> cases hplace
        | sits _ => exact absurd hasleep (signal_wakes_barber hr hw c l)
        | _ => exact hzero

theorem Rested.customers_step (hsound : Sound A k') (h : Rested k) (hs : (shop A).step k e k') :
    (headcount (Mode.asleepOn .barberReady) k'.mode : Int) ≤ k'.shared.waiting := by
  have hbefore := h.customers
  rcases step_cases hs with ⟨t, c, l, -, ht, rfl⟩ | ⟨t, l, n, s', w, ev, m, -, hpc, hm, hw, rfl⟩
  · have hcount := (spurious_headcount .barberReady ht).1
    dsimp only
    omega
  · obtain ⟨hcount, -⟩ := section_headcount (c := .barberReady) hw hpc n.mode
    have hnonneg := hsound.nonneg
    dsimp only at hnonneg ⊢
    rw [hcount]
    cases hm with
    | serves _ _ =>
        -- A service takes one from `waiting`, and its signal one from the sleepers.
        have hsignal := hw.signal_headcount .barberReady
        simp only [Next.mode, Mode.asleepOn_ready, Bool.toNat_false] at hnonneg ⊢
        rcases hsignal with ⟨hsame, -, hnone⟩ | ⟨-, hless, -⟩
        · have := hnone rfl
          omega
        · omega
    | sits _ =>
        have hsignal := hw.signal_headcount .barberReady
        simp only [Next.mode, Mode.asleepOn_asleep, decide_true, Bool.toNat_true]
        rcases hsignal with ⟨hsame, -, -⟩ | ⟨heq, -⟩
        · omega
        · cases heq
    | _ =>
        cases hw
        simpa [Next.mode] using hbefore

theorem rested_of_reachable (hchair : 1 ≤ A.chairCount) (hcustomer : 1 ≤ A.customerCount)
    (h : (shop A).Reachable k) : Rested k := by
  refine h.invariant ?_ fun k e k' hr hk hs => ⟨hk.barber_step hr hs,
    hk.customers_step (sound_of_reachable hchair hcustomer (hr.step hs)) hs⟩
  intro k hk
  obtain rfl : k = ⟨⟨0, A.customerCount⟩, fun t => .ready (startAt t)⟩ := hk
  refine ⟨fun c l hasleep => rfl, ?_⟩
  rw [headcount_eq_zero.mpr fun _ => rfl]
  exact le_rfl

/-- The thread has returned. -/
def Finished (x : Mode Cond Pc) : Prop := x = .ready .home ∨ x = .ready .gone

/-- Some thread has not returned, and all such threads sleep. -/
def Deadlocked (k : State A) : Prop :=
  (∃ t, ¬ Finished (k.mode t)) ∧ ∀ t, ¬ Finished (k.mode t) → (k.mode t).isAsleep = true

/-- Whoever sleeps in a chair is waited for. -/
theorem Rested.waiting_pos (h : Rested k) (hr : (shop A).Reachable k) {i : Fin A.customerCount}
    {c : Cond} {l : Pc} (hm : k.mode (some i) = .asleep c l) : 0 < k.shared.waiting := by
  have hok := modeOk_of_reachable hr (some i)
  rw [hm] at hok
  have hpos : 0 < headcount (Mode.asleepOn .barberReady) k.mode :=
    headcount_pos.mpr ⟨some i, by simp [hm, hok.1]⟩
  have := h.customers
  omega

/-- While the barber sleeps, somebody is still to come. -/
theorem exists_arrive (hr : (shop A).Reachable k) (hsound : Sound A k) (hrest : Rested k) {c : Cond}
    {l : Pc} (hm : k.mode none = .asleep c l) : ∃ t, k.mode t = .ready .arrive := by
  have hwaiting := hrest.barber c l hm
  have hbarber := modeOk_of_reachable hr none
  have hknows := hsound.knows
  unfold Config.locs at hknows
  rw [hm] at hbarber hknows
  obtain ⟨-, rfl⟩ := hbarber
  have hcoming : 0 < k.shared.customerComing := by
    simp only [Mode.loc, Knows] at hknows
    omega
  rw [customerComing_eq hr] at hcoming
  obtain ⟨u, hu⟩ := headcount_pos.mp (Int.natCast_pos.mp hcoming)
  exact ⟨u, (modeOk_of_reachable hr u).eq_arrive (of_decide_eq_true hu)⟩

theorem not_deadlocked (hchair : 1 ≤ A.chairCount) (hcustomer : 1 ≤ A.customerCount)
    (h : (shop A).Reachable k) : ¬ Deadlocked k := by
  rintro ⟨⟨t, ht⟩, hall⟩
  have hsound := sound_of_reachable hchair hcustomer h
  have hrest := rested_of_reachable hchair hcustomer h
  by_cases hf : Finished (k.mode none)
  · -- The barber is at home, so nobody waits, but `t` is a customer who sleeps.
    have hwaiting : k.shared.waiting = 0 := by
      have hknows := hsound.knows
      have hbarber := modeOk_of_reachable h none
      unfold Config.locs at hknows
      rcases hf with hm | hm
      · rw [hm] at hknows
        exact hknows.2
      · rw [hm] at hbarber
        simp [ModeOk] at hbarber
    cases t with
    | none => exact ht hf
    | some i =>
        obtain ⟨c, l, hm⟩ := Mode.isAsleep_iff.mp (hall _ ht)
        have := hrest.waiting_pos h hm
        omega
  · -- The barber sleeps, so somebody is still to come, and does not sleep.
    obtain ⟨c, l, hm⟩ := Mode.isAsleep_iff.mp (hall _ hf)
    obtain ⟨u, hu⟩ := exists_arrive h hsound hrest hm
    have hnot : ¬ Finished (k.mode u) := by
      rw [hu]
      rintro (harrive | harrive) <;> cases harrive
    have hsleep := hall u hnot
    rw [hu] at hsleep
    cases hsleep

/-- Nobody comes after the barber has gone home, and everybody who took a chair was served. -/
theorem all_served (hchair : 1 ≤ A.chairCount) (hcustomer : 1 ≤ A.customerCount)
    (hinit : (shop A).init k₀) (hrun : (shop A).Run k₀ tr k) (hhome : k.mode none = .ready .home) :
    (∀ i, k.mode (some i) ≠ .ready .arrive) ∧ served tr = seated tr := by
  have hreach : (shop A).Reachable k := ⟨k₀, tr, hinit, hrun⟩
  have hknows := (sound_of_reachable hchair hcustomer hreach).knows
  unfold Config.locs at hknows
  rw [hhome] at hknows
  obtain ⟨hcoming, hwaiting⟩ := hknows
  refine ⟨?_, ?_⟩
  · intro i hi
    rw [customerComing_eq hreach] at hcoming
    have : 0 < headcount Pc.toCome k.locs :=
      headcount_pos.mpr ⟨some i, by unfold Config.locs; rw [hi]; rfl⟩
    omega
  · have := served_add_waiting hinit hrun
    omega

/-! ## Haircuts and services -/

/-- Wakeups of customers that no signal caused. -/
def spuriousWakeups (tr : Trace A) : Nat :=
  tr.countP fun q =>
    match q.2 with
    | .spurious (some _) => true
    | _                  => false

@[simp] theorem spuriousWakeups_exec (k : State A) (t : Thread A) (ev : Event) :
    spuriousWakeups (tr ++ [(k, .exec t ev)]) = spuriousWakeups tr := by
  simp [spuriousWakeups, List.countP_append]

@[simp] theorem spuriousWakeups_spurious (k : State A) (t : Thread A) :
    spuriousWakeups (tr ++ [(k, .spurious t)]) = spuriousWakeups tr + t.isSome.toNat := by
  cases t <;> simp [spuriousWakeups, List.countP_append]

/-- Every woken customer, and every one who has got past the wait, was woken by a service or
    by nothing. -/
theorem haircuts_add_woken_le (hinit : (shop A).init k₀) (hrun : (shop A).Run k₀ tr k) :
    haircuts tr + headcount (Mode.wokenOn .barberReady) k.mode ≤ served tr + spuriousWakeups tr := by
  refine hrun.history (I := fun tr k => haircuts tr + headcount (Mode.wokenOn .barberReady) k.mode ≤
    served tr + spuriousWakeups tr) ?_ ?_
  · obtain rfl : k₀ = ⟨⟨0, A.customerCount⟩, fun t => .ready (startAt t)⟩ := hinit
    rw [headcount_eq_zero.mpr fun _ => rfl]
    exact Nat.zero_le _
  · intro tr k e k' hr ih hs
    have hok := modeOk_of_reachable ⟨k₀, tr, hinit, hr⟩
    simp only [haircuts, served] at ih ⊢
    rcases step_cases hs with ⟨t, c, l, rfl, ht, rfl⟩ | ⟨t, l, n, s', w, ev, m, rfl, hpc, hm, hw, rfl⟩
    · have hcount := headcount_update (Mode.wokenOn .barberReady) k.mode t (.woken c l)
      have hok := hok t
      rw [ht] at hcount hok
      cases t with
      | none =>
          obtain ⟨rfl, rfl⟩ := hok
          simp at hcount ⊢
          omega
      | some i =>
          obtain ⟨rfl, rfl⟩ := hok
          simp at hcount ⊢
          omega
    · have hcount := (section_headcount (c := .barberReady) hw hpc n.mode).2
      have hok := hok t
      cases hm with
      | serves _ _ =>
          have hsignal := hw.signal_headcount .barberReady
          simp [Next.mode] at hcount ⊢
          omega
      | sits _ =>
          have hsignal := hw.signal_headcount .barberReady
          simp [Next.mode] at hcount hsignal ⊢
          omega
      | haircut =>
          cases hw
          have hwoken := hok.wokenOn hpc
          simp [Next.mode, hwoken] at hcount ⊢
          omega
      | _ =>
          cases hw
          simp [Next.mode] at hcount ⊢
          omega

/-- Nobody gets a haircut without a service, unless somebody is woken by nothing: there are at
    most as many haircuts as services and spurious wakeups of customers, and in a run without
    such wakeups at most as many as services. -/
theorem haircuts_le_served (hinit : (shop A).init k₀) (hrun : (shop A).Run k₀ tr k) :
    haircuts tr ≤ served tr + spuriousWakeups tr ∧
    ((∀ q ∈ tr, ∀ i, q.2 ≠ .spurious (some i)) → haircuts tr ≤ served tr) := by
  have hle := haircuts_add_woken_le hinit hrun
  refine ⟨by omega, ?_⟩
  intro hno
  have hzero : spuriousWakeups tr = 0 := by
    apply List.countP_eq_zero.mpr
    intro q hq htrue
    cases hlabel : q.2 with
    | exec t ev => simp [hlabel] at htrue
    | spurious t =>
        cases t with
        | none => simp [hlabel] at htrue
        | some i => exact hno q hq i hlabel
  omega

/-- The barber wakes up for nothing and sleeps again, then the customer comes and is served. -/
theorem haircuts_le_served_one :
    ∃ k₀ tr k, (shop smallShop).init k₀ ∧ (shop smallShop).Run k₀ tr k ∧ haircuts tr = 1 ∧
      haircuts tr ≤ served tr := by
  obtain ⟨k₀, tr, k, hinit, hrun, hp⟩ := exists_run_of_play
    (program smallShop) ⟨0, smallShop.customerCount⟩ startAt
    (fun tr _ => decide (haircuts tr = 1 ∧ ∀ q ∈ tr, ∀ i, q.2 ≠ .spurious (some i)))
    [.run none 0 none, .spurious none, .run none 0 none, .run onlyCustomer 0 (some none),
      .run none 0 (some onlyCustomer), .run onlyCustomer 0 none]
    (by decide)
  obtain ⟨hhair, hno⟩ := of_decide_eq_true hp
  exact ⟨k₀, tr, k, hinit, hrun, hhair, (haircuts_le_served hinit hrun).2 hno⟩

/-- The customer sits down, wakes up for nothing, and has got a haircut without a service. -/
theorem haircut_without_service :
    1 ≤ smallShop.chairCount ∧ 1 ≤ smallShop.customerCount ∧
    ∃ k₀ tr k, (shop smallShop).init k₀ ∧ (shop smallShop).Run k₀ tr k ∧
      haircuts tr = 1 ∧ served tr = 0 := by
  refine ⟨by decide, by decide, ?_⟩
  obtain ⟨k₀, tr, k, hinit, hrun, hp⟩ := exists_run_of_play
    (program smallShop) ⟨0, smallShop.customerCount⟩ startAt
    (fun tr _ => decide (haircuts tr = 1 ∧ served tr = 0))
    [.run onlyCustomer 0 none, .spurious onlyCustomer,
      .run onlyCustomer 0 none]
    (by decide)
  exact ⟨k₀, tr, k, hinit, hrun, of_decide_eq_true hp⟩

end Barber.Pthread
