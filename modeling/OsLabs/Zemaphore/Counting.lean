-- SUMMARY: No unit and no wakeup of a zemaphore is ever lost, as long as its counter does not overflow.
import OsLabs.Lib.Schedule
import OsLabs.Zemaphore.Model

/-!
# Units and wakeups

`zem_up` signals one thread, and the unit it adds may be gone by the time this thread
tests again. What counts is that the units never outnumber the woken threads while
somebody sleeps. This is shown for one zemaphore of any program, then for threads that call
`zem_down` and `zem_up` as they like.
-/

namespace Zemaphore

open Monitor CInt

variable {Z D L E T : Type} [DecidableEq Z] [DecidableEq T] [Fintype T]
  {code : L → List (Stmt Z D L E)} {s₀ : Shared Z D} {start : T → L}
  {k k' : Config T (Shared Z D) Z L} {e : Label T (Event Z E)} {z : Z}

/-! ## One zemaphore of a program -/

omit [DecidableEq T] [Fintype T] in
theorem Shared.setValue_self (s : Shared Z D) (z : Z) (v : Int) : (s.setValue z v).value z = v :=
  Function.update_self ..

omit [DecidableEq T] [Fintype T] in
theorem Shared.setValue_of_ne (s : Shared Z D) {z z' : Z} (h : z ≠ z') (v : Int) :
    (s.setValue z' v).value z = s.value z := Function.update_of_ne h ..

/-- There is no debt, and if somebody sleeps, there are as many woken threads as units. -/
structure Covered (z : Z) (k : Config T (Shared Z D) Z L) : Prop where
  nonneg : 0 ≤ k.shared.value z
  awake : 0 < headcount (Mode.asleepOn z) k.mode →
    k.shared.value z ≤ headcount (Mode.wokenOn z) k.mode

omit [DecidableEq Z] [DecidableEq T] [Fintype T] in
/-- A thread at `zem_down` is there for the first time, or back from its wait. -/
theorem mode_of_down {l r n : L} {t : T} (h : WaitsOk code (k.mode t))
    (hpc : (k.mode t).pc? = some l) (hst : .down z r n ∈ code l) :
    k.mode t = .ready l ∨ k.mode t = .woken z l := by
  cases hm : k.mode t with
  | ready l' =>
      rw [hm] at hpc
      rw [Option.some.inj hpc]
      exact .inl rfl
  | asleep z' l' => simp [hm, Mode.pc?] at hpc
  | woken z' l' =>
      rw [hm] at h hpc
      obtain rfl : l' = l := Option.some.inj hpc
      obtain ⟨n', hn⟩ := h
      rw [hn] at hst
      cases List.mem_singleton.mp hst
      exact .inr rfl

omit [DecidableEq T] [Fintype T] in
theorem not_wokenOn_of_down {z' : Z} {l r n : L} {t : T} (h : WaitsOk code (k.mode t))
    (hpc : (k.mode t).pc? = some l) (hst : .down z' r n ∈ code l) (hz : z ≠ z') :
    (k.mode t).wokenOn z = false := by
  rcases mode_of_down h hpc hst with hm | hm
  · rw [hm]
    rfl
  · simpa [hm] using Ne.symm hz

/-- A step of a thread that is not back from a wait on `z` and does not touch `z`. -/
theorem Covered.frame {m : T → Mode Z L} {t : T} {l : L} {s : Shared Z D} (h : Covered z k)
    (hvalue : s.value z = k.shared.value z)
    (hasleep : headcount (Mode.asleepOn z) m = headcount (Mode.asleepOn z) k.mode)
    (hwoken : headcount (Mode.wokenOn z) m = headcount (Mode.wokenOn z) k.mode) {w : Wake Z}
    (hw : Wakes w k.mode m) (hpc : (k.mode t).pc? = some l)
    (hnot : (k.mode t).wokenOn z = false) (x : Mode Z L) (hx : x.asleepOn z = false) :
    Covered z ⟨s, Function.update m t x⟩ := by
  obtain ⟨ha, hk⟩ := section_headcount (c := z) hw hpc x
  simp only [hnot, hx, Bool.toNat_false, Nat.add_zero] at ha hk
  refine ⟨hvalue ▸ h.nonneg, ?_⟩
  intro hpos
  dsimp only at hpos ⊢
  have := h.awake (by omega)
  rw [hvalue]
  omega

/-- `zem_up` on `z`: either nobody sleeps, or the new unit comes with a new woken thread. -/
theorem Covered.up {m : T → Mode Z L} {t : T} {l n : L} (h : Covered z k)
    (hw : Wakes (.signal z) k.mode m) (hpc : (k.mode t).pc? = some l)
    (hnot : (k.mode t).wokenOn z = false) (hfits : k.shared.value z < 2 ^ 31 - 1) :
    Covered z ⟨k.shared.setValue z (wrap32 (k.shared.value z + 1)),
      Function.update m t (.ready n)⟩ := by
  have hnonneg := h.nonneg
  have hawake := h.awake
  obtain ⟨ha, hk⟩ := section_headcount (c := z) hw hpc (.ready n)
  simp only [hnot, Mode.asleepOn_ready, Mode.wokenOn_ready, Bool.toNat_false, Nat.add_zero] at ha hk
  have hvalue : wrap32 (k.shared.value z + 1) = k.shared.value z + 1 :=
    wrap32_eq_self (by omega) (by omega)
  constructor <;> dsimp only <;> rw [Shared.setValue_self, hvalue]
  · omega
  · rcases hw.signal_headcount z with ⟨hasleep, hwoken, hnone⟩ | ⟨-, hasleep, hwoken⟩
    · have := hnone rfl
      omega
    · omega

/-- `zem_down` on `z`: a unit goes, and with it at most one of those who were woken for it. -/
theorem Covered.down {t : T} {l n : L} (h : Covered z k) (hpc : (k.mode t).pc? = some l)
    (hpos : 0 < k.shared.value z) :
    Covered z ⟨k.shared.setValue z (k.shared.value z - 1),
      Function.update k.mode t (.ready n)⟩ := by
  have hawake := h.awake
  obtain ⟨ha, hk⟩ := section_headcount (c := z) .none hpc (.ready n)
  simp only [Mode.asleepOn_ready, Mode.wokenOn_ready, Bool.toNat_false, Nat.add_zero] at ha hk
  have hone := Bool.toNat_le ((k.mode t).wokenOn z)
  constructor <;> dsimp only <;> rw [Shared.setValue_self]
  · omega
  · intro hasleep
    have := hawake (by omega)
    omega

theorem Covered.act {l : L} {st : Stmt Z D L E} {t : T} (hw : WaitsOk code (k.mode t))
    (h : Covered z k) (hpc : (k.mode t).pc? = some l) (hst : st ∈ code l) (hact : Acts st t k e k')
    (hinit : ∀ v n, st ≠ .init z v n) (hfits : ∀ n, st = .up z n → k.shared.value z < 2 ^ 31 - 1) :
    Covered z k' := by
  have hready : (∀ z r n, st ≠ .down z r n) → (k.mode t).wokenOn z = false := by
    intro hdown
    rw [ready_of_pc hw hpc hst hdown]
    rfl
  cases hact with
  | @init z' v n _ _ =>
      have hz : z ≠ z' := fun hz => hinit v n (by rw [hz])
      exact h.frame (Shared.setValue_of_ne _ hz _) rfl rfl .none hpc (hready (by simp)) _ rfl
  | run =>
      refine h.frame ?_ rfl rfl .none hpc (hready (by simp)) _ rfl
      rfl
  | @up z' n _ _ m hsig =>
      have hnot := hready (by simp)
      by_cases hz : z = z'
      · subst hz
        exact h.up hsig hpc hnot (hfits n rfl)
      · rcases hsig.signal_headcount z with ⟨hasleep, hwoken, -⟩ | ⟨heq, -⟩
        · exact h.frame (Shared.setValue_of_ne _ hz _) hasleep hwoken hsig hpc hnot _ rfl
        · exact absurd heq hz
  | @waits z' r n _ _ hle =>
      by_cases hz : z = z'
      · subst hz
        refine ⟨h.nonneg, ?_⟩
        intro _
        dsimp only
        omega
      · have hnot := not_wokenOn_of_down hw hpc hst hz
        exact h.frame rfl rfl rfl .none hpc hnot _ (by simpa using Ne.symm hz)
  | @down z' r n _ _ hpos =>
      by_cases hz : z = z'
      · subst hz
        exact h.down hpc hpos
      · have hnot := not_wokenOn_of_down hw hpc hst hz
        exact h.frame (Shared.setValue_of_ne _ hz _) rfl rfl .none hpc hnot _ rfl

theorem Covered.spurious {t : T} {z' : Z} {l : L} (h : Covered z k) (ht : k.mode t = .asleep z' l) :
    Covered z ⟨k.shared, Function.update k.mode t (.woken z' l)⟩ := by
  obtain ⟨ha, hk⟩ := spurious_headcount z ht
  refine ⟨h.nonneg, ?_⟩
  intro hpos
  dsimp only at hpos ⊢
  have := h.awake (by omega)
  omega

/-- The thread sleeps in `zem_down`, or will as soon as it tests the counter. -/
def Blocked (code : L → List (Stmt Z D L E)) (k : Config T (Shared Z D) Z L) (t : T) : Prop :=
  (k.mode t).isAsleep = true ∨
    ∃ z r n, .down z r n ∈ code (k.locs t) ∧ k.shared.value z ≤ 0

omit [DecidableEq T] in
/-- If all threads that have something left to do are blocked, each of them is so because there
    is no unit: a unit would have woken somebody. -/
theorem no_unit_of_blocked (hwaits : ∀ t, WaitsOk code (k.mode t)) (hcov : ∀ z, Covered z k)
    (hall : ∀ t, code (k.locs t) ≠ [] → Blocked code k t) {t : T} (ht : code (k.locs t) ≠ []) :
    ∃ z r n, .down z r n ∈ code (k.locs t) ∧ k.shared.value z ≤ 0 := by
  rcases hall t ht with hasleep | hdown
  · obtain ⟨z, l, hm⟩ := Mode.isAsleep_iff.mp hasleep
    have hz : (k.mode t).asleepOn z = true := by simp [hm]
    obtain ⟨n, hn⟩ := (hwaits t).code_eq (Mode.waitsOn_iff.mpr (.inl hz))
    refine ⟨z, _, n, by rw [Config.locs, hn]; exact List.mem_singleton_self _, ?_⟩
    by_contra hpos
    have hawake := (hcov z).awake (headcount_pos.mpr ⟨t, hz⟩)
    -- `u` has been woken on `z` and finds a unit there.
    obtain ⟨u, hu⟩ := headcount_pos.mp (show 0 < headcount (Mode.wokenOn z) k.mode by omega)
    obtain ⟨n', hn'⟩ := (hwaits u).code_eq (Mode.waitsOn_iff.mpr (.inr hu))
    have hcode : code (k.locs u) = [.down z (k.locs u) n'] := hn'
    rcases hall u (by simp [hcode]) with hasleep' | ⟨z', r, n'', hmem, hle⟩
    · obtain ⟨z', l', hmu⟩ := Mode.isAsleep_iff.mp hasleep'
      simp [hmu] at hu
    · rw [hcode] at hmem
      cases List.mem_singleton.mp hmem
      exact hpos hle
  · exact hdown

/-! ## Threads that call `zem_down` and `zem_up` -/

/-- Between calls, or in the wait of `zem_down`. -/
inductive Pc
  | idle
  | down
deriving DecidableEq

/-- Threads that call the two functions on one zemaphore, in any order and number. -/
def callers : Pc → List (Stmt Unit Unit Pc Empty)
  | .idle => [.down () .down .idle, .up () .idle]
  | .down => [.down () .down .idle]

/-- Any number of threads, after `zem_init` with `v₀`. -/
def system (T : Type) [DecidableEq T] (v₀ : Int) :
    TransitionSystem (Config T (Shared Unit Unit) Unit Pc) (Label T (Event Unit Empty)) :=
  systemOf (program callers) ⟨fun _ => v₀, ()⟩ fun _ => .idle

theorem callers_retests : Retests callers := by
  intro l z r n h
  cases l <;> simp [callers] at h <;> obtain ⟨rfl, rfl⟩ := h <;> rfl

abbrev Trace (T : Type) :=
  List (Config T (Shared Unit Unit) Unit Pc × Label T (Event Unit Empty))

def Label.isUp : Label T (Event Unit Empty) → Bool
  | .exec _ (.up _) => true
  | _               => false

def Label.isDown : Label T (Event Unit Empty) → Bool
  | .exec _ (.down _) => true
  | _                 => false

/-- The completed calls of `zem_up`. -/
def ups (tr : Trace T) : Nat := tr.countP fun q => Label.isUp q.2

/-- The completed calls of `zem_down`. -/
def downs (tr : Trace T) : Nat := tr.countP fun q => Label.isDown q.2

/-- No `zem_up` is made when the counter is at the largest `int`. -/
def Fits (tr : Trace T) : Prop :=
  ∀ q ∈ tr, Label.isUp q.2 = true → q.1.shared.value () < 2 ^ 31 - 1

variable {v₀ : Int} {c₀ c c' : Config T (Shared Unit Unit) Unit Pc} {tr : Trace T}

omit [Fintype T] in
theorem callers_act {st : Stmt Unit Unit Pc Empty} {t : T} {l : Label T (Event Unit Empty)}
    {pc : Pc} (hst : st ∈ callers pc) (h : Acts st t c l c')
    (hfits : Label.isUp l = true → 0 ≤ c.shared.value () ∧ c.shared.value () < 2 ^ 31 - 1) :
    c'.shared.value () =
      c.shared.value () + (Label.isUp l).toNat - (Label.isDown l).toNat := by
  cases h with
  | init => cases pc <;> simp [callers] at hst
  | waits _ => simp [Label.isUp, Label.isDown]
  | down _ => simp [Label.isUp, Label.isDown, Shared.setValue]
  | @up z n _ _ m hw =>
      obtain rfl : () = z := rfl
      obtain ⟨h₀, h₁⟩ := hfits rfl
      simp only [Shared.setValue, Function.update_self, Label.isUp, Label.isDown, Bool.toNat_true,
        Bool.toNat_false]
      rw [wrap32_eq_self (by omega) (by omega)]
      omega
  | run => cases pc <;> simp [callers] at hst

theorem counted_of_run (hv : 0 ≤ v₀) (hinit : (system T v₀).init c₀)
    (hrun : (system T v₀).Run c₀ tr c) (hfits : Fits tr) :
    c.shared.value () = v₀ + ups tr - downs tr ∧ Covered () c := by
  refine hrun.history (I := fun tr c => Fits tr → c.shared.value () = v₀ + ups tr - downs tr ∧
    Covered () c) ?_ ?_ hfits
  · obtain rfl : c₀ = ⟨⟨fun _ => v₀, ()⟩, fun _ => .ready .idle⟩ := hinit
    refine fun _ => ⟨by simp [ups, downs], hv, ?_⟩
    intro hpos
    obtain ⟨t, ht⟩ := headcount_pos.mp hpos
    cases ht
  · intro tr c e c' hr ih hs hfits
    obtain ⟨hvalue, hcov⟩ := ih fun q hq => hfits q (List.mem_append_left _ hq)
    have hup : Label.isUp e = true → 0 ≤ c.shared.value () ∧ c.shared.value () < 2 ^ 31 - 1 :=
      fun he => ⟨hcov.nonneg, hfits (c, e) (by simp) he⟩
    rcases step_cases hs with ⟨t, z, l, rfl, ht, rfl⟩ | ⟨t, l, st, hpc, hst, hact⟩
    · exact ⟨by simpa [ups, downs, Label.isUp, Label.isDown] using hvalue, hcov.spurious ht⟩
    · have hw := waitsOk_of_reachable callers_retests ⟨c₀, tr, hinit, hr⟩ t
      refine ⟨?_, hcov.act hw hpc hst hact ?_ ?_⟩
      · rw [callers_act hst hact hup, hvalue]
        simp only [ups, downs, List.countP_append, List.countP_singleton]
        cases Label.isUp e <;> cases Label.isDown e <;> simp <;> omega
      · rintro v n rfl
        cases l <;> simp [callers] at hst
      · rintro n rfl
        cases hact
        exact (hup rfl).2

/-- Units and wakeups are not lost. In every run in which no `zem_up` is made when the
    counter is at the largest `int`, the counter is the initial value plus the ups minus the
    downs and never negative; and if somebody sleeps in `zem_down` without having been
    signalled, at least as many threads as there are units have been woken and have yet to
    test again. -/
theorem units_conserved (hv : 0 ≤ v₀) (hinit : (system T v₀).init c₀)
    (hrun : (system T v₀).Run c₀ tr c) (hfits : Fits tr) :
    c.shared.value () = v₀ + ups tr - downs tr ∧ 0 ≤ c.shared.value () ∧
    ((∃ t, (c.mode t).isAsleep = true) →
      c.shared.value () ≤ headcount Mode.isWoken c.mode) ∧
    ¬ (0 < c.shared.value () ∧ (∃ t, (c.mode t).isAsleep = true) ∧
      ∀ t, (c.mode t).isWoken = false) := by
  obtain ⟨hvalue, hcov⟩ := counted_of_run hv hinit hrun hfits
  have hwoken : headcount (Mode.wokenOn ()) c.mode = headcount Mode.isWoken c.mode := by
    simp only [headcount_eq_sum]
    apply Finset.sum_congr rfl
    intro t _
    cases c.mode t <;> rfl
  have hle : (∃ t, (c.mode t).isAsleep = true) → c.shared.value () ≤ headcount Mode.isWoken c.mode := by
    rintro ⟨t, ht⟩
    rw [← hwoken]
    obtain ⟨z, l, hm⟩ := Mode.isAsleep_iff.mp ht
    exact hcov.awake (headcount_pos.mpr ⟨t, by simp [hm]⟩)
  refine ⟨hvalue, hcov.nonneg, hle, ?_⟩
  rintro ⟨hpos, hasleep, hnone⟩
  have := hle hasleep
  rw [headcount_eq_zero.mpr hnone] at this
  omega

/-- A thread sleeps, is signalled and loses its unit to another one. -/
theorem units_conserved_stolen :
    ∃ c₀ tr c, (system (Fin 2) 0).init c₀ ∧ (system (Fin 2) 0).Run c₀ tr c ∧
      ups tr = 1 ∧ downs tr = 1 ∧ c.shared.value () = 0 + 1 - 1 := by
  obtain ⟨c₀, tr, c, hinit, hrun, hp⟩ := exists_run_of_play
    (program callers) ⟨fun _ => 0, ()⟩ (fun _ : Fin 2 => .idle)
    (fun tr _ => decide ((∀ q ∈ tr, Label.isUp q.2 = true → q.1.shared.value () < 2 ^ 31 - 1) ∧
      ups tr = 1 ∧ downs tr = 1))
    [.run 0 0 none, .run 1 1 (some 0), .run 1 0 none, .run 0 0 none] (by decide)
  obtain ⟨hfits, hup, hdown⟩ := of_decide_eq_true hp
  refine ⟨c₀, tr, c, hinit, hrun, hup, hdown, ?_⟩
  have hvalue := (units_conserved (Int.le_refl 0) hinit hrun hfits).1
  rwa [hup, hdown] at hvalue

/-- From the largest `int`, one `zem_up` makes the counter negative. -/
theorem up_overflows :
    ∃ c₀ tr c, (system Unit (2 ^ 31 - 1)).init c₀ ∧ (system Unit (2 ^ 31 - 1)).Run c₀ tr c ∧
      ups tr = 1 ∧ downs tr = 0 ∧ c.shared.value () = -2 ^ 31 ∧
      c.shared.value () ≠ 2 ^ 31 - 1 + ups tr - downs tr ∧ ¬ 0 ≤ c.shared.value () := by
  obtain ⟨c₀, tr, c, hinit, hrun, hp⟩ := exists_run_of_play
    (program callers) ⟨fun _ => 2 ^ 31 - 1, ()⟩ (fun _ : Unit => .idle)
    (fun tr c => decide (ups tr = 1 ∧ downs tr = 0 ∧ c.shared.value () = -2 ^ 31))
    [.run () 1 none] (by decide)
  obtain ⟨hup, hdown, hvalue⟩ := of_decide_eq_true hp
  exact ⟨c₀, tr, c, hinit, hrun, hup, hdown, hvalue, by omega, by omega⟩

end Zemaphore
