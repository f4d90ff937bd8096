-- SUMMARY: What copyout writes, as seen through its own page table: the whole range, or a prefix of it that ends with a page.
import OsLabs.Vm.Isolation

/-!
# The range of copyout

`copyout` handles one page after the other and gives up at the first one that is not a
user page, or that it cannot separate for want of memory. So it writes a prefix of its
range. A page may change its frame on the way, but keeps its other bytes, and since no
two pages of a table have the same frame, no other page of the table is written to.
-/

namespace Vm

open Effect

variable [Layout] {s s' s₁ : Memory} {x : Nat → Nat} {r v g off n : Nat} {src : Nat → UInt8}

/-! ## Writing a range -/

/-- Through the table `r`, the `m` bytes from `dstva` on have become those of `src`, and all
    others have stayed. Entries of pages outside of this range have not been touched. -/
structure Copied (r dstva : Nat) (src : Nat → UInt8) (m : Nat) (s s' : Memory) : Prop where
  load : ∀ va, s'.load r va =
    if dstva ≤ va ∧ va < dstva + m then some (src (va - dstva)) else s.load r va
  pte : ∀ r' v, (r' = r → ∀ i < m, (dstva + i) / PGSIZE ≠ v) → s'.pte r' v = s.pte r' v

omit [Layout] in
theorem Copied.none {dstva : Nat} (hload : ∀ va, s'.load r va = s.load r va)
    (hpt : s'.pgtbl = s.pgtbl) : Copied r dstva src 0 s s' where
  load va := by
    rw [if_neg (by omega)]
    exact hload va
  pte r' v _ := pte_congr hpt r' v

omit [Layout] in
/-- Ranges that follow each other. Nothing needs to follow the last one. -/
theorem Copied.append {dstva dstva' m : Nat} (h₁ : Copied r dstva src n s s₁)
    (h₂ : Copied r dstva' (fun i => src (i + n)) m s₁ s') (hnext : m ≠ 0 → dstva' = dstva + n) :
    Copied r dstva src (n + m) s s' where
  load va := by
    rw [h₂.load, h₁.load]
    by_cases hlast : dstva' ≤ va ∧ va < dstva' + m
    · have hdst := hnext (by omega)
      have hidx : va - dstva' + n = va - dstva := by omega
      rw [if_pos hlast, if_pos (by omega), hidx]
    · rw [if_neg hlast]
      by_cases hfirst : dstva ≤ va ∧ va < dstva + n
      · rw [if_pos hfirst, if_pos (by omega)]
      · rw [if_neg hfirst, if_neg]
        intro hin
        have hdst := hnext (by omega)
        omega
  pte r' v hv := by
    rw [h₂.pte r' v, h₁.pte r' v]
    · intro hr i hi
      exact hv hr i (by omega)
    · intro hr i hi
      have hdst := hnext (by omega)
      rw [hdst, Nat.add_assoc]
      exact hv hr (n + i) (by omega)

omit [Layout] in
theorem Copied.load_range {dstva : Nat} (h : Copied r dstva src n s s') :
    ∀ i < n, s'.load r (dstva + i) = some (src i) := by
  intro i hi
  rw [h.load, if_pos (by omega), Nat.add_sub_cancel_left]

omit [Layout] in
theorem Copied.load_outside {dstva : Nat} (h : Copied r dstva src n s s') :
    ∀ va, ¬ (dstva ≤ va ∧ va < dstva + n) → s'.load r va = s.load r va := by
  intro va hva
  rw [h.load, if_neg hva]

/-! ## A round -/

/-- The content of a page before the write. -/
theorem Target.bytes (hs : Target x r v g s s₁) {o : Nat} (ho : o < PGSIZE) :
    s₁.mem (g * PGSIZE + o) = s.mem ((s.pte r v).ppn * PGSIZE + o) := by
  unfold Target at hs
  split at hs
  · exact hs.bytes o ho
  · rw [hs.2, hs.1]

/-- Its content after the write. -/
theorem Round.load_page (h : Round x r v g off n s s₁) {va : Nat} (hva : va / PGSIZE = v) :
    (s₁.written g off src n).load r va =
      if off ≤ va % PGSIZE ∧ va % PGSIZE < off + n then some (src (va % PGSIZE - off))
      else s.load r va := by
  obtain ⟨t, hr⟩ := Option.isSome_iff_exists.mp h.live
  obtain ⟨h₂, _⟩ := h.kept src
  obtain ⟨hppn, hval, hu⟩ := h.target.pte_self hr
  have hp : (s₁.written g off src n).UserPage r (va / PGSIZE) := by
    rw [hva]
    exact ⟨h.page.1, hval.trans h.page.2.1, hu.trans h.page.2.2⟩
  have hpa : ((s₁.written g off src n).pte r (va / PGSIZE)).pa = g * PGSIZE := by
    rw [hva]
    exact congrArg (· * PGSIZE) hppn
  rw [h₂.load_of_userPage hp, hpa]
  split
  · rename_i ho
    rw [written_mem ho]
  · rename_i ho
    rw [written_mem_of_not ho, h.target.bytes (Nat.mod_lt va PGSIZE_pos),
      h.inv.load_of_userPage (by rw [hva]; exact h.page), hva]
    rfl

/-- A round that copies something. -/
theorem Round.copied (h : Round x r v g off n s s₁) (hn : n ≠ 0) (src : Nat → UInt8) :
    Copied r (v * PGSIZE + off) src n s (s₁.written g off src n) where
  load va := by
    have hsplit := Nat.div_add_mod' va PGSIZE
    have hfits := h.fits
    by_cases hva : va / PGSIZE = v
    · rw [hva] at hsplit
      have hidx : va % PGSIZE - off = va - (v * PGSIZE + off) := by omega
      rw [h.load_page hva, hidx]
      congr 1
      apply propext
      omega
    · rw [h.load_other hva, if_neg]
      rintro ⟨hle, hlt⟩
      apply hva
      obtain ⟨i, rfl⟩ := Nat.exists_eq_add_of_le hle
      rw [Nat.add_assoc]
      exact addr_div (by omega)
  pte r' v' hv' := by
    apply h.pte_other
    intro heq
    obtain ⟨rfl, rfl⟩ := Prod.mk.inj heq
    have hfirst := hv' rfl 0 (by omega)
    rw [Nat.add_zero] at hfirst
    exact hfirst (addr_div (i := 0) h.off_lt)

/-! ## All rounds -/

/-- The bound on the number of rounds is not reached: each of them copies a byte. -/
theorem copyoutLoop_fuel (κ : Version) (pt : Nat) {fuel fuel' len : Nat} (dstva : Nat)
    (src : Nat → UInt8) (hfuel : len ≤ fuel) (hfuel' : len ≤ fuel') :
    copyoutLoop κ pt fuel dstva src len = copyoutLoop κ pt fuel' dstva src len := by
  induction fuel generalizing fuel' dstva src len with
  | zero =>
      obtain rfl : len = 0 := Nat.le_zero.mp hfuel
      cases fuel' with
      | zero => rfl
      | succ fuel' => rfl
  | succ fuel ih =>
      cases fuel' with
      | zero =>
          obtain rfl : len = 0 := Nat.le_zero.mp hfuel'
          rfl
      | succ fuel' =>
          by_cases hlen : len = 0
          · subst hlen
            rfl
          · have hoff := Nat.mod_lt dstva PGSIZE_pos
            have hsplit := Nat.div_add_mod' dstva PGSIZE
            have hdown : dstva - pgrounddown dstva = dstva % PGSIZE := by
              unfold pgrounddown
              omega
            obtain ⟨n, hn⟩ : ∃ n, n = min (PGSIZE - dstva % PGSIZE) len := ⟨_, rfl⟩
            have hrest : ∀ src', copyoutLoop κ pt fuel (pgrounddown dstva + PGSIZE) src' (len - n) =
                copyoutLoop κ pt fuel' (pgrounddown dstva + PGSIZE) src' (len - n) :=
              fun src' => ih _ src' (by omega) (by omega)
            unfold copyoutLoop
            simp only [hdown, ← hn, hrest]

/-- What has been copied when `copyout` returns `b`: a prefix of the range, which is all of it
    if and only if `b` is true, and otherwise nothing or the part before some page. -/
def Outcome (r dstva : Nat) (src : Nat → UInt8) (len : Nat) (s : Memory) (b : Bool) (s' : Memory) :
    Prop :=
  ∃ m ≤ len, (b = true ↔ m = len) ∧ (b = false → m = 0 ∨ PGSIZE ∣ dstva + m) ∧
    Copied r dstva src m s s'

omit [Layout] in
theorem outcome_done {dstva : Nat} : Outcome r dstva src 0 s true s :=
  ⟨0, Nat.le_refl 0, by simp, nofun, .none (fun _ => rfl) rfl⟩

omit [Layout] in
theorem outcome_stop {dstva len : Nat} (hlen : len ≠ 0) (hload : ∀ va, s'.load r va = s.load r va)
    (hpt : s'.pgtbl = s.pgtbl) : Outcome r dstva src len s false s' := by
  refine ⟨0, Nat.zero_le len, ?_, fun _ => .inl rfl, .none hload hpt⟩
  exact iff_of_false nofun fun heq => hlen heq.symm

/-- The rounds after the first one. They start with the next page, or have nothing to do. -/
theorem Round.outcome {dstva len : Nat} {b : Bool} (h : Round x r v g (dstva % PGSIZE) n s s₁)
    (hlen : len ≠ 0) (hv : dstva / PGSIZE = v) (hn : n = min (PGSIZE - dstva % PGSIZE) len)
    (hrest : Outcome r ((v + 1) * PGSIZE) (fun i => src (i + n)) (len - n)
      (s₁.written g (dstva % PGSIZE) src n) b s') : Outcome r dstva src len s b s' := by
  obtain ⟨m, hm, hall, hpart, hcopied⟩ := hrest
  have hoff := h.off_lt
  have hdst : v * PGSIZE + dstva % PGSIZE = dstva := by rw [← hv, Nat.div_add_mod']
  have hpage : (v + 1) * PGSIZE = v * PGSIZE + PGSIZE := Nat.succ_mul v PGSIZE
  have hfirst := h.copied (by omega) src
  rw [hdst] at hfirst
  refine ⟨n + m, by omega, ?_, ?_, hfirst.append hcopied fun hm₀ => by omega⟩
  · rw [hall]
    omega
  · intro hb
    subst hb
    have hleft : m ≠ len - n := fun heq => Bool.false_ne_true (hall.mpr heq)
    have hend : dstva + (n + m) = (v + 1) * PGSIZE + m := by omega
    rw [hend]
    rcases hpart rfl with rfl | hdvd
    · refine .inr ?_
      rw [Nat.add_zero]
      exact Nat.dvd_mul_left PGSIZE (v + 1)
    · exact .inr hdvd

theorem wp_copyoutLoop_outcome {fuel len : Nat} (dstva : Nat) (src : Nat → UInt8)
    (h : Inv .cow s x) (hlive : s.Live r) (htops : ∀ pt, s.Live pt → Topped s pt)
    (hfuel : len ≤ fuel) :
    wp (copyoutLoop .cow r fuel dstva src len) (Outcome r dstva src len s) (fun _ _ => False) s := by
  induction fuel generalizing s dstva src len with
  | zero =>
      obtain rfl : len = 0 := Nat.le_zero.mp hfuel
      exact outcome_done
  | succ fuel ih =>
      by_cases hlen : len = 0
      · subst hlen
        exact outcome_done
      · obtain ⟨t, hr⟩ := Option.isSome_iff_exists.mp hlive
        have hoff := Nat.mod_lt dstva PGSIZE_pos
        refine wp_copyoutLoop_succ h hr (htops r hlive) hlen rfl rfl ?_ ?_ ?_
        · intro _
          exact outcome_stop hlen (fun _ => rfl) rfl
        · intro _ _ _ _
          exact outcome_stop hlen (fun _ => rfl) rfl
        · intro g s₁ hp hs
          have hround : Round x r (dstva / PGSIZE) g (dstva % PGSIZE)
              (min (PGSIZE - dstva % PGSIZE) len) s s₁ :=
            ⟨h, hlive, htops, hp, hs, hoff, by omega⟩
          obtain ⟨h₂, hk₂⟩ := hround.kept src
          refine (ih _ _ h₂ (hk₂.live_iff.mpr hlive) (fun pt => hround.topped_after)
            (by omega)).mono ?_ fun _ _ => id
          intro b s' hrest
          exact hround.outcome hlen rfl rfl hrest

/-- In every reachable state, `copyout` returns, within one round for each byte. If it returns
    0, it has written its range and nothing else; if it returns -1, a part of the range that
    is empty or ends where a page ends. -/
theorem copyout_exact {k : Kernel} (h : kernel.Reachable k) {pt : Nat} (hpt : k.mem.Live pt)
    (dstva : Nat) (src : Nat → UInt8) (len : Nat) :
    (∀ fuel ≥ len, copyoutLoop .cow pt fuel dstva src len = copyout .cow pt dstva src len) ∧
    ∃ b s', exec (copyout .cow pt dstva src len) k.mem = (.ok b, s') ∧
      (b = true →
        (∀ i < len, s'.load pt (dstva + i) = some (src i)) ∧
        ∀ va, ¬ (dstva ≤ va ∧ va < dstva + len) → s'.load pt va = k.mem.load pt va) ∧
      (b = false → ∃ m < len, (m = 0 ∨ PGSIZE ∣ dstva + m) ∧
        (∀ i < m, s'.load pt (dstva + i) = some (src i)) ∧
        (∀ va, ¬ (dstva ≤ va ∧ va < dstva + m) → s'.load pt va = k.mem.load pt va) ∧
        ∀ pt' v, (pt' = pt → ∀ i < m, (dstva + i) / PGSIZE ≠ v) →
          s'.pte pt' v = k.mem.pte pt' v) := by
  have hk := kInv_of_reachable h
  refine ⟨fun fuel hfuel => copyoutLoop_fuel .cow pt dstva src hfuel (Nat.le_refl len), ?_⟩
  obtain ⟨b, s', hexec, m, hm, hall, hpart, hcopied⟩ :=
    (wp_copyoutLoop_outcome dstva src hk.inv hpt hk.topped (Nat.le_refl len)).exists_ok
  refine ⟨b, s', hexec, ?_, ?_⟩
  · intro hb
    obtain rfl := hall.mp hb
    exact ⟨hcopied.load_range, hcopied.load_outside⟩
  · intro hb
    subst hb
    have hne : m ≠ len := fun heq => Bool.false_ne_true (hall.mpr heq)
    exact ⟨m, by omega, hpart rfl, hcopied.load_range, hcopied.load_outside, hcopied.pte⟩

omit [Layout] in
/-- There is no page at 8192, so `copyout` writes to the end of the page before and returns
    -1. -/
theorem copyout_exact_forked : ∃ s',
    exec (@copyout tinyLayout .cow 557054 8188 (fun _ => 1) 8) forked.mem = (.ok false, s') ∧
    ∃ m < 8, (m = 0 ∨ PGSIZE ∣ 8188 + m) ∧ (∀ i < m, s'.load 557054 (8188 + i) = some 1) ∧
      s'.load 557054 0 = some 0 := by
  let := tinyLayout
  have hlive : forked.mem.Live 557054 := by decide +kernel
  obtain ⟨_, b, s', hexec, hdone, hpart⟩ :=
    copyout_exact forked_reachable hlive 8188 (fun _ => 1) 8
  cases b with
  | true =>
      have hlast := (hdone rfl).1 4 (by decide)
      have hnone : (exec (copyout .cow 557054 8188 (fun _ => 1) 8) forked.mem).2.load 557054 8192 =
          none := by decide +kernel
      rw [hexec] at hnone
      rw [hnone] at hlast
      cases hlast
  | false =>
      obtain ⟨m, hm, hend, hrange, hrest, _⟩ := hpart rfl
      have hzero : forked.mem.load 557054 0 = some 0 := by decide +kernel
      exact ⟨s', hexec, m, hm, hend, hrange, (hrest 0 (by omega)).trans hzero⟩

end Vm
