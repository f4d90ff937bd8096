-- SUMMARY: When copyout on one page table changes what other processes read: exactly when it reaches a read-only page that is shared with one of them.
import OsLabs.Vm.Kernel

/-!
# Kernel writes and other processes

`copyout` writes through physical addresses, so the hardware does not check `PTE_W`. It
separates pages marked copy-on-write before it writes to them. Pages that were read-only
when `uvmcopy` shared them have no mark, and `copyout` writes to the shared frame.

The pages of the range are handled one after the other, and each round changes only what
others read in one page. So the call leaves all others alone if and only if no round
writes to a shared frame, and for the state before the call this means: no page that
will be reached is shared and unmarked.
-/

namespace Vm

open Effect

variable [Layout] {s s' s₁ : Memory} {x : Nat → Nat} {r v g : Nat} {t : Pagetable}

/-! ## The condition -/

/-- The page is marked and its frame is in use elsewhere. -/
def Memory.needsCopy (s : Memory) (pt v : Nat) : Bool :=
  (s.pte pt v).rsw && s.refcnt (s.pte pt v).ppn != 1

/-- From page `v` on, `copyout` gets to the page `v + k`: the pages up to there are user
    pages, and there are frames for those that have to be copied before. -/
def Memory.Reaches (s : Memory) (pt v k : Nat) : Prop :=
  (∀ j ≤ k, s.UserPage pt (v + j)) ∧
    (List.range k).countP (fun j => s.needsCopy pt (v + j)) ≤ s.freelist.length

/-- The page of `va` is neither writable nor marked, another page table has its frame, and
    the byte `b` differs from the one that is there. -/
def LeaksAt (s : Memory) (pt va : Nat) (b : UInt8) : Prop :=
  (s.pte pt (va / PGSIZE)).w = false ∧ (s.pte pt (va / PGSIZE)).rsw = false ∧
    (∃ pt' ≠ pt, s.UserPage pt' (va / PGSIZE) ∧
      (s.pte pt' (va / PGSIZE)).ppn = (s.pte pt (va / PGSIZE)).ppn) ∧
    b ≠ s.mem ((s.pte pt (va / PGSIZE)).pa + va % PGSIZE)

/-- The call reaches a page and leaks a byte there. -/
def Leaks (s : Memory) (pt dstva : Nat) (src : Nat → UInt8) (len : Nat) : Prop :=
  ∃ i < len, s.Reaches pt (dstva / PGSIZE) ((dstva + i) / PGSIZE - dstva / PGSIZE) ∧
    LeaksAt s pt (dstva + i) (src i)

/-- All other page tables show the same bytes. -/
def Undisturbed (pt : Nat) (s s' : Memory) : Prop := ∀ pt' ≠ pt, ∀ va, s'.load pt' va = s.load pt' va

/-! ## What a round leaves alone -/

theorem Target.mem (hs : Target x r v g s s₁) : KeepsMem (s.total x) s s₁ := by
  unfold Target at hs
  split at hs
  · exact hs.mem
  · rw [hs.2]
    exact fun _ _ => rfl

/-- Other pages have other frames, in whichever table. -/
theorem Target.frame_ne (hs : Target x r v g s s₁) (h : Inv .cow s x) (hr : s.pgtbl r = some t)
    (hp : s.UserPage r v) {r' v' : Nat} (hv' : v' < UPAGES) (hval : (s.pte r' v').v = true)
    (hne : v' ≠ v) : (s.pte r' v').ppn ≠ g := by
  intro hppn
  unfold Target at hs
  split at hs
  · have hself := hs.pte_self hr
    have hother : s₁.pte r' v' = s.pte r' v' :=
      hs.pte_other hr fun heq => hne (congrArg Prod.snd heq)
    have hval₁ : (s₁.pte r v).v = true := by rw [hself]; exact hp.2.1
    refine hne (hs.inv.same r v hp.1 r' v' hv' hval₁ (by rwa [hother]) ?_)
    rw [hother, hself, hppn]
    rfl
  · exact hne (h.same r v hp.1 r' v' hv' hp.2.1 hval (hppn.trans hs.1))

/-- Counts of other pages' frames. -/
theorem Target.refcnt_other (hs : Target x r v g s s₁) (h : Inv .cow s x)
    (hr : s.pgtbl r = some t) (hp : s.UserPage r v) {r' v' : Nat} (hv' : v' < UPAGES)
    (hval : (s.pte r' v').v = true) (hne : v' ≠ v) :
    s₁.refcnt (s.pte r' v').ppn = s.refcnt (s.pte r' v').ppn := by
  have hg := hs.frame_ne h hr hp hv' hval hne
  unfold Target at hs
  split at hs
  · rw [hs.inv.ledger.count rfl, h.ledger.count rfl, hs.other _ hg]
    intro hppn
    exact hne (h.same r v hp.1 r' v' hv' hp.2.1 hval hppn)
  · rw [hs.2]

theorem Target.freelist (hs : Target x r v g s s₁) (h : Inv .cow s x) :
    s₁.freelist.length + (if s.needsCopy r v then 1 else 0) = s.freelist.length := by
  unfold Target at hs
  unfold Memory.needsCopy
  split at hs
  · rename_i hrsw
    rw [← hs.freelist]
    simp only [hrsw, Bool.true_and, bne_iff_ne, ne_eq, h.refcnt_eq_one]
    split <;> simp_all
  · rename_i hrsw
    simp [hs.2, hrsw]

/-! ## Loads by others -/

theorem Inv.load_of_userPage {va : Nat} (h : Inv .cow s x) (hp : s.UserPage r (va / PGSIZE)) :
    s.load r va = some (s.mem ((s.pte r (va / PGSIZE)).pa + va % PGSIZE)) := by
  obtain ⟨t, hr⟩ := live_of_valid hp.2.1
  unfold Memory.load
  rw [lookup_eq (h.shape r t hr) hr, if_pos ⟨lt_maxva_of_user hp.1, hp.2.1⟩]
  exact if_pos ⟨hp.2.2, (h.leaf r _ hp.1 hp.2.1).readable⟩

theorem Inv.load_eq_none {va : Nat} (h : Inv .cow s x) (htop : s.Live r → Topped s r)
    (hp : ¬ s.UserPage r (va / PGSIZE)) : s.load r va = none := by
  unfold Memory.load
  cases hr : s.pgtbl r with
  | none => simp [Memory.lookup, hr]
  | some t =>
      rw [lookup_eq (h.shape r t hr) hr]
      split
      · rename_i hval
        refine if_neg fun hu => hp ?_
        exact userPage_of_u (htop (by rw [Memory.Live, hr]; rfl)) hval.1 hval.2 hu.1
      · rfl

/-- The memory after `copyout` has written to the frame. -/
def Memory.written (s : Memory) (g off : Nat) (src : Nat → UInt8) (n : Nat) : Memory :=
  { s with mem := write s.mem (g * PGSIZE + off) src n }

omit [Layout] in
theorem written_of_ne {off n a : Nat} {src : Nat → UInt8} (hn : off + n ≤ PGSIZE) (hoff : off < PGSIZE)
    (ha : a / PGSIZE ≠ g) : (s.written g off src n).mem a = s.mem a := by
  have hmod : (g * PGSIZE + off) % PGSIZE = off := by
    rw [Nat.mul_add_mod_self_right, Nat.mod_eq_of_lt hoff]
  have hdiv : (g * PGSIZE + off) / PGSIZE = g := by
    rw [Nat.add_comm, Nat.add_mul_div_right _ _ PGSIZE_pos, Nat.div_eq_of_lt hoff, Nat.zero_add]
  exact write_of_div_ne (by rwa [hmod]) (by rwa [hdiv])

/-- Assumptions of a round: `copyout` writes `n` bytes to the page `v` of `r`. -/
structure Round (x : Nat → Nat) (r v g off n : Nat) (s s₁ : Memory) : Prop where
  inv : Inv .cow s x
  live : s.Live r
  topped : ∀ pt, s.Live pt → Topped s pt
  page : s.UserPage r v
  target : Target x r v g s s₁
  off_lt : off < PGSIZE
  fits : off + n ≤ PGSIZE

variable {off n : Nat} {src : Nat → UInt8}

theorem Round.kept (h : Round x r v g off n s s₁) (src : Nat → UInt8) :
    Inv .cow (s₁.written g off src n) x ∧ Kept s (s₁.written g off src n) := by
  obtain ⟨t, hr⟩ := Option.isSome_iff_exists.mp h.live
  obtain ⟨h₁, hk⟩ := h.target.kept h.inv hr h.page.1
  exact ⟨h₁.setMem _, hk.trans (.of_pgtbl rfl id)⟩

theorem Round.topped_after (h : Round x r v g off n s s₁) {pt : Nat}
    (hlive : (s₁.written g off src n).Live pt) : Topped (s₁.written g off src n) pt := by
  obtain ⟨_, hk⟩ := h.kept src
  exact (h.topped pt (hk.live_iff.mp hlive)).kept hk

theorem Round.pte_other (h : Round x r v g off n s s₁) {r' v' : Nat} (hne : (r', v') ≠ (r, v)) :
    (s₁.written g off src n).pte r' v' = s.pte r' v' := by
  obtain ⟨t, hr⟩ := Option.isSome_iff_exists.mp h.live
  exact h.target.pte_other hr hne

theorem Round.userPage_iff (h : Round x r v g off n s s₁) {r' v' : Nat} (hne : (r', v') ≠ (r, v)) :
    (s₁.written g off src n).UserPage r' v' ↔ s.UserPage r' v' := by
  unfold Memory.UserPage
  rw [h.pte_other hne]

/-- A frame that was mapped and is not the one written to. -/
theorem Round.mem_other (h : Round x r v g off n s s₁) {r' v' a : Nat} (hv' : v' < UPAGES)
    (hval : (s.pte r' v').v = true) (ha : a / PGSIZE = (s.pte r' v').ppn)
    (hne : (s.pte r' v').ppn ≠ g) : (s₁.written g off src n).mem a = s.mem a := by
  rw [written_of_ne h.fits h.off_lt (by rwa [ha])]
  exact h.target.mem a (by rw [ha]; exact h.inv.leaf_total hv' hval)

omit [Layout] in
theorem pa_add_mod_div (p : Pte) (va : Nat) : (p.pa + va % PGSIZE) / PGSIZE = p.ppn :=
  page_mem_div p (offset va)

/-- What is read in another page, unless its frame is the one written to. -/
theorem Round.load_of_ne (h : Round x r v g off n s s₁) {r' va : Nat}
    (hpair : (r', va / PGSIZE) ≠ (r, v))
    (hne : s.UserPage r' (va / PGSIZE) → (s.pte r' (va / PGSIZE)).ppn ≠ g) :
    (s₁.written g off src n).load r' va = s.load r' va := by
  obtain ⟨h₂, _⟩ := h.kept src
  by_cases hp : s.UserPage r' (va / PGSIZE)
  · rw [h.inv.load_of_userPage hp, h₂.load_of_userPage ((h.userPage_iff hpair).mpr hp),
      h.pte_other hpair, h.mem_other hp.1 hp.2.1 (pa_add_mod_div _ va) (hne hp)]
  · rw [h.inv.load_eq_none (h.topped r') hp, h₂.load_eq_none h.topped_after]
    exact fun hp' => hp ((h.userPage_iff hpair).mp hp')

/-- A round changes one page. -/
theorem Round.load_other (h : Round x r v g off n s s₁) {r' va : Nat} (hva : va / PGSIZE ≠ v) :
    (s₁.written g off src n).load r' va = s.load r' va := by
  obtain ⟨t, hr⟩ := Option.isSome_iff_exists.mp h.live
  refine h.load_of_ne (fun heq => hva (congrArg Prod.snd heq)) ?_
  exact fun hp => h.target.frame_ne h.inv hr h.page hp.1 hp.2.1 hva

omit [Layout] in
theorem addr_div {i : Nat} (hoff : off + i < PGSIZE) : (v * PGSIZE + (off + i)) / PGSIZE = v := by
  rw [Nat.add_comm, Nat.add_mul_div_right _ _ PGSIZE_pos, Nat.div_eq_of_lt hoff, Nat.zero_add]

omit [Layout] in
theorem addr_mod {i : Nat} (hoff : off + i < PGSIZE) :
    (v * PGSIZE + (off + i)) % PGSIZE = off + i := by
  rw [Nat.mul_add_mod_self_right, Nat.mod_eq_of_lt hoff]

omit [Layout] in
theorem written_mem {o : Nat} (ho : off ≤ o ∧ o < off + n) :
    (s.written g off src n).mem (g * PGSIZE + o) = src (o - off) := by
  refine (if_pos (by omega)).trans ?_
  congr 1
  omega

omit [Layout] in
theorem written_mem_of_not {o : Nat} (ho : ¬ (off ≤ o ∧ o < off + n)) :
    (s.written g off src n).mem (g * PGSIZE + o) = s.mem (g * PGSIZE + o) :=
  if_neg (by omega)

/-- If the target frame is also another table's, the page was not marked and not writable. -/
theorem Round.plain_of_shared (h : Round x r v g off n s s₁) {r' v' : Nat} (hr' : r' ≠ r)
    (hp : s.UserPage r' v') (hg : (s.pte r' v').ppn = g) :
    v' = v ∧ (s.pte r v).w = false ∧ (s.pte r v).rsw = false ∧ g = (s.pte r v).ppn ∧ s₁ = s := by
  obtain ⟨t, hr⟩ := Option.isSome_iff_exists.mp h.live
  have hv' : v' = v := by
    by_contra hne
    exact h.target.frame_ne h.inv hr h.page hp.1 hp.2.1 hne hg
  subst hv'
  have hpair : (r', v') ≠ (r, v') := fun heq => hr' (congrArg Prod.fst heq)
  have htarget := h.target
  unfold Target at htarget
  split at htarget
  · -- The frame of a separated page has one reference.
    have hself := htarget.pte_self hr
    have hone := htarget.one
    have hval : (s₁.pte r v').v = true := by rw [hself]; exact h.page.2.1
    have hsole := htarget.inv.sole_of_one h.page.1 hval (by rw [hself]; exact hone)
    refine absurd (hsole r' v' hp.1 ?_ ?_) hpair
    · rw [htarget.pte_other hr hpair]
      exact hp.2.1
    · rw [htarget.pte_other hr hpair, hself, hg]
      rfl
  · rename_i hrsw
    refine ⟨rfl, ?_, by simpa using hrsw, htarget⟩
    by_contra hw
    have hleaf := h.inv.leaf r v' h.page.1 h.page.2.1
    have hsole := h.inv.sole_of_one h.page.1 h.page.2.1 (hleaf.write (by simpa using hw)).2
    exact hpair (hsole r' v' hp.1 hp.2.1 (hg.trans htarget.1))

/-- A round disturbs nobody unless it leaks a byte. -/
theorem Round.undisturbed_iff (h : Round x r v g off n s s₁) :
    Undisturbed r s (s₁.written g off src n) ↔
      ¬ ∃ i < n, LeaksAt s r (v * PGSIZE + (off + i)) (src i) := by
  obtain ⟨h₂, _⟩ := h.kept src
  constructor
  · rintro hund ⟨i, hi, hw, hrsw, ⟨r', hr', hp, hppn⟩, hbyte⟩
    have hin : off + i < PGSIZE := by have := h.fits; omega
    have hpair : (r', v) ≠ (r, v) := fun heq => hr' (congrArg Prod.fst heq)
    have hload := hund r' hr' (v * PGSIZE + (off + i))
    have htarget := h.target
    rw [addr_div hin] at hw hrsw hp hppn hbyte
    rw [Target, if_neg (by simp [hrsw])] at htarget
    rw [h.inv.load_of_userPage (by rwa [addr_div hin]), h₂.load_of_userPage
      (by rw [addr_div hin]; exact (h.userPage_iff hpair).mpr hp), addr_div hin, addr_mod hin,
      h.pte_other hpair, Pte.pa, hppn, ← htarget.1, written_mem (by omega),
      Nat.add_sub_cancel_left] at hload
    rw [addr_mod hin, Pte.pa, ← htarget.1] at hbyte
    exact hbyte (Option.some.inj hload)
  · intro hleak r' hr' va
    by_cases hshared : s.UserPage r' (va / PGSIZE) ∧ (s.pte r' (va / PGSIZE)).ppn = g
    · obtain ⟨hp, hg⟩ := hshared
      obtain ⟨hva, hw, hrsw, hframe, hs₁⟩ := h.plain_of_shared hr' hp hg
      have hpair : (r', va / PGSIZE) ≠ (r, v) := fun heq => hr' (congrArg Prod.fst heq)
      rw [h.inv.load_of_userPage hp, h₂.load_of_userPage ((h.userPage_iff hpair).mpr hp),
        h.pte_other hpair, Pte.pa, hg]
      by_cases ho : off ≤ va % PGSIZE ∧ va % PGSIZE < off + n
      · -- The byte that is written is the byte that was there.
        rw [written_mem ho]
        by_contra hne
        have haddr : v * PGSIZE + (off + (va % PGSIZE - off)) = va := by
          rw [Nat.add_sub_cancel' ho.1, ← hva, Nat.div_add_mod']
        refine hleak ⟨va % PGSIZE - off, by omega, ?_⟩
        rw [haddr, LeaksAt, hva, ← hframe]
        refine ⟨hw, hrsw, ⟨r', hr', hva ▸ hp, hva ▸ hg⟩, fun heq => hne ?_⟩
        rw [heq, Pte.pa, ← hframe]
      · rw [written_mem_of_not ho, hs₁]
    · refine h.load_of_ne (fun heq => hr' (congrArg Prod.fst heq)) ?_
      exact fun hp hg => hshared ⟨hp, hg⟩

/-! ## The condition after a round -/

theorem Round.leaksAt_iff (h : Round x r v g off n s s₁) {va : Nat} {b : UInt8}
    (hva : va / PGSIZE ≠ v) :
    LeaksAt (s₁.written g off src n) r va b ↔ LeaksAt s r va b := by
  obtain ⟨t, hr⟩ := Option.isSome_iff_exists.mp h.live
  have hpte : ∀ r', (s₁.written g off src n).pte r' (va / PGSIZE) = s.pte r' (va / PGSIZE) :=
    fun r' => h.pte_other fun heq => hva (congrArg Prod.snd heq)
  have huser : ∀ r', (s₁.written g off src n).UserPage r' (va / PGSIZE) ↔
      s.UserPage r' (va / PGSIZE) :=
    fun r' => h.userPage_iff fun heq => hva (congrArg Prod.snd heq)
  unfold LeaksAt
  simp only [hpte, huser]
  refine and_congr_right fun _ => and_congr_right fun _ => and_congr_right ?_
  rintro ⟨r', _, hp, hppn⟩
  rw [h.mem_other hp.1 hp.2.1 (by rw [hppn, pa_add_mod_div])
    (h.target.frame_ne h.inv hr h.page hp.1 hp.2.1 hva)]

theorem Round.needsCopy_eq (h : Round x r v g off n s s₁) {v' : Nat} (hp : s.UserPage r v')
    (hne : v' ≠ v) : (s₁.written g off src n).needsCopy r v' = s.needsCopy r v' := by
  obtain ⟨t, hr⟩ := Option.isSome_iff_exists.mp h.live
  have hcount : (s₁.written g off src n).refcnt (s.pte r v').ppn = s.refcnt (s.pte r v').ppn :=
    h.target.refcnt_other h.inv hr h.page hp.1 hp.2.1 hne
  unfold Memory.needsCopy
  rw [h.pte_other fun heq => hne (congrArg Prod.snd heq), hcount]

theorem Round.reaches_iff (h : Round x r v g off n s s₁) (k : Nat) :
    s.Reaches r v (k + 1) ↔ (s₁.written g off src n).Reaches r (v + 1) k := by
  have hfree : (s₁.written g off src n).freelist.length + (if s.needsCopy r v then 1 else 0) =
      s.freelist.length := h.target.freelist h.inv
  have hshift : ∀ j, v + 1 + j = v + (j + 1) := fun j => by omega
  have hpages : (∀ j ≤ k + 1, s.UserPage r (v + j)) ↔
      ∀ j ≤ k, (s₁.written g off src n).UserPage r (v + 1 + j) := by
    constructor
    · intro hall j hj
      rw [hshift, h.userPage_iff fun heq => by have := congrArg Prod.snd heq; simp at this]
      exact hall (j + 1) (by omega)
    · intro hall j hj
      cases j with
      | zero => exact h.page
      | succ j =>
          have hp := hall j (by omega)
          rwa [hshift, h.userPage_iff fun heq => by have := congrArg Prod.snd heq; simp at this] at hp
  unfold Memory.Reaches
  rw [← hpages]
  apply and_congr_right
  intro hall
  have hcount : (List.range (k + 1)).countP (fun j => s.needsCopy r (v + j)) =
      (if s.needsCopy r v then 1 else 0) +
        (List.range k).countP fun j => (s₁.written g off src n).needsCopy r (v + 1 + j) := by
    rw [List.range_succ_eq_map, List.countP_cons, List.countP_map, Nat.add_comm]
    congr 1
    apply List.countP_congr
    intro j hj
    have hj' := List.mem_range.mp hj
    rw [Function.comp_apply, hshift, h.needsCopy_eq (hall (j + 1) (by omega)) (by omega)]
  rw [hcount, ← hfree]
  omega

theorem Round.leaks_iff (h : Round x r v g off n s s₁) (src : Nat → UInt8) {len : Nat}
    (hn : n = min (PGSIZE - off) len) :
    Leaks s r (v * PGSIZE + off) src len ↔
      (∃ i < n, LeaksAt s r (v * PGSIZE + (off + i)) (src i)) ∨
        Leaks (s₁.written g off src n) r ((v + 1) * PGSIZE) (fun i => src (i + n)) (len - n) := by
  have hoff := h.off_lt
  have hv : (v * PGSIZE + off) / PGSIZE = v := addr_div (i := 0) hoff
  have hv₂ : (v + 1) * PGSIZE / PGSIZE = v + 1 := frame_div (v + 1)
  have hzero : s.Reaches r v 0 := ⟨fun j hj => by rw [Nat.le_zero.mp hj]; exact h.page, by simp⟩
  -- Bytes after the first page: the same in both states.
  have hrest : ∀ i, n + i < len →
      ((s.Reaches r v ((v * PGSIZE + off + (n + i)) / PGSIZE - v) ∧
        LeaksAt s r (v * PGSIZE + off + (n + i)) (src (n + i))) ↔
      ((s₁.written g off src n).Reaches r (v + 1) (((v + 1) * PGSIZE + i) / PGSIZE - (v + 1)) ∧
        LeaksAt (s₁.written g off src n) r ((v + 1) * PGSIZE + i) (src (n + i)))) := by
    intro i hi
    have haddr : v * PGSIZE + off + (n + i) = (v + 1) * PGSIZE + i := by
      rw [Nat.succ_mul]
      omega
    have hpage : v + 1 ≤ ((v + 1) * PGSIZE + i) / PGSIZE := by
      rw [Nat.le_div_iff_mul_le PGSIZE_pos]
      omega
    have hk : ((v + 1) * PGSIZE + i) / PGSIZE - v = ((v + 1) * PGSIZE + i) / PGSIZE - (v + 1) + 1 := by
      omega
    rw [haddr, hk, h.reaches_iff, h.leaksAt_iff (by omega)]
  have hsrc : ∀ j, src (n + j) = (fun i => src (i + n)) j := fun j => by simp only [Nat.add_comm]
  unfold Leaks
  rw [hv, hv₂]
  constructor
  · rintro ⟨i, hi, hreach, hleak⟩
    by_cases hin : i < n
    · exact .inl ⟨i, hin, by rwa [← Nat.add_assoc]⟩
    · obtain ⟨j, rfl⟩ := Nat.exists_eq_add_of_le (Nat.le_of_not_lt hin)
      have hj := (hrest j hi).mp ⟨hreach, hleak⟩
      rw [hsrc] at hj
      exact .inr ⟨j, by omega, hj⟩
  · rintro (⟨i, hi, hleak⟩ | ⟨j, hj, hreach, hleak⟩)
    · have hin : off + i < PGSIZE := by have := h.fits; omega
      refine ⟨i, by omega, ?_, by rwa [Nat.add_assoc]⟩
      rw [Nat.add_assoc, addr_div hin, Nat.sub_self]
      exact hzero
    · rw [← hsrc] at hleak
      exact ⟨n + j, by omega, (hrest j (by omega)).mpr ⟨hreach, hleak⟩⟩

/-! ## All rounds -/

omit [Layout] in
theorem undisturbed_setOom : Undisturbed r s { s with oom := true } := fun _ _ _ => rfl

omit [Layout] in
theorem not_leaks_zero (dstva : Nat) (src : Nat → UInt8) : ¬ Leaks s r dstva src 0 := by
  rintro ⟨i, hi, _⟩
  exact Nat.not_lt_zero i hi

omit [Layout] in
/-- A loop that finds no frame for its first page reaches no page that leaks: the first one
    is marked, and the others are not reached. -/
theorem not_leaks_of_full {dstva len : Nat} (src : Nat → UInt8)
    (hv : dstva / PGSIZE = v) (hrsw : (s.pte r v).rsw = true) (hneeds : s.needsCopy r v = true)
    (hfree : s.freelist = []) : ¬ Leaks s r dstva src len := by
  rintro ⟨i, _, hreach, hleak⟩
  rw [hv] at hreach
  cases hk : (dstva + i) / PGSIZE - v with
  | zero =>
      have hle : v ≤ (dstva + i) / PGSIZE := hv ▸ Nat.div_le_div_right (Nat.le_add_right _ _)
      have hpage : (dstva + i) / PGSIZE = v := by omega
      have hplain := hleak.2.1
      rw [hpage, hrsw] at hplain
      cases hplain
  | succ k =>
      have hcopies := hreach.2
      rw [hk, List.range_succ_eq_map, List.countP_cons, hfree] at hcopies
      simp [hneeds] at hcopies

/-- The rounds after the first do not undo what it did to others. -/
theorem Round.undisturbed_split {g off n : Nat} {s₁ : Memory} (h : Round x r v g off n s s₁)
    (src : Nat → UInt8)
    (hbelow : ∀ pt' ≠ r, ∀ va, va / PGSIZE < v + 1 →
      s'.load pt' va = (s₁.written g off src n).load pt' va) :
    Undisturbed r s s' ↔ Undisturbed r s (s₁.written g off src n) ∧
      Undisturbed r (s₁.written g off src n) s' := by
  constructor
  · intro hund
    have hfirst : Undisturbed r s (s₁.written g off src n) := by
      intro pt' hpt' va
      by_cases hva : va / PGSIZE = v
      · exact (hbelow pt' hpt' va (by omega)).symm.trans (hund pt' hpt' va)
      · exact h.load_other hva
    exact ⟨hfirst, fun pt' hpt' va => (hund pt' hpt' va).trans (hfirst pt' hpt' va).symm⟩
  · rintro ⟨hfirst, hrest⟩ pt' hpt' va
    exact (hrest pt' hpt' va).trans (hfirst pt' hpt' va)

/-- The loop changes nothing below the first page, and disturbs nobody unless the range
    leaks. -/
theorem wp_copyoutLoop_undisturbed {fuel len : Nat} (dstva : Nat) (src : Nat → UInt8)
    (h : Inv .cow s x) (hlive : s.Live r) (htops : ∀ pt, s.Live pt → Topped s pt) (hfuel : len ≤ fuel) :
    wp (copyoutLoop .cow r fuel dstva src len) (fun _ s' =>
      (∀ pt' ≠ r, ∀ va, va / PGSIZE < dstva / PGSIZE → s'.load pt' va = s.load pt' va) ∧
      (Undisturbed r s s' ↔ ¬ Leaks s r dstva src len)) (fun _ _ => False) s := by
  induction fuel generalizing s dstva src len with
  | zero =>
      obtain rfl : len = 0 := Nat.le_zero.mp hfuel
      exact ⟨fun _ _ _ _ => rfl, iff_of_true (fun _ _ _ => rfl) (not_leaks_zero dstva src)⟩
  | succ fuel ih =>
      obtain ⟨t, hr⟩ := Option.isSome_iff_exists.mp hlive
      by_cases hlen : len = 0
      · subst hlen
        exact ⟨fun _ _ _ _ => rfl, iff_of_true (fun _ _ _ => rfl) (not_leaks_zero dstva src)⟩
      · obtain ⟨v, hv⟩ : ∃ v, dstva / PGSIZE = v := ⟨_, rfl⟩
        obtain ⟨n, hn⟩ : ∃ n, n = min (PGSIZE - dstva % PGSIZE) len := ⟨_, rfl⟩
        have hoff := Nat.mod_lt dstva PGSIZE_pos
        refine wp_copyoutLoop_succ h hr (htops r hlive) hlen hv hn ?_ ?_ ?_
        · intro hp
          -- The first page is not reached.
          refine ⟨fun _ _ _ _ => rfl, iff_of_true (fun _ _ _ => rfl) ?_⟩
          rintro ⟨i, _, hreach, _⟩
          refine hp ?_
          have hfirst := hreach.1 0 (Nat.zero_le _)
          rwa [hv, Nat.add_zero] at hfirst
        · intro hp hrsw hcount hfree
          have hneeds : s.needsCopy r v = true := by
            simp [Memory.needsCopy, hrsw, h.refcnt_eq_one, hcount]
          exact ⟨fun _ _ _ _ => rfl,
            iff_of_true undisturbed_setOom (not_leaks_of_full src hv hrsw hneeds hfree)⟩
        · intro g s₁ hp hs
          have hround : Round x r v g (dstva % PGSIZE) n s s₁ :=
            ⟨h, hlive, htops, hp, hs, hoff, by omega⟩
          obtain ⟨h₂, hk₂⟩ := hround.kept src
          refine (ih _ _ h₂ (hk₂.live_iff.mpr hlive) (fun pt => hround.topped_after)
            (by omega)).mono ?_ fun _ _ => id
          intro _ s' hs
          obtain ⟨hbelow, hiff⟩ := hs
          rw [frame_div] at hbelow
          refine ⟨?_, ?_⟩
          · intro pt' hpt' va hva
            rw [hbelow pt' hpt' va (by omega)]
            exact hround.load_other (by omega)
          · have hdst : dstva = v * PGSIZE + dstva % PGSIZE := by rw [← hv, Nat.div_add_mod']
            have hleaks := hround.leaks_iff src hn
            rw [← hdst] at hleaks
            rw [hround.undisturbed_split src hbelow, hround.undisturbed_iff, hiff, hleaks, not_or]

/-- In every reachable state, `copyout` leaves what all other processes read unchanged if
    and only if it does not reach an unmarked read-only page that is shared. -/
theorem copyout_undisturbed_iff {k : Kernel} (h : kernel.Reachable k) {pt dstva len : Nat}
    {src : Nat → UInt8} (hpt : k.mem.Live pt) :
    Undisturbed pt k.mem (exec (copyout .cow pt dstva src len) k.mem).2 ↔
      ¬ Leaks k.mem pt dstva src len := by
  have hk := kInv_of_reachable h
  have hwp := wp_copyoutLoop_undisturbed dstva src hk.inv hpt hk.topped (Nat.le_refl len)
  unfold copyout
  cases hrun : exec (copyoutLoop .cow pt len dstva src len) k.mem with
  | mk res s' =>
      cases res with
      | ok b => exact (hwp.ok hrun).2
      | error e => exact (hwp.error hrun).elim

omit [Layout] in
/-- The page at 0 is marked, so the child does not see what the kernel writes for the
    parent. -/
theorem copyout_undisturbed_iff_forked :
    Undisturbed 557054 forked.mem
      (exec (@copyout tinyLayout .cow 557054 0 (fun _ => 1) 1) forked.mem).2 := by
  let := tinyLayout
  refine (copyout_undisturbed_iff forked_reachable (by decide +kernel)).mpr ?_
  rintro ⟨i, hi, _, hleak⟩
  obtain rfl : i = 0 := by omega
  have hrsw : (forked.mem.pte 557054 0).rsw = true := by decide +kernel
  have hplain : (forked.mem.pte 557054 0).rsw = false := hleak.2.1
  rw [hrsw] at hplain
  cases hplain

omit [Layout] in
/-- The page at 4096 is read-only, and the child reads what the kernel writes for the
    parent. -/
theorem copyout_disturbs_forked : (@kernel tinyLayout).Reachable forked ∧
    ¬ Undisturbed 557054 forked.mem
      (exec (@copyout tinyLayout .cow 557054 4096 (fun _ => 1) 1) forked.mem).2 := by
  refine ⟨forked_reachable, ?_⟩
  intro hund
  have hload := hund 557046 (by decide) 4096
  have hbefore : forked.mem.load 557046 4096 = some 0 := by decide +kernel
  have hafter : (exec (@copyout tinyLayout .cow 557054 4096 (fun _ => 1) 1) forked.mem).2.load
      557046 4096 = some 1 := by decide +kernel
  rw [hbefore, hafter] at hload
  cases hload

end Vm
