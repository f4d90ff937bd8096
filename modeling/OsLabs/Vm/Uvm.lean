-- SUMMARY: Specifications of growing, shrinking and copying an address space: what each does to the space, and that failures undo what was done.
import OsLabs.Vm.Walk

/-!
# Growing, shrinking and copying address spaces

All specifications are about both kernels. They agree because a page table is seen
through the address space that it represents: copying a page and sharing it read-only
give the child the same page.
-/

namespace Vm

open Effect

variable [Layout] {κ : Version} {s s' : Memory} {x : Nat → Nat} {r v n : Nat} {t : Pagetable}
variable {E : Panic → Memory → Prop}

/-! ## Unmapping a range -/

/-- `uvmunmap` on user pages. Where the range goes beyond them, nothing is mapped. -/
theorem wp_uvmunmap {Q : Unit → Memory → Prop} (h : Inv κ s x) (hr : s.pgtbl r = some t)
    (hrange : v + n ≤ UPAGES ∨ ∀ w, UPAGES ≤ w → (s.pte r w).v = false)
    (hok : ∀ s', Inv κ s' x → Kept s s' →
      s'.space = Function.update s.space r ((s.space r).fill v n none) → Q () s')
    (hE : ∀ e s', e ≠ .kfree → (∃ w, v ≤ w ∧ w < v + n ∧ s.space r w = none) → E e s') :
    wp (uvmunmap κ r (v * PGSIZE) n true) Q E s := by
  unfold uvmunmap
  rw [if_neg (by simp)]
  refine wp_upto_of (fun i s' => Inv κ s' x ∧ Kept s s' ∧
      s'.space = Function.update s.space r ((s.space r).fill v i none))
    ⟨h, .refl s, by rw [Space.fill_zero, Function.update_eq_self]⟩
    (fun i hi s' ⟨h', hk, hsp⟩ => ?_) fun s' ⟨h', hk, hsp⟩ => hok s' h' hk hsp
  obtain ⟨t', hr'⟩ := hk.live_of hr
  rw [← Nat.add_mul]
  refine wp_unmapPage h' hr' ?_ ?_ ?_
  · by_cases hv : v + i < UPAGES
    · exact .inl hv
    · refine .inr ?_
      rw [(hk.top r (v + i) (by omega)).1]
      exact hrange.resolve_left (by omega) _ (by omega)
  · intro s'' h'' hk' _ hsp'
    refine ⟨h'', hk.trans hk', ?_⟩
    rw [hsp', hsp, Function.update_self, Function.update_idem, Space.fill_succ]
  · intro e s'' he hnone
    refine hE e s'' he ⟨v + i, by omega, by omega, ?_⟩
    rw [hsp, Function.update_self] at hnone
    simpa [Space.fill] using hnone

/-! ## Sizes -/

/-- The number of pages of a process of size `sz`. -/
def npages (sz : Nat) : Nat := pgroundup sz / PGSIZE

omit [Layout] in
theorem pgroundup_eq (sz : Nat) : pgroundup sz = npages sz * PGSIZE := by
  rw [npages, pgroundup, pgrounddown, frame_div]

omit [Layout] in
theorem npages_page {v : Nat} (h : v * PGSIZE ≤ MAXVA) : npages (v * PGSIZE) = v := by
  rw [npages, pgroundup_of_le h]
  simp only [PGSIZE]
  omega

omit [Layout] in
theorem npages_of_le {sz : Nat} (h : sz ≤ MAXVA) : npages sz = (sz + 4095) / 4096 := by
  rw [npages, pgroundup_of_le h]
  exact Nat.mul_div_cancel _ PGSIZE_pos

/-! ## Shrinking -/

theorem wp_uvmdealloc {Q : Nat → Memory → Prop} {oldsz newsz : Nat} (h : Inv κ s x)
    (hr : s.pgtbl r = some t) (hsz : oldsz ≤ MAXVA) (hrange : npages oldsz ≤ UPAGES)
    (hsame : oldsz ≤ newsz → Q oldsz s)
    (hok : newsz < oldsz → ∀ s', Inv κ s' x → Kept s s' →
      s'.space = Function.update s.space r
        ((s.space r).fill (npages newsz) (npages oldsz - npages newsz) none) → Q newsz s')
    (hE : ∀ e s', e ≠ .kfree →
      (∃ w, npages newsz ≤ w ∧ w < npages oldsz ∧ s.space r w = none) → E e s') :
    wp (uvmdealloc κ r oldsz newsz) Q E s := by
  unfold uvmdealloc
  by_cases hge : newsz ≥ oldsz
  · rw [if_pos hge]
    exact hsame hge
  · have hlt : newsz < oldsz := Nat.lt_of_not_le hge
    have hle : npages newsz ≤ npages oldsz := by
      rw [npages_of_le hsz, npages_of_le (by omega)]
      omega
    rw [if_neg hge]
    simp only [pgroundup_eq, wp_ite, wp_bind, wp_pure]
    refine ⟨?_, ?_⟩
    · intro hpages
      have hnum : (npages oldsz * PGSIZE - npages newsz * PGSIZE) / PGSIZE =
          npages oldsz - npages newsz := by
        rw [← Nat.sub_mul, frame_div]
      rw [hnum]
      apply wp_uvmunmap h hr (.inl (by omega)) (hok hlt)
      intro e s' he hmissing
      obtain ⟨w, hw₁, hw₂, hw₃⟩ := hmissing
      exact hE e s' he ⟨w, hw₁, by omega, hw₃⟩
    · intro hpages
      have heq : npages oldsz - npages newsz = 0 := by
        simp only [PGSIZE] at hpages
        omega
      refine hok hlt s h (.refl s) ?_
      rw [heq, Space.fill_zero, Function.update_eq_self]

/-! ## Growing -/

/-- A new page: zeroed and accessible. -/
def Page.zero (w x : Bool) : Page := { r := true, w := w, x := x, u := true, bytes := fun _ => 0 }

/-- The pages that a loop has added are taken away again. -/
theorem wp_undo {Q : Nat → Memory → Prop} {s₀ : Memory} {o : Option Page} (h : Inv κ s x)
    (hk : Kept s₀ s) (hr : s₀.pgtbl r = some t) (hv : n = 0 ∨ v + n ≤ UPAGES)
    (hsp : s.space = Function.update s₀.space r ((s₀.space r).fill v n o)) (ho : o.isSome)
    (hnone : ∀ w, v ≤ w → w < v + n → s₀.space r w = none)
    (hok : ∀ m s', Inv κ s' x → Kept s s' → s'.space = s₀.space → Q m s') :
    wp (uvmdealloc κ r ((v + n) * PGSIZE) (v * PGSIZE)) Q E s := by
  by_cases hn : n = 0
  · subst hn
    unfold uvmdealloc
    rw [if_pos (by simp), wp_pure]
    refine hok _ s h (.refl s) ?_
    rw [hsp, Space.fill_zero, Function.update_eq_self]
  · have hv := hv.resolve_left hn
    obtain ⟨t', hr'⟩ := hk.live_of hr
    have hle : ∀ w, w ≤ UPAGES → w * PGSIZE ≤ MAXVA := by
      intro w hw
      rw [UPAGES_eq] at hw
      rw [MAXVA_eq]
      simp only [PGSIZE]
      omega
    have hold : npages ((v + n) * PGSIZE) = v + n := npages_page (hle (v + n) hv)
    have hnew : npages (v * PGSIZE) = v := npages_page (hle v (by omega))
    refine wp_uvmdealloc h hr' (hle (v + n) hv) (by rwa [hold]) ?_ ?_ ?_
    · intro hge
      simp only [PGSIZE] at hge
      omega
    · intro _ s' h' hk' hsp'
      refine hok _ s' h' hk' ?_
      rw [hsp', hsp, hold, hnew, Nat.add_sub_cancel_left, Function.update_self,
        Function.update_idem]
      refine Function.update_eq_self_iff.mpr ?_
      funext w
      unfold Space.fill
      by_cases hw : v ≤ w ∧ w < v + n
      · rw [if_pos hw, hnone w hw.1 hw.2]
      · rw [if_neg hw, if_neg hw]
    · intro e s' _ hmissing
      obtain ⟨w, hw₁, hw₂, hw₃⟩ := hmissing
      rw [hsp, Function.update_self, Space.fill, if_pos (by omega)] at hw₃
      simp [hw₃] at ho

omit [Layout] in
/-- A frame filled with zeros. -/
theorem pageOf_zero (s : Memory) (f : Nat) (w e : Bool) :
    Memory.pageOf { s with mem := memset s.mem (f * PGSIZE) 0 PGSIZE } f (Flags.user w e) =
      Page.zero w e := by
  simp only [Memory.pageOf, Memory.page, Page.zero, Flags.user, Bool.or_false, Page.mk.injEq, true_and]
  funext o
  exact if_pos ⟨Nat.le_add_right _ _, Nat.add_lt_add_left o.isLt _⟩

/-- The loop of `uvmalloc` after `i` rounds, counted from the state `s₀` before them. -/
theorem wp_uvmallocLoop {Q : Bool → Memory → Prop} (s₀ : Memory) {i : Nat} {w e : Bool}
    (h : Inv κ s x) (hk : Kept s₀ s) (hr : s₀.pgtbl r = some t) (htop : Topped s₀ r)
    (hi : i = 0 ∨ v + i ≤ UPAGES) (hnone : ∀ u, v ≤ u → u < v + i → s₀.space r u = none)
    (hsp : s.space = Function.update s₀.space r ((s₀.space r).fill v i (some (Page.zero w e))))
    (hok : ∀ s', Inv κ s' x → Kept s₀ s' → (i + n = 0 ∨ v + (i + n) ≤ UPAGES) →
      s'.space = Function.update s₀.space r
        ((s₀.space r).fill v (i + n) (some (Page.zero w e))) → Q true s')
    (hfail : ∀ s', Inv κ s' x → Kept s₀ s' → s'.space = s₀.space → s'.oom = true → Q false s')
    (hE : ∀ p s', p ≠ .kfree →
      (∃ u, v ≤ u ∧ u < v + (i + n) ∧ ¬ (u < UPAGES ∧ s₀.space r u = none)) → E p s') :
    wp (uvmallocLoop κ r (v * PGSIZE) (Flags.user w e) n ((v + i) * PGSIZE)) Q E s := by
  induction n generalizing s i with
  | zero => exact hok s h hk hi (by simpa using hsp)
  | succ n ih =>
      obtain ⟨t', hr'⟩ := hk.live_of hr
      unfold uvmallocLoop
      rw [wp_bind]
      refine wp_kalloc_inv h ?_ ?_
      · intro _
        -- There is no frame for the page.
        rw [wp_bind]
        apply wp_undo h.setOom (hk.trans .setOom) hr hi (space_setOom.trans hsp) rfl hnone
        intro m s' h' hk' hsp'
        exact hfail s' h' ((hk.trans .setOom).trans hk') hsp' (hk'.oom rfl)
      · intro f s₁ ha
        have ha' : Alloced κ x f s { s₁ with mem := memset s₁.mem (f * PGSIZE) 0 PGSIZE } :=
          ha.fill fun _ => 0
        have hzero := pageOf_zero s₁ f w e
        rw [wp_bind, wp_modify, wp_bind]
        generalize { s₁ with mem := memset s₁.mem (f * PGSIZE) 0 PGSIZE } = s₂ at ha' hzero ⊢
        have hsp₂ := (ha'.space_eq h).trans hsp
        have hat : ∀ o, ((s₀.space r).fill v i o) (v + i) = s₀.space r (v + i) :=
          fun o => if_neg (by omega)
        refine wp_mappages_user ha'.inv (ha'.pgtbl ▸ hr') (htop.kept (hk.trans ha'.kept)) rfl
          (fun _ => ⟨rfl, ha'.one⟩) (fun _ => rfl)
          (fun r' v' hv' hval hppn => absurd hppn (ha'.not_mapped hv' hval))
          ?_ ?_ ?_
        · intro s₃ h₃ hk₃ hlt hnone₃ hsp₃
          rw [if_pos rfl]
          rw [hsp₂, Function.update_self, hat] at hnone₃
          have haddr : (v + i) * PGSIZE + PGSIZE = (v + (i + 1)) * PGSIZE := by
            rw [← Nat.add_assoc, Nat.succ_mul]
          rw [haddr]
          refine ih h₃ ((hk.trans ha'.kept).trans hk₃) (by omega) ?_ ?_ ?_ ?_
          · intro u hu₁ hu₂
            by_cases hu : u = v + i
            · rwa [hu]
            · exact hnone u hu₁ (by omega)
          · rw [hsp₃, hzero, hsp₂, Function.update_self, Function.update_idem, Space.fill_succ]
          · rwa [Nat.add_right_comm i 1 n]
          · rwa [Nat.add_right_comm i 1 n]
        · intro s₃ h₃ hg₃ ho
          rw [if_neg (by decide), wp_bind]
          apply wp_kfree_inv h₃
          intro s₄ h₄ hpt hsp₄ hoom
          have hk₄ : Kept s₀ s₄ := ((hk.trans ha'.kept).trans hg₃.kept).trans
            (.of_pgtbl hpt fun ho' => hoom.trans ho')
          rw [wp_bind]
          refine wp_undo (o := some (Page.zero w e)) h₄ hk₄ hr hi ?_ rfl hnone ?_
          · rw [hsp₄, hg₃.space_eq ha'.inv, hsp₂]
          · intro m s' h' hk' hsp'
            exact hfail s' h' (hk₄.trans hk') hsp' (hk'.oom (hoom.trans ho))
        · intro p s₃ hp hc
          refine hE p s₃ hp ⟨v + i, by omega, by omega, fun hc' => hc ⟨hc'.1, ?_⟩⟩
          rw [hsp₂, Function.update_self, hat]
          exact hc'.2

/-- The number of pages that `uvmalloc` adds. -/
def growth (oldsz newsz : Nat) : Nat := (newsz - pgroundup oldsz + (PGSIZE - 1)) / PGSIZE

theorem wp_uvmalloc {Q : Option Nat → Memory → Prop} {oldsz newsz : Nat} {w e : Bool}
    (h : Inv κ s x) (hr : s.pgtbl r = some t) (htop : Topped s r)
    (hsame : newsz < oldsz → Q (some oldsz) s)
    (hok : oldsz ≤ newsz → ∀ s', Inv κ s' x → Kept s s' →
      (growth oldsz newsz = 0 ∨ npages oldsz + growth oldsz newsz ≤ UPAGES) →
      s'.space = Function.update s.space r
        ((s.space r).fill (npages oldsz) (growth oldsz newsz) (some (Page.zero w e))) →
      Q (some newsz) s')
    (hfail : ∀ s', Inv κ s' x → Kept s s' → s'.space = s.space → s'.oom = true → Q none s')
    (hE : ∀ p s', p ≠ .kfree → (∃ u, npages oldsz ≤ u ∧ u < npages oldsz + growth oldsz newsz ∧
      ¬ (u < UPAGES ∧ s.space r u = none)) → E p s') :
    wp (uvmalloc κ r oldsz newsz w e) Q E s := by
  unfold uvmalloc
  by_cases hlt : newsz < oldsz
  · rw [if_pos hlt]
    exact hsame hlt
  · rw [if_neg hlt]
    simp only [wp_bind, pgroundup_eq]
    have hloop := wp_uvmallocLoop s (i := 0) (n := growth oldsz newsz) (v := npages oldsz)
      (w := w) (e := e) (E := E)
      (Q := fun b s' => wp (if b = true then pure (some newsz) else pure none) Q E s')
      h (.refl s) hr htop (.inl rfl) (by omega)
      (by rw [Space.fill_zero, Function.update_eq_self]) ?_ ?_ ?_
    · rw [growth, pgroundup_eq, Nat.add_zero] at hloop
      exact hloop
    · intro s' h' hk' hn hsp
      rw [Nat.zero_add] at hn hsp
      exact hok (Nat.le_of_not_lt hlt) s' h' hk' hn hsp
    · exact fun s' h' hk' hsp ho => hfail s' h' hk' hsp ho
    · intro p s' hp hc
      rw [Nat.zero_add] at hc
      exact hE p s' hp hc

/-! ## Copying -/

/-- The first `n` pages of `τ`, and `σ` beyond them. -/
def Space.copyFrom (σ τ : Space) (n : Nat) : Space := fun u => if u < n then τ u else σ u

omit [Layout] in
theorem Space.copyFrom_zero (σ τ : Space) : σ.copyFrom τ 0 = σ := by
  funext u
  exact if_neg (Nat.not_lt_zero u)

omit [Layout] in
theorem Space.copyFrom_succ (σ τ : Space) (n : Nat) :
    σ.copyFrom τ (n + 1) = Function.update (σ.copyFrom τ n) n (τ n) := by
  funext u
  by_cases hu : u = n
  · subst hu
    simp [Space.copyFrom]
  · rw [Function.update_of_ne hu]
    simp only [Space.copyFrom, show u < n + 1 ↔ u < n by omega]

/-- The entry that `uvmcopy` of the patched kernel gives to both parent and child. -/
def Pte.shared (p : Pte) : Pte := if p.w then { p with rsw := true, w := false } else p

omit [Layout] in
theorem Pte.shared_w (p : Pte) : p.shared.w = false := by
  unfold Pte.shared
  split <;> simp_all

omit [Layout] in
theorem Pte.shared_v (p : Pte) : p.shared.v = p.v := by
  unfold Pte.shared
  split <;> rfl

omit [Layout] in
theorem Pte.shared_r (p : Pte) : p.shared.r = p.r := by
  unfold Pte.shared
  split <;> rfl

omit [Layout] in
theorem Pte.shared_ppn (p : Pte) : p.shared.ppn = p.ppn := by
  unfold Pte.shared
  split <;> rfl

omit [Layout] in
/-- Sharing does not show in the page. -/
theorem page_shared (s : Memory) (p : Pte) : s.page p.shared = s.page p := by
  unfold Pte.shared
  split
  · rename_i hw
    simp [Memory.page, hw]
  · rfl

/-- The copy of a frame has the bytes of the frame. -/
theorem memmove_frame {f g o : Nat} (ha : Alloced κ x f s s') (hg : s.total x g ≠ 0)
    (ho : o < PGSIZE) :
    memmove s'.mem (f * PGSIZE) (g * PGSIZE) PGSIZE (f * PGSIZE + o) = s.mem (g * PGSIZE + o) := by
  have hin : f * PGSIZE ≤ f * PGSIZE + o ∧ f * PGSIZE + o < f * PGSIZE + PGSIZE :=
    ⟨Nat.le_add_right _ _, Nat.add_lt_add_left ho _⟩
  have hdiv : (g * PGSIZE + o) / PGSIZE = g := by
    rw [Nat.add_comm, Nat.add_mul_div_right _ _ PGSIZE_pos, Nat.div_eq_of_lt ho, Nat.zero_add]
  rw [memmove, write, if_pos hin, Nat.add_sub_cancel_left]
  exact ha.mem _ (by rwa [hdiv])

/-- Marking an entry as shared. -/
theorem Inv.markShared (h : Inv .cow s x) (hr : s.pgtbl r = some t) (hv : v < UPAGES)
    (hval : (t.pte v).v = true) :
    Moved .cow s x (s.setPte r v (t.pte v).shared) x ∧
      (s.setPte r v (t.pte v).shared).space = s.space := by
  have hleaf := h.leaf r v hv (by rwa [pte_of_some hr])
  rw [pte_of_some hr] at hleaf
  refine ⟨h.reflag hr hv hval (by rwa [Pte.shared_v]) (Pte.shared_ppn _) ⟨?_, ?_, by simp⟩, ?_⟩
  · rw [Pte.shared_r]
    exact hleaf.readable
  · simp [Pte.shared_w]
  · rw [space_setPte hr hv, Pte.shared_v, if_pos hval, page_shared]
    refine update_space_self _ _ _ _ ?_
    rw [space_of_valid hv (by rwa [pte_of_some hr]), pte_of_some hr]

/-- Mapping a frame into a second table: first the entry, then the count. -/
theorem wp_mapShared {Q : CopyRes → Memory → Prop} (old : Nat) {new f : Nat} {perm : Flags}
    (h : Inv .cow s x) (hv : v < UPAGES) (hval : (s.pte old v).v = true)
    (hw : (s.pte old v).w = false) (hf : (s.pte old v).ppn = f) (hn : s.pgtbl new = some t)
    (hread : perm.r = true) (hperm : perm.w = false)
    (hok : ∀ s', Inv .cow s' x → Kept s s' → s.space new v = none →
      s'.space = Function.update s.space new
        (Function.update (s.space new) v (some (s.pageOf f perm))) → Q .ok s')
    (herr : ∀ s', Inv .cow s' x → Kept s s' → s'.space = s.space → s'.oom = true → Q .err s')
    (hE : ∀ e s', e ≠ .kfree → s.space new v ≠ none → E e s') :
    wp (do
      if ← mappages .cow new (v * PGSIZE) PGSIZE (f * PGSIZE) perm then
        if ← addrefcnt (f * PGSIZE) then return CopyRes.ok else return CopyRes.badRef
      else return CopyRes.err) Q E s := by
  have hpos : s.total x f ≠ 0 := hf ▸ h.leaf_total hv hval
  rw [wp_bind]
  refine wp_mappages h hn ?_ (fun s' h' hg ho => herr s' h' hg.kept (hg.space_eq h) ho) ?_
  · intro s' t' h' hg hn' hup hva hinv
    rw [if_pos rfl, frame_div, wp_bind]
    refine wp_addrefcnt (h.ledger.inUse f hpos) ?_
    -- The order of the two updates does not matter, and the other one keeps the invariant.
    have hcomm : ∀ p, (s'.setPte new v p).setRefcnt f ((s'.setPte new v p).refcnt f + 1) =
        (s'.setRefcnt f (s'.refcnt f + 1)).setPte new v p := fun _ => rfl
    have hold := (hg.pte old v).2 hval
    have hshare := h'.share hv (hold ▸ hval) (hold ▸ hw) (hold ▸ hf)
    have hinv' : (t'.pte v).v = false := by rw [← pte_of_some hn', (hg.pte new v).1, hinv]
    have hm := hshare.map (r := new) (t := t') (p := { perm with v := true, ppn := f }) hn' hv hinv'
      hup rfl rfl ⟨hread, by simp [hperm], by simp⟩ fun r' v' hv' hval' hppn' => ?_
    · have hn'' : (s'.setRefcnt f (s'.refcnt f + 1)).pgtbl new = some t' := hn'
      rw [hcomm, if_pos rfl, wp_pure]
      have hk : Kept s (s'.setRefcnt f (s'.refcnt f + 1)) := hg.kept.trans (.of_pgtbl rfl id)
      have hsp : (s'.setRefcnt f (s'.refcnt f + 1)).space = s.space :=
        (hg.space_eq h) ▸ space_congr (fun _ _ _ => .of_eq (pte_congr rfl _ _)) fun _ _ _ _ _ _ => rfl
      have hpage : ∀ p : Pte, p.ppn = f →
          (s'.setRefcnt f (s'.refcnt f + 1)).page p = s.page p :=
        fun p hp => page_congr fun a ha => hg.mem a (by rwa [ha, hp])
      refine hok _ hm.inv (hk.trans (.setPte hn'' hv _)) (space_eq_none hinv) ?_
      rw [space_setPte hn'' hv, hsp, if_pos rfl, hpage _ rfl]
      rfl
    · have hval₀ := (hg.pte r' v').1 ▸ hval'
      have heq := (hg.pte r' v').2 hval₀
      exact h.same old v hv r' v' hv' hval hval₀ (by rw [hf]; exact heq ▸ hppn')
  · intro e s' he hc
    refine hE e s' he fun hnone => hc ⟨user_lt_maxva hv, ?_⟩
    cases hval' : (s.pte new v).v with
    | false => rfl
    | true => simp [space_of_valid hv hval'] at hnone

/-- The unpatched kernel copies a page to a new frame. -/
theorem wp_copyFrame {Q : CopyRes → Memory → Prop} {old new : Nat} {t₂ : Pagetable}
    (h : Inv .unpatched s x) (ho : s.pgtbl old = some t) (hn : s.pgtbl new = some t₂)
    (htop : Topped s new) (hv : v < UPAGES) (hval : (t.pte v).v = true)
    (hok : ∀ s', Inv .unpatched s' x → Kept s s' → s.space new v = none →
      s'.space = Function.update s.space new
        (Function.update (s.space new) v (some (s.page (t.pte v)))) → Q .ok s')
    (herr : ∀ s', Inv .unpatched s' x → Kept s s' → s'.space = s.space → s'.oom = true → Q .err s')
    (hE : ∀ e s', e ≠ .kfree → s.space new v ≠ none → E e s') :
    wp (do
      match ← kalloc .unpatched with
      | none => return CopyRes.err
      | some mem => do
          modify fun s => { s with mem := memmove s.mem mem (t.pte v).pa PGSIZE }
          if ← mappages .unpatched new (v * PGSIZE) PGSIZE mem (t.pte v).toFlags then
            return CopyRes.ok
          else
            kfree .unpatched mem
            return CopyRes.err) Q E s := by
  have hval' : (s.pte old v).v = true := by rwa [pte_of_some ho]
  have hleaf := h.leaf old v hv hval'
  rw [pte_of_some ho] at hleaf
  have hmark := hleaf.unmarked rfl
  rw [wp_bind]
  apply wp_kalloc_inv h (fun _ => herr _ h.setOom .setOom space_setOom rfl)
  intro f s₁ ha
  have ha' : Alloced .unpatched x f s
      { s₁ with mem := memmove s₁.mem (f * PGSIZE) (t.pte v).pa PGSIZE } := ha.fill _
  have hcopy : Memory.pageOf { s₁ with
      mem := memmove s₁.mem (f * PGSIZE) (t.pte v).pa PGSIZE } f (t.pte v).toFlags =
        s.page (t.pte v) := by
    simp only [Memory.pageOf, Memory.page, Page.mk.injEq, true_and]
    funext o
    exact memmove_frame ha (pte_of_some ho ▸ h.leaf_total hv hval') o.isLt
  dsimp only
  rw [wp_bind, wp_modify, wp_bind]
  generalize { s₁ with mem := memmove s₁.mem (f * PGSIZE) (t.pte v).pa PGSIZE } = s₂ at ha' hcopy ⊢
  have hsp₂ := ha'.space_eq h
  refine wp_mappages_user ha'.inv (ha'.pgtbl ▸ hn) (htop.kept ha'.kept) hleaf.readable
    (fun _ => ⟨hmark, ha'.one⟩) (fun _ => hmark)
    (fun r' v' hv' hval hppn => absurd hppn (ha'.not_mapped hv' hval))
    ?_ ?_ ?_
  · intro s₃ h₃ hk₃ _ hnone₃ hsp₃
    rw [hsp₂] at hnone₃ hsp₃
    rw [hcopy] at hsp₃
    exact hok s₃ h₃ (ha'.kept.trans hk₃) hnone₃ hsp₃
  · intro s₃ h₃ hg₃ ho
    rw [if_neg (by decide), wp_bind]
    apply wp_kfree_inv h₃
    intro s₄ h₄ hpt hsp₄ hoom
    refine herr s₄ h₄ ((ha'.kept.trans hg₃.kept).trans (.of_pgtbl hpt fun ho' => hoom.trans ho'))
      ?_ (hoom.trans ho)
    rw [hsp₄, hg₃.space_eq ha'.inv, hsp₂]
  · intro e s₃ he hc
    exact hE e s₃ he fun hnone => hc ⟨hv, hsp₂ ▸ hnone⟩

/-- The patched kernel maps the frame of the parent, whose entry is already marked. -/
theorem wp_shareFrame {Q : CopyRes → Memory → Prop} {old new : Nat} {s₁ : Memory} {t₁ : Pagetable}
    (h : Inv .cow s x) (ho : s.pgtbl old = some t) (hv : v < UPAGES) (hval : (t.pte v).v = true)
    (h₁ : Inv .cow s₁ x) (hk₁ : Kept s s₁) (hsp₁ : s₁.space = s.space)
    (hpte₁ : s₁.pte old v = (t.pte v).shared) (hn₁ : s₁.pgtbl new = some t₁)
    (hmem₁ : s₁.mem = s.mem)
    (hok : ∀ s', Inv .cow s' x → Kept s s' → s.space new v = none →
      s'.space = Function.update s.space new
        (Function.update (s.space new) v (some (s.page (t.pte v)))) → Q .ok s')
    (herr : ∀ s', Inv .cow s' x → Kept s s' → s'.space = s.space → s'.oom = true → Q .err s')
    (hE : ∀ e s', e ≠ .kfree → s.space new v ≠ none → E e s') :
    wp (do
      if ← mappages .cow new (v * PGSIZE) PGSIZE (t.pte v).pa (t.pte v).shared.toFlags then
        if ← addrefcnt (t.pte v).pa then return CopyRes.ok else return CopyRes.badRef
      else return CopyRes.err) Q E s₁ := by
  have hshared : s₁.pageOf (t.pte v).ppn (t.pte v).shared.toFlags = s.page (t.pte v) := by
    have hpage : s₁.page (t.pte v).shared = s.page (t.pte v).shared :=
      page_congr fun a _ => congrFun hmem₁ a
    rw [← page_shared, ← hpage]
    simp only [Memory.pageOf, Memory.page, Pte.shared_ppn]
  refine wp_mapShared old h₁ hv ?_ ?_ ?_ hn₁ ?_ (Pte.shared_w _) ?_ ?_ ?_
  · rw [hpte₁, Pte.shared_v, hval]
  · rw [hpte₁, Pte.shared_w]
  · rw [hpte₁, Pte.shared_ppn]
  · have hleaf := h.leaf old v hv (by rwa [pte_of_some ho])
    rw [Pte.shared_r, ← pte_of_some ho]
    exact hleaf.readable
  · intro s' h' hk' hnone hsp'
    rw [hsp₁] at hnone hsp'
    rw [hshared] at hsp'
    exact hok s' h' (hk₁.trans hk') hnone hsp'
  · intro s' h' hk' hsp' hoom
    exact herr s' h' (hk₁.trans hk') (hsp'.trans hsp₁) hoom
  · intro e s' he hc
    exact hE e s' he (hsp₁ ▸ hc)

/-- One page of `uvmcopy`. -/
theorem wp_copyPage {Q : CopyRes → Memory → Prop} {old new : Nat} {t₂ : Pagetable} (h : Inv κ s x)
    (ho : s.pgtbl old = some t) (hn : s.pgtbl new = some t₂) (hne : old ≠ new)
    (htop : Topped s new) (hv : v < UPAGES)
    (hok : ∀ s', Inv κ s' x → Kept s s' → (s.space old v).isSome → s.space new v = none →
      s'.space = Function.update s.space new
        (Function.update (s.space new) v (s.space old v)) → Q .ok s')
    (herr : ∀ s', Inv κ s' x → Kept s s' → s'.space = s.space → s'.oom = true → Q .err s')
    (hE : ∀ e s', e ≠ .kfree → ¬ ((s.space old v).isSome ∧ s.space new v = none) → E e s') :
    wp (copyPage κ old new (v * PGSIZE)) Q E s := by
  have hshape := h.shape old t ho
  unfold copyPage
  rw [wp_bind, wp_walk_lookup hshape ho (user_lt_maxva hv), frame_div]
  cases hval : (t.pte v).v with
  | false =>
      have hnone : ¬ (s.space old v).isSome := by
        rw [space_isSome, pte_of_some ho, hval]
        simp
      cases (t.l0 (v / 512)).isSome with
      | false => exact hE _ s (by decide) fun hc => hnone hc.1
      | true =>
          simp only [if_true, wp_bind, wp_getPte ho, frame_div, hval, Bool.not_false, wp_throw]
          exact hE _ s (by decide) fun hc => hnone hc.1
  | true =>
      have hpage : s.space old v = some (s.page (t.pte v)) := by
        rw [space_of_valid hv (by rwa [pte_of_some ho]), pte_of_some ho]
      rw [hpage] at hok hE
      have hE' : ∀ e s', e ≠ .kfree → s.space new v ≠ none → E e s' :=
        fun e s' he hmapped => hE e s' he fun hc => hmapped hc.2
      rw [hshape.pte_up v hval, if_pos rfl, wp_bind, wp_getPte ho, frame_div,
        if_neg (by simp [hval])]
      cases κ with
      | unpatched =>
          exact wp_copyFrame h ho hn htop hv hval (fun s' h' hk => hok s' h' hk rfl) herr hE'
      | cow =>
          have hflags : (if (t.pte v).w = true then
              { (t.pte v).toFlags with rsw := true, w := false } else (t.pte v).toFlags) =
                (t.pte v).shared.toFlags := by
            unfold Pte.shared
            split <;> rfl
          dsimp only
          rw [hflags]
          cases hw : (t.pte v).w with
          | true =>
              obtain ⟨hm, hsp⟩ := h.markShared ho hv hval
              have hentry : ({ toFlags := (t.pte v).shared.toFlags, ppn := (t.pte v).ppn } : Pte) =
                  (t.pte v).shared := by rw [← Pte.shared_ppn]
              rw [if_pos rfl, wp_bind, wp_setPte, frame_div, hentry]
              have hn₁ : (s.setPte old v (t.pte v).shared).pgtbl new = some t₂ := by
                rw [setPte_eq ho]
                simpa [Memory.setTable, hne.symm] using hn
              refine wp_shareFrame h ho hv hval hm.inv (.setPte ho hv _) hsp
                (pte_setPte_self ho v _) hn₁ ?_ (fun s' h' hk => hok s' h' hk rfl) herr hE'
              rw [setPte_eq ho]
              rfl
          | false =>
              have hsame : (t.pte v).shared = t.pte v := by simp [Pte.shared, hw]
              rw [if_neg (by decide)]
              exact wp_shareFrame h ho hv hval h (.refl s) rfl (by rw [hsame, pte_of_some ho]) hn rfl
                (fun s' h' hk => hok s' h' hk rfl) herr hE'

/-- The loop of `uvmcopy` after `i` rounds, counted from the state `s₀` before them. -/
theorem wp_uvmcopyLoop {Q : CopyRes → Memory → Prop} (s₀ : Memory) {old new i : Nat}
    {t₂ : Pagetable} (h : Inv κ s x) (hk : Kept s₀ s) (ho : s₀.pgtbl old = some t)
    (hn : s₀.pgtbl new = some t₂) (hne : old ≠ new) (htop : Topped s₀ new) (hi : i + n ≤ UPAGES)
    (hdone : ∀ u < i, (s₀.space old u).isSome ∧ s₀.space new u = none)
    (hsp : s.space = Function.update s₀.space new ((s₀.space new).copyFrom (s₀.space old) i))
    (hok : ∀ s', Inv κ s' x → Kept s₀ s' → (∀ u < i + n, (s₀.space old u).isSome) →
      s'.space = Function.update s₀.space new
        ((s₀.space new).copyFrom (s₀.space old) (i + n)) → Q .ok s')
    (herr : ∀ s', Inv κ s' x → Kept s₀ s' → s'.space = s₀.space → s'.oom = true → Q .err s')
    (hE : ∀ e s', e ≠ .kfree →
      (∃ u < i + n, ¬ ((s₀.space old u).isSome ∧ s₀.space new u = none)) → E e s') :
    wp (uvmcopyLoop κ old new n (i * PGSIZE)) Q E s := by
  induction n generalizing s i with
  | zero => exact hok s h hk (fun u hu => (hdone u hu).1) hsp
  | succ n ih =>
      obtain ⟨t', ho'⟩ := hk.live_of ho
      obtain ⟨t₂', hn'⟩ := hk.live_of hn
      have hold : s.space old = s₀.space old := by rw [hsp, Function.update_of_ne hne]
      have hnew : s.space new = (s₀.space new).copyFrom (s₀.space old) i := by
        rw [hsp, Function.update_self]
      have hat : s.space new i = s₀.space new i := by
        rw [hnew]
        exact if_neg (Nat.lt_irrefl i)
      unfold uvmcopyLoop
      rw [wp_bind]
      refine wp_copyPage h ho' hn' hne (htop.kept hk) (by omega) ?_ ?_ ?_
      · intro s' h' hk' hsome hnone hsp'
        rw [hold] at hsome hsp'
        rw [hat] at hnone
        have haddr : i * PGSIZE + PGSIZE = (i + 1) * PGSIZE := (Nat.succ_mul i PGSIZE).symm
        dsimp only
        rw [haddr]
        refine ih h' (hk.trans hk') (by omega) ?_ ?_ ?_ ?_
        · intro u hu
          by_cases hui : u = i
          · exact hui ▸ ⟨hsome, hnone⟩
          · exact hdone u (by omega)
        · rw [hsp', hnew, hsp, Function.update_idem, Space.copyFrom_succ]
        · rwa [Nat.add_right_comm i 1 n]
        · rwa [Nat.add_right_comm i 1 n]
      · intro s' h' hk' hsp' hoom
        -- The pages copied so far are taken away again.
        obtain ⟨t₂'', hn''⟩ := (hk.trans hk').live_of hn
        dsimp only
        rw [frame_div, wp_bind, ← Nat.zero_mul PGSIZE]
        refine wp_uvmunmap h' hn'' (.inl (by omega)) ?_ fun e s'' _ ⟨u, _, hu, hnone⟩ => ?_
        · intro s'' h'' hk'' hsp''
          refine herr s'' h'' ((hk.trans hk').trans hk'') ?_ (hk''.oom hoom)
          rw [hsp'', hsp', hnew, hsp, Function.update_idem]
          refine Function.update_eq_self_iff.mpr ?_
          funext u
          by_cases hu : u < i
          · rw [Space.fill, if_pos (by omega), (hdone u hu).2]
          · rw [Space.fill, if_neg (by omega)]
            exact if_neg hu
        · rw [Nat.zero_add] at hu
          rw [hsp', hnew, Space.copyFrom, if_pos hu] at hnone
          simpa [hnone] using (hdone u hu).1
      · intro e s' he hc
        refine hE e s' he ⟨i, by omega, fun hc' => hc ⟨?_, ?_⟩⟩
        · rw [hold]
          exact hc'.1
        · rw [hat]
          exact hc'.2

/-- Sizes up to the trapframe. -/
def UserSize (sz : Nat) : Prop := sz ≤ TRAPFRAME

omit [Layout] in
theorem UserSize.le_maxva {sz : Nat} (h : UserSize sz) : sz ≤ MAXVA :=
  Nat.le_trans h (by decide)

omit [Layout] in
theorem UserSize.npages_le {sz : Nat} (h : UserSize sz) : npages sz ≤ UPAGES := by
  rw [npages_of_le h.le_maxva, UPAGES_eq]
  have hsz : sz ≤ 274877898752 := h
  omega

omit [Layout] in
/-- The pages that `uvmalloc` adds are those that the new size needs. -/
theorem growth_eq {oldsz newsz : Nat} (hnew : UserSize newsz) (hle : oldsz ≤ newsz) :
    growth oldsz newsz = npages newsz - npages oldsz := by
  have hmax := hnew.le_maxva
  rw [growth, pgroundup_eq, npages_of_le hmax, npages_of_le (hle.trans hmax)]
  simp only [PGSIZE]
  omega

omit [Layout] in
/-- A size that can be allocated is below the trapframe. -/
theorem UserSize.of_growth {oldsz newsz : Nat} (hold : UserSize oldsz)
    (hfit : growth oldsz newsz = 0 ∨ npages oldsz + growth oldsz newsz ≤ UPAGES) :
    UserSize newsz := by
  have hmax : oldsz ≤ 274877898752 := hold
  rw [growth, pgroundup_eq, npages_of_le hold.le_maxva, UPAGES_eq] at hfit
  simp only [PGSIZE] at hfit
  have hnew : newsz ≤ 274877898752 := by omega
  exact hnew

omit [Layout] in
theorem npages_mono {oldsz newsz : Nat} (hnew : UserSize newsz) (hle : oldsz ≤ newsz) :
    npages oldsz ≤ npages newsz := by
  have hmax := hnew.le_maxva
  rw [npages_of_le hmax, npages_of_le (hle.trans hmax)]
  omega

theorem wp_uvmcopy {Q : CopyRes → Memory → Prop} {old new sz : Nat} {t₂ : Pagetable}
    (h : Inv κ s x) (ho : s.pgtbl old = some t) (hn : s.pgtbl new = some t₂) (hne : old ≠ new)
    (htop : Topped s new) (hsz : UserSize sz)
    (hok : ∀ s', Inv κ s' x → Kept s s' → (∀ u < npages sz, (s.space old u).isSome) →
      s'.space = Function.update s.space new
        ((s.space new).copyFrom (s.space old) (npages sz)) → Q .ok s')
    (herr : ∀ s', Inv κ s' x → Kept s s' → s'.space = s.space → s'.oom = true → Q .err s')
    (hE : ∀ e s', e ≠ .kfree →
      (∃ u < npages sz, ¬ ((s.space old u).isSome ∧ s.space new u = none)) → E e s') :
    wp (uvmcopy κ old new sz) Q E s := by
  have hnum : (sz + (PGSIZE - 1)) / PGSIZE = npages sz := (npages_of_le hsz.le_maxva).symm
  have hloop := wp_uvmcopyLoop s (i := 0) (n := npages sz) (Q := Q) (E := E) h (.refl s) ho
    hn hne htop (by have := hsz.npages_le; omega) (by omega)
    (by rw [Space.copyFrom_zero, Function.update_eq_self])
  rw [Nat.zero_add, Nat.zero_mul] at hloop
  unfold uvmcopy
  rw [hnum]
  exact hloop hok herr hE

end Vm
