-- SUMMARY: The part of exec that builds an address space from the segments of a program, and the address space that it builds.
import OsLabs.Vm.Cow

/-!
# Program images

`exec` allocates and fills the pages of each segment, with the permissions that the
segment asks for, and adds a stack page with an inaccessible page below it. All of this
happens in a page table that shares nothing with another one.
-/

namespace Vm

open Effect

/-! ## The code -/

/-- A loadable program header, with the bytes of the file that it refers to. -/
structure Segment where
  vaddr : Nat
  memsz : Nat
  filesz : Nat
  flags : Nat
  bytes : Nat → UInt8

/-- One round of the loop of `exec` over the program headers. Returns the new size, or
    `none` for a jump to `bad`. -/
def loadSegment [Layout] (κ : Version) (pt sz : Nat) (ph : Segment) : KernelM (Option Nat) := do
  if ph.memsz < ph.filesz then return none
  if (ph.vaddr + ph.memsz) % 2 ^ 64 < ph.vaddr then return none
  if ph.vaddr % PGSIZE ≠ 0 then return none
  let perm := flags2perm ph.flags
  match ← uvmalloc κ pt sz (ph.vaddr + ph.memsz) perm.1 perm.2 with
  | none => return none
  | some sz => do
      -- An empty first segment also gives `0`.
      if sz = 0 then return none
      loadseg κ pt ph.vaddr ph.bytes ph.filesz
      return some sz

def loadSegments [Layout] (κ : Version) (pt : Nat) : Nat → List Segment → KernelM (Option Nat)
  | sz, []        => return some sz
  | sz, ph :: phs => do
      match ← loadSegment κ pt sz ph with
      | none => return none
      | some sz => loadSegments κ pt sz phs

/-- The segments, a guard page, and a stack page. -/
def loadImage [Layout] (κ : Version) (pt : Nat) (phs : List Segment) : KernelM (Option Nat) := do
  match ← loadSegments κ pt 0 phs with
  | none => return none
  | some sz => do
      let sz := pgroundup sz
      match ← uvmalloc κ pt sz (sz + 2 * PGSIZE) true false with
      | none => return none
      | some sz => do
          uvmclear κ pt (sz - 2 * PGSIZE)
          return some sz

/-! ## `uvmclear` -/

variable [Layout] {κ : Version} {s s' : Memory} {x : Nat → Nat} {r v : Nat} {t : Pagetable}
variable {E : Panic → Memory → Prop}

/-- Take the page away from the user. -/
def Space.clear (σ : Space) (v : Nat) : Space :=
  Function.update σ v ((σ v).map fun p => { p with u := false })

omit [Layout] in
theorem Space.isSome_clear (σ : Space) (v w : Nat) : (σ.clear v w).isSome = (σ w).isSome := by
  unfold Space.clear
  by_cases hw : w = v
  · subst hw
    simp
  · rw [Function.update_of_ne hw]

omit [Layout] in
theorem setPte_self (hr : s.pgtbl r = some t) (v : Nat) : s.setPte r v (t.pte v) = s := by
  rw [setPte_eq hr, Function.update_eq_self]
  simp only [Memory.setTable, ← hr, Function.update_eq_self]

/-- Clearing `PTE_U` of a user page. -/
theorem Inv.clear (h : Inv κ s x) (hr : s.pgtbl r = some t) (hv : v < UPAGES) :
    Inv κ (s.setPte r v { t.pte v with u := false }) x ∧
      (s.setPte r v { t.pte v with u := false }).space =
        Function.update s.space r ((s.space r).clear v) := by
  cases hval : (t.pte v).v with
  | true =>
      have hval' : (s.pte r v).v = true := by rwa [pte_of_some hr]
      have hleaf := h.leaf r v hv hval'
      rw [pte_of_some hr] at hleaf
      have hm := h.reflag hr hv hval (p := { t.pte v with u := false }) hval rfl
        ⟨hleaf.readable, hleaf.write, hleaf.unmarked⟩
      refine ⟨hm.inv, ?_⟩
      rw [space_setPte hr hv, if_pos hval, Space.clear, space_of_valid hv hval', pte_of_some hr]
      rfl
  | false =>
      have hhold : s.holds (.leaf, r, v) = none := by
        simp [holds_of_some hr, Pagetable.holds, hval]
      refine ⟨h.setPte hr _ ?_ (by simp [hval]) (by simp [hval]) (by simp [hval]), ?_⟩
      · refine total_keep (.leaf, r, v) ?_
        rw [holds_setPte hr, hhold, if_neg (by simp [hval])]
      · have hnone : s.space r v = none := space_eq_none (by rw [pte_of_some hr, hval])
        rw [space_setPte hr hv, if_neg (by simp [hval]), Space.clear, hnone, Option.map_none]

theorem wp_uvmclear {Q : Unit → Memory → Prop} {va : Nat} (h : Inv κ s x)
    (hr : s.pgtbl r = some t) (htop : Topped s r)
    (hok : ∀ s', Inv κ s' x → Kept s s' →
      s'.space = Function.update s.space r ((s.space r).clear (va / PGSIZE)) → Q () s')
    (hE : ∀ e, e ≠ .kfree → E e s) : wp (uvmclear κ r va) Q E s := by
  have hshape := h.shape r t hr
  unfold uvmclear
  rw [wp_bind]
  by_cases hva : va < MAXVA
  · rw [wp_walk_lookup hshape hr hva]
    cases (t.l0 (va / PGSIZE / 512)).isSome with
    | false => exact hE _ (by decide)
    | true =>
        rw [if_pos rfl, wp_bind, wp_getPte hr, wp_setPte]
        by_cases hv : va / PGSIZE < UPAGES
        · obtain ⟨h', hsp⟩ := h.clear hr hv
          exact hok _ h' (.setPte hr hv _) hsp
        · -- The entries above are not for the user anyway.
          have hlt : va / PGSIZE * PGSIZE < MAXVA :=
            Nat.lt_of_le_of_lt (Nat.div_mul_le_self va PGSIZE) hva
          have hu := (htop _ (by omega) hlt).2.1
          rw [pte_of_some hr] at hu
          have hsame : { t.pte (va / PGSIZE) with u := false } = t.pte (va / PGSIZE) := by rw [← hu]
          have hnone : s.space r (va / PGSIZE) = none := if_neg fun hc => hv hc.1
          rw [hsame, setPte_self hr]
          refine hok s h (.refl s) ?_
          rw [Space.clear, hnone, Option.map_none, update_space_self _ _ _ _ hnone]
  · unfold walk
    rw [if_pos (Nat.le_of_not_lt hva)]
    exact hE _ (by decide)

/-! ## `loadseg` -/

/-- Overwrite the first `n` bytes of a page. -/
def Space.fillPage (σ : Space) (v : Nat) (src : Nat → UInt8) (n : Nat) : Space :=
  Function.update σ v ((σ v).map fun p =>
    { p with bytes := fun o => if o.val < n then src o else p.bytes o })

/-- The first `i` pages of a segment at `va` with `sz` bytes in the file. -/
def Space.loadseg (σ : Space) (va : Nat) (src : Nat → UInt8) (sz : Nat) : Nat → Space
  | 0     => σ
  | i + 1 => (σ.loadseg va src sz i).fillPage ((va + i * PGSIZE) / PGSIZE)
      (fun o => src (i * PGSIZE + o)) (min (sz - i * PGSIZE) PGSIZE)

omit [Layout] in
theorem Space.isSome_fillPage (σ : Space) (v : Nat) (src : Nat → UInt8) (n w : Nat) :
    (σ.fillPage v src n w).isSome = (σ w).isSome := by
  unfold Space.fillPage
  by_cases hw : w = v
  · subst hw
    simp
  · rw [Function.update_of_ne hw]

omit [Layout] in
theorem Space.isSome_loadseg (σ : Space) (va : Nat) (src : Nat → UInt8) (sz i w : Nat) :
    (σ.loadseg va src sz i w).isSome = (σ w).isSome := by
  induction i with
  | zero => rfl
  | succ i ih => rw [Space.loadseg, Space.isSome_fillPage, ih]

/-- `r` is the only page table. -/
def Memory.Alone (s : Memory) (r : Nat) : Prop := ∀ r' ≠ r, s.pgtbl r' = none

theorem Inv.sole_of_alone (h : Inv κ s x) (ha : s.Alone r) (hv : v < UPAGES)
    (hval : (s.pte r v).v = true) : s.Sole r v := by
  intro r' v' hv' hval' hppn
  have hvv := h.same r v hv r' v' hv' hval hval' hppn
  have hrr : r' = r := by
    by_contra hne
    simp [Memory.pte, ha r' hne, Pte.zero] at hval'
  rw [hvv, hrr]

omit [Layout] in
/-- A write within a frame leaves the other frames as they are. -/
theorem write_of_div_ne {m src : Nat → UInt8} {dst n a : Nat} (hn : dst % PGSIZE + n ≤ PGSIZE)
    (ha : a / PGSIZE ≠ dst / PGSIZE) : write m dst src n a = m a := by
  refine if_neg fun ⟨h₁, h₂⟩ => ha ?_
  have hdiv := Nat.div_add_mod dst PGSIZE
  rw [Nat.div_eq_iff PGSIZE_pos, Nat.mul_comm]
  omega

omit [Layout] in
theorem page_write (s : Memory) (p : Pte) (src : Nat → UInt8) (n : Nat) :
    Memory.page { s with mem := write s.mem p.pa src n } p =
      { s.page p with bytes := fun o => if o.val < n then src o else (s.page p).bytes o } := by
  simp only [Memory.page, Page.mk.injEq, true_and]
  funext o
  unfold write Pte.pa
  by_cases ho : o.val < n
  · rw [if_pos (by omega), if_pos ho, Nat.add_sub_cancel_left]
  · rw [if_neg (by omega), if_neg ho]

/-- Whether `r` is the only table does not matter for the invariant, only for what the
    other tables show. -/
theorem wp_loadseg {Q : Unit → Memory → Prop} {va sz : Nat} {src : Nat → UInt8} (h : Inv κ s x)
    (hr : s.pgtbl r = some t) (htop : Topped s r)
    (hok : ∀ s', Inv κ s' x → Kept s s' → (s.Alone r →
      s'.space = Function.update s.space r
        ((s.space r).loadseg va src sz ((sz + (PGSIZE - 1)) / PGSIZE))) → Q () s')
    (hE : ∀ e s', e ≠ .kfree → E e s') : wp (loadseg κ r va src sz) Q E s := by
  unfold loadseg
  refine wp_upto_of (fun i s' => Inv κ s' x ∧ s'.pgtbl = s.pgtbl ∧ s'.oom = s.oom ∧ (s.Alone r →
    s'.space = Function.update s.space r ((s.space r).loadseg va src sz i)))
    ⟨h, rfl, rfl, fun _ => by rw [Space.loadseg, Function.update_eq_self]⟩
    (fun i _ s₁ ⟨h₁, hpt, hoom, hsp⟩ => ?_) fun s' ⟨h', hpt, hoom, hsp⟩ =>
      hok s' h' (.of_pgtbl hpt fun ho => hoom.trans ho) hsp
  have hr₁ : s₁.pgtbl r = some t := hpt ▸ hr
  have htop₁ : Topped s₁ r := htop.kept (.of_pgtbl hpt fun ho => hoom.trans ho)
  rw [wp_bind, wp_walkaddr (h₁.shape r t hr₁) hr₁]
  unfold Memory.addr
  by_cases hc : va + i * PGSIZE < MAXVA ∧ (s₁.pte r ((va + i * PGSIZE) / PGSIZE)).v = true ∧
      (s₁.pte r ((va + i * PGSIZE) / PGSIZE)).u = true
  · rw [if_pos hc]
    have hp := userPage_of_u htop₁ hc.1 hc.2.1 hc.2.2
    refine ⟨h₁.setMem _, hpt, hoom, ?_⟩
    intro ha
    have ha₁ : s₁.Alone r := fun r' hne => hpt ▸ ha r' hne
    rw [(h₁.sole_of_alone ha₁ hp.1 hp.2.1).space_write hp.1 hp.2.1 fun a hdiv => ?_, page_write,
      hsp ha, Function.update_idem, Function.update_self, Space.loadseg, Space.fillPage]
    · have hat := space_of_valid hp.1 hp.2.1
      rw [hsp ha, Function.update_self] at hat
      rw [hat]
      rfl
    · refine write_of_div_ne ?_ (by rwa [Pte.pa, frame_div])
      rw [Pte.pa, Nat.mul_mod_left]
      omega
  · rw [if_neg hc]
    exact hE _ _ (by decide)

/-! ## Images -/

/-- The pages of a process of size `sz`, and no others. -/
structure Space.Sized (σ : Space) (sz : Nat) : Prop where
  size : UserSize sz
  mapped : ∀ v, (σ v).isSome ↔ v < npages sz

/-- A space and its size after one more segment. -/
def Space.addSegment (image : Space × Nat) (ph : Segment) : Space × Nat :=
  let sz := max image.2 (ph.vaddr + ph.memsz)
  let perm := flags2perm ph.flags
  ((image.1.resize (npages image.2) (npages sz) (Page.zero perm.1 perm.2)).loadseg ph.vaddr ph.bytes
    ph.filesz ((ph.filesz + (PGSIZE - 1)) / PGSIZE), sz)

/-- Add an inaccessible page and a stack page. -/
def Space.addStack (image : Space × Nat) : Space × Nat :=
  let n := npages image.2
  ((image.1.resize n (n + 2) (Page.zero true false)).clear n, (n + 2) * PGSIZE)

/-- The space that a program starts with, and its size. -/
def Space.image (phs : List Segment) : Space × Nat :=
  Space.addStack (phs.foldl Space.addSegment (fun _ => none, 0))

omit [Layout] in
theorem Memory.Alone.kept (h : s.Alone r) (hk : Kept s s') : s'.Alone r := by
  intro r' hne
  have hlive := hk.live r'
  rw [h r' hne] at hlive
  exact Option.not_isSome_iff_eq_none.mp (by simp [hlive])

/-- `uvmalloc` in these terms. -/
theorem wp_uvmalloc_sized {Q : Option Nat → Memory → Prop} {sz newsz : Nat} {w e : Bool}
    (h : Inv κ s x) (hr : s.pgtbl r = some t) (htop : Topped s r) (hsz : (s.space r).Sized sz)
    (hok : ∀ s', Inv κ s' x → Kept s s' →
      s'.space = Function.update s.space r
        ((s.space r).resize (npages sz) (npages (max sz newsz)) (Page.zero w e)) →
      (s'.space r).Sized (max sz newsz) → Q (some (max sz newsz)) s')
    (hfail : ∀ s', Inv κ s' x → Kept s s' → s'.space = s.space → Q none s')
    (hE : ∀ p s', E p s') : wp (uvmalloc κ r sz newsz w e) Q E s := by
  refine wp_uvmalloc h hr htop ?_ ?_ (fun s' h' hk hsp _ => hfail s' h' hk hsp) fun p s' _ _ => hE p s'
  · intro hlt
    have hmax : max sz newsz = sz := Nat.max_eq_left (by omega)
    rw [hmax] at hok
    refine hok s h (.refl s) ?_ hsz
    rw [Space.resize_self hsz.mapped, Function.update_eq_self]
  · intro hle s' h' hk hfit hsp
    have hnew := hsz.size.of_growth hfit
    rw [Nat.max_eq_right hle] at hok
    rw [growth_eq hnew hle, Space.fill_eq_resize hsz.mapped (npages_mono hnew hle)] at hsp
    refine hok s' h' hk hsp ⟨hnew, ?_⟩
    rw [hsp, Function.update_self]
    exact Space.isSome_resize hsz.mapped _ _

/-- What loading has made of the memory so far: the table `r` has the space `image`. -/
structure Loaded (κ : Version) (x : Nat → Nat) (r : Nat) (image : Space × Nat) (s s' : Memory) :
    Prop where
  inv : Inv κ s' x
  kept : Kept s s'
  space : s'.space = Function.update s.space r image.1
  sized : image.1.Sized image.2

theorem wp_loadSegment {Q : Option Nat → Memory → Prop} {sz : Nat} {ph : Segment} (h : Inv κ s x)
    (hr : s.pgtbl r = some t) (htop : Topped s r) (ha : s.Alone r) (hsz : (s.space r).Sized sz)
    (hok : ∀ s', Loaded κ x r (Space.addSegment (s.space r, sz) ph) s s' →
      Q (some (Space.addSegment (s.space r, sz) ph).2) s')
    (hfail : ∀ s', Q none s') (hE : ∀ p s', E p s') : wp (loadSegment κ r sz ph) Q E s := by
  unfold loadSegment
  split
  · exact hfail s
  split
  · exact hfail s
  split
  · exact hfail s
  rw [wp_bind]
  refine wp_uvmalloc_sized h hr htop hsz ?_ (fun s' _ _ _ => hfail s') hE
  intro s₁ h₁ hk₁ hsp₁ hsz₁
  dsimp only
  split
  · exact hfail s₁
  obtain ⟨t₁, hr₁⟩ := hk₁.live_of hr
  rw [wp_bind]
  refine wp_loadseg h₁ hr₁ (htop.kept hk₁) ?_ fun p s' _ => hE p s'
  intro s₂ h₂ hk₂ hsp₂
  have hsp := hsp₂ (ha.kept hk₁)
  refine hok s₂ ⟨h₂, hk₁.trans hk₂, ?_, hsz₁.size, ?_⟩
  · rw [hsp, hsp₁, Function.update_self, Function.update_idem]
    rfl
  · intro v
    rw [Space.addSegment, Space.isSome_loadseg]
    have hmapped := hsz₁.mapped v
    rwa [hsp₁, Function.update_self] at hmapped

theorem wp_loadSegments {Q : Option Nat → Memory → Prop} {sz : Nat} {phs : List Segment}
    (h : Inv κ s x) (hr : s.pgtbl r = some t) (htop : Topped s r) (ha : s.Alone r)
    (hsz : (s.space r).Sized sz)
    (hok : ∀ s', Loaded κ x r (phs.foldl Space.addSegment (s.space r, sz)) s s' →
      Q (some (phs.foldl Space.addSegment (s.space r, sz)).2) s')
    (hfail : ∀ s', Q none s') (hE : ∀ p s', E p s') : wp (loadSegments κ r sz phs) Q E s := by
  induction phs generalizing s sz t with
  | nil => exact hok s ⟨h, .refl s, by simp, hsz⟩
  | cons ph phs ih =>
      unfold loadSegments
      rw [wp_bind]
      refine wp_loadSegment h hr htop ha hsz ?_ hfail hE
      intro s₁ hl
      obtain ⟨t₁, hr₁⟩ := hl.kept.live_of hr
      have hat : s₁.space r = (Space.addSegment (s.space r, sz) ph).1 := by
        rw [hl.space, Function.update_self]
      apply ih hl.inv hr₁ (htop.kept hl.kept) (ha.kept hl.kept) (hat ▸ hl.sized)
      intro s₂ hl₂
      rw [hat] at hl₂ ⊢
      refine hok s₂ ⟨hl₂.inv, hl.kept.trans hl₂.kept, ?_, hl₂.sized⟩
      rw [hl₂.space, hl.space, Function.update_idem]
      rfl

theorem wp_loadImage {Q : Option Nat → Memory → Prop} {phs : List Segment} (h : Inv κ s x)
    (hr : s.pgtbl r = some t) (htop : Topped s r) (ha : s.Alone r)
    (hempty : s.space r = fun _ => none)
    (hok : ∀ s', Loaded κ x r (Space.image phs) s s' → Q (some (Space.image phs).2) s')
    (hfail : ∀ s', Q none s') (hE : ∀ p s', E p s') : wp (loadImage κ r phs) Q E s := by
  have hsz : (s.space r).Sized 0 := by
    refine ⟨Nat.zero_le _, ?_⟩
    intro v
    rw [hempty]
    simp [npages, pgroundup, pgrounddown, PGSIZE]
  obtain ⟨stack, hstack⟩ : ∃ m, 2 * PGSIZE = m := ⟨_, rfl⟩
  unfold loadImage
  rw [hstack, wp_bind]
  refine wp_loadSegments h hr htop ha hsz ?_ hfail hE
  intro s₁ hl
  unfold Space.image at hok
  rw [hempty] at hl ⊢
  generalize phs.foldl Space.addSegment (fun _ => none, 0) = image at *
  obtain ⟨σ, sz⟩ := image
  obtain ⟨t₁, hr₁⟩ := hl.kept.live_of hr
  have hat : s₁.space r = σ := by rw [hl.space, Function.update_self]
  obtain ⟨n, hn⟩ : ∃ n, npages sz = n := ⟨_, rfl⟩
  have hle : n ≤ UPAGES := hn ▸ hl.sized.size.npages_le
  obtain ⟨top, htop'⟩ : ∃ m, n * PGSIZE = m := ⟨_, rfl⟩
  obtain ⟨new, hnew⟩ : ∃ m, (n + 2) * PGSIZE = m := ⟨_, rfl⟩
  have hadd : top + stack = new := by rw [← htop', ← hstack, ← hnew, Nat.add_mul]
  have htop_n : npages top = n := by
    rw [← htop']
    refine npages_page ?_
    rw [UPAGES_eq] at hle
    rw [MAXVA_eq]
    simp only [PGSIZE]
    omega
  have hsized : (s₁.space r).Sized top := by
    refine ⟨?_, ?_⟩
    · have hmul : top ≤ UPAGES * PGSIZE := htop' ▸ Nat.mul_le_mul_right PGSIZE hle
      rwa [← TRAPFRAME_eq] at hmul
    · intro v
      rw [hat, htop_n, ← hn]
      exact hl.sized.mapped v
  dsimp only
  rw [pgroundup_eq, hn, htop', hadd, wp_bind]
  refine wp_uvmalloc_sized hl.inv hr₁ (htop.kept hl.kept) hsized ?_ (fun s' _ _ _ => hfail s') hE
  intro s₂ h₂ hk₂ hsp₂ hsz₂
  have hmax : max top new = new := by omega
  rw [hmax] at hsp₂ hsz₂ ⊢
  obtain ⟨t₂, hr₂⟩ := hk₂.live_of hr₁
  dsimp only
  rw [wp_bind]
  refine wp_uvmclear h₂ hr₂ ((htop.kept hl.kept).kept hk₂) ?_ fun e _ => hE e s₂
  intro s₃ h₃ hk₃ hsp₃
  have hnew_n : npages new = n + 2 := by
    have hmax := hsz₂.size.le_maxva
    rw [← hnew] at hmax ⊢
    exact npages_page hmax
  have hpage : (new - stack) / PGSIZE = n := by
    rw [← hadd, Nat.add_sub_cancel, ← htop', frame_div]
  have himage : Space.addStack (σ, sz) =
      ((σ.resize n (n + 2) (Page.zero true false)).clear n, new) := by
    simp only [Space.addStack, hn, hnew]
  rw [htop_n, hnew_n, hat] at hsp₂
  rw [himage] at hok
  refine hok s₃ ⟨h₃, (hl.kept.trans hk₂).trans hk₃, ?_, hsz₂.size, ?_⟩
  · rw [hsp₃, hpage, hsp₂, hl.space, Function.update_self, Function.update_idem,
      Function.update_idem]
  · intro v
    have hmapped := hsz₂.mapped v
    rw [hsp₂, Function.update_self] at hmapped
    rw [Space.isSome_clear, hmapped]

end Vm
