-- SUMMARY: Specifications of the allocator, of walk, and of mapping and unmapping one page, for both kernels at once.
import OsLabs.Vm.Space

/-!
# Walking, mapping and unmapping

Each theorem `wp_f` says what may be assumed after a call of `f`. The functions panic when
a caller breaks their contract, and then in no case in `kfree`; a panic condition is
passed on with the contract that was broken.
-/

namespace Vm

open Effect

variable [Layout] {κ : Version} {s s' : Memory} {x x' : Nat → Nat} {r f v : Nat} {t : Pagetable}
variable {E : Panic → Memory → Prop}

/-! ## The allocator -/

/-- The frame `f` was allocated and has one owner. -/
structure Alloced (κ : Version) (x : Nat → Nat) (f : Nat) (s s' : Memory) : Prop where
  inv : Inv κ s' (inc x f)
  one : s'.total (inc x f) f = 1
  pgtbl : s'.pgtbl = s.pgtbl
  mem : KeepsMem (s.total x) s s'
  oom : s'.oom = s.oom
  freelist : s.freelist = f :: s'.freelist

theorem wp_kalloc_inv {Q : Option Nat → Memory → Prop} (h : Inv κ s x)
    (hnone : s.freelist = [] → Q none { s with oom := true })
    (hsome : ∀ f s', Alloced κ x f s s' → Q (some (f * PGSIZE)) s') : wp (kalloc κ) Q E s := by
  refine wp_kalloc h.ledger hnone fun f s' hzero _ hled hmem hpt hoom hlist => hsome f s' ?_
  refine ⟨h.fresh hpt hled hzero, ?_, hpt, hmem, hoom, hlist⟩
  rw [total_congr hpt, total_inc, inc_self, hzero]

theorem Inv.setOom (h : Inv κ s x) : Inv κ { s with oom := true } x :=
  h.recount rfl (h.ledger.congr rfl rfl) fun _ _ _ _ _ => id

omit [Layout] in
theorem space_setOom : Memory.space { s with oom := true } = s.space :=
  space_congr (fun _ _ _ => .of_eq (pte_congr rfl _ _)) fun _ _ _ _ _ _ => rfl

omit [Layout] in
theorem Kept.setOom : Kept s { s with oom := true } := .of_pgtbl rfl fun _ => rfl

/-- The owner of a new frame may fill it. -/
theorem Alloced.fill (h : Alloced κ x f s s') (src : Nat → UInt8) :
    Alloced κ x f s { s' with mem := write s'.mem (f * PGSIZE) src PGSIZE } := by
  refine ⟨h.inv.recount rfl (h.inv.ledger.congr rfl rfl) fun _ _ _ _ _ => id, ?_, h.pgtbl, ?_,
    h.oom, h.freelist⟩
  · exact (total_congr rfl).symm ▸ h.one
  · intro a ha
    refine (write_of_ne ?_).trans (h.mem a ha)
    rintro rfl
    have hone := h.one
    rw [total_congr h.pgtbl, total_inc, inc_self] at hone
    omega

theorem Alloced.kept (h : Alloced κ x f s s') : Kept s s' :=
  .of_pgtbl h.pgtbl fun ho => h.oom.trans ho

theorem Alloced.space_eq (h : Alloced κ x f s s') (hs : Inv κ s x) : s'.space = s.space :=
  hs.space_eq (fun r v _ => .of_eq (pte_congr h.pgtbl r v)) h.mem

/-- A new frame is not mapped. -/
theorem Alloced.not_mapped (h : Alloced κ x f s s') {r' v' : Nat} (hv : v' < UPAGES)
    (hval : (s'.pte r' v').v = true) : (s'.pte r' v').ppn ≠ f := fun hf =>
  not_held_of_owned h.one (by simp) (h.inv.leaf_mem hv hval) (hf ▸ holds_leaf_of_valid hval)

theorem wp_kfree_inv {Q : Unit → Memory → Prop} (h : Inv κ s (inc x f))
    (hQ : ∀ s', Inv κ s' x → s'.pgtbl = s.pgtbl → s'.space = s.space → s'.oom = s.oom → Q () s') :
    wp (kfree κ (f * PGSIZE)) Q E s := by
  have hled := h.ledger
  rw [total_inc] at hled
  apply wp_kfree hled
  intro s' hled' hmem hpt hoom _
  exact hQ s' (h.release hpt hled') hpt
    (h.space_eq (fun r v _ => .of_eq (pte_congr hpt r v)) hmem) hoom

/-- `kfree` of a frame whose entry is removed right after. -/
theorem wp_kfree_then {Q : Unit → Memory → Prop} {u : Memory → Memory}
    {P : (Nat → Option Pagetable) → Nat → Option Pagetable}
    (hu : ∀ s, u s = { s with pgtbl := P s.pgtbl }) (h : Inv κ (u s) (inc x f))
    (hQ : ∀ s', Inv κ s' x → s'.pgtbl = (u s).pgtbl → s'.space = (u s).space → s'.oom = s.oom →
      Q () s') :
    wp (do kfree κ (f * PGSIZE); modify u) Q E s := by
  have hled := h.ledger
  rw [total_inc] at hled
  rw [wp_bind]
  apply wp_kfree (hled.congr (by rw [hu]) (by rw [hu]))
  intro s' hled' hmem hpt hoom _
  have hpt' : (u s').pgtbl = (u s).pgtbl := by rw [hu s', hu s, hpt]
  rw [wp_modify]
  have hmem' : KeepsMem ((u s).total x) (u s) (u s') := by
    intro a ha
    have hsame := hmem a ha
    rw [hu s', hu s]
    exact hsame
  refine hQ (u s') (h.release hpt' (hled'.congr (by rw [hu]) (by rw [hu]))) hpt'
    (h.space_eq (fun r v _ => .of_eq (pte_congr hpt' r v)) hmem') ?_
  rw [hu]
  exact hoom

/-! ## `walk` -/

/-- Pages may have been added to page tables. -/
structure Grown (x : Nat → Nat) (s s' : Memory) : Prop where
  live : ∀ r, (s'.pgtbl r).isSome = (s.pgtbl r).isSome
  pte : ∀ r v, (s.pte r v).Same (s'.pte r v)
  mem : KeepsMem (s.total x) s s'
  total : ∀ f, s.total x f ≠ 0 → s'.total x f = s.total x f
  oom : s.oom = true → s'.oom = true

omit [Layout] in
theorem Grown.refl (x : Nat → Nat) (s : Memory) : Grown x s s :=
  ⟨fun _ => rfl, fun _ _ => .refl _, fun _ _ => rfl, fun _ _ => rfl, id⟩

omit [Layout] in
theorem Grown.trans {s'' : Memory} (h₁ : Grown x s s') (h₂ : Grown x s' s'') : Grown x s s'' where
  live r := (h₂.live r).trans (h₁.live r)
  pte r v := (h₁.pte r v).trans (h₂.pte r v)
  mem a ha := (h₂.mem a (by rwa [h₁.total _ ha])).trans (h₁.mem a ha)
  total f hf := (h₂.total f (by rwa [h₁.total f hf])).trans (h₁.total f hf)
  oom := h₂.oom ∘ h₁.oom

omit [Layout] in
theorem Grown.kept (h : Grown x s s') : Kept s s' := ⟨h.live, fun r v _ => h.pte r v, h.oom⟩

theorem Grown.space_eq (h : Grown x s s') (hs : Inv κ s x) : s'.space = s.space :=
  hs.space_eq (fun r v _ => h.pte r v) h.mem

omit [Layout] in
theorem Grown.setOom : Grown x s { s with oom := true } where
  live _ := rfl
  pte _ _ := .of_eq (pte_congr rfl _ _)
  mem _ _ := rfl
  total _ _ := congrFun (total_congr rfl) _
  oom _ := rfl

/-- A new page has been linked into the table of `r`. -/
theorem Grown.link {t' : Pagetable} {s₁ : Memory} (ha : Alloced κ x f s s₁)
    (hr : s.pgtbl r = some t) (hm : Moved κ s₁ (inc x f) (s₁.setTable r (some t')) x)
    (hpte : ∀ v, (t.pte v).Same (t'.pte v)) : Grown x s (s₁.setTable r (some t')) where
  live r' := by
    by_cases hrr : r' = r
    · subst hrr
      simp [Memory.setTable, hr]
    · simp [Memory.setTable, hrr, ha.pgtbl]
  pte r' v := by
    by_cases hrr : r' = r
    · subst hrr
      rw [pte_setTable_self, pte_of_some hr]
      exact hpte v
    · rw [pte_setTable_of_ne hrr]
      exact .of_eq (pte_congr ha.pgtbl r' v)
  mem := ha.mem
  total g hg := by
    have hone := ha.one
    rw [total_congr ha.pgtbl, total_inc, inc_self] at hone
    rw [hm.total, total_congr ha.pgtbl, total_inc, inc_of_ne]
    rintro rfl
    omega
  oom ho := ha.oom.trans ho

omit [Layout] in
theorem wp_table {Q : Pagetable → Memory → Prop} (hr : s.pgtbl r = some t) :
    wp (table r) Q E s ↔ Q t s := by
  simp [table, hr]

/-- One level of `walk`, for a link that keeps the invariant. -/
theorem wp_walkLevel {Q : Bool → Memory → Prop} {present : Bool} {link : Nat → Memory → Memory}
    (h : Inv κ s x) (hpresent : present = true → Q true s)
    (hlink : present = false → ∀ f s', Alloced κ x f s s' → Q true (link f s'))
    (hfail : ∀ s', Inv κ s' x → Grown x s s' → s'.oom = true → Q false s') :
    wp (walkLevel κ present true link) Q E s := by
  unfold walkLevel
  cases present with
  | true => exact hpresent rfl
  | false =>
      simp only [Bool.false_eq_true, if_false, Bool.not_true, wp_bind]
      apply wp_kalloc_inv h (fun _ => hfail _ h.setOom .setOom rfl)
      intro f s' ha
      simp only [wp_bind, wp_modify, wp_pure, frame_div]
      exact hlink rfl f _ (ha.fill fun _ => 0)

/-- The entry of a page below `MAXVA`, allocating what is missing. -/
theorem wp_walk_alloc {Q : Bool → Memory → Prop} {va : Nat} (h : Inv κ s x)
    (hr : s.pgtbl r = some t) (hva : va < MAXVA)
    (hok : ∀ s' t', Inv κ s' x → Grown x s s' → s'.pgtbl r = some t' →
      (t'.l0 (va / PGSIZE / 512)).isSome → Q true s')
    (hfail : ∀ s', Inv κ s' x → Grown x s s' → s'.oom = true → Q false s') :
    wp (walk κ r va true) Q E s := by
  have hidx : va / PGSIZE / 512 / 512 < 256 := by
    simp only [MAXVA, PGSIZE] at *
    omega
  -- The level-1 page is there: the same for a table that had it and one that just got it.
  have hlevel0 : ∀ s₁ t₁, Inv κ s₁ x → Grown x s s₁ → s₁.pgtbl r = some t₁ →
      (t₁.l1 (va / PGSIZE / 512 / 512)).isSome →
      wp (do
        let t ← table r
        walkLevel κ (t.l0 (va / PGSIZE / 512)).isSome true fun f s =>
          s.updateTable r (·.link0 (va / PGSIZE / 512) f)) Q E s₁ := by
    intro s₁ t₁ h₁ hg₁ hr₁ hup
    rw [wp_bind, wp_table hr₁]
    refine wp_walkLevel h₁ (fun hp => hok s₁ t₁ h₁ hg₁ hr₁ hp) ?_
      fun s' h' hg' ho => hfail s' h' (hg₁.trans hg') ho
    intro hp f s' ha
    have hnone : t₁.l0 (va / PGSIZE / 512) = none := by simpa using hp
    have hr' : s'.pgtbl r = some t₁ := ha.pgtbl ▸ hr₁
    have hm := ha.inv.link0 hr' hup hnone ha.one
    have hshape := h₁.shape r t₁ hr₁
    have hg' := Grown.link ha hr₁ hm (hshape.link0_same hnone)
    simp only [Memory.updateTable, hr', Option.map_some]
    exact hok _ (t₁.link0 (va / PGSIZE / 512) f) hm.inv (hg₁.trans hg') (by simp [Memory.setTable])
      (by simp [Pagetable.link0])
  unfold walk
  rw [if_neg (Nat.not_le.mpr hva), wp_bind, wp_table hr, wp_bind]
  refine wp_walkLevel h ?_ ?_ ?_
  · intro hp
    rw [if_pos rfl]
    exact hlevel0 s t h (.refl x s) hr hp
  · intro hp f s' ha
    have hnone : t.l1 (va / PGSIZE / 512 / 512) = none := by simpa using hp
    have hr' : s'.pgtbl r = some t := ha.pgtbl ▸ hr
    have hm := ha.inv.link1 hr' hidx hnone ha.one
    have hg' := Grown.link ha hr hm fun v => .refl _
    simp only [Memory.updateTable, hr', Option.map_some, if_true]
    exact hlevel0 _ (t.link1 (va / PGSIZE / 512 / 512) f) hm.inv hg' (by simp [Memory.setTable])
      (by simp [Pagetable.link1])
  · intro s' h' hg' ho
    exact hfail s' h' hg' ho

/-! ## Looking entries up -/

omit [Layout] in
/-- Without allocation, `walk` finds the entries of linked pages. -/
theorem wp_walk_lookup {Q : Bool → Memory → Prop} {va : Nat} (hshape : Shape t)
    (hr : s.pgtbl r = some t) (hva : va < MAXVA) :
    wp (walk κ r va false) Q E s ↔ Q (t.l0 (va / PGSIZE / 512)).isSome s := by
  unfold walk walkLevel
  simp only [if_neg (Nat.not_le.mpr hva), wp_bind, wp_table hr]
  cases hl1 : t.l1 (va / PGSIZE / 512 / 512) with
  | none =>
      simp [hshape.l0_eq_none hl1]
  | some f =>
      cases hl0 : t.l0 (va / PGSIZE / 512) with
      | none => simp [wp_table hr, hl0]
      | some g => simp [wp_table hr, hl0]

omit [Layout] in
theorem wp_getPte {Q : Pte → Memory → Prop} {va : Nat} (hr : s.pgtbl r = some t) :
    wp (getPte r va) Q E s ↔ Q (t.pte (va / PGSIZE)) s := by
  rw [getPte, wp_bind, wp_table hr, wp_pure]

omit [Layout] in
theorem wp_setPte {Q : Unit → Memory → Prop} {va : Nat} {p : Pte} :
    wp (setPte r va p) Q E s ↔ Q () (s.setPte r (va / PGSIZE) p) := by
  simp [setPte]

/-- What `walkaddr` returns. -/
def Memory.addr (s : Memory) (r va : Nat) : Option Nat :=
  if va < MAXVA ∧ (s.pte r (va / PGSIZE)).v ∧ (s.pte r (va / PGSIZE)).u then
    some (s.pte r (va / PGSIZE)).pa
  else none

omit [Layout] in
theorem wp_walkaddr {Q : Option Nat → Memory → Prop} {va : Nat} (hshape : Shape t)
    (hr : s.pgtbl r = some t) : wp (walkaddr κ r va) Q E s ↔ Q (s.addr r va) s := by
  unfold walkaddr Memory.addr
  by_cases hva : va < MAXVA
  · simp only [if_neg (Nat.not_le.mpr hva), wp_bind, wp_walk_lookup hshape hr hva, hva, true_and,
      pte_of_some hr]
    cases hval : (t.pte (va / PGSIZE)).v with
    | false => cases (t.l0 (va / PGSIZE / 512)).isSome <;> simp [wp_getPte hr, hval]
    | true =>
        rw [hshape.pte_up _ hval]
        cases hu : (t.pte (va / PGSIZE)).u <;> simp [wp_getPte hr, hval, hu]
  · simp [hva, Nat.le_of_not_lt hva]

/-! ## Mapping a page -/

omit [Layout] in
theorem pgrounddown_page (v : Nat) : pgrounddown (v * PGSIZE) = v * PGSIZE := by
  rw [pgrounddown, frame_div]

omit [Layout] in
theorem pgrounddown_page_last (v : Nat) :
    pgrounddown (v * PGSIZE + PGSIZE - 1) = v * PGSIZE := by
  simp only [pgrounddown, PGSIZE]
  omega

/-- `mappages` for one page. -/
theorem wp_mappages {Q : Bool → Memory → Prop} {pa : Nat} {perm : Flags} (h : Inv κ s x)
    (hr : s.pgtbl r = some t)
    (hok : ∀ s' t', Inv κ s' x → Grown x s s' → s'.pgtbl r = some t' →
      (t'.l0 (v / 512)).isSome → v * PGSIZE < MAXVA → (s.pte r v).v = false →
      Q true (s'.setPte r v { perm with v := true, ppn := pa / PGSIZE }))
    (hfail : ∀ s', Inv κ s' x → Grown x s s' → s'.oom = true → Q false s')
    (hE : ∀ e s', e ≠ .kfree → ¬ (v * PGSIZE < MAXVA ∧ (s.pte r v).v = false) → E e s') :
    wp (mappages κ r (v * PGSIZE) PGSIZE pa perm) Q E s := by
  unfold mappages
  rw [if_neg (by decide), pgrounddown_page, pgrounddown_page_last]
  simp only [Nat.sub_self, Nat.zero_div, mappagesLoop, wp_bind]
  by_cases hva : v * PGSIZE < MAXVA
  · refine wp_walk_alloc h hr hva ?_ hfail
    intro s' t' h' hg hr' hup
    rw [frame_div] at hup
    simp only [if_true, wp_bind, wp_getPte hr', frame_div, wp_ite, wp_throw, wp_setPte, wp_pure]
    have hsame := hg.pte r v
    rw [pte_of_some hr'] at hsame
    refine ⟨?_, ?_⟩
    · intro hval
      exact hE _ s' (by decide) fun hc => by simp [hc.2 ▸ hsame.1] at hval
    · intro hval
      refine hok s' t' h' hg hr' hup hva ?_
      rw [← hsame.1]
      simpa using hval
  · unfold walk
    rw [if_pos (Nat.le_of_not_lt hva)]
    exact hE _ s (by decide) fun hc => hva hc.1

omit [Layout] in
/-- `mappages` for a page whose entry exists needs no allocation. -/
theorem wp_mappages_present {Q : Bool → Memory → Prop} {pa : Nat} {perm : Flags} (hshape : Shape t)
    (hr : s.pgtbl r = some t) (hva : v * PGSIZE < MAXVA) (hup : (t.l0 (v / 512)).isSome)
    (hinv : (t.pte v).v = false)
    (hok : Q true (s.setPte r v { perm with v := true, ppn := pa / PGSIZE })) :
    wp (mappages κ r (v * PGSIZE) PGSIZE pa perm) Q E s := by
  obtain ⟨f, hf⟩ := Option.isSome_iff_exists.mp hup
  have hup1 := hshape.l0_up _ f hf
  unfold mappages
  rw [if_neg (by decide), pgrounddown_page, pgrounddown_page_last]
  simp only [Nat.sub_self, Nat.zero_div, mappagesLoop, wp_bind]
  unfold walk walkLevel
  simp only [if_neg (Nat.not_le.mpr hva), wp_bind, wp_table hr, frame_div, hup1, hup, if_true,
    wp_pure, wp_getPte hr, hinv, Bool.false_eq_true, if_false, wp_setPte]
  exact hok

/-- The trampoline and the trapframe are mapped, and not for the user. -/
def Topped (s : Memory) (r : Nat) : Prop :=
  ∀ v, UPAGES ≤ v → v * PGSIZE < MAXVA →
    (s.pte r v).v = true ∧ (s.pte r v).u = false ∧ (s.pte r v).r = true

omit [Layout] in
theorem Topped.kept (h : Topped s r) (hk : Kept s s') : Topped s' r := by
  intro v hv hva
  have hval := h v hv hva
  rw [(hk.top r v hv).2 hval.1]
  exact hval

omit [Layout] in
theorem user_of_topped (h : Topped s r) (hva : v * PGSIZE < MAXVA) (hinv : (s.pte r v).v = false) :
    v < UPAGES := by
  by_contra hge
  have := (h v (by omega) hva).1
  simp [hinv] at this

omit [Layout] in
theorem space_eq_none (hinv : (s.pte r v).v = false) : s.space r v = none :=
  if_neg (by simp [hinv])

/-- The page of frame `f` with permissions `perm`. -/
def Memory.pageOf (s : Memory) (f : Nat) (perm : Flags) : Page :=
  s.page { perm with v := true, ppn := f }

omit [Layout] in
theorem user_lt_maxva (hv : v < UPAGES) : v * PGSIZE < MAXVA := by
  rw [UPAGES_eq] at hv
  simp only [MAXVA, PGSIZE]
  omega

/-- Mapping a frame that an owner holds. -/
theorem wp_mappages_user {Q : Bool → Memory → Prop} {perm : Flags} (h : Inv κ s (inc x f))
    (hr : s.pgtbl r = some t) (htop : Topped s r) (hread : perm.r = true)
    (hwrite : perm.w = true → perm.rsw = false ∧ s.total (inc x f) f = 1)
    (hmark : κ = .unpatched → perm.rsw = false)
    (hsame : ∀ r', ∀ v' < UPAGES, (s.pte r' v').v = true → (s.pte r' v').ppn = f → v' = v)
    (hok : ∀ s', Inv κ s' x → Kept s s' → v < UPAGES → s.space r v = none →
      s'.space = Function.update s.space r
        (Function.update (s.space r) v (some (s.pageOf f perm))) → Q true s')
    (hfail : ∀ s', Inv κ s' (inc x f) → Grown (inc x f) s s' → s'.oom = true → Q false s')
    (hE : ∀ e s', e ≠ .kfree → ¬ (v < UPAGES ∧ s.space r v = none) → E e s') :
    wp (mappages κ r (v * PGSIZE) PGSIZE (f * PGSIZE) perm) Q E s := by
  have hpos : s.total (inc x f) f ≠ 0 := by
    rw [total_inc, inc_self]
    omega
  refine wp_mappages h hr ?_ hfail ?_
  · intro s' t' h' hg hr' hup hva hinv
    have hv := user_of_topped htop hva hinv
    have hinv' : (t'.pte v).v = false := by
      rw [← pte_of_some hr', (hg.pte r v).1, hinv]
    rw [frame_div]
    have hm := h'.map hr' hv hinv' hup (p := { perm with v := true, ppn := f }) rfl rfl
      ⟨hread, fun hw => ⟨(hwrite hw).1, (hg.total f hpos).trans (hwrite hw).2⟩, hmark⟩
      fun r₁ v₁ hv₁ hval hppn => ?_
    · refine hok _ hm.inv (hg.kept.trans (.setPte hr' hv _)) hv (space_eq_none hinv) ?_
      have hbytes : ∀ a, a / PGSIZE = f → s'.mem a = s.mem a := by
        intro a ha
        apply hg.mem a
        rw [ha]
        exact hpos
      rw [space_setPte hr' hv, hg.space_eq h, if_pos rfl, Memory.pageOf, page_congr hbytes]
    · have hval' := (hg.pte r₁ v₁).1 ▸ hval
      have heq := (hg.pte r₁ v₁).2 hval'
      exact hsame r₁ v₁ hv₁ hval' (heq ▸ hppn)
  · intro e s' he hc
    refine hE e s' he fun ⟨hv, hnone⟩ => hc ⟨?_, ?_⟩
    · exact user_lt_maxva hv
    · cases hval : (s.pte r v).v with
      | false => rfl
      | true => simp [space_of_valid hv hval] at hnone

/-! ## Unmapping a page -/

/-- There is nothing to unmap. -/
theorem wp_unmapPage_invalid {Q : Unit → Memory → Prop} (hshape : Shape t)
    (hr : s.pgtbl r = some t) (hval : (t.pte v).v = false) (hE : ∀ e s', e ≠ .kfree → E e s') :
    wp (unmapPage κ r (v * PGSIZE) true) Q E s := by
  unfold unmapPage
  rw [wp_bind]
  by_cases hva : v * PGSIZE < MAXVA
  · rw [wp_walk_lookup hshape hr hva, frame_div]
    cases (t.l0 (v / 512)).isSome with
    | false => exact hE _ s (by decide)
    | true =>
        simp only [if_true, wp_bind, wp_getPte hr, frame_div, hval, Bool.not_false, wp_throw]
        exact hE _ s (by decide)
  · unfold walk
    rw [if_pos (Nat.le_of_not_lt hva)]
    exact hE _ s (by decide)

/-- Unmapping a user page and freeing its frame. -/
theorem wp_unmapPage {Q : Unit → Memory → Prop} (h : Inv κ s x) (hr : s.pgtbl r = some t)
    (hv : v < UPAGES ∨ (s.pte r v).v = false)
    (hok : ∀ s', Inv κ s' x → Kept s s' → v < UPAGES →
      s'.space = Function.update s.space r (Function.update (s.space r) v none) → Q () s')
    (hE : ∀ e s', e ≠ .kfree → s.space r v = none → E e s') :
    wp (unmapPage κ r (v * PGSIZE) true) Q E s := by
  have hshape := h.shape r t hr
  rw [pte_of_some hr] at hv
  cases hval : (t.pte v).v with
  | false =>
      refine wp_unmapPage_invalid hshape hr hval fun e s' he => hE e s' he ?_
      exact space_eq_none (by rw [pte_of_some hr, hval])
  | true =>
      have hv : v < UPAGES := hv.resolve_right (by simp [hval])
      unfold unmapPage
      rw [wp_bind, wp_walk_lookup hshape hr (user_lt_maxva hv), frame_div]
      have hleaf := h.leaf r v hv (by rwa [pte_of_some hr])
      rw [pte_of_some hr] at hleaf
      have hflags : (t.pte v).toFlags ≠ { v := true } := by
        intro heq
        have hread := hleaf.readable
        rw [heq] at hread
        cases hread
      have hm := h.unmap hr hv hval (p := Pte.zero) rfl
      rw [hshape.pte_up v hval]
      simp only [if_true, wp_bind, wp_getPte hr, frame_div, hval, Bool.not_true, hflags, if_false,
        Bool.false_eq_true]
      have hkfree := wp_kfree_then (Q := Q) (E := E) (u := (·.setPte r v Pte.zero))
        (P := fun m => Function.update m r ((m r).map fun t =>
          { t with pte := Function.update t.pte v Pte.zero }))
        (fun _ => rfl) hm.inv fun s' h' hpt hsp hoom => by
          refine hok s' h' ((Kept.setPte hr hv _).trans (.of_pgtbl hpt fun ho => hoom.trans ho)) hv ?_
          rw [hsp, space_setPte hr hv]
          rfl
      simpa only [wp_bind, wp_modify, setPte, frame_div, Pte.pa] using hkfree

/-- Unmapping the trampoline or the trapframe. -/
theorem wp_unmapPage_top {Q : Unit → Memory → Prop} (h : Inv κ s x) (hr : s.pgtbl r = some t)
    (hv : UPAGES ≤ v) (hva : v * PGSIZE < MAXVA) (hval : (t.pte v).v = true)
    (hread : (t.pte v).r = true) (hok : Inv κ (s.setPte r v Pte.zero) x → Q () (s.setPte r v Pte.zero)) :
    wp (unmapPage κ r (v * PGSIZE) false) Q E s := by
  have hshape := h.shape r t hr
  have hflags : (t.pte v).toFlags ≠ { v := true } := by
    intro heq
    rw [heq] at hread
    cases hread
  unfold unmapPage
  rw [wp_bind, wp_walk_lookup hshape hr hva, frame_div, hshape.pte_up v hval]
  simp only [if_true, wp_bind, wp_getPte hr, frame_div, hval, Bool.not_true, hflags, if_false,
    Bool.false_eq_true, wp_setPte]
  exact hok (h.setTop hr hv (by simp [Pte.zero])).inv

end Vm
