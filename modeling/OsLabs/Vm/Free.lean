-- SUMMARY: Specifications of creating and freeing page tables: a new one is empty, and freeing one gives back every page of it.
import OsLabs.Vm.Uvm

/-!
# Creating and freeing page tables

`freewalk` unlinks the pages of a table from the leaves up and gives each of them back. It
panics if anything is still mapped, so its callers unmap the user pages, the trampoline
and the trapframe first.
-/

namespace Vm

open Effect

variable [Layout] {κ : Version} {s s' : Memory} {x : Nat → Nat} {r v : Nat} {t t' : Pagetable}
variable {E : Panic → Memory → Prop}

/-! ## `freewalk` -/

/-- Pages of the table of `r` have been given back. -/
structure Freeing (κ : Version) (x : Nat → Nat) (r : Nat) (s : Memory) (t : Pagetable) (s' : Memory)
    (t' : Pagetable) : Prop where
  inv : Inv κ s' x
  pgtbl : s'.pgtbl = Function.update s.pgtbl r (some t')
  pte : t'.pte = t.pte
  l1 : ∀ i, t.l1 i = none → t'.l1 i = none
  l0 : ∀ j, t.l0 j = none → t'.l0 j = none
  space : s'.space = s.space
  oom : s'.oom = s.oom

theorem Freeing.refl (h : Inv κ s x) (hr : s.pgtbl r = some t) : Freeing κ x r s t s t :=
  ⟨h, by rw [← hr, Function.update_eq_self], rfl, fun _ => id, fun _ => id, rfl, rfl⟩

theorem Freeing.trans {s'' : Memory} {t'' : Pagetable} (h₁ : Freeing κ x r s t s' t')
    (h₂ : Freeing κ x r s' t' s'' t'') : Freeing κ x r s t s'' t'' where
  inv := h₂.inv
  pgtbl := by rw [h₂.pgtbl, h₁.pgtbl, Function.update_idem]
  pte := h₂.pte.trans h₁.pte
  l1 i hi := h₂.l1 i (h₁.l1 i hi)
  l0 j hj := h₂.l0 j (h₁.l0 j hj)
  space := h₂.space.trans h₁.space
  oom := h₂.oom.trans h₁.oom

theorem Freeing.root (h : Freeing κ x r s t s' t') : s'.pgtbl r = some t' := by
  rw [h.pgtbl, Function.update_self]

omit [Layout] in
/-- A level-0 page without leaves, seen from the loop over its entries. -/
theorem wp_freewalk0 {Q : Unit → Memory → Prop} {j : Nat} (hr : s.pgtbl r = some t)
    (hok : (∀ v, v / 512 = j → (t.pte v).v = false) → Q () s)
    (hE : ∀ e, e ≠ .kfree → (∃ v, (t.pte v).v = true) → E e s) : wp (freewalk0 r j) Q E s := by
  unfold freewalk0
  refine wp_upto_of (fun i s' => s' = s ∧ ∀ k < i, (t.pte (j * 512 + k)).v = false) ⟨rfl, by simp⟩
    (fun i _ s' ⟨hs, hI⟩ => ?_) fun s' ⟨hs, hI⟩ => ?_
  · subst hs
    simp only [wp_bind, wp_table hr, wp_ite, wp_throw, wp_pure]
    refine ⟨fun hval => ⟨?_, ?_⟩, fun hval => ⟨trivial, ?_⟩⟩
    · intro _
      exact hE _ (by decide) ⟨_, hval⟩
    · intro _
      exact hE _ (by decide) ⟨_, hval⟩
    · intro k hk
      by_cases hki : k = i
      · simpa [hki] using hval
      · exact hI k (by omega)
  · subst hs
    apply hok
    intro v hv
    have hval := hI (v % 512) (Nat.mod_lt v (by decide))
    rwa [← hv, Nat.div_add_mod' v 512] at hval

/-- Unlinking a page of the table gives it back. -/
theorem wp_unlink {Q : Unit → Memory → Prop} {g : Pagetable → Pagetable} {f : Nat}
    (hr : s.pgtbl r = some t) (hm : Moved κ s x (s.setTable r (some (g t))) (inc x f))
    (hpte : (g t).pte = t.pte) (hl1 : ∀ i, t.l1 i = none → (g t).l1 i = none)
    (hl0 : ∀ j, t.l0 j = none → (g t).l0 j = none)
    (hok : ∀ s', Freeing κ x r s t s' (g t) → Q () s') :
    wp (do
      kfree κ (f * PGSIZE)
      modify (·.updateTable r g)) Q E s := by
  have hset : s.updateTable r g = s.setTable r (some (g t)) := by simp [Memory.updateTable, hr]
  have hsp : (s.setTable r (some (g t))).space = s.space := by
    refine space_congr (fun r' v' _ => .of_eq ?_) fun _ _ _ _ _ _ => rfl
    by_cases hrr : r' = r
    · rw [hrr, pte_setTable_self, pte_of_some hr, hpte]
    · rw [pte_setTable_of_ne hrr]
  refine wp_kfree_then (P := fun m => Function.update m r ((m r).map g)) (fun _ => rfl)
    (hset ▸ hm.inv) fun s' h' hpt hsp' hoom => hok s' ?_
  rw [hset] at hpt hsp'
  exact ⟨h', hpt, hpte, hl1, hl0, hsp'.trans hsp, hoom⟩

omit [Layout] in
/-- Clearing an entry leaves missing pages missing. -/
theorem update_none_of_none {l : Nat → Option Nat} {i k : Nat} (h : l k = none) :
    Function.update l i none k = none := by
  by_cases hki : k = i
  · simp [hki]
  · simpa [hki] using h

theorem wp_freewalk1 {Q : Unit → Memory → Prop} {i : Nat} (h : Inv κ s x)
    (hr : s.pgtbl r = some t)
    (hok : ∀ s' t', Freeing κ x r s t s' t' → t'.l1 = t.l1 → (∀ j, j / 512 = i → t'.l0 j = none) →
      Q () s')
    (hE : ∀ e s', e ≠ .kfree → (∃ v, (t.pte v).v = true) → E e s') :
    wp (freewalk1 κ r i) Q E s := by
  unfold freewalk1
  refine wp_upto_of (fun j s' => ∃ t', Freeing κ x r s t s' t' ∧ t'.l1 = t.l1 ∧
    ∀ k < j, t'.l0 (i * 512 + k) = none) ⟨t, .refl h hr, rfl, by simp⟩
    (fun j _ s₁ ⟨t₁, hf, hl1, hI⟩ => ?_) fun s₁ ⟨t₁, hf, hl1, hI⟩ => ?_
  · rw [wp_bind, wp_table hf.root]
    cases hj : t₁.l0 (i * 512 + j) with
    | none =>
        refine ⟨t₁, hf, hl1, ?_⟩
        intro k hk
        by_cases hkj : k = j
        · rwa [hkj]
        · exact hI k (by omega)
    | some f =>
        dsimp only
        rw [wp_bind]
        refine wp_freewalk0 hf.root ?_ ?_
        · intro hinv
          refine wp_unlink hf.root (hf.inv.unlink0 hf.root hj hinv) rfl (fun _ => id)
            (fun _ => update_none_of_none) ?_
          intro s₂ hf₂
          refine ⟨_, hf.trans hf₂, hl1, ?_⟩
          intro k hk
          by_cases hkj : k = j
          · simp [hkj]
          · exact update_none_of_none (hI k (by omega))
        · intro e he hval
          exact hE e s₁ he (hf.pte ▸ hval)
  · apply hok s₁ t₁ hf hl1
    intro j hj
    have hnone := hI (j % 512) (Nat.mod_lt j (by decide))
    rwa [← hj, Nat.div_add_mod' j 512] at hnone

/-- A table without level-1 pages maps nothing. -/
theorem Inv.space_of_l1_none (h : Inv κ s x) (hr : s.pgtbl r = some t) (hl1 : ∀ i, t.l1 i = none) :
    s.space r = fun _ => none := by
  funext v
  refine space_eq_none ?_
  rw [pte_of_some hr]
  by_contra hval
  have hshape := h.shape r t hr
  obtain ⟨g, hg⟩ := Option.isSome_iff_exists.mp (hshape.pte_up v (by simpa using hval))
  simpa [hl1] using hshape.l0_up _ g hg

theorem wp_freewalk {Q : Unit → Memory → Prop} (h : Inv κ s x) (hr : s.pgtbl r = some t)
    (hok : ∀ s', Inv κ s' x → s'.pgtbl = Function.update s.pgtbl r none → s'.space = s.space →
      s'.oom = s.oom → Q () s')
    (hE : ∀ e s', e ≠ .kfree → (∃ v, (t.pte v).v = true) → E e s') :
    wp (freewalk κ r) Q E s := by
  unfold freewalk
  rw [wp_bind]
  refine wp_upto_of (fun i s' => ∃ t', Freeing κ x r s t s' t' ∧ ∀ k < i, t'.l1 k = none)
    ⟨t, .refl h hr, by simp⟩ (fun i _ s₁ ⟨t₁, hf, hI⟩ => ?_) fun s₁ ⟨t₁, hf, hI⟩ => ?_
  · rw [wp_bind, wp_table hf.root]
    cases hi : t₁.l1 i with
    | none =>
        refine ⟨t₁, hf, ?_⟩
        intro k hk
        by_cases hki : k = i
        · rwa [hki]
        · exact hI k (by omega)
    | some f =>
        dsimp only
        rw [wp_bind]
        refine wp_freewalk1 hf.inv hf.root ?_ ?_
        · intro s₂ t₂ hf₂ hl1 hnone
          refine wp_unlink hf₂.root (hf₂.inv.unlink1 hf₂.root (hl1 ▸ hi) hnone) rfl
            (fun _ => update_none_of_none) (fun _ => id) ?_
          intro s₃ hf₃
          refine ⟨_, (hf.trans hf₂).trans hf₃, ?_⟩
          intro k hk
          by_cases hki : k = i
          · simp [hki]
          · exact update_none_of_none (hl1 ▸ hI k (by omega))
        · intro e s₂ he hval
          exact hE e s₂ he (hf.pte ▸ hval)
  · have hl1 : ∀ i, t₁.l1 i = none := by
      intro i
      cases hi : t₁.l1 i with
      | none => rfl
      | some f =>
          have hlt := (hf.inv.shape r t₁ hf.root).l1_lt i f hi
          rw [hI i (by omega)] at hi
          cases hi
    have hm := hf.inv.dropRoot hf.root hl1
    refine wp_kfree_then (u := (·.setTable r none)) (P := fun m => Function.update m r none)
      (fun _ => rfl) hm.inv fun s₂ h₂ hpt hsp hoom => hok s₂ h₂ ?_ ?_ (hoom.trans hf.oom)
    · rw [hpt, Memory.setTable, hf.pgtbl, Function.update_idem]
    · have hnone := hf.inv.space_of_l1_none hf.root hl1
      rw [hsp, ← hf.space]
      funext r' v
      by_cases hrr : r' = r
      · subst hrr
        rw [hnone]
        exact space_eq_none (by simp [Memory.pte, Memory.setTable, Pte.zero])
      · unfold Memory.space
        rw [pte_setTable_of_ne hrr]
        rfl

/-! ## Page tables that come and go -/

/-- `Kept` for all page tables but one. -/
structure KeptBut (r : Nat) (s s' : Memory) : Prop where
  live : ∀ r' ≠ r, (s'.pgtbl r').isSome = (s.pgtbl r').isSome
  top : ∀ r' ≠ r, ∀ v, UPAGES ≤ v → (s.pte r' v).Same (s'.pte r' v)
  oom : s.oom = true → s'.oom = true

omit [Layout] in
theorem Kept.but (h : Kept s s') (r : Nat) : KeptBut r s s' :=
  ⟨fun r' _ => h.live r', fun r' _ => h.top r', h.oom⟩

omit [Layout] in
theorem KeptBut.trans {s'' : Memory} (h₁ : KeptBut r s s') (h₂ : KeptBut r s' s'') :
    KeptBut r s s'' :=
  ⟨fun r' hne => (h₂.live r' hne).trans (h₁.live r' hne),
    fun r' hne v hv => (h₁.top r' hne v hv).trans (h₂.top r' hne v hv), h₂.oom ∘ h₁.oom⟩

omit [Layout] in
theorem KeptBut.setTable (s : Memory) (r : Nat) (o : Option Pagetable) :
    KeptBut r s (s.setTable r o) :=
  ⟨fun r' hne => by simp [Memory.setTable, hne],
    fun r' hne v _ => .of_eq (pte_setTable_of_ne hne o v), id⟩

omit [Layout] in
/-- A page table that was there neither before nor after does not matter. -/
theorem KeptBut.kept (h : KeptBut r s s') (hs : s.pgtbl r = none) (hs' : s'.pgtbl r = none) :
    Kept s s' := by
  refine ⟨?_, ?_, h.oom⟩
  · intro r'
    by_cases hrr : r' = r
    · rw [hrr, hs, hs']
    · exact h.live r' hrr
  · intro r' v hv
    by_cases hrr : r' = r
    · exact .of_eq (by simp [Memory.pte, hrr, hs, hs'])
    · exact h.top r' hrr v hv

omit [Layout] in
theorem KeptBut.topped {r' : Nat} (h : KeptBut r s s') (hne : r' ≠ r) (htop : Topped s r') :
    Topped s' r' := by
  intro v hv hva
  have hval := htop v hv hva
  rw [(h.top r' hne v hv).2 hval.1]
  exact hval

omit [Layout] in
theorem space_of_dead (hr : s.pgtbl r = none) : s.space r = fun _ => none := by
  funext v
  exact space_eq_none (by simp [Memory.pte, hr, Pte.zero])

/-- `uvmfree` panics if a page below `sz` is missing, or anything else is mapped. -/
theorem wp_uvmfree {Q : Unit → Memory → Prop} {sz : Nat} (h : Inv κ s x) (hr : s.pgtbl r = some t)
    (hrange : UserSize sz ∨ ∀ w, UPAGES ≤ w → (s.pte r w).v = false)
    (hok : ∀ s', Inv κ s' x → KeptBut r s s' → s'.pgtbl r = none →
      s'.space = Function.update s.space r (fun _ => none) → Q () s')
    (hE : ∀ e s', e ≠ .kfree → (∃ w < npages sz, s.space r w = none) ∨
      (∃ w, npages sz ≤ w ∧ (s.pte r w).v = true) → E e s') :
    wp (uvmfree κ r sz) Q E s := by
  -- What `freewalk` does once the user pages are gone.
  have hwalk : ∀ s₁, Inv κ s₁ x → Kept s s₁ →
      s₁.space = Function.update s.space r ((s.space r).fill 0 (npages sz) none) →
      wp (freewalk κ r) Q E s₁ := by
    intro s₁ h₁ hk₁ hsp₁
    obtain ⟨t₁, hr₁⟩ := hk₁.live_of hr
    refine wp_freewalk h₁ hr₁ ?_ ?_
    · intro s' h' hpt hsp hoom
      have hdead : s'.pgtbl r = none := by rw [hpt, Function.update_self]
      have hdrop : KeptBut r s₁ s' :=
        ⟨fun r' hne => by rw [hpt, Function.update_of_ne hne],
          fun r' hne v _ => .of_eq (by simp [Memory.pte, hpt, hne]), fun ho => hoom.trans ho⟩
      refine hok s' h' ((hk₁.but r).trans hdrop) hdead ?_
      funext r'
      by_cases hrr : r' = r
      · rw [hrr, Function.update_self, space_of_dead hdead]
      · rw [hsp, hsp₁, Function.update_of_ne hrr, Function.update_of_ne hrr]
    · intro e s' he hleft
      obtain ⟨v, hval⟩ := hleft
      rw [← pte_of_some hr₁] at hval
      refine hE e s' he (.inr ⟨v, ?_⟩)
      by_cases hv : v < UPAGES
      · have hsome : (s₁.space r v).isSome := space_isSome.mpr ⟨hv, hval⟩
        rw [hsp₁, Function.update_self, Space.fill] at hsome
        split at hsome
        · cases hsome
        · exact ⟨by omega, (space_isSome.mp hsome).2⟩
      · have hsame := hk₁.top r v (by omega)
        rcases hrange with hsz | hinv
        · exact ⟨by have := hsz.npages_le; omega, hsame.1 ▸ hval⟩
        · rw [hsame.1, hinv v (by omega)] at hval
          cases hval
  unfold uvmfree
  by_cases hsz : sz > 0
  · simp only [if_pos hsz, wp_bind]
    have hunmap : wp (uvmunmap κ r (0 * PGSIZE) (npages sz) true)
        (fun _ s' => wp (freewalk κ r) Q E s') E s := by
      refine wp_uvmunmap h hr ?_ hwalk ?_
      · rcases hrange with hsz | hinv
        · have hle := hsz.npages_le
          exact .inl (by omega)
        · exact .inr hinv
      · intro e s' he hmissing
        obtain ⟨w, _, hw, hnone⟩ := hmissing
        exact hE e s' he (.inl ⟨w, by omega, hnone⟩)
    rwa [Nat.zero_mul] at hunmap
  · have hzero : sz = 0 := by omega
    simp only [if_neg hsz]
    refine hwalk s h (.refl s) ?_
    have hpages : npages sz = 0 := by rw [hzero]; decide
    rw [hpages, Space.fill_zero, Function.update_eq_self]

/-! ## The trampoline and the trapframe -/

omit [Layout] in
theorem TRAMPOLINE_eq : TRAMPOLINE = (UPAGES + 1) * PGSIZE := by
  rw [UPAGES_eq]
  decide

omit [Layout] in
theorem TRAPFRAME_eq : TRAPFRAME = UPAGES * PGSIZE := by
  rw [UPAGES_eq]
  decide

omit [Layout] in
/-- There are two pages above those of the user. -/
theorem top_cases (hv : UPAGES ≤ v) (hva : v * PGSIZE < MAXVA) : v = UPAGES ∨ v = UPAGES + 1 := by
  rw [MAXVA_eq] at hva
  rw [UPAGES_eq] at *
  simp only [PGSIZE] at hva
  omega

omit [Layout] in
theorem top_lt_maxva : UPAGES * PGSIZE < MAXVA ∧ (UPAGES + 1) * PGSIZE < MAXVA := by
  rw [UPAGES_eq]
  decide

theorem Inv.valid_lt_maxva (h : Inv κ s x) (hval : (s.pte r v).v = true) : v * PGSIZE < MAXVA := by
  obtain ⟨t, hr⟩ := live_of_valid hval
  rw [pte_of_some hr] at hval
  have hshape := h.shape r t hr
  obtain ⟨f, hf⟩ := Option.isSome_iff_exists.mp (hshape.pte_up v hval)
  obtain ⟨g, hg⟩ := Option.isSome_iff_exists.mp (hshape.l0_up _ f hf)
  have hlt := hshape.l1_lt _ g hg
  rw [MAXVA_eq]
  simp only [PGSIZE]
  omega

theorem wp_uvmunmap_top {Q : Unit → Memory → Prop} (h : Inv κ s x) (hr : s.pgtbl r = some t)
    (hv : UPAGES ≤ v) (hva : v * PGSIZE < MAXVA) (hval : (s.pte r v).v = true)
    (hread : (s.pte r v).r = true)
    (hok : Inv κ (s.setPte r v Pte.zero) x → Q () (s.setPte r v Pte.zero)) :
    wp (uvmunmap κ r (v * PGSIZE) 1 false) Q E s := by
  unfold uvmunmap
  rw [if_neg (by simp), wp_upto_one, Nat.zero_mul, Nat.add_zero]
  rw [pte_of_some hr] at hval hread
  exact wp_unmapPage_top h hr hv hva hval hread hok

theorem wp_procFreepagetable {Q : Unit → Memory → Prop} {sz : Nat} (h : Inv κ s x)
    (hr : s.pgtbl r = some t) (htop : Topped s r)
    (hok : ∀ s', Inv κ s' x → KeptBut r s s' → s'.pgtbl r = none →
      s'.space = Function.update s.space r (fun _ => none) → Q () s')
    (hE : ∀ e s', e ≠ .kfree → (∃ w < npages sz, s.space r w = none) ∨
      (∃ w, npages sz ≤ w ∧ (s.space r w).isSome) → E e s') :
    wp (procFreepagetable κ r sz) Q E s := by
  -- Names for the two pages, so that their addresses are not computed.
  obtain ⟨u₀, hu₀⟩ : ∃ u, UPAGES = u := ⟨_, rfl⟩
  obtain ⟨u₁, hu₁⟩ : ∃ u, UPAGES + 1 = u := ⟨_, rfl⟩
  have hne : u₀ ≠ u₁ := by omega
  have hlt₀ : u₀ * PGSIZE < MAXVA := hu₀ ▸ top_lt_maxva.1
  have hlt₁ : u₁ * PGSIZE < MAXVA := hu₁ ▸ top_lt_maxva.2
  obtain ⟨hval₀, _, hread₀⟩ := htop u₀ (by omega) hlt₀
  obtain ⟨hval₁, _, hread₁⟩ := htop u₁ (by omega) hlt₁
  unfold procFreepagetable
  rw [TRAMPOLINE_eq, TRAPFRAME_eq, hu₁, hu₀, wp_bind]
  apply wp_uvmunmap_top h hr (by omega) hlt₁ hval₁ hread₁
  intro h₁
  have hr₁ := setPte_live hr u₁ Pte.zero
  have hpte₁ := pte_setPte_of_ne hr hne Pte.zero
  have hsp₁ := space_setPte_of_le hr (show UPAGES ≤ u₁ by omega) Pte.zero
  have hzero₁ := pte_setPte_self hr u₁ Pte.zero
  have hkept₁ : KeptBut r s (s.setPte r u₁ Pte.zero) := .setTable s r _
  generalize s.setPte r u₁ Pte.zero = s₁ at *
  rw [wp_bind]
  apply wp_uvmunmap_top h₁ hr₁ (by omega) hlt₀ (hpte₁ ▸ hval₀) (hpte₁ ▸ hread₀)
  intro h₂
  have hr₂ := setPte_live hr₁ u₀ Pte.zero
  have hzero₂ := pte_setPte_self hr₁ u₀ Pte.zero
  have hpte₂ := pte_setPte_of_ne hr₁ hne.symm Pte.zero
  have hsp₂ := (space_setPte_of_le hr₁ (show UPAGES ≤ u₀ by omega) Pte.zero).trans hsp₁
  have hkept₂ : KeptBut r s (s₁.setPte r u₀ Pte.zero) := hkept₁.trans (.setTable s₁ r _)
  generalize s₁.setPte r u₀ Pte.zero = s₂ at *
  -- Both entries are gone, so there is none above the user pages.
  have hinv : ∀ w, UPAGES ≤ w → (s₂.pte r w).v = false := by
    intro w hw
    by_contra hval
    rcases top_cases hw (h₂.valid_lt_maxva (by simpa using hval)) with rfl | rfl
    · simp [hu₀, hzero₂, Pte.zero] at hval
    · simp [hu₁, hpte₂, hzero₁, Pte.zero] at hval
  refine wp_uvmfree h₂ hr₂ (.inr hinv) ?_ ?_
  · intro s' h' hk hdead hsp
    exact hok s' h' (hkept₂.trans hk) hdead (hsp₂ ▸ hsp)
  · intro e s' he hc
    refine hE e s' he ?_
    rw [hsp₂] at hc
    refine hc.imp_right ?_
    rintro ⟨w, hw, hval⟩
    refine ⟨w, hw, ?_⟩
    rw [← hsp₂, space_isSome]
    refine ⟨?_, hval⟩
    by_contra hge
    simp [hinv w (by omega)] at hval

/-! ## New page tables -/

theorem wp_uvmcreate {Q : Option Nat → Memory → Prop} (h : Inv κ s x)
    (hok : ∀ r s', Inv κ s' x → KeptBut r s s' → s.pgtbl r = none →
      s'.pgtbl r = some Pagetable.empty → s'.space = s.space → Q (some r) s')
    (hfail : ∀ s', Inv κ s' x → Kept s s' → s'.space = s.space → s'.oom = true → Q none s') :
    wp (uvmcreate κ) Q E s := by
  unfold uvmcreate
  rw [wp_bind]
  refine wp_kalloc_inv h (fun _ => hfail _ h.setOom .setOom space_setOom rfl) ?_
  intro f s₁ ha
  have ha' : Alloced κ x f s { s₁ with mem := memset s₁.mem (f * PGSIZE) 0 PGSIZE } :=
    ha.fill fun _ => 0
  simp only [wp_bind, wp_modify, wp_pure, frame_div]
  generalize { s₁ with mem := memset s₁.mem (f * PGSIZE) 0 PGSIZE } = s₂ at ha' ⊢
  have hdead : s.pgtbl f = none := ha'.pgtbl ▸ ha'.inv.not_root ha'.one
  refine hok f _ (ha'.inv.newRoot ha'.one).inv ((ha'.kept.but f).trans (.setTable s₂ f _)) hdead
    (by simp [Memory.setTable]) ?_
  rw [← ha'.space_eq h]
  funext r
  by_cases hrf : r = f
  · subst hrf
    rw [space_of_dead (ha'.inv.not_root ha'.one)]
    funext v
    exact space_eq_none (by rw [pte_setTable_self]; rfl)
  · funext v
    unfold Memory.space
    rw [pte_setTable_of_ne hrf]
    rfl

/-- Mapping the trampoline or the trapframe. -/
theorem wp_mappages_top {Q : Bool → Memory → Prop} {pa : Nat} {perm : Flags} (h : Inv κ s x)
    (hr : s.pgtbl r = some t) (hv : UPAGES ≤ v) (hva : v * PGSIZE < MAXVA)
    (hinv : (s.pte r v).v = false)
    (hok : ∀ s' t', Inv κ s' x → KeptBut r s s' → s'.pgtbl r = some t' →
      s'.pte r v = { perm with v := true, ppn := pa / PGSIZE } →
      (∀ w ≠ v, (s.pte r w).Same (s'.pte r w)) → s'.space = s.space → Q true s')
    (hfail : ∀ s', Inv κ s' x → Kept s s' → (∀ w, (s.pte r w).Same (s'.pte r w)) →
      s'.space = s.space → s'.oom = true → Q false s') :
    wp (mappages κ r (v * PGSIZE) PGSIZE pa perm) Q E s := by
  refine wp_mappages h hr ?_
    (fun s' h' hg ho => hfail s' h' hg.kept (hg.pte r) (hg.space_eq h) ho)
    fun e s' _ hc => absurd ⟨hva, hinv⟩ hc
  intro s' t' h' hg hr' hup _ _
  refine hok _ _ (h'.setTop hr' hv fun _ => hup).inv ((hg.kept.but r).trans (.setTable s' r _))
    (setPte_live hr' v _) (pte_setPte_self hr' v _) ?_ ?_
  · intro w hw
    rw [pte_setPte_of_ne hr' hw]
    exact hg.pte r w
  · rw [space_setPte_of_le hr' hv, hg.space_eq h]

/-- Giving up a page table with nothing in it. -/
theorem wp_uvmfree_empty {Q : Unit → Memory → Prop} (h : Inv κ s x) (hr : s.pgtbl r = some t)
    (hinv : ∀ w, (s.pte r w).v = false)
    (hok : ∀ s', Inv κ s' x → KeptBut r s s' → s'.pgtbl r = none → s'.space = s.space → Q () s') :
    wp (uvmfree κ r 0) Q E s := by
  have hspace : s.space r = fun _ => none := by
    funext w
    exact space_eq_none (hinv w)
  refine wp_uvmfree h hr (.inr fun w _ => hinv w) ?_ ?_
  · intro s' h' hk hdead hsp
    rw [← hspace, Function.update_eq_self] at hsp
    exact hok s' h' hk hdead hsp
  · intro e s' _ hc
    rcases hc with ⟨w, hw, _⟩ | ⟨w, _, hval⟩
    · have hzero : npages 0 = 0 := by decide
      omega
    · rw [hinv w] at hval
      cases hval

theorem wp_procPagetable {Q : Option Nat → Memory → Prop} {trapframe : Nat} (h : Inv κ s x)
    (hok : ∀ r s', Inv κ s' x → KeptBut r s s' → s.pgtbl r = none → (s'.pgtbl r).isSome →
      Topped s' r → s'.space = s.space → Q (some r) s')
    (hfail : ∀ s', Inv κ s' x → Kept s s' → s'.space = s.space → s'.oom = true → Q none s') :
    wp (procPagetable κ trapframe) Q E s := by
  obtain ⟨u₀, hu₀⟩ : ∃ u, UPAGES = u := ⟨_, rfl⟩
  obtain ⟨u₁, hu₁⟩ : ∃ u, UPAGES + 1 = u := ⟨_, rfl⟩
  have hlt₀ : u₀ * PGSIZE < MAXVA := hu₀ ▸ top_lt_maxva.1
  have hlt₁ : u₁ * PGSIZE < MAXVA := hu₁ ▸ top_lt_maxva.2
  unfold procPagetable
  rw [TRAMPOLINE_eq, TRAPFRAME_eq, hu₁, hu₀, wp_bind]
  refine wp_uvmcreate h ?_ hfail
  intro r s₁ h₁ hk₁ hdead hr₁ hsp₁
  have hempty : ∀ w, (s₁.pte r w).v = false := fun w => by
    rw [pte_of_some hr₁]
    rfl
  dsimp only
  rw [wp_bind]
  refine wp_mappages_top h₁ hr₁ (by omega) hlt₁ (hempty u₁) ?_ ?_
  · intro s₂ t₂ h₂ hk₂ hr₂ hpte₂ hother₂ hsp₂
    rw [if_pos rfl, wp_bind]
    refine wp_mappages_top h₂ hr₂ (by omega) hlt₀ ?_ ?_ ?_
    · rw [(hother₂ u₀ (by omega)).1, hempty]
    · intro s₃ t₃ h₃ hk₃ hr₃ hpte₃ hother₃ hsp₃
      refine hok r s₃ h₃ ((hk₁.trans hk₂).trans hk₃) hdead (by rw [hr₃]; rfl) ?_
        (hsp₃.trans (hsp₂.trans hsp₁))
      intro w hw hva
      rcases top_cases hw hva with rfl | rfl
      · rw [hu₀, hpte₃]
        exact ⟨rfl, rfl, rfl⟩
      · rw [hu₁, (hother₃ u₁ (by omega)).2 (by rw [hpte₂]), hpte₂]
        exact ⟨rfl, rfl, rfl⟩
    · intro s₃ h₃ hk₃ hsame₃ hsp₃ hoom
      -- The trampoline is mapped already.
      obtain ⟨t₃, hr₃⟩ := hk₃.live_of hr₂
      have hpte₃ : s₃.pte r u₁ = s₂.pte r u₁ := (hsame₃ u₁).2 (by rw [hpte₂])
      rw [if_neg (by decide), wp_bind]
      refine wp_uvmunmap_top h₃ hr₃ (by omega) hlt₁ (by rw [hpte₃, hpte₂]) (by rw [hpte₃, hpte₂]; rfl)
        ?_
      intro h₄
      have hinv : ∀ w, ((s₃.setPte r u₁ Pte.zero).pte r w).v = false := by
        intro w
        by_cases hw : w = u₁
        · rw [hw, pte_setPte_self hr₃]
          rfl
        · rw [pte_setPte_of_ne hr₃ hw, (hsame₃ w).1, (hother₂ w hw).1, hempty]
      rw [wp_bind]
      apply wp_uvmfree_empty h₄ (setPte_live hr₃ u₁ Pte.zero) hinv
      intro s₅ h₅ hk₅ hdead₅ hsp₅
      have hk : KeptBut r s s₅ := (((hk₁.trans hk₂).trans (hk₃.but r)).trans (.setTable s₃ r _)).trans hk₅
      refine hfail s₅ h₅ (hk.kept hdead hdead₅) ?_ (hk₅.oom hoom)
      rw [hsp₅, space_setPte_of_le hr₃ (by omega), hsp₃, hsp₂, hsp₁]
  · intro s₂ h₂ hk₂ hsame₂ hsp₂ hoom
    obtain ⟨t₂, hr₂⟩ := hk₂.live_of hr₁
    rw [if_neg (by decide), wp_bind]
    apply wp_uvmfree_empty h₂ hr₂ (fun w => by rw [(hsame₂ w).1, hempty])
    intro s₃ h₃ hk₃ hdead₃ hsp₃
    have hk : KeptBut r s s₃ := (hk₁.trans (hk₂.but r)).trans hk₃
    exact hfail s₃ h₃ (hk.kept hdead hdead₃) (by rw [hsp₃, hsp₂, hsp₁]) (hk₃.oom hoom)

end Vm
