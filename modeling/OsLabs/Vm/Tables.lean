-- SUMMARY: What growing and shrinking an address space does to its page table: entries of other pages stay as they are, and pages of the table are added but not taken back.
import OsLabs.Vm.Outline
import OsLabs.Vm.Uvm

/-!
# Pages of a page table

The address space behind a page table does not show which pages the table itself is made of.
This file follows `uvmalloc` and `uvmdealloc` on the table: `walk` links new pages into it,
the entries of the range are written, and nothing else happens to it or to any other table.
-/

namespace Vm

open Effect

variable {κ : Version} {s s' s'' : Memory} {r v f a b : Nat} {t t' : Pagetable}

/-- `t'` is `t` with more pages, and with other entries from page `a` to page `b` only. -/
structure Pagetable.Extends (t : Pagetable) (a b : Nat) (t' : Pagetable) : Prop where
  shape : Shape t'
  l1 : ∀ i f, t.l1 i = some f → t'.l1 i = some f
  l0 : ∀ j f, t.l0 j = some f → t'.l0 j = some f
  pte : ∀ v, ¬ (a ≤ v ∧ v < b) → (t.pte v).Same (t'.pte v)

namespace Pagetable.Extends

theorem refl (h : Shape t) : t.Extends a b t := ⟨h, fun _ _ => id, fun _ _ => id, fun _ _ => .refl _⟩

theorem trans {t'' : Pagetable} (h₁ : t.Extends a b t') (h₂ : t'.Extends a b t'') :
    t.Extends a b t'' where
  shape := h₂.shape
  l1 i f hf := h₂.l1 i f (h₁.l1 i f hf)
  l0 j f hf := h₂.l0 j f (h₁.l0 j f hf)
  pte v hv := (h₁.pte v hv).trans (h₂.pte v hv)

/-- Pages of the table stay where they are. -/
theorem holds (h : t.Extends a b t') {k : Kind} {i : Nat} (hk : k = .level1 ∨ k = .level0)
    (hsome : (t.holds r k i).isSome) : (t'.holds r k i).isSome := by
  obtain ⟨f, hf⟩ := Option.isSome_iff_exists.mp hsome
  apply Option.isSome_iff_exists.mpr
  rcases hk with rfl | rfl
  · exact ⟨f, h.l1 i f hf⟩
  · exact ⟨f, h.l0 i f hf⟩

theorem link1 (h : t.Extends a b t') {i : Nat} (hi : i < 256) (hnone : t'.l1 i = none) :
    t.Extends a b (t'.link1 i f) where
  shape := h.shape.link1 hi hnone
  l1 i' g hg := by
    have hg' := h.l1 i' g hg
    have hne : i' ≠ i := by
      rintro rfl
      simp [hnone] at hg'
    simpa [Pagetable.link1, hne] using hg'
  l0 := by
    rw [h.shape.link1_l0 hnone]
    exact h.l0
  pte := h.pte

theorem link0 (h : t.Extends a b t') {j : Nat} (hup : (t'.l1 (j / 512)).isSome)
    (hnone : t'.l0 j = none) : t.Extends a b (t'.link0 j f) where
  shape := h.shape.link0 hup
  l1 := h.l1
  l0 j' g hg := by
    have hg' := h.l0 j' g hg
    have hne : j' ≠ j := by
      rintro rfl
      simp [hnone] at hg'
    simpa [Pagetable.link0, hne] using hg'
  pte v hv := (h.pte v hv).trans (h.shape.link0_same hnone v)

theorem setPte (h : t.Extends a b t') {p : Pte} (hup : p.v = true → (t'.l0 (v / 512)).isSome)
    (ha : a ≤ v) (hb : v < b) :
    t.Extends a b { t' with pte := Function.update t'.pte v p } where
  shape := h.shape.setPte hup
  l1 := h.l1
  l0 := h.l0
  pte w hw := by
    have hne : w ≠ v := by
      rintro rfl
      exact hw ⟨ha, hb⟩
    exact (h.pte w hw).trans (.of_eq (Function.update_of_ne hne ..))

end Pagetable.Extends

/-- From `s` to `s'` the table `r` has been extended and all others have been left alone. -/
structure Reworked (r a b : Nat) (s s' : Memory) : Prop where
  others : ∀ r' ≠ r, s'.pgtbl r' = s.pgtbl r'
  table : ∀ t, s.pgtbl r = some t → ∃ t', s'.pgtbl r = some t' ∧ t.Extends a b t'

namespace Reworked

theorem refl (h : ∀ t, s.pgtbl r = some t → Shape t) : Reworked r a b s s :=
  ⟨fun _ _ => rfl, fun t hr => ⟨t, hr, .refl (h t hr)⟩⟩

theorem trans (h₁ : Reworked r a b s s') (h₂ : Reworked r a b s' s'') : Reworked r a b s s'' where
  others r' hne := (h₂.others r' hne).trans (h₁.others r' hne)
  table t hr := by
    obtain ⟨t', hr', ht'⟩ := h₁.table t hr
    obtain ⟨t'', hr'', ht''⟩ := h₂.table t' hr'
    exact ⟨t'', hr'', ht'.trans ht''⟩

theorem congr (h : Reworked r a b s s') (hpt : s''.pgtbl = s'.pgtbl) :
    Reworked r a b s s'' :=
  ⟨hpt ▸ h.others, hpt ▸ h.table⟩

theorem set (h : Reworked r a b s s') (hr : s.pgtbl r = some t) (ht : t.Extends a b t') :
    Reworked r a b s (s'.setTable r (some t')) where
  others r' hne := by
    rw [← h.others r' hne]
    exact Function.update_of_ne hne ..
  table t₁ hr₁ := by
    cases hr.symm.trans hr₁
    exact ⟨t', Function.update_self .., ht⟩

end Reworked

/-! ## One page -/

/-- One level of `walk`, which takes its page from the allocator. -/
theorem wp_walkLevel_pgtbl {Q : Bool → Memory → Prop} {E : Panic → Memory → Prop} {present : Bool}
    {link : Nat → Memory → Memory} (hpresent : present = true → Q true s)
    (hlink : present = false → ∀ f s', s'.pgtbl = s.pgtbl → Q true (link f s'))
    (hfail : ∀ s', s'.pgtbl = s.pgtbl → Q false s')
    (hE : ∀ e s', s'.pgtbl = s.pgtbl → E e s') :
    wp (walkLevel κ present true link) Q E s := by
  unfold walkLevel
  cases present with
  | true => exact hpresent rfl
  | false =>
      simp only [Bool.false_eq_true, if_false, Bool.not_true, wp_bind]
      refine (keeps_kalloc s).mono ?_ fun e s' hpt => hE e s' hpt
      intro pa s' hpt
      cases pa with
      | none => exact hfail s' hpt
      | some pa =>
          simp only [wp_bind, wp_modify, wp_pure]
          exact hlink rfl _ _ hpt

/-- `walk` keeps to the table, and links what it needs for the entry it returns. -/
theorem Reworked.wp_walk {va : Nat} (h : Reworked r a b s s') (hr : s.pgtbl r = some t) :
    wp (walk κ r va true) (fun found s'' => Reworked r a b s s'' ∧ (found = true →
        ∃ t'', s''.pgtbl r = some t'' ∧ t.Extends a b t'' ∧ (t''.l0 (va / PGSIZE / 512)).isSome))
      (fun _ s'' => Reworked r a b s s'') s' := by
  unfold walk
  by_cases hva : MAXVA ≤ va
  · rw [if_pos hva]
    exact h
  · rw [if_neg hva]
    have hidx : va / PGSIZE / 512 / 512 < 256 := by
      simp only [MAXVA, PGSIZE] at *
      omega
    -- The level-1 page is there: the same for a table that had it and one that just got it.
    have hlevel0 : ∀ s₁ t₁, Reworked r a b s s₁ → s₁.pgtbl r = some t₁ → t.Extends a b t₁ →
        (t₁.l1 (va / PGSIZE / 512 / 512)).isSome →
        wp (do
          let t ← Vm.table r
          walkLevel κ (t.l0 (va / PGSIZE / 512)).isSome true fun f s =>
            s.updateTable r (·.link0 (va / PGSIZE / 512) f))
          (fun found s'' => Reworked r a b s s'' ∧ (found = true → ∃ t'', s''.pgtbl r = some t'' ∧
            t.Extends a b t'' ∧ (t''.l0 (va / PGSIZE / 512)).isSome))
          (fun _ s'' => Reworked r a b s s'') s₁ := by
      intro s₁ t₁ h₁ hr₁ ht₁ hup
      rw [wp_bind, wp_table hr₁]
      refine wp_walkLevel_pgtbl ?_ ?_ ?_ fun _ _ hpt => h₁.congr hpt
      · intro hpresent
        exact ⟨h₁, fun _ => ⟨t₁, hr₁, ht₁, hpresent⟩⟩
      · intro hmissing f s₂ hpt
        have hnone : t₁.l0 (va / PGSIZE / 512) = none := by simpa using hmissing
        have ht₂ := ht₁.link0 (f := f) hup hnone
        simp only [Memory.updateTable, hpt, hr₁, Option.map_some]
        refine ⟨(h₁.congr hpt).set hr ht₂, fun _ => ⟨_, Function.update_self .., ht₂, ?_⟩⟩
        simp [Pagetable.link0]
      · intro s₂ hpt
        exact ⟨h₁.congr hpt, by simp⟩
    obtain ⟨t', hr', ht'⟩ := h.table t hr
    rw [wp_bind, wp_table hr', wp_bind]
    refine wp_walkLevel_pgtbl ?_ ?_ ?_ fun _ _ hpt => h.congr hpt
    · intro hpresent
      exact hlevel0 s' t' h hr' ht' hpresent
    · intro hmissing f s₂ hpt
      have hnone : t'.l1 (va / PGSIZE / 512 / 512) = none := by simpa using hmissing
      have ht₂ := ht'.link1 (f := f) hidx hnone
      simp only [Memory.updateTable, hpt, hr', Option.map_some, if_true]
      refine hlevel0 _ _ ((h.congr hpt).set hr ht₂) (Function.update_self ..) ht₂ ?_
      simp [Pagetable.link1]
    · intro s₂ hpt
      exact ⟨h.congr hpt, by simp⟩

variable [Layout]

omit [Layout] in
theorem maintains_mappages {pa : Nat} {perm : Flags} (hr : s.pgtbl r = some t) (ha : a ≤ v)
    (hb : v < b) : Maintains (Reworked r a b s) (mappages κ r (v * PGSIZE) PGSIZE pa perm) := by
  intro s' h
  unfold mappages
  rw [if_neg (by decide), pgrounddown_page, pgrounddown_page_last]
  simp only [Nat.sub_self, Nat.zero_div, mappagesLoop, wp_bind]
  refine (h.wp_walk hr).mono ?_ fun _ _ => id
  intro found s₁ h₁
  cases found with
  | false => exact h₁.1
  | true =>
      obtain ⟨t₁, hr₁, ht₁, hup⟩ := h₁.2 rfl
      rw [frame_div] at hup
      simp only [if_true, wp_bind, wp_getPte hr₁, frame_div, wp_ite, wp_throw, wp_setPte, wp_pure]
      refine ⟨fun _ => h₁.1, fun _ => ?_⟩
      rw [setPte_eq hr₁]
      exact h₁.1.set hr (ht₁.setPte (fun _ => hup) ha hb)

omit [Layout] in
theorem maintains_setPte (hr : s.pgtbl r = some t) (ha : a ≤ v) (hb : v < b) :
    Maintains (Reworked r a b s) (setPte r (v * PGSIZE) Pte.zero) := by
  intro s' h
  obtain ⟨t', hr', ht'⟩ := h.table t hr
  rw [wp_setPte, frame_div, setPte_eq hr']
  exact h.set hr (ht'.setPte nofun ha hb)

/-! ## Ranges -/

/-- What depends on the page tables only is left to `setPte`. -/
theorem maintains_uvmdealloc {P : Memory → Prop} {oldsz newsz : Nat}
    (hP : ∀ s s', s'.pgtbl = s.pgtbl → P s → P s')
    (hset : ∀ v, npages newsz ≤ v → v < npages oldsz →
      Maintains P (setPte r (v * PGSIZE) Pte.zero)) :
    Maintains P (uvmdealloc κ r oldsz newsz) := by
  unfold uvmdealloc
  apply Maintains.ite
  · exact maintains_pure _
  · apply Maintains.ite
    · rw [pgroundup_eq, pgroundup_eq, ← Nat.sub_mul, frame_div]
      refine (maintains_uvmunmap (fun pa => (keeps_kfree pa).maintains hP) ?_).bind fun _ =>
        maintains_pure _
      intro i hi
      rw [← Nat.add_mul]
      exact hset _ (by omega) (by omega)
    · exact maintains_pure _

/-- What depends on the page tables only is left to `setPte` and `mappages`. -/
theorem maintains_uvmallocLoop {P : Memory → Prop} {perm : Flags} {n i : Nat}
    (hP : ∀ s s', s'.pgtbl = s.pgtbl → P s → P s') (hmax : (v + (i + n)) * PGSIZE ≤ MAXVA)
    (hset : ∀ u, v ≤ u → u < v + (i + n) → Maintains P (setPte r (u * PGSIZE) Pte.zero))
    (hmap : ∀ u pa, v ≤ u → u < v + (i + n) →
      Maintains P (mappages κ r (u * PGSIZE) PGSIZE pa perm)) :
    Maintains P (uvmallocLoop κ r (v * PGSIZE) perm n ((v + i) * PGSIZE)) := by
  induction n generalizing i with
  | zero => exact maintains_pure _
  | succ n ih =>
      have hpages : ∀ u, u ≤ v + (i + (n + 1)) → npages (u * PGSIZE) = u := by
        intro u hu
        exact npages_page ((Nat.mul_le_mul_right PGSIZE hu).trans hmax)
      have hundo : Maintains P (uvmdealloc κ r ((v + i) * PGSIZE) (v * PGSIZE)) := by
        apply maintains_uvmdealloc hP
        rw [hpages v (by omega), hpages (v + i) (by omega)]
        intro u hu₁ hu₂
        exact hset u hu₁ (by omega)
      unfold uvmallocLoop
      apply (keeps_kalloc.maintains hP).bind
      intro pa
      cases pa with
      | none => exact hundo.bind fun _ => maintains_pure _
      | some pa =>
          apply Maintains.bind
          · exact maintains_modify fun s hs => hP s _ rfl hs
          · intro _
            apply (hmap (v + i) pa (by omega) (by omega)).bind
            intro mapped
            apply Maintains.ite
            · rw [← Nat.succ_mul]
              apply ih (i := i + 1)
              all_goals rwa [Nat.add_right_comm i 1 n]
            · apply ((keeps_kfree pa).maintains hP).bind
              exact fun _ => hundo.bind fun _ => maintains_pure _

theorem reworked_uvmalloc {oldsz newsz : Nat} {w x : Bool} (hr : s.pgtbl r = some t)
    (hle : oldsz ≤ newsz) (hsize : UserSize newsz) :
    Maintains (Reworked r (npages oldsz) (npages newsz) s) (uvmalloc κ r oldsz newsz w x) := by
  have hend : npages oldsz + (0 + growth oldsz newsz) = npages newsz := by
    have hmono := npages_mono hsize hle
    rw [growth_eq hsize hle]
    omega
  have hmax : npages newsz * PGSIZE ≤ MAXVA := by
    have hpages := hsize.npages_le
    rw [UPAGES_eq] at hpages
    rw [MAXVA_eq, PGSIZE]
    omega
  have hloop : Maintains (Reworked r (npages oldsz) (npages newsz) s)
      (uvmallocLoop κ r (npages oldsz * PGSIZE) (Flags.user w x) (growth oldsz newsz)
        ((npages oldsz + 0) * PGSIZE)) := by
    apply maintains_uvmallocLoop
    · exact fun _ _ hpt h => h.congr hpt
    · rw [hend]
      exact hmax
    · exact fun u hu₁ hu₂ => maintains_setPte hr hu₁ (by omega)
    · exact fun u pa hu₁ hu₂ => maintains_mappages hr hu₁ (by omega)
  rw [growth, pgroundup_eq, Nat.add_zero] at hloop
  unfold uvmalloc
  simp only [pgroundup_eq]
  rw [if_neg (Nat.not_lt.mpr hle)]
  apply hloop.bind
  intro added
  exact (maintains_pure _).ite (maintains_pure _)

theorem reworked_uvmdealloc {oldsz newsz : Nat} (hr : s.pgtbl r = some t) :
    Maintains (Reworked r (npages newsz) (npages oldsz) s) (uvmdealloc κ r oldsz newsz) :=
  maintains_uvmdealloc (fun _ _ hpt h => h.congr hpt) fun _ => maintains_setPte hr

/-- The pages that a table is made of. -/
def Memory.upper (r : Nat) (s : Memory) : Option ((Nat → Option Nat) × (Nat → Option Nat)) :=
  (s.pgtbl r).map fun t => (t.l1, t.l0)

/-- Shrinking does not take pages of the table back. -/
theorem keeps_uvmdealloc {oldsz newsz : Nat} : Keeps (Memory.upper r) (uvmdealloc κ r oldsz newsz) := by
  refine keeps_iff.mpr fun c => maintains_uvmdealloc ?_ ?_
  · intro s s' hpt hs
    rw [← hs, Memory.upper, hpt, Memory.upper]
  · intro v _ _
    refine maintains_modify fun s hs => ?_
    rw [← hs]
    unfold Memory.upper Memory.setPte Memory.updateTable Memory.setTable
    simp only [Function.update_self, Option.map_map]
    rfl

end Vm
