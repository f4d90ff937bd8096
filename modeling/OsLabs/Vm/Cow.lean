-- SUMMARY: Specifications of the copy-on-write code: cowalloc gives a page a frame of its own, and a store or copyout writes to that frame only.
import OsLabs.Vm.Free

/-!
# Copy on write

`cowalloc` turns a shared page into one with a frame of its own. If the frame has no other
reference it is kept, and otherwise its content is copied to a new one. Afterwards the
page is writable and its frame has one reference, so a write to it shows in one address
space only.
-/

namespace Vm

open Effect

variable [Layout] {κ : Version} {s s' : Memory} {x : Nat → Nat} {r v g : Nat} {t : Pagetable}
variable {E : Panic → Memory → Prop}

/-! ## User pages -/

/-- A page that is mapped for the user. -/
def Memory.UserPage (s : Memory) (r v : Nat) : Prop :=
  v < UPAGES ∧ (s.pte r v).v = true ∧ (s.pte r v).u = true

omit [Layout] in
theorem Memory.UserPage.addr (h : s.UserPage r v) : s.addr r (v * PGSIZE) = some (s.pte r v).pa := by
  unfold Memory.addr
  rw [frame_div, if_pos ⟨user_lt_maxva h.1, h.2⟩]

omit [Layout] in
theorem addr_eq_none (htop : Topped s r) (h : ¬ s.UserPage r v) : s.addr r (v * PGSIZE) = none := by
  unfold Memory.addr
  rw [frame_div]
  refine if_neg fun ⟨hva, hval, hu⟩ => h ⟨?_, hval, hu⟩
  by_contra hge
  have hsup := (htop v (by omega) hva).2.1
  rw [hu] at hsup
  cases hsup

/-! ## `cowalloc` -/

/-- The entry of a page that has the frame `g` for itself. -/
def Pte.owned (p : Pte) (g : Nat) : Pte := { p with ppn := g, w := true, rsw := false }

/-- The page `v` of `r` got the frame `g` for itself, with the same content. -/
structure Separated (x : Nat → Nat) (r v g : Nat) (s s' : Memory) : Prop where
  inv : Inv .cow s' x
  pgtbl : s'.pgtbl = (s.setPte r v ((s.pte r v).owned g)).pgtbl
  one : s'.total x g = 1
  other : ∀ f, f ≠ g → f ≠ (s.pte r v).ppn → s'.total x f = s.total x f
  bytes : ∀ o < PGSIZE, s'.mem (g * PGSIZE + o) = s.mem ((s.pte r v).ppn * PGSIZE + o)
  mem : KeepsMem (s.total x) s s'
  freelist : s'.freelist.length + (if s.total x (s.pte r v).ppn = 1 then 0 else 1) =
    s.freelist.length
  oom : s'.oom = s.oom

/-- There is no other reference: the page keeps its frame. -/
theorem separated_of_one (h : Inv .cow s x) (hr : s.pgtbl r = some t) (hp : s.UserPage r v)
    (hone : s.total x (s.pte r v).ppn = 1) :
    Separated x r v (s.pte r v).ppn s (s.setPte r v ((s.pte r v).owned (s.pte r v).ppn)) := by
  obtain ⟨hv, hval, _⟩ := hp
  have hm := h.reflag hr hv (by rwa [← pte_of_some hr])
    (p := (s.pte r v).owned (s.pte r v).ppn) hval (by rw [← pte_of_some hr]; rfl)
    ⟨(h.leaf r v hv hval).readable, fun _ => ⟨rfl, hone⟩, by simp⟩
  refine ⟨hm.inv, rfl, ?_, fun f _ _ => by rw [hm.total], fun _ _ => rfl, fun _ _ => rfl, ?_, rfl⟩
  · rw [hm.total, hone]
  · rw [if_pos hone]
    rfl

omit [Layout] in
theorem setPte_setPte (s : Memory) (r v : Nat) (p q : Pte) :
    (s.setPte r v p).setPte r v q = s.setPte r v q := by
  cases hr : s.pgtbl r with
  | none => simp [Memory.setPte, Memory.updateTable, Memory.setTable, hr]
  | some t => simp [Memory.setPte, Memory.updateTable, Memory.setTable, hr]

/-- The entry is moved to a copy of its frame; the old frame still has the reference. -/
theorem Alloced.remap {s₁ : Memory} (ha : Alloced .cow x g s s₁) (h : Inv .cow s x)
    (hr : s.pgtbl r = some t) (hp : s.UserPage r v) :
    Moved .cow s₁ (inc x g) (s₁.setPte r v ((s.pte r v).owned g)) (inc x (s.pte r v).ppn) := by
  obtain ⟨hv, hval, _⟩ := hp
  have hr₁ : s₁.pgtbl r = some t := ha.pgtbl ▸ hr
  have hval' : (t.pte v).v = true := by rwa [← pte_of_some hr]
  have hm := ha.inv.unmap hr₁ hv hval' (p := Pte.zero) rfl
  have hr₂ := setPte_live hr₁ v Pte.zero
  have hinv := hm.inv
  rw [inc_comm] at hinv
  have hone : (s₁.setPte r v Pte.zero).total (inc (inc x (t.pte v).ppn) g) g = 1 := by
    rw [inc_comm, hm.total, ha.one]
  have hm' := hinv.map hr₂ hv (by simp [Pte.zero])
    ((h.shape r t hr).pte_up v hval') (p := (s.pte r v).owned g) hval rfl
    ⟨(h.leaf r v hv hval).readable, fun _ => ⟨rfl, hone⟩, by simp⟩
    fun r' v' hv' hval' hppn => ?_
  · rw [setPte_setPte, ← pte_of_some hr] at hm'
    refine ⟨hm'.inv, hm'.total.trans ?_⟩
    rw [inc_comm, ← hm.total, pte_of_some hr]
  · exact absurd (hppn ▸ holds_leaf_of_valid hval')
      (not_held_of_owned hone (by simp) (hinv.leaf_mem hv' hval'))

/-- Giving up the old frame, which somebody else still refers to. -/
theorem wp_kfree_shared {Q : Unit → Memory → Prop} {s₁ : Memory} (ha : Alloced .cow x g s s₁)
    (hbytes : ∀ o < PGSIZE, s₁.mem (g * PGSIZE + o) = s.mem ((s.pte r v).ppn * PGSIZE + o))
    (h : Inv .cow s x) (hr : s.pgtbl r = some t) (hp : s.UserPage r v)
    (hne : s.total x (s.pte r v).ppn ≠ 1) (hok : ∀ s', Separated x r v g s s' → Q () s') :
    wp (kfree .cow (s.pte r v).pa) Q E (s₁.setPte r v ((s.pte r v).owned g)) := by
  have hm := ha.remap h hr hp
  have hr₁ : s₁.pgtbl r = some t := ha.pgtbl ▸ hr
  have hpos := h.leaf_total hp.1 hp.2.1
  have hpt : (s₁.setPte r v ((s.pte r v).owned g)).pgtbl =
      (s.setPte r v ((s.pte r v).owned g)).pgtbl := by
    rw [setPte_eq hr₁, setPte_eq hr]
    simp only [Memory.setTable, ha.pgtbl]
  have hmem : (s₁.setPte r v ((s.pte r v).owned g)).mem = s₁.mem := rfl
  have hlist : (s₁.setPte r v ((s.pte r v).owned g)).freelist = s₁.freelist := rfl
  have hoom : (s₁.setPte r v ((s.pte r v).owned g)).oom = s.oom := ha.oom
  have htot : inc ((s₁.setPte r v ((s.pte r v).owned g)).total x) (s.pte r v).ppn =
      inc (s.total x) g := by
    rw [← total_inc, hm.total, total_congr ha.pgtbl, total_inc]
  generalize s₁.setPte r v ((s.pte r v).owned g) = s₂ at *
  generalize hf : (s.pte r v).ppn = f at *
  have hzero : s.total x g = 0 := by
    have hone := ha.one
    rw [total_congr ha.pgtbl, total_inc, inc_self] at hone
    omega
  have hfg : f ≠ g := by
    rintro rfl
    exact hpos hzero
  -- The counts before and after: one less for the old frame, one for the new one.
  have hold : s₂.total x f + 1 = s.total x f := by
    have := congrFun htot f
    rwa [inc_self, inc_of_ne hfg] at this
  have hnew : s₂.total x g = 1 := by
    have := congrFun htot g
    rwa [inc_self, inc_of_ne hfg.symm, hzero] at this
  have hother : ∀ f', f' ≠ g → f' ≠ f → s₂.total x f' = s.total x f' := by
    intro f' hg' hf'
    have := congrFun htot f'
    rwa [inc_of_ne hf', inc_of_ne hg'] at this
  have hled := hm.inv.ledger
  rw [total_inc] at hled
  rw [Pte.pa, hf]
  refine wp_kfree hled fun s' hled' hkeep hpt' hoom' hlist' => hok s' ?_
  have htot' : s'.total x = s₂.total x := total_congr hpt'
  refine ⟨hm.inv.release hpt' hled', ?_, ?_, ?_, ?_, ?_, ?_, hoom'.trans hoom⟩
  · rw [hpt', hpt]
  · rw [htot', hnew]
  · intro f' hg' hf'
    rw [htot', hother f' hg' (hf ▸ hf')]
  · intro o ho
    have hdiv : (g * PGSIZE + o) / PGSIZE = g := by
      rw [Nat.add_comm, Nat.add_mul_div_right _ _ PGSIZE_pos, Nat.div_eq_of_lt ho, Nat.zero_add]
    rw [hkeep _ (by rw [hdiv, hnew]; decide), hmem, hbytes o ho, hf]
  · intro a ha'
    have hin : s₂.total x (a / PGSIZE) ≠ 0 := by
      by_cases haf : a / PGSIZE = f
      · rw [haf] at ha' ⊢
        omega
      · rw [hother _ (by rintro rfl; exact ha' hzero) haf]
        exact ha'
    rw [hkeep a hin, hmem, ha.mem a ha']
  · rw [hlist', if_neg (by omega), hlist, hf, if_neg hne, ha.freelist]
    rfl

/-- The count that `cowalloc` looks at. -/
theorem Inv.refcnt_eq_one (h : Inv .cow s x) (f : Nat) : s.refcnt f = 1 ↔ s.total x f = 1 := by
  rw [h.ledger.count rfl]
  omega

theorem wp_cowalloc {Q : Option Nat → Memory → Prop} (h : Inv .cow s x) (hr : s.pgtbl r = some t)
    (htop : Topped s r) (hnone : ¬ s.UserPage r v → Q none s)
    (hok : ∀ g s', s.UserPage r v → Separated x r v g s s' →
      (s.total x (s.pte r v).ppn = 1 → s'.freelist = s.freelist) → Q (some (g * PGSIZE)) s')
    (hfail : s.UserPage r v → s.total x (s.pte r v).ppn ≠ 1 → s.freelist = [] →
      Q none { s with oom := true }) :
    wp (cowalloc .cow r (v * PGSIZE)) Q E s := by
  have hshape := h.shape r t hr
  unfold cowalloc
  rw [if_neg (by simp), wp_bind, wp_walkaddr hshape hr]
  by_cases hp : s.UserPage r v
  · have hva := user_lt_maxva hp.1
    have hpte : t.pte v = s.pte r v := (pte_of_some hr).symm
    rw [hp.addr]
    dsimp only
    rw [wp_bind, wp_walk_lookup hshape hr hva, wp_bind, wp_getPte hr, frame_div, hpte, wp_bind,
      refcnt, wp_bind, wp_get, wp_pure, Pte.pa, frame_div]
    by_cases hone : s.total x (s.pte r v).ppn = 1
    · rw [if_pos ((h.refcnt_eq_one _).mpr hone), wp_bind, wp_setPte, frame_div]
      exact hok _ _ hp (separated_of_one h hr hp hone) fun _ => rfl
    · rw [if_neg fun heq => hone ((h.refcnt_eq_one _).mp heq), wp_bind]
      refine wp_kalloc_inv h (hfail hp hone) ?_
      intro g s₁ ha
      have hpos := h.leaf_total hp.1 hp.2.1
      have ha' : Alloced .cow x g s { s₁ with
          mem := memmove s₁.mem (g * PGSIZE) ((s.pte r v).ppn * PGSIZE) PGSIZE } := ha.fill _
      have hbytes : ∀ o < PGSIZE, memmove s₁.mem (g * PGSIZE) ((s.pte r v).ppn * PGSIZE) PGSIZE
          (g * PGSIZE + o) = s.mem ((s.pte r v).ppn * PGSIZE + o) := fun o ho => memmove_frame ha hpos ho
      dsimp only
      rw [wp_bind, wp_modify, wp_bind, wp_setPte, wp_bind, frame_div]
      generalize hs₂ : { s₁ with
        mem := memmove s₁.mem (g * PGSIZE) ((s.pte r v).ppn * PGSIZE) PGSIZE } = s₂ at ha' ⊢
      have hr₂ : s₂.pgtbl r = some t := ha'.pgtbl ▸ hr
      have hval : (t.pte v).v = true := hpte ▸ hp.2.1
      have hr₃ := setPte_live hr₂ v { s.pte r v with v := false }
      refine wp_mappages_present (hshape.setPte (by simp)) hr₃ hva (hshape.pte_up v hval) (by simp) ?_
      have hentry : (s.pte r v).owned g = { (s.pte r v).toFlags with
          v := true, w := true, rsw := false, ppn := g } := by
        rw [Pte.owned, hp.2.1]
      rw [if_pos rfl, wp_bind, setPte_setPte, frame_div, pgrounddown_page]
      have hfree := wp_kfree_shared (E := E) (Q := fun _ s' => Q (some (g * PGSIZE)) s') ha'
        (by subst hs₂; exact hbytes) h hr hp hone fun s' hs' => hok g s' hp hs' fun heq => absurd heq hone
      rw [hentry] at hfree
      exact hfree
  · rw [addr_eq_none htop hp]
    exact hnone hp

/-! ## What `cowalloc` keeps -/

theorem Separated.pte_self (hs : Separated x r v g s s') (hr : s.pgtbl r = some t) :
    s'.pte r v = (s.pte r v).owned g := by
  rw [pte_congr hs.pgtbl, pte_setPte_self hr]

theorem Separated.pte_other (hs : Separated x r v g s s') (hr : s.pgtbl r = some t) {r' v' : Nat}
    (hne : (r', v') ≠ (r, v)) : s'.pte r' v' = s.pte r' v' := by
  rw [pte_congr hs.pgtbl]
  by_cases hrr : r' = r
  · subst hrr
    exact pte_setPte_of_ne hr (fun heq => hne (by rw [heq])) _
  · rw [setPte_eq hr, pte_setTable_of_ne hrr]

theorem Separated.kept (hs : Separated x r v g s s') (hr : s.pgtbl r = some t) (hv : v < UPAGES) :
    Kept s s' :=
  (Kept.setPte hr hv _).trans (.of_pgtbl hs.pgtbl fun ho => hs.oom.trans ho)

/-- A store to the page no longer faults. -/
theorem Separated.writable (hs : Separated x r v g s s') (hr : s.pgtbl r = some t)
    (hp : s.UserPage r v) : s'.UserPage r v ∧ (s'.pte r v).w = true := by
  have hself := hs.pte_self hr
  refine ⟨⟨hp.1, ?_⟩, ?_⟩
  · rw [hself]
    exact hp.2
  · rw [hself]
    rfl

/-- If the page could be written to, nobody sees a difference. -/
theorem Separated.space_eq (hs : Separated x r v g s s') (h : Inv .cow s x)
    (hr : s.pgtbl r = some t) (hp : s.UserPage r v)
    (hw : ((s.pte r v).w || (s.pte r v).rsw) = true) : s'.space = s.space := by
  funext r' v'
  by_cases hne : (r', v') = (r, v)
  · cases hne
    have hself := hs.pte_self hr
    rw [space_of_valid hp.1 hp.2.1, space_of_valid hp.1 (by rw [hself]; exact hp.2.1), hself]
    simp only [Memory.page, Pte.owned, hw, Bool.true_or, Option.some.injEq, Page.mk.injEq, true_and]
    funext o
    exact hs.bytes o o.isLt
  · have hsame := hs.pte_other hr hne
    unfold Memory.space
    rw [hsame]
    split
    · rename_i hval
      congr 1
      exact page_congr fun a ha => hs.mem a (by rw [ha]; exact h.leaf_total hval.1 hval.2)
    · rfl

/-! ## Loads and stores -/

omit [Layout] in
theorem lookup_eq {va : Nat} (hshape : Shape t) (hr : s.pgtbl r = some t) :
    s.lookup r va = if va < MAXVA ∧ (s.pte r (va / PGSIZE)).v = true then
      some (s.pte r (va / PGSIZE)) else none := by
  simp only [Memory.lookup, hr, Option.bind_eq_bind, Option.bind_some, pte_of_some hr]
  congr 1
  refine propext ⟨fun hc => ⟨hc.1, hc.2.2.2⟩, fun ⟨hva, hval⟩ => ⟨hva, ?_, ?_, hval⟩⟩
  · obtain ⟨f, hf⟩ := Option.isSome_iff_exists.mp (hshape.pte_up _ hval)
    exact hshape.l0_up _ f hf
  · exact hshape.pte_up _ hval

omit [Layout] in
/-- Addresses of user pages are below `MAXVA`. -/
theorem lt_maxva_of_user {va : Nat} (hv : va / PGSIZE < UPAGES) : va < MAXVA := by
  rw [UPAGES_eq] at hv
  rw [MAXVA_eq]
  simp only [PGSIZE] at hv
  omega

omit [Layout] in
/-- What the user can access is in the address space. -/
theorem userPage_of_u (htop : Topped s r) {va : Nat} (hva : va < MAXVA)
    (hval : (s.pte r (va / PGSIZE)).v = true) (hu : (s.pte r (va / PGSIZE)).u = true) :
    s.UserPage r (va / PGSIZE) := by
  refine ⟨?_, hval, hu⟩
  by_contra hge
  have hlt : va / PGSIZE * PGSIZE < MAXVA := Nat.lt_of_le_of_lt (Nat.div_mul_le_self va PGSIZE) hva
  have hsup := (htop _ (by omega) hlt).2.1
  rw [hu] at hsup
  cases hsup

theorem load_eq {va : Nat} (h : Inv κ s x) (hr : s.pgtbl r = some t) (htop : Topped s r) :
    s.load r va = (s.space r).load va := by
  unfold Memory.load Space.load
  rw [lookup_eq (h.shape r t hr) hr]
  by_cases hp : s.UserPage r (va / PGSIZE)
  · rw [if_pos ⟨lt_maxva_of_user hp.1, hp.2.1⟩, space_of_valid hp.1 hp.2.1]
    rfl
  · by_cases hc : va < MAXVA ∧ (s.pte r (va / PGSIZE)).v = true
    · have hu : (s.pte r (va / PGSIZE)).u = false := by
        by_contra hu
        exact hp (userPage_of_u htop hc.1 hc.2 (by simpa using hu))
      rw [if_pos hc]
      by_cases hv : va / PGSIZE < UPAGES
      · rw [space_of_valid hv hc.2]
        simp [Memory.page, hu]
      · simp [Memory.space, hv, hu]
    · rw [if_neg hc]
      cases hsp : s.space r (va / PGSIZE) with
      | none => rfl
      | some p =>
          have hsome := space_isSome.mp (show (s.space r (va / PGSIZE)).isSome by rw [hsp]; rfl)
          exact absurd ⟨lt_maxva_of_user hsome.1, hsome.2⟩ hc

theorem Inv.setMem (h : Inv κ s x) (m : Nat → UInt8) : Inv κ { s with mem := m } x :=
  h.recount rfl (h.ledger.congr rfl rfl) fun _ _ _ _ _ => id

/-- No other page has the frame of this one. -/
def Memory.Sole (s : Memory) (r v : Nat) : Prop :=
  ∀ r', ∀ v' < UPAGES, (s.pte r' v').v = true → (s.pte r' v').ppn = (s.pte r v).ppn →
    (r', v') = (r, v)

theorem Inv.sole_of_one (h : Inv κ s x) (hv : v < UPAGES) (hval : (s.pte r v).v = true)
    (hone : s.total x (s.pte r v).ppn = 1) : s.Sole r v := by
  intro r' v' hv' hval' hppn
  have hplace := unique_of_total_one hone (h.leaf_mem hv hval) (h.leaf_mem hv' hval')
    (holds_leaf_of_valid hval) (by rw [holds_leaf_of_valid hval', hppn])
  cases hplace
  rfl

omit [Layout] in
/-- A write to the frame of a page shows in no other page. -/
theorem Memory.Sole.space_write (hs : s.Sole r v) (hv : v < UPAGES) (hval : (s.pte r v).v = true)
    {m : Nat → UInt8} (hm : ∀ a, a / PGSIZE ≠ (s.pte r v).ppn → m a = s.mem a) :
    Memory.space { s with mem := m } = Function.update s.space r
      (Function.update (s.space r) v (some (Memory.page { s with mem := m } (s.pte r v)))) := by
  have hpte : ∀ r' v', Memory.pte { s with mem := m } r' v' = s.pte r' v' := fun _ _ => pte_congr rfl _ _
  have hother : ∀ r' v', (r', v') ≠ (r, v) →
      Memory.space { s with mem := m } r' v' = s.space r' v' := by
    intro r' v' hne
    unfold Memory.space
    rw [hpte]
    split
    · rename_i hval'
      congr 1
      exact page_congr fun a ha => hm a fun heq => hne (hs r' v' hval'.1 hval'.2 (ha.symm.trans heq))
    · rfl
  funext r' v'
  by_cases hrr : r' = r
  · subst hrr
    rw [Function.update_self]
    by_cases hvv : v' = v
    · subst hvv
      rw [Function.update_self, space_of_valid hv (by rwa [hpte]), hpte]
    · rw [Function.update_of_ne hvv]
      exact hother r' v' fun heq => hvv (congrArg Prod.snd heq)
  · rw [Function.update_of_ne hrr]
    exact hother r' v' fun heq => hrr (congrArg Prod.fst heq)

omit [Layout] in
theorem page_set (s : Memory) (p : Pte) (va : Nat) (b : UInt8) :
    Memory.page { s with mem := Function.update s.mem (p.pa + va % PGSIZE) b } p =
      (s.page p).set (offset va) b := by
  simp only [Memory.page, Page.set, Page.mk.injEq, true_and]
  funext o
  by_cases ho : o = offset va
  · subst ho
    rw [Function.update_self]
    exact Function.update_self ..
  · rw [Function.update_of_ne ho]
    refine Function.update_of_ne (fun heq => ho (Fin.ext ?_)) ..
    exact Nat.add_left_cancel heq

omit [Layout] in
theorem store_of_writable {va : Nat} {b : UInt8} (hshape : Shape t) (hr : s.pgtbl r = some t)
    (hp : s.UserPage r (va / PGSIZE)) (hw : (s.pte r (va / PGSIZE)).w = true) :
    s.store r va b = some { s with
      mem := Function.update s.mem ((s.pte r (va / PGSIZE)).pa + va % PGSIZE) b } := by
  unfold Memory.store
  rw [lookup_eq hshape hr, if_pos ⟨lt_maxva_of_user hp.1, hp.2.1⟩]
  exact if_pos ⟨hp.2.2, hw⟩

omit [Layout] in
theorem store_eq_none {va : Nat} {b : UInt8} (hshape : Shape t) (hr : s.pgtbl r = some t)
    (htop : Topped s r)
    (hc : s.UserPage r (va / PGSIZE) → (s.pte r (va / PGSIZE)).w = false) :
    s.store r va b = none := by
  unfold Memory.store
  rw [lookup_eq hshape hr]
  split
  · rename_i hval
    refine if_neg fun ⟨hu, hw⟩ => ?_
    rw [hc (userPage_of_u htop hval.1 hval.2 hu)] at hw
    cases hw
  · rfl

/-- The store to a page with a frame of its own. -/
theorem Inv.store {va : Nat} {b : UInt8} (h : Inv κ s x) (hp : s.UserPage r (va / PGSIZE))
    (hw : (s.pte r (va / PGSIZE)).w = true) :
    ∃ σ, (s.space r).store va b = some σ ∧
      Memory.space { s with
        mem := Function.update s.mem ((s.pte r (va / PGSIZE)).pa + va % PGSIZE) b } =
        Function.update s.space r σ := by
  have hsole := h.sole_of_one hp.1 hp.2.1 ((h.leaf r _ hp.1 hp.2.1).write hw).2
  refine ⟨_, ?_, hsole.space_write hp.1 hp.2.1 fun a ha => Function.update_of_ne ?_ ..⟩
  · unfold Space.store
    rw [space_of_valid hp.1 hp.2.1, page_set]
    exact if_pos ⟨hp.2.2, by simp [Memory.page, hw]⟩
  · rintro rfl
    exact ha (page_mem_div _ (offset va))

/-! ## The store fault -/

omit [Layout] in
/-- `is_cow_page` says yes to unmapped pages whose entry exists. -/
theorem wp_isCowPage {Q : Bool → Memory → Prop} {va : Nat} (hshape : Shape t)
    (hr : s.pgtbl r = some t)
    (hyes : ((s.pte r (va / PGSIZE)).v = true → (s.pte r (va / PGSIZE)).rsw = true) → Q true s)
    (hno : (va < MAXVA → (s.pte r (va / PGSIZE)).v = true → (s.pte r (va / PGSIZE)).rsw = false) →
      Q false s) :
    wp (isCowPage κ r va) Q E s := by
  rw [pte_of_some hr] at hyes hno
  unfold isCowPage
  by_cases hva : va < MAXVA
  · rw [if_neg (Nat.not_le.mpr hva), wp_bind, wp_walk_lookup hshape hr hva]
    cases hup : (t.l0 (va / PGSIZE / 512)).isSome with
    | false =>
        apply hno
        intro _ hval
        rw [hshape.pte_up _ hval] at hup
        cases hup
    | true =>
        rw [if_pos rfl, wp_bind, wp_getPte hr]
        cases hval : (t.pte (va / PGSIZE)).v with
        | false => exact hyes (by simp [hval])
        | true =>
            cases hrsw : (t.pte (va / PGSIZE)).rsw with
            | false => exact hno fun _ _ => hrsw
            | true => exact hyes fun _ => hrsw
  · rw [if_pos (Nat.le_of_not_lt hva)]
    exact hno fun hlt => absurd hlt hva

theorem wp_usertrapStore {Q : Bool → Memory → Prop} {sz va : Nat} (h : Inv .cow s x)
    (hr : s.pgtbl r = some t) (htop : Topped s r)
    (hok : ∀ g s', va < sz → s.UserPage r (va / PGSIZE) → (s.pte r (va / PGSIZE)).rsw = true →
      Separated x r (va / PGSIZE) g s s' →
      (s.total x (s.pte r (va / PGSIZE)).ppn = 1 → s'.freelist = s.freelist) → Q true s')
    (hkill : (va < sz → s.UserPage r (va / PGSIZE) → (s.pte r (va / PGSIZE)).rsw = false) →
      Q false s)
    (hoom : s.UserPage r (va / PGSIZE) → s.total x (s.pte r (va / PGSIZE)).ppn ≠ 1 →
      s.freelist = [] → Q false { s with oom := true }) :
    wp (usertrapStore .cow r sz va) Q E s := by
  have hshape := h.shape r t hr
  unfold usertrapStore
  dsimp only
  by_cases hva : va < sz
  · rw [if_neg (Nat.not_le.mpr hva), wp_bind]
    refine wp_isCowPage hshape hr ?_ ?_
    · intro hyes
      rw [if_neg (by decide), wp_bind, pgrounddown]
      refine wp_cowalloc h hr htop ?_ ?_ hoom
      · intro hp
        exact hkill fun _ hp' => absurd hp' hp
      · intro g s' hp hs hfree
        exact hok g s' hva hp (hyes hp.2.1) hs hfree
    · intro hno
      rw [if_pos (by decide)]
      exact hkill fun _ hp => hno (lt_maxva_of_user hp.1) hp.2.1
  · rw [if_pos (Nat.le_of_not_lt hva)]
    exact hkill fun hlt => absurd hlt hva

omit [Layout] in
/-- A page that is not writable allows a store only if it is marked. -/
theorem space_store_eq_none {va : Nat} {b : UInt8}
    (hw : s.UserPage r (va / PGSIZE) → (s.pte r (va / PGSIZE)).w = false)
    (hrsw : s.UserPage r (va / PGSIZE) → (s.pte r (va / PGSIZE)).rsw = false) :
    (s.space r).store va b = none := by
  unfold Space.store Memory.space
  split
  · rename_i hval
    apply if_neg
    intro hallowed
    have hp : s.UserPage r (va / PGSIZE) := ⟨hval.1, hval.2, hallowed.1⟩
    have hwritable := hallowed.2
    simp [Memory.page, hw hp, hrsw hp] at hwritable
  · rfl

/-- The page of `va` is writable, or the fault handler can make it so: the address is below
    `sz`, and the page needs no copy, or there is a frame for it. -/
def Memory.CanStore (s : Memory) (r sz va : Nat) : Prop :=
  s.UserPage r (va / PGSIZE) ∧ ((s.pte r (va / PGSIZE)).w = true ∨
    (s.pte r (va / PGSIZE)).rsw = true ∧ va < sz ∧
      (s.refcnt (s.pte r (va / PGSIZE)).ppn = 1 ∨ s.freelist ≠ []))

/-- How a store of the copy-on-write kernel ends. The byte is written in `s₁`, after the
    fault handler has run if the page was not writable. -/
theorem wp_store_cow {Q : StoreRes → Memory → Prop} {sz va : Nat} {b : UInt8} (h : Inv .cow s x)
    (hr : s.pgtbl r = some t) (htop : Topped s r)
    (hdone : ∀ s₁, s.CanStore r sz va → Inv .cow s₁ x → Kept s s₁ → s₁.space = s.space →
      s₁.UserPage r (va / PGSIZE) → (s₁.pte r (va / PGSIZE)).w = true →
      (s.refcnt (s.pte r (va / PGSIZE)).ppn = 1 → s₁.freelist = s.freelist) →
      Q .done { s₁ with
        mem := Function.update s₁.mem ((s₁.pte r (va / PGSIZE)).pa + va % PGSIZE) b })
    (hkill : (s.UserPage r (va / PGSIZE) → (s.pte r (va / PGSIZE)).w = false) →
      (va < sz → s.UserPage r (va / PGSIZE) → (s.pte r (va / PGSIZE)).rsw = false) → Q .killed s)
    (hoom : (s.pte r (va / PGSIZE)).w = false → s.refcnt (s.pte r (va / PGSIZE)).ppn ≠ 1 →
      s.freelist = [] → Q .killed { s with oom := true }) :
    wp (store .cow r sz va b) Q E s := by
  have hshape := h.shape r t hr
  unfold store
  rw [wp_bind, wp_get]
  by_cases hw : s.UserPage r (va / PGSIZE) ∧ (s.pte r (va / PGSIZE)).w = true
  · obtain ⟨hp, hw⟩ := hw
    rw [store_of_writable hshape hr hp hw]
    exact hdone s ⟨hp, .inl hw⟩ h (.refl s) rfl hp hw fun _ => rfl
  · have hw' : s.UserPage r (va / PGSIZE) → (s.pte r (va / PGSIZE)).w = false :=
      fun hp => Bool.eq_false_of_not_eq_true (not_and.mp hw hp)
    rw [store_eq_none hshape hr htop hw']
    dsimp only
    rw [wp_bind]
    refine wp_usertrapStore h hr htop ?_ (hkill hw') ?_
    · intro g s₁ hva hp hrsw hs hfree
      -- The retried store finds a writable page.
      obtain ⟨t₁, hr₁⟩ := (hs.kept hr hp.1).live_of hr
      obtain ⟨hp₁, hw₁⟩ := hs.writable hr hp
      rw [if_pos rfl, wp_bind, wp_get, store_of_writable (hs.inv.shape r t₁ hr₁) hr₁ hp₁ hw₁]
      have hcan : s.refcnt (s.pte r (va / PGSIZE)).ppn = 1 ∨ s.freelist ≠ [] := by
        rw [h.refcnt_eq_one]
        by_cases hone : s.total x (s.pte r (va / PGSIZE)).ppn = 1
        · exact .inl hone
        · -- A frame has been taken from the list.
          have hlen := hs.freelist
          rw [if_neg hone] at hlen
          refine .inr fun hnil => ?_
          rw [hnil] at hlen
          simp at hlen
      exact hdone s₁ ⟨hp, .inr ⟨hrsw, hva, hcan⟩⟩ hs.inv (hs.kept hr hp.1)
        (hs.space_eq h hr hp (by simp [hrsw])) hp₁ hw₁ fun hone =>
          hfree ((h.refcnt_eq_one _).mp hone)
    · intro hp hone hfree
      exact hoom (hw' hp) (mt (h.refcnt_eq_one _).mp hone) hfree

/-- A store, in either kernel. It fails if the space does not allow it, if there is no
    memory, or if it is to a copy-on-write page at an address that is not below `sz`. -/
theorem wp_store {Q : StoreRes → Memory → Prop} {sz va : Nat} {b : UInt8} (h : Inv κ s x)
    (hr : s.pgtbl r = some t) (htop : Topped s r)
    (hdone : ∀ σ s', (s.space r).store va b = some σ → Inv κ s' x → Kept s s' →
      s'.space = Function.update s.space r σ → Q .done s')
    (hkilled : ∀ s', Inv κ s' x → Kept s s' → s'.space = s.space →
      ((s.space r).store va b = none ∨ s'.oom = true ∨
        (sz ≤ va ∧ s.UserPage r (va / PGSIZE) ∧ (s.pte r (va / PGSIZE)).rsw = true)) →
      Q .killed s') :
    wp (store κ r sz va b) Q E s := by
  cases κ with
  | unpatched =>
      have hshape := h.shape r t hr
      unfold store
      rw [wp_bind, wp_get]
      by_cases hw : s.UserPage r (va / PGSIZE) ∧ (s.pte r (va / PGSIZE)).w = true
      · obtain ⟨hp, hw⟩ := hw
        obtain ⟨σ, hσ, hsp⟩ := h.store (b := b) hp hw
        rw [store_of_writable hshape hr hp hw]
        exact hdone σ _ hσ (h.setMem _) (.of_pgtbl rfl id) hsp
      · have hw' : s.UserPage r (va / PGSIZE) → (s.pte r (va / PGSIZE)).w = false :=
          fun hp => Bool.eq_false_of_not_eq_true (not_and.mp hw hp)
        rw [store_eq_none hshape hr htop hw']
        refine hkilled s h (.refl s) rfl (.inl (space_store_eq_none hw' ?_))
        intro hp
        exact (h.leaf r _ hp.1 hp.2.1).unmarked rfl
  | cow =>
      refine wp_store_cow h hr htop ?_ ?_ ?_
      · intro s₁ _ h₁ hk hsp₁ hp hw _
        obtain ⟨σ, hσ, hsp⟩ := h₁.store (b := b) hp hw
        rw [hsp₁] at hσ hsp
        exact hdone σ _ hσ (h₁.setMem _) (hk.trans (.of_pgtbl rfl id)) hsp
      · intro hw hkill
        refine hkilled s h (.refl s) rfl ?_
        by_cases hp : s.UserPage r (va / PGSIZE) ∧ (s.pte r (va / PGSIZE)).rsw = true
        · refine .inr (.inr ⟨?_, hp⟩)
          by_contra hlt
          simpa [hkill (by omega) hp.1] using hp.2
        · exact .inl (space_store_eq_none hw fun hp' =>
            Bool.eq_false_of_not_eq_true (not_and.mp hp hp'))
      · intro _ _ _
        exact hkilled _ h.setOom .setOom space_setOom (.inr (.inl rfl))

/-! ## `copyout` -/

/-- The frame `g` that `copyout` writes to for the page `v`, and the state before the write.
    The code looks at the mark only, so a page without it keeps its frame even if the
    page is read-only. -/
def Target (x : Nat → Nat) (r v g : Nat) (s s' : Memory) : Prop :=
  if (s.pte r v).rsw = true then Separated x r v g s s' else g = (s.pte r v).ppn ∧ s' = s

theorem Target.kept (hs : Target x r v g s s') (h : Inv .cow s x) (hr : s.pgtbl r = some t)
    (hv : v < UPAGES) : Inv .cow s' x ∧ Kept s s' := by
  unfold Target at hs
  split at hs
  · exact ⟨hs.inv, hs.kept hr hv⟩
  · rw [hs.2]
    exact ⟨h, .refl s⟩

/-- The entry of the page that is written to. -/
theorem Target.pte_self (hs : Target x r v g s s') (hr : s.pgtbl r = some t) :
    (s'.pte r v).ppn = g ∧ (s'.pte r v).v = (s.pte r v).v ∧ (s'.pte r v).u = (s.pte r v).u := by
  unfold Target at hs
  split at hs
  · rw [hs.pte_self hr]
    exact ⟨rfl, rfl, rfl⟩
  · rw [hs.2]
    exact ⟨hs.1.symm, rfl, rfl⟩

theorem Target.pte_other (hs : Target x r v g s s') (hr : s.pgtbl r = some t) {r' v' : Nat}
    (hne : (r', v') ≠ (r, v)) : s'.pte r' v' = s.pte r' v' := by
  unfold Target at hs
  split at hs
  · exact hs.pte_other hr hne
  · rw [hs.2]

theorem Target.valid (hs : Target x r v g s s') (hr : s.pgtbl r = some t) (r' v' : Nat) :
    (s'.pte r' v').v = (s.pte r' v').v := by
  by_cases hne : (r', v') = (r, v)
  · cases hne
    exact (hs.pte_self hr).2.1
  · rw [hs.pte_other hr hne]

/-- A round of `copyout`. -/
theorem wp_copyoutLoop_succ {Q : Bool → Memory → Prop} {fuel dstva len n : Nat}
    {src : Nat → UInt8} (h : Inv .cow s x) (hr : s.pgtbl r = some t) (htop : Topped s r)
    (hlen : len ≠ 0) (hv : dstva / PGSIZE = v) (hn : n = min (PGSIZE - dstva % PGSIZE) len)
    (hstop : ¬ s.UserPage r v → Q false s)
    (hoom : s.UserPage r v → (s.pte r v).rsw = true → s.total x (s.pte r v).ppn ≠ 1 →
      s.freelist = [] → Q false { s with oom := true })
    (hgo : ∀ g s₁, s.UserPage r v → Target x r v g s s₁ →
      wp (copyoutLoop .cow r fuel ((v + 1) * PGSIZE) (fun i => src (i + n)) (len - n)) Q E
        { s₁ with mem := write s₁.mem (g * PGSIZE + dstva % PGSIZE) src n }) :
    wp (copyoutLoop .cow r (fuel + 1) dstva src len) Q E s := by
  have hshape := h.shape r t hr
  have hoff : dstva - v * PGSIZE = dstva % PGSIZE := by
    rw [← hv]
    exact (Nat.mod_eq_sub_div_mul).symm
  unfold copyoutLoop
  rw [if_neg hlen]
  dsimp only
  rw [pgrounddown, hv, wp_bind, wp_walkaddr hshape hr, hoff, ← hn, ← Nat.succ_mul, wp_bind]
  refine wp_isCowPage hshape hr ?_ ?_
  · intro hyes
    rw [frame_div] at hyes
    rw [if_pos rfl, wp_bind]
    refine wp_cowalloc h hr htop hstop ?_ fun hp => hoom hp (hyes hp.2.1)
    intro g s₁ hp hs _
    dsimp only
    rw [wp_bind, wp_modify]
    refine hgo g s₁ hp ?_
    rw [Target, if_pos (hyes hp.2.1)]
    exact hs
  · intro hno
    rw [frame_div] at hno
    rw [if_neg (by decide), wp_bind, wp_pure]
    by_cases hp : s.UserPage r v
    · rw [hp.addr]
      dsimp only
      rw [wp_bind, wp_modify]
      refine hgo _ s hp ?_
      rw [Target, if_neg (by simp [hno (user_lt_maxva hp.1) hp.2.1])]
      exact ⟨rfl, rfl⟩
    · rw [addr_eq_none htop hp]
      exact hstop hp

/-- No page comes or goes. -/
theorem wp_copyoutLoop {fuel dstva len : Nat} {src : Nat → UInt8} (h : Inv .cow s x)
    (hr : s.pgtbl r = some t) (htop : Topped s r) :
    wp (copyoutLoop .cow r fuel dstva src len)
      (fun _ s' => Inv .cow s' x ∧ Kept s s' ∧ ∀ r' v', (s'.pte r' v').v = (s.pte r' v').v) E s := by
  induction fuel generalizing s t dstva src len with
  | zero => exact ⟨h, .refl s, fun _ _ => rfl⟩
  | succ fuel ih =>
      by_cases hlen : len = 0
      · unfold copyoutLoop
        rw [if_pos hlen]
        exact ⟨h, .refl s, fun _ _ => rfl⟩
      · refine wp_copyoutLoop_succ h hr htop hlen rfl rfl (fun _ => ⟨h, .refl s, fun _ _ => rfl⟩)
          (fun _ _ _ _ => ⟨h.setOom, .setOom, fun _ _ => rfl⟩) ?_
        intro g s₁ hp hs
        obtain ⟨h₁, hk₁⟩ := hs.kept h hr hp.1
        have hk₂ : Kept s { s₁ with
            mem := write s₁.mem (g * PGSIZE + dstva % PGSIZE) src
              (min (PGSIZE - dstva % PGSIZE) len) } := hk₁.trans (.of_pgtbl rfl id)
        obtain ⟨t₂, hr₂⟩ := hk₂.live_of hr
        refine (ih (h₁.setMem _) hr₂ (htop.kept hk₂)).mono ?_ fun _ _ => id
        rintro _ s' ⟨h', hk', hvalid⟩
        exact ⟨h', hk₂.trans hk', fun r' v' => (hvalid r' v').trans (hs.valid hr r' v')⟩

end Vm
