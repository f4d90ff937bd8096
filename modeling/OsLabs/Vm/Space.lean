-- SUMMARY: Address spaces as a user sees them, the address space that a page table represents, and what leaves it unchanged.
import OsLabs.Vm.Invariant

/-!
# Address spaces

An address space maps page numbers to pages: bytes with permissions. It says nothing of
frames, so it does not show whether two processes share one. A page that is marked
copy-on-write counts as writable, since a store to it will succeed.

`Memory.space` is the address space behind a page table. Functions that only move
references around leave all address spaces as they are.
-/

namespace Vm

/-! ## Pages and spaces -/

structure Page where
  r : Bool
  w : Bool
  x : Bool
  u : Bool
  bytes : Fin PGSIZE → UInt8

abbrev Space := Nat → Option Page

/-- The place of an address in its page. -/
def offset (va : Nat) : Fin PGSIZE := ⟨va % PGSIZE, Nat.mod_lt va PGSIZE_pos⟩

/-- Write one byte. -/
def Page.set (p : Page) (o : Fin PGSIZE) (b : UInt8) : Page :=
  { p with bytes := Function.update p.bytes o b }

/-- What a load reads, unless it faults. -/
def Space.load (σ : Space) (va : Nat) : Option UInt8 := do
  let p ← σ (va / PGSIZE)
  if p.u ∧ p.r then some (p.bytes (offset va)) else none

/-- The space after a store, unless it faults. -/
def Space.store (σ : Space) (va : Nat) (b : UInt8) : Option Space := do
  let p ← σ (va / PGSIZE)
  if p.u ∧ p.w then some (Function.update σ (va / PGSIZE) (some (p.set (offset va) b))) else none

/-- Set `n` pages from `v` on. -/
def Space.fill (σ : Space) (v n : Nat) (o : Option Page) : Space := fun w =>
  if v ≤ w ∧ w < v + n then o else σ w

theorem Space.fill_zero (σ : Space) (v : Nat) (o : Option Page) : σ.fill v 0 o = σ := by
  funext w
  exact if_neg (by omega)

/-- One page more at the end. -/
theorem Space.fill_succ (σ : Space) (v n : Nat) (o : Option Page) :
    σ.fill v (n + 1) o = Function.update (σ.fill v n o) (v + n) o := by
  funext w
  by_cases hw : w = v + n
  · subst hw
    simp [Space.fill]
  · rw [Function.update_of_ne hw]
    simp only [Space.fill, show (v ≤ w ∧ w < v + (n + 1)) ↔ (v ≤ w ∧ w < v + n) by omega]

/-- A space of `n` pages is made one of `m` pages. New pages are like `p`. -/
def Space.resize (σ : Space) (n m : Nat) (p : Page) : Space := fun v =>
  if v < m then if v < n then σ v else some p else none

section

variable {σ : Space} {n m : Nat}

theorem Space.isSome_resize (h : ∀ v, (σ v).isSome ↔ v < n) (m : Nat) (p : Page) (v : Nat) :
    (σ.resize n m p v).isSome ↔ v < m := by
  unfold Space.resize
  split
  · split
    · rename_i hm hn
      simp [hm, (h v).mpr hn]
    · rename_i hm _
      simp [hm]
  · rename_i hm
    simp [hm]

theorem Space.fill_eq_resize (h : ∀ v, (σ v).isSome ↔ v < n) (hnm : n ≤ m) (p : Page) :
    σ.fill n (m - n) (some p) = σ.resize n m p := by
  funext v
  unfold Space.fill Space.resize
  by_cases hn : v < n
  · rw [if_neg (by omega), if_pos (by omega), if_pos hn]
  · by_cases hm : v < m
    · rw [if_pos (by omega), if_pos hm, if_neg hn]
    · rw [if_neg (by omega), if_neg hm]
      exact Option.not_isSome_iff_eq_none.mp (mt (h v).mp hn)

theorem Space.resize_self (h : ∀ v, (σ v).isSome ↔ v < n) (p : Page) : σ.resize n n p = σ := by
  rw [← Space.fill_eq_resize h n.le_refl, Nat.sub_self, Space.fill_zero]

theorem Space.fill_none_eq_resize (h : ∀ v, (σ v).isSome ↔ v < n) (hmn : m ≤ n) (p : Page) :
    σ.fill m (n - m) none = σ.resize n m p := by
  funext v
  unfold Space.fill Space.resize
  by_cases hm : v < m
  · rw [if_neg (by omega), if_pos hm, if_pos (by omega)]
  · rw [if_neg hm]
    by_cases hn : v < n
    · exact if_pos (by omega)
    · rw [if_neg (by omega)]
      exact Option.not_isSome_iff_eq_none.mp (mt (h v).mp hn)

end

/-! ## The space behind a page table -/

def Memory.page (s : Memory) (p : Pte) : Page :=
  { r := p.r, w := p.w || p.rsw, x := p.x, u := p.u
    bytes := fun o => s.mem (p.ppn * PGSIZE + o) }

def Memory.space (s : Memory) (r : Nat) : Space := fun v =>
  if v < UPAGES ∧ (s.pte r v).v then some (s.page (s.pte r v)) else none

variable {κ : Version} {s s' : Memory} {x x' : Nat → Nat} {r f v : Nat} {t t' : Pagetable}

theorem space_of_valid (hv : v < UPAGES) (hval : (s.pte r v).v = true) :
    s.space r v = some (s.page (s.pte r v)) := if_pos ⟨hv, hval⟩

theorem space_isSome : (s.space r v).isSome ↔ v < UPAGES ∧ (s.pte r v).v = true := by
  unfold Memory.space
  split <;> simp_all

theorem page_mem_div (p : Pte) (o : Fin PGSIZE) : (p.ppn * PGSIZE + o) / PGSIZE = p.ppn := by
  rw [Nat.add_comm, Nat.add_mul_div_right _ _ PGSIZE_pos, Nat.div_eq_of_lt o.isLt, Nat.zero_add]

theorem page_congr {p : Pte} (h : ∀ a, a / PGSIZE = p.ppn → s'.mem a = s.mem a) :
    s'.page p = s.page p := by
  unfold Memory.page
  congr 1
  funext o
  exact h _ (page_mem_div p o)

/-- The entry is the same, or invalid before and after. -/
def Pte.Same (p q : Pte) : Prop := q.v = p.v ∧ (p.v = true → q = p)

theorem Pte.Same.refl (p : Pte) : p.Same p := ⟨rfl, fun _ => rfl⟩

theorem Pte.Same.trans {p q q' : Pte} (h₁ : p.Same q) (h₂ : q.Same q') : p.Same q' :=
  ⟨h₂.1.trans h₁.1, fun hp => (h₂.2 (h₁.1.trans hp)).trans (h₁.2 hp)⟩

theorem Pte.Same.of_eq {p q : Pte} (h : q = p) : p.Same q := h ▸ .refl p

/-- A new level-0 page has no entries, and where it is linked there were none. -/
theorem Shape.link0_same (h : Shape t) {j : Nat} (hnone : t.l0 j = none) (v : Nat) :
    (t.pte v).Same ((t.link0 j f).pte v) := by
  by_cases hv : v / 512 = j
  · have hinv := h.invalid (hv ▸ hnone)
    exact ⟨by simp [Pagetable.link0, hv, Pte.zero, hinv], by simp [hinv]⟩
  · exact .of_eq (by simp [Pagetable.link0, hv])

/-- Only contents of unmapped frames and unused entries have changed. -/
theorem space_congr (hpte : ∀ r, ∀ v < UPAGES, (s.pte r v).Same (s'.pte r v))
    (hmem : ∀ r, ∀ v < UPAGES, (s.pte r v).v = true → ∀ a, a / PGSIZE = (s.pte r v).ppn →
      s'.mem a = s.mem a) : s'.space = s.space := by
  funext r v
  unfold Memory.space
  by_cases hv : v < UPAGES
  · by_cases hval : (s.pte r v).v = true
    · have heq := (hpte r v hv).2 hval
      rw [if_pos ⟨hv, heq ▸ hval⟩, if_pos ⟨hv, hval⟩, heq, page_congr (hmem r v hv hval)]
    · rw [if_neg fun h => hval ((hpte r v hv).1 ▸ h.2), if_neg fun h => hval h.2]
  · rw [if_neg fun h => hv h.1, if_neg fun h => hv h.1]

theorem space_setPte_of_le (hr : s.pgtbl r = some t) (hv : UPAGES ≤ v) (p : Pte) :
    (s.setPte r v p).space = s.space := by
  refine space_congr (fun r' v' hv' => .of_eq ?_) fun _ _ _ _ _ _ => by rw [setPte_eq hr]; rfl
  rw [setPte_eq hr]
  by_cases hrr : r' = r
  · subst hrr
    rw [pte_setTable_self, pte_of_some hr]
    exact Function.update_of_ne (by omega) ..
  · rw [pte_setTable_of_ne hrr]

/-- Writing the entry of a user page. -/
theorem space_setPte (hr : s.pgtbl r = some t) (hv : v < UPAGES) (p : Pte) :
    (s.setPte r v p).space = Function.update s.space r
      (Function.update (s.space r) v (if p.v then some (s.page p) else none)) := by
  rw [setPte_eq hr]
  funext r' v'
  by_cases hrr : r' = r
  · subst hrr
    rw [Function.update_self]
    unfold Memory.space
    rw [pte_setTable_self]
    by_cases hvv : v' = v
    · subst hvv
      simp only [Function.update_self, hv, true_and]
      rfl
    · rw [Function.update_of_ne hvv, pte_of_some hr]
      simp only [Function.update_of_ne hvv]
      rfl
  · rw [Function.update_of_ne hrr]
    unfold Memory.space
    rw [pte_setTable_of_ne hrr]
    rfl

/-- Writing an entry does not change what is at the other pages. -/
theorem update_space_self (σ : Nat → Space) (r v : Nat) (o : Option Page) (h : σ r v = o) :
    Function.update σ r (Function.update (σ r) v o) = σ := by
  rw [← h, Function.update_eq_self, Function.update_eq_self]

/-! ## What functions keep -/

variable [Layout]

/-- Memory of frames in use is the same, so all spaces are. -/
theorem Inv.space_eq (h : Inv κ s x) (hpte : ∀ r, ∀ v < UPAGES, (s.pte r v).Same (s'.pte r v))
    (hmem : KeepsMem (s.total x') s s') : s'.space = s.space := by
  refine space_congr hpte fun r v hv hval a ha => hmem a ?_
  rw [ha]
  exact total_ne_zero (h.leaf_mem hv hval) (holds_leaf_of_valid hval)

/-- What every function keeps: no page table comes or goes, the entries above the user
    pages stay, and a failed allocation is not forgotten. -/
structure Kept (s s' : Memory) : Prop where
  live : ∀ r, (s'.pgtbl r).isSome = (s.pgtbl r).isSome
  top : ∀ r v, UPAGES ≤ v → (s.pte r v).Same (s'.pte r v)
  oom : s.oom = true → s'.oom = true

omit [Layout] in
theorem Kept.refl (s : Memory) : Kept s s := ⟨fun _ => rfl, fun _ _ _ => .refl _, id⟩

omit [Layout] in
theorem Kept.trans {s'' : Memory} (h₁ : Kept s s') (h₂ : Kept s' s'') : Kept s s'' :=
  ⟨fun r => (h₂.live r).trans (h₁.live r), fun r v hv => (h₁.top r v hv).trans (h₂.top r v hv),
    h₂.oom ∘ h₁.oom⟩

omit [Layout] in
theorem Kept.of_pgtbl (hpt : s'.pgtbl = s.pgtbl) (hoom : s.oom = true → s'.oom = true) :
    Kept s s' :=
  ⟨fun r => by rw [hpt], fun r v _ => .of_eq (pte_congr hpt r v), hoom⟩

omit [Layout] in
theorem Kept.setPte (hr : s.pgtbl r = some t) (hv : v < UPAGES) (p : Pte) :
    Kept s (s.setPte r v p) := by
  rw [setPte_eq hr]
  refine ⟨?_, fun r' v' hv' => .of_eq ?_, id⟩
  · intro r'
    by_cases hrr : r' = r
    · subst hrr
      simp [Memory.setTable, hr]
    · simp [Memory.setTable, hrr]
  · by_cases hrr : r' = r
    · subst hrr
      rw [pte_setTable_self, pte_of_some hr]
      exact Function.update_of_ne (by omega) ..
    · rw [pte_setTable_of_ne hrr]

omit [Layout] in
theorem Kept.live_of (h : Kept s s') (hr : s.pgtbl r = some t) : ∃ t', s'.pgtbl r = some t' := by
  have := h.live r
  rw [hr] at this
  exact Option.isSome_iff_exists.mp this

end Vm
