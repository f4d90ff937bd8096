-- SUMMARY: Which page tables the functions of the kernel write to, and what of a table is left when copy-on-write marks are disregarded.
import OsLabs.Vm.Walk

/-!
# Outlines

Sharing a page only trades `PTE_W` for `PTE_RSW`. The outline of a page table does not
tell the two apart, but still has all frames that the table refers to. So a call that
keeps all outlines does not change the number of references to any frame.

Functions that work on the table `r` keep the outlines of all others. This can be read off
their code, whatever state they run in.
-/

namespace Vm

open Effect

/-- An entry, with the mark counted as permission to write. -/
def Pte.outline (p : Pte) : Pte := { p with w := p.w || p.rsw, rsw := false }

def Pagetable.outline (t : Pagetable) : Pagetable := { t with pte := fun v => (t.pte v).outline }

def Memory.outline (s : Memory) (r : Nat) : Option Pagetable := (s.pgtbl r).map Pagetable.outline

/-- The outlines of all page tables but `r`. -/
def Memory.others (r : Nat) (s : Memory) : Nat → Option Pagetable := Function.update s.outline r none

variable {κ : Version} {s s' : Memory} {x : Nat → Nat} {r v : Nat}

/-! ## What outlines tell -/

theorem outline_congr (h : s'.pgtbl = s.pgtbl) : s'.outline = s.outline := by
  funext r
  rw [Memory.outline, h, Memory.outline]

theorem others_of_outline (h : s'.outline = s.outline) (r : Nat) : s'.others r = s.others r := by
  rw [Memory.others, h, Memory.others]

theorem others_setTable (s : Memory) (r : Nat) (o : Option Pagetable) :
    (s.setTable r o).others r = s.others r := by
  funext r'
  unfold Memory.others
  by_cases hr : r' = r
  · rw [hr, Function.update_self, Function.update_self]
  · have hsame : (s.setTable r o).pgtbl r' = s.pgtbl r' := by simp [Memory.setTable, hr]
    rw [Function.update_of_ne hr, Function.update_of_ne hr, Memory.outline, hsame, Memory.outline]

/-- Nothing has changed if the one table was there neither before nor after. -/
theorem outline_of_others (h : s'.others r = s.others r) (hs : s.pgtbl r = none)
    (hs' : s'.pgtbl r = none) : s'.outline = s.outline := by
  funext r'
  by_cases hr : r' = r
  · rw [hr, Memory.outline, Memory.outline, hs, hs']
  · have hother := congrFun h r'
    unfold Memory.others at hother
    rwa [Function.update_of_ne hr, Function.update_of_ne hr] at hother

theorem holds_of_outline (h : s'.outline = s.outline) : s'.holds = s.holds := by
  have hholds : ∀ (s : Memory) (k : Kind) (r i : Nat),
      s.holds (k, r, i) = (s.outline r).bind fun t => t.holds r k i := by
    intro s k r i
    cases hr : s.pgtbl r with
    | none => simp [Memory.holds, Memory.outline, hr]
    | some t =>
        rw [holds_of_some hr, Memory.outline, hr]
        cases k <;> rfl
  funext p
  rw [hholds s' p.1 p.2.1 p.2.2, h, ← hholds]

theorem total_of_outline (h : s'.outline = s.outline) : s'.total x = s.total x := by
  unfold Memory.total
  rw [holds_of_outline h]

theorem pte_of_outline (h : s'.outline r = s.outline r) (v : Nat) :
    (s'.pte r v).outline = (s.pte r v).outline := by
  have hpte : ∀ s : Memory, (s.pte r v).outline = ((s.outline r).elim Pte.zero fun t => t.pte v) := by
    intro s
    unfold Memory.pte Memory.outline
    cases s.pgtbl r with
    | none => rfl
    | some t => rfl
  rw [hpte, h, ← hpte]

/-! ## Functions that work on one table -/

variable [Layout]

section

variable {α : Type} {m : KernelM α}

omit [Layout] in
theorem keeps_others (h : Keeps Memory.pgtbl m) (r : Nat) : Keeps (Memory.others r) m := fun s =>
  (h s).mono (fun _ _ heq => others_of_outline (outline_congr heq) r)
    fun _ _ heq => others_of_outline (outline_congr heq) r

end

omit [Layout] in
theorem keeps_kalloc : Keeps Memory.pgtbl (kalloc κ) := by
  unfold kalloc
  apply keeps_get.bind
  intro s
  dsimp only
  split
  · apply Keeps.bind
    · exact keeps_modify fun _ => rfl
    · exact fun _ => keeps_pure _
  · apply Keeps.bind
    · exact keeps_modify fun _ => rfl
    · intro _
      have hfill : ∀ f, Keeps Memory.pgtbl (do
          modify fun s : Memory => { s with mem := memset s.mem (f * PGSIZE) 5 PGSIZE }
          return some (f * PGSIZE) : KernelM (Option Nat)) := by
        intro f
        apply Keeps.bind
        · exact keeps_modify fun _ => rfl
        · exact fun _ => keeps_pure _
      apply Keeps.ite
      · apply Keeps.bind
        · exact keeps_modify fun _ => rfl
        · exact fun _ => hfill _
      · exact hfill _

theorem keeps_kfree (pa : Nat) : Keeps Memory.pgtbl (kfree κ pa) := by
  unfold kfree
  cases κ with
  | unpatched =>
      apply Keeps.ite
      · exact keeps_throw_bind _ _
      · exact keeps_modify fun _ => rfl
  | cow =>
      apply Keeps.ite
      · exact keeps_throw_bind _ _
      · apply Keeps.bind
        · exact keeps_modify fun _ => rfl
        · intro _
          apply keeps_get.bind
          intro _
          apply Keeps.ite
          · exact keeps_modify fun _ => rfl
          · exact keeps_pure ()

theorem keeps_addrefcnt (pa : Nat) : Keeps Memory.pgtbl (addrefcnt pa) := by
  unfold addrefcnt
  apply Keeps.ite
  · exact keeps_pure _
  · apply Keeps.bind
    · exact keeps_modify fun _ => rfl
    · exact fun _ => keeps_pure _

omit [Layout] in
theorem keeps_table {τ : Type} {f : Memory → τ} (r : Nat) : Keeps f (table r) := by
  unfold table
  apply keeps_get.bind
  intro s
  cases s.pgtbl r with
  | none => exact keeps_throw _
  | some t => exact keeps_pure _

omit [Layout] in
theorem keeps_getPte {τ : Type} {f : Memory → τ} (r va : Nat) : Keeps f (getPte r va) :=
  (keeps_table r).bind fun _ => keeps_pure _

omit [Layout] in
theorem keeps_setPte (r va : Nat) (p : Pte) : Keeps (Memory.others r) (setPte r va p) :=
  keeps_modify fun s => others_setTable s r _

omit [Layout] in
theorem keeps_walkLevel {present alloc : Bool} {link : Nat → Memory → Memory}
    (hlink : ∀ f s, (link f s).others r = s.others r) :
    Keeps (Memory.others r) (walkLevel κ present alloc link) := by
  unfold walkLevel
  apply Keeps.ite
  · exact keeps_pure _
  · apply Keeps.ite
    · exact keeps_pure _
    · apply (keeps_others keeps_kalloc r).bind
      intro pa
      cases pa with
      | none => exact keeps_pure _
      | some pa =>
          apply Keeps.bind
          · exact keeps_modify fun _ => rfl
          · intro _
            apply Keeps.bind
            · exact keeps_modify (hlink _)
            · exact fun _ => keeps_pure _

omit [Layout] in
/-- What both levels of `walk` keep. -/
theorem keeps_walk_of {τ : Type} {f : Memory → τ} {r va : Nat} {alloc : Bool}
    (hlevel : ∀ present (link : Nat → Pagetable → Pagetable),
      Keeps f (walkLevel κ present alloc fun g s => s.updateTable r (link g))) :
    Keeps f (walk κ r va alloc) := by
  unfold walk
  apply Keeps.ite
  · exact keeps_throw_bind _ _
  · apply (keeps_table r).bind
    intro t
    apply (hlevel _ fun g t => t.link1 (va / PGSIZE / 512 / 512) g).bind
    intro present
    apply Keeps.ite
    · apply (keeps_table r).bind
      exact fun t' => hlevel _ fun g t => t.link0 (va / PGSIZE / 512) g
    · exact keeps_pure _

omit [Layout] in
theorem keeps_walk (r va : Nat) (alloc : Bool) : Keeps (Memory.others r) (walk κ r va alloc) := by
  apply keeps_walk_of
  exact fun present link => keeps_walkLevel fun g s => others_setTable s r _

omit [Layout] in
theorem keeps_mappages (r va size pa : Nat) (perm : Flags) :
    Keeps (Memory.others r) (mappages κ r va size pa perm) := by
  have hloop : ∀ n a pa, Keeps (Memory.others r) (mappagesLoop κ r perm n a pa) := by
    intro n
    induction n with
    | zero => exact fun _ _ => keeps_pure _
    | succ n ih =>
        intro a pa
        unfold mappagesLoop
        apply (keeps_walk r a true).bind
        intro found
        apply Keeps.ite
        · apply (keeps_getPte r a).bind
          intro pte
          apply Keeps.ite
          · exact keeps_throw_bind _ _
          · apply (keeps_setPte r a _).bind
            exact fun _ => ih _ _
        · exact keeps_pure _
  unfold mappages
  apply Keeps.ite
  · exact keeps_throw_bind _ _
  · exact hloop _ _ _

omit [Layout] in
/-- A walk that does not allocate only looks. -/
theorem keeps_walk_lookup {τ : Type} {f : Memory → τ} (r va : Nat) :
    Keeps f (walk κ r va false) := by
  apply keeps_walk_of
  intro present link
  cases present with
  | true => exact keeps_pure _
  | false => exact keeps_pure _

/-- `uvmunmap` frees frames and clears entries of the range. -/
theorem maintains_uvmunmap {P : Memory → Prop} {va npages : Nat} {doFree : Bool}
    (hfree : ∀ pa, Maintains P (kfree κ pa))
    (hset : ∀ i < npages, Maintains P (setPte r (va + i * PGSIZE) Pte.zero)) :
    Maintains P (uvmunmap κ r va npages doFree) := by
  unfold uvmunmap
  apply Maintains.ite
  · exact maintains_throw_bind _ _
  · apply Maintains.upto
    intro i hi
    unfold unmapPage
    apply ((keeps_walk_lookup (f := fun s => s) r _).maintains fun _ _ hs => hs ▸ id).bind
    intro found
    apply Maintains.ite
    · apply ((keeps_getPte (f := fun s => s) r _).maintains fun _ _ hs => hs ▸ id).bind
      intro pte
      apply Maintains.ite
      · exact maintains_throw_bind _ _
      · apply Maintains.ite
        · exact maintains_throw_bind _ _
        · apply Maintains.ite
          · exact (hfree _).bind fun _ => hset i hi
          · exact hset i hi
    · exact maintains_throw _

theorem keeps_uvmunmap (r va npages : Nat) (doFree : Bool) :
    Keeps (Memory.others r) (uvmunmap κ r va npages doFree) :=
  keeps_iff.mpr fun c => maintains_uvmunmap
    (fun pa => keeps_iff.mp (keeps_others (keeps_kfree pa) r) c)
    fun _ _ => keeps_iff.mp (keeps_setPte r _ _) c

/-! ## Freeing a table -/

omit [Layout] in
theorem keeps_freewalk0 {τ : Type} {f : Memory → τ} (r j : Nat) : Keeps f (freewalk0 r j) := by
  unfold freewalk0
  apply Keeps.upto
  intro i
  apply (keeps_table r).bind
  intro t
  apply Keeps.ite
  · apply Keeps.ite
    · exact keeps_throw _
    · exact keeps_throw _
  · exact keeps_pure _

theorem keeps_freewalk (r : Nat) : Keeps (Memory.others r) (freewalk κ r) := by
  have hlevel1 : ∀ i, Keeps (Memory.others r) (freewalk1 κ r i) := by
    intro i
    unfold freewalk1
    apply Keeps.upto
    intro j
    apply (keeps_table r).bind
    intro t
    cases t.l0 (i * 512 + j) with
    | none => exact keeps_pure _
    | some f =>
        apply (keeps_freewalk0 r _).bind
        intro _
        apply (keeps_others (keeps_kfree _) r).bind
        exact fun _ => keeps_modify fun s => others_setTable s r _
  unfold freewalk
  apply Keeps.bind
  · apply Keeps.upto
    intro i
    apply (keeps_table r).bind
    intro t
    cases t.l1 i with
    | none => exact keeps_pure _
    | some f =>
        apply (hlevel1 i).bind
        intro _
        apply (keeps_others (keeps_kfree _) r).bind
        exact fun _ => keeps_modify fun s => others_setTable s r _
  · intro _
    apply (keeps_others (keeps_kfree _) r).bind
    exact fun _ => keeps_modify fun s => others_setTable s r _

theorem keeps_uvmfree (r sz : Nat) : Keeps (Memory.others r) (uvmfree κ r sz) := by
  unfold uvmfree
  apply Keeps.ite
  · exact (keeps_uvmunmap r _ _ _).bind fun _ => keeps_freewalk r
  · exact keeps_freewalk r

theorem keeps_procFreepagetable (r sz : Nat) :
    Keeps (Memory.others r) (procFreepagetable κ r sz) := by
  unfold procFreepagetable
  apply (keeps_uvmunmap r _ _ _).bind
  intro _
  apply (keeps_uvmunmap r _ _ _).bind
  exact fun _ => keeps_uvmfree r sz

/-! ## Sharing pages -/

omit [Layout] in
theorem outline_setPte {t : Pagetable} {p : Pte} (hr : s.pgtbl r = some t)
    (hp : p.outline = (t.pte v).outline) : (s.setPte r v p).outline = s.outline := by
  funext r'
  by_cases hrr : r' = r
  · subst hrr
    unfold Memory.outline
    rw [setPte_eq hr, hr]
    simp only [Memory.setTable, Function.update_self, Option.map_some, Pagetable.outline]
    refine congrArg (fun q => some (Pagetable.mk t.l1 t.l0 q)) (funext fun w => ?_)
    by_cases hw : w = v
    · rw [hw, Function.update_self, hp]
    · rw [Function.update_of_ne hw]
  · have hsame : (s.setPte r v p).pgtbl r' = s.pgtbl r' := by
      rw [setPte_eq hr]
      simp [Memory.setTable, hrr]
    rw [Memory.outline, hsame, Memory.outline]

/-- Mapping a page of the parent in the child. -/
theorem keeps_mapShared (new i pa : Nat) (flags : Flags) :
    Keeps (Memory.others new) (do
      if ← mappages .cow new i PGSIZE pa flags then
        if ← addrefcnt pa then return .ok else return .badRef
      else return .err : KernelM CopyRes) := by
  apply (keeps_mappages new i PGSIZE pa flags).bind
  intro mapped
  apply Keeps.ite
  · apply (keeps_others (keeps_addrefcnt pa) new).bind
    intro counted
    exact (keeps_pure _).ite (keeps_pure _)
  · exact keeps_pure _

/-- Copying a page of the parent for the child. -/
theorem keeps_copyFrame (new i : Nat) (pte : Pte) :
    Keeps (Memory.others new) (do
      match ← kalloc .unpatched with
      | none => return .err
      | some mem => do
          modify fun s : Memory => { s with mem := memmove s.mem mem pte.pa PGSIZE }
          if ← mappages .unpatched new i PGSIZE mem pte.toFlags then return .ok
          else
            kfree .unpatched mem
            return .err : KernelM CopyRes) := by
  apply (keeps_others keeps_kalloc new).bind
  intro mem
  cases mem with
  | none => exact keeps_pure _
  | some mem =>
      apply Keeps.bind
      · exact keeps_modify fun _ => rfl
      · intro _
        apply (keeps_mappages new i PGSIZE mem pte.toFlags).bind
        intro mapped
        apply Keeps.ite
        · exact keeps_pure _
        · exact (keeps_others (keeps_kfree mem) new).bind fun _ => keeps_pure _

/-- The entry of the parent may be marked, which its outline does not show. -/
theorem keeps_copyPage (old new i : Nat) : Keeps (Memory.others new) (copyPage κ old new i) := by
  intro s
  unfold copyPage
  rw [wp_bind]
  refine (keeps_walk_lookup (f := fun s => s) old i s).mono ?_ fun _ s' hs => congrArg _ hs
  intro found s' hs
  obtain rfl : s' = s := hs
  cases found with
  | false => exact rfl
  | true =>
      rw [if_pos rfl, wp_bind]
      cases hr : s'.pgtbl old with
      | none => simp [getPte, table, hr]
      | some t =>
          rw [wp_getPte hr]
          cases κ with
          | unpatched =>
              dsimp only
              split
              · exact rfl
              · exact keeps_copyFrame new i _ s'
          | cow =>
              dsimp only
              split
              · exact rfl
              · split
                · rename_i hw
                  rw [wp_bind, wp_setPte]
                  rw [← others_of_outline (outline_setPte (v := i / PGSIZE) hr
                    (p := { t.pte (i / PGSIZE) with rsw := true, w := false })
                    (by simp [Pte.outline, hw])) new]
                  exact keeps_mapShared new i _ _ _
                · exact keeps_mapShared new i _ _ s'

theorem keeps_uvmcopy (old new sz : Nat) : Keeps (Memory.others new) (uvmcopy κ old new sz) := by
  have hloop : ∀ n i, Keeps (Memory.others new) (uvmcopyLoop κ old new n i) := by
    intro n
    induction n with
    | zero => exact fun _ => keeps_pure _
    | succ n ih =>
        intro i
        unfold uvmcopyLoop
        apply (keeps_copyPage old new i).bind
        intro res
        cases res with
        | ok => exact ih _
        | err => exact (keeps_uvmunmap new _ _ _).bind fun _ => keeps_pure _
        | badRef => exact keeps_pure _
  exact hloop _ _

/-! ## Functions that only write bytes -/

/-- The state of memory apart from the bytes. -/
def Memory.blank (s : Memory) : Memory := { s with mem := fun _ => 0 }

omit [Layout] in
theorem eq_of_blank (h : s'.blank = s.blank) : s' = { s with mem := s'.mem } := by
  cases s'
  cases s
  simp only [Memory.blank, Memory.mk.injEq] at h
  simp [h]

omit [Layout] in
theorem keeps_walkaddr {τ : Type} {f : Memory → τ} (r va : Nat) : Keeps f (walkaddr κ r va) := by
  unfold walkaddr
  apply Keeps.ite
  · exact keeps_pure _
  · apply (keeps_walk_lookup r va).bind
    intro found
    apply Keeps.ite
    · apply (keeps_getPte r va).bind
      intro pte
      apply Keeps.ite
      · exact keeps_pure _
      · exact (keeps_pure _).ite (keeps_pure _)
    · exact keeps_pure _

omit [Layout] in
theorem keeps_loadseg (r va : Nat) (src : Nat → UInt8) (sz : Nat) :
    Keeps Memory.blank (loadseg κ r va src sz) := by
  unfold loadseg
  apply Keeps.upto
  intro i
  apply (keeps_walkaddr r _).bind
  intro pa
  cases pa with
  | none => exact keeps_throw _
  | some pa => exact keeps_modify fun _ => rfl

/-- Without copy-on-write there is nothing to separate. -/
theorem keeps_copyout_unpatched (r dstva : Nat) (src : Nat → UInt8) (len : Nat) :
    Keeps Memory.blank (copyout .unpatched r dstva src len) := by
  have hloop : ∀ fuel dstva src len, Keeps Memory.blank (copyoutLoop .unpatched r fuel dstva src len) := by
    intro fuel
    induction fuel with
    | zero => exact fun _ _ _ => keeps_pure _
    | succ fuel ih =>
        intro dstva src len
        unfold copyoutLoop
        apply Keeps.ite
        · exact keeps_pure _
        · apply (keeps_walkaddr r _).bind
          intro found
          apply (keeps_pure found).bind
          intro pa
          cases pa with
          | none => exact keeps_pure _
          | some pa =>
              apply Keeps.bind
              · exact keeps_modify fun _ => rfl
              · exact fun _ => ih _ _ _
  exact hloop _ _ _ _

/-! ## New tables -/

/-- At most one page table has been made, or made and freed again. -/
def Memory.OneNew (s s' : Memory) : Prop :=
  s'.outline = s.outline ∨ ∃ r, s.pgtbl r = none ∧ s'.others r = s.others r

omit [Layout] in
/-- The table that is there now is the new one. -/
theorem Memory.OneNew.others (h : s.OneNew s') (hs : s.pgtbl r = none) (hs' : (s'.pgtbl r).isSome) :
    s'.others r = s.others r := by
  rcases h with houtline | ⟨r', _, hothers⟩
  · exact others_of_outline houtline r
  · by_cases hr : r = r'
    · rw [hr, hothers]
    · have hsame := congrFun hothers r
      unfold Memory.others at hsame
      rw [Function.update_of_ne hr, Function.update_of_ne hr, Memory.outline, Memory.outline, hs,
        Option.map_none, Option.map_eq_none_iff] at hsame
      simp [hsame] at hs'

omit [Layout] in
/-- There are no other tables than before, so the new one has been freed. -/
theorem Memory.OneNew.outline (h : s.OneNew s')
    (hlive : ∀ r, (s'.pgtbl r).isSome = (s.pgtbl r).isSome) : s'.outline = s.outline := by
  rcases h with houtline | ⟨r, hdead, hothers⟩
  · exact houtline
  · refine outline_of_others hothers hdead ?_
    have hr := hlive r
    rw [hdead] at hr
    exact Option.not_isSome_iff_eq_none.mp (by simp [hr])

theorem wp_procPagetable_oneNew {trapframe : Nat} (h : Inv κ s x) :
    wp (procPagetable κ trapframe) (fun _ s' => s.OneNew s') (fun _ s' => s.OneNew s') s := by
  -- All but `uvmcreate` works on one table.
  have hmap : ∀ r, Keeps (Memory.others r) (do
      if ← mappages κ r TRAMPOLINE PGSIZE Layout.trampoline Flags.rx then
        if ← mappages κ r TRAPFRAME PGSIZE trapframe Flags.rw then return some r
        else
          uvmunmap κ r TRAMPOLINE 1 false
          uvmfree κ r 0
          return none
      else
        uvmfree κ r 0
        return none : KernelM (Option Nat)) := by
    intro r
    apply (keeps_mappages r _ _ _ _).bind
    intro mapped
    apply Keeps.ite
    · apply (keeps_mappages r _ _ _ _).bind
      intro mapped'
      apply Keeps.ite
      · exact keeps_pure _
      · apply (keeps_uvmunmap r _ _ _).bind
        intro _
        exact (keeps_uvmfree r 0).bind fun _ => keeps_pure _
    · exact (keeps_uvmfree r 0).bind fun _ => keeps_pure _
  unfold procPagetable uvmcreate
  rw [wp_bind, wp_bind]
  refine wp_kalloc_inv h ?_ ?_
  · intro _
    exact .inl (outline_congr rfl)
  · intro f s₁ ha
    simp only [wp_bind, wp_modify, wp_pure, frame_div]
    have hdead : s.pgtbl f = none := ha.pgtbl ▸ ha.inv.not_root ha.one
    have hone : ∀ s', Memory.others f s' = Memory.others f s₁ → s.OneNew s' := by
      intro s' hs'
      exact .inr ⟨f, hdead, hs'.trans (others_of_outline (outline_congr ha.pgtbl) f)⟩
    rw [← wp_bind]
    refine (hmap f _).mono ?_ ?_
    · intro _ s' hs'
      rw [others_setTable] at hs'
      exact hone s' hs'
    · intro _ s' hs'
      rw [others_setTable] at hs'
      exact hone s' hs'

end Vm
