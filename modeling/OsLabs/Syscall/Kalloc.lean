-- SUMMARY: The page allocator of the system-call kernel with its free list threaded through the free pages, and freemem, which counts them.
import Mathlib.Data.Finset.Card
import Mathlib.Data.Finset.Dedup
import Mathlib.Data.Finset.SDiff
import OsLabs.Lib.CInt
import OsLabs.Lib.Heap
import OsLabs.Lib.Transition
import OsLabs.Vm.Kernel

/-!
# `kernel/kalloc.c` with `freemem`

A free page holds the address of the next free page in its first eight bytes. `kfree` and
`kalloc` fill whole pages with junk, and whoever holds a page may write anything into it, so
the list is what is left when all these writes are kept apart from it. The invariant says
which list that is: the pages of `[PGROUNDUP(end), PHYSTOP)` that nobody holds, each once.
-/

namespace Syscall

open CInt Effect Heap
open Vm (Layout BadAddress PGSIZE PHYSTOP memset pgrounddown pgroundup write)

/-! ## The allocator -/

/-- `kmem.freelist`, and the memory that the list runs through. -/
structure Kmem where
  freelist : Nat
  mem : Nat → UInt8

abbrev KmemM := Effect Kmem Vm.Panic

/-- `r->next`. -/
def next (m : Nat → UInt8) (r : Nat) : Nat := load m r 8

/-- `r->next = p`. -/
def setNext (m : Nat → UInt8) (r p : Nat) : Nat → UInt8 := write m r (byte p) 8

section

variable [Layout]

def kfree (pa : Nat) : KmemM Unit := do
  if BadAddress pa then throw .kfree
  modify fun s => { s with mem := memset s.mem pa 1 PGSIZE }
  modify fun s => { s with mem := setNext s.mem pa s.freelist }
  modify fun s => { s with freelist := pa }

def freerange (paStart paEnd : Nat) : KmemM Unit :=
  let p := pgroundup paStart
  upto ((paEnd - p) / PGSIZE) fun i => kfree (p + i * PGSIZE)

def kinit : KmemM Unit := freerange Layout.kend PHYSTOP

end

/-- Returns the null pointer if there is no page. -/
def kalloc : KmemM Nat := do
  let r := (← get).freelist
  if r ≠ 0 then modify fun s => { s with freelist := next s.mem r }
  if r ≠ 0 then modify fun s => { s with mem := memset s.mem r 5 PGSIZE }
  return r

/-- The loop of `freemem` from `r` on. It follows links for as long as there are any; `none`
    if that takes more than `fuel` steps. -/
def countFrom (m : Nat → UInt8) : Nat → Nat → Int → Option Int
  | 0, _, _        => none
  | fuel + 1, r, n => if r = 0 then some n else countFrom m fuel (next m r) (wrap32 (n + 1))

def freemem (fuel : Nat) (s : Kmem) : Option Int :=
  (countFrom s.mem fuel s.freelist 0).map fun n => wrap32 (n * PGSIZE)

/-! ## Pages -/

/-- `freemem` gets to the end of the list and counts its pages. -/
theorem countFrom_linked {m : Nat → UInt8} {fuel r : Nat} {l : List Nat} {n : Int}
    (h : Linked (next m) 0 r l) (hfuel : l.length < fuel) :
    countFrom m fuel r n = some (Vm.countFree l n) := by
  induction l generalizing fuel r n with
  | nil =>
      obtain ⟨fuel, rfl⟩ := Nat.exists_eq_add_of_lt hfuel
      have hr : r = 0 := h
      simp [countFrom, hr, Vm.countFree]
  | cons a l ih =>
      obtain ⟨fuel, rfl⟩ := Nat.exists_eq_add_of_lt hfuel
      obtain ⟨hr, hne, hl⟩ := h
      rw [countFrom, if_neg (by rw [hr]; exact hne), hr]
      exact ih hl (by rw [List.length_cons]; omega)

theorem next_setNext {m : Nat → UInt8} {r p : Nat} (hp : p < 2 ^ 64) :
    next (setNext m r p) r = p := by
  refine load_bytes ?_ (Nat.lt_of_lt_of_le hp (by decide))
  intro i hi
  have hin : r ≤ r + i ∧ r + i < r + 8 := by omega
  have hsub : r + i - r = i := by omega
  rw [setNext, write, if_pos hin, hsub]

section

variable [Layout]

/-- The pages of `[PGROUNDUP(end), PHYSTOP)`. -/
def pages : Finset Nat :=
  (Finset.range ((PHYSTOP - pgroundup Layout.kend) / PGSIZE)).image
    fun i => pgroundup Layout.kend + i * PGSIZE

/-- These are the addresses that `kfree` accepts. -/
theorem mem_pages {pa : Nat} : pa ∈ pages ↔ ¬ BadAddress pa := by
  obtain ⟨hfirst, hge, hlt⟩ := Vm.pgroundup_kend
  simp only [pages, Finset.mem_image, Finset.mem_range, BadAddress, hfirst, Vm.PHYSTOP_eq]
  simp only [PGSIZE] at *
  constructor
  · rintro ⟨i, hi, rfl⟩
    omega
  · intro hpa
    exact ⟨pa / 4096 - Vm.firstFrame, by omega, by omega⟩

theorem page_aligned {pa : Nat} (h : pa ∈ pages) : pa % PGSIZE = 0 :=
  Decidable.not_not.mp fun hmod => mem_pages.mp h (.inl hmod)

theorem page_pos {pa : Nat} (h : pa ∈ pages) : pa ≠ 0 := by
  rintro rfl
  apply mem_pages.mp h
  exact .inr (.inl (Nat.lt_of_lt_of_le (by decide) Layout.kernbase_le))

theorem page_lt {pa : Nat} (h : pa ∈ pages) : pa < 2 ^ 64 := by
  have hpa := mem_pages.mp h
  simp only [BadAddress, Vm.PHYSTOP_eq] at hpa
  omega

theorem card_pages_le : pages.card ≤ 2 ^ 15 := by
  have hcard : pages.card ≤ (PHYSTOP - pgroundup Layout.kend) / PGSIZE := by
    have himage := Finset.card_image_le
      (s := Finset.range ((PHYSTOP - pgroundup Layout.kend) / PGSIZE))
      (f := fun i => pgroundup Layout.kend + i * PGSIZE)
    rwa [Finset.card_range] at himage
  obtain ⟨hfirst, hge, -⟩ := Vm.pgroundup_kend
  have hbase : 2147483648 ≤ Layout.kend := Layout.kernbase_le
  rw [hfirst, Vm.PHYSTOP_eq] at hcard
  simp only [PGSIZE] at *
  omega

/-- A write to another page does not reach the link of a page. -/
theorem next_write {m : Nat → UInt8} {pa c n : Nat} {src : Nat → UInt8} (hpa : pa ∈ pages)
    (hc : c ∈ pages) (hne : c ≠ pa) (hn : n ≤ PGSIZE) : next (write m pa src n) c = next m c := by
  have hpa := page_aligned hpa
  have hc := page_aligned hc
  apply load_congr
  intro i hi
  apply if_neg
  simp only [PGSIZE] at *
  omega

/-! ## The free list -/

/-- `l` is the free list: the links lead from `kmem.freelist` through the pages of `l`. -/
structure FreeList (s : Kmem) (l : List Nat) : Prop where
  linked : Linked (next s.mem) 0 s.freelist l
  managed : ∀ c ∈ l, c ∈ pages

/-- What is not in the list may be overwritten. -/
theorem FreeList.write {s : Kmem} {l : List Nat} (h : FreeList s l) {pa n : Nat}
    (hpa : pa ∈ pages) (hnew : pa ∉ l) (hn : n ≤ PGSIZE) (src : Nat → UInt8) :
    FreeList { s with mem := write s.mem pa src n } l where
  linked := by
    apply h.linked.congr
    intro c hc
    exact next_write hpa (h.managed c hc) (fun heq => hnew (heq ▸ hc)) hn
  managed := h.managed

theorem FreeList.head_lt {s : Kmem} {l : List Nat} (h : FreeList s l) : s.freelist < 2 ^ 64 := by
  cases l with
  | nil =>
      have hzero : s.freelist = 0 := h.linked
      rw [hzero]
      decide
  | cons a l =>
      rw [h.linked.1]
      exact page_lt (h.managed a (by simp))

/-- Nothing outside of the page at `pa` has changed. -/
def SameOutside (pa : Nat) (m m' : Nat → UInt8) : Prop :=
  ∀ a, ¬ (pa ≤ a ∧ a < pa + PGSIZE) → m' a = m a

theorem wp_kfree {s : Kmem} {l : List Nat} {pa : Nat} (h : FreeList s l) (hpa : pa ∈ pages)
    (hnew : pa ∉ l) :
    wp (kfree pa) (fun _ s' => FreeList s' (pa :: l) ∧ SameOutside pa s.mem s'.mem)
      (fun _ _ => False) s := by
  have hfilled := h.write hpa hnew (Nat.le_refl PGSIZE) (fun _ => 1)
  have hlinked := hfilled.write hpa hnew (n := 8) (by decide) (byte s.freelist)
  have hnext : next (setNext (memset s.mem pa 1 PGSIZE) pa s.freelist) pa = s.freelist :=
    next_setNext h.head_lt
  unfold kfree
  simp only [wp_bind, if_neg (mem_pages.mp hpa), wp_modify]
  refine ⟨⟨hlinked.linked.push hnext (page_pos hpa), ?_⟩, ?_⟩
  · intro c hc
    rcases List.mem_cons.mp hc with rfl | hc
    · exact hpa
    · exact h.managed c hc
  · intro a ha
    have hword : ¬ (pa ≤ a ∧ a < pa + 8) := by
      intro hin
      simp only [PGSIZE] at ha
      omega
    exact (if_neg hword).trans (if_neg ha)

theorem wp_kalloc {s : Kmem} {l : List Nat} (h : FreeList s l) :
    wp kalloc (fun r s' => l = [] ∧ r = 0 ∧ s' = s ∨
        ∃ l', l = r :: l' ∧ FreeList s' l' ∧ s'.mem = memset s.mem r 5 PGSIZE)
      (fun _ _ => False) s := by
  unfold kalloc
  cases l with
  | nil =>
      have hzero : s.freelist = 0 := h.linked
      simp [hzero]
  | cons r l =>
      obtain ⟨hhead, hne, hrest⟩ := h.linked
      have hr : r ∈ pages := h.managed r (by simp)
      have hnodup := List.nodup_cons.mp h.linked.nodup
      have htail : FreeList { s with freelist := next s.mem r } l :=
        ⟨hrest, fun c hc => h.managed c (by simp [hc])⟩
      simp only [wp_bind, wp_get, wp_ite, wp_modify, wp_pure, hhead]
      refine ⟨fun _ => ⟨fun _ => .inr ⟨l, rfl, ?_, trivial⟩, fun h0 => absurd hne h0⟩,
        fun h0 => absurd hne h0⟩
      exact htail.write hr hnodup.1 (Nat.le_refl PGSIZE) (fun _ => 5)

/-- `kinit` puts all pages on the list. -/
theorem wp_kinit (ram : Nat → UInt8) :
    wp kinit (fun _ s => ∃ l, FreeList s l ∧ ∀ pa, pa ∈ l ↔ pa ∈ pages) (fun _ _ => False)
      ⟨0, ram⟩ := by
  unfold kinit freerange
  refine wp_upto_of (fun i s => ∃ l, FreeList s l ∧ ∀ pa, pa ∈ l ↔
    ∃ j < i, pa = pgroundup Layout.kend + j * PGSIZE) ?_ ?_ ?_
  · exact ⟨[], ⟨rfl, by simp⟩, by simp⟩
  · rintro i hi s ⟨l, hlist, hmem⟩
    have hpage : pgroundup Layout.kend + i * PGSIZE ∈ pages :=
      Finset.mem_image.mpr ⟨i, Finset.mem_range.mpr hi, rfl⟩
    have hnew : pgroundup Layout.kend + i * PGSIZE ∉ l := by
      intro hin
      obtain ⟨j, hj, heq⟩ := (hmem _).mp hin
      simp only [PGSIZE] at heq
      omega
    apply (wp_kfree hlist hpage hnew).mono
    · rintro _ s' ⟨hlist', -⟩
      refine ⟨_, hlist', ?_⟩
      intro pa
      rw [List.mem_cons, hmem]
      constructor
      · rintro (rfl | ⟨j, hj, rfl⟩)
        · exact ⟨i, Nat.lt_succ_self i, rfl⟩
        · exact ⟨j, Nat.lt_succ_of_lt hj, rfl⟩
      · rintro ⟨j, hj, rfl⟩
        rcases Nat.lt_succ_iff_lt_or_eq.mp hj with hj | rfl
        · exact .inr ⟨j, hj, rfl⟩
        · exact .inl rfl
    · intro _ _ hfalse
      exact hfalse
  · rintro s ⟨l, hlist, hmem⟩
    refine ⟨l, hlist, ?_⟩
    intro pa
    rw [hmem, pages, Finset.mem_image]
    constructor
    · rintro ⟨j, hj, rfl⟩
      exact ⟨j, Finset.mem_range.mpr hj, rfl⟩
    · rintro ⟨j, hj, rfl⟩
      exact ⟨j, Finset.mem_range.mp hj, rfl⟩

/-! ## The list of frames

The kernel with and without the copy-on-write patch is modelled over a list of frame numbers
instead of links in memory. The two agree: what the list allocator does, this one does, and
memory differs in the free pages only, where the links are.
-/

/-- `s` has the same free list, and the same bytes in all pages that are not free. -/
structure Represents (c : Kmem) (s : Vm.Memory) : Prop where
  list : FreeList c (s.freelist.map (· * PGSIZE))
  mem : ∀ a, a / PGSIZE ∉ s.freelist → c.mem a = s.mem a

theorem frame_mem_pages {f : Nat} : f * PGSIZE ∈ pages ↔ Vm.Managed f := by
  rw [mem_pages, Vm.not_badAddress_iff]

omit [Layout] in
theorem mem_map_frame {l : List Nat} {f : Nat} : f * PGSIZE ∈ l.map (· * PGSIZE) ↔ f ∈ l := by
  constructor
  · intro h
    obtain ⟨g, hg, heq⟩ := List.mem_map.mp h
    rwa [← Nat.eq_of_mul_eq_mul_right Vm.PGSIZE_pos heq]
  · intro h
    exact List.mem_map.mpr ⟨f, h, rfl⟩

omit [Layout] in
theorem page_iff {f a : Nat} : f * PGSIZE ≤ a ∧ a < f * PGSIZE + PGSIZE ↔ a / PGSIZE = f := by
  rw [Nat.div_eq_iff Vm.PGSIZE_pos]
  have hpos := Vm.PGSIZE_pos
  omega

/-- `freemem` on the links is `freemem` on the list. -/
theorem freemem_represents {c : Kmem} {s : Vm.Memory} {fuel : Nat} (h : Represents c s)
    (hfuel : s.freelist.length < fuel) : freemem fuel c = some s.freemem := by
  rw [freemem, countFrom_linked h.list.linked (by simpa using hfuel), Vm.countFree_map]
  rfl

theorem kfree_represents {c : Kmem} {s : Vm.Memory} {f : Nat} (h : Represents c s)
    (hf : Vm.Managed f) (hnew : f ∉ s.freelist) :
    wp (kfree (f * PGSIZE)) (fun _ c' => ∃ s',
        exec (Vm.kfree .unpatched (f * PGSIZE)) s = (.ok (), s') ∧ Represents c' s')
      (fun _ _ => False) c := by
  have hlist : f * PGSIZE ∉ s.freelist.map (· * PGSIZE) := mt mem_map_frame.mp hnew
  apply (wp_kfree h.list (frame_mem_pages.mpr hf) hlist).mono
  · rintro _ c' ⟨hlist', hsame⟩
    refine ⟨s.push f, ?_, hlist', ?_⟩
    · unfold Vm.kfree
      rw [if_neg (Vm.not_badAddress_iff.mpr hf), Vm.frame_div]
      rfl
    · intro a ha
      have hout : ¬ (f * PGSIZE ≤ a ∧ a < f * PGSIZE + PGSIZE) := by
        rw [page_iff]
        exact fun heq => ha (by simp [Vm.Memory.push, heq])
      have hold : a / PGSIZE ∉ s.freelist := fun hin => ha (by simp [Vm.Memory.push, hin])
      rw [hsame a hout, h.mem a hold]
      exact (if_neg hout).symm
  · intro _ _ hfalse
    exact hfalse

theorem kalloc_represents {c : Kmem} {s : Vm.Memory} (h : Represents c s) :
    wp kalloc (fun r c' => ∃ s',
        exec (Vm.kalloc .unpatched) s = (.ok (if r = 0 then none else some r), s') ∧
        Represents c' s')
      (fun _ _ => False) c := by
  apply (wp_kalloc h.list).mono
  · rintro r c' (⟨hnil, rfl, rfl⟩ | ⟨l, hcons, hlist, hmem⟩)
    · have hfree : s.freelist = [] := List.map_eq_nil_iff.mp hnil
      refine ⟨{ s with oom := true }, ?_, h.list, h.mem⟩
      cases s
      cases hfree
      rfl
    · obtain ⟨f, rest, hfree, rfl, rfl⟩ := List.map_eq_cons_iff.mp hcons
      have hne : f * PGSIZE ≠ 0 := h.list.linked.ne_nil_of_mem (by rw [hcons]; simp)
      rw [if_neg hne]
      refine ⟨{ s with freelist := rest, mem := memset s.mem (f * PGSIZE) 5 PGSIZE }, ?_, hlist, ?_⟩
      · cases s
        cases hfree
        rfl
      · intro a ha
        rw [hmem]
        by_cases hin : f * PGSIZE ≤ a ∧ a < f * PGSIZE + PGSIZE
        · exact (if_pos hin).trans (if_pos hin).symm
        · have hold : a / PGSIZE ∉ s.freelist := by
            rw [hfree, List.mem_cons]
            rintro (heq | hrest)
            · exact hin (page_iff.mpr heq)
            · exact ha hrest
          exact (if_neg hin).trans ((h.mem a hold).trans (if_neg hin).symm)
  · intro _ _ hfalse
    exact hfalse

/-! ## Clients -/

/-- The allocator, and the pages that have been handed out and not come back. -/
structure Pool where
  kmem : Kmem
  held : Finset Nat

/-- What the rest of the kernel does: it allocates, frees a page that it holds, and writes a
    byte into a page that it holds. -/
inductive Op
  | kalloc
  | kfree (pa : Nat)
  | store (a : Nat) (b : UInt8)

def Pool.step (s : Pool) : Op → Option Pool
  | .kalloc =>
      match exec kalloc s.kmem with
      | (.ok r, k)    => some ⟨k, if r = 0 then s.held else insert r s.held⟩
      | (.error _, _) => none
  | .kfree pa =>
      if pa ∈ s.held then
        match exec (kfree pa) s.kmem with
        | (.ok _, k)    => some ⟨k, s.held.erase pa⟩
        | (.error _, _) => none
      else none
  | .store a b =>
      if pgrounddown a ∈ s.held then
        some { s with kmem := { s.kmem with mem := Function.update s.kmem.mem a b } }
      else none

/-- The allocator after `kinit`, whatever was in memory before, in the hands of its clients. -/
def pool : TransitionSystem Pool Op where
  init s := ∃ ram, exec kinit ⟨0, ram⟩ = (.ok (), s.kmem) ∧ s.held = ∅
  step s op s' := s.step op = some s'

/-- The free list has the pages that nobody holds. -/
structure Pool.Ok (s : Pool) (l : List Nat) : Prop where
  list : FreeList s.kmem l
  mem_iff : ∀ pa, pa ∈ l ↔ pa ∈ pages ∧ pa ∉ s.held
  held : s.held ⊆ pages

theorem kalloc_ok {s s' : Pool} {l : List Nat} (h : s.Ok l) (hs : pool.step s .kalloc s') :
    ∃ l', s'.Ok l' := by
  have hspec := wp_kalloc h.list
  simp only [pool, Pool.step] at hs
  split at hs
  · rename_i r k hexec
    cases hs
    rcases hspec.ok hexec with ⟨rfl, rfl, rfl⟩ | ⟨l', rfl, hlist, -⟩
    · rw [if_pos rfl]
      exact ⟨[], h⟩
    · have hr := (h.mem_iff r).mp (by simp)
      have hnodup := List.nodup_cons.mp h.list.linked.nodup
      refine ⟨l', hlist, ?_, ?_⟩
      · intro pa
        rw [if_neg (page_pos hr.1)]
        have hmem := h.mem_iff pa
        rw [List.mem_cons] at hmem
        rw [Finset.mem_insert]
        constructor
        · intro hpa
          have hfree := hmem.mp (.inr hpa)
          refine ⟨hfree.1, ?_⟩
          rintro (rfl | hheld)
          · exact hnodup.1 hpa
          · exact hfree.2 hheld
        · rintro ⟨hpage, hnot⟩
          rcases hmem.mpr ⟨hpage, fun hheld => hnot (.inr hheld)⟩ with heq | hpa
          · exact absurd (.inl heq) hnot
          · exact hpa
      · rw [if_neg (page_pos hr.1)]
        exact Finset.insert_subset hr.1 h.held
  · cases hs

theorem kfree_ok {s s' : Pool} {l : List Nat} {pa : Nat} (h : s.Ok l)
    (hs : pool.step s (.kfree pa) s') : ∃ l', s'.Ok l' := by
  simp only [pool, Pool.step] at hs
  split at hs
  · rename_i hheld
    have hpage := h.held hheld
    have hnew : pa ∉ l := fun hin => ((h.mem_iff pa).mp hin).2 hheld
    split at hs
    · rename_i k hexec
      cases hs
      obtain ⟨hlist, -⟩ := (wp_kfree h.list hpage hnew).ok hexec
      refine ⟨pa :: l, hlist, ?_, ?_⟩
      · intro c
        rw [List.mem_cons, h.mem_iff, Finset.mem_erase]
        constructor
        · rintro (rfl | ⟨hc, hfree⟩)
          · exact ⟨hpage, fun hin => hin.1 rfl⟩
          · exact ⟨hc, fun hin => hfree hin.2⟩
        · rintro ⟨hc, hfree⟩
          by_cases heq : c = pa
          · exact .inl heq
          · exact .inr ⟨hc, fun hin => hfree ⟨heq, hin⟩⟩
      · exact (Finset.erase_subset pa s.held).trans h.held
    · cases hs
  · cases hs

/-- The holder of a page cannot touch the list. -/
theorem store_ok {s s' : Pool} {l : List Nat} {a : Nat} {b : UInt8} (h : s.Ok l)
    (hs : pool.step s (.store a b) s') : s'.Ok l := by
  simp only [pool, Pool.step] at hs
  split at hs
  · rename_i hheld
    cases hs
    refine ⟨⟨h.list.linked.congr ?_, h.list.managed⟩, h.mem_iff, h.held⟩
    intro c hc
    have hfree := (h.mem_iff c).mp hc
    have haligned := page_aligned hfree.1
    apply load_congr
    intro i hi
    apply Function.update_of_ne
    rintro rfl
    -- The link of `c` is in the page `c`, which is nobody's.
    have hpage : pgrounddown (c + i) = c := by
      simp only [pgrounddown, PGSIZE] at *
      omega
    rw [hpage] at hheld
    exact hfree.2 hheld
  · cases hs

theorem reachable_ok {s : Pool} (h : pool.Reachable s) : ∃ l, s.Ok l := by
  refine h.invariant (I := fun s => ∃ l, s.Ok l) ?_ ?_
  · rintro s ⟨ram, hexec, hheld⟩
    obtain ⟨l, hlist, hmem⟩ := (wp_kinit ram).ok hexec
    refine ⟨l, hlist, ?_, ?_⟩
    · intro pa
      simp [hheld, hmem]
    · simp [hheld]
  · rintro s op s' - ⟨l, hok⟩ hs
    cases op with
    | kalloc => exact kalloc_ok hok hs
    | kfree pa => exact kfree_ok hok hs
    | store a b => exact ⟨l, store_ok hok hs⟩

/-- After `kinit`, and whatever the holders of pages do with them: the links in the pages form
    a list without repetition, of exactly the pages that are not handed out. So `kfree` accepts
    every page that is, `kalloc` returns a page that is not and gives up only if there is none,
    and `freemem` ends and returns the size of the free pages, which is an `int`. -/
theorem freelist_exact {s : Pool} (h : pool.Reachable s) :
    (∃ l, Linked (next s.kmem.mem) 0 s.kmem.freelist l ∧ l.Nodup ∧
      l.toFinset = pages \ s.held) ∧
    s.held ⊆ pages ∧
    (∀ pa ∈ s.held, ∃ k, exec (kfree pa) s.kmem = (.ok (), k)) ∧
    (∃ r k, exec kalloc s.kmem = (.ok r, k) ∧
      (r = 0 ∧ pages \ s.held = ∅ ∨ r ≠ 0 ∧ r ∈ pages \ s.held)) ∧
    (∃ enough, ∀ fuel ≥ enough,
      freemem fuel s.kmem = some (PGSIZE * (pages \ s.held).card : Int)) ∧
    (PGSIZE * (pages \ s.held).card : Int) < 2 ^ 31 := by
  obtain ⟨l, hok⟩ := reachable_ok h
  have hset : l.toFinset = pages \ s.held := by
    ext pa
    rw [List.mem_toFinset, hok.mem_iff, Finset.mem_sdiff]
  have hnodup := hok.list.linked.nodup
  have hlen : l.length = (pages \ s.held).card := by
    rw [← hset, List.toFinset_card_of_nodup hnodup]
  have hcard : (pages \ s.held).card ≤ 2 ^ 15 :=
    (Finset.card_le_card Finset.sdiff_subset).trans card_pages_le
  refine ⟨⟨l, hok.list.linked, hnodup, hset⟩, hok.held, ?_, ?_, ?_, ?_⟩
  · intro pa hpa
    have hnew : pa ∉ l := fun hin => ((hok.mem_iff pa).mp hin).2 hpa
    obtain ⟨_, k, hexec, -⟩ := (wp_kfree hok.list (hok.held hpa) hnew).exists_ok
    exact ⟨k, hexec⟩
  · obtain ⟨r, k, hexec, hcases⟩ := (wp_kalloc hok.list).exists_ok
    refine ⟨r, k, hexec, ?_⟩
    rcases hcases with ⟨rfl, hzero, -⟩ | ⟨l', rfl, -⟩
    · exact .inl ⟨hzero, hset.symm⟩
    · refine .inr ⟨hok.list.linked.ne_nil_of_mem (by simp), ?_⟩
      rw [← hset]
      simp
  · refine ⟨l.length + 1, ?_⟩
    intro fuel hfuel
    rw [freemem, countFrom_linked hok.list.linked (by omega), Option.map_some,
      Vm.wrap32_countFree (by omega), hlen]
  · simp only [PGSIZE]
    omega

end

/-- On a machine with 16 pages, 15 are left after one `kalloc`. -/
theorem freelist_exact_tiny :
    ∃ s : Pool, (@pool Vm.tinyLayout).Reachable s ∧ s.held.card = 1 ∧
      ∃ fuel, freemem fuel s.kmem = some 61440 := by
  let := Vm.tinyLayout
  have hpages : pages.card = 16 := by decide
  obtain ⟨_, k₀, hinit, -⟩ := (wp_kinit fun _ => 0).exists_ok
  have h₀ : pool.Reachable ⟨k₀, ∅⟩ := .init ⟨_, hinit, rfl⟩
  obtain ⟨-, -, -, ⟨r, k, hexec, hcases⟩, -⟩ := freelist_exact h₀
  rcases hcases with ⟨-, hempty⟩ | ⟨hne, hr⟩
  · rw [Finset.sdiff_empty] at hempty
    simp [hempty] at hpages
  · rw [Finset.sdiff_empty] at hr
    have hstep : pool.step ⟨k₀, ∅⟩ .kalloc ⟨k, insert r ∅⟩ := by
      simp only [pool, Pool.step, hexec, if_neg hne]
    have h₁ := h₀.step hstep
    obtain ⟨-, hheld, -, -, ⟨fuel, hcount⟩, -⟩ := freelist_exact h₁
    refine ⟨_, h₁, by simp, fuel, ?_⟩
    have hcard : (pages \ insert r ∅).card = 15 := by
      rw [Finset.card_sdiff_of_subset hheld, hpages]
      simp
    rw [hcount fuel (Nat.le_refl fuel), hcard]
    rfl

end Syscall
