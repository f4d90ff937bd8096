-- SUMMARY: Physical memory of the xv6 kernel without and with the copy-on-write patch: frames, reference counts, page tables, and the page allocator.
import Mathlib.Algebra.Group.Nat.Defs
import Mathlib.Logic.Function.Basic
import OsLabs.Lib.CInt
import OsLabs.Lib.Effect

/-!
# Memory and `kernel/kalloc.c`

The model covers two kernels: the unpatched one, whose `fork` copies every page, and the
one with the copy-on-write patch. Code that both share is written once; where they
differ, it takes the version as a parameter.

Physical memory is byte addressed. A frame is a page of it and is named by its number,
the address divided by `PGSIZE`. The pages of a page table are frames like any other, but
what they contain is kept as a table and not as bytes.
-/

namespace Vm

/-! ## Addresses -/

def PGSIZE : Nat := 4096

/-- One beyond the highest virtual address. -/
def MAXVA : Nat := 2 ^ 38

def TRAMPOLINE : Nat := MAXVA - PGSIZE

def TRAPFRAME : Nat := TRAMPOLINE - PGSIZE

def KERNBASE : Nat := 0x80000000

def PHYSTOP : Nat := KERNBASE + 128 * 1024 * 1024

def pgrounddown (a : Nat) : Nat := a / PGSIZE * PGSIZE

/-- `PGROUNDUP` on a 64-bit word. -/
def pgroundup (a : Nat) : Nat := pgrounddown ((a + (PGSIZE - 1)) % 2 ^ 64)

/-- What the linker decides: where the kernel ends and where the trampoline is. -/
class Layout where
  kend : Nat
  trampoline : Nat
  kernbase_le : KERNBASE ≤ kend
  kend_le : kend ≤ PHYSTOP

/-! ## Page tables -/

/-- The flag bits of a page table entry. `rsw` is `PTE_RSW`, which only the patch uses. -/
structure Flags where
  v : Bool := false
  r : Bool := false
  w : Bool := false
  x : Bool := false
  u : Bool := false
  rsw : Bool := false
deriving DecidableEq

/-- A leaf entry: the frame it maps and its flags. -/
structure Pte extends Flags where
  ppn : Nat
deriving DecidableEq

def Pte.zero : Pte := { ppn := 0 }

/-- `PTE2PA`. -/
def Pte.pa (p : Pte) : Nat := p.ppn * PGSIZE

/-- The three levels of a page table, without its root frame. `l1` and `l0` are the
    frames that the level-2 and level-1 entries point to, by the leading 9 and 18 bits of
    the page number; `pte` are the level-0 entries, by page number. -/
structure Pagetable where
  l1 : Nat → Option Nat
  l0 : Nat → Option Nat
  pte : Nat → Pte

/-- A zeroed root page. -/
def Pagetable.empty : Pagetable := ⟨fun _ => none, fun _ => none, fun _ => Pte.zero⟩

/-- Link a zeroed page as the level-1 page `i`. -/
def Pagetable.link1 (t : Pagetable) (i f : Nat) : Pagetable :=
  { t with
    l1 := Function.update t.l1 i (some f)
    l0 := fun j => if j / 512 = i then none else t.l0 j }

/-- Link a zeroed page as the level-0 page `j`. -/
def Pagetable.link0 (t : Pagetable) (j f : Nat) : Pagetable :=
  { t with
    l0 := Function.update t.l0 j (some f)
    pte := fun v => if v / 512 = j then Pte.zero else t.pte v }

/-! ## The state -/

structure Memory where
  /-- `kmem.freelist`, as frame numbers. -/
  freelist : List Nat
  /-- `ref.refcnt`. -/
  refcnt : Nat → Int
  mem : Nat → UInt8
  /-- The page table whose root is in a frame. -/
  pgtbl : Nat → Option Pagetable
  /-- Whether some `kalloc` has failed so far. The kernel does not record this. -/
  oom : Bool

/-- The message of a panic. `notATable` is no message: the code uses a frame as a page
    table that is none. -/
inductive Panic
  | kfree
  | walk
  | mappagesSize
  | mappagesRemap
  | uvmunmapNotAligned
  | uvmunmapWalk
  | uvmunmapNotMapped
  | uvmunmapNotALeaf
  | uvmcopyPteShouldExist
  | uvmcopyPageNotPresent
  | freewalkLeaf
  | uvmclear
  | loadsegAddressShouldExist
  | initExiting
  | notATable
deriving DecidableEq

abbrev KernelM := Effect Memory Panic

/-- Write `n` bytes from `src` to `dst`. -/
def write (m : Nat → UInt8) (dst : Nat) (src : Nat → UInt8) (n : Nat) : Nat → UInt8 := fun a =>
  if dst ≤ a ∧ a < dst + n then src (a - dst) else m a

def memset (m : Nat → UInt8) (dst : Nat) (c : UInt8) (n : Nat) : Nat → UInt8 :=
  write m dst (fun _ => c) n

def memmove (m : Nat → UInt8) (dst src n : Nat) : Nat → UInt8 :=
  write m dst (fun i => m (src + i)) n

/-- The state before `kinit`, with whatever is in RAM. -/
def Memory.reset (ram : Nat → UInt8) : Memory :=
  { freelist := [], refcnt := fun _ => 0, mem := ram, pgtbl := fun _ => none, oom := false }

/-! ## The allocator -/

inductive Version
  | unpatched
  | cow
deriving DecidableEq

section

variable [Layout] (κ : Version)

/-- The address test of `kfree` and `addrefcnt`. -/
def BadAddress (pa : Nat) : Prop := pa % PGSIZE ≠ 0 ∨ pa < Layout.kend ∨ PHYSTOP ≤ pa

instance (pa : Nat) : Decidable (BadAddress pa) := inferInstanceAs (Decidable (_ ∨ _ ∨ _))

/-- Fill the frame with junk and put it on the free list. -/
def Memory.push (s : Memory) (f : Nat) : Memory :=
  { s with mem := memset s.mem (f * PGSIZE) 1 PGSIZE, freelist := f :: s.freelist }

def Memory.setRefcnt (s : Memory) (f : Nat) (n : Int) : Memory :=
  { s with refcnt := Function.update s.refcnt f n }

def kfree (pa : Nat) : KernelM Unit := do
  if BadAddress pa then throw .kfree
  let f := pa / PGSIZE
  match κ with
  | .unpatched => modify (·.push f)
  | .cow => do
      modify fun s => s.setRefcnt f (s.refcnt f - 1)
      if (← get).refcnt f = 0 then modify (·.push f)

def kalloc : KernelM (Option Nat) := do
  match (← get).freelist with
  | [] => do
      modify fun s => { s with oom := true }
      return none
  | f :: rest => do
      modify fun s => { s with freelist := rest }
      if κ = .cow then modify (·.setRefcnt f 1)
      modify fun s => { s with mem := memset s.mem (f * PGSIZE) 5 PGSIZE }
      return some (f * PGSIZE)

/-- The reference count of a page. -/
def refcnt (pa : Nat) : KernelM Int := do
  return (← get).refcnt (pa / PGSIZE)

/-- Returns whether the address is one of a page, `0` or `-1` in the source. -/
def addrefcnt (pa : Nat) : KernelM Bool := do
  if BadAddress pa then return false
  modify fun s => s.setRefcnt (pa / PGSIZE) (s.refcnt (pa / PGSIZE) + 1)
  return true

def freerange (paStart paEnd : Nat) : KernelM Unit :=
  let p := pgroundup paStart
  Effect.upto ((paEnd - p) / PGSIZE) fun i => do
    if κ = .cow then modify (·.setRefcnt ((p + i * PGSIZE) / PGSIZE) 1)
    kfree κ (p + i * PGSIZE)

def kinit : KernelM Unit := freerange κ Layout.kend PHYSTOP

end

/-- The loop of `freemem` over the rest of the free list, with `n` frames counted. -/
def countFree {α : Type} : List α → Int → Int
  | [], n     => n
  | _ :: l, n => countFree l (CInt.wrap32 (n + 1))

/-- `freemem` of the system-call kernel: the free memory in bytes, as an `int`. -/
def Memory.freemem (s : Memory) : Int := CInt.wrap32 (countFree s.freelist 0 * PGSIZE)

theorem countFree_map {α β : Type} (g : α → β) (l : List α) (n : Int) :
    countFree (l.map g) n = countFree l n := by
  induction l generalizing n with
  | nil => rfl
  | cons a l ih => exact ih _

theorem countFree_eq {α : Type} {l : List α} {n : Int} (hn : 0 ≤ n)
    (hmax : n + l.length < 2 ^ 31) : countFree l n = n + l.length := by
  induction l generalizing n with
  | nil => simp [countFree]
  | cons a l ih =>
      rw [List.length_cons, Int.natCast_succ] at hmax ⊢
      rw [countFree, CInt.wrap32_eq_self (by omega) (by omega), ih (by omega) (by omega)]
      omega

/-- RAM has 2 ^ 15 pages, so that their size is an `int`. -/
theorem wrap32_countFree {α : Type} {l : List α} (h : l.length ≤ 2 ^ 15) :
    CInt.wrap32 (countFree l 0 * PGSIZE) = PGSIZE * l.length := by
  rw [countFree_eq (Int.le_refl 0) (by omega), Int.zero_add, Int.mul_comm]
  apply CInt.wrap32_eq_self
  all_goals
    simp only [PGSIZE]
    omega

end Vm
