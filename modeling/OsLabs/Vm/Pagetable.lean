-- SUMMARY: The user page table code of xv6 without and with the copy-on-write patch: walking, mapping, growing, forking and freeing address spaces, and the store fault.
import OsLabs.Vm.Memory

/-!
# `kernel/vm.c` and the copy-on-write code of `kernel/trap.c`

A page table is passed around as the number of its root frame, in place of the pointer.
`walk` returns whether there is an entry for the address; the entry is then read and
written with `getPte` and `setPte`, in place of the pointer to it. Functions that return
`0` for failure return an `Option`, and those that return `0` or `-1` a `Bool`.

The loops over address ranges run as many rounds as the range has pages. The sizes that
the callers pass are below `MAXVA`, so that the `int npages` of `uvmdealloc` holds the
number of pages.
-/

namespace Vm

/-- `PTE_R | PTE_X`. -/
def Flags.rx : Flags := { r := true, x := true }

/-- `PTE_R | PTE_W`. -/
def Flags.rw : Flags := { r := true, w := true }

/-- `PTE_R | PTE_U | xperm`, for an `xperm` made of `PTE_W` and `PTE_X`. -/
def Flags.user (w x : Bool) : Flags := { r := true, u := true, w := w, x := x }

/-- `flags2perm`, as the write and the execute permission. -/
def flags2perm (flags : Nat) : Bool × Bool := (flags.testBit 1, flags.testBit 0)

/-! ## Entries -/

def table (pt : Nat) : KernelM Pagetable := do
  match (← get).pgtbl pt with
  | some t => return t
  | none   => throw .notATable

def Memory.setTable (s : Memory) (pt : Nat) (t : Option Pagetable) : Memory :=
  { s with pgtbl := Function.update s.pgtbl pt t }

def Memory.updateTable (s : Memory) (pt : Nat) (f : Pagetable → Pagetable) : Memory :=
  s.setTable pt ((s.pgtbl pt).map f)

/-- Write the level-0 entry of page `v`. -/
def Memory.setPte (s : Memory) (pt v : Nat) (p : Pte) : Memory :=
  s.updateTable pt fun t => { t with pte := Function.update t.pte v p }

def getPte (pt va : Nat) : KernelM Pte := do
  return (← table pt).pte (va / PGSIZE)

def setPte (pt va : Nat) (p : Pte) : KernelM Unit :=
  modify (·.setPte pt (va / PGSIZE) p)

section

variable [Layout] (κ : Version)

/-- One level of `walk`: the next page is there, or is allocated and linked. -/
def walkLevel (present alloc : Bool) (link : Nat → Memory → Memory) : KernelM Bool := do
  if present then return true
  if !alloc then return false
  match ← kalloc κ with
  | none => return false
  | some pa => do
      modify fun s => { s with mem := memset s.mem pa 0 PGSIZE }
      modify (link (pa / PGSIZE))
      return true

/-- Whether there is a level-0 entry for `va`, after allocating missing pages. -/
def walk (pt va : Nat) (alloc : Bool) : KernelM Bool := do
  if MAXVA ≤ va then throw .walk
  let v := va / PGSIZE
  let t ← table pt
  if ← walkLevel κ (t.l1 (v / 512 / 512)).isSome alloc
      fun f s => s.updateTable pt (·.link1 (v / 512 / 512) f) then
    let t ← table pt
    walkLevel κ (t.l0 (v / 512)).isSome alloc fun f s => s.updateTable pt (·.link0 (v / 512) f)
  else return false

/-- The physical address of a user page. -/
def walkaddr (pt va : Nat) : KernelM (Option Nat) := do
  if MAXVA ≤ va then return none
  if ← walk κ pt va false then
    let pte ← getPte pt va
    if !pte.v then return none
    if !pte.u then return none
    return some pte.pa
  else return none

/-! ## Mapping -/

def mappagesLoop (pt : Nat) (perm : Flags) : Nat → Nat → Nat → KernelM Bool
  | 0, _, _      => return true
  | n + 1, a, pa => do
      if ← walk κ pt a true then
        if (← getPte pt a).v then throw .mappagesRemap
        setPte pt a { perm with v := true, ppn := pa / PGSIZE }
        mappagesLoop pt perm n (a + PGSIZE) (pa + PGSIZE)
      else return false

def mappages (pt va size pa : Nat) (perm : Flags) : KernelM Bool := do
  if size = 0 then throw .mappagesSize
  let a := pgrounddown va
  let last := pgrounddown (va + size - 1)
  mappagesLoop κ pt perm ((last - a) / PGSIZE + 1) a pa

/-- The body of the loop of `uvmunmap`. -/
def unmapPage (pt a : Nat) (doFree : Bool) : KernelM Unit := do
  if ← walk κ pt a false then
    let pte ← getPte pt a
    if !pte.v then throw .uvmunmapNotMapped
    if pte.toFlags = { v := true } then throw .uvmunmapNotALeaf
    if doFree then kfree κ pte.pa
    setPte pt a Pte.zero
  else throw .uvmunmapWalk

def uvmunmap (pt va npages : Nat) (doFree : Bool) : KernelM Unit := do
  if va % PGSIZE ≠ 0 then throw .uvmunmapNotAligned
  Effect.upto npages fun i => unmapPage κ pt (va + i * PGSIZE) doFree

/-- An empty page table. -/
def uvmcreate : KernelM (Option Nat) := do
  match ← kalloc κ with
  | none => return none
  | some pa => do
      modify fun s => { s with mem := memset s.mem pa 0 PGSIZE }
      modify (·.setTable (pa / PGSIZE) (some Pagetable.empty))
      return some (pa / PGSIZE)

/-! ## Growing and shrinking -/

def uvmdealloc (pt oldsz newsz : Nat) : KernelM Nat := do
  if newsz ≥ oldsz then return oldsz
  if pgroundup newsz < pgroundup oldsz then
    uvmunmap κ pt (pgroundup newsz) ((pgroundup oldsz - pgroundup newsz) / PGSIZE) true
  return newsz

/-- The loop of `uvmalloc` with `n` pages to go. -/
def uvmallocLoop (pt oldsz : Nat) (perm : Flags) : Nat → Nat → KernelM Bool
  | 0, _     => return true
  | n + 1, a => do
      match ← kalloc κ with
      | none => do
          let _ ← uvmdealloc κ pt a oldsz
          return false
      | some mem => do
          modify fun s => { s with mem := memset s.mem mem 0 PGSIZE }
          if ← mappages κ pt a PGSIZE mem perm then uvmallocLoop pt oldsz perm n (a + PGSIZE)
          else
            kfree κ mem
            let _ ← uvmdealloc κ pt a oldsz
            return false

/-- Returns the new size, or `none` for the `0` of an error. `w` and `x` are what
    `xperm` adds. -/
def uvmalloc (pt oldsz newsz : Nat) (w x : Bool) : KernelM (Option Nat) := do
  if newsz < oldsz then return some oldsz
  let oldsz := pgroundup oldsz
  let npages := (newsz - oldsz + (PGSIZE - 1)) / PGSIZE
  if ← uvmallocLoop κ pt oldsz (Flags.user w x) npages oldsz then return some newsz
  else return none

/-! ## Freeing -/

/-- `freewalk` on the level-0 page `j`. A valid entry without permissions would be taken
    for another page of the table. -/
def freewalk0 (pt j : Nat) : KernelM Unit :=
  Effect.upto 512 fun i => do
    let pte := (← table pt).pte (j * 512 + i)
    if pte.v then
      if pte.r || pte.w || pte.x then throw .freewalkLeaf else throw .notATable

/-- `freewalk` on the level-1 page `i`. -/
def freewalk1 (pt i : Nat) : KernelM Unit :=
  Effect.upto 512 fun j => do
    match (← table pt).l0 (i * 512 + j) with
    | none => return ()
    | some f => do
        freewalk0 pt (i * 512 + j)
        kfree κ (f * PGSIZE)
        modify (·.updateTable pt fun t => { t with l0 := Function.update t.l0 (i * 512 + j) none })

def freewalk (pt : Nat) : KernelM Unit := do
  Effect.upto 512 fun i => do
    match (← table pt).l1 i with
    | none => return ()
    | some f => do
        freewalk1 κ pt i
        kfree κ (f * PGSIZE)
        modify (·.updateTable pt fun t => { t with l1 := Function.update t.l1 i none })
  kfree κ (pt * PGSIZE)
  modify (·.setTable pt none)

def uvmfree (pt sz : Nat) : KernelM Unit := do
  if sz > 0 then uvmunmap κ pt 0 (pgroundup sz / PGSIZE) true
  freewalk κ pt

/-! ## Copying an address space -/

/-- How a round of `uvmcopy` ends: it goes on, jumps to `err`, or returns `-1` at once. -/
inductive CopyRes
  | ok
  | err
  | badRef
deriving DecidableEq

/-- The body of the loop of `uvmcopy`. -/
def copyPage (old new i : Nat) : KernelM CopyRes := do
  if ← walk κ old i false then
    let pte ← getPte old i
    if !pte.v then throw .uvmcopyPageNotPresent
    match κ with
    | .unpatched => do
        match ← kalloc κ with
        | none => return .err
        | some mem => do
            modify fun s => { s with mem := memmove s.mem mem pte.pa PGSIZE }
            if ← mappages κ new i PGSIZE mem pte.toFlags then return .ok
            else
              kfree κ mem
              return .err
    | .cow => do
        let flags := if pte.w then { pte.toFlags with rsw := true, w := false } else pte.toFlags
        if pte.w then setPte old i { flags with ppn := pte.ppn }
        if ← mappages κ new i PGSIZE pte.pa flags then
          if ← addrefcnt pte.pa then return .ok else return .badRef
        else return .err
  else throw .uvmcopyPteShouldExist

def uvmcopyLoop (old new : Nat) : Nat → Nat → KernelM CopyRes
  | 0, _     => return .ok
  | n + 1, i => do
      match ← copyPage κ old new i with
      | .ok => uvmcopyLoop old new n (i + PGSIZE)
      | .err => do
          uvmunmap κ new 0 (i / PGSIZE) true
          return .err
      | .badRef => return .badRef

/-- Anything but `ok` is a `-1`. -/
def uvmcopy (old new sz : Nat) : KernelM CopyRes :=
  uvmcopyLoop κ old new ((sz + (PGSIZE - 1)) / PGSIZE) 0

/-! ## Copy on write -/

/-- Whether the page is one that `cowalloc` has to look at, `0` or `-1` in the source. -/
def isCowPage (pt va : Nat) : KernelM Bool := do
  if MAXVA ≤ va then return false
  if ← walk κ pt va false then
    let pte ← getPte pt va
    if !pte.v then return true
    return pte.rsw
  else return false

def cowalloc (pt va : Nat) : KernelM (Option Nat) := do
  if va % PGSIZE ≠ 0 then return none
  match ← walkaddr κ pt va with
  | none => return none
  | some pa => do
      let _ ← walk κ pt va false
      let pte ← getPte pt va
      if (← refcnt pa) = 1 then
        setPte pt va { pte with w := true, rsw := false }
        return some pa
      else
        match ← kalloc κ with
        | none => return none
        | some newpage => do
            modify fun s => { s with mem := memmove s.mem newpage pa PGSIZE }
            setPte pt va { pte with v := false }
            let flags : Flags := { pte.toFlags with v := false, w := true, rsw := false }
            if ← mappages κ pt va PGSIZE newpage flags then
              kfree κ (pgrounddown pa)
              return some newpage
            else
              kfree κ newpage
              setPte pt va pte
              return none

/-- What `usertrap` does about a store to `va` that faults, for a process of size `sz`.
    Returns whether the process lives on. -/
def usertrapStore (pt sz va : Nat) : KernelM Bool := do
  match κ with
  | .unpatched => return false
  | .cow => do
      if va ≥ sz then return false
      if !(← isCowPage κ pt va) then return false
      return (← cowalloc κ pt (pgrounddown va)).isSome

/-! ## Access by the kernel -/

/-- Mark a page inaccessible for the user. -/
def uvmclear (pt va : Nat) : KernelM Unit := do
  if ← walk κ pt va false then
    let pte ← getPte pt va
    setPte pt va { pte with u := false }
  else throw .uvmclear

/-- `copyout`, with at most `fuel` rounds. A round copies at least a byte. -/
def copyoutLoop (pt : Nat) : Nat → Nat → (Nat → UInt8) → Nat → KernelM Bool
  | 0, _, _, _             => return true
  | fuel + 1, dstva, src, len => do
      if len = 0 then return true
      let va0 := pgrounddown dstva
      let pa0 ← walkaddr κ pt va0
      let pa0 ← match κ with
        | .unpatched => pure pa0
        | .cow => do if ← isCowPage κ pt va0 then cowalloc κ pt va0 else pure pa0
      match pa0 with
      | none => return false
      | some pa0 => do
          let n := min (PGSIZE - (dstva - va0)) len
          modify fun s => { s with mem := write s.mem (pa0 + (dstva - va0)) src n }
          copyoutLoop pt fuel (va0 + PGSIZE) (fun i => src (i + n)) (len - n)

def copyout (pt dstva : Nat) (src : Nat → UInt8) (len : Nat) : KernelM Bool :=
  copyoutLoop κ pt len dstva src len

/-- The loop of `loadseg`; `src` are the bytes of the file. -/
def loadseg (pt va : Nat) (src : Nat → UInt8) (sz : Nat) : KernelM Unit :=
  Effect.upto ((sz + (PGSIZE - 1)) / PGSIZE) fun i => do
    match ← walkaddr κ pt (va + i * PGSIZE) with
    | none => throw .loadsegAddressShouldExist
    | some pa =>
        modify fun s => { s with
          mem := write s.mem pa (fun o => src (i * PGSIZE + o)) (min (sz - i * PGSIZE) PGSIZE) }

/-! ## Access by the user -/

/-- The entry that the hardware finds for `va`. -/
def Memory.lookup (s : Memory) (pt va : Nat) : Option Pte := do
  let t ← s.pgtbl pt
  let v := va / PGSIZE
  if va < MAXVA ∧ (t.l1 (v / 512 / 512)).isSome ∧ (t.l0 (v / 512)).isSome ∧ (t.pte v).v then
    some (t.pte v)
  else none

/-- The byte that a user load from `va` reads, unless it faults. -/
def Memory.load (s : Memory) (pt va : Nat) : Option UInt8 := do
  let pte ← s.lookup pt va
  if pte.u ∧ pte.r then some (s.mem (pte.pa + va % PGSIZE)) else none

/-- The memory after a user store to `va`, unless it faults. -/
def Memory.store (s : Memory) (pt va : Nat) (b : UInt8) : Option Memory := do
  let pte ← s.lookup pt va
  if pte.u ∧ pte.w then
    some { s with mem := Function.update s.mem (pte.pa + va % PGSIZE) b }
  else none

/-- What becomes of a process that stores. -/
inductive StoreRes
  | done
  | killed
  | faultsAgain
deriving DecidableEq

/-- A user store. After a fault that `usertrap` handled, the instruction is retried. -/
def store (pt sz va : Nat) (b : UInt8) : KernelM StoreRes := do
  match (← get).store pt va b with
  | some s => do
      modify fun _ => s
      return .done
  | none => do
      if ← usertrapStore κ pt sz va then
        match (← get).store pt va b with
        | some s => do
            modify fun _ => s
            return .done
        | none => return .faultsAgain
      else return .killed

/-! ## Page tables of processes -/

/-- `trapframe` is the address of the trapframe page of the process. -/
def procPagetable (trapframe : Nat) : KernelM (Option Nat) := do
  match ← uvmcreate κ with
  | none => return none
  | some pt => do
      if ← mappages κ pt TRAMPOLINE PGSIZE Layout.trampoline Flags.rx then
        if ← mappages κ pt TRAPFRAME PGSIZE trapframe Flags.rw then return some pt
        else
          uvmunmap κ pt TRAMPOLINE 1 false
          uvmfree κ pt 0
          return none
      else
        uvmfree κ pt 0
        return none

def procFreepagetable (pt sz : Nat) : KernelM Unit := do
  uvmunmap κ pt TRAMPOLINE 1 false
  uvmunmap κ pt TRAPFRAME 1 false
  uvmfree κ pt sz

end

end Vm
