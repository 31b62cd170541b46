import Ucore.Lib.Prog
import Mathlib.Data.Int.Basic
import Mathlib.Algebra.Group.Nat.Defs
import Mathlib.Logic.Function.Basic

/-!
# Address spaces

The page tables of `kern/mm/pmm.c`, the `mm_struct`s of `kern/mm/vmm.c` with their areas, and the memory that they take.

* `VmState` is this memory: the free pages, the reference counts and the contents of the pages, the blocks of `kmalloc`
  that are in use, and the address spaces. What is written to a page as a page table is kept apart from its bytes.
* `Ucore.Mm` has the two allocators. Here `Allocs` is a rule by which they answer: the `n`th request of a run fails, or
  `alloc_pages` gets pages that are free. The pages that `kmalloc` keeps for itself are left out.
* `getPte`, `pageInsert`, `copyRange`, `insertVmaStruct`, `dupMmap`, `exitMmap`, `doPgfault`, … are the functions of the
  source. Those on page tables work on a page directory, which is known by its page. The loops over addresses are `walk`s.
* There is no swapping, and the semaphore `mm_sem` and the invalidation of the TLB are left out.
-/

namespace Ucore.Vm

open Ucore.Lib

/-- `PGSIZE` -/
def pageSize : ℕ := 0x1000

/-- `PTSIZE`, the bytes behind one entry of a page directory. -/
def ptSize : ℕ := 0x400000

/-- `USERBASE` -/
def userBase : ℕ := 0x00200000

/-- `USERTOP` -/
def userTop : ℕ := 0xB0000000

/-- Source: `kern/mm/memlayout.h` `USER_ACCESS` -/
def UserAccess (start stop : ℕ) : Prop := userBase ≤ start ∧ start < stop ∧ stop ≤ userTop

instance (start stop : ℕ) : Decidable (UserAccess start stop) := inferInstanceAs (Decidable (_ ∧ _ ∧ _))

/-- Source: `kern/mm/mmu.h` `PDX` -/
def pdx (la : ℕ) : ℕ := la / ptSize % 1024

/-- Source: `kern/mm/mmu.h` `PTX` -/
def ptx (la : ℕ) : ℕ := la / pageSize % 1024

/-- `PDX(VPT)`, where a page directory has itself. -/
def pdxVpt : ℕ := 1003

/-- An entry of a page directory or of a page table: the number of a page, and the flags. -/
structure Pte where
  ppn : ℕ
  flags : BitVec 12
  deriving Repr, DecidableEq

/-- `PTE_P` -/
def pteP : BitVec 12 := 1

/-- `PTE_W` -/
def pteW : BitVec 12 := 2

/-- `PTE_U` -/
def pteU : BitVec 12 := 4

/-- `PTE_USER` -/
def pteUser : BitVec 12 := 7

/-- The entry 0. -/
def Pte.zero : Pte := ⟨0, 0⟩

/-- `PTE_P` is set. -/
def Pte.present (e : Pte) : Bool := e.flags.getLsbD 0

/-- `PTE_W` is set. -/
def Pte.writable (e : Pte) : Bool := e.flags.getLsbD 1

/-- `PTE_U` is set. -/
def Pte.user (e : Pte) : Bool := e.flags.getLsbD 2

/-- `VM_READ` -/
def vmRead : BitVec 32 := 1

/-- `VM_WRITE` -/
def vmWrite : BitVec 32 := 2

/-- `VM_EXEC` -/
def vmExec : BitVec 32 := 4

/-- `VM_STACK` -/
def vmStack : BitVec 32 := 8

/-- Source: `kern/mm/vmm.h` `struct vma_struct` -/
structure Vma where
  /-- Where it is in memory. -/
  addr : ℕ
  vmStart : ℕ
  vmEnd : ℕ
  vmFlags : BitVec 32
  deriving Repr, DecidableEq

/-- The area has the address. -/
def Vma.Has (v : Vma) (la : ℕ) : Prop := v.vmStart ≤ la ∧ la < v.vmEnd

instance (v : Vma) (la : ℕ) : Decidable (v.Has la) := inferInstanceAs (Decidable (_ ∧ _))

/-- Source: `kern/mm/vmm.h` `struct mm_struct` -/
structure MmStruct where
  mmapList : List Vma
  mmapCache : Option Vma
  /-- The page of the page directory. -/
  pgdir : ℕ
  mapCount : ℕ
  mmCount : ℤ

/-- Memory. -/
structure VmState where
  /-- The blocks that `kmalloc` has given out. -/
  blocks : List ℕ
  /-- The next block that it gives out. -/
  freshBlock : ℕ
  /-- The free pages. -/
  free : List ℕ
  /-- `ref` of each page. -/
  pageRef : ℕ → ℤ
  /-- The entries of the page directories and page tables, by page and index. -/
  entry : ℕ → ℕ → Pte
  /-- The bytes of the pages. -/
  byte : ℕ → ℕ → UInt8
  mm : ℕ → MmStruct
  /-- The page of `boot_pgdir`. -/
  bootPgdir : ℕ
  /-- How many allocations there have been, with those that failed. -/
  asked : ℕ
  /-- Every `mm_struct` that there has been. -/
  mms : List ℕ
  /-- How often `exit_mmap`, `put_pgdir` and `mm_destroy` have run for each `mm_struct`. -/
  exitMmaps : ℕ → ℕ
  putPgdirs : ℕ → ℕ
  mmDestroys : ℕ → ℕ

/-- Where the code stops: the assertions of `vmm.c`, `pmm.c` and `load_icode`, the panic of `do_pgfault`, a loop that has
not ended, and a page fault in the kernel that cannot be resolved. -/
inductive VmPanic where
  | loop | vmaEmpty | vmaOrder | rangeAlign | rangeAccess | copyPage | copyInsert | exitMmapCount | mmDestroyCount
  | stackPage | segmentEnd | pgfaultPresent | kernelFault
  deriving Repr, DecidableEq

/-- The error codes, without their sign. Source: `libs/error.h` -/
inductive VmError where
  | unspecified | inval | noMem | invalElf
  deriving Repr, DecidableEq

abbrev VmProg := Prog VmPanic VmError VmState

/-! ### The allocators -/

/-- How the allocators answer the requests of a run. -/
structure Allocs where
  /-- `kmalloc` returns `NULL`. -/
  fails : ℕ → Bool
  /-- The first one of `n` pages in a row, of the free pages. -/
  pick : ℕ → ℕ → List ℕ → Option ℕ
  pick_free : ∀ k n free page, pick k n free = some page → ∀ i < n, page + i ∈ free

section alloc

variable (al : Allocs)

/-- Source: `kern/mm/kmalloc.c` `kmalloc` -/
def kmalloc : VmProg (Option ℕ) := do
  let s ← Prog.get
  Prog.modify fun s => { s with asked := s.asked + 1 }
  if al.fails s.asked then
    pure none
  else do
    Prog.modify fun s => { s with blocks := s.freshBlock :: s.blocks, freshBlock := s.freshBlock + 1 }
    pure (some s.freshBlock)

/-- `n` pages in a row. Source: `kern/mm/pmm.c` `alloc_pages` -/
def allocPages (n : ℕ) : VmProg (Option ℕ) := do
  let s ← Prog.get
  Prog.modify fun s => { s with asked := s.asked + 1 }
  match al.pick s.asked n s.free with
  | none => pure none
  | some page => do
    Prog.modify fun s => { s with free := s.free.filter fun p => ¬ (page ≤ p ∧ p < page + n) }
    pure (some page)

end alloc

/-- Source: `kern/mm/kmalloc.c` `kfree` -/
def kfree (b : ℕ) : VmProg Unit := Prog.modify fun s => { s with blocks := s.blocks.erase b }

/-- Change the reference count of a page. -/
def VmState.setRef (s : VmState) (page : ℕ) (n : ℤ) : VmState :=
  { s with pageRef := Function.update s.pageRef page n }

/-- Change the reference count of a page, as a program. -/
def setPageRef (page : ℕ) (f : ℤ → ℤ) : VmProg Unit := Prog.modify fun s => s.setRef page (f (s.pageRef page))

/-- The pages are free. Source: `kern/mm/default_pmm.c` `default_free_pages` -/
def freePages (page n : ℕ) : VmProg Unit := do
  setPageRef page fun _ => 0
  Prog.modify fun s => { s with free := List.range' page n ++ s.free }

/-- Change an address space. -/
def VmState.setMm (s : VmState) (m : ℕ) (f : MmStruct → MmStruct) : VmState :=
  { s with mm := Function.update s.mm m (f (s.mm m)) }

/-- Change an address space, as a program. -/
def setMm (m : ℕ) (f : MmStruct → MmStruct) : VmProg Unit := Prog.modify fun s => s.setMm m f

/-! ### Page tables -/

/-- Change an entry of the page `page`. -/
def VmState.setEntry (s : VmState) (page i : ℕ) (e : Pte) : VmState :=
  { s with entry := Function.update s.entry page (Function.update (s.entry page) i e) }

/-- Change an entry, as a program. -/
def setEntry (page i : ℕ) (e : Pte) : VmProg Unit := Prog.modify fun s => s.setEntry page i e

/-- Source: `kern/mm/pmm.c` `page_remove_pte`; `(table, i)` is where the entry for the address is. -/
def pageRemovePte (table i : ℕ) : VmProg Unit := do
  let s ← Prog.get
  let e := s.entry table i
  if e.present then do
    setPageRef e.ppn fun n => n - 1
    let s ← Prog.get
    (if s.pageRef e.ppn = 0 then freePages e.ppn 1 else pure () : VmProg Unit)
    setEntry table i .zero
  else pure ()

/-- The loops `do { … } while (start != 0 && start < stop)`, of at most `fuel` turns. A turn returns the next address. -/
def walk (turn : ℕ → VmProg ℕ) (stop : ℕ) : ℕ → ℕ → VmProg Unit
  | 0, _ => Prog.stop .loop
  | fuel + 1, start => do
    let next ← turn start
    let next := next % 2 ^ 32
    if next ≠ 0 ∧ next < stop then walk turn stop fuel next else pure ()

/-- The checks at the start of `unmap_range`, `exit_range` and `copy_range`. -/
def checkRange (start stop : ℕ) : VmProg Unit := do
  Prog.assert (start % pageSize = 0 ∧ stop % pageSize = 0) .rangeAlign
  Prog.assert (UserAccess start stop) .rangeAccess

/-- More turns than a loop over the range has. -/
def rangeFuel (start stop : ℕ) : ℕ := (stop - start) / pageSize + 2

section pageTables

variable (al : Allocs)

/-- The page table for the address `la` in the page directory `d`, if there is one or one can be made.
Source: `kern/mm/pmm.c` `get_pte` -/
def getPte (d la : ℕ) (create : Bool) : VmProg (Option ℕ) := do
  let s ← Prog.get
  if (s.entry d (pdx la)).present then
    pure (some (s.entry d (pdx la)).ppn)
  else if create then do
    match ← allocPages al 1 with
    | none => pure none
    | some page => do
      setPageRef page fun _ => 1
      Prog.modify fun s =>
        { s with entry := Function.update s.entry page fun _ => .zero, byte := Function.update s.byte page fun _ => 0 }
      setEntry d (pdx la) ⟨page, pteU ||| pteW ||| pteP⟩
      pure (some page)
  else pure none

/-- The page that the address is mapped to. Source: `kern/mm/pmm.c` `get_page` -/
def VmState.getPage (s : VmState) (d la : ℕ) : Option ℕ :=
  if (s.entry d (pdx la)).present then
    let e := s.entry (s.entry d (pdx la)).ppn (ptx la)
    if e.present then some e.ppn else none
  else none

/-- Source: `kern/mm/pmm.c` `page_insert` -/
def pageInsert (d page la : ℕ) (perm : BitVec 12) : VmProg Unit := do
  match ← getPte al d la true with
  | none => Prog.throw .noMem
  | some table => do
    setPageRef page fun n => n + 1
    let s ← Prog.get
    (if (s.entry table (ptx la)).present then
      if (s.entry table (ptx la)).ppn = page then setPageRef page fun n => n - 1 else pageRemovePte table (ptx la)
    else pure () : VmProg Unit)
    setEntry table (ptx la) ⟨page, pteP ||| perm⟩

/-- Source: `kern/mm/pmm.c` `page_remove` -/
def pageRemove (d la : ℕ) : VmProg Unit := do
  match ← getPte al d la false with
  | none => pure ()
  | some table => pageRemovePte table (ptx la)

/-- A turn of the loop of `unmap_range`. -/
def unmapTurn (d start : ℕ) : VmProg ℕ := do
  match ← getPte al d start false with
  | none => pure ((start + ptSize) / ptSize * ptSize)
  | some table => do
    let s ← Prog.get
    (if s.entry table (ptx start) ≠ .zero then pageRemovePte table (ptx start) else pure () : VmProg Unit)
    pure (start + pageSize)

/-- Source: `kern/mm/pmm.c` `unmap_range` -/
def unmapRange (d start stop : ℕ) : VmProg Unit := do
  checkRange start stop
  walk (unmapTurn al d) stop (rangeFuel start stop) start

/-- A turn of the loop of `copy_range`. -/
def copyTurn (dst src start : ℕ) : VmProg ℕ := do
  match ← getPte al src start false with
  | none => pure ((start + ptSize) / ptSize * ptSize)
  | some table => do
    let s ← Prog.get
    let e := s.entry table (ptx start)
    if e.present then do
      match ← getPte al dst start true with
      | none => Prog.throw .noMem
      | some _ =>
        match ← allocPages al 1 with
        | none => Prog.stop .copyPage
        | some npage => do
          Prog.modify fun s => { s with byte := Function.update s.byte npage (s.byte e.ppn) }
          match ← Prog.attempt (pageInsert al dst npage start (e.flags &&& pteUser)) with
          | .error _ => Prog.stop .copyInsert
          | .ok () => pure (start + pageSize)
    else pure (start + pageSize)

/-- Source: `kern/mm/pmm.c` `copy_range` -/
def copyRange (dst src start stop : ℕ) : VmProg Unit := do
  checkRange start stop
  walk (copyTurn al dst src) stop (rangeFuel start stop) start

/-- Source: `kern/mm/pmm.c` `pgdir_alloc_page` -/
def pgdirAllocPage (d la : ℕ) (perm : BitVec 12) : VmProg (Option ℕ) := do
  match ← allocPages al 1 with
  | none => pure none
  | some page =>
    match ← Prog.attempt (pageInsert al d page la perm) with
    | .error _ => do
      freePages page 1
      pure none
    | .ok () => pure (some page)

end pageTables

/-- A turn of the loop of `exit_range`: the page table is freed. -/
def exitTurn (d start : ℕ) : VmProg ℕ := do
  let s ← Prog.get
  (if (s.entry d (pdx start)).present then do
    freePages (s.entry d (pdx start)).ppn 1
    setEntry d (pdx start) .zero
  else pure () : VmProg Unit)
  pure (start + ptSize)

/-- Source: `kern/mm/pmm.c` `exit_range` -/
def exitRange (d start stop : ℕ) : VmProg Unit := do
  checkRange start stop
  walk (exitTurn d) stop (rangeFuel start stop) (start / ptSize * ptSize)

/-! ### Areas -/

/-- Source: `kern/mm/vmm.c` `find_vma` -/
def findVma (m addr : ℕ) : VmProg (Option Vma) := do
  let s ← Prog.get
  let cached := (s.mm m).mmapCache.filter fun v => v.Has addr
  let found := cached.or ((s.mm m).mmapList.find? fun v => v.Has addr)
  (match found with
    | some v => setMm m fun d => { d with mmapCache := some v }
    | none => pure () : VmProg Unit)
  pure found

/-- Source: `kern/mm/vmm.c` `check_vma_overlap` -/
def checkVmaOverlap (prev next : Vma) : VmProg Unit := do
  Prog.assert (prev.vmStart < prev.vmEnd) .vmaEmpty
  Prog.assert (prev.vmEnd ≤ next.vmStart) .vmaOrder
  Prog.assert (next.vmStart < next.vmEnd) .vmaEmpty

/-- Source: `kern/mm/vmm.c` `insert_vma_struct` -/
def insertVmaStruct (m : ℕ) (vma : Vma) : VmProg Unit := do
  Prog.assert (vma.vmStart < vma.vmEnd) .vmaEmpty
  let s ← Prog.get
  let l := (s.mm m).mmapList
  let before := l.takeWhile fun v => v.vmStart ≤ vma.vmStart
  let after := l.dropWhile fun v => v.vmStart ≤ vma.vmStart
  (match before.getLast? with
    | some prev => checkVmaOverlap prev vma
    | none => pure () : VmProg Unit)
  (match after.head? with
    | some next => checkVmaOverlap vma next
    | none => pure () : VmProg Unit)
  setMm m fun d => { d with mmapList := before ++ vma :: after, mapCount := d.mapCount + 1 }

/-! ### Address spaces -/

/-- Source: `kern/mm/vmm.h` `mm_count_inc` -/
def mmCountInc (m : ℕ) : VmProg Unit := setMm m fun d => { d with mmCount := d.mmCount + 1 }

/-- Source: `kern/mm/vmm.h` `mm_count_dec` -/
def mmCountDec (m : ℕ) : VmProg ℤ := do
  setMm m fun d => { d with mmCount := d.mmCount - 1 }
  let s ← Prog.get
  pure (s.mm m).mmCount

/-- The areas are freed from the first one on. -/
def kfreeAll : List Vma → VmProg Unit
  | [] => pure ()
  | v :: l => do
    kfree v.addr
    kfreeAll l

/-- Source: `kern/mm/vmm.c` `mm_destroy` -/
def mmDestroy (m : ℕ) : VmProg Unit := do
  let s ← Prog.get
  Prog.assert ((s.mm m).mmCount = 0) .mmDestroyCount
  kfreeAll (s.mm m).mmapList
  setMm m fun d => { d with mmapList := [] }
  kfree m
  Prog.modify fun s => { s with mmDestroys := Function.update s.mmDestroys m (s.mmDestroys m + 1) }

/-- Source: `kern/process/proc.c` `put_pgdir` -/
def putPgdir (m : ℕ) : VmProg Unit := do
  let s ← Prog.get
  freePages (s.mm m).pgdir 1
  Prog.modify fun s => { s with putPgdirs := Function.update s.putPgdirs m (s.putPgdirs m + 1) }

section addressSpaces

variable (al : Allocs)

/-- Source: `kern/mm/vmm.c` `mm_create` -/
def mmCreate : VmProg (Option ℕ) := do
  match ← kmalloc al with
  | none => pure none
  | some m => do
    setMm m fun _ => ⟨[], none, 0, 0, 0⟩
    Prog.modify fun s => { s with mms := m :: s.mms }
    pure (some m)

/-- The page directory starts as a copy of `boot_pgdir`. Source: `kern/process/proc.c` `setup_pgdir` -/
def setupPgdir (m : ℕ) : VmProg Unit := do
  match ← allocPages al 1 with
  | none => Prog.throw .noMem
  | some page => do
    Prog.modify fun s => { s with entry := Function.update s.entry page (s.entry s.bootPgdir) }
    setEntry page pdxVpt ⟨page, pteP ||| pteW⟩
    setMm m fun d => { d with pgdir := page }

/-- Source: `kern/mm/vmm.c` `vma_create` -/
def vmaCreate (start stop : ℕ) (flags : BitVec 32) : VmProg (Option Vma) := do
  match ← kmalloc al with
  | none => pure none
  | some addr => pure (some ⟨addr, start, stop, flags⟩)

/-- The end of `mm_map`. -/
def mmMapNew (m start stop : ℕ) (flags : BitVec 32) : VmProg Unit := do
  match ← vmaCreate al start stop flags with
  | none => Prog.throw .noMem
  | some vma => insertVmaStruct m vma

/-- Source: `kern/mm/vmm.c` `mm_map` -/
def mmMap (m addr len : ℕ) (flags : BitVec 32) : VmProg Unit := do
  let start := addr / pageSize * pageSize
  let stop := ((addr + len) % 2 ^ 32 + (pageSize - 1)) % 2 ^ 32 / pageSize * pageSize
  if ¬ UserAccess start stop then
    Prog.throw .inval
  else do
    match ← findVma m start with
    | some v => if stop > v.vmStart then Prog.throw .inval else mmMapNew al m start stop flags
    | none => mmMapNew al m start stop flags

/-- The loop of `dup_mmap`, over the areas from the last one to the first. -/
def dupLoop (dst src : ℕ) : List Vma → VmProg Unit
  | [] => pure ()
  | vma :: l => do
    match ← vmaCreate al vma.vmStart vma.vmEnd vma.vmFlags with
    | none => Prog.throw .noMem
    | some nvma => do
      insertVmaStruct dst nvma
      let s ← Prog.get
      copyRange al (s.mm dst).pgdir (s.mm src).pgdir vma.vmStart vma.vmEnd
      dupLoop dst src l

/-- Source: `kern/mm/vmm.c` `dup_mmap` -/
def dupMmap (dst src : ℕ) : VmProg Unit := do
  let s ← Prog.get
  dupLoop al dst src (s.mm src).mmapList.reverse

/-- The first loop of `exit_mmap`. -/
def unmapAll (d : ℕ) : List Vma → VmProg Unit
  | [] => pure ()
  | vma :: l => do
    unmapRange al d vma.vmStart vma.vmEnd
    unmapAll d l

/-- The second loop of `exit_mmap`. -/
def exitAll (d : ℕ) : List Vma → VmProg Unit
  | [] => pure ()
  | vma :: l => do
    exitRange d vma.vmStart vma.vmEnd
    exitAll d l

/-- Source: `kern/mm/vmm.c` `exit_mmap` -/
def exitMmap (m : ℕ) : VmProg Unit := do
  let s ← Prog.get
  Prog.assert ((s.mm m).mmCount = 0) .exitMmapCount
  Prog.modify fun s => { s with exitMmaps := Function.update s.exitMmaps m (s.exitMmaps m + 1) }
  unmapAll al (s.mm m).pgdir (s.mm m).mmapList
  exitAll (s.mm m).pgdir (s.mm m).mmapList

/-- The address space goes, with all that is in it: the same calls in four functions of `proc.c`. -/
def cleanupMm (m : ℕ) : VmProg Unit := do
  exitMmap al m
  putPgdir m
  mmDestroy m

/-- A copy of the address space `src`, as without `CLONE_VM`. Source: `kern/process/proc.c` `copy_mm` -/
def copyMm (src : ℕ) : VmProg ℕ := do
  match ← mmCreate al with
  | none => Prog.throw .noMem
  | some m =>
    match ← Prog.attempt (setupPgdir al m) with
    | .error _ => do
      mmDestroy m
      Prog.throw .noMem
    | .ok () =>
      match ← Prog.attempt (dupMmap al m src) with
      | .error e => do
        cleanupMm al m
        Prog.throw e
      | .ok () => do
        mmCountInc m
        pure m

/-! ### Page faults -/

/-- The permissions of a page in an area. -/
def Vma.perm (v : Vma) : BitVec 12 := if v.vmFlags &&& vmWrite ≠ 0 then pteU ||| pteW else pteU

/-- The check of the error code: bit 0 is set if the page was present, and bit 1 if it was written. -/
def Vma.Allows (v : Vma) (code : ℕ) : Prop :=
  if code % 4 = 0 then v.vmFlags &&& (vmRead ||| vmExec) ≠ 0
  else if code % 4 = 1 then False
  else v.vmFlags &&& vmWrite ≠ 0

instance (v : Vma) (code : ℕ) : Decidable (v.Allows code) := by
  unfold Vma.Allows
  infer_instance

/-- Source: `kern/mm/vmm.c` `do_pgfault`, when `swap_init_ok` is 0 -/
def doPgfault (m code addr : ℕ) : VmProg Unit := do
  match ← findVma m addr with
  | none => Prog.throw .inval
  | some vma =>
    if vma.vmStart > addr ∨ ¬ vma.Allows code then
      Prog.throw .inval
    else do
      let la := addr / pageSize * pageSize
      let s ← Prog.get
      match ← getPte al (s.mm m).pgdir la true with
      | none => Prog.throw .noMem
      | some table => do
        let s ← Prog.get
        let e := s.entry table (ptx la)
        if e = .zero then do
          match ← pgdirAllocPage al (s.mm m).pgdir la vma.perm with
          | none => Prog.throw .noMem
          | some _ => pure ()
        else if e.present then
          Prog.stop .pgfaultPresent
        else
          Prog.throw .noMem

end addressSpaces

/-! ### A memory to start with -/

theorem firstFit_free (n : ℕ) (free : List ℕ) (page : ℕ)
    (h : (free.find? fun p => ∀ i < n, p + i ∈ free) = some page) : ∀ i < n, page + i ∈ free :=
  of_decide_eq_true (List.find?_some (p := fun p => decide (∀ i < n, p + i ∈ free)) h)

/-- The allocators that never fail when there is memory, and take the first pages of the list. -/
def Allocs.firstFit : Allocs where
  fails := fun _ => false
  pick := fun _ n free => free.find? fun p => ∀ i < n, p + i ∈ free
  pick_free := fun _ n free page h => firstFit_free n free page h

/-- No page is in use but that of `boot_pgdir`, which has no entries, and the pages `free` are free. -/
def VmState.start (bootPgdir : ℕ) (free : List ℕ) : VmState where
  blocks := []
  freshBlock := 1
  free := free
  pageRef := fun _ => 0
  entry := fun _ _ => .zero
  byte := fun _ _ => 0
  mm := fun _ => ⟨[], none, 0, 0, 0⟩
  bootPgdir := bootPgdir
  asked := 0
  mms := []
  exitMmaps := fun _ => 0
  putPgdirs := fun _ => 0
  mmDestroys := fun _ => 0

end Ucore.Vm
