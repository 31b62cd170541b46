import Ucore.Mm.DefaultPmm
import Ucore.Mm.AddressSpace

/-!
# Swapping

The page fault path of `kern/mm` when `swap_init_ok` is set: `alloc_pages` asks `default_alloc_pages` for a page, and when there
is none it calls `swap_out` and asks again. The swap manager is the FIFO manager of `kern/mm/swap_fifo.c`, the only one there is.

* `SwapState β` is what these functions read and write. A page of memory or of the swap disk holds a `β`. `pra_list_head` is the
  list of the pages from `head->next` on: pages come in at its front, and the victim is its last page.
* An `mm` that may be `NULL` is an `Option`. `SwapPanic` are the places where the code stops, the dereferences of a null pointer
  among them.
* `disk k` says whether the `k`th request to the swap disk fails. A request that fails transfers nothing.
* `allocPages` has the unbounded loop of the source; `fuel` bounds its turns, and it stops at `SwapPanic.loop` when they are used
  up.
* `access` is a read or a write of a whole page by a program, with the faults that it takes.

The invalidation of the TLB and the messages on the console are left out.
-/

namespace Ucore.Swap

open Ucore.Lib
open Ucore.Mm (Pmm Page PmmPanic defaultAllocPages defaultFreePages)
open Ucore.Vm (pageSize pdx ptx Pte pteP pteW pteU Vma VmError)

/-- Source: `kern/mm/vmm.h` `struct mm_struct`, with what a page fault uses -/
structure MmStruct where
  mmapList : List Vma
  mmapCache : Option Vma
  /-- The page of the page directory. -/
  pgdir : ℕ
  /-- `sm_priv` points to `pra_list_head`; otherwise it is `NULL`. -/
  smPriv : Bool

/-- Memory and the swap disk. -/
structure SwapState (β : Type) where
  /-- The page descriptors and the free pages. -/
  pmm : Pmm
  /-- `swap_init_ok` -/
  swapInitOk : Bool
  /-- `check_mm_struct` -/
  checkMm : Option ℕ
  mm : ℕ → MmStruct
  /-- `pra_list_head`, from `head->next` to `head->prev`. -/
  praList : List ℕ
  /-- The entries of the page directories and page tables, by page and index. -/
  entry : ℕ → ℕ → Pte
  /-- What a page of memory holds, if it is not a page table. -/
  content : ℕ → β
  /-- What the slots of the swap disk hold. -/
  slot : ℕ → β
  /-- `max_swap_offset` -/
  maxSwapOffset : ℕ
  /-- How many requests to the swap disk there have been. -/
  requests : ℕ

/-- Where the code stops. `nullMm` and `nullPte` are dereferences of a null pointer, `loop` is a loop that has not ended. -/
inductive SwapPanic where
  | pmm (p : PmmPanic)
  | nullMm | nullPte | mapHead | victimHead | inTick | noVictim | notPresent | swapOffset | swapInPage | pageRef
  | pgfaultPresent | loop
  deriving Repr, DecidableEq

abbrev SwapProg (β : Type) := Prog SwapPanic VmError (SwapState β)

variable {β : Type}

/-- A program of the page allocator. -/
def onPmm {α : Type} (m : Prog PmmPanic VmError Pmm α) : SwapProg β α :=
  Prog.zoom SwapState.pmm (fun t s => { s with pmm := t }) .pmm m

/-- Change a page descriptor. -/
def SwapState.setPage (s : SwapState β) (page : ℕ) (f : Page → Page) : SwapState β :=
  { s with pmm := s.pmm.setPage page f }

/-- Change an entry of the page `page`. -/
def SwapState.setEntry (s : SwapState β) (page i : ℕ) (e : Pte) : SwapState β :=
  { s with entry := Function.update s.entry page (Function.update (s.entry page) i e) }

/-- A pointer to an `mm_struct` is followed. -/
def deref (mm : Option ℕ) : SwapProg β ℕ :=
  match mm with
  | none => Prog.stop .nullMm
  | some m => pure m

/-- Source: `kern/mm/pmm.c` `free_pages` -/
def freePages (page n : ℕ) : SwapProg β Unit := onPmm (defaultFreePages page n)

/-- The page table for the address `la` in the page directory `d`, if there is one.
Source: `kern/mm/pmm.c` `get_pte`, when `create` is 0 -/
def SwapState.findPte (s : SwapState β) (d la : ℕ) : Option ℕ :=
  if (s.entry d (pdx la)).present then some (s.entry d (pdx la)).ppn else none

/-! ### Swap entries -/

/-- The entry `offset << 8`. -/
def swapEntry (offset : ℕ) : Pte := ⟨offset / 16, BitVec.ofNat 12 (offset % 16 * 256)⟩

/-- The entry shifted right by 8 bits. -/
def entryOffset (e : Pte) : ℕ := e.ppn * 16 + e.flags.toNat / 256

/-- Source: `kern/mm/swap.h` `swap_offset` -/
def swapOffset (e : Pte) : SwapProg β ℕ := do
  let s ← Prog.get
  Prog.assert (0 < entryOffset e ∧ entryOffset e < s.maxSwapOffset) .swapOffset
  pure (entryOffset e)

section disk

variable (disk : ℕ → Bool)

/-- A request to the disk. Returns whether it fails. -/
def request : SwapProg β Bool := do
  let s ← Prog.get
  Prog.modify fun s => { s with requests := s.requests + 1 }
  pure (disk s.requests)

/-- Returns whether it fails. Source: `kern/fs/swap/swapfs.c` `swapfs_write` -/
def swapfsWrite (e : Pte) (page : ℕ) : SwapProg β Bool := do
  let offset ← swapOffset e
  let failed ← request disk
  (if failed then pure ()
    else Prog.modify fun s => { s with slot := Function.update s.slot offset (s.content page) } : SwapProg β Unit)
  pure failed

/-- Returns whether it fails. Source: `kern/fs/swap/swapfs.c` `swapfs_read` -/
def swapfsRead (e : Pte) (page : ℕ) : SwapProg β Bool := do
  let offset ← swapOffset e
  let failed ← request disk
  (if failed then pure ()
    else Prog.modify fun s => { s with content := Function.update s.content page (s.slot offset) } : SwapProg β Unit)
  pure failed

/-! ### The FIFO manager -/

/-- Source: `kern/mm/swap_fifo.c` `_fifo_map_swappable` -/
def fifoMapSwappable (m page : ℕ) : SwapProg β Unit := do
  let s ← Prog.get
  Prog.assert ((s.mm m).smPriv = true) .mapHead
  Prog.modify fun s => { s with praList := page :: s.praList }

/-- It returns 0 in every run, so what it returns here is the page.
Source: `kern/mm/swap_fifo.c` `_fifo_swap_out_victim` -/
def fifoSwapOutVictim (mm : Option ℕ) (inTick : ℕ) : SwapProg β ℕ := do
  let m ← deref mm
  let s ← Prog.get
  Prog.assert ((s.mm m).smPriv = true) .victimHead
  Prog.assert (inTick = 0) .inTick
  match s.praList.getLast? with
  | none => Prog.stop .noVictim
  | some page => do
    Prog.modify fun s => { s with praList := s.praList.dropLast }
    pure page

/-! ### Swapping out -/

/-- The slot for an address. -/
def slotEntry (v : ℕ) : Pte := swapEntry (v / pageSize + 1)

/-- A turn of the loop of `swap_out`. -/
def swapOutTurn (mm : Option ℕ) (inTick : ℕ) : SwapProg β Unit := do
  let page ← fifoSwapOutVictim mm inTick
  let s ← Prog.get
  let v := (s.pmm.pages page).praVaddr
  let m ← deref mm
  match s.findPte (s.mm m).pgdir v with
  | none => Prog.stop .nullPte
  | some table => do
    Prog.assert ((s.entry table (ptx v)).present = true) .notPresent
    let failed ← swapfsWrite disk (slotEntry v) page
    if failed then
      fifoMapSwappable m page
    else do
      Prog.modify fun s => s.setEntry table (ptx v) (slotEntry v)
      freePages page 1

/-- The loop of `swap_out`, with `n` turns to go. -/
def swapOutLoop (mm : Option ℕ) (inTick : ℕ) : ℕ → ℕ → SwapProg β ℕ
  | 0, i => pure i
  | n + 1, i => do
    swapOutTurn disk mm inTick
    swapOutLoop mm inTick n (i + 1)

/-- Source: `kern/mm/swap.c` `swap_out` -/
def swapOut (mm : Option ℕ) (n inTick : ℕ) : SwapProg β ℕ := swapOutLoop disk mm inTick n 0

/-- Source: `kern/mm/pmm.c` `alloc_pages` -/
def allocPages (n : ℕ) : ℕ → SwapProg β (Option ℕ)
  | 0 => Prog.stop .loop
  | fuel + 1 => do
    let page ← onPmm (defaultAllocPages n)
    let s ← Prog.get
    if page ≠ none ∨ n > 1 ∨ s.swapInitOk = false then
      pure page
    else do
      let _ ← swapOut disk s.checkMm n 0
      allocPages n fuel

/-! ### Page tables -/

variable (fuel : ℕ)

/-- Source: `kern/mm/pmm.c` `get_pte`, when `create` is 1 -/
def getPte (d la : ℕ) : SwapProg β (Option ℕ) := do
  let s ← Prog.get
  match s.findPte d la with
  | some table => pure (some table)
  | none =>
    match ← allocPages disk 1 fuel with
    | none => pure none
    | some page => do
      Prog.modify fun s => s.setPage page fun pg => { pg with ref := 1 }
      Prog.modify fun s => { s with entry := Function.update s.entry page fun _ => .zero }
      Prog.modify fun s => s.setEntry d (pdx la) ⟨page, pteU ||| pteW ||| pteP⟩
      pure (some page)

/-- Source: `kern/mm/pmm.c` `page_remove_pte`; `(table, i)` is where the entry for the address is. -/
def pageRemovePte (table i : ℕ) : SwapProg β Unit := do
  let s ← Prog.get
  let e := s.entry table i
  if e.present then do
    Prog.modify fun s => s.setPage e.ppn fun pg => { pg with ref := pg.ref - 1 }
    let s ← Prog.get
    (if (s.pmm.pages e.ppn).ref = 0 then freePages e.ppn 1 else pure () : SwapProg β Unit)
    Prog.modify fun s => s.setEntry table i .zero
  else pure ()

/-- Source: `kern/mm/pmm.c` `page_insert` -/
def pageInsert (d page la : ℕ) (perm : BitVec 12) : SwapProg β Unit := do
  match ← getPte disk fuel d la with
  | none => Prog.throw .noMem
  | some table => do
    Prog.modify fun s => s.setPage page fun pg => { pg with ref := pg.ref + 1 }
    let s ← Prog.get
    (if (s.entry table (ptx la)).present then
      if (s.entry table (ptx la)).ppn = page then
        Prog.modify fun s => s.setPage page fun pg => { pg with ref := pg.ref - 1 }
      else pageRemovePte table (ptx la)
    else pure () : SwapProg β Unit)
    Prog.modify fun s => s.setEntry table (ptx la) ⟨page, pteP ||| perm⟩

/-- What `pgdir_alloc_page` does for the swap manager with a page that it has mapped. -/
def recordPage (la page : ℕ) : SwapProg β Unit := do
  let s ← Prog.get
  if s.swapInitOk then
    match s.checkMm with
    | none => pure ()
    | some m => do
      fifoMapSwappable m page
      Prog.modify fun s => s.setPage page fun pg => { pg with praVaddr := la }
      let s ← Prog.get
      Prog.assert ((s.pmm.pages page).ref = 1) .pageRef
  else pure ()

/-- Source: `kern/mm/pmm.c` `pgdir_alloc_page` -/
def pgdirAllocPage (d la : ℕ) (perm : BitVec 12) : SwapProg β (Option ℕ) := do
  match ← allocPages disk 1 fuel with
  | none => pure none
  | some page =>
    match ← Prog.attempt (pageInsert disk fuel d page la perm) with
    | .error _ => do
      freePages page 1
      pure none
    | .ok () => do
      recordPage la page
      pure (some page)

/-! ### Page faults -/

/-- The page that the slot of the address has been read to. The assertion about the result of the read holds whenever it is
reached. Source: `kern/mm/swap.c` `swap_in` -/
def swapIn (m addr : ℕ) : SwapProg β ℕ := do
  match ← allocPages disk 1 fuel with
  | none => Prog.stop .swapInPage
  | some page => do
    let s ← Prog.get
    match s.findPte (s.mm m).pgdir addr with
    | none => Prog.stop .nullPte
    | some table => do
      let _ ← swapfsRead disk (s.entry table (ptx addr)) page
      pure page

/-- Source: `kern/mm/vmm.c` `find_vma` -/
def findVma (m addr : ℕ) : SwapProg β (Option Vma) := do
  let s ← Prog.get
  let cached := (s.mm m).mmapCache.filter fun v => v.Has addr
  let found := cached.or ((s.mm m).mmapList.find? fun v => v.Has addr)
  (match found with
    | some v => Prog.modify fun s => { s with mm := Function.update s.mm m { s.mm m with mmapCache := some v } }
    | none => pure () : SwapProg β Unit)
  pure found

/-- The page is read back from its slot, mapped and handed to the swap manager. The result of `page_insert` is not looked
at. -/
def pgfaultSwapIn (m la : ℕ) (perm : BitVec 12) : SwapProg β Unit := do
  let page ← swapIn disk fuel m la
  let s ← Prog.get
  let _ ← Prog.attempt (pageInsert disk fuel (s.mm m).pgdir page la perm)
  fifoMapSwappable m page

/-- Source: `kern/mm/vmm.c` `do_pgfault` -/
def doPgfault (m code addr : ℕ) : SwapProg β Unit := do
  match ← findVma m addr with
  | none => Prog.throw .inval
  | some vma =>
    if vma.vmStart > addr ∨ ¬ vma.Allows code then
      Prog.throw .inval
    else do
      let la := addr / pageSize * pageSize
      let s ← Prog.get
      match ← getPte disk fuel (s.mm m).pgdir la with
      | none => Prog.throw .noMem
      | some table => do
        let s ← Prog.get
        let e := s.entry table (ptx la)
        if e = .zero then do
          match ← pgdirAllocPage disk fuel (s.mm m).pgdir la vma.perm with
          | none => Prog.throw .noMem
          | some _ => pure ()
        else if e.present then
          Prog.stop .pgfaultPresent
        else if s.swapInitOk then
          pgfaultSwapIn disk fuel m la vma.perm
        else
          Prog.throw .noMem

/-! ### Accesses -/

/-- The entry for an address. -/
def SwapState.pte (s : SwapState β) (d la : ℕ) : Pte :=
  match s.findPte d la with
  | none => .zero
  | some table => s.entry table (ptx la)

/-- The error code of a fault: bit 0 is set if the page was present, and bit 1 if it was written. -/
def SwapState.faultCode (s : SwapState β) (d la : ℕ) (write : Bool) : ℕ :=
  (if write then 2 else 0) + if (s.pte d la).present then 1 else 0

/-- The access is tried, and tried again after the fault. Returns the page. -/
def touch (m la : ℕ) (write : Bool) : ℕ → SwapProg β ℕ
  | 0 => Prog.stop .loop
  | tries + 1 => do
    let s ← Prog.get
    let e := s.pte (s.mm m).pgdir la
    if e.present ∧ (write → e.writable) then
      pure e.ppn
    else do
      doPgfault disk fuel m (s.faultCode (s.mm m).pgdir la write) la
      touch m la write tries

/-- A read or a write of the page of an address. -/
inductive Access (β : Type) where
  | read (la : ℕ)
  | write (la : ℕ) (x : β)

/-- The access as a program. Returns what the page holds then. -/
def access (m : ℕ) : Access β → SwapProg β β
  | .read la => do
    let page ← touch disk fuel m la false fuel
    let s ← Prog.get
    pure (s.content page)
  | .write la x => do
    let page ← touch disk fuel m la true fuel
    Prog.modify fun s => { s with content := Function.update s.content page x }
    pure x

end disk

end Ucore.Swap
