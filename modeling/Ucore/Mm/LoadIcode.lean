import Ucore.Mm.AddressSpace
import Mathlib.Algebra.GroupWithZero.Nat

/-!
# Loading a program

`load_icode` of `kern/process/proc.c`, which makes the address space of a program from its file.

* `ExecFile` is the file: what `sysfile_seek` and `sysfile_read` make of it. `ElfHdr` and `ProgHdr` are its headers.
* `fileLoop`, `bssFirst` and `bssLoop` are the three parts of `loadSegment`; the last two make up `bssRest`. Addresses and
  sizes are words of 32 bits.
* `storeByte` is a store to a user address, where the page fault of a missing page is served by `do_pgfault`.
* `loadIcode` returns what the caller has to know: the address space, where the program starts, and its stack pointer. The
  assertions on `argc` and on `current->mm` are about what `do_execve` has done before, and are left out.
-/

namespace Ucore.Vm

open Ucore.Lib

/-- Sum and difference of words. -/
def add32 (a b : ℕ) : ℕ := (a + b) % 2 ^ 32

def sub32 (a b : ℕ) : ℕ := (a + 2 ^ 32 - b) % 2 ^ 32

/-- `USTACKTOP` -/
def ustackTop : ℕ := userTop

/-- `USTACKSIZE` -/
def ustackSize : ℕ := 256 * pageSize

/-- `SFS_MAX_FILE_SIZE` -/
def sfsMaxFileSize : ℕ := 1024 * 1024 * 128

/-- `EXEC_MAX_ARG_LEN` -/
def execMaxArgLen : ℕ := 4095

/-- A file that can be executed. -/
structure ExecFile where
  bytes : List UInt8
  /-- What `sfs_truncfile` returns for a position behind the end, if it fails. -/
  grows : ℕ → Option VmError

/-- A word of 32 bits at an offset. -/
def le32 (bytes : List UInt8) (i : ℕ) : ℕ :=
  (bytes.getD i 0).toNat + 2 ^ 8 * (bytes.getD (i + 1) 0).toNat + 2 ^ 16 * (bytes.getD (i + 2) 0).toNat +
    2 ^ 24 * (bytes.getD (i + 3) 0).toNat

/-- A word of 16 bits at an offset. -/
def le16 (bytes : List UInt8) (i : ℕ) : ℕ := (bytes.getD i 0).toNat + 2 ^ 8 * (bytes.getD (i + 1) 0).toNat

/-- Source: `libs/elf.h` `struct elfhdr` -/
structure ElfHdr where
  eMagic : ℕ
  eEntry : ℕ
  ePhoff : ℕ
  ePhnum : ℕ
  deriving DecidableEq

/-- `sizeof(struct elfhdr)` -/
def elfHdrSize : ℕ := 52

/-- The fields of an ELF header, in the file. -/
def ElfHdr.ofBytes (bytes : List UInt8) : ElfHdr where
  eMagic := le32 bytes 0
  eEntry := le32 bytes 24
  ePhoff := le32 bytes 28
  ePhnum := le16 bytes 44

/-- `ELF_MAGIC` -/
def elfMagic : ℕ := 0x464C457F

/-- Source: `libs/elf.h` `struct proghdr` -/
structure ProgHdr where
  pType : ℕ
  pOffset : ℕ
  pVa : ℕ
  pFilesz : ℕ
  pMemsz : ℕ
  pFlags : BitVec 32
  deriving DecidableEq

/-- `sizeof(struct proghdr)` -/
def progHdrSize : ℕ := 32

/-- The fields of a program header, in the file. -/
def ProgHdr.ofBytes (bytes : List UInt8) : ProgHdr where
  pType := le32 bytes 0
  pOffset := le32 bytes 4
  pVa := le32 bytes 8
  pFilesz := le32 bytes 16
  pMemsz := le32 bytes 20
  pFlags := BitVec.ofNat 32 (le32 bytes 24)

/-- `ELF_PT_LOAD` -/
def elfPtLoad : ℕ := 1

/-- The flags of the area for a segment: `ELF_PF_X`, `ELF_PF_W` and `ELF_PF_R` are 1, 2 and 4. -/
def ProgHdr.vmFlags (ph : ProgHdr) : BitVec 32 :=
  (if ph.pFlags &&& 1 ≠ 0 then vmExec else 0) ||| (if ph.pFlags &&& 2 ≠ 0 then vmWrite else 0) |||
    if ph.pFlags &&& 4 ≠ 0 then vmRead else 0

/-- The permissions of the pages of a segment. -/
def ProgHdr.perm (ph : ProgHdr) : BitVec 12 := if ph.vmFlags &&& vmWrite ≠ 0 then pteU ||| pteW else pteU

/-- Write bytes to a page. -/
def VmState.writeBytes (s : VmState) (page off : ℕ) (bytes : List UInt8) : VmState :=
  { s with
    byte := Function.update s.byte page fun i =>
      if off ≤ i ∧ i < off + bytes.length then bytes.getD (i - off) 0 else s.byte page i }

/-- `sysfile_seek` to a position; behind its end the file grows. -/
def ExecFile.seek (file : ExecFile) (offset : ℕ) : VmProg Unit :=
  if file.bytes.length < offset then
    match file.grows offset with
    | some e => Prog.throw e
    | none => pure ()
  else pure ()

section loading

variable (al : Allocs) (file : ExecFile)

/-- Read `len` bytes, which are stored even when there are less of them. Source: `kern/process/proc.c` `load_icode_read` -/
def loadIcodeRead (store : List UInt8 → VmState → VmState) (len offset : ℕ) : VmProg (List UInt8) := do
  if sfsMaxFileSize ≤ offset then
    Prog.throw .inval
  else do
    file.seek offset
    match ← kmalloc al with
    | none => Prog.throw .noMem
    | some buffer => do
      let got := (file.bytes.drop offset).take len
      Prog.modify (store got)
      kfree buffer
      if got.length = len then pure got else Prog.throw .unspecified

/-- The bytes of a page that ends at `la`, from `off` on: `size = PGSIZE - off`, and `size -= la - end` if `end < la`. -/
def chunkSize (off la stop : ℕ) : ℕ :=
  if stop < la then sub32 (sub32 pageSize off) (sub32 la stop) else sub32 pageSize off

/-- The loop over the pages that have something from the file, with `fuel` turns at most. It has come to `start`, and the
next page is for `la`; the page of the last turn comes back too. -/
def fileLoop (d : ℕ) (perm : BitVec 12) (stop : ℕ) : ℕ → ℕ → ℕ → ℕ → ℕ → VmProg (ℕ × ℕ × ℕ)
  | 0, _, _, _, _ => Prog.stop .loop
  | fuel + 1, start, la, offset, page =>
    if start < stop then do
      match ← pgdirAllocPage al d la perm with
      | none => Prog.throw .noMem
      | some page => do
        let off := sub32 start la
        let la := add32 la pageSize
        let size := chunkSize off la stop
        let _ ← loadIcodeRead al file (fun bytes s => s.writeBytes page off bytes) size offset
        fileLoop d perm stop fuel (add32 start size) la (add32 offset size) page
    else pure (start, la, page)

/-- `memset(page2kva(page) + off, 0, size)`. From a size of almost 4 GB the kernel comes to addresses that are not mapped. -/
def clearBytes (page off size : ℕ) : VmProg Unit :=
  if off + size ≤ pageSize then Prog.modify fun s => s.writeBytes page off (List.replicate size 0)
  else Prog.stop .kernelFault

/-- The rest of the page that the file ends in. -/
def bssFirst (page start la stop : ℕ) : VmProg ℕ := do
  let off := sub32 (add32 start pageSize) la
  let size := chunkSize off la stop
  clearBytes page off size
  let start := add32 start size
  Prog.assert ((stop < la ∧ start = stop) ∨ (la ≤ stop ∧ start = la)) .segmentEnd
  pure start

/-- The loop over the pages behind, with `fuel` turns at most. -/
def bssLoop (d : ℕ) (perm : BitVec 12) (stop : ℕ) : ℕ → ℕ → ℕ → VmProg Unit
  | 0, _, _ => Prog.stop .loop
  | fuel + 1, start, la =>
    if start < stop then do
      match ← pgdirAllocPage al d la perm with
      | none => Prog.throw .noMem
      | some page => do
        let off := sub32 start la
        let la := add32 la pageSize
        let size := chunkSize off la stop
        clearBytes page off size
        bssLoop d perm stop fuel (add32 start size) la
    else pure ()

/-- More turns than the loops over a segment have. -/
def segmentFuel (size : ℕ) : ℕ := size / pageSize + 3

/-- What is left of a segment, when the pages that have something from the file are there. -/
def bssRest (d : ℕ) (ph : ProgHdr) (start la page : ℕ) : VmProg Unit :=
  let stop := add32 ph.pVa ph.pMemsz
  if start < la then
    if start = stop then
      pure ()
    else do
      let start ← bssFirst page start la stop
      bssLoop al d ph.perm stop (segmentFuel ph.pMemsz) start la
  else
    bssLoop al d ph.perm stop (segmentFuel ph.pMemsz) start la

/-- What is done for a program header. -/
def loadSegment (m : ℕ) (ph : ProgHdr) : VmProg Unit := do
  if ph.pType ≠ elfPtLoad then
    pure ()
  else if ph.pFilesz > ph.pMemsz then
    Prog.throw .invalElf
  else if ph.pFilesz = 0 then
    pure ()
  else do
    mmMap al m ph.pVa ph.pMemsz ph.vmFlags
    let s ← Prog.get
    let (start, la, page) ← fileLoop al file (s.mm m).pgdir ph.perm (add32 ph.pVa ph.pFilesz) (segmentFuel ph.pFilesz) ph.pVa
      (ph.pVa / pageSize * pageSize) ph.pOffset 0
    bssRest al (s.mm m).pgdir ph start la page

/-- The loop over the program headers. -/
def loadSegments (m : ℕ) (elf : ElfHdr) : List ℕ → VmProg Unit
  | [] => pure ()
  | phnum :: l => do
    let bytes ← loadIcodeRead al file (fun _ s => s) progHdrSize (add32 elf.ePhoff (progHdrSize * phnum))
    loadSegment al file m (.ofBytes bytes)
    loadSegments m elf l

/-- The four pages of the stack, at its top. -/
def stackPages (d : ℕ) : List ℕ → VmProg Unit
  | [] => pure ()
  | k :: l => do
    match ← pgdirAllocPage al d (ustackTop - k * pageSize) pteUser with
    | none => Prog.stop .stackPage
    | some _ => stackPages d l

/-- The segments and the stack, as far as the address space is cleaned up after an error. -/
def loadAreas (m : ℕ) (elf : ElfHdr) : VmProg Unit := do
  loadSegments al file m elf (List.range elf.ePhnum)
  mmMap al m (ustackTop - ustackSize) ustackSize (vmRead ||| vmWrite ||| vmStack)

/-! ### The arguments -/

/-- The page that the kernel writes to for an address, if it can. -/
def VmState.writable (s : VmState) (d la : ℕ) : Option ℕ :=
  let pde := s.entry d (pdx la)
  let pte := s.entry pde.ppn (ptx la)
  if pde.present ∧ pde.writable ∧ pte.present ∧ pte.writable then some pte.ppn else none

/-- Bit 0 of the error code of a page fault: the address is mapped. -/
def VmState.faultPresent (s : VmState) (d la : ℕ) : ℕ :=
  if (s.entry d (pdx la)).present ∧ (s.entry (s.entry d (pdx la)).ppn (ptx la)).present then 1 else 0

/-- A store of the kernel to a user address of the address space `m`. When it faults, `do_pgfault` is called, and the store is
tried again. -/
def storeByte (m la : ℕ) (b : UInt8) : VmProg Unit := do
  let s ← Prog.get
  let d := (s.mm m).pgdir
  match s.writable d la with
  | some page => Prog.modify fun s => s.writeBytes page (la % pageSize) [b]
  | none =>
    match ← Prog.attempt (doPgfault al m (2 + s.faultPresent d la) la) with
    | .error _ => Prog.stop .kernelFault
    | .ok () => do
      let s ← Prog.get
      match s.writable d la with
      | some page => Prog.modify fun s => s.writeBytes page (la % pageSize) [b]
      | none => Prog.stop .kernelFault

/-- Stores to consecutive addresses. -/
def storeBytes (m : ℕ) : ℕ → List UInt8 → VmProg Unit
  | _, [] => pure ()
  | la, b :: l => do
    storeByte al m la b
    storeBytes m (la + 1) l

/-- The bytes of a word. -/
def bytes32 (n : ℕ) : List UInt8 :=
  [UInt8.ofNat n, UInt8.ofNat (n / 2 ^ 8), UInt8.ofNat (n / 2 ^ 16), UInt8.ofNat (n / 2 ^ 24)]

/-- Source: `libs/string.c` `strnlen`; the string does not have the 0 at its end. -/
def strnlen (str : List UInt8) (len : ℕ) : ℕ := min str.length len

/-- The bytes that the strings take. -/
def argvSize (args : List (List UInt8)) : ℕ := (args.map fun arg => strnlen arg (execMaxArgLen + 1) + 1).sum

/-- The loop over the arguments: the string goes to `dst`, and its address to `uargv`. -/
def storeArgs (m : ℕ) : ℕ → ℕ → List (List UInt8) → VmProg Unit
  | _, _, [] => pure ()
  | dst, uargv, arg :: l => do
    storeBytes al m dst (arg ++ [0])
    storeBytes al m uargv (bytes32 dst)
    storeArgs m (dst + (strnlen arg (execMaxArgLen + 1) + 1)) (uargv + 4) l

/-- Where the strings start. -/
def argsTop (args : List (List UInt8)) : ℕ := ustackTop - (argvSize args / 4 + 1) * 4

/-- The stack pointer that the program starts with. -/
def stackPointer (args : List (List UInt8)) : ℕ := argsTop args - args.length * 4 - 4

/-- The arguments, and their number. -/
def storeArguments (m : ℕ) (args : List (List UInt8)) : VmProg Unit := do
  storeArgs al m (argsTop args) (argsTop args - args.length * 4) args
  storeBytes al m (stackPointer args) (bytes32 args.length)

/-- What `load_icode` has made: `current->mm`, `tf_eip` and `tf_esp`. -/
structure Loaded where
  mm : ℕ
  entry : ℕ
  stack : ℕ
  deriving DecidableEq

/-- The ELF header. -/
def readElfHdr : VmProg ElfHdr := do
  let bytes ← loadIcodeRead al file (fun _ s => s) elfHdrSize 0
  if (ElfHdr.ofBytes bytes).eMagic ≠ elfMagic then Prog.throw .invalElf else pure (.ofBytes bytes)

/-- The stack and the arguments, when the areas are there. -/
def finishLoad (m : ℕ) (elf : ElfHdr) (args : List (List UInt8)) : VmProg Loaded := do
  let s ← Prog.get
  stackPages al (s.mm m).pgdir [1, 2, 3, 4]
  mmCountInc m
  storeArguments al m args
  pure ⟨m, elf.eEntry, stackPointer args⟩

/-- Source: `kern/process/proc.c` `load_icode` -/
def loadIcode (args : List (List UInt8)) : VmProg Loaded := do
  match ← mmCreate al with
  | none => Prog.throw .noMem
  | some m =>
    match ← Prog.attempt (setupPgdir al m) with
    | .error _ => do
      mmDestroy m
      Prog.throw .noMem
    | .ok () =>
      match ← Prog.attempt (readElfHdr al file) with
      | .error e => do
        putPgdir m
        mmDestroy m
        Prog.throw e
      | .ok elf =>
        match ← Prog.attempt (loadAreas al file m elf) with
        | .error e => do
          cleanupMm al m
          Prog.throw e
        | .ok () => finishLoad al m elf args

end loading

end Ucore.Vm
