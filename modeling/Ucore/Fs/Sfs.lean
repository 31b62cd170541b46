import Ucore.Fs.Bitmap
import Mathlib.Data.Int.Basic
import Mathlib.Algebra.Group.Nat.Defs

/-!
# Files of the simple file system

The block layer, the block map and the file operations of `kern/fs/sfs`. `SFS_BLKSIZE` is 4096,
`SFS_NDIRECT` 12 and `SFS_BLK_NENTRY` 1024; they are written as numerals. An inode is named by its
number `sin`, which stands for the `sfs_inode` pointer of the source.

* `Sfs` is a mounted file system: superblock, free map, disk and inodes. The inode table has every
  inode of the image, whether it has been loaded or not.
* `sfsBlockAlloc`, `sfsBlockFree`: single blocks.
* `sfsBmapGetNolock`, `sfsBmapLoadNolock`, `sfsBmapTruncateNolock`: the map from block indices of a
  file to disk blocks, through 12 direct pointers and one indirect block.
* `sfsIoNolock`, `sfsTruncfile`, `sfsTryseek`: the operations on a file.

Block input and output does not fail here, so the error branches of the source that follow a
failed `dop_io` are not reached; they are kept where they contain code. Semaphores are left out:
every operation runs to its end.
-/

namespace Ucore.Fs

open Ucore.Lib

/-- The content of a disk block: its byte at each offset below 4096. -/
abbrev Block := ℕ → UInt8

/-- A block of zeros. -/
def zeroBlock : Block := fun _ => 0

/-- The bytes of a block from `offset` on. -/
def Block.read (blk : Block) (offset len : ℕ) : List UInt8 := (List.range' offset len).map blk

/-- A block with `data` copied over it at `offset`. -/
def Block.splice (blk : Block) (offset : ℕ) (data : List UInt8) : Block := fun k =>
  if offset ≤ k ∧ k < offset + data.length then data.getD (k - offset) 0 else blk k

/-- The little-endian number in a list of bytes. -/
def getU32 : List UInt8 → ℕ
  | [] => 0
  | b :: bs => b.toNat + 256 * getU32 bs

/-- The four bytes of a number, little-endian. -/
def putU32 (n : ℕ) : List UInt8 :=
  [UInt8.ofNat n, UInt8.ofNat (n / 256), UInt8.ofNat (n / 256 ^ 2), UInt8.ofNat (n / 256 ^ 3)]

/-- `SFS_MAX_FILE_SIZE` -/
def sfsMaxFileSize : ℕ := 1024 * 1024 * 128

/-- The file types of `sfs.h`. -/
inductive SfsType where
  | inval | file | dir | link
  deriving Repr, DecidableEq

/-- An inode in memory: the fields of `struct sfs_disk_inode` that the file operations use, and the
dirty flag of `struct sfs_inode`.
Source: `kern/fs/sfs/sfs.h` -/
structure SfsInode where
  /-- The size of the file in bytes. -/
  size : ℕ
  /-- The file type. -/
  type : SfsType
  /-- The number of blocks. -/
  blocks : ℕ
  /-- The direct blocks, by index below 12. -/
  direct : ℕ → ℕ
  /-- The indirect block, or 0. -/
  indirect : ℕ
  /-- The inode was modified. -/
  dirty : Bool

/-- A mounted file system.
Source: `kern/fs/sfs/sfs.h` `struct sfs_fs`, `struct sfs_super` -/
structure Sfs where
  /-- `super.blocks` -/
  blocks : ℕ
  /-- `super.unused_blocks` -/
  unusedBlocks : ℕ
  /-- The superblock or the free map was modified. -/
  superDirty : Bool
  /-- The free map; blocks in use are marked 0. -/
  freemap : Bitmap
  /-- The blocks of the device. -/
  disk : ℕ → Block
  /-- The numbers of the inodes. -/
  inos : List ℕ
  /-- The inodes, by number. -/
  inode : ℕ → SfsInode
  /-- `super.blocks` is a `uint32_t`. -/
  blocks_lt : blocks < 2 ^ 32

/-- The assertions and panics of the modelled functions, one for each place. -/
inductive SfsPanic where
  /-- An assertion of `bitmap.c`. -/
  | bitmap (p : BitmapPanic)
  /-- `sfs_block_inuse: called out of range` -/
  | inuseRange
  /-- `sfs_block_alloc`: `unused_blocks > 0` -/
  | allocUnused
  /-- `sfs_block_alloc`: the new block is in use -/
  | allocInuse
  /-- `sfs_block_free`: the block is in use -/
  | freeInuse
  /-- `sfs_rwblock_nolock`: the block number is in range -/
  | rwblock
  /-- `sfs_rbuf`, `sfs_wbuf`: the bytes are inside the block -/
  | bufRange
  /-- `sfs_bmap_get_sub_nolock`: `index < SFS_BLK_NENTRY` -/
  | subIndex
  /-- `sfs_bmap_get_nolock`: `din->indirect == 0` -/
  | getIndirect
  /-- `sfs_bmap_get_nolock - index out of range` -/
  | getRange
  /-- `sfs_bmap_get_nolock`: the block is in use -/
  | getInuse
  /-- `sfs_bmap_free_sub_nolock`: the entry block is in use and the index in range -/
  | freeSub
  /-- `sfs_bmap_load_nolock`: `index <= din->blocks` -/
  | loadIndex
  /-- `sfs_bmap_load_nolock`: the block is in use -/
  | loadInuse
  /-- `sfs_bmap_truncate_nolock`: `din->blocks != 0` -/
  | truncEmpty
  /-- `sfs_io_nolock`: not a directory -/
  | ioDir
  /-- `sfs_truncfile`: `tblks == din->blocks` where the size stays -/
  | truncSame
  /-- `sfs_truncfile`: `din->blocks == tblks` at the end -/
  | truncDone
  /-- `iobuf_skip`: `io_resid >= n` -/
  | iobufSkip
  /-- `sysfile_read`, `sysfile_write`: `len >= alen` -/
  | sysfileLen
  /-- `sfs_do_mount`: `unused_blocks == sfs->super.unused_blocks` -/
  | mountUnused
  /-- `sfs_dirent_read_nolock`: a directory, and the slot in range -/
  | direntSlot
  /-- `sfs_dirent_read_nolock`: the block is in use -/
  | direntInuse
  /-- `sfs_dirent_search_nolock`: `strlen(name) <= SFS_MAX_FNAME_LEN` -/
  | searchName
  /-- `sfs_load_inode`: the block is in use -/
  | inodeInuse
  /-- `sfs_load_inode`: `din->nlinks != 0` -/
  | inodeNlinks
  /-- `sfs_get_ops`: `invalid file type` -/
  | fileType
  /-- `sfs_lookup`: the path is not empty and starts with no slash -/
  | lookupPath
  deriving Repr, DecidableEq

/-- Code of the file system. -/
abbrev SfsProg := Prog SfsPanic FsError Sfs

/-- Run an operation of the free map. -/
def onFreemap {α : Type} (m : Prog BitmapPanic FsError Bitmap α) : SfsProg α :=
  Prog.zoom Sfs.freemap (fun b s => { s with freemap := b }) .bitmap m

/-- Change one inode. -/
def Sfs.setInode (s : Sfs) (sin : ℕ) (f : SfsInode → SfsInode) : Sfs :=
  { s with inode := Function.update s.inode sin (f (s.inode sin)) }

/-! ### Blocks -/

/-- Reading a block. Source: `kern/fs/sfs/sfs_io.c` `sfs_rwblock_nolock` -/
def sfsRblock (blkno : ℕ) : SfsProg Block := do
  let s ← Prog.get
  Prog.assert (blkno ≠ 0 ∧ blkno < s.blocks) .rwblock
  pure (s.disk blkno)

/-- Writing a block. Source: `kern/fs/sfs/sfs_io.c` `sfs_rwblock_nolock` -/
def sfsWblock (blk : Block) (blkno : ℕ) : SfsProg Unit := do
  let s ← Prog.get
  Prog.assert (blkno ≠ 0 ∧ blkno < s.blocks) .rwblock
  Prog.modify fun s => { s with disk := Function.update s.disk blkno blk }

/-- Source: `kern/fs/sfs/sfs_io.c` `sfs_rbuf` -/
def sfsRbuf (len blkno offset : ℕ) : SfsProg (List UInt8) := do
  Prog.assert (offset < 4096 ∧ offset + len ≤ 4096) .bufRange
  let blk ← sfsRblock blkno
  pure (blk.read offset len)

/-- Source: `kern/fs/sfs/sfs_io.c` `sfs_wbuf` -/
def sfsWbuf (data : List UInt8) (blkno offset : ℕ) : SfsProg Unit := do
  Prog.assert (offset < 4096 ∧ offset + data.length ≤ 4096) .bufRange
  let blk ← sfsRblock blkno
  sfsWblock (blk.splice offset data) blkno

/-- Source: `kern/fs/sfs/sfs_io.c` `sfs_clear_block`, for one block -/
def sfsClearBlock (blkno : ℕ) : SfsProg Unit := sfsWblock zeroBlock blkno

/-- Source: `kern/fs/sfs/sfs_inode.c` `sfs_block_inuse` -/
def sfsBlockInuse (ino : ℕ) : SfsProg Bool := do
  let s ← Prog.get
  if ino ≠ 0 ∧ ino < s.blocks then do
    let free ← onFreemap (bitmapTest ino)
    pure (!free)
  else
    Prog.stop .inuseRange

/-- Source: `kern/fs/sfs/sfs_inode.c` `sfs_block_alloc` -/
def sfsBlockAlloc : SfsProg ℕ := do
  let ino ← onFreemap bitmapAlloc
  let s ← Prog.get
  Prog.assert (0 < s.unusedBlocks) .allocUnused
  Prog.modify fun s => { s with unusedBlocks := s.unusedBlocks - 1, superDirty := true }
  let inuse ← sfsBlockInuse ino
  Prog.assert (inuse = true) .allocInuse
  sfsClearBlock ino
  pure ino

/-- Source: `kern/fs/sfs/sfs_inode.c` `sfs_block_free` -/
def sfsBlockFree (ino : ℕ) : SfsProg Unit := do
  let inuse ← sfsBlockInuse ino
  Prog.assert (inuse = true) .freeInuse
  onFreemap (bitmapFree ino)
  Prog.modify fun s => { s with unusedBlocks := s.unusedBlocks + 1, superDirty := true }

/-! ### The block map -/

/-- The label `failed_cleanup` of `sfs_bmap_get_sub_nolock`. -/
def getSubCleanup (entp ent : ℕ) (e : FsError) : SfsProg (ℕ × ℕ) := do
  if ent ≠ entp then
    sfsBlockFree ent
  Prog.throw e

/-- The part of `sfs_bmap_get_sub_nolock` that gets a new block and enters it at `offset` of the
entry block `ent`. -/
def getSubCreate (entp ent offset : ℕ) : SfsProg (ℕ × ℕ) := do
  let r ← Prog.attempt sfsBlockAlloc
  match r with
  | .error e => getSubCleanup entp ent e
  | .ok ino => do
    let r ← Prog.attempt (sfsWbuf (putU32 ino) ent offset)
    match r with
    | .error e => do
      sfsBlockFree ino
      getSubCleanup entp ent e
    | .ok () => pure (ent, ino)

/-- The entry block and the block found at `index` in it; `entp` is the entry block so far, 0 if
there is none.
Source: `kern/fs/sfs/sfs_inode.c` `sfs_bmap_get_sub_nolock` -/
def sfsBmapGetSubNolock (entp index : ℕ) (create : Bool) : SfsProg (ℕ × ℕ) := do
  Prog.assert (index < 1024) .subIndex
  if entp ≠ 0 then do
    let bytes ← sfsRbuf 4 entp (index * 4)
    if getU32 bytes ≠ 0 ∨ create = false then
      pure (entp, getU32 bytes)
    else
      getSubCreate entp entp (index * 4)
  else if create = false then
    pure (0, 0)
  else do
    let ent ← sfsBlockAlloc
    getSubCreate entp ent (index * 4)

/-- The label `out` of `sfs_bmap_get_nolock`. -/
def bmapGetOut (ino : ℕ) : SfsProg ℕ := do
  if ino ≠ 0 then do
    let inuse ← sfsBlockInuse ino
    Prog.assert (inuse = true) .getInuse
  pure ino

/-- Source: `kern/fs/sfs/sfs_inode.c` `sfs_bmap_get_nolock` -/
def sfsBmapGetNolock (sin index : ℕ) (create : Bool) : SfsProg ℕ := do
  let s ← Prog.get
  let din := s.inode sin
  if index < 12 then
    if din.direct index = 0 ∧ create = true then do
      let ino ← sfsBlockAlloc
      Prog.modify fun s => s.setInode sin fun d =>
        { d with direct := Function.update d.direct index ino, dirty := true }
      bmapGetOut ino
    else
      bmapGetOut (din.direct index)
  else if index - 12 < 1024 then do
    let (ent, ino) ← sfsBmapGetSubNolock din.indirect (index - 12) create
    if ent ≠ din.indirect then do
      Prog.assert (din.indirect = 0) .getIndirect
      Prog.modify fun s => s.setInode sin fun d => { d with indirect := ent, dirty := true }
    bmapGetOut ino
  else
    Prog.stop .getRange

/-- Source: `kern/fs/sfs/sfs_inode.c` `sfs_bmap_free_sub_nolock` -/
def sfsBmapFreeSubNolock (ent index : ℕ) : SfsProg Unit := do
  let inuse ← sfsBlockInuse ent
  Prog.assert (inuse = true ∧ index < 1024) .freeSub
  let bytes ← sfsRbuf 4 ent (index * 4)
  if getU32 bytes ≠ 0 then do
    sfsWbuf (putU32 0) ent (index * 4)
    sfsBlockFree (getU32 bytes)

/-- Source: `kern/fs/sfs/sfs_inode.c` `sfs_bmap_free_nolock` -/
def sfsBmapFreeNolock (sin index : ℕ) : SfsProg Unit := do
  let s ← Prog.get
  let din := s.inode sin
  if index < 12 then
    if din.direct index ≠ 0 then do
      sfsBlockFree (din.direct index)
      Prog.modify fun s => s.setInode sin fun d =>
        { d with direct := Function.update d.direct index 0, dirty := true }
    else
      pure ()
  else if index - 12 < 1024 then
    if din.indirect ≠ 0 then
      sfsBmapFreeSubNolock din.indirect (index - 12)
    else
      pure ()
  else
    pure ()

/-- Source: `kern/fs/sfs/sfs_inode.c` `sfs_bmap_load_nolock` -/
def sfsBmapLoadNolock (sin index : ℕ) : SfsProg ℕ := do
  let s ← Prog.get
  let din := s.inode sin
  Prog.assert (index ≤ din.blocks) .loadIndex
  let ino ← sfsBmapGetNolock sin index (decide (index = din.blocks))
  let inuse ← sfsBlockInuse ino
  Prog.assert (inuse = true) .loadInuse
  if index = din.blocks then
    Prog.modify fun s => s.setInode sin fun d => { d with blocks := d.blocks + 1 }
  pure ino

/-- Source: `kern/fs/sfs/sfs_inode.c` `sfs_bmap_truncate_nolock` -/
def sfsBmapTruncateNolock (sin : ℕ) : SfsProg Unit := do
  let s ← Prog.get
  Prog.assert ((s.inode sin).blocks ≠ 0) .truncEmpty
  sfsBmapFreeNolock sin ((s.inode sin).blocks - 1)
  Prog.modify fun s => s.setInode sin fun d => { d with blocks := d.blocks - 1, dirty := true }

/-! ### Reading and writing -/

/-- What `sfs_io_nolock` hands back: `ret`, the length it stores in `*alenp`, and the bytes it has
copied to the buffer of a read. -/
structure IoResult where
  /-- The error code, if any. -/
  ret : Option FsError
  /-- The number of bytes transferred. -/
  alen : ℕ
  /-- The bytes read. -/
  bytes : List UInt8
  deriving Repr, DecidableEq

/-- `sfs_buf_op` and `sfs_block_op`: the transfer of `size` bytes at `blkoff` of the block `ino`.
Whole blocks are written without being read first. -/
def sfsTransfer (write whole : Bool) (data : List UInt8) (ino blkoff size : ℕ) :
    SfsProg (List UInt8) := do
  if write then
    if whole then
      sfsWblock (fun k => data.getD k 0) ino
    else
      sfsWbuf data ino blkoff
    pure []
  else if whole then do
    let blk ← sfsRblock ino
    pure (blk.read 0 4096)
  else
    sfsRbuf size ino blkoff

/-- One part of the transfer, inside the block `blkno` of the file: map the block, then read or
write `size` bytes at `blkoff`. A block that cannot be mapped ends the transfer. -/
def ioStep (sin : ℕ) (write whole : Bool) (buf : List UInt8) (blkno blkoff size : ℕ)
    (r : IoResult) : SfsProg IoResult := do
  let m ← Prog.attempt (sfsBmapLoadNolock sin blkno)
  match m with
  | .error e => pure { r with ret := some e }
  | .ok ino => do
    let bytes ← sfsTransfer write whole ((buf.drop r.alen).take size) ino blkoff size
    pure { r with alen := r.alen + size, bytes := r.bytes ++ bytes }

/-- The loop over whole blocks. -/
def ioBlocks (sin : ℕ) (write : Bool) (buf : List UInt8) : ℕ → ℕ → IoResult → SfsProg IoResult
  | _, 0, r => pure r
  | blkno, nblks + 1, r => do
    let r ← ioStep sin write true buf blkno 0 4096 r
    match r.ret with
    | some _ => pure r
    | none => ioBlocks sin write buf (blkno + 1) nblks r

/-- The whole blocks and the part of the last block. -/
def ioRest (sin : ℕ) (write : Bool) (buf : List UInt8) (blkno nblks endpos : ℕ) (r : IoResult) :
    SfsProg IoResult := do
  let r ← ioBlocks sin write buf blkno nblks r
  match r.ret with
  | some _ => pure r
  | none =>
    if endpos % 4096 ≠ 0 then
      ioStep sin write false buf (blkno + nblks) 0 (endpos % 4096) r
    else
      pure r

/-- The transfer of the bytes from `offset` to `endpos`: the part of a first block that `offset`
cuts, then the rest. -/
def ioTransfer (sin : ℕ) (write : Bool) (buf : List UInt8) (offset endpos : ℕ) :
    SfsProg IoResult := do
  let blkno := offset / 4096
  let nblks := endpos / 4096 - blkno
  let blkoff := offset % 4096
  if blkoff ≠ 0 then do
    let size := if nblks ≠ 0 then 4096 - blkoff else endpos - offset
    let r ← ioStep sin write false buf blkno blkoff size ⟨none, 0, []⟩
    match r.ret with
    | some _ => pure r
    | none =>
      if nblks = 0 then
        pure r
      else
        ioRest sin write buf (blkno + 1) (nblks - 1) endpos r
  else
    ioRest sin write buf blkno nblks endpos ⟨none, 0, []⟩

/-- A value of a C expression as an `off_t`. -/
def toOff (x : ℤ) : ℤ := Int.bmod x (2 ^ 32)

/-- Source: `kern/fs/sfs/sfs_inode.c` `sfs_io_nolock` -/
def sfsIoNolock (sin : ℕ) (buf : List UInt8) (offset : ℤ) (alen : ℕ) (write : Bool) :
    SfsProg IoResult := do
  let s ← Prog.get
  let din := s.inode sin
  Prog.assert (din.type ≠ .dir) .ioDir
  let endpos := toOff (offset + alen)
  if offset < 0 ∨ offset ≥ sfsMaxFileSize ∨ offset > endpos then
    pure ⟨some .inval, 0, []⟩
  else if offset = endpos then
    pure ⟨none, 0, []⟩
  else
    let endpos := min endpos.toNat sfsMaxFileSize
    if write = false ∧ din.size ≤ offset.toNat then
      pure ⟨none, 0, []⟩
    else do
      let endpos := if write then endpos else min endpos din.size
      let r ← ioTransfer sin write buf offset.toNat endpos
      Prog.modify fun s =>
        if (s.inode sin).size < offset.toNat + r.alen then
          s.setInode sin fun d => { d with size := offset.toNat + r.alen, dirty := true }
        else s
      pure r

/-! ### Resizing -/

/-- The loop of `sfs_truncfile` that adds blocks. -/
def growBlocks (sin : ℕ) : ℕ → ℕ → SfsProg Unit
  | _, 0 => pure ()
  | nblks, n + 1 => do
    let _ ← sfsBmapLoadNolock sin nblks
    growBlocks sin (nblks + 1) n

/-- The loop of `sfs_truncfile` that removes blocks. -/
def shrinkBlocks (sin : ℕ) : ℕ → SfsProg Unit
  | 0 => pure ()
  | n + 1 => do
    sfsBmapTruncateNolock sin
    shrinkBlocks sin n

/-- Source: `kern/fs/sfs/sfs_inode.c` `sfs_truncfile` -/
def sfsTruncfile (sin : ℕ) (len : ℤ) : SfsProg Unit := do
  if len < 0 ∨ len > sfsMaxFileSize then
    Prog.throw .inval
  else do
    let s ← Prog.get
    let din := s.inode sin
    let tblks := (len.toNat + 4095) / 4096
    if din.size = len.toNat then
      Prog.assert (tblks = din.blocks) .truncSame
    else do
      if din.blocks < tblks then
        growBlocks sin din.blocks (tblks - din.blocks)
      else
        shrinkBlocks sin (din.blocks - tblks)
      let s ← Prog.get
      Prog.assert ((s.inode sin).blocks = tblks) .truncDone
      Prog.modify fun s => s.setInode sin fun d => { d with size := len.toNat, dirty := true }

/-- Source: `kern/fs/sfs/sfs_inode.c` `sfs_tryseek` -/
def sfsTryseek (sin : ℕ) (pos : ℤ) : SfsProg Unit := do
  if pos < 0 ∨ pos ≥ sfsMaxFileSize then
    Prog.throw .inval
  else do
    let s ← Prog.get
    if (s.inode sin).size < pos.toNat then
      sfsTruncfile sin pos
    else
      pure ()

end Ucore.Fs
