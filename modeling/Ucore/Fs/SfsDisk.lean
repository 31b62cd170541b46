import Ucore.Fs.SfsBlocks

/-!
# The disk format, and what writes it

Blocks are read as little-endian words: `Block.word`, and `wordsBlock f` is the block with the words `f`.

* `SfsInode.words`, `superBlock` and `Bitmap.block` are `struct sfs_disk_inode`, `struct sfs_super` and the data of
  the free map. `diskInode` and `diskBitmap` read them back.
* `sfsFsync` and `sfsSync` are `sfs_fsync` and `sfs_sync`; `sfsDoMount` is `sfs_do_mount`.

The number of links of an inode and the text of the superblock are not changed by any modelled operation.
They are the fields of `SfsConst`.
-/

namespace Ucore.Fs

open Ucore.Lib

/-! ### Words of a block -/

/-- The word `j` of a block. -/
def Block.word (blk : Block) (j : ℕ) : ℕ := getU32 (blk.read (j * 4) 4)

/-- The block with the words `f`. -/
def wordsBlock (f : ℕ → ℕ) : Block := fun k => UInt8.ofNat (f (k / 4) / 256 ^ (k % 4))

theorem Sfs.entry_eq_word (s : Sfs) (ent j : ℕ) : s.entry ent j = (s.disk ent).word j := rfl

theorem Block.word_eq (blk : Block) (j : ℕ) :
    blk.word j = (blk (j * 4)).toNat + 256 * ((blk (j * 4 + 1)).toNat + 256 * ((blk (j * 4 + 2)).toNat +
      256 * (blk (j * 4 + 3)).toNat)) := rfl

theorem Block.word_lt (blk : Block) (j : ℕ) : blk.word j < 2 ^ 32 := by
  rw [Block.word_eq]
  have h₀ := (blk (j * 4)).toNat_lt
  have h₁ := (blk (j * 4 + 1)).toNat_lt
  have h₂ := (blk (j * 4 + 2)).toNat_lt
  have h₃ := (blk (j * 4 + 3)).toNat_lt
  omega

theorem word_wordsBlock (f : ℕ → ℕ) (j : ℕ) : (wordsBlock f).word j = f j % 2 ^ 32 := by
  have hbyte : ∀ r < 4, wordsBlock f (j * 4 + r) = UInt8.ofNat (f j / 256 ^ r) := by
    intro r hr
    unfold wordsBlock
    rw [show (j * 4 + r) / 4 = j by omega, show (j * 4 + r) % 4 = r by omega]
  have h₀ := hbyte 0 (by omega)
  rw [Nat.add_zero] at h₀
  rw [Block.word_eq, h₀, hbyte 1 (by omega), hbyte 2 (by omega), hbyte 3 (by omega)]
  simp only [UInt8.toNat_ofNat']
  omega

/-- Words depend on the bytes they are made of. -/
theorem Block.word_congr {blk blk' : Block} {n j : ℕ} (h : blk'.read 0 (4 * n) = blk.read 0 (4 * n)) (hj : j < n) :
    blk'.word j = blk.word j := by
  have hbyte : ∀ k < 4 * n, blk' k = blk k := by
    intro k hk
    rw [Block.read, Block.read, List.map_inj_left] at h
    exact h k (by rw [List.mem_range'_1]; omega)
  rw [Block.word_eq, Block.word_eq, hbyte _ (by omega), hbyte _ (by omega), hbyte _ (by omega),
    hbyte _ (by omega)]

/-! ### The structures on disk -/

/-- What the modelled operations do not change: the number of links of each inode, and the text of the
superblock. -/
structure SfsConst where
  nlinks : ℕ → ℕ
  /-- The bytes of `info`. -/
  info : List UInt8

/-- The file types of `sfs.h`. -/
def SfsType.code : SfsType → ℕ
  | .inval => 0
  | .file => 1
  | .dir => 2
  | .link => 3

/-- The type with a given code. -/
def SfsType.ofCode : ℕ → SfsType
  | 1 => .file
  | 2 => .dir
  | 3 => .link
  | _ => .inval

theorem SfsType.ofCode_code (t : SfsType) : SfsType.ofCode t.code = t := by
  cases t <;> rfl

/-- The words of `struct sfs_disk_inode`. The type and the number of links share a word.
Source: `kern/fs/sfs/sfs.h` `struct sfs_disk_inode` -/
def SfsInode.words (d : SfsInode) (nlinks : ℕ) : ℕ → ℕ
  | 0 => d.size
  | 1 => d.type.code + 65536 * nlinks
  | 2 => d.blocks
  | i + 3 => if i < 12 then d.direct i else d.indirect

/-- The 64 bytes of `struct sfs_disk_inode`. -/
def SfsInode.bytes (d : SfsInode) (nlinks : ℕ) : List UInt8 := (wordsBlock (d.words nlinks)).read 0 64

/-- The inode in a block. -/
def diskInode (blk : Block) : SfsInode where
  size := blk.word 0
  type := .ofCode (blk.word 1 % 65536)
  blocks := blk.word 2
  direct i := blk.word (i + 3)
  indirect := blk.word 15
  dirty := false

theorem type_diskInode (blk : Block) : (diskInode blk).type = .ofCode (blk.word 1 % 65536) := rfl

/-- The number of links of the inode in a block. -/
def diskNlinks (blk : Block) : ℕ := blk.word 1 / 65536

/-- `SFS_MAGIC` -/
def sfsMagic : ℕ := 0x2f8dbe2a

/-- The first block of the disk: `struct sfs_super`, and zeros.
Source: `kern/fs/sfs/sfs.h` `struct sfs_super`, `kern/fs/sfs/sfs_io.c` `sfs_sync_super` -/
def superBlock (blocks unusedBlocks : ℕ) (info : List UInt8) : Block := fun k =>
  if k < 12 then
    wordsBlock (fun j => if j = 0 then sfsMagic else if j = 1 then blocks else unusedBlocks) k
  else if k < 44 then info.getD (k - 12) 0
  else 0

/-- `sfs_freemap_blocks` -/
def freemapBlocks (blocks : ℕ) : ℕ := (blocks + 32767) / 32768

/-- The block `j` of the data of a free map. -/
def Bitmap.block (b : Bitmap) (j : ℕ) : Block := wordsBlock fun w => (b.map.getD (1024 * j + w) 0).toNat

/-- The free map that is read from the blocks from 2 on.
Source: `kern/fs/sfs/sfs_fs.c` `sfs_init_freemap` -/
def diskBitmap (disk : ℕ → Block) (nbits : ℕ) : Bitmap where
  nbits := nbits
  map := (List.range ((nbits + 31) / 32)).map fun w =>
    BitVec.ofNat 32 ((disk (2 + w / 1024)).word (w % 1024))
  length_eq := by rw [List.length_map, List.length_range]

section roundtrip

variable {d : SfsInode} {nlinks : ℕ} {blk : Block}

theorem word_of_bytes (h : blk.read 0 64 = d.bytes nlinks) {j : ℕ} (hj : j < 16) :
    blk.word j = d.words nlinks j % 2 ^ 32 := by
  rw [← word_wordsBlock, Block.word_congr (n := 16) h hj]

theorem diskInode_direct (h : blk.read 0 64 = d.bytes nlinks) {i : ℕ} (hi : i < 12) (hlt : d.direct i < 2 ^ 32) :
    (diskInode blk).direct i = d.direct i := by
  show blk.word (i + 3) = _
  rw [word_of_bytes h (by omega), SfsInode.words, if_pos hi, Nat.mod_eq_of_lt hlt]

theorem diskInode_indirect (h : blk.read 0 64 = d.bytes nlinks) (hlt : d.indirect < 2 ^ 32) :
    (diskInode blk).indirect = d.indirect := by
  show blk.word 15 = _
  rw [word_of_bytes h (by omega)]
  exact Nat.mod_eq_of_lt hlt

theorem superBlock_word {blocks unused : ℕ} {info : List UInt8} {j : ℕ} (hj : j < 3) :
    (superBlock blocks unused info).word j =
      (if j = 0 then sfsMagic else if j = 1 then blocks else unused) % 2 ^ 32 := by
  rw [← word_wordsBlock fun j => if j = 0 then sfsMagic else if j = 1 then blocks else unused]
  have hbyte : ∀ k < 12, superBlock blocks unused info k =
      wordsBlock (fun j => if j = 0 then sfsMagic else if j = 1 then blocks else unused) k := fun k hk =>
    if_pos hk
  rw [Block.word_eq, Block.word_eq, hbyte _ (by omega), hbyte _ (by omega), hbyte _ (by omega),
    hbyte _ (by omega)]

/-- A free map is read back from the blocks it was written to. -/
theorem diskBitmap_eq {disk : ℕ → Block} {b : Bitmap} {n : ℕ} (hnbits : b.nbits = n * 32768)
    (h : ∀ j < n, disk (2 + j) = b.block j) : diskBitmap disk b.nbits = b := by
  have hlen := b.length_eq
  have hmap : (List.range ((b.nbits + 31) / 32)).map
      (fun w => BitVec.ofNat 32 ((disk (2 + w / 1024)).word (w % 1024))) = b.map := by
    apply List.ext_getElem
    · rw [List.length_map, List.length_range, hlen]
    · intro w h₁ h₂
      rw [List.getElem_map, List.getElem_range, h (w / 1024) (by omega), Bitmap.block, word_wordsBlock,
        show 1024 * (w / 1024) + w % 1024 = w by omega, List.getD_eq_getElem _ _ h₂,
        Nat.mod_eq_of_lt (b.map[w]).isLt, BitVec.ofNat_toNat, BitVec.setWidth_eq]
  cases b
  simp only [diskBitmap] at hmap ⊢
  congr

end roundtrip

/-! ### Writing inodes and the superblock -/

/-- Source: `kern/fs/sfs/sfs_inode.c` `sfs_fsync` -/
def sfsFsync (c : SfsConst) (ino : ℕ) : SfsProg Unit := do
  let s ← Prog.get
  if (s.inode ino).dirty = true then do
    Prog.modify fun s => s.setInode ino fun d => { d with dirty := false }
    let r ← Prog.attempt (sfsWbuf ((s.inode ino).bytes (c.nlinks ino)) ino 0)
    match r with
    | .ok () => pure ()
    | .error e => do
      Prog.modify fun s => s.setInode ino fun d => { d with dirty := true }
      Prog.throw e
  else
    pure ()

/-- The loop of `sfs_sync` over the inodes; an error is passed over. -/
def syncInodes (c : SfsConst) : List ℕ → SfsProg Unit
  | [] => pure ()
  | ino :: inos => do
    let _ ← Prog.attempt (sfsFsync c ino)
    syncInodes c inos

/-- Source: `kern/fs/sfs/sfs_io.c` `sfs_sync_super`; block 0 is written without the check for 0 -/
def sfsSyncSuper (c : SfsConst) : SfsProg Unit := do
  let s ← Prog.get
  Prog.assert (0 < s.blocks) .rwblock
  Prog.modify fun s => s.writeBlock 0 (superBlock s.blocks s.unusedBlocks c.info)

/-- The loop of `sfs_wblock` over the blocks `js` of the free map. -/
def syncFreemapLoop : List ℕ → SfsProg Unit
  | [] => pure ()
  | j :: js => do
    let s ← Prog.get
    sfsWblock (s.freemap.block j) (2 + j)
    syncFreemapLoop js

/-- Source: `kern/fs/sfs/sfs_io.c` `sfs_sync_freemap` -/
def sfsSyncFreemap : SfsProg Unit := do
  let s ← Prog.get
  syncFreemapLoop (List.range (freemapBlocks s.blocks))

/-- `super_dirty` is set again if a write fails. -/
def orDirty (m : SfsProg Unit) : SfsProg Unit := do
  let r ← Prog.attempt m
  match r with
  | .ok () => pure ()
  | .error e => do
    Prog.modify fun s => { s with superDirty := true }
    Prog.throw e

/-- Source: `kern/fs/sfs/sfs_fs.c` `sfs_sync` -/
def sfsSync (c : SfsConst) : SfsProg Unit := do
  let s ← Prog.get
  syncInodes c s.inos
  let s ← Prog.get
  if s.superDirty = true then do
    Prog.modify fun s => { s with superDirty := false }
    orDirty (sfsSyncSuper c)
    orDirty sfsSyncFreemap
  else
    pure ()

/-- Mounting a disk with `dBlocks` blocks on which the inodes `inos` are. Memory is there.
Source: `kern/fs/sfs/sfs_fs.c` `sfs_do_mount` -/
def sfsDoMount (disk : ℕ → Block) (dBlocks : ℕ) (inos : List ℕ) : Outcome SfsPanic FsError Unit Sfs :=
  if (disk 0).word 0 ≠ sfsMagic then .error .inval ()
  else if (disk 0).word 1 > dBlocks then .error .inval ()
  else
    let freemap := diskBitmap disk (freemapBlocks ((disk 0).word 1) * 32768)
    if freemap.count ≠ (disk 0).word 2 then .panic .mountUnused
    else .ok
      { blocks := (disk 0).word 1
        unusedBlocks := (disk 0).word 2
        superDirty := false
        freemap := freemap
        disk := disk
        inos := inos
        inode := fun ino => diskInode (disk ino)
        blocks_lt := Block.word_lt _ _ } ()

end Ucore.Fs
