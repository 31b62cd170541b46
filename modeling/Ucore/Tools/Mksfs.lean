import Ucore.Fs.SfsDisk
import Ucore.Lib.CString
import Mathlib.Algebra.GroupWithZero.Nat

/-!
# Building an image

The program `tools/mksfs.c`, which makes a file system image out of a directory tree of the host.

* `Mksfs` is its state: the image file, the inodes and the blocks of block numbers that are kept in memory until
  the end. Both are named by their block number, which stands for the pointer to them.
* `appendBlock` and `addEntry` are the two functions that put blocks into files. `CacheInode.appended` and
  `CacheInode.entries` record with what they have been called; the program does not keep this.
* `HostDir` is a directory of the host in the order of `readdir`, and `openDir` the walk over it.
* `closeSfs` writes the free map, the superblock and all that is in memory. `mksfs` is the whole program.

Errors of the host (a file that cannot be opened or read, a failing write) are left out.
-/

namespace Ucore.Tools

open Ucore.Lib Ucore.Fs

/-! ### State -/

/-- An inode in memory.
Source: `tools/mksfs.c` `struct cache_inode` -/
structure CacheInode where
  size : ℕ
  type : SfsType
  nlinks : ℕ
  blocks : ℕ
  direct : ℕ → ℕ
  indirect : ℕ
  dbIndirect : ℕ
  /-- The number of the file on the host. -/
  real : ℕ
  nblks : ℕ
  /-- The block of block numbers that is written to, and the block of their numbers. -/
  l1 : Option ℕ
  l2 : Option ℕ
  /-- The block numbers that `append_block` has been called with. -/
  appended : List ℕ
  /-- The inode numbers and names that `add_entry` has been called with. -/
  entries : List (ℕ × CString)

/-- The state of the program.
Source: `tools/mksfs.c` `struct sfs_fs` -/
structure Mksfs where
  /-- The number of blocks of the image. -/
  ninos : ℕ
  nextIno : ℕ
  unusedBlocks : ℕ
  /-- The image file. -/
  img : ℕ → Block
  /-- The inodes in memory, the latest first. -/
  inos : List ℕ
  inode : ℕ → CacheInode
  /-- The blocks of block numbers in memory, the latest first, -/
  cached : List ℕ
  /-- the hash list that each of them is in, -/
  bucket : ℕ → ℕ
  /-- and their words. -/
  cache : ℕ → ℕ → ℕ
  /-- The name in the static `struct sfs_entry` of `add_entry`. -/
  entryName : ℕ → UInt8

/-- Where the program gives up: the calls of `bug` and the assertions. -/
inductive MksfsBug where
  /-- `img file is too small` -/
  | tooSmall
  /-- `out of disk space` -/
  | outOfSpace
  /-- `file is too big` -/
  | tooBig
  /-- `file name is too long` -/
  | nameTooLong
  /-- `read link failed` -/
  | readLink
  | writeBlock | updateCache | appendSize | entryType | addDir
  deriving Repr, DecidableEq

/-- Code of the program. -/
abbrev MkProg := Prog MksfsBug Empty Mksfs

/-- Change an inode. -/
def Mksfs.setInode (m : Mksfs) (f : ℕ) (g : CacheInode → CacheInode) : Mksfs :=
  { m with inode := Function.update m.inode f (g (m.inode f)) }

/-- Change a word of a block of block numbers. -/
def Mksfs.setWord (m : Mksfs) (b j ino : ℕ) : Mksfs :=
  { m with cache := Function.update m.cache b (Function.update (m.cache b) j ino) }

/-! ### Blocks and inodes in memory -/

/-- Source: `tools/mksfs.c` `hash32`, and `hash64` for the low 32 bits -/
def hash32 (val : ℕ) : ℕ := val * 0x9e370001 % 2 ^ 32 / 2 ^ 22

/-- Source: `tools/mksfs.c` `sfs_alloc_ino` -/
def sfsAllocIno : MkProg ℕ := do
  let m ← Prog.get
  if m.nextIno < m.ninos then do
    Prog.modify fun m => { m with unusedBlocks := m.unusedBlocks - 1, nextIno := m.nextIno + 1 }
    pure m.nextIno
  else
    Prog.stop .outOfSpace

/-- Source: `tools/mksfs.c` `alloc_cache_block`; the hash list is the one of the argument -/
def allocCacheBlock (ino : ℕ) : MkProg ℕ := do
  let b ← if ino ≠ 0 then pure ino else sfsAllocIno
  Prog.modify fun m =>
    { m with
      cached := b :: m.cached
      bucket := Function.update m.bucket b (hash32 ino)
      cache := Function.update m.cache b fun _ => 0 }
  pure b

/-- Source: `tools/mksfs.c` `search_cache_block` -/
def Mksfs.searchCacheBlock (m : Mksfs) (ino : ℕ) : Option ℕ :=
  m.cached.find? fun b => m.bucket b = hash32 ino ∧ b = ino

/-- Source: `tools/mksfs.c` `alloc_cache_inode` -/
def allocCacheInode (real ino : ℕ) (type : SfsType) : MkProg ℕ := do
  let f ← if ino ≠ 0 then pure ino else sfsAllocIno
  Prog.modify fun m =>
    { m with
      inos := f :: m.inos
      inode := Function.update m.inode f ⟨0, type, 0, 0, fun _ => 0, 0, 0, real, 0, none, none, [], []⟩ }
  pure f

/-- Source: `tools/mksfs.c` `search_cache_inode` -/
def Mksfs.searchCacheInode (m : Mksfs) (real : ℕ) : Option ℕ := m.inos.find? fun f => (m.inode f).real = real

/-- The first `len` bytes of `data` go to the block `ino`, and zeros behind them.
Source: `tools/mksfs.c` `write_block` -/
def writeBlock (data : ℕ → UInt8) (len ino : ℕ) : MkProg Unit := do
  let m ← Prog.get
  Prog.assert (len ≤ 4096 ∧ ino < m.ninos) .writeBlock
  Prog.modify fun m => { m with img := Function.update m.img ino fun k => if k < len then data k else 0 }

/-! ### Files -/

/-- The block of block numbers for the pointer `*inop`, when `*cbp` is the one used last. Its number is the new value
of both.
Source: `tools/mksfs.c` `update_cache` -/
def updateCache (cb : Option ℕ) (ino : ℕ) : MkProg ℕ := do
  if ino = 0 then
    allocCacheBlock 0
  else if cb = some ino then
    pure ino
  else do
    let m ← Prog.get
    Prog.assert (m.searchCacheBlock ino = some ino) .updateCache
    pure ino

/-- The end of `append_block`. -/
def appended (f size ino : ℕ) : MkProg Unit :=
  Prog.modify fun m => m.setInode f fun d =>
    { d with
      nblks := d.nblks + 1
      size := d.size + size
      blocks := d.blocks + 1
      appended := d.appended ++ [ino] }

/-- The block number goes to the indirect block. -/
def appendL1 (f size ino : ℕ) (d : CacheInode) : MkProg Unit := do
  let b ← updateCache d.l1 d.indirect
  Prog.modify fun m => (m.setInode f fun d => { d with l1 := some b, indirect := b }).setWord b (d.nblks - 12) ino
  appended f size ino

/-- The block number goes to a block whose number is in the doubly indirect block. -/
def appendL2 (f size ino : ℕ) (d : CacheInode) : MkProg Unit := do
  let b₂ ← updateCache d.l2 d.dbIndirect
  Prog.modify fun m => m.setInode f fun d => { d with l2 := some b₂, dbIndirect := b₂ }
  let m ← Prog.get
  let b₁ ← updateCache d.l1 (m.cache b₂ ((d.nblks - 1036) / 1024))
  Prog.modify fun m =>
    ((m.setInode f fun d => { d with l1 := some b₁ }).setWord b₂ ((d.nblks - 1036) / 1024) b₁).setWord b₁
      ((d.nblks - 1036) % 1024) ino
  appended f size ino

/-- `SFS_LN_NBLKS` -/
def sfsLnNblks : ℕ := 32768

/-- Source: `tools/mksfs.c` `append_block` -/
def appendBlock (f size ino : ℕ) : MkProg Unit := do
  Prog.assert (size ≤ 4096) .appendSize
  let m ← Prog.get
  let d := m.inode f
  if d.nblks ≥ sfsLnNblks then
    Prog.stop .tooBig
  else if d.nblks < 12 then do
    Prog.modify fun m => m.setInode f fun d => { d with direct := Function.update d.direct d.nblks ino }
    appended f size ino
  else if d.nblks < 1036 then
    appendL1 f size ino d
  else
    appendL2 f size ino d

/-- A new block with the first `len` bytes of `data` goes to the end of a file: the three calls that `add_entry`,
`open_file` and `open_link` make. -/
def storeBlock (f : ℕ) (data : ℕ → UInt8) (len : ℕ) : MkProg Unit := do
  let ino ← sfsAllocIno
  writeBlock data len ino
  appendBlock f len ino

/-- The bytes of `struct sfs_entry`. -/
def entryBytes (ino : ℕ) (name : ℕ → UInt8) : ℕ → UInt8 := fun k =>
  if k < 4 then (putU32 ino).getD k 0 else name (k - 4)

/-- The number of bytes that are written is the size of the name, not of the entry.
Source: `tools/mksfs.c` `add_entry` -/
def addEntry (current f : ℕ) (name : CString) : MkProg Unit := do
  let m ← Prog.get
  Prog.assert ((m.inode current).type = .dir ∧ name.strlen ≤ 255) .entryType
  Prog.modify fun m => { m with entryName := strcpy m.entryName name }
  let m ← Prog.get
  storeBlock current (entryBytes f m.entryName) 256
  Prog.modify fun m => m.setInode current fun d => { d with entries := d.entries ++ [(f, name)] }
  Prog.modify fun m => m.setInode f fun d => { d with nlinks := (d.nlinks + 1) % 65536 }

/-! ### The walk over the tree -/

/-- A name on the host: it is not empty and has no slash. -/
structure HostName extends CString where
  ne_nil : bytes ≠ []
  no_slash : 47 ∉ bytes

/-- A directory of the host, in the order of `readdir`. Files, links and directories have their number on the
host. -/
inductive HostDir where
  | nil
  | file (name : HostName) (real : ℕ) (content : List UInt8) (rest : HostDir)
  | link (name : HostName) (real : ℕ) (target : List UInt8) (rest : HostDir)
  | dir (name : HostName) (real : ℕ) (sub : HostDir) (rest : HostDir)
  /-- A pipe, a socket or a device. -/
  | other (name : HostName) (rest : HostDir)

/-- The loop of `open_file`, for what `read` returns in `fuel` turns. -/
def openFileLoop (f : ℕ) : ℕ → List UInt8 → MkProg Unit
  | 0, _ => pure ()
  | fuel + 1, content =>
    if content = [] then
      pure ()
    else do
      storeBlock f (fun k => content.getD k 0) (min 4096 content.length)
      openFileLoop f fuel (content.drop 4096)

/-- Source: `tools/mksfs.c` `open_file`; `read` returns 4096 bytes while there are as many -/
def openFile (f : ℕ) (content : List UInt8) : MkProg Unit := openFileLoop f content.length content

/-- Source: `tools/mksfs.c` `open_link` -/
def openLink (f : ℕ) (target : List UInt8) : MkProg Unit :=
  if 4096 ≤ target.length then do
    let _ ← sfsAllocIno
    Prog.stop .readLink
  else
    storeBlock f (fun k => target.getD k 0) target.length

/-- Source: `tools/mksfs.c` `add_file` -/
def addFile (current : ℕ) (name : CString) (real : ℕ) (content : List UInt8) : MkProg Unit := do
  let m ← Prog.get
  match m.searchCacheInode real with
  | some f => addEntry current f name
  | none => do
    let f ← allocCacheInode real 0 .file
    openFile f content
    addEntry current f name

/-- Source: `tools/mksfs.c` `add_link` -/
def addLink (current : ℕ) (name : CString) (real : ℕ) (target : List UInt8) : MkProg Unit := do
  let f ← allocCacheInode real 0 .link
  openLink f target
  addEntry current f name

/-- Names that start with a dot are passed over, `.` and `..` among them. -/
def HostName.hidden (name : HostName) : Prop := name.bytes.head? = some 46

instance (name : HostName) : Decidable name.hidden := inferInstanceAs (Decidable (_ = _))

/-- What `open_dir` asks of a name before it looks at the file. -/
def visible (name : HostName) (m : MkProg Unit) : MkProg Unit :=
  if name.hidden then pure ()
  else if 255 < name.strlen then Prog.stop .nameTooLong
  else m

/-- The names of the two entries that every directory has first. -/
def dot : CString := ⟨[46], by simp⟩
@[inherit_doc dot] def dotdot : CString := ⟨[46, 46], by simp⟩

/-- The start of `open_dir`. -/
def addDots (current parent : ℕ) : MkProg Unit := do
  addEntry current current dot
  addEntry current parent dotdot

/-- The loop of `open_dir` over the entries of a directory, with `add_dir` and `open_dir` for its directories.
Source: `tools/mksfs.c` `open_dir`, `add_dir` -/
def readEntries (current : ℕ) : HostDir → MkProg Unit
  | .nil => pure ()
  | .file name real content rest => do
    visible name (addFile current name.toCString real content)
    readEntries current rest
  | .link name real target rest => do
    visible name (addLink current name.toCString real target)
    readEntries current rest
  | .dir name real sub rest => do
    visible name do
      let m ← Prog.get
      Prog.assert (m.searchCacheInode real = none) .addDir
      let f ← allocCacheInode real 0 .dir
      addDots f current
      readEntries f sub
      addEntry current f name.toCString
    readEntries current rest
  | .other name rest => do
    visible name (pure ())
    readEntries current rest

/-- Source: `tools/mksfs.c` `open_dir` -/
def openDir (current parent : ℕ) (t : HostDir) : MkProg Unit := do
  addDots current parent
  readEntries current t

/-! ### The end -/

/-- The bits of a block of the free map, from `start` up to `stop`. -/
def setBits (start stop : ℕ) : ℕ → BitVec 32 :=
  (List.range' start (stop - start)).foldl
    (fun data j => Function.update data (j / 32) (data (j / 32) ||| bitMask (j % 32))) fun _ => 0

/-- The block `q` of the free map. -/
def Mksfs.freemapBlock (m : Mksfs) (q : ℕ) : Block :=
  let i := q * 32768
  if i + 32768 > m.nextIno then
    let start := if i < m.nextIno then m.nextIno - i else 0
    let stop := if i + 32768 > m.ninos then m.ninos - i else 32768
    wordsBlock fun w => (setBits start stop w).toNat
  else zeroBlock

/-- The words of `struct inode`, one more than the kernel has. -/
def CacheInode.words (d : CacheInode) : ℕ → ℕ
  | 0 => d.size
  | 1 => d.type.code + 65536 * d.nlinks
  | 2 => d.blocks
  | i + 3 => if i < 12 then d.direct i else if i = 12 then d.indirect else d.dbIndirect

/-- `simple file system`; the bytes behind it are not initialised, and 0 here. -/
def sfsInfo : List UInt8 :=
  [115, 105, 109, 112, 108, 101, 32, 102, 105, 108, 101, 32, 115, 121, 115, 116, 101, 109]

/-- Write a list of blocks: a number, the bytes and how many of them. -/
def writeBlocks : List (ℕ × Block × ℕ) → MkProg Unit
  | [] => pure ()
  | (ino, data, len) :: rest => do
    writeBlock data len ino
    writeBlocks rest

/-- All that is written at the end, in order: the free map, the superblock, and for each hash list the blocks and the
inodes in it. -/
def Mksfs.flushList (m : Mksfs) : List (ℕ × Block × ℕ) :=
  (List.range ((m.ninos + 32767) / 32768)).map (fun q => (2 + q, m.freemapBlock q, 4096)) ++
    [(0, superBlock m.ninos m.unusedBlocks sfsInfo, 44)] ++
    (List.range 1024).flatMap fun i =>
      (m.cached.filter fun b => m.bucket b = i).map (fun b => (b, wordsBlock (m.cache b), 4096)) ++
        (m.inos.filter fun f => hash32 (m.inode f).real = i).map fun f => (f, wordsBlock (m.inode f).words, 68)

/-- Source: `tools/mksfs.c` `close_sfs` -/
def closeSfs : MkProg Unit := do
  let m ← Prog.get
  writeBlocks m.flushList

/-- `SFS_MAX_NBLKS` -/
def sfsMaxNblks : ℕ := 524288

/-- The state that `create_sfs` starts from, for an image file of `nblocks` blocks. -/
def Mksfs.init (img : ℕ → Block) (nblocks : ℕ) : Mksfs :=
  let ninos := min nblocks sfsMaxNblks
  let nextIno := 2 + (ninos + 32767) / 32768
  { ninos := ninos
    nextIno := nextIno
    unusedBlocks := ninos - nextIno
    img := img
    inos := []
    inode := fun _ => ⟨0, .inval, 0, 0, fun _ => 0, 0, 0, 0, 0, none, none, [], []⟩
    cached := []
    bucket := fun _ => 0
    cache := fun _ _ => 0
    entryName := fun _ => 0 }

/-- Source: `tools/mksfs.c` `create_sfs` -/
def createSfs : MkProg Unit := do
  let m ← Prog.get
  if m.nextIno ≥ m.ninos then
    Prog.stop .tooSmall
  else do
    let _ ← allocCacheInode 0 1 .dir

/-- Source: `tools/mksfs.c` `main`, `create_img` -/
def mksfs (t : HostDir) : MkProg Unit := do
  createSfs
  openDir 1 1 t
  closeSfs

end Ucore.Tools
