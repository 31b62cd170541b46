import Ucore.Fs.KernelVfs
import Ucore.Fs.ReadOnly
import Ucore.Lib.Balance
import Mathlib.Data.BitVec

/-!
# Opening, with the counts of the inodes

`vfs_open` and `file_open` with everything they take and release on the way: the references and open counts of the
inodes in memory, the inodes that are made by a lookup and killed by the last release, and the item of the table of open
files. The functions of `Ucore.Fs.VopDispatch` leave this out.

* `OpenState` has the inodes in memory. An inode that is not there has no counts (`OpenState.counts` is 0 for it).
* Every operation goes through `vopOp`, with the table of the inode and the assertions of `inode_check`.
* `inodeRefDec` and `inodeOpenDec` call `vop_reclaim` and `vop_close` at 0, and pass over what these return.
* `vfsLookup`, `vfsOpen` and `fileOpen` are the functions with the error exits. The functions of the file systems do not
  see the table of open files, which is in `FdState`.

A call runs to its end. Memory may run out at any call of `kmalloc`: `OpenState.kmallocs` says which of the next ones
succeed.
-/

namespace Ucore.Fs.Counted

open Ucore.Lib

/-! ### Inodes in memory -/

/-- An inode in memory. `ref_count`, `open_count` and `reclaim_count` are `int`.
Source: `kern/fs/vfs/inode.h` `struct inode`, `kern/fs/sfs/sfs.h` `struct sfs_inode` -/
structure MemInode where
  ops : InodeOps
  refCount : BitVec 32
  openCount : BitVec 32
  reclaimCount : BitVec 32
  deriving DecidableEq

/-- The file systems, the inodes in memory and the answers of the next calls of `kmalloc`; it succeeds when the list has
ended. -/
structure OpenState where
  kernel : KernelFs
  inode : VNode → Option MemInode
  kmallocs : List Bool

/-- The assertions on the way of a call: the inode is in memory and the operation in its table, the counts, the root, the
items of the table of open files, and those of the functions below. -/
inductive OpenPanic where
  | dangling | vop (op : Vop) | inodeCheck | refDec | openDec | reclaimCount | inodeKill | loadRoot | searchName
  | lookupPath | fdArray
  | inside (p : SfsPanic)
  deriving Repr, DecidableEq

/-- Code of a call. -/
abbrev OpenProg := Prog OpenPanic FsError OpenState

/-- Run an operation of the file systems. -/
def onKernel {α : Type} (m : KernelProg α) : OpenProg α :=
  Prog.zoom OpenState.kernel (fun k s => { s with kernel := k }) .inside m

/-- Run an operation of the simple file system. -/
def onSfs {α : Type} (m : SfsProg α) : OpenProg α := onKernel (onDisk m)

/-- The functions of the simple file system are in the tables of its own inodes. -/
def onFile {α : Type} (node : VNode) (f : ℕ → SfsProg α) : OpenProg α :=
  match node with
  | .sfs ino => onSfs (f ino)
  | .device _ => Prog.throw .unimp

/-- Change an inode in memory, or make or remove it. -/
def OpenState.setInode (s : OpenState) (node : VNode) (i : Option MemInode) : OpenState :=
  { s with inode := Function.update s.inode node i }

/-- `ref_count` and `open_count`, by inode. -/
def OpenState.counts (s : OpenState) (node : VNode) : BitVec 32 × BitVec 32 :=
  match s.inode node with
  | some i => (i.refCount, i.openCount)
  | none => 0

/-- Source: `kern/mm/kmalloc.c` `kmalloc` -/
def kmalloc : OpenProg Unit := do
  let s ← Prog.get
  match s.kmallocs with
  | [] => pure ()
  | there :: rest => do
    Prog.modify fun s => { s with kmallocs := rest }
    if there = true then pure () else Prog.throw .noMem

/-- An inode that is used, and must be in memory. -/
def useInode (node : VNode) : OpenProg MemInode := do
  let s ← Prog.get
  match s.inode node with
  | some i => pure i
  | none => Prog.stop .dangling

/-- `MAX_INODE_COUNT` -/
def maxInodeCount : ℤ := 0x10000

/-- Source: `kern/fs/vfs/inode.c` `inode_check` -/
def inodeCheck (node : VNode) : OpenProg Unit := do
  let i ← useInode node
  Prog.assert (i.refCount.toInt ≥ i.openCount.toInt ∧ i.openCount.toInt ≥ 0) .inodeCheck
  Prog.assert (i.refCount.toInt < maxInodeCount ∧ i.openCount.toInt < maxInodeCount) .inodeCheck

/-- The function `f` of the table is called.
Source: `kern/fs/vfs/inode.h` `__vop_op` -/
def vopOp {α : Type} (op : Vop) (node : VNode) (f : InodeOps → OpenProg α) : OpenProg α := do
  let i ← useInode node
  Prog.assert (i.ops.has op = true) (.vop op)
  inodeCheck node
  f i.ops

/-- Source: `kern/fs/vfs/inode.c` `inode_ref_inc` -/
def inodeRefInc (node : VNode) : OpenProg (BitVec 32) := do
  let i ← useInode node
  Prog.modify fun s => s.setInode node (some { i with refCount := i.refCount + 1 })
  pure (i.refCount + 1)

/-- Source: `kern/fs/vfs/inode.c` `inode_open_inc` -/
def inodeOpenInc (node : VNode) : OpenProg Unit := do
  let i ← useInode node
  Prog.modify fun s => s.setInode node (some { i with openCount := i.openCount + 1 })

/-- Source: `kern/fs/vfs/inode.c` `inode_kill` -/
def inodeKill (node : VNode) : OpenProg Unit := do
  let i ← useInode node
  Prog.assert (i.refCount = 0) .inodeKill
  Prog.assert (i.openCount = 0) .inodeKill
  Prog.modify fun s => s.setInode node none

section release

variable (env : KernelEnv)

/-- `vop_fsync` -/
def vopFsync (node : VNode) : OpenProg Unit :=
  vopOp .vopFsync node fun _ => onFile node (sfsFsync env.const)

/-- `vop_truncate` -/
def vopTruncate (node : VNode) (len : ℤ) : OpenProg Unit :=
  vopOp .vopTruncate node fun _ => onFile node fun ino => sfsTruncfile ino len

/-- `vop_close`: `sfs_close` or `dev_close`. The functions behind `dop_close` return 0. -/
def vopClose (node : VNode) : OpenProg Unit :=
  vopOp .vopClose node fun ops => if ops = .devops then pure () else vopFsync env node

/-- The inode leaves memory: the next lookup finds what is on disk.
Source: `kern/fs/sfs/sfs_inode.c` `sfs_reclaim` -/
def sfsReclaim (ino : ℕ) : OpenProg Unit := do
  let i ← useInode (.sfs ino)
  Prog.assert (i.reclaimCount.toInt > 0) .reclaimCount
  Prog.modify fun s => s.setInode (.sfs ino) (some { i with reclaimCount := i.reclaimCount - 1 })
  if i.reclaimCount - 1 ≠ 0 ∨ i.refCount ≠ 0 then
    Prog.throw .busy
  else do
    (if env.const.nlinks ino = 0 then vopTruncate (.sfs ino) 0 else pure () : OpenProg Unit)
    let s ← Prog.get
    (if (s.kernel.sfs.inode ino).dirty = true then vopFsync env (.sfs ino) else pure () : OpenProg Unit)
    onSfs (reclaimBlocks env.const ino)
    onSfs (Prog.modify fun sfs => sfs.forget ino)
    inodeKill (.sfs ino)

/-- `vop_reclaim` -/
def vopReclaim (node : VNode) : OpenProg Unit :=
  vopOp .vopReclaim node fun _ => match node with
    | .sfs ino => sfsReclaim env ino
    | .device _ => Prog.throw .unimp

/-- Source: `kern/fs/vfs/inode.c` `inode_ref_dec` -/
def inodeRefDec (node : VNode) : OpenProg Unit := do
  let i ← useInode node
  Prog.assert (i.refCount.toInt > 0) .refDec
  Prog.modify fun s => s.setInode node (some { i with refCount := i.refCount - 1 })
  if i.refCount - 1 = 0 then do
    let _ ← Prog.attempt (vopReclaim env node)
    pure ()
  else
    pure ()

/-- Source: `kern/fs/vfs/inode.c` `inode_open_dec` -/
def inodeOpenDec (node : VNode) : OpenProg Unit := do
  let i ← useInode node
  Prog.assert (i.openCount.toInt > 0) .openDec
  Prog.modify fun s => s.setInode node (some { i with openCount := i.openCount - 1 })
  if i.openCount - 1 = 0 then do
    let _ ← Prog.attempt (vopClose env node)
    pure ()
  else
    pure ()

end release

/-! ### Lookups -/

/-- The inode is read from disk: what `sfs_load_inode` needs to know of it.
Source: `kern/fs/sfs/sfs_inode.c` `sfs_load_inode` -/
def readDiskType (ino : ℕ) : SfsProg SfsType := do
  let inuse ← sfsBlockInuse ino
  Prog.assert (inuse = true) .inodeInuse
  let bytes ← sfsRbuf 64 ino 0
  let din : Block := fun k => bytes.getD k 0
  Prog.assert (diskNlinks din ≠ 0) .inodeNlinks
  pure (diskInode din).type

/-- The new inode has the one reference of `inode_init`.
Source: `kern/fs/sfs/sfs_inode.c` `sfs_create_inode`, `kern/fs/vfs/inode.c` `inode_init` -/
def sfsCreateInode (type : SfsType) (ino : ℕ) : OpenProg Unit := do
  kmalloc
  onSfs (sfsGetOps type)
  Prog.modify fun s => s.setInode (.sfs ino) (some ⟨if type = .dir then .dirops else .fileops, 1, 0, 1⟩)

/-- Source: `kern/fs/sfs/sfs_inode.c` `sfs_load_inode`, `lookup_sfs_nolock` -/
def sfsLoadInode (ino : ℕ) : OpenProg VNode := do
  let s ← Prog.get
  match s.inode (.sfs ino) with
  | some i => do
    let refs ← inodeRefInc (.sfs ino)
    (if refs = 1 then
      Prog.modify fun s =>
        s.setInode (.sfs ino) (some { i with refCount := i.refCount + 1, reclaimCount := i.reclaimCount + 1 })
    else pure () : OpenProg Unit)
    pure (.sfs ino)
  | none => do
    kmalloc
    let type ← onSfs (readDiskType ino)
    sfsCreateInode type ino
    pure (.sfs ino)

/-- Source: `kern/fs/sfs/sfs_fs.c` `sfs_get_root` -/
def sfsGetRoot : OpenProg VNode := do
  match ← Prog.attempt (sfsLoadInode 1) with
  | .ok node => pure node
  | .error _ => Prog.stop .loadRoot

/-- Source: `kern/fs/vfs/vfspath.c` `vfs_get_curdir` -/
def vfsGetCurdir (env : KernelEnv) : OpenProg VNode :=
  match env.cwd with
  | some d => do
    let _ ← inodeRefInc (.sfs d)
    pure (.sfs d)
  | none => Prog.throw .noEnt

/-- Source: `kern/fs/vfs/vfs.c` `vfs_get_bootfs` -/
def vfsGetBootfs (env : KernelEnv) : OpenProg VNode :=
  match env.bootfs with
  | some d => do
    let _ ← inodeRefInc (.sfs d)
    pure (.sfs d)
  | none => Prog.throw .noEnt

/-- Source: `kern/fs/vfs/vfsdev.c` `vfs_get_root` -/
def vfsGetRoot (devname : CString) : OpenProg VNode :=
  match vdevList.find? fun d => d.name = devname with
  | none => Prog.throw .noDev
  | some d =>
    if d.fs = true then sfsGetRoot
    else if d.mountable = true then Prog.throw .naDev
    else do
      let _ ← inodeRefInc (.device devname)
      pure (.device devname)

section lookup

variable (env : KernelEnv)

/-- The node that a lookup starts from, with a reference. -/
def startNode : PathStart → OpenProg VNode
  | .curdir => vfsGetCurdir env
  | .bootfs => vfsGetBootfs env
  | .curfs => do
    let node ← vfsGetCurdir env
    let root ← sfsGetRoot
    inodeRefDec env node
    pure root
  | .device name => vfsGetRoot name

/-- Source: `kern/fs/vfs/vfslookup.c` `get_device` -/
def getDevice (path : CString) : OpenProg (VNode × CString) := do
  let node ← startNode env (splitPath path).1
  pure (node, (splitPath path).2)

/-- Source: `kern/fs/sfs/sfs_inode.c` `sfs_lookup_once`, `sfs_dirent_search_nolock` -/
def sfsLookupOnce (d : ℕ) (name : CString) : OpenProg VNode := do
  Prog.assert (name.strlen ≤ 255) .searchName
  kmalloc
  let found ← onSfs (sfsDirentSearchNolock d name)
  sfsLoadInode found.2

/-- Source: `kern/fs/sfs/sfs_inode.c` `sfs_lookup` -/
def sfsLookup (d : ℕ) (path : CString) : OpenProg VNode := do
  Prog.assert (path.bytes ≠ [] ∧ path.bytes.head? ≠ some 47) .lookupPath
  let _ ← inodeRefInc (.sfs d)
  let s ← Prog.get
  if (s.kernel.sfs.inode d).type ≠ .dir then do
    inodeRefDec env (.sfs d)
    Prog.throw .notDir
  else do
    let r ← Prog.attempt (sfsLookupOnce d path)
    inodeRefDec env (.sfs d)
    Prog.ofExcept r

/-- Source: `kern/fs/devs/dev.c` `dev_lookup` -/
def devLookup (name path : CString) : OpenProg VNode :=
  if path.bytes ≠ [] then Prog.throw .noEnt
  else do
    let _ ← inodeRefInc (.device name)
    pure (.device name)

/-- `vop_lookup` -/
def vopLookup (node : VNode) (path : CString) : OpenProg VNode :=
  vopOp .vopLookup node fun _ => match node with
    | .sfs d => sfsLookup env d path
    | .device name => devLookup name path

/-- Source: `kern/fs/vfs/vfslookup.c` `vfs_lookup` -/
def vfsLookup (path : CString) : OpenProg VNode := do
  let (node, subpath) ← getDevice env path
  if subpath.bytes ≠ [] then do
    let r ← Prog.attempt (vopLookup env node subpath)
    inodeRefDec env node
    Prog.ofExcept r
  else
    pure node

end lookup

/-! ### Opening -/

section opening

variable (env : KernelEnv)

/-- Source: `kern/fs/devs/dev.c` `dev_open` -/
def devOpen (node : VNode) (flags : BitVec 32) : OpenProg Unit :=
  if flags &&& (oCreat ||| oTrunc ||| oExcl ||| oAppend) ≠ 0 then Prog.throw .inval
  else match node with
    | .device name => onKernel (devDopOpen name flags)
    | .sfs _ => pure ()

/-- `vop_open`; `sfs_openfile` accepts all flags. -/
def vopOpen (node : VNode) (flags : BitVec 32) : OpenProg Unit :=
  vopOp .vopOpen node fun ops => match ops with
    | .dirops => sfsOpendir flags
    | .fileops => pure ()
    | .devops => devOpen node flags

/-- What is done when the path has been found, or not. No table has `vop_create`. -/
def vfsOpenNode (path : CString) (flags : BitVec 32) : Except FsError VNode → OpenProg VNode
  | .error e =>
    if e = .noEnt ∧ flags &&& oCreat ≠ 0 then do
      let (dir, _) ← getDevice env (pathLeft path)
      vopOp .vopCreate dir fun _ => Prog.throw .unimp
    else
      Prog.throw e
  | .ok node => if flags &&& oExcl ≠ 0 ∧ flags &&& oCreat ≠ 0 then Prog.throw .fileExists else pure node

/-- The rest of `vfs_open`, for the node that has been found. -/
def vfsOpenFound (node : VNode) (flags : BitVec 32) : OpenProg VNode := do
  match ← Prog.attempt (vopOpen node flags) with
  | .error e => do
    inodeRefDec env node
    Prog.throw e
  | .ok () => do
    inodeOpenInc node
    if flags &&& oTrunc ≠ 0 ∨ flags &&& oCreat ≠ 0 then do
      match ← Prog.attempt (vopTruncate node 0) with
      | .error e => do
        inodeOpenDec env node
        inodeRefDec env node
        Prog.throw e
      | .ok () => pure node
    else
      pure node

/-- Source: `kern/fs/vfs/vfsfile.c` `vfs_open` -/
def vfsOpen (path : CString) (flags : BitVec 32) : OpenProg VNode :=
  match accmode flags with
  | none => Prog.throw .inval
  | some (_, canWrite) =>
    if flags &&& oTrunc ≠ 0 ∧ canWrite = false then
      Prog.throw .inval
    else do
      let r ← Prog.attempt (vfsLookup env path)
      let node ← vfsOpenNode env path flags r
      vfsOpenFound env node flags

/-- Source: `kern/fs/vfs/vfsfile.c` `vfs_close` -/
def vfsClose (node : VNode) : OpenProg Unit := do
  inodeOpenDec env node
  inodeRefDec env node

/-- `vop_fstat`: `sfs_fstat` and `dev_fstat`, which call `vop_gettype`. -/
def vopFstat (node : VNode) : OpenProg NodeStat :=
  vopOp .vopFstat node fun ops => do
    vopOp .vopGettype node fun _ => pure ()
    let s ← Prog.get
    match node with
    | .sfs ino => pure (sfsFstat env ops ino s.kernel.sfs)
    | .device name => pure (devFstat env name)

/-- Where a new file is positioned: 0, or with `O_APPEND` its end. -/
def openPos (node : VNode) (flags : BitVec 32) : OpenProg ℤ :=
  if flags &&& oAppend ≠ 0 then do
    let stat ← vopFstat env node
    pure (toOff stat.size)
  else
    pure 0

end opening

/-! ### The table of open files -/

/-- The values of `status` in `struct file`. -/
inductive FdStatus where
  | none | init | opened | closed
  deriving Repr, DecidableEq

/-- An item of the table of open files.
Source: `kern/fs/file.h` `struct file` -/
structure FdItem where
  status : FdStatus
  readable : Bool
  writable : Bool
  pos : ℤ
  node : Option VNode
  openCount : ℤ
  deriving DecidableEq

/-- The state of the file systems, and the table of open files of the process. -/
structure FdState where
  vfs : OpenState
  fdArray : ℕ → FdItem

/-- Code of the functions of `file.c`. -/
abbrev FdProg := Prog OpenPanic FsError FdState

/-- Call a function of the file systems. -/
def onVfs {α : Type} (m : OpenProg α) : FdProg α := Prog.zoom FdState.vfs (fun s w => { w with vfs := s }) id m

/-- Change an item of the table of open files. -/
def FdState.setFd (w : FdState) (fd : ℕ) (f : FdItem) : FdState := { w with fdArray := Function.update w.fdArray fd f }

/-- The search of `fd_array_alloc` for a free item. -/
def FdState.freeFd (w : FdState) : Option ℕ :=
  (List.range filesStructNentry).find? fun fd => (w.fdArray fd).status = .none

/-- Source: `kern/fs/file.c` `fd_array_alloc`, for `NO_FD` -/
def fdArrayAlloc : FdProg ℕ := do
  let w ← Prog.get
  match w.freeFd with
  | none => Prog.throw .maxOpen
  | some fd => do
    Prog.assert ((w.fdArray fd).openCount = 0) .fdArray
    Prog.modify fun w => w.setFd fd { w.fdArray fd with status := .init, node := none }
    pure fd

section files

variable (env : KernelEnv)

/-- Source: `kern/fs/file.c` `fd_array_free` -/
def fdArrayFree (fd : ℕ) : FdProg Unit := do
  let w ← Prog.get
  Prog.assert ((w.fdArray fd).status = .init ∨ (w.fdArray fd).status = .closed) .fdArray
  Prog.assert ((w.fdArray fd).openCount = 0) .fdArray
  (if (w.fdArray fd).status = .closed then
    match (w.fdArray fd).node with
    | some node => onVfs (vfsClose env node)
    | none => Prog.stop .dangling
  else pure () : FdProg Unit)
  Prog.modify fun w => w.setFd fd { w.fdArray fd with status := .none }

/-- Source: `kern/fs/file.c` `fd_array_open` -/
def fdArrayOpen (fd : ℕ) : FdProg Unit := do
  let w ← Prog.get
  Prog.assert ((w.fdArray fd).status = .init ∧ (w.fdArray fd).node ≠ none) .fdArray
  Prog.modify fun w => w.setFd fd { w.fdArray fd with status := .opened, openCount := (w.fdArray fd).openCount + 1 }

/-- Source: `kern/fs/file.c` `file_open` -/
def fileOpen (path : CString) (flags : BitVec 32) : FdProg ℕ :=
  match accmode flags with
  | none => Prog.throw .inval
  | some (readable, writable) => do
    let fd ← fdArrayAlloc
    match ← Prog.attempt (onVfs (vfsOpen env path flags)) with
    | .error e => do
      fdArrayFree env fd
      Prog.throw e
    | .ok node => do
      match ← Prog.attempt (onVfs (openPos env node flags)) with
      | .error e => do
        onVfs (vfsClose env node)
        fdArrayFree env fd
        Prog.throw e
      | .ok pos => do
        Prog.modify fun w =>
          w.setFd fd { w.fdArray fd with pos := pos, node := some node, readable := readable, writable := writable }
        fdArrayOpen fd
        pure fd

end files

end Ucore.Fs.Counted
