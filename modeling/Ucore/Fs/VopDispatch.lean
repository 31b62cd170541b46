import Ucore.Fs.File
import Ucore.Fs.VfsLookup

/-!
# Calls through the tables of operations

Every operation on an inode is called through the table `in_ops` of the inode, and `__vop_op` asserts that the table has
it. Here are the calls of `sysfile.c`, `file.c` and `vfsfile.c` with this assertion, for inodes of the three tables of the
kernel: directories, regular files and devices.

* `InodeOps.has` are the tables. No table has `vop_create`.
* `VfsImpl` is what the operations in the tables do. The functions of the layer above are the same for all of them, so
  the results hold for every `VfsImpl`, whatever it returns and wherever else it panics.
* `VfsCall.Dispatches` is the condition, for a state and a call, under which no operation is called that is not in its
  table. `Ucore.Fs.DispatchRuns` proves that it is exact in every state that a process can reach (`VfsReach`).

Reference and open counts are left out. The two operations that they call, `vop_close` and `vop_reclaim`, are in the
tables of files and directories, and devices are never reclaimed: the list of devices keeps a reference.
-/

namespace Ucore.Fs

open Ucore.Lib Relation

/-! ### Tables of operations -/

/-- The operations on an inode.
Source: `kern/fs/vfs/inode.h` `struct inode_ops` -/
inductive Vop where
  | vopOpen | vopClose | vopRead | vopWrite | vopFstat | vopFsync | vopNamefile | vopGetdirentry | vopReclaim
  | vopGettype | vopTryseek | vopTruncate | vopCreate | vopLookup | vopIoctl
  deriving Repr, DecidableEq

/-- The tables of the kernel: `sfs_node_dirops`, `sfs_node_fileops` and `dev_node_ops`. -/
inductive InodeOps where
  | dirops | fileops | devops
  deriving Repr, DecidableEq

/-- The operations that are in a table.
Source: `kern/fs/sfs/sfs_inode.c` `sfs_node_dirops`, `sfs_node_fileops`, `kern/fs/devs/dev.c` `dev_node_ops` -/
def InodeOps.has : InodeOps → Vop → Bool
  | .dirops, op => op ∈ [.vopOpen, .vopClose, .vopFstat, .vopFsync, .vopNamefile, .vopGetdirentry, .vopReclaim,
      .vopGettype, .vopLookup]
  | .fileops, op => op ∈ [.vopOpen, .vopClose, .vopRead, .vopWrite, .vopFstat, .vopFsync, .vopReclaim, .vopGettype,
      .vopTryseek, .vopTruncate]
  | .devops, op => op ∈ [.vopOpen, .vopClose, .vopRead, .vopWrite, .vopFstat, .vopIoctl, .vopGettype, .vopTryseek,
      .vopLookup]

/-- What `vop_read` and `vop_write` return: 0, an error code or, from the keyboard, the number of bytes again. -/
inductive IoRet where
  | done
  | error (e : FsError)
  | count (n : ℕ)
  deriving Repr, DecidableEq

/-- The outcome of `vop_read` and `vop_write`: what is returned, the number of bytes moved, and the bytes read. -/
structure VopIo where
  ret : IoRet
  alen : ℕ
  bytes : List UInt8
  deriving Repr, DecidableEq

/-- `struct stat` -/
structure NodeStat where
  mode : ℕ
  nlinks : ℕ
  blocks : ℕ
  size : ℕ
  deriving Repr, DecidableEq

/-- What the operations in the tables do to a state `σ`, for nodes `ν`, and where lookups start. -/
structure VfsImpl (π σ ν : Type) where
  ops : ν → InodeOps
  getDevice : CString → Prog π FsError σ (ν × CString)
  lookup : ν → CString → Prog π FsError σ ν
  /-- `dop_open`, behind `dev_open` -/
  dopOpen : ν → BitVec 32 → Prog π FsError σ Unit
  /-- `sfs_fstat` and `dev_fstat` return 0. -/
  fstat : ν → σ → NodeStat
  read : ν → ℤ → ℕ → Prog π FsError σ VopIo
  write : ν → List UInt8 → ℤ → ℕ → Prog π FsError σ VopIo
  tryseek : ν → ℤ → Prog π FsError σ Unit
  fsync : ν → Prog π FsError σ Unit
  truncate : ν → ℤ → Prog π FsError σ Unit
  /-- The name at an offset, and how much the offset grows. -/
  getdirentry : ν → ℤ → Prog π FsError σ (CString × ℕ)
  /-- A lookup starts at a root, in the current directory or at a device. `vfs_set_curdir` has checked that the first two
  are directories. -/
  start_ops : ∀ path s node sub s', (getDevice path).run s = .ok (node, sub) s' → ops node ≠ .fileops

/-- Where a call can stop: at an operation that is not in the table, inside an operation, or at the assertion of
`sysfile_read` and `sysfile_write`. -/
inductive VfsPanic (π : Type) where
  | vop (op : Vop)
  | inside (p : π)
  | sysfileLen
  deriving Repr, DecidableEq

/-- An open file.
Source: `kern/fs/file.h` `struct file` -/
structure OpenFile (ν : Type) where
  readable : Bool
  writable : Bool
  pos : ℤ
  node : ν

/-- The file systems, and the open files of a process. -/
structure VfsState (σ ν : Type) where
  fs : σ
  fdArray : ℕ → Option (OpenFile ν)

variable {π σ ν α : Type}

/-- Code of the calls. -/
abbrev VfsProg (π σ ν : Type) := Prog (VfsPanic π) FsError (VfsState σ ν)

/-- Run an operation. -/
def onFs (m : Prog π FsError σ α) : VfsProg π σ ν α :=
  Prog.zoom VfsState.fs (fun fs w => { w with fs := fs }) .inside m

/-- Source: `kern/fs/vfs/inode.h` `__vop_op` -/
def vopOp (impl : VfsImpl π σ ν) (op : Vop) (node : ν) (m : Prog π FsError σ α) : VfsProg π σ ν α := do
  Prog.assert ((impl.ops node).has op = true) (.vop op)
  onFs m

/-- `vop_fstat` -/
def vopFstat (impl : VfsImpl π σ ν) (node : ν) : VfsProg π σ ν NodeStat :=
  vopOp impl .vopFstat node do
    let s ← Prog.get
    pure (impl.fstat node s)

/-! ### `vfs_open` -/

section vfs

variable (impl : VfsImpl π σ ν)

/-- Source: `kern/fs/sfs/sfs_inode.c` `sfs_opendir` -/
def sfsOpendir (flags : BitVec 32) : Prog π FsError σ Unit :=
  if flags &&& oAccmode ≠ 0 then Prog.throw .isDir
  else if flags &&& oAppend ≠ 0 then Prog.throw .isDir
  else pure ()

/-- Source: `kern/fs/devs/dev.c` `dev_open` -/
def devOpen (node : ν) (flags : BitVec 32) : Prog π FsError σ Unit :=
  if flags &&& (oCreat ||| oTrunc ||| oExcl ||| oAppend) ≠ 0 then Prog.throw .inval else impl.dopOpen node flags

/-- `vop_open`; `sfs_openfile` accepts all flags. -/
def vopOpen (node : ν) (flags : BitVec 32) : VfsProg π σ ν Unit :=
  vopOp impl .vopOpen node (match impl.ops node with
    | .dirops => sfsOpendir flags
    | .fileops => pure ()
    | .devops => devOpen impl node flags)

/-- Source: `kern/fs/vfs/vfslookup.c` `vfs_lookup` -/
def vfsLookupOp (path : CString) : VfsProg π σ ν ν := do
  let (node, subpath) ← onFs (impl.getDevice path)
  if subpath.bytes ≠ [] then
    vopOp impl .vopLookup node (impl.lookup node subpath)
  else
    pure node

/-- What `get_device` leaves of a path: the colon behind the name of a device is overwritten with a zero. -/
def pathLeft (path : CString) : CString :=
  match (splitPath path).1 with
  | .device name => name
  | _ => path

/-- What is done when the path has been found, or not. No table has `vop_create`. -/
def vfsOpenNode (path : CString) (flags : BitVec 32) : Except FsError ν → VfsProg π σ ν ν
  | .error e =>
    if e = .noEnt ∧ flags &&& oCreat ≠ 0 then do
      let (dir, _) ← onFs (impl.getDevice (pathLeft path))
      vopOp impl .vopCreate dir (Prog.throw .unimp)
    else
      Prog.throw e
  | .ok node => if flags &&& oExcl ≠ 0 ∧ flags &&& oCreat ≠ 0 then Prog.throw .fileExists else pure node

/-- `vop_truncate`, if the flags ask for it. -/
def vfsOpenTruncate (node : ν) (flags : BitVec 32) : VfsProg π σ ν Unit :=
  if flags &&& oTrunc ≠ 0 ∨ flags &&& oCreat ≠ 0 then vopOp impl .vopTruncate node (impl.truncate node 0) else pure ()

/-- Source: `kern/fs/vfs/vfsfile.c` `vfs_open` -/
def vfsOpenPath (path : CString) (flags : BitVec 32) : VfsProg π σ ν ν :=
  match accmode flags with
  | none => Prog.throw .inval
  | some (_, canWrite) =>
    if flags &&& oTrunc ≠ 0 ∧ canWrite = false then
      Prog.throw .inval
    else do
      let r ← Prog.attempt (vfsLookupOp impl path)
      let node ← vfsOpenNode impl path flags r
      vopOpen impl node flags
      vfsOpenTruncate impl node flags
      pure node

/-! ### `file.c` -/

/-- Change one item of the table. -/
def VfsState.setFd (w : VfsState σ ν) (fd : ℕ) (f : Option (OpenFile ν)) : VfsState σ ν :=
  { w with fdArray := Function.update w.fdArray fd f }

/-- The open file of a descriptor, if there is one. -/
def VfsState.file (w : VfsState σ ν) (fd : ℤ) : Option (OpenFile ν) :=
  if 0 ≤ fd ∧ fd < filesStructNentry then w.fdArray fd.toNat else none

/-- The search of `fd_array_alloc` for a free index. -/
def VfsState.freeFd (w : VfsState σ ν) : Option ℕ :=
  (List.range filesStructNentry).find? fun fd => (w.fdArray fd).isNone

/-- Source: `kern/fs/file.c` `fd_array_alloc`; `NO_FD` is `none` -/
def vfdArrayAlloc (fd : Option ℤ) : VfsProg π σ ν ℕ := do
  let w ← Prog.get
  match fd with
  | none =>
    match w.freeFd with
    | some fd => pure fd
    | none => Prog.throw .maxOpen
  | some fd =>
    if 0 ≤ fd ∧ fd < filesStructNentry then
      if (w.fdArray fd.toNat).isNone then pure fd.toNat else Prog.throw .busy
    else
      Prog.throw .inval

/-- Source: `kern/fs/file.c` `fd2file` -/
def vfd2file (fd : ℤ) : VfsProg π σ ν (OpenFile ν) := do
  let w ← Prog.get
  match w.file fd with
  | some f => pure f
  | none => Prog.throw .inval

/-- Source: `kern/fs/file.c` `file_testfd` -/
def vfileTestfd (fd : ℤ) (readable writable : Bool) : VfsProg π σ ν Bool := do
  let w ← Prog.get
  match w.file fd with
  | some f => pure ((!readable || f.readable) && (!writable || f.writable))
  | none => pure false

/-- Where a new file is positioned. -/
def openPos (node : ν) (flags : BitVec 32) : VfsProg π σ ν ℤ :=
  if flags &&& oAppend ≠ 0 then do
    let stat ← vopFstat impl node
    pure (toOff stat.size)
  else
    pure 0

/-- Source: `kern/fs/file.c` `file_open` -/
def vfileOpen (path : CString) (flags : BitVec 32) : VfsProg π σ ν ℕ :=
  match accmode flags with
  | none => Prog.throw .inval
  | some (readable, writable) => do
    let fd ← vfdArrayAlloc none
    let node ← vfsOpenPath impl path flags
    let pos ← openPos impl node flags
    Prog.modify fun w => w.setFd fd (some ⟨readable, writable, pos, node⟩)
    pure fd

/-- Source: `kern/fs/file.c` `file_close` -/
def vfileClose (fd : ℤ) : VfsProg π σ ν Unit := do
  let _ ← vfd2file fd
  Prog.modify fun w => w.setFd fd.toNat none

/-- The position of an open file moves by the number of bytes copied. -/
def movePos (fd : ℤ) (f : OpenFile ν) (r : VopIo) : VfsProg π σ ν VopIo := do
  Prog.modify fun w => w.setFd fd.toNat (some { f with pos := toOff (f.pos + r.alen) })
  pure r

/-- Source: `kern/fs/file.c` `file_read` -/
def vfileRead (fd : ℤ) (len : ℕ) : VfsProg π σ ν VopIo := do
  let f ← vfd2file fd
  if f.readable = false then
    Prog.throw .inval
  else do
    let r ← vopOp impl .vopRead f.node (impl.read f.node f.pos len)
    movePos fd f r

/-- Source: `kern/fs/file.c` `file_write` -/
def vfileWrite (fd : ℤ) (base : List UInt8) (len : ℕ) : VfsProg π σ ν VopIo := do
  let f ← vfd2file fd
  if f.writable = false then
    Prog.throw .inval
  else do
    let r ← vopOp impl .vopWrite f.node (impl.write f.node base f.pos len)
    movePos fd f r

/-- The position that `file_seek` asks for. -/
def vseekTarget (f : OpenFile ν) (pos : ℤ) : Whence → VfsProg π σ ν ℤ
  | .set => pure pos
  | .cur => pure (toOff (pos + f.pos))
  | .fromEnd => do
    let stat ← vopFstat impl f.node
    pure (toOff (pos + stat.size))
  | .other => Prog.throw .inval

/-- Source: `kern/fs/file.c` `file_seek` -/
def vfileSeek (fd pos : ℤ) (whence : Whence) : VfsProg π σ ν Unit := do
  let f ← vfd2file fd
  let pos ← vseekTarget impl f pos whence
  vopOp impl .vopTryseek f.node (impl.tryseek f.node pos)
  Prog.modify fun w => w.setFd fd.toNat (some { f with pos := pos })

/-- Source: `kern/fs/file.c` `file_fstat` -/
def vfileFstat (fd : ℤ) : VfsProg π σ ν NodeStat := do
  let f ← vfd2file fd
  vopFstat impl f.node

/-- Source: `kern/fs/file.c` `file_fsync` -/
def vfileFsync (fd : ℤ) : VfsProg π σ ν Unit := do
  let f ← vfd2file fd
  vopOp impl .vopFsync f.node (impl.fsync f.node)

/-- The name, and the offset of the next one. Source: `kern/fs/file.c` `file_getdirentry` -/
def vfileGetdirentry (fd offset : ℤ) : VfsProg π σ ν (CString × ℤ) := do
  let f ← vfd2file fd
  let entry ← vopOp impl .vopGetdirentry f.node (impl.getdirentry f.node offset)
  pure (entry.1, toOff (offset + entry.2))

/-- Source: `kern/fs/file.c` `file_dup` -/
def vfileDup (fd1 : ℤ) (fd2 : Option ℤ) : VfsProg π σ ν ℕ := do
  let f ← vfd2file fd1
  let fd ← vfdArrayAlloc fd2
  Prog.modify fun w => w.setFd fd (some f)
  pure fd

/-! ### `sysfile.c` -/

/-- The path has been copied from user memory, or not. Source: `kern/fs/sysfile.c` `sysfile_open` -/
def vsysfileOpen (path : Option CString) (flags : BitVec 32) : VfsProg π σ ν ℕ :=
  match path with
  | none => Prog.throw .inval
  | some path => vfileOpen impl path flags

/-- The end of `sysfile_read` and `sysfile_write`. -/
def vsysfileOut (ret : IoRet) (r : SysResult) : VfsProg π σ ν SysResult :=
  match ret with
  | .done => pure r
  | .error e => if r.copied ≠ 0 then pure r else Prog.throw e
  | .count n => if r.copied ≠ 0 then pure r else pure ⟨n, r.bytes⟩

/-- An error of `file_read` or `file_write` as the value of `ret`. -/
def vioAttempt (m : VfsProg π σ ν VopIo) : VfsProg π σ ν VopIo := do
  let r ← Prog.attempt m
  match r with
  | .ok r => pure r
  | .error e => pure ⟨.error e, 0, []⟩

/-- The loop of `sysfile_read`. The remaining length gets smaller in every turn, so `fuel = len` turns are enough. -/
def vsysfileReadLoop (fd : ℤ) (u : UserMem) : ℕ → ℕ → SysResult → VfsProg π σ ν SysResult
  | 0, _, r => vsysfileOut .done r
  | fuel + 1, len, r =>
    if len = 0 then
      vsysfileOut .done r
    else do
      let io ← vioAttempt (vfileRead impl fd (min 4096 len))
      if io.alen = 0 then
        vsysfileOut io.ret r
      else if u.copy r.copied io.alen then do
        Prog.assert (io.alen ≤ len) .sysfileLen
        let r' : SysResult := ⟨r.copied + io.alen, r.bytes ++ io.bytes⟩
        if io.ret = .done then
          vsysfileReadLoop fd u fuel (len - io.alen) r'
        else
          vsysfileOut io.ret r'
      else
        vsysfileOut (if io.ret = .done then .error .inval else io.ret) r

/-- Source: `kern/fs/sysfile.c` `sysfile_read` -/
def vsysfileRead (fd : ℤ) (len : ℕ) (u : UserMem) : VfsProg π σ ν SysResult :=
  if len = 0 then
    pure ⟨0, []⟩
  else do
    let ok ← vfileTestfd fd true false
    if ok = false then
      Prog.throw .inval
    else if u.kmalloc = false then
      Prog.throw .noMem
    else
      vsysfileReadLoop impl fd u len len ⟨0, []⟩

/-- The assertion of `sysfile_write` on a piece of `alen` bytes. -/
def vassertLen (alen len : ℕ) : VfsProg π σ ν Unit :=
  if alen ≠ 0 then Prog.assert (alen ≤ len) .sysfileLen else pure ()

/-- The loop of `sysfile_write`; `buf` is what is left of the user's buffer. -/
def vsysfileWriteLoop (fd : ℤ) (u : UserMem) : ℕ → List UInt8 → SysResult → VfsProg π σ ν SysResult
  | 0, _, r => vsysfileOut .done r
  | fuel + 1, buf, r =>
    if buf.length = 0 then
      vsysfileOut .done r
    else if u.copy r.copied (min 4096 buf.length) then do
      let io ← vioAttempt (vfileWrite impl fd (buf.take 4096) (min 4096 buf.length))
      vassertLen io.alen buf.length
      let r' : SysResult := ⟨r.copied + io.alen, []⟩
      if io.ret ≠ .done ∨ io.alen = 0 then
        vsysfileOut io.ret r'
      else
        vsysfileWriteLoop fd u fuel (buf.drop io.alen) r'
    else
      vsysfileOut (.error .inval) r

/-- Source: `kern/fs/sysfile.c` `sysfile_write` -/
def vsysfileWrite (fd : ℤ) (buf : List UInt8) (u : UserMem) : VfsProg π σ ν SysResult :=
  if buf.length = 0 then
    pure ⟨0, []⟩
  else do
    let ok ← vfileTestfd fd false true
    if ok = false then
      Prog.throw .inval
    else if u.kmalloc = false then
      Prog.throw .noMem
    else
      vsysfileWriteLoop impl fd u buf.length buf ⟨0, []⟩

/-- The second flag says whether the result can be copied to user memory.
Source: `kern/fs/sysfile.c` `sysfile_fstat` -/
def vsysfileFstat (fd : ℤ) (copyOut : Bool) : VfsProg π σ ν NodeStat := do
  let stat ← vfileFstat impl fd
  if copyOut = false then Prog.throw .inval else pure stat

/-- The offset is copied from user memory first, into memory from `kmalloc`, and the entry is copied back.
Source: `kern/fs/sysfile.c` `sysfile_getdirentry` -/
def vsysfileGetdirentry (fd offset : ℤ) (kmalloc copyIn copyOut : Bool) : VfsProg π σ ν (CString × ℤ) :=
  if kmalloc = false then Prog.throw .noMem
  else if copyIn = false then Prog.throw .inval
  else do
    let entry ← vfileGetdirentry impl fd offset
    if copyOut = false then Prog.throw .inval else pure entry

/-! ### Calls of a process -/

/-- The calls. The flags of `fstat` and `getdirentry` say what can be allocated and copied. -/
inductive VfsCall where
  | sysOpen (path : Option CString) (flags : BitVec 32)
  | sysRead (fd : ℤ) (len : ℕ) (u : UserMem)
  | sysWrite (fd : ℤ) (buf : List UInt8) (u : UserMem)
  | sysSeek (fd pos : ℤ) (whence : Whence)
  | sysFstat (fd : ℤ) (copyOut : Bool)
  | sysFsync (fd : ℤ)
  | sysGetdirentry (fd offset : ℤ) (kmalloc copyIn copyOut : Bool)
  | sysClose (fd : ℤ)
  | sysDup (fd1 : ℤ) (fd2 : Option ℤ)

/-- The code of a call, without the value that it returns.
Source: `kern/fs/sysfile.c` -/
def VfsCall.code : VfsCall → VfsProg π σ ν Unit
  | .sysOpen path flags => do let _ ← vsysfileOpen impl path flags
  | .sysRead fd len u => do let _ ← vsysfileRead impl fd len u
  | .sysWrite fd buf u => do let _ ← vsysfileWrite impl fd buf u
  | .sysSeek fd pos whence => vfileSeek impl fd pos whence
  | .sysFstat fd copyOut => do let _ ← vsysfileFstat impl fd copyOut
  | .sysFsync fd => vfileFsync impl fd
  | .sysGetdirentry fd offset kmalloc copyIn copyOut => do
    let _ ← vsysfileGetdirentry impl fd offset kmalloc copyIn copyOut
  | .sysClose fd => vfileClose fd
  | .sysDup fd1 fd2 => do let _ ← vfileDup fd1 fd2

/-- What happens to the open files of a process and to the file systems: a call of the process ends, or others change the
file systems. -/
inductive VfsStep : VfsState σ ν → VfsState σ ν → Prop where
  | done {w w'} (call : VfsCall) : (call.code impl).run w = .ok () w' → VfsStep w w'
  | failed {w w'} (call : VfsCall) (e : FsError) : (call.code impl).run w = .error e w' → VfsStep w w'
  | others {w} (fs : σ) : VfsStep w { w with fs := fs }

/-- The states that a process can reach, from the time when it has no open file. -/
def VfsReach (w : VfsState σ ν) : Prop := ∃ fs, ReflTransGen (VfsStep impl) ⟨fs, fun _ => none⟩ w

/-! ### When all operations are in their tables -/

/-- `open` gets as far as looking up the path. -/
def VfsState.Opens (w : VfsState σ ν) (flags : BitVec 32) : Prop :=
  (∃ canRead canWrite, accmode flags = some (canRead, canWrite) ∧ (flags &&& oTrunc ≠ 0 → canWrite = true)) ∧
    w.freeFd.isSome = true

/-- With `O_CREAT`, a path that is not found has no directory either, and a directory that is found is rejected before
`vop_truncate`. -/
def OpenDispatches (w : VfsState σ ν) (path : CString) (flags : BitVec 32) : Prop :=
  w.Opens flags → flags &&& oCreat ≠ 0 →
    (∀ w', (vfsLookupOp impl path).run w = .error .noEnt w' →
      ∀ dir fs, (impl.getDevice (pathLeft path)).run w'.fs ≠ .ok dir fs) ∧
    ∀ node w', (vfsLookupOp impl path).run w = .ok node w' → impl.ops node = .dirops →
      flags &&& oExcl ≠ 0 ∨ flags &&& oAccmode ≠ 0 ∨ flags &&& oAppend ≠ 0

/-- The condition on the state and the call. It is about the file of the descriptor: a directory is not read and its
position not set, a device is not synced, and only directories have entries. -/
def VfsCall.Dispatches (w : VfsState σ ν) : VfsCall → Prop
  | .sysOpen path flags => ∀ p ∈ path, OpenDispatches impl w p flags
  | .sysRead fd len u =>
    len ≠ 0 → u.kmalloc = true → ∀ f, w.file fd = some f → f.readable = true → impl.ops f.node ≠ .dirops
  | .sysWrite _ _ _ => True
  | .sysSeek fd _ whence => whence ≠ .other → ∀ f, w.file fd = some f → impl.ops f.node ≠ .dirops
  | .sysFstat _ _ => True
  | .sysFsync fd => ∀ f, w.file fd = some f → impl.ops f.node ≠ .devops
  | .sysGetdirentry fd _ kmalloc copyIn _ =>
    kmalloc = true → copyIn = true → ∀ f, w.file fd = some f → impl.ops f.node = .dirops
  | .sysClose _ => True
  | .sysDup _ _ => True

end vfs

end Ucore.Fs
