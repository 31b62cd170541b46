import Ucore.Fs.VopDispatch
import Mathlib.Algebra.Group.Int.Defs

/-!
# The operations of the kernel

`kernelVfs` has the functions of `sfs_node_dirops`, `sfs_node_fileops` and `dev_node_ops`: the simple file system on
`disk0`, and the devices `stdin`, `stdout` and `disk0`.

The counts of the inodes in memory are left out, so a lookup takes the list of these inodes from `KernelEnv`. A read from
the keyboard waits until there are bytes enough or the process is killed: `KernelFs.keys` are the bytes that will have
been typed by then.
-/

namespace Ucore.Fs

open Ucore.Lib

/-- The file system, the bytes from the keyboard and the bytes on the console. -/
structure KernelFs where
  sfs : Sfs
  keys : List UInt8
  console : List UInt8

/-- An inode in memory, with the table `in_ops` that it was given when it was made.
Source: `kern/fs/vfs/inode.h` `struct inode` -/
structure Inode where
  node : VNode
  ops : InodeOps

/-- What the operations depend on. -/
structure KernelEnv extends VfsEnv where
  const : SfsConst
  /-- `d_blocks` of `disk0` -/
  dBlocks : ℕ

/-- Code of the operations. -/
abbrev KernelProg := Prog SfsPanic FsError KernelFs

/-- Run an operation of the file system. -/
def onDisk {α : Type} (m : SfsProg α) : KernelProg α :=
  Prog.zoom KernelFs.sfs (fun sfs k => { k with sfs := sfs }) id m

theorem onDisk_of_error {α : Type} {m : SfsProg α} {k : KernelFs} {e : FsError} {s : Sfs}
    (h : m.run k.sfs = .error e s) : (onDisk m).run k = .error e { k with sfs := s } := by
  rw [onDisk, Prog.zoom]
  simp only [h]

/-! ### Devices -/

/-- Source: `kern/fs/devs/dev_stdin.c` `stdin_open`, `dev_stdout.c` `stdout_open`, `dev_disk0.c` `disk0_open` -/
def devDopOpen (name : CString) (flags : BitVec 32) : KernelProg Unit :=
  if name = stdin ∧ flags ≠ 0 then Prog.throw .inval
  else if name = stdout ∧ flags ≠ 1 then Prog.throw .inval
  else pure ()

/-- `d_blocks` and `d_blocksize` of a device.
Source: `kern/fs/devs/dev_stdin.c` `stdin_device_init`, `dev_stdout.c` `stdout_device_init`, `dev_disk0.c`
`disk0_device_init` -/
def devSize (env : KernelEnv) (name : CString) : ℕ × ℕ :=
  if name = stdin ∨ name = stdout then (0, 1) else (env.dBlocks, 4096)

/-- Source: `kern/fs/devs/dev.c` `dev_fstat`, `dev_gettype` -/
def devFstat (env : KernelEnv) (name : CString) : NodeStat :=
  let (blocks, blocksize) := devSize env name
  ⟨if 0 < blocks then 0o50000 else 0o40000, 1, blocks, blocks * blocksize % 2 ^ 32⟩

/-- Source: `kern/fs/devs/dev.c` `dev_tryseek` -/
def devTryseek (env : KernelEnv) (name : CString) (pos : ℤ) : KernelProg Unit :=
  let (blocks, blocksize) := devSize env name
  if 0 < blocks ∧ pos % blocksize = 0 ∧ 0 ≤ pos ∧ pos < (blocks * blocksize % 2 ^ 32 : ℕ) then pure ()
  else Prog.throw .inval

/-- Source: `kern/fs/devs/dev_stdin.c` `stdin_io`, `dev_stdin_read` -/
def stdinRead (len : ℕ) : KernelProg VopIo := do
  let k ← Prog.get
  let bytes := k.keys.take len
  Prog.modify fun k => { k with keys := k.keys.drop len }
  pure ⟨if 0 < bytes.length then .count bytes.length else .done, bytes.length, bytes⟩

/-- Source: `kern/fs/devs/dev_stdout.c` `stdout_io` -/
def stdoutWrite (base : List UInt8) (len : ℕ) : KernelProg VopIo := do
  Prog.modify fun k => { k with console := k.console ++ base.take len }
  pure ⟨.done, len, []⟩

/-- The checks of `disk0_io`: the first block and the number of blocks, if they are accepted.
Source: `kern/fs/devs/dev_disk0.c` `disk0_io` -/
def disk0Range (env : KernelEnv) (offset : ℤ) (resid : ℕ) : Option (ℕ × ℕ) :=
  let blkno := (Int.tdiv offset 4096 % 2 ^ 32).toNat
  let nblks := resid / 4096
  if Int.tmod offset 4096 ≠ 0 ∨ resid % 4096 ≠ 0 then none
  else if (blkno + nblks) % 2 ^ 32 > env.dBlocks then none
  else some (blkno, nblks)

/-- Source: `kern/fs/devs/dev_disk0.c` `disk0_io` -/
def disk0Read (env : KernelEnv) (offset : ℤ) (resid : ℕ) : KernelProg VopIo :=
  match disk0Range env offset resid with
  | none => pure ⟨.error .inval, 0, []⟩
  | some (blkno, nblks) => do
    let k ← Prog.get
    pure ⟨.done, resid, (List.range nblks).flatMap fun i => (k.sfs.disk (blkno + i)).read 0 4096⟩

/-- A disk with data written over whole blocks. -/
def Sfs.putBlocks (s : Sfs) (blkno nblks : ℕ) (data : List UInt8) : Sfs :=
  { s with disk := fun b =>
    if blkno ≤ b ∧ b < blkno + nblks then (s.disk b).splice 0 ((data.drop (4096 * (b - blkno))).take 4096)
    else s.disk b }

/-- Source: `kern/fs/devs/dev_disk0.c` `disk0_io` -/
def disk0Write (env : KernelEnv) (base : List UInt8) (offset : ℤ) (resid : ℕ) : KernelProg VopIo :=
  match disk0Range env offset resid with
  | none => pure ⟨.error .inval, 0, []⟩
  | some (blkno, nblks) => do
    Prog.modify fun k => { k with sfs := k.sfs.putBlocks blkno nblks base }
    pure ⟨.done, resid, []⟩

/-- Source: `kern/fs/devs/dev.c` `dev_read` -/
def devRead (env : KernelEnv) (name : CString) (pos : ℤ) (len : ℕ) : KernelProg VopIo :=
  if name = stdin then stdinRead len
  else if name = stdout then pure ⟨.error .inval, 0, []⟩
  else disk0Read env pos len

/-- Source: `kern/fs/devs/dev.c` `dev_write` -/
def devWrite (env : KernelEnv) (name : CString) (base : List UInt8) (pos : ℤ) (len : ℕ) : KernelProg VopIo :=
  if name = stdin then pure ⟨.error .inval, 0, []⟩
  else if name = stdout then stdoutWrite base len
  else disk0Write env base pos len

/-! ### Files and directories -/

/-- The result of `sfs_read` and `sfs_write`. -/
def IoResult.vop (r : IoResult) : VopIo :=
  ⟨match r.ret with
    | none => .done
    | some e => .error e, r.alen, r.bytes⟩

/-- Source: `kern/fs/sfs/sfs_inode.c` `sfs_fstat`, `sfs_gettype` -/
def sfsFstat (env : KernelEnv) (ops : InodeOps) (ino : ℕ) (s : Sfs) : NodeStat :=
  ⟨if ops = .dirops then 0o20000 else 0o10000, env.const.nlinks ino, (s.inode ino).blocks, (s.inode ino).size⟩

/-- The entry with a number, empty slots not counted; `n` slots from `i` on are left.
Source: `kern/fs/sfs/sfs_inode.c` `sfs_getdirentry_sub_nolock` -/
def sfsGetdirentrySubNolock (sin : ℕ) : ℕ → ℕ → ℕ → SfsProg Dirent
  | 0, _, _ => Prog.throw .noEnt
  | n + 1, i, slot => do
    let entry ← sfsDirentReadNolock sin i
    if entry.ino = 0 then
      sfsGetdirentrySubNolock sin n (i + 1) slot
    else if slot = 0 then
      pure entry
    else
      sfsGetdirentrySubNolock sin n (i + 1) (slot - 1)

/-- The name, and `sfs_dentry_size`.
Source: `kern/fs/sfs/sfs_inode.c` `sfs_getdirentry` -/
def sfsGetdirentry (sin : ℕ) (offset : ℤ) : SfsProg (CString × ℕ) := do
  let s ← Prog.get
  if offset < 0 ∨ offset % 256 ≠ 0 then
    Prog.throw .inval
  else if (offset / 256).toNat > (s.inode sin).blocks then
    Prog.throw .noEnt
  else do
    let entry ← sfsGetdirentrySubNolock sin (s.inode sin).blocks 0 (offset / 256).toNat
    pure (entry.name, 256)

/-! ### The tables -/

/-- The table of an inode that is loaded.
Source: `kern/fs/sfs/sfs_inode.c` `sfs_get_ops`, `kern/fs/devs/dev.c` `dev_create_inode` -/
def opsOf (s : Sfs) : VNode → InodeOps
  | .sfs ino => if (s.inode ino).type = .dir then .dirops else .fileops
  | .device _ => .devops

/-- The inode that a lookup starts at: a directory or a device. -/
def startInode : VNode → Inode
  | .sfs ino => ⟨.sfs ino, .dirops⟩
  | .device name => ⟨.device name, .devops⟩

/-- An operation that is not the same for files and devices. -/
def byNode {α : Type} (onFile : ℕ → SfsProg α) (onDevice : CString → KernelProg α) (n : Inode) : KernelProg α :=
  match n.node with
  | .sfs ino => onDisk (onFile ino)
  | .device name => onDevice name

/-- **The operations of the kernel.** `vop_fsync`, `vop_truncate` and `vop_getdirentry` are not in the table of devices.
Source: `kern/fs/sfs/sfs_inode.c` `sfs_node_dirops`, `sfs_node_fileops`, `kern/fs/devs/dev.c` `dev_node_ops` -/
def kernelVfs (env : KernelEnv) : VfsImpl SfsPanic KernelFs Inode where
  ops := Inode.ops
  getDevice path := do
    let node ← onDisk (startNode env.toVfsEnv (splitPath path).1)
    pure (startInode node, (splitPath path).2)
  lookup n path := do
    let found ← onDisk (vopLookup env.toVfsEnv n.node path)
    let k ← Prog.get
    pure ⟨found, opsOf k.sfs found⟩
  dopOpen n flags := match n.node with
    | .sfs _ => pure ()
    | .device name => devDopOpen name flags
  fstat n k := match n.node with
    | .sfs ino => sfsFstat env n.ops ino k.sfs
    | .device name => devFstat env name
  read n pos len := byNode (fun ino => do
    let r ← sfsIo ino [] pos len false
    pure r.vop) (fun name => devRead env name pos len) n
  write n base pos len := byNode (fun ino => do
    let r ← sfsIo ino base pos len true
    pure r.vop) (fun name => devWrite env name base pos len) n
  tryseek n pos := byNode (fun ino => sfsTryseek ino pos) (fun name => devTryseek env name pos) n
  fsync := byNode (sfsFsync env.const) fun _ => Prog.throw .unimp
  truncate n len := byNode (fun ino => sfsTruncfile ino len) (fun _ => Prog.throw .unimp) n
  getdirentry n offset := byNode (fun ino => sfsGetdirentry ino offset) (fun _ => Prog.throw .unimp) n
  start_ops := by
    intro path s node sub s' hrun
    obtain ⟨start, s₁, -, hpure⟩ := Prog.bind_eq_ok.mp hrun
    cases hpure
    cases start <;> exact nofun

end Ucore.Fs
