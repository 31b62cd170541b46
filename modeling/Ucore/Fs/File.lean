import Ucore.Fs.Sfs

/-!
# Open files

The layer between the system calls and the file system: the tables of open files of `file.c`, the
opening of `vfs_open`, and the loops of `sysfile.c` that move data through a kernel buffer.

Only regular files of the simple file system are opened here, so `vop_read`, `vop_write`,
`vop_tryseek`, `vop_truncate`, `vop_open` and `vop_fstat` are the functions of `sfs_node_fileops`, and
the path given to `file_open` has been found: `vfs_lookup` has returned the inode `ino`.

* `FileSys` is the file system together with the open files of every process.
* `fileOpen`, `fileClose`, `fileRead`, `fileWrite`, `fileSeek`: the functions of `file.c`.
* `sysfileRead`, `sysfileWrite`: the loops over pieces of 4096 bytes.

A call runs to its end, so between calls an item of a table is either free (`FD_NONE`) or open
(`FD_OPENED`) with an open count of 1. The open count, which `fd_array_acquire` raises and
`fd_array_release` lowers within a call, and the two transient values of `status` are left out.
-/

namespace Ucore.Fs

open Ucore.Lib

/-- An open file.
Source: `kern/fs/file.h` `struct file` -/
structure File where
  readable : Bool
  writable : Bool
  /-- The position in the file, an `off_t`. -/
  pos : ℤ
  /-- The inode. -/
  node : ℕ
  deriving Repr, DecidableEq

/-- The file system and the open files, by process and descriptor. -/
structure FileSys where
  sfs : Sfs
  fdArray : ℕ → ℕ → Option File

/-- Code of the file layer. -/
abbrev FileProg := Prog SfsPanic FsError FileSys

/-- Run an operation of the file system. -/
def onSfs {α : Type} (m : SfsProg α) : FileProg α :=
  Prog.zoom FileSys.sfs (fun sfs s => { s with sfs := sfs }) id m

/-- Change one item of the table of a process. -/
def FileSys.setFd (s : FileSys) (pid fd : ℕ) (f : Option File) : FileSys :=
  { s with fdArray := Function.update s.fdArray pid (Function.update (s.fdArray pid) fd f) }

/-- `FILES_STRUCT_NENTRY` -/
def filesStructNentry : ℕ := 145

/-! ### Descriptors -/

/-- Source: `kern/fs/file.c` `fd_array_alloc`, for `NO_FD` -/
def fdArrayAlloc (pid : ℕ) : FileProg ℕ := do
  let s ← Prog.get
  match (List.range filesStructNentry).find? fun fd => (s.fdArray pid fd).isNone with
  | some fd => pure fd
  | none => Prog.throw .maxOpen

/-- The open file of a descriptor, if there is one. -/
def FileSys.file (s : FileSys) (pid : ℕ) (fd : ℤ) : Option File :=
  if 0 ≤ fd ∧ fd < filesStructNentry then s.fdArray pid fd.toNat else none

/-- Source: `kern/fs/file.c` `fd2file` -/
def fd2file (pid : ℕ) (fd : ℤ) : FileProg File := do
  let s ← Prog.get
  match s.file pid fd with
  | some f => pure f
  | none => Prog.throw .inval

/-- Source: `kern/fs/file.c` `file_testfd` -/
def fileTestfd (pid : ℕ) (fd : ℤ) (readable writable : Bool) : FileProg Bool := do
  let s ← Prog.get
  match s.file pid fd with
  | some f => pure ((!readable || f.readable) && (!writable || f.writable))
  | none => pure false

/-! ### Opening -/

/-- `O_ACCMODE`, `O_CREAT`, `O_EXCL`, `O_TRUNC` and `O_APPEND`. Source: `libs/unistd.h` -/
def oAccmode : BitVec 32 := 3
@[inherit_doc oAccmode] def oCreat : BitVec 32 := 4
@[inherit_doc oAccmode] def oExcl : BitVec 32 := 8
@[inherit_doc oAccmode] def oTrunc : BitVec 32 := 16
@[inherit_doc oAccmode] def oAppend : BitVec 32 := 32

/-- Whether a file is opened for reading and for writing: `O_RDONLY`, `O_WRONLY` or `O_RDWR`. -/
def accmode (flags : BitVec 32) : Option (Bool × Bool) :=
  match (flags &&& oAccmode).toNat with
  | 0 => some (true, false)
  | 1 => some (false, true)
  | 2 => some (true, true)
  | _ => none

/-- Opening the inode `ino` that `vfs_lookup` has found.
Source: `kern/fs/vfs/vfsfile.c` `vfs_open` -/
def vfsOpen (ino : ℕ) (flags : BitVec 32) : FileProg ℕ := do
  match accmode flags with
  | none => Prog.throw .inval
  | some (_, canWrite) =>
    if flags &&& oTrunc ≠ 0 ∧ canWrite = false then
      Prog.throw .inval
    else if flags &&& oExcl ≠ 0 ∧ flags &&& oCreat ≠ 0 then
      Prog.throw .fileExists
    else do
      if flags &&& oTrunc ≠ 0 ∨ flags &&& oCreat ≠ 0 then
        onSfs (sfsTruncfile ino 0)
      pure ino

/-- Source: `kern/fs/file.c` `file_open` -/
def fileOpen (pid ino : ℕ) (flags : BitVec 32) : FileProg ℕ := do
  match accmode flags with
  | none => Prog.throw .inval
  | some (readable, writable) => do
    let fd ← fdArrayAlloc pid
    let node ← vfsOpen ino flags
    Prog.modify fun s =>
      let pos := if flags &&& oAppend ≠ 0 then toOff (s.sfs.inode node).size else 0
      s.setFd pid fd (some ⟨readable, writable, pos, node⟩)
    pure fd

/-- Source: `kern/fs/file.c` `file_close` -/
def fileClose (pid : ℕ) (fd : ℤ) : FileProg Unit := do
  let _ ← fd2file pid fd
  Prog.modify fun s => s.setFd pid fd.toNat none

/-! ### Reading, writing and seeking -/

/-- Source: `kern/fs/sfs/sfs_inode.c` `sfs_io`, `kern/fs/iobuf.c` `iobuf_skip` -/
def sfsIo (sin : ℕ) (base : List UInt8) (offset : ℤ) (resid : ℕ) (write : Bool) :
    SfsProg IoResult := do
  let r ← sfsIoNolock sin base offset resid write
  if r.alen ≠ 0 then
    Prog.assert (r.alen ≤ resid) .iobufSkip
  pure r

/-- The part of `file_read` and `file_write` after the checks: the transfer, and the position moved
by the number of bytes copied. -/
def fileIo (pid : ℕ) (fd : ℤ) (f : File) (base : List UInt8) (len : ℕ) (write : Bool) :
    FileProg IoResult := do
  let r ← onSfs (sfsIo f.node base f.pos len write)
  Prog.modify fun s => s.setFd pid fd.toNat (some { f with pos := toOff (f.pos + r.alen) })
  pure r

/-- Source: `kern/fs/file.c` `file_read` -/
def fileRead (pid : ℕ) (fd : ℤ) (len : ℕ) : FileProg IoResult := do
  let f ← fd2file pid fd
  if f.readable = false then
    Prog.throw .inval
  else
    fileIo pid fd f [] len false

/-- Source: `kern/fs/file.c` `file_write` -/
def fileWrite (pid : ℕ) (fd : ℤ) (base : List UInt8) (len : ℕ) : FileProg IoResult := do
  let f ← fd2file pid fd
  if f.writable = false then
    Prog.throw .inval
  else
    fileIo pid fd f base len true

/-- The values of `whence`. Source: `libs/unistd.h` -/
inductive Whence where
  | set | cur | fromEnd | other
  deriving Repr, DecidableEq

/-- Source: `kern/fs/file.c` `file_seek` -/
def fileSeek (pid : ℕ) (fd : ℤ) (pos : ℤ) (whence : Whence) : FileProg Unit := do
  let f ← fd2file pid fd
  let s ← Prog.get
  let target : Option ℤ :=
    match whence with
    | .set => some pos
    | .cur => some (toOff (pos + f.pos))
    | .fromEnd => some (toOff (pos + (s.sfs.inode f.node).size))
    | .other => none
  match target with
  | none => Prog.throw .inval
  | some pos => do
    onSfs (sfsTryseek f.node pos)
    Prog.modify fun s => s.setFd pid fd.toNat (some { f with pos := pos })

/-! ### System calls -/

/-- What a call finds outside the file system: whether `kmalloc` returns a buffer, and whether the
`n` bytes at distance `k` of the user's buffer can be copied. -/
structure UserMem where
  kmalloc : Bool
  copy (k n : ℕ) : Bool

/-- What a call returns: an error code, or a number of bytes together with the bytes that a read has
copied to the user's buffer. -/
structure SysResult where
  copied : ℕ
  bytes : List UInt8
  deriving Repr, DecidableEq

/-- The end of `sysfile_read` and `sysfile_write`: a number of bytes that is not 0 goes before an
error. -/
def sysfileOut (ret : Option FsError) (r : SysResult) : FileProg SysResult :=
  match ret with
  | some e => if r.copied ≠ 0 then pure r else Prog.throw e
  | none => pure r

/-- An error of `file_read` or `file_write` as the value of `ret`. -/
def ioAttempt (m : FileProg IoResult) : FileProg IoResult := do
  let r ← Prog.attempt m
  match r with
  | .ok r => pure r
  | .error e => pure ⟨some e, 0, []⟩

/-- The loop of `sysfile_read`. The remaining length is `len`; it gets smaller in every turn, so
`fuel = len` turns are enough. -/
def sysfileReadLoop (pid : ℕ) (fd : ℤ) (u : UserMem) : ℕ → ℕ → SysResult → FileProg SysResult
  | 0, _, r => sysfileOut none r
  | fuel + 1, len, r =>
    if len = 0 then
      sysfileOut none r
    else do
      let io ← ioAttempt (fileRead pid fd (min 4096 len))
      if io.alen = 0 then
        sysfileOut io.ret r
      else if u.copy r.copied io.alen then do
        Prog.assert (io.alen ≤ len) .sysfileLen
        let r' : SysResult := ⟨r.copied + io.alen, r.bytes ++ io.bytes⟩
        match io.ret with
        | some e => sysfileOut (some e) r'
        | none => sysfileReadLoop pid fd u fuel (len - io.alen) r'
      else
        sysfileOut (some (io.ret.getD .inval)) r

/-- Source: `kern/fs/sysfile.c` `sysfile_read` -/
def sysfileRead (pid : ℕ) (fd : ℤ) (len : ℕ) (u : UserMem) : FileProg SysResult := do
  if len = 0 then
    pure ⟨0, []⟩
  else do
    let ok ← fileTestfd pid fd true false
    if ok = false then
      Prog.throw .inval
    else if u.kmalloc = false then
      Prog.throw .noMem
    else
      sysfileReadLoop pid fd u len len ⟨0, []⟩

/-- The assertion of `sysfile_write` on a piece of `alen` bytes. -/
def assertLen (alen len : ℕ) : FileProg Unit :=
  if alen ≠ 0 then Prog.assert (alen ≤ len) .sysfileLen else pure ()

/-- The loop of `sysfile_write`; `buf` is what is left of the user's buffer. -/
def sysfileWriteLoop (pid : ℕ) (fd : ℤ) (u : UserMem) : ℕ → List UInt8 → SysResult →
    FileProg SysResult
  | 0, _, r => sysfileOut none r
  | fuel + 1, buf, r =>
    if buf.length = 0 then
      sysfileOut none r
    else if u.copy r.copied (min 4096 buf.length) then do
      let io ← ioAttempt (fileWrite pid fd (buf.take 4096) (min 4096 buf.length))
      assertLen io.alen buf.length
      let r' : SysResult := ⟨r.copied + io.alen, []⟩
      match io.ret with
      | some e => sysfileOut (some e) r'
      | none =>
        if io.alen = 0 then
          sysfileOut none r'
        else
          sysfileWriteLoop pid fd u fuel (buf.drop io.alen) r'
    else
      sysfileOut (some .inval) r

/-- Source: `kern/fs/sysfile.c` `sysfile_write` -/
def sysfileWrite (pid : ℕ) (fd : ℤ) (buf : List UInt8) (u : UserMem) : FileProg SysResult := do
  if buf.length = 0 then
    pure ⟨0, []⟩
  else do
    let ok ← fileTestfd pid fd false true
    if ok = false then
      Prog.throw .inval
    else if u.kmalloc = false then
      Prog.throw .noMem
    else
      sysfileWriteLoop pid fd u buf.length buf ⟨0, []⟩

end Ucore.Fs
