import Ucore.Fs.Descriptors
import Ucore.Mm.ProgramArgs
import Ucore.Process.Table

/-!
# The calls of a process

`do_fork`, `do_execve` and `do_exit` of `kern/process/proc.c` with all that they take and give back: memory, the address space, the
open files, and the place in the process table.

* `Kernel` puts the process table, memory and the tables of open files together, and has the fields of a process that refer to them:
  `mm`, `filesp` and `kstack`. Each part is changed by its own functions, through `onTable`, `onVm` and `onFd`.
* A process and a `files_struct` are known by the block that `kmalloc` has returned for them.
* `copyFs` and `copyMm` share or copy, as the flags of `do_fork` say. `mmRelease` and `putFs` give back.
* `ExecCall` are the arguments of `do_execve`, with the memory that it reads and the file that it finds.
* The semaphores of address spaces, the present directory of a table, the trap frames and the names of processes are left out.
-/

namespace Ucore.Kern

open Ucore.Lib Ucore.Process Ucore.Vm Ucore.Fs Ucore.Fs.Fd

/-- The processes with what they use. -/
structure Kernel where
  table : ProcTable
  vm : VmState
  fd : FdWorld
  /-- `mm` of each process -/
  mm : ℕ → Option ℕ
  /-- `filesp` of each process -/
  filesp : ℕ → Option ℕ
  /-- The first page of the kernel stack of each process. -/
  kstack : ℕ → ℕ
  /-- Every `files_struct` that there has been. -/
  filesStructs : List ℕ
  /-- How often `files_destroy` has run for each `files_struct`. -/
  filesDestroys : ℕ → ℕ

/-- Where the code stops: in one of the parts, at the assertion of `copy_fs` or the panic of `load_icode`, or because `proc_init` has not
got the memory for `idleproc`. -/
inductive KernPanic where
  | table (p : ProcPanic)
  | vm (p : VmPanic)
  | fd (p : FdPanic)
  | noFiles | mmNotEmpty | procInit
  deriving Repr, DecidableEq

/-- The error codes, without their sign. -/
inductive KernError where
  | proc (e : ProcError)
  | vm (e : VmError)
  | fs (e : FsError)
  deriving Repr, DecidableEq

/-- Source: `libs/error.h` -/
def KernError.code : KernError → ℤ
  | .proc .badProc => 2
  | .proc .noFreeProc => 5
  | .vm .unspecified => 1
  | .vm .inval => 3
  | .vm .noMem => 4
  | .vm .invalElf => 8
  | .fs .inval => 3
  | .fs .noMem => 4
  | .fs .noDev => 13
  | .fs .naDev => 14
  | .fs .busy => 15
  | .fs .noEnt => 16
  | .fs .isDir => 17
  | .fs .notDir => 18
  | .fs .unimp => 20
  | .fs .maxOpen => 22
  | .fs .fileExists => 23

abbrev KernProg := Prog KernPanic KernError Kernel

/-- A program of the process table. -/
def onTable {α : Type} (m : TableProg α) : KernProg α :=
  Prog.embed Kernel.table (fun t s => { s with table := t }) KernPanic.table KernError.proc m

/-- A program of memory. -/
def onVm {α : Type} (m : VmProg α) : KernProg α :=
  Prog.embed Kernel.vm (fun vm s => { s with vm := vm }) KernPanic.vm KernError.vm m

/-- A program of the tables of open files. -/
def onFd {α : Type} (m : FdProg α) : KernProg α :=
  Prog.embed Kernel.fd (fun fd s => { s with fd := fd }) KernPanic.fd KernError.fs m

/-- `CLONE_VM` -/
def cloneVm : BitVec 32 := 0x100

/-- `CLONE_FS` -/
def cloneFs : BitVec 32 := 0x800

/-- `KSTACKPAGE` -/
def kstackPage : ℕ := 2

/-- `PROC_NAME_LEN` -/
def procNameLen : ℕ := 50

/-- `FS_MAX_FPATH_LEN` -/
def fsMaxFpathLen : ℕ := 4095

/-! ### Open files -/

/-- Source: `kern/fs/fs.h` `files_count_inc` -/
def filesCountInc (t : ℕ) : KernProg Unit :=
  onFd (Prog.modify fun w => { w with filesCount := Function.update w.filesCount t (w.filesCount t + 1) })

/-- Source: `kern/fs/fs.h` `files_count_dec` -/
def filesCountDec (t : ℕ) : KernProg ℕ := do
  onFd (Prog.modify fun w => { w with filesCount := Function.update w.filesCount t (w.filesCount t - 1) })
  let s ← Prog.get
  pure (s.fd.filesCount t)

/-- Source: `kern/fs/fs.c` `files_destroy` -/
def filesDestroy (t : ℕ) : KernProg Unit := do
  onFd (Fd.filesDestroy t)
  onVm (kfree t)
  Prog.modify fun s => { s with filesDestroys := Function.update s.filesDestroys t (s.filesDestroys t + 1) }

/-- `current->filesp`, which must not be `NULL`. -/
def currentFiles (c : ℕ) : KernProg ℕ := do
  let s ← Prog.get
  match s.filesp c with
  | none => Prog.stop .noFiles
  | some t => pure t

/-- Source: `kern/process/proc.c` `put_fs` -/
def putFs (c : ℕ) : KernProg Unit := do
  let s ← Prog.get
  match s.filesp c with
  | none => pure ()
  | some t => do
    let n ← filesCountDec t
    (if n = 0 then filesDestroy t else pure () : KernProg Unit)

section allocators

variable (al : Allocs)

/-- Source: `kern/fs/fs.c` `files_create` -/
def filesCreate : KernProg (Option ℕ) := do
  match ← onVm (kmalloc al) with
  | none => pure none
  | some block => do
    Prog.modify fun s => { s with fd := { s.fd with freshTable := block }, filesStructs := block :: s.filesStructs }
    let t ← onFd Fd.filesCreate
    pure (some t)

/-- Source: `kern/process/proc.c` `copy_fs` -/
def copyFs (c : ℕ) (flags : BitVec 32) (p : ℕ) : KernProg Unit := do
  let old ← currentFiles c
  let t ← (if flags &&& cloneFs ≠ 0 then pure old
    else do
      match ← filesCreate al with
      | none => Prog.throw (.vm .noMem)
      | some t =>
        match ← Prog.attempt (onFd (dupFs t old)) with
        | .error e => do
          filesDestroy t
          Prog.throw e
        | .ok () => pure t : KernProg ℕ)
  filesCountInc t
  Prog.modify fun s => { s with filesp := Function.update s.filesp p (some t) }

/-! ### Address spaces -/

/-- Source: `kern/process/proc.c` `copy_mm` -/
def copyMm (c : ℕ) (flags : BitVec 32) (p : ℕ) : KernProg Unit := do
  let s ← Prog.get
  match s.mm c with
  | none => pure ()
  | some old => do
    let m ← (if flags &&& cloneVm ≠ 0 then do
        onVm (mmCountInc old)
        pure old
      else onVm (Vm.copyMm al old) : KernProg ℕ)
    Prog.modify fun s => { s with mm := Function.update s.mm p (some m) }

/-- The process gives up its address space: the same lines in `do_exit` and in `do_execve`. -/
def mmRelease (c : ℕ) : KernProg Unit := do
  let s ← Prog.get
  match s.mm c with
  | none => pure ()
  | some m => do
    let n ← onVm (mmCountDec m)
    (if n = 0 then onVm (cleanupMm al m) else pure () : KernProg Unit)
    Prog.modify fun s => { s with mm := Function.update s.mm c none }

/-! ### Fork and exit -/

/-- Source: `kern/process/proc.c` `alloc_proc` -/
def allocProc : KernProg (Option ℕ) := do
  match ← onVm (kmalloc al) with
  | none => pure none
  | some p => do
    onTable (setProc p Process.allocProc)
    Prog.modify fun s =>
      { s with
        mm := Function.update s.mm p none
        filesp := Function.update s.filesp p none
        kstack := Function.update s.kstack p 0 }
    pure (some p)

/-- Source: `kern/process/proc.c` `setup_kstack` -/
def setupKstack (p : ℕ) : KernProg Unit := do
  match ← onVm (allocPages al kstackPage) with
  | none => Prog.throw (.vm .noMem)
  | some page => Prog.modify fun s => { s with kstack := Function.update s.kstack p page }

/-- Source: `kern/process/proc.c` `put_kstack` -/
def putKstack (p : ℕ) : KernProg Unit := do
  let s ← Prog.get
  onVm (freePages (s.kstack p) kstackPage)

/-- The end of `do_fork`, behind `copy_thread`. -/
def forkLinks (p : ℕ) : TableProg ℤ := do
  let pid ← tableGetPid
  setProc p fun d => { d with pid := pid }
  hashProc p
  setLinks p
  wakeupProc p
  pure pid

/-- `do_fork` from `setup_kstack` on, where `p` is the child. What `copy_fs` and `copy_mm` return when they fail is not passed on. -/
def forkBuild (c p : ℕ) (flags : BitVec 32) : KernProg ℤ := do
  match ← Prog.attempt (setupKstack al p) with
  | .error _ => do
    onVm (kfree p)
    Prog.throw (.vm .noMem)
  | .ok () =>
    match ← Prog.attempt (copyFs al c flags p) with
    | .error _ => do
      putKstack p
      onVm (kfree p)
      Prog.throw (.vm .noMem)
    | .ok () =>
      match ← Prog.attempt (copyMm al c flags p) with
      | .error _ => do
        -- `copy_mm` goes to the label behind the one with `put_fs`.
        putKstack p
        onVm (kfree p)
        Prog.throw (.vm .noMem)
      | .ok () => onTable (forkLinks p)

/-- `do_fork` by the process `c`. Source: `kern/process/proc.c` `do_fork` -/
def doFork (c : ℕ) (flags : BitVec 32) : KernProg ℤ := do
  let s ← Prog.get
  if s.table.nrProcess ≥ maxProcess then
    Prog.throw (.proc .noFreeProc)
  else do
    match ← allocProc al with
    | none => Prog.throw (.vm .noMem)
    | some p => do
      onTable (setProc p fun d => { d with parent := some c })
      let s ← Prog.get
      Prog.assert ((s.table.proc c).waitState = 0) (.table .waitState)
      forkBuild al c p flags

/-- `do_exit` by the process `c`, up to the call of `schedule`. Source: `kern/process/proc.c` `do_exit` -/
def doExit (fuel c : ℕ) (code : ℤ) : KernProg Unit := do
  let s ← Prog.get
  if c = s.table.idleproc then
    Prog.stop (.table .idleExit)
  else if some c = s.table.initproc then
    Prog.stop (.table .initExit)
  else do
    mmRelease al c
    putFs c
    onTable (Process.doExit fuel c code)

/-! ### Exec -/

/-- The arguments of `do_execve`, what it reads, and what it finds under the path. -/
structure ExecCall where
  /-- The pointer to the name, if it is not `NULL`. -/
  name : Option ℕ
  argc : ℤ
  argv : ℕ
  /-- The memory that the process sees. -/
  mem : ℕ → UInt8
  /-- What a new buffer of the kernel holds. -/
  junk : ℕ → ℕ → UInt8
  /-- What `vfs_open` returns for the path. -/
  found : Except FsError ℕ
  file : ExecFile

/-- `file_open` for reading, by a process with the table `t`. Source: `kern/fs/file.c` `file_open` -/
def fileOpen (t : ℕ) (found : Except FsError ℕ) : FdProg ℕ := do
  let fd ← fdArrayAlloc t none
  match found with
  | .error e => do
    fdArrayFree (t, fd)
    Prog.throw e
  | .ok node => do
    fileOpenEnd (t, fd) node
    pure fd

/-- Source: `kern/fs/sysfile.c` `sysfile_open` -/
def sysfileOpen (c t path : ℕ) (e : ExecCall) : KernProg ℤ := do
  match ← onVm (kmalloc al) with
  | none => Prog.throw (.fs .noMem)
  | some buffer => do
    let s ← Prog.get
    let (done, _) ← onVm (copyString (s.mm c) e.mem (e.junk buffer) path (fsMaxFpathLen + 1))
    if done then do
      let r ← Prog.attempt (onFd (fileOpen t e.found))
      onVm (kfree buffer)
      match r with
      | .error err => Prog.throw err
      | .ok fd => pure (fd : ℤ)
    else do
      onVm (kfree buffer)
      Prog.throw (.fs .inval)

/-- `load_icode` for the process `c`, which has the table `t` and the file open as `fd`.
Source: `kern/process/proc.c` `load_icode` -/
def loadIcode (c t : ℕ) (fd : ℤ) (file : ExecFile) (args : List (List UInt8)) : KernProg Loaded := do
  let s ← Prog.get
  Prog.assert (s.mm c = none) .mmNotEmpty
  match ← onVm (mmCreate al) with
  | none => Prog.throw (.vm .noMem)
  | some m =>
    match ← Prog.attempt (onVm (setupPgdir al m)) with
    | .error _ => do
      onVm (mmDestroy m)
      Prog.throw (.vm .noMem)
    | .ok () =>
      match ← Prog.attempt (onVm (readElfHdr al file)) with
      | .error e => do
        onVm (putPgdir m)
        onVm (mmDestroy m)
        Prog.throw e
      | .ok elf =>
        match ← Prog.attempt (onVm (loadSegments al file m elf (List.range elf.ePhnum))) with
        | .error e => do
          onVm (cleanupMm al m)
          Prog.throw e
        | .ok () => do
          -- What `sysfile_close` returns is not looked at.
          let _ ← Prog.attempt (onFd (Fd.fileClose t fd))
          match ← Prog.attempt (onVm (mmMap al m (ustackTop - ustackSize) ustackSize (vmRead ||| vmWrite ||| vmStack))) with
          | .error e => do
            onVm (cleanupMm al m)
            Prog.throw e
          | .ok () => do
            let loaded ← onVm (finishLoad al m elf args)
            Prog.modify fun s => { s with mm := Function.update s.mm c (some m) }
            pure loaded

/-- How `do_execve` ends: the process goes on with the new program, or it has exited. -/
inductive ExecEnd where
  | running (loaded : Loaded)
  | exited
  deriving DecidableEq

/-- The label `execve_exit` of `do_execve`. -/
def execveExit (fuel c : ℕ) (kargv : List Kbuf) (e : KernError) : KernProg ExecEnd := do
  onVm (putKargv kargv.reverse)
  doExit al fuel c (-e.code)
  pure .exited

/-- `do_execve` by the process `c`. Source: `kern/process/proc.c` `do_execve` -/
def doExecve (fuel c : ℕ) (e : ExecCall) : KernProg ExecEnd := do
  let s ← Prog.get
  if ¬ (1 ≤ e.argc ∧ e.argc ≤ execMaxArgNum) then
    Prog.throw (.vm .inval)
  else do
    (match e.name with
      | none => pure ()
      | some name => do
        let (done, _) ← onVm (copyString (s.mm c) e.mem (e.junk 0) name (procNameLen + 1))
        if done then pure () else Prog.throw (.vm .inval) : KernProg Unit)
    let kargv ← onVm (copyKargv al (s.mm c) e.mem e.junk e.argc.toNat e.argv)
    let t ← currentFiles c
    onFd (filesCloseall t)
    match ← Prog.attempt (sysfileOpen al c t (wordAt e.mem e.argv) e) with
    | .error err => execveExit al fuel c kargv err
    | .ok fd => do
      mmRelease al c
      match ← Prog.attempt (loadIcode al c t fd e.file (kargv.map Kbuf.string)) with
      | .error err => execveExit al fuel c kargv err
      | .ok loaded => do
        onVm (putKargv kargv.reverse)
        pure (.running loaded)

/-! ### The first processes -/

/-- Source: `kern/process/proc.c` `proc_init` -/
def procInit : KernProg Unit := do
  match ← allocProc al with
  | none => Prog.stop .procInit
  | some idle => do
    onTable (setProc idle fun d => { d with pid := 0, state := .runnable })
    match ← filesCreate al with
    | none => Prog.stop .procInit
    | some t => do
      Prog.modify fun s => { s with filesp := Function.update s.filesp idle (some t) }
      filesCountInc t
      onTable (Prog.modify fun t => { t with idleproc := idle, nrProcess := t.nrProcess + 1 })
      let pid ← doFork al idle cloneVm
      onTable (Prog.modify fun t => { t with initproc := t.findProc pid })

end allocators

end Ucore.Kern
