import Ucore.Lib.Prog
import Ucore.Process.Pid
import Mathlib.Logic.Function.Basic

/-!
# The process table

The processes of `kern/process/proc.c` with the links between them: `proc_list`, the hash table over the identifiers,
and the pointers of the family tree.

* A process is known by the address of its `struct proc_struct`, and `ProcTable.proc` is the memory there.
* `setLinks`, `removeLinks`, `hashProc`, `unhashProc` and `ProcTable.findProc` are the functions on the links.
* `doFork`, `doExit` and `waitPass` are the parts of `do_fork`, `do_exit` and `do_wait` that concern the table. What
  these do to memory, to files and to the run queue is in other modules.
-/

namespace Ucore.Process

open Ucore.Lib

/-- Source: `kern/process/proc.h` `enum proc_state` -/
inductive ProcState where
  | uninit | sleeping | runnable | zombie
  deriving Repr, DecidableEq

/-- `WT_CHILD` -/
def wtChild : ℕ := 0x80000001

/-- The fields of a process that the table has.
Source: `kern/process/proc.h` `struct proc_struct` -/
structure Proc where
  state : ProcState
  pid : ℤ
  parent : Option ℕ
  exitCode : ℤ
  waitState : ℕ
  /-- The youngest child. -/
  cptr : Option ℕ
  /-- The next younger sibling. -/
  yptr : Option ℕ
  /-- The next older sibling. -/
  optr : Option ℕ
  deriving Repr, DecidableEq

/-- The process table. -/
structure ProcTable where
  proc : ℕ → Proc
  procList : List ℕ
  hashList : ℕ → List ℕ
  nrProcess : ℤ
  cursors : PidCursors
  idleproc : ℕ
  initproc : Option ℕ

/-- Where the code stops: a null pointer that is followed, a loop that has not ended, the assertions and the calls of
`panic`. -/
inductive ProcPanic where
  | null | loop | wakeupZombie | waitState | idleExit | initExit | waitInit
  deriving Repr, DecidableEq

/-- The error codes, without their sign. -/
inductive ProcError where
  | noFreeProc | badProc
  deriving Repr, DecidableEq

/-- Code that works on the table. -/
abbrev TableProg := Prog ProcPanic ProcError ProcTable

/-- Change a process. -/
def ProcTable.setProc (t : ProcTable) (p : ℕ) (f : Proc → Proc) : ProcTable :=
  { t with proc := Function.update t.proc p (f (t.proc p)) }

/-- Change a process, as a program. -/
def setProc (p : ℕ) (f : Proc → Proc) : TableProg Unit := Prog.modify fun t => t.setProc p f

/-- Change the process that a pointer leads to. -/
def setAt (ptr : Option ℕ) (f : Proc → Proc) : TableProg Unit :=
  match ptr with
  | some p => setProc p f
  | none => Prog.stop .null

/-- Change the process that a pointer leads to, if there is one. -/
def setIfAny (ptr : Option ℕ) (f : Proc → Proc) : TableProg Unit :=
  match ptr with
  | some p => setProc p f
  | none => pure ()

/-! ### The links -/

/-- The fields after `alloc_proc`; the exit code is whatever was in memory.
Source: `kern/process/proc.c` `alloc_proc` -/
def allocProc (old : Proc) : Proc := ⟨.uninit, -1, none, old.exitCode, 0, none, none, none⟩

/-- Source: `kern/process/proc.c` `set_links` -/
def setLinks (p : ℕ) : TableProg Unit := do
  Prog.modify fun t => { t with procList := p :: t.procList }
  setProc p fun d => { d with yptr := none }
  let t ← Prog.get
  match (t.proc p).parent with
  | none => Prog.stop .null
  | some q => do
    setProc p fun d => { d with optr := (t.proc q).cptr }
    setIfAny (t.proc q).cptr fun d => { d with yptr := some p }
    setProc q fun d => { d with cptr := some p }
    Prog.modify fun t => { t with nrProcess := t.nrProcess + 1 }

/-- Source: `kern/process/proc.c` `remove_links` -/
def removeLinks (p : ℕ) : TableProg Unit := do
  Prog.modify fun t => { t with procList := t.procList.erase p }
  let t ← Prog.get
  setIfAny (t.proc p).optr fun d => { d with yptr := (t.proc p).yptr }
  let t ← Prog.get
  (match (t.proc p).yptr with
    | some y => setProc y fun d => { d with optr := (t.proc p).optr }
    | none => setAt (t.proc p).parent fun d => { d with cptr := (t.proc p).optr } : TableProg Unit)
  Prog.modify fun t => { t with nrProcess := t.nrProcess - 1 }

/-- `pid_hashfn`, with ten bits.
Source: `libs/hash.c` `hash32` -/
def pidHashfn (pid : ℤ) : ℕ := (pid * 0x9e370001 % 2 ^ 32 / 2 ^ 22).toNat

/-- Source: `kern/process/proc.c` `hash_proc` -/
def hashProc (p : ℕ) : TableProg Unit :=
  Prog.modify fun t =>
    { t with
      hashList := Function.update t.hashList (pidHashfn (t.proc p).pid)
        (p :: t.hashList (pidHashfn (t.proc p).pid)) }

/-- `list_del` takes a process out of the list that it is in.
Source: `kern/process/proc.c` `unhash_proc` -/
def unhashProc (p : ℕ) : TableProg Unit :=
  Prog.modify fun t => { t with hashList := fun h => (t.hashList h).erase p }

/-- Source: `kern/process/proc.c` `find_proc` -/
def ProcTable.findProc (t : ProcTable) (pid : ℤ) : Option ℕ :=
  if 0 < pid ∧ pid < maxPid then (t.hashList (pidHashfn pid)).find? fun p => (t.proc p).pid = pid
  else none

/-- The identifiers in the order of `proc_list`. -/
def ProcTable.pids (t : ProcTable) : List ℤ := t.procList.map fun p => (t.proc p).pid

/-! ### The calls -/

/-- What `wakeup_proc` does to the process itself.
Source: `kern/schedule/sched.c` `wakeup_proc` -/
def wakeupProc (p : ℕ) : TableProg Unit := do
  let t ← Prog.get
  Prog.assert ((t.proc p).state ≠ .zombie) .wakeupZombie
  if (t.proc p).state ≠ .runnable then
    setProc p fun d => { d with state := .runnable, waitState := 0 }
  else pure ()

/-- `get_pid` on the processes in `proc_list`. -/
def tableGetPid : TableProg ℤ := do
  let t ← Prog.get
  match getPid t.pids 8191 t.cursors with
  | none => Prog.stop .loop
  | some c => do
    Prog.modify fun t => { t with cursors := c }
    pure c.lastPid

/-- `do_fork` by the process `c`, when every allocation succeeds and `p` is the memory for the child.
Source: `kern/process/proc.c` `do_fork` -/
def doFork (c p : ℕ) : TableProg ℤ := do
  let t ← Prog.get
  if t.nrProcess ≥ maxProcess then
    Prog.throw .noFreeProc
  else do
    setProc p fun d => { allocProc d with parent := some c }
    let t ← Prog.get
    Prog.assert ((t.proc c).waitState = 0) .waitState
    let pid ← tableGetPid
    setProc p fun d => { d with pid := pid }
    hashProc p
    setLinks p
    wakeupProc p
    pure pid

/-- One turn of the loop of `do_exit`: the first child of `c` goes to `initproc`. -/
def adopt (c p : ℕ) : TableProg Unit := do
  let t ← Prog.get
  setProc c fun d => { d with cptr := (t.proc p).optr }
  setProc p fun d => { d with yptr := none }
  let t ← Prog.get
  match t.initproc with
  | none => Prog.stop .null
  | some i => do
    setProc p fun d => { d with optr := (t.proc i).cptr }
    setIfAny (t.proc i).cptr fun d => { d with yptr := some p }
    setProc p fun d => { d with parent := some i }
    setProc i fun d => { d with cptr := some p }
    let t ← Prog.get
    if (t.proc p).state = .zombie ∧ (t.proc i).waitState = wtChild then
      wakeupProc i
    else pure ()

/-- The loop of `do_exit`, for at most `fuel` children. -/
def adoptAll (c : ℕ) : ℕ → TableProg Unit
  | 0 => do
    let t ← Prog.get
    Prog.assert ((t.proc c).cptr = none) .loop
  | fuel + 1 => do
    let t ← Prog.get
    match (t.proc c).cptr with
    | none => pure ()
    | some p => do
      adopt c p
      adoptAll c fuel

/-- `do_exit` by the process `c`, up to the call of `schedule`.
Source: `kern/process/proc.c` `do_exit` -/
def doExit (fuel c : ℕ) (code : ℤ) : TableProg Unit := do
  let t ← Prog.get
  if c = t.idleproc then
    Prog.stop .idleExit
  else if some c = t.initproc then
    Prog.stop .initExit
  else do
    setProc c fun d => { d with state := .zombie, exitCode := code }
    let t ← Prog.get
    match (t.proc c).parent with
    | none => Prog.stop .null
    | some q => do
      (if (t.proc q).waitState = wtChild then wakeupProc q else pure () : TableProg Unit)
      adoptAll c fuel

/-- The loop of `do_wait` over the children, from `ptr` on: the first one that is a zombie. -/
def ProcTable.zombieChild (t : ProcTable) : ℕ → Option ℕ → TableProg (Option ℕ)
  | _, none => pure none
  | 0, some _ => Prog.stop .loop
  | fuel + 1, some p =>
    if (t.proc p).state = .zombie then pure (some p) else t.zombieChild fuel (t.proc p).optr

/-- How a pass of `do_wait` ends: a child is gone, whose exit code goes to `*code_store`; or the process sleeps, and
will go on at the label `repeat`. -/
inductive WaitEnd where
  | reaped (p : ℕ) (code : ℤ)
  | asleep
  deriving Repr, DecidableEq

/-- From the label `found` of `do_wait` on. -/
def reap (p : ℕ) : TableProg WaitEnd := do
  let t ← Prog.get
  if p = t.idleproc ∨ some p = t.initproc then
    Prog.stop .waitInit
  else do
    unhashProc p
    removeLinks p
    pure (.reaped p (t.proc p).exitCode)

/-- The end of a pass in which no zombie was found. -/
def waitAsleep (c : ℕ) : TableProg WaitEnd := do
  setProc c fun d => { d with state := .sleeping, waitState := wtChild }
  pure .asleep

/-- One pass of `do_wait` by the process `c`, from the label `repeat` to the call of `schedule` or to the end.
Source: `kern/process/proc.c` `do_wait` -/
def waitPass (fuel c : ℕ) (pid : ℤ) : TableProg WaitEnd := do
  let t ← Prog.get
  if pid ≠ 0 then
    match t.findProc pid with
    | none => Prog.throw .badProc
    | some p =>
      if (t.proc p).parent = some c then
        if (t.proc p).state = .zombie then reap p else waitAsleep c
      else Prog.throw .badProc
  else do
    match (← t.zombieChild fuel (t.proc c).cptr), (t.proc c).cptr with
    | some p, _ => reap p
    | none, some _ => waitAsleep c
    | none, none => Prog.throw .badProc

/-- The table before `idleproc` forks. -/
def ProcTable.boot (proc : ℕ → Proc) (idle : ℕ) : ProcTable where
  proc := Function.update proc idle { allocProc (proc idle) with state := .runnable, pid := 0 }
  procList := []
  hashList := fun _ => []
  nrProcess := 1
  cursors := .init
  idleproc := idle
  initproc := none

/-- `proc_init`, when `p` is the memory for `initproc`.
Source: `kern/process/proc.c` `proc_init` -/
def procInit (idle p : ℕ) : TableProg Unit := do
  let pid ← doFork idle p
  Prog.modify fun t => { t with initproc := t.findProc pid }

end Ucore.Process
