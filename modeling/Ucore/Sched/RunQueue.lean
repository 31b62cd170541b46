import Ucore.Lib.Prog
import Ucore.Process.Table
import Ucore.Sched.SkewHeap

/-!
# The run queue

`kern/schedule/sched.c` and the stride scheduler of `kern/schedule/default_sched.c`, as they are compiled with the skew
heap.

* A process is known by the address of its `struct proc_struct`. `SchedState.pool` holds the fields `lab6_run_pool` of all
  processes, and `runPool` is the field of this name of the run queue.
* `strideEnqueue`, `strideDequeue`, `stridePickNext` and `strideProcTick` are the scheduling class; `wakeupProc` and
  `schedule` use it.
* `doFork`, `doExit`, `beginSleep` and `reap` are the parts of the process calls that the run queue depends on.
-/

namespace Ucore.Sched

open Ucore.Lib Ucore.Process

/-- `BIG_STRIDE` -/
def bigStride : BitVec 32 := 0x7FFFFFFF

/-- The fields of a process that the scheduler has.
Source: `kern/process/proc.h` `struct proc_struct` -/
structure SchedProc where
  state : ProcState
  waitState : ℕ
  needResched : Bool
  runs : ℤ
  /-- The pointer `rq` leads to the run queue. -/
  onRq : Bool
  timeSlice : ℤ
  /-- `lab6_stride` -/
  stride : BitVec 32
  /-- `lab6_priority` -/
  priority : BitVec 32
  deriving Repr, DecidableEq

/-- The processes and the run queue `rq`. -/
structure SchedState where
  proc : ℕ → SchedProc
  /-- The nodes `lab6_run_pool` of the processes. -/
  pool : LinkMem ℕ
  /-- `rq->lab6_run_pool` -/
  runPool : Option ℕ
  procNum : BitVec 32
  maxTimeSlice : ℤ
  current : ℕ
  idleproc : ℕ
  procList : List ℕ
  nrProcess : ℤ

/-- Where the code stops: the assertions, and a merge that follows pointers without end. -/
inductive SchedPanic where
  | loop | wakeupZombie | waitState | idleExit
  deriving Repr, DecidableEq

/-- The error codes, without their sign. -/
inductive SchedError where
  | noFreeProc | noMem
  deriving Repr, DecidableEq

/-- Code that works on the run queue. -/
abbrev SchedProg := Prog SchedPanic SchedError SchedState

/-- Change a process. -/
def SchedState.setProc (s : SchedState) (p : ℕ) (f : SchedProc → SchedProc) : SchedState :=
  { s with proc := Function.update s.proc p (f (s.proc p)) }

/-- Change a process, as a program. -/
def setProc (p : ℕ) (f : SchedProc → SchedProc) : SchedProg Unit := Prog.modify fun s => s.setProc p f

/-! ### The scheduling class -/

/-- Source: `kern/schedule/default_sched.c` `proc_stride_comp_f` -/
def procStrideComp (proc : ℕ → SchedProc) (a b : ℕ) : ℤ :=
  let c := ((proc a).stride - (proc b).stride).toInt
  if c > 0 then 1 else if c = 0 then 0 else -1

/-- The fields that `stride_enqueue` writes. -/
def SchedProc.enqueued (d : SchedProc) (maxTimeSlice : ℤ) : SchedProc :=
  { d with
    timeSlice := if d.timeSlice = 0 ∨ d.timeSlice > maxTimeSlice then maxTimeSlice else d.timeSlice
    onRq := true }

/-- Source: `kern/schedule/default_sched.c` `stride_enqueue` -/
def strideEnqueue (fuel p : ℕ) : SchedProg Unit := do
  let s ← Prog.get
  match skewHeapInsert (procStrideComp s.proc) fuel s.pool s.runPool p with
  | none => Prog.stop .loop
  | some (pool, root) =>
    Prog.modify fun s =>
      { s.setProc p fun d => d.enqueued s.maxTimeSlice with pool := pool, runPool := root, procNum := s.procNum + 1 }

/-- Source: `kern/schedule/default_sched.c` `stride_dequeue` -/
def strideDequeue (fuel p : ℕ) : SchedProg Unit := do
  let s ← Prog.get
  match skewHeapRemove (procStrideComp s.proc) fuel s.pool s.runPool p with
  | none => Prog.stop .loop
  | some (pool, root) => Prog.modify fun s => { s with pool := pool, runPool := root, procNum := s.procNum - 1 }

/-- What is added to the stride of a process with this priority when it is picked. -/
def stridePass (priority : BitVec 32) : BitVec 32 := if priority = 0 then bigStride else bigStride / priority

/-- Source: `kern/schedule/default_sched.c` `stride_pick_next` -/
def stridePickNext : SchedProg (Option ℕ) := do
  let s ← Prog.get
  match s.runPool with
  | none => pure none
  | some p => do
    setProc p fun d => { d with stride := d.stride + stridePass d.priority }
    pure (some p)

/-- Source: `kern/schedule/default_sched.c` `stride_proc_tick` -/
def strideProcTick (p : ℕ) : SchedProg Unit := do
  setProc p fun d => if d.timeSlice > 0 then { d with timeSlice := d.timeSlice - 1 } else d
  setProc p fun d => if d.timeSlice = 0 then { d with needResched := true } else d

/-! ### The scheduler -/

/-- Source: `kern/schedule/sched.c` `sched_class_enqueue` -/
def schedClassEnqueue (fuel p : ℕ) : SchedProg Unit := do
  let s ← Prog.get
  if p ≠ s.idleproc then strideEnqueue fuel p else pure ()

/-- Source: `kern/schedule/sched.c` `sched_class_proc_tick` -/
def schedClassProcTick (p : ℕ) : SchedProg Unit := do
  let s ← Prog.get
  if p ≠ s.idleproc then strideProcTick p else setProc p fun d => { d with needResched := true }

/-- Source: `kern/schedule/sched.c` `wakeup_proc` -/
def wakeupProc (fuel p : ℕ) : SchedProg Unit := do
  let s ← Prog.get
  Prog.assert ((s.proc p).state ≠ .zombie) .wakeupZombie
  if (s.proc p).state ≠ .runnable then do
    setProc p fun d => { d with state := .runnable, waitState := 0 }
    if p ≠ s.current then schedClassEnqueue fuel p else pure ()
  else pure ()

/-- Source: `kern/process/proc.c` `proc_run` -/
def procRun (p : ℕ) : SchedProg Unit := Prog.modify fun s => { s with current := p }

/-- The first part of `schedule`: the current process goes back to the run queue when it can run. -/
def putBack (fuel : ℕ) : SchedProg Unit := do
  let s ← Prog.get
  setProc s.current fun d => { d with needResched := false }
  if (s.proc s.current).state = .runnable then schedClassEnqueue fuel s.current else pure ()

/-- The last part of `schedule`: the process `next` runs, or `idleproc` when there is none. -/
def runNext (next : Option ℕ) : SchedProg Unit := do
  let s ← Prog.get
  setProc (next.getD s.idleproc) fun d => { d with runs := d.runs + 1 }
  if next.getD s.idleproc ≠ s.current then procRun (next.getD s.idleproc) else pure ()

/-- Source: `kern/schedule/sched.c` `schedule` -/
def schedule (fuel : ℕ) : SchedProg Unit := do
  putBack fuel
  let next ← stridePickNext
  (match next with
    | some p => strideDequeue fuel p
    | none => pure () : SchedProg Unit)
  runNext next

/-! ### The process calls -/

/-- The fields of the scheduler after `alloc_proc`.
Source: `kern/process/proc.c` `alloc_proc` -/
def allocProc : SchedProc := ⟨.uninit, 0, false, 0, false, 0, 0, 0⟩

/-- `do_fork`, where `mem` is the memory for the child, if there is any, and `copied` says whether its kernel stack, its
files and its memory could be set up.
Source: `kern/process/proc.c` `do_fork` -/
def doFork (fuel : ℕ) (mem : Option ℕ) (copied : Bool) : SchedProg Unit := do
  let s ← Prog.get
  if s.nrProcess ≥ maxProcess then
    Prog.throw .noFreeProc
  else
    match mem with
    | none => Prog.throw .noMem
    | some p => do
      Prog.modify fun s => { s.setProc p fun _ => allocProc with pool := skewHeapInit s.pool p }
      Prog.assert ((s.proc s.current).waitState = 0) .waitState
      if copied then do
        Prog.modify fun s => { s with procList := p :: s.procList, nrProcess := s.nrProcess + 1 }
        wakeupProc fuel p
      else Prog.throw .noMem

/-- The current process sleeps until `waitState` is over; what follows is a call of `schedule`.
Source: `kern/process/proc.c` `do_wait`, `do_sleep`, `kern/sync/wait.c` `wait_current_set` -/
def beginSleep (waitState : ℕ) : SchedProg Unit := do
  let s ← Prog.get
  setProc s.current fun d => { d with state := .sleeping, waitState := waitState }

/-- `do_exit` by a process other than `initproc`, up to the calls of `wakeup_proc` for the parent and for `initproc`.
Source: `kern/process/proc.c` `do_exit` -/
def doExit : SchedProg Unit := do
  let s ← Prog.get
  if s.current = s.idleproc then
    Prog.stop .idleExit
  else
    setProc s.current fun d => { d with state := .zombie }

/-- The end of `do_wait`: the child `p` leaves the table, and its memory is free.
Source: `kern/process/proc.c` `do_wait` -/
def reap (p : ℕ) : SchedProg Unit :=
  Prog.modify fun s => { s with procList := s.procList.erase p, nrProcess := s.nrProcess - 1 }

/-- Source: `kern/process/proc.c` `lab6_set_priority` -/
def setPriority (priority : BitVec 32) : SchedProg Unit := do
  let s ← Prog.get
  setProc s.current fun d => { d with priority := if priority = 0 then 1 else priority }

/-- Source: `kern/process/proc.c` `do_yield` -/
def doYield : SchedProg Unit := do
  let s ← Prog.get
  setProc s.current fun d => { d with needResched := true }

/-- The machine after `sched_init` and the part of `proc_init` that makes `idleproc`.
Source: `kern/schedule/sched.c` `sched_init`, `default_sched.c` `stride_init`, `kern/process/proc.c` `proc_init` -/
def SchedState.boot (proc : ℕ → SchedProc) (pool : LinkMem ℕ) (idle : ℕ) : SchedState where
  proc := Function.update proc idle { allocProc with state := .runnable, needResched := true }
  pool := pool
  runPool := none
  procNum := 0
  maxTimeSlice := 5
  current := idle
  idleproc := idle
  procList := []
  nrProcess := 1

end Ucore.Sched
