import Ucore.Lib.Semaphores
import Ucore.Sched.Timer

/-!
# Semaphores of the kernel

The semaphores of `kern/sync/sem.c` on the wait queues of `kern/sync/wait.c`, with all else that puts processes to sleep
and wakes them up.

* `SyncState` has the fields of the processes that this code uses, and for each one its `Site`: where its own code is.
  The processes are those other than `idleproc`, which does nothing but `schedule`.
* `up`, `downBegin` and `downEnd`, `tryDown` are the functions on semaphores. A `down` that blocks is cut at the call of
  `schedule`.
* `doKill`, `runTimer`, `doSleepBegin`, `devStdinWrite`, `doExit`, … are the other functions that call `wakeup_proc` or
  sleep, as far as they concern sleeping.
* `Call` is a piece of code that runs without another process in between, and `Call.exec` its program.
-/

namespace Ucore.Sync

open Ucore.Lib Ucore.Process Ucore.Sched

/-- `WT_KSEM` -/
def wtKsem : ℕ := 0x100

/-- `WT_KBD` -/
def wtKbd : ℕ := 0x80000004

/-- The wait queues: those of the semaphores, which are known by their addresses, and the one of `dev_stdin.c`. -/
inductive WaitQueue where
  | sem (x : ℕ)
  | stdin
  deriving Repr, DecidableEq

/-- Where the code of a process is. -/
inductive Site where
  /-- The process is not there yet. -/
  | unborn
  | running
  /-- After `wait_current_set`, in `schedule` or about to call it. -/
  | waiting (q : WaitQueue)
  /-- In `do_sleep`. -/
  | sleeping
  /-- In `do_wait`. -/
  | waitingChild
  | exited
  deriving Repr, DecidableEq

/-- The `wait_t` on the stack of a process; there is one at a time. Source: `kern/sync/wait.h` `wait_t` -/
structure Wait where
  wakeupFlags : ℕ
  /-- The queue that it is linked in. -/
  waitQueue : Option WaitQueue
  deriving Repr, DecidableEq

/-- The fields of a process that waiting is about. Source: `kern/process/proc.h` `struct proc_struct` -/
structure SyncProc where
  state : ProcState
  waitState : ℕ
  /-- `PF_EXITING` -/
  exiting : Bool
  wait : Wait
  site : Site
  deriving Repr, DecidableEq

/-- The processes, the semaphores, the queues, and the processes with a timer in `timer_list`. -/
structure SyncState where
  proc : ℕ → SyncProc
  value : ℕ → ℤ
  queue : WaitQueue → List ℕ
  timers : List ℕ

/-- The assertions. -/
inductive SyncPanic where
  | wakeupZombie | queueAdd | queueDel | upWaitState | downFlags | timerWaitState
  deriving Repr, DecidableEq

abbrev SyncProg := Prog SyncPanic Unit SyncState

/-- Change a process. -/
def SyncState.setProc (s : SyncState) (p : ℕ) (f : SyncProc → SyncProc) : SyncState :=
  { s with proc := Function.update s.proc p (f (s.proc p)) }

/-- Change a process, as a program. -/
def setProc (p : ℕ) (f : SyncProc → SyncProc) : SyncProg Unit := Prog.modify fun s => s.setProc p f

/-- Change the queue `q`. -/
def SyncState.setQueue (s : SyncState) (q : WaitQueue) (l : List ℕ) : SyncState :=
  { s with queue := Function.update s.queue q l }

/-- The value of an `int`. -/
def int32 (n : ℤ) : ℤ := Int.bmod n (2 ^ 32)

/-- Change the value of a semaphore. -/
def SyncState.setValue (s : SyncState) (x : ℕ) (n : ℤ) : SyncState :=
  { s with value := Function.update s.value x (int32 n) }

/-! ### Wait queues -/

/-- `wakeup_proc` on the fields of the process. -/
def SyncProc.woken (d : SyncProc) : SyncProc :=
  if d.state ≠ .runnable then { d with state := .runnable, waitState := 0 } else d

/-- Source: `kern/schedule/sched.c` `wakeup_proc` -/
def wakeupProc (p : ℕ) : SyncProg Unit := do
  let s ← Prog.get
  Prog.assert ((s.proc p).state ≠ .zombie) .wakeupZombie
  setProc p SyncProc.woken

/-- Source: `kern/sync/wait.c` `wait_init` -/
def waitInit (p : ℕ) : SyncProg Unit := setProc p fun d => { d with wait := ⟨wtInterrupted, none⟩ }

/-- Source: `kern/sync/wait.c` `wait_queue_add` -/
def waitQueueAdd (q : WaitQueue) (p : ℕ) : SyncProg Unit := do
  let s ← Prog.get
  Prog.assert ((s.proc p).wait.waitQueue = none) .queueAdd
  Prog.modify fun s => s.setQueue q (s.queue q ++ [p])
  setProc p fun d => { d with wait := { d.wait with waitQueue := some q } }

/-- Source: `kern/sync/wait.c` `wait_queue_del` -/
def waitQueueDel (q : WaitQueue) (p : ℕ) : SyncProg Unit := do
  let s ← Prog.get
  Prog.assert ((s.proc p).wait.waitQueue = some q) .queueDel
  Prog.modify fun s => s.setQueue q ((s.queue q).erase p)
  setProc p fun d => { d with wait := { d.wait with waitQueue := none } }

/-- `wakeup_wait`, when it also takes the entry out of the queue. Source: `kern/sync/wait.c` `wakeup_wait` -/
def wakeupWait (q : WaitQueue) (p flags : ℕ) : SyncProg Unit := do
  waitQueueDel q p
  setProc p fun d => { d with wait := { d.wait with wakeupFlags := flags } }
  wakeupProc p

/-- `wakeup_queue`, when it also empties the queue: the loop takes the first entry until there is none, so it goes
through the entries `l` that there are at the start. Source: `kern/sync/wait.c` `wakeup_queue` -/
def wakeupQueue (q : WaitQueue) (flags : ℕ) : List ℕ → SyncProg Unit
  | [] => pure ()
  | p :: l => do
    wakeupWait q p flags
    wakeupQueue q flags l

/-- Source: `kern/sync/wait.c` `wait_current_set` -/
def waitCurrentSet (q : WaitQueue) (p waitState : ℕ) : SyncProg Unit := do
  waitInit p
  setProc p fun d => { d with state := .sleeping, waitState := waitState }
  waitQueueAdd q p
  setProc p fun d => { d with site := .waiting q }

/-- Source: `kern/sync/wait.h` `wait_current_del` -/
def waitCurrentDel (q : WaitQueue) (p : ℕ) : SyncProg Unit := do
  let s ← Prog.get
  if (s.proc p).wait.waitQueue ≠ none then waitQueueDel q p else pure ()

/-! ### Semaphores -/

/-- Source: `kern/sync/sem.c` `__up` -/
def upState (x waitState : ℕ) : SyncProg Unit := do
  let s ← Prog.get
  match s.queue (.sem x) with
  | [] => Prog.modify fun s => s.setValue x (s.value x + 1)
  | p :: _ => do
    Prog.assert ((s.proc p).waitState = waitState) .upWaitState
    wakeupWait (.sem x) p waitState

/-- `__down` by the process `p` up to the call of `schedule`. Source: `kern/sync/sem.c` `__down` -/
def downBeginState (p x waitState : ℕ) : SyncProg Unit := do
  let s ← Prog.get
  if s.value x > 0 then
    Prog.modify fun s => s.setValue x (s.value x - 1)
  else
    waitCurrentSet (.sem x) p waitState

/-- `__down` from the return of `schedule` on. -/
def downEndState (p x waitState : ℕ) : SyncProg ℕ := do
  waitCurrentDel (.sem x) p
  setProc p fun d => { d with site := .running }
  let s ← Prog.get
  if (s.proc p).wait.wakeupFlags ≠ waitState then pure (s.proc p).wait.wakeupFlags else pure 0

/-- Source: `kern/sync/sem.c` `up` -/
def up (x : ℕ) : SyncProg Unit := upState x wtKsem

/-- The first part of `down`. When it does not block, `__down` returns 0, which is what `down` asserts.
Source: `kern/sync/sem.c` `down` -/
def downBegin (p x : ℕ) : SyncProg Unit := downBeginState p x wtKsem

/-- The second part of `down`, after it has blocked. -/
def downEnd (p x : ℕ) : SyncProg Unit := do
  let flags ← downEndState p x wtKsem
  Prog.assert (flags = 0) .downFlags

/-- Source: `kern/sync/sem.c` `try_down` -/
def tryDown (x : ℕ) : SyncProg Bool := do
  let s ← Prog.get
  if s.value x > 0 then do
    Prog.modify fun s => s.setValue x (s.value x - 1)
    pure true
  else pure false

/-! ### What else sleeps and wakes up -/

/-- `do_kill`, when it has found the process. Source: `kern/process/proc.c` `do_kill` -/
def doKill (p : ℕ) : SyncProg Unit := do
  let s ← Prog.get
  if ¬ (s.proc p).exiting then do
    setProc p fun d => { d with exiting := true }
    if (s.proc p).waitState &&& wtInterrupted ≠ 0 then wakeupProc p else pure ()
  else pure ()

/-- `do_sleep` up to the call of `schedule`. Source: `kern/process/proc.c` `do_sleep` -/
def doSleepBegin (p : ℕ) : SyncProg Unit := do
  setProc p fun d => { d with state := .sleeping, waitState := wtTimer, site := .sleeping }
  Prog.modify fun s => { s with timers := p :: s.timers }

/-- `do_sleep` from the return of `schedule` on. -/
def doSleepEnd (p : ℕ) : SyncProg Unit := do
  Prog.modify fun s => { s with timers := s.timers.erase p }
  setProc p fun d => { d with site := .running }

/-- The timer of `p` expires: a turn of the loop of `run_timer_list`. Source: `kern/schedule/sched.c` `run_timer_list` -/
def runTimer (p : ℕ) : SyncProg Unit := do
  let s ← Prog.get
  Prog.assert ((s.proc p).waitState = 0 ∨ (s.proc p).waitState &&& wtInterrupted ≠ 0) .timerWaitState
  wakeupProc p
  Prog.modify fun s => { s with timers := s.timers.erase p }

/-- `do_wait` finds no zombie, up to the call of `schedule`. Source: `kern/process/proc.c` `do_wait` -/
def doWaitBegin (p : ℕ) : SyncProg Unit :=
  setProc p fun d => { d with state := .sleeping, waitState := wtChild, site := .waitingChild }

/-- `do_wait` from the return of `schedule` on. -/
def doWaitEnd (p : ℕ) : SyncProg Unit := setProc p fun d => { d with site := .running }

/-- `dev_stdin_read` finds no character, up to the call of `schedule`. Source: `kern/fs/devs/dev_stdin.c` `dev_stdin_read` -/
def devStdinReadBegin (p : ℕ) : SyncProg Unit := waitCurrentSet .stdin p wtKbd

/-- `dev_stdin_read` from the return of `schedule` on. -/
def devStdinReadEnd (p : ℕ) : SyncProg Unit := do
  waitCurrentDel .stdin p
  setProc p fun d => { d with site := .running }

/-- Source: `kern/fs/devs/dev_stdin.c` `dev_stdin_write` -/
def devStdinWrite : SyncProg Unit := do
  let s ← Prog.get
  wakeupQueue .stdin wtKbd (s.queue .stdin)

/-- `do_exit` and `wakeup_proc` on a process that waits for children, for each of `l`: the parent, and `initproc` for each
child that has exited before. Source: `kern/process/proc.c` `do_exit` -/
def wakeupParents : List ℕ → SyncProg Unit
  | [] => pure ()
  | q :: l => do
    let s ← Prog.get
    (if (s.proc q).waitState = wtChild then wakeupProc q else pure () : SyncProg Unit)
    wakeupParents l

/-- Source: `kern/process/proc.c` `do_exit` -/
def doExit (p : ℕ) (l : List ℕ) : SyncProg Unit := do
  setProc p fun d => { d with state := .zombie, site := .exited }
  wakeupParents l

/-- The end of `do_fork`; `p` is the memory of the child. Source: `kern/process/proc.c` `alloc_proc` `do_fork` -/
def doFork (p : ℕ) : SyncProg Unit := do
  setProc p fun d => { d with state := .uninit, waitState := 0, exiting := false, site := .running }
  wakeupProc p

/-! ### Interleavings -/

/-- A piece of code that runs without another process in between; `p` is the process that runs it. -/
inductive Call where
  | up (p x : ℕ)
  | down (p x : ℕ)
  | tryDown (p x : ℕ)
  /-- `schedule` returns to a process that was asleep. -/
  | resume (p : ℕ)
  | kill (p q : ℕ)
  | sleep (p : ℕ)
  | timer (q : ℕ)
  | wait (p : ℕ)
  | read (p : ℕ)
  | write
  | exit (p : ℕ) (l : List ℕ)
  | fork (p q : ℕ)
  deriving Repr, DecidableEq

/-- What happens after `schedule` has returned. -/
def resumeAt (p : ℕ) : Site → SyncProg Unit
  | .waiting (.sem x) => downEnd p x
  | .waiting .stdin => devStdinReadEnd p
  | .sleeping => doSleepEnd p
  | .waitingChild => doWaitEnd p
  | _ => pure ()

/-- The program of a call. -/
def Call.exec : Call → SyncProg Unit
  | .up _ x => Sync.up x
  | .down p x => downBegin p x
  | .tryDown _ x => do
    let _ ← Sync.tryDown x
    pure ()
  | .resume p => do
    let s ← Prog.get
    resumeAt p (s.proc p).site
  | .kill _ q => doKill q
  | .sleep p => doSleepBegin p
  | .timer q => runTimer q
  | .wait p => doWaitBegin p
  | .read p => devStdinReadBegin p
  | .write => devStdinWrite
  | .exit p l => doExit p l
  | .fork _ q => doFork q

/-- The process can go on with its code. -/
def SyncState.Running (s : SyncState) (p : ℕ) : Prop := (s.proc p).state = .runnable ∧ (s.proc p).site = .running

/-- What can happen: a runnable process makes a call or returns from `schedule`, or there is an interrupt. -/
def Call.Enabled (s : SyncState) : Call → Prop
  | .up p _ => s.Running p
  | .down p _ => s.Running p
  | .tryDown p _ => s.Running p
  | .resume p => (s.proc p).state = .runnable ∧ (s.proc p).site ≠ .running
  | .kill p _ => s.Running p
  | .sleep p => s.Running p
  | .timer q => q ∈ s.timers
  | .wait p => s.Running p
  | .read p => s.Running p
  | .write => True
  | .exit p _ => s.Running p
  | .fork p q => s.Running p ∧ ((s.proc q).site = .unborn ∨ (s.proc q).site = .exited)

end Ucore.Sync
