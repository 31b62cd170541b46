import Ucore.Lib.Prog
import Ucore.Process.Table

/-!
# The life of the threads of lab 4

Kernel threads are created by `idleproc`, run in turn, and exit; `idleproc` waits for them with `do_wait`.

* `schedule`, `doFork`, `doExit` and `doWait` are the functions. `do_wait` is cut at its call of `schedule`: `doWait` is one turn of its
  loop.
* `ThreadRun` are the runs, with the threads that have exited and those that `do_wait` has removed.
* `threads_live_and_die`: nothing panics but the assertion of `wakeup_proc` in `do_exit`. `wait_state` is never cleared, so a thread
  that exits wakes its parent up again although the thread before it has done so already.
-/

namespace Ucore.Lab4

open Ucore.Lib Ucore.Process

/-- `WT_CHILD` -/
def wtChild : ℕ := 0x00000001

/-- `MAX_PROCESS` -/
def maxProcess : ℕ := 4096

/-- The fields that the life of a thread is about. Source: `kern/process/proc.h` `struct proc_struct` -/
structure Thread where
  state : ProcState
  waitState : ℕ
  parent : ℕ
  deriving Repr, DecidableEq

/-- `PROC_RUNNABLE` -/
def Thread.runs (d : Thread) : Bool := d.state = .runnable

/-- `PROC_ZOMBIE` -/
def Thread.hasExited (d : Thread) : Bool := d.state = .zombie

/-- The threads, which are known by their addresses, and the variables of `proc.c`. -/
structure ThreadTable where
  thread : ℕ → Thread
  procList : List ℕ
  nrProcess : ℕ
  current : ℕ

/-- The address of `idleproc`. It is not in `proc_list`. -/
def idleproc : ℕ := 0

/-- The assertion and the panics. -/
inductive ThreadPanic where
  | wakeup | idleExits | waitIdle
  deriving Repr, DecidableEq

abbrev ThreadProg := Prog ThreadPanic Empty ThreadTable

/-- Change a thread. -/
def ThreadTable.setThread (s : ThreadTable) (p : ℕ) (f : Thread → Thread) : ThreadTable :=
  { s with thread := Function.update s.thread p (f (s.thread p)) }

/-- Source: `kern/schedule/sched.c` `wakeup_proc` -/
def wakeupProc (p : ℕ) : ThreadProg Unit := do
  let s ← Prog.get
  Prog.assert ((s.thread p).state ≠ .zombie ∧ (s.thread p).state ≠ .runnable) .wakeup
  Prog.modify fun s => s.setThread p fun d => { d with state := .runnable }

/-- The order in which `schedule` looks at the threads: those after the current one, those before it, and the current one. -/
def ThreadTable.turn (s : ThreadTable) : List ℕ :=
  if s.current = idleproc then s.procList
  else (s.procList.dropWhile (· ≠ s.current)).tail ++ s.procList.takeWhile (· ≠ s.current) ++ [s.current]

/-- The thread that `schedule` chooses. -/
def ThreadTable.next (s : ThreadTable) : ℕ := (s.turn.find? fun p => (s.thread p).runs).getD idleproc

/-- Source: `kern/schedule/sched.c` `schedule` -/
def schedule : ThreadProg Unit := Prog.modify fun s => { s with current := s.next }

/-- `p` is the memory of the new thread. Source: `kern/process/proc.c` `alloc_proc` `do_fork` -/
def doFork (p : ℕ) : ThreadProg (Option ℕ) := do
  let s ← Prog.get
  if s.nrProcess ≥ maxProcess then pure none
  else do
    Prog.modify fun s => s.setThread p fun _ => { state := .uninit, waitState := 0, parent := 0 }
    Prog.modify fun s => { s with procList := s.procList ++ [p] }
    wakeupProc p
    Prog.modify fun s => { s with nrProcess := s.nrProcess + 1 }
    Prog.modify fun s => s.setThread p fun d => { d with parent := s.current }
    pure (some p)

/-- Source: `kern/process/proc.c` `remove_links` -/
def removeLinks (p : ℕ) : ThreadProg Unit :=
  Prog.modify fun s => { s with procList := s.procList.erase p, nrProcess := s.nrProcess - 1 }

/-- How a turn of the loop of `do_wait` ends: with 0, with `-E_BAD_PROC`, or in `schedule`. -/
inductive WaitEnd where
  | removed (p : ℕ)
  | badProc
  | asleep
  deriving Repr, DecidableEq

/-- A turn of the loop. The first argument of the source is not used. Source: `kern/process/proc.c` `do_wait` -/
def doWait : ThreadProg WaitEnd := do
  let s ← Prog.get
  match s.procList.find? fun p => (s.thread p).hasExited with
  | some p => do
    Prog.assert (p ≠ idleproc) .waitIdle
    removeLinks p
    pure (.removed p)
  | none =>
    if s.procList ≠ [] then do
      Prog.modify fun s => s.setThread s.current fun d => { d with state := .sleeping, waitState := wtChild }
      schedule
      pure .asleep
    else pure .badProc

/-- The thread does not return from `schedule`. Source: `kern/process/proc.c` `do_exit` -/
def doExit : ThreadProg Unit := do
  let s ← Prog.get
  Prog.assert (s.current ≠ idleproc) .idleExits
  Prog.modify fun s => s.setThread s.current fun d => { d with state := .zombie }
  let s ← Prog.get
  let proc := (s.thread s.current).parent
  (if (s.thread proc).waitState = wtChild then wakeupProc proc else pure () : ThreadProg Unit)
  schedule

/-! ### Runs -/

/-- The threads, and whether `idleproc` is in the loop of `do_wait`. -/
structure ThreadSys where
  table : ThreadTable
  inWait : Bool

/-- The start, as `proc_init` leaves it before it creates threads. -/
structure ThreadSys.Start (s : ThreadSys) : Prop where
  procList : s.table.procList = []
  current : s.table.current = idleproc
  state : (s.table.thread idleproc).state = .runnable
  inWait : s.inWait = false

/-- What the code may call: `idleproc` creates threads and waits, the others exit, and all of them call `schedule`. The memory of a
new thread is not in use. -/
inductive ThreadCall where
  | fork (p : ℕ)
  | schedule
  | exit
  | wait

/-- Who calls it. -/
def ThreadCall.Enabled (s : ThreadSys) : ThreadCall → Prop
  | .fork p => s.table.current = idleproc ∧ s.inWait = false ∧ p ≠ idleproc ∧ p ∉ s.table.procList
  | .schedule => s.table.current = idleproc → s.inWait = false
  | .exit => s.table.current ≠ idleproc
  | .wait => s.table.current = idleproc

instance ThreadCall.decidableEnabled (s : ThreadSys) : (c : ThreadCall) → Decidable (c.Enabled s)
  | .fork p => inferInstanceAs (Decidable (s.table.current = idleproc ∧ s.inWait = false ∧ p ≠ idleproc ∧ p ∉ s.table.procList))
  | .schedule => inferInstanceAs (Decidable (s.table.current = idleproc → s.inWait = false))
  | .exit => inferInstanceAs (Decidable (s.table.current ≠ idleproc))
  | .wait => inferInstanceAs (Decidable (s.table.current = idleproc))

/-- The threads that have exited, and those that `do_wait` has removed. -/
structure ThreadLog where
  exited : List ℕ
  removed : List ℕ

/-- What a turn of `do_wait` has removed. -/
def WaitEnd.removedThreads : WaitEnd → List ℕ
  | .removed p => [p]
  | _ => []

/-- The runs. -/
inductive ThreadRun (s₀ : ThreadSys) : ThreadLog → ThreadSys → Prop where
  | start : ThreadRun s₀ ⟨[], []⟩ s₀
  | fork {l : ThreadLog} {s : ThreadSys} {p : ℕ} {r : Option ℕ} {t : ThreadTable} (h : ThreadRun s₀ l s)
    (hcall : (ThreadCall.fork p).Enabled s) (hrun : (doFork p).run s.table = .ok r t) : ThreadRun s₀ l ⟨t, s.inWait⟩
  | schedule {l : ThreadLog} {s : ThreadSys} {t : ThreadTable} (h : ThreadRun s₀ l s) (hcall : ThreadCall.schedule.Enabled s)
    (hrun : Lab4.schedule.run s.table = .ok () t) : ThreadRun s₀ l ⟨t, s.inWait⟩
  | exit {l : ThreadLog} {s : ThreadSys} {t : ThreadTable} (h : ThreadRun s₀ l s) (hcall : ThreadCall.exit.Enabled s)
    (hrun : doExit.run s.table = .ok () t) : ThreadRun s₀ { l with exited := l.exited ++ [s.table.current] } ⟨t, s.inWait⟩
  | wait {l : ThreadLog} {s : ThreadSys} {r : WaitEnd} {t : ThreadTable} (h : ThreadRun s₀ l s) (hcall : ThreadCall.wait.Enabled s)
    (hrun : doWait.run s.table = .ok r t) :
    ThreadRun s₀ { l with removed := l.removed ++ r.removedThreads } ⟨t, decide (r = .asleep)⟩

/-! ### The invariant -/

/-- The threads that have exited and are still on the list. -/
def ThreadTable.zombies (s : ThreadTable) : List ℕ := s.procList.filter fun p => (s.thread p).hasExited

/-- The threads on the list run or have exited, the current one runs, and no thread that has exited is lost. -/
structure ThreadInv (l : ThreadLog) (s : ThreadTable) : Prop where
  nodup : s.procList.Nodup
  idle : idleproc ∉ s.procList
  child : ∀ p ∈ s.procList, ((s.thread p).state = .runnable ∨ (s.thread p).state = .zombie) ∧ (s.thread p).parent = idleproc
  parent : (s.thread idleproc).state = .runnable ∨ (s.thread idleproc).state = .sleeping
  current : s.current = idleproc ∨ s.current ∈ s.procList ∧ (s.thread s.current).state = .runnable
  log : l.exited.Perm (l.removed ++ s.zombies)

variable {s s' s₀ : ThreadSys} {t t' : ThreadTable} {l : ThreadLog} {p q : ℕ}

theorem setThread_same (f : Thread → Thread) : (t.setThread p f).thread p = f (t.thread p) := Function.update_self ..

theorem setThread_of_ne (f : Thread → Thread) (h : q ≠ p) : (t.setThread p f).thread q = t.thread q := Function.update_of_ne h ..

/-- The threads that have exited, when no thread on the list has been changed. -/
theorem zombies_congr (hlist : t'.procList = t.procList) (h : ∀ p ∈ t.procList, t'.thread p = t.thread p) : t'.zombies = t.zombies := by
  unfold ThreadTable.zombies
  rw [hlist]
  exact List.filter_congr fun p hp => by rw [h p hp]

/-- `schedule` chooses a thread that runs, or `idleproc`. -/
theorem next_runs (h : t.current = idleproc ∨ t.current ∈ t.procList) :
    t.next = idleproc ∨ t.next ∈ t.procList ∧ (t.thread t.next).state = .runnable := by
  unfold ThreadTable.next
  cases hfind : t.turn.find? fun p => (t.thread p).runs with
  | none => exact Or.inl rfl
  | some q =>
    have hruns := List.find?_some hfind
    refine Or.inr ⟨?_, of_decide_eq_true hruns⟩
    have hmem := List.mem_of_find?_eq_some hfind
    unfold ThreadTable.turn at hmem
    show q ∈ t.procList
    split_ifs at hmem with hidle
    · exact hmem
    · rcases List.mem_append.mp hmem with hmem | hmem
      · rcases List.mem_append.mp hmem with hmem | hmem
        · exact (List.dropWhile_sublist _).subset (List.mem_of_mem_tail hmem)
        · exact (List.takeWhile_sublist _).subset hmem
      · rw [List.mem_singleton.mp hmem]
        exact h.resolve_left hidle

/-- The invariant, but for the current thread. -/
theorem ThreadInv.schedule (hnodup : t.procList.Nodup) (hidle : idleproc ∉ t.procList)
    (hchild : ∀ p ∈ t.procList, ((t.thread p).state = .runnable ∨ (t.thread p).state = .zombie) ∧ (t.thread p).parent = idleproc)
    (hparent : (t.thread idleproc).state = .runnable ∨ (t.thread idleproc).state = .sleeping)
    (hcurrent : t.current = idleproc ∨ t.current ∈ t.procList) (hlog : l.exited.Perm (l.removed ++ t.zombies)) :
    ThreadInv l { t with current := t.next } :=
  ⟨hnodup, hidle, hchild, hparent, next_runs hcurrent, hlog⟩

theorem wakeupProc_run (h : (t.thread p).state ≠ .zombie ∧ (t.thread p).state ≠ .runnable) :
    (wakeupProc p).run t = .ok () (t.setThread p fun d => { d with state := .runnable }) := by
  unfold wakeupProc
  rw [Prog.run_bind, Prog.run_get, Outcome.andThen_ok, Prog.bind_of_ok (Prog.run_assert_of _ _ h)]
  rfl

theorem doFork_run (hmax : ¬ t.nrProcess ≥ maxProcess) : (doFork p).run t = .ok (some p)
    { t with
      thread := Function.update t.thread p ⟨.runnable, 0, t.current⟩
      procList := t.procList ++ [p]
      nrProcess := t.nrProcess + 1 } := by
  unfold doFork
  rw [Prog.run_bind, Prog.run_get, Outcome.andThen_ok, if_neg hmax, Prog.bind_of_ok (Prog.run_modify ..),
    Prog.bind_of_ok (Prog.run_modify ..), Prog.bind_of_ok (wakeupProc_run ?_), Prog.bind_of_ok (Prog.run_modify ..),
    Prog.bind_of_ok (Prog.run_modify ..)]
  · unfold ThreadTable.setThread
    simp only [Function.update_self, Function.update_idem]
    rfl
  · unfold ThreadTable.setThread
    dsimp only
    rw [Function.update_self]
    exact ⟨fun h => by (cases h), fun h => by (cases h)⟩

/-- A new thread runs, and `idleproc` is its parent. -/
theorem ThreadInv.fork (h : ThreadInv l t) (hcurrent : t.current = idleproc) (hp : p ≠ idleproc) (hnew : p ∉ t.procList) :
    ∃ r t', (doFork p).run t = .ok r t' ∧ ThreadInv l t' := by
  by_cases hmax : t.nrProcess ≥ maxProcess
  · unfold doFork
    rw [Prog.run_bind, Prog.run_get, Outcome.andThen_ok, if_pos hmax]
    exact ⟨none, t, rfl, h⟩
  · refine ⟨_, _, doFork_run hmax, ?_⟩
    have hold : ∀ q ∈ t.procList, Function.update t.thread p ⟨.runnable, 0, t.current⟩ q = t.thread q := fun q hq =>
      Function.update_of_ne (fun heq : q = p => hnew (heq ▸ hq)) _ _
    refine ⟨?_, ?_, fun q hq => ?_, ?_, Or.inl hcurrent, ?_⟩
    · refine List.nodup_append.mpr ⟨h.nodup, List.nodup_singleton p, fun x hx y hy heq => ?_⟩
      rw [heq, List.mem_singleton.mp hy] at hx
      exact hnew hx
    · intro hmem
      rcases List.mem_append.mp hmem with hmem | hmem
      · exact h.idle hmem
      · exact hp (List.mem_singleton.mp hmem).symm
    · dsimp only
      rcases List.mem_append.mp hq with hq | hq
      · rw [hold q hq]
        exact h.child q hq
      · rw [List.mem_singleton.mp hq, Function.update_self]
        exact ⟨Or.inl rfl, hcurrent⟩
    · dsimp only
      rw [Function.update_of_ne hp.symm]
      exact h.parent
    · refine h.log.trans (List.Perm.append_left _ (List.Perm.of_eq ?_))
      have hrest : (t.procList.filter fun q => (Function.update t.thread p ⟨.runnable, 0, t.current⟩ q).hasExited) = t.zombies :=
        List.filter_congr fun q hq => by rw [hold q hq]
      have hlast : ([p].filter fun q => (Function.update t.thread p ⟨.runnable, 0, t.current⟩ q).hasExited) = [] := by
        rw [List.filter_singleton, Function.update_self]
        rfl
      unfold ThreadTable.zombies
      dsimp only
      rw [List.filter_append, hrest, hlast, List.append_nil]
      rfl

/-- `idleproc` goes to sleep, and another thread runs. -/
theorem ThreadInv.asleep (h : ThreadInv l t) (hcurrent : t.current = idleproc) {f : Thread → Thread}
    (hf : (f (t.thread idleproc)).state = .sleeping) :
    ThreadInv l { t.setThread t.current f with current := (t.setThread t.current f).next } := by
  have hold : ∀ q ∈ t.procList, (t.setThread t.current f).thread q = t.thread q := by
    intro q hq
    rw [hcurrent]
    exact setThread_of_ne _ fun heq => h.idle (heq ▸ hq)
  refine ThreadInv.schedule h.nodup h.idle (fun q hq => ?_) ?_ (Or.inl hcurrent) ?_
  · rw [hold q hq]
    exact h.child q hq
  · rw [hcurrent, setThread_same]
    exact Or.inr hf
  · have hzombies : (t.setThread t.current f).zombies = t.zombies := zombies_congr rfl hold
    rw [hzombies]
    exact h.log

/-- A turn of the loop of `do_wait`. -/
theorem ThreadInv.wait (h : ThreadInv l t) (hcurrent : t.current = idleproc) :
    ∃ r t', doWait.run t = .ok r t' ∧ ThreadInv { l with removed := l.removed ++ r.removedThreads } t' := by
  unfold doWait
  rw [Prog.run_bind, Prog.run_get, Outcome.andThen_ok]
  cases hfind : t.procList.find? fun p => (t.thread p).hasExited with
  | some p =>
    have hzombie := List.find?_some hfind
    have hmem : p ∈ t.procList := List.mem_of_find?_eq_some hfind
    have hne : p ≠ idleproc := fun heq => h.idle (heq ▸ hmem)
    dsimp only
    rw [Prog.bind_of_ok (Prog.run_assert_of _ _ hne), removeLinks, Prog.bind_of_ok (Prog.run_modify ..)]
    refine ⟨_, _, rfl, h.nodup.erase p, fun hidle => h.idle (List.mem_of_mem_erase hidle),
      fun q hq => h.child q (List.mem_of_mem_erase hq), h.parent, Or.inl hcurrent, h.log.trans ?_⟩
    have hperm : t.zombies.Perm (p :: (t.procList.erase p).filter fun q => (t.thread q).hasExited) := by
      have := (List.perm_cons_erase hmem).filter fun q => (t.thread q).hasExited
      rwa [List.filter_cons, if_pos hzombie] at this
    show (l.removed ++ t.zombies).Perm ((l.removed ++ [p]) ++ _)
    rw [List.append_assoc]
    exact hperm.append_left _
  | none =>
    dsimp only
    split_ifs with hnil
    · have hlog : l.removed ++ WaitEnd.asleep.removedThreads = l.removed := List.append_nil _
      refine ⟨_, _, rfl, ?_⟩
      rw [hlog]
      exact h.asleep hcurrent rfl
    · have hlog : l.removed ++ WaitEnd.badProc.removedThreads = l.removed := List.append_nil _
      refine ⟨_, _, rfl, ?_⟩
      rw [hlog]
      exact h

/-- One more element of a list counts. -/
theorem filter_perm_cons {f f' : ℕ → Bool} {l : List ℕ} {c : ℕ} (hnodup : l.Nodup) (hc : c ∈ l) (hf' : f' c = true)
    (hf : f c = false) (hrest : ∀ q, q ≠ c → f' q = f q) : (l.filter f').Perm (c :: l.filter f) := by
  have hnew := (List.perm_cons_erase hc).filter f'
  have hold := (List.perm_cons_erase hc).filter f
  have hsame : (l.erase c).filter f' = (l.erase c).filter f := by
    refine List.filter_congr fun q hq => hrest q fun heq => ?_
    exact hnodup.not_mem_erase (heq ▸ hq)
  rw [List.filter_cons_of_pos hf', hsame] at hnew
  rw [List.filter_cons_of_neg (Bool.eq_false_iff.mp hf)] at hold
  exact hnew.trans (hold.symm.cons c)

/-- The table of `do_exit` before it looks at the parent. -/
def ThreadTable.exited (t : ThreadTable) : ThreadTable := t.setThread t.current fun d => { d with state := .zombie }

theorem ThreadInv.zombies_exited (h : ThreadInv l t) (hcurrent : t.current ≠ idleproc) :
    t.exited.zombies.Perm (t.current :: t.zombies) := by
  obtain ⟨hmem, hruns⟩ := h.current.resolve_left hcurrent
  apply filter_perm_cons h.nodup hmem
  · unfold ThreadTable.exited
    rw [setThread_same]
    rfl
  · unfold Thread.hasExited
    rw [hruns]
    rfl
  · intro q hq
    unfold ThreadTable.exited
    rw [setThread_of_ne _ hq]

/-- What is left of `do_exit`, whether the parent is woken up or not. -/
theorem ThreadInv.exited (h : ThreadInv l t) (hcurrent : t.current ≠ idleproc) {f : Thread → Thread}
    (hf : (f (t.thread idleproc)).state = .runnable ∨ (f (t.thread idleproc)).state = .sleeping) :
    ThreadInv { l with exited := l.exited ++ [t.current] }
      { t.exited.setThread idleproc f with current := (t.exited.setThread idleproc f).next } := by
  obtain ⟨hmem, hruns⟩ := h.current.resolve_left hcurrent
  have hother : ∀ q ∈ t.procList, (t.exited.setThread idleproc f).thread q = t.exited.thread q := fun q hq =>
    setThread_of_ne _ fun heq => h.idle (heq ▸ hq)
  refine ThreadInv.schedule h.nodup h.idle (fun q hq => ?_) ?_ (Or.inr hmem) ?_
  · rw [hother q hq]
    unfold ThreadTable.exited
    by_cases hq' : q = t.current
    · rw [hq', setThread_same]
      exact ⟨Or.inr rfl, (h.child _ hmem).2⟩
    · rw [setThread_of_ne _ hq']
      exact h.child q hq
  · have hidle : t.exited.thread idleproc = t.thread idleproc := setThread_of_ne _ (Ne.symm hcurrent)
    rw [setThread_same, hidle]
    exact hf
  · have hzombies : (t.exited.setThread idleproc f).zombies = t.exited.zombies := zombies_congr rfl hother
    rw [hzombies]
    refine List.Perm.trans ?_ (List.Perm.append_left _ (h.zombies_exited hcurrent).symm)
    refine (h.log.append_right _).trans ?_
    rw [List.append_assoc]
    exact List.Perm.append_left _ List.perm_append_comm

/-- A thread exits if its parent has not been woken up yet; otherwise the assertion of `wakeup_proc` fails. -/
theorem ThreadInv.exit (h : ThreadInv l t) (hcurrent : t.current ≠ idleproc) :
    (((t.thread idleproc).waitState = wtChild → (t.thread idleproc).state = .sleeping) →
      ∃ t', doExit.run t = .ok () t' ∧ ThreadInv { l with exited := l.exited ++ [t.current] } t') ∧
    (¬ ((t.thread idleproc).waitState = wtChild → (t.thread idleproc).state = .sleeping) → doExit.run t = .panic .wakeup) := by
  obtain ⟨hmem, hruns⟩ := h.current.resolve_left hcurrent
  have hidle : t.exited.thread idleproc = t.thread idleproc := setThread_of_ne _ (Ne.symm hcurrent)
  have hparent : (t.exited.thread t.exited.current).parent = idleproc := by
    show (t.exited.thread t.current).parent = idleproc
    unfold ThreadTable.exited
    rw [setThread_same]
    exact (h.child _ hmem).2
  have hrun : doExit.run t = ((if (t.exited.thread idleproc).waitState = wtChild then wakeupProc idleproc else pure () :
      ThreadProg Unit) >>= fun _ => Lab4.schedule).run t.exited := by
    unfold doExit
    rw [Prog.run_bind, Prog.run_get, Outcome.andThen_ok, Prog.bind_of_ok (Prog.run_assert_of _ _ hcurrent),
      Prog.bind_of_ok (Prog.run_modify ..), Prog.run_bind, Prog.run_get, Outcome.andThen_ok]
    rw [← hparent]
    rfl
  rw [hidle] at hrun
  constructor
  · intro hasleep
    by_cases hwait : (t.thread idleproc).waitState = wtChild
    · have hstate := hasleep hwait
      have hwake : (t.exited.thread idleproc).state ≠ .zombie ∧ (t.exited.thread idleproc).state ≠ .runnable := by
        rw [hidle, hstate]
        exact ⟨fun h => by (cases h), fun h => by (cases h)⟩
      rw [if_pos hwait, Prog.bind_of_ok (wakeupProc_run hwake)] at hrun
      exact ⟨_, hrun, h.exited hcurrent (Or.inl rfl)⟩
    · rw [if_neg hwait] at hrun
      have hsame := h.exited hcurrent (f := id) h.parent
      have hid : t.exited.setThread idleproc id = t.exited := by
        unfold ThreadTable.setThread
        rw [id_eq, Function.update_eq_self]
      rw [hid] at hsame
      exact ⟨_, hrun, hsame⟩
  · intro hawake
    obtain ⟨hwait, hstate⟩ := Classical.not_imp.mp hawake
    have hrunnable : ¬ ((t.exited.thread idleproc).state ≠ .zombie ∧ (t.exited.thread idleproc).state ≠ .runnable) := by
      rw [hidle]
      exact fun hand => hand.2 (h.parent.resolve_right hstate)
    rw [hrun, if_pos hwait]
    apply Prog.bind_of_panic
    unfold wakeupProc
    rw [Prog.run_bind, Prog.run_get, Outcome.andThen_ok]
    exact Prog.bind_of_panic (Prog.run_assert_of_not _ _ hrunnable)

/-! ### Whole runs -/

theorem ThreadSys.Start.inv (h : s.Start) : ThreadInv ⟨[], []⟩ s.table := by
  have hmem : ∀ p, p ∉ s.table.procList := fun p => by
    rw [h.procList]
    exact List.not_mem_nil
  refine ⟨?_, hmem _, fun p hp => absurd hp (hmem p), Or.inl h.state, Or.inl h.current, ?_⟩
  · rw [h.procList]
    exact List.nodup_nil
  · unfold ThreadTable.zombies
    rw [h.procList]
    exact List.Perm.refl _

theorem ThreadRun.inv (h : ThreadRun s₀ l s) (h₀ : s₀.Start) : ThreadInv l s.table := by
  induction h with
  | start => exact h₀.inv
  | fork hrun hcall hok ih =>
    obtain ⟨hcurrent, -, hp, hnew⟩ := hcall
    obtain ⟨r, t', hok', hinv⟩ := ih.fork hcurrent hp hnew
    rw [hok] at hok'
    cases hok'
    exact hinv
  | schedule hrun hcall hok ih =>
    cases hok
    exact ThreadInv.schedule ih.nodup ih.idle ih.child ih.parent (ih.current.imp_right And.left) ih.log
  | @exit l s t hrun hcall hok ih =>
    obtain ⟨hreturns, hpanics⟩ := ih.exit hcall
    by_cases hasleep : (s.table.thread idleproc).waitState = wtChild → (s.table.thread idleproc).state = .sleeping
    · obtain ⟨t', hok', hinv⟩ := hreturns hasleep
      rw [hok] at hok'
      cases hok'
      exact hinv
    · have hpanic := hpanics hasleep
      rw [hok] at hpanic
      cases hpanic
  | wait hrun hcall hok ih =>
    obtain ⟨r, t', hok', hinv⟩ := ih.wait hcall
    rw [hok] at hok'
    cases hok'
    exact hinv

/-- **The threads of lab 4**: every thread that has exited is still on the list, or has been removed by one `do_wait`. Everything that
may be called returns, but for `do_exit`: it does if and only if its parent has never slept in `do_wait`, or is asleep. -/
theorem threads_live_and_die (h₀ : s₀.Start) (h : ThreadRun s₀ l s) :
    l.exited.Perm (l.removed ++ s.table.zombies) ∧
      (∀ p, (ThreadCall.fork p).Enabled s → ∃ r t, (doFork p).run s.table = .ok r t) ∧
      (ThreadCall.schedule.Enabled s → ∃ t, Lab4.schedule.run s.table = .ok () t) ∧
      (ThreadCall.wait.Enabled s → ∃ r t, doWait.run s.table = .ok r t) ∧
      (ThreadCall.exit.Enabled s → ((∃ t, doExit.run s.table = .ok () t) ↔
        ((s.table.thread idleproc).waitState = wtChild → (s.table.thread idleproc).state = .sleeping))) := by
  have hinv := h.inv h₀
  refine ⟨hinv.log, fun p hcall => ?_, fun _ => ⟨_, rfl⟩, fun hcall => ?_, fun hcall => ?_⟩
  · obtain ⟨hcurrent, -, hp, hnew⟩ := hcall
    obtain ⟨r, t, hrun, -⟩ := hinv.fork hcurrent hp hnew
    exact ⟨r, t, hrun⟩
  · obtain ⟨r, t, hrun, -⟩ := hinv.wait hcall
    exact ⟨r, t, hrun⟩
  · obtain ⟨hreturns, hpanics⟩ := hinv.exit hcall
    constructor
    · rintro ⟨t, hrun⟩
      by_contra hawake
      have hpanic := hpanics hawake
      rw [hrun] at hpanic
      cases hpanic
    · intro hasleep
      obtain ⟨t, hrun, -⟩ := hreturns hasleep
      exact ⟨t, hrun⟩

/-- `idleproc` alone. -/
def threadBoot : ThreadSys where
  table := { thread := fun _ => ⟨.runnable, 0, 0⟩, procList := [], nrProcess := 1, current := idleproc }
  inWait := false

theorem threadBoot_start : threadBoot.Start := ⟨rfl, rfl, rfl, rfl⟩

/-- A thread is created, exits and is removed. -/
theorem threads_live_and_die_one : ∃ l s, ThreadRun threadBoot l s ∧ l.exited = [1] ∧ l.removed = [1] ∧
    l.exited.Perm (l.removed ++ s.table.zombies) := by
  have hrun : ThreadRun threadBoot _ _ := (((ThreadRun.start.fork (p := 1) (by decide) rfl).schedule (by decide) rfl).exit
    (by decide) rfl).wait (by decide) rfl
  exact ⟨_, _, hrun, rfl, rfl, (threads_live_and_die threadBoot_start hrun).1⟩

/-- Two threads exit one after the other while `idleproc` is in `do_wait`: the second one wakes it up again. -/
theorem threads_wake_twice : ∃ l s, ThreadRun threadBoot l s ∧ ThreadCall.exit.Enabled s ∧ doExit.run s.table = .panic .wakeup := by
  have hrun : ThreadRun threadBoot _ _ := (((ThreadRun.start.fork (p := 1) (by decide) rfl).fork (p := 2) (by decide) rfl).wait
    (by decide) rfl).exit (by decide) rfl
  exact ⟨_, _, hrun, by decide, rfl⟩

end Ucore.Lab4
