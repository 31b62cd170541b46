import Ucore.Lib.Prog
import Mathlib.Algebra.Group.Int.Defs
import Mathlib.Algebra.GroupWithZero.Nat
import Mathlib.Data.List.GetD
import Mathlib.Data.List.Induction

/-!
# The simulator of process switches

`lab4-2-switch.py` runs processes whose programs consist of computations, yields and I/O, and switches between them.

* `moveTo` is the common text of the four methods that change the state of a process, each with its assertion.
* `checkIo`, `popInstruction`, `runInstruction` and `checkIfDone` are the parts of an iteration of `run`; what is printed is left out.
* `SwitchRun` are the runs of a list of programs, with the instructions that have been executed.
* `switch_safe`: no assertion fails, one process at most is running, and it is running whenever one is ready. A completion is not
  delivered twice although the completion times stay in their lists: at most one of them is yet to come (`SwitchInv.pending`).
-/

namespace Ucore.Lab4

open Ucore.Lib

/-- `DO_COMPUTE`, `DO_YIELD` and `DO_IO` -/
inductive Instruction where
  | cpu | yld | io
  deriving Repr, DecidableEq

/-- The values of `PROC_STATE`. -/
inductive SwitchState where
  | running | ready | done | waiting
  deriving Repr, DecidableEq

/-- An item of `proc_info`. Nothing reads its `PROC_PC` and `PROC_ID`. -/
structure ProcInfo where
  code : List Instruction
  state : SwitchState
  deriving Repr, DecidableEq

/-- Source: `lab4-2-switch.py` class `scheduler`, and the variables of `run` -/
structure Switch where
  procInfo : ℕ → ProcInfo
  /-- `len(self.proc_info)` -/
  numProcs : ℕ
  ioLength : ℤ
  currProc : ℕ
  ioFinishTimes : ℕ → List ℤ
  clockTick : ℤ
  cpuBusy : ℕ
  ioBusy : ℕ

/-- The method whose assertion fails. -/
inductive SwitchPanic where
  | moveToWait | moveToReady | moveToRunning | moveToDone
  deriving Repr, DecidableEq

abbrev SwitchProg := Prog SwitchPanic Empty Switch

/-- The state of a process. -/
def Switch.state (s : Switch) (pid : ℕ) : SwitchState := (s.procInfo pid).state

/-- What a process has left to do. -/
def Switch.code (s : Switch) (pid : ℕ) : List Instruction := (s.procInfo pid).code

/-- Change the state of a process. -/
def Switch.setState (s : Switch) (pid : ℕ) (state : SwitchState) : Switch :=
  { s with procInfo := Function.update s.procInfo pid { s.procInfo pid with state := state } }

/-- Change what a process has left to do. -/
def Switch.setCode (s : Switch) (pid : ℕ) (code : List Instruction) : Switch :=
  { s with procInfo := Function.update s.procInfo pid { s.procInfo pid with code := code } }

/-- A process gets a time at which its I/O ends. -/
def Switch.addIo (s : Switch) (pid : ℕ) (t : ℤ) : Switch :=
  { s with ioFinishTimes := Function.update s.ioFinishTimes pid (s.ioFinishTimes pid ++ [t]) }

/-! ### The methods -/

/-- A process gets the state `target`, and `expected` must be the state that it has. -/
def moveTo (site : SwitchPanic) (target expected : SwitchState) (pid : ℕ) : SwitchProg Unit := do
  let s ← Prog.get
  if s.state pid = expected then Prog.modify fun s => s.setState pid target else Prog.stop site

/-- Source: `lab4-2-switch.py` `move_to_wait` -/
def moveToWait : SwitchState → ℕ → SwitchProg Unit := moveTo .moveToWait .waiting

/-- Source: `lab4-2-switch.py` `move_to_ready` -/
def moveToReady : SwitchState → ℕ → SwitchProg Unit := moveTo .moveToReady .ready

/-- Source: `lab4-2-switch.py` `move_to_running` -/
def moveToRunning (expected : SwitchState) : SwitchProg Unit := do
  let s ← Prog.get
  moveTo .moveToRunning .running expected s.currProc

/-- Source: `lab4-2-switch.py` `move_to_done` -/
def moveToDone (expected : SwitchState) : SwitchProg Unit := do
  let s ← Prog.get
  moveTo .moveToDone .done expected s.currProc

/-- The process behind the current one that is ready, if there is one. -/
def Switch.findReady (s : Switch) : Option ℕ :=
  ((List.range' 1 (s.numProcs - 1)).map fun i => (s.currProc + i) % s.numProcs).find? fun pid => s.state pid = .ready

/-- Nobody calls it with an argument. Source: `lab4-2-switch.py` `next_proc` -/
def nextProc : SwitchProg Unit := do
  Prog.modify fun s => { s with currProc := s.findReady.getD s.currProc }
  let s ← Prog.get
  if s.state s.currProc = .ready then moveToRunning .ready else pure ()

/-- Source: `lab4-2-switch.py` `get_num_active` -/
def Switch.numActive (s : Switch) : ℕ := (List.range s.numProcs).countP fun pid => s.state pid ≠ .done

/-- Source: `lab4-2-switch.py` `get_num_runnable` -/
def Switch.numRunnable (s : Switch) : ℕ := (List.range s.numProcs).countP fun pid => s.state pid = .ready ∨ s.state pid = .running

/-- Source: `lab4-2-switch.py` `get_ios_in_flight` -/
def Switch.iosInFlight (s : Switch) : ℕ :=
  ((List.range s.numProcs).map fun pid => (s.ioFinishTimes pid).countP fun t => t > s.clockTick).sum

/-- Source: `lab4-2-switch.py` `check_if_done` -/
def checkIfDone : SwitchProg Unit := do
  let s ← Prog.get
  if (s.code s.currProc).length = 0 then
    if s.state s.currProc = .running then do
      moveToDone .running
      nextProc
    else pure ()
  else pure ()

/-! ### `run` -/

/-- The first process becomes active. Source: `lab4-2-switch.py` `run`, before the loop -/
def beginRun : SwitchProg Unit := do
  Prog.modify fun s => { s with ioFinishTimes := fun _ => [], currProc := 0, clockTick := 0, cpuBusy := 0, ioBusy := 0 }
  moveToRunning .ready

/-- The body of the loop over the processes, for one of them. -/
def finishIo (pid : ℕ) : SwitchProg Unit := do
  let s ← Prog.get
  if s.clockTick ∈ s.ioFinishTimes pid then
    if s.numRunnable = 0 then do
      moveToReady .waiting pid
      nextProc
    else
      moveToReady .waiting pid
  else pure ()

/-- The loop over the processes. -/
def checkIo : List ℕ → SwitchProg Unit
  | [] => pure ()
  | pid :: pids => do
    finishIo pid
    checkIo pids

/-- The iteration up to the execution. -/
def startTick : SwitchProg Unit := do
  Prog.modify fun s => { s with clockTick := s.clockTick + 1 }
  let s ← Prog.get
  checkIo (List.range s.numProcs)

/-- The instruction that is executed, if there is one. -/
def popInstruction : SwitchProg (Option Instruction) := do
  let s ← Prog.get
  match s.code s.currProc with
  | [] => pure none
  | i :: rest =>
    if s.state s.currProc = .running then do
      Prog.modify fun s => s.setCode s.currProc rest
      pure (some i)
    else pure none

/-- The statistics. -/
def countBusy (i : Option Instruction) : SwitchProg Unit :=
  Prog.modify fun s =>
    { s with
      cpuBusy := s.cpuBusy + (List.range s.numProcs).countP fun pid => pid = s.currProc ∧ i ≠ none
      ioBusy := s.ioBusy + if s.iosInFlight > 0 then 1 else 0 }

/-- What an instruction does. -/
def runInstruction (i : Option Instruction) : SwitchProg Unit := do
  let s ← Prog.get
  match i with
  | some .yld => do
    moveToReady .running s.currProc
    nextProc
  | some .io => do
    moveToWait .running s.currProc
    Prog.modify fun s => s.addIo s.currProc (s.clockTick + s.ioLength)
    nextProc
  | _ => pure ()

/-- The execution, with the process and the instruction that is executed. -/
def executeTick : SwitchProg (Option (ℕ × Instruction)) := do
  let s ← Prog.get
  let i ← popInstruction
  countBusy i
  runInstruction i
  checkIfDone
  pure (i.map fun i => (s.currProc, i))

/-! ### Runs -/

/-- Source: `lab4-2-switch.py` `new_process`, `load` -/
def Switch.load (s : Switch) (code : List Instruction) : Switch :=
  { s with procInfo := Function.update s.procInfo s.numProcs ⟨code, .ready⟩, numProcs := s.numProcs + 1 }

/-- The scheduler with its processes. -/
def loaded (programs : List (List Instruction)) (ioLength : ℤ) : Switch :=
  programs.foldl Switch.load
    { procInfo := fun _ => ⟨[], .ready⟩
      numProcs := 0
      ioLength := ioLength
      currProc := 0
      ioFinishTimes := fun _ => []
      clockTick := 0
      cpuBusy := 0
      ioBusy := 0 }

/-- The runs, up to the start of an iteration, with what has been executed. -/
inductive SwitchRun (programs : List (List Instruction)) (ioLength : ℤ) : List (ℕ × Instruction) → Switch → Prop where
  | start {s : Switch} (hne : programs ≠ []) (h : beginRun.run (loaded programs ioLength) = .ok () s) :
    SwitchRun programs ioLength [] s
  | tick {l : List (ℕ × Instruction)} {s s₁ s' : Switch} {e : Option (ℕ × Instruction)} (h : SwitchRun programs ioLength l s)
    (hactive : s.numActive > 0) (hstart : startTick.run s = .ok () s₁) (hexec : executeTick.run s₁ = .ok e s') :
    SwitchRun programs ioLength (l ++ e.toList) s'

/-- What a process has executed. -/
def instructionsOf (l : List (ℕ × Instruction)) (pid : ℕ) : List Instruction := (l.filter fun x => x.1 = pid).map Prod.snd

/-- One process at most is running, and it is the current one. -/
def Switch.RunsCurrent (s : Switch) : Prop := ∀ pid < s.numProcs, s.state pid = .running → pid = s.currProc

/-- Some process is running if one is ready. -/
def Switch.Busy (s : Switch) : Prop := ∀ pid < s.numProcs, s.state pid = .ready → ∃ q < s.numProcs, s.state q = .running

/-! ### Changes of state -/

variable {s s' s₁ : Switch} {pid q : ℕ} {state : SwitchState} {programs : List (List Instruction)} {ioLength : ℤ}
  {l : List (ℕ × Instruction)}

@[simp] theorem setState_numProcs : (s.setState pid state).numProcs = s.numProcs := rfl

@[simp] theorem setState_currProc : (s.setState pid state).currProc = s.currProc := rfl

@[simp] theorem setState_ioFinishTimes : (s.setState pid state).ioFinishTimes = s.ioFinishTimes := rfl

@[simp] theorem setState_clockTick : (s.setState pid state).clockTick = s.clockTick := rfl

@[simp] theorem setState_same : (s.setState pid state).state pid = state := by
  simp [Switch.setState, Switch.state]

theorem setState_of_ne (h : q ≠ pid) : (s.setState pid state).state q = s.state q := by
  simp [Switch.setState, Switch.state, h]

@[simp] theorem setState_code : (s.setState pid state).code q = s.code q := by
  unfold Switch.setState Switch.code
  by_cases h : q = pid
  · rw [h]
    simp
  · simp [h]

@[simp] theorem addIo_same {t : ℤ} : (s.addIo pid t).ioFinishTimes pid = s.ioFinishTimes pid ++ [t] := Function.update_self ..

theorem addIo_of_ne {t : ℤ} (h : q ≠ pid) : (s.addIo pid t).ioFinishTimes q = s.ioFinishTimes q := Function.update_of_ne h ..

@[simp] theorem setCode_same {code : List Instruction} : (s.setCode pid code).code pid = code := by
  simp [Switch.setCode, Switch.code]

theorem setCode_of_ne {code : List Instruction} (h : q ≠ pid) : (s.setCode pid code).code q = s.code q := by
  simp [Switch.setCode, Switch.code, h]

@[simp] theorem setCode_state {code : List Instruction} : (s.setCode pid code).state q = s.state q := by
  unfold Switch.setCode Switch.state
  by_cases h : q = pid
  · rw [h]
    simp
  · simp [h]

theorem moveTo_run {site : SwitchPanic} {target expected : SwitchState} (h : s.state pid = expected) :
    (moveTo site target expected pid).run s = .ok () (s.setState pid target) := by
  unfold moveTo
  rw [Prog.run_bind, Prog.run_get, Outcome.andThen_ok, if_pos h]
  rfl

/-- The processes have done no work: only their states and the current process have changed. -/
structure SameWork (s s' : Switch) : Prop where
  numProcs : s'.numProcs = s.numProcs
  times : s'.ioFinishTimes = s.ioFinishTimes
  clock : s'.clockTick = s.clockTick
  code : ∀ pid, s'.code pid = s.code pid

theorem SameWork.refl (s : Switch) : SameWork s s := ⟨rfl, rfl, rfl, fun _ => rfl⟩

theorem SameWork.trans (h : SameWork s s₁) (h' : SameWork s₁ s') : SameWork s s' :=
  ⟨h'.numProcs.trans h.numProcs, h'.times.trans h.times, h'.clock.trans h.clock, fun pid => (h'.code pid).trans (h.code pid)⟩

theorem SameWork.setState (s : Switch) (pid : ℕ) (state : SwitchState) : SameWork s (s.setState pid state) :=
  ⟨rfl, rfl, rfl, fun _ => setState_code⟩

/-- A switch to another process: one that has been ready is running, or nothing has changed. -/
structure Dispatched (s s' : Switch) : Prop extends SameWork s s' where
  state : ∀ pid, s'.state pid = s.state pid ∨ s.state pid = .ready ∧ s'.state pid = .running

/-- Who runs, while the processes do their work. -/
structure Turn (s : Switch) : Prop where
  curr : s.currProc < s.numProcs
  alone : s.RunsCurrent
  busy : ∀ pid < s.numProcs, s.state pid = .ready → s.state s.currProc = .running
  finished : ∀ pid < s.numProcs, s.state pid = .done → s.code pid = []

/-- A process whose I/O is not finished waits, for one completion. -/
def Pending (s : Switch) : Prop :=
  ∀ pid < s.numProcs, ∀ t ∈ s.ioFinishTimes pid, s.clockTick < t →
    s.state pid = .waiting ∧ ∀ t' ∈ s.ioFinishTimes pid, s.clockTick < t' → t' = t

theorem Pending.dispatched (h : Pending s) (hd : Dispatched s s') : Pending s' := by
  intro pid hpid t ht hlt
  rw [hd.numProcs] at hpid
  rw [hd.times] at ht ⊢
  rw [hd.clock] at hlt ⊢
  obtain ⟨hwait, hone⟩ := h pid hpid t ht hlt
  refine ⟨?_, hone⟩
  rcases hd.state pid with hsame | ⟨hready, -⟩
  · rw [hsame, hwait]
  · rw [hwait] at hready
    cases hready

/-! ### `next_proc` -/

theorem findReady_some (h : s.findReady = some pid) : s.state pid = .ready ∧ (0 < s.numProcs → pid < s.numProcs) := by
  unfold Switch.findReady at h
  have hready := List.find?_some h
  obtain ⟨i, -, rfl⟩ := List.mem_map.mp (List.mem_of_find?_eq_some h)
  exact ⟨of_decide_eq_true hready, Nat.mod_lt _⟩

theorem findReady_none (h : s.findReady = none) (hcurr : s.currProc < s.numProcs) (hpid : pid < s.numProcs)
    (hready : s.state pid = .ready) : pid = s.currProc := by
  unfold Switch.findReady at h
  rw [List.find?_eq_none] at h
  by_contra hne
  have hmem : pid ∈ (List.range' 1 (s.numProcs - 1)).map fun i => (s.currProc + i) % s.numProcs := by
    rw [List.mem_map]
    rcases Nat.lt_or_gt_of_ne hne with hlt | hlt
    · refine ⟨pid + s.numProcs - s.currProc, by simp; omega, ?_⟩
      have hsum : s.currProc + (pid + s.numProcs - s.currProc) = pid + s.numProcs := by omega
      rw [hsum, Nat.add_mod_right, Nat.mod_eq_of_lt hpid]
    · refine ⟨pid - s.currProc, by simp; omega, ?_⟩
      have hsum : s.currProc + (pid - s.currProc) = pid := by omega
      rw [hsum, Nat.mod_eq_of_lt hpid]
  exact h pid hmem (decide_eq_true hready)

/-- The process that `next_proc` looks at last: one that is ready, if there is any. -/
theorem findReady_getD (hcurr : s.currProc < s.numProcs) : s.findReady.getD s.currProc < s.numProcs ∧
    ∀ pid < s.numProcs, s.state pid = .ready → s.state (s.findReady.getD s.currProc) = .ready := by
  cases hfind : s.findReady with
  | none =>
    refine ⟨hcurr, fun pid hpid hready => ?_⟩
    have heq := findReady_none hfind hcurr hpid hready
    rw [heq] at hready
    exact hready
  | some q =>
    obtain ⟨hready, hlt⟩ := findReady_some hfind
    exact ⟨hlt (Nat.zero_lt_of_lt hcurr), fun _ _ _ => hready⟩

/-- **The switch**: when no process is running, one that is ready gets the processor. -/
theorem nextProc_turn (hcurr : s.currProc < s.numProcs) (hidle : ∀ pid < s.numProcs, s.state pid ≠ .running)
    (hfinished : ∀ pid < s.numProcs, s.state pid = .done → s.code pid = []) :
    ∃ s', nextProc.run s = .ok () s' ∧ Dispatched s s' ∧ Turn s' := by
  obtain ⟨hnext, hfound⟩ := findReady_getD hcurr
  unfold nextProc
  rw [Prog.bind_of_ok (Prog.run_modify ..), Prog.run_bind, Prog.run_get, Outcome.andThen_ok]
  generalize s.findReady.getD s.currProc = next at hnext hfound ⊢
  by_cases hready : s.state next = .ready
  · have hrun : (moveToRunning .ready).run { s with currProc := next } =
        .ok () (({ s with currProc := next } : Switch).setState next .running) := by
      unfold moveToRunning
      rw [Prog.run_bind, Prog.run_get, Outcome.andThen_ok]
      exact moveTo_run hready
    rw [if_pos (show Switch.state { s with currProc := next } next = .ready from hready)]
    refine ⟨_, hrun, ⟨⟨rfl, rfl, rfl, fun _ => setState_code⟩, fun pid => ?_⟩, hnext, fun pid hpid hrunning => ?_, fun _ _ _ => ?_,
      fun pid hpid hdone => ?_⟩
    · by_cases heq : pid = next
      · rw [heq]
        exact Or.inr ⟨hready, setState_same⟩
      · exact Or.inl (setState_of_ne heq)
    · by_contra hne
      have hne' : pid ≠ next := hne
      rw [setState_of_ne hne'] at hrunning
      exact hidle pid hpid hrunning
    · exact setState_same
    · rw [setState_code]
      refine hfinished pid hpid ?_
      by_cases heq : pid = next
      · rw [heq, setState_same] at hdone
        cases hdone
      · rwa [setState_of_ne heq] at hdone
  · rw [if_neg (show ¬ Switch.state { s with currProc := next } next = .ready from hready)]
    refine ⟨_, rfl, ⟨⟨rfl, rfl, rfl, fun _ => rfl⟩, fun _ => Or.inl rfl⟩, hnext, fun pid hpid hrunning => ?_, fun pid hpid hpready => ?_,
      hfinished⟩
    · exact absurd hrunning (hidle pid hpid)
    · exact absurd (hfound pid hpid hpready) hready

/-! ### The end of I/O -/

/-- The processes `pids` are looked at next; those whose I/O ends now wait for nothing else. -/
structure IoInv (pids : List ℕ) (s : Switch) : Prop where
  turn : Turn s
  pending : Pending s
  nodup : pids.Nodup
  lt : ∀ pid ∈ pids, pid < s.numProcs
  ends : ∀ pid ∈ pids, s.clockTick ∈ s.ioFinishTimes pid →
    s.state pid = .waiting ∧ ∀ t ∈ s.ioFinishTimes pid, t ≤ s.clockTick

theorem numRunnable_eq_zero (h : s.numRunnable = 0) (hpid : pid < s.numProcs) : s.state pid ≠ .ready ∧ s.state pid ≠ .running := by
  unfold Switch.numRunnable at h
  rw [List.countP_eq_zero] at h
  have hnot := h pid (List.mem_range.mpr hpid)
  simpa using hnot

theorem numRunnable_ne_zero (hturn : Turn s) (h : s.numRunnable ≠ 0) : s.state s.currProc = .running := by
  unfold Switch.numRunnable at h
  obtain ⟨pid, hmem, hpid⟩ := List.countP_pos_iff.mp (Nat.pos_of_ne_zero h)
  have hlt := List.mem_range.mp hmem
  rcases of_decide_eq_true hpid with hready | hrunning
  · exact hturn.busy pid hlt hready
  · rw [← hturn.alone pid hlt hrunning]
    exact hrunning

/-- A completion makes its process ready. -/
theorem IoInv.moveToReady {pids : List ℕ} (h : IoInv (pid :: pids) s) (hio : s.clockTick ∈ s.ioFinishTimes pid) :
    Pending (s.setState pid .ready) ∧ (∀ q < s.numProcs, (s.setState pid .ready).state q = .done → s.code q = []) := by
  obtain ⟨hwait, hle⟩ := h.ends pid List.mem_cons_self hio
  constructor
  · intro q hq t ht hlt
    by_cases heq : q = pid
    · rw [heq] at ht
      exact absurd (hle t ht) (Int.not_le.mpr hlt)
    · rw [setState_of_ne heq]
      exact h.pending q hq t ht hlt
  · intro q hq hdone
    by_cases heq : q = pid
    · rw [heq, setState_same] at hdone
      cases hdone
    · rw [setState_of_ne heq] at hdone
      exact h.turn.finished q hq hdone

/-- **One process is looked at.** -/
theorem finishIo_inv {pids : List ℕ} (h : IoInv (pid :: pids) s) : ∃ s', (finishIo pid).run s = .ok () s' ∧ SameWork s s' ∧ IoInv pids s' := by
  have hpid := h.lt pid List.mem_cons_self
  obtain ⟨hnot, hnodup⟩ := List.nodup_cons.mp h.nodup
  unfold finishIo
  rw [Prog.run_bind, Prog.run_get, Outcome.andThen_ok]
  by_cases hio : s.clockTick ∈ s.ioFinishTimes pid
  swap
  · rw [if_neg hio]
    exact ⟨s, rfl, .refl s, h.turn, h.pending, hnodup, fun q hq => h.lt q (List.mem_cons_of_mem _ hq),
      fun q hq => h.ends q (List.mem_cons_of_mem _ hq)⟩
  rw [if_pos hio]
  obtain ⟨hwait, hle⟩ := h.ends pid List.mem_cons_self hio
  obtain ⟨hpending, hfinished⟩ := h.moveToReady hio
  have hmove : (moveToReady .waiting pid).run s = .ok () (s.setState pid .ready) := moveTo_run hwait
  have hrest : ∀ s', Dispatched (s.setState pid .ready) s' → Turn s' → SameWork s s' ∧ IoInv pids s' := by
    intro s' hd hturn
    refine ⟨(SameWork.setState s pid .ready).trans hd.toSameWork, hturn, hpending.dispatched hd, hnodup, fun q hq => ?_, fun q hq hq' => ?_⟩
    · rw [hd.numProcs]
      exact h.lt q (List.mem_cons_of_mem _ hq)
    · rw [hd.clock, hd.times] at hq'
      rw [hd.clock, hd.times]
      obtain ⟨hqwait, hqle⟩ := h.ends q (List.mem_cons_of_mem _ hq) hq'
      have hne : q ≠ pid := fun heq => hnot (heq ▸ hq)
      refine ⟨?_, hqle⟩
      rcases hd.state q with hsame | ⟨hready, -⟩
      · rw [hsame, setState_of_ne hne, hqwait]
      · rw [setState_of_ne hne, hqwait] at hready
        cases hready
  by_cases hzero : s.numRunnable = 0
  · rw [if_pos hzero, Prog.bind_of_ok hmove]
    have hidle : ∀ q < s.numProcs, (s.setState pid .ready).state q ≠ .running := by
      intro q hq hrunning
      by_cases heq : q = pid
      · rw [heq, setState_same] at hrunning
        cases hrunning
      · rw [setState_of_ne heq] at hrunning
        exact (numRunnable_eq_zero hzero hq).2 hrunning
    obtain ⟨s', hrun, hd, hturn⟩ := nextProc_turn (s := s.setState pid .ready) h.turn.curr hidle
      (fun q hq hdone => by rw [setState_code]; exact hfinished q hq hdone)
    exact ⟨s', hrun, hrest s' hd hturn⟩
  · rw [if_neg hzero]
    have hrunning := numRunnable_ne_zero h.turn hzero
    have hne : s.currProc ≠ pid := by
      intro heq
      rw [heq, hwait] at hrunning
      cases hrunning
    refine ⟨_, hmove, hrest _ ⟨.refl _, fun _ => Or.inl rfl⟩ ⟨h.turn.curr, fun q hq hq' => ?_, fun _ _ _ => ?_, fun q hq hdone => ?_⟩⟩
    · by_cases heq : q = pid
      · rw [heq, setState_same] at hq'
        cases hq'
      · rw [setState_of_ne heq] at hq'
        exact h.turn.alone q hq hq'
    · rw [setState_currProc, setState_of_ne hne]
      exact hrunning
    · rw [setState_code]
      exact hfinished q hq hdone

theorem checkIo_inv {pids : List ℕ} (h : IoInv pids s) : ∃ s', (checkIo pids).run s = .ok () s' ∧ SameWork s s' ∧ IoInv [] s' := by
  induction pids generalizing s with
  | nil => exact ⟨s, rfl, .refl s, h⟩
  | cons pid pids ih =>
    obtain ⟨s₁, hrun₁, hsame₁, h₁⟩ := finishIo_inv h
    obtain ⟨s', hrun', hsame', h'⟩ := ih h₁
    refine ⟨s', ?_, hsame₁.trans hsame', h'⟩
    unfold checkIo
    rw [Prog.bind_of_ok hrun₁]
    exact hrun'

/-- **The start of an iteration**: every completion finds its process waiting. -/
theorem startTick_turn (hturn : Turn s) (hpending : Pending s) : ∃ s', startTick.run s = .ok () s' ∧ Turn s' ∧ Pending s' ∧
    s'.numProcs = s.numProcs ∧ ∀ pid, s'.code pid = s.code pid := by
  have hinv : IoInv (List.range s.numProcs) { s with clockTick := s.clockTick + 1 } := by
    refine ⟨⟨hturn.curr, hturn.alone, hturn.busy, hturn.finished⟩, fun pid hpid t ht hlt => ?_, List.nodup_range,
      fun pid hpid => List.mem_range.mp hpid, fun pid hpid hio => ?_⟩
    · have hbefore : s.clockTick < t := Int.lt_trans (Int.lt_succ s.clockTick) hlt
      obtain ⟨hwait, hone⟩ := hpending pid hpid t ht hbefore
      exact ⟨hwait, fun t' ht' hlt' => hone t' ht' (Int.lt_trans (Int.lt_succ s.clockTick) hlt')⟩
    · obtain ⟨hwait, hone⟩ := hpending pid (List.mem_range.mp hpid) _ hio (Int.lt_succ s.clockTick)
      refine ⟨hwait, fun t ht => ?_⟩
      by_contra hgt
      have hlt : s.clockTick + 1 < t := Int.not_le.mp hgt
      have heq := hone t ht (Int.lt_trans (Int.lt_succ s.clockTick) hlt)
      rw [heq] at hlt
      exact absurd hlt (Int.lt_irrefl _)
  obtain ⟨s', hrun, hsame, hinv'⟩ := checkIo_inv hinv
  refine ⟨s', ?_, hinv'.turn, hinv'.pending, hsame.numProcs, hsame.code⟩
  unfold startTick
  rw [Prog.bind_of_ok (Prog.run_modify ..), Prog.run_bind, Prog.run_get, Outcome.andThen_ok]
  exact hrun

/-! ### The execution -/

/-- The state in which the current process has given the processor up. -/
theorem Turn.release (h : Turn s) (hne : state ≠ .running) (hdone : state = .done → s.code s.currProc = []) :
    (∀ pid < s.numProcs, (s.setState s.currProc state).state pid ≠ .running) ∧
      ∀ pid < s.numProcs, (s.setState s.currProc state).state pid = .done → (s.setState s.currProc state).code pid = [] := by
  constructor
  · intro pid hpid hpid'
    by_cases heq : pid = s.currProc
    · rw [heq, setState_same] at hpid'
      exact hne hpid'
    · rw [setState_of_ne heq] at hpid'
      exact heq (h.alone pid hpid hpid')
  · intro pid hpid hpid'
    rw [setState_code]
    by_cases heq : pid = s.currProc
    · rw [heq, setState_same] at hpid'
      rw [heq]
      exact hdone hpid'
    · rw [setState_of_ne heq] at hpid'
      exact h.finished pid hpid hpid'

/-- A process that has not been waiting has no completion to come. -/
theorem Pending.not_lt (h : Pending s) (hpid : pid < s.numProcs) (hstate : s.state pid ≠ .waiting) {t : ℤ} (ht : t ∈ s.ioFinishTimes pid) :
    ¬ s.clockTick < t := fun hlt => hstate (h pid hpid t ht hlt).1

/-- The current process leaves the processor, and the next one gets it. -/
theorem Turn.leave (h : Turn s) (hpending : Pending s) (hrunning : s.state s.currProc = .running) (hne : state ≠ .running)
    (hdone : state = .done → s.code s.currProc = []) :
    ∃ s', nextProc.run (s.setState s.currProc state) = .ok () s' ∧ SameWork s s' ∧ Turn s' ∧ Pending s' := by
  obtain ⟨hidle, hfinished⟩ := h.release hne hdone
  obtain ⟨s', hrun, hd, hturn⟩ := nextProc_turn (s := s.setState s.currProc state) h.curr hidle hfinished
  refine ⟨s', hrun, (SameWork.setState s _ _).trans hd.toSameWork, hturn, Pending.dispatched (fun pid hpid t ht hlt => ?_) hd⟩
  by_cases heq : pid = s.currProc
  · rw [heq] at ht hpid
    have hstate : s.state s.currProc ≠ .waiting := by
      rw [hrunning]
      exact fun hnot => by cases hnot
    exact absurd hlt (hpending.not_lt hpid hstate ht)
  · rw [setState_of_ne heq]
    exact hpending pid hpid t ht hlt

/-- **I/O**: the current process waits, and its completion is the only one to come. -/
theorem Turn.wait (h : Turn s) (hpending : Pending s) (hrunning : s.state s.currProc = .running) (t : ℤ) :
    ∃ s', nextProc.run ((s.setState s.currProc .waiting).addIo s.currProc t) = .ok () s' ∧ s'.numProcs = s.numProcs ∧ (∀ pid, s'.code pid = s.code pid) ∧ Turn s' ∧ Pending s' := by
  have hwaits : SwitchState.waiting ≠ .running := fun hnot => by cases hnot
  obtain ⟨hidle, hfinished⟩ := h.release hwaits (fun hnot => by cases hnot)
  obtain ⟨s', hrun, hd, hturn⟩ := nextProc_turn (s := (s.setState s.currProc .waiting).addIo s.currProc t) h.curr hidle hfinished
  refine ⟨s', hrun, hd.numProcs, fun pid => (hd.code pid).trans setState_code, hturn, Pending.dispatched ?_ hd⟩
  intro pid hpid t₁ ht₁ hlt
  by_cases heq : pid = s.currProc
  · have hstate : s.state s.currProc ≠ .waiting := by
      rw [hrunning]
      exact fun hnot => by cases hnot
    have honly : ∀ t' ∈ s.ioFinishTimes s.currProc ++ [t], s.clockTick < t' → t' = t := by
      intro t' ht' hlt'
      rcases List.mem_append.mp ht' with ht' | ht'
      · exact absurd hlt' (hpending.not_lt h.curr hstate ht')
      · exact List.mem_singleton.mp ht'
    subst heq
    rw [addIo_same] at ht₁ ⊢
    exact ⟨setState_same, fun t' ht' hlt' => (honly t' ht' hlt').trans (honly t₁ ht₁ hlt).symm⟩
  · rw [addIo_of_ne heq] at ht₁ ⊢
    obtain ⟨hwait, hone⟩ := hpending pid hpid t₁ ht₁ hlt
    exact ⟨(setState_of_ne heq).trans hwait, hone⟩

/-- **An instruction** leaves the other processes to go on. -/
theorem runInstruction_turn (h : Turn s) (hpending : Pending s) {i : Option Instruction} (hi : i ≠ none → s.state s.currProc = .running) :
    ∃ s', (runInstruction i).run s = .ok () s' ∧ s'.numProcs = s.numProcs ∧ (∀ pid, s'.code pid = s.code pid) ∧ Turn s' ∧ Pending s' := by
  have hnothing : ∃ s', (pure () : SwitchProg Unit).run s = .ok () s' ∧ s'.numProcs = s.numProcs ∧ (∀ pid, s'.code pid = s.code pid) ∧
      Turn s' ∧ Pending s' := ⟨s, rfl, rfl, fun _ => rfl, h, hpending⟩
  unfold runInstruction
  rw [Prog.run_bind, Prog.run_get, Outcome.andThen_ok]
  cases i with
  | none => exact hnothing
  | some i =>
    have hrunning := hi (Option.some_ne_none i)
    cases i with
    | cpu => exact hnothing
    | yld =>
      dsimp only
      rw [Prog.bind_of_ok (show (moveToReady .running s.currProc).run s = .ok () _ from moveTo_run hrunning)]
      have hyields : SwitchState.ready ≠ .running := fun hnot => by cases hnot
      obtain ⟨s', hrun, hsame, hturn, hpending'⟩ := h.leave hpending hrunning hyields (fun hnot => by cases hnot)
      exact ⟨s', hrun, hsame.numProcs, hsame.code, hturn, hpending'⟩
    | io =>
      dsimp only
      rw [Prog.bind_of_ok (show (moveToWait .running s.currProc).run s = .ok () _ from moveTo_run hrunning),
        Prog.bind_of_ok (Prog.run_modify ..)]
      exact h.wait hpending hrunning _

/-- **The end of a process.** -/
theorem checkIfDone_turn (h : Turn s) (hpending : Pending s) :
    ∃ s', checkIfDone.run s = .ok () s' ∧ s'.numProcs = s.numProcs ∧ (∀ pid, s'.code pid = s.code pid) ∧ Turn s' ∧ Pending s' := by
  unfold checkIfDone
  rw [Prog.run_bind, Prog.run_get, Outcome.andThen_ok]
  split_ifs with hempty hrunning
  · have hmove : (moveToDone .running).run s = .ok () (s.setState s.currProc .done) := by
      unfold moveToDone
      rw [Prog.run_bind, Prog.run_get, Outcome.andThen_ok]
      exact moveTo_run hrunning
    rw [Prog.bind_of_ok hmove]
    have hends : SwitchState.done ≠ .running := fun hnot => by cases hnot
    obtain ⟨s', hrun, hsame, hturn, hpending'⟩ := h.leave hpending hrunning hends fun _ => List.length_eq_zero_iff.mp hempty
    exact ⟨s', hrun, hsame.numProcs, hsame.code, hturn, hpending'⟩
  · exact ⟨s, rfl, rfl, fun _ => rfl, h, hpending⟩
  · exact ⟨s, rfl, rfl, fun _ => rfl, h, hpending⟩

theorem instructionsOf_append (l l' : List (ℕ × Instruction)) (pid : ℕ) :
    instructionsOf (l ++ l') pid = instructionsOf l pid ++ instructionsOf l' pid := by
  simp [instructionsOf]

/-- **The instruction that is executed** is the next one of the current process, and is gone then. -/
theorem popInstruction_turn (h : Turn s) (hpending : Pending s) :
    ∃ i s', popInstruction.run s = .ok i s' ∧ s'.numProcs = s.numProcs ∧ Turn s' ∧ Pending s' ∧
      (i ≠ none → s'.state s'.currProc = .running) ∧
      ∀ pid, instructionsOf (i.map fun i => (s.currProc, i)).toList pid ++ s'.code pid = s.code pid := by
  have hnothing : ∃ i s', (pure none : SwitchProg (Option Instruction)).run s = .ok i s' ∧ s'.numProcs = s.numProcs ∧ Turn s' ∧ Pending s' ∧
      (i ≠ none → s'.state s'.currProc = .running) ∧
      ∀ pid, instructionsOf (i.map fun i => (s.currProc, i)).toList pid ++ s'.code pid = s.code pid :=
    ⟨none, s, rfl, rfl, h, hpending, fun hnot => absurd rfl hnot, fun _ => rfl⟩
  unfold popInstruction
  rw [Prog.run_bind, Prog.run_get, Outcome.andThen_ok]
  cases hcode : s.code s.currProc with
  | nil => exact hnothing
  | cons i rest =>
    dsimp only
    by_cases hrunning : s.state s.currProc = .running
    swap
    · rw [if_neg hrunning]
      exact hnothing
    rw [if_pos hrunning, Prog.bind_of_ok (Prog.run_modify ..)]
    refine ⟨some i, s.setCode s.currProc rest, rfl, rfl, ⟨h.curr, fun pid hpid hpid' => ?_, fun pid hpid hpid' => ?_,
      fun pid hpid hpid' => ?_⟩, fun pid hpid t ht hlt => ?_, fun _ => ?_, fun pid => ?_⟩
    · rw [setCode_state] at hpid'
      exact h.alone pid hpid hpid'
    · rw [setCode_state]
      exact hrunning
    · rw [setCode_state] at hpid'
      have hne : pid ≠ s.currProc := by
        intro heq
        rw [heq, hrunning] at hpid'
        cases hpid'
      rw [setCode_of_ne hne]
      exact h.finished pid hpid hpid'
    · rw [setCode_state]
      exact hpending pid hpid t ht hlt
    · rw [setCode_state]
      exact hrunning
    · by_cases heq : pid = s.currProc
      · rw [heq, setCode_same, hcode]
        simp [instructionsOf]
      · rw [setCode_of_ne heq]
        simp [instructionsOf, Ne.symm heq]

/-- **The execution** of an iteration. -/
theorem executeTick_turn (h : Turn s) (hpending : Pending s) : ∃ e s', executeTick.run s = .ok e s' ∧ Turn s' ∧ Pending s' ∧
    s'.numProcs = s.numProcs ∧ ∀ pid, instructionsOf e.toList pid ++ s'.code pid = s.code pid := by
  obtain ⟨i, s₁, hpop, hnum₁, h₁, hpending₁, hi, hcode₁⟩ := popInstruction_turn h hpending
  obtain ⟨s₂, hcount, hsame₂, h₂, hpending₂, hi₂⟩ : ∃ s₂, (countBusy i).run s₁ = .ok () s₂ ∧ SameWork s₁ s₂ ∧ Turn s₂ ∧ Pending s₂ ∧
      (i ≠ none → s₂.state s₂.currProc = .running) :=
    ⟨_, rfl, ⟨rfl, rfl, rfl, fun _ => rfl⟩, ⟨h₁.curr, h₁.alone, h₁.busy, h₁.finished⟩, hpending₁, hi⟩
  obtain ⟨s₃, hexec, hnum₃, hcode₃, h₃, hpending₃⟩ := runInstruction_turn h₂ hpending₂ hi₂
  obtain ⟨s₄, hdone, hnum₄, hcode₄, h₄, hpending₄⟩ := checkIfDone_turn h₃ hpending₃
  refine ⟨i.map fun i => (s.currProc, i), s₄, ?_, h₄, hpending₄, ?_, fun pid => ?_⟩
  · unfold executeTick
    rw [Prog.run_bind, Prog.run_get, Outcome.andThen_ok, Prog.bind_of_ok hpop, Prog.bind_of_ok hcount, Prog.bind_of_ok hexec,
      Prog.bind_of_ok hdone, Prog.run_pure]
  · rw [hnum₄, hnum₃, hsame₂.numProcs, hnum₁]
  · rw [hcode₄, hcode₃, hsame₂.code, hcode₁]

/-! ### Whole runs -/

theorem loaded_concat (programs : List (List Instruction)) (ioLength : ℤ) (code : List Instruction) :
    loaded (programs ++ [code]) ioLength = (loaded programs ioLength).load code := by
  unfold loaded
  rw [List.foldl_append]
  rfl

/-- The processes that have been loaded are ready. -/
theorem loaded_eq (programs : List (List Instruction)) (ioLength : ℤ) : (loaded programs ioLength).numProcs = programs.length ∧
    ∀ pid < programs.length, (loaded programs ioLength).procInfo pid = ⟨programs.getD pid [], .ready⟩ := by
  induction programs using List.reverseRecOn with
  | nil => exact ⟨rfl, fun pid hpid => absurd hpid (Nat.not_lt_zero pid)⟩
  | append_singleton programs code ih =>
    obtain ⟨hnum, hinfo⟩ := ih
    rw [loaded_concat]
    refine ⟨by rw [List.length_append]; exact congrArg (· + 1) hnum, fun pid hpid => ?_⟩
    rw [List.length_append, List.length_singleton] at hpid
    unfold Switch.load
    dsimp only
    rw [hnum]
    rcases Nat.lt_succ_iff_lt_or_eq.mp hpid with hlt | heq
    · rw [Function.update_of_ne (Nat.ne_of_lt hlt), hinfo pid hlt, List.getD_append _ _ _ _ hlt]
    · rw [heq, Function.update_self, List.getD_append_right _ _ _ _ (Nat.le_refl _), Nat.sub_self]
      rfl

/-- What holds when an iteration starts. -/
structure SwitchInv (programs : List (List Instruction)) (l : List (ℕ × Instruction)) (s : Switch) : Prop where
  turn : Turn s
  pending : Pending s
  numProcs : s.numProcs = programs.length
  log : ∀ pid < programs.length, instructionsOf l pid ++ s.code pid = programs.getD pid []

/-- The first process is running, and the others are ready. -/
theorem beginRun_inv (programs : List (List Instruction)) (ioLength : ℤ) (hne : programs ≠ []) :
    ∃ s, beginRun.run (loaded programs ioLength) = .ok () s ∧ SwitchInv programs [] s := by
  obtain ⟨hnum, hinfo⟩ := loaded_eq programs ioLength
  have hpos : 0 < programs.length := List.length_pos_iff.mpr hne
  let s : Switch := { loaded programs ioLength with
    ioFinishTimes := fun _ => [], currProc := 0, clockTick := 0, cpuBusy := 0, ioBusy := 0 }
  have hstate : ∀ pid < programs.length, s.state pid = .ready := fun pid hpid => congrArg ProcInfo.state (hinfo pid hpid)
  have hcode : ∀ pid < programs.length, s.code pid = programs.getD pid [] := fun pid hpid => congrArg ProcInfo.code (hinfo pid hpid)
  have hrun : beginRun.run (loaded programs ioLength) = .ok () (s.setState 0 .running) := by
    unfold beginRun
    rw [Prog.bind_of_ok (Prog.run_modify ..)]
    unfold moveToRunning
    rw [Prog.run_bind, Prog.run_get, Outcome.andThen_ok]
    exact moveTo_run (hstate 0 hpos)
  refine ⟨_, hrun, ⟨?_, fun pid hpid hpid' => ?_, fun _ _ _ => setState_same, fun pid hpid hpid' => ?_⟩, fun pid _ t ht => ?_, hnum,
    fun pid hpid => ?_⟩
  · show 0 < (loaded programs ioLength).numProcs
    rw [hnum]
    exact hpos
  · by_contra hne'
    have hpid0 : pid ≠ 0 := hne'
    rw [setState_of_ne hpid0, hstate pid (hnum ▸ hpid)] at hpid'
    cases hpid'
  · by_cases heq : pid = 0
    · rw [heq, setState_same] at hpid'
      cases hpid'
    · rw [setState_of_ne heq, hstate pid (hnum ▸ hpid)] at hpid'
      cases hpid'
  · cases ht
  · rw [setState_code, hcode pid hpid]
    rfl

/-- **An iteration.** -/
theorem SwitchInv.tick (h : SwitchInv programs l s) : ∃ s₁, startTick.run s = .ok () s₁ ∧ Turn s₁ ∧
    ∃ e s', executeTick.run s₁ = .ok e s' ∧ SwitchInv programs (l ++ e.toList) s' := by
  obtain ⟨s₁, hstart, hturn₁, hpending₁, hnum₁, hcode₁⟩ := startTick_turn h.turn h.pending
  obtain ⟨e, s', hexec, hturn', hpending', hnum', hcode'⟩ := executeTick_turn hturn₁ hpending₁
  refine ⟨s₁, hstart, hturn₁, e, s', hexec, hturn', hpending', hnum'.trans (hnum₁.trans h.numProcs), fun pid hpid => ?_⟩
  rw [instructionsOf_append, List.append_assoc, hcode' pid, hcode₁ pid]
  exact h.log pid hpid

theorem SwitchRun.inv (h : SwitchRun programs ioLength l s) : SwitchInv programs l s := by
  induction h with
  | start hne hrun =>
    obtain ⟨s', hrun', hinv⟩ := beginRun_inv programs ioLength hne
    rw [hrun] at hrun'
    cases hrun'
    exact hinv
  | tick h hactive hstart hexec ih =>
    obtain ⟨s₁, hstart', -, e, s', hexec', hinv⟩ := ih.tick
    rw [hstart] at hstart'
    cases hstart'
    rw [hexec] at hexec'
    cases hexec'
    exact hinv

/-- **The simulator is safe**, for all programs and every length of I/O. The first process starts, and whenever an iteration starts,
one process at most is running, a process that is done has no instruction left, and every process has executed the first instructions
of its program, each of them once. The iteration does not fail, and some process is running in it if one is ready. -/
theorem switch_safe (programs : List (List Instruction)) (ioLength : ℤ) :
    (programs ≠ [] → ∃ s, beginRun.run (loaded programs ioLength) = .ok () s) ∧
      ∀ l s, SwitchRun programs ioLength l s → s.RunsCurrent ∧ (∀ pid < s.numProcs, s.state pid = .done → s.code pid = []) ∧
        (∀ pid < programs.length, instructionsOf l pid ++ s.code pid = programs.getD pid []) ∧
        ∃ s₁, startTick.run s = .ok () s₁ ∧ s₁.RunsCurrent ∧ s₁.Busy ∧ ∃ e s', executeTick.run s₁ = .ok e s' := by
  constructor
  · intro hne
    obtain ⟨s, hrun, -⟩ := beginRun_inv programs ioLength hne
    exact ⟨s, hrun⟩
  · intro l s h
    have hinv := h.inv
    obtain ⟨s₁, hstart, hturn, e, s', hexec, -⟩ := hinv.tick
    exact ⟨hinv.turn.alone, hinv.turn.finished, hinv.log, s₁, hstart, hturn.alone,
      fun pid hpid hready => ⟨s₁.currProc, hturn.curr, hturn.busy pid hpid hready⟩, e, s', hexec⟩

/-- Two processes, of which the first ends with I/O and the second has nothing to do. -/
theorem switch_safe_two : ∃ l s, SwitchRun [[.io], []] 1 l s ∧ s.numActive = 0 ∧ instructionsOf l 0 = [.io] ∧ s.RunsCurrent := by
  have hrun : SwitchRun [[.io], []] 1 _ _ := (((SwitchRun.start (fun h => by cases h) rfl).tick (by decide) rfl rfl).tick (by decide) rfl
    rfl)
  exact ⟨_, _, hrun, by decide, rfl, ((switch_safe [[.io], []] 1).2 _ _ hrun).1⟩

end Ucore.Lab4
