import Ucore.Lab4.ProcessSwitch
import Mathlib.Algebra.Order.BigOperators.Group.Finset
import Mathlib.Data.Int.Order.Basic

/-!
# The end of the simulation

When the loop of `run` in `lab4-2-switch.py` ends.

* `Switches` is what a switch of the processor changes, and `Finishes` what the end of I/O changes.
* `executeTick_cases` says what the execution does: nothing, the end of a process, an instruction that is not I/O, or I/O.
* An iteration in which a process runs takes from `Switch.work`. One in which none runs brings the clock nearer to a finish
  time, as long as those who wait have one ahead: `Live`.
* With a length that is not positive the finish time of an I/O is not ahead, and its process waits for ever: `Stuck`.
-/

namespace Ucore.Lab4

open Ucore.Lib

/-! ### The loop -/

/-- An iteration. -/
def tick : SwitchProg Unit := do
  startTick
  let _ ← executeTick
  pure ()

/-- The loop, with the result whether it has ended. -/
def runLoop : ℕ → SwitchProg Bool
  | 0 => pure false
  | fuel + 1 => do
    let s ← Prog.get
    if s.numActive > 0 then do
      tick
      runLoop fuel
    else pure true

/-- Source: `lab4-2-switch.py` `run` -/
def schedulerRun (fuel : ℕ) : SwitchProg Bool := do
  let s ← Prog.get
  if s.numProcs = 0 then pure true
  else do
    beginRun
    runLoop fuel

/-- The run ends, and every process is done. -/
def Completes (programs : List (List Instruction)) (ioLength : ℤ) : Prop :=
  ∃ fuel s, (schedulerRun fuel).run (loaded programs ioLength) = .ok true s ∧
    s.numProcs = programs.length ∧ ∀ pid < s.numProcs, s.state pid = .done

/-! ### What the parts change -/

/-- The processor is given away: nobody starts or ends to wait, and who is done stays so. -/
structure Switches (s s' : Switch) : Prop extends SameWork s s' where
  ioLength : s'.ioLength = s.ioLength
  done : ∀ pid, s.state pid = .done → s'.state pid = .done
  waiting : ∀ pid, s'.state pid = .waiting ↔ s.state pid = .waiting

/-- Some I/O ends: nobody starts to wait, and who is done stays so. -/
structure Finishes (s s' : Switch) : Prop extends SameWork s s' where
  ioLength : s'.ioLength = s.ioLength
  done : ∀ pid, s.state pid = .done → s'.state pid = .done
  waiting : ∀ pid, s'.state pid = .waiting → s.state pid = .waiting

variable {s s' s₁ : Switch} {pid q : ℕ}

theorem Switches.refl (s : Switch) : Switches s s := ⟨.refl s, rfl, fun _ h => h, fun _ => Iff.rfl⟩

theorem Switches.trans (h : Switches s s₁) (h' : Switches s₁ s') : Switches s s' :=
  ⟨h.toSameWork.trans h'.toSameWork, h'.ioLength.trans h.ioLength, fun pid hd => h'.done pid (h.done pid hd),
    fun pid => (h'.waiting pid).trans (h.waiting pid)⟩

instance : Std.Refl Switches := ⟨Switches.refl⟩

instance : IsTrans Switch Switches := ⟨fun _ _ _ => Switches.trans⟩

theorem Finishes.refl (s : Switch) : Finishes s s := ⟨.refl s, rfl, fun _ h => h, fun _ h => h⟩

theorem Finishes.trans (h : Finishes s s₁) (h' : Finishes s₁ s') : Finishes s s' :=
  ⟨h.toSameWork.trans h'.toSameWork, h'.ioLength.trans h.ioLength, fun pid hd => h'.done pid (h.done pid hd),
    fun pid hw => h.waiting pid (h'.waiting pid hw)⟩

theorem Switches.finishes (h : Switches s s') : Finishes s s' :=
  ⟨h.toSameWork, h.ioLength, h.done, fun pid => (h.waiting pid).mp⟩

/-- A move between states in which a process neither waits nor is done before. -/
theorem moveTo_switches (site : SwitchPanic) {target expected : SwitchState} (pid : ℕ) (htarget : target ≠ .waiting)
    (hdone : expected ≠ .done) (hwaiting : expected ≠ .waiting) :
    Within Switches (fun _ => True) (moveTo site target expected pid) := by
  intro s
  by_cases h : s.state pid = expected
  · rw [moveTo_run h]
    refine ⟨.setState s pid target, rfl, fun q hq => ?_, fun q => ?_⟩
    · by_cases heq : q = pid
      · subst heq
        exact absurd (h.symm.trans hq) hdone
      · rwa [setState_of_ne heq]
    · by_cases heq : q = pid
      · subst heq
        rw [setState_same, h]
        exact iff_of_false htarget hwaiting
      · rw [setState_of_ne heq]
  · simp [moveTo, h]

theorem nextProc_switches : Within Switches (fun _ => True) nextProc := by
  refine .bind (.modify fun _ => ⟨⟨rfl, rfl, rfl, fun _ => rfl⟩, rfl, fun _ h => h, fun _ => Iff.rfl⟩) fun _ => ?_
  refine .bind .get fun s => .ite ?_ (.pure ())
  refine .bind .get fun s => ?_
  exact moveTo_switches _ _ (by simp) (by simp) (by simp)

theorem checkIfDone_switches : Within Switches (fun _ => True) checkIfDone := by
  refine .bind .get fun s => .ite (.ite ?_ (.pure ())) (.pure ())
  refine .bind ?_ fun _ => nextProc_switches
  refine .bind .get fun s => ?_
  exact moveTo_switches _ _ (by simp) (by simp) (by simp)

/-- What a part that returns has changed. -/
theorem of_within {α : Type} {R : Switch → Switch → Prop} {m : SwitchProg α} (h : Within R (fun _ => True) m) {a : α}
    (hrun : m.run s = .ok a s') : R s s' := by
  have hpost := h s
  rwa [hrun] at hpost

/-! ### The end of I/O -/

/-- The I/O of a process ends when the clock says so: the process does not wait any more. -/
theorem finishIo_finishes (h : (finishIo pid).run s = .ok () s') :
    Finishes s s' ∧ (s.clockTick ∈ s.ioFinishTimes pid → s'.state pid ≠ .waiting) := by
  by_cases hio : s.clockTick ∈ s.ioFinishTimes pid
  swap
  · rw [finishIo, Prog.bind_of_ok (Prog.run_get s), if_neg hio] at h
    obtain ⟨-, rfl⟩ := (Outcome.ok.injEq ..).mp h
    exact ⟨.refl s, fun hnot => absurd hnot hio⟩
  by_cases hwait : s.state pid = .waiting
  swap
  · -- The assertion of `move_to_ready` fails.
    have hstop : (moveToReady .waiting pid).run s = .panic .moveToReady := by simp [moveToReady, moveTo, hwait]
    rw [finishIo, Prog.bind_of_ok (Prog.run_get s), if_pos hio] at h
    split_ifs at h
    · rw [Prog.bind_of_panic hstop] at h
      cases h
    · rw [hstop] at h
      cases h
  have hready : Finishes s (s.setState pid .ready) := by
    refine ⟨.setState s pid .ready, rfl, fun q hq => ?_, fun q hq => ?_⟩
    · have hne : q ≠ pid := by
        rintro rfl
        rw [hwait] at hq
        cases hq
      rwa [setState_of_ne hne]
    · by_cases heq : q = pid
      · rw [heq, setState_same] at hq
        cases hq
      · rwa [setState_of_ne heq] at hq
  have hmove : (moveToReady .waiting pid).run s = .ok () (s.setState pid .ready) := moveTo_run hwait
  have hswitches : Switches (s.setState pid .ready) s' := by
    rw [finishIo, Prog.bind_of_ok (Prog.run_get s), if_pos hio] at h
    split_ifs at h
    · rw [Prog.bind_of_ok hmove] at h
      exact of_within nextProc_switches h
    · rw [hmove] at h
      obtain ⟨-, rfl⟩ := (Outcome.ok.injEq ..).mp h
      exact .refl _
  refine ⟨hready.trans hswitches.finishes, fun _ hwaiting => ?_⟩
  rw [hswitches.waiting, setState_same] at hwaiting
  cases hwaiting

theorem checkIo_finishes {pids : List ℕ} (h : (checkIo pids).run s = .ok () s') :
    Finishes s s' ∧ ∀ pid ∈ pids, s.clockTick ∈ s.ioFinishTimes pid → s'.state pid ≠ .waiting := by
  induction pids generalizing s with
  | nil =>
    obtain ⟨-, rfl⟩ := (Outcome.ok.injEq ..).mp h
    exact ⟨.refl s, by simp⟩
  | cons pid pids ih =>
    obtain ⟨_, s₁, hfirst, hrest⟩ := Prog.bind_eq_ok.mp h
    obtain ⟨hf₁, hpid⟩ := finishIo_finishes hfirst
    obtain ⟨hf, hpids⟩ := ih hrest
    refine ⟨hf₁.trans hf, fun q hq hio => ?_⟩
    rcases List.mem_cons.mp hq with rfl | hq
    · exact fun hwait => hpid hio (hf.waiting _ hwait)
    · refine hpids q hq ?_
      rwa [hf₁.clock, hf₁.times]

/-- The clock advances, and nobody waits for a time that has come. -/
theorem startTick_finishes (h : startTick.run s = .ok () s₁) :
    Finishes { s with clockTick := s.clockTick + 1 } s₁ ∧
      ∀ pid < s.numProcs, s.clockTick + 1 ∈ s.ioFinishTimes pid → s₁.state pid ≠ .waiting := by
  rw [startTick, Prog.bind_of_ok (Prog.run_modify ..), Prog.bind_of_ok (Prog.run_get _)] at h
  obtain ⟨hf, hpids⟩ := checkIo_finishes h
  exact ⟨hf, fun pid hpid => hpids pid (List.mem_range.mpr hpid)⟩

/-! ### The execution -/

/-- The instruction that is popped. -/
theorem popInstruction_cases {i : Option Instruction} (h : popInstruction.run s = .ok i s₁) :
    (i = none ∧ s₁ = s ∧ (s.state s.currProc = .running → s.code s.currProc = [])) ∨
      ∃ j rest, i = some j ∧ s.state s.currProc = .running ∧ s.code s.currProc = j :: rest ∧
        s₁ = s.setCode s.currProc rest := by
  rw [popInstruction, Prog.bind_of_ok (Prog.run_get s)] at h
  cases hcode : s.code s.currProc with
  | nil =>
    rw [hcode] at h
    obtain ⟨rfl, rfl⟩ := (Outcome.ok.injEq ..).mp h
    exact .inl ⟨rfl, rfl, fun _ => rfl⟩
  | cons j rest =>
    rw [hcode] at h
    dsimp only at h
    by_cases hrunning : s.state s.currProc = .running
    · rw [if_pos hrunning] at h
      obtain ⟨rfl, rfl⟩ := (Outcome.ok.injEq ..).mp h
      exact .inr ⟨j, rest, rfl, hrunning, rfl, rfl⟩
    · rw [if_neg hrunning] at h
      obtain ⟨rfl, rfl⟩ := (Outcome.ok.injEq ..).mp h
      exact .inl ⟨rfl, rfl, fun hnot => absurd hnot hrunning⟩

/-- An instruction gives the processor away, or it keeps it. -/
theorem runInstruction_switches {i : Option Instruction} (hi : i ≠ some .io) :
    Within Switches (fun _ => True) (runInstruction i) := by
  refine .bind .get fun s => ?_
  match i with
  | none => exact .pure ()
  | some .cpu => exact .pure ()
  | some .io => exact absurd rfl hi
  | some .yld => exact .bind (moveTo_switches _ _ (by simp) (by simp) (by simp)) fun _ => nextProc_switches

/-- The state of a process that starts to wait. -/
def Switch.waitIo (s : Switch) : Switch :=
  (s.setState s.currProc .waiting).addIo s.currProc (s.clockTick + s.ioLength)

theorem runInstruction_io (h : (runInstruction (some .io)).run s = .ok () s') : Switches s.waitIo s' := by
  rw [runInstruction, Prog.bind_of_ok (Prog.run_get s)] at h
  obtain ⟨_, s₁, hmove, hrest⟩ := Prog.bind_eq_ok.mp h
  obtain ⟨_, s₂, hadd, hnext⟩ := Prog.bind_eq_ok.mp hrest
  have hs₁ : s₁ = s.setState s.currProc .waiting := by
    by_cases hrunning : s.state s.currProc = .running
    · have hrun : (moveToWait .running s.currProc).run s = .ok () (s.setState s.currProc .waiting) := moveTo_run hrunning
      exact ((Outcome.ok.injEq ..).mp (hrun.symm.trans hmove)).2.symm
    · simp [moveToWait, moveTo, hrunning] at hmove
  obtain ⟨-, rfl⟩ := (Outcome.ok.injEq ..).mp hadd
  rw [hs₁] at hnext
  exact of_within nextProc_switches hnext

/-- The current process has no instruction left. -/
theorem checkIfDone_done (hrunning : s.state s.currProc = .running) (hcode : s.code s.currProc = [])
    (h : checkIfDone.run s = .ok () s') : s'.state s.currProc = .done := by
  rw [checkIfDone, Prog.bind_of_ok (Prog.run_get s), if_pos (by rw [hcode]; rfl), if_pos hrunning] at h
  have hmove : (moveToDone .running).run s = .ok () (s.setState s.currProc .done) := by
    rw [moveToDone, Prog.bind_of_ok (Prog.run_get s)]
    exact moveTo_run hrunning
  rw [Prog.bind_of_ok hmove] at h
  exact (of_within nextProc_switches h).done _ setState_same

/-- Nobody runs: nothing is done. -/
theorem checkIfDone_idle (hidle : s.state s.currProc ≠ .running) : checkIfDone.run s = .ok () s := by
  rw [checkIfDone, Prog.bind_of_ok (Prog.run_get s), if_neg hidle, ite_self, Prog.run_pure]

/-- The state after the statistics. -/
def Switch.counted (s : Switch) (i : Option Instruction) : Switch :=
  { s with
    cpuBusy := s.cpuBusy + (List.range s.numProcs).countP fun pid => pid = s.currProc ∧ i ≠ none
    ioBusy := s.ioBusy + if s.iosInFlight > 0 then 1 else 0 }

theorem counted_switches (s : Switch) (i : Option Instruction) : Switches s (s.counted i) :=
  ⟨⟨rfl, rfl, rfl, fun _ => rfl⟩, rfl, fun _ h => h, fun _ => Iff.rfl⟩

/-- What the execution does. -/
theorem executeTick_cases {e : Option (ℕ × Instruction)} (h : executeTick.run s = .ok e s') :
    (s.state s.currProc ≠ .running ∧ Switches s s' ∧ ∀ pid, s'.state pid = s.state pid) ∨
    s.state s.currProc = .running ∧
      ((s.code s.currProc = [] ∧ Switches s s' ∧ s'.state s.currProc = .done) ∨
        ∃ i rest, s.code s.currProc = i :: rest ∧
          (i ≠ .io ∧ Switches (s.setCode s.currProc rest) s' ∨
            i = .io ∧ Switches (s.setCode s.currProc rest).waitIo s')) := by
  obtain ⟨i, s₁, hpop, h⟩ := Prog.bind_eq_ok.mp (Prog.get_bind_eq_ok.mp h)
  rw [Prog.bind_of_ok (show (countBusy i).run s₁ = .ok () (s₁.counted i) from rfl)] at h
  obtain ⟨_, s₃, hrun, h⟩ := Prog.bind_eq_ok.mp h
  obtain ⟨_, s₄, hcheck, h⟩ := Prog.bind_eq_ok.mp h
  obtain ⟨-, rfl⟩ := (Outcome.ok.injEq ..).mp h
  have hlast := of_within checkIfDone_switches hcheck
  rcases popInstruction_cases hpop with ⟨rfl, rfl, hempty⟩ | ⟨i, rest, rfl, hrunning, hcode, rfl⟩
  · -- No instruction is executed.
    obtain ⟨-, rfl⟩ := (Outcome.ok.injEq ..).mp hrun
    by_cases hrunning : s₁.state s₁.currProc = .running
    · have hdone := checkIfDone_done (s := s₁.counted none) hrunning (hempty hrunning) hcheck
      exact .inr ⟨hrunning, .inl ⟨hempty hrunning, (counted_switches s₁ none).trans hlast, hdone⟩⟩
    · rw [checkIfDone_idle (s := s₁.counted none) hrunning] at hcheck
      obtain ⟨-, rfl⟩ := (Outcome.ok.injEq ..).mp hcheck
      exact .inl ⟨hrunning, counted_switches s₁ none, fun _ => rfl⟩
  · refine .inr ⟨hrunning, .inr ⟨i, rest, hcode, ?_⟩⟩
    by_cases hi : i = .io
    · subst hi
      right
      refine ⟨rfl, Switches.trans ?_ ((runInstruction_io hrun).trans hlast)⟩
      exact ⟨⟨rfl, rfl, rfl, fun _ => rfl⟩, rfl, fun _ h => h, fun _ => Iff.rfl⟩
    · left
      have hmid := of_within (runInstruction_switches (by simpa using hi)) hrun
      exact ⟨hi, (counted_switches _ _).trans (hmid.trans hlast)⟩

/-! ### The work that is left -/

/-- What a process has left: its instructions, and to be done. -/
def Switch.share (s : Switch) (pid : ℕ) : ℕ := (s.code pid).length + if s.state pid = .done then 0 else 1

/-- What all processes have left. -/
def Switch.work (s : Switch) : ℕ := ∑ pid ∈ Finset.range s.numProcs, s.share pid

/-- A state in which no process has more left. -/
structure Shrinks (s s' : Switch) : Prop where
  numProcs : s'.numProcs = s.numProcs
  code : ∀ pid, (s'.code pid).length ≤ (s.code pid).length
  done : ∀ pid, s.state pid = .done → s'.state pid = .done

theorem Shrinks.share_le (h : Shrinks s s') (pid : ℕ) : s'.share pid ≤ s.share pid := by
  refine Nat.add_le_add (h.code pid) ?_
  by_cases hdone : s.state pid = .done
  · rw [if_pos hdone, if_pos (h.done pid hdone)]
  · rw [if_neg hdone]
    split_ifs <;> omega

theorem Shrinks.work_le (h : Shrinks s s') : s'.work ≤ s.work := by
  rw [Switch.work, Switch.work, h.numProcs]
  exact Finset.sum_le_sum fun pid _ => h.share_le pid

theorem Shrinks.work_lt (h : Shrinks s s') (hpid : pid < s.numProcs) (hlt : s'.share pid < s.share pid) :
    s'.work < s.work := by
  rw [Switch.work, Switch.work, h.numProcs]
  exact Finset.sum_lt_sum (fun pid _ => h.share_le pid) ⟨pid, Finset.mem_range.mpr hpid, hlt⟩

theorem Shrinks.trans (h : Shrinks s s₁) (h' : Shrinks s₁ s') : Shrinks s s' :=
  ⟨h'.numProcs.trans h.numProcs, fun pid => (h'.code pid).trans (h.code pid), fun pid hd => h'.done pid (h.done pid hd)⟩

theorem Finishes.shrinks (h : Finishes s s') : Shrinks s s' :=
  ⟨h.numProcs, fun pid => by rw [h.code], h.done⟩

/-- The current process has executed an instruction. -/
theorem setCode_shrinks {i : Instruction} {rest : List Instruction} (hcode : s.code s.currProc = i :: rest) :
    Shrinks s (s.setCode s.currProc rest) := by
  refine ⟨rfl, fun pid => ?_, fun pid hd => by rwa [setCode_state]⟩
  by_cases heq : pid = s.currProc
  · rw [heq, setCode_same, hcode]
    exact Nat.le_succ _
  · rw [setCode_of_ne heq]

theorem setCode_share_lt {i : Instruction} {rest : List Instruction} (hcode : s.code s.currProc = i :: rest) :
    (s.setCode s.currProc rest).share s.currProc < s.share s.currProc := by
  simp [Switch.share, hcode]

theorem waitIo_shrinks (hrunning : s.state s.currProc = .running) : Shrinks s s.waitIo := by
  refine ⟨rfl, fun pid => le_of_eq (congrArg List.length setState_code), fun pid hd => ?_⟩
  have hne : pid ≠ s.currProc := by
    rintro rfl
    rw [hrunning] at hd
    cases hd
  exact (setState_of_ne hne).trans hd

/-- An execution in which a process runs takes from the work. -/
theorem executeTick_work {e : Option (ℕ × Instruction)} (h : executeTick.run s = .ok e s') :
    Shrinks s s' ∧ (s.currProc < s.numProcs → s.state s.currProc = .running → s'.work < s.work) := by
  rcases executeTick_cases h with ⟨hidle, hs, -⟩ | ⟨hrunning, ⟨hcode, hs, hdone⟩ | ⟨i, rest, hcode, hrest⟩⟩
  · exact ⟨hs.finishes.shrinks, fun _ hnot => absurd hnot hidle⟩
  · refine ⟨hs.finishes.shrinks, fun hcurr _ => hs.finishes.shrinks.work_lt hcurr ?_⟩
    simp [Switch.share, hs.code, hcode, hdone, hrunning]
  · have hpop := setCode_shrinks hcode
    have hafter : Shrinks (s.setCode s.currProc rest) s' := by
      rcases hrest with ⟨-, hs⟩ | ⟨-, hs⟩
      · exact hs.finishes.shrinks
      · exact (waitIo_shrinks (s := s.setCode s.currProc rest) (setCode_state.trans hrunning)).trans hs.finishes.shrinks
    exact ⟨hpop.trans hafter, fun hcurr _ =>
      (hpop.trans hafter).work_lt hcurr ((hafter.share_le _).trans_lt (setCode_share_lt hcode))⟩

/-! ### Waiting -/

/-- Every process that waits has a finish time ahead. -/
def Waits (s : Switch) : Prop :=
  ∀ pid < s.numProcs, s.state pid = .waiting → ∃ t ∈ s.ioFinishTimes pid, s.clockTick < t

/-- What an execution does for those who wait: the current process starts to wait if its instruction is I/O. -/
structure TickEffect (s s' : Switch) : Prop where
  numProcs : s'.numProcs = s.numProcs
  clock : s'.clockTick = s.clockTick
  ioLength : s'.ioLength = s.ioLength
  times_kept : ∀ pid, ∀ t ∈ s.ioFinishTimes pid, t ∈ s'.ioFinishTimes pid
  times_new : ∀ pid, ∀ t ∈ s'.ioFinishTimes pid, t ∈ s.ioFinishTimes pid ∨ t = s.clockTick + s.ioLength
  waiting_kept : ∀ pid, s.state pid = .waiting → s'.state pid = .waiting
  waiting_new : ∀ pid, s'.state pid = .waiting → s.state pid = .waiting ∨
    .io ∈ s.code pid ∧ s.clockTick + s.ioLength ∈ s'.ioFinishTimes pid
  io_kept : ∀ pid, .io ∈ s.code pid → .io ∈ s'.code pid ∨ s'.state pid = .waiting
  code : ∀ pid, ∀ i ∈ s'.code pid, i ∈ s.code pid

theorem TickEffect.refl (s : Switch) : TickEffect s s :=
  ⟨rfl, rfl, rfl, fun _ _ h => h, fun _ _ h => .inl h, fun _ h => h, fun _ h => .inl h, fun _ h => .inl h, fun _ _ h => h⟩

/-- A switch of the processor adds nothing to it. -/
theorem TickEffect.switches (h : TickEffect s s₁) (hs : Switches s₁ s') : TickEffect s s' where
  numProcs := hs.numProcs.trans h.numProcs
  clock := hs.clock.trans h.clock
  ioLength := hs.ioLength.trans h.ioLength
  times_kept pid t ht := by
    rw [hs.times]
    exact h.times_kept pid t ht
  times_new pid t ht := h.times_new pid t (hs.times ▸ ht)
  waiting_kept pid hw := (hs.waiting pid).mpr (h.waiting_kept pid hw)
  waiting_new pid hw := by
    rw [hs.times]
    exact h.waiting_new pid ((hs.waiting pid).mp hw)
  io_kept pid hio := by
    rw [hs.code, hs.waiting]
    exact h.io_kept pid hio
  code pid i hi := h.code pid i (hs.code pid ▸ hi)

theorem setCode_effect {i : Instruction} {rest : List Instruction} (hi : i ≠ .io) (hcode : s.code s.currProc = i :: rest) :
    TickEffect s (s.setCode s.currProc rest) := by
  refine ⟨rfl, rfl, rfl, fun _ _ h => h, fun _ _ h => .inl h, fun pid hw => by rwa [setCode_state],
    fun pid hw => .inl (by rwa [setCode_state] at hw), fun pid hio => .inl ?_, fun pid j hj => ?_⟩
  · by_cases heq : pid = s.currProc
    · subst heq
      rw [hcode] at hio
      rw [setCode_same]
      exact (List.mem_cons.mp hio).resolve_left (Ne.symm hi)
    · rwa [setCode_of_ne heq]
  · by_cases heq : pid = s.currProc
    · subst heq
      rw [setCode_same] at hj
      rw [hcode]
      exact List.mem_cons_of_mem i hj
    · rwa [setCode_of_ne heq] at hj

theorem waitIo_effect {rest : List Instruction} (hcode : s.code s.currProc = .io :: rest) :
    TickEffect s (s.setCode s.currProc rest).waitIo := by
  have hcurr : (s.setCode s.currProc rest).waitIo.state s.currProc = .waiting ∧
      (s.setCode s.currProc rest).waitIo.code s.currProc = rest ∧
      (s.setCode s.currProc rest).waitIo.ioFinishTimes s.currProc =
        s.ioFinishTimes s.currProc ++ [s.clockTick + s.ioLength] :=
    ⟨setState_same, setState_code.trans setCode_same, addIo_same⟩
  have hother : ∀ pid, pid ≠ s.currProc → (s.setCode s.currProc rest).waitIo.state pid = s.state pid ∧
      (s.setCode s.currProc rest).waitIo.code pid = s.code pid ∧
      (s.setCode s.currProc rest).waitIo.ioFinishTimes pid = s.ioFinishTimes pid := fun pid hne =>
    ⟨(setState_of_ne hne).trans setCode_state, setState_code.trans (setCode_of_ne hne), addIo_of_ne hne⟩
  generalize hu : (s.setCode s.currProc rest).waitIo = u at hcurr hother ⊢
  obtain ⟨hwait, hrest, htimes⟩ := hcurr
  refine ⟨hu ▸ rfl, hu ▸ rfl, hu ▸ rfl, fun pid t ht => ?_, fun pid t ht => ?_, fun pid hw => ?_, fun pid hw => ?_,
    fun pid hio => ?_, fun pid j hj => ?_⟩ <;> rcases eq_or_ne pid s.currProc with rfl | hne
  · rw [htimes]
    exact List.mem_append_left _ ht
  · rwa [(hother pid hne).2.2]
  · rw [htimes] at ht
    exact (List.mem_append.mp ht).imp id List.mem_singleton.mp
  · rw [(hother pid hne).2.2] at ht
    exact .inl ht
  · exact hwait
  · rwa [(hother pid hne).1]
  · rw [hcode, htimes]
    exact .inr ⟨List.mem_cons_self, List.mem_append_right _ (List.mem_singleton_self _)⟩
  · rw [(hother pid hne).1] at hw
    exact .inl hw
  · exact .inr hwait
  · rw [(hother pid hne).2.1]
    exact .inl hio
  · rw [hrest] at hj
    rw [hcode]
    exact List.mem_cons_of_mem _ hj
  · rwa [(hother pid hne).2.1] at hj

theorem executeTick_effect {e : Option (ℕ × Instruction)} (h : executeTick.run s = .ok e s') : TickEffect s s' := by
  rcases executeTick_cases h with ⟨-, hs, -⟩ | ⟨-, ⟨-, hs, -⟩ | ⟨i, rest, hcode, ⟨hi, hs⟩ | ⟨rfl, hs⟩⟩⟩
  · exact (TickEffect.refl s).switches hs
  · exact (TickEffect.refl s).switches hs
  · exact (setCode_effect hi hcode).switches hs
  · exact (waitIo_effect hcode).switches hs

/-- The loop ends, and every process is done. -/
def Ends (s : Switch) : Prop :=
  ∃ fuel s', (runLoop fuel).run s = .ok true s' ∧ s'.numProcs = s.numProcs ∧ ∀ pid < s'.numProcs, s'.state pid = .done

theorem numActive_pos : s.numActive > 0 ↔ ∃ pid < s.numProcs, s.state pid ≠ .done := by
  simp [Switch.numActive, List.countP_pos_iff]

theorem ends_of_done (h : ¬ s.numActive > 0) : Ends s := by
  refine ⟨1, s, ?_, rfl, fun pid hpid => ?_⟩
  · rw [runLoop, Prog.bind_of_ok (Prog.run_get s), if_neg h, Prog.run_pure]
  · by_contra hne
    exact h (numActive_pos.mpr ⟨pid, hpid, hne⟩)

theorem Ends.of_tick (hactive : s.numActive > 0) (htick : tick.run s = .ok () s') (hnum : s'.numProcs = s.numProcs)
    (h : Ends s') : Ends s := by
  obtain ⟨fuel, u, hrun, hu, hdone⟩ := h
  refine ⟨fuel + 1, u, ?_, hu.trans hnum, hdone⟩
  rw [runLoop, Prog.bind_of_ok (Prog.run_get s), if_pos hactive, Prog.bind_of_ok htick, hrun]

theorem tick_run {e : Option (ℕ × Instruction)} (hstart : startTick.run s = .ok () s₁)
    (hexec : executeTick.run s₁ = .ok e s') : tick.run s = .ok () s' := by
  rw [tick, Prog.bind_of_ok hstart, Prog.bind_of_ok hexec, Prog.run_pure]

/-! ### The run that ends -/

/-- What holds when an iteration starts, where I/O takes time or there is none. -/
structure Live (s : Switch) : Prop where
  turn : Turn s
  pending : Pending s
  waits : Waits s
  soon : ∀ pid < s.numProcs, ∀ t ∈ s.ioFinishTimes pid, t ≤ s.clockTick + s.ioLength.toNat
  io : 0 < s.ioLength ∨ ∀ pid < s.numProcs, .io ∉ s.code pid

/-- The start of an iteration leaves those waiting whose finish time is still ahead. -/
theorem Waits.startTick (h : Waits s) (hrun : startTick.run s = .ok () s₁) : Waits s₁ := by
  obtain ⟨hf, hnot⟩ := startTick_finishes hrun
  intro pid hpid hwait
  rw [hf.numProcs] at hpid
  obtain ⟨t, ht, hlt⟩ := h pid hpid (hf.waiting pid hwait)
  rw [hf.times, hf.clock]
  refine ⟨t, ht, lt_of_le_of_ne (Int.add_one_le_of_lt hlt) ?_⟩
  rintro rfl
  exact hnot pid hpid ht hwait

/-- **An iteration** takes from the work, or it takes time off those who wait. -/
theorem Live.tick (h : Live s) : ∃ s', tick.run s = .ok () s' ∧ Live s' ∧ s'.numProcs = s.numProcs ∧
    s'.ioLength = s.ioLength ∧ (s'.work < s.work ∨
      s'.work ≤ s.work ∧ s'.clockTick = s.clockTick + 1 ∧ s'.ioFinishTimes = s.ioFinishTimes ∧
        ∀ pid < s'.numProcs, s'.state pid ≠ .done → s'.state pid = .waiting) := by
  obtain ⟨s₁, hstart, hturn₁, hpending₁, hnum₁, hcode₁⟩ := startTick_turn h.turn h.pending
  obtain ⟨e, s', hexec, hturn', hpending', hnum', -⟩ := executeTick_turn hturn₁ hpending₁
  have hf := (startTick_finishes hstart).1
  have hwaits₁ := h.waits.startTick hstart
  have heff := executeTick_effect hexec
  have hclock : s'.clockTick = s.clockTick + 1 := heff.clock.trans hf.clock
  have hlength : s'.ioLength = s.ioLength := heff.ioLength.trans hf.ioLength
  refine ⟨s', tick_run hstart hexec, ⟨hturn', hpending', ?_, ?_, ?_⟩, hnum'.trans hnum₁, hlength, ?_⟩
  · intro pid hpid hwait
    rw [hnum'] at hpid
    rw [heff.clock]
    rcases heff.waiting_new pid hwait with hwait | ⟨hio, ht⟩
    · obtain ⟨t, ht, hlt⟩ := hwaits₁ pid hpid hwait
      exact ⟨t, heff.times_kept pid t ht, hlt⟩
    · refine ⟨_, ht, ?_⟩
      rw [hnum₁] at hpid
      rcases h.io with hpos | hnone
      · rw [hf.ioLength]
        exact lt_add_of_pos_right _ hpos
      · exact absurd (hcode₁ pid ▸ hio) (hnone pid hpid)
  · intro pid hpid t ht
    rw [hnum', hnum₁] at hpid
    rw [hclock, hlength]
    rcases heff.times_new pid t ht with ht | rfl
    · have := h.soon pid hpid t (hf.times ▸ ht)
      omega
    · rw [hf.clock, hf.ioLength]
      exact Int.add_le_add_left (Int.self_le_toNat _) _
  · rw [hlength, hnum', hnum₁]
    refine h.io.imp id fun hnone pid hpid hio => hnone pid hpid ?_
    rw [← hcode₁ pid]
    exact heff.code pid _ hio
  · by_cases hrunning : s₁.state s₁.currProc = .running
    · exact .inl (((executeTick_work hexec).2 hturn₁.curr hrunning).trans_le hf.shrinks.work_le)
    · right
      refine ⟨(executeTick_work hexec).1.work_le.trans hf.shrinks.work_le, hclock, ?_⟩
      rcases executeTick_cases hexec with ⟨-, hs, hstate⟩ | ⟨hnot, -⟩
      · refine ⟨hs.times.trans hf.times, fun pid hpid hactive => ?_⟩
        rw [hnum'] at hpid
        rw [hstate] at hactive ⊢
        -- Nobody runs, so nobody is ready.
        cases hpstate : s₁.state pid with
        | running => exact absurd (hturn₁.alone pid hpid hpstate ▸ hpstate) hrunning
        | ready => exact absurd (hturn₁.busy pid hpid hpstate) hrunning
        | done => exact absurd hpstate hactive
        | waiting => rfl
      · exact absurd hnot hrunning

/-- With no more than `d` ticks to the last finish time, some iteration takes from the work, or the loop is over. -/
theorem Live.ends_of_less (d : ℕ) (h : Live s) (hd : ∀ pid < s.numProcs, ∀ t ∈ s.ioFinishTimes pid, t ≤ s.clockTick + d)
    (hless : ∀ s', Live s' → s'.work < s.work → Ends s') : Ends s := by
  induction d generalizing s with
  | zero =>
    by_cases hactive : s.numActive > 0
    swap
    · exact ends_of_done hactive
    obtain ⟨s', htick, hlive, hnum, -, hwork | ⟨-, hclock, htimes, hwaiting⟩⟩ := h.tick
    · exact (hless s' hlive hwork).of_tick hactive htick hnum
    · refine (ends_of_done ?_).of_tick hactive htick hnum
      intro hactive'
      obtain ⟨pid, hpid, hpstate⟩ := numActive_pos.mp hactive'
      obtain ⟨t, ht, hlt⟩ := hlive.waits pid hpid (hwaiting pid hpid hpstate)
      have := hd pid (hnum ▸ hpid) t (htimes ▸ ht)
      omega
  | succ d ih =>
    by_cases hactive : s.numActive > 0
    swap
    · exact ends_of_done hactive
    obtain ⟨s', htick, hlive, hnum, -, hwork | ⟨hwork, hclock, htimes, -⟩⟩ := h.tick
    · exact (hless s' hlive hwork).of_tick hactive htick hnum
    · refine (ih hlive (fun pid hpid t ht => ?_) fun u hu hlt => ?_).of_tick hactive htick hnum
      · have := hd pid (hnum ▸ hpid) t (htimes ▸ ht)
        omega
      · exact hless u hu (hlt.trans_le hwork)

/-- **The run ends.** -/
theorem Live.ends (h : Live s) : Ends s := by
  induction hw : s.work using Nat.strong_induction_on generalizing s with
  | _ w ih =>
    exact h.ends_of_less s.ioLength.toNat h.soon fun s' hs' hlt => ih s'.work (hw ▸ hlt) hs' rfl

/-! ### The run that does not end -/

/-- An I/O whose length is not positive: the process `pid` still has it to do, or waits for a time that is over. -/
structure Stuck (pid : ℕ) (s : Switch) : Prop where
  turn : Turn s
  pending : Pending s
  lt : pid < s.numProcs
  ioLength : s.ioLength ≤ 0
  late : ∀ q, ∀ t ∈ s.ioFinishTimes q, t ≤ s.clockTick
  held : .io ∈ s.code pid ∨ s.state pid = .waiting

theorem checkIo_nothing {pids : List ℕ} (h : ∀ pid ∈ pids, s.clockTick ∉ s.ioFinishTimes pid) :
    (checkIo pids).run s = .ok () s := by
  induction pids with
  | nil => rfl
  | cons pid pids ih =>
    have hfirst : (finishIo pid).run s = .ok () s := by
      rw [finishIo, Prog.bind_of_ok (Prog.run_get s), if_neg (h pid List.mem_cons_self), Prog.run_pure]
    rw [checkIo, Prog.bind_of_ok hfirst]
    exact ih fun q hq => h q (List.mem_cons_of_mem _ hq)

theorem Stuck.active (h : Stuck pid s) : s.numActive > 0 := by
  refine numActive_pos.mpr ⟨pid, h.lt, fun hdone => ?_⟩
  rcases h.held with hio | hwait
  · rw [h.turn.finished pid h.lt hdone] at hio
    cases hio
  · rw [hwait] at hdone
    cases hdone

theorem Stuck.tick (h : Stuck pid s) : ∃ s', tick.run s = .ok () s' ∧ Stuck pid s' := by
  obtain ⟨s₁, hstart, hturn₁, hpending₁, -, -⟩ := startTick_turn h.turn h.pending
  obtain ⟨e, s', hexec, hturn', hpending', -, -⟩ := executeTick_turn hturn₁ hpending₁
  have hnothing : startTick.run s = .ok () { s with clockTick := s.clockTick + 1 } := by
    rw [startTick, Prog.bind_of_ok (Prog.run_modify ..), Prog.bind_of_ok (Prog.run_get _)]
    refine checkIo_nothing fun q _ hmem => ?_
    exact absurd (h.late q _ hmem) (not_le.mpr (Int.lt_succ _))
  have hs₁ : s₁ = { s with clockTick := s.clockTick + 1 } :=
    ((Outcome.ok.injEq ..).mp (hstart.symm.trans hnothing)).2
  have heff := executeTick_effect hexec
  rw [hs₁] at heff
  refine ⟨s', tick_run hstart hexec, hturn', hpending', heff.numProcs ▸ h.lt, heff.ioLength ▸ h.ioLength, fun q t ht => ?_, ?_⟩
  · rw [heff.clock]
    rcases heff.times_new q t ht with ht | rfl
    · exact (h.late q t ht).trans (Int.lt_succ _).le
    · exact add_le_of_nonpos_right h.ioLength
  · rcases h.held with hio | hwait
    · exact heff.io_kept pid hio
    · exact .inr (heff.waiting_kept pid hwait)

/-- **The run does not end.** -/
theorem Stuck.runLoop_ne (h : Stuck pid s) (fuel : ℕ) : (runLoop fuel).run s ≠ .ok true s' := by
  induction fuel generalizing s with
  | zero =>
    intro hrun
    cases hrun
  | succ fuel ih =>
    obtain ⟨u, htick, hu⟩ := h.tick
    rw [runLoop, Prog.bind_of_ok (Prog.run_get s), if_pos h.active, Prog.bind_of_ok htick]
    exact ih hu

/-! ### Whole runs -/

theorem loaded_ioLength (programs : List (List Instruction)) (ioLength : ℤ) :
    (loaded programs ioLength).ioLength = ioLength := by
  induction programs using List.reverseRecOn with
  | nil => rfl
  | append_singleton programs code ih =>
    rw [loaded_concat]
    exact ih

section run

variable {programs : List (List Instruction)} {ioLength : ℤ}

/-- The state at the start of the loop: no I/O has been asked for, and nobody waits. -/
theorem beginRun_start (hne : programs ≠ []) (ioLength : ℤ) :
    ∃ s, beginRun.run (loaded programs ioLength) = .ok () s ∧ SwitchInv programs [] s ∧ s.ioLength = ioLength ∧
      s.ioFinishTimes = (fun _ => []) ∧ ∀ pid < s.numProcs, s.state pid ≠ .waiting := by
  obtain ⟨s, hrun, hinv⟩ := beginRun_inv programs ioLength hne
  obtain ⟨hnum, hinfo⟩ := loaded_eq programs ioLength
  have hmoves : Within Switches (fun _ => True) (moveToRunning .ready) :=
    .bind .get fun s => moveTo_switches _ _ (by simp) (by simp) (by simp)
  have hrest := hrun
  rw [beginRun, Prog.bind_of_ok (Prog.run_modify ..)] at hrest
  have hs := of_within hmoves hrest
  refine ⟨s, hrun, hinv, hs.ioLength.trans (loaded_ioLength ..), hs.times, fun pid hpid hwait => ?_⟩
  have hready : (loaded programs ioLength).state pid = .ready :=
    congrArg ProcInfo.state (hinfo pid (hinv.numProcs ▸ hpid))
  cases hready.symm.trans ((hs.waiting pid).mp hwait)

theorem schedulerRun_eq {s : Switch} (hne : programs ≠ []) (hbegin : beginRun.run (loaded programs ioLength) = .ok () s)
    (fuel : ℕ) : (schedulerRun fuel).run (loaded programs ioLength) = (runLoop fuel).run s := by
  have hnum : (loaded programs ioLength).numProcs ≠ 0 := by
    rw [(loaded_eq programs ioLength).1]
    exact fun h => hne (List.length_eq_zero_iff.mp h)
  rw [schedulerRun, Prog.bind_of_ok (Prog.run_get _), if_neg hnum, Prog.bind_of_ok hbegin]

/-- A program with I/O, and a length that is not positive. -/
theorem not_completes (hle : ioLength ≤ 0) {code : List Instruction} (hcode : code ∈ programs) (hio : .io ∈ code) :
    ¬ Completes programs ioLength := by
  rintro ⟨fuel, s', hrun, -, -⟩
  have hne : programs ≠ [] := List.ne_nil_of_mem hcode
  obtain ⟨s, hbegin, hinv, hlength, htimes, -⟩ := beginRun_start hne ioLength
  obtain ⟨pid, hpid, hget⟩ := List.mem_iff_getElem.mp hcode
  have hstuck : Stuck pid s := by
    refine ⟨hinv.turn, hinv.pending, hinv.numProcs ▸ hpid, hlength ▸ hle, fun q t ht => ?_, .inl ?_⟩
    · rw [htimes] at ht
      cases ht
    · have hlog : s.code pid = programs.getD pid [] := hinv.log pid hpid
      rw [hlog, List.getD_eq_getElem _ _ hpid, hget]
      exact hio
  rw [schedulerRun_eq hne hbegin] at hrun
  exact hstuck.runLoop_ne fuel hrun

/-- The simulation ends with every process done exactly when I/O takes time or no process has any. -/
theorem switch_completes_iff (hne : programs ≠ []) (ioLength : ℤ) :
    Completes programs ioLength ↔ 0 < ioLength ∨ ∀ code ∈ programs, .io ∉ code := by
  constructor
  · intro h
    by_contra hcond
    obtain ⟨hle, hsome⟩ := not_or.mp hcond
    obtain ⟨code, hcode, hio⟩ : ∃ code ∈ programs, .io ∈ code := by simpa using hsome
    exact not_completes (not_lt.mp hle) hcode hio h
  · intro hcond
    obtain ⟨s, hbegin, hinv, hlength, htimes, hwait⟩ := beginRun_start hne ioLength
    have hlive : Live s := by
      refine ⟨hinv.turn, hinv.pending, fun pid hpid hw => absurd hw (hwait pid hpid), fun pid _ t ht => ?_, ?_⟩
      · rw [htimes] at ht
        cases ht
      · rw [hlength]
        refine hcond.imp id fun hnone pid hpid => ?_
        rw [hinv.numProcs] at hpid
        have hlog : s.code pid = programs.getD pid [] := hinv.log pid hpid
        rw [hlog, List.getD_eq_getElem _ _ hpid]
        exact hnone _ (List.getElem_mem hpid)
    obtain ⟨fuel, s', hrun, hnum, hdone⟩ := hlive.ends
    exact ⟨fuel, s', (schedulerRun_eq hne hbegin fuel).trans hrun, hnum.trans hinv.numProcs, hdone⟩

/-- Two processes, one with I/O, and a length of 3. -/
theorem switch_completes_two : Completes [[.io, .cpu], [.yld]] 3 :=
  (switch_completes_iff (List.cons_ne_nil _ _) 3).mpr (.inl (by decide))

/-- A process whose I/O takes no time does not end. -/
theorem not_switch_completes :
    ¬ ∀ (programs : List (List Instruction)) (ioLength : ℤ), programs ≠ [] → Completes programs ioLength := fun h =>
  not_completes (le_refl 0) (List.mem_singleton_self [.io]) List.mem_cons_self (h [[.io]] 0 (List.cons_ne_nil _ _))

end run

end Ucore.Lab4
