import Ucore.Lib.Prog
import Mathlib.Algebra.BigOperators.Group.List.Basic
import Mathlib.Algebra.Order.BigOperators.Group.List
import Mathlib.Algebra.Order.Field.Rat
import Mathlib.Data.List.Nodup
import Mathlib.Order.Bounds.Defs
import Mathlib.Tactic.Linarith

/-!
# The simulator of scheduling policies

`lab6.py` makes a list of jobs, runs it with one of three policies, and prints a trace and the statistics of the jobs.

* Times are rationals: the program has floating-point numbers, and nothing here depends on how they are rounded.
* `joblist` is the list of the jobs and `Options.jobnum` what the variable `jobnum` holds after it is made: the two ways
  to make the list leave it different.
* `sjf`, `fifo` and `rr` are the three branches. What they print is the trace and the statistics; averages are left out.
* `Consistent` is the law of the statistics, and `statistics_consistent` is it for jobs that run one after the other.
-/

namespace Ucore.Lab6

open Ucore.Lib

/-- `[jobnum, runtime]` -/
structure Job where
  jobnum : ℕ
  runtime : ℚ
  deriving Repr, DecidableEq

/-- How the jobs are asked for. -/
inductive Options where
  /-- `-j`, `-m`, and what `random.random()` returns from call to call. -/
  | random (jobs maxlen : ℤ) (draws : ℕ → ℚ)
  /-- `-l`, whose run times are converted. -/
  | jlist (runtimes : List ℚ)

/-- `int(x)`: towards zero. -/
def toInt (x : ℚ) : ℤ := x.num.tdiv x.den

/-- The loop over the run times of `-l`, from `jobnum` on. -/
def numbered : ℕ → List ℚ → List Job
  | _, [] => []
  | jobnum, runtime :: runtimes => ⟨jobnum, runtime⟩ :: numbered (jobnum + 1) runtimes

/-- Source: `lab6.py`, the construction of `joblist`. -/
def Options.joblist : Options → List Job
  | .random jobs maxlen draws =>
    (List.range jobs.toNat).map fun jobnum => ⟨jobnum, toInt (maxlen * draws jobnum) + 1⟩
  | .jlist runtimes => numbered 0 runtimes

/-- The variable `jobnum` after the construction: the last job of the random list, or the number of run times of `-l`. A
random list without jobs does not set it. -/
def Options.jobnum : Options → Option ℕ
  | .random jobs _ _ => (List.range jobs.toNat).getLast?
  | .jlist runtimes => some runtimes.length

/-- The jobs are asked for without `-l`. -/
def Options.IsRandom : Options → Prop
  | .random .. => True
  | .jlist _ => False

/-- How a run stops before its end: an `IndexError`, a `NameError`, and a loop that has not ended. -/
inductive PolicyPanic where
  | index | name | unfinished
  deriving Repr, DecidableEq

abbrev PolicyProg (σ : Type) := Prog PolicyPanic Empty σ

/-- A line of the trace: the job runs at `time`. -/
structure Slice where
  time : ℚ
  jobnum : ℕ
  ranfor : ℚ
  deriving Repr, DecidableEq

/-- The job that a slice runs, with the length of the slice. -/
def Slice.job (e : Slice) : Job := ⟨e.jobnum, e.ranfor⟩

/-- A line of the statistics. -/
structure Stat where
  jobnum : ℕ
  response : ℚ
  turnaround : ℚ
  wait : ℚ
  deriving Repr, DecidableEq

/-- The statistics of jobs that run to their end, in the order of the list: the loops after `SJF` and `FIFO`. -/
def statistics : ℚ → List Job → List Stat
  | _, [] => []
  | t, job :: jobs => ⟨job.jobnum, t, t + job.runtime, t⟩ :: statistics (t + job.runtime) jobs

/-! ### Shortest job first -/

/-- The variables of the loop of `SJF`. -/
structure Sjf where
  /-- 1 for a job that has not run. -/
  yy : List ℕ
  /-- The jobs in the order in which they ran. -/
  aa : List Job
  total : ℚ
  trace : List Slice
  deriving Repr, DecidableEq

section sjf

variable (joblist : List Job)

/-- The scan for the shortest job that has not run; `best` has the variables `t` and `kk`. -/
def sjfScan (yy : List ℕ) : List Job → Job → Option Job
  | [], best => some best
  | job :: jobs, best =>
    match yy[job.jobnum]? with
    | none => none
    | some y => sjfScan yy jobs (if y = 1 ∧ job.runtime < best.runtime then job else best)

/-- The body of the loop of `SJF`. -/
def sjfPass (jobnum : ℕ) : PolicyProg Sjf Unit := do
  let s ← Prog.get
  match sjfScan s.yy joblist ⟨jobnum + 1, 11⟩ with
  | none => Prog.stop .index
  | some job => do
    Prog.modify fun s => { s with
      aa := s.aa ++ [job]
      trace := s.trace ++ [⟨s.total, job.jobnum, job.runtime⟩]
      total := s.total + job.runtime }
    if job.jobnum < s.yy.length then
      Prog.modify fun s => { s with yy := s.yy.set job.jobnum 0 }
    else Prog.stop .index

/-- The loop of `SJF`, with `lnum` passes to go. -/
def sjfLoop (jobnum : ℕ) : ℕ → PolicyProg Sjf Unit
  | 0 => pure ()
  | lnum + 1 => do
    sjfPass joblist jobnum
    sjfLoop jobnum lnum

end sjf

/-- The variables before the loop of `SJF`. -/
def Sjf.init (jobnum : ℕ) : Sjf := { yy := List.replicate (jobnum + 1) 1, aa := [], total := 0, trace := [] }

/-- Source: `lab6.py`, the branch `SJF`. -/
def sjf (o : Options) : Outcome PolicyPanic Empty Sjf (List Stat) :=
  match o.jobnum with
  | none => .panic .name
  | some jobnum =>
    (do sjfLoop o.joblist jobnum (jobnum + 1)
        let s ← Prog.get
        pure (statistics 0 s.aa) : PolicyProg Sjf (List Stat)).run (Sjf.init jobnum)

/-! ### First in, first out -/

/-- The variables of the loop of `FIFO`. -/
structure Fifo where
  runlist : List Job
  jobcount : ℕ
  thetime : ℚ
  trace : List Slice
  deriving Repr, DecidableEq

/-- The loop of `FIFO`. -/
def fifoLoop : ℕ → PolicyProg Fifo Unit
  | 0 => Prog.stop .unfinished
  | fuel + 1 => do
    let s ← Prog.get
    if 0 < s.jobcount then
      match s.runlist with
      | [] => Prog.stop .index
      | job :: runlist => do
        Prog.modify fun s => { s with
          runlist := runlist
          trace := s.trace ++ [⟨s.thetime, job.jobnum, job.runtime⟩]
          thetime := s.thetime + job.runtime
          jobcount := s.jobcount - 1 }
        fifoLoop fuel
    else pure ()

/-- Source: `lab6.py`, the branch `FIFO`. -/
def fifo (o : Options) (fuel : ℕ) : Outcome PolicyPanic Empty Fifo (List Stat) :=
  (do fifoLoop fuel
      pure (statistics 0 o.joblist) : PolicyProg Fifo (List Stat)).run
    { runlist := o.joblist, jobcount := o.joblist.length, thetime := 0, trace := [] }

/-! ### Round robin -/

/-- The variables of the loop of `RR`; the dictionaries have the keys from 0 to the number of jobs. -/
structure RoundRobin where
  turnaround : ℕ → ℚ
  response : ℕ → ℚ
  lastran : ℕ → ℚ
  wait : ℕ → ℚ
  runlist : List Job
  jobcount : ℕ
  thetime : ℚ
  trace : List Slice

/-- `runlist.pop(0)` -/
def popJob : PolicyProg RoundRobin Job := do
  let s ← Prog.get
  match s.runlist with
  | [] => Prog.stop .index
  | job :: runlist => do
    Prog.modify fun s => { s with runlist := runlist }
    pure job

/-- The entries of a job that is about to run: its first run sets `response`, and `wait` grows. -/
def noteRun (jobnum : ℕ) : PolicyProg RoundRobin Unit := do
  let s ← Prog.get
  if s.response jobnum = -1 then
    Prog.modify fun s => { s with response := Function.update s.response jobnum s.thetime }
  Prog.modify fun s => { s with
    wait := Function.update s.wait jobnum (s.wait jobnum + (s.thetime - s.lastran jobnum)) }

/-- The body of the loop of `RR`. -/
def rrTurn (quantum : ℚ) : PolicyProg RoundRobin Unit := do
  let job ← popJob
  noteRun job.jobnum
  if quantum < job.runtime then
    Prog.modify fun s => { s with
      trace := s.trace ++ [⟨s.thetime, job.jobnum, quantum⟩]
      runlist := s.runlist ++ [⟨job.jobnum, job.runtime - quantum⟩] }
  else
    Prog.modify fun s => { s with
      trace := s.trace ++ [⟨s.thetime, job.jobnum, job.runtime⟩]
      turnaround := Function.update s.turnaround job.jobnum (s.thetime + job.runtime)
      jobcount := s.jobcount - 1 }

/-- The loop of `RR`. -/
def rrLoop (quantum : ℚ) : ℕ → PolicyProg RoundRobin Unit
  | 0 => Prog.stop .unfinished
  | fuel + 1 => do
    let s ← Prog.get
    if 0 < s.jobcount then do
      rrTurn quantum
      rrLoop quantum fuel
    else pure ()

/-- The variables before the loop of `RR`. -/
def RoundRobin.init (joblist : List Job) : RoundRobin where
  turnaround _ := 0
  response _ := -1
  lastran _ := 0
  wait _ := 0
  runlist := joblist
  jobcount := joblist.length
  thetime := 0
  trace := []

/-- The statistics after the loop of `RR`. -/
def RoundRobin.stats (s : RoundRobin) (count : ℕ) : List Stat :=
  (List.range count).map fun i => ⟨i, s.response i, s.turnaround i, s.wait i⟩

/-- Source: `lab6.py`, the branch `RR`. -/
def rr (o : Options) (quantum : ℚ) (fuel : ℕ) : Outcome PolicyPanic Empty RoundRobin (List Stat) :=
  (do rrLoop quantum fuel
      let s ← Prog.get
      pure (s.stats o.joblist.length) : PolicyProg RoundRobin (List Stat)).run (RoundRobin.init o.joblist)

/-! ### The job list -/

theorem numbered_length (jobnum : ℕ) (runtimes : List ℚ) : (numbered jobnum runtimes).length = runtimes.length := by
  induction runtimes generalizing jobnum with
  | nil => rfl
  | cons r rs ih => simp [numbered, ih]

theorem numbered_jobnums (jobnum : ℕ) (runtimes : List ℚ) :
    (numbered jobnum runtimes).map Job.jobnum = List.range' jobnum runtimes.length := by
  induction runtimes generalizing jobnum with
  | nil => rfl
  | cons r rs ih => simp [numbered, ih, List.range'_succ]

/-- The jobs are numbered in the order of the list. -/
theorem Options.joblist_jobnums (o : Options) : o.joblist.map Job.jobnum = List.range o.joblist.length := by
  cases o with
  | random jobs maxlen draws =>
    simp only [Options.joblist, List.map_map, List.length_map, List.length_range]
    exact List.map_id _
  | jlist runtimes =>
    simp only [Options.joblist, numbered_jobnums, numbered_length]
    exact (List.range_eq_range' ..).symm

theorem Options.joblist_nodup (o : Options) : (o.joblist.map Job.jobnum).Nodup := by
  rw [o.joblist_jobnums]
  exact List.nodup_range

theorem Options.jobnum_lt {o : Options} {job : Job} (h : job ∈ o.joblist) : job.jobnum < o.joblist.length := by
  have hmem := List.mem_map_of_mem (f := Job.jobnum) h
  rw [o.joblist_jobnums] at hmem
  exact List.mem_range.mp hmem

/-- After a random list, `jobnum` is the last job. -/
theorem Options.jobnum_random {o : Options} (hrand : o.IsRandom) (hne : o.joblist ≠ []) :
    o.jobnum = some (o.joblist.length - 1) := by
  cases o with
  | jlist runtimes => exact absurd hrand id
  | random jobs maxlen draws =>
    have hpos : jobs.toNat ≠ 0 := fun h => hne (by simp [Options.joblist, h])
    obtain ⟨n, hn⟩ := Nat.exists_eq_succ_of_ne_zero hpos
    simp [Options.jobnum, Options.joblist, hn, List.range_succ]

/-- After a list of run times, `jobnum` is the number of jobs. -/
theorem Options.jobnum_jlist (runtimes : List ℚ) :
    (Options.jlist runtimes).jobnum = some (Options.jlist runtimes).joblist.length := by
  simp [Options.jobnum, Options.joblist, numbered_length]

/-! ### The law of the statistics -/

/-- The statistics are those of jobs that share one processor: a job waits when it does not run, it first runs before its
wait is over, and the last job ends when all have run. -/
structure Consistent (joblist : List Job) (stats : List Stat) : Prop where
  /-- Every job has its line. -/
  jobs : (stats.map Stat.jobnum).Perm (joblist.map Job.jobnum)
  wait_eq : ∀ e ∈ stats, ∀ job ∈ joblist, job.jobnum = e.jobnum → e.wait = e.turnaround - job.runtime
  response_le : ∀ e ∈ stats, e.response ≤ e.wait
  largest : IsGreatest {t | ∃ e ∈ stats, e.turnaround = t} (joblist.map Job.runtime).sum

theorem statistics_jobnums (t : ℚ) (jobs : List Job) :
    (statistics t jobs).map Stat.jobnum = jobs.map Job.jobnum := by
  induction jobs generalizing t with
  | nil => rfl
  | cons job jobs ih => simp [statistics, ih]

/-- A line of the statistics belongs to a job, which ran from `response` to `turnaround`. -/
theorem mem_statistics {t : ℚ} {jobs : List Job} {e : Stat} (h : e ∈ statistics t jobs) :
    e.response = e.wait ∧ ∃ job ∈ jobs, job.jobnum = e.jobnum ∧ e.turnaround = e.wait + job.runtime := by
  induction jobs generalizing t with
  | nil => simp [statistics] at h
  | cons job jobs ih =>
    rcases List.mem_cons.mp h with rfl | h
    · exact ⟨rfl, job, by simp, rfl, rfl⟩
    · obtain ⟨hr, j, hj, hnum, hturn⟩ := ih h
      exact ⟨hr, j, by simp [hj], hnum, hturn⟩

/-- No job ends after the sum of the run times. -/
theorem statistics_turnaround_le {t : ℚ} {jobs : List Job} (hpos : ∀ job ∈ jobs, 0 < job.runtime) {e : Stat}
    (h : e ∈ statistics t jobs) : e.turnaround ≤ t + (jobs.map Job.runtime).sum := by
  induction jobs generalizing t with
  | nil => simp [statistics] at h
  | cons job jobs ih =>
    have hnonneg : 0 ≤ (jobs.map Job.runtime).sum := List.sum_nonneg fun r hr => by
      obtain ⟨j, hj, rfl⟩ := List.mem_map.mp hr
      exact (hpos j (by simp [hj])).le
    simp only [List.map_cons, List.sum_cons]
    rcases List.mem_cons.mp h with rfl | h
    · linarith
    · have := ih (fun j hj => hpos j (by simp [hj])) h
      linarith

/-- The last job ends at the sum of the run times. -/
theorem exists_statistics_turnaround (t : ℚ) {jobs : List Job} (hne : jobs ≠ []) :
    ∃ e ∈ statistics t jobs, e.turnaround = t + (jobs.map Job.runtime).sum := by
  induction jobs generalizing t with
  | nil => exact absurd rfl hne
  | cons job jobs ih =>
    by_cases hnil : jobs = []
    · subst hnil
      exact ⟨⟨job.jobnum, t, t + job.runtime, t⟩, by simp [statistics], by simp⟩
    · obtain ⟨e, he, hturn⟩ := ih (t + job.runtime) hnil
      refine ⟨e, by simp [statistics, he], ?_⟩
      rw [hturn, List.map_cons, List.sum_cons, add_assoc]

/-- The law holds when the jobs of the list run one after the other, in any order. -/
theorem statistics_consistent {joblist order : List Job} (hperm : order.Perm joblist)
    (hnd : (joblist.map Job.jobnum).Nodup) (hne : joblist ≠ []) (hpos : ∀ job ∈ joblist, 0 < job.runtime) :
    Consistent joblist (statistics 0 order) where
  jobs := by
    rw [statistics_jobnums]
    exact hperm.map _
  wait_eq e he job hjob hnum := by
    obtain ⟨-, j, hj, hjnum, hturn⟩ := mem_statistics he
    have : j = job := List.inj_on_of_nodup_map hnd (hperm.mem_iff.mp hj) hjob (hjnum.trans hnum.symm)
    rw [hturn, this, add_sub_cancel_right]
  response_le e he := (mem_statistics he).1.le
  largest := by
    rw [← (hperm.map Job.runtime).sum_eq]
    constructor
    · have horder : order ≠ [] := fun h => hne (List.nil_perm.mp (h ▸ hperm))
      obtain ⟨e, he, hturn⟩ := exists_statistics_turnaround 0 horder
      exact ⟨e, he, by rw [hturn, zero_add]⟩
    · rintro t ⟨e, he, rfl⟩
      have := statistics_turnaround_le (fun j hj => hpos j (hperm.mem_iff.mp hj)) he
      rwa [zero_add] at this

theorem fifoLoop_ends (jobs : List Job) (t : ℚ) (trace : List Slice) :
    ∃ s, (fifoLoop (jobs.length + 1)).run
      { runlist := jobs, jobcount := jobs.length, thetime := t, trace := trace } = .ok () s := by
  induction jobs generalizing t trace with
  | nil => exact ⟨⟨[], 0, t, trace⟩, by simp [fifoLoop]⟩
  | cons job jobs ih =>
    obtain ⟨s, hs⟩ := ih (t + job.runtime) (trace ++ [⟨t, job.jobnum, job.runtime⟩])
    refine ⟨s, ?_⟩
    simpa [fifoLoop] using hs

/-- With enough fuel `FIFO` ends, and its statistics obey the law. -/
theorem fifo_consistent (o : Options) (hne : o.joblist ≠ []) (hpos : ∀ job ∈ o.joblist, 0 < job.runtime) :
    ∃ fuel stats s, fifo o fuel = .ok stats s ∧ Consistent o.joblist stats := by
  obtain ⟨s, hs⟩ := fifoLoop_ends o.joblist 0 []
  refine ⟨o.joblist.length + 1, statistics 0 o.joblist, s, ?_, ?_⟩
  · exact (Prog.bind_of_ok hs).trans rfl
  · exact statistics_consistent (List.Perm.refl _) o.joblist_nodup hne hpos

theorem fifo_consistent_two :
    ∃ fuel stats s, fifo (.jlist [1, 2]) fuel = .ok stats s ∧ Consistent (Options.jlist [1, 2]).joblist stats :=
  fifo_consistent _ (by simp [Options.joblist, numbered]) (by simp [Options.joblist, numbered])

end Ucore.Lab6
