import Ucore.Lab6.Policies
import Mathlib.Data.Rat.Floor

/-!
# Round robin

What the statistics of `RR` are worth.

* The loop advances neither `thetime` nor `lastran`: every slice starts at 0, no job waits, and the turnaround of a job is
  the length of its last slice. `Standing` says so and holds in every state of a run.
* The loop ends: a turn takes a quantum of the work that is left.
* So the statistics obey the law of `Consistent` only for one job that fits in a quantum: `rr_consistent_iff`.
-/

namespace Ucore.Lab6

open Ucore.Lib

/-- The invariant of the loop of `RR`: the clock stands. -/
structure Standing (quantum : ℚ) (s : RoundRobin) : Prop where
  thetime_eq : s.thetime = 0
  lastran_eq : ∀ i, s.lastran i = 0
  wait_eq : ∀ i, s.wait i = 0
  response_eq : ∀ i, s.response i = -1 ∨ s.response i = 0
  turnaround_le : ∀ i, s.turnaround i ≤ quantum
  jobcount_eq : s.jobcount = s.runlist.length
  runtime_pos : ∀ job ∈ s.runlist, 0 < job.runtime

/-- The slices that a job still needs. -/
def Job.slices (quantum : ℚ) (job : Job) : ℕ := ⌈job.runtime / quantum⌉₊

/-- The slices that the jobs in the list still need. -/
def RoundRobin.slices (quantum : ℚ) (s : RoundRobin) : ℕ := (s.runlist.map (Job.slices quantum)).sum

section turn

variable {quantum : ℚ} {s : RoundRobin} {job : Job} {runlist : List Job}

/-- The state in which the slice of `job` starts. -/
def RoundRobin.noted (s : RoundRobin) (job : Job) (runlist : List Job) : RoundRobin :=
  { s with
    runlist := runlist
    response := if s.response job.jobnum = -1 then Function.update s.response job.jobnum s.thetime else s.response
    wait := Function.update s.wait job.jobnum (s.wait job.jobnum + (s.thetime - s.lastran job.jobnum)) }

/-- The state after the turn of `job`. -/
def RoundRobin.turned (s : RoundRobin) (quantum : ℚ) (job : Job) (runlist : List Job) : RoundRobin :=
  if quantum < job.runtime then
    { s.noted job runlist with
      trace := s.trace ++ [⟨s.thetime, job.jobnum, quantum⟩]
      runlist := runlist ++ [⟨job.jobnum, job.runtime - quantum⟩] }
  else
    { s.noted job runlist with
      trace := s.trace ++ [⟨s.thetime, job.jobnum, job.runtime⟩]
      turnaround := Function.update s.turnaround job.jobnum (s.thetime + job.runtime)
      jobcount := s.jobcount - 1 }

theorem rrTurn_run (quantum : ℚ) (h : s.runlist = job :: runlist) :
    (rrTurn quantum).run s = .ok () (s.turned quantum job runlist) := by
  have hpop : popJob.run s = .ok job { s with runlist := runlist } := by simp [popJob, h]
  have hnote : (noteRun job.jobnum).run { s with runlist := runlist } = .ok () (s.noted job runlist) := by
    by_cases hr : s.response job.jobnum = -1 <;> simp [noteRun, RoundRobin.noted, hr]
  rw [rrTurn, Prog.bind_of_ok hpop, Prog.bind_of_ok hnote]
  by_cases hq : quantum < job.runtime <;> simp [RoundRobin.turned, RoundRobin.noted, hq]

/-- A slice starts without a wait. -/
theorem Standing.noted (h : Standing quantum s) (job : Job) (runlist : List Job) :
    (s.noted job runlist).thetime = 0 ∧ (∀ i, (s.noted job runlist).lastran i = 0) ∧
      (∀ i, (s.noted job runlist).wait i = 0) ∧
      ∀ i, (s.noted job runlist).response i = -1 ∨ (s.noted job runlist).response i = 0 := by
  refine ⟨h.thetime_eq, h.lastran_eq, ?_, ?_⟩
  · intro i
    by_cases hi : i = job.jobnum
    · subst hi
      simp [RoundRobin.noted, h.wait_eq, h.thetime_eq, h.lastran_eq]
    · simp [RoundRobin.noted, Function.update_of_ne hi, h.wait_eq]
  · intro i
    by_cases hr : s.response job.jobnum = -1
    · by_cases hi : i = job.jobnum
      · subst hi
        simp [RoundRobin.noted, hr, h.thetime_eq]
      · simpa [RoundRobin.noted, hr, Function.update_of_ne hi] using h.response_eq i
    · simpa [RoundRobin.noted, hr] using h.response_eq i

/-- A turn keeps the clock where it is. -/
theorem Standing.turned (h : Standing quantum s) (hrun : s.runlist = job :: runlist) :
    Standing quantum (s.turned quantum job runlist) := by
  obtain ⟨htime, hlast, hwait, hresp⟩ := h.noted job runlist
  have hcount : s.jobcount = runlist.length + 1 := by rw [h.jobcount_eq, hrun, List.length_cons]
  have hpos : ∀ j ∈ runlist, 0 < j.runtime := fun j hj => h.runtime_pos j (by simp [hrun, hj])
  unfold RoundRobin.turned
  split_ifs with hq
  · refine ⟨htime, hlast, hwait, hresp, h.turnaround_le, ?_, ?_⟩
    · simp [RoundRobin.noted, hcount]
    · intro j hj
      rcases List.mem_append.mp hj with hj | hj
      · exact hpos j hj
      · rw [List.mem_singleton.mp hj]
        exact sub_pos.mpr hq
  · refine ⟨htime, hlast, hwait, hresp, ?_, ?_, hpos⟩
    · intro i
      by_cases hi : i = job.jobnum
      · subst hi
        simpa [h.thetime_eq] using not_lt.mp hq
      · simpa [Function.update_of_ne hi] using h.turnaround_le i
    · simp [RoundRobin.noted, hcount]

/-- A turn is one slice. -/
theorem turned_slices (hq : 0 < quantum) (hpos : 0 < job.runtime) (hrun : s.runlist = job :: runlist) :
    (s.turned quantum job runlist).slices quantum + 1 = s.slices quantum := by
  have hs : s.slices quantum = job.slices quantum + (runlist.map (Job.slices quantum)).sum := by
    simp [RoundRobin.slices, hrun]
  rw [hs]
  unfold RoundRobin.turned
  split_ifs with hlt
  · -- The job comes back with one slice less.
    have hone : 1 ≤ ⌈job.runtime / quantum⌉₊ := Nat.one_le_ceil_iff.mpr (div_pos hpos hq)
    have hsub : (job.runtime - quantum) / quantum = job.runtime / quantum - 1 := by
      rw [sub_div, div_self hq.ne']
    have hback : Job.slices quantum ⟨job.jobnum, job.runtime - quantum⟩ + 1 = job.slices quantum := by
      rw [Job.slices, Job.slices, hsub, Nat.ceil_sub_one]
      omega
    simp only [RoundRobin.slices, List.map_append, List.sum_append, List.map_singleton, List.sum_singleton]
    omega
  · -- The slice is the last one of the job.
    have hlast : job.slices quantum = 1 := by
      refine le_antisymm (Nat.ceil_le.mpr ?_) (Nat.one_le_ceil_iff.mpr (div_pos hpos hq))
      rw [Nat.cast_one, div_le_one hq]
      exact not_lt.mp hlt
    rw [hlast]
    exact Nat.add_comm ..

end turn

/-! ### The loop -/

section loop

variable {quantum : ℚ} {s : RoundRobin}

/-- The loop is over, or the first job of the list has its turn. -/
theorem Standing.cases (h : Standing quantum s) :
    (∀ fuel, (rrLoop quantum (fuel + 1)).run s = .ok () s) ∨
      ∃ s', (∀ fuel, (rrLoop quantum (fuel + 1)).run s = (rrLoop quantum fuel).run s') ∧ Standing quantum s' ∧
        (0 < quantum → s'.slices quantum < s.slices quantum) := by
  cases hrun : s.runlist with
  | nil =>
    left
    intro fuel
    have hcount : s.jobcount = 0 := by rw [h.jobcount_eq, hrun, List.length_nil]
    simp [rrLoop, hcount]
  | cons job runlist =>
    right
    have hcount : 0 < s.jobcount := by
      rw [h.jobcount_eq, hrun, List.length_cons]
      exact Nat.succ_pos _
    refine ⟨_, fun fuel => ?_, h.turned hrun, fun hq => ?_⟩
    · simp [rrLoop, hcount, rrTurn_run quantum hrun]
    · have := turned_slices hq (h.runtime_pos job (by simp [hrun])) hrun
      omega

theorem rrLoop_standing (h : Standing quantum s) {fuel : ℕ} {s' : RoundRobin}
    (hrun : (rrLoop quantum fuel).run s = .ok () s') : Standing quantum s' := by
  induction fuel generalizing s with
  | zero => cases hrun
  | succ fuel ih =>
    rcases h.cases with hover | ⟨t, hturn, ht, -⟩
    · obtain ⟨-, rfl⟩ := (Outcome.ok.injEq ..).mp ((hover fuel).symm.trans hrun)
      exact h
    · exact ih ht (hturn fuel ▸ hrun)

/-- With more fuel than there are slices the loop ends. -/
theorem rrLoop_ends (hq : 0 < quantum) (h : Standing quantum s) {fuel : ℕ} (hfuel : s.slices quantum < fuel) :
    ∃ s', (rrLoop quantum fuel).run s = .ok () s' := by
  induction fuel generalizing s with
  | zero => omega
  | succ fuel ih =>
    rcases h.cases with hover | ⟨t, hturn, ht, hless⟩
    · exact ⟨s, hover fuel⟩
    · rw [hturn fuel]
      exact ih ht ((hless hq).trans_le (Nat.le_of_lt_succ hfuel))

theorem Standing.init {joblist : List Job} (hq : 0 < quantum) (hpos : ∀ job ∈ joblist, 0 < job.runtime) :
    Standing quantum (.init joblist) where
  thetime_eq := rfl
  lastran_eq _ := rfl
  wait_eq _ := rfl
  response_eq _ := .inl rfl
  turnaround_le _ := hq.le
  jobcount_eq := rfl
  runtime_pos := hpos

end loop

/-! ### The statistics -/

section statistics

variable {o : Options} {quantum : ℚ}

theorem rr_eq_ok {fuel : ℕ} {stats : List Stat} {s : RoundRobin} (h : rr o quantum fuel = .ok stats s) :
    (rrLoop quantum fuel).run (.init o.joblist) = .ok () s ∧ stats = s.stats o.joblist.length := by
  obtain ⟨_, s', hloop, hrest⟩ := Prog.bind_eq_ok.mp h
  obtain ⟨rfl, rfl⟩ := (Outcome.ok.injEq ..).mp hrest
  exact ⟨hloop, rfl⟩

/-- A sum of positive run times that is one of them has no other. -/
theorem eq_singleton_of_sum {jobs : List Job} (hpos : ∀ job ∈ jobs, 0 < job.runtime) {job : Job} (hjob : job ∈ jobs)
    (hsum : (jobs.map Job.runtime).sum = job.runtime) : jobs = [job] := by
  obtain ⟨before, after, rfl⟩ := List.append_of_mem hjob
  have hnil : ∀ part : List Job, (∀ j ∈ part, 0 < j.runtime) → (part.map Job.runtime).sum ≤ 0 → part = [] := by
    intro part hpart hle
    by_contra hne
    have := List.sum_pos (part.map Job.runtime) (by simpa using hpart) (by simpa using hne)
    linarith
  have hnonneg : ∀ part : List Job, (∀ j ∈ part, 0 < j.runtime) → 0 ≤ (part.map Job.runtime).sum :=
    fun part hpart => List.sum_nonneg (by simpa using fun j hj => (hpart j hj).le)
  have hbefore : ∀ j ∈ before, 0 < j.runtime := fun j hj => hpos j (by simp [hj])
  have hafter : ∀ j ∈ after, 0 < j.runtime := fun j hj => hpos j (by simp [hj])
  simp only [List.map_append, List.map_cons, List.sum_append, List.sum_cons] at hsum
  have h1 := hnonneg before hbefore
  have h2 := hnonneg after hafter
  rw [hnil before hbefore (by linarith), hnil after hafter (by linarith), List.nil_append]

/-- The statistics that a standing clock gives obey the law for a job that fits in a quantum only. -/
theorem Standing.singleton {s : RoundRobin} (h : Standing quantum s) (hpos : ∀ job ∈ o.joblist, 0 < job.runtime)
    (hc : Consistent o.joblist (s.stats o.joblist.length)) : ∃ job, o.joblist = [job] ∧ job.runtime ≤ quantum := by
  have hturn : ∀ job ∈ o.joblist, s.turnaround job.jobnum = job.runtime := by
    intro job hjob
    have he : ⟨job.jobnum, s.response job.jobnum, s.turnaround job.jobnum, s.wait job.jobnum⟩ ∈
        s.stats o.joblist.length :=
      List.mem_map.mpr ⟨job.jobnum, List.mem_range.mpr (Options.jobnum_lt hjob), rfl⟩
    have hwait := hc.wait_eq _ he job hjob rfl
    rw [h.wait_eq] at hwait
    exact sub_eq_zero.mp hwait.symm
  obtain ⟨e, he, hsum⟩ := hc.largest.1
  obtain ⟨i, hi, rfl⟩ := List.mem_map.mp he
  rw [← o.joblist_jobnums] at hi
  obtain ⟨job, hjob, rfl⟩ := List.mem_map.mp hi
  have hone := hturn job hjob
  exact ⟨job, eq_singleton_of_sum hpos hjob (hsum.symm.trans hone), hone ▸ h.turnaround_le _⟩

/-- One job that fits in a quantum has one slice, from 0 to its run time. -/
theorem rrLoop_singleton {job : Job} (hle : job.runtime ≤ quantum) {fuel : ℕ} {s : RoundRobin}
    (h : (rrLoop quantum fuel).run (.init [job]) = .ok () s) :
    s.response job.jobnum = 0 ∧ s.turnaround job.jobnum = job.runtime ∧ s.wait job.jobnum = 0 := by
  have hturn : (rrTurn quantum).run (.init [job]) = .ok () ((RoundRobin.init [job]).turned quantum job []) :=
    rrTurn_run quantum rfl
  have hturned : (RoundRobin.init [job]).turned quantum job [] =
      { (RoundRobin.init [job]).noted job [] with
        trace := [⟨0, job.jobnum, job.runtime⟩]
        turnaround := Function.update (fun _ => 0) job.jobnum (0 + job.runtime)
        jobcount := 0 } := if_neg (not_lt.mpr hle)
  match fuel with
  | 0 => cases h
  | 1 =>
    rw [rrLoop, Prog.bind_of_ok (Prog.run_get _), if_pos (by simp [RoundRobin.init]), Prog.bind_of_ok hturn] at h
    cases h
  | fuel + 2 =>
    rw [rrLoop, Prog.bind_of_ok (Prog.run_get _), if_pos (by simp [RoundRobin.init]), Prog.bind_of_ok hturn, hturned,
      rrLoop, Prog.bind_of_ok (Prog.run_get _), if_neg (by simp)] at h
    obtain ⟨-, rfl⟩ := (Outcome.ok.injEq ..).mp h
    simp [RoundRobin.noted, RoundRobin.init]

/-- One job that fits in a quantum has its statistics right. -/
theorem rr_singleton {job : Job} (hlist : o.joblist = [job]) (hle : job.runtime ≤ quantum) {fuel : ℕ}
    {stats : List Stat} {s : RoundRobin} (h : rr o quantum fuel = .ok stats s) : Consistent o.joblist stats := by
  obtain ⟨hloop, rfl⟩ := rr_eq_ok h
  have hnum : job.jobnum = 0 := by
    have := o.joblist_jobnums
    rw [hlist] at this
    simpa using this
  rw [hlist] at hloop ⊢
  obtain ⟨hresp, hturn, hwait⟩ := rrLoop_singleton hle hloop
  rw [hnum] at hresp hturn hwait
  have hstats : s.stats [job].length = [⟨0, 0, job.runtime, 0⟩] := by
    simp [RoundRobin.stats, hresp, hturn, hwait]
  rw [hstats]
  constructor
  · simp [hnum]
  · simp
  · simp
  · simp [IsGreatest, upperBounds]

/-- `RR` ends, and its statistics obey the law exactly for one job that fits in a quantum. -/
theorem rr_consistent_iff (o : Options) (hpos : ∀ job ∈ o.joblist, 0 < job.runtime) {quantum : ℚ}
    (hq : 0 < quantum) :
    (∃ fuel stats s, rr o quantum fuel = .ok stats s) ∧
    ∀ fuel stats s, rr o quantum fuel = .ok stats s →
      (Consistent o.joblist stats ↔ ∃ job, o.joblist = [job] ∧ job.runtime ≤ quantum) := by
  have hinit : Standing quantum (.init o.joblist) := .init hq hpos
  constructor
  · obtain ⟨s, hloop⟩ := rrLoop_ends hq hinit (Nat.lt_succ_self _)
    exact ⟨_, _, s, (Prog.bind_of_ok hloop).trans rfl⟩
  · intro fuel stats s hrun
    constructor
    · intro hc
      obtain ⟨hloop, rfl⟩ := rr_eq_ok hrun
      exact (rrLoop_standing hinit hloop).singleton hpos hc
    · rintro ⟨job, hlist, hle⟩
      exact rr_singleton hlist hle hrun

/-- One job of length 1 and a quantum of 2. -/
theorem rr_consistent_one :
    (∃ fuel stats s, rr (.jlist [1]) 2 fuel = .ok stats s) ∧
    ∀ fuel stats s, rr (.jlist [1]) 2 fuel = .ok stats s → Consistent (Options.jlist [1]).joblist stats := by
  obtain ⟨hends, hiff⟩ := rr_consistent_iff (.jlist [1]) (by simp [Options.joblist, numbered])
    (show (0 : ℚ) < 2 from two_pos)
  refine ⟨hends, fun fuel stats s hrun => (hiff fuel stats s hrun).mpr ⟨⟨0, 1⟩, rfl, ?_⟩⟩
  norm_num

/-- For jobs of lengths 2 and 1, both have a turnaround of 1 and no wait. -/
theorem rr_stats_two : ((rr (.jlist [2, 1]) 1 4).observe RoundRobin.thetime) =
    some ([⟨0, 0, 1, 0⟩, ⟨1, 0, 1, 0⟩], 0) := by decide +kernel

/-- The statistics of `RR` do not always obey the law. -/
theorem not_rr_consistent :
    ¬ ∀ (o : Options) (quantum : ℚ), o.joblist ≠ [] → (∀ job ∈ o.joblist, 0 < job.runtime) → 0 < quantum →
      ∀ fuel stats s, rr o quantum fuel = .ok stats s → Consistent o.joblist stats := by
  intro h
  obtain ⟨s, hrun, -⟩ := Outcome.of_observe rr_stats_two
  have hc := h (.jlist [2, 1]) 1 (by simp [Options.joblist, numbered]) (by simp [Options.joblist, numbered]) one_pos 4 _
    s hrun
  have hwait := hc.wait_eq ⟨0, 0, 1, 0⟩ (by simp) ⟨0, 2⟩ (by simp [Options.joblist, numbered]) rfl
  norm_num at hwait

end statistics

end Ucore.Lab6
