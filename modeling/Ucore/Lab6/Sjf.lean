import Ucore.Lab6.Policies
import Mathlib.Data.List.Perm.Basic

/-!
# Shortest job first

When `SJF` runs every job.

* `sjfScan_spec` says what the scan finds: the shortest job that has not run, or the sentinel of length 11.
* `Progress` is the invariant of the loop: the jobs that have run and those that have not are the job list, and none of
  the former is longer than one of the latter.
* The loop makes `jobnum + 1` passes. That is the number of jobs for a random list, and one more for a list that is given
  with `-l`: `sjf_runs_every_job_iff`.
-/

namespace Ucore.Lab6

open Ucore.Lib

/-- The branch ends without an exception, its trace has each job once with its own run time, and the run times do not
decrease. -/
def RunsEveryJob (joblist : List Job) (run : Outcome PolicyPanic Empty Sjf (List Stat)) : Prop :=
  ∃ stats s, run = .ok stats s ∧ (s.trace.map Slice.job).Perm joblist ∧
    (s.trace.map Slice.ranfor).Pairwise (· ≤ ·)

/-! ### The scan -/

/-- The scan returns a shortest job among those that have not run and `best`. -/
theorem sjfScan_spec {yy : List ℕ} {jobs : List Job} (hlt : ∀ job ∈ jobs, job.jobnum < yy.length) (best : Job) :
    ∃ found, sjfScan yy jobs best = some found ∧ found.runtime ≤ best.runtime ∧
      (∀ job ∈ jobs, yy[job.jobnum]? = some 1 → found.runtime ≤ job.runtime) ∧
      (found = best ∨ found ∈ jobs ∧ yy[found.jobnum]? = some 1 ∧ found.runtime < best.runtime) := by
  induction jobs generalizing best with
  | nil => exact ⟨best, rfl, le_rfl, by simp, .inl rfl⟩
  | cons job jobs ih =>
    obtain ⟨y, hget⟩ : ∃ y, yy[job.jobnum]? = some y := ⟨_, List.getElem?_eq_getElem (hlt job (by simp))⟩
    simp only [sjfScan, hget]
    by_cases hc : y = 1 ∧ job.runtime < best.runtime
    · rw [if_pos hc]
      obtain ⟨found, hscan, hle, hmin, hfound⟩ := ih (fun j hj => hlt j (by simp [hj])) job
      refine ⟨found, hscan, hle.trans hc.2.le, ?_, .inr ?_⟩
      · intro j hj hwait
        rcases List.mem_cons.mp hj with rfl | hj
        · exact hle
        · exact hmin j hj hwait
      · rcases hfound with rfl | ⟨hmem, hwait, hfl⟩
        · exact ⟨by simp, by rw [hget, hc.1], hc.2⟩
        · exact ⟨by simp [hmem], hwait, hfl.trans hc.2⟩
    · rw [if_neg hc]
      obtain ⟨found, hscan, hle, hmin, hfound⟩ := ih (fun j hj => hlt j (by simp [hj])) best
      refine ⟨found, hscan, hle, ?_, ?_⟩
      · intro j hj hwait
        rcases List.mem_cons.mp hj with rfl | hj
        · rw [hget, Option.some_inj] at hwait
          exact hle.trans (not_lt.mp fun h => hc ⟨hwait, h⟩)
        · exact hmin j hj hwait
      · rcases hfound with rfl | ⟨hmem, hwait, hfl⟩
        · exact .inl rfl
        · exact .inr ⟨by simp [hmem], hwait, hfl⟩

/-! ### A pass -/

/-- The jobs that have not run. -/
def waiting (joblist : List Job) (yy : List ℕ) : List Job := joblist.filter fun job => yy[job.jobnum]? = some 1

theorem mem_waiting {joblist : List Job} {yy : List ℕ} {job : Job} :
    job ∈ waiting joblist yy ↔ job ∈ joblist ∧ yy[job.jobnum]? = some 1 := by simp [waiting]

/-- The invariant of the loop of `SJF`. -/
structure Progress (joblist : List Job) (jobnum : ℕ) (s : Sjf) : Prop where
  yy_length : s.yy.length = jobnum + 1
  perm : (s.aa ++ waiting joblist s.yy).Perm joblist
  sorted : (s.aa.map Job.runtime).Pairwise (· ≤ ·)
  le_waiting : ∀ a ∈ s.aa, ∀ job ∈ waiting joblist s.yy, a.runtime ≤ job.runtime
  lt_sentinel : ∀ a ∈ s.aa, a.runtime < 11
  trace_eq : s.trace.map Slice.job = s.aa

section pass

variable {joblist : List Job} {jobnum : ℕ} {s : Sjf}

/-- To mark a job as done takes it from the jobs that have not run. -/
theorem waiting_set (yy : List ℕ) (hnd : (joblist.map Job.jobnum).Nodup) {job : Job} (hjob : job ∈ joblist) :
    waiting joblist (yy.set job.jobnum 0) = (waiting joblist yy).erase job := by
  have hwait : (waiting joblist yy).Nodup := (List.Nodup.of_map _ hnd).filter _
  rw [hwait.erase_eq_filter, waiting, waiting, List.filter_filter]
  refine List.filter_congr fun j hj => ?_
  by_cases h : j = job
  · subst h
    simp [List.getElem?_set]
  · have hnum : job.jobnum ≠ j.jobnum := fun hnum => h (List.inj_on_of_nodup_map hnd hj hjob hnum.symm)
    simp [List.getElem?_set_ne hnum, h]

theorem Progress.length_le (h : Progress joblist jobnum s) : s.aa.length ≤ joblist.length := by
  have := h.perm.length_eq
  rw [List.length_append] at this
  omega

/-- The state after a pass that runs `job`. -/
def Sjf.ran (s : Sjf) (job : Job) : Sjf where
  yy := s.yy.set job.jobnum 0
  aa := s.aa ++ [job]
  total := s.total + job.runtime
  trace := s.trace ++ [⟨s.total, job.jobnum, job.runtime⟩]

theorem Progress.ran (h : Progress joblist jobnum s) (hnd : (joblist.map Job.jobnum).Nodup) {job : Job}
    (hjob : job ∈ waiting joblist s.yy) (hmin : ∀ j ∈ waiting joblist s.yy, job.runtime ≤ j.runtime)
    (hlt : job.runtime < 11) : Progress joblist jobnum (s.ran job) := by
  have hset := waiting_set s.yy hnd (mem_waiting.mp hjob).1
  constructor
  · rw [← h.yy_length]
    exact List.length_set
  · show (s.aa ++ [job] ++ waiting joblist (s.yy.set job.jobnum 0)).Perm joblist
    rw [hset, List.append_assoc, List.singleton_append]
    exact ((List.perm_cons_erase hjob).symm.append_left _).trans h.perm
  · show ((s.aa ++ [job]).map Job.runtime).Pairwise (· ≤ ·)
    rw [List.map_append, List.pairwise_append]
    refine ⟨h.sorted, by simp, ?_⟩
    intro r hr b hb
    obtain ⟨a, ha, rfl⟩ := List.mem_map.mp hr
    rw [List.map_singleton, List.mem_singleton] at hb
    exact hb ▸ h.le_waiting a ha job hjob
  · intro a ha j hj
    have hj : j ∈ waiting joblist s.yy := List.mem_of_mem_erase (hset ▸ hj)
    rcases List.mem_append.mp ha with ha | ha
    · exact h.le_waiting a ha j hj
    · rw [List.mem_singleton.mp ha]
      exact hmin j hj
  · intro a ha
    rcases List.mem_append.mp ha with ha | ha
    · exact h.lt_sentinel a ha
    · rwa [List.mem_singleton.mp ha]
  · show (s.trace ++ [_]).map Slice.job = s.aa ++ [job]
    rw [List.map_append, h.trace_eq]
    rfl

/-- A pass runs a job that is shorter than the sentinel, or it ends in an `IndexError`: the sentinel has no entry in the
table of the jobs. -/
theorem sjfPass_cases (h : Progress joblist jobnum s) (hnd : (joblist.map Job.jobnum).Nodup)
    (hlt : ∀ job ∈ joblist, job.jobnum < jobnum + 1) :
    (∃ job, (sjfPass joblist jobnum).run s = .ok () (s.ran job) ∧ Progress joblist jobnum (s.ran job)) ∨
    ((sjfPass joblist jobnum).run s = .panic .index ∧ ∀ job ∈ waiting joblist s.yy, 11 ≤ job.runtime) := by
  have hin : ∀ job ∈ joblist, job.jobnum < s.yy.length := fun job hjob => h.yy_length ▸ hlt job hjob
  obtain ⟨found, hscan, -, hmin, hfound⟩ := sjfScan_spec hin ⟨jobnum + 1, 11⟩
  have hmin : ∀ job ∈ waiting joblist s.yy, found.runtime ≤ job.runtime := fun job hjob =>
    hmin job (mem_waiting.mp hjob).1 (mem_waiting.mp hjob).2
  rcases hfound with rfl | ⟨hmem, hwait, hrun⟩
  · right
    refine ⟨?_, hmin⟩
    simp [sjfPass, hscan, h.yy_length]
  · left
    refine ⟨found, ?_, h.ran hnd (mem_waiting.mpr ⟨hmem, hwait⟩) hmin hrun⟩
    have hin : found.jobnum < s.yy.length := h.yy_length ▸ hlt found hmem
    simp [sjfPass, hscan, hin, Sjf.ran]

end pass

/-! ### The loop -/

section loop

variable {joblist : List Job} {jobnum : ℕ} {s : Sjf}

theorem Progress.init (joblist : List Job) {jobnum : ℕ} (hlt : ∀ job ∈ joblist, job.jobnum < jobnum + 1) :
    Progress joblist jobnum (Sjf.init jobnum) where
  yy_length := List.length_replicate
  perm := by
    have : waiting joblist (Sjf.init jobnum).yy = joblist := List.filter_eq_self.mpr fun job hjob => by
      simp [Sjf.init, hlt job hjob]
    rw [this]
    exact .refl _
  sorted := List.Pairwise.nil
  le_waiting := by simp [Sjf.init]
  lt_sentinel := by simp [Sjf.init]
  trace_eq := rfl

/-- Passes that all return have run as many jobs. -/
theorem sjfLoop_ran (hnd : (joblist.map Job.jobnum).Nodup) (hlt : ∀ job ∈ joblist, job.jobnum < jobnum + 1) {lnum : ℕ}
    (h : Progress joblist jobnum s) {s' : Sjf} (hrun : (sjfLoop joblist jobnum lnum).run s = .ok () s') :
    Progress joblist jobnum s' ∧ s'.aa.length = s.aa.length + lnum := by
  induction lnum generalizing s with
  | zero =>
    obtain ⟨-, rfl⟩ := (Outcome.ok.injEq ..).mp hrun
    exact ⟨h, rfl⟩
  | succ lnum ih =>
    rcases sjfPass_cases h hnd hlt with ⟨job, hpass, hran⟩ | ⟨hpass, -⟩
    · rw [sjfLoop, Prog.bind_of_ok hpass] at hrun
      obtain ⟨hs', hlen⟩ := ih hran hrun
      refine ⟨hs', ?_⟩
      rw [hlen, Sjf.ran, List.length_append, List.length_singleton]
      omega
    · rw [sjfLoop, Prog.run_bind, hpass] at hrun
      cases hrun

/-- When the sentinel is longer than every job, the loop ends with as many passes as there are jobs. -/
theorem sjfLoop_ends (hnd : (joblist.map Job.jobnum).Nodup) (hlt : ∀ job ∈ joblist, job.jobnum < jobnum + 1)
    (hshort : ∀ job ∈ joblist, job.runtime < 11) {lnum : ℕ} (h : Progress joblist jobnum s)
    (hlen : s.aa.length + lnum = joblist.length) :
    ∃ s', (sjfLoop joblist jobnum lnum).run s = .ok () s' := by
  induction lnum generalizing s with
  | zero => exact ⟨s, rfl⟩
  | succ lnum ih =>
    have hne : waiting joblist s.yy ≠ [] := by
      intro hnil
      have := h.perm.length_eq
      rw [hnil, List.append_nil] at this
      omega
    rcases sjfPass_cases h hnd hlt with ⟨job, hpass, hran⟩ | ⟨-, hlong⟩
    · obtain ⟨s', hs'⟩ := ih hran (by rw [Sjf.ran, List.length_append, List.length_singleton]; omega)
      exact ⟨s', by rw [sjfLoop, Prog.bind_of_ok hpass, hs']⟩
    · obtain ⟨job, hjob⟩ := List.exists_mem_of_ne_nil _ hne
      exact absurd (hlong job hjob) (not_le.mpr (hshort job (mem_waiting.mp hjob).1))

/-- All jobs have run: the trace is a rearrangement of the job list. -/
theorem Progress.perm_of_length (h : Progress joblist jobnum s) (hlen : s.aa.length = joblist.length) :
    s.aa.Perm joblist := by
  have hperm := h.perm
  have hnil : waiting joblist s.yy = [] := by
    have := hperm.length_eq
    rw [List.length_append] at this
    exact List.eq_nil_of_length_eq_zero (by omega)
  rwa [hnil, List.append_nil] at hperm

end loop

/-! ### The branch -/

theorem sjf_of_loop {o : Options} {jobnum : ℕ} (hnum : o.jobnum = some jobnum) {s : Sjf}
    (hloop : (sjfLoop o.joblist jobnum (jobnum + 1)).run (Sjf.init jobnum) = .ok () s) :
    sjf o = .ok (statistics 0 s.aa) s := by
  rw [sjf, hnum]
  exact (Prog.bind_of_ok hloop).trans rfl

/-- A run that returns has run its loop to the end. -/
theorem sjf_eq_ok {o : Options} {jobnum : ℕ} (hnum : o.jobnum = some jobnum) {stats : List Stat} {s : Sjf}
    (h : sjf o = .ok stats s) :
    (sjfLoop o.joblist jobnum (jobnum + 1)).run (Sjf.init jobnum) = .ok () s ∧ stats = statistics 0 s.aa := by
  rw [sjf, hnum] at h
  obtain ⟨_, s', hloop, hrest⟩ := Prog.bind_eq_ok.mp h
  obtain ⟨rfl, rfl⟩ := (Outcome.ok.injEq ..).mp hrest
  exact ⟨hloop, rfl⟩

/-- After a random list the table `yy` has one entry for each job. -/
theorem jobnum_lt_passes {o : Options} (hne : o.joblist ≠ []) :
    o.joblist.length - 1 + 1 = o.joblist.length ∧ ∀ job ∈ o.joblist, job.jobnum < o.joblist.length - 1 + 1 := by
  have hsucc : o.joblist.length - 1 + 1 = o.joblist.length := Nat.sub_add_cancel (List.length_pos_of_ne_nil hne)
  exact ⟨hsucc, fun job hjob => hsucc ▸ Options.jobnum_lt hjob⟩

/-- A run over a random list that returns has run every job. -/
theorem sjf_ran {o : Options} (hrand : o.IsRandom) (hne : o.joblist ≠ []) {stats : List Stat} {s : Sjf}
    (h : sjf o = .ok stats s) :
    Progress o.joblist (o.joblist.length - 1) s ∧ s.aa.Perm o.joblist ∧ stats = statistics 0 s.aa := by
  obtain ⟨hsucc, hlt⟩ := jobnum_lt_passes hne
  obtain ⟨hloop, hstats⟩ := sjf_eq_ok (Options.jobnum_random hrand hne) h
  obtain ⟨hs, haa⟩ := sjfLoop_ran o.joblist_nodup hlt (.init _ hlt) hloop
  exact ⟨hs, hs.perm_of_length (by rw [haa, hsucc]; simp [Sjf.init]), hstats⟩

/-- A run over a list that is given does not return: it makes one pass more than there are jobs. -/
theorem sjf_jlist_ne_ok (runtimes : List ℚ) (stats : List Stat) (s : Sjf) : sjf (.jlist runtimes) ≠ .ok stats s := by
  intro h
  have hloop := (sjf_eq_ok (Options.jobnum_jlist runtimes) h).1
  have hlt : ∀ job ∈ (Options.jlist runtimes).joblist, job.jobnum < (Options.jlist runtimes).joblist.length + 1 :=
    fun job hjob => (Options.jobnum_lt hjob).trans (Nat.lt_succ_self _)
  obtain ⟨hs, haa⟩ := sjfLoop_ran (Options.joblist_nodup _) hlt (.init _ hlt) hloop
  have := hs.length_le
  rw [haa] at this
  simp only [Sjf.init, List.length_nil] at this
  omega

/-- `SJF` runs every job exactly when the list is random and no job reaches the length of the sentinel. -/
theorem sjf_runs_every_job_iff (o : Options) (hne : o.joblist ≠ []) :
    RunsEveryJob o.joblist (sjf o) ↔ o.IsRandom ∧ ∀ job ∈ o.joblist, job.runtime < 11 := by
  constructor
  · rintro ⟨stats, s, hrun, -, -⟩
    have hrand : o.IsRandom := by
      cases o with
      | random => trivial
      | jlist runtimes => exact absurd hrun (sjf_jlist_ne_ok runtimes stats s)
    obtain ⟨hs, hperm, -⟩ := sjf_ran hrand hne hrun
    exact ⟨hrand, fun job hjob => hs.lt_sentinel job (hperm.mem_iff.mpr hjob)⟩
  · rintro ⟨hrand, hshort⟩
    obtain ⟨hsucc, hlt⟩ := jobnum_lt_passes hne
    obtain ⟨s, hloop⟩ := sjfLoop_ends o.joblist_nodup hlt hshort (.init _ hlt)
      (show ([] : List Job).length + (o.joblist.length - 1 + 1) = o.joblist.length by rw [hsucc]; simp)
    have hrun := sjf_of_loop (Options.jobnum_random hrand hne) hloop
    obtain ⟨hs, hperm, -⟩ := sjf_ran hrand hne hrun
    refine ⟨_, s, hrun, hs.trace_eq ▸ hperm, ?_⟩
    have hran : s.trace.map Slice.ranfor = s.aa.map Job.runtime := by
      rw [← hs.trace_eq, List.map_map]
      rfl
    rw [hran]
    exact hs.sorted

/-- Two jobs of lengths 8 and 3. -/
theorem sjf_runs_every_job_two :
    RunsEveryJob (Options.random 2 10 fun i => if i = 0 then 3 / 4 else 1 / 4).joblist
      (sjf (.random 2 10 fun i => if i = 0 then 3 / 4 else 1 / 4)) := by
  refine (sjf_runs_every_job_iff _ ?_).mpr ⟨trivial, ?_⟩
  · simp [Options.joblist]
  · decide +kernel

/-- The pass after the last job of a list that is given finds the sentinel only. -/
theorem sjf_jlist_ten : sjf (.jlist [10]) = .panic .index := by decide +kernel

/-- Not every job list is run. -/
theorem not_sjf_runs_every_job :
    ¬ ∀ o : Options, o.joblist ≠ [] → (∀ job ∈ o.joblist, 0 < job.runtime) → RunsEveryJob o.joblist (sjf o) := by
  intro h
  obtain ⟨stats, s, hrun, -⟩ := h (.jlist [10]) (by simp [Options.joblist, numbered]) (by
    simp [Options.joblist, numbered])
  rw [sjf_jlist_ten] at hrun
  cases hrun

/-- `SJF` ends with statistics that obey the law exactly for the same lists. -/
theorem sjf_consistent_iff {o : Options} (hne : o.joblist ≠ []) (hpos : ∀ job ∈ o.joblist, 0 < job.runtime) :
    (∃ stats s, sjf o = .ok stats s ∧ Consistent o.joblist stats) ↔ o.IsRandom ∧ ∀ job ∈ o.joblist, job.runtime < 11 := by
  constructor
  · rintro ⟨stats, s, hrun, -⟩
    have hrand : o.IsRandom := by
      cases o with
      | random => trivial
      | jlist runtimes => exact sjf_jlist_ne_ok runtimes stats s hrun
    obtain ⟨hs, hperm, -⟩ := sjf_ran hrand hne hrun
    exact ⟨hrand, fun job hjob => hs.lt_sentinel job (hperm.mem_iff.mpr hjob)⟩
  · rintro ⟨hrand, hshort⟩
    obtain ⟨hsucc, hlt⟩ := jobnum_lt_passes hne
    obtain ⟨s, hloop⟩ := sjfLoop_ends o.joblist_nodup hlt hshort (.init _ hlt) ((Nat.zero_add _).trans hsucc)
    have hrun := sjf_of_loop (Options.jobnum_random hrand hne) hloop
    obtain ⟨-, hperm, -⟩ := sjf_ran hrand hne hrun
    exact ⟨_, s, hrun, statistics_consistent hperm o.joblist_nodup hne hpos⟩

/-- One job of length 6. -/
theorem sjf_consistent_iff_one : ∃ stats s, sjf (.random 1 10 fun _ => 1 / 2) = .ok stats s ∧
    Consistent (Options.random 1 10 fun _ => 1 / 2).joblist stats :=
  (sjf_consistent_iff (by decide +kernel) (by decide +kernel)).mpr ⟨trivial, by decide +kernel⟩

end Ucore.Lab6
