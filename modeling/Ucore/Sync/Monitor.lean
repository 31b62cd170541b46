import Ucore.Lib.Threads
import Mathlib.Data.Fintype.Basic

/-!
# Monitors

The monitors of `kern/sync/monitor.c`: a mutex, a semaphore `next` for processes that have signalled, and condition
variables.

* `MonitorData` are the counters, `MonitorLoc` the places in `cond_wait`, `cond_signal` and the procedures of a monitor
  where a process is between two semaphore operations. `monitorThreads` is the program: any process may enter the monitor,
  call the two functions as often as it likes, and leave.
* One unit moves between the semaphores and the process in the monitor: `monitor_tokens`. The counters count processes:
  `monitor_count`, `monitor_nextCount`.
* `signal_next` says who becomes active after a signal, and `monitor_hoare` puts all together.
-/

namespace Ucore.Sync

open Ucore.Lib

/-- The semaphores of a monitor with `n` condition variables. Source: `kern/sync/monitor.h` `monitor_t` `condvar_t` -/
inductive MonitorSem (n : ℕ) where
  | mutex
  | next
  | cv (i : Fin n)
  deriving DecidableEq

/-- The counters of a monitor. Source: `kern/sync/monitor.h` `monitor_t` `condvar_t` -/
structure MonitorData (n : ℕ) where
  nextCount : ℤ
  count : Fin n → ℤ

/-- Where a process is. -/
inductive MonitorLoc (n : ℕ) where
  | outside
  /-- In `down(&(mtp->mutex))`. -/
  | entering
  | inside
  /-- In `cond_wait`, from the `up` on. -/
  | waiting (i : Fin n)
  /-- In `cond_signal`, from the `up` on. -/
  | signalling
  deriving DecidableEq

namespace MonitorData

variable {n : ℕ}

/-- `cvp->count += k` -/
def addCount (d : MonitorData n) (i : Fin n) (k : ℤ) : MonitorData n :=
  { d with count := Function.update d.count i (d.count i + k) }

/-- `next_count += k` -/
def addNext (d : MonitorData n) (k : ℤ) : MonitorData n := { d with nextCount := d.nextCount + k }

/-- The semaphore that a process hands the monitor over with. -/
def release (d : MonitorData n) : MonitorSem n := if d.nextCount > 0 then .next else .mutex

end MonitorData

variable {P : Type} {n : ℕ}

/-- What a process may call next. Source: `kern/sync/monitor.c` `cond_signal` `cond_wait` -/
inductive MonitorCall : MonitorLoc n → MonitorData n → SemOp (MonitorSem n) → MonitorLoc n → MonitorData n → Prop where
  | enter (d : MonitorData n) : MonitorCall .outside d (.down .mutex) .entering d
  | compute (d : MonitorData n) : MonitorCall .inside d .skip .inside d
  | wait (i : Fin n) (d : MonitorData n) : MonitorCall .inside d (.up (d.addCount i 1).release) (.waiting i) (d.addCount i 1)
  | waitDown (i : Fin n) (d : MonitorData n) : MonitorCall (.waiting i) d (.down (.cv i)) (.waiting i) d
  | signal (i : Fin n) (d : MonitorData n) (h : d.count i > 0) :
    MonitorCall .inside d (.up (.cv i)) .signalling (d.addNext 1)
  | signalNone (i : Fin n) (d : MonitorData n) (h : ¬ d.count i > 0) : MonitorCall .inside d .skip .inside d
  | signalDown (d : MonitorData n) : MonitorCall .signalling d (.down .next) .signalling d
  | leave (d : MonitorData n) : MonitorCall .inside d (.up d.release) .outside d

/-- What follows a `down`. -/
def monitorBack : MonitorLoc n → MonitorData n → MonitorLoc n × MonitorData n
  | .entering, d => (.inside, d)
  | .waiting i, d => (.inside, d.addCount i (-1))
  | .signalling, d => (.inside, d.addNext (-1))
  | l, d => (l, d)

/-- The places of the three `down`s. -/
inductive MonitorWaits : MonitorLoc n → MonitorSem n → Prop where
  | mutex : MonitorWaits .entering .mutex
  | cv (i : Fin n) : MonitorWaits (.waiting i) (.cv i)
  | next : MonitorWaits .signalling .next

/-- Processes that use a monitor. -/
def monitorThreads (P : Type) (n : ℕ) : Threads P (MonitorSem n) (MonitorLoc n) (MonitorData n) where
  call _ := MonitorCall
  back _ := monitorBack
  waits _ := MonitorWaits
  waits_of_call := by
    intro p l d s l' d' h
    cases h with
    | enter => exact .mutex
    | waitDown i => exact .cv i
    | signalDown => exact .next

/-- Source: `kern/sync/monitor.c` `monitor_init` -/
def monitorInit (P : Type) (n : ℕ) : Config P (MonitorSem n) (MonitorLoc n) (MonitorData n) where
  value s := if s = .mutex then 1 else 0
  queue _ := []
  phase _ := .runs
  loc _ := .outside
  data := ⟨0, fun _ => 0⟩

/-- A state of a monitor. -/
abbrev MonitorConfig (P : Type) (n : ℕ) : Type := Config P (MonitorSem n) (MonitorLoc n) (MonitorData n)

/-- The process runs in the monitor. -/
def Active (c : MonitorConfig P n) (p : P) : Prop := c.loc p = .inside ∧ c.phase p = .runs

instance (c : MonitorConfig P n) (p : P) : Decidable (Active c p) := inferInstanceAs (Decidable (_ ∧ _))

/-! ### One unit -/

/-- All semaphores of the monitor. -/
def monitorSems (n : ℕ) : Finset (MonitorSem n) :=
  insert .mutex (insert .next (Finset.univ.image .cv))

theorem mem_monitorSems (s : MonitorSem n) : s ∈ monitorSems n := by
  unfold monitorSems
  cases s <;> simp

theorem sum_monitorSems (f : MonitorSem n → ℤ) : ∑ s ∈ monitorSems n, f s = f .mutex + f .next + ∑ i, f (.cv i) := by
  unfold monitorSems
  rw [Finset.sum_insert (by simp), Finset.sum_insert (by simp), Finset.sum_image fun _ _ _ _ h => MonitorSem.cv.inj h]
  omega

/-- 1 inside the monitor. -/
def MonitorLoc.weight : MonitorLoc n → ℤ
  | .inside => 1
  | _ => 0

theorem monitor_conserves_tokens :
    Conserves (monitorThreads P n) (fun _ _ _ => True) (monitorSems n) (fun _ => MonitorLoc.weight) fun _ => 0 := by
  refine ⟨fun p l d l' d' _ h => ?_, fun p l d s l' d' _ h => ?_, fun p l d s l' d' _ h => ?_, fun p l d s _ h => ?_⟩
  · cases h <;> rfl
  · rw [if_pos (mem_monitorSems s)]
    cases h <;> rfl
  · cases h <;> exact ⟨rfl, trivial⟩
  · rw [if_pos (mem_monitorSems s)]
    cases h <;> rfl

/-- 1 in `cond_wait` on `i`. -/
def MonitorLoc.waitsOn (i : Fin n) : MonitorLoc n → ℤ
  | .waiting j => if i = j then 1 else 0
  | _ => 0

/-- 1 in `cond_signal`, when there was a process to signal. -/
def MonitorLoc.signals : MonitorLoc n → ℤ
  | .signalling => 1
  | _ => 0

theorem addCount_count (d : MonitorData n) (i j : Fin n) (k : ℤ) :
    (d.addCount j k).count i = d.count i + if i = j then k else 0 := by
  simp only [MonitorData.addCount, Function.update_apply]
  split_ifs with h
  · rw [h]
  · omega

theorem monitor_conserves_count (i : Fin n) :
    Conserves (monitorThreads P n) (fun _ _ _ => True) ∅ (fun _ => MonitorLoc.waitsOn i) fun d => -d.count i := by
  refine ⟨fun p l d l' d' _ h => ?_, fun p l d s l' d' _ h => ?_, fun p l d s l' d' _ h => ?_, fun p l d s _ h => ?_⟩
  · cases h <;> rfl
  · rw [if_neg (Finset.notMem_empty s)]
    cases h with
    | wait j =>
      show (if i = j then (1 : ℤ) else 0) + -(d.addCount j 1).count i + 0 = 0 + -d.count i
      rw [addCount_count]
      split_ifs <;> omega
    | signal j => exact Int.add_zero _
    | leave => exact Int.add_zero _
  · cases h <;> exact ⟨rfl, trivial⟩
  · rw [if_neg (Finset.notMem_empty s)]
    cases h with
    | mutex => exact (Int.add_zero _).symm
    | cv j =>
      show 0 + -(d.addCount j (-1)).count i = (if i = j then (1 : ℤ) else 0) + -d.count i + 0
      rw [addCount_count]
      split_ifs <;> omega
    | next => exact (Int.add_zero _).symm

theorem monitor_conserves_nextCount :
    Conserves (monitorThreads P n) (fun _ _ _ => True) ∅ (fun _ => MonitorLoc.signals) fun d => -d.nextCount := by
  refine ⟨fun p l d l' d' _ h => ?_, fun p l d s l' d' _ h => ?_, fun p l d s l' d' _ h => ?_, fun p l d s _ h => ?_⟩
  · cases h <;> rfl
  · rw [if_neg (Finset.notMem_empty s)]
    cases h with
    | wait j => exact Int.add_zero _
    | signal j =>
      show 1 + -(d.nextCount + 1) + 0 = 0 + -d.nextCount
      omega
    | leave => exact Int.add_zero _
  · cases h <;> exact ⟨rfl, trivial⟩
  · rw [if_neg (Finset.notMem_empty s)]
    cases h with
    | mutex => exact (Int.add_zero _).symm
    | cv j => exact (Int.add_zero _).symm
    | next =>
      show 0 + -(d.nextCount + -1) = 1 + -d.nextCount + 0
      omega

/-! ### Every state -/

variable [DecidableEq P] {procs : Finset P} {c c' : MonitorConfig P n}

omit [DecidableEq P] in
theorem monitorInit_ok : (monitorInit P n).Ok (monitorThreads P n) procs := by
  refine ⟨⟨fun s => ?_, fun s _ => rfl, fun s => List.nodup_nil, fun s p => ?_⟩, fun p hp => absurd rfl hp, fun p s hp => ?_⟩
  · show 0 ≤ if s = .mutex then (1 : ℤ) else 0
    split_ifs <;> omega
  · show p ∈ [] ↔ Phase.runs = .blocked s
    simp
  · change Phase.runs = .blocked s ∨ Phase.runs = .granted s at hp
    rcases hp with hp | hp <;> cases hp

/-- A state of a monitor that has been reached. -/
abbrev MonitorRuns (procs : Finset P) (c : MonitorConfig P n) : Prop :=
  Runs (monitorThreads P n) procs (monitorInit P n) c

theorem MonitorRuns.ok (h : MonitorRuns procs c) : c.Ok (monitorThreads P n) procs := Runs.ok h monitorInit_ok

omit [DecidableEq P] in
/-- A process inside the monitor is active. -/
theorem active_of_inside (h : c.Ok (monitorThreads P n) procs) {p : P} (hp : c.loc p = .inside) : Active c p := by
  refine ⟨hp, ?_⟩
  cases hphase : c.phase p with
  | runs => rfl
  | blocked s =>
    have hwaits : MonitorWaits (c.loc p) s := h.waits p s (.inl hphase)
    rw [hp] at hwaits
    cases hwaits
  | granted s =>
    have hwaits : MonitorWaits (c.loc p) s := h.waits p s (.inr hphase)
    rw [hp] at hwaits
    cases hwaits

omit [DecidableEq P] in
theorem permits_init (s : MonitorSem n) : Sems.permits procs (monitorInit P n).toSems s = if s = .mutex then 1 else 0 := by
  have hgranted : Sems.granted procs (monitorInit P n).toSems s = 0 := Finset.sum_eq_zero fun p _ => Sems.unit_runs s
  rw [Sems.permits, hgranted]
  exact Int.add_zero _

/-- The unit is in a semaphore, granted, or with the process inside. -/
theorem monitor_tokens (h : MonitorRuns procs c) :
    (∑ s ∈ monitorSems n, Sems.permits procs c.toSems s) + ∑ p ∈ procs, (c.loc p).weight = 1 := by
  have hamount := monitor_conserves_tokens.runs monitorInit_ok h
  have hstart : ∑ p ∈ procs, ((monitorInit P n).loc p).weight = 0 := Finset.sum_eq_zero fun _ _ => rfl
  have hsems : ∑ s ∈ monitorSems n, Sems.permits procs (monitorInit P n).toSems s = 1 := by
    rw [Finset.sum_congr rfl fun s _ => permits_init s, Finset.sum_ite_eq', if_pos (mem_monitorSems _)]
  simp only [Config.amount] at hamount
  omega

theorem monitor_count (h : MonitorRuns procs c) (i : Fin n) : c.data.count i = ∑ p ∈ procs, (c.loc p).waitsOn i := by
  have hamount := (monitor_conserves_count i).runs monitorInit_ok h
  have hstart : ∑ p ∈ procs, ((monitorInit P n).loc p).waitsOn i = 0 := Finset.sum_eq_zero fun _ _ => rfl
  have hdata : (monitorInit P n).data.count i = 0 := rfl
  simp only [Config.amount, Finset.sum_empty] at hamount
  omega

theorem monitor_nextCount (h : MonitorRuns procs c) : c.data.nextCount = ∑ p ∈ procs, (c.loc p).signals := by
  have hamount := monitor_conserves_nextCount.runs monitorInit_ok h
  have hstart : ∑ p ∈ procs, ((monitorInit P n).loc p).signals = 0 := Finset.sum_eq_zero fun _ _ => rfl
  have hdata : (monitorInit P n).data.nextCount = 0 := rfl
  simp only [Config.amount, Finset.sum_empty] at hamount
  omega

omit [DecidableEq P] in
theorem weight_nonneg (l : MonitorLoc n) : 0 ≤ l.weight := by
  unfold MonitorLoc.weight
  split <;> omega

/-- With a process in the monitor, there is no unit anywhere, and no other process in the monitor. -/
theorem others_of_active (h : MonitorRuns procs c) {p : P} (hmem : p ∈ procs) (hp : Active c p) :
    (∀ s, Sems.permits procs c.toSems s = 0) ∧ ∀ q ∈ procs, Active c q → q = p := by
  have htokens := monitor_tokens h
  have hsplit := Finset.add_sum_erase procs (fun x => (c.loc x).weight) hmem
  have hweight : (c.loc p).weight = 1 := by rw [hp.1]; rfl
  simp only [hweight] at hsplit
  refine ⟨fun s => ?_, fun q hq hqa => ?_⟩
  · have hsplit' := Finset.add_sum_erase (monitorSems n) (fun x => Sems.permits procs c.toSems x) (mem_monitorSems s)
    have hsems : 0 ≤ ∑ x ∈ (monitorSems n).erase s, Sems.permits procs c.toSems x :=
      Finset.sum_nonneg fun x _ => h.ok.sems.permits_nonneg x
    have hweights : 0 ≤ ∑ x ∈ procs.erase p, (c.loc x).weight := Finset.sum_nonneg fun x _ => weight_nonneg _
    have hs : 0 ≤ Sems.permits procs c.toSems s := h.ok.sems.permits_nonneg s
    omega
  · by_contra hne
    have hsplit' := Finset.add_sum_erase (procs.erase p) (fun x => (c.loc x).weight) (Finset.mem_erase.mpr ⟨hne, hq⟩)
    have hsems : 0 ≤ ∑ x ∈ monitorSems n, Sems.permits procs c.toSems x :=
      Finset.sum_nonneg fun x _ => h.ok.sems.permits_nonneg x
    have hweights : 0 ≤ ∑ x ∈ (procs.erase p).erase q, (c.loc x).weight := Finset.sum_nonneg fun x _ => weight_nonneg _
    have hweight' : (c.loc q).weight = 1 := by rw [hqa.1]; rfl
    simp only [hweight'] at hsplit'
    omega

/-- With a unit in one semaphore, there is none in the others, and no process in the monitor. -/
theorem others_of_permits (h : MonitorRuns procs c) {s : MonitorSem n} (hs : 1 ≤ Sems.permits procs c.toSems s) :
    (∀ s', 1 ≤ Sems.permits procs c.toSems s' → s' = s) ∧ ∀ p ∈ procs, ¬ Active c p := by
  refine ⟨fun s' hs' => ?_, fun p hp hactive => ?_⟩
  · by_contra hne
    have htokens := monitor_tokens h
    have hsplit := Finset.add_sum_erase (monitorSems n) (fun x => Sems.permits procs c.toSems x) (mem_monitorSems s)
    have hsplit' := Finset.add_sum_erase ((monitorSems n).erase s) (fun x => Sems.permits procs c.toSems x)
      (Finset.mem_erase.mpr ⟨hne, mem_monitorSems s'⟩)
    have hsems : 0 ≤ ∑ x ∈ ((monitorSems n).erase s).erase s', Sems.permits procs c.toSems x :=
      Finset.sum_nonneg fun x _ => h.ok.sems.permits_nonneg x
    have hweights : 0 ≤ ∑ p ∈ procs, (c.loc p).weight := Finset.sum_nonneg fun x _ => weight_nonneg _
    omega
  · have := (others_of_active h hp hactive).1 s
    omega

/-! ### After a signal -/

/-- A process calls `cond_signal` on `i` when there is a process to signal. -/
def Signals (procs : Finset P) (i : Fin n) (c c' : MonitorConfig P n) : Prop :=
  ∃ p ∈ procs, Active c p ∧ c.data.count i > 0 ∧
    c' = (c.goto p .signalling (c.data.addNext 1)).withSems (c.toSems.up (.cv i))

theorem Signals.step {i : Fin n} (h : Signals procs i c c') : Step (monitorThreads P n) procs c c' := by
  obtain ⟨p, hmem, ⟨hloc, hphase⟩, hcount, rfl⟩ := h
  refine .up p (.cv i) .signalling (c.data.addNext 1) hmem hphase ?_
  rw [hloc]
  exact .signal i c.data hcount

/-- The unit is in the semaphore of `i`, and only processes among `waiters` wait on `i`. -/
structure Handing (procs : Finset P) (i : Fin n) (waiters : P → Prop) (c : MonitorConfig P n) : Prop where
  runs : MonitorRuns procs c
  unit : 1 ≤ Sems.permits procs c.toSems (.cv i)
  waits : ∀ q, c.loc q = .waiting i → waiters q

theorem Signals.handing {i : Fin n} (hc : MonitorRuns procs c) (h : Signals procs i c c') :
    Handing procs i (fun q => c.loc q = .waiting i) c' := by
  have hstep := h.step
  obtain ⟨p, hmem, hactive, hcount, rfl⟩ := h
  have hnone := (others_of_active hc hmem hactive).1 (.cv i)
  refine ⟨hc.tail hstep, ?_, fun q hq => ?_⟩
  · show 1 ≤ Sems.permits procs (c.toSems.up (.cv i)) (.cv i)
    rw [Sems.permits_up hc.ok.sems hc.ok.queue_mem, hnone, if_pos rfl]
    omega
  · change Function.update c.loc p .signalling q = _ at hq
    simp only [Function.update_apply] at hq
    split_ifs at hq with hqp
    exact hq

/-- Where calls come from. -/
theorem MonitorCall.inside_of_not_down {l l' : MonitorLoc n} {d d' : MonitorData n} {op : SemOp (MonitorSem n)}
    (h : MonitorCall l d op l' d') (hop : ∀ s, op ≠ .down s) : l = .inside := by
  cases h with
  | enter => exact absurd rfl (hop _)
  | compute => rfl
  | wait => rfl
  | waitDown => exact absurd rfl (hop _)
  | signal => rfl
  | signalNone => rfl
  | signalDown => exact absurd rfl (hop _)
  | leave => rfl

/-- A `down` on a condition variable comes from `cond_wait`. -/
theorem MonitorCall.waiting_of_down {l l' : MonitorLoc n} {d d' : MonitorData n} {i : Fin n}
    (h : MonitorCall l d (.down (.cv i)) l' d') : l = .waiting i ∧ l' = l ∧ d' = d := by
  cases h
  exact ⟨rfl, rfl, rfl⟩

/-- No process begins to wait with a `down`. -/
theorem MonitorCall.waiting_of_waiting {l l' : MonitorLoc n} {d d' : MonitorData n} {s : MonitorSem n} {i : Fin n}
    (h : MonitorCall l d (.down s) l' d') (hl : l' = .waiting i) : l = .waiting i := by
  cases h with
  | enter => cases hl
  | waitDown j => exact hl
  | signalDown => cases hl

/-- A process that has got out of a `down` is in the monitor, and no other process has moved. -/
theorem active_back {p : P} {s : MonitorSem n} (hwaits : MonitorWaits (c.loc p) s) (hp : c.phase p = .runs) (q : P) :
    Active (c.back (monitorThreads P n) p) q ↔ q = p ∨ Active c q := by
  have hback : (monitorBack (c.loc p) c.data).1 = .inside := by
    cases h : c.loc p <;> rw [h] at hwaits <;> cases hwaits <;> rfl
  show Function.update c.loc p (monitorBack (c.loc p) c.data).1 q = .inside ∧ c.phase q = .runs ↔ _
  rw [hback, Function.update_apply]
  by_cases hq : q = p
  · rw [if_pos hq, hq]
    exact ⟨fun _ => .inl rfl, fun _ => ⟨rfl, hp⟩⟩
  · rw [if_neg hq]
    exact ⟨.inr, fun h => h.resolve_left hq⟩

/-- When a process gets out of a `down` on `i`, it is one of `waiters`. -/
theorem Handing.back {i : Fin n} {waiters : P → Prop} (h : Handing procs i waiters c) {p : P} {m : Sems P (MonitorSem n)}
    (hmem : p ∈ procs) (hloc : c.loc p = .waiting i) (hphase : ∀ q, q ≠ p → m.phase q = c.phase q) (hp : m.phase p = .runs) :
    (∀ q ∈ procs, Active ((c.withSems m).back (monitorThreads P n) p) q → waiters q) ∧
      ((∀ q ∈ procs, ¬ Active ((c.withSems m).back (monitorThreads P n) p) q) →
        Handing procs i waiters ((c.withSems m).back (monitorThreads P n) p)) := by
  have hwaits : MonitorWaits ((c.withSems m).loc p) (.cv i) := by
    show MonitorWaits (c.loc p) _
    rw [hloc]
    exact .cv i
  refine ⟨fun q hq hactive => ?_, fun hnone => absurd ((active_back hwaits hp p).mpr (.inl rfl)) (hnone p hmem)⟩
  rcases (active_back hwaits hp q).mp hactive with rfl | ⟨hqloc, hqphase⟩
  · exact h.waits _ hloc
  · by_cases hqp : q = p
    · rw [hqp]
      exact h.waits p hloc
    · refine absurd ⟨hqloc, ?_⟩ ((others_of_permits h.runs h.unit).2 q hq)
      rw [← hphase q hqp]
      exact hqphase

/-- The next step leaves the unit where it is, or one of `waiters` gets active. -/
theorem Handing.step {i : Fin n} {waiters : P → Prop} (h : Handing procs i waiters c)
    (hstep : Step (monitorThreads P n) procs c c') :
    (∀ q ∈ procs, Active c' q → waiters q) ∧ ((∀ q ∈ procs, ¬ Active c' q) → Handing procs i waiters c') := by
  obtain ⟨hunique, hidle⟩ := others_of_permits h.runs h.unit
  have hruns' := h.runs.tail hstep
  have houtside : ∀ p ∈ procs, c.phase p = .runs → c.loc p ≠ .inside := fun p hmem hp hloc => hidle p hmem ⟨hloc, hp⟩
  cases hstep with
  | skip p l d hmem hp hcall =>
    exact absurd (MonitorCall.inside_of_not_down hcall fun s h => by (cases h)) (houtside p hmem hp)
  | up p s l d hmem hp hcall =>
    exact absurd (MonitorCall.inside_of_not_down hcall fun s h => by (cases h)) (houtside p hmem hp)
  | take p s l d hmem hp hcall hs =>
    have hcv := hunique s (Sems.permits_pos hs)
    subst hcv
    obtain ⟨hloc, rfl, rfl⟩ := MonitorCall.waiting_of_down hcall
    rw [Config.goto_self]
    exact h.back hmem hloc (fun q _ => rfl) hp
  | block p s l d hmem hp hcall hs =>
    refine ⟨fun q hq hactive => ?_, fun _ => ⟨hruns', ?_, fun q hq => ?_⟩⟩
    · obtain ⟨hqloc, hqphase⟩ := hactive
      change Function.update c.loc p l q = _ at hqloc
      change Function.update c.phase p (.blocked s) q = _ at hqphase
      by_cases hqp : q = p
      · rw [hqp, Function.update_self] at hqphase
        cases hqphase
      · rw [Function.update_of_ne hqp] at hqloc hqphase
        exact absurd ⟨hqloc, hqphase⟩ (hidle q hq)
    · show 1 ≤ Sems.permits procs (c.toSems.block s p) (.cv i)
      rw [Sems.permits_block hp]
      exact h.unit
    · change Function.update c.loc p l q = _ at hq
      by_cases hqp : q = p
      · rw [hqp, Function.update_self] at hq
        rw [hqp]
        exact h.waits p (MonitorCall.waiting_of_waiting hcall hq)
      · rw [Function.update_of_ne hqp] at hq
        exact h.waits q hq
  | wake p s hmem hp =>
    have hcv := hunique s (h.runs.ok.sems.permits_pos_of_granted hmem hp)
    have hwaits : MonitorWaits (c.loc p) s := h.runs.ok.waits p s (.inr hp)
    rw [hcv] at hwaits
    have hloc : c.loc p = .waiting i := by
      cases hl : c.loc p <;> rw [hl] at hwaits <;> cases hwaits
      rfl
    refine h.back hmem hloc (fun q hq => ?_) ?_
    · exact Function.update_of_ne hq ..
    · exact Function.update_self ..

/-- After a signal, the next process that gets active is one that waited on the condition variable. -/
theorem signal_next {i : Fin n} {c₁ c₂ c₃ : MonitorConfig P n} (hc : MonitorRuns procs c) (hsignal : Signals procs i c c₁)
    (hidle : Relation.ReflTransGen (fun a b => Step (monitorThreads P n) procs a b ∧ ∀ q ∈ procs, ¬ Active b q) c₁ c₂)
    (hstep : Step (monitorThreads P n) procs c₂ c₃) {q : P} (hq : q ∈ procs) (hactive : Active c₃ q) :
    c.loc q = .waiting i := by
  have hhanding : Handing procs i (fun q => c.loc q = .waiting i) c₂ :=
    invariant_of_step (Handing procs i fun q => c.loc q = .waiting i) hidle (hsignal.handing hc)
      fun a b ha hab => (ha.step hab.1).2 hab.2
  exact (hhanding.step hstep).1 q hq hactive

/-- A call that adds a unit to the mutex, or none, leaves `next_count` at 0 when it does. -/
theorem MonitorCall.nextCount {l l' : MonitorLoc n} {d d' : MonitorData n} {op : SemOp (MonitorSem n)}
    (h : MonitorCall l d op l' d') (hop : ∀ s, op = .up s → s = .mutex) : d'.nextCount = d.nextCount ∧
      (op = .up .mutex → ¬ d.nextCount > 0) := by
  have hrelease : ∀ e : MonitorData n, e.release = .mutex → ¬ e.nextCount > 0 := by
    intro e he hpos
    rw [MonitorData.release, if_pos hpos] at he
    cases he
  cases h with
  | wait i d => exact ⟨rfl, fun h => hrelease _ (SemOp.up.inj h)⟩
  | signal i d h => cases hop _ rfl
  | leave d => exact ⟨rfl, fun h => hrelease _ (SemOp.up.inj h)⟩
  | enter d => exact ⟨rfl, fun h => by (cases h)⟩
  | compute d => exact ⟨rfl, fun h => by (cases h)⟩
  | waitDown i d => exact ⟨rfl, fun h => by (cases h)⟩
  | signalNone i d h => exact ⟨rfl, fun h => by (cases h)⟩
  | signalDown d => exact ⟨rfl, fun h => by (cases h)⟩

theorem nextCount_nonneg (h : MonitorRuns procs c) : 0 ≤ c.data.nextCount := by
  rw [monitor_nextCount h]
  refine Finset.sum_nonneg fun p _ => ?_
  unfold MonitorLoc.signals
  split <;> omega

/-- While the mutex is free, no process has signalled and waits. -/
theorem nextCount_of_mutex (h : MonitorRuns procs c) (hmutex : 1 ≤ Sems.permits procs c.toSems .mutex) :
    c.data.nextCount = 0 := by
  induction h with
  | refl => rfl
  | @tail b c' hbefore hstep ih =>
    have hruns : MonitorRuns procs b := hbefore
    have hruns' : MonitorRuns procs c' := hbefore.tail hstep
    have hinactive := (others_of_permits hruns' hmutex).2
    cases hstep with
    | skip p l d hmem hp hcall =>
      show d.nextCount = 0
      rw [(MonitorCall.nextCount hcall fun s h => by (cases h)).1]
      exact ih hmutex
    | up p s l d hmem hp hcall =>
      have hloc := MonitorCall.inside_of_not_down hcall fun s h => by (cases h)
      have hnone := (others_of_active hruns hmem ⟨hloc, hp⟩).1 .mutex
      change 1 ≤ Sems.permits procs (b.toSems.up s) .mutex at hmutex
      rw [Sems.permits_up hruns.ok.sems hruns.ok.queue_mem, hnone] at hmutex
      have hs : s = .mutex := by
        by_contra hne
        rw [if_neg (Ne.symm hne)] at hmutex
        omega
      subst hs
      obtain ⟨hsame, hzero⟩ := MonitorCall.nextCount hcall fun s h => (SemOp.up.inj h).symm
      have := hzero rfl
      have := nextCount_nonneg hruns
      show d.nextCount = 0
      omega
    | take p s l d hmem hp hcall hs =>
      refine absurd ?_ (hinactive p hmem)
      exact (active_back (c := (b.goto p l d).withSems (b.toSems.take s)) (waits_goto hcall) hp p).mpr (.inl rfl)
    | block p s l d hmem hp hcall hs =>
      have hdata := (MonitorCall.nextCount hcall fun s h => by (cases h)).1
      change 1 ≤ Sems.permits procs (b.toSems.block s p) .mutex at hmutex
      rw [Sems.permits_block hp] at hmutex
      show d.nextCount = 0
      rw [hdata]
      exact ih hmutex
    | wake p s hmem hp =>
      refine absurd ?_ (hinactive p hmem)
      refine (active_back (c := b.withSems (b.toSems.wake p)) (hruns.ok.waits p s (.inr hp)) ?_ p).mpr (.inl rfl)
      exact Function.update_self ..

/-- While the mutex is free, no process is in the monitor, nor has one signalled. -/
theorem idle_of_mutex (h : MonitorRuns procs c) (hmutex : 1 ≤ Sems.permits procs c.toSems .mutex) {p : P} (hp : p ∈ procs) :
    c.loc p ≠ .inside ∧ c.loc p ≠ .signalling := by
  refine ⟨fun hloc => (others_of_permits h hmutex).2 p hp (active_of_inside h.ok hloc), fun hloc => ?_⟩
  have hnext := monitor_nextCount h
  have hsplit := Finset.add_sum_erase procs (fun x => (c.loc x).signals) hp
  have hrest : 0 ≤ ∑ x ∈ procs.erase p, (c.loc x).signals := by
    refine Finset.sum_nonneg fun x _ => ?_
    unfold MonitorLoc.signals
    split <;> omega
  have hone : (c.loc p).signals = 1 := by rw [hloc]; rfl
  simp only [hone] at hsplit
  rw [nextCount_of_mutex h hmutex] at hnext
  omega

/-! ### Numbers of processes -/

theorem sum_weight (h : MonitorRuns procs c) :
    ∑ p ∈ procs, (c.loc p).weight = (procs.filter fun p => Active c p).card := by
  rw [← Finset.sum_boole]
  refine Finset.sum_congr rfl fun p _ => ?_
  by_cases hp : Active c p
  · rw [if_pos hp, hp.1]
    rfl
  · rw [if_neg hp]
    unfold MonitorLoc.weight
    split
    · exact absurd (active_of_inside h.ok (by assumption)) hp
    · rfl

omit [DecidableEq P] in
theorem sum_waitsOn (loc : P → MonitorLoc n) (i : Fin n) :
    ∑ p ∈ procs, (loc p).waitsOn i = (procs.filter fun p => loc p = .waiting i).card := by
  rw [← Finset.sum_boole]
  refine Finset.sum_congr rfl fun p _ => ?_
  cases loc p with
  | waiting j => simp only [MonitorLoc.waitsOn, MonitorLoc.waiting.injEq, eq_comm]
  | outside => simp [MonitorLoc.waitsOn]
  | entering => simp [MonitorLoc.waitsOn]
  | inside => simp [MonitorLoc.waitsOn]
  | signalling => simp [MonitorLoc.waitsOn]

omit [DecidableEq P] in
theorem sum_signals (loc : P → MonitorLoc n) :
    ∑ p ∈ procs, (loc p).signals = (procs.filter fun p => loc p = .signalling).card := by
  rw [← Finset.sum_boole]
  refine Finset.sum_congr rfl fun p _ => ?_
  cases loc p <;> simp [MonitorLoc.signals]

/-- Monitors are Hoare monitors. One process at most is active; there is one unit in the semaphores, in a grant that has
not been used, or with the active process; the counters are numbers of processes; and after a signal to a process that
waits, such a process is the next one that is active. -/
theorem monitor_hoare (h : MonitorRuns procs c) :
    (∀ p ∈ procs, ∀ q ∈ procs, Active c p → Active c q → p = q) ∧
    c.value .mutex + c.value .next + (∑ i, c.value (.cv i)) + (procs.filter fun p => (c.phase p).isGranted).card +
      (procs.filter fun p => Active c p).card = 1 ∧
    c.data.nextCount = (procs.filter fun p => c.loc p = .signalling).card ∧
    (∀ i, c.data.count i = (procs.filter fun p => c.loc p = .waiting i).card) ∧
    ∀ i c₁ c₂ c₃, Signals procs i c c₁ →
      Relation.ReflTransGen (fun a b => Step (monitorThreads P n) procs a b ∧ ∀ q ∈ procs, ¬ Active b q) c₁ c₂ →
      Step (monitorThreads P n) procs c₂ c₃ → ∀ q ∈ procs, Active c₃ q → c.loc q = .waiting i := by
  refine ⟨fun p hp q hq hpa hqa => (others_of_active h hq hqa).2 p hp hpa, ?_, ?_, fun i => ?_, ?_⟩
  · have htokens := monitor_tokens h
    have hgranted : ∑ s ∈ monitorSems n, Sems.granted procs c.toSems s = _ := Sems.sum_granted mem_monitorSems c.toSems
    have hvalues := sum_monitorSems c.value
    have hpermits : ∑ s ∈ monitorSems n, Sems.permits procs c.toSems s =
        (∑ s ∈ monitorSems n, c.value s) + ∑ s ∈ monitorSems n, Sems.granted procs c.toSems s := Finset.sum_add_distrib
    rw [sum_weight h] at htokens
    omega
  · rw [monitor_nextCount h, sum_signals]
  · rw [monitor_count h, sum_waitsOn]
  · intro i c₁ c₂ c₃ hsignal hidle hstep q hq hactive
    exact signal_next h hsignal hidle hstep hq hactive

/-- A process has entered the monitor. -/
theorem monitor_hoare_enter :
    ∃ c : MonitorConfig ℕ 1, MonitorRuns {0} c ∧ Active c 0 ∧
      c.value .mutex + c.value .next + (∑ i, c.value (.cv i)) +
        (Finset.filter (fun p => (c.phase p).isGranted) {0}).card + (Finset.filter (fun p => Active c p) {0}).card = 1 := by
  have hrun : MonitorRuns {0} _ := Relation.ReflTransGen.single
    (.take (c := monitorInit ℕ 1) 0 .mutex .entering ⟨0, fun _ => 0⟩ (Finset.mem_singleton_self 0) rfl (.enter _) (by decide))
  exact ⟨_, hrun, ⟨rfl, rfl⟩, (monitor_hoare hrun).2.1⟩

end Ucore.Sync
