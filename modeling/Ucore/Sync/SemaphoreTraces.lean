import Ucore.Sync.SemaphoreRuns

/-!
# Histories of semaphores

The runs of `Ucore.Sync.Call`s, with the events of each run in order.

* `Run` are the runs from a start. `Call.Fits` keeps the value of a semaphore within an `int`.
* `Traced` says what the events of a run tell about the queues, the processes and the values.
* `semaphores_safe` is the result. A run without `Call.Fits` can make a value negative, which `value_overflows` shows.
-/

namespace Ucore.Sync

open Ucore.Lib Ucore.Process Ucore.Sched

/-! ### Events -/

/-- The process that queues for `x`. -/
def SemEvent.queuedAt (x : ℕ) : SemEvent → Option ℕ
  | .queue y p => if y = x then some p else none
  | _ => none

/-- The process that is granted a unit of `x`. -/
def SemEvent.grantedAt (x : ℕ) : SemEvent → Option ℕ
  | .up y (some p) => if y = x then some p else none
  | _ => none

/-- The process that leaves a `down` on `x` after it has blocked. -/
def SemEvent.leftAt (x : ℕ) : SemEvent → Option ℕ
  | .leave y p => if y = x then some p else none
  | _ => none

/-- The process that gets a unit of `x` without blocking. -/
def SemEvent.passedAt (x : ℕ) : SemEvent → Option ℕ
  | .pass y p => if y = x then some p else none
  | _ => none

/-- There is an `up` on `x`. -/
def SemEvent.upAt (x : ℕ) : SemEvent → Option Unit
  | .up y _ => if y = x then some () else none
  | _ => none

/-- The processes that have queued for `x`, in this order. -/
def queuedIn (x : ℕ) (tr : List SemEvent) : List ℕ := tr.filterMap (SemEvent.queuedAt x)

/-- The processes that have been granted a unit of `x`, in this order. -/
def grantedIn (x : ℕ) (tr : List SemEvent) : List ℕ := tr.filterMap (SemEvent.grantedAt x)

/-- The processes that have left a `down` on `x` in which they had blocked. -/
def leftIn (x : ℕ) (tr : List SemEvent) : List ℕ := tr.filterMap (SemEvent.leftAt x)

/-- How many `down`s on `x` have completed or been granted: those that did not block, and the grants. A `down` that has
blocked completes after its grant. -/
def downsIn (x : ℕ) (tr : List SemEvent) : ℕ := (tr.filterMap (SemEvent.passedAt x)).length + (grantedIn x tr).length

/-- How many `up`s on `x` there have been. -/
def upsIn (x : ℕ) (tr : List SemEvent) : ℕ := (tr.filterMap (SemEvent.upAt x)).length

variable {s s' s₀ : SyncState} {tr : List SemEvent} {m : Sems ℕ ℕ} {e : SemEvent} {v : ℕ → ℤ} {x : ℕ}

theorem filterMap_snoc {β : Type} (f : SemEvent → Option β) (tr : List SemEvent) (e : SemEvent) :
    (tr ++ [e]).filterMap f = tr.filterMap f ++ (f e).toList := by
  rw [List.filterMap_append]
  congr 1

/-! ### What the events tell -/

/-- Processes are granted in the order in which they have queued, and each one leaves once for every grant. -/
structure Traced (tr : List SemEvent) (m : Sems ℕ ℕ) : Prop where
  idle : ∀ x, 0 < m.value x → m.queue x = []
  fifo : ∀ x, queuedIn x tr = grantedIn x tr ++ m.queue x
  once : ∀ x p, (grantedIn x tr).count p = (leftIn x tr).count p + if m.phase p = .granted x then 1 else 0

theorem int32_eq {n : ℤ} (h : -2 ^ 31 ≤ n) (h' : n < 2 ^ 31) : int32 n = n := by
  unfold int32
  apply Int.bmod_eq_of_le <;> omega

section step

variable (h : Traced tr m)
include h

/-- Events that leave the queues and the processes alone. -/
theorem Traced.mute {value : ℕ → ℤ} (he : ∀ y, e.queuedAt y = none ∧ e.grantedAt y = none ∧ e.leftAt y = none)
    (hidle : ∀ y, 0 < value y → m.queue y = []) : Traced (tr ++ [e]) { m with value := value } := by
  refine ⟨hidle, fun y => ?_, fun y p => ?_⟩
  · unfold queuedIn grantedIn
    rw [filterMap_snoc, filterMap_snoc, (he y).1, (he y).2.1, Option.toList_none, List.append_nil, List.append_nil]
    exact h.fifo y
  · unfold grantedIn leftIn
    rw [filterMap_snoc, filterMap_snoc, (he y).2.1, (he y).2.2, Option.toList_none, List.append_nil, List.append_nil]
    exact h.once y p

/-- The values of semaphores other than `x`, which has no queue, are as they were. -/
theorem Traced.idle_update (hidle : m.queue x = []) (n : ℤ) (y : ℕ) (hy : 0 < Function.update m.value x n y) :
    m.queue y = [] := by
  simp only [Function.update_apply] at hy
  split_ifs at hy with hyx
  · rw [hyx]
    exact hidle
  · exact h.idle y hy

theorem Traced.grant {q : ℕ} {l : List ℕ} (hmem : ∀ x p, p ∈ m.queue x ↔ m.phase p = .blocked x) (hqueue : m.queue x = q :: l) : Traced (tr ++ [.up x (some q)]) (m.up x) := by
  have hblocked : m.phase q = .blocked x := by
    rw [← hmem, hqueue]
    exact List.mem_cons_self
  rw [Sems.up_of_cons hqueue]
  refine ⟨fun y hy => ?_, fun y => ?_, fun y p => ?_⟩
  · have hold := h.idle y hy
    simp only [Function.update_apply]
    split_ifs with hyx
    · rw [hyx, hqueue] at hold
      cases hold
    · exact hold
  · have hold := h.fifo y
    unfold queuedIn grantedIn at hold ⊢
    rw [filterMap_snoc, filterMap_snoc]
    simp only [SemEvent.queuedAt, SemEvent.grantedAt, Function.update_apply, Option.toList_none, List.append_nil]
    by_cases hyx : y = x
    · rw [if_pos hyx.symm, if_pos hyx, hold, hyx, hqueue, Option.toList_some, List.append_assoc, List.singleton_append]
    · rw [if_neg (Ne.symm hyx), if_neg hyx, hold, Option.toList_none, List.append_nil]
  · have hold := h.once y p
    unfold grantedIn leftIn at hold ⊢
    rw [filterMap_snoc, filterMap_snoc]
    simp only [SemEvent.grantedAt, SemEvent.leftAt, Function.update_apply, Option.toList_none, List.append_nil,
      List.count_append]
    by_cases hpq : p = q
    · rw [if_pos hpq, hold, hpq, hblocked]
      by_cases hyx : y = x
      · simp [hyx]
      · simp [Ne.symm hyx]
    · rw [if_neg hpq, hold]
      by_cases hyx : y = x
      · simp [hyx, Ne.symm hpq]
      · simp [Ne.symm hyx]

theorem Traced.block {q : ℕ} (hvalue : ¬ 0 < m.value x) (hq : m.phase q = .runs) :
    Traced (tr ++ [.queue x q]) (m.block x q) := by
  refine ⟨fun y hy => ?_, fun y => ?_, fun y p => ?_⟩
  · simp only [Sems.block, Function.update_apply]
    rw [if_neg (by rintro rfl; exact hvalue hy)]
    exact h.idle y hy
  · have hold := h.fifo y
    unfold queuedIn grantedIn at hold ⊢
    rw [filterMap_snoc, filterMap_snoc]
    simp only [SemEvent.queuedAt, SemEvent.grantedAt, Sems.block, Function.update_apply, Option.toList_none,
      List.append_nil]
    by_cases hyx : y = x
    · rw [if_pos hyx.symm, if_pos hyx, hold, hyx, Option.toList_some, List.append_assoc]
    · rw [if_neg (Ne.symm hyx), if_neg hyx, hold, Option.toList_none, List.append_nil]
  · have hold := h.once y p
    unfold grantedIn leftIn at hold ⊢
    rw [filterMap_snoc, filterMap_snoc]
    simp only [SemEvent.grantedAt, SemEvent.leftAt, Sems.block, Function.update_apply, Option.toList_none,
      List.append_nil]
    rw [hold]
    by_cases hpq : p = q
    · rw [if_pos hpq, hpq, hq]
      simp
    · rw [if_neg hpq]

theorem Traced.leave {q : ℕ} (hq : m.phase q = .granted x) : Traced (tr ++ [.leave x q]) (m.wake q) := by
  refine ⟨h.idle, fun y => ?_, fun y p => ?_⟩
  · have hold := h.fifo y
    unfold queuedIn grantedIn at hold ⊢
    rw [filterMap_snoc, filterMap_snoc]
    simp only [SemEvent.queuedAt, SemEvent.grantedAt, Option.toList_none, List.append_nil]
    exact hold
  · have hold := h.once y p
    unfold grantedIn leftIn at hold ⊢
    rw [filterMap_snoc, filterMap_snoc]
    simp only [SemEvent.grantedAt, SemEvent.leftAt, Sems.wake, Function.update_apply, Option.toList_none, List.append_nil,
      List.count_append]
    rw [hold]
    by_cases hpq : p = q
    · rw [if_pos hpq, hpq, hq]
      by_cases hyx : y = x
      · simp [hyx]
      · simp [Ne.symm hyx]
    · rw [if_neg hpq]
      by_cases hyx : y = x
      · simp [hyx, Ne.symm hpq]
      · simp [Ne.symm hyx]

theorem Traced.event (hmem : ∀ x p, p ∈ m.queue x ↔ m.phase p = .blocked x) (he : e.Possible m) : Traced (tr ++ [e]) (e.apply m) := by
  cases e with
  | up x granted =>
    cases hqueue : m.queue x with
    | nil =>
      rw [SemEvent.Possible, hqueue] at he
      rw [he]
      exact h.mute (fun y => ⟨rfl, rfl, rfl⟩) (h.idle_update hqueue _)
    | cons q l =>
      rw [SemEvent.Possible, hqueue] at he
      rw [he]
      exact h.grant hmem hqueue
  | pass x p => exact h.mute (fun y => ⟨rfl, rfl, rfl⟩) (h.idle_update (h.idle x he) _)
  | queue x p => exact h.block he.1 he.2
  | leave x p => exact h.leave he
  | other => exact h.mute (fun y => ⟨rfl, rfl, rfl⟩) h.idle

end step

/-! ### Values -/

/-- An event that does not take a value out of the range of an `int`. -/
def SemEvent.Fits (m : Sems ℕ ℕ) : SemEvent → Prop
  | .up x none => m.value x < 2 ^ 31 - 1
  | _ => True

/-- The units are those at the start and those added since. -/
structure Balanced (v : ℕ → ℤ) (tr : List SemEvent) (m : Sems ℕ ℕ) : Prop where
  ok : m.Ok
  small : ∀ x, m.value x < 2 ^ 31
  balance : ∀ x, m.value x + downsIn x tr = v x + upsIn x tr

theorem downsIn_snoc (x : ℕ) (tr : List SemEvent) (e : SemEvent) :
    downsIn x (tr ++ [e]) = downsIn x tr + (e.passedAt x).toList.length + (e.grantedAt x).toList.length := by
  unfold downsIn grantedIn
  rw [filterMap_snoc, filterMap_snoc, List.length_append, List.length_append]
  omega

theorem upsIn_snoc (x : ℕ) (tr : List SemEvent) (e : SemEvent) :
    upsIn x (tr ++ [e]) = upsIn x tr + (e.upAt x).toList.length := by
  unfold upsIn
  rw [filterMap_snoc, List.length_append]

/-- An event that neither uses nor adds a unit. -/
theorem Balanced.balance_mute (h : Balanced v tr m)
    (he : ∀ y, e.passedAt y = none ∧ e.grantedAt y = none ∧ e.upAt y = none) (y : ℕ) :
    m.value y + downsIn y (tr ++ [e]) = v y + upsIn y (tr ++ [e]) := by
  have := h.balance y
  rw [downsIn_snoc, upsIn_snoc, (he y).1, (he y).2.1, (he y).2.2, Option.toList_none, Option.toList_none, List.length_nil]
  omega

/-- Without overflow, an event is an operation on semaphores. -/
theorem Balanced.event (h : Balanced v tr m) (he : e.Possible m) (hfits : e.Fits m) :
    Balanced v (tr ++ [e]) (e.apply m) := by
  have hbalance := h.balance
  cases e with
  | up x granted =>
    have hok := h.ok.up x
    cases hqueue : m.queue x with
    | nil =>
      rw [SemEvent.Possible, hqueue] at he
      subst he
      have hroom : m.value x < 2 ^ 31 - 1 := hfits
      have hnonneg := h.ok.nonneg x
      have hint : int32 (m.value x + 1) = m.value x + 1 := int32_eq (by omega) (by omega)
      have happly : SemEvent.apply m (.up x none) = { m with value := Function.update m.value x (m.value x + 1) } := by
        rw [SemEvent.apply, hint]
      rw [Sems.up_of_nil hqueue] at hok
      show Balanced v (tr ++ [.up x none]) (SemEvent.apply m (.up x none))
      rw [happly]
      refine ⟨hok, fun y => ?_, fun y => ?_⟩
      · have := h.small y
        simp only [Function.update_apply]
        split_ifs <;> omega
      · have := hbalance y
        rw [downsIn_snoc, upsIn_snoc]
        simp only [SemEvent.passedAt, SemEvent.grantedAt, SemEvent.upAt, Function.update_apply, Option.toList_none,
          List.length_nil]
        by_cases hy : y = x
        · subst hy
          rw [if_pos rfl, if_pos rfl, Option.toList_some, List.length_singleton]
          omega
        · rw [if_neg hy, if_neg (Ne.symm hy), Option.toList_none, List.length_nil]
          omega
    | cons q l =>
      rw [SemEvent.Possible, hqueue] at he
      subst he
      show Balanced v (tr ++ [.up x (some q)]) (m.up x)
      have hvalue : (m.up x).value = m.value := by rw [Sems.up_of_cons hqueue]
      refine ⟨hok, fun y => ?_, fun y => ?_⟩
      · rw [hvalue]
        exact h.small y
      · have := hbalance y
        rw [hvalue, downsIn_snoc, upsIn_snoc]
        simp only [SemEvent.passedAt, SemEvent.grantedAt, SemEvent.upAt, Option.toList_none, List.length_nil]
        split_ifs
        · rw [Option.toList_some, Option.toList_some, List.length_singleton, List.length_singleton]
          omega
        · rw [Option.toList_none, Option.toList_none, List.length_nil, List.length_nil]
          omega
  | pass x p =>
    have hpos : 0 < m.value x := he
    have hsmall := h.small x
    have hint : int32 (m.value x - 1) = m.value x - 1 := int32_eq (by omega) (by omega)
    have happly : SemEvent.apply m (.pass x p) = m.take x := by rw [SemEvent.apply, hint, Sems.take]
    rw [happly]
    refine ⟨h.ok.take hpos, fun y => ?_, fun y => ?_⟩
    · have := h.small y
      simp only [Sems.take, Function.update_apply]
      split_ifs <;> omega
    · have := hbalance y
      rw [downsIn_snoc, upsIn_snoc]
      simp only [SemEvent.passedAt, SemEvent.grantedAt, SemEvent.upAt, Sems.take, Function.update_apply,
        Option.toList_none, List.length_nil]
      by_cases hy : y = x
      · subst hy
        rw [if_pos rfl, if_pos rfl, Option.toList_some, List.length_singleton]
        omega
      · rw [if_neg hy, if_neg (Ne.symm hy), Option.toList_none, List.length_nil]
        omega
  | queue x p => exact ⟨h.ok.block he.1 he.2, h.small, h.balance_mute fun y => ⟨rfl, rfl, rfl⟩⟩
  | leave x p => exact ⟨h.ok.wake he, h.small, h.balance_mute fun y => ⟨rfl, rfl, rfl⟩⟩
  | other => exact ⟨h.ok, h.small, h.balance_mute fun y => ⟨rfl, rfl, rfl⟩⟩

/-! ### Runs -/

/-- The runs from `s₀` in which every call has the property `P` in the state before it, with their events. -/
inductive Run (P : SyncState → Call → Prop) (s₀ : SyncState) : List SemEvent → SyncState → Prop where
  | start : Run P s₀ [] s₀
  | call {tr : List SemEvent} {s s' : SyncState} (c : Call) (hrun : Run P s₀ tr s) (hc : c.Enabled s) (hP : P s c)
    (hexec : c.exec.run s = .ok () s') : Run P s₀ (tr ++ [c.event s]) s'

/-- The call does not increment a value that is `INT_MAX`. -/
def Call.Fits (s : SyncState) (c : Call) : Prop :=
  ∀ p x, c = .up p x → s.queue (.sem x) = [] → s.value x < 2 ^ 31 - 1

/-- The semaphores have been initialised with the values `v`, and no process sleeps. -/
structure Start (v : ℕ → ℤ) (s : SyncState) : Prop where
  value : s.value = v
  range : ∀ x, 0 ≤ v x ∧ v x < 2 ^ 31
  queue : ∀ q, s.queue q = []
  timers : s.timers = []
  awake : ∀ p, (s.Running p ∨ (s.proc p).site = .unborn) ∧ (s.proc p).waitState = 0

theorem Start.inv (h : Start v s) : Inv s := by
  have hsite : ∀ p q, (s.proc p).site ≠ .waiting q := by
    rintro p q hsite
    rcases (h.awake p).1 with hp | hp
    · exact hp.site q hsite
    · rw [hp] at hsite
      cases hsite
  refine ⟨fun p => ?_, fun q => ?_, fun q p => ?_, fun p hp => ?_, ?_⟩
  · obtain ⟨hp | hp, hw⟩ := h.awake p
    · unfold SyncProc.Good
      rw [hp.2]
      exact ⟨hp.1, hw⟩
    · unfold SyncProc.Good
      rw [hp]
      exact hw
  · rw [h.queue]
    exact List.nodup_nil
  · rw [h.queue]
    constructor
    · intro hp
      cases hp
    · rintro ⟨hq, -⟩
      exact absurd hq (hsite p q)
  · rw [h.timers] at hp
    cases hp
  · rw [h.timers]
    exact List.nodup_nil

theorem Start.phase (h : Start v s) (p : ℕ) : (s.proc p).phase = .runs := by
  apply phase_of_site
  intro x hsite
  rcases (h.awake p).1 with hp | hp
  · exact hp.site _ hsite
  · rw [hp] at hsite
    cases hsite

theorem Start.traced (h : Start v s) : Traced [] s.sems := by
  refine ⟨fun y _ => h.queue _, fun y => ?_, fun y p => ?_⟩
  · show [] = [] ++ s.queue (.sem y)
    rw [h.queue]
    rfl
  · show 0 = 0 + if (s.proc p).phase = .granted y then 1 else 0
    rw [h.phase, if_neg fun h => by (cases h)]

theorem Start.balanced (h : Start v s) : Balanced v [] s.sems := by
  have hrange := h.range
  rw [← h.value] at hrange
  refine ⟨⟨fun y => (hrange y).1, fun y _ => h.queue _, fun y => h.inv.nodup _, fun y p => h.inv.mem_phase y p⟩,
    fun y => (hrange y).2, fun y => ?_⟩
  show s.value y + 0 = v y + 0
  rw [h.value]

variable {P : SyncState → Call → Prop}

/-- What holds after every run. -/
theorem Run.traced (hrun : Run P s₀ tr s) (h : Start v s₀) : Inv s ∧ Traced tr s.sems := by
  induction hrun with
  | start => exact ⟨h.inv, h.traced⟩
  | call c _ hc _ hexec ih =>
    obtain ⟨s₁, hrun₁, hinv, hsems, hpossible⟩ := call_does ih.1 hc
    rw [hexec] at hrun₁
    cases hrun₁
    rw [hsems]
    exact ⟨hinv, ih.2.event (fun x p => ih.1.mem_phase x p) hpossible⟩

theorem Call.Fits.event {c : Call} (h : c.Fits s) : (c.event s).Fits s.sems := by
  cases c with
  | up p x =>
    show SemEvent.Fits s.sems (.up x (s.queue (.sem x)).head?)
    cases hqueue : s.queue (.sem x) with
    | nil => exact h p x rfl hqueue
    | cons q l => exact trivial
  | down p x =>
    show SemEvent.Fits s.sems (if s.value x > 0 then .pass x p else .queue x p)
    split_ifs <;> exact trivial
  | tryDown p x =>
    show SemEvent.Fits s.sems (if s.value x > 0 then .pass x p else .other)
    split_ifs <;> exact trivial
  | resume p =>
    show SemEvent.Fits s.sems (resumeEvent p (s.proc p).site)
    unfold resumeEvent
    split <;> exact trivial
  | kill p q => exact trivial
  | sleep p => exact trivial
  | timer q => exact trivial
  | wait p => exact trivial
  | read p => exact trivial
  | write => exact trivial
  | exit p l => exact trivial
  | fork p q => exact trivial

/-- What holds after every run without overflow. -/
theorem Run.balanced (hrun : Run Call.Fits s₀ tr s) (h : Start v s₀) : Balanced v tr s.sems := by
  induction hrun with
  | start => exact h.balanced
  | call c hbefore hc hfits hexec ih =>
    obtain ⟨s₁, hrun₁, -, hsems, hpossible⟩ := call_does (hbefore.traced h).1 hc
    rw [hexec] at hrun₁
    cases hrun₁
    rw [hsems]
    exact ih.event hpossible hfits.event

/-- Semaphores are safe under `do_kill`, timers, exits of children and input. In every state that is reached: a semaphore
with units has no queue; processes are granted in the order in which they have queued; each process has left `down` once
for each grant, but for a grant that it has not resumed from; and no call can fail an assertion. As long as no `up` finds
the value `INT_MAX`, no value is negative, and the units are those at the start and those added. -/
theorem semaphores_safe (h : Start v s₀) :
    (∀ tr s, Run (fun _ _ => True) s₀ tr s →
      (∀ x, 0 < s.value x → s.queue (.sem x) = []) ∧
      (∀ x, queuedIn x tr = grantedIn x tr ++ s.queue (.sem x)) ∧
      (∀ x p, (grantedIn x tr).count p = (leftIn x tr).count p + if (s.proc p).phase = .granted x then 1 else 0) ∧
      (∀ c : Call, c.Enabled s → ∃ s', c.exec.run s = .ok () s')) ∧
    ∀ tr s, Run Call.Fits s₀ tr s → ∀ x, 0 ≤ s.value x ∧ s.value x + downsIn x tr = v x + upsIn x tr := by
  refine ⟨fun tr s hrun => ?_, fun tr s hrun x => ?_⟩
  · obtain ⟨hinv, htraced⟩ := hrun.traced h
    refine ⟨htraced.idle, htraced.fifo, htraced.once, fun c hc => ?_⟩
    obtain ⟨s', hexec, -⟩ := call_does hinv hc
    exact ⟨s', hexec⟩
  · have hbalanced := hrun.balanced h
    exact ⟨hbalanced.ok.nonneg x, hbalanced.balance x⟩

/-- One process, and semaphores with the value `n`. -/
def oneProcess (n : ℤ) : SyncState where
  proc p := ⟨.runnable, 0, false, ⟨0, none⟩, if p = 0 then .running else .unborn⟩
  value _ := n
  queue _ := []
  timers := []

theorem oneProcess_start {n : ℤ} (h : 0 ≤ n ∧ n < 2 ^ 31) : Start (fun _ => n) (oneProcess n) := by
  refine ⟨rfl, fun _ => h, fun _ => rfl, rfl, fun p => ⟨?_, rfl⟩⟩
  unfold SyncState.Running oneProcess
  by_cases hp : p = 0
  · exact .inl ⟨rfl, if_pos hp⟩
  · exact .inr (if_neg hp)

theorem semaphores_safe_one :
    Start (fun _ => 0) (oneProcess 0) ∧
      ∀ tr s, Run Call.Fits (oneProcess 0) tr s → ∀ x, 0 ≤ s.value x ∧ s.value x + downsIn x tr = 0 + upsIn x tr :=
  ⟨oneProcess_start (by omega), (semaphores_safe (oneProcess_start (by omega))).2⟩

/-- An `up` on a semaphore with the value `INT_MAX` makes the value negative. -/
theorem value_overflows :
    ¬ ∀ (v : ℕ → ℤ) (s₀ : SyncState), Start v s₀ → ∀ tr s, Run (fun _ _ => True) s₀ tr s → ∀ x, 0 ≤ s.value x := by
  intro h
  have hrun : Run (fun _ _ => True) (oneProcess (2 ^ 31 - 1)) _ ((oneProcess (2 ^ 31 - 1)).setValue 0 (2 ^ 31)) :=
    .call (.up 0 0) .start ⟨rfl, rfl⟩ trivial rfl
  have hvalue := h _ _ (oneProcess_start (by omega)) _ _ hrun 0
  have hnegative : ((oneProcess (2 ^ 31 - 1)).setValue 0 (2 ^ 31)).value 0 = -2 ^ 31 := by decide
  rw [hnegative] at hvalue
  omega

end Ucore.Sync
