import Mathlib.Algebra.BigOperators.Ring.Finset
import Mathlib.Algebra.Group.Int.Defs
import Mathlib.Algebra.Order.BigOperators.Group.Finset
import Mathlib.Algebra.Order.Group.Int
import Mathlib.Data.Int.Basic
import Mathlib.Logic.Function.Basic
import Mathlib.Tactic.Common

/-!
# Semaphores

Counting semaphores with queues, over arbitrary types of threads and semaphores. A thread that finds no unit waits in the
queue; the thread that adds a unit hands it to the first one of the queue, which may go on later.

* `Sems` is the state of all semaphores, with the phase of each thread. `up`, `take`, `block` and `wake` are the
  operations.
* `Sems.Ok` is the invariant: no value is negative, a semaphore with units has no queue, and the queues are the blocked
  threads. Every operation keeps it.
* `Sems.permits` counts the units of a semaphore, those included that a thread has been given and has not used yet.
  `up` adds one, `take` and `wake` use one, and `block` leaves them alone.
-/

namespace Ucore.Lib

/-- What a thread is doing, as far as semaphores are concerned. -/
inductive Phase (S : Type) where
  | runs
  /-- It is in the queue. -/
  | blocked (s : S)
  /-- It has been given a unit, and has not gone on. -/
  | granted (s : S)
  deriving DecidableEq

/-- Semaphores and threads. -/
@[ext]
structure Sems (P S : Type) where
  value : S → ℤ
  queue : S → List P
  phase : P → Phase S

/-- The thread has a unit. -/
def Phase.isGranted {S : Type} : Phase S → Bool
  | .granted _ => true
  | _ => false

namespace Sems

variable {P S : Type} [DecidableEq P] [DecidableEq S] {c : Sems P S} {s s' : S} {p q : P}

/-- A unit is added, or handed to the first thread of the queue. -/
def up (c : Sems P S) (s : S) : Sems P S :=
  match c.queue s with
  | [] => { c with value := Function.update c.value s (c.value s + 1) }
  | q :: l => { c with queue := Function.update c.queue s l, phase := Function.update c.phase q (.granted s) }

/-- A unit is used. -/
def take (c : Sems P S) (s : S) : Sems P S := { c with value := Function.update c.value s (c.value s - 1) }

/-- A thread goes to the end of the queue. -/
def block (c : Sems P S) (s : S) (p : P) : Sems P S :=
  { c with
    queue := Function.update c.queue s (c.queue s ++ [p])
    phase := Function.update c.phase p (.blocked s) }

/-- A thread goes on. -/
def wake (c : Sems P S) (p : P) : Sems P S := { c with phase := Function.update c.phase p .runs }

theorem up_of_nil (h : c.queue s = []) : c.up s = { c with value := Function.update c.value s (c.value s + 1) } := by
  unfold up
  rw [h]

theorem up_of_cons {l : List P} (h : c.queue s = q :: l) :
    c.up s = { c with queue := Function.update c.queue s l, phase := Function.update c.phase q (.granted s) } := by
  unfold up
  rw [h]

/-! ### The invariant -/

/-- The values and the queues agree with the phases. -/
structure Ok (c : Sems P S) : Prop where
  nonneg : ∀ s, 0 ≤ c.value s
  idle : ∀ s, 0 < c.value s → c.queue s = []
  nodup : ∀ s, (c.queue s).Nodup
  mem : ∀ s p, p ∈ c.queue s ↔ c.phase p = .blocked s

theorem Ok.up (h : c.Ok) (s : S) : (c.up s).Ok := by
  cases hq : c.queue s with
  | nil =>
    rw [up_of_nil hq]
    refine ⟨fun x => ?_, fun x hx => ?_, h.nodup, h.mem⟩
    · have := h.nonneg x
      have := h.nonneg s
      simp only [Function.update_apply]
      split_ifs <;> omega
    · simp only [Function.update_apply] at hx
      split_ifs at hx with hxs
      · rw [hxs]
        exact hq
      · exact h.idle x hx
  | cons q l =>
    have hnodup := h.nodup s
    rw [hq] at hnodup
    have hblocked : c.phase q = .blocked s := (h.mem s q).mp (by rw [hq]; exact List.mem_cons_self)
    rw [up_of_cons hq]
    refine ⟨h.nonneg, fun x hx => ?_, fun x => ?_, fun x p => ?_⟩
    · simp only [Function.update_apply]
      split_ifs with hxs
      · have := h.idle x hx
        rw [hxs, hq] at this
        exact absurd this (List.cons_ne_nil q l)
      · exact h.idle x hx
    · simp only [Function.update_apply]
      split_ifs
      · exact hnodup.of_cons
      · exact h.nodup x
    · simp only [Function.update_apply]
      by_cases hpq : p = q
      · subst hpq
        rw [if_pos rfl]
        split_ifs with hxs
        · simp [(List.nodup_cons.mp hnodup).1]
        · rw [h.mem x p, hblocked]
          simp [Ne.symm hxs]
      · rw [if_neg hpq]
        split_ifs with hxs
        · rw [hxs, ← h.mem s p, hq, List.mem_cons]
          simp [hpq]
        · exact h.mem x p

omit [DecidableEq P] in
theorem Ok.take (h : c.Ok) (hpos : 0 < c.value s) : (c.take s).Ok := by
  refine ⟨fun x => ?_, fun x hx => ?_, h.nodup, h.mem⟩
  · have := h.nonneg x
    simp only [Sems.take, Function.update_apply]
    split_ifs <;> omega
  · simp only [Sems.take, Function.update_apply] at hx
    split_ifs at hx with hxs
    · rw [hxs]
      exact h.idle s hpos
    · exact h.idle x hx

theorem Ok.block (h : c.Ok) (hs : ¬ 0 < c.value s) (hp : c.phase p = .runs) : (c.block s p).Ok := by
  have hfree : ∀ x, p ∉ c.queue x := by
    intro x hx
    rw [h.mem, hp] at hx
    cases hx
  refine ⟨h.nonneg, fun x hx => ?_, fun x => ?_, fun x y => ?_⟩
  · simp only [Sems.block, Function.update_apply]
    rw [if_neg (by rintro rfl; exact hs hx)]
    exact h.idle x hx
  · simp only [Sems.block, Function.update_apply]
    split_ifs
    · exact List.Nodup.append (h.nodup s) (List.nodup_singleton p) (List.disjoint_singleton.mpr (hfree s))
    · exact h.nodup x
  · simp only [Sems.block, Function.update_apply]
    by_cases hy : y = p
    · subst hy
      rw [if_pos rfl]
      split_ifs with hxs
      · simp [hxs]
      · simp [hfree x, Ne.symm hxs]
    · rw [if_neg hy]
      split_ifs with hxs
      · rw [hxs, ← h.mem s y]
        simp [hy]
      · exact h.mem x y

omit [DecidableEq S] in
theorem Ok.wake (h : c.Ok) (hp : c.phase p = .granted s) : (c.wake p).Ok := by
  refine ⟨h.nonneg, h.idle, h.nodup, fun x y => ?_⟩
  simp only [Sems.wake, Function.update_apply]
  split_ifs with hy
  · rw [hy, h.mem, hp]
    simp
  · exact h.mem x y

/-! ### The units -/

/-- A sum over threads of which one has changed. -/
theorem sum_update {A : Type} {procs : Finset P} (f : P → A) (w : A → ℤ) (b : A) (hp : p ∈ procs) :
    ∑ x ∈ procs, w (Function.update f p b x) = (∑ x ∈ procs, w (f x)) + w b - w (f p) := by
  have hsplit := Finset.add_sum_erase procs (fun x => w (f x)) hp
  have hsplit' := Finset.add_sum_erase procs (fun x => w (Function.update f p b x)) hp
  have hrest : ∑ x ∈ procs.erase p, w (Function.update f p b x) = ∑ x ∈ procs.erase p, w (f x) := by
    refine Finset.sum_congr rfl fun x hx => ?_
    rw [Function.update_of_ne (Finset.ne_of_mem_erase hx)]
  simp only [Function.update_self] at hsplit'
  omega

/-- 1 for a thread that has a unit of `s`, 0 for the others. -/
def unit (s : S) (x : Phase S) : ℤ := if x = .granted s then 1 else 0

@[simp] theorem unit_runs (s : S) : unit s .runs = 0 := if_neg fun h => by (cases h)

@[simp] theorem unit_blocked (s x : S) : unit s (.blocked x) = 0 := if_neg fun h => by (cases h)

@[simp] theorem unit_granted (s x : S) : unit s (.granted x) = if s = x then 1 else 0 := by
  unfold unit
  simp only [Phase.granted.injEq, eq_comm]

theorem unit_nonneg (s : S) (x : Phase S) : 0 ≤ unit s x := by
  unfold unit
  split_ifs <;> omega

/-- The threads that have been given a unit and have not gone on. -/
def granted (procs : Finset P) (c : Sems P S) (s : S) : ℤ := ∑ p ∈ procs, unit s (c.phase p)

/-- The units of a semaphore. -/
def permits (procs : Finset P) (c : Sems P S) (s : S) : ℤ := c.value s + granted procs c s

section permits

variable {procs : Finset P}

omit [DecidableEq P] in
theorem granted_nonneg (c : Sems P S) (s : S) : 0 ≤ granted procs c s :=
  Finset.sum_nonneg fun p _ => unit_nonneg s (c.phase p)

/-- A thread that has a unit counts. -/
theorem granted_pos (hmem : p ∈ procs) (hp : c.phase p = .granted s) : 1 ≤ granted procs c s := by
  have hsplit := Finset.add_sum_erase procs (fun x => unit s (c.phase x)) hmem
  have hrest : 0 ≤ ∑ x ∈ procs.erase p, unit s (c.phase x) :=
    Finset.sum_nonneg fun x _ => unit_nonneg s (c.phase x)
  have hone : unit s (c.phase p) = 1 := if_pos hp
  simp only [hone] at hsplit
  unfold granted
  omega

omit [DecidableEq P] in
theorem Ok.permits_nonneg (h : c.Ok) (s : S) : 0 ≤ permits procs c s := by
  have := h.nonneg s
  have : 0 ≤ granted procs c s := granted_nonneg c s
  unfold permits
  omega

omit [DecidableEq P] in
/-- A unit that can be used counts. -/
theorem permits_pos (hs : 0 < c.value s) : 1 ≤ permits procs c s := by
  have : 0 ≤ granted procs c s := granted_nonneg c s
  unfold permits
  omega

/-- A unit that a thread has been given counts. -/
theorem Ok.permits_pos_of_granted (h : c.Ok) (hmem : p ∈ procs) (hp : c.phase p = .granted s) : 1 ≤ permits procs c s := by
  have := h.nonneg s
  have := granted_pos hmem hp
  unfold permits
  omega

theorem permits_up (h : c.Ok) (hq : ∀ s, ∀ p ∈ c.queue s, p ∈ procs) (s s' : S) :
    permits procs (c.up s) s' = permits procs c s' + if s' = s then 1 else 0 := by
  cases hqueue : c.queue s with
  | nil =>
    rw [up_of_nil hqueue]
    simp only [permits, granted, Function.update_apply]
    split_ifs with hs
    · subst hs
      omega
    · omega
  | cons q l =>
    have hmem : q ∈ c.queue s := by
      rw [hqueue]
      exact List.mem_cons_self
    have hblocked := (h.mem s q).mp hmem
    rw [up_of_cons hqueue]
    simp only [permits, granted]
    rw [sum_update c.phase (unit s') (.granted s) (hq s q hmem), hblocked, unit_blocked, unit_granted]
    omega

omit [DecidableEq P] in
theorem permits_take (c : Sems P S) (s s' : S) :
    permits procs (c.take s) s' = permits procs c s' - if s' = s then 1 else 0 := by
  simp only [permits, granted, take, Function.update_apply]
  split_ifs with hs
  · subst hs
    omega
  · omega

theorem permits_block (hp : c.phase p = .runs) (s s' : S) : permits procs (c.block s p) s' = permits procs c s' := by
  simp only [permits, granted, block]
  by_cases hmem : p ∈ procs
  · rw [sum_update c.phase (unit s') (.blocked s) hmem, hp, unit_blocked, unit_runs]
    omega
  · have hrest : ∑ x ∈ procs, unit s' (Function.update c.phase p (.blocked s) x) = ∑ x ∈ procs, unit s' (c.phase x) := by
      refine Finset.sum_congr rfl fun x hx => ?_
      rw [Function.update_of_ne (ne_of_mem_of_not_mem hx hmem)]
    omega

theorem permits_wake (hmem : p ∈ procs) (hp : c.phase p = .granted s) (s' : S) :
    permits procs (c.wake p) s' = permits procs c s' - if s' = s then 1 else 0 := by
  simp only [permits, granted, wake]
  rw [sum_update c.phase (unit s') .runs hmem, hp, unit_granted, unit_runs]
  omega

omit [DecidableEq P] in
/-- The threads that have a unit of one of the semaphores `ss`, which are all. -/
theorem sum_granted {ss : Finset S} (hss : ∀ s, s ∈ ss) (c : Sems P S) :
    ∑ s ∈ ss, granted procs c s = (procs.filter fun p => (c.phase p).isGranted).card := by
  unfold granted
  rw [Finset.sum_comm, ← Finset.sum_boole]
  refine Finset.sum_congr rfl fun p _ => ?_
  cases c.phase p with
  | runs => simp [Phase.isGranted]
  | blocked s => simp [Phase.isGranted]
  | granted s => simp [Phase.isGranted, hss s]

end permits

end Sems

end Ucore.Lib
