import Ucore.Lib.Threads

/-!
# Dining philosophers

The philosophers of `kern/sync/check_sync.c` at a table of any size, with semaphores. The version with condition variables
is in `Ucore.Sync.PhilosophersMonitor`.

* `left` and `right` are the neighbours, `PhiState` is what a philosopher does, and `CanEat` the test that both versions
  make. The lemmas `canEat_set_…` say for whom the test changes when one philosopher changes.
* `PhiLoc` are the places in `phi_take_forks_sema` and `phi_put_forks_sema`, `philosophers` is the program.
* `PhiInv` is what every run keeps, and `philosophers_sema` what follows for the philosophers.
-/

namespace Ucore.Sync

open Ucore.Lib

/-- What a philosopher does. -/
inductive PhiState where
  | thinking | hungry | eating
  deriving Repr, DecidableEq

section ring

variable {N : ℕ}

/-- `LEFT` -/
def left (i : Fin N) : Fin N := ⟨(i.val + N - 1) % N, Nat.mod_lt _ (Nat.zero_lt_of_lt i.isLt)⟩

/-- `RIGHT` -/
def right (i : Fin N) : Fin N := ⟨(i.val + 1) % N, Nat.mod_lt _ (Nat.zero_lt_of_lt i.isLt)⟩

theorem right_val (i : Fin N) : (right i).val = if i.val + 1 = N then 0 else i.val + 1 := by
  have hi := i.isLt
  show (i.val + 1) % N = _
  split_ifs with h
  · rw [h, Nat.mod_self]
  · exact Nat.mod_eq_of_lt (by omega)

theorem left_val (i : Fin N) : (left i).val = if i.val = 0 then N - 1 else i.val - 1 := by
  have hi := i.isLt
  show (i.val + N - 1) % N = _
  split_ifs with h
  · rw [h, Nat.zero_add]
    exact Nat.mod_eq_of_lt (by omega)
  · rw [show i.val + N - 1 = (i.val - 1) + N by omega, Nat.add_mod_right]
    exact Nat.mod_eq_of_lt (by omega)

theorem right_left (i : Fin N) : right (left i) = i := by
  have hr := right_val (left i)
  have hl := left_val i
  have hi := i.isLt
  apply Fin.ext
  split_ifs at hr hl <;> omega

theorem left_right (i : Fin N) : left (right i) = i := by
  have hl := left_val (right i)
  have hr := right_val i
  have hi := i.isLt
  apply Fin.ext
  split_ifs at hr hl <;> omega

theorem right_ne (hN : 2 ≤ N) (i : Fin N) : right i ≠ i := by
  intro h
  have hr := right_val i
  rw [h] at hr
  split_ifs at hr <;> omega

/-- The test of `phi_test_sema` and `phi_test_condvar`. -/
def CanEat (d : Fin N → PhiState) (i : Fin N) : Prop := d i = .hungry ∧ d (left i) ≠ .eating ∧ d (right i) ≠ .eating

instance (d : Fin N → PhiState) (i : Fin N) : Decidable (CanEat d i) := inferInstanceAs (Decidable (_ ∧ _ ∧ _))

/-- No two neighbours eat. -/
def Apart (d : Fin N → PhiState) : Prop := ∀ i, d i = .eating → d (right i) ≠ .eating

variable {d : Fin N → PhiState} {i j : Fin N}

theorem Apart.set (h : Apart d) {x : PhiState} (hx : x ≠ .eating) (i : Fin N) : Apart (Function.update d i x) := by
  intro j hj
  simp only [Function.update_apply] at hj ⊢
  split_ifs at hj with hji
  · exact absurd hj hx
  · split_ifs
    · exact hx
    · exact h j hj

theorem Apart.set_eating (h : Apart d) (hN : 2 ≤ N) (hi : CanEat d i) : Apart (Function.update d i .eating) := by
  obtain ⟨-, hleft, hright⟩ := hi
  intro j hj
  by_cases hji : j = i
  · rw [hji, Function.update_of_ne (right_ne hN i)]
    exact hright
  · rw [Function.update_of_ne hji] at hj
    by_cases hri : right j = i
    · rw [← hri, left_right] at hleft
      exact absurd hj hleft
    · rw [Function.update_of_ne hri]
      exact h j hj

theorem Apart.neighbours (h : Apart d) (i : Fin N) (hi : d i = .eating) :
    d (left i) ≠ .eating ∧ d (right i) ≠ .eating := by
  refine ⟨fun hleft => ?_, h i hi⟩
  have hright := h (left i) hleft
  rw [right_left] at hright
  exact hright hi

theorem canEat_set_hungry (hi : d i ≠ .eating) (h : CanEat (Function.update d i .hungry) j) : j = i ∨ CanEat d j := by
  obtain ⟨hj, hleft, hright⟩ := h
  by_cases hji : j = i
  · exact .inl hji
  · rw [Function.update_of_ne hji] at hj
    refine .inr ⟨hj, ?_, ?_⟩
    · by_cases hl : left j = i
      · rw [hl]
        exact hi
      · rwa [Function.update_of_ne hl] at hleft
    · by_cases hr : right j = i
      · rw [hr]
        exact hi
      · rwa [Function.update_of_ne hr] at hright

theorem canEat_set_eating (h : CanEat (Function.update d i .eating) j) : j ≠ i ∧ CanEat d j := by
  obtain ⟨hj, hleft, hright⟩ := h
  have hji : j ≠ i := by
    rintro rfl
    rw [Function.update_self] at hj
    cases hj
  rw [Function.update_of_ne hji] at hj
  refine ⟨hji, hj, ?_, ?_⟩
  · by_cases hl : left j = i
    · rw [hl, Function.update_self] at hleft
      exact absurd rfl hleft
    · rwa [Function.update_of_ne hl] at hleft
  · by_cases hr : right j = i
    · rw [hr, Function.update_self] at hright
      exact absurd rfl hright
    · rwa [Function.update_of_ne hr] at hright

theorem canEat_set_thinking (h : CanEat (Function.update d i .thinking) j) :
    j = left i ∨ j = right i ∨ CanEat d j := by
  obtain ⟨hj, hleft, hright⟩ := h
  have hji : j ≠ i := by
    rintro rfl
    rw [Function.update_self] at hj
    cases hj
  rw [Function.update_of_ne hji] at hj
  by_cases hl : left j = i
  · right
    left
    rw [← hl, right_left]
  · by_cases hr : right j = i
    · left
      rw [← hr, left_right]
    · rw [Function.update_of_ne hl] at hleft
      rw [Function.update_of_ne hr] at hright
      exact .inr (.inr ⟨hj, hleft, hright⟩)

end ring

/-! ### The program -/

/-- The semaphores. -/
inductive PhiSem (N : ℕ) where
  | mutex
  | s (i : Fin N)
  deriving DecidableEq

/-- Where a philosopher is, between two semaphore operations. -/
inductive PhiLoc where
  /-- Outside of the two functions, before `phi_take_forks_sema`. -/
  | thinking
  /-- In `down(&mutex)`. -/
  | takeEnter
  | takeIn
  /-- Before `up(&mutex)`. -/
  | takeUp
  /-- Before and in `down(&s[i])`. -/
  | takeWait
  /-- Between `phi_take_forks_sema` and `phi_put_forks_sema`. -/
  | eating
  /-- In `down(&mutex)`. -/
  | putEnter
  | putIn
  /-- Before `phi_test_sema(RIGHT)`. -/
  | putRight
  /-- Before `up(&mutex)`. -/
  | putUp
  deriving Repr, DecidableEq

section program

variable {N : ℕ}

/-- Source: `kern/sync/check_sync.c` `phi_test_sema` -/
inductive PhiTest (d : Fin N → PhiState) (i : Fin N) : SemOp (PhiSem N) → (Fin N → PhiState) → Prop where
  | eats (h : CanEat d i) : PhiTest d i (.up (.s i)) (Function.update d i .eating)
  | waits (h : ¬ CanEat d i) : PhiTest d i .skip d

/-- What the philosopher `i` calls next. Source: `kern/sync/check_sync.c` `phi_take_forks_sema` `phi_put_forks_sema` -/
inductive PhiCall (i : Fin N) :
    PhiLoc → (Fin N → PhiState) → SemOp (PhiSem N) → PhiLoc → (Fin N → PhiState) → Prop where
  | takeDown (d : Fin N → PhiState) : PhiCall i .thinking d (.down .mutex) .takeEnter d
  | take (d d' : Fin N → PhiState) (op : SemOp (PhiSem N)) (h : PhiTest (Function.update d i .hungry) i op d') :
    PhiCall i .takeIn d op .takeUp d'
  | takeUp (d : Fin N → PhiState) : PhiCall i .takeUp d (.up .mutex) .takeWait d
  | takeWait (d : Fin N → PhiState) : PhiCall i .takeWait d (.down (.s i)) .takeWait d
  | putDown (d : Fin N → PhiState) : PhiCall i .eating d (.down .mutex) .putEnter d
  | putLeft (d d' : Fin N → PhiState) (op : SemOp (PhiSem N)) (h : PhiTest (Function.update d i .thinking) (left i) op d') :
    PhiCall i .putIn d op .putRight d'
  | putRight (d d' : Fin N → PhiState) (op : SemOp (PhiSem N)) (h : PhiTest d (right i) op d') :
    PhiCall i .putRight d op .putUp d'
  | putUp (d : Fin N → PhiState) : PhiCall i .putUp d (.up .mutex) .thinking d

/-- Where the philosopher is after a `down`. -/
def phiBack : PhiLoc → PhiLoc
  | .takeEnter => .takeIn
  | .takeWait => .eating
  | .putEnter => .putIn
  | l => l

/-- The places of the three `down`s. -/
inductive PhiWaits (i : Fin N) : PhiLoc → PhiSem N → Prop where
  | take : PhiWaits i .takeEnter .mutex
  | fork : PhiWaits i .takeWait (.s i)
  | put : PhiWaits i .putEnter .mutex

/-- The philosophers. -/
def philosophers (N : ℕ) : Threads (Fin N) (PhiSem N) PhiLoc (Fin N → PhiState) where
  call := PhiCall
  back _ l d := (phiBack l, d)
  waits := PhiWaits
  waits_of_call := by
    intro i l d s l' d' h
    cases h with
    | takeDown => exact .take
    | take _ _ _ h => cases h
    | takeWait => exact .fork
    | putDown => exact .put
    | putLeft _ _ _ h => cases h
    | putRight _ _ _ h => cases h

/-- Source: `kern/sync/check_sync.c` `check_sync` -/
def philosophersInit (N : ℕ) : Config (Fin N) (PhiSem N) PhiLoc (Fin N → PhiState) where
  value s := if s = .mutex then 1 else 0
  queue _ := []
  phase _ := .runs
  loc _ := .thinking
  data _ := .thinking

/-! ### Places and states -/

/-- 1 in the critical sections. -/
def PhiLoc.critical : PhiLoc → ℤ
  | .takeIn | .takeUp | .putIn | .putRight | .putUp => 1
  | _ => 0

/-- 1 from the end of `phi_take_forks_sema` to the moment when `phi_put_forks_sema` puts the forks down. -/
def PhiLoc.holds : PhiLoc → ℤ
  | .eating | .putEnter | .putIn => 1
  | _ => 0

/-- The state of a philosopher at a place. -/
def PhiLoc.Fits (x : PhiState) : PhiLoc → Prop
  | .thinking | .takeEnter | .takeIn | .putRight | .putUp => x = .thinking
  | .takeUp | .takeWait => x ≠ .thinking
  | .eating | .putEnter | .putIn => x = .eating

/-- 1 for a philosopher that eats. -/
def isEating (d : Fin N → PhiState) (i : Fin N) : ℤ := if d i = .eating then 1 else 0

variable {d d' : Fin N → PhiState} {i j : Fin N} {op : SemOp (PhiSem N)} {l l' : PhiLoc}

theorem isEating_update (d : Fin N → PhiState) (i j : Fin N) (x : PhiState) :
    isEating (Function.update d i x) j = if j = i then (if x = .eating then 1 else 0) else isEating d j := by
  unfold isEating
  simp only [Function.update_apply]
  split_ifs <;> rfl

/-- The test makes one philosopher eat, and tells its semaphore. -/
theorem isEating_test (h : PhiTest d i op d') (j : Fin N) :
    isEating d' j = isEating d j + if op = .up (.s j) then 1 else 0 := by
  cases h with
  | eats h =>
    rw [isEating_update]
    by_cases hj : j = i
    · have hold : isEating d i = 0 := if_neg (by rw [h.1]; exact fun h => by (cases h))
      rw [if_pos hj, if_pos rfl, hj, if_pos rfl, hold]
      rfl
    · rw [if_neg hj, if_neg (fun h => hj (PhiSem.s.inj (SemOp.up.inj h)).symm), Int.add_zero]
  | waits h =>
    rw [if_neg (fun h => by (cases h)), Int.add_zero]

theorem PhiTest.apart (h : PhiTest d i op d') (hN : 2 ≤ N) (hd : Apart d) : Apart d' := by
  cases h with
  | eats h => exact hd.set_eating hN h
  | waits h => exact hd

/-- The test changes a philosopher that is hungry, if any. -/
theorem PhiTest.other (h : PhiTest d i op d') (j : Fin N) : d' j = d j ∨ (d j = .hungry ∧ d' j = .eating) := by
  cases h with
  | eats h =>
    by_cases hj : j = i
    · rw [hj, Function.update_self]
      exact .inr ⟨h.1, rfl⟩
    · rw [Function.update_of_ne hj]
      exact .inl rfl
  | waits h => exact .inl rfl

/-- After the test the philosopher cannot eat, and no one can who could not before. -/
theorem PhiTest.canEat (h : PhiTest d i op d') (hj : CanEat d' j) : j ≠ i ∧ CanEat d j := by
  cases h with
  | eats h => exact canEat_set_eating hj
  | waits h =>
    refine ⟨?_, hj⟩
    rintro rfl
    exact h hj

theorem PhiLoc.Fits.eating (h : l.Fits .hungry) : l.Fits .eating := by
  cases l <;> first | exact fun h => by (cases h) | cases h

/-! ### Units -/

theorem conserves_mutex :
    Conserves (philosophers N) (fun i l d => l.Fits (d i)) {.mutex} (fun _ => PhiLoc.critical) fun _ => 0 := by
  refine ⟨fun p l d l' d' _ h => ?_, fun p l d s l' d' _ h => ?_, fun p l d s l' d' hpre h => ?_, fun p l d s _ h => ?_⟩
  · cases h <;> rfl
  · cases h with
    | take _ _ _ h => cases h; rfl
    | takeUp => rfl
    | putLeft _ _ _ h => cases h; rfl
    | putRight _ _ _ h => cases h; rfl
    | putUp => rfl
  · cases h with
    | takeDown => exact ⟨rfl, hpre⟩
    | take _ _ _ h => cases h
    | takeWait => exact ⟨rfl, hpre⟩
    | putDown => exact ⟨rfl, hpre⟩
    | putLeft _ _ _ h => cases h
    | putRight _ _ _ h => cases h
  · cases h <;> rfl

/-- 1 for the philosopher `i` from the end of `phi_take_forks_sema` on. -/
def forkWeight (i p : Fin N) (l : PhiLoc) : ℤ := if p = i then l.holds else 0

/-- A step that changes neither the weight of the philosopher nor who eats. -/
theorem forkWeight_congr {p : Fin N} (hl : l'.holds = l.holds) : forkWeight i p l' = forkWeight i p l := by
  unfold forkWeight
  rw [hl]

/-- A unit of `s[i]` is a philosopher `i` that eats and does not know it. -/
theorem conserves_fork (i : Fin N) :
    Conserves (philosophers N) (fun p l d => l.Fits (d p)) {.s i} (forkWeight i) fun d => -isEating d i := by
  have htake : ∀ {d d' : Fin N → PhiState} {p : Fin N} {op}, PhiLoc.Fits (d p) .takeIn →
      PhiTest (Function.update d p .hungry) p op d' →
      isEating d' i = isEating d i + if op = .up (.s i) then 1 else 0 := by
    intro d d' p op hpre h
    rw [isEating_test h, isEating_update]
    by_cases hip : i = p
    · have hold : isEating d i = 0 := by
        rw [hip]
        exact if_neg (by rw [show d p = .thinking from hpre]; exact fun h => by (cases h))
      rw [if_pos hip, hold]
      rfl
    · rw [if_neg hip]
  have hput : ∀ {d d' : Fin N → PhiState} {p : Fin N} {op}, PhiLoc.Fits (d p) .putIn →
      PhiTest (Function.update d p .thinking) (left p) op d' →
      forkWeight i p .putRight - isEating d' i + (if op = .up (.s i) then 1 else 0) =
        forkWeight i p .putIn - isEating d i := by
    intro d d' p op hpre h
    rw [isEating_test h, isEating_update]
    unfold forkWeight
    by_cases hip : i = p
    · have hold : isEating d i = 1 := by
        rw [hip]
        exact if_pos hpre
      rw [if_pos hip, if_pos hip.symm, if_pos hip.symm, hold]
      simp only [PhiLoc.holds, reduceCtorEq, ↓reduceIte]
      omega
    · rw [if_neg hip, if_neg (Ne.symm hip), if_neg (Ne.symm hip)]
      omega
  have hmutex : ((if (PhiSem.mutex : PhiSem N) ∈ ({.s i} : Finset (PhiSem N)) then 1 else 0 : ℤ)) = 0 :=
    if_neg fun h => by (cases Finset.mem_singleton.mp h)
  have hsem : ∀ j : Fin N, ((if (PhiSem.s j) ∈ ({.s i} : Finset (PhiSem N)) then 1 else 0 : ℤ)) =
      if (SemOp.up (PhiSem.s j)) = .up (.s i) then 1 else 0 := by
    intro j
    simp only [Finset.mem_singleton, SemOp.up.injEq]
  refine ⟨fun p l d l' d' hpre h => ?_, fun p l d s l' d' hpre h => ?_, fun p l d s l' d' hpre h => ?_,
    fun p l d s hpre h => ?_⟩
  · cases h with
    | take _ _ _ h =>
      have heat := htake hpre h
      rw [if_neg (fun h => by (cases h))] at heat
      have hw : forkWeight i p .takeUp = forkWeight i p .takeIn := forkWeight_congr rfl
      omega
    | putLeft _ _ _ h =>
      have heat := hput hpre h
      rw [if_neg (fun h => by (cases h))] at heat
      omega
    | putRight _ _ _ h =>
      have heat := isEating_test h i
      rw [if_neg (fun h => by (cases h))] at heat
      have hw : forkWeight i p .putUp = forkWeight i p .putRight := forkWeight_congr rfl
      omega
  · cases h with
    | take _ _ _ h =>
      have heat := htake hpre h
      cases h
      have hw : forkWeight i p .takeUp = forkWeight i p .takeIn := forkWeight_congr rfl
      rw [hsem]
      omega
    | takeUp =>
      have hw : forkWeight i p .takeWait = forkWeight i p .takeUp := forkWeight_congr rfl
      rw [hmutex]
      omega
    | putLeft _ _ _ h =>
      have heat := hput hpre h
      cases h
      rw [hsem]
      omega
    | putRight _ _ _ h =>
      have heat := isEating_test h i
      cases h
      have hw : forkWeight i p .putUp = forkWeight i p .putRight := forkWeight_congr rfl
      rw [hsem]
      omega
    | putUp =>
      have hw : forkWeight i p .thinking = forkWeight i p .putUp := forkWeight_congr rfl
      rw [hmutex]
      omega
  · cases h with
    | takeDown => exact ⟨congrArg (· + _) (forkWeight_congr rfl), hpre⟩
    | take _ _ _ h => cases h
    | takeWait => exact ⟨rfl, hpre⟩
    | putDown => exact ⟨congrArg (· + _) (forkWeight_congr rfl), hpre⟩
    | putLeft _ _ _ h => cases h
    | putRight _ _ _ h => cases h
  · cases h with
    | take =>
      rw [hmutex, Int.add_zero]
      exact congrArg (· + _) (forkWeight_congr rfl)
    | fork =>
      have hunit : ((if (PhiSem.s p) ∈ ({.s i} : Finset (PhiSem N)) then 1 else 0 : ℤ)) = if p = i then 1 else 0 := by
        simp only [Finset.mem_singleton, PhiSem.s.injEq]
      rw [hunit]
      show forkWeight i p .eating + -isEating d i = forkWeight i p .takeWait + -isEating d i + _
      unfold forkWeight
      simp only [PhiLoc.holds]
      split_ifs <;> omega
    | put =>
      rw [hmutex, Int.add_zero]
      exact congrArg (· + _) (forkWeight_congr rfl)

/-! ### The invariant -/

/-- What holds of the places and the states. -/
structure PhiGood (loc : Fin N → PhiLoc) (d : Fin N → PhiState) : Prop where
  apart : Apart d
  fits : ∀ i, (loc i).Fits (d i)
  /-- Only a philosopher between the two tests can let another one wait for forks that are there. -/
  fed : ∀ j, CanEat d j → ∃ p, loc p = .putRight ∧ j = right p

section good

variable {loc : Fin N → PhiLoc}

/-- A test makes a philosopher eat at a place where that is right. -/
theorem PhiGood.fits_test (hfits : ∀ j, j ≠ i → (loc j).Fits (d j)) {k : Fin N} (h : PhiTest d k op d') (hj : j ≠ i) :
    (loc j).Fits (d' j) := by
  have hold := hfits j hj
  rcases h.other j with hsame | ⟨hhungry, heating⟩
  · rw [hsame]
    exact hold
  · rw [heating]
    rw [hhungry] at hold
    exact hold.eating

/-- The states and places of the others are as they were. -/
theorem PhiGood.fits_goto (hothers : ∀ j, j ≠ i → (loc j).Fits (d' j)) (hi : l'.Fits (d' i)) (j : Fin N) :
    (Function.update loc i l' j).Fits (d' j) := by
  rw [Function.update_apply]
  split_ifs with hj
  · rw [hj]
    exact hi
  · exact hothers j hj

/-- The states do not change. -/
theorem PhiGood.goto (h : PhiGood loc d) (hfits : l'.Fits (d i)) (hloc : loc i ≠ .putRight) :
    PhiGood (Function.update loc i l') d := by
  refine ⟨h.apart, PhiGood.fits_goto (fun j _ => h.fits j) hfits, fun j hj => ?_⟩
  obtain ⟨p, hp, hjp⟩ := h.fed j hj
  refine ⟨p, ?_, hjp⟩
  rw [Function.update_of_ne]
  · exact hp
  · rintro rfl
    exact hloc hp

theorem PhiGood.call (h : PhiGood loc d) (hN : 2 ≤ N)
    (hexcl : (loc i).critical = 1 → ∀ p, loc p = .putRight → p = i) (hcall : PhiCall i (loc i) d op l' d') :
    PhiGood (Function.update loc i l') d' := by
  have hfits := h.fits i
  generalize hl : loc i = l at hcall hexcl hfits
  have hnone : l.critical = 1 → l ≠ .putRight → ∀ j, ¬ CanEat d j := by
    intro hcrit hne j hj
    obtain ⟨p, hp, -⟩ := h.fed j hj
    rw [hexcl hcrit p hp, hl] at hp
    exact hne hp
  have hother : ∀ x : PhiState, ∀ j, j ≠ i → (loc j).Fits (Function.update d i x j) := by
    intro x j hj
    rw [Function.update_of_ne hj]
    exact h.fits j
  have hthinking : PhiState.thinking ≠ .eating := fun h => by (cases h)
  cases hcall with
  | takeDown => exact h.goto hfits (by rw [hl]; exact fun h => by (cases h))
  | take _ _ _ ht =>
    have hi : d i ≠ .eating := by
      rw [show d i = .thinking from hfits]
      exact hthinking
    refine ⟨ht.apart hN (h.apart.set (fun h => by (cases h)) i), ?_, fun j hj => ?_⟩
    · refine PhiGood.fits_goto (fun j hj => PhiGood.fits_test (hother .hungry) ht hj) ?_
      rcases ht.other i with hsame | ⟨-, heating⟩
      · rw [PhiLoc.Fits, hsame, Function.update_self]
        exact fun h => by (cases h)
      · rw [PhiLoc.Fits, heating]
        exact fun h => by (cases h)
    · obtain ⟨hji, hj'⟩ := ht.canEat hj
      rcases canEat_set_hungry hi hj' with hji' | hold
      · exact absurd hji' hji
      · exact absurd hold (hnone rfl (fun h => by (cases h)) j)
  | takeUp => exact h.goto hfits (by rw [hl]; exact fun h => by (cases h))
  | takeWait => exact h.goto hfits (by rw [hl]; exact fun h => by (cases h))
  | putDown => exact h.goto hfits (by rw [hl]; exact fun h => by (cases h))
  | putLeft _ _ _ ht =>
    refine ⟨ht.apart hN (h.apart.set hthinking i), ?_, fun j hj => ⟨i, Function.update_self .., ?_⟩⟩
    · refine PhiGood.fits_goto (fun j hj => PhiGood.fits_test (hother .thinking) ht hj) ?_
      rcases ht.other i with hsame | ⟨hhungry, -⟩
      · rw [PhiLoc.Fits, hsame, Function.update_self]
      · rw [Function.update_self] at hhungry
        cases hhungry
    · obtain ⟨hjl, hj'⟩ := ht.canEat hj
      rcases canEat_set_thinking hj' with hjl' | hjr | hold
      · exact absurd hjl' hjl
      · exact hjr
      · exact absurd hold (hnone rfl (fun h => by (cases h)) j)
  | putRight _ _ _ ht =>
    refine ⟨ht.apart hN h.apart, ?_, fun j hj => ?_⟩
    · refine PhiGood.fits_goto (fun j hj => PhiGood.fits_test (fun j _ => h.fits j) ht hj) ?_
      rcases ht.other i with hsame | ⟨hhungry, -⟩
      · rw [PhiLoc.Fits, hsame]
        exact hfits
      · rw [show d i = .thinking from hfits] at hhungry
        cases hhungry
    · obtain ⟨hjr, hj'⟩ := ht.canEat hj
      obtain ⟨p, hp, hjp⟩ := h.fed j hj'
      rw [hexcl rfl p hp] at hjp
      exact absurd hjp hjr
  | putUp => exact h.goto hfits (by rw [hl]; exact fun h => by (cases h))

/-- A `down` returns; after `down(&s[i])` the philosopher eats. -/
theorem PhiGood.back (h : PhiGood loc d) {x : PhiSem N} (hwaits : PhiWaits i (loc i) x)
    (heat : x = .s i → d i = .eating) : PhiGood (Function.update loc i (phiBack (loc i))) d := by
  have hfits := h.fits i
  generalize hl : loc i = l at hwaits hfits
  cases hwaits with
  | take => exact h.goto hfits (by rw [hl]; exact fun h => by (cases h))
  | fork => exact h.goto (heat rfl) (by rw [hl]; exact fun h => by (cases h))
  | put => exact h.goto hfits (by rw [hl]; exact fun h => by (cases h))

end good

/-- What every run keeps. -/
structure PhiInv (c : Config (Fin N) (PhiSem N) PhiLoc (Fin N → PhiState)) : Prop where
  ok : c.Ok (philosophers N) Finset.univ
  good : PhiGood c.loc c.data
  lock : c.amount Finset.univ {.mutex} (fun _ => PhiLoc.critical) (fun _ => 0) = 1
  forks : ∀ i, c.amount Finset.univ {.s i} (forkWeight i) (fun d => -isEating d i) = 0

variable {c c' : Config (Fin N) (PhiSem N) PhiLoc (Fin N → PhiState)}

theorem PhiLoc.critical_nonneg (l : PhiLoc) : 0 ≤ l.critical := by
  unfold PhiLoc.critical
  split <;> omega

/-- The unit of the mutex is in the semaphore or with a philosopher in a critical section. -/
theorem PhiInv.mutex (h : PhiInv c) :
    Sems.permits Finset.univ c.toSems .mutex + ∑ p, (c.loc p).critical = 1 := by
  have hlock := h.lock
  simp only [Config.amount, Finset.sum_singleton] at hlock
  omega

theorem PhiInv.exclusive (h : PhiInv c) {p q : Fin N} (hp : (c.loc p).critical = 1) (hq : (c.loc q).critical = 1) :
    q = p := by
  by_contra hne
  have hmutex := h.mutex
  have hpermits : 0 ≤ Sems.permits Finset.univ c.toSems .mutex := h.ok.sems.permits_nonneg _
  have hsplit := Finset.add_sum_erase Finset.univ (fun x => (c.loc x).critical) (Finset.mem_univ p)
  have hsplit' := Finset.add_sum_erase (Finset.univ.erase p) (fun x => (c.loc x).critical)
    (Finset.mem_erase.mpr ⟨hne, Finset.mem_univ q⟩)
  have hrest : 0 ≤ ∑ x ∈ (Finset.univ.erase p).erase q, (c.loc x).critical :=
    Finset.sum_nonneg fun x _ => PhiLoc.critical_nonneg _
  simp only [hp] at hsplit
  simp only [hq] at hsplit'
  omega

/-- A philosopher that waits for its semaphore eats when there is a unit. -/
theorem PhiInv.eating (h : PhiInv c) (hloc : c.loc i = .takeWait)
    (hunit : 1 ≤ Sems.permits Finset.univ c.toSems (.s i)) : c.data i = .eating := by
  have hfork := h.forks i
  have hweight : ∑ p, forkWeight i p (c.loc p) = 0 := by
    refine Finset.sum_eq_zero fun p _ => ?_
    unfold forkWeight
    split_ifs with hp
    · rw [hp, hloc]
      rfl
    · rfl
  simp only [Config.amount, Finset.sum_singleton] at hfork
  by_contra hne
  have hnot : isEating c.data i = 0 := if_neg hne
  omega

/-- A `down` on the semaphore of a philosopher. -/
theorem PhiCall.fork (h : PhiCall i l d (.down (.s i)) l' d') : l = .takeWait ∧ d' = d := by
  cases h with
  | take _ _ _ h => cases h
  | takeWait => exact ⟨rfl, rfl⟩
  | putLeft _ _ _ h => cases h
  | putRight _ _ _ h => cases h

theorem PhiInv.step (h : PhiInv c) (hN : 2 ≤ N) (hstep : Step (philosophers N) Finset.univ c c') : PhiInv c' := by
  refine ⟨hstep.ok h.ok, ?_, ?_, fun i => ?_⟩
  · have hexcl : ∀ i, (c.loc i).critical = 1 → ∀ p, c.loc p = .putRight → p = i := fun i hi p hp =>
      h.exclusive hi (by rw [hp]; rfl)
    cases hstep with
    | skip p l d _ hp hcall => exact h.good.call hN (hexcl p) hcall
    | up p s l d _ hp hcall => exact h.good.call hN (hexcl p) hcall
    | take p s l d _ hp hcall hs =>
      refine (h.good.call hN (hexcl p) hcall).back (waits_goto hcall) fun hsem => ?_
      subst hsem
      obtain ⟨hloc, rfl⟩ := PhiCall.fork hcall
      exact h.eating hloc (Sems.permits_pos hs)
    | block p s l d _ hp hcall hs => exact h.good.call hN (hexcl p) hcall
    | wake p s _ hp =>
      refine h.good.back (h.ok.waits p s (.inr hp)) fun hs => ?_
      subst hs
      have hwaits : PhiWaits p (c.loc p) (.s p) := h.ok.waits p _ (.inr hp)
      have hloc : c.loc p = .takeWait := by
        cases hl : c.loc p <;> rw [hl] at hwaits <;> cases hwaits
      exact h.eating hloc (h.ok.sems.permits_pos_of_granted (Finset.mem_univ p) hp)
  · rw [conserves_mutex.step h.ok h.good.fits hstep]
    exact h.lock
  · rw [(conserves_fork i).step h.ok h.good.fits hstep]
    exact h.forks i

theorem philosophersInit_inv : PhiInv (philosophersInit N) := by
  have hpermits : ∀ s, Sems.permits Finset.univ (philosophersInit N).toSems s = if s = .mutex then 1 else 0 := by
    intro s
    have hgranted : Sems.granted Finset.univ (philosophersInit N).toSems s = 0 :=
      Finset.sum_eq_zero fun p _ => Sems.unit_runs s
    rw [Sems.permits, hgranted]
    exact Int.add_zero _
  refine ⟨⟨⟨fun s => ?_, fun s _ => rfl, fun s => List.nodup_nil, fun s p => ?_⟩, fun p _ => Finset.mem_univ p,
    fun p s hp => ?_⟩, ⟨fun i hi => ?_, fun i => rfl, fun j hj => ?_⟩, ?_, fun i => ?_⟩
  · show 0 ≤ if s = .mutex then (1 : ℤ) else 0
    split_ifs <;> omega
  · show p ∈ [] ↔ Phase.runs = .blocked s
    simp
  · change Phase.runs = .blocked s ∨ Phase.runs = .granted s at hp
    rcases hp with hp | hp <;> cases hp
  · cases hi
  · cases hj.1
  · have hcritical : ∑ p, ((philosophersInit N).loc p).critical = 0 := Finset.sum_eq_zero fun _ _ => rfl
    simp only [Config.amount, Finset.sum_singleton]
    rw [hpermits, hcritical]
    rfl
  · have hweight : ∑ p, forkWeight i p ((philosophersInit N).loc p) = 0 := by
      refine Finset.sum_eq_zero fun p _ => ?_
      unfold forkWeight
      split_ifs <;> rfl
    simp only [Config.amount, Finset.sum_singleton]
    rw [hpermits, hweight]
    rfl

theorem philosophers_sema (hN : 2 ≤ N) (hruns : Runs (philosophers N) Finset.univ (philosophersInit N) c) :
    (∀ i, c.data i = .eating → c.data (left i) ≠ .eating ∧ c.data (right i) ≠ .eating) ∧
    (∀ i, c.loc i = .eating → c.data i = .eating) ∧
    (0 < c.value .mutex → ∀ i, ¬ CanEat c.data i) := by
  have h : PhiInv c := invariant_of_step PhiInv hruns philosophersInit_inv fun _ _ ha hstep => ha.step hN hstep
  refine ⟨h.good.apart.neighbours, fun i hi => ?_, fun hfree i hi => ?_⟩
  · have hfits := h.good.fits i
    rw [hi] at hfits
    exact hfits
  · obtain ⟨p, hp, -⟩ := h.good.fed i hi
    have hmutex := h.mutex
    have hpermits : 1 ≤ Sems.permits Finset.univ c.toSems .mutex := Sems.permits_pos hfree
    have hsplit := Finset.add_sum_erase Finset.univ (fun x => (c.loc x).critical) (Finset.mem_univ p)
    have hrest : 0 ≤ ∑ x ∈ Finset.univ.erase p, (c.loc x).critical := Finset.sum_nonneg fun x _ => PhiLoc.critical_nonneg _
    have hcritical : (c.loc p).critical = 1 := by rw [hp]; rfl
    simp only [hcritical] at hsplit
    omega

end program

end Ucore.Sync
