import Ucore.Sync.Monitor
import Ucore.Sync.Philosophers

/-!
# Dining philosophers with condition variables

The philosophers of `kern/sync/check_sync.c` in a monitor, with one condition variable each.

* `CvLoc` are the places in `phi_take_forks_condvar` and `phi_put_forks_condvar`, with those in `cond_wait` and
  `cond_signal`, and `cvPhilosophers` is the program.
* `cvPhilosophers_refines`: philosophers use the monitor as any processes do, so the results of `Ucore.Sync.Monitor` hold.
* `CvGood` is what every run keeps besides, and `dining_philosophers` the result for both versions.
-/

namespace Ucore.Sync

open Ucore.Lib

variable {N : ℕ}

/-! ### The program -/

/-- The monitor, with the states of the philosophers. -/
structure TableData (N : ℕ) where
  mon : MonitorData N
  state : Fin N → PhiState

/-- A philosopher changes its state. -/
def TableData.setState (d : TableData N) (i : Fin N) (x : PhiState) : TableData N :=
  { d with state := Function.update d.state i x }

/-- Where a philosopher is, between two semaphore operations. -/
inductive CvLoc where
  /-- Outside of the two functions, before `phi_take_forks_condvar`. -/
  | thinking
  /-- In `down(&(mtp->mutex))`. -/
  | takeEnter
  | takeIn
  /-- In `cond_signal`, called by `phi_test_condvar(i)`. -/
  | takeSignal
  /-- At the condition of the loop. -/
  | takeLoop
  /-- In `cond_wait`. -/
  | takeWait
  /-- Between `phi_take_forks_condvar` and `phi_put_forks_condvar`. -/
  | eating
  /-- In `down(&(mtp->mutex))`. -/
  | putEnter
  | putIn
  /-- In `cond_signal`, called by `phi_test_condvar(LEFT)`. -/
  | putLeft
  /-- Before `phi_test_condvar(RIGHT)`. -/
  | putRight
  /-- In `cond_signal`, called by `phi_test_condvar(RIGHT)`. -/
  | putRightSignal
  | putLeave
  deriving Repr, DecidableEq

/-- `phi_test_condvar` with the part of `cond_signal` up to its `down`. The philosopher that calls it is at `signals` if
there is a process to signal, and at `next` if not.
Source: `kern/sync/check_sync.c` `phi_test_condvar` -/
inductive CvTest (d : TableData N) (i : Fin N) (signals next : CvLoc) :
    SemOp (MonitorSem N) → CvLoc → TableData N → Prop where
  | signal (h : CanEat d.state i) (hcount : d.mon.count i > 0) :
    CvTest d i signals next (.up (.cv i)) signals ⟨d.mon.addNext 1, Function.update d.state i .eating⟩
  | signalNone (h : CanEat d.state i) (hcount : ¬ d.mon.count i > 0) :
    CvTest d i signals next .skip next (d.setState i .eating)
  | waits (h : ¬ CanEat d.state i) : CvTest d i signals next .skip next d

/-- The places of `cond_signal`. -/
inductive CvLoc.Signals : CvLoc → Prop where
  | take : Signals .takeSignal
  | left : Signals .putLeft
  | right : Signals .putRightSignal

/-- What the philosopher `i` calls next. Source: `kern/sync/check_sync.c` `phi_take_forks_condvar`
`phi_put_forks_condvar` -/
inductive CvCall (i : Fin N) : CvLoc → TableData N → SemOp (MonitorSem N) → CvLoc → TableData N → Prop where
  | takeDown (d : TableData N) : CvCall i .thinking d (.down .mutex) .takeEnter d
  | take (d d' : TableData N) (op : SemOp (MonitorSem N)) (l : CvLoc)
    (h : CvTest (d.setState i .hungry) i .takeSignal .takeLoop op l d') : CvCall i .takeIn d op l d'
  | signalDown (d : TableData N) (l : CvLoc) (h : l.Signals) : CvCall i l d (.down .next) l d
  | wait (d : TableData N) (h : d.state i ≠ .eating) :
    CvCall i .takeLoop d (.up (d.mon.addCount i 1).release) .takeWait { d with mon := d.mon.addCount i 1 }
  | waitDown (d : TableData N) : CvCall i .takeWait d (.down (.cv i)) .takeWait d
  | takeLeave (d : TableData N) (h : d.state i = .eating) : CvCall i .takeLoop d (.up d.mon.release) .eating d
  | putDown (d : TableData N) : CvCall i .eating d (.down .mutex) .putEnter d
  | putLeft (d d' : TableData N) (op : SemOp (MonitorSem N)) (l : CvLoc)
    (h : CvTest (d.setState i .thinking) (left i) .putLeft .putRight op l d') : CvCall i .putIn d op l d'
  | putRight (d d' : TableData N) (op : SemOp (MonitorSem N)) (l : CvLoc)
    (h : CvTest d (right i) .putRightSignal .putLeave op l d') : CvCall i .putRight d op l d'
  | putLeave (d : TableData N) : CvCall i .putLeave d (.up d.mon.release) .thinking d

/-- What follows a `down`. -/
def cvBack (i : Fin N) : CvLoc → TableData N → CvLoc × TableData N
  | .takeEnter, d => (.takeIn, d)
  | .takeSignal, d => (.takeLoop, { d with mon := d.mon.addNext (-1) })
  | .takeWait, d => (.takeLoop, { d with mon := d.mon.addCount i (-1) })
  | .putEnter, d => (.putIn, d)
  | .putLeft, d => (.putRight, { d with mon := d.mon.addNext (-1) })
  | .putRightSignal, d => (.putLeave, { d with mon := d.mon.addNext (-1) })
  | l, d => (l, d)

/-- The places of the `down`s. -/
inductive CvWaits (i : Fin N) : CvLoc → MonitorSem N → Prop where
  | take : CvWaits i .takeEnter .mutex
  | signal (l : CvLoc) (h : l.Signals) : CvWaits i l .next
  | wait : CvWaits i .takeWait (.cv i)
  | put : CvWaits i .putEnter .mutex

theorem CvTest.not_down {d d' : TableData N} {i : Fin N} {signals next l : CvLoc} {s : MonitorSem N} :
    ¬ CvTest d i signals next (.down s) l d' := fun h => by (cases h)

/-- The philosophers. -/
def cvPhilosophers (N : ℕ) : Threads (Fin N) (MonitorSem N) CvLoc (TableData N) where
  call := CvCall
  back := cvBack
  waits := CvWaits
  waits_of_call := by
    intro i l d s l' d' h
    cases h with
    | takeDown => exact .take
    | take _ _ _ _ h => exact absurd h CvTest.not_down
    | signalDown _ _ h => exact .signal _ h
    | waitDown => exact .wait
    | putDown => exact .put
    | putLeft _ _ _ _ h => exact absurd h CvTest.not_down
    | putRight _ _ _ _ h => exact absurd h CvTest.not_down

/-- Source: `kern/sync/check_sync.c` `check_sync` -/
def cvPhilosophersInit (N : ℕ) : Config (Fin N) (MonitorSem N) CvLoc (TableData N) where
  toSems := (monitorInit (Fin N) N).toSems
  loc _ := .thinking
  data := ⟨(monitorInit (Fin N) N).data, fun _ => .thinking⟩

/-! ### The monitor -/

/-- Where a philosopher is in the monitor. -/
def CvLoc.inMonitor (i : Fin N) : CvLoc → MonitorLoc N
  | .thinking | .eating => .outside
  | .takeEnter | .putEnter => .entering
  | .takeIn | .takeLoop | .putIn | .putRight | .putLeave => .inside
  | .takeWait => .waiting i
  | .takeSignal | .putLeft | .putRightSignal => .signalling

/-- The call of a test, inside the monitor. -/
theorem CvTest.monitorCall {d d' : TableData N} {i k : Fin N} {signals next l : CvLoc} {op : SemOp (MonitorSem N)}
    (h : CvTest d i signals next op l d') (hsignals : signals.inMonitor k = .signalling) (hnext : next.inMonitor k = .inside) :
    MonitorCall .inside d.mon op (l.inMonitor k) d'.mon := by
  cases h with
  | signal h hcount =>
    rw [hsignals]
    exact .signal i d.mon hcount
  | signalNone h hcount =>
    rw [hnext]
    exact .signalNone i d.mon hcount
  | waits h =>
    rw [hnext]
    exact .compute d.mon

/-- Philosophers use the monitor as it should be used. -/
theorem cvPhilosophers_refines :
    Refines (cvPhilosophers N) (monitorThreads (Fin N) N) CvLoc.inMonitor TableData.mon := by
  refine ⟨fun i l d op l' d' h => .inl ?_, fun i l d s h => ?_⟩
  · cases h with
    | takeDown => exact .enter _
    | take _ _ _ _ h => exact h.monitorCall rfl rfl
    | signalDown _ _ h => cases h <;> exact .signalDown _
    | wait _ h => exact .wait i _
    | waitDown => exact .waitDown i _
    | takeLeave _ h => exact .leave _
    | putDown => exact .enter _
    | putLeft _ _ _ _ h => exact h.monitorCall rfl rfl
    | putRight _ _ _ _ h => exact h.monitorCall rfl rfl
    | putLeave => exact .leave _
  · cases h with
    | take => rfl
    | signal _ h => cases h <;> rfl
    | wait => rfl
    | put => rfl

/-! ### Places and states -/

/-- The state of a philosopher at a place. -/
def CvLoc.Fits (x : PhiState) : CvLoc → Prop
  | .thinking | .takeEnter | .takeIn | .putLeft | .putRight | .putRightSignal | .putLeave => x = .thinking
  | .takeSignal | .takeLoop | .takeWait => x ≠ .thinking
  | .eating | .putEnter | .putIn => x = .eating

/-- From the entry through the mutex on, until the philosopher leaves or goes to its loop. -/
def CvLoc.Session : CvLoc → Prop
  | .takeIn | .putIn | .putLeft | .putRight | .putRightSignal | .putLeave => True
  | _ => False

theorem CvLoc.Fits.eating {l : CvLoc} (h : l.Fits .hungry) : l.Fits .eating := by
  cases l <;> first | exact fun h => by (cases h) | cases h

/-- In a session a philosopher is in the monitor, or waits after a signal. -/
theorem CvLoc.Session.inMonitor {l : CvLoc} (h : l.Session) (i : Fin N) :
    l.inMonitor i = .inside ∨ l.inMonitor i = .signalling := by
  cases l <;> first | exact .inl rfl | exact .inr rfl | cases h

section test

variable {d d' : TableData N} {i j : Fin N} {signals next l : CvLoc} {op : SemOp (MonitorSem N)}

theorem CvTest.apart (h : CvTest d i signals next op l d') (hN : 2 ≤ N) (hd : Apart d.state) : Apart d'.state := by
  cases h with
  | signal h _ => exact hd.set_eating hN h
  | signalNone h _ => exact hd.set_eating hN h
  | waits h => exact hd

/-- The test changes a philosopher that is hungry, if any. -/
theorem CvTest.other (h : CvTest d i signals next op l d') (j : Fin N) :
    d'.state j = d.state j ∨ (d.state j = .hungry ∧ d'.state j = .eating) := by
  have heats : ∀ x : Fin N → PhiState, CanEat x i →
      Function.update x i .eating j = x j ∨ (x j = .hungry ∧ Function.update x i .eating j = .eating) := by
    intro x hx
    by_cases hj : j = i
    · rw [hj, Function.update_self]
      exact .inr ⟨hx.1, rfl⟩
    · rw [Function.update_of_ne hj]
      exact .inl rfl
  cases h with
  | signal h _ => exact heats _ h
  | signalNone h _ => exact heats _ h
  | waits h => exact .inl rfl

/-- After the test the philosopher cannot eat, and no one can who could not before. -/
theorem CvTest.canEat (h : CvTest d i signals next op l d') (hj : CanEat d'.state j) : j ≠ i ∧ CanEat d.state j := by
  cases h with
  | signal h _ => exact canEat_set_eating hj
  | signalNone h _ => exact canEat_set_eating hj
  | waits h =>
    refine ⟨?_, hj⟩
    rintro rfl
    exact h hj

theorem CvTest.loc (h : CvTest d i signals next op l d') : l = signals ∨ l = next := by
  cases h with
  | signal => exact .inl rfl
  | signalNone => exact .inr rfl
  | waits => exact .inr rfl

end test

/-! ### The invariant -/

/-- What holds of the places and the states. -/
structure CvGood (loc : Fin N → CvLoc) (d : TableData N) : Prop where
  apart : Apart d.state
  fits : ∀ i, (loc i).Fits (d.state i)
  session : ∀ i j, (loc i).Session → (loc j).Session → i = j
  /-- Only a philosopher between the two tests can let another one wait for forks that are there. -/
  fed : ∀ j, CanEat d.state j → ∃ p, (loc p = .putLeft ∨ loc p = .putRight) ∧ j = right p

section good

variable {loc : Fin N → CvLoc} {d d' : TableData N} {i : Fin N} {l' : CvLoc}

/-- A philosopher goes to a place that is in a session only if it was in one before. -/
theorem CvGood.session_goto (h : CvGood loc d) (hl : l'.Session → (loc i).Session) (j k : Fin N)
    (hj : (Function.update loc i l' j).Session) (hk : (Function.update loc i l' k).Session) : j = k := by
  have hold : ∀ j, (Function.update loc i l' j).Session → (loc j).Session := by
    intro j hj
    rw [Function.update_apply] at hj
    split_ifs at hj with hji
    · rw [hji]
      exact hl hj
    · exact hj
  exact h.session j k (hold j hj) (hold k hk)

/-- The philosopher `i` changes, and the others are at places that are right for them. -/
theorem CvGood.fits_goto {x x' : Fin N → PhiState} (hfits : ∀ j, j ≠ i → (loc j).Fits (x j))
    (hother : ∀ j, x' j = x j ∨ (x j = .hungry ∧ x' j = .eating)) (hi : l'.Fits (x' i)) (j : Fin N) :
    (Function.update loc i l' j).Fits (x' j) := by
  rw [Function.update_apply]
  split_ifs with hj
  · rw [hj]
    exact hi
  · have hold := hfits j hj
    rcases hother j with hsame | ⟨hhungry, heating⟩
    · rw [hsame]
      exact hold
    · rw [heating]
      rw [hhungry] at hold
      exact hold.eating

/-- The states do not change. -/
theorem CvGood.goto (h : CvGood loc d) (hstate : d'.state = d.state) (hfits : l'.Fits (d.state i))
    (hsession : l'.Session → (loc i).Session) (hloc : loc i = .putLeft ∨ loc i = .putRight → l' = .putLeft ∨ l' = .putRight) :
    CvGood (Function.update loc i l') d' := by
  refine ⟨by rw [hstate]; exact h.apart, ?_, h.session_goto hsession, fun j hj => ?_⟩
  · rw [hstate]
    exact CvGood.fits_goto (fun j _ => h.fits j) (fun _ => .inl rfl) hfits
  · rw [hstate] at hj
    obtain ⟨p, hp, hjp⟩ := h.fed j hj
    refine ⟨p, ?_, hjp⟩
    by_cases hpi : p = i
    · rw [hpi, Function.update_self]
      rw [hpi] at hp
      exact hloc hp
    · rw [Function.update_of_ne hpi]
      exact hp

theorem CvGood.call (h : CvGood loc d) (hN : 2 ≤ N) {op : SemOp (MonitorSem N)} (hcall : CvCall i (loc i) d op l' d') :
    CvGood (Function.update loc i l') d' := by
  have hfits := h.fits i
  have hsession : (l'.Session → (loc i).Session) → ∀ j k, (Function.update loc i l' j).Session →
      (Function.update loc i l' k).Session → j = k := h.session_goto
  have hnone : (loc i).Session → loc i ≠ .putLeft → loc i ≠ .putRight → ∀ j, ¬ CanEat d.state j := by
    intro hs hleft hright j hj
    obtain ⟨p, hp, -⟩ := h.fed j hj
    have hsp : (loc p).Session := by
      rcases hp with hp | hp <;> rw [hp] <;> exact trivial
    rw [h.session p i hsp hs] at hp
    exact hp.elim hleft hright
  have hother : ∀ x : PhiState, ∀ j, j ≠ i → (loc j).Fits (Function.update d.state i x j) := by
    intro x j hj
    rw [Function.update_of_ne hj]
    exact h.fits j
  have hthinking : PhiState.thinking ≠ .eating := fun h => by (cases h)
  generalize hl : loc i = l at hcall hfits hnone hsession
  cases hcall with
  | takeDown => exact h.goto rfl hfits (fun h => by (cases h)) (by rw [hl]; rintro (h | h) <;> cases h)
  | take _ _ _ _ ht =>
    have hi : d.state i ≠ .eating := by
      rw [show d.state i = .thinking from hfits]
      exact hthinking
    refine ⟨ht.apart hN (h.apart.set (fun h => by (cases h)) i), ?_, hsession fun _ => trivial, fun j hj => ?_⟩
    · refine CvGood.fits_goto (hother .hungry) ht.other ?_
      have hne : d'.state i ≠ .thinking := by
        rcases ht.other i with hsame | ⟨-, heating⟩
        · rw [hsame]
          show Function.update d.state i .hungry i ≠ _
          rw [Function.update_self]
          exact fun h => by (cases h)
        · rw [heating]
          exact fun h => by (cases h)
      rcases ht.loc with rfl | rfl <;> exact hne
    · obtain ⟨hji, hj'⟩ := ht.canEat hj
      rcases canEat_set_hungry hi hj' with hji' | hold
      · exact absurd hji' hji
      · exact absurd hold (hnone trivial (fun h => by (cases h)) (fun h => by (cases h)) j)
  | signalDown _ _ hs => exact h.goto rfl hfits (fun h => by rw [hl]; exact h) (fun h => by rw [hl] at h; exact h)
  | wait _ hne =>
    exact h.goto rfl hfits (fun h => by (cases h)) (by rw [hl]; rintro (h | h) <;> cases h)
  | waitDown => exact h.goto rfl hfits (fun h => by (cases h)) (by rw [hl]; rintro (h | h) <;> cases h)
  | takeLeave _ heating => exact h.goto rfl heating (fun h => by (cases h)) (by rw [hl]; rintro (h | h) <;> cases h)
  | putDown => exact h.goto rfl hfits (fun h => by (cases h)) (by rw [hl]; rintro (h | h) <;> cases h)
  | putLeft _ _ _ _ ht =>
    refine ⟨ht.apart hN (h.apart.set hthinking i), ?_, hsession fun _ => trivial, fun j hj => ⟨i, ?_, ?_⟩⟩
    · refine CvGood.fits_goto (hother .thinking) ht.other ?_
      have hstate : d'.state i = .thinking := by
        rcases ht.other i with hsame | ⟨hhungry, -⟩
        · rw [hsame]
          exact Function.update_self ..
        · change Function.update d.state i .thinking i = _ at hhungry
          rw [Function.update_self] at hhungry
          cases hhungry
      rcases ht.loc with rfl | rfl <;> exact hstate
    · rw [Function.update_self]
      exact ht.loc
    · obtain ⟨hjl, hj'⟩ := ht.canEat hj
      rcases canEat_set_thinking hj' with hjl' | hjr | hold
      · exact absurd hjl' hjl
      · exact hjr
      · exact absurd hold (hnone trivial (fun h => by (cases h)) (fun h => by (cases h)) j)
  | putRight _ _ _ _ ht =>
    refine ⟨ht.apart hN h.apart, ?_, hsession fun _ => trivial, fun j hj => ?_⟩
    · refine CvGood.fits_goto (fun j _ => h.fits j) ht.other ?_
      have hstate : d'.state i = .thinking := by
        rcases ht.other i with hsame | ⟨hhungry, -⟩
        · rw [hsame]
          exact hfits
        · rw [show d.state i = .thinking from hfits] at hhungry
          cases hhungry
      rcases ht.loc with rfl | rfl <;> exact hstate
    · obtain ⟨hjr, hj'⟩ := ht.canEat hj
      obtain ⟨p, hp, hjp⟩ := h.fed j hj'
      have hsp : (loc p).Session := by
        rcases hp with hp | hp <;> rw [hp] <;> exact trivial
      rw [h.session p i hsp (by rw [hl]; exact trivial)] at hjp
      exact absurd hjp hjr
  | putLeave => exact h.goto rfl hfits (fun h => by (cases h)) (by rw [hl]; rintro (h | h) <;> cases h)

/-- A `down` returns; after the one on the mutex there must be no session. -/
theorem CvGood.back (h : CvGood loc d) {x : MonitorSem N} (hwaits : CvWaits i (loc i) x)
    (hmutex : x = .mutex → ∀ p, ¬ (loc p).Session) : CvGood (Function.update loc i (cvBack i (loc i) d).1) (cvBack i (loc i) d).2 := by
  have hfits := h.fits i
  have henter : x = .mutex → ∀ l' : CvLoc, l'.Fits (d.state i) → (∀ j, loc j ≠ .putLeft ∧ loc j ≠ .putRight) →
      CvGood (Function.update loc i l') d := by
    intro hx l' hl' hnone
    have hnosession := hmutex hx
    refine ⟨h.apart, CvGood.fits_goto (fun j _ => h.fits j) (fun _ => .inl rfl) hl', fun j k hj hk => ?_, fun j hj => ?_⟩
    · have honly : ∀ j, (Function.update loc i l' j).Session → j = i := by
        intro j hj
        by_contra hji
        rw [Function.update_of_ne hji] at hj
        exact hnosession j hj
      rw [honly j hj, honly k hk]
    · obtain ⟨p, hp | hp, -⟩ := h.fed j hj
      · exact absurd hp (hnone p).1
      · exact absurd hp (hnone p).2
  have hnone : x = .mutex → ∀ j, loc j ≠ .putLeft ∧ loc j ≠ .putRight := by
    intro hx j
    refine ⟨fun hj => hmutex hx j ?_, fun hj => hmutex hx j ?_⟩ <;> rw [hj] <;> exact trivial
  generalize hl : loc i = l at hwaits hfits
  cases hwaits with
  | take => exact henter rfl .takeIn hfits (hnone rfl)
  | signal _ hs =>
    cases hs with
    | take => exact h.goto rfl hfits (fun h => by (cases h)) (by rw [hl]; rintro (h | h) <;> cases h)
    | left => exact h.goto rfl hfits (fun _ => by rw [hl]; exact trivial) (fun _ => .inr rfl)
    | right => exact h.goto rfl hfits (fun _ => by rw [hl]; exact trivial) (by rw [hl]; rintro (h | h) <;> cases h)
  | wait => exact h.goto rfl hfits (fun h => by (cases h)) (by rw [hl]; rintro (h | h) <;> cases h)
  | put => exact henter rfl .putIn hfits (hnone rfl)

end good

/-- What every run keeps. -/
structure CvInv (c : Config (Fin N) (MonitorSem N) CvLoc (TableData N)) : Prop where
  ok : c.Ok (cvPhilosophers N) Finset.univ
  mon : MonitorRuns Finset.univ (c.map CvLoc.inMonitor TableData.mon)
  good : CvGood c.loc c.data

variable {c c' : Config (Fin N) (MonitorSem N) CvLoc (TableData N)}

/-- While the mutex is free, there is no session. -/
theorem CvInv.no_session (h : CvInv c) (hmutex : 1 ≤ Sems.permits Finset.univ c.toSems .mutex) (p : Fin N) :
    ¬ (c.loc p).Session := by
  intro hs
  obtain ⟨hinside, hsignalling⟩ := idle_of_mutex h.mon hmutex (Finset.mem_univ p)
  rcases hs.inMonitor p with hl | hl
  · exact hinside hl
  · exact hsignalling hl

theorem CvInv.step (h : CvInv c) (hN : 2 ≤ N) (hstep : Step (cvPhilosophers N) Finset.univ c c') : CvInv c' := by
  refine ⟨hstep.ok h.ok, ?_, ?_⟩
  · rcases cvPhilosophers_refines.step h.ok hstep with hstep' | hsame
    · exact h.mon.tail hstep'
    · rw [hsame]
      exact h.mon
  · cases hstep with
    | skip p l d _ hp hcall => exact h.good.call hN hcall
    | up p s l d _ hp hcall => exact h.good.call hN hcall
    | take p s l d _ hp hcall hs =>
      refine (h.good.call hN hcall).back (waits_goto hcall) fun hmutex q hq => ?_
      subst hmutex
      have hnone := h.no_session (Sems.permits_pos hs)
      by_cases hqp : q = p
      · rw [hqp, Function.update_self] at hq
        have hwaits := (cvPhilosophers N).waits_of_call _ _ _ _ _ _ hcall
        cases hwaits with
        | take => exact hq
        | put => exact hq
      · rw [Function.update_of_ne hqp] at hq
        exact hnone q hq
    | block p s l d _ hp hcall hs => exact h.good.call hN hcall
    | wake p s _ hp =>
      refine h.good.back (h.ok.waits p s (.inr hp)) fun hmutex => ?_
      subst hmutex
      exact h.no_session (h.ok.sems.permits_pos_of_granted (Finset.mem_univ p) hp)

theorem cvPhilosophersInit_inv : CvInv (cvPhilosophersInit N) := by
  have hmonitor : (monitorInit (Fin N) N).Ok (monitorThreads (Fin N) N) Finset.univ := monitorInit_ok
  refine ⟨⟨hmonitor.sems, hmonitor.mem, fun p s hp => ?_⟩, Relation.ReflTransGen.refl, ?_⟩
  · change Phase.runs = .blocked s ∨ Phase.runs = .granted s at hp
    rcases hp with hp | hp <;> cases hp
  · refine ⟨fun i hi => ?_, fun i => rfl, fun i j hi => ?_, fun j hj => ?_⟩
    · cases hi
    · cases hi
    · cases hj.1

theorem philosophers_condvar (hN : 2 ≤ N) (hruns : Runs (cvPhilosophers N) Finset.univ (cvPhilosophersInit N) c) :
    (∀ i, c.data.state i = .eating → c.data.state (left i) ≠ .eating ∧ c.data.state (right i) ≠ .eating) ∧
    (∀ i, c.loc i = .eating → c.data.state i = .eating) ∧
    (0 < c.value .mutex → ∀ i, ¬ CanEat c.data.state i) := by
  have h : CvInv c := invariant_of_step CvInv hruns cvPhilosophersInit_inv fun _ _ ha hstep => ha.step hN hstep
  refine ⟨h.good.apart.neighbours, fun i hi => ?_, fun hfree i hi => ?_⟩
  · have hfits := h.good.fits i
    rw [hi] at hfits
    exact hfits
  · obtain ⟨p, hp, -⟩ := h.good.fed i hi
    refine h.no_session (Sems.permits_pos hfree) p ?_
    rcases hp with hp | hp <;> rw [hp] <;> exact trivial

/-- The dining philosophers, with semaphores and with condition variables, at a table of any size and in any order. Two
neighbours do not eat at the same time; between taking and putting forks a philosopher eats; and when the mutex is free no
philosopher is hungry while its neighbours do not eat. -/
theorem dining_philosophers (N : ℕ) (hN : 2 ≤ N) :
    (∀ c, Runs (philosophers N) Finset.univ (philosophersInit N) c →
      (∀ i, c.data i = .eating → c.data (left i) ≠ .eating ∧ c.data (right i) ≠ .eating) ∧
      (∀ i, c.loc i = .eating → c.data i = .eating) ∧
      (0 < c.value .mutex → ∀ i, ¬ (c.data i = .hungry ∧ c.data (left i) ≠ .eating ∧ c.data (right i) ≠ .eating))) ∧
    ∀ c, Runs (cvPhilosophers N) Finset.univ (cvPhilosophersInit N) c →
      (∀ i, c.data.state i = .eating → c.data.state (left i) ≠ .eating ∧ c.data.state (right i) ≠ .eating) ∧
      (∀ i, c.loc i = .eating → c.data.state i = .eating) ∧
      (0 < c.value .mutex →
        ∀ i, ¬ (c.data.state i = .hungry ∧ c.data.state (left i) ≠ .eating ∧ c.data.state (right i) ≠ .eating)) :=
  ⟨fun _ hruns => philosophers_sema hN hruns, fun _ hruns => philosophers_condvar hN hruns⟩

/-- The first of five philosophers eats. -/
def firstEats : Fin 5 → PhiState := Function.update (Function.update (fun _ => .thinking) 0 .hungry) 0 .eating

/-- One of five philosophers, as in the source, takes its forks. -/
theorem dining_philosophers_five :
    ∃ c, Runs (philosophers 5) Finset.univ (philosophersInit 5) c ∧ c.loc 0 = .eating ∧ c.data 0 = .eating := by
  have hrun₁ : Runs (philosophers 5) Finset.univ (philosophersInit 5) _ := .single
    (.take (c := philosophersInit 5) 0 .mutex .takeEnter (fun _ => .thinking) (Finset.mem_univ _) rfl (.takeDown _) (by decide))
  have hrun₂ := hrun₁.tail (.up 0 (.s 0) .takeUp firstEats (Finset.mem_univ _) rfl
    (show PhiCall 0 .takeIn (fun _ => .thinking) _ _ _ from .take _ _ _ (.eats (by decide))))
  have hrun₃ := hrun₂.tail (.up 0 .mutex .takeWait firstEats (Finset.mem_univ _) rfl
    (show PhiCall 0 .takeUp firstEats _ _ _ from .takeUp _))
  have hrun₄ := hrun₃.tail (.take 0 (.s 0) .takeWait firstEats (Finset.mem_univ _) rfl
    (show PhiCall 0 .takeWait firstEats _ _ _ from .takeWait _) (by decide))
  exact ⟨_, hrun₄, rfl, ((dining_philosophers 5 (by decide)).1 _ hrun₄).2.1 0 rfl⟩

end Ucore.Sync
