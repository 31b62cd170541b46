import Ucore.Sync.Semaphore

/-!
# Interleavings of semaphore operations

The semaphores of the kernel do what semaphores should do, whatever else wakes up processes.

* `SyncProc.Good` relates where the code of a process is to the fields that say whether it sleeps and why, and `Inv` adds
  the queues and the timers. Every call keeps it.
* `SyncState.sems` is the state as semaphores see it, and `Call.event` what a call is to them. `call_does` says that a call
  does not panic, keeps `Inv`, and does to `sems` what its event says.
* `Run` are the runs with their events, and `Traced` what the events say about the state.
-/

namespace Ucore.Sync

open Ucore.Lib Ucore.Process Ucore.Sched

/-! ### The invariant -/

/-- The process sleeps for the reason `w`, or has been woken up. -/
def SyncProc.Asleep (d : SyncProc) (w : ℕ) : Prop :=
  (d.state = .sleeping ∧ d.waitState = w) ∨ (d.state = .runnable ∧ d.waitState = 0)

/-- The fields of a process fit its site. In the queue of a semaphore it sleeps; outside, it has been granted. -/
def SyncProc.Good (d : SyncProc) : Prop :=
  match d.site with
  | .unborn => d.waitState = 0
  | .running => d.state = .runnable ∧ d.waitState = 0
  | .waiting (.sem x) =>
    (d.state = .sleeping ∧ d.waitState = wtKsem ∧ d.wait = ⟨wtInterrupted, some (.sem x)⟩) ∨
      (d.state = .runnable ∧ d.waitState = 0 ∧ d.wait = ⟨wtKsem, none⟩)
  | .waiting .stdin => d.Asleep wtKbd ∧ (d.wait.waitQueue = none ∨ d.wait.waitQueue = some .stdin)
  | .sleeping => d.Asleep wtTimer
  | .waitingChild => d.Asleep wtChild
  | .exited => d.state = .zombie ∧ d.waitState = 0

/-- Every process is good, the queues are what their `wait_t`s say, and timers belong to processes in `do_sleep`. -/
structure Inv (s : SyncState) : Prop where
  good : ∀ p, (s.proc p).Good
  nodup : ∀ q, (s.queue q).Nodup
  mem : ∀ q p, p ∈ s.queue q ↔ (s.proc p).site = .waiting q ∧ (s.proc p).wait.waitQueue = some q
  timers : ∀ p ∈ s.timers, (s.proc p).site = .sleeping
  timersNodup : s.timers.Nodup

variable {s s' : SyncState} {d : SyncProc} {p q x w : ℕ}

/-- Where a process can be woken up by others than `up`. -/
def Site.Interruptible (a : Site) : Prop := a = .waiting .stdin ∨ a = .sleeping ∨ a = .waitingChild

theorem SyncProc.Asleep.woken (h : d.Asleep w) : d.woken.Asleep w := by
  unfold SyncProc.woken
  split_ifs with hstate
  · exact .inr ⟨rfl, rfl⟩
  · exact h

theorem SyncProc.Asleep.not_zombie (h : d.Asleep w) : d.state ≠ .zombie := by
  rcases h with ⟨hstate, -⟩ | ⟨hstate, -⟩ <;> rw [hstate] <;> exact fun h => by (cases h)

theorem woken_site (d : SyncProc) : d.woken.site = d.site := by
  unfold SyncProc.woken
  split_ifs <;> rfl

theorem woken_wait (d : SyncProc) : d.woken.wait = d.wait := by
  unfold SyncProc.woken
  split_ifs <;> rfl

theorem good_stdin (hsite : d.site = .waiting .stdin) (h : d.Asleep wtKbd)
    (hwait : d.wait.waitQueue = none ∨ d.wait.waitQueue = some .stdin) : d.Good := by
  unfold SyncProc.Good
  rw [hsite]
  exact ⟨h, hwait⟩

theorem SyncProc.Good.woken (h : d.Good) (hsite : d.site.Interruptible) : d.woken.Good := by
  unfold SyncProc.Good at h ⊢
  rw [woken_site, woken_wait]
  rcases hsite with hsite | hsite | hsite
  · rw [hsite] at h ⊢
    exact ⟨h.1.woken, h.2⟩
  · rw [hsite] at h ⊢
    exact SyncProc.Asleep.woken h
  · rw [hsite] at h ⊢
    exact SyncProc.Asleep.woken h

theorem SyncProc.Good.not_zombie (h : d.Good) (hsite : d.site.Interruptible) : d.state ≠ .zombie := by
  unfold SyncProc.Good at h
  rcases hsite with hsite | hsite | hsite
  · rw [hsite] at h
    exact h.1.not_zombie
  · rw [hsite] at h
    exact SyncProc.Asleep.not_zombie h
  · rw [hsite] at h
    exact SyncProc.Asleep.not_zombie h

/-- A wait state with `WT_INTERRUPTED` belongs to a process that others may wake up. -/
theorem SyncProc.Good.interruptible (h : d.Good) (hw : d.waitState &&& wtInterrupted ≠ 0) : d.site.Interruptible := by
  unfold SyncProc.Good at h
  cases hsite : d.site with
  | unborn =>
    rw [hsite] at h
    rw [h] at hw
    exact absurd (by decide) hw
  | running =>
    rw [hsite] at h
    rw [h.2] at hw
    exact absurd (by decide) hw
  | waiting q =>
    cases q with
    | sem x =>
      rw [hsite] at h
      rcases h with ⟨-, hstate, -⟩ | ⟨-, hstate, -⟩
      · rw [hstate] at hw
        exact absurd (by decide) hw
      · rw [hstate] at hw
        exact absurd (by decide) hw
    | stdin => exact .inl rfl
  | sleeping => exact .inr (.inl rfl)
  | waitingChild => exact .inr (.inr rfl)
  | exited =>
    rw [hsite] at h
    rw [h.2] at hw
    exact absurd (by decide) hw

/-! ### The semaphores in the state -/

/-- The phase of a process. -/
def SyncProc.phase (d : SyncProc) : Phase ℕ :=
  match d.site with
  | .waiting (.sem x) => if d.state = .sleeping then .blocked x else .granted x
  | _ => .runs

/-- What semaphores see of the state. -/
def SyncState.sems (s : SyncState) : Sems ℕ ℕ :=
  { value := s.value, queue := fun x => s.queue (.sem x), phase := fun p => (s.proc p).phase }

theorem phase_sem (h : d.site = .waiting (.sem x)) : d.phase = if d.state = .sleeping then .blocked x else .granted x := by
  unfold SyncProc.phase
  rw [h]

theorem phase_of_site (h : ∀ x, d.site ≠ .waiting (.sem x)) : d.phase = .runs := by
  unfold SyncProc.phase
  cases hsite : d.site with
  | waiting q =>
    cases q with
    | sem x => exact absurd hsite (h x)
    | stdin => rfl
  | unborn => rfl
  | running => rfl
  | sleeping => rfl
  | waitingChild => rfl
  | exited => rfl

theorem phase_of_interruptible (h : d.site.Interruptible) : d.phase = .runs := by
  apply phase_of_site
  rintro x hsite
  rw [hsite] at h
  rcases h with h | h | h <;> cases h

theorem site_of_phase (h : d.phase ≠ .runs) : ∃ x, d.site = .waiting (.sem x) := by
  by_contra hsite
  push Not at hsite
  exact h (phase_of_site hsite)

/-- In `down`, a process is in the queue and sleeps, or has been granted. -/
theorem SyncProc.Good.down (h : d.Good) (hsite : d.site = .waiting (.sem x)) :
    (d.phase = .blocked x ∧ d.state = .sleeping ∧ d.waitState = wtKsem ∧ d.wait = ⟨wtInterrupted, some (.sem x)⟩) ∨
      (d.phase = .granted x ∧ d.state = .runnable ∧ d.waitState = 0 ∧ d.wait = ⟨wtKsem, none⟩) := by
  rw [phase_sem hsite]
  unfold SyncProc.Good at h
  rw [hsite] at h
  rcases h with ⟨hstate, h⟩ | ⟨hstate, h⟩
  · exact .inl ⟨if_pos hstate, hstate, h⟩
  · exact .inr ⟨if_neg (by rw [hstate]; exact fun h => by (cases h)), hstate, h⟩

theorem Inv.mem_phase (h : Inv s) (x p : ℕ) : p ∈ s.queue (.sem x) ↔ (s.proc p).phase = .blocked x := by
  rw [h.mem]
  constructor
  · rintro ⟨hsite, hwait⟩
    rcases (h.good p).down hsite with ⟨hphase, -⟩ | ⟨-, -, -, hw⟩
    · exact hphase
    · rw [hw] at hwait
      cases hwait
  · intro hphase
    obtain ⟨y, hsite⟩ := site_of_phase (d := s.proc p) (by rw [hphase]; exact fun h => by (cases h))
    rcases (h.good p).down hsite with ⟨hphase', -, -, hw⟩ | ⟨hphase', -⟩
    · rw [hphase] at hphase'
      rw [Phase.blocked.inj hphase', hsite, hw]
      exact ⟨rfl, rfl⟩
    · rw [hphase] at hphase'
      cases hphase'

/-! ### Updates -/

theorem proc_setProc (s : SyncState) (p : ℕ) (f : SyncProc → SyncProc) (q : ℕ) :
    (s.setProc p f).proc q = if q = p then f (s.proc p) else s.proc q := Function.update_apply ..

theorem setProc_setProc (s : SyncState) (p : ℕ) (f g : SyncProc → SyncProc) :
    (s.setProc p f).setProc p g = s.setProc p fun d => g (f d) := by
  simp only [SyncState.setProc, Function.update_self, Function.update_idem]

theorem setQueue_self (s : SyncState) (q : WaitQueue) : s.setQueue q (s.queue q) = s := by
  simp only [SyncState.setQueue, Function.update_eq_self]

theorem Inv.not_queued (h : Inv s) (hsite : ∀ q, (s.proc p).site ≠ .waiting q) (q : WaitQueue) : p ∉ s.queue q :=
  fun hq => hsite q ((h.mem q p).mp hq).1

/-- One process changes, and it goes into the queue `q` or out of it. -/
theorem Inv.update (h : Inv s) {f : SyncProc → SyncProc} {q : WaitQueue} {l : List ℕ} (hgood : (f (s.proc p)).Good)
    (hnodup : l.Nodup) (hothers : ∀ p', p' ≠ p → (p' ∈ l ↔ p' ∈ s.queue q))
    (hmem : p ∈ l ↔ (f (s.proc p)).site = .waiting q ∧ (f (s.proc p)).wait.waitQueue = some q)
    (hqueues : ∀ q', q' ≠ q → (p ∈ s.queue q' ↔ (f (s.proc p)).site = .waiting q' ∧ (f (s.proc p)).wait.waitQueue = some q'))
    (htimers : p ∈ s.timers → (f (s.proc p)).site = .sleeping) : Inv ((s.setQueue q l).setProc p f) := by
  have hproc : ∀ y, ((s.setQueue q l).setProc p f).proc y = if y = p then f (s.proc p) else s.proc y :=
    proc_setProc (s.setQueue q l) p f
  have hqueue : ∀ y, ((s.setQueue q l).setProc p f).queue y = if y = q then l else s.queue y :=
    Function.update_apply s.queue q l
  refine ⟨fun y => ?_, fun y => ?_, fun y z => ?_, fun y hy => ?_, h.timersNodup⟩
  · rw [hproc]
    split_ifs
    · exact hgood
    · exact h.good y
  · rw [hqueue]
    split_ifs
    · exact hnodup
    · exact h.nodup y
  · rw [hproc, hqueue]
    by_cases hz : z = p
    · rw [if_pos hz, hz]
      split_ifs with hy
      · rw [hy]
        exact hmem
      · exact hqueues y hy
    · rw [if_neg hz]
      split_ifs with hy
      · rw [hy, hothers z hz]
        exact h.mem q z
      · exact h.mem y z
  · rw [hproc]
    split_ifs with hyp
    · exact htimers (hyp ▸ hy)
    · exact h.timers y hy

/-- One process changes, and stays in its queue or out of all. -/
theorem Inv.setProc (h : Inv s) {f : SyncProc → SyncProc} (hgood : (f (s.proc p)).Good)
    (hqueues : ∀ q, p ∈ s.queue q ↔ (f (s.proc p)).site = .waiting q ∧ (f (s.proc p)).wait.waitQueue = some q)
    (htimers : p ∈ s.timers → (f (s.proc p)).site = .sleeping) : Inv (s.setProc p f) := by
  have hinv := h.update (q := .stdin) (l := s.queue .stdin) hgood (h.nodup _) (fun _ _ => Iff.rfl) (hqueues _)
    (fun q' _ => hqueues q') htimers
  rwa [setQueue_self] at hinv

/-- A process that is in no queue changes, and does not get into one. -/
theorem Inv.setProc_free (h : Inv s) {f : SyncProc → SyncProc} (hgood : (f (s.proc p)).Good)
    (hsite : ∀ q, (s.proc p).site ≠ .waiting q) (hsite' : ∀ q, (f (s.proc p)).site ≠ .waiting q)
    (htimers : p ∈ s.timers → (f (s.proc p)).site = .sleeping) : Inv (s.setProc p f) := by
  refine h.setProc hgood (fun q => ?_) htimers
  constructor
  · intro hq
    exact absurd hq (h.not_queued hsite q)
  · rintro ⟨hq, -⟩
    exact absurd hq (hsite' q)

/-- A process that is not in `down` and does not get into it changes nothing for the semaphores. -/
theorem sems_setProc {f : SyncProc → SyncProc} (h : (f (s.proc p)).phase = (s.proc p).phase) :
    (s.setProc p f).sems = s.sems := by
  unfold SyncState.sems
  congr 1
  funext y
  rw [proc_setProc]
  split_ifs with hy
  · rw [h, hy]
  · rfl


/-! ### Calls that semaphores do not see -/

/-- The program returns, keeps the invariant, and changes nothing for the semaphores. -/
def Quiet (s : SyncState) (m : SyncProg Unit) : Prop :=
  (m.run s).Post (fun _ s' => Inv s' ∧ s'.sems = s.sems) (fun _ _ => False) fun _ => False

/-- Quiet calls one after the other. -/
theorem Quiet.trans {r : Outcome SyncPanic Unit SyncState Unit} {s₁ : SyncState} (hsems : s₁.sems = s.sems)
    (h : r.Post (fun _ s' => Inv s' ∧ s'.sems = s₁.sems) (fun _ _ => False) fun _ => False) :
    r.Post (fun _ s' => Inv s' ∧ s'.sems = s.sems) (fun _ _ => False) fun _ => False :=
  h.mono (fun _ _ h => ⟨h.1, h.2.trans hsems⟩) (fun _ _ h => h) fun _ h => h

theorem Quiet.bind {m m' : SyncProg Unit} (hm : Quiet s m) (hm' : ∀ s', Inv s' → Quiet s' m') :
    Quiet s (m >>= fun _ => m') :=
  Outcome.Post.bind hm fun _ s₁ ⟨hinv, hsems⟩ => Quiet.trans hsems (hm' s₁ hinv)

theorem Quiet.pure (h : Inv s) : Quiet s (Pure.pure ()) := ⟨h, rfl⟩

theorem run_setProc (p : ℕ) (f : SyncProc → SyncProc) (s : SyncState) :
    (setProc p f).run s = .ok () (s.setProc p f) := rfl

theorem wakeupProc_run (h : (s.proc p).state ≠ .zombie) :
    (wakeupProc p).run s = .ok () (s.setProc p SyncProc.woken) := by
  unfold wakeupProc
  rw [Prog.run_bind, Prog.run_get, Outcome.andThen_ok, Prog.bind_of_ok (Prog.run_assert_of _ _ h), run_setProc]

theorem wakeupProc_quiet (h : Inv s) (hsite : (s.proc p).site.Interruptible) : Quiet s (wakeupProc p) := by
  unfold Quiet
  rw [wakeupProc_run ((h.good p).not_zombie hsite)]
  have hphase : (s.proc p).woken.phase = (s.proc p).phase := by
    rw [phase_of_interruptible hsite]
    apply phase_of_interruptible
    rw [woken_site]
    exact hsite
  refine ⟨h.setProc ((h.good p).woken hsite) (fun q => ?_) fun ht => ?_, sems_setProc hphase⟩
  · rw [woken_site, woken_wait]
    exact h.mem q p
  · rw [woken_site]
    exact h.timers p ht

theorem doKill_quiet (h : Inv s) : Quiet s (doKill p) := by
  have hinv : Inv (s.setProc p fun d => { d with exiting := true }) :=
    h.setProc (h.good p) (fun q => h.mem q p) fun ht => h.timers p ht
  have hsems : (s.setProc p fun d => { d with exiting := true }).sems = s.sems := sems_setProc rfl
  unfold doKill Quiet
  rw [Prog.run_bind, Prog.run_get, Outcome.andThen_ok]
  by_cases hexiting : (s.proc p).exiting = true
  · rw [if_neg (not_not.mpr hexiting)]
    exact Quiet.pure h
  · rw [if_pos hexiting, Prog.bind_of_ok (run_setProc _ _ _)]
    apply Quiet.trans hsems
    by_cases hint : (s.proc p).waitState &&& wtInterrupted ≠ 0
    · rw [if_pos hint]
      apply wakeupProc_quiet hinv
      rw [proc_setProc, if_pos rfl]
      exact (h.good p).interruptible hint
    · rw [if_neg hint]
      exact Quiet.pure hinv

/-- The timers change, but not those of processes that have none. -/
theorem Inv.setTimers (h : Inv s) {l : List ℕ} (hl : ∀ p ∈ l, (s.proc p).site = .sleeping) (hnodup : l.Nodup) :
    Inv { s with timers := l } := ⟨h.good, h.nodup, h.mem, hl, hnodup⟩

theorem Inv.eraseTimer (h : Inv s) (p : ℕ) : Inv { s with timers := s.timers.erase p } :=
  h.setTimers (fun y hy => h.timers y (List.mem_of_mem_erase hy)) (h.timersNodup.erase p)

theorem runTimer_quiet (h : Inv s) (hp : p ∈ s.timers) : Quiet s (runTimer p) := by
  have hsite := h.timers p hp
  have hwait : (s.proc p).waitState = 0 ∨ (s.proc p).waitState &&& wtInterrupted ≠ 0 := by
    have hgood := h.good p
    unfold SyncProc.Good at hgood
    rw [hsite] at hgood
    rcases hgood with ⟨-, hw⟩ | ⟨-, hw⟩
    · right
      rw [hw]
      decide
    · exact .inl hw
  unfold runTimer Quiet
  rw [Prog.run_bind, Prog.run_get, Outcome.andThen_ok, Prog.bind_of_ok (Prog.run_assert_of _ _ hwait)]
  exact Quiet.bind (wakeupProc_quiet h (.inr (.inl hsite))) fun s' hinv => ⟨hinv.eraseTimer p, rfl⟩

/-- The fields of a process that runs. -/
theorem Inv.running (h : Inv s) (hp : s.Running p) : (s.proc p).waitState = 0 := by
  have hgood := h.good p
  unfold SyncProc.Good at hgood
  rw [hp.2] at hgood
  exact hgood.2

theorem SyncState.Running.site (hp : s.Running p) (q : WaitQueue) : (s.proc p).site ≠ .waiting q := by
  rw [hp.2]
  exact fun h => by (cases h)

theorem SyncState.Running.not_sleeping (hp : s.Running p) (h : Inv s) : p ∉ s.timers := by
  intro ht
  have := h.timers p ht
  rw [hp.2] at this
  cases this

theorem SyncState.Running.phase (hp : s.Running p) : (s.proc p).phase = .runs := phase_of_site fun x => hp.site (.sem x)

/-- A process that runs goes to a site outside the queues. -/
theorem setProc_quiet (h : Inv s) (hp : s.Running p) {f : SyncProc → SyncProc} (hgood : (f (s.proc p)).Good)
    (hsite : ∀ q, (f (s.proc p)).site ≠ .waiting q) : Quiet s (setProc p f) := by
  refine ⟨h.setProc_free hgood hp.site hsite fun ht => absurd ht (hp.not_sleeping h), sems_setProc ?_⟩
  rw [hp.phase]
  exact phase_of_site fun x => hsite (.sem x)

theorem doSleepBegin_quiet (h : Inv s) (hp : s.Running p) : Quiet s (doSleepBegin p) := by
  have hquiet : Quiet s (setProc p fun d => { d with state := .sleeping, waitState := wtTimer, site := .sleeping }) :=
    setProc_quiet h hp (.inl ⟨rfl, rfl⟩) fun q h => by (cases h)
  unfold doSleepBegin Quiet
  rw [Prog.bind_of_ok (run_setProc _ _ _)]
  refine ⟨hquiet.1.setTimers (fun y hy => ?_) ?_, hquiet.2⟩
  · rcases List.mem_cons.mp hy with rfl | hy
    · rw [proc_setProc, if_pos rfl]
    · exact hquiet.1.timers y hy
  · exact List.nodup_cons.mpr ⟨hp.not_sleeping h, h.timersNodup⟩

theorem doWaitBegin_quiet (h : Inv s) (hp : s.Running p) : Quiet s (doWaitBegin p) :=
  setProc_quiet h hp (.inl ⟨rfl, rfl⟩) fun q h => by (cases h)


/-- A process that others may wake up goes on, when it has left the queue. -/
theorem resume_quiet (h : Inv s) (hstate : (s.proc p).state = .runnable) (hsite : (s.proc p).site.Interruptible)
    (hqueue : ∀ q, p ∉ s.queue q) (htimer : p ∉ s.timers) :
    Quiet s (setProc p fun d => { d with site := .running }) := by
  have hgood : ({ s.proc p with site := .running } : SyncProc).Good := by
    have hgood := h.good p
    unfold SyncProc.Good at hgood ⊢
    refine ⟨hstate, ?_⟩
    have hawake : ∀ w, (s.proc p).Asleep w → (s.proc p).waitState = 0 := by
      rintro w (⟨hs, -⟩ | ⟨-, hw⟩)
      · rw [hstate] at hs
        cases hs
      · exact hw
    rcases hsite with hsite | hsite | hsite
    · rw [hsite] at hgood
      exact hawake _ hgood.1
    · rw [hsite] at hgood
      exact hawake _ hgood
    · rw [hsite] at hgood
      exact hawake _ hgood
  refine ⟨h.setProc hgood (fun q => ?_) fun ht => absurd ht htimer, sems_setProc ?_⟩
  · constructor
    · intro hq
      exact absurd hq (hqueue q)
    · rintro ⟨hq, -⟩
      cases hq
  · rw [phase_of_interruptible hsite]
    exact phase_of_site fun x h => by (cases h)

theorem Inv.not_queued_of_not_waiting (h : Inv s) {a : Site} (hsite : (s.proc p).site = a) (ha : ∀ q, a ≠ .waiting q)
    (q : WaitQueue) : p ∉ s.queue q :=
  h.not_queued (fun q' hq' => ha q' (hsite.symm.trans hq')) q

theorem doSleepEnd_quiet (h : Inv s) (hstate : (s.proc p).state = .runnable) (hsite : (s.proc p).site = .sleeping) :
    Quiet s (doSleepEnd p) := by
  unfold doSleepEnd Quiet
  rw [Prog.bind_of_ok (Prog.run_modify ..)]
  refine resume_quiet (h.eraseTimer p) hstate (.inr (.inl hsite)) ?_ h.timersNodup.not_mem_erase
  exact h.not_queued_of_not_waiting hsite fun q h => by (cases h)

theorem doWaitEnd_quiet (h : Inv s) (hstate : (s.proc p).state = .runnable) (hsite : (s.proc p).site = .waitingChild) :
    Quiet s (doWaitEnd p) := by
  apply resume_quiet h hstate (.inr (.inr hsite))
  · exact h.not_queued_of_not_waiting hsite fun q h => by (cases h)
  · intro ht
    have := h.timers p ht
    rw [hsite] at this
    cases this


/-! ### Queues -/

/-- The state after `wait_queue_del`, with `f` done to the process. -/
def SyncState.unqueue (s : SyncState) (q : WaitQueue) (p : ℕ) (f : SyncProc → SyncProc) : SyncState :=
  (s.setQueue q ((s.queue q).erase p)).setProc p fun d => f { d with wait := { d.wait with waitQueue := none } }

theorem waitQueueDel_run {q : WaitQueue} (h : (s.proc p).wait.waitQueue = some q) :
    (waitQueueDel q p).run s = .ok () (s.unqueue q p id) := by
  unfold waitQueueDel
  rw [Prog.run_bind, Prog.run_get, Outcome.andThen_ok, Prog.bind_of_ok (Prog.run_assert_of _ _ h)]
  rfl

theorem unqueue_setProc (q : WaitQueue) (p : ℕ) (f g : SyncProc → SyncProc) :
    (s.unqueue q p f).setProc p g = s.unqueue q p fun d => g (f d) := setProc_setProc ..

theorem unqueue_proc (q : WaitQueue) (p : ℕ) (f : SyncProc → SyncProc) :
    (s.unqueue q p f).proc p = f { s.proc p with wait := { (s.proc p).wait with waitQueue := none } } :=
  Function.update_self ..

theorem unqueue_queue (q : WaitQueue) (p : ℕ) (f : SyncProc → SyncProc) :
    (s.unqueue q p f).queue q = (s.queue q).erase p := by
  show Function.update s.queue q ((s.queue q).erase p) q = _
  exact Function.update_self ..

/-- A process that leaves its queue. -/
theorem Inv.unqueue (h : Inv s) {q : WaitQueue} {f : SyncProc → SyncProc} (hp : p ∈ s.queue q)
    (hgood : (f { s.proc p with wait := { (s.proc p).wait with waitQueue := none } }).Good)
    (hwait : (f { s.proc p with wait := { (s.proc p).wait with waitQueue := none } }).wait.waitQueue = none) :
    Inv (s.unqueue q p f) := by
  obtain ⟨hsite, hlink⟩ := (h.mem q p).mp hp
  refine h.update hgood ((h.nodup q).erase p) (fun y hy => List.mem_erase_of_ne hy) ?_ (fun q' hq' => ?_) fun ht => ?_
  · constructor
    · intro hmem
      exact absurd hmem (h.nodup q).not_mem_erase
    · rintro ⟨-, hq⟩
      rw [hwait] at hq
      cases hq
  · constructor
    · intro hmem
      have := ((h.mem q' p).mp hmem).1
      rw [hsite] at this
      exact absurd (Site.waiting.inj this).symm hq'
    · rintro ⟨-, hq⟩
      rw [hwait] at hq
      cases hq
  · have := h.timers p ht
    rw [hsite] at this
    cases this

/-- Semaphores do not see that a process leaves the queue of `dev_stdin.c`. -/
theorem sems_unqueue_stdin {f : SyncProc → SyncProc}
    (h : (f { s.proc p with wait := { (s.proc p).wait with waitQueue := none } }).phase = (s.proc p).phase) :
    (s.unqueue .stdin p f).sems = s.sems :=
  sems_setProc (s := s.setQueue .stdin ((s.queue .stdin).erase p)) h

theorem Inv.stdin (h : Inv s) (hp : p ∈ s.queue .stdin) :
    (s.proc p).site = .waiting .stdin ∧ (s.proc p).wait.waitQueue = some .stdin ∧ (s.proc p).Asleep wtKbd := by
  obtain ⟨hsite, hlink⟩ := (h.mem _ p).mp hp
  have hgood := h.good p
  unfold SyncProc.Good at hgood
  rw [hsite] at hgood
  exact ⟨hsite, hlink, hgood.1⟩

theorem wakeupWait_run {q : WaitQueue} (flags : ℕ) (h : (s.proc p).wait.waitQueue = some q)
    (hstate : (s.proc p).state ≠ .zombie) :
    (wakeupWait q p flags).run s =
      .ok () (s.unqueue q p fun d => ({ d with wait := { d.wait with wakeupFlags := flags } } : SyncProc).woken) := by
  unfold wakeupWait
  rw [Prog.bind_of_ok (waitQueueDel_run h), Prog.bind_of_ok (run_setProc _ _ _), unqueue_setProc, wakeupProc_run,
    unqueue_setProc]
  · rfl
  · rw [unqueue_proc]
    exact hstate

/-- The process at the front of the queue of `dev_stdin.c` is woken up. -/
theorem wakeupWait_quiet (h : Inv s) (hp : p ∈ s.queue .stdin) (flags : ℕ) :
    (((wakeupWait .stdin p flags).run s).Post
      (fun _ s' => (Inv s' ∧ s'.sems = s.sems) ∧ s'.queue .stdin = (s.queue .stdin).erase p) (fun _ _ => False)
      fun _ => False) := by
  obtain ⟨hsite, hlink, hasleep⟩ := h.stdin hp
  have hinterruptible : (s.proc p).site.Interruptible := .inl hsite
  rw [wakeupWait_run flags hlink hasleep.not_zombie]
  refine ⟨⟨h.unqueue hp ?_ ?_, sems_unqueue_stdin ?_⟩, unqueue_queue ..⟩
  · refine good_stdin ?_ (SyncProc.Asleep.woken hasleep) ?_
    · rw [woken_site]
      exact hsite
    · rw [woken_wait]
      exact .inl rfl
  · rw [woken_wait]
  · rw [phase_of_interruptible hinterruptible]
    apply phase_of_interruptible
    rw [woken_site]
    exact hinterruptible

theorem wakeupQueue_quiet (flags : ℕ) {l : List ℕ} (h : Inv s) (hl : s.queue .stdin = l) :
    Quiet s (wakeupQueue .stdin flags l) := by
  induction l generalizing s with
  | nil => exact Quiet.pure h
  | cons p l ih =>
    unfold wakeupQueue
    have hp : p ∈ s.queue .stdin := by
      rw [hl]
      exact List.mem_cons_self
    refine Outcome.Post.bind (wakeupWait_quiet h hp flags) fun _ s₁ ⟨⟨hinv, hsems⟩, hqueue⟩ => ?_
    apply Quiet.trans hsems
    apply ih hinv
    rw [hqueue, hl, List.erase_cons_head]

theorem devStdinWrite_quiet (h : Inv s) : Quiet s devStdinWrite := by
  unfold devStdinWrite Quiet
  rw [Prog.run_bind, Prog.run_get, Outcome.andThen_ok]
  exact wakeupQueue_quiet wtKbd h rfl

theorem devStdinReadEnd_quiet (h : Inv s) (hstate : (s.proc p).state = .runnable) (hsite : (s.proc p).site = .waiting .stdin) :
    Quiet s (devStdinReadEnd p) := by
  have hgood := h.good p
  have htimer : p ∉ s.timers := by
    intro ht
    have := h.timers p ht
    rw [hsite] at this
    cases this
  unfold SyncProc.Good at hgood
  rw [hsite] at hgood
  unfold devStdinReadEnd waitCurrentDel Quiet
  rw [Prog.run_bind, Prog.run_bind, Prog.run_get, Outcome.andThen_ok]
  rcases hgood.2 with hlink | hlink
  · rw [if_neg (not_not.mpr hlink), Prog.run_pure, Outcome.andThen_ok]
    refine resume_quiet h hstate (.inl hsite) (fun q hq => ?_) htimer
    rw [h.mem, hlink] at hq
    cases hq.2
  · have hp : p ∈ s.queue .stdin := (h.mem _ p).mpr ⟨hsite, hlink⟩
    rw [if_pos (by rw [hlink]; exact Option.some_ne_none _), waitQueueDel_run hlink, Outcome.andThen_ok]
    have hinv : Inv (s.unqueue .stdin p id) := h.unqueue hp (good_stdin hsite hgood.1 (.inl rfl)) rfl
    have hproc := unqueue_proc (s := s) .stdin p id
    refine Quiet.trans (sems_unqueue_stdin rfl) (resume_quiet hinv ?_ (.inl ?_) (fun q hq => ?_) htimer)
    · rw [hproc]
      exact hstate
    · rw [hproc]
      exact hsite
    · rw [hinv.mem, hproc] at hq
      cases hq.2


/-- The state after `wait_current_set`. -/
def SyncState.queued (s : SyncState) (q : WaitQueue) (p w : ℕ) : SyncState :=
  (s.setQueue q (s.queue q ++ [p])).setProc p fun d =>
    { d with state := .sleeping, waitState := w, wait := ⟨wtInterrupted, some q⟩, site := .waiting q }

theorem waitCurrentSet_run (q : WaitQueue) (p w : ℕ) : (waitCurrentSet q p w).run s = .ok () (s.queued q p w) := by
  unfold waitCurrentSet waitInit waitQueueAdd
  rw [Prog.bind_of_ok (run_setProc _ _ _), Prog.bind_of_ok (run_setProc _ _ _), setProc_setProc, Prog.run_bind,
    Prog.run_bind, Prog.run_get, Outcome.andThen_ok, Prog.bind_of_ok (Prog.run_assert_of _ _ ?_)]
  · rw [Prog.bind_of_ok (Prog.run_modify ..), run_setProc, Outcome.andThen_ok, run_setProc, setProc_setProc]
    simp only [SyncState.queued, SyncState.setProc, SyncState.setQueue, Function.update_self, Function.update_idem]
  · rw [proc_setProc, if_pos rfl]

/-- A process that runs goes to the end of a queue. -/
theorem Inv.queued (h : Inv s) (hp : s.Running p) {q : WaitQueue} {w : ℕ}
    (hgood : ({ s.proc p with state := .sleeping, waitState := w, wait := ⟨wtInterrupted, some q⟩, site := .waiting q } :
      SyncProc).Good) : Inv (s.queued q p w) := by
  have hfree := h.not_queued hp.site
  refine h.update hgood ?_ (fun y hy => ?_) ?_ (fun q' hq' => ?_) fun ht => absurd ht (hp.not_sleeping h)
  · exact (h.nodup q).append (List.nodup_singleton p) (List.disjoint_singleton.mpr (hfree q))
  · rw [List.mem_append, List.mem_singleton]
    exact or_iff_left hy
  · exact ⟨fun _ => ⟨rfl, rfl⟩, fun _ => List.mem_append_right _ (List.mem_singleton_self p)⟩
  · constructor
    · intro hmem
      exact absurd hmem (hfree q')
    · rintro ⟨hq, -⟩
      exact absurd (Site.waiting.inj hq).symm hq'

theorem devStdinReadBegin_quiet (h : Inv s) (hp : s.Running p) : Quiet s (devStdinReadBegin p) := by
  unfold devStdinReadBegin Quiet
  rw [waitCurrentSet_run]
  refine ⟨h.queued hp (good_stdin rfl (.inl ⟨rfl, rfl⟩) (.inr rfl)), ?_⟩
  exact sems_setProc (s := s.setQueue .stdin (s.queue .stdin ++ [p])) hp.phase.symm

/-! ### Parents and children -/

theorem wakeupParents_quiet (h : Inv s) (l : List ℕ) : Quiet s (wakeupParents l) := by
  induction l generalizing s with
  | nil => exact Quiet.pure h
  | cons q l ih =>
    unfold wakeupParents Quiet
    rw [Prog.run_bind, Prog.run_get, Outcome.andThen_ok]
    by_cases hw : (s.proc q).waitState = wtChild
    · rw [if_pos hw]
      have hsite : (s.proc q).site.Interruptible := by
        apply (h.good q).interruptible
        rw [hw]
        decide
      exact Quiet.bind (wakeupProc_quiet h hsite) fun s' hinv => ih hinv
    · rw [if_neg hw, Prog.run_bind, Prog.run_pure, Outcome.andThen_ok]
      exact ih h

theorem doExit_quiet (h : Inv s) (hp : s.Running p) (l : List ℕ) : Quiet s (doExit p l) := by
  unfold doExit
  refine Quiet.bind (setProc_quiet h hp ⟨rfl, h.running hp⟩ fun q h => by (cases h)) fun s' hinv => ?_
  exact wakeupParents_quiet hinv l

theorem doFork_quiet (h : Inv s) (hq : (s.proc q).site = .unborn ∨ (s.proc q).site = .exited) : Quiet s (doFork q) := by
  have hwaiting : ∀ q', (s.proc q).site ≠ .waiting q' := by
    intro q' hsite
    rw [hsite] at hq
    rcases hq with hq | hq <;> cases hq
  unfold doFork Quiet
  rw [Prog.bind_of_ok (run_setProc _ _ _), wakeupProc_run, setProc_setProc]
  · refine ⟨h.setProc_free ⟨rfl, rfl⟩ hwaiting (fun q h => by (cases h)) fun ht => ?_, sems_setProc ?_⟩
    · rw [h.timers q ht] at hq
      rcases hq with hq | hq <;> cases hq
    · rw [phase_of_site fun x => hwaiting (.sem x)]
      rfl
  · rw [proc_setProc, if_pos rfl]
    exact fun h => by (cases h)


/-! ### Calls on semaphores -/

/-- What a call is to the semaphores. -/
inductive SemEvent where
  /-- An `up`, and the process that it grants the unit to. -/
  | up (x : ℕ) (granted : Option ℕ)
  /-- A `down` that returns without blocking, or a `try_down` that succeeds. -/
  | pass (x p : ℕ)
  /-- A `down` that blocks. -/
  | queue (x p : ℕ)
  /-- A `down` that has blocked returns. -/
  | leave (x p : ℕ)
  | other
  deriving Repr, DecidableEq

/-- The event of a return from `schedule`. -/
def resumeEvent (p : ℕ) : Site → SemEvent
  | .waiting (.sem x) => .leave x p
  | _ => .other

/-- The event of a call in the state `s`. -/
def Call.event (s : SyncState) : Call → SemEvent
  | .up _ x => .up x (s.queue (.sem x)).head?
  | .down p x => if s.value x > 0 then .pass x p else .queue x p
  | .tryDown p x => if s.value x > 0 then .pass x p else .other
  | .resume p => resumeEvent p (s.proc p).site
  | _ => .other

/-- What an event does to the semaphores. -/
def SemEvent.apply (m : Sems ℕ ℕ) : SemEvent → Sems ℕ ℕ
  | .up x none => { m with value := Function.update m.value x (int32 (m.value x + 1)) }
  | .up x (some _) => m.up x
  | .pass x _ => { m with value := Function.update m.value x (int32 (m.value x - 1)) }
  | .queue x p => m.block x p
  | .leave _ p => m.wake p
  | .other => m

/-- When an event can happen. -/
def SemEvent.Possible (m : Sems ℕ ℕ) : SemEvent → Prop
  | .up x granted => granted = (m.queue x).head?
  | .pass x _ => 0 < m.value x
  | .queue x p => ¬ 0 < m.value x ∧ m.phase p = .runs
  | .leave x p => m.phase p = .granted x
  | .other => True

/-- The program returns, keeps the invariant, and is the event `e` to the semaphores. -/
def Does (s : SyncState) (m : SyncProg Unit) (e : SemEvent) : Prop :=
  ∃ s', m.run s = .ok () s' ∧ Inv s' ∧ s'.sems = e.apply s.sems ∧ e.Possible s.sems

theorem Quiet.does {m : SyncProg Unit} (h : Quiet s m) : Does s m .other := by
  obtain ⟨_, s', hrun, hinv, hsems⟩ := Outcome.Post.exists_ok h
  exact ⟨s', hrun, hinv, hsems, trivial⟩

/-- The value of a semaphore changes. -/
theorem Inv.setValue (h : Inv s) (x : ℕ) (n : ℤ) : Inv (s.setValue x n) :=
  ⟨h.good, h.nodup, h.mem, h.timers, h.timersNodup⟩

/-- A process that waits in a queue for a semaphore. -/
theorem Inv.queued_sem (h : Inv s) (hp : p ∈ s.queue (.sem x)) :
    (s.proc p).site = .waiting (.sem x) ∧ (s.proc p).state = .sleeping ∧ (s.proc p).waitState = wtKsem ∧
      (s.proc p).wait = ⟨wtInterrupted, some (.sem x)⟩ := by
  obtain ⟨hsite, hlink⟩ := (h.mem _ p).mp hp
  rcases (h.good p).down hsite with ⟨-, hdown⟩ | ⟨-, -, -, hw⟩
  · exact ⟨hsite, hdown⟩
  · rw [hw] at hlink
    cases hlink

theorem woken_of_sleeping (h : d.state = .sleeping) : d.woken = { d with state := .runnable, waitState := 0 } :=
  if_pos (by rw [h]; exact fun h => by (cases h))

theorem phase_woken (hsite : d.site = .waiting (.sem x)) (h : d.state = .sleeping) : d.woken.phase = .granted x := by
  have hwoken : d.woken.site = .waiting (.sem x) := by
    rw [woken_site]
    exact hsite
  rw [phase_sem hwoken, woken_of_sleeping h]
  rfl

theorem good_granted (hsite : d.site = .waiting (.sem x)) (h : d.state = .sleeping) (hwait : d.wait = ⟨wtKsem, none⟩) :
    d.woken.Good := by
  unfold SyncProc.Good
  rw [woken_site, hsite, woken_wait, woken_of_sleeping h]
  exact .inr ⟨rfl, rfl, hwait⟩

/-- A process and the queue of a semaphore change. -/
theorem sems_update (s : SyncState) (x p : ℕ) (l : List ℕ) (f : SyncProc → SyncProc) :
    ((s.setQueue (.sem x) l).setProc p f).sems =
      { s.sems with
        queue := Function.update s.sems.queue x l
        phase := Function.update s.sems.phase p (f (s.proc p)).phase } := by
  refine Sems.ext rfl (funext fun y => ?_) (funext fun y => ?_)
  · show Function.update s.queue (.sem x) l (.sem y) = Function.update (fun x => s.queue (.sem x)) x l y
    simp only [Function.update_apply, WaitQueue.sem.injEq]
  · show (Function.update s.proc p (f (s.proc p)) y).phase =
      Function.update (fun p => (s.proc p).phase) p (f (s.proc p)).phase y
    simp only [Function.update_apply]
    split_ifs <;> rfl

theorem up_does (h : Inv s) (x : ℕ) : Does s (up x) (.up x (s.queue (.sem x)).head?) := by
  unfold Does up upState
  rw [Prog.run_bind, Prog.run_get, Outcome.andThen_ok]
  cases hqueue : s.queue (.sem x) with
  | nil => exact ⟨_, Prog.run_modify .., h.setValue x _, rfl, congrArg List.head? hqueue.symm⟩
  | cons p l =>
    have hp : p ∈ s.queue (.sem x) := by
      rw [hqueue]
      exact List.mem_cons_self
    obtain ⟨hsite, hstate, hw, hwait⟩ := h.queued_sem hp
    have hlink : (s.proc p).wait.waitQueue = some (.sem x) := by rw [hwait]
    have hzombie : (s.proc p).state ≠ .zombie := by
      rw [hstate]
      exact fun h => by (cases h)
    simp only
    rw [Prog.bind_of_ok (Prog.run_assert_of _ _ hw), wakeupWait_run wtKsem hlink hzombie]
    refine ⟨_, rfl, h.unqueue hp ?_ ?_, ?_, congrArg List.head? hqueue.symm⟩
    · exact good_granted hsite hstate rfl
    · rw [woken_wait]
    · have hup : s.sems.up x = _ := Sems.up_of_cons (c := s.sems) hqueue
      show _ = s.sems.up x
      rw [hup, SyncState.unqueue, sems_update, hqueue, List.erase_cons_head]
      refine congrArg (fun a => ({ s.sems with
        queue := Function.update s.sems.queue x l, phase := Function.update s.sems.phase p a } : Sems ℕ ℕ)) ?_
      exact phase_woken hsite hstate

theorem downBegin_does (h : Inv s) (hp : s.Running p) (x : ℕ) :
    Does s (downBegin p x) (if s.value x > 0 then .pass x p else .queue x p) := by
  unfold Does downBegin downBeginState
  rw [Prog.run_bind, Prog.run_get, Outcome.andThen_ok]
  by_cases hv : s.value x > 0
  · rw [if_pos hv, if_pos hv]
    exact ⟨_, Prog.run_modify .., h.setValue x _, rfl, hv⟩
  · rw [if_neg hv, if_neg hv, waitCurrentSet_run]
    refine ⟨_, rfl, h.queued hp (.inl ⟨rfl, rfl, rfl⟩), ?_, hv, hp.phase⟩
    exact sems_update s x p _ _

theorem tryDown_does (h : Inv s) (p x : ℕ) :
    Does s (Call.exec (.tryDown p x)) (if s.value x > 0 then .pass x p else .other) := by
  unfold Does Call.exec Sync.tryDown
  rw [Prog.run_bind, Prog.run_bind, Prog.run_get, Outcome.andThen_ok]
  by_cases hv : s.value x > 0
  · rw [if_pos hv, if_pos hv]
    exact ⟨_, rfl, h.setValue x _, rfl, hv⟩
  · rw [if_neg hv, if_neg hv]
    exact ⟨s, rfl, h, rfl, trivial⟩

theorem downEnd_does (h : Inv s) (hstate : (s.proc p).state = .runnable) (hsite : (s.proc p).site = .waiting (.sem x)) :
    Does s (downEnd p x) (.leave x p) := by
  rcases (h.good p).down hsite with ⟨-, hsleeping, -⟩ | ⟨hphase, -, hw, hwait⟩
  · rw [hstate] at hsleeping
    cases hsleeping
  · have hlink : (s.proc p).wait.waitQueue = none := by rw [hwait]
    have hflags : ((s.setProc p fun d => { d with site := .running }).proc p).wait.wakeupFlags = wtKsem := by
      rw [proc_setProc, if_pos rfl, hwait]
    unfold Does downEnd downEndState waitCurrentDel
    rw [Prog.run_bind, Prog.run_bind, Prog.run_bind, Prog.run_get, Outcome.andThen_ok, if_neg (not_not.mpr hlink),
      Prog.run_pure, Outcome.andThen_ok, Prog.bind_of_ok (run_setProc _ _ _), Prog.run_bind, Prog.run_get,
      Outcome.andThen_ok, if_neg (not_not.mpr hflags), Prog.run_pure, Outcome.andThen_ok, Prog.run_assert_of _ _ rfl]
    refine ⟨_, rfl, h.setProc ⟨hstate, hw⟩ (fun q => ?_) fun ht => ?_, ?_, hphase⟩
    · rw [h.mem, hlink]
      constructor
      · rintro ⟨-, hq⟩
        cases hq
      · rintro ⟨hq, -⟩
        cases hq
    · have := h.timers p ht
      rw [hsite] at this
      cases this
    · have := sems_update s x p (s.queue (.sem x)) fun d => { d with site := .running }
      rw [setQueue_self] at this
      rw [this]
      have hqueue : Function.update s.sems.queue x (s.queue (.sem x)) = s.sems.queue := Function.update_eq_self x _
      rw [hqueue]
      rfl

theorem resumeAt_does (h : Inv s) (hstate : (s.proc p).state = .runnable) {a : Site} (hsite : (s.proc p).site = a) :
    Does s (resumeAt p a) (resumeEvent p a) := by
  cases a with
  | waiting q =>
    cases q with
    | sem x => exact downEnd_does h hstate hsite
    | stdin => exact (devStdinReadEnd_quiet h hstate hsite).does
  | sleeping => exact (doSleepEnd_quiet h hstate hsite).does
  | waitingChild => exact (doWaitEnd_quiet h hstate hsite).does
  | unborn => exact (Quiet.pure h).does
  | running => exact (Quiet.pure h).does
  | exited => exact (Quiet.pure h).does

/-- Every call that can be made returns, keeps the invariant, and is its event to the semaphores. -/
theorem call_does (h : Inv s) {c : Call} (hc : c.Enabled s) : Does s c.exec (c.event s) := by
  cases c with
  | up p x => exact up_does h x
  | down p x => exact downBegin_does h hc x
  | tryDown p x => exact tryDown_does h p x
  | resume p => exact resumeAt_does h hc.1 rfl
  | kill p q => exact (doKill_quiet h).does
  | sleep p => exact (doSleepBegin_quiet h hc).does
  | timer q => exact (runTimer_quiet h hc).does
  | wait p => exact (doWaitBegin_quiet h hc).does
  | read p => exact (devStdinReadBegin_quiet h hc).does
  | write => exact (devStdinWrite_quiet h).does
  | exit p l => exact (doExit_quiet h hc l).does
  | fork p q => exact (doFork_quiet h hc.2).does


end Ucore.Sync
