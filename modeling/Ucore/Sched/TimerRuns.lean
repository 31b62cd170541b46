import Ucore.Sched.Timer

/-!
# Runs of the timers

* `TimerRun` are the runs in which processes go to sleep in `do_sleep`, timers are deleted, `run_timer_list` is called at
  the ticks, and the scheduler does whatever it does. A process with a timer in the list is in `do_sleep`.
* The deadlines are read from the events of a run: `deadline` is the tick at which a timer is due, and `Armed` says
  that it will fire then. `TimerRun.inv` connects them with the list, which stores differences.
* `timer_list` is about the calls of `run_timer_list` in which a timer fires.
-/

namespace Ucore.Sched

open Ucore.Lib Ucore.Process

variable {s s' : TimerState} {c c' : SchedState} {D : ℕ → ℕ} {now x p : ℕ}

/-! ### The owners of the timers -/

/-- The process `x` is in `do_sleep`, or on its way out of it. -/
structure InSleep (c : SchedState) (x : ℕ) : Prop where
  mem : x ∈ c.procList
  state : (c.proc x).state ≠ .zombie
  waitState : (c.proc x).waitState = 0 ∨ (c.proc x).waitState = wtTimer

theorem InSleep.steady (h : InSleep c x) (hsteady : Steady c c' x) : InSleep c' x where
  mem := hsteady.mem
  state := by
    rcases hsteady.state with heq | heq <;> rw [heq]
    · exact h.state
    · nofun
  waitState := by
    rcases hsteady.waitState with heq | heq <;> rw [heq]
    · exact h.waitState
    · exact Or.inl rfl

/-- The owners of the timers in the list are in `do_sleep`. -/
def OwnersOk (s : TimerState) : Prop := ∀ x ∈ s.timerList, ∃ p, (s.timer x).proc = some p ∧ InSleep s.sched p

/-- The invariant of the timers: at the tick `now`, those in the list are due at the ticks `D`. -/
structure TimerInv (s : TimerState) (now : ℕ) (D : ℕ → ℕ) : Prop where
  timers : TimersAt s now D
  queue : ∃ t, QueueInv s.sched t
  owners : OwnersOk s

theorem onSched_post {α : Type} {m : SchedProg α} {Q : α → SchedState → Prop} {E : SchedError → SchedState → Prop}
    {P : SchedPanic → Prop} (h : (m.run s.sched).Post Q E P) : ((onSched m).run s).Post
      (fun a s' => ∃ c, s' = { s with sched := c } ∧ Q a c) (fun e s' => ∃ c, s' = { s with sched := c } ∧ E e c)
      (fun e => ∃ e', e = .sched e' ∧ P e') := by
  unfold onSched Prog.zoom
  simp only
  cases hrun : m.run s.sched with
  | ok a c =>
    rw [hrun] at h
    exact ⟨c, rfl, h⟩
  | error e c =>
    rw [hrun] at h
    exact ⟨c, rfl, h⟩
  | panic e =>
    rw [hrun] at h
    exact ⟨e, rfl, h⟩

/-! ### `run_timer_list` -/

/-- **The loop of `run_timer_list`** fires the timers that are due now, from the front of the list. -/
theorem fire_post (fuel : ℕ) (l : List ℕ) (hl : s.timerList = l) (hqueue : ∃ t, QueueInv s.sched t) (howners : OwnersOk s)
    (hdeltas : Deltas s.ticks D now l) (hnodup : l.Nodup) (hlt : ∀ x ∈ l, D x < now + 2 ^ 32) :
    ((fire fuel l).run s).Post
      (fun fired s' => l = fired ++ s'.timerList ∧ (∀ x ∈ fired, D x = now) ∧ TimerInv s' now D ∧
        (∀ x, (s'.timer x).proc = (s.timer x).proc) ∧
        (∀ p, (s.sched.proc p).state = .runnable → (s'.sched.proc p).state = .runnable) ∧
        ∀ x ∈ fired, ∃ p, (s.timer x).proc = some p ∧ (s'.sched.proc p).state = .runnable)
      (fun _ _ => False) (fun e => e = .sched .loop ∧ fuel < s.sched.procList.length) := by
  induction l generalizing s with
  | nil =>
    refine ⟨hl.symm, nofun, ⟨⟨?_, ?_, ?_, ?_⟩, hqueue, howners⟩, fun _ => rfl, fun _ h => h, nofun⟩ <;> rw [hl]
    · exact List.nodup_nil
    · trivial
    · nofun
    · nofun
  | cons timer l ih =>
    obtain ⟨hD, hrest⟩ := hdeltas
    rw [fire, Prog.run_bind, Prog.run_get, Outcome.andThen_ok, Prog.run_ite]
    by_cases hzero : (s.timer timer).expires = 0
    · have hticks : s.ticks timer = 0 := by
        rw [TimerState.ticks, hzero]
        rfl
      rw [hticks, Nat.add_zero] at hD
      obtain ⟨t, hinv⟩ := hqueue
      obtain ⟨p, hp, hsleep⟩ := howners timer (by rw [hl]; exact List.mem_cons_self)
      rw [if_pos hzero, hp]
      simp only
      have hwait : (s.sched.proc p).waitState = 0 ∨ (s.sched.proc p).waitState &&& wtInterrupted ≠ 0 := by
        refine hsleep.waitState.imp_right fun heq => ?_
        rw [heq]
        decide
      rw [Prog.run_bind, Prog.run_assert_of _ _ hwait, Outcome.andThen_ok]
      refine ((onSched_post (wakeupProc_post fuel hinv (Or.inr hsleep.mem))).mono (fun _ _ hQ => hQ)
        (fun _ _ hE => by obtain ⟨-, -, hE⟩ := hE; exact hE) ?_).bind ?_
      · rintro _ ⟨e, rfl, ⟨-, hz⟩ | ⟨rfl, hlt⟩⟩
        · exact absurd hz hsleep.state
        · exact ⟨rfl, hlt⟩
      rintro _ s₁ ⟨c, rfl, t', hinv', hwoken⟩
      have hdeltas : Deltas s.ticks D now s.timerList := by
        rw [hl]
        exact ⟨by rw [hticks, hD, Nat.add_zero], hrest⟩
      obtain ⟨s₂, hdel, hlist₂, -, hsched₂, hproc₂, htimer₂⟩ :=
        delTimer_run (s := { s with sched := c }) hdeltas (by show s.timerList.Nodup; rw [hl]; exact hnodup)
          (by intro x hx; change x ∈ s.timerList at hx; rw [hl] at hx; exact hlt x hx) timer
      rw [Prog.bind_of_ok hdel]
      have htimer : s₂.timer = s.timer := htimer₂ hticks
      have hlist : s₂.timerList = l := by
        rw [hlist₂]
        show s.timerList.erase timer = l
        rw [hl, List.erase_cons_head]
      have howners₂ : OwnersOk s₂ := by
        intro x hx
        rw [hlist] at hx
        obtain ⟨q, hq, hsleepq⟩ := howners x (by rw [hl]; exact List.mem_cons_of_mem timer hx)
        refine ⟨q, by rw [htimer]; exact hq, ?_⟩
        rw [hsched₂]
        exact hsleepq.steady (hwoken.steady hsleepq.mem)
      have hticks₂ : s₂.ticks = s.ticks := by
        unfold TimerState.ticks
        rw [htimer]
      have hpost := ih hlist (by rw [hsched₂]; exact ⟨t', hinv'⟩) howners₂ (by rw [hticks₂, hD]; exact hrest)
        (List.nodup_cons.mp hnodup).2 fun x hx => hlt x (List.mem_cons_of_mem timer hx)
      have hlen : s₂.sched.procList = s.sched.procList := by
        rw [hsched₂]
        exact hwoken.procList
      rw [hlen] at hpost
      refine hpost.bind ?_
      rintro fired s' ⟨hsplit, hdue, hinv', hproc, hrunnable, hfired⟩
      have hkept : ∀ q, (c.proc q).state = .runnable → (s'.sched.proc q).state = .runnable := by
        intro q hq
        apply hrunnable
        rw [hsched₂]
        exact hq
      refine ⟨by rw [hsplit]; rfl, fun x hx => ?_, hinv', fun x => ?_, fun q hq => hkept q ?_, fun x hx => ?_⟩
      · rcases List.mem_cons.mp hx with rfl | hx
        · exact hD.symm
        · exact hdue x hx
      · rw [hproc, htimer]
      · rw [hwoken.state, hq, ite_self]
      · rcases List.mem_cons.mp hx with rfl | hx
        · refine ⟨p, hp, hkept p ?_⟩
          rw [hwoken.state, if_pos rfl]
        · obtain ⟨q, hq, hrun⟩ := hfired x hx
          rw [htimer] at hq
          exact ⟨q, hq, hrun⟩
    · -- the first timer is not due, and neither are those behind it
      rw [if_neg hzero]
      have hpos : s.ticks timer ≠ 0 := fun heq => hzero (BitVec.eq_of_toNat_eq heq)
      refine ⟨hl.symm, nofun, ⟨⟨?_, ?_, fun x hx => ?_, ?_⟩, hqueue, howners⟩, fun _ => rfl, fun _ h => h, nofun⟩
      · rw [hl]
        exact hnodup
      · rw [hl]
        exact ⟨hD, hrest⟩
      · rw [hl] at hx
        have hle : D timer ≤ D x := by
          rcases List.mem_cons.mp hx with rfl | hx
          · exact le_refl _
          · exact hrest.base_le hx
        omega
      · rw [hl]
        exact hlt

/-- What a call of `run_timer_list` has done at the tick `now`. -/
structure Ticked (s s' : TimerState) (D : ℕ → ℕ) (now : ℕ) (fired : List ℕ) : Prop where
  inv : TimerInv s' now D
  split : s.timerList = fired ++ s'.timerList
  due : ∀ x ∈ fired, D x = now
  woken : ∀ x ∈ fired, ∃ p, (s.timer x).proc = some p ∧ (s'.sched.proc p).state = .runnable

/-- **`run_timer_list`**. The assertion on the head of the list holds. -/
theorem runTimerList_post (fuel : ℕ) (h : TimerInv s now D) : ((runTimerList fuel).run s).Post
    (fun fired s' => Ticked s s' D (now + 1) fired) (fun _ _ => False)
    (fun e => e = .sched .loop ∧ fuel < s.sched.procList.length) := by
  -- the end of the function
  have hend : ∀ fired s₁, Ticked s s₁ D (now + 1) fired → ((do
      let s ← Prog.get
      onSched (schedClassProcTick s.sched.current)
      pure fired : TimerProg (List ℕ)).run s₁).Post (fun fired s' => Ticked s s' D (now + 1) fired) (fun _ _ => False)
        (fun e => e = .sched .loop ∧ fuel < s.sched.procList.length) := by
    rintro fired s₁ ⟨⟨htimers, ⟨t, hinv⟩, howners⟩, hsplit, hdue, hwoken⟩
    obtain ⟨c, hrun, hqueue, hsame, hstrides, hcurrent⟩ := schedClassProcTick_run s₁.sched.current hinv.queue
    have hticked : (onSched (schedClassProcTick s₁.sched.current)).run s₁ = .ok () { s₁ with sched := c } := by
      unfold onSched Prog.zoom
      simp only
      rw [hrun]
    rw [Prog.run_bind, Prog.run_get, Outcome.andThen_ok, Prog.bind_of_ok hticked]
    refine ⟨⟨⟨htimers.nodup, htimers.deltas, htimers.due, htimers.lt⟩,
      ⟨t, (hsame.quiet hinv hstrides hcurrent hqueue).inv⟩, fun x hx => ?_⟩, hsplit, hdue, fun x hx => ?_⟩
    · obtain ⟨p, hp, hsleep⟩ := howners x hx
      exact ⟨p, hp, hsleep.steady (hsame.steady hsleep.mem)⟩
    · obtain ⟨p, hp, hstate⟩ := hwoken x hx
      exact ⟨p, hp, (hsame.state p).trans hstate⟩
  rw [runTimerList, Prog.run_bind, Prog.run_get, Outcome.andThen_ok]
  cases hl : s.timerList with
  | nil =>
    rw [Prog.run_bind, Prog.run_pure, Outcome.andThen_ok]
    refine hend [] s ⟨⟨⟨h.timers.nodup, ?_, ?_, ?_⟩, h.queue, h.owners⟩, rfl, nofun, nofun⟩ <;> rw [hl]
    · trivial
    · nofun
    · nofun
  | cons timer l =>
    have hdeltas := h.timers.deltas
    have hnodup := h.timers.nodup
    rw [hl] at hdeltas hnodup
    obtain ⟨hD, hrest⟩ := hdeltas
    have hhead : now < D timer := h.timers.due timer (by rw [hl]; exact List.mem_cons_self)
    have hne : (s.timer timer).expires ≠ 0 := by
      intro heq
      rw [TimerState.ticks, heq] at hD
      exact absurd hD (by rw [show (0 : BitVec 32).toNat = 0 from rfl]; omega)
    have hsub : ((s.timer timer).expires - 1).toNat = s.ticks timer - 1 := by
      refine BitVec.toNat_sub_of_le (BitVec.le_def.mpr ?_)
      exact Nat.pos_of_ne_zero fun heq => hne (BitVec.eq_of_toNat_eq heq)
    have hticks := ticks_setExpires s timer ((s.timer timer).expires - 1)
    have hout : timer ∉ l := (List.nodup_cons.mp hnodup).1
    rw [Prog.run_bind, Prog.run_bind, Prog.run_assert_of _ _ hne, Outcome.andThen_ok, setExpires, Prog.run_bind,
      Prog.run_modify, Outcome.andThen_ok]
    have hdeltas₁ : Deltas (s.setExpires timer ((s.timer timer).expires - 1)).ticks D (now + 1) (timer :: l) := by
      refine ⟨?_, hrest.congr (fun x hx => ?_) fun _ _ => rfl⟩
      · rw [hticks, if_pos rfl, hsub]
        omega
      · rw [hticks, if_neg (ne_of_mem_of_not_mem hx hout)]
    have hpost := fire_post (s := s.setExpires timer ((s.timer timer).expires - 1)) fuel (timer :: l) hl h.queue
      (fun x hx => by rw [proc_setExpires]; exact h.owners x hx) hdeltas₁ hnodup (fun x hx => by have := h.timers.lt x (by rw [hl]; exact hx); omega)
    revert hpost
    cases (fire fuel (timer :: l)).run (s.setExpires timer ((s.timer timer).expires - 1)) with
    | ok fired s₁ =>
      rintro ⟨hsplit, hdue, hinv, hproc, -, hfired⟩
      refine hend fired s₁ ⟨hinv, hl.trans hsplit, hdue, fun x hx => ?_⟩
      obtain ⟨p, hp, hrun⟩ := hfired x hx
      rw [proc_setExpires] at hp
      exact ⟨p, hp, hrun⟩
    | error e s₁ => exact fun hE => hE.elim
    | panic e => exact fun hP => hP

/-! ### `do_sleep` and `del_timer` -/

/-- **`do_sleep`**: the timer comes after those that are due no later than it is. -/
theorem doSleep_run {t : ℕ} {time : BitVec 32} (h : TimerInv s now D) (htime : time ≠ 0) (ht : t ∉ s.timerList)
    (hidle : s.sched.current ≠ s.sched.idleproc) : ∃ s' pre post, (doSleep t time).run s = .ok () s' ∧
      TimerInv s' now (Function.update D t (now + time.toNat)) ∧ s.timerList = pre ++ post ∧
      s'.timerList = pre ++ t :: post ∧ (∀ x ∈ pre, D x ≤ now + time.toNat) ∧ ∀ x ∈ post, now + time.toNat < D x := by
  obtain ⟨htimers, ⟨tree, hinv⟩, howners⟩ := h
  have hquiet := stop_effect hinv hidle (f := fun d => { d with state := .sleeping, waitState := wtTimer })
    ProcState.noConfusion rfl
  have hsleep : (onSched (beginSleep wtTimer)).run (s.setTimer t ⟨time, some s.sched.current⟩) = .ok ()
      { s.setTimer t ⟨time, some s.sched.current⟩ with
        sched := s.sched.setProc s.sched.current fun d => { d with state := .sleeping, waitState := wtTimer } } := rfl
  have htimer := timer_setTimer s t ⟨time, some s.sched.current⟩
  generalize hs₁ : ({ s.setTimer t ⟨time, some s.sched.current⟩ with
    sched := s.sched.setProc s.sched.current fun d => { d with state := .sleeping, waitState := wtTimer } } : TimerState)
    = s₁ at hsleep
  have hlist₁ : s₁.timerList = s.timerList := by rw [← hs₁]; rfl
  have hsched₁ : s₁.sched = s.sched.setProc s.sched.current fun d => { d with state := .sleeping, waitState := wtTimer } := by
    rw [← hs₁]
  have hself₁ : s₁.timer t = ⟨time, some s.sched.current⟩ := by
    rw [← hs₁]
    exact (htimer t).trans (if_pos rfl)
  have hother₁ : ∀ x ∈ s.timerList, s₁.timer x = s.timer x := by
    intro x hx
    rw [← hs₁]
    exact (htimer x).trans (if_neg (ne_of_mem_of_not_mem hx ht))
  have hticks₁ : s₁.ticks t = time.toNat := by rw [TimerState.ticks, hself₁]
  have htimers₁ : TimersAt s₁ now D := by
    refine ⟨?_, ?_, ?_, ?_⟩ <;> rw [hlist₁]
    · exact htimers.nodup
    · refine htimers.deltas.congr (fun x hx => ?_) fun _ _ => rfl
      unfold TimerState.ticks
      rw [hother₁ x hx]
    · exact htimers.due
    · exact htimers.lt
  have hpos : 0 < s₁.ticks t := by
    rw [hticks₁]
    exact Nat.pos_of_ne_zero fun heq => htime (BitVec.eq_of_toNat_eq heq)
  obtain ⟨s', pre, post, hadd, hsplit, hlist', hpre, hpost, htimers', hsched', hproc'⟩ :=
    addTimer_run htimers₁ (by rw [hlist₁]; exact ht) hpos (by rw [hself₁]; exact Option.some_ne_none _)
  rw [hticks₁] at hpre hpost htimers'
  rw [hlist₁] at hsplit
  refine ⟨s', pre, post, ?_, ⟨htimers', ?_, fun x hx => ?_⟩, hsplit, hlist', hpre, hpost⟩
  · rw [doSleep, if_neg htime, Prog.run_bind, Prog.run_modify, Outcome.andThen_ok, Prog.bind_of_ok hsleep, hadd]
  · rw [hsched', hsched₁]
    exact ⟨tree, hquiet.inv⟩
  · rw [hproc', hsched', hsched₁]
    have hstates := s.sched.field_setProc SchedProc.state s.sched.current
      fun d => { d with state := .sleeping, waitState := wtTimer }
    have hwaits := s.sched.field_setProc SchedProc.waitState s.sched.current
      fun d => { d with state := .sleeping, waitState := wtTimer }
    -- the process that goes to sleep
    have hcurrent : InSleep (s.sched.setProc s.sched.current
        fun d => { d with state := .sleeping, waitState := wtTimer }) s.sched.current := by
      refine ⟨hinv.table.current.resolve_left hidle, ?_, Or.inr ?_⟩
      · rw [hstates, if_pos rfl]
        exact ProcState.noConfusion
      · rw [hwaits, if_pos rfl]
    rw [hlist', List.perm_middle.mem_iff, ← hsplit] at hx
    rcases List.mem_cons.mp hx with rfl | hx
    · rw [hself₁]
      exact ⟨_, rfl, hcurrent⟩
    · obtain ⟨p, hp, hsleepp⟩ := howners x hx
      rw [hother₁ x hx]
      refine ⟨p, hp, ?_⟩
      by_cases hpc : p = s.sched.current
      · rw [hpc]
        exact hcurrent
      · exact hsleepp.steady (hquiet.steady p hsleepp.mem hsleepp.state hpc)

theorem TimerInv.delTimer (h : TimerInv s now D) (t : ℕ) : ∃ s', (delTimer t).run s = .ok () s' ∧ TimerInv s' now D ∧
    s'.timerList = s.timerList.erase t := by
  obtain ⟨htimers, hqueue, howners⟩ := h
  obtain ⟨s', hrun, hlist, hdeltas, hsched, hproc, -⟩ := delTimer_run htimers.deltas htimers.nodup htimers.lt t
  have hsub : ∀ x ∈ s'.timerList, x ∈ s.timerList := by
    intro x hx
    rw [hlist] at hx
    exact List.mem_of_mem_erase hx
  refine ⟨s', hrun, ⟨⟨?_, hdeltas, fun x hx => htimers.due x (hsub x hx), fun x hx => htimers.lt x (hsub x hx)⟩, ?_,
    fun x hx => ?_⟩, hlist⟩
  · rw [hlist]
    exact htimers.nodup.erase t
  · rw [hsched]
    exact hqueue
  · rw [hproc, hsched]
    exact howners x (hsub x hx)

/-! ### Runs -/

/-- What happens to the timers: a process goes to sleep in `do_sleep`, a timer is deleted, or `run_timer_list` is called
and these timers fire. -/
inductive TimerEvent where
  | added (t : ℕ) (time : BitVec 32)
  | deleted (t : ℕ)
  | ran (fired : List ℕ)
  deriving Repr, DecidableEq

/-- What a process that is in `do_sleep` does besides: it calls `schedule`, and an interrupt may wake a process. -/
def SchedAction.InDoSleep : SchedAction → Prop
  | schedule => True
  | wakeup _ => True
  | _ => False

/-- The runs, with the events in them, the last one first. A timer is on the stack of its process, and it is not in the
list before `do_sleep` puts it there. -/
inductive TimerRun : List TimerEvent → TimerState → Prop
  | boot (proc : ℕ → SchedProc) (pool : LinkMem ℕ) (idle : ℕ) (timer : ℕ → Timer) :
      TimerRun [] ⟨.boot proc pool idle, timer, []⟩
  | sleep {tr : List TimerEvent} {s s' : TimerState} (h : TimerRun tr s) (t : ℕ) (time : BitVec 32) (htime : time ≠ 0)
      (ht : t ∉ s.timerList) (hidle : s.sched.current ≠ s.sched.idleproc) (hrun : (doSleep t time).run s = .ok () s') :
      TimerRun (.added t time :: tr) s'
  | delete {tr : List TimerEvent} {s s' : TimerState} (h : TimerRun tr s) (t : ℕ)
      (hrun : (delTimer t).run s = .ok () s') : TimerRun (.deleted t :: tr) s'
  | tick {tr : List TimerEvent} {s s' : TimerState} {fired : List ℕ} (h : TimerRun tr s) (fuel : ℕ)
      (hrun : (runTimerList fuel).run s = .ok fired s') : TimerRun (.ran fired :: tr) s'
  | call {tr : List TimerEvent} {s : TimerState} {c : SchedState} (h : TimerRun tr s) (a : SchedAction) (fuel : ℕ)
      (ha : a.Allowed s.sched) (howner : ∀ t ∈ s.timerList, (s.timer t).proc = some s.sched.current → a.InDoSleep)
      (hrun : (a.prog fuel).run s.sched = .ok () c) : TimerRun tr { s with sched := c }
  | failed {tr : List TimerEvent} {s : TimerState} {c : SchedState} {e : SchedError} (h : TimerRun tr s) (a : SchedAction)
      (fuel : ℕ) (ha : a.Allowed s.sched)
      (howner : ∀ t ∈ s.timerList, (s.timer t).proc = some s.sched.current → a.InDoSleep)
      (hrun : (a.prog fuel).run s.sched = .error e c) : TimerRun tr { s with sched := c }

/-- How often `run_timer_list` has been called. -/
def runs : List TimerEvent → ℕ
  | [] => 0
  | .ran _ :: tr => runs tr + 1
  | _ :: tr => runs tr

/-- The call of `run_timer_list` in which a timer is due. -/
def deadline : List TimerEvent → ℕ → ℕ
  | [] => fun _ => 0
  | .added t time :: tr => Function.update (deadline tr) t (runs tr + time.toNat)
  | _ :: tr => deadline tr

/-- The timer has been added; since then it has not been deleted, and has not been due. -/
def Armed : List TimerEvent → ℕ → Prop
  | [], _ => False
  | .added u _ :: tr, t => t = u ∨ Armed tr t
  | .deleted u :: tr, t => t ≠ u ∧ Armed tr t
  | .ran _ :: tr, t => Armed tr t ∧ runs tr + 1 < deadline tr t

/-- When the timer was added. -/
def addedAt : List TimerEvent → ℕ → ℕ
  | [] => fun _ => 0
  | .added t _ :: tr => Function.update (addedAt tr) t tr.length
  | _ :: tr => addedAt tr

/-- The timer `t` is due before `u`; or at the same tick, and was added before. -/
def FiresBefore (tr : List TimerEvent) (t u : ℕ) : Prop :=
  deadline tr t < deadline tr u ∨ deadline tr t = deadline tr u ∧ addedAt tr t < addedAt tr u

/-- The invariant of the runs. -/
structure RunInv (tr : List TimerEvent) (s : TimerState) : Prop where
  inv : TimerInv s (runs tr) (deadline tr)
  armed : ∀ t, t ∈ s.timerList ↔ Armed tr t
  order : s.timerList.Pairwise (FiresBefore tr)
  addedAt_lt : ∀ t ∈ s.timerList, addedAt tr t < tr.length

variable {tr : List TimerEvent} {fired : List ℕ}

theorem RunInv.sleep {t : ℕ} {time : BitVec 32} (h : RunInv tr s) (htime : time ≠ 0) (ht : t ∉ s.timerList)
    (hidle : s.sched.current ≠ s.sched.idleproc) (hrun : (doSleep t time).run s = .ok () s') :
    RunInv (.added t time :: tr) s' := by
  obtain ⟨s₁, pre, post, hrun₁, hinv, hsplit, hlist, hpre, hpost⟩ := doSleep_run h.inv htime ht hidle
  rw [hrun] at hrun₁
  obtain rfl := (Outcome.ok.inj hrun₁).2
  have hne : ∀ x ∈ s.timerList, x ≠ t := fun x hx => ne_of_mem_of_not_mem hx ht
  have hdead : ∀ x ∈ s.timerList, deadline (.added t time :: tr) x = deadline tr x := fun x hx =>
    Function.update_of_ne (hne x hx) _ _
  have hdeadt : deadline (.added t time :: tr) t = runs tr + time.toNat := Function.update_self _ _ _
  have hadd : ∀ x ∈ s.timerList, addedAt (.added t time :: tr) x = addedAt tr x := fun x hx =>
    Function.update_of_ne (hne x hx) _ _
  have haddt : addedAt (.added t time :: tr) t = tr.length := Function.update_self _ _ _
  have hmem : ∀ x, x ∈ s'.timerList ↔ x = t ∨ x ∈ s.timerList := by
    intro x
    rw [hlist, List.perm_middle.mem_iff, List.mem_cons, hsplit]
  have horder := h.order
  rw [hsplit] at horder hdead hadd
  have hlt := h.addedAt_lt
  rw [hsplit] at hlt
  obtain ⟨hopre, hopost, hoboth⟩ := List.pairwise_append.mp horder
  have hinl : ∀ x ∈ pre, x ∈ pre ++ post := fun x hx => List.mem_append_left post hx
  have hinr : ∀ x ∈ post, x ∈ pre ++ post := fun x hx => List.mem_append_right pre hx
  have hkeep : ∀ x ∈ pre ++ post, ∀ y ∈ pre ++ post, FiresBefore tr x y → FiresBefore (.added t time :: tr) x y := by
    intro x hx y hy hxy
    unfold FiresBefore
    rw [hdead x hx, hdead y hy, hadd x hx, hadd y hy]
    exact hxy
  refine ⟨hinv, fun x => ?_, ?_, fun x hx => ?_⟩
  · rw [hmem, h.armed]
    rfl
  · rw [hlist]
    refine List.pairwise_append.mpr ⟨hopre.imp_of_mem fun hx hy => hkeep _ (hinl _ hx) _ (hinl _ hy),
      List.pairwise_cons.mpr ⟨fun y hy => Or.inl ?_, hopost.imp_of_mem fun hx hy => hkeep _ (hinr _ hx) _ (hinr _ hy)⟩,
      fun x hx y hy => ?_⟩
    · rw [hdeadt, hdead y (hinr y hy)]
      exact hpost y hy
    · rcases List.mem_cons.mp hy with rfl | hy
      · unfold FiresBefore
        rw [hdeadt, hdead x (hinl x hx), hadd x (hinl x hx), haddt]
        exact (Nat.lt_or_eq_of_le (hpre x hx)).imp_right fun heq => ⟨heq, hlt x (hinl x hx)⟩
      · exact hkeep x (hinl x hx) y (hinr y hy) (hoboth x hx y hy)
  · rw [List.length_cons]
    rcases (hmem x).mp hx with rfl | hx
    · rw [haddt]
      exact Nat.lt_succ_self _
    · rw [hsplit] at hx
      rw [hadd x hx]
      exact (hlt x hx).trans (Nat.lt_succ_self _)

theorem RunInv.delete {t : ℕ} (h : RunInv tr s) (hrun : (Sched.delTimer t).run s = .ok () s') :
    RunInv (.deleted t :: tr) s' := by
  obtain ⟨s₁, hrun₁, hinv, hlist⟩ := h.inv.delTimer t
  rw [hrun] at hrun₁
  obtain rfl := (Outcome.ok.inj hrun₁).2
  refine ⟨hinv, fun x => ?_, ?_, fun x hx => ?_⟩
  · rw [hlist, h.inv.timers.nodup.mem_erase_iff, h.armed]
    rfl
  · rw [hlist]
    exact h.order.sublist List.erase_sublist
  · rw [hlist] at hx
    exact (h.addedAt_lt x (List.mem_of_mem_erase hx)).trans (Nat.lt_succ_self _)

/-- Those timers fire that are due now. -/
theorem RunInv.fired_iff (h : RunInv tr s) (hticked : Ticked s s' (deadline tr) (runs tr + 1) fired) (t : ℕ) :
    t ∈ fired ↔ Armed tr t ∧ deadline tr t = runs tr + 1 := by
  rw [← h.armed, hticked.split, List.mem_append]
  constructor
  · exact fun ht => ⟨Or.inl ht, hticked.due t ht⟩
  · rintro ⟨ht | ht, hdue⟩
    · exact ht
    · exact absurd (hticked.inv.timers.due t ht) (by rw [hdue]; exact lt_irrefl _)

theorem RunInv.tick (h : RunInv tr s) (hticked : Ticked s s' (deadline tr) (runs tr + 1) fired) :
    RunInv (.ran fired :: tr) s' := by
  have hsub : s'.timerList.Sublist s.timerList := by
    rw [hticked.split]
    exact List.sublist_append_right _ _
  refine ⟨hticked.inv, fun x => ?_, h.order.sublist hsub, fun x hx => ?_⟩
  · constructor
    · exact fun hx => ⟨(h.armed x).mp (hsub.subset hx), hticked.inv.timers.due x hx⟩
    · rintro ⟨harmed, hdue⟩
      have hx := (h.armed x).mpr harmed
      rw [hticked.split, List.mem_append] at hx
      refine hx.resolve_left fun hx => ?_
      rw [hticked.due x hx] at hdue
      exact absurd hdue (lt_irrefl _)
  · exact (h.addedAt_lt x (hsub.subset hx)).trans (Nat.lt_succ_self _)

/-- The scheduler changes, but the owners of the timers stay in `do_sleep`. -/
theorem RunInv.call {t' : BinTree ℕ} (h : RunInv tr s) (hinv : QueueInv c t')
    (hsteady : ∀ t ∈ s.timerList, ∀ p, (s.timer t).proc = some p → InSleep s.sched p → Steady s.sched c p) :
    RunInv tr { s with sched := c } := by
  obtain ⟨⟨htimers, -, howners⟩, harmed, horder, hadded⟩ := h
  refine ⟨⟨⟨htimers.nodup, htimers.deltas, htimers.due, htimers.lt⟩, ⟨t', hinv⟩, fun x hx => ?_⟩, harmed, horder, hadded⟩
  obtain ⟨p, hp, hsleep⟩ := howners x hx
  exact ⟨p, hp, hsleep.steady (hsteady x hx p hp hsleep)⟩

/-- A process in `do_sleep` stays there, or is woken. -/
theorem SchedAction.Effect.steady {t : BinTree ℕ} {a : SchedAction} (h : a.Effect c c' t) (hx : InSleep c x)
    (hcurrent : x = c.current → a.InDoSleep) : Steady c c' x := by
  have hquiet : ¬ a.InDoSleep → Quiet c c' t → Steady c c' x := fun hnot hquiet =>
    hquiet.steady x hx.mem hx.state fun heq => hnot (hcurrent heq)
  cases a with
  | wakeup p =>
    obtain ⟨t', hjoined, -⟩ := h
    exact hjoined.steady x hx.mem
  | schedule =>
    obtain ⟨t₁, t', hsched, -⟩ := h
    exact hsched.table.steady hx.mem
  | fork mem copied =>
    cases mem with
    | none => exact hquiet id h
    | some p =>
      obtain ⟨t', hjoined⟩ := h
      exact hjoined.steady x hx.mem
  | sleep waitState => exact hquiet id h
  | exit => exact hquiet id h
  | reap p => exact hquiet id h
  | setPriority priority => exact hquiet id h
  | tick => exact hquiet id h
  | yield => exact hquiet id h

/-- An error is returned by `do_fork` only. -/
theorem SchedAction.not_inDoSleep_of_error {a : SchedAction} {e : SchedError} {fuel : ℕ} {t : BinTree ℕ}
    (hinv : QueueInv c t) (ha : a.Allowed c) (hrun : (a.prog fuel).run c = .error e c') : ¬ a.InDoSleep := by
  cases a with
  | wakeup p =>
    have hpost := wakeupProc_post fuel hinv ha
    rw [show (wakeupProc fuel p).run c = .error e c' from hrun] at hpost
    exact hpost.elim
  | schedule =>
    have hpost := schedule_post fuel hinv
    rw [show (Sched.schedule fuel).run c = .error e c' from hrun] at hpost
    exact hpost.elim
  | fork mem copied => exact id
  | sleep waitState => exact id
  | exit => exact id
  | reap p => exact id
  | setPriority priority => exact id
  | tick => exact id
  | yield => exact id

/-- **The invariant along the runs.** -/
theorem TimerRun.inv (h : TimerRun tr s) : RunInv tr s := by
  induction h with
  | boot proc pool idle timer =>
    refine ⟨⟨⟨List.nodup_nil, trivial, nofun, nofun⟩, ⟨.nil, queueInv_boot proc pool idle⟩, nofun⟩,
      fun t => iff_of_false List.not_mem_nil id, List.Pairwise.nil, nofun⟩
  | sleep h t time htime ht hidle hrun ih => exact ih.sleep htime ht hidle hrun
  | delete h t hrun ih => exact ih.delete hrun
  | tick h fuel hrun ih =>
    have hpost := runTimerList_post fuel ih.inv
    rw [hrun] at hpost
    exact ih.tick hpost
  | call h a fuel ha howner hrun ih =>
    obtain ⟨t, hinv⟩ := ih.inv.queue
    have hpost := a.post fuel hinv ha
    rw [hrun] at hpost
    obtain ⟨t', hinv'⟩ := SchedAction.Effect.inv hpost
    refine ih.call hinv' fun u hu p hp hsleep => SchedAction.Effect.steady hpost hsleep fun heq => ?_
    exact howner u hu (by rw [hp, heq])
  | failed h a fuel ha howner hrun ih =>
    obtain ⟨t, hinv⟩ := ih.inv.queue
    have hpost := a.post fuel hinv ha
    rw [hrun] at hpost
    refine ih.call (Quiet.inv hpost) fun u hu p hp hsleep => ?_
    refine Quiet.steady hpost p hsleep.mem hsleep.state fun heq => ?_
    exact SchedAction.not_inDoSleep_of_error hinv ha hrun (howner u hu (by rw [hp, heq]))

/-! ### The calls in which a timer fires -/

/-- The timer is neither added nor deleted in these events. -/
def Untouched (t : ℕ) (tr : List TimerEvent) : Prop := ∀ e ∈ tr, e ≠ .deleted t ∧ ∀ time, e ≠ .added t time

theorem runs_append (seg tr : List TimerEvent) : runs (seg ++ tr) = runs seg + runs tr := by
  induction seg with
  | nil => exact (Nat.zero_add _).symm
  | cons e seg ih =>
    cases e with
    | ran fired =>
      show runs (seg ++ tr) + 1 = runs seg + 1 + runs tr
      rw [ih]
      omega
    | added t time => exact ih
    | deleted t => exact ih

/-- A timer that is left alone is armed until it is due. -/
theorem armed_of_untouched {t : ℕ} {time : BitVec 32} (htime : time ≠ 0) (seg earlier : List TimerEvent)
    (h : Untouched t seg) : deadline (seg ++ .added t time :: earlier) t = runs earlier + time.toNat ∧
      (Armed (seg ++ .added t time :: earlier) t ↔ runs seg < time.toNat) := by
  have hpos : 0 < time.toNat := Nat.pos_of_ne_zero fun heq => htime (BitVec.eq_of_toNat_eq heq)
  induction seg with
  | nil => exact ⟨Function.update_self _ _ _, iff_of_true (Or.inl rfl) hpos⟩
  | cons e seg ih =>
    obtain ⟨hdead, harmed⟩ := ih fun e he => h e (List.mem_cons_of_mem _ he)
    obtain ⟨hdel, hadd⟩ := h e List.mem_cons_self
    cases e with
    | ran fired =>
      refine ⟨hdead, ?_⟩
      show Armed (seg ++ _) t ∧ runs (seg ++ _) + 1 < deadline (seg ++ _) t ↔ runs seg + 1 < _
      rw [harmed, hdead, runs_append]
      show _ ∧ runs seg + runs earlier + 1 < _ ↔ _
      omega
    | added u time' =>
      have hne : t ≠ u := by
        rintro rfl
        exact hadd time' rfl
      refine ⟨(Function.update_of_ne hne _ _).trans hdead, ?_⟩
      show t = u ∨ Armed (seg ++ _) t ↔ runs seg < _
      rw [harmed, or_iff_right hne]
    | deleted u =>
      have hne : t ≠ u := by
        rintro rfl
        exact hdel rfl
      refine ⟨hdead, ?_⟩
      show t ≠ u ∧ Armed (seg ++ _) t ↔ runs seg < _
      rw [harmed, and_iff_right hne]

/-- A timer that has been deleted is not armed before it is added again. -/
theorem not_armed_of_deleted {t : ℕ} (seg earlier : List TimerEvent) (h : ∀ time, .added t time ∉ seg) :
    ¬ Armed (seg ++ .deleted t :: earlier) t := by
  induction seg with
  | nil => exact fun harmed => harmed.1 rfl
  | cons e seg ih =>
    have hih := ih fun time hmem => h time (List.mem_cons_of_mem _ hmem)
    cases e with
    | ran fired => exact fun harmed => hih harmed.1
    | added u time =>
      rintro (rfl | harmed)
      · exact h time List.mem_cons_self
      · exact hih harmed
    | deleted u => exact fun harmed => hih harmed.2

/-- A call of `run_timer_list` is made in a state with the invariant. -/
theorem TimerRun.ran {trace : List TimerEvent} (h : TimerRun trace s) (heq : trace = .ran fired :: tr) :
    ∃ s₀ s', RunInv tr s₀ ∧ Ticked s₀ s' (deadline tr) (runs tr + 1) fired := by
  induction h with
  | boot proc pool idle timer => cases heq
  | sleep h t time htime ht hidle hrun ih => cases heq
  | delete h t hrun ih => cases heq
  | tick h fuel hrun ih =>
    cases heq
    have hpost := runTimerList_post fuel h.inv.inv
    rw [hrun] at hpost
    exact ⟨_, _, h.inv, hpost⟩
  | call h a fuel ha howner hrun ih => exact ih heq
  | failed h a fuel ha howner hrun ih => exact ih heq

/-- `add_timer` is not called with the value 0. -/
theorem TimerRun.time_ne_zero (h : TimerRun tr s) {t : ℕ} {time : BitVec 32} (hmem : .added t time ∈ tr) : time ≠ 0 := by
  induction h with
  | boot proc pool idle timer => cases hmem
  | sleep h t' time' htime ht hidle hrun ih =>
    rcases List.mem_cons.mp hmem with heq | hmem
    · cases heq
      exact htime
    · exact ih hmem
  | delete h t' hrun ih => exact ih ((List.mem_cons.mp hmem).resolve_left nofun)
  | tick h fuel hrun ih => exact ih ((List.mem_cons.mp hmem).resolve_left nofun)
  | call h a fuel ha howner hrun ih => exact ih hmem
  | failed h a fuel ha howner hrun ih => exact ih hmem

/-- **The timer list.** In every run,
* a timer that is added with the value `time`, and neither deleted nor added again, fires in the call of `run_timer_list`
  that is number `time` after that, and in no other, whatever happens to other timers;
* timers that fire in one call do so in the order in which they were added;
* a timer that has been deleted does not fire;
* the fields `expires` up to a timer add up to what is left of its value, as natural numbers: nothing has wrapped around;
* no assertion fails: `run_timer_list` returns, the timers that fire leave the list, and their processes can run. `del_timer`
  returns for every timer, and `do_sleep` for a timer that is not in the list. -/
theorem timer_list (h : TimerRun tr s) :
    (∀ fired seg earlier t time, tr = .ran fired :: (seg ++ .added t time :: earlier) → Untouched t seg →
      (t ∈ fired ↔ runs seg + 1 = time.toNat)) ∧
    (∀ fired tr₀, tr = .ran fired :: tr₀ → fired.Pairwise fun t u => addedAt tr₀ t < addedAt tr₀ u) ∧
    (∀ fired seg earlier t, tr = .ran fired :: (seg ++ .deleted t :: earlier) → (∀ time, .added t time ∉ seg) →
      t ∉ fired) ∧
    (∀ seg earlier t time pre post, tr = seg ++ .added t time :: earlier → Untouched t seg →
      s.timerList = pre ++ t :: post → ((pre ++ [t]).map s.ticks).sum + runs seg = time.toNat) ∧
    (∀ fuel, s.sched.procList.length ≤ fuel → ∃ fired s', (runTimerList fuel).run s = .ok fired s' ∧
      ∀ t ∈ fired, t ∉ s'.timerList ∧ ∃ p, (s.timer t).proc = some p ∧ (s'.sched.proc p).state = .runnable) ∧
    (∀ t, ∃ s', (delTimer t).run s = .ok () s' ∧ t ∉ s'.timerList) ∧
    ∀ t time, time ≠ 0 → t ∉ s.timerList → s.sched.current ≠ s.sched.idleproc →
      ∃ s', (doSleep t time).run s = .ok () s' ∧ t ∈ s'.timerList := by
  have hinv := h.inv
  refine ⟨fun fired seg earlier t time heq hseg => ?_, fun fired tr₀ heq => ?_, fun fired seg earlier t heq hseg hmem => ?_,
    fun seg earlier t time pre post heq hseg hlist => ?_, fun fuel hfuel => ?_, fun t => ?_,
    fun t time htime ht hidle => ?_⟩
  · obtain ⟨s₀, s', hinv₀, hticked⟩ := h.ran heq
    have htime : time ≠ 0 := h.time_ne_zero (t := t) (by rw [heq]; simp)
    obtain ⟨hdead, harmed⟩ := armed_of_untouched htime seg earlier hseg
    rw [hinv₀.fired_iff hticked, harmed, hdead, runs_append]
    show _ ∧ _ = runs seg + runs earlier + 1 ↔ _
    omega
  · obtain ⟨s₀, s', hinv₀, hticked⟩ := h.ran heq
    have hsub : fired.Sublist s₀.timerList := by
      rw [hticked.split]
      exact List.sublist_append_left _ _
    refine (hinv₀.order.sublist hsub).imp_of_mem fun ht hu hbefore => ?_
    unfold FiresBefore at hbefore
    rw [hticked.due _ ht, hticked.due _ hu] at hbefore
    exact (hbefore.resolve_left (lt_irrefl _)).2
  · obtain ⟨s₀, s', hinv₀, hticked⟩ := h.ran heq
    exact not_armed_of_deleted seg earlier hseg ((hinv₀.fired_iff hticked t).mp hmem).1
  · have htime : time ≠ 0 := h.time_ne_zero (t := t) (by rw [heq]; simp)
    obtain ⟨hdead, -⟩ := armed_of_untouched htime seg earlier hseg
    have hdeltas := hinv.inv.timers.deltas
    rw [hlist] at hdeltas
    have hsum := hdeltas.sum
    rw [heq, hdead, runs_append] at hsum
    change runs seg + runs earlier + _ = _ at hsum
    omega
  · have hpost := runTimerList_post fuel hinv.inv
    revert hpost
    cases (runTimerList fuel).run s with
    | ok fired s' =>
      refine fun hticked => ⟨fired, s', rfl, fun t ht => ⟨fun hmem => ?_, hticked.woken t ht⟩⟩
      have hdue := hticked.inv.timers.due t hmem
      rw [hticked.due t ht] at hdue
      exact absurd hdue (lt_irrefl _)
    | error e s' => exact fun hE => hE.elim
    | panic e => exact fun hP => absurd hP.2 (Nat.not_lt.mpr hfuel)
  · obtain ⟨s', hrun, -, hlist⟩ := hinv.inv.delTimer t
    refine ⟨s', hrun, ?_⟩
    rw [hlist]
    exact hinv.inv.timers.nodup.not_mem_erase
  · obtain ⟨s', pre, post, hrun, -, -, hlist, -⟩ := doSleep_run hinv.inv htime ht hidle
    refine ⟨s', hrun, ?_⟩
    rw [hlist]
    exact List.mem_append_right pre List.mem_cons_self

/-- Two processes sleep for two and for one tick. The second timer fires first, and the other one in the next call. -/
theorem timer_list_two : ∃ s, TimerRun [.ran [101], .ran [102], .added 102 1, .added 101 2] s ∧ s.timerList = [] ∧
    ∃ fired s', (runTimerList 2).run s = .ok fired s' := by
  have h₀ : TimerRun [] ⟨blankSched, fun _ => ⟨0, none⟩, []⟩ := .boot _ _ 0 _
  have h₁ := h₀.call (.fork (some 1) true) 1 ⟨by decide, List.not_mem_nil⟩ nofun rfl
  have h₂ := h₁.call (.fork (some 2) true) 2 ⟨by decide, by decide⟩ nofun rfl
  have h₃ := h₂.call .schedule 2 trivial nofun rfl
  have h₄ := h₃.sleep 101 2 (by decide) List.not_mem_nil (show (2 : ℕ) ≠ 0 by decide) rfl
  have h₅ := h₄.call .schedule 2 trivial (fun _ _ _ => trivial) rfl
  have h₆ := h₅.sleep 102 1 (by decide) (show 102 ∉ [101] by decide) (show (1 : ℕ) ≠ 0 by decide) rfl
  have h₇ := h₆.call .schedule 2 trivial (fun _ _ _ => trivial) rfl
  have h₈ := h₇.tick 2 rfl
  have h₉ := h₈.tick 2 rfl
  obtain ⟨fired, s', hrun, -⟩ := (timer_list h₉).2.2.2.2.1 2 (by decide)
  exact ⟨_, h₉, rfl, fired, s', hrun⟩

end Ucore.Sched
