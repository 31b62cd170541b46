import Ucore.Sched.Queue

/-!
# Runs of the scheduler

* `SchedAction` are the calls that concern the run queue, and `SchedReach` the states that they lead to, in any order.
  Going to sleep and exiting are the steps up to the call of `schedule`; what is woken in between is woken in steps of
  its own.
* `SchedAction.post` says of each call what it does to the heap and to the set of the processes that can run.
* `run_queue` is the membership in the run queue.
-/

namespace Ucore.Sched

open Ucore.Lib Ucore.Process Ucore.Lib.BinTree

variable {s s' : SchedState} {t t' : BinTree ℕ} {p x : ℕ} {ok : SchedState → SchedAction → Prop}

/-! ### The calls -/

/-- A call by the current process, or by an interrupt. -/
inductive SchedAction where
  | wakeup (p : ℕ)
  | schedule
  | fork (mem : Option ℕ) (copied : Bool)
  | sleep (waitState : ℕ)
  | exit
  | reap (p : ℕ)
  | setPriority (priority : BitVec 32)
  | tick
  | yield
  deriving Repr, DecidableEq

/-- The code of a call. -/
def SchedAction.prog (fuel : ℕ) : SchedAction → SchedProg Unit
  | wakeup p => wakeupProc fuel p
  | schedule => Sched.schedule fuel
  | fork mem copied => doFork fuel mem copied
  | sleep waitState => beginSleep waitState
  | exit => doExit
  | reap p => Sched.reap p
  | setPriority priority => Sched.setPriority priority
  | tick => do
    let s ← Prog.get
    schedClassProcTick s.current
  | yield => doYield

/-- What the callers see to: only processes are woken; a child gets memory in which there is no process; `idleproc`, which
runs `cpu_idle` only, does not sleep; and what is reaped has exited. -/
def SchedAction.Allowed (s : SchedState) : SchedAction → Prop
  | wakeup p => p = s.idleproc ∨ p ∈ s.procList
  | fork (some p) _ => p ≠ s.idleproc ∧ p ∉ s.procList
  | sleep _ => s.current ≠ s.idleproc
  | reap p => p ∈ s.procList ∧ (s.proc p).state = .zombie ∧ p ≠ s.current
  | _ => True

/-- The states that calls lead to, from the start of the machine on, where `ok` holds of each call and of the state before
it. A call may return an error. -/
inductive SchedReach (ok : SchedState → SchedAction → Prop) : SchedState → Prop
  | boot (proc : ℕ → SchedProc) (pool : LinkMem ℕ) (idle : ℕ) : SchedReach ok (.boot proc pool idle)
  | step {s s' : SchedState} (h : SchedReach ok s) (a : SchedAction) (fuel : ℕ) (ha : a.Allowed s) (hok : ok s a)
      (hrun : (a.prog fuel).run s = .ok () s') : SchedReach ok s'
  | failed {s s' : SchedState} {e : SchedError} (h : SchedReach ok s) (a : SchedAction) (fuel : ℕ) (ha : a.Allowed s)
      (hok : ok s a) (hrun : (a.prog fuel).run s = .error e s') : SchedReach ok s'

/-! ### What the calls do -/

/-- The process `x` is as it was, or has been woken. -/
structure Steady (s s' : SchedState) (x : ℕ) : Prop where
  mem : x ∈ s'.procList
  state : (s'.proc x).state = (s.proc x).state ∨ (s'.proc x).state = .runnable
  waitState : (s'.proc x).waitState = (s.proc x).waitState ∨ (s'.proc x).waitState = 0

/-- No process joins those that can run, and the run queue is the same. -/
structure Quiet (s s' : SchedState) (t : BinTree ℕ) : Prop where
  inv : QueueInv s' t
  runnable : ∀ x, s'.Runnable x → s.Runnable x ∧ (s'.proc x).stride = (s.proc x).stride
  steady : ∀ x ∈ s.procList, (s.proc x).state ≠ .zombie → x ≠ s.current → Steady s s' x

/-- The process `p` may have joined those that can run, with the stride `stride`. -/
structure Joined (s s' : SchedState) (t t' : BinTree ℕ) (p : ℕ) (stride : BitVec 32) : Prop where
  inv : QueueInv s' t'
  runnable : ∀ x, s'.Runnable x →
    x = p ∧ ¬ s.Runnable p ∧ (s'.proc x).stride = stride ∨ s.Runnable x ∧ (s'.proc x).stride = (s.proc x).stride
  heap : t' = t ∨ p ∉ t.nodes ∧ t' = merge (Before (procStrideComp s'.proc)) t (.node .nil p .nil)
  steady : ∀ x ∈ s.procList, Steady s s' x

/-- The effect of a call that returns. -/
def SchedAction.Effect (s s' : SchedState) (t : BinTree ℕ) : SchedAction → Prop
  | wakeup p => ∃ t', Joined s s' t t' p (s.proc p).stride ∧ s'.procList = s.procList
  | fork (some p) _ => ∃ t', Joined s s' t t' p 0
  | schedule => ∃ t₁ t', Scheduled s s' t t₁ t' ∧ QueueInv s' t'
  | _ => Quiet s s' t

theorem SameTable.steady (h : SameTable s s') (hx : x ∈ s.procList) : Steady s s' x :=
  ⟨by rw [h.procList]; exact hx, Or.inl (h.state x), Or.inl (h.waitState x)⟩

theorem Woken.steady (hwoken : Woken s s' t t' p) (hx : x ∈ s.procList) : Steady s s' x where
  mem := by
    rw [hwoken.procList]
    exact hx
  state := by
    rw [hwoken.state]
    split_ifs
    · exact Or.inr rfl
    · exact Or.inl rfl
  waitState := hwoken.waitState x

theorem Woken.joined (hwoken : Woken s s' t t' p) (hinv : QueueInv s' t') : Joined s s' t t' p (s.proc p).stride where
  inv := hinv
  runnable x hx := by
    obtain ⟨hlist, hstate⟩ := hx
    rw [hwoken.procList] at hlist
    rw [hwoken.state] at hstate
    by_cases hxp : x = p
    · rw [hxp]
      by_cases hp : s.Runnable p
      · exact Or.inr ⟨hp, hwoken.strides p⟩
      · exact Or.inl ⟨rfl, hp, hwoken.strides p⟩
    · rw [if_neg hxp] at hstate
      exact Or.inr ⟨⟨hlist, hstate⟩, hwoken.strides x⟩
  heap := by
    rw [procStrideComp_congr hwoken.strides]
    exact hwoken.heap
  steady _ hx := hwoken.steady hx

theorem wakeup_effect (fuel : ℕ) (h : QueueInv s t) (hp : p = s.idleproc ∨ p ∈ s.procList) :
    ((wakeupProc fuel p).run s).Post
      (fun _ s' => ∃ t', Joined s s' t t' p (s.proc p).stride ∧ s'.procList = s.procList) (fun _ _ => False)
      (fun e => e = .wakeupZombie ∧ (s.proc p).state = .zombie ∨ e = .loop ∧ fuel < s.procList.length) :=
  (wakeupProc_post fuel h hp).mono (fun _ _ ⟨t', hinv, hwoken⟩ => ⟨t', hwoken.joined hinv, hwoken.procList⟩)
    (fun _ _ hE => hE) fun _ hP => hP

/-- Only the current process changes, and it does not join those that can run. -/
theorem quiet_of_current (h : QueueInv s t) (f : SchedProc → SchedProc)
    (hstate : (f (s.proc s.current)).state = .runnable → (s.proc s.current).state = .runnable)
    (hstride : (f (s.proc s.current)).stride = (s.proc s.current).stride)
    (hidle : s.current = s.idleproc → (f (s.proc s.current)).state = .runnable) :
    Quiet s (s.setProc s.current f) t := by
  have hstates := s.field_setProc SchedProc.state s.current f
  have hother : ∀ x, x ≠ s.current → ((s.setProc s.current f).Runnable x ↔ s.Runnable x) := by
    intro x hx
    unfold SchedState.Runnable
    rw [hstates, if_neg hx, SchedState.procList_setProc]
  refine ⟨⟨⟨h.table.idle, ?_, h.table.current, h.table.nodup, h.table.nr, h.table.lt⟩,
    ⟨h.queue.heap, h.queue.num⟩, fun x => ?_⟩, fun x hx => ?_, fun x hx _ hxc => ⟨hx, Or.inl ?_, Or.inl ?_⟩⟩
  rotate_right 2
  · rw [hstates, if_neg hxc]
  · rw [s.field_setProc SchedProc.waitState, if_neg hxc]
  · rw [SchedState.idleproc_setProc, hstates]
    split_ifs with heq
    · exact hidle heq.symm
    · exact h.table.idleState
  · rw [h.mem, SchedState.current_setProc]
    exact and_congr_left fun hx => (hother x hx).symm
  · by_cases hxc : x = s.current
    · obtain ⟨hlist, hx⟩ := hx
      rw [hstates, if_pos hxc] at hx
      rw [s.field_setProc SchedProc.stride, if_pos hxc, hxc]
      exact ⟨⟨hxc ▸ hlist, hstate hx⟩, hstride⟩
    · rw [s.field_setProc SchedProc.stride, if_neg hxc]
      exact ⟨(hother x hxc).mp hx, rfl⟩

theorem Quiet.refl (h : QueueInv s t) : Quiet s s t :=
  ⟨h, fun _ hx => ⟨hx, rfl⟩, fun _ hx _ _ => (SameTable.refl s).steady hx⟩

/-- The process table is the same, and so are the strides. -/
theorem SameTable.quiet (hsame : SameTable s s') (h : QueueInv s t) (hstrides : SameStrides s s')
    (hcurrent : s'.current = s.current) (hqueue : QueueAt s' t) : Quiet s s' t where
  inv := by
    refine ⟨h.table.congr hsame ?_, hqueue, fun x => ?_⟩
    · rw [hcurrent, hsame.idleproc, hsame.procList]
      exact h.table.current
    · rw [h.mem, hsame.runnable, hcurrent]
  runnable x hx := ⟨hsame.runnable.mp hx, hstrides x⟩
  steady _ hx _ _ := hsame.steady hx

/-- A change of a field that neither the state nor the stride is. -/
theorem quiet_setProc (h : QueueInv s t) {f : SchedProc → SchedProc} (hstate : ∀ d, (f d).state = d.state)
    (hstride : ∀ d, (f d).stride = d.stride) : Quiet s (s.setProc s.current f) t := by
  refine quiet_of_current h f (fun hrun => ?_) (hstride _) fun hidle => ?_
  · rwa [hstate] at hrun
  · rw [hstate, hidle]
    exact h.table.idleState

/-- A tick changes the time slice and `need_resched`. -/
theorem schedClassProcTick_run (p : ℕ) (h : QueueAt s t) : ∃ s', (schedClassProcTick p).run s = .ok () s' ∧
    QueueAt s' t ∧ SameTable s s' ∧ SameStrides s s' ∧ s'.current = s.current := by
  rw [schedClassProcTick, Prog.run_bind, Prog.run_get, Outcome.andThen_ok, Prog.run_ite]
  by_cases hidle : p ≠ s.idleproc
  · rw [if_pos hidle, strideProcTick, setProc, Prog.run_bind, Prog.run_modify, Outcome.andThen_ok, setProc, Prog.run_modify]
    have htick : ∀ {β : Type} (F : SchedProc → β), (∀ d e, F { d with timeSlice := e } = F d) →
        ∀ d, F (if d.timeSlice > 0 then { d with timeSlice := d.timeSlice - 1 } else d) = F d := by
      intro β F hF d
      split_ifs
      · exact hF d _
      · rfl
    have hresched : ∀ {β : Type} (F : SchedProc → β), (∀ d e, F { d with needResched := e } = F d) →
        ∀ d, F (if d.timeSlice = 0 then { d with needResched := true } else d) = F d := by
      intro β F hF d
      split_ifs
      · exact hF d _
      · rfl
    refine ⟨_, rfl, ⟨h.heap, h.num⟩, (sameTable_setProc s p (htick SchedProc.state fun _ _ => rfl)
      (htick SchedProc.priority fun _ _ => rfl) (htick SchedProc.waitState fun _ _ => rfl)).trans
      (sameTable_setProc _ p (hresched SchedProc.state fun _ _ => rfl) (hresched SchedProc.priority fun _ _ => rfl)
        (hresched SchedProc.waitState fun _ _ => rfl)), fun x => ?_, rfl⟩
    exact (SchedState.field_setProc_of_eq SchedProc.stride _ p (hresched SchedProc.stride fun _ _ => rfl) x).trans
      (s.field_setProc_of_eq SchedProc.stride p (htick SchedProc.stride fun _ _ => rfl) x)
  · rw [if_neg hidle]
    exact ⟨_, rfl, ⟨h.heap, h.num⟩, sameTable_setProc s p (fun _ => rfl) (fun _ => rfl) fun _ => rfl,
      s.field_setProc_of_eq SchedProc.stride p fun _ => rfl, rfl⟩

/-- The current process goes to sleep or exits: it is not one of those that can run any more. -/
theorem stop_effect (h : QueueInv s t) (hidle : s.current ≠ s.idleproc) {f : SchedProc → SchedProc}
    (hstate : (f (s.proc s.current)).state ≠ .runnable) (hstride : (f (s.proc s.current)).stride = (s.proc s.current).stride) :
    Quiet s (s.setProc s.current f) t :=
  quiet_of_current h f (fun hrun => absurd hrun hstate) hstride fun heq => absurd heq hidle

/-- What has exited could not run. -/
theorem reap_effect (h : QueueInv s t) (hp : p ∈ s.procList) (hz : (s.proc p).state = .zombie) (hne : p ≠ s.current) :
    Quiet s { s with procList := s.procList.erase p, nrProcess := s.nrProcess - 1 } t := by
  have hmem : ∀ x, x ∈ s.procList.erase p ↔ x ≠ p ∧ x ∈ s.procList := fun x => h.table.nodup.mem_erase_iff
  have hlen := List.length_erase_of_mem hp
  have hpos := List.length_pos_of_mem hp
  have hrunnable : ∀ x, SchedState.Runnable { s with procList := s.procList.erase p, nrProcess := s.nrProcess - 1 } x ↔
      s.Runnable x := by
    intro x
    show x ∈ s.procList.erase p ∧ _ ↔ _
    rw [hmem]
    refine ⟨fun hx => ⟨hx.1.2, hx.2⟩, fun hx => ⟨⟨?_, hx.1⟩, hx.2⟩⟩
    rintro rfl
    rw [hx.2] at hz
    cases hz
  refine ⟨⟨⟨?_, h.table.idleState, ?_, h.table.nodup.erase p, ?_, ?_⟩, ⟨h.queue.heap, h.queue.num⟩, fun x => ?_⟩,
    fun x hx => ⟨(hrunnable x).mp hx, rfl⟩, fun x hx hxz _ => ⟨(hmem x).mpr ⟨?_, hx⟩, Or.inl rfl, Or.inl rfl⟩⟩
  rotate_right
  · rintro rfl
    exact hxz hz
  · exact fun hidle => h.table.idle ((hmem _).mp hidle).2
  · exact h.table.current.imp_right fun hc => (hmem _).mpr ⟨Ne.symm hne, hc⟩
  · show s.nrProcess - 1 = ((s.procList.erase p).length : ℤ) + 1
    rw [h.table.nr, hlen]
    omega
  · show (s.procList.erase p).length < maxProcess
    have hlt := h.table.lt
    omega
  · rw [hrunnable, h.mem]

/-- **`do_fork`** -/
theorem doFork_effect (fuel : ℕ) (h : QueueInv s t) (mem : Option ℕ) (copied : Bool)
    (hmem : ∀ p, mem = some p → p ≠ s.idleproc ∧ p ∉ s.procList) : ((doFork fuel mem copied).run s).Post
      (fun _ s' => ∃ p, mem = some p ∧ ∃ t', Joined s s' t t' p 0) (fun _ s' => Quiet s s' t) (fun _ => True) := by
  rw [doFork, Prog.run_bind, Prog.run_get, Outcome.andThen_ok, Prog.run_ite]
  by_cases hnr : s.nrProcess ≥ maxProcess
  · rw [if_pos hnr]
    exact Quiet.refl h
  rw [if_neg hnr]
  cases mem with
  | none => exact Quiet.refl h
  | some p =>
    obtain ⟨hidle, hlist⟩ := hmem p rfl
    have hpt : p ∉ t.nodes := fun hp => hlist ((h.mem p).mp hp).1.1
    simp only
    rw [Prog.run_bind, Prog.run_modify, Outcome.andThen_ok]
    have hproc : ∀ x, x ≠ p → (s.setProc p fun _ => allocProc).proc x = s.proc x := fun x hx =>
      Function.update_of_ne hx _ _
    have hself : (s.setProc p fun _ => allocProc).proc p = allocProc := Function.update_self _ _ _
    -- the memory for the child is not part of anything yet
    have hquiet : Quiet s { s.setProc p fun _ => allocProc with pool := skewHeapInit s.pool p } t := by
      have hrunnable : ∀ x, SchedState.Runnable { s.setProc p fun _ => allocProc with pool := skewHeapInit s.pool p } x ↔
          s.Runnable x := by
        intro x
        refine and_congr_right fun hx => ?_
        show ((s.setProc p fun _ => allocProc).proc x).state = _ ↔ _
        rw [hproc x (by rintro rfl; exact hlist hx)]
      refine ⟨⟨⟨h.table.idle, ?_, h.table.current, h.table.nodup, h.table.nr, h.table.lt⟩, ⟨?_, h.queue.num⟩,
        fun x => ?_⟩, fun x hx => ⟨(hrunnable x).mp hx, ?_⟩, fun x hx _ _ => ⟨hx, Or.inl ?_, Or.inl ?_⟩⟩
      rotate_right 2
      · exact congrArg SchedProc.state (hproc x (ne_of_mem_of_not_mem hx hlist))
      · exact congrArg SchedProc.waitState (hproc x (ne_of_mem_of_not_mem hx hlist))
      · show ((s.setProc p fun _ => allocProc).proc s.idleproc).state = _
        rw [hproc _ (Ne.symm hidle)]
        exact h.table.idleState
      · refine h.queue.heap.frame fun x hx => Function.update_of_ne ?_ _ _
        rintro rfl
        exact hpt hx
      · rw [hrunnable, h.mem]
        rfl
      · show ((s.setProc p fun _ => allocProc).proc x).stride = _
        rw [hproc x]
        rintro rfl
        exact hlist hx.1
    generalize hs₁ : { s.setProc p fun _ => allocProc with pool := skewHeapInit s.pool p } = s₁ at hquiet
    have hlist₁ : s₁.procList = s.procList := by rw [← hs₁]; rfl
    have hidle₁ : s₁.idleproc = s.idleproc := by rw [← hs₁]; rfl
    have hnr₁ : s₁.nrProcess = s.nrProcess := by rw [← hs₁]; rfl
    have hproc₁ : s₁.proc p = allocProc := by rw [← hs₁]; exact hself
    have hother₁ : ∀ x ∈ s.procList, s₁.proc x = s.proc x := by
      intro x hx
      rw [← hs₁]
      exact hproc x (ne_of_mem_of_not_mem hx hlist)
    by_cases hwait : (s.proc s.current).waitState = 0
    swap
    · rw [Prog.run_bind, Prog.run_assert_of_not _ _ hwait]
      trivial
    rw [Prog.run_bind, Prog.run_assert_of _ _ hwait, Outcome.andThen_ok, Prog.run_ite]
    cases copied with
    | false => exact hquiet
    | true =>
      rw [if_pos rfl, Prog.run_bind, Prog.run_modify, Outcome.andThen_ok]
      -- the child is in the table, and cannot run yet
      have hrunnable₂ : ∀ x, SchedState.Runnable { s₁ with procList := p :: s₁.procList, nrProcess := s₁.nrProcess + 1 } x →
          s₁.Runnable x := by
        rintro x ⟨hx, hstate⟩
        rcases List.mem_cons.mp hx with rfl | hx
        · change (s₁.proc x).state = .runnable at hstate
          rw [hproc₁] at hstate
          cases hstate
        · exact ⟨hx, hstate⟩
      have hinv₂ : QueueInv { s₁ with procList := p :: s₁.procList, nrProcess := s₁.nrProcess + 1 } t := by
        have htable := hquiet.inv.table
        have hlen := htable.nr
        refine ⟨⟨?_, htable.idleState, htable.current.imp_right (List.mem_cons_of_mem p), ?_, ?_, ?_⟩,
          ⟨hquiet.inv.queue.heap, hquiet.inv.queue.num⟩, fun x => ?_⟩
        · rintro hmem
          rcases List.mem_cons.mp hmem with heq | hmem
          · exact hidle (heq.symm.trans hidle₁)
          · exact htable.idle hmem
        · exact List.nodup_cons.mpr ⟨by rw [hlist₁]; exact hlist, htable.nodup⟩
        · show s₁.nrProcess + 1 = ((p :: s₁.procList).length : ℤ) + 1
          rw [hlen, List.length_cons]
          push_cast
          rfl
        · show (p :: s₁.procList).length < maxProcess
          rw [List.length_cons]
          rw [← hnr₁] at hnr
          omega
        · rw [hquiet.inv.mem]
          exact and_congr_left fun _ => ⟨fun hx => ⟨List.mem_cons_of_mem p hx.1, hx.2⟩, hrunnable₂ x⟩
      refine (wakeup_effect fuel hinv₂ (p := p) (Or.inr List.mem_cons_self)).mono ?_ (fun _ _ hE => hE.elim)
        fun _ _ => trivial
      rintro _ s' ⟨t', hjoined, -⟩
      refine ⟨p, rfl, t', hjoined.inv, fun x hx => ?_, hjoined.heap, fun x hx => ?_⟩
      swap
      · obtain ⟨hmem, hstate, hwait⟩ := hjoined.steady x (List.mem_cons_of_mem p (by rw [hlist₁]; exact hx))
        change _ = (s₁.proc x).state ∨ _ at hstate
        change _ = (s₁.proc x).waitState ∨ _ at hwait
        rw [hother₁ x hx] at hstate hwait
        exact ⟨hmem, hstate, hwait⟩
      rcases hjoined.runnable x hx with ⟨rfl, -, hstride⟩ | ⟨hx₂, hstride⟩
      · refine Or.inl ⟨rfl, fun hx => hlist hx.1, hstride.trans ?_⟩
        show (s₁.proc x).stride = 0
        rw [hproc₁]
        rfl
      · obtain ⟨hx, hstride₁⟩ := hquiet.runnable x (hrunnable₂ x hx₂)
        exact Or.inr ⟨hx, hstride.trans hstride₁⟩

/-- **What a call does to the run queue.** -/
theorem SchedAction.post (a : SchedAction) (fuel : ℕ) (h : QueueInv s t) (ha : a.Allowed s) :
    ((a.prog fuel).run s).Post (fun _ s' => a.Effect s s' t) (fun _ s' => Quiet s s' t) (fun _ => True) := by
  cases a with
  | wakeup p => exact (wakeup_effect fuel h ha).mono (fun _ _ hQ => hQ) (fun _ _ hE => hE.elim) fun _ _ => trivial
  | schedule =>
    refine (schedule_post fuel h).mono ?_ (fun _ _ hE => hE.elim) fun _ _ => trivial
    exact fun _ s' ⟨t₁, t', hsched⟩ => ⟨t₁, t', hsched, hsched.inv h.table⟩
  | fork mem copied =>
    refine (doFork_effect fuel h mem copied fun p hp => ?_).mono ?_ (fun _ _ hE => hE) fun _ _ => trivial
    · rw [hp] at ha
      exact ha
    · rintro _ s' ⟨p, rfl, hjoined⟩
      exact hjoined
  | sleep waitState => exact stop_effect h ha nofun rfl
  | exit =>
    rw [SchedAction.prog, doExit, Prog.run_bind, Prog.run_get, Outcome.andThen_ok, Prog.run_ite]
    split_ifs with hidle
    · trivial
    · exact stop_effect h hidle nofun rfl
  | reap p => exact reap_effect h ha.1 ha.2.1 ha.2.2
  | setPriority priority => exact quiet_setProc h (fun _ => rfl) fun _ => rfl
  | tick =>
    obtain ⟨s', hrun, hqueue, hsame, hstrides, hcurrent⟩ := schedClassProcTick_run s.current h.queue
    rw [SchedAction.prog, Prog.run_bind, Prog.run_get, Outcome.andThen_ok, hrun]
    exact hsame.quiet h hstrides hcurrent hqueue
  | yield => exact quiet_setProc h (fun _ => rfl) fun _ => rfl

/-- Every effect keeps the invariant. -/
theorem SchedAction.Effect.inv {a : SchedAction} (h : a.Effect s s' t) : ∃ t', QueueInv s' t' := by
  cases a with
  | wakeup p => exact h.imp fun t' hjoined => hjoined.1.inv
  | schedule =>
    obtain ⟨t₁, t', -, hinv⟩ := h
    exact ⟨t', hinv⟩
  | fork mem copied =>
    cases mem with
    | none => exact ⟨t, Quiet.inv h⟩
    | some p => exact h.imp fun t' hjoined => hjoined.inv
  | sleep waitState => exact ⟨t, Quiet.inv h⟩
  | exit => exact ⟨t, Quiet.inv h⟩
  | reap p => exact ⟨t, Quiet.inv h⟩
  | setPriority priority => exact ⟨t, Quiet.inv h⟩
  | tick => exact ⟨t, Quiet.inv h⟩
  | yield => exact ⟨t, Quiet.inv h⟩

theorem queueInv_boot (proc : ℕ → SchedProc) (pool : LinkMem ℕ) (idle : ℕ) :
    QueueInv (.boot proc pool idle) .nil where
  table := by
    refine ⟨List.not_mem_nil, ?_, Or.inl rfl, List.nodup_nil, rfl, show 0 < maxProcess by decide⟩
    show (Function.update proc idle _ idle).state = _
    rw [Function.update_self]
  queue := ⟨⟨trivial, rfl, List.nodup_nil, nofun⟩, rfl⟩
  mem x := iff_of_false List.not_mem_nil fun hx => List.not_mem_nil hx.1.1

/-- **The invariant of all runs.** -/
theorem SchedReach.inv (h : SchedReach ok s) : ∃ t, QueueInv s t := by
  induction h with
  | boot proc pool idle => exact ⟨.nil, queueInv_boot proc pool idle⟩
  | step h a fuel ha hok hrun ih =>
    obtain ⟨t, hinv⟩ := ih
    have hpost := a.post fuel hinv ha
    rw [hrun] at hpost
    exact SchedAction.Effect.inv hpost
  | failed h a fuel ha hok hrun ih =>
    obtain ⟨t, hinv⟩ := ih
    have hpost := a.post fuel hinv ha
    rw [hrun] at hpost
    exact ⟨t, Quiet.inv hpost⟩

/-- **Membership in the run queue.** After every call the nodes that can be reached from `lab6_run_pool` form a tree, in
which each process of the table is once if it can run and is not the current one; there is nothing else in it, and
`proc_num` is the number of its nodes. `schedule` goes on with a process that can run. It returns, and so does
`wakeup_proc` for a process that has not exited. -/
theorem run_queue (h : SchedReach ok s) :
    (∃ t : BinTree ℕ, HeapAt s.pool s.runPool t ∧ t.nodes.Nodup ∧
      (∀ x ∈ s.procList, x ∈ t.nodes ↔ (s.proc x).state = .runnable ∧ x ≠ s.current) ∧
      (∀ x ∈ t.nodes, x ∈ s.procList ∧ x ≠ s.idleproc) ∧ s.procNum.toNat = t.nodes.length) ∧
    (∀ fuel s', (schedule fuel).run s = .ok () s' → (s'.proc s'.current).state = .runnable) ∧
    ∀ fuel, s.procList.length ≤ fuel → (∃ s', (schedule fuel).run s = .ok () s') ∧
      ∀ p, p = s.idleproc ∨ p ∈ s.procList → (s.proc p).state ≠ .zombie → ∃ s', (wakeupProc fuel p).run s = .ok () s' := by
  obtain ⟨t, hinv⟩ := h.inv
  refine ⟨⟨t, hinv.queue.heap, hinv.queue.heap.nodup, fun x hx => ?_, fun x hx => ?_, ?_⟩, fun fuel s' hrun => ?_,
    fun fuel hfuel => ⟨?_, fun p hp hz => ?_⟩⟩
  · rw [hinv.mem]
    exact and_congr_left fun _ => and_iff_right hx
  · obtain ⟨⟨hlist, -⟩, -⟩ := (hinv.mem x).mp hx
    exact ⟨hlist, hinv.table.ne_idle hlist⟩
  · rw [hinv.queue.num, length_nodes]
  · have hpost := schedule_post fuel hinv
    rw [hrun] at hpost
    obtain ⟨t₁, t', hsched⟩ := hpost
    exact hsched.resumed hinv.table
  · have hpost := schedule_post fuel hinv
    revert hpost
    cases (schedule fuel).run s with
    | ok u s' => exact fun _ => ⟨s', rfl⟩
    | error e s' => exact fun hE => hE.elim
    | panic e => exact fun hP => absurd hP.2 (Nat.not_lt.mpr hfuel)
  · have hpost := wakeupProc_post fuel hinv hp
    revert hpost
    cases (wakeupProc fuel p).run s with
    | ok u s' => exact fun _ => ⟨s', rfl⟩
    | error e s' => exact fun hE => hE.elim
    | panic e =>
      rintro (hP | hP)
      · exact absurd hP.2 hz
      · exact absurd hP.2 (Nat.not_lt.mpr hfuel)

/-- Memory in which nothing has been written. -/
def blankSched : SchedState := .boot (fun _ => allocProc) (fun _ => ⟨none, none, none⟩) 0

/-- `idleproc` forks a process; it runs, forks another one, goes to sleep, is woken at once, and is put back. -/
theorem run_queue_woken : ∃ s, SchedReach (fun _ _ => True) s ∧ s.current = 2 ∧ s.procNum.toNat = 1 ∧
    ∀ fuel s', (schedule fuel).run s = .ok () s' → (s'.proc s'.current).state = .runnable := by
  have h₀ : SchedReach (fun _ _ => True) blankSched := .boot _ _ 0
  have h₁ := h₀.step (.fork (some 1) true) 1 ⟨by decide, List.not_mem_nil⟩ trivial rfl
  have h₂ := h₁.step .schedule 1 trivial trivial rfl
  have h₃ := h₂.step (.fork (some 2) true) 2 ⟨by decide, by decide⟩ trivial rfl
  have h₄ := h₃.step (.sleep 0x80000002) 2 (show (1 : ℕ) ≠ 0 by decide) trivial rfl
  have h₅ := h₄.step (.wakeup 1) 2 (Or.inr (by decide)) trivial rfl
  have h₆ := h₅.step .schedule 2 trivial trivial rfl
  exact ⟨_, h₆, rfl, rfl, (run_queue h₆).2.1⟩

end Ucore.Sched
