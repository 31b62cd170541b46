import Ucore.Lib.DeltaList
import Ucore.Sched.QueueRuns

/-!
# Timers

The timers of `kern/schedule/sched.c`: `timer_list`, in which each timer stores the number of ticks after the one before.

* `addTimer`, `delTimer` and `runTimerList` are the functions of the source, `doSleep` the caller.
* `TimersAt s now D` says that the timers in the list are due at the ticks `D`, which are counted from the start of the
  machine on. `addTimer_run`, `delTimer_run` and `fire_post` are what the functions do to the deadlines.
-/

namespace Ucore.Sched

open Ucore.Lib Ucore.Process

/-- `WT_INTERRUPTED` -/
def wtInterrupted : ℕ := 0x80000000

/-- `WT_TIMER` -/
def wtTimer : ℕ := 0x80000002

/-- Source: `kern/schedule/sched.h` `timer_t` -/
structure Timer where
  expires : BitVec 32
  proc : Option ℕ
  deriving Repr, DecidableEq

/-- The scheduler and the timers. A timer is known by its address; its `timer_link` is empty when it is not in
`timerList`. -/
structure TimerState where
  sched : SchedState
  timer : ℕ → Timer
  timerList : List ℕ

/-- Where the code stops: in the scheduler, at an assertion, or at a null pointer. -/
inductive TimerPanic where
  | sched (e : SchedPanic)
  | badTimer | linked | headZero | notInterrupted | null
  deriving Repr, DecidableEq

/-- Code that works on timers. -/
abbrev TimerProg := Prog TimerPanic SchedError TimerState

/-- Code of the scheduler. -/
def onSched {α : Type} (m : SchedProg α) : TimerProg α := Prog.zoom TimerState.sched (fun c s => { s with sched := c }) .sched m

/-- Write a timer. -/
def TimerState.setTimer (s : TimerState) (t : ℕ) (d : Timer) : TimerState :=
  { s with timer := Function.update s.timer t d }

/-- Write the field `expires` of a timer. -/
def TimerState.setExpires (s : TimerState) (t : ℕ) (e : BitVec 32) : TimerState :=
  s.setTimer t { s.timer t with expires := e }

/-- Write the field `expires`, as a program. -/
def setExpires (t : ℕ) (e : BitVec 32) : TimerProg Unit := Prog.modify fun s => s.setExpires t e

/-! ### The functions -/

/-- The loop of `add_timer`, over the timers from `le` on. It returns `le` as it is after the loop; there is none when it
has come back to `timer_list`. -/
def addWalk (timer : ℕ) : List ℕ → TimerProg (Option ℕ)
  | [] => pure none
  | next :: l => do
    let s ← Prog.get
    if (s.timer timer).expires < (s.timer next).expires then do
      setExpires next ((s.timer next).expires - (s.timer timer).expires)
      pure (some next)
    else do
      setExpires timer ((s.timer timer).expires - (s.timer next).expires)
      addWalk timer l

/-- `list_add_before(le, x)`: at the end of the list when `le` is its head. -/
def listAddBefore (le : Option ℕ) (x : ℕ) : List ℕ → List ℕ
  | [] => [x]
  | y :: l => if le = some y then x :: y :: l else y :: listAddBefore le x l

/-- Source: `kern/schedule/sched.c` `add_timer` -/
def addTimer (timer : ℕ) : TimerProg Unit := do
  let s ← Prog.get
  Prog.assert ((s.timer timer).expires > 0 ∧ (s.timer timer).proc ≠ none) .badTimer
  Prog.assert (timer ∉ s.timerList) .linked
  let le ← addWalk timer s.timerList
  Prog.modify fun s => { s with timerList := listAddBefore le timer s.timerList }

/-- `list_next`: there is none after the last entry. -/
def listNext (x : ℕ) : List ℕ → Option ℕ
  | [] => none
  | y :: l => if y = x then l.head? else listNext x l

/-- Source: `kern/schedule/sched.c` `del_timer` -/
def delTimer (timer : ℕ) : TimerProg Unit := do
  let s ← Prog.get
  if timer ∈ s.timerList then do
    (if (s.timer timer).expires ≠ 0 then
      match listNext timer s.timerList with
      | some next => setExpires next ((s.timer next).expires + (s.timer timer).expires)
      | none => pure ()
    else pure () : TimerProg Unit)
    Prog.modify fun s => { s with timerList := s.timerList.erase timer }
  else pure ()

/-- The loop of `run_timer_list`, over the timers from `timer` on; `le` is read before a timer is deleted, so it follows
the list as it was. It returns the timers that have fired, in this order. -/
def fire (fuel : ℕ) : List ℕ → TimerProg (List ℕ)
  | [] => pure []
  | timer :: l => do
    let s ← Prog.get
    if (s.timer timer).expires = 0 then
      match (s.timer timer).proc with
      | none => Prog.stop .null
      | some p => do
        Prog.assert ((s.sched.proc p).waitState = 0 ∨ (s.sched.proc p).waitState &&& wtInterrupted ≠ 0) .notInterrupted
        onSched (wakeupProc fuel p)
        delTimer timer
        let fired ← fire fuel l
        pure (timer :: fired)
    else pure []

/-- `run_timer_list`. It returns the timers that have fired.
Source: `kern/schedule/sched.c` `run_timer_list` -/
def runTimerList (fuel : ℕ) : TimerProg (List ℕ) := do
  let s ← Prog.get
  let fired ← (match s.timerList with
    | [] => pure []
    | timer :: l => do
      Prog.assert ((s.timer timer).expires ≠ 0) .headZero
      setExpires timer ((s.timer timer).expires - 1)
      fire fuel (timer :: l) : TimerProg (List ℕ))
  let s ← Prog.get
  onSched (schedClassProcTick s.sched.current)
  pure fired

/-- `do_sleep` up to the call of `schedule`, with `timer` for the timer on the stack. After that call it deletes the
timer.
Source: `kern/process/proc.c` `do_sleep` -/
def doSleep (timer : ℕ) (time : BitVec 32) : TimerProg Unit :=
  if time = 0 then pure ()
  else do
    Prog.modify fun s => s.setTimer timer ⟨time, some s.sched.current⟩
    onSched (beginSleep wtTimer)
    addTimer timer

/-! ### The deadlines -/

variable {s s' : TimerState} {D : ℕ → ℕ} {now base T timer x : ℕ}

/-- The field `expires` as a number. -/
def TimerState.ticks (s : TimerState) (x : ℕ) : ℕ := (s.timer x).expires.toNat

/-- The timers in the list are due at the ticks `D`, and it is the tick `now`. -/
structure TimersAt (s : TimerState) (now : ℕ) (D : ℕ → ℕ) : Prop where
  nodup : s.timerList.Nodup
  deltas : Deltas s.ticks D now s.timerList
  due : ∀ x ∈ s.timerList, now < D x
  lt : ∀ x ∈ s.timerList, D x < now + 2 ^ 32

theorem timer_setTimer (s : TimerState) (t : ℕ) (d : Timer) (x : ℕ) :
    (s.setTimer t d).timer x = if x = t then d else s.timer x := by
  unfold TimerState.setTimer
  exact Function.update_apply _ _ _ _

theorem ticks_setExpires (s : TimerState) (t : ℕ) (e : BitVec 32) (x : ℕ) :
    (s.setExpires t e).ticks x = if x = t then e.toNat else s.ticks x := by
  unfold TimerState.ticks TimerState.setExpires
  rw [timer_setTimer]
  split_ifs <;> rfl

theorem proc_setExpires (s : TimerState) (t : ℕ) (e : BitVec 32) (x : ℕ) :
    ((s.setExpires t e).timer x).proc = (s.timer x).proc := by
  unfold TimerState.setExpires
  rw [timer_setTimer]
  split_ifs with h
  · rw [h]
  · rfl

/-- The timers have the same owners, and neither the scheduler nor the list has changed. -/
structure SameOwners (s s' : TimerState) : Prop where
  sched : s'.sched = s.sched
  timerList : s'.timerList = s.timerList
  proc : ∀ x, (s'.timer x).proc = (s.timer x).proc

theorem SameOwners.refl (s : TimerState) : SameOwners s s := ⟨rfl, rfl, fun _ => rfl⟩

theorem sameOwners_setExpires (s : TimerState) (t : ℕ) (e : BitVec 32) : SameOwners s (s.setExpires t e) :=
  ⟨rfl, rfl, proc_setExpires s t e⟩

theorem SameOwners.trans {s₁ : TimerState} (h : SameOwners s s₁) (h₁ : SameOwners s₁ s') : SameOwners s s' :=
  ⟨h₁.sched.trans h.sched, h₁.timerList.trans h.timerList, fun x => (h₁.proc x).trans (h.proc x)⟩

/-- **The loop of `add_timer`** finds the place after the timers that are due at the tick `T` or before, and stores the
distances there. -/
theorem addWalk_run (l : List ℕ) (h : Deltas s.ticks D base l) (hnodup : l.Nodup) (ht : timer ∉ l)
    (hT : base + s.ticks timer = T) : ∃ le s' pre post, (addWalk timer l).run s = .ok le s' ∧ l = pre ++ post ∧
      listAddBefore le timer l = pre ++ timer :: post ∧ (∀ y, le = some y → y ∈ l) ∧ (∀ x ∈ pre, D x ≤ T) ∧
      (∀ x ∈ post, T < D x) ∧ Deltas s'.ticks (Function.update D timer T) base (pre ++ timer :: post) ∧
      SameOwners s s' ∧ ∀ x, x ≠ timer → x ∉ l → s'.ticks x = s.ticks x := by
  have hD : ∀ x, x ≠ timer → Function.update D timer T x = D x := fun x hx => Function.update_of_ne hx _ _
  have hDt : Function.update D timer T timer = T := Function.update_self _ _ _
  induction l generalizing s base with
  | nil =>
    refine ⟨none, s, [], [], rfl, rfl, rfl, nofun, nofun, nofun, ⟨?_, trivial⟩, SameOwners.refl s, fun _ _ _ => rfl⟩
    rw [hDt, hT]
  | cons next l ih =>
    obtain ⟨hnext, hl⟩ := h
    obtain ⟨hnl, hnodup⟩ := List.nodup_cons.mp hnodup
    rw [List.mem_cons, not_or] at ht
    have hne : ∀ x ∈ l, x ≠ next := by
      rintro x hx rfl
      exact hnl hx
    have hnet : ∀ x ∈ l, x ≠ timer := by
      rintro x hx rfl
      exact ht.2 hx
    rw [addWalk, Prog.run_bind, Prog.run_get, Outcome.andThen_ok, Prog.run_ite]
    by_cases hlt : (s.timer timer).expires < (s.timer next).expires
    · -- the place is before `next`
      rw [if_pos hlt, setExpires, Prog.run_bind, Prog.run_modify, Outcome.andThen_ok]
      have hlt' : s.ticks timer < s.ticks next := BitVec.lt_def.mp hlt
      have hsub : ((s.timer next).expires - (s.timer timer).expires).toNat = s.ticks next - s.ticks timer :=
        BitVec.toNat_sub_of_le (BitVec.le_of_lt hlt)
      have hticks := ticks_setExpires s next ((s.timer next).expires - (s.timer timer).expires)
      refine ⟨some next, _, [], next :: l, rfl, rfl, ?_, fun y hy => ?_, nofun, fun x hx => ?_, ⟨?_, ?_, ?_⟩,
        sameOwners_setExpires s next _, fun x hx hxl => ?_⟩
      · rw [listAddBefore, if_pos rfl]
        rfl
      · cases hy
        exact List.mem_cons_self
      · have hle : D next ≤ D x := by
          rcases List.mem_cons.mp hx with rfl | hx
          · exact le_refl _
          · exact hl.base_le hx
        omega
      · rw [hticks, if_neg ht.1, hDt, hT]
      · rw [hticks, if_pos rfl, hsub, hDt, hD next (Ne.symm ht.1)]
        omega
      · rw [hD next (Ne.symm ht.1)]
        refine hl.congr (fun x hx => ?_) fun x hx => hD x (hnet x hx)
        rw [hticks, if_neg (hne x hx)]
      · rw [List.mem_cons, not_or] at hxl
        rw [hticks, if_neg hxl.1]
    · -- the place is after `next`
      rw [if_neg hlt, setExpires, Prog.run_bind, Prog.run_modify, Outcome.andThen_ok]
      have hge : s.ticks next ≤ s.ticks timer := Nat.le_of_not_lt fun h => hlt (BitVec.lt_def.mpr h)
      have hsub : ((s.timer timer).expires - (s.timer next).expires).toNat = s.ticks timer - s.ticks next :=
        BitVec.toNat_sub_of_le (BitVec.le_def.mpr hge)
      have hticks := ticks_setExpires s timer ((s.timer timer).expires - (s.timer next).expires)
      obtain ⟨le, s', pre, post, hrun, hsplit, hadd, hle, hpre, hpost, hdeltas, hsame, hframe⟩ := ih
        (s := s.setExpires timer ((s.timer timer).expires - (s.timer next).expires))
        (hl.congr (fun x hx => by rw [hticks, if_neg (hnet x hx)]) fun _ _ => rfl) hnodup ht.2
        (by rw [hticks, if_pos rfl, hsub]; omega)
      refine ⟨le, s', next :: pre, post, hrun, by rw [hsplit]; rfl, ?_, fun y hy => List.mem_cons_of_mem next (hle y hy),
        fun x hx => ?_, hpost, ⟨?_, ?_⟩, (sameOwners_setExpires s timer _).trans hsame, fun x hx hxl => ?_⟩
      · rw [listAddBefore, if_neg fun heq => hnl (hle next heq), hadd]
        rfl
      · rcases List.mem_cons.mp hx with rfl | hx
        · omega
        · exact hpre x hx
      · rw [hframe next (Ne.symm ht.1) hnl, hticks, if_neg (Ne.symm ht.1), hD next (Ne.symm ht.1)]
        exact hnext
      · rw [hD next (Ne.symm ht.1)]
        exact hdeltas
      · rw [List.mem_cons, not_or] at hxl
        rw [hframe x hx hxl.2, hticks, if_neg hx]

/-- **`add_timer`** -/
theorem addTimer_run (h : TimersAt s now D) (ht : timer ∉ s.timerList) (hpos : 0 < s.ticks timer)
    (hproc : (s.timer timer).proc ≠ none) : ∃ s' pre post, (addTimer timer).run s = .ok () s' ∧
      s.timerList = pre ++ post ∧ s'.timerList = pre ++ timer :: post ∧ (∀ x ∈ pre, D x ≤ now + s.ticks timer) ∧
      (∀ x ∈ post, now + s.ticks timer < D x) ∧
      TimersAt s' now (Function.update D timer (now + s.ticks timer)) ∧ s'.sched = s.sched ∧
      ∀ x, (s'.timer x).proc = (s.timer x).proc := by
  obtain ⟨le, s₁, pre, post, hrun, hsplit, hadd, -, hpre, hpost, hdeltas, hsame, -⟩ :=
    addWalk_run s.timerList h.deltas h.nodup ht rfl
  have hbad : (s.timer timer).expires > 0 ∧ (s.timer timer).proc ≠ none := ⟨BitVec.lt_def.mpr hpos, hproc⟩
  rw [addTimer, Prog.run_bind, Prog.run_get, Outcome.andThen_ok, Prog.run_bind, Prog.run_assert_of _ _ hbad,
    Outcome.andThen_ok, Prog.run_bind, Prog.run_assert_of _ _ ht, Outcome.andThen_ok, Prog.bind_of_ok hrun,
    Prog.run_modify, hsame.timerList, hadd]
  refine ⟨_, pre, post, rfl, hsplit, rfl, hpre, hpost, ⟨?_, hdeltas, fun x hx => ?_, fun x hx => ?_⟩, hsame.sched,
    hsame.proc⟩
  · rw [List.nodup_middle, ← hsplit]
    exact List.nodup_cons.mpr ⟨ht, h.nodup⟩
  · rcases List.perm_middle.mem_iff.mp hx |> List.mem_cons.mp with rfl | hx
    · rw [Function.update_self]
      omega
    · rw [← hsplit] at hx
      rw [Function.update_of_ne (ne_of_mem_of_not_mem hx ht)]
      exact h.due x hx
  · rcases List.perm_middle.mem_iff.mp hx |> List.mem_cons.mp with rfl | hx
    · have hlt : s.ticks x < 2 ^ 32 := (s.timer x).expires.isLt
      rw [Function.update_self]
      omega
    · rw [← hsplit] at hx
      rw [Function.update_of_ne (ne_of_mem_of_not_mem hx ht)]
      exact h.lt x hx

theorem listNext_append {pre post : List ℕ} (h : timer ∉ pre) :
    listNext timer (pre ++ timer :: post) = post.head? := by
  induction pre with
  | nil => rw [List.nil_append, listNext, if_pos rfl]
  | cons y pre ih =>
    rw [List.mem_cons, not_or] at h
    rw [List.cons_append, listNext, if_neg (Ne.symm h.1), ih h.2]

/-- **`del_timer`**: the timer is not in the list any more, and the others are due when they were. -/
theorem delTimer_run (h : Deltas s.ticks D base s.timerList) (hnodup : s.timerList.Nodup)
    (hlt : ∀ x ∈ s.timerList, D x < base + 2 ^ 32) (timer : ℕ) : ∃ s', (delTimer timer).run s = .ok () s' ∧
      s'.timerList = s.timerList.erase timer ∧ Deltas s'.ticks D base s'.timerList ∧ s'.sched = s.sched ∧
      (∀ x, (s'.timer x).proc = (s.timer x).proc) ∧ (s.ticks timer = 0 → s'.timer = s.timer) := by
  rw [delTimer, Prog.run_bind, Prog.run_get, Outcome.andThen_ok, Prog.run_ite]
  by_cases ht : timer ∈ s.timerList
  swap
  · rw [if_neg ht]
    refine ⟨s, rfl, (List.erase_of_not_mem ht).symm, h, rfl, fun _ => rfl, fun _ => rfl⟩
  rw [if_pos ht]
  obtain ⟨pre, post, hsplit⟩ := List.append_of_mem ht
  rw [hsplit] at h hnodup hlt
  obtain ⟨hpre, -, -⟩ : timer ∉ pre ∧ timer ∉ post ∧ True := by
    have hn := List.nodup_middle.mp hnodup
    have hout := (List.nodup_cons.mp hn).1
    rw [List.mem_append, not_or] at hout
    exact ⟨hout.1, hout.2, trivial⟩
  have herase : s.timerList.erase timer = pre ++ post := by
    rw [hsplit, List.erase_append_right _ hpre, List.erase_cons_head]
  have hnext : listNext timer s.timerList = post.head? := by rw [hsplit, listNext_append hpre]
  by_cases hzero : (s.timer timer).expires ≠ 0
  swap
  · -- nothing is to be handed on
    have hticks : s.ticks timer = 0 := by
      rw [TimerState.ticks, not_not.mp hzero]
      rfl
    rw [Prog.run_bind, Prog.run_ite, if_neg hzero, Prog.run_pure, Outcome.andThen_ok, Prog.run_modify, herase]
    refine ⟨_, rfl, rfl, h.remove (fun _ _ => rfl) (fun y _ => ?_) fun _ _ => rfl, rfl, fun _ => rfl, fun _ => rfl⟩
    rw [hticks]
    rfl
  rw [Prog.run_bind, Prog.run_ite, if_pos hzero, hnext]
  have hnot : s.ticks timer ≠ 0 := fun heq => hzero (BitVec.eq_of_toNat_eq heq)
  cases hhead : post.head? with
  | none =>
    simp only [Prog.run_pure, Outcome.andThen_ok, Prog.run_modify, herase]
    refine ⟨_, rfl, rfl, h.remove (fun _ _ => rfl) (fun y hy => ?_) fun _ _ => rfl, rfl, fun _ => rfl,
      fun heq => absurd heq hnot⟩
    rw [hhead] at hy
    cases hy
  | some next =>
    simp only [setExpires, Prog.run_modify, Outcome.andThen_ok]
    have hpost : post = next :: post.tail := by
      cases post with
      | nil => cases hhead
      | cons y post =>
        cases hhead
        rfl
    have hnext_mem : next ∈ post := by
      rw [hpost]
      exact List.mem_cons_self
    have hnd := List.nodup_append'.mp ((List.nodup_cons.mp (List.nodup_middle.mp hnodup)).2)
    -- the sum is the distance of two deadlines
    have hsum : ((s.timer next).expires + (s.timer timer).expires).toNat = s.ticks next + s.ticks timer := by
      obtain ⟨base', hle, htail⟩ := h.of_append
      rw [hpost] at htail
      obtain ⟨h₁, h₂, -⟩ := htail
      have hD := hlt next (List.mem_append_right pre (List.mem_cons_of_mem timer hnext_mem))
      rw [BitVec.toNat_add]
      apply Nat.mod_eq_of_lt
      unfold TimerState.ticks at h₁ h₂
      omega
    have hticks := ticks_setExpires s next ((s.timer next).expires + (s.timer timer).expires)
    refine ⟨_, rfl, rfl, ?_, rfl, proc_setExpires s next _, fun heq => absurd heq hnot⟩
    show Deltas (s.setExpires next _).ticks D base (s.timerList.erase timer)
    rw [herase]
    refine h.remove (fun y hy => ?_) (fun y hy => ?_) fun y hy => ?_
    · rw [hticks, if_neg]
      rintro rfl
      exact hnd.2.2 hy hnext_mem
    · rw [hhead] at hy
      cases hy
      rw [hticks, if_pos rfl, hsum]
    · rw [hticks, if_neg]
      rintro rfl
      have hnodup' := hnd.2.1
      rw [hpost] at hnodup'
      exact (List.nodup_cons.mp hnodup').1 hy

end Ucore.Sched
