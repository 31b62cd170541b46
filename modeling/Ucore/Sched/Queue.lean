import Ucore.Sched.RunQueue

/-!
# What the scheduler does to the run queue

* `QueueAt s t` says that the run queue is the heap `t`. Enqueuing and dequeuing do to `t` what the skew heap does,
  for any strides.
* `QueueInv s t` says in addition which processes are in `t`: those that can run, but for the current one.
* `wakeupProc_post` and `schedule_post` are the two functions that move processes. The latter has `t₁` for the heap from
  which the next process is picked; it contains the current process if that can run.
-/

namespace Ucore.Sched

open Ucore.Lib Ucore.Process Ucore.Lib.BinTree

variable {s s' s₁ s₂ : SchedState} {t : BinTree ℕ} {p x : ℕ}

/-! ### What stays -/

/-- The process table is the same for the scheduler, strides apart. -/
structure SameTable (s s' : SchedState) : Prop where
  procList : s'.procList = s.procList
  nrProcess : s'.nrProcess = s.nrProcess
  idleproc : s'.idleproc = s.idleproc
  state : ∀ x, (s'.proc x).state = (s.proc x).state
  priority : ∀ x, (s'.proc x).priority = (s.proc x).priority
  waitState : ∀ x, (s'.proc x).waitState = (s.proc x).waitState

/-- The strides are the same. -/
def SameStrides (s s' : SchedState) : Prop := ∀ x, (s'.proc x).stride = (s.proc x).stride

theorem SameTable.refl (s : SchedState) : SameTable s s := ⟨rfl, rfl, rfl, fun _ => rfl, fun _ => rfl, fun _ => rfl⟩

theorem SameTable.trans (h₁ : SameTable s s₁) (h₂ : SameTable s₁ s₂) : SameTable s s₂ where
  procList := h₂.procList.trans h₁.procList
  nrProcess := h₂.nrProcess.trans h₁.nrProcess
  idleproc := h₂.idleproc.trans h₁.idleproc
  state x := (h₂.state x).trans (h₁.state x)
  priority x := (h₂.priority x).trans (h₁.priority x)
  waitState x := (h₂.waitState x).trans (h₁.waitState x)

section setProc

variable (s : SchedState) (p : ℕ) (f : SchedProc → SchedProc)

@[simp] theorem SchedState.current_setProc : (s.setProc p f).current = s.current := rfl

@[simp] theorem SchedState.idleproc_setProc : (s.setProc p f).idleproc = s.idleproc := rfl

@[simp] theorem SchedState.procList_setProc : (s.setProc p f).procList = s.procList := rfl

end setProc

/-- A field of a process after a process has been changed. -/
theorem SchedState.field_setProc {β : Type} (F : SchedProc → β) (s : SchedState) (p : ℕ) (f : SchedProc → SchedProc)
    (x : ℕ) : F ((s.setProc p f).proc x) = if x = p then F (f (s.proc p)) else F (s.proc x) := by
  unfold SchedState.setProc
  by_cases h : x = p
  · rw [if_pos h, h]
    exact congrArg F (Function.update_self _ _ _)
  · rw [if_neg h]
    exact congrArg F (Function.update_of_ne h _ _)

/-- A change that keeps a field of every process. -/
theorem SchedState.field_setProc_of_eq {β : Type} (F : SchedProc → β) (s : SchedState) (p : ℕ)
    {f : SchedProc → SchedProc} (hf : ∀ d, F (f d) = F d) (x : ℕ) : F ((s.setProc p f).proc x) = F (s.proc x) := by
  rw [SchedState.field_setProc F s p f x, hf]
  split_ifs with h
  · rw [h]
  · rfl

theorem sameTable_setProc (s : SchedState) (p : ℕ) {f : SchedProc → SchedProc} (hstate : ∀ d, (f d).state = d.state)
    (hpriority : ∀ d, (f d).priority = d.priority) (hwait : ∀ d, (f d).waitState = d.waitState) :
    SameTable s (s.setProc p f) :=
  ⟨rfl, rfl, rfl, s.field_setProc_of_eq SchedProc.state p hstate, s.field_setProc_of_eq SchedProc.priority p hpriority,
    s.field_setProc_of_eq SchedProc.waitState p hwait⟩

/-- The function that compares depends on the strides only. -/
theorem procStrideComp_congr (h : SameStrides s s') : procStrideComp s'.proc = procStrideComp s.proc := by
  funext a b
  unfold procStrideComp
  rw [h a, h b]

/-! ### Enqueuing and dequeuing -/

/-- The run queue is the heap `t`, and `proc_num` counts it. -/
structure QueueAt (s : SchedState) (t : BinTree ℕ) : Prop where
  heap : HeapAt s.pool s.runPool t
  num : s.procNum.toNat = t.size

/-- **`stride_enqueue`** -/
theorem strideEnqueue_post (fuel : ℕ) (h : QueueAt s t) (hp : p ∉ t.nodes) (hsize : t.size + 1 < 2 ^ 32) :
    ((strideEnqueue fuel p).run s).Post
      (fun _ s' => QueueAt s' (merge (Before (procStrideComp s.proc)) t (.node .nil p .nil)) ∧ SameTable s s' ∧
        SameStrides s s' ∧ s'.current = s.current)
      (fun _ _ => False) (fun e => e = .loop ∧ fuel ≤ t.size) := by
  rw [strideEnqueue, Prog.run_bind, Prog.run_get, Outcome.andThen_ok]
  cases hrun : skewHeapInsert (procStrideComp s.proc) fuel s.pool s.runPool p with
  | none =>
    refine ⟨rfl, Nat.le_of_not_lt fun hfuel => ?_⟩
    obtain ⟨M', root', hrun', -⟩ := h.heap.insert (procStrideComp s.proc) hp hfuel
    rw [hrun] at hrun'
    cases hrun'
  | some r =>
    obtain ⟨M', root'⟩ := r
    have hsame := sameTable_setProc s p (f := fun d => d.enqueued s.maxTimeSlice) (fun _ => rfl) (fun _ => rfl)
      fun _ => rfl
    refine ⟨⟨(h.heap.of_insert hp hrun).1, ?_⟩, ⟨rfl, rfl, rfl, hsame.state, hsame.priority, hsame.waitState⟩, ?_, rfl⟩
    · rw [← length_nodes, (nodes_merge _ _ _).length_eq, List.length_append, length_nodes]
      show (s.procNum + 1).toNat = t.size + 1
      rw [BitVec.toNat_add, h.num]
      exact Nat.mod_eq_of_lt hsize
    · exact s.field_setProc_of_eq SchedProc.stride p (f := fun d => d.enqueued s.maxTimeSlice) fun _ => rfl

/-- `idleproc` is not enqueued. -/
theorem schedClassEnqueue_idle (fuel : ℕ) (s : SchedState) :
    (schedClassEnqueue fuel s.idleproc).run s = .ok () s := by
  rw [schedClassEnqueue, Prog.run_bind, Prog.run_get, Outcome.andThen_ok, Prog.run_ite, if_neg (not_not.mpr rfl)]
  rfl

theorem schedClassEnqueue_of_ne (fuel : ℕ) (h : p ≠ s.idleproc) :
    (schedClassEnqueue fuel p).run s = (strideEnqueue fuel p).run s := by
  rw [schedClassEnqueue, Prog.run_bind, Prog.run_get, Outcome.andThen_ok, Prog.run_ite, if_pos h]

/-- **`stride_dequeue`** -/
theorem strideDequeue_post (fuel : ℕ) (h : QueueAt s t) (hp : p ∈ t.nodes) : ((strideDequeue fuel p).run s).Post
    (fun _ s' => QueueAt s' (t.remove (Before (procStrideComp s.proc)) p) ∧ SameTable s s' ∧ SameStrides s s' ∧
      s'.current = s.current)
    (fun _ _ => False) (fun e => e = .loop ∧ fuel < t.size) := by
  rw [strideDequeue, Prog.run_bind, Prog.run_get, Outcome.andThen_ok]
  cases hrun : skewHeapRemove (procStrideComp s.proc) fuel s.pool s.runPool p with
  | none =>
    refine ⟨rfl, Nat.lt_of_not_le fun hfuel => ?_⟩
    obtain ⟨M', root', hrun', -⟩ := h.heap.remove (procStrideComp s.proc) hp hfuel
    rw [hrun] at hrun'
    cases hrun'
  | some r =>
    obtain ⟨M', root'⟩ := r
    refine ⟨⟨(h.heap.of_remove hp hrun).1, ?_⟩, ⟨rfl, rfl, rfl, fun _ => rfl, fun _ => rfl, fun _ => rfl⟩, fun _ => rfl, rfl⟩
    -- one node less
    have hlen : (t.remove (Before (procStrideComp s.proc)) p).size + 1 = t.size := size_remove h.heap.nodup hp
    have hlt := s.procNum.isLt
    rw [h.num] at hlt
    show (s.procNum - 1).toNat = _
    rw [BitVec.toNat_sub, h.num, show (1 : BitVec 32).toNat = 1 from rfl]
    omega

/-! ### The processes in the run queue -/

/-- The processes of the table that can run. -/
def SchedState.Runnable (s : SchedState) (x : ℕ) : Prop := x ∈ s.procList ∧ (s.proc x).state = .runnable

/-- The table. `idleproc` is not in `proc_list`, and can always run. -/
structure TableOk (s : SchedState) : Prop where
  idle : s.idleproc ∉ s.procList
  idleState : (s.proc s.idleproc).state = .runnable
  current : s.current = s.idleproc ∨ s.current ∈ s.procList
  nodup : s.procList.Nodup
  nr : s.nrProcess = s.procList.length + 1
  lt : s.procList.length < maxProcess

/-- **The invariant of the run queue.** It is the heap `t` of all processes that can run, but for the current one. -/
structure QueueInv (s : SchedState) (t : BinTree ℕ) : Prop where
  table : TableOk s
  queue : QueueAt s t
  mem : ∀ x, x ∈ t.nodes ↔ s.Runnable x ∧ x ≠ s.current

theorem SameTable.runnable (h : SameTable s s') : s'.Runnable x ↔ s.Runnable x := by
  unfold SchedState.Runnable
  rw [h.procList, h.state]

theorem TableOk.congr (h : TableOk s) (hsame : SameTable s s')
    (hcurrent : s'.current = s'.idleproc ∨ s'.current ∈ s'.procList) : TableOk s' where
  idle := by
    rw [hsame.idleproc, hsame.procList]
    exact h.idle
  idleState := by
    rw [hsame.idleproc, hsame.state]
    exact h.idleState
  current := hcurrent
  nodup := by
    rw [hsame.procList]
    exact h.nodup
  nr := by
    rw [hsame.nrProcess, hsame.procList]
    exact h.nr
  lt := by
    rw [hsame.procList]
    exact h.lt

/-- A process that can run is not `idleproc`. -/
theorem TableOk.ne_idle (h : TableOk s) (hx : x ∈ s.procList) : x ≠ s.idleproc := by
  rintro rfl
  exact h.idle hx

/-- There are no more processes in a heap than in the table. -/
theorem size_le_of_subset {l : List ℕ} (hnodup : t.nodes.Nodup) (hmem : ∀ x ∈ t.nodes, x ∈ l) : t.size ≤ l.length := by
  rw [← length_nodes]
  exact (hnodup.subperm hmem).length_le

theorem size_lt_of_subset {l : List ℕ} (hnodup : t.nodes.Nodup) (hmem : ∀ x ∈ t.nodes, x ∈ l) (hp : p ∈ l)
    (hpt : p ∉ t.nodes) : t.size < l.length := by
  rw [← length_nodes]
  refine ((List.nodup_cons.mpr ⟨hpt, hnodup⟩).subperm fun x hx => ?_).length_le
  rcases List.mem_cons.mp hx with rfl | hx
  · exact hp
  · exact hmem x hx

/-! ### `schedule` -/

/-- The heap `t₁` after the current process has gone back to the heap `t`. -/
def PutBack (s : SchedState) (t t₁ : BinTree ℕ) : Prop :=
  ¬ s.Runnable s.current ∧ t₁ = t ∨
    s.Runnable s.current ∧ t₁ = merge (Before (procStrideComp s.proc)) t (.node .nil s.current .nil)

/-- The first part of `schedule`: all processes that can run are in the run queue. -/
theorem putBack_post (fuel : ℕ) (h : QueueInv s t) : ((putBack fuel).run s).Post
    (fun _ s₁ => ∃ t₁, QueueAt s₁ t₁ ∧ SameTable s s₁ ∧ SameStrides s s₁ ∧ s₁.current = s.current ∧ PutBack s t t₁ ∧
      ∀ x, x ∈ t₁.nodes ↔ s.Runnable x)
    (fun _ _ => False) (fun e => e = .loop ∧ fuel < s.procList.length) := by
  have hsame := sameTable_setProc s s.current (f := fun d => { d with needResched := false }) (fun _ => rfl)
    (fun _ => rfl) fun _ => rfl
  have hstrides : SameStrides s (s.setProc s.current fun d => { d with needResched := false }) :=
    s.field_setProc_of_eq SchedProc.stride s.current fun _ => rfl
  have hqueue : QueueAt (s.setProc s.current fun d => { d with needResched := false }) t := ⟨h.queue.heap, h.queue.num⟩
  have hout : s.current ∉ t.nodes := fun hmem => ((h.mem s.current).mp hmem).2 rfl
  rw [putBack, Prog.run_bind, Prog.run_get, Outcome.andThen_ok, setProc, Prog.run_bind, Prog.run_modify,
    Outcome.andThen_ok, Prog.run_ite]
  -- when the current process stays out of the queue
  have hstay : ¬ s.Runnable s.current →
      ∃ t₁, QueueAt (s.setProc s.current fun d => { d with needResched := false }) t₁ ∧
        SameTable s (s.setProc s.current fun d => { d with needResched := false }) ∧
        SameStrides s (s.setProc s.current fun d => { d with needResched := false }) ∧ s.current = s.current ∧
        PutBack s t t₁ ∧ ∀ x, x ∈ t₁.nodes ↔ s.Runnable x := by
    intro hnot
    refine ⟨t, hqueue, hsame, hstrides, rfl, Or.inl ⟨hnot, rfl⟩, fun x => ?_⟩
    rw [h.mem, and_iff_left_iff_imp]
    rintro hx rfl
    exact hnot hx
  by_cases hstate : (s.proc s.current).state = .runnable
  · rw [if_pos hstate]
    by_cases hidle : s.current ≠ s.idleproc
    · rw [schedClassEnqueue_of_ne fuel (s := s.setProc s.current _) hidle]
      have hcurrent : s.current ∈ s.procList := h.table.current.resolve_left hidle
      have hlt : t.size < s.procList.length := by
        refine size_lt_of_subset h.queue.heap.nodup (fun x hx => ?_) hcurrent hout
        exact ((h.mem x).mp hx).1.1
      have hmax := h.table.lt
      unfold maxProcess at hmax
      refine (strideEnqueue_post fuel hqueue hout (by omega)).mono ?_ (fun _ _ hE => hE) fun e hP => ?_
      · rintro _ s₁ ⟨hqueue₁, hsame₁, hstrides₁, hcurrent₁⟩
        rw [procStrideComp_congr hstrides] at hqueue₁
        refine ⟨_, hqueue₁, hsame.trans hsame₁, fun x => (hstrides₁ x).trans (hstrides x), hcurrent₁,
          Or.inr ⟨⟨hcurrent, hstate⟩, rfl⟩, fun x => ?_⟩
        rw [mem_nodes_merge, h.mem]
        constructor
        · rintro (⟨hx, -⟩ | hx)
          · exact hx
          · rw [List.mem_singleton.mp hx]
            exact ⟨hcurrent, hstate⟩
        · intro hx
          by_cases hxc : x = s.current
          · exact Or.inr (List.mem_singleton.mpr hxc)
          · exact Or.inl ⟨hx, hxc⟩
      · exact ⟨hP.1, hP.2.trans_lt hlt⟩
    · have hrun := schedClassEnqueue_idle fuel (s.setProc s.current fun d => { d with needResched := false })
      rw [SchedState.idleproc_setProc, ← not_not.mp hidle] at hrun
      rw [hrun]
      exact hstay fun hrun => hidle (h.table.ne_idle hrun.1)
  · rw [if_neg hstate]
    exact hstay fun hrun => hstate hrun.2

/-- `stride_pick_next` returns the root of the heap. -/
theorem stridePickNext_run (h : QueueAt s t) : ∃ s', stridePickNext.run s = .ok t.root s' ∧ QueueAt s' t ∧
    SameTable s s' ∧ s'.current = s.current ∧
      ∀ x, (s'.proc x).stride =
        if t.root = some x then (s.proc x).stride + stridePass (s.proc x).priority else (s.proc x).stride := by
  rw [stridePickNext, Prog.run_bind, Prog.run_get, Outcome.andThen_ok, h.heap.root]
  cases t.root with
  | none => exact ⟨s, rfl, h, SameTable.refl s, rfl, fun x => by rw [if_neg nofun]⟩
  | some p =>
    refine ⟨_, rfl, ⟨h.heap, h.num⟩, sameTable_setProc s p (fun _ => rfl) (fun _ => rfl) fun _ => rfl, rfl, fun x => ?_⟩
    rw [s.field_setProc SchedProc.stride]
    by_cases hx : x = p
    · rw [if_pos hx, if_pos (congrArg some hx.symm), hx]
    · rw [if_neg hx, if_neg fun heq => hx (Option.some.inj heq).symm]

theorem runNext_run (next : Option ℕ) (h : QueueAt s t) : ∃ s', (runNext next).run s = .ok () s' ∧ QueueAt s' t ∧
    SameTable s s' ∧ SameStrides s s' ∧ s'.current = next.getD s.idleproc := by
  have hsame := sameTable_setProc s (next.getD s.idleproc) (f := fun d => { d with runs := d.runs + 1 }) (fun _ => rfl)
    (fun _ => rfl) fun _ => rfl
  have hstrides : SameStrides s (s.setProc (next.getD s.idleproc) fun d => { d with runs := d.runs + 1 }) :=
    s.field_setProc_of_eq SchedProc.stride _ fun _ => rfl
  rw [runNext, Prog.run_bind, Prog.run_get, Outcome.andThen_ok, setProc, Prog.run_bind, Prog.run_modify,
    Outcome.andThen_ok, Prog.run_ite]
  by_cases hne : next.getD s.idleproc ≠ s.current
  · rw [if_pos hne]
    exact ⟨_, rfl, ⟨h.heap, h.num⟩, ⟨rfl, rfl, rfl, hsame.state, hsame.priority, hsame.waitState⟩, hstrides, rfl⟩
  · rw [if_neg hne]
    exact ⟨_, rfl, ⟨h.heap, h.num⟩, hsame, hstrides, (not_not.mp hne).symm⟩

/-- What `schedule` has done. The next process is the root of the heap `t₁`. -/
structure Scheduled (s s' : SchedState) (t t₁ t' : BinTree ℕ) : Prop where
  putBack : PutBack s t t₁
  mem : ∀ x, x ∈ t₁.nodes ↔ s.Runnable x
  nodup : t₁.nodes.Nodup
  table : SameTable s s'
  queue : QueueAt s' t'
  current : s'.current = t₁.root.getD s.idleproc
  strides : ∀ x, (s'.proc x).stride =
    if t₁.root = some x then (s.proc x).stride + stridePass (s.proc x).priority else (s.proc x).stride
  rest : t₁ = .nil ∧ t' = .nil ∨ ∃ p, t₁.root = some p ∧ t' = t₁.remove (Before (procStrideComp s'.proc)) p

/-- **`schedule`** -/
theorem schedule_post (fuel : ℕ) (h : QueueInv s t) : ((schedule fuel).run s).Post
    (fun _ s' => ∃ t₁ t', Scheduled s s' t t₁ t') (fun _ _ => False)
    (fun e => e = .loop ∧ fuel < s.procList.length) := by
  rw [schedule]
  refine (putBack_post fuel h).bind ?_
  rintro _ s₁ ⟨t₁, hqueue₁, hsame₁, hstrides₁, hcurrent₁, hput, hmem⟩
  obtain ⟨s₂, hpick, hqueue₂, hsame₂, hcurrent₂, hstrides₂⟩ := stridePickNext_run hqueue₁
  have hsame := hsame₁.trans hsame₂
  have hstrides : ∀ x, (s₂.proc x).stride =
      if t₁.root = some x then (s.proc x).stride + stridePass (s.proc x).priority else (s.proc x).stride := by
    intro x
    rw [hstrides₂, hstrides₁, hsame₁.priority]
  rw [Prog.bind_of_ok hpick]
  cases hroot : t₁.root with
  | none =>
    have hnil := root_eq_none.mp hroot
    obtain ⟨s', hrun, hqueue', hsame', hstrides', hcurrent'⟩ := runNext_run none hqueue₂
    simp only [Prog.run_bind, Prog.run_pure, Outcome.andThen_ok]
    rw [hrun]
    refine ⟨t₁, .nil, hput, hmem, hqueue₁.heap.nodup, hsame.trans hsame', hnil ▸ hqueue', ?_, fun x => ?_,
      Or.inl ⟨hnil, rfl⟩⟩
    · rw [hcurrent', hsame.idleproc, hroot]
    · rw [hstrides' x, hstrides x]
  | some p =>
    have hp : p ∈ t₁.nodes := mem_of_root hroot
    have hle : t₁.size ≤ s.procList.length :=
      size_le_of_subset hqueue₁.heap.nodup fun x hx => ((hmem x).mp hx).1
    refine ((strideDequeue_post fuel hqueue₂ hp).mono (fun _ _ hQ => hQ) (fun _ _ hE => hE)
      fun e hP => ⟨hP.1, hP.2.trans_le hle⟩).bind ?_
    rintro _ s₃ ⟨hqueue₃, hsame₃, hstrides₃, hcurrent₃⟩
    obtain ⟨s', hrun, hqueue', hsame', hstrides', hcurrent'⟩ := runNext_run (some p) hqueue₃
    rw [hrun]
    refine ⟨t₁, _, hput, hmem, hqueue₁.heap.nodup, (hsame.trans hsame₃).trans hsame', hqueue', ?_, fun x => ?_,
      Or.inr ⟨p, hroot, ?_⟩⟩
    · rw [hcurrent', hroot]
      rfl
    · rw [hstrides' x, hstrides₃ x, hstrides x]
    · rw [procStrideComp_congr fun x => (hstrides' x).trans (hstrides₃ x)]

/-- After `schedule` all processes that can run are in the run queue, but for the one that does. -/
theorem Scheduled.inv {t₁ t' : BinTree ℕ} (hsched : Scheduled s s' t t₁ t') (h : TableOk s) : QueueInv s' t' := by
  rcases hsched.rest with ⟨rfl, rfl⟩ | ⟨p, hroot, rfl⟩
  · have hcurrent : s'.current = s'.idleproc := by
      rw [hsched.current, hsched.table.idleproc]
      rfl
    refine ⟨h.congr hsched.table (Or.inl hcurrent), hsched.queue, fun x => ?_⟩
    rw [hsched.mem, hsched.table.runnable, hcurrent, hsched.table.idleproc, iff_self_and]
    exact fun hx => h.ne_idle hx.1
  · have hp : p ∈ t₁.nodes := mem_of_root hroot
    have hcurrent : s'.current = p := by
      rw [hsched.current, hroot]
      rfl
    refine ⟨h.congr hsched.table (Or.inr ?_), hsched.queue, fun x => ?_⟩
    · rw [hcurrent, hsched.table.procList]
      exact ((hsched.mem p).mp hp).1
    · rw [mem_nodes_remove hsched.nodup hp, hsched.mem, hsched.table.runnable, hcurrent]

/-- The process that runs after `schedule` can run. -/
theorem Scheduled.resumed {t₁ t' : BinTree ℕ} (hsched : Scheduled s s' t t₁ t') (h : TableOk s) :
    (s'.proc s'.current).state = .runnable := by
  rw [hsched.table.state, hsched.current]
  cases hroot : t₁.root with
  | none => exact h.idleState
  | some p => exact ((hsched.mem p).mp (mem_of_root hroot)).2

/-! ### `wakeup_proc` -/

/-- What `wakeup_proc` has done. -/
structure Woken (s s' : SchedState) (t t' : BinTree ℕ) (p : ℕ) : Prop where
  procList : s'.procList = s.procList
  nrProcess : s'.nrProcess = s.nrProcess
  idleproc : s'.idleproc = s.idleproc
  current : s'.current = s.current
  state : ∀ x, (s'.proc x).state = if x = p then .runnable else (s.proc x).state
  priority : ∀ x, (s'.proc x).priority = (s.proc x).priority
  waitState : ∀ x, (s'.proc x).waitState = (s.proc x).waitState ∨ (s'.proc x).waitState = 0
  strides : SameStrides s s'
  heap : t' = t ∨ p ∉ t.nodes ∧ t' = merge (Before (procStrideComp s.proc)) t (.node .nil p .nil)

/-- **`wakeup_proc`**, for a process of the table or for `idleproc`. -/
theorem wakeupProc_post (fuel : ℕ) (h : QueueInv s t) (hp : p = s.idleproc ∨ p ∈ s.procList) :
    ((wakeupProc fuel p).run s).Post (fun _ s' => ∃ t', QueueInv s' t' ∧ Woken s s' t t' p) (fun _ _ => False)
      (fun e => e = .wakeupZombie ∧ (s.proc p).state = .zombie ∨ e = .loop ∧ fuel < s.procList.length) := by
  rw [wakeupProc, Prog.run_bind, Prog.run_get, Outcome.andThen_ok]
  by_cases hz : (s.proc p).state ≠ .zombie
  swap
  · rw [Prog.run_bind, Prog.run_assert_of_not _ _ hz, Outcome.andThen_panic]
    exact Or.inl ⟨rfl, not_not.mp hz⟩
  rw [Prog.run_bind, Prog.run_assert_of _ _ hz, Outcome.andThen_ok, Prog.run_ite]
  by_cases hstate : (s.proc p).state ≠ .runnable
  swap
  · -- it could run already
    rw [if_neg hstate]
    refine ⟨t, h, rfl, rfl, rfl, rfl, fun x => ?_, fun _ => rfl, fun _ => Or.inl rfl, fun _ => rfl, Or.inl rfl⟩
    split_ifs with hx
    · rw [hx]
      exact not_not.mp hstate
    · rfl
  rw [if_pos hstate, setProc, Prog.run_bind, Prog.run_modify, Outcome.andThen_ok, Prog.run_ite]
  -- a process that cannot run is not in the queue, and is not `idleproc`
  have hout : p ∉ t.nodes := fun hmem => hstate ((h.mem p).mp hmem).1.2
  have hidle : p ≠ s.idleproc := by
    rintro rfl
    exact hstate h.table.idleState
  have hlist := hp.resolve_left hidle
  have hstates := s.field_setProc SchedProc.state p (fun d => { d with state := .runnable, waitState := 0 })
  have hpriority := s.field_setProc_of_eq SchedProc.priority p
    (f := fun d => { d with state := .runnable, waitState := 0 }) fun _ => rfl
  have hwait : ∀ x, ((s.setProc p fun d => { d with state := .runnable, waitState := 0 }).proc x).waitState =
      (s.proc x).waitState ∨ ((s.setProc p fun d => { d with state := .runnable, waitState := 0 }).proc x).waitState = 0 := by
    intro x
    rw [s.field_setProc SchedProc.waitState]
    split_ifs
    · exact Or.inr rfl
    · exact Or.inl rfl
  have hstrides := s.field_setProc_of_eq SchedProc.stride p
    (f := fun d => { d with state := .runnable, waitState := 0 }) fun _ => rfl
  have htable : TableOk (s.setProc p fun d => { d with state := .runnable, waitState := 0 }) := by
    refine ⟨h.table.idle, ?_, h.table.current, h.table.nodup, h.table.nr, h.table.lt⟩
    exact (hstates s.idleproc).trans ((if_neg (Ne.symm hidle)).trans h.table.idleState)
  have hrunnable : ∀ x, SchedState.Runnable (s.setProc p fun d => { d with state := .runnable, waitState := 0 }) x ↔
      s.Runnable x ∨ x = p := by
    intro x
    unfold SchedState.Runnable
    rw [hstates x]
    show x ∈ s.procList ∧ _ ↔ _
    by_cases hx : x = p
    · rw [if_pos hx, hx]
      exact iff_of_true ⟨hlist, rfl⟩ (Or.inr rfl)
    · rw [if_neg hx, or_iff_left hx]
  have hqueue : QueueAt (s.setProc p fun d => { d with state := .runnable, waitState := 0 }) t :=
    ⟨h.queue.heap, h.queue.num⟩
  by_cases hcurrent : p ≠ s.current
  · rw [if_pos hcurrent, schedClassEnqueue_of_ne fuel (s := s.setProc p _) hidle]
    have hlt : t.size < s.procList.length := by
      refine size_lt_of_subset h.queue.heap.nodup (fun x hx => ?_) hlist hout
      exact ((h.mem x).mp hx).1.1
    have hmax := h.table.lt
    unfold maxProcess at hmax
    refine (strideEnqueue_post fuel hqueue hout (by omega)).mono ?_ (fun _ _ hE => hE) fun e hP => ?_
    · rintro _ s' ⟨hqueue', hsame', hstrides', hcurrent'⟩
      rw [procStrideComp_congr hstrides] at hqueue'
      refine ⟨_, ⟨htable.congr hsame' ?_, hqueue', fun x => ?_⟩, hsame'.procList, hsame'.nrProcess, hsame'.idleproc,
        hcurrent', fun x => (hsame'.state x).trans (hstates x), fun x => (hsame'.priority x).trans (hpriority x),
        fun x => ?_, fun x => (hstrides' x).trans (hstrides x), Or.inr ⟨hout, rfl⟩⟩
      · rw [hcurrent', hsame'.idleproc, hsame'.procList]
        exact h.table.current
      rotate_left
      · rw [hsame'.waitState]
        exact hwait x
      · rw [hsame'.runnable, hrunnable, mem_nodes_merge, h.mem, hcurrent']
        show _ ∨ x ∈ [p] ↔ (s.Runnable x ∨ x = p) ∧ x ≠ s.current
        rw [List.mem_singleton, or_and_right]
        refine or_congr_right (iff_self_and.mpr fun hx => ?_)
        rw [hx]
        exact hcurrent
    · exact Or.inr ⟨hP.1, hP.2.trans_lt hlt⟩
  · rw [if_neg hcurrent]
    refine ⟨t, ⟨htable, hqueue, fun x => ?_⟩, rfl, rfl, rfl, rfl, hstates, hpriority, hwait, hstrides, Or.inl rfl⟩
    rw [hrunnable, h.mem, or_and_right]
    show _ ↔ _ ∨ x = p ∧ x ≠ s.current
    refine (or_iff_left fun hx => hcurrent ?_).symm
    rw [← hx.1]
    exact hx.2

end Ucore.Sched
