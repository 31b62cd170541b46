import Ucore.Sched.Stride

/-!
# The run queue as a list

The stride scheduler of `kern/schedule/default_sched.c` as it is compiled with `USE_SKEW_HEAP 0`, next to the one with the
skew heap.

* `RunLink` is what the link `run_link` of a process holds: the null pointers of `alloc_proc`, the address of the link
  itself, or those of its neighbours in `run_list`. `listEnqueue` asserts the second.
* `Twin` has both run queues over one process table. Both get the same calls; the process that goes on is the one that the
  skew heap picks, and `twinRun` returns the strides that the two have found.
* `QueueCall.Made` says which calls `schedule` and `wakeup_proc` make, of processes that `alloc_proc` has created and whose
  strides stay in a window.
* `queues_agree_iff`: the links that `alloc_proc` leaves fail the first assertion. `queues_agree_of_self`: with links that
  `list_init` has written the two agree.
-/

namespace Ucore.Sched

open Ucore.Lib Ucore.Process Ucore.Lib.BinTree

/-! ### The list -/

/-- The pointers of a `run_link`. -/
inductive RunLink where
  /-- Null pointers. -/
  | null
  /-- After `list_init`: `list_empty` is true of this one only. -/
  | self
  /-- In `run_list`. -/
  | listed
  deriving Repr, DecidableEq

/-- The processes, their links, and the run queue. -/
structure ListQueue where
  proc : ℕ → SchedProc
  link : ℕ → RunLink
  /-- The processes in `rq->run_list`, from the head on. -/
  runList : List ℕ
  procNum : BitVec 32
  maxTimeSlice : ℤ

/-- The two assertions, and a null pointer that is followed. -/
inductive ListPanic where
  | notEmpty | notListed | null
  deriving Repr, DecidableEq

abbrev ListProg := Prog ListPanic Empty ListQueue

/-- Source: `kern/schedule/default_sched.c` `stride_enqueue` -/
def listEnqueue (p : ℕ) : ListProg Unit := do
  let q ← Prog.get
  Prog.assert (q.link p = .self) .notEmpty
  Prog.modify fun q => { q with
    link := Function.update q.link p .listed
    runList := q.runList ++ [p]
    proc := Function.update q.proc p ((q.proc p).enqueued q.maxTimeSlice)
    procNum := q.procNum + 1 }

/-- Source: `kern/schedule/default_sched.c` `stride_dequeue` -/
def listDequeue (p : ℕ) : ListProg Unit := do
  let q ← Prog.get
  Prog.assert (q.link p ≠ .self ∧ (q.proc p).onRq = true) .notListed
  if q.link p = .null then Prog.stop .null
  else Prog.modify fun q => { q with
    link := Function.update q.link p .self
    runList := q.runList.erase p
    procNum := q.procNum - 1 }

/-- The loop of `stride_pick_next`, where `p` is the process found so far. -/
def scanList (proc : ℕ → SchedProc) : ℕ → List ℕ → ℕ
  | p, [] => p
  | p, q :: l => scanList proc (if ((proc p).stride - (proc q).stride).toInt > 0 then q else p) l

/-- Source: `kern/schedule/default_sched.c` `stride_pick_next` -/
def listPickNext : ListProg (Option ℕ) := do
  let q ← Prog.get
  match q.runList with
  | [] => pure none
  | p :: l => do
    let p := scanList q.proc p l
    Prog.modify fun q => { q with
      proc := Function.update q.proc p { q.proc p with stride := (q.proc p).stride + stridePass (q.proc p).priority } }
    pure (some p)

/-! ### Both queues -/

/-- The calls that concern a run queue. -/
inductive QueueCall where
  /-- `alloc_proc` makes a process. -/
  | alloc (p : ℕ)
  /-- A process gets a priority. -/
  | setPriority (p : ℕ) (priority : BitVec 32)
  /-- `wakeup_proc`, or `schedule` with its current process. -/
  | enqueue (p : ℕ)
  /-- `schedule` picks the next process and takes it out. -/
  | pick
  deriving Repr, DecidableEq

/-- The call on the skew heap, with the process that is picked. -/
def heapCall : QueueCall → SchedProg (Option ℕ)
  | .alloc p => do
    Prog.modify fun s => { s.setProc p fun _ => allocProc with pool := skewHeapInit s.pool p }
    pure none
  | .setPriority p priority => do
    setProc p fun d => { d with priority := priority }
    pure none
  | .enqueue p => do
    strideEnqueue maxProcess p
    pure none
  | .pick => do
    let next ← stridePickNext
    (match next with
      | some p => strideDequeue maxProcess p
      | none => pure () : SchedProg Unit)
    pure next

/-- The scheduler with the skew heap, with the processes that have been created and those that are in the queue. -/
structure History where
  sched : SchedState
  created : List ℕ
  queued : List ℕ

/-- What a call that has picked `next` leaves. -/
def History.after (h : History) (c : QueueCall) (next : Option ℕ) (sched : SchedState) : History where
  sched := sched
  created := match c with
    | .alloc p => p :: h.created
    | _ => h.created
  queued := match c, next with
    | .enqueue p, _ => p :: h.queued
    | .pick, some p => h.queued.erase p
    | _, _ => h.queued

/-- The strides of the processes lie in a window that is not longer than `BIG_STRIDE`. -/
def Windowed (s : SchedState) (l : List ℕ) : Prop :=
  ∃ base : BitVec 32, ∀ x ∈ l, ((s.proc x).stride - base).toNat ≤ bigStride.toNat

/-- A call that `schedule` and `wakeup_proc` make: a process is enqueued that is not in the queue, and there are fewer than
`MAX_PROCESS`. The memory of a process in the queue is not free. -/
def QueueCall.Made (h : History) : QueueCall → Prop
  | .alloc p => p ∉ h.queued
  | .setPriority _ _ => True
  | .enqueue p => p ∈ h.created ∧ p ∉ h.queued ∧ h.queued.length < maxProcess ∧ Windowed h.sched (p :: h.queued)
  | .pick => True

/-- Every call of the sequence is one that is made. -/
def CallsMade : List QueueCall → History → Prop
  | [], _ => True
  | c :: calls, h => c.Made h ∧ ∀ next s, (heapCall c).run h.sched = .ok next s → CallsMade calls (h.after c next s)

/-- Both run queues. -/
structure Twin where
  history : History
  link : ℕ → RunLink
  runList : List ℕ
  /-- `proc_num` of the list. -/
  procNum : BitVec 32

/-- Where one of them stops. -/
inductive TwinPanic where
  | heap (e : SchedPanic)
  | list (e : ListPanic)
  deriving Repr, DecidableEq

abbrev TwinProg := Prog TwinPanic SchedError Twin

/-- The list over the process table. -/
def Twin.list (s : Twin) : ListQueue where
  proc := s.history.sched.proc
  link := s.link
  runList := s.runList
  procNum := s.procNum
  maxTimeSlice := s.history.sched.maxTimeSlice

/-- Code on the list. The processes stay those of the other scheduler. -/
def onList {α : Type} (m : ListProg α) : TwinProg α :=
  Prog.embed Twin.list (fun q s => { s with link := q.link, runList := q.runList, procNum := q.procNum }) .list nofun m

/-- A call on the skew heap. -/
def onHeap (c : QueueCall) : TwinProg (Option ℕ) := ⟨fun s =>
  match (heapCall c).run s.history.sched with
  | .ok next sched => .ok next { s with history := s.history.after c next sched }
  | .error e sched => .error e { s with history := s.history.after c none sched }
  | .panic e => .panic (.heap e)⟩

/-- A call on both, where `allocLink` is what `alloc_proc` writes to `run_link`. A call that picks returns the strides of the
processes that are picked from the list and from the skew heap. -/
def twinCall (allocLink : RunLink) : QueueCall → TwinProg (Option (BitVec 32) × Option (BitVec 32))
  | .alloc p => do
    Prog.modify fun s => { s with link := Function.update s.link p allocLink }
    let _ ← onHeap (.alloc p)
    pure (none, none)
  | .setPriority p priority => do
    let _ ← onHeap (.setPriority p priority)
    pure (none, none)
  | .enqueue p => do
    onList (listEnqueue p)
    let _ ← onHeap (.enqueue p)
    pure (none, none)
  | .pick => do
    let s ← Prog.get
    let found ← onList listPickNext
    let next ← onHeap .pick
    (match next with
      | some p => onList (listDequeue p)
      | none => pure () : TwinProg Unit)
    pure (found.map fun p => (s.history.sched.proc p).stride, next.map fun p => (s.history.sched.proc p).stride)

/-- The calls, with the strides that are found. -/
def twinRun (allocLink : RunLink) : List QueueCall → TwinProg (List (Option (BitVec 32) × Option (BitVec 32)))
  | [] => pure []
  | c :: calls => do
    let found ← twinCall allocLink c
    let rest ← twinRun allocLink calls
    pure (found :: rest)

/-- The machine after `stride_init`, with nothing known of the links. -/
def Twin.boot (proc : ℕ → SchedProc) (pool : LinkMem ℕ) (idle : ℕ) (link : ℕ → RunLink) : Twin where
  history := { sched := .boot proc pool idle, created := [], queued := [] }
  link := link
  runList := []
  procNum := 0

/-- No assertion fails, and every process that is picked from the list has the stride of the one from the skew heap. -/
def Agree (allocLink : RunLink) (calls : List QueueCall) (s : Twin) : Prop :=
  ∃ found s', (twinRun allocLink calls).run s = .ok found s' ∧ ∀ f ∈ found, f.1 = f.2

/-! ### A process that is enqueued as `alloc_proc` leaves it -/

/-- Nothing has been enqueued yet, and the links of the processes are those of `alloc_proc`. -/
structure Unqueued (s : Twin) : Prop where
  queue : QueueAt s.history.sched .nil
  queued : s.history.queued = []
  runList : s.runList = []
  link : ∀ p ∈ s.history.created, s.link p = .null

variable {s s' : Twin} {calls : List QueueCall}

/-- A call on the empty skew heap that enqueues nothing. -/
theorem heapCall_nil {c : QueueCall} {u : SchedState} (hc : ∀ p, c ≠ .enqueue p) (h : QueueAt u .nil) :
    ∃ u', (heapCall c).run u = .ok none u' ∧ QueueAt u' .nil := by
  cases c with
  | alloc p => exact ⟨_, rfl, ⟨⟨trivial, h.heap.root, List.nodup_nil, nofun⟩, h.num⟩⟩
  | setPriority p priority => exact ⟨_, rfl, ⟨⟨trivial, h.heap.root, List.nodup_nil, nofun⟩, h.num⟩⟩
  | enqueue p => exact absurd rfl (hc p)
  | pick =>
    obtain ⟨u', hpick, hq, -⟩ := stridePickNext_run h
    refine ⟨u', ?_, hq⟩
    rw [heapCall, Prog.bind_of_ok hpick]
    rfl

theorem onHeap_run {c : QueueCall} {next : Option ℕ} {u : SchedState} (h : (heapCall c).run s.history.sched = .ok next u) :
    (onHeap c).run s = .ok next { s with history := s.history.after c next u } := by
  rw [onHeap]
  dsimp only
  rw [h]

/-- The list is empty: it has nothing to pick. -/
theorem listPickNext_nil (h : s.runList = []) : (onList listPickNext).run s = .ok none s := by
  have hrun : listPickNext.run s.list = .ok none s.list := by
    rw [listPickNext, Prog.bind_of_ok (Prog.run_get _)]
    simp only [Twin.list, h]
    rfl
  rw [onList, Prog.embed]
  dsimp only
  rw [hrun]
  rfl

/-- **A call that enqueues nothing** finds nothing in both queues. -/
theorem Unqueued.call (h : Unqueued s) {c : QueueCall} (hc : ∀ p, c ≠ .enqueue p) :
    ∃ s' u, (twinCall .null c).run s = .ok (none, none) s' ∧ Unqueued s' ∧
      (heapCall c).run s.history.sched = .ok none u ∧ s'.history = s.history.after c none u := by
  obtain ⟨u, hheap, hq⟩ := heapCall_nil hc h.queue
  cases c with
  | alloc p =>
    refine ⟨{ s with history := s.history.after (.alloc p) none u, link := Function.update s.link p .null }, u, ?_,
      ⟨hq, h.queued, h.runList, ?_⟩, hheap, rfl⟩
    · rw [twinCall, Prog.bind_of_ok (Prog.run_modify ..),
        Prog.bind_of_ok (onHeap_run (s := { s with link := Function.update s.link p .null }) hheap)]
      rfl
    · intro x hx
      by_cases heq : x = p
      · rw [heq]
        exact Function.update_self ..
      · exact (Function.update_of_ne heq ..).trans (h.link x ((List.mem_cons.mp hx).resolve_left heq))
  | setPriority p priority =>
    refine ⟨{ s with history := s.history.after (.setPriority p priority) none u }, u, ?_,
      ⟨hq, h.queued, h.runList, h.link⟩, hheap, rfl⟩
    rw [twinCall, Prog.bind_of_ok (onHeap_run hheap)]
    rfl
  | enqueue p => exact absurd rfl (hc p)
  | pick =>
    refine ⟨{ s with history := s.history.after .pick none u }, u, ?_, ⟨hq, h.queued, h.runList, h.link⟩, hheap, rfl⟩
    rw [twinCall, Prog.bind_of_ok (Prog.run_get s), Prog.bind_of_ok (listPickNext_nil h.runList),
      Prog.bind_of_ok (onHeap_run hheap)]
    rfl

/-- **The first process that is enqueued** fails the assertion on its link. -/
theorem Unqueued.enqueue (h : Unqueued s) {p : ℕ} (hp : p ∈ s.history.created) :
    (twinCall .null (.enqueue p)).run s = .panic (.list .notEmpty) := by
  have hrun : (listEnqueue p).run s.list = .panic .notEmpty := by
    rw [listEnqueue, Prog.bind_of_ok (Prog.run_get _)]
    refine Prog.bind_of_panic (Prog.run_assert_of_not _ _ ?_)
    show s.link p ≠ .self
    rw [h.link p hp]
    exact nofun
  rw [twinCall]
  refine Prog.bind_of_panic ?_
  rw [onList, Prog.embed]
  dsimp only
  rw [hrun]

/-- Calls that enqueue nothing agree, and the first call that does fails. -/
theorem Unqueued.agree_iff (h : Unqueued s) (hmade : CallsMade calls s.history) :
    Agree .null calls s ↔ ∀ p, QueueCall.enqueue p ∉ calls := by
  induction calls generalizing s with
  | nil => exact iff_of_true ⟨[], s, rfl, by simp⟩ (by simp)
  | cons c calls ih =>
    obtain ⟨hc, hrest⟩ := hmade
    by_cases henq : ∃ p, c = .enqueue p
    · obtain ⟨p, rfl⟩ := henq
      refine iff_of_false ?_ fun hnone => hnone p List.mem_cons_self
      rintro ⟨found, s', hrun, -⟩
      rw [twinRun, Prog.bind_of_panic (h.enqueue hc.1)] at hrun
      cases hrun
    · have hne : ∀ p, c ≠ .enqueue p := fun p heq => henq ⟨p, heq⟩
      obtain ⟨s₁, u, hcall, hs₁, hheap, hhist⟩ := h.call hne
      have ih := ih hs₁ (hhist ▸ hrest none u hheap)
      have hcons : (∀ p, QueueCall.enqueue p ∉ c :: calls) ↔ ∀ p, QueueCall.enqueue p ∉ calls := by
        simp [fun p => Ne.symm (hne p)]
      rw [hcons, ← ih]
      constructor
      · rintro ⟨found, s', hrun, hfound⟩
        rw [twinRun, Prog.bind_of_ok hcall] at hrun
        obtain ⟨rest, s₂, hcalls, hpure⟩ := Prog.bind_eq_ok.mp hrun
        obtain ⟨rfl, rfl⟩ := (Outcome.ok.injEq ..).mp hpure
        exact ⟨rest, s₂, hcalls, fun f hf => hfound f (List.mem_cons_of_mem _ hf)⟩
      · rintro ⟨found, s', hrun, hfound⟩
        refine ⟨(none, none) :: found, s', ?_, ?_⟩
        · rw [twinRun, Prog.bind_of_ok hcall, Prog.bind_of_ok hrun]
          rfl
        · intro f hf
          rcases List.mem_cons.mp hf with rfl | hf
          · rfl
          · exact hfound f hf

theorem Unqueued.boot (proc : ℕ → SchedProc) (pool : LinkMem ℕ) (idle : ℕ) (link : ℕ → RunLink) :
    Unqueued (.boot proc pool idle link) :=
  ⟨⟨⟨trivial, rfl, List.nodup_nil, nofun⟩, rfl⟩, rfl, rfl, fun _ h => absurd h List.not_mem_nil⟩

/-- With the links of `alloc_proc` the two run queues agree exactly on the calls that enqueue nothing. -/
theorem queues_agree_iff (proc : ℕ → SchedProc) (pool : LinkMem ℕ) (idle : ℕ) (link : ℕ → RunLink)
    (hmade : CallsMade calls (Twin.boot proc pool idle link).history) :
    Agree .null calls (.boot proc pool idle link) ↔ ∀ p, QueueCall.enqueue p ∉ calls :=
  (Unqueued.boot proc pool idle link).agree_iff hmade

/-- A process that is made and enqueued. -/
theorem callsMade_one (proc : ℕ → SchedProc) (pool : LinkMem ℕ) (idle : ℕ) (link : ℕ → RunLink) :
    CallsMade [.alloc 1, .enqueue 1] (Twin.boot proc pool idle link).history := by
  refine ⟨List.not_mem_nil, fun next s hrun => ?_⟩
  obtain ⟨rfl, rfl⟩ := (Outcome.ok.injEq ..).mp hrun
  have hproc : ((SchedState.boot proc pool idle).setProc 1 fun _ => allocProc).proc 1 = allocProc := by
    simp [SchedState.setProc]
  refine ⟨⟨List.mem_cons_self, List.not_mem_nil, Nat.zero_lt_succ _, 0, fun x hx => ?_⟩, fun _ _ _ => trivial⟩
  cases List.mem_singleton.mp hx
  show ((((SchedState.boot proc pool idle).setProc 1 fun _ => allocProc).proc 1).stride - 0).toNat ≤ bigStride.toNat
  rw [hproc]
  exact Nat.zero_le _

theorem queues_agree_iff_one :
    Agree .null [.alloc 1, .enqueue 1] (.boot (fun _ => allocProc) (fun _ => ⟨none, none, none⟩) 0 fun _ => .null) ↔
      ∀ p, QueueCall.enqueue p ∉ [QueueCall.alloc 1, .enqueue 1] :=
  queues_agree_iff _ _ _ _ (callsMade_one _ _ _ _)

/-- The first process that is woken up stops the kernel. -/
theorem not_queues_agree : ¬ ∀ (proc : ℕ → SchedProc) (pool : LinkMem ℕ) (idle : ℕ) (link : ℕ → RunLink)
    (calls : List QueueCall), CallsMade calls (Twin.boot proc pool idle link).history →
      Agree .null calls (.boot proc pool idle link) := fun hagree => by
  have hcalls := callsMade_one (fun _ => allocProc) (fun _ => ⟨none, none, none⟩) 0 fun _ => .null
  exact ((Unqueued.boot _ _ _ _).agree_iff hcalls).mp (hagree _ _ _ _ _ hcalls) 1 (by simp)

/-! ### A window of strides -/

section window

variable {u u' : SchedState} {l : List ℕ} {t t' : BinTree ℕ} {a b p : ℕ}

theorem Windowed.mono (h : Windowed u l) {l' : List ℕ} (hsub : ∀ x ∈ l', x ∈ l)
    (hstride : ∀ x ∈ l', (u'.proc x).stride = (u.proc x).stride) : Windowed u' l' := by
  obtain ⟨base, hbase⟩ := h
  exact ⟨base, fun x hx => by rw [hstride x hx]; exact hbase x (hsub x hx)⟩

/-- In a window the wrapped difference of two strides is that of their distances from its start. -/
theorem toInt_sub_of_window {x y base : BitVec 32} (hx : (x - base).toNat ≤ bigStride.toNat)
    (hy : (y - base).toNat ≤ bigStride.toNat) : (x - y).toInt = ((x - base).toNat : ℤ) - ((y - base).toNat : ℤ) := by
  have hxy := toInt_ofInt_sub (x := base.toInt + ((x - base).toNat : ℤ)) (y := base.toInt + ((y - base).toNat : ℤ))
    (by omega) (by omega)
  rw [← ofInt_window, ← ofInt_window] at hxy
  rw [hxy]
  omega

/-- **The comparison of the strides** in a window is that of natural numbers. -/
theorem Windowed.exists_key (h : Windowed u l) : ∃ key : ℕ → ℕ,
    (∀ a ∈ l, ∀ b ∈ l, ((u.proc a).stride - (u.proc b).stride).toInt = (key a : ℤ) - key b) ∧
      ∀ a ∈ l, ∀ b ∈ l, key a = key b → (u.proc a).stride = (u.proc b).stride := by
  obtain ⟨base, hbase⟩ := h
  refine ⟨fun x => ((u.proc x).stride - base).toNat, fun a ha b hb => toInt_sub_of_window (hbase a ha) (hbase b hb), ?_⟩
  intro a _ b _ heq
  exact (BitVec.sub_left_inj base).mp (BitVec.eq_of_toNat_eq heq)

/-- The loop over the list finds a process with the least stride. -/
theorem scanList_least {proc : ℕ → SchedProc} {key : ℕ → ℕ} (l : List ℕ) (p : ℕ)
    (hkey : ∀ a ∈ p :: l, ∀ b ∈ p :: l, ((proc a).stride - (proc b).stride).toInt = (key a : ℤ) - key b) :
    scanList proc p l ∈ p :: l ∧ ∀ x ∈ p :: l, key (scanList proc p l) ≤ key x := by
  induction l generalizing p with
  | nil => simp [scanList]
  | cons q l ih =>
    have hpq := hkey p (by simp) q (by simp)
    rw [scanList]
    split_ifs with hlt
    · -- the process `q` is before `p`
      obtain ⟨hmem, hle⟩ := ih q fun a ha b hb => hkey a (List.mem_cons_of_mem p ha) b (List.mem_cons_of_mem p hb)
      refine ⟨List.mem_cons_of_mem p hmem, fun x hx => ?_⟩
      rcases List.mem_cons.mp hx with rfl | hx
      · have := hle q List.mem_cons_self
        omega
      · exact hle x hx
    · have hsub : ∀ x ∈ p :: l, x ∈ p :: q :: l := fun x hx => by
        rcases List.mem_cons.mp hx with rfl | hx
        · simp
        · simp [hx]
      obtain ⟨hmem, hle⟩ := ih p fun a ha b hb => hkey a (hsub a ha) b (hsub b hb)
      refine ⟨hsub _ hmem, fun x hx => ?_⟩
      rcases List.mem_cons.mp hx with rfl | hx
      · exact hle _ List.mem_cons_self
      rcases List.mem_cons.mp hx with rfl | hx
      · have := hle p List.mem_cons_self
        omega
      · exact hle x (List.mem_cons_of_mem p hx)

theorem Windowed.merge (h : Windowed u l) (ht : StrideOrdered u t) (ht' : StrideOrdered u t')
    (hmem : ∀ x ∈ t.nodes, x ∈ l) (hmem' : ∀ x ∈ t'.nodes, x ∈ l) :
    StrideOrdered u (BinTree.merge (Before (procStrideComp u.proc)) t t') := by
  obtain ⟨key, hkey, -⟩ := h.exists_key
  refine Ordered.merge t t' ht ht' fun a ha b hb hab => ?_
  rw [before_iff_toInt, hkey a (hmem a ha) b (hmem' b hb)] at hab
  rw [before_iff_toInt, hkey b (hmem' b hb) a (hmem a ha)]
  omega

/-- **The two pick the same stride**: the root of the skew heap and what the loop over the list finds are both least. -/
theorem Windowed.stride_eq (h : Windowed u t.nodes) (ht : StrideOrdered u t) {root p : ℕ} (hroot : t.root = some root)
    (hperm : (p :: l).Perm t.nodes) : (u.proc (scanList u.proc p l)).stride = (u.proc root).stride := by
  obtain ⟨key, hkey, heq⟩ := h.exists_key
  have hin : ∀ x ∈ p :: l, x ∈ t.nodes := fun x => hperm.mem_iff.mp
  obtain ⟨hmem, hle⟩ := scanList_least l p fun a ha b hb => hkey a (hin a ha) b (hin b hb)
  have hrootmem := mem_of_root hroot
  refine heq _ (hin _ hmem) _ hrootmem (le_antisymm (hle root (hperm.mem_iff.mpr hrootmem)) ?_)
  have hord : t.Ordered fun a b => (key a : ℤ) < key b := Ordered.congr ht fun a ha b hb hab => by
    rw [before_iff_toInt, hkey a ha b hb]
    omega
  have hmin := hord.root_le (weakOrder_lt fun x => (key x : ℤ)) hroot (hin _ hmem)
  omega

end window

/-! ### A process whose link is initialized -/

/-- The invariant of both queues, when `alloc_proc` initializes the link: they hold the same processes, and the link of each
process says whether it is one of them. -/
structure TwinInv (s : Twin) (t : BinTree ℕ) : Prop where
  queue : QueueAt s.history.sched t
  ordered : StrideOrdered s.history.sched t
  window : Windowed s.history.sched t.nodes
  queued : s.history.queued.Perm t.nodes
  runList : s.runList.Perm t.nodes
  listed : ∀ p ∈ t.nodes, s.link p = .listed ∧ (s.history.sched.proc p).onRq = true
  idle : ∀ p ∈ s.history.created, p ∉ t.nodes → s.link p = .self
  size : t.size ≤ maxProcess

theorem onList_run {α : Type} {m : ListProg α} {a : α} {q : ListQueue} (h : m.run s.list = .ok a q) :
    (onList m).run s = .ok a { s with link := q.link, runList := q.runList, procNum := q.procNum } := by
  rw [onList, Prog.embed]
  dsimp only
  rw [h]

section call

variable {t : BinTree ℕ} {p : ℕ} {u u' : SchedState}

theorem listEnqueue_run {q : ListQueue} (h : q.link p = .self) : (listEnqueue p).run q = .ok () { q with
    link := Function.update q.link p .listed
    runList := q.runList ++ [p]
    proc := Function.update q.proc p ((q.proc p).enqueued q.maxTimeSlice)
    procNum := q.procNum + 1 } := by
  rw [listEnqueue, Prog.bind_of_ok (Prog.run_get _), Prog.bind_of_ok (Prog.run_assert_of _ _ h), Prog.run_modify]

theorem listDequeue_run {q : ListQueue} (h : q.link p = .listed) (hrq : (q.proc p).onRq = true) :
    (listDequeue p).run q = .ok () { q with
      link := Function.update q.link p .self
      runList := q.runList.erase p
      procNum := q.procNum - 1 } := by
  have hne : q.link p ≠ .self ∧ q.link p ≠ .null := by
    rw [h]
    exact ⟨nofun, nofun⟩
  rw [listDequeue, Prog.bind_of_ok (Prog.run_get _), Prog.bind_of_ok (Prog.run_assert_of _ _ ⟨hne.1, hrq⟩),
    if_neg hne.2, Prog.run_modify]

theorem strideEnqueue_proc {fuel : ℕ} (h : (strideEnqueue fuel p).run u = .ok () u') :
    u'.proc = (u.setProc p fun d => d.enqueued u.maxTimeSlice).proc := by
  rw [strideEnqueue, Prog.bind_of_ok (Prog.run_get u)] at h
  cases hrun : skewHeapInsert (procStrideComp u.proc) fuel u.pool u.runPool p with
  | none =>
    rw [hrun] at h
    cases h
  | some r =>
    rw [hrun] at h
    obtain ⟨-, rfl⟩ := (Outcome.ok.injEq ..).mp h
    rfl

theorem strideDequeue_proc {fuel : ℕ} (h : (strideDequeue fuel p).run u = .ok () u') : u'.proc = u.proc := by
  rw [strideDequeue, Prog.bind_of_ok (Prog.run_get u)] at h
  cases hrun : skewHeapRemove (procStrideComp u.proc) fuel u.pool u.runPool p with
  | none =>
    rw [hrun] at h
    cases h
  | some r =>
    rw [hrun] at h
    obtain ⟨-, rfl⟩ := (Outcome.ok.injEq ..).mp h
    rfl

/-- What a call leaves, with its result on the skew heap. -/
def TwinInv.Step (s : Twin) (c : QueueCall) : Prop :=
  ∃ found s' t' next u, (twinCall .self c).run s = .ok found s' ∧ found.1 = found.2 ∧ TwinInv s' t' ∧
    (heapCall c).run s.history.sched = .ok next u ∧ s'.history = s.history.after c next u

theorem TwinInv.alloc (h : TwinInv s t) (hp : p ∉ s.history.queued) : TwinInv.Step s (.alloc p) := by
  have hpt : p ∉ t.nodes := fun hmem => hp (h.queued.mem_iff.mpr hmem)
  have hne : ∀ x ∈ t.nodes, x ≠ p := fun x hx heq => hpt (heq ▸ hx)
  let u : SchedState := { s.history.sched.setProc p fun _ => allocProc with pool := skewHeapInit s.history.sched.pool p }
  have hproc : ∀ x, x ≠ p → u.proc x = s.history.sched.proc x := fun x hx => Function.update_of_ne hx _ _
  have hstride : ∀ x ∈ t.nodes, (u.proc x).stride = (s.history.sched.proc x).stride := fun x hx => by
    rw [hproc x (hne x hx)]
  have hlink : ∀ x, x ≠ p → Function.update s.link p RunLink.self x = s.link x := fun x hx => Function.update_of_ne hx _ _
  refine ⟨(none, none), { s with history := s.history.after (.alloc p) none u, link := Function.update s.link p .self }, t,
    none, u, ?_, rfl, ?_, rfl, rfl⟩
  · rw [twinCall, Prog.bind_of_ok (Prog.run_modify ..)]
    rfl
  · refine ⟨⟨h.queue.heap.frame fun x hx => Function.update_of_ne (hne x hx) _ _, h.queue.num⟩,
      h.ordered.congr hstride, h.window.mono (fun _ => id) hstride, h.queued, h.runList, fun x hx => ?_, fun x hx hxt => ?_,
      h.size⟩
    · obtain ⟨hl, hr⟩ := h.listed x hx
      exact ⟨(hlink x (hne x hx)).trans hl, (congrArg SchedProc.onRq (hproc x (hne x hx))).trans hr⟩
    · by_cases heq : x = p
      · rw [heq]
        exact Function.update_self ..
      · exact (hlink x heq).trans (h.idle x ((List.mem_cons.mp hx).resolve_left heq) hxt)

theorem TwinInv.setPriority (h : TwinInv s t) (p : ℕ) (priority : BitVec 32) :
    TwinInv.Step s (.setPriority p priority) := by
  have hstride : ∀ x, (((s.history.sched.setProc p fun d => { d with priority := priority }).proc x).stride) =
      (s.history.sched.proc x).stride := s.history.sched.field_setProc_of_eq SchedProc.stride p fun _ => rfl
  have honRq := s.history.sched.field_setProc_of_eq SchedProc.onRq p (f := fun d => { d with priority := priority })
    fun _ => rfl
  refine ⟨(none, none), { s with history := s.history.after (.setPriority p priority) none _ }, t, none, _, rfl, rfl, ?_,
    rfl, rfl⟩
  refine ⟨⟨h.queue.heap, h.queue.num⟩, h.ordered.congr fun x _ => hstride x, h.window.mono (fun _ => id) fun x _ => hstride x,
    h.queued, h.runList, fun x hx => ?_, h.idle, h.size⟩
  obtain ⟨hl, hr⟩ := h.listed x hx
  exact ⟨hl, (honRq x).trans hr⟩

theorem TwinInv.enqueue (h : TwinInv s t) (hmade : QueueCall.Made s.history (.enqueue p)) :
    TwinInv.Step s (.enqueue p) := by
  obtain ⟨hcreated, hp, hlen, hwindow⟩ := hmade
  have hpt : p ∉ t.nodes := fun hmem => hp (h.queued.mem_iff.mpr hmem)
  have hself : s.link p = .self := h.idle p hcreated hpt
  have hsize : t.size < maxProcess := by rwa [h.queued.length_eq, length_nodes] at hlen
  have hmax : maxProcess < 2 ^ 32 := by decide
  -- the skew heap
  have hpost := strideEnqueue_post maxProcess h.queue hpt (by omega)
  cases hrun : (strideEnqueue maxProcess p).run s.history.sched with
  | error e u =>
    rw [hrun] at hpost
    exact hpost.elim
  | panic e =>
    rw [hrun] at hpost
    exact absurd hpost.2 (not_le.mpr hsize)
  | ok a u =>
    rw [hrun] at hpost
    obtain ⟨hqueue, -, hstrides, -⟩ := hpost
    have hheap : (heapCall (.enqueue p)).run s.history.sched = .ok none u := by
      rw [heapCall, Prog.bind_of_ok hrun]
      rfl
    have hperm := nodes_merge (Before (procStrideComp s.history.sched.proc)) t (.node .nil p .nil)
    have hnodes : ∀ x ∈ t.nodes ++ [p], x = p ∨ x ∈ t.nodes ∧ x ≠ p := fun x hx => by
      rcases List.mem_append.mp hx with hx | hx
      · exact .inr ⟨hx, fun heq => hpt (heq ▸ hx)⟩
      · exact .inl (List.mem_singleton.mp hx)
    have hwindow : Windowed s.history.sched (t.nodes ++ [p]) := hwindow.mono (fun x hx => by
      rcases hnodes x hx with rfl | ⟨hx, -⟩
      · exact List.mem_cons_self
      · exact List.mem_cons_of_mem _ (h.queued.mem_iff.mpr hx)) fun _ _ => rfl
    have hordered := hwindow.merge h.ordered (strideOrdered_one _ p) (fun x hx => List.mem_append_left _ hx) fun x hx =>
      List.mem_append_right t.nodes hx
    have honRq : ∀ x, (u.proc x).onRq = if x = p then true else (s.history.sched.proc x).onRq := fun x => by
      rw [strideEnqueue_proc hrun]
      exact s.history.sched.field_setProc SchedProc.onRq p _ x
    let s₁ : Twin := { s with
      link := Function.update s.link p .listed
      runList := s.runList ++ [p]
      procNum := s.procNum + 1 }
    have hlist : (onList (listEnqueue p)).run s = .ok () s₁ := onList_run (listEnqueue_run (q := s.list) hself)
    refine ⟨(none, none), { s₁ with history := s.history.after (.enqueue p) none u }, _, none, u, ?_, rfl,
      ⟨hqueue, hordered.congr fun x _ => hstrides x, hwindow.mono (fun x => hperm.mem_iff.mp) fun x _ => hstrides x,
        ?_, (h.runList.append_right [p]).trans hperm.symm, fun x hx => ?_, fun x hx hxt => ?_, ?_⟩, hheap, rfl⟩
    · rw [twinCall, Prog.bind_of_ok hlist, Prog.bind_of_ok (onHeap_run (s := s₁) hheap)]
      rfl
    · exact (List.perm_append_singleton p _).symm.trans ((h.queued.append_right [p]).trans hperm.symm)
    · show Function.update s.link p RunLink.listed x = .listed ∧ (u.proc x).onRq = true
      rw [honRq]
      rcases hnodes x (hperm.mem_iff.mp hx) with rfl | ⟨hx, hne⟩
      · exact ⟨Function.update_self .., if_pos rfl⟩
      · obtain ⟨hl, hr⟩ := h.listed x hx
        exact ⟨(Function.update_of_ne hne ..).trans hl, (if_neg hne).trans hr⟩
    · have hnot : x ∉ t.nodes ++ [p] := fun hmem => hxt (hperm.mem_iff.mpr hmem)
      rw [List.mem_append, List.mem_singleton, not_or] at hnot
      exact (Function.update_of_ne hnot.2 ..).trans (h.idle x hx hnot.1)
    · rw [← length_nodes, hperm.length_eq, List.length_append, length_nodes]
      exact hsize

/-- Nothing is picked from two empty queues. -/
theorem TwinInv.pick_none (h : TwinInv s .nil) : TwinInv.Step s .pick := by
  obtain ⟨u, hpick, hqueue, -⟩ := stridePickNext_run h.queue
  have hheap : (heapCall .pick).run s.history.sched = .ok none u := by
    rw [heapCall, Prog.bind_of_ok hpick]
    rfl
  refine ⟨(none, none), { s with history := s.history.after .pick none u }, .nil, none, u, ?_, rfl,
    ⟨hqueue, trivial, ⟨0, nofun⟩, h.queued, h.runList, nofun, h.idle, h.size⟩, hheap, rfl⟩
  rw [twinCall, Prog.bind_of_ok (Prog.run_get s), Prog.bind_of_ok (listPickNext_nil (List.perm_nil.mp h.runList)),
    Prog.bind_of_ok (onHeap_run hheap)]
  rfl

theorem listPickNext_cons {q : ℕ} {rest : List ℕ} (h : s.runList = q :: rest) :
    (onList listPickNext).run s = .ok (some (scanList s.history.sched.proc q rest)) s := by
  have hrun : ∃ proc, listPickNext.run s.list = .ok (some (scanList s.list.proc q rest)) { s.list with proc := proc } := by
    rw [listPickNext, Prog.bind_of_ok (Prog.run_get _)]
    simp only [Twin.list, h]
    exact ⟨_, rfl⟩
  obtain ⟨proc, hrun⟩ := hrun
  exact onList_run hrun

/-- A pick from the skew heap takes out the root, when its stride has been advanced. -/
theorem heapPick_run {l r : BinTree ℕ} (h : QueueAt u (.node l p r)) (hsize : (node l p r).size ≤ maxProcess) :
    ∃ u₁ u', (heapCall .pick).run u = .ok (some p) u' ∧
      QueueAt u' (BinTree.merge (Before (procStrideComp u₁.proc)) l r) ∧ SameStrides u₁ u' ∧
      (∀ x, x ≠ p → (u₁.proc x).stride = (u.proc x).stride) ∧ ∀ x, (u'.proc x).onRq = (u.proc x).onRq := by
  have hpmem : p ∈ (node l p r).nodes := mem_nodes_node.mpr (.inl rfl)
  obtain ⟨u₁, hpick, hqueue₁, -, -, hstride₁⟩ := stridePickNext_run h
  rw [root_node] at hpick hstride₁
  have hpost := strideDequeue_post maxProcess hqueue₁ hpmem
  cases hrun : (strideDequeue maxProcess p).run u₁ with
  | error e u' =>
    rw [hrun] at hpost
    exact hpost.elim
  | panic e =>
    rw [hrun] at hpost
    exact absurd hpost.2 (not_lt.mpr hsize)
  | ok a u' =>
    rw [hrun, remove_root] at hpost
    obtain ⟨hqueue, -, hstrides, -⟩ := hpost
    have hpick₁ : u₁ = u.setProc p fun d => { d with stride := d.stride + stridePass d.priority } := by
      rw [stridePickNext, Prog.bind_of_ok (Prog.run_get _), h.heap.root] at hpick
      exact ((Outcome.ok.injEq ..).mp hpick).2.symm
    refine ⟨u₁, u', ?_, hqueue, hstrides, fun x hx => ?_, fun x => ?_⟩
    · rw [heapCall, Prog.bind_of_ok hpick]
      dsimp only
      rw [Prog.bind_of_ok hrun, Prog.run_pure]
    · rw [hstride₁, if_neg fun heq => hx (Option.some.inj heq).symm]
    · rw [strideDequeue_proc hrun, hpick₁]
      exact u.field_setProc_of_eq SchedProc.onRq p (f := fun d => { d with stride := d.stride + stridePass d.priority })
        (fun _ => rfl) x

/-- **A pick.** The root of the skew heap is taken out of both queues. -/
theorem TwinInv.pick_some {l r : BinTree ℕ} (h : TwinInv s (.node l p r)) : TwinInv.Step s .pick := by
  have hpmem : p ∈ (node l p r).nodes := mem_nodes_node.mpr (.inl rfl)
  obtain ⟨⟨hpl, hpr⟩, -⟩ := nodup_node.mp h.queue.heap.nodup
  obtain ⟨u₁, u, hheap, hqueue, hstrides, hstride₁, honRq⟩ := heapPick_run h.queue h.size
  obtain ⟨q, rest, hlist⟩ : ∃ q rest, s.runList = q :: rest :=
    List.exists_cons_of_ne_nil fun hnil => by
      have := h.runList.mem_iff.mpr hpmem
      rw [hnil] at this
      cases this
  have hfound := listPickNext_cons hlist
  have heq := h.window.stride_eq h.ordered rfl (hlist ▸ h.runList)
  have hperm := nodes_merge (Before (procStrideComp u₁.proc)) l r
  have hrest : ∀ x ∈ l.nodes ++ r.nodes, x ∈ (node l p r).nodes ∧ x ≠ p := fun x hx => by
    rcases List.mem_append.mp hx with hx | hx
    · exact ⟨mem_nodes_node.mpr (.inr (.inl hx)), fun heq => hpl (heq ▸ hx)⟩
    · exact ⟨mem_nodes_node.mpr (.inr (.inr hx)), fun heq => hpr (heq ▸ hx)⟩
  have hkeep : ∀ x ∈ l.nodes ++ r.nodes, (u₁.proc x).stride = (s.history.sched.proc x).stride := fun x hx =>
    hstride₁ x (hrest x hx).2
  have hwindow₁ : Windowed u₁ (l.nodes ++ r.nodes) := h.window.mono (fun x hx => (hrest x hx).1) hkeep
  obtain ⟨-, -, hol, hor⟩ := h.ordered
  have hordered : StrideOrdered u₁ (BinTree.merge (Before (procStrideComp u₁.proc)) l r) :=
    hwindow₁.merge (StrideOrdered.congr hol fun x hx => hkeep x (List.mem_append_left _ hx))
      (StrideOrdered.congr hor fun x hx => hkeep x (List.mem_append_right _ hx))
      (fun x hx => List.mem_append_left _ hx) fun x hx => List.mem_append_right _ hx
  have herase : ∀ {m : List ℕ}, m.Perm (node l p r).nodes → (m.erase p).Perm
      (BinTree.merge (Before (procStrideComp u₁.proc)) l r).nodes := fun hm => by
    have := hm.erase p
    rw [show (node l p r).nodes = p :: (l.nodes ++ r.nodes) from rfl, List.erase_cons_head] at this
    exact this.trans hperm.symm
  obtain ⟨hplisted, hprq⟩ := h.listed p hpmem
  let s₁ : Twin := { s with history := s.history.after .pick (some p) u }
  have hdequeue : (onList (listDequeue p)).run s₁ = .ok () { s₁ with
      link := Function.update s.link p .self
      runList := s.runList.erase p
      procNum := s.procNum - 1 } :=
    onList_run (listDequeue_run (q := s₁.list) hplisted ((honRq p).trans hprq))
  let stride := fun x => (s.history.sched.proc x).stride
  refine ⟨(some (stride (scanList s.history.sched.proc q rest)), some (stride p)), { s₁ with
      link := Function.update s.link p .self
      runList := s.runList.erase p
      procNum := s.procNum - 1 }, BinTree.merge (Before (procStrideComp u₁.proc)) l r, some p, u, ?_, congrArg some heq, ?_,
    hheap, rfl⟩
  · rw [twinCall, Prog.bind_of_ok (Prog.run_get s), Prog.bind_of_ok hfound, Prog.bind_of_ok (onHeap_run hheap)]
    dsimp only
    rw [Prog.bind_of_ok hdequeue, Prog.run_pure]
    rfl
  · refine ⟨hqueue, hordered.congr fun x _ => hstrides x, hwindow₁.mono (fun x => hperm.mem_iff.mp) fun x _ => hstrides x,
      herase h.queued, herase h.runList, fun x hx => ?_, fun x hx hxt => ?_, ?_⟩
    · obtain ⟨hx, hne⟩ := hrest x (hperm.mem_iff.mp hx)
      obtain ⟨hl, hr⟩ := h.listed x hx
      exact ⟨(Function.update_of_ne hne ..).trans hl, (honRq x).trans hr⟩
    · by_cases hxp : x = p
      · rw [hxp]
        exact Function.update_self ..
      · refine (Function.update_of_ne hxp ..).trans (h.idle x hx fun hmem => hxt (hperm.mem_iff.mpr ?_))
        exact List.mem_append.mpr ((mem_nodes_node.mp hmem).resolve_left hxp)
    · have hlen := h.size
      rw [← length_nodes] at hlen ⊢
      rw [hperm.length_eq]
      exact Nat.le_of_succ_le hlen

theorem TwinInv.call (h : TwinInv s t) {c : QueueCall} (hmade : c.Made s.history) : TwinInv.Step s c := by
  cases c with
  | alloc p => exact h.alloc hmade
  | setPriority p priority => exact h.setPriority p priority
  | enqueue p => exact h.enqueue hmade
  | pick =>
    cases t with
    | nil => exact h.pick_none
    | node l p r => exact h.pick_some

end call

/-- **The run of the calls.** -/
theorem TwinInv.agree {t : BinTree ℕ} (h : TwinInv s t) (hmade : CallsMade calls s.history) : Agree .self calls s := by
  induction calls generalizing s t with
  | nil => exact ⟨[], s, rfl, by simp⟩
  | cons c calls ih =>
    obtain ⟨hc, hrest⟩ := hmade
    obtain ⟨found, s₁, t₁, next, u, hcall, heq, hs₁, hheap, hhist⟩ := h.call hc
    obtain ⟨rest, s₂, hcalls, hagree⟩ := ih hs₁ (hhist ▸ hrest next u hheap)
    refine ⟨found :: rest, s₂, ?_, ?_⟩
    · rw [twinRun, Prog.bind_of_ok hcall, Prog.bind_of_ok hcalls]
      rfl
    · intro f hf
      rcases List.mem_cons.mp hf with rfl | hf
      · exact heq
      · exact hagree f hf

/-- With links that `list_init` has written the two run queues agree on all calls. -/
theorem queues_agree_of_self (proc : ℕ → SchedProc) (pool : LinkMem ℕ) (idle : ℕ) (link : ℕ → RunLink)
    (hmade : CallsMade calls (Twin.boot proc pool idle link).history) : Agree .self calls (.boot proc pool idle link) := by
  have hinv : TwinInv (.boot proc pool idle link) .nil :=
    ⟨⟨⟨trivial, rfl, List.nodup_nil, nofun⟩, rfl⟩, trivial, ⟨0, nofun⟩, .refl _, .refl _, nofun,
      fun _ h => absurd h List.not_mem_nil, Nat.zero_le _⟩
  exact hinv.agree hmade

theorem queues_agree_of_self_one :
    Agree .self [.alloc 1, .enqueue 1] (.boot (fun _ => allocProc) (fun _ => ⟨none, none, none⟩) 0 fun _ => .null) :=
  queues_agree_of_self _ _ _ _ (callsMade_one _ _ _ _)

end Ucore.Sched
