import Ucore.Sched.QueueRuns

/-!
# The strides

The heap is in the order of the strides as long as these lie in a window that is not longer than `BIG_STRIDE`.

* `Spread s f` says so, for integers `f` that the strides are equal to modulo 2^32. On the processes that can run,
  `proc_stride_comp_f` compares these integers (`Spread.before_iff`).
* `schedule` keeps the window (`Scheduled.spread`), since it picks a process with the least stride. A process that joins
  those that can run may leave it: a child has the stride 0, a process that slept has the stride it had before.
* `stride_minimum` is about the runs in which no process does; `stride_minimum_wraps` is a run in which one does.
* `proportional_share` is about calls of `schedule` in a row.
-/

namespace Ucore.Sched

open Ucore.Lib Ucore.Process Ucore.Lib.BinTree

variable {s s' s₁ s₂ : SchedState} {t t₁ t' : BinTree ℕ} {f : ℕ → ℤ} {a b p q : ℕ}

/-! ### The order of the strides -/

/-- The strides of the processes that can run are those of `f`, modulo 2^32, and no two are farther apart than
`BIG_STRIDE`. -/
structure Spread (s : SchedState) (f : ℕ → ℤ) : Prop where
  stride : ∀ x, s.Runnable x → (s.proc x).stride = BitVec.ofInt 32 (f x)
  le : ∀ a b, s.Runnable a → s.Runnable b → f a - f b ≤ bigStride.toNat

/-- The wrapped difference of two integers that are not farther apart than `BIG_STRIDE`. -/
theorem toInt_ofInt_sub {x y : ℤ} (hxy : x - y ≤ bigStride.toNat) (hyx : y - x ≤ bigStride.toNat) :
    (BitVec.ofInt 32 x - BitVec.ofInt 32 y).toInt = x - y := by
  rw [show (bigStride.toNat : ℤ) = 2 ^ 31 - 1 from rfl] at hxy hyx
  rw [BitVec.toInt_sub, BitVec.toInt_ofInt, BitVec.toInt_ofInt, Int.bmod_sub_bmod, Int.sub_bmod_bmod]
  apply Int.bmod_eq_of_le <;> omega

theorem Spread.toInt_sub (hf : Spread s f) (ha : s.Runnable a) (hb : s.Runnable b) :
    ((s.proc a).stride - (s.proc b).stride).toInt = f a - f b := by
  rw [hf.stride a ha, hf.stride b hb]
  exact toInt_ofInt_sub (hf.le a b ha hb) (hf.le b a hb ha)

theorem before_iff_toInt (proc : ℕ → SchedProc) (a b : ℕ) :
    Before (procStrideComp proc) a b ↔ ((proc a).stride - (proc b).stride).toInt < 0 := by
  unfold Before procStrideComp
  simp only
  split_ifs with hpos hzero
  · exact iff_of_false (by decide) (not_lt_of_gt hpos)
  · exact iff_of_false (by decide) (by rw [hzero]; exact lt_irrefl 0)
  · exact iff_of_true rfl (lt_of_le_of_ne (le_of_not_gt hpos) hzero)

/-- **The comparison of the strides** is that of the integers. -/
theorem Spread.before_iff (hf : Spread s f) (ha : s.Runnable a) (hb : s.Runnable b) :
    Before (procStrideComp s.proc) a b ↔ f a < f b := by
  rw [before_iff_toInt, hf.toInt_sub ha hb]
  exact sub_neg

theorem weakOrder_lt (f : ℕ → ℤ) : WeakOrder fun a b => f a < f b where
  asymm _ _ h := not_lt_of_gt h
  trans _ _ _ h h' := not_lt_of_ge (le_trans (le_of_not_gt h) (le_of_not_gt h'))

/-- The heap is in the order of the strides. -/
def StrideOrdered (s : SchedState) (t : BinTree ℕ) : Prop := t.Ordered (Before (procStrideComp s.proc))

/-- The order depends on the strides of the nodes. -/
theorem StrideOrdered.congr (h : StrideOrdered s t) (heq : ∀ x ∈ t.nodes, (s'.proc x).stride = (s.proc x).stride) :
    StrideOrdered s' t := by
  refine Ordered.congr h fun a ha b hb hab => ?_
  rw [before_iff_toInt] at hab ⊢
  rwa [heq a ha, heq b hb] at hab

theorem Spread.merge (hf : Spread s f) (h : StrideOrdered s t) (h' : StrideOrdered s t')
    (hmem : ∀ x ∈ t.nodes, s.Runnable x) (hmem' : ∀ x ∈ t'.nodes, s.Runnable x) :
    StrideOrdered s (merge (Before (procStrideComp s.proc)) t t') := by
  refine Ordered.merge t t' h h' fun a ha b hb hab => ?_
  rw [hf.before_iff (hmem a ha) (hmem' b hb)] at hab
  rw [hf.before_iff (hmem' b hb) (hmem a ha)]
  exact not_lt_of_gt hab

theorem strideOrdered_one (s : SchedState) (p : ℕ) : StrideOrdered s (.node .nil p .nil) := ⟨nofun, nofun, trivial, trivial⟩

/-- The root has the least stride. -/
theorem Spread.root_le (hf : Spread s f) (h : StrideOrdered s t) (hmem : ∀ x ∈ t.nodes, s.Runnable x)
    (hroot : t.root = some p) (hq : q ∈ t.nodes) : f p ≤ f q := by
  have hord : t.Ordered fun a b => f a < f b :=
    Ordered.congr h fun a ha b hb hab => (hf.before_iff (hmem a ha) (hmem b hb)).mpr hab
  have hmin := hord.root_le (weakOrder_lt f) hroot hq
  exact le_of_not_gt hmin

/-! ### `schedule` keeps the window -/

/-- The heap is in order when the current process is back in it. -/
theorem PutBack.ordered (hput : PutBack s t t₁) (hmem : ∀ x, x ∈ t₁.nodes ↔ s.Runnable x) (hf : Spread s f)
    (h : StrideOrdered s t) : StrideOrdered s t₁ := by
  rcases hput with ⟨-, rfl⟩ | ⟨hcurrent, rfl⟩
  · exact h
  · refine hf.merge h (strideOrdered_one s s.current) (fun x hx => ?_) fun x hx => ?_
    · exact (hmem x).mp ((mem_nodes_merge _).mpr (Or.inl hx))
    · rw [List.mem_singleton.mp hx]
      exact hcurrent

/-- What `stride_pick_next` adds to the stride of `p`. -/
def SchedState.pass (s : SchedState) (p : ℕ) : ℕ := (stridePass (s.proc p).priority).toNat

theorem pass_le (s : SchedState) (p : ℕ) : s.pass p ≤ bigStride.toNat := by
  unfold SchedState.pass stridePass
  split_ifs
  · exact le_refl _
  · rw [BitVec.toNat_udiv]
    exact Nat.div_le_self _ _

theorem ofInt_add_pass (z : ℤ) (pass : BitVec 32) :
    BitVec.ofInt 32 z + pass = BitVec.ofInt 32 (z + (pass.toNat : ℤ)) := by
  rw [BitVec.ofInt_add, BitVec.ofInt_natCast, BitVec.ofNat_toNat, BitVec.setWidth_eq]

/-- The strides after `p` has been picked. -/
def picked (s : SchedState) (f : ℕ → ℤ) (p : ℕ) : ℕ → ℤ := Function.update f p (f p + s.pass p)

/-- **`schedule` picks a process with the least stride, and the window stays.** -/
theorem Scheduled.spread (hsched : Scheduled s s' t t₁ t') (hf : Spread s f) (h : StrideOrdered s t)
    (hroot : t₁.root = some p) :
    (∀ q, s.Runnable q → f p ≤ f q) ∧ Spread s' (picked s f p) ∧ StrideOrdered s' t' := by
  have hord := hsched.putBack.ordered hsched.mem hf h
  have hmin : ∀ q, s.Runnable q → f p ≤ f q := fun q hq =>
    hf.root_le hord (fun x hx => (hsched.mem x).mp hx) hroot ((hsched.mem q).mpr hq)
  have hp : s.Runnable p := (hsched.mem p).mp (mem_of_root hroot)
  have hpass := pass_le s p
  have hspread : Spread s' (picked s f p) := by
    refine ⟨fun x hx => ?_, fun a b ha hb => ?_⟩
    · rw [hsched.table.runnable] at hx
      rw [hsched.strides, hroot, picked, hf.stride x hx]
      by_cases hxp : x = p
      · rw [if_pos (congrArg some hxp.symm), hxp, Function.update_self, ofInt_add_pass]
        rfl
      · rw [if_neg fun heq => hxp (Option.some.inj heq).symm, Function.update_of_ne hxp]
    · rw [hsched.table.runnable] at ha hb
      have hab := hf.le a b ha hb
      have hpa := hmin a ha
      have hpb := hmin b hb
      have hap := hf.le a p ha hp
      unfold picked
      by_cases hap : a = p <;> by_cases hbp : b = p
      · rw [hap, hbp, sub_self]
        exact Int.natCast_nonneg _
      · rw [hap, Function.update_self, Function.update_of_ne hbp]
        omega
      · rw [hbp, Function.update_self, Function.update_of_ne hap]
        omega
      · rw [Function.update_of_ne hap, Function.update_of_ne hbp]
        exact hab
  refine ⟨hmin, hspread, ?_⟩
  obtain ⟨p', hroot', rfl⟩ := hsched.rest.resolve_left fun hnil => by rw [hnil.1] at hroot; cases hroot
  rw [hroot] at hroot'
  cases hroot'
  cases t₁ with
  | nil => cases hroot
  | node l c r =>
    cases hroot
    obtain ⟨⟨hpl, hpr⟩, -⟩ := nodup_node.mp hsched.nodup
    obtain ⟨-, -, hol, hor⟩ := hord
    have hstride : ∀ x, x ≠ p → (s'.proc x).stride = (s.proc x).stride := by
      intro x hx
      rw [hsched.strides, root_node, if_neg fun heq => hx (Option.some.inj heq).symm]
    have hin : ∀ x, x ∈ l.nodes ∨ x ∈ r.nodes → s'.Runnable x := fun x hx =>
      hsched.table.runnable.mpr ((hsched.mem x).mp (mem_nodes_node.mpr (Or.inr hx)))
    rw [remove_root]
    refine hspread.merge (StrideOrdered.congr hol fun x hx => hstride x ?_)
      (StrideOrdered.congr hor fun x hx => hstride x ?_) (fun x hx => hin x (Or.inl hx)) fun x hx => hin x (Or.inr hx)
    · rintro rfl
      exact hpl hx
    · rintro rfl
      exact hpr hx

/-- When no process can run, nothing changes. -/
theorem Scheduled.spread_idle (hsched : Scheduled s s' t t₁ t') (hf : Spread s f) (hroot : t₁.root = none) :
    Spread s' f ∧ StrideOrdered s' t' := by
  have hnil := root_eq_none.mp hroot
  rcases hsched.rest with ⟨-, rfl⟩ | ⟨p, hp, -⟩
  · refine ⟨⟨fun x hx => ?_, fun a b ha hb => ?_⟩, trivial⟩
    · rw [hsched.table.runnable, ← hsched.mem, hnil] at hx
      exact absurd hx List.not_mem_nil
    · exact hf.le a b (hsched.table.runnable.mp ha) (hsched.table.runnable.mp hb)
  · rw [hroot] at hp
    cases hp

/-! ### Processes that join -/

/-- A stride lies in a window of the length `BIG_STRIDE` together with the strides of the processes that can run. -/
def FitsWindow (s : SchedState) (stride : BitVec 32) : Prop :=
  ∃ base : BitVec 32, (stride - base).toNat ≤ bigStride.toNat ∧
    ∀ x, s.Runnable x → ((s.proc x).stride - base).toNat ≤ bigStride.toNat

/-- The process that a call adds to those that can run, if it adds one, has a stride that fits. -/
def SchedAction.Fits (s : SchedState) : SchedAction → Prop
  | wakeup p => p ∈ s.procList → FitsWindow s (s.proc p).stride
  | fork _ _ => FitsWindow s 0
  | _ => True

theorem ofInt_window (x base : BitVec 32) : x = BitVec.ofInt 32 (base.toInt + ((x - base).toNat : ℤ)) := by
  rw [BitVec.ofInt_add, BitVec.ofInt_toInt, BitVec.ofInt_natCast, BitVec.ofNat_toNat, BitVec.setWidth_eq,
    BitVec.add_comm, BitVec.sub_add_cancel]

/-- The strides are in a window, and the heap is in their order. -/
def StrideInv (s : SchedState) (t : BinTree ℕ) : Prop := (∃ f, Spread s f) ∧ StrideOrdered s t

theorem Quiet.strideInv (hquiet : Quiet s s' t) (h : StrideInv s t) : StrideInv s' t := by
  obtain ⟨⟨f, hf⟩, hord⟩ := h
  refine ⟨⟨f, fun x hx => ?_, fun a b ha hb => ?_⟩, hord.congr fun x hx => ?_⟩
  · obtain ⟨hrun, hstride⟩ := hquiet.runnable x hx
    rw [hstride, hf.stride x hrun]
  · exact hf.le a b (hquiet.runnable a ha).1 (hquiet.runnable b hb).1
  · exact (hquiet.runnable x ((hquiet.inv.mem x).mp hx).1).2

/-- **A process that joins with a stride that fits** keeps the order. -/
theorem Joined.strideInv {stride : BitVec 32} (hjoined : Joined s s' t t' p stride) (hinv : QueueInv s t)
    (h : StrideInv s t) (hfits : FitsWindow s stride) : StrideInv s' t' := by
  obtain ⟨base, hbase, hall⟩ := hfits
  have hle : ∀ x, s'.Runnable x → ((s'.proc x).stride - base).toNat ≤ bigStride.toNat := by
    intro x hx
    rcases hjoined.runnable x hx with ⟨-, -, hstride⟩ | ⟨hrun, hstride⟩
    · rw [hstride]
      exact hbase
    · rw [hstride]
      exact hall x hrun
  have hspread : Spread s' fun x => base.toInt + (((s'.proc x).stride - base).toNat : ℤ) := by
    refine ⟨fun x _ => ofInt_window _ base, fun a b ha _ => ?_⟩
    have ha := hle a ha
    show base.toInt + _ - (base.toInt + _) ≤ _
    omega
  have hsub : ∀ x ∈ t.nodes, x ∈ t'.nodes := by
    intro x hx
    rcases hjoined.heap with rfl | ⟨-, rfl⟩
    · exact hx
    · exact (mem_nodes_merge _).mpr (Or.inl hx)
  have hrunnable : ∀ x ∈ t'.nodes, s'.Runnable x := fun x hx => ((hjoined.inv.mem x).mp hx).1
  have hord : StrideOrdered s' t := by
    refine h.2.congr fun x hx => ?_
    rcases hjoined.runnable x (hrunnable x (hsub x hx)) with ⟨rfl, hnot, -⟩ | ⟨-, hstride⟩
    · exact absurd ((hinv.mem x).mp hx).1 hnot
    · exact hstride
  refine ⟨⟨_, hspread⟩, ?_⟩
  rcases hjoined.heap with rfl | ⟨-, rfl⟩
  · exact hord
  · refine hspread.merge hord (strideOrdered_one s' p) (fun x hx => hrunnable x (hsub x hx)) fun x hx => ?_
    exact hrunnable x ((mem_nodes_merge _).mpr (Or.inr hx))

/-- Nothing joins when it is `idleproc` that is woken. -/
theorem Joined.strideInv_idle {stride : BitVec 32} (hjoined : Joined s s' t t' p stride) (h : StrideInv s t)
    (hidle : p ∉ s'.procList) : StrideInv s' t' := by
  rcases hjoined.heap with rfl | ⟨hpt, rfl⟩
  · refine Quiet.strideInv ⟨hjoined.inv, fun x hx => ?_, fun x hx _ _ => hjoined.steady x hx⟩ h
    rcases hjoined.runnable x hx with ⟨rfl, -⟩ | hquiet
    · exact absurd hx.1 hidle
    · exact hquiet
  · have hp := (hjoined.inv.mem p).mp ((mem_nodes_merge _).mpr (Or.inr (List.mem_singleton.mpr rfl)))
    exact absurd hp.1.1 hidle

/-- What a call does to the window. -/
theorem SchedAction.Effect.strideInv {a : SchedAction} (heffect : a.Effect s s' t) (hinv : QueueInv s t)
    (h : StrideInv s t) (hfits : a.Fits s) : ∃ t', QueueInv s' t' ∧ StrideInv s' t' := by
  have hquiet : ∀ h' : Quiet s s' t, ∃ t', QueueInv s' t' ∧ StrideInv s' t' := fun h' =>
    ⟨t, h'.inv, h'.strideInv h⟩
  cases a with
  | wakeup p =>
    obtain ⟨t', hjoined, hlist⟩ := heffect
    by_cases hp : p ∈ s.procList
    · exact ⟨t', hjoined.inv, hjoined.strideInv hinv h (hfits hp)⟩
    · rw [← hlist] at hp
      exact ⟨t', hjoined.inv, hjoined.strideInv_idle h hp⟩
  | schedule =>
    obtain ⟨t₁, t', hsched, hinv'⟩ := heffect
    obtain ⟨⟨f, hf⟩, hord⟩ := h
    refine ⟨t', hinv', ?_⟩
    cases hroot : t₁.root with
    | none =>
      obtain ⟨hf', hord'⟩ := hsched.spread_idle hf hroot
      exact ⟨⟨f, hf'⟩, hord'⟩
    | some p =>
      obtain ⟨-, hf', hord'⟩ := hsched.spread hf hord hroot
      exact ⟨⟨_, hf'⟩, hord'⟩
  | fork mem copied =>
    cases mem with
    | none => exact hquiet heffect
    | some p =>
      obtain ⟨t', hjoined⟩ := heffect
      exact ⟨t', hjoined.inv, hjoined.strideInv hinv h hfits⟩
  | sleep waitState => exact hquiet heffect
  | exit => exact hquiet heffect
  | reap p => exact hquiet heffect
  | setPriority priority => exact hquiet heffect
  | tick => exact hquiet heffect
  | yield => exact hquiet heffect

/-- **The invariant of the runs in which every process that joins fits.** -/
theorem SchedReach.strideInv (h : SchedReach (fun s a => a.Fits s) s) : ∃ t, QueueInv s t ∧ StrideInv s t := by
  induction h with
  | boot proc pool idle =>
    refine ⟨.nil, queueInv_boot proc pool idle, ⟨fun _ => 0, fun x hx => ?_, fun a b ha _ => ?_⟩, trivial⟩
    · exact absurd hx.1 List.not_mem_nil
    · exact absurd ha.1 List.not_mem_nil
  | step h a fuel ha hok hrun ih =>
    obtain ⟨t, hinv, hstride⟩ := ih
    have hpost := a.post fuel hinv ha
    rw [hrun] at hpost
    exact SchedAction.Effect.strideInv hpost hinv hstride hok
  | failed h a fuel ha hok hrun ih =>
    obtain ⟨t, hinv, hstride⟩ := ih
    have hpost := a.post fuel hinv ha
    rw [hrun] at hpost
    exact ⟨t, Quiet.inv hpost, Quiet.strideInv hpost hstride⟩

/-! ### The process that is picked -/

/-- The process `p` has a least stride in the run pool. -/
def PicksMinimum (s : SchedState) (p : ℕ) : Prop :=
  ∀ t, HeapAt s.pool s.runPool t → ∀ q ∈ t.nodes, 0 ≤ ((s.proc q).stride - (s.proc p).stride).toInt

/-- **The stride scheduler picks a minimum** in every run in which each process that joins those that can run, by
`do_fork` or `wakeup_proc`, has a stride that lies in a window of the length `BIG_STRIDE` together with theirs. -/
theorem stride_minimum (h : SchedReach (fun s a => a.Fits s) s) (fuel : ℕ)
    (hput : (putBack fuel).run s = .ok () s₁) (hpick : stridePickNext.run s₁ = .ok (some p) s₂) : PicksMinimum s₁ p := by
  obtain ⟨t, hinv, ⟨f, hf⟩, hord⟩ := h.strideInv
  have hpost := putBack_post fuel hinv
  rw [hput] at hpost
  obtain ⟨t₁, hqueue, hsame, hstrides, -, hputBack, hmem⟩ := hpost
  have hord₁ := hputBack.ordered hmem hf hord
  obtain ⟨s', hrun, -⟩ := stridePickNext_run hqueue
  rw [hpick] at hrun
  have hroot : t₁.root = some p := (Outcome.ok.inj hrun).1.symm
  intro t₂ ht₂ q hq
  obtain rfl : t₂ = t₁ := ht₂.rep.unique hqueue.heap.rep (ht₂.root.symm.trans hqueue.heap.root)
  have hpq := hf.root_le hord₁ (fun x hx => (hmem x).mp hx) hroot hq
  rw [hstrides, hstrides, hf.toInt_sub ((hmem q).mp hq) ((hmem p).mp (mem_of_root hroot))]
  exact sub_nonneg.mpr hpq

/-- Two processes run in turn until the stride of one of them is `2 * BIG_STRIDE`; then a third one is forked, whose
stride is 0. The process 2 is picked, which is not before the process 1. -/
theorem stride_minimum_wraps : ∃ s s₁ s₂, SchedReach (fun _ _ => True) s ∧ (putBack 3).run s = .ok () s₁ ∧
    stridePickNext.run s₁ = .ok (some 2) s₂ ∧ ¬ PicksMinimum s₁ 2 := by
  have h₀ : SchedReach (fun _ _ => True) blankSched := .boot _ _ 0
  have h₁ := h₀.step (.fork (some 1) true) 1 ⟨by decide, List.not_mem_nil⟩ trivial rfl
  have h₂ := h₁.step .schedule 1 trivial trivial rfl
  have h₃ := h₂.step (.fork (some 2) true) 2 ⟨by decide, by decide⟩ trivial rfl
  have h₄ := h₃.step .schedule 2 trivial trivial rfl
  have h₅ := h₄.step .schedule 2 trivial trivial rfl
  have h₆ := h₅.step (.fork (some 3) true) 3 ⟨by decide, by decide⟩ trivial rfl
  refine ⟨_, _, _, h₆, rfl, rfl, fun hmin => ?_⟩
  have hle := hmin (.node (.node (.node .nil 1 .nil) 3 .nil) 2 .nil)
    ⟨⟨rfl, rfl, by rintro x ⟨⟩; rfl, nofun, ⟨rfl, rfl, by rintro x ⟨⟩; rfl, nofun, ⟨rfl, rfl, nofun, nofun, trivial, trivial⟩,
      trivial⟩, trivial⟩, rfl, by decide, by rintro x ⟨⟩; rfl⟩ 1 (by decide)
  exact absurd hle (show ¬ (0 : ℤ) ≤ (0x7FFFFFFF - 0xFFFFFFFE : BitVec 32).toInt by decide)

/-- Two processes take turns. -/
theorem stride_minimum_two : ∃ s s₁ s₂, SchedReach (fun s a => a.Fits s) s ∧ (putBack 2).run s = .ok () s₁ ∧
    stridePickNext.run s₁ = .ok (some 2) s₂ ∧ PicksMinimum s₁ 2 := by
  have h₀ : SchedReach (fun s a => a.Fits s) blankSched := .boot _ _ 0
  have h₁ := h₀.step (.fork (some 1) true) 1 ⟨by decide, List.not_mem_nil⟩
    ⟨0, by decide, fun x hx => absurd hx.1 List.not_mem_nil⟩ rfl
  have h₂ := h₁.step .schedule 1 trivial trivial rfl
  have h₃ := h₂.step (.fork (some 2) true) 2 ⟨by decide, by decide⟩
    ⟨0, by decide, fun x hx => by rw [List.mem_singleton.mp hx.1]; exact le_refl _⟩ rfl
  exact ⟨_, _, _, h₃, rfl, rfl, stride_minimum h₃ 2 rfl rfl⟩

/-! ### Calls of `schedule` in a row -/

/-- Nothing but calls of `schedule` from `s₀` on; `n` counts how often each process has been picked. -/
inductive ShareRun (s₀ : SchedState) : (ℕ → ℕ) → SchedState → Prop
  | start : ShareRun s₀ (fun _ => 0) s₀
  | call {n : ℕ → ℕ} {s s' : SchedState} (h : ShareRun s₀ n s) (fuel : ℕ) (hrun : (schedule fuel).run s = .ok () s') :
      ShareRun s₀ (Function.update n s'.current (n s'.current + 1)) s'

/-- The strides without wrapping around, when all processes started with the stride `σ`. -/
def trueStride (s₀ : SchedState) (σ : ℤ) (n : ℕ → ℕ) (x : ℕ) : ℤ := σ + (n x * s₀.pass x : ℕ)

/-- The invariant of calls of `schedule` in a row. -/
structure ShareInv (s₀ : SchedState) (σ : ℤ) (n : ℕ → ℕ) (s : SchedState) (t : BinTree ℕ) : Prop where
  inv : QueueInv s t
  ordered : StrideOrdered s t
  table : SameTable s₀ s
  spread : Spread s (trueStride s₀ σ n)
  share : ∀ i j, s.Runnable i → s.Runnable j → trueStride s₀ σ n i - trueStride s₀ σ n j ≤ s₀.pass i

section share

variable {s₀ : SchedState} {σ : ℤ} {n : ℕ → ℕ}

theorem SameTable.pass (h : SameTable s₀ s) (p : ℕ) : s.pass p = s₀.pass p := by
  unfold SchedState.pass
  rw [h.priority]

theorem trueStride_update (s₀ : SchedState) (σ : ℤ) (n : ℕ → ℕ) (p : ℕ) :
    trueStride s₀ σ (Function.update n p (n p + 1)) =
      Function.update (trueStride s₀ σ n) p (trueStride s₀ σ n p + s₀.pass p) := by
  funext x
  unfold trueStride
  by_cases hx : x = p
  · rw [hx, Function.update_self, Function.update_self, Nat.succ_mul]
    push_cast
    exact (add_assoc _ _ _).symm
  · rw [Function.update_of_ne hx, Function.update_of_ne hx]

/-- One call. -/
theorem ShareInv.call (h : ShareInv s₀ σ n s t) (hsched : Scheduled s s' t t₁ t') :
    ShareInv s₀ σ (Function.update n s'.current (n s'.current + 1)) s' t' := by
  have hinv := hsched.inv h.inv.table
  have htable := h.table.trans hsched.table
  cases hroot : t₁.root with
  | none =>
    obtain ⟨hf', hord'⟩ := hsched.spread_idle h.spread hroot
    have hnone : ∀ x, ¬ s'.Runnable x := by
      intro x hx
      rw [hsched.table.runnable, ← hsched.mem, root_eq_none.mp hroot] at hx
      exact List.not_mem_nil hx
    exact ⟨hinv, hord', htable, ⟨fun x hx => absurd hx (hnone x), fun a _ ha _ => absurd ha (hnone a)⟩,
      fun i _ hi _ => absurd hi (hnone i)⟩
  | some p =>
    obtain ⟨hmin, hf', hord'⟩ := hsched.spread h.spread h.ordered hroot
    have hcurrent : s'.current = p := by
      rw [hsched.current, hroot]
      rfl
    have hnext : picked s (trueStride s₀ σ n) p = trueStride s₀ σ (Function.update n p (n p + 1)) := by
      rw [trueStride_update, picked, h.table.pass]
    rw [hcurrent]
    refine ⟨hinv, hord', htable, hnext ▸ hf', fun i j hi hj => ?_⟩
    rw [hsched.table.runnable] at hi hj
    have hij := h.share i j hi hj
    have hpi := hmin i hi
    have hpj := hmin j hj
    rw [trueStride_update]
    by_cases hip : i = p <;> by_cases hjp : j = p
    · rw [hip, hjp, sub_self]
      exact Int.natCast_nonneg _
    · -- `i` was picked, and its stride was not greater than that of `j`
      rw [hip, Function.update_self, Function.update_of_ne hjp]
      omega
    · rw [hjp, Function.update_self, Function.update_of_ne hip]
      rw [hjp] at hij
      omega
    · rw [Function.update_of_ne hip, Function.update_of_ne hjp]
      exact hij

/-- **The invariant along the calls.** -/
theorem ShareRun.inv {t₀ : BinTree ℕ} (h₀ : QueueInv s₀ t₀)
    (hequal : ∀ i, s₀.Runnable i → (s₀.proc i).stride = BitVec.ofInt 32 σ) (h : ShareRun s₀ n s) :
    ∃ t, ShareInv s₀ σ n s t := by
  induction h with
  | start =>
    have hzero : ∀ x, trueStride s₀ σ (fun _ => 0) x = σ := fun x => by
      unfold trueStride
      rw [Nat.zero_mul, Int.natCast_zero, add_zero]
    refine ⟨t₀, h₀, Ordered.of_not_lt fun a ha b hb hab => ?_, SameTable.refl s₀, ⟨fun x hx => ?_, fun a b _ _ => ?_⟩,
      fun i j _ _ => ?_⟩
    · rw [before_iff_toInt, hequal a ((h₀.mem a).mp ha).1, hequal b ((h₀.mem b).mp hb).1, BitVec.sub_self] at hab
      exact absurd hab (by decide)
    · rw [hzero]
      exact hequal x hx
    · rw [hzero, hzero, sub_self]
      exact Int.natCast_nonneg _
    · rw [hzero, hzero, sub_self]
      exact Int.natCast_nonneg _
  | call h fuel hrun ih =>
    obtain ⟨t, hinv⟩ := ih
    have hpost := schedule_post fuel hinv.inv
    rw [hrun] at hpost
    obtain ⟨t₁, t', hsched⟩ := hpost
    exact ⟨t', hinv.call hsched⟩

/-- **Proportional share.** All processes that can run have the same stride to begin with; `n` counts how often each of
them is picked by calls of `schedule` in a row. Then what `i` has got, weighted with its pass, is never more than one
pass of `i` ahead of what `j` has got. The calls return. -/
theorem proportional_share {t₀ : BinTree ℕ} (h₀ : QueueInv s₀ t₀)
    (hequal : ∀ i j, s₀.Runnable i → s₀.Runnable j → (s₀.proc i).stride = (s₀.proc j).stride) (h : ShareRun s₀ n s) :
    (∀ i j, s₀.Runnable i → s₀.Runnable j →
      (n i : ℤ) * s₀.pass i - (n j : ℤ) * s₀.pass j ≤ s₀.pass i) ∧
    ∀ fuel, s₀.procList.length ≤ fuel → ∃ s', (schedule fuel).run s = .ok () s' := by
  -- the stride that they have in common
  obtain ⟨σ, hσ⟩ : ∃ σ : ℤ, ∀ i, s₀.Runnable i → (s₀.proc i).stride = BitVec.ofInt 32 σ := by
    by_cases hany : ∃ j, s₀.Runnable j
    · obtain ⟨j, hj⟩ := hany
      exact ⟨(s₀.proc j).stride.toInt, fun i hi => by rw [BitVec.ofInt_toInt, hequal i j hi hj]⟩
    · exact ⟨0, fun i hi => absurd ⟨i, hi⟩ hany⟩
  obtain ⟨t, hinv⟩ := h.inv h₀ hσ
  refine ⟨fun i j hi hj => ?_, fun fuel hfuel => ?_⟩
  · have hshare := hinv.share i j (hinv.table.runnable.mpr hi) (hinv.table.runnable.mpr hj)
    unfold trueStride at hshare
    push_cast at hshare
    rwa [add_sub_add_left_eq_sub] at hshare
  · have hpost := schedule_post fuel hinv.inv
    revert hpost
    cases (schedule fuel).run s with
    | ok u s' => exact fun _ => ⟨s', rfl⟩
    | error e s' => exact fun hE => hE.elim
    | panic e =>
      rintro ⟨-, hP⟩
      rw [hinv.table.procList] at hP
      exact absurd hP (Nat.not_lt.mpr hfuel)

/-- Two processes with the stride 0: after three calls one of them has been picked twice. -/
theorem proportional_share_two : ∃ s₀ s n, ShareRun s₀ n s ∧ n 1 = 2 ∧ n 2 = 1 ∧
    (n 1 : ℤ) * s₀.pass 1 - (n 2 : ℤ) * s₀.pass 2 ≤ s₀.pass 1 := by
  have h₀ : SchedReach (fun _ _ => True) blankSched := .boot _ _ 0
  have h₁ := h₀.step (.fork (some 1) true) 1 ⟨by decide, List.not_mem_nil⟩ trivial rfl
  have h₂ := h₁.step (.fork (some 2) true) 2 ⟨by decide, by decide⟩ trivial rfl
  obtain ⟨t₀, hinv⟩ := h₂.inv
  have hstart : ∀ {s : SchedState}, SchedReach (fun _ _ => True) s → ShareRun s (fun _ => 0) s := fun _ => .start
  have hrun := (((hstart h₂).call 2 rfl).call 2 rfl).call 2 rfl
  refine ⟨_, _, _, hrun, rfl, rfl, (proportional_share hinv ?_ hrun).1 1 2 ⟨by decide, rfl⟩ ⟨by decide, rfl⟩⟩
  rintro i j ⟨hi, -⟩ ⟨hj, -⟩
  rcases List.mem_cons.mp hi with rfl | hi <;> rcases List.mem_cons.mp hj with rfl | hj
  · rfl
  · rw [List.mem_singleton.mp hj]
    rfl
  · rw [List.mem_singleton.mp hi]
    rfl
  · rw [List.mem_singleton.mp hi, List.mem_singleton.mp hj]

end share

end Ucore.Sched
