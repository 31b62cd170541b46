import Ucore.Fs.InodeCounts
import Mathlib.Algebra.Group.Pi.Lemmas
import Mathlib.Algebra.Group.Prod
import Mathlib.Tactic.Abel

/-!
# The account of an open

What the functions behind `vfs_open` add to the counts of the inodes (`OpenState.counts`), function by function, with the
rules of `Ucore.Lib.Balance`. There are no conditions on the state: a function that meets a count it does not expect stops
at an assertion.

* `inodeRefDec_adds`: a release takes away one reference, also when the inode is reclaimed on the way.
* `vfsLookup_adds`: a lookup leaves one reference to the node it returns, or none.
* `vfsOpenFound_adds`: all exits of `vfs_open` behind the lookup are balanced.
* `vfsOpen_adds`: so is the whole of `vfs_open` without `O_CREAT | O_EXCL`.
-/

namespace Ucore.Fs.Counted

open Ucore.Lib

/-- One reference to a node. -/
def ref (node : VNode) : VNode → BitVec 32 × BitVec 32 := Pi.single node (1, 0)

/-- One opening of a node. -/
def opening (node : VNode) : VNode → BitVec 32 × BitVec 32 := Pi.single node (0, 1)

section primitives

variable {s : OpenState} {node : VNode} {i i' : MemInode} {α : Type} {δ : α → VNode → BitVec 32 × BitVec 32}
  {r : VNode → BitVec 32 × BitVec 32}

@[simp] theorem OpenState.inode_setInode_same (s : OpenState) (node : VNode) (i : Option MemInode) :
    (s.setInode node i).inode node = i := Function.update_self _ _ _

theorem OpenState.inode_setInode_ne (s : OpenState) {node n : VNode} (h : n ≠ node) (i : Option MemInode) :
    (s.setInode node i).inode n = s.inode n := Function.update_of_ne h _ _

theorem OpenState.counts_of_some (h : s.inode node = some i) : s.counts node = (i.refCount, i.openCount) := by
  rw [OpenState.counts, h]

/-- An inode in memory is changed. -/
theorem OpenState.counts_setInode (h : s.inode node = some i) {d : BitVec 32 × BitVec 32}
    (hd : (i'.refCount, i'.openCount) = (i.refCount, i.openCount) + d) :
    (s.setInode node (some i')).counts = s.counts + Pi.single node d := by
  funext n
  rw [Pi.add_apply]
  by_cases heq : n = node
  · subst heq
    rw [Pi.single_eq_same, OpenState.counts_of_some h, ← hd]
    exact OpenState.counts_of_some (s.inode_setInode_same _ _)
  · rw [Pi.single_eq_of_ne heq, add_zero, OpenState.counts, s.inode_setInode_ne heq, OpenState.counts]

theorem useInode_run (h : s.inode node = some i) : (useInode node).run s = .ok i s := by
  simp only [useInode, Prog.run_bind, Prog.run_get, Outcome.andThen_ok, h, Prog.run_pure]

theorem useInode_none (h : s.inode node = none) : (useInode node).run s = .panic .dangling := by
  simp only [useInode, Prog.run_bind, Prog.run_get, Outcome.andThen_ok, h, Prog.run_stop]

/-- What follows the use of an inode may use that it is in memory. -/
theorem useInode_bind {k : MemInode → OpenProg α}
    (hk : ∀ i, s.inode node = some i → ((k i).run s).Post (fun a s' => s'.counts = s.counts + δ a)
      (fun _ s' => s'.counts = s.counts + r) fun _ => True) :
    ((useInode node >>= k).run s).Post (fun a s' => s'.counts = s.counts + δ a)
      (fun _ s' => s'.counts = s.counts + r) fun _ => True := by
  cases h : s.inode node with
  | none =>
    rw [Prog.bind_of_panic (useInode_none h)]
    trivial
  | some i =>
    rw [Prog.bind_of_ok (useInode_run h)]
    exact hk i h

theorem useInode_adds : Adds OpenState.counts (fun _ => 0) r (useInode node) := by
  intro s
  cases h : s.inode node with
  | none =>
    rw [useInode_none h]
    trivial
  | some i =>
    rw [useInode_run h]
    exact (add_zero _).symm

theorem kmalloc_adds : Adds OpenState.counts (fun _ => 0) 0 kmalloc := by
  refine .get_bind fun s => ?_
  split
  · exact .pure rfl
  · refine .bind_zero (.modify fun _ => (add_zero _).symm) fun _ => .ite (fun _ => ?_) fun _ => ?_
    · exact .pure rfl
    · exact .throw rfl

theorem onKernel_adds {m : KernelProg α} : Adds OpenState.counts (fun _ => 0) 0 (onKernel m) := .zoom fun _ _ => rfl

theorem onFile_adds {f : ℕ → SfsProg α} : Adds OpenState.counts (fun _ => 0) 0 (onFile node f) := by
  cases node with
  | sfs ino => exact onKernel_adds
  | device name => exact .throw rfl

theorem inodeCheck_adds : Adds OpenState.counts (fun _ => 0) r (inodeCheck node) := by
  exact .bind_zero useInode_adds fun i => .assert_bind fun _ => .assert _ _

theorem vopOp_adds {op : Vop} {f : InodeOps → OpenProg α} (hf : ∀ ops, Adds OpenState.counts δ r (f ops)) :
    Adds OpenState.counts δ r (vopOp op node f) :=
  .bind_zero useInode_adds fun i => .assert_bind fun _ => .bind_zero inodeCheck_adds fun _ => hf i.ops

theorem inodeRefInc_run (h : s.inode node = some i) : (inodeRefInc node).run s =
    .ok (i.refCount + 1) (s.setInode node (some { i with refCount := i.refCount + 1 })) := by
  rw [inodeRefInc, Prog.bind_of_ok (useInode_run h)]
  rfl

theorem inodeRefInc_adds : Adds OpenState.counts (fun _ => ref node) r (inodeRefInc node) := by
  intro s
  refine useInode_bind fun i h => ?_
  exact OpenState.counts_setInode h (by simp)

theorem inodeOpenInc_adds : Adds OpenState.counts (fun _ => opening node) r (inodeOpenInc node) := by
  intro s
  refine useInode_bind fun i h => ?_
  exact OpenState.counts_setInode h (by simp)

theorem inodeKill_adds : Adds OpenState.counts (fun _ => 0) r (inodeKill node) := by
  intro s
  refine useInode_bind fun i h => .assert_bind fun href => .assert_bind fun hopen => ?_
  show (s.setInode node none).counts = s.counts + 0
  rw [add_zero]
  funext n
  by_cases heq : n = node
  · subst heq
    rw [OpenState.counts_of_some h, href, hopen, OpenState.counts, OpenState.inode_setInode_same]
    rfl
  · rw [OpenState.counts, s.inode_setInode_ne heq, OpenState.counts]

end primitives

/-! ### Releases -/

section release

variable {env : KernelEnv} {node : VNode} {r : VNode → BitVec 32 × BitVec 32}

theorem vopFsync_adds : Adds OpenState.counts (fun _ => 0) 0 (vopFsync env node) :=
  vopOp_adds fun _ => onFile_adds

theorem vopTruncate_adds (len : ℤ) : Adds OpenState.counts (fun _ => 0) 0 (vopTruncate node len) :=
  vopOp_adds fun _ => onFile_adds

theorem vopClose_adds : Adds OpenState.counts (fun _ => 0) 0 (vopClose env node) := by
  refine vopOp_adds fun ops => .ite (fun _ => ?_) fun _ => ?_
  · exact .pure rfl
  · exact vopFsync_adds

theorem sfsReclaim_adds (ino : ℕ) : Adds OpenState.counts (fun _ => 0) 0 (sfsReclaim env ino) := by
  have hskip : Adds OpenState.counts (fun _ => 0) 0 (pure () : OpenProg Unit) := .pure rfl
  intro s
  refine useInode_bind fun i h => .assert_bind fun _ => Adds.post_modify_bind (OpenState.counts_setInode h (add_zero _).symm) ?_
  rw [Pi.single_zero]
  simp only [sub_zero]
  refine .ite (fun _ => .throw rfl) fun _ => ?_
  refine .bind_zero (.ite (fun _ => vopTruncate_adds 0) fun _ => hskip) fun _ => .get_bind fun s => ?_
  refine .bind_zero (.ite (fun _ => vopFsync_adds) fun _ => hskip) fun _ => ?_
  exact .bind_zero onKernel_adds fun _ => .bind_zero onKernel_adds fun _ => inodeKill_adds

theorem vopReclaim_adds : Adds OpenState.counts (fun _ => 0) 0 (vopReclaim env node) := by
  refine vopOp_adds fun ops => ?_
  cases node with
  | sfs ino => exact sfsReclaim_adds ino
  | device name => exact .throw rfl

/-- The call at a count of 0, whose end is passed over. -/
theorem callAtZero_adds {m : OpenProg Unit} (hm : Adds OpenState.counts (fun _ => 0) 0 m) (c : Prop) [Decidable c] :
    Adds OpenState.counts (fun _ => 0) r (if c then (Prog.attempt m >>= fun _ => pure ()) else pure ()) :=
  .ite (fun _ => .bind_zero (.attempt_zero hm) fun _ => .pure rfl) fun _ => .pure rfl

/-- **A release** takes one reference away, whatever `vop_reclaim` does. -/
theorem inodeRefDec_adds : Adds OpenState.counts (fun _ => -ref node) r (inodeRefDec env node) := by
  intro s
  refine useInode_bind fun i h => .assert_bind fun _ => ?_
  refine Adds.post_modify_bind (OpenState.counts_setInode (d := -(1, 0)) h (by simp [sub_eq_add_neg])) ?_
  rw [ref, Pi.single_neg, sub_self]
  exact (callAtZero_adds vopReclaim_adds _).congr (fun _ => rfl) rfl

theorem inodeOpenDec_adds : Adds OpenState.counts (fun _ => -opening node) r (inodeOpenDec env node) := by
  intro s
  refine useInode_bind fun i h => .assert_bind fun _ => ?_
  refine Adds.post_modify_bind (OpenState.counts_setInode (d := -(0, 1)) h (by simp [sub_eq_add_neg])) ?_
  rw [opening, Pi.single_neg, sub_self]
  exact (callAtZero_adds vopClose_adds _).congr (fun _ => rfl) rfl

end release

/-! ### Lookups -/

section lookup

variable {env : KernelEnv}

theorem inodeRefInc_returns (node : VNode) :
    Adds OpenState.counts ref 0 (inodeRefInc node >>= fun _ => pure node) :=
  inodeRefInc_adds.bind fun _ => .pure (sub_self _)

/-- A new inode has one reference. -/
theorem sfsCreateInode_post {s : OpenState} {ino : ℕ} (h : s.counts (.sfs ino) = 0) (type : SfsType) :
    ((sfsCreateInode type ino).run s).Post (fun _ s' => s'.counts = s.counts + ref (.sfs ino))
      (fun _ s' => s'.counts = s.counts) fun _ => True := by
  refine kmalloc_adds.post_bind_zero (fun _ _ h₁ => h₁) fun _ s₁ h₁ => ?_
  refine onKernel_adds.post_bind_zero (fun _ _ h₂ => h₂.trans h₁) fun _ s₂ h₂ => ?_
  have h₀ : s₂.counts = s.counts := h₂.trans h₁
  show (s₂.setInode (.sfs ino) _).counts = s.counts + ref (.sfs ino)
  rw [← h₀] at h ⊢
  funext n
  rw [ref, Pi.add_apply]
  by_cases heq : n = .sfs ino
  · rw [heq, h, Pi.single_eq_same, zero_add]
    exact OpenState.counts_of_some (s₂.inode_setInode_same _ _)
  · rw [Pi.single_eq_of_ne heq, add_zero, OpenState.counts, s₂.inode_setInode_ne heq, OpenState.counts]

theorem sfsLoadInode_adds (ino : ℕ) : Adds OpenState.counts ref 0 (sfsLoadInode ino) := by
  intro s
  rw [sfsLoadInode, Prog.bind_of_ok (Prog.run_get s)]
  cases h : s.inode (.sfs ino) with
  | some i =>
    have hadd : (i.refCount + 1, i.openCount) = (i.refCount, i.openCount) + (1, 0) := by simp
    have hset : (s.setInode (.sfs ino) (some { i with refCount := i.refCount + 1 })).counts = s.counts + ref (.sfs ino) :=
      OpenState.counts_setInode h hadd
    dsimp only
    rw [Prog.bind_of_ok (inodeRefInc_run h)]
    by_cases hone : i.refCount + 1 = 1
    · -- the inode had no references: its reclaim count is raised, too
      rw [if_pos hone]
      refine Eq.trans (OpenState.counts_setInode (d := 0) (s.inode_setInode_same _ _) (add_zero _).symm) ?_
      rw [Pi.single_zero, add_zero]
      exact hset
    · rw [if_neg hone]
      exact hset
  | none =>
    dsimp only
    have hzero : s.counts (.sfs ino) = 0 := by rw [OpenState.counts, h]
    refine kmalloc_adds.post_bind_zero (fun _ _ h₁ => h₁.trans (add_zero _).symm) fun _ s₁ h₁ => ?_
    refine onKernel_adds.post_bind_zero (fun _ _ h₂ => (h₂.trans h₁).trans (add_zero _).symm) fun type s₂ h₂ => ?_
    have h₀ : s₂.counts = s.counts := h₂.trans h₁
    rw [← h₀] at hzero ⊢
    refine ((sfsCreateInode_post hzero type).mono (fun _ _ h₃ => h₃) ?_ fun _ hP => hP).bind fun _ s₃ h₃ => h₃
    exact fun _ _ h₃ => h₃.trans (add_zero _).symm

theorem sfsGetRoot_adds {r : VNode → BitVec 32 × BitVec 32} : Adds OpenState.counts ref r sfsGetRoot := by
  refine (sfsLoadInode_adds 1).attempt.bind fun x => ?_
  cases x with
  | ok node => exact .pure (sub_self _)
  | error e => exact .stop _

theorem vfsGetCurdir_adds : Adds OpenState.counts ref 0 (vfsGetCurdir env) := by
  rw [vfsGetCurdir]
  split
  · exact inodeRefInc_returns _
  · exact .throw rfl

theorem vfsGetBootfs_adds : Adds OpenState.counts ref 0 (vfsGetBootfs env) := by
  rw [vfsGetBootfs]
  split
  · exact inodeRefInc_returns _
  · exact .throw rfl

theorem vfsGetRoot_adds (devname : CString) : Adds OpenState.counts ref 0 (vfsGetRoot devname) := by
  rw [vfsGetRoot]
  split
  · exact .throw rfl
  · exact .ite (fun _ => sfsGetRoot_adds) fun _ => .ite (fun _ => .throw rfl) fun _ => inodeRefInc_returns _

theorem startNode_adds (start : PathStart) : Adds OpenState.counts ref 0 (startNode env start) := by
  cases start with
  | curdir => exact vfsGetCurdir_adds
  | bootfs => exact vfsGetBootfs_adds
  | curfs =>
    -- the reference to the current directory is given back
    refine vfsGetCurdir_adds.bind fun node => sfsGetRoot_adds.bind fun root => inodeRefDec_adds.bind fun _ => .pure ?_
    abel
  | device name => exact vfsGetRoot_adds name

theorem getDevice_adds (path : CString) :
    Adds OpenState.counts (fun start => ref start.1) 0 (getDevice env path) :=
  (startNode_adds _).bind fun _ => .pure (sub_self _)

theorem sfsLookupOnce_adds (d : ℕ) (name : CString) : Adds OpenState.counts ref 0 (sfsLookupOnce d name) :=
  .assert_bind fun _ => .bind_zero kmalloc_adds fun _ => .bind_zero onKernel_adds fun found =>
    sfsLoadInode_adds found.2

theorem sfsLookup_adds (d : ℕ) (path : CString) : Adds OpenState.counts ref 0 (sfsLookup env d path) := by
  refine .assert_bind fun _ => inodeRefInc_adds.bind fun _ => .get_bind fun s => .ite (fun _ => ?_) fun _ => ?_
  · refine inodeRefDec_adds.bind fun _ => .throw ?_
    abel
  · exact ((sfsLookupOnce_adds d path).attempt_release fun _ => inodeRefDec_adds).congr (fun _ => rfl) rfl

theorem vopLookup_adds (node : VNode) (path : CString) : Adds OpenState.counts ref 0 (vopLookup env node path) := by
  refine vopOp_adds fun ops => ?_
  cases node with
  | sfs d => exact sfsLookup_adds d path
  | device name => exact .ite (fun _ => .throw rfl) fun _ => inodeRefInc_returns _

/-- **A lookup** returns a node with one reference to it, and has given all others back; a lookup that fails has given
back all. -/
theorem vfsLookup_adds (path : CString) : Adds OpenState.counts ref 0 (vfsLookup env path) := by
  refine (getDevice_adds path).bind fun start => .ite (fun _ => ?_) fun _ => .pure (sub_self _)
  exact ((vopLookup_adds start.1 start.2).attempt_release fun _ => inodeRefDec_adds).congr (fun _ => rfl) rfl

end lookup

/-! ### Opening -/

section opening

variable {env : KernelEnv}

/-- No table has `vop_create`. -/
theorem vopCreate_adds {α : Type} {δ : α → VNode → BitVec 32 × BitVec 32} {r : VNode → BitVec 32 × BitVec 32}
    (node : VNode) (f : InodeOps → OpenProg α) : Adds OpenState.counts δ r (vopOp .vopCreate node f) := by
  refine .bind_zero useInode_adds fun i => .assert_bind fun hhas => ?_
  cases hops : i.ops <;> rw [hops] at hhas <;> cases hhas

theorem vopOpen_adds (node : VNode) (flags : BitVec 32) :
    Adds OpenState.counts (fun _ => 0) 0 (vopOpen node flags) := by
  refine vopOp_adds fun ops => ?_
  cases ops with
  | dirops =>
    refine .ite (fun _ => .throw rfl) fun _ => .ite (fun _ => .throw rfl) fun _ => .pure rfl
  | fileops => exact .pure rfl
  | devops =>
    refine .ite (fun _ => .throw rfl) fun _ => ?_
    cases node with
    | sfs ino => exact .pure rfl
    | device name => exact onKernel_adds

/-- **The node that has been found** is opened, or the reference to it is given back. -/
theorem vfsOpenFound_adds (node : VNode) (flags : BitVec 32) :
    Adds OpenState.counts (fun n => ref n + opening n - ref node) (-ref node) (vfsOpenFound env node flags) := by
  refine .bind_zero (.attempt_zero (vopOpen_adds node flags)) fun x => ?_
  cases x with
  | error e => exact inodeRefDec_adds.bind fun _ => .throw (sub_self _)
  | ok _ =>
    refine inodeOpenInc_adds.bind fun _ => .ite (fun _ => ?_) fun _ => .pure (by abel)
    refine .bind_zero (.attempt_zero (vopTruncate_adds 0)) fun y => ?_
    cases y with
    | ok _ => exact .pure (by abel)
    | error e =>
      refine inodeOpenDec_adds.bind fun _ => inodeRefDec_adds.bind fun _ => .throw ?_
      abel

/-- A path that has not been found is an error, or `vop_create` is called. -/
theorem vfsOpenNode_error_adds (path : CString) (flags : BitVec 32) (e : FsError) :
    Adds OpenState.counts ref 0 (vfsOpenNode env path flags (.error e)) := by
  refine .ite (fun _ => ?_) fun _ => .throw rfl
  exact (getDevice_adds _).bind fun _ => vopCreate_adds _ _

/-- Without `O_CREAT | O_EXCL` the reference of the lookup goes to the node that is opened. -/
theorem vfsOpenNode_adds (path : CString) {flags : BitVec 32}
    (hflags : ¬ (flags &&& oExcl ≠ 0 ∧ flags &&& oCreat ≠ 0)) (x : Except FsError VNode) :
    Adds OpenState.counts (fun n => ref n - onExcept ref 0 x) (0 - onExcept ref 0 x) (vfsOpenNode env path flags x) := by
  cases x with
  | error e =>
    rw [onExcept_error]
    exact (vfsOpenNode_error_adds path flags e).congr (fun _ => sub_zero _) (sub_zero _)
  | ok node =>
    rw [vfsOpenNode, if_neg hflags]
    exact .pure (sub_self _)

/-- **Without `O_CREAT | O_EXCL`** a call that succeeds takes a reference and opens, and one that fails takes nothing. -/
theorem vfsOpen_adds (path : CString) {flags : BitVec 32} (hflags : ¬ (flags &&& oExcl ≠ 0 ∧ flags &&& oCreat ≠ 0)) :
    Adds OpenState.counts (fun node => ref node + opening node) 0 (vfsOpen env path flags) := by
  rw [vfsOpen]
  split
  · exact .throw rfl
  refine .ite (fun _ => .throw rfl) fun _ => (vfsLookup_adds path).attempt.bind fun x => ?_
  refine (vfsOpenNode_adds path hflags x).bind fun node => (vfsOpenFound_adds node flags).congr (fun n => ?_) ?_
  · abel
  · abel

end opening

end Ucore.Fs.Counted
