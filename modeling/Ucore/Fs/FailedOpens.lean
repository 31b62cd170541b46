import Ucore.Fs.LookupFinds

/-!
# What a failed open leaves behind

`vfs_open` returns `-E_EXISTS` for `O_CREAT | O_EXCL` and a path that exists, without giving back the reference that
`vfs_lookup` has taken. Its other error exits are balanced.

* `OpenState.Leaks` is that case, in terms of the state before the call.
* `vfsOpen_error`: a call that fails leaves the counts of all inodes as they were, or leaks one reference.
* `fileOpen_post`: `file_open` frees its item of the table in any case.
* `failed_open_changes_nothing_iff` puts both together, and adds runs of failing calls.
* `failed_opens_reach_max`: with calls that leak the references of an inode reach `MAX_INODE_COUNT`, and the next call
  through its table stops the machine.
-/

namespace Ucore.Fs.Counted

open Ucore.Lib Relation

/-- The flags that `vfs_open` looks up a path for. -/
def Accepted (flags : BitVec 32) : Prop :=
  ∃ mode, accmode flags = some mode ∧ ¬ (flags &&& oTrunc ≠ 0 ∧ mode.2 = false)

/-- An open with `O_CREAT | O_EXCL` of a path that exists. -/
def OpenState.Leaks (s : OpenState) (env : KernelEnv) (path : CString) (flags : BitVec 32) : Prop :=
  Accepted flags ∧ (flags &&& oExcl ≠ 0 ∧ flags &&& oCreat ≠ 0) ∧ ∃ node, s.Finds env path node

section vfs

variable {s s' : OpenState} {env : KernelEnv} {path : CString} {flags : BitVec 32}

theorem ref_ne_zero (node : VNode) : ref node ≠ 0 := by
  intro h
  have hone : (1 : BitVec 32) = 0 := by
    have hnode := congrFun h node
    rw [ref, Pi.single_eq_same] at hnode
    exact congrArg Prod.fst hnode
  exact absurd hone (by decide)

/-- **`O_CREAT | O_EXCL`**: a path that exists is found, and the reference of the lookup stays; any other call gives back
what it has taken. -/
theorem vfsOpen_excl_post (h : s.Ready env) (hflags : flags &&& oExcl ≠ 0 ∧ flags &&& oCreat ≠ 0) (path : CString) :
    ((vfsOpen env path flags).run s).Post (fun _ _ => True)
      (fun _ s' => Accepted flags ∧ (∃ node, s.Finds env path node ∧ s'.counts = s.counts + ref node) ∨
        ¬ (Accepted flags ∧ ∃ node, s.Finds env path node) ∧ s'.counts = s.counts) fun _ => True := by
  rw [vfsOpen]
  cases hmode : accmode flags with
  | none =>
    refine Or.inr ⟨?_, rfl⟩
    rintro ⟨⟨mode, hacc, -⟩, -⟩
    rw [hmode] at hacc
    cases hacc
  | some mode =>
    dsimp only
    by_cases htrunc : flags &&& oTrunc ≠ 0 ∧ mode.2 = false
    · rw [if_pos htrunc]
      refine Or.inr ⟨?_, rfl⟩
      rintro ⟨⟨mode', hacc, hnot⟩, -⟩
      rw [hmode] at hacc
      cases hacc
      exact hnot htrunc
    have haccepted : Accepted flags := ⟨mode, hmode, htrunc⟩
    rw [if_neg htrunc, Outcome.post_bind, Outcome.post_attempt]
    refine ((vfsLookup_post h path).and (vfsLookup_adds path s)).mono ?_ ?_ fun _ _ => trivial
    · -- `return -E_EXISTS`
      rintro node s₁ ⟨hfinds, hcounts⟩
      rw [vfsOpenNode, if_pos hflags]
      exact Or.inl ⟨haccepted, node, hfinds, hcounts⟩
    · rintro e s₁ ⟨hnot, hcounts⟩
      rw [add_zero] at hcounts
      have hrest : Adds OpenState.counts (fun node => ref node + opening node) 0
          (vfsOpenNode env path flags (.error e) >>= fun node => vfsOpenFound env node flags) :=
        (vfsOpenNode_error_adds path flags e).bind fun node =>
          (vfsOpenFound_adds node flags).congr (fun _ => rfl) (zero_sub _)
      refine (hrest s₁).mono (fun _ _ _ => trivial) ?_ fun _ hP => hP
      intro e' s₂ hcounts₂
      rw [add_zero, hcounts] at hcounts₂
      exact Or.inr ⟨fun hleaks => hnot _ hleaks.2.choose_spec, hcounts₂⟩

/-- **How `vfs_open` fails**: with the counts as they were, or with a reference that nobody has. -/
theorem vfsOpen_error (h : s.Ready env) {e : FsError} (hrun : (vfsOpen env path flags).run s = .error e s') :
    s.Leaks env path flags ∧ (∃ node, s.Finds env path node ∧ s'.counts = s.counts + ref node) ∨
      ¬ s.Leaks env path flags ∧ s'.counts = s.counts := by
  by_cases hflags : flags &&& oExcl ≠ 0 ∧ flags &&& oCreat ≠ 0
  · have hpost := vfsOpen_excl_post h hflags path
    rw [hrun, Outcome.post_error] at hpost
    rcases hpost with ⟨haccepted, node, hfinds, hcounts⟩ | ⟨hnot, hcounts⟩
    · exact Or.inl ⟨⟨haccepted, hflags, node, hfinds⟩, node, hfinds, hcounts⟩
    · exact Or.inr ⟨fun hleaks => hnot ⟨hleaks.1, hleaks.2.2⟩, hcounts⟩
  · have hcounts := (vfsOpen_adds path hflags).of_error hrun
    rw [add_zero] at hcounts
    exact Or.inr ⟨fun hleaks => hflags hleaks.2.1, hcounts⟩

/-- The counts after a failed call are those before, unless the call is one that leaks. -/
theorem vfsOpen_post (h : s.Ready env) : ((vfsOpen env path flags).run s).Post (fun _ _ => True)
    (fun _ s' => s'.counts = s.counts ↔ ¬ s.Leaks env path flags) fun _ => True := by
  cases hrun : (vfsOpen env path flags).run s with
  | ok node s' => trivial
  | panic p => trivial
  | error e s' =>
    rcases vfsOpen_error h hrun with ⟨hleaks, node, -, hcounts⟩ | ⟨hnot, hcounts⟩
    · refine iff_of_false (fun hsame => ?_) (not_not_intro hleaks)
      rw [hcounts] at hsame
      exact ref_ne_zero node (add_eq_left.mp hsame)
    · exact iff_of_true hcounts hnot

end vfs

/-! ### Descriptors -/

section files

variable {w w' : FdState} {env : KernelEnv} {path : CString} {flags : BitVec 32}

/-- Every item of the table has the status that it had. -/
def SameStatus (w w' : FdState) : Prop := ∀ fd, (w'.fdArray fd).status = (w.fdArray fd).status

@[simp] theorem FdState.setFd_same (w : FdState) (fd : ℕ) (f : FdItem) : (w.setFd fd f).fdArray fd = f :=
  Function.update_self _ _ _

theorem FdState.setFd_ne (w : FdState) {fd k : ℕ} (h : k ≠ fd) (f : FdItem) :
    (w.setFd fd f).fdArray k = w.fdArray k := Function.update_of_ne h _ _

theorem FdState.status_of_freeFd {fd : ℕ} (h : w.freeFd = some fd) : (w.fdArray fd).status = .none := by
  rw [FdState.freeFd] at h
  simpa using List.find?_some h

theorem fdArrayAlloc_post (w : FdState) : ((fdArrayAlloc).run w).Post
    (fun fd w' => w.freeFd = some fd ∧ w' = w.setFd fd { w.fdArray fd with status := .init, node := none })
    (fun _ w' => w.freeFd = none ∧ w' = w) fun _ => True := by
  rw [fdArrayAlloc, Prog.bind_of_ok (Prog.run_get w)]
  cases hfree : w.freeFd with
  | none => exact ⟨rfl, rfl⟩
  | some fd => exact .assert_bind fun _ => ⟨rfl, rfl⟩

/-- An item that has just been allocated becomes free again. -/
theorem fdArrayFree_post {fd : ℕ} (h : (w.fdArray fd).status = .init) : ((fdArrayFree env fd).run w).Post
    (fun _ w' => w' = w.setFd fd { w.fdArray fd with status := .none }) (fun _ _ => False) fun _ => True := by
  rw [fdArrayFree, Prog.bind_of_ok (Prog.run_get w)]
  refine .assert_bind fun _ => .assert_bind fun _ => ?_
  rw [if_neg (fun hclosed => FdStatus.noConfusion (h.symm.trans hclosed)), Prog.pure_bind, Prog.run_modify]
  exact rfl

/-- `sfs_fstat` and `dev_fstat` return 0. -/
theorem openPos_noError (s : OpenState) (node : VNode) : ((openPos env node flags).run s).Post (fun _ _ => True)
    (fun _ _ => False) fun _ => True := by
  have hstat : ((vopFstat env node).run s).Post (fun _ _ => True) (fun _ _ => False) fun _ => True := by
    refine vopOp_post fun ops => ?_
    refine (Outcome.Post.bind (vopOp_post (Q := fun _ _ => True) fun _ => trivial) fun _ s₁ _ => ?_)
    cases node <;> trivial
  rw [openPos, Prog.run_ite]
  split_ifs
  · exact hstat.bind fun _ _ _ => trivial
  · trivial

theorem onVfs_post {α : Type} {m : OpenProg α} {Q : α → OpenState → Prop} {E : FsError → OpenState → Prop}
    (hm : (m.run w.vfs).Post Q E fun _ => True) : ((onVfs m).run w).Post (fun a w' => Q a w'.vfs ∧ w'.fdArray = w.fdArray)
      (fun e w' => E e w'.vfs ∧ w'.fdArray = w.fdArray) fun _ => True := by
  rw [onVfs, Prog.zoom]
  dsimp only
  cases hrun : m.run w.vfs with
  | ok a s =>
    rw [hrun] at hm
    exact ⟨hm, rfl⟩
  | error e s =>
    rw [hrun] at hm
    exact ⟨hm, rfl⟩
  | panic p => trivial

/-- **How `file_open` fails**: the item of the table is free again, and the counts are those that `vfs_open` leaves. -/
theorem fileOpen_post (h : w.vfs.Ready env) : ((fileOpen env path flags).run w).Post (fun _ _ => True)
    (fun _ w' => SameStatus w w' ∧
      (w'.vfs.counts = w.vfs.counts ↔ ¬ (w.freeFd ≠ none ∧ w.vfs.Leaks env path flags))) fun _ => True := by
  rw [fileOpen]
  cases hmode : accmode flags with
  | none =>
    refine ⟨fun _ => rfl, iff_of_true rfl ?_⟩
    rintro ⟨-, ⟨mode, hacc, -⟩, -⟩
    rw [hmode] at hacc
    cases hacc
  | some mode =>
    refine ((fdArrayAlloc_post w).mono (fun _ _ hQ => hQ) ?_ fun _ hP => hP).bind ?_
    · rintro e w₁ ⟨hfull, rfl⟩
      exact ⟨fun _ => rfl, iff_of_true rfl fun hleaks => hleaks.1 hfull⟩
    rintro fd w₁ ⟨hfree, rfl⟩
    set w₁ := w.setFd fd { w.fdArray fd with status := .init, node := none } with hw₁
    rw [Outcome.post_bind, Outcome.post_attempt]
    have hopen : ((vfsOpen env path flags).run w₁.vfs).Post (fun _ _ => True)
        (fun _ s' => s'.counts = w.vfs.counts ↔ ¬ w.vfs.Leaks env path flags) fun _ => True := vfsOpen_post h
    refine (onVfs_post hopen).mono ?_ ?_ fun _ hP => hP
    · rintro node w₂ -
      rw [Outcome.post_bind, Outcome.post_attempt]
      refine (onVfs_post (openPos_noError w₂.vfs node)).mono ?_ (fun _ _ hE => hE.1.elim) fun _ hP => hP
      rintro pos w₃ -
      rw [Prog.bind_of_ok (Prog.run_modify _ _), Outcome.post_bind, fdArrayOpen, Prog.bind_of_ok (Prog.run_get _)]
      exact .assert_bind fun _ => trivial
    · rintro e w₂ ⟨hcounts, hfds⟩
      -- the item is `FD_INIT` still: `vfs_open` has not seen the table
      have hinit : (w₂.fdArray fd).status = .init := by
        rw [hfds, hw₁, FdState.setFd_same]
      refine ((fdArrayFree_post hinit).mono (fun _ _ hQ => hQ) (fun _ _ hE => hE.elim) fun _ hP => hP).bind ?_
      rintro _ w₃ rfl
      refine ⟨fun k => ?_, ?_⟩
      · by_cases hk : k = fd
        · rw [hk, FdState.setFd_same, FdState.status_of_freeFd hfree]
        · rw [FdState.setFd_ne _ hk, hfds, hw₁, FdState.setFd_ne _ hk]
      · rw [hfree]
        exact hcounts.trans (not_congr (and_iff_right (Option.some_ne_none fd)).symm)

/-- A call of `file_open` that fails, in a state of a process and with arguments that satisfy `C`. -/
def FailedStep (env : KernelEnv) (C : FdState → CString → BitVec 32 → Prop) (w w' : FdState) : Prop :=
  ∃ path flags e, w.vfs.Ready env ∧ C w path flags ∧ (fileOpen env path flags).run w = .error e w'

/-- **Any number of failing opens** that do not leak changes no count. -/
theorem failedSteps_counts
    (h : ReflTransGen (FailedStep env fun w path flags => ¬ (w.freeFd ≠ none ∧ w.vfs.Leaks env path flags)) w w') :
    w'.vfs.counts = w.vfs.counts ∧ SameStatus w w' := by
  refine invariant_of_step (fun u : FdState => u.vfs.counts = w.vfs.counts ∧ SameStatus w u) h ⟨rfl, fun _ => rfl⟩ ?_
  rintro a b ⟨hcounts, hstatus⟩ ⟨path, flags, e, hready, hnot, hrun⟩
  have hpost : ((fileOpen env path flags).run a).Post _ _ _ := fileOpen_post hready
  rw [hrun, Outcome.post_error] at hpost
  exact ⟨(hpost.2.mpr hnot).trans hcounts, fun fd => (hpost.1 fd).trans (hstatus fd)⟩

/-- **A failed open changes nothing** exactly when it is not an open with `O_CREAT | O_EXCL` of a path that exists: no
count of an inode, for `vfs_open` and for `file_open`, which frees its item of the table in any case. Any number of
failing opens that are not of this kind leaves all counts as they are. -/
theorem failed_open_changes_nothing_iff (h : w.vfs.Ready env) :
    (∀ path flags e s', (vfsOpen env path flags).run w.vfs = .error e s' →
      (s'.counts = w.vfs.counts ↔ ¬ w.vfs.Leaks env path flags)) ∧
    (∀ path flags e w', (fileOpen env path flags).run w = .error e w' → SameStatus w w' ∧
      (w'.vfs.counts = w.vfs.counts ↔ ¬ (w.freeFd ≠ none ∧ w.vfs.Leaks env path flags))) ∧
    ∀ w', ReflTransGen (FailedStep env fun w path flags => ¬ (w.freeFd ≠ none ∧ w.vfs.Leaks env path flags)) w w' →
      w'.vfs.counts = w.vfs.counts ∧ SameStatus w w' := by
  refine ⟨fun path flags e s' hrun => ?_, fun path flags e w' hrun => ?_, fun w' hsteps => failedSteps_counts hsteps⟩
  · have hpost : ((vfsOpen env path flags).run w.vfs).Post _ _ _ := vfsOpen_post h
    rw [hrun, Outcome.post_error] at hpost
    exact hpost
  · have hpost : ((fileOpen env path flags).run w).Post _ _ _ := fileOpen_post h
    rw [hrun, Outcome.post_error] at hpost
    exact hpost

end files

/-! ### A root directory that is opened again and again -/

/-- An image whose root directory is empty. -/
def rootImage : Sfs :=
  { emptyFile [] with
    inos := [1]
    inode := fun _ => ⟨0, .dir, 0, fun _ => 0, 0, false⟩ }

/-- A process in the root directory. -/
def rootOpenEnv : KernelEnv := ⟨⟨some 1, some 1, []⟩, oneLink, 64⟩

/-- The root directory has the references of the process and of the boot file system. -/
def rootOpenState (refs : BitVec 32) : OpenState where
  kernel := ⟨rootImage, [], []⟩
  inode n := if n = .sfs 1 then some ⟨.dirops, refs, 0, 1⟩ else none
  kmallocs := []

/-- `/` -/
def slash : CString := ⟨[47], by simp⟩

theorem rootOpenState_ready : (rootOpenState 2).Ready rootOpenEnv := by
  have hdir : rootImage.IsDir 1 := ⟨List.mem_singleton.mpr rfl, rfl, fun i hi => by cases hi⟩
  refine ⟨?_, hdir, ?_, ?_, ?_⟩
  · have hslot : ∀ i, rootImage.slot 1 i = 0 := fun i => by simp [Sfs.slot, rootImage]
    obtain ⟨hspec, hcount⟩ := emptyFile_spec List.nodup_nil (List.forall_mem_nil fun i => 4 < i ∧ i < 64)
    refine Sfs.Consistent.of_single rfl ?_ hcount.symm ⟨?_, ?_⟩ (fun hne => absurd rfl hne)
      (fun i hne => absurd (hslot i) hne) (fun i _ hne => absurd (hslot i) hne) fun i _ => hslot i
    · show (Bitmap.ofFree 32768 []).nbits = (64 + 32767) / 32768 * 32768
      rw [Bitmap.nbits_ofFree]
    · show 1 < 64
      omega
    · exact (hspec 1).trans (by simp)
  · rintro d ⟨⟩
    exact hdir
  · rintro d ⟨⟩
    exact hdir
  · rintro d ⟨⟩
    exact ⟨_, rfl, by decide⟩

/-- `O_RDWR` on a directory fails with `-E_ISDIR`. -/
theorem failed_open_of_directory : ∃ e s', (vfsOpen rootOpenEnv slash 2).run (rootOpenState 2) = .error e s' ∧
    (s'.counts = (rootOpenState 2).counts ↔ ¬ (rootOpenState 2).Leaks rootOpenEnv slash 2) :=
  ⟨_, _, rfl, (failed_open_changes_nothing_iff (w := ⟨rootOpenState 2, fun _ => ⟨.none, false, false, 0, none, 0⟩⟩)
    rootOpenState_ready).1 slash 2 _ _ rfl⟩

/-- `O_RDWR | O_CREAT | O_EXCL` on a directory fails with `-E_EXISTS`, and there is one reference more. -/
theorem vfsOpen_slash_run (refs : BitVec 32) : (vfsOpen rootOpenEnv slash 14).run (rootOpenState refs) =
    .error .fileExists (rootOpenState (refs + 1)) := by
  have hset : (rootOpenState refs).setInode (.sfs 1) (some ⟨.dirops, refs + 1, 0, 1⟩) = rootOpenState (refs + 1) := by
    rw [OpenState.setInode, rootOpenState, rootOpenState, OpenState.mk.injEq]
    refine ⟨rfl, funext fun n => ?_, rfl⟩
    by_cases hn : n = .sfs 1
    · rw [hn, Function.update_self, if_pos rfl]
    · rw [Function.update_of_ne hn, if_neg hn]
      exact if_neg hn
  rw [← hset]
  rfl

/-- The same call again and again. -/
theorem slash_leaks (refs : BitVec 32) (n : ℕ) : ReflTransGen
    (fun s s' => ∃ path flags e, (vfsOpen rootOpenEnv path flags).run s = .error e s')
    (rootOpenState refs) (rootOpenState (refs + BitVec.ofNat 32 n)) := by
  induction n with
  | zero =>
    rw [BitVec.add_zero]
  | succ n ih =>
    refine ih.tail ⟨slash, 14, .fileExists, ?_⟩
    rw [vfsOpen_slash_run, BitVec.ofNat_add, ← BitVec.add_assoc]
    rfl

/-- **The references of the root directory** after failed opens of `/` with `O_RDWR | O_CREAT | O_EXCL`: one more after
each, `MAX_INODE_COUNT` at last, and then the next open of `/` fails the assertion of `inode_check`. -/
theorem failed_opens_reach_max : (∃ s', (vfsOpen rootOpenEnv slash 14).run (rootOpenState 2) = .error .fileExists s' ∧
      s'.counts (.sfs 1) = (3, 0) ∧ (rootOpenState 2).counts (.sfs 1) = (2, 0)) ∧
    ReflTransGen (fun s s' => ∃ path flags e, (vfsOpen rootOpenEnv path flags).run s = .error e s')
      (rootOpenState 2) (rootOpenState 0x10000) ∧
    (vfsOpen rootOpenEnv slash 0).run (rootOpenState 0x10000) = .panic .inodeCheck := by
  refine ⟨⟨_, vfsOpen_slash_run 2, rfl, rfl⟩, ?_, rfl⟩
  exact slash_leaks 2 65534

end Ucore.Fs.Counted
