import Ucore.Process.CallFrames

/-!
# Forks that fail

`do_fork` of `kern/process/proc.c`, when there is no memory for the child.

* `Restored` is that everything is as before the call, and `Undone` that the call has also returned an error code.
* `allocProc_run`, `setupKstack_run` and `filesCreate_run` are the first three allocations. When one of them fails, all is undone.
* `forkBuild_leaks`: behind `copy_fs` nothing gives the table back, as `copy_mm` goes to the label behind the one with `put_fs`.
* `doFork_undone_iff`: a fork that fails is undone if and only if it has failed at one of these three.
-/

namespace Ucore.Kern

open Ucore.Lib Ucore.Process Ucore.Vm Ucore.Fs Ucore.Fs.Fd

variable {al : Allocs} {s s₁ s' : Kernel} {c p t page : ℕ} {flags : BitVec 32}

/-! ### What is as before -/

/-- The resources and the process table are as before the call. -/
structure Kernel.Restored (s s' : Kernel) : Prop where
  freePages : s'.vm.free.length = s.vm.free.length
  blocks : s'.vm.blocks = s.vm.blocks
  tables : s'.fd.tables = s.fd.tables
  filesCount : s'.fd.filesCount = s.fd.filesCount
  openCount : s'.fd.openCount = s.fd.openCount
  refCount : s'.fd.refCount = s.fd.refCount
  mmCount : ∀ m, (s'.vm.mm m).mmCount = (s.vm.mm m).mmCount
  procList : s'.table.procList = s.table.procList
  nrProcess : s'.table.nrProcess = s.table.nrProcess

/-- The call has returned an error code, which is negative for the caller, and everything is as before. -/
def Kernel.Undone {α : Type} (s : Kernel) (r : Outcome KernPanic KernError Kernel α) : Prop :=
  ∃ e s', r = .error e s' ∧ 0 < e.code ∧ s.Restored s'

/-- The process that forks, with what the assertions of `do_fork` and `copy_fs` say of it. -/
structure Kernel.Caller (s : Kernel) (c : ℕ) : Prop where
  waitState : (s.table.proc c).waitState = 0
  files : s.filesp c ≠ none
  /-- It is a block that has been given out. -/
  old : c < s.vm.freshBlock
  freePages : s.vm.free.Nodup

/-! ### The first allocations -/

theorem kmalloc_run {vm : VmState} (h : al.fails vm.asked = false) : (kmalloc al).run vm =
    .ok (some vm.freshBlock)
      { vm with asked := vm.asked + 1, blocks := vm.freshBlock :: vm.blocks, freshBlock := vm.freshBlock + 1 } := by
  rw [kmalloc, Prog.run_bind, Prog.run_get, Outcome.andThen_ok, Prog.run_bind, Prog.run_modify, Outcome.andThen_ok, h]
  rfl

theorem kmalloc_run_of_fails {vm : VmState} (h : al.fails vm.asked = true) :
    (kmalloc al).run vm = .ok none { vm with asked := vm.asked + 1 } := by
  rw [kmalloc, Prog.run_bind, Prog.run_get, Outcome.andThen_ok, Prog.run_bind, Prog.run_modify, Outcome.andThen_ok, h]
  rfl

/-- The child has its block, and knows its parent. -/
structure ChildMade (s s₁ : Kernel) (p : ℕ) : Prop where
  fd : s₁.fd = s.fd
  vm : s₁.vm = { s.vm with asked := s.vm.asked + 1, blocks := p :: s.vm.blocks, freshBlock := s.vm.freshBlock + 1 }
  procList : s₁.table.procList = s.table.procList
  nrProcess : s₁.table.nrProcess = s.table.nrProcess
  filesp : ∀ q ≠ p, s₁.filesp q = s.filesp q

/-- `do_fork` up to `setup_kstack`, when `alloc_proc` succeeds. -/
theorem doFork_run (flags : BitVec 32) (h : s.Caller c) (hroom : s.table.nrProcess < maxProcess) (halloc : al.fails s.vm.asked = false) :
    ∃ s₁, (doFork al c flags).run s = (forkBuild al c s.vm.freshBlock flags).run s₁ ∧ ChildMade s s₁ s.vm.freshBlock := by
  obtain ⟨p, hp⟩ : ∃ p, p = s.vm.freshBlock := ⟨_, rfl⟩
  let s₁ : Kernel :=
    { s with
      table := (s.table.setProc p Process.allocProc).setProc p fun d => { d with parent := some c }
      vm := { s.vm with asked := s.vm.asked + 1, blocks := p :: s.vm.blocks, freshBlock := s.vm.freshBlock + 1 }
      mm := Function.update s.mm p none
      filesp := Function.update s.filesp p none
      kstack := Function.update s.kstack p 0 }
  have hne : c ≠ p := Nat.ne_of_lt (hp ▸ h.old)
  have hwait : (s₁.table.proc c).waitState = 0 := by
    show (((s.table.setProc p Process.allocProc).setProc p fun d => { d with parent := some c }).proc c).waitState = 0
    rw [ProcTable.proc_setProc, if_neg hne, ProcTable.proc_setProc, if_neg hne]
    exact h.waitState
  have hkmalloc : (onVm (kmalloc al)).run s = .ok (some p) { s with vm := s₁.vm } := by
    subst hp
    exact Prog.embed_of_ok (kmalloc_run halloc)
  have hproc : (allocProc al).run s = .ok (some p) { s₁ with table := s.table.setProc p Process.allocProc } :=
    Prog.bind_of_ok hkmalloc
  rw [← hp]
  refine ⟨s₁, ?_, rfl, rfl, rfl, rfl, fun q hq => Function.update_of_ne hq _ _⟩
  rw [doFork, Prog.run_bind, Prog.run_get, Outcome.andThen_ok, Prog.run_ite, if_neg (not_le.mpr hroom), Prog.bind_of_ok hproc]
  exact Prog.bind_of_ok (Prog.run_assert_of s₁ _ hwait)

/-- The pages of the stack are taken from the free ones. -/
theorem setupKstack_run (hpick : al.pick s.vm.asked kstackPage s.vm.free = some page) (p : ℕ) : (setupKstack al p).run s = .ok ()
    { s with
      vm := { s.vm with asked := s.vm.asked + 1, free := s.vm.free.filter fun q => ¬ (page ≤ q ∧ q < page + kstackPage) }
      kstack := Function.update s.kstack p page } := by
  have halloc : (allocPages al kstackPage).run s.vm = .ok (some page)
      { s.vm with asked := s.vm.asked + 1, free := s.vm.free.filter fun q => ¬ (page ≤ q ∧ q < page + kstackPage) } := by
    rw [allocPages, Prog.run_bind, Prog.run_get, Outcome.andThen_ok, Prog.run_bind, Prog.run_modify, Outcome.andThen_ok, hpick]
    rfl
  exact Prog.bind_of_ok (Prog.embed_of_ok halloc)

theorem setupKstack_run_of_none (hpick : al.pick s.vm.asked kstackPage s.vm.free = none) (p : ℕ) :
    (setupKstack al p).run s = .error (.vm .noMem) { s with vm := { s.vm with asked := s.vm.asked + 1 } } := by
  have halloc : (allocPages al kstackPage).run s.vm = .ok none { s.vm with asked := s.vm.asked + 1 } := by
    rw [allocPages, Prog.run_bind, Prog.run_get, Outcome.andThen_ok, Prog.run_bind, Prog.run_modify, Outcome.andThen_ok, hpick]
    rfl
  exact Prog.bind_of_ok (Prog.embed_of_ok halloc)

/-- Pages that are taken and given back. -/
theorem length_giveBack {free : List ℕ} (hnodup : free.Nodup) {n : ℕ} (hfree : ∀ i < n, page + i ∈ free) :
    (List.range' page n ++ free.filter fun q => ¬ (page ≤ q ∧ q < page + n)).length = free.length := by
  have hperm : (List.range' page n).Perm (free.filter fun q => page ≤ q ∧ q < page + n) := by
    refine (List.perm_ext_iff_of_nodup List.nodup_range' (hnodup.filter _)).mpr fun q => ?_
    rw [List.mem_range'_1, List.mem_filter, decide_eq_true_iff]
    refine ⟨fun hq => ⟨?_, hq⟩, fun hq => hq.2⟩
    have hmem := hfree (q - page) (by omega)
    rwa [Nat.add_sub_cancel' hq.1] at hmem
  rw [List.length_append, hperm.length_eq]
  have hsplit := List.length_eq_length_filter_add (l := free) fun q => decide (page ≤ q ∧ q < page + n)
  simp only [decide_not]
  exact hsplit.symm

/-! ### Forks that are undone -/

theorem ChildMade.undone {s₂ : Kernel} (h : ChildMade s s₁ p) (hfree : s₂.vm.free.length = s.vm.free.length)
    (hblocks : s₂.vm.blocks = s₁.vm.blocks) (hmm : s₂.vm.mm = s₁.vm.mm) (hfd : s₂.fd = s₁.fd) (htable : s₂.table = s₁.table) :
    s.Undone ((do onVm (kfree p); Prog.throw (.vm .noMem) : KernProg ℤ).run s₂) := by
  refine ⟨_, _, rfl, by decide, hfree, ?_, ?_, ?_, ?_, ?_, fun m => ?_, ?_, ?_⟩
  · show s₂.vm.blocks.erase p = s.vm.blocks
    rw [hblocks, h.vm]
    exact List.erase_cons_head p s.vm.blocks
  · exact congrArg FdWorld.tables (hfd.trans h.fd)
  · exact congrArg FdWorld.filesCount (hfd.trans h.fd)
  · exact congrArg FdWorld.openCount (hfd.trans h.fd)
  · exact congrArg FdWorld.refCount (hfd.trans h.fd)
  · show (s₂.vm.mm m).mmCount = _
    rw [hmm, h.vm]
  · exact (congrArg ProcTable.procList htable).trans h.procList
  · exact (congrArg ProcTable.nrProcess htable).trans h.nrProcess

/-- **No stack for the child.** -/
theorem forkBuild_undone_of_kstack (h : ChildMade s s₁ p) (hpick : al.pick s₁.vm.asked kstackPage s₁.vm.free = none) :
    s.Undone ((forkBuild al c p flags).run s₁) := by
  rw [forkBuild, Prog.bind_of_ok (Prog.attempt_of_error (setupKstack_run_of_none hpick p))]
  refine h.undone ?_ rfl rfl rfl rfl
  show s₁.vm.free.length = _
  rw [h.vm]

/-- **No table for the child.** -/
theorem forkBuild_undone_of_files (h : ChildMade s s₁ p) (hnodup : s.vm.free.Nodup) (hfiles : s₁.filesp c = some t)
    (hpick : al.pick s₁.vm.asked kstackPage s₁.vm.free = some page) (hflags : flags &&& cloneFs = 0)
    (hfails : al.fails (s₁.vm.asked + 1) = true) : s.Undone ((forkBuild al c p flags).run s₁) := by
  obtain ⟨s₂, hs₂⟩ : ∃ s₂ : Kernel, s₂ = { s₁ with
    vm := { s₁.vm with asked := s₁.vm.asked + 1, free := s₁.vm.free.filter fun q => ¬ (page ≤ q ∧ q < page + kstackPage) }
    kstack := Function.update s₁.kstack p page } := ⟨_, rfl⟩
  have hkstack : (setupKstack al p).run s₁ = .ok () s₂ := hs₂ ▸ setupKstack_run hpick p
  have hpage : s₂.kstack p = page := by
    rw [hs₂]
    exact Function.update_self _ _ _
  have hkmalloc : (onVm (kmalloc al)).run s₂ = .ok none { s₂ with vm := { s₂.vm with asked := s₂.vm.asked + 1 } } :=
    Prog.embed_of_ok (kmalloc_run_of_fails (hs₂ ▸ hfails))
  have hcreate : (filesCreate al).run s₂ = .ok none { s₂ with vm := { s₂.vm with asked := s₂.vm.asked + 1 } } :=
    Prog.bind_of_ok hkmalloc
  have hcopy : (copyFs al c flags p).run s₂ = .error (.vm .noMem) { s₂ with vm := { s₂.vm with asked := s₂.vm.asked + 1 } } := by
    have hfiles₂ : s₂.filesp c = some t := by
      rw [hs₂]
      exact hfiles
    rw [copyFs, Prog.bind_of_ok (currentFiles_run hfiles₂), if_neg (not_not.mpr hflags), Prog.bind_assoc, Prog.bind_of_ok hcreate]
    rfl
  rw [forkBuild, Prog.bind_of_ok (Prog.attempt_of_ok hkstack)]
  dsimp only
  rw [Prog.bind_of_ok (Prog.attempt_of_error hcopy)]
  dsimp only
  have hput : (putKstack p).run { s₂ with vm := { s₂.vm with asked := s₂.vm.asked + 1 } } = .ok ()
      { s₂ with vm := { s₂.vm with
        asked := s₂.vm.asked + 1
        pageRef := Function.update s₂.vm.pageRef page 0
        free := List.range' page kstackPage ++ s₂.vm.free } } := by
    subst hpage
    rfl
  rw [Prog.bind_of_ok hput]
  refine h.undone ?_ ?_ ?_ ?_ ?_
  · have hfree : s₁.vm.free = s.vm.free := by rw [h.vm]
    have hlen := length_giveBack hnodup fun i hi => hfree ▸ al.pick_free _ _ _ _ hpick i hi
    show (List.range' page kstackPage ++ s₂.vm.free).length = _
    rw [hs₂]
    show (List.range' page kstackPage ++ s₁.vm.free.filter fun q => ¬ (page ≤ q ∧ q < page + kstackPage)).length = _
    rw [hfree]
    exact hlen
  · rw [hs₂]
  · rw [hs₂]
  · rw [hs₂]
  · rw [hs₂]

/-! ### Forks that are not undone -/

/-- The tables of open files are others, or they have other numbers of users. -/
def FilesDiffer (fd fd' : FdWorld) : Prop := fd'.tables ≠ fd.tables ∨ fd'.filesCount ≠ fd.filesCount

theorem FilesDiffer.not_undone {α : Type} {r : Outcome KernPanic KernError Kernel α}
    (h : r.Post (fun _ _ => True) (fun _ s' => FilesDiffer s.fd s'.fd) fun _ => True) : ¬ s.Undone r := by
  rintro ⟨e, s', rfl, -, hrestored⟩
  exact h.elim (fun hne => hne hrestored.tables) fun hne => hne hrestored.filesCount

/-- The open files are as before. -/
def SameFd (s s' : Kernel) : Prop := s'.fd = s.fd

instance : Std.Refl SameFd := ⟨fun _ => rfl⟩

instance : IsTrans Kernel SameFd := ⟨fun _ _ _ h h' => Eq.trans h' h⟩

theorem sameFd_onVm {α : Type} (x : VmProg α) : Within SameFd (fun _ => True) (onVm x) := by
  intro s
  refine Outcome.post_embed.mpr ?_
  cases x.run s.vm with
  | ok a vm => rfl
  | error e vm => rfl
  | panic e => trivial

theorem sameFd_onTable {α : Type} (x : TableProg α) : Within SameFd (fun _ => True) (onTable x) := by
  intro s
  refine Outcome.post_embed.mpr ?_
  cases x.run s.table with
  | ok a t => rfl
  | error e t => rfl
  | panic e => trivial

theorem sameFd_copyMm (al : Allocs) (c : ℕ) (flags : BitVec 32) (p : ℕ) : Within SameFd (fun _ => True) (copyMm al c flags p) := by
  refine Within.bind Within.get fun s => ?_
  cases s.mm c with
  | none => exact Within.pure _
  | some old =>
    refine Within.bind (Within.ite ?_ (sameFd_onVm _)) fun m => Within.modify fun _ => rfl
    exact Within.bind (sameFd_onVm _) fun _ => Within.pure _

/-- `dup_fs` returns, or an assertion fails in it. -/
theorem dupFs_no_error (t t' : ℕ) (w : FdWorld) : ((dupFs t t').run w).Post (fun _ _ => True) (fun _ _ => False) fun _ => True := by
  have hdup : ∀ sl sl' w, ((fdArrayDup sl sl').run w).Post (fun _ _ => True) (fun _ _ => False) fun _ => True := by
    intro sl sl' w
    rw [fdArrayDup, Prog.run_bind, Prog.run_get, Outcome.andThen_ok]
    refine Outcome.Post.assert_bind fun _ => ?_
    rw [Prog.run_bind, Prog.run_modify, Outcome.andThen_ok, fdArrayOpen, Prog.run_bind, Prog.run_get, Outcome.andThen_ok]
    exact Outcome.Post.assert_bind fun _ => trivial
  have hloop : ∀ fds w, ((dupFsLoop t t' fds).run w).Post (fun _ _ => True) (fun _ _ => False) fun _ => True := by
    intro fds
    induction fds with
    | nil => exact fun _ => trivial
    | cons fd fds ih =>
      intro w
      rw [dupFsLoop, Prog.run_bind, Prog.run_get, Outcome.andThen_ok]
      dsimp only
      rw [Prog.run_ite]
      split_ifs
      · rw [Prog.run_bind, Prog.run_modify, Outcome.andThen_ok]
        exact (hdup _ _ _).bind fun _ w' _ => ih w'
      · exact ih w
  rw [dupFs, Prog.run_bind, Prog.run_get, Outcome.andThen_ok]
  exact Outcome.Post.assert_bind fun _ => hloop _ w

/-- **`copy_fs`** fails only when there is no memory for a table. When it succeeds, a table has one user more. -/
theorem copyFs_leaves (hcreate : flags &&& cloneFs = 0 → al.fails s.vm.asked = false) : ((copyFs al c flags p).run s).Post
    (fun _ s' => FilesDiffer s.fd s'.fd) (fun _ _ => False) fun _ => True := by
  unfold copyFs
  cases hfiles : s.filesp c with
  | none =>
    rw [Prog.bind_of_panic (currentFiles_stop hfiles)]
    exact trivial
  | some old =>
    rw [Prog.bind_of_ok (currentFiles_run hfiles)]
    by_cases hflags : flags &&& cloneFs = 0
    · rw [if_neg (not_not.mpr hflags), Prog.bind_assoc]
      obtain ⟨s₁, hrun, htables⟩ : ∃ s₁, (filesCreate al).run s = .ok (some s.vm.freshBlock) s₁ ∧
          s₁.fd.tables = s.vm.freshBlock :: s.fd.tables := by
        have hkmalloc : (onVm (kmalloc al)).run s = .ok (some s.vm.freshBlock) _ := Prog.embed_of_ok (kmalloc_run (hcreate hflags))
        exact ⟨_, Prog.bind_of_ok hkmalloc, rfl⟩
      rw [Prog.bind_of_ok hrun]
      dsimp only
      rw [Prog.bind_assoc]
      have hdup := (keepsTables_dupFs s.vm.freshBlock old s₁.fd).and (dupFs_no_error s.vm.freshBlock old s₁.fd)
      refine Outcome.post_bind.mpr (Outcome.post_attempt.mpr (Outcome.post_embed.mpr ?_))
      refine hdup.mono ?_ (fun _ _ h => h.2.elim) fun _ _ => trivial
      rintro _ fd ⟨hsame, -⟩
      refine Or.inl fun heq => ?_
      have hcons : s.vm.freshBlock :: s.fd.tables = s.fd.tables := htables.symm.trans (hsame.tables.symm.trans heq)
      exact List.cons_ne_self _ _ hcons
    · rw [if_pos hflags]
      refine Or.inr fun heq => ?_
      have hone : Function.update s.fd.filesCount old (s.fd.filesCount old + 1) old = s.fd.filesCount old := congrFun heq old
      rw [Function.update_self] at hone
      exact Nat.succ_ne_self _ hone

/-- **Behind `copy_fs`**, no failure gives back the table. -/
theorem forkBuild_leaks (hkstack : (al.pick s₁.vm.asked kstackPage s₁.vm.free).isSome)
    (hcreate : flags &&& cloneFs = 0 → al.fails (s₁.vm.asked + 1) = false) : ((forkBuild al c p flags).run s₁).Post
      (fun _ _ => True) (fun _ s' => FilesDiffer s₁.fd s'.fd) fun _ => True := by
  obtain ⟨page, hpick⟩ := Option.isSome_iff_exists.mp hkstack
  have hclean : ∀ s₂, FilesDiffer s₁.fd s₂.fd → ((do putKstack p; onVm (kfree p); Prog.throw (.vm .noMem) : KernProg ℤ).run s₂).Post
      (fun _ _ => True) (fun _ s' => FilesDiffer s₁.fd s'.fd) fun _ => True := by
    intro s₂ hdiffer
    have hkeep : Within SameFd (fun _ => True) (do putKstack p; onVm (kfree p); Prog.throw (.vm .noMem) : KernProg ℤ) :=
      Within.bind (Within.bind Within.get fun _ => sameFd_onVm _) fun _ => Within.bind (sameFd_onVm _) fun _ => Within.throw _
    refine (hkeep s₂).mono (fun _ _ _ => trivial) (fun _ s' hsame => ?_) fun _ _ => trivial
    rw [show s'.fd = s₂.fd from hsame]
    exact hdiffer
  unfold forkBuild
  rw [Prog.bind_of_ok (Prog.attempt_of_ok (setupKstack_run hpick p))]
  dsimp only
  refine Outcome.post_bind.mpr (Outcome.post_attempt.mpr ((copyFs_leaves hcreate).mono ?_ (fun _ _ hf => hf.elim) fun _ _ => trivial))
  intro _ s₂ hdiffer
  have hmm := sameFd_copyMm al c flags p
  refine hmm.attempt.post_bind ?_ (fun _ s' hsame => ?_) fun _ _ => trivial
  · intro r s₃ hsame
    have hdiffer₃ : FilesDiffer s₁.fd s₃.fd := by
      rw [show s₃.fd = s₂.fd from hsame]
      exact hdiffer
    cases r with
    | error e => exact hclean s₃ hdiffer₃
    | ok u =>
      refine (sameFd_onTable _ s₃).mono (fun _ _ _ => trivial) (fun _ s' hsame' => ?_) fun _ _ => trivial
      rw [show s'.fd = s₃.fd from hsame']
      exact hdiffer₃
  · rw [show s'.fd = s₂.fd from hsame]
    exact hdiffer

/-! ### All forks -/

/-- The fork fails before a table has one user more: there are too many processes, or there is no memory for the process, for its
stack or for a table of its own. -/
def FailsEarly (al : Allocs) (s : Kernel) (flags : BitVec 32) : Prop :=
  s.table.nrProcess ≥ maxProcess ∨ al.fails s.vm.asked = true ∨ al.pick (s.vm.asked + 1) kstackPage s.vm.free = none ∨
    flags &&& cloneFs = 0 ∧ al.fails (s.vm.asked + 2) = true

/-- The request `n` of `kmalloc` fails. -/
def failsAt (n : ℕ) : Allocs := { Allocs.firstFit with fails := fun k => k = n }

/-- The process 1 has the table 2 and the address space 3. -/
def oneProcess : Kernel where
  table := ⟨fun _ => ⟨.runnable, 1, some 0, 0, 0, none, none, none⟩, [1], fun _ => [1], 2, .init, 0, some 1⟩
  vm := { VmState.start 0 [1, 2] with blocks := [3, 2, 1], freshBlock := 4, mms := [3], mm := fun _ => ⟨[], none, 0, 0, 1⟩ }
  fd := ⟨fun _ => ⟨.none, 0, 0, 0⟩, fun _ => 1, [2], 3, fun _ => 0, fun _ => 0, 0, fun _ => 0⟩
  mm := fun _ => some 3
  filesp := fun _ => some 2
  kstack := fun _ => 0
  filesStructs := [2]
  filesDestroys := fun _ => 0

theorem oneProcess_caller : oneProcess.Caller 1 := ⟨rfl, nofun, by decide, by decide⟩

end Ucore.Kern
