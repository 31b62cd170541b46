import Ucore.Lib.RefCount
import Ucore.Mm.CountFrames
import Ucore.Process.Calls
import Ucore.Process.Links

/-!
# What a call leaves alone

The address spaces and the tables of open files, as objects that processes share.

* `KeepsTables`, `KeepsFilesCount` and `KeepsStates` are for the programs of the files and of the process table, with a lemma for each
  function that a call uses.
* `Kernel.mmRefs` and `Kernel.filesRefs` are the objects with their users. A process that has exited uses no table.
* `Becomes` is what a part of a call makes of them, and `SameUses` that nobody has got or lost an object. Most of what a call does is of
  the second kind: `keepsUses_onVm`, `keepsUses_onFd`.
-/

namespace Ucore.Fs.Fd

open Ucore.Lib Ucore.Fs

/-! ### The tables of open files -/

/-- `files_count` of every table is as before. -/
def SameFilesCount (w w' : FdWorld) : Prop := w'.filesCount = w.filesCount

instance : Std.Refl SameFilesCount := ⟨fun _ => rfl⟩

instance : IsTrans FdWorld SameFilesCount := ⟨fun _ _ _ h h' => Eq.trans h' h⟩

/-- The program does not look after `files_count`. -/
abbrev KeepsFilesCount {α : Type} (x : FdProg α) : Prop := Within SameFilesCount (fun _ => True) x

instance : Std.Refl SameTables := ⟨SameTables.refl⟩

instance : IsTrans FdWorld SameTables := ⟨fun _ _ _ => SameTables.trans⟩

/-- The program makes and destroys no table, and it does not look after `files_count`. -/
abbrev KeepsTables {α : Type} (x : FdProg α) : Prop := Within SameTables (fun _ => True) x

theorem keepsFilesCount_of_tables {α : Type} {x : FdProg α} (h : KeepsTables x) : KeepsFilesCount x := fun w =>
  (h w).mono (fun _ _ h' => h'.filesCount) (fun _ _ h' => h'.filesCount) fun _ h' => h'

variable (sl : Slot) (t t' : ℕ)

theorem keepsFilesCount_vfsClose (node desc : ℕ) : KeepsFilesCount (vfsClose node desc) :=
  Within.bind Within.get fun _ => Within.bind (Within.assert _ trivial) fun _ => Within.bind (Within.assert _ trivial) fun _ =>
    Within.modify fun _ => rfl

theorem keepsFilesCount_fdArrayFree : KeepsFilesCount (fdArrayFree sl) := by
  refine Within.bind Within.get fun w => Within.bind (Within.assert _ trivial) fun _ => Within.bind (Within.assert _ trivial) fun _ => ?_
  have hnone : KeepsFilesCount (Prog.modify fun w => w.set sl { w.entry sl with status := .none }) := Within.modify fun _ => rfl
  exact Within.ite (Within.bind (keepsFilesCount_vfsClose _ _) fun _ => hnone) hnone

theorem keepsFilesCount_fdArrayClose : KeepsFilesCount (fdArrayClose sl) := by
  refine Within.bind Within.get fun w => Within.bind (Within.assert _ trivial) fun _ => Within.bind (Within.assert _ trivial) fun _ => ?_
  refine Within.bind (Within.modify fun _ => rfl) fun _ => Within.bind (Within.modify fun _ => rfl) fun _ => ?_
  exact Within.bind Within.get fun _ => Within.ite (keepsFilesCount_fdArrayFree sl) (Within.pure _)

theorem keepsFilesCount_closeOpened : KeepsFilesCount (closeOpened sl) :=
  Within.bind Within.get fun _ => Within.ite (keepsFilesCount_fdArrayClose sl) (Within.pure _)

theorem keepsFilesCount_filesCloseall : KeepsFilesCount (filesCloseall t) := by
  have hloop : ∀ fds, KeepsFilesCount (closeallLoop t fds) := by
    intro fds
    induction fds with
    | nil => exact Within.pure _
    | cons fd fds ih => exact Within.bind (keepsFilesCount_closeOpened _) fun _ => ih
  exact Within.bind Within.get fun _ => Within.bind (Within.assert _ trivial) fun _ => hloop _

theorem keepsFilesCount_filesDestroy : KeepsFilesCount (filesDestroy t) := by
  have hloop : ∀ fds, KeepsFilesCount (destroyLoop t fds) := by
    intro fds
    induction fds with
    | nil => exact Within.pure _
    | cons fd fds ih =>
      refine Within.bind (keepsFilesCount_closeOpened _) fun _ => Within.bind Within.get fun _ => ?_
      exact Within.bind (Within.assert _ trivial) fun _ => ih
  exact Within.bind Within.get fun _ => Within.bind (Within.assert _ trivial) fun _ => Within.bind (hloop _) fun _ =>
    Within.modify fun _ => rfl

theorem keepsTables_fdArrayOpen : KeepsTables (fdArrayOpen sl) :=
  Within.bind Within.get fun _ => Within.bind (Within.assert _ trivial) fun _ => Within.modify fun _ => ⟨rfl, rfl, rfl⟩

theorem keepsTables_dupFs : KeepsTables (dupFs t t') := by
  have hdup : ∀ sl sl', KeepsTables (fdArrayDup sl sl') := fun sl sl' =>
    Within.bind Within.get fun _ => Within.bind (Within.assert _ trivial) fun _ =>
      Within.bind (Within.modify fun _ => ⟨rfl, rfl, rfl⟩) fun _ => keepsTables_fdArrayOpen sl
  have hloop : ∀ fds, KeepsTables (dupFsLoop t t' fds) := by
    intro fds
    induction fds with
    | nil => exact Within.pure _
    | cons fd fds ih =>
      refine Within.bind Within.get fun _ => Within.ite ?_ ih
      exact Within.bind (Within.modify fun _ => ⟨rfl, rfl, rfl⟩) fun _ => Within.bind (hdup _ _) fun _ => ih
  exact Within.bind Within.get fun _ => Within.bind (Within.assert _ trivial) fun _ => hloop _

theorem keepsFilesCount_fileClose (fd : ℤ) : KeepsFilesCount (fileClose t fd) := by
  have hfind : KeepsFilesCount (fd2file t fd) :=
    Within.bind Within.get fun w => Within.ite (Within.ite (Within.pure _) (Within.throw _)) (Within.throw _)
  exact Within.bind hfind fun _ => keepsFilesCount_fdArrayClose _

end Ucore.Fs.Fd

namespace Ucore.Kern

open Ucore.Lib Ucore.Process Ucore.Vm Ucore.Fs Ucore.Fs.Fd

theorem keepsFilesCount_fileOpen (t : ℕ) (found : Except FsError ℕ) : KeepsFilesCount (fileOpen t found) := by
  have halloc : KeepsFilesCount (fdArrayAlloc t none) := by
    refine Within.bind (Within.bind Within.get fun w => ?_) fun _ => Within.bind ?_ fun _ => Within.pure _
    · dsimp only
      split
      · exact Within.pure _
      · exact Within.throw _
    · exact Within.bind Within.get fun _ => Within.bind (Within.assert _ trivial) fun _ => Within.modify fun _ => rfl
  have hopen : ∀ sl, KeepsFilesCount (fdArrayOpen sl) := fun sl => keepsFilesCount_of_tables (keepsTables_fdArrayOpen sl)
  refine Within.bind halloc fun fd => ?_
  cases found with
  | error e => exact Within.bind (keepsFilesCount_fdArrayFree _) fun _ => Within.throw _
  | ok node =>
    refine Within.bind (Within.bind (Within.modify fun _ => rfl) fun _ => hopen _) fun _ => Within.pure _

/-! ### The process table -/

/-- The same processes are there, and the same ones have exited. -/
structure SameStates (t t' : ProcTable) : Prop where
  procList : t'.procList = t.procList
  idleproc : t'.idleproc = t.idleproc
  zombie : ∀ p, (t'.proc p).state = .zombie ↔ (t.proc p).state = .zombie

theorem SameStates.trans {t t₁ t' : ProcTable} (h : SameStates t t₁) (h' : SameStates t₁ t') : SameStates t t' :=
  ⟨h'.procList.trans h.procList, h'.idleproc.trans h.idleproc, fun p => (h'.zombie p).trans (h.zombie p)⟩

instance : Std.Refl SameStates := ⟨fun _ => ⟨rfl, rfl, fun _ => Iff.rfl⟩⟩

instance : IsTrans ProcTable SameStates := ⟨fun _ _ _ => SameStates.trans⟩

/-- The program starts and ends no process. -/
abbrev KeepsStates {α : Type} (x : TableProg α) : Prop := Within SameStates (fun _ => True) x

theorem sameStates_setProc (p : ℕ) {f : Proc → Proc} (h : ∀ d, (f d).state = .zombie ↔ d.state = .zombie) (t : ProcTable) :
    SameStates t (t.setProc p f) := by
  refine ⟨rfl, rfl, fun x => ?_⟩
  rw [ProcTable.proc_setProc]
  split_ifs
  · exact h _
  · exact Iff.rfl

/-- A change to a process that does not end it. -/
theorem keepsStates_setProc (p : ℕ) {f : Proc → Proc} (h : ∀ d, (f d).state = .zombie ↔ d.state = .zombie) :
    KeepsStates (setProc p f) := Within.modify fun t => sameStates_setProc p h t

theorem keepsStates_setIfAny (ptr : Option ℕ) {f : Proc → Proc} (h : ∀ d, (f d).state = .zombie ↔ d.state = .zombie) :
    KeepsStates (setIfAny ptr f) := by
  cases ptr with
  | none => exact Within.pure _
  | some p => exact keepsStates_setProc p h

theorem keepsStates_wakeupProc (p : ℕ) : KeepsStates (wakeupProc p) := by
  intro t
  by_cases hp : (t.proc p).state = .zombie
  · rw [wakeupProc, Prog.run_bind, Prog.run_get, Outcome.andThen_ok, Prog.bind_of_panic (Prog.run_assert_of_not _ _ (not_not.mpr hp))]
    trivial
  · obtain ⟨t', hrun, hsame, hfam⟩ := wakeupProc_run hp
    rw [hrun]
    exact ⟨hfam.procList, hsame.idleproc, fun x => (hsame.own x).zombie⟩

theorem keepsStates_adoptAll (c fuel : ℕ) : KeepsStates (adoptAll c fuel) := by
  induction fuel with
  | zero => exact Within.bind Within.get fun _ => Within.assert _ trivial
  | succ fuel ih =>
    refine Within.bind Within.get fun t => ?_
    cases (t.proc c).cptr with
    | none => exact Within.pure _
    | some p =>
      refine Within.bind ?_ fun _ => ih
      refine Within.bind Within.get fun t => Within.bind (keepsStates_setProc c fun _ => Iff.rfl) fun _ => ?_
      refine Within.bind (keepsStates_setProc p fun _ => Iff.rfl) fun _ => Within.bind Within.get fun t => ?_
      cases t.initproc with
      | none => exact Within.stop trivial
      | some i =>
        refine Within.bind (keepsStates_setProc p fun _ => Iff.rfl) fun _ => ?_
        refine Within.bind (keepsStates_setIfAny _ fun _ => Iff.rfl) fun _ => ?_
        refine Within.bind (keepsStates_setProc p fun _ => Iff.rfl) fun _ => ?_
        refine Within.bind (keepsStates_setProc i fun _ => Iff.rfl) fun _ => ?_
        exact Within.bind Within.get fun t => Within.ite (keepsStates_wakeupProc i) (Within.pure _)

/-- What `do_exit` leaves of the table: the process has exited. -/
structure Ended (t t' : ProcTable) (c : ℕ) : Prop where
  procList : t'.procList = t.procList
  idleproc : t'.idleproc = t.idleproc
  zombie : ∀ p, (t'.proc p).state = .zombie ↔ p = c ∨ (t.proc p).state = .zombie

theorem doExit_ended (fuel c : ℕ) (code : ℤ) (t : ProcTable) :
    ((Process.doExit fuel c code).run t).Post (fun _ t' => Ended t t' c) (fun _ _ => True) fun _ => True := by
  rw [Process.doExit, Prog.run_bind, Prog.run_get, Outcome.andThen_ok, Prog.run_ite, Prog.run_ite]
  split_ifs
  · trivial
  · trivial
  · have hended : Ended t (t.setProc c fun d => { d with state := .zombie, exitCode := code }) c := by
      refine ⟨rfl, rfl, fun p => ?_⟩
      rw [ProcTable.proc_setProc]
      split_ifs with hpc
      · exact iff_of_true rfl (Or.inl hpc)
      · exact (or_iff_right hpc).symm
    refine Outcome.post_bind.mpr ?_
    rw [setProc, Prog.run_modify, Outcome.post_ok]
    obtain ⟨t₁, ht₁⟩ : ∃ t₁, t₁ = t.setProc c fun d => { d with state := .zombie, exitCode := code } := ⟨_, rfl⟩
    rw [← ht₁] at hended ⊢
    refine Outcome.Post.mono (?_ : Outcome.Post (fun _ => SameStates t₁) (fun _ => SameStates t₁) (fun _ => True) _) (fun _ t' h => ?_)
      (fun _ _ _ => trivial) fun _ _ => trivial
    · refine (Within.bind Within.get fun t => ?_ : KeepsStates _) _
      cases (t.proc c).parent with
      | none => exact Within.stop trivial
      | some q => exact Within.bind (Within.ite (keepsStates_wakeupProc q) (Within.pure _)) fun _ => keepsStates_adoptAll c fuel
    · exact ⟨h.procList.trans hended.procList, h.idleproc.trans hended.idleproc, fun p => (h.zombie p).trans (hended.zombie p)⟩

/-- What the end of `do_fork` leaves of the table: there is one process more. -/
structure Started (t t' : ProcTable) (p : ℕ) : Prop where
  procList : t'.procList = p :: t.procList
  idleproc : t'.idleproc = t.idleproc
  zombie : ∀ q, (t'.proc q).state = .zombie ↔ (t.proc q).state = .zombie

theorem setLinks_started (p : ℕ) (t : ProcTable) :
    ((setLinks p).run t).Post (fun _ t' => Started t t' p) (fun _ _ => True) fun _ => True := by
  rw [setLinks, Prog.run_bind, Prog.run_modify, Outcome.andThen_ok]
  refine Outcome.Post.mono (?_ : Outcome.Post (fun _ => SameStates { t with procList := p :: t.procList })
    (fun _ => SameStates { t with procList := p :: t.procList }) (fun _ => True) _) (fun _ t' h => ⟨h.procList, h.idleproc, h.zombie⟩)
      (fun _ _ _ => trivial) fun _ _ => trivial
  refine (Within.bind ?_ fun _ => Within.bind Within.get fun t => ?_ : KeepsStates _) _
  · exact keepsStates_setProc p fun _ => Iff.rfl
  cases (t.proc p).parent with
  | none => exact Within.stop trivial
  | some q =>
    refine Within.bind (keepsStates_setProc p fun _ => Iff.rfl) fun _ => Within.bind (keepsStates_setIfAny _ fun _ => Iff.rfl) fun _ => ?_
    exact Within.bind (keepsStates_setProc q fun _ => Iff.rfl) fun _ => Within.modify fun _ => ⟨rfl, rfl, fun _ => Iff.rfl⟩

theorem forkLinks_started (p : ℕ) (t : ProcTable) :
    ((forkLinks p).run t).Post (fun _ t' => Started t t' p) (fun _ _ => True) fun _ => True := by
  have hpid : KeepsStates tableGetPid := by
    refine Within.bind Within.get fun t => ?_
    cases getPid t.pids 8191 t.cursors with
    | none => exact Within.stop trivial
    | some c => exact Within.bind (Within.modify fun _ => ⟨rfl, rfl, fun _ => Iff.rfl⟩) fun _ => Within.pure _
  unfold forkLinks
  refine hpid.then_post ?_
  intro pid t₁ h₁
  have hset : KeepsStates (setProc p fun d => { d with pid := pid }) := keepsStates_setProc p fun _ => Iff.rfl
  refine hset.then_post ?_
  intro _ t₂ h₂
  have hhash : KeepsStates (hashProc p) := Within.modify fun _ => ⟨rfl, rfl, fun _ => Iff.rfl⟩
  refine hhash.then_post ?_
  intro _ t₃ h₃
  refine (setLinks_started p t₃).bind fun _ t₄ h₄ => ?_
  refine (keepsStates_wakeupProc p).then_post ?_
  intro _ t' h'
  obtain ⟨hlist, hidle, hzombie⟩ := (h₁.trans h₂).trans h₃
  refine ⟨?_, h'.idleproc.trans (h₄.idleproc.trans hidle), fun q => (h'.zombie q).trans ((h₄.zombie q).trans (hzombie q))⟩
  rw [h'.procList, h₄.procList, hlist]

/-! ### Objects and their users -/

/-- The address spaces and their users. -/
def Kernel.mmRefs (s : Kernel) : Refs ℕ ℕ where
  holds := s.mm
  count := s.vm.counts
  made m := m ∈ s.vm.mms
  drops := s.vm.mmDestroys

/-- The tables of open files and their users. A process that has exited still has its pointer, but it is no user. -/
def Kernel.filesRefs (s : Kernel) : Refs ℕ ℕ where
  holds p := if (s.table.proc p).state = .zombie then none else s.filesp p
  count t := s.fd.filesCount t
  made t := t ∈ s.filesStructs
  drops := s.filesDestroys

/-- The clean-up of address spaces is complete, and objects are blocks that have been given out. -/
structure Kernel.Fine (s : Kernel) : Prop where
  balanced : s.vm.Balanced
  mms : ∀ m ∈ s.vm.mms, m < s.vm.freshBlock
  structs : ∀ t ∈ s.filesStructs, t < s.vm.freshBlock

/-- No process starts or ends, and the objects with their users have become `mms` and `files`. -/
structure Becomes (s s' : Kernel) (mms files : Refs ℕ ℕ) : Prop where
  states : SameStates s.table s'.table
  mms : s'.mmRefs = mms
  files : s'.filesRefs = files
  fine : s.Fine → s'.Fine
  fresh : s.vm.freshBlock ≤ s'.vm.freshBlock

/-- The objects and their users are as before. -/
def SameUses (s s' : Kernel) : Prop := Becomes s s' s.mmRefs s.filesRefs

variable {s s₁ s' : Kernel} {mms files mms' files' : Refs ℕ ℕ} {c p : ℕ} {α : Type}

theorem Becomes.trans (h : Becomes s s₁ mms files) (h' : Becomes s₁ s' mms' files') : Becomes s s' mms' files' :=
  ⟨h.states.trans h'.states, h'.mms, h'.files, fun hs => h'.fine (h.fine hs), Nat.le_trans h.fresh h'.fresh⟩

theorem Becomes.same (h : Becomes s s₁ mms files) (h' : SameUses s₁ s') : Becomes s s' mms files :=
  h.trans ⟨h'.states, h'.mms.trans h.mms, h'.files.trans h.files, h'.fine, h'.fresh⟩

instance : Std.Refl SameUses := ⟨fun _ => ⟨Std.Refl.refl _, rfl, rfl, fun h => h, Nat.le_refl _⟩⟩

instance : IsTrans Kernel SameUses := ⟨fun _ _ _ h h' => Becomes.same h h'⟩

/-- Not one of the assertions on `mm_count`. -/
def KernSafe (e : KernPanic) : Prop := e ≠ .vm .exitMmapCount ∧ e ≠ .vm .mmDestroyCount

theorem kernSafe_table (e : ProcPanic) : KernSafe (.table e) := ⟨nofun, nofun⟩

theorem kernSafe_fd (e : FdPanic) : KernSafe (.fd e) := ⟨nofun, nofun⟩

theorem kernSafe_noFiles : KernSafe .noFiles := ⟨nofun, nofun⟩

/-- Nobody gets or loses an object, and no assertion on `mm_count` fails. -/
abbrev KeepsUses (x : KernProg α) : Prop := Within SameUses KernSafe x

theorem CountSafe.kern {e : VmPanic} (h : CountSafe e) : KernSafe (.vm e) :=
  ⟨fun heq => h.1 (KernPanic.vm.inj heq), fun heq => h.2 (KernPanic.vm.inj heq)⟩

theorem sameUses_vm {vm : VmState} (h : SameCounts s.vm vm) : SameUses s { s with vm := vm } := by
  refine ⟨Std.Refl.refl _, Refs.ext rfl h.counts ?_ h.mmDestroys, rfl, fun hs => ⟨h.balanced hs.balanced, ?_, ?_⟩, h.fresh⟩
  · funext m
    show (m ∈ vm.mms) = (m ∈ s.vm.mms)
    rw [h.mms]
  · intro m hm
    show m < vm.freshBlock
    rw [show ({ s with vm := vm } : Kernel).vm.mms = s.vm.mms from h.mms] at hm
    exact Nat.lt_of_lt_of_le (hs.mms m hm) h.fresh
  · exact fun t ht => Nat.lt_of_lt_of_le (hs.structs t ht) h.fresh

theorem sameUses_fd {fd : FdWorld} (h : SameFilesCount s.fd fd) : SameUses s { s with fd := fd } := by
  refine ⟨Std.Refl.refl _, rfl, Refs.ext rfl ?_ rfl rfl, fun hs => ⟨hs.balanced, hs.mms, hs.structs⟩, Nat.le_refl _⟩
  funext t
  exact congrArg Nat.cast (congrFun h t)

theorem sameUses_table {table : ProcTable} (h : SameStates s.table table) : SameUses s { s with table := table } := by
  refine ⟨h, rfl, Refs.ext ?_ rfl rfl rfl, fun hs => ⟨hs.balanced, hs.mms, hs.structs⟩, Nat.le_refl _⟩
  funext p
  show (if (table.proc p).state = .zombie then _ else _) = if (s.table.proc p).state = .zombie then _ else _
  simp only [h.zombie p]

theorem keepsUses_onVm {x : VmProg α} (h : KeepsCounts x) : KeepsUses (onVm x) :=
  h.embed (fun _ _ => sameUses_vm) fun _ => CountSafe.kern

theorem keepsUses_onFd {x : FdProg α} (h : KeepsFilesCount x) : KeepsUses (onFd x) :=
  h.embed (fun _ _ => sameUses_fd) fun e _ => kernSafe_fd e

theorem keepsUses_onTable {x : TableProg α} (h : KeepsStates x) : KeepsUses (onTable x) :=
  h.embed (fun _ _ => sameUses_table) fun e _ => kernSafe_table e

/-- A program of memory at the start of a sequence. -/
theorem onVm_then {β : Type} {x : VmProg α} {k : α → KernProg β} {Q : α → VmState → Prop} {R : β → Kernel → Prop}
    (hx : (x.run s.vm).Post Q (fun _ _ => True) CountSafe)
    (hk : ∀ a vm, Q a vm → ((k a).run { s with vm := vm }).Post R (fun _ _ => True) KernSafe) :
    ((onVm x >>= k).run s).Post R (fun _ _ => True) KernSafe :=
  Outcome.post_bind.mpr (Outcome.post_embed.mpr (hx.mono hk (fun _ _ _ => trivial) fun _ => CountSafe.kern))

theorem currentFiles_run {t : ℕ} (h : s.filesp c = some t) : (currentFiles c).run s = .ok t s := by
  rw [currentFiles, Prog.run_bind, Prog.run_get, Outcome.andThen_ok, h]
  rfl

theorem currentFiles_stop (h : s.filesp c = none) : (currentFiles c).run s = .panic .noFiles := by
  rw [currentFiles, Prog.run_bind, Prog.run_get, Outcome.andThen_ok, h]
  rfl

theorem keepsUses_currentFiles (c : ℕ) : KeepsUses (currentFiles c) := by
  refine Within.bind Within.get fun s => ?_
  cases s.filesp c with
  | none => exact Within.stop kernSafe_noFiles
  | some t => exact Within.pure t

theorem keepsUses_setupKstack (al : Allocs) (p : ℕ) : KeepsUses (setupKstack al p) := by
  refine Within.bind (keepsUses_onVm (onPages_allocPages al kstackPage).keepsCounts) fun r => ?_
  cases r with
  | none => exact Within.throw _
  | some page => exact Within.modify fun _ => ⟨Std.Refl.refl _, rfl, rfl, fun h => ⟨h.balanced, h.mms, h.structs⟩, Nat.le_refl _⟩

theorem keepsUses_putKstack (p : ℕ) : KeepsUses (putKstack p) :=
  Within.bind Within.get fun _ => keepsUses_onVm (onPages_freePages _ _).keepsCounts

theorem keepsUses_kfree (b : ℕ) : KeepsUses (onVm (kfree b)) := keepsUses_onVm (keepsCounts_kfree b)

theorem keepsUses_sysfileOpen (al : Allocs) (c t path : ℕ) (e : ExecCall) : KeepsUses (sysfileOpen al c t path e) := by
  refine Within.bind (keepsUses_onVm (keepsCounts_kmalloc al)) fun r => ?_
  cases r with
  | none => exact Within.throw _
  | some buffer =>
    refine Within.bind Within.get fun s => Within.bind (keepsUses_onVm (keepsCounts_copyString _ _ _ _ _)) fun r => Within.ite ?_ ?_
    · refine Within.bind (Within.attempt (keepsUses_onFd (keepsFilesCount_fileOpen t _))) fun r => ?_
      refine Within.bind (keepsUses_kfree buffer) fun _ => ?_
      cases r with
      | error err => exact Within.throw err
      | ok fd => exact Within.pure _
    · exact Within.bind (keepsUses_kfree buffer) fun _ => Within.throw _

/-- The process can make calls: it has not exited, and its table has a user. -/
structure Kernel.Running (s : Kernel) (c : ℕ) : Prop where
  live : (s.table.proc c).state ≠ .zombie
  count : ∀ t, s.filesp c = some t → 0 < s.fd.filesCount t

/-- A process goes on, as long as no table gets or loses a user. -/
theorem Kernel.Running.congr (h : s.Running c) (hstates : SameStates s.table s'.table) (hfiles : s'.filesRefs = s.filesRefs) :
    s'.Running c := by
  have hlive : (s'.table.proc c).state ≠ .zombie := fun hz => h.live ((hstates.zombie c).mp hz)
  have hholds : s'.filesp c = s.filesp c := by
    have heq : s'.filesRefs.holds c = s.filesRefs.holds c := by rw [hfiles]
    exact (if_neg hlive).symm.trans (heq.trans (if_neg h.live))
  refine ⟨hlive, fun t ht => ?_⟩
  have heq : (s'.fd.filesCount t : ℤ) = s.fd.filesCount t := congrFun (congrArg Refs.count hfiles) t
  rw [Int.ofNat.inj heq]
  exact h.count t (hholds ▸ ht)

end Ucore.Kern
