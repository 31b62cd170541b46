import Ucore.Process.CallUses
import Mathlib.Logic.Relation

/-!
# Shared objects are counted

Whatever processes fork, start programs and exit: `mm_count` and `files_count` are the numbers of processes that use the object, and
the last one that leaves an object frees it.

* `CallStep` is a call that succeeds, and `KernStep` such a call by any process that has not exited. `Booted` is the kernel that
  `proc_init` leaves.
* `Kernel.Sound` is the invariant: both kinds of objects are `Counted`. `Sound.forked`, `Sound.execed` and `Sound.exited`: the calls
  keep it.
* `Released` is what a call frees. `shared_objects_counted` puts everything together.
-/

namespace Ucore.Kern

open Ucore.Lib Ucore.Process Ucore.Vm Ucore.Fs Ucore.Fs.Fd Relation

/-! ### Runs -/

/-- A call, with what the process chooses. -/
inductive Call where
  | fork (flags : BitVec 32)
  | execve (e : ExecCall)
  | exit (code : ℤ)

/-- The process gives up its address space: the calls that can free one. -/
def Call.LeavesMm : Call → Prop
  | .fork _ => False
  | .execve _ => True
  | .exit _ => True

/-- The process gives up its table of open files. -/
def Call.LeavesFiles : Call → Prop
  | .exit _ => True
  | _ => False

instance (call : Call) : Decidable call.LeavesMm := by
  cases call <;> unfold Call.LeavesMm <;> infer_instance

instance (call : Call) : Decidable call.LeavesFiles := by
  cases call <;> unfold Call.LeavesFiles <;> infer_instance

/-- A call by the process `c` that succeeds. -/
inductive CallStep (al : Allocs) (s : Kernel) (c : ℕ) : Call → Kernel → Prop where
  | fork {flags : BitVec 32} {pid : ℤ} {s' : Kernel} (hrun : (doFork al c flags).run s = .ok pid s') : CallStep al s c (.fork flags) s'
  | execve {fuel : ℕ} {e : ExecCall} {loaded : Loaded} {s' : Kernel} (hrun : (doExecve al fuel c e).run s = .ok (.running loaded) s') :
      CallStep al s c (.execve e) s'
  | exit {fuel : ℕ} {code : ℤ} {s' : Kernel} (hrun : (doExit al fuel c code).run s = .ok () s') : CallStep al s c (.exit code) s'

/-- The processes: `idleproc`, and those in `proc_list`. -/
def Kernel.procs (s : Kernel) : List ℕ := s.table.procList ++ [s.table.idleproc]

/-- The process is there, and has not exited. -/
def Kernel.CanCall (s : Kernel) (c : ℕ) : Prop := c ∈ s.procs ∧ (s.table.proc c).state ≠ .zombie

instance (s : Kernel) (c : ℕ) : Decidable (s.CanCall c) := inferInstanceAs (Decidable (_ ∧ _))

/-- A successful call by any process. -/
def KernStep (al : Allocs) (s s' : Kernel) : Prop := ∃ c call, s.CanCall c ∧ CallStep al s c call s'

/-- There is no process yet, and no object. -/
structure Kernel.Bare (s : Kernel) : Prop where
  procList : s.table.procList = []
  mms : s.vm.mms = []
  exitMmaps : s.vm.exitMmaps = fun _ => 0
  putPgdirs : s.vm.putPgdirs = fun _ => 0
  mmDestroys : s.vm.mmDestroys = fun _ => 0
  structs : s.filesStructs = []
  destroys : s.filesDestroys = fun _ => 0

/-- The kernel after `proc_init`. -/
def Booted (al : Allocs) (s : Kernel) : Prop := ∃ bare : Kernel, bare.Bare ∧ (procInit al).run bare = .ok () s

/-! ### The invariant -/

variable {al : Allocs} {s₀ s s' : Kernel} {ps : List ℕ} {c p m : ℕ}

/-- The objects are counted, and the processes are blocks that have been given out. -/
structure Kernel.Sound (s : Kernel) (ps : List ℕ) : Prop where
  mms : s.mmRefs.Counted ps
  files : s.filesRefs.Counted ps
  fine : s.Fine
  fresh : ∀ p ∈ ps, p < s.vm.freshBlock

namespace Kernel.Sound

/-- A process that has not exited can make calls. -/
theorem running (h : s.Sound ps) (hc : c ∈ ps) (hlive : (s.table.proc c).state ≠ .zombie) : s.Running c := by
  refine ⟨hlive, fun t ht => ?_⟩
  have hold : s.filesRefs.holds c = some t := (if_neg hlive).trans ht
  have hcount : (s.fd.filesCount t : ℤ) = s.filesRefs.users ps t := h.files.count t (h.files.made c hc t hold)
  rw [Int.ofNat.inj hcount]
  exact Refs.users_pos hc hold

theorem forked (h : s.Sound ps) (hc : c ∈ ps) (hf : Forked s s' c p) : s'.Sound (p :: ps) := by
  have hp : p ∉ ps := fun hmem => Nat.lt_irrefl p (Nat.lt_of_lt_of_eq (h.fresh p hmem) hf.new.symm)
  have hself : p ∈ p :: ps := List.mem_cons_self
  have hc' : c ∈ p :: ps := List.mem_cons_of_mem p hc
  have hnone : ∀ r : Refs ℕ ℕ, (r.clear p).holds p = none := fun r => Function.update_self _ _ _
  refine ⟨(h.mms.clear hp).gets hself (hnone _) hc' hf.mms, (h.files.clear hp).gets hself (hnone _) hc' hf.files, hf.fine h.fine, ?_⟩
  intro q hq
  rcases List.mem_cons.mp hq with rfl | hq
  · exact hf.fresh
  · exact Nat.lt_trans (Nat.lt_of_lt_of_eq (h.fresh q hq) hf.new.symm) hf.fresh

theorem execed (h : s.Sound ps) (hc : c ∈ ps) (he : Execed s s' c m) : s'.Sound ps := by
  refine ⟨?_, ?_, he.fine h.fine, fun q hq => Nat.lt_of_lt_of_le (h.fresh q hq) he.fresh⟩
  · rw [he.mms]
    refine (h.mms.leave hc).make hc ?_ ?_
    · rw [Refs.holds_leave, Function.update_self]
    · rw [Refs.made_leave]
      exact he.new
  · rw [he.files]
    exact h.files

theorem exited (h : s.Sound ps) (hc : c ∈ ps) (he : Exited s s' c) : s'.Sound ps := by
  refine ⟨?_, ?_, he.fine h.fine, fun q hq => Nat.lt_of_lt_of_le (h.fresh q hq) he.fresh⟩
  · rw [he.mms]
    exact h.mms.leave hc
  · rw [he.files]
    exact h.files.leave hc

end Kernel.Sound

/-- What a call that succeeds has done. -/
theorem CallStep.cases {call : Call} (h : CallStep al s c call s') (hfine : s.Fine) (hc : s.Running c) :
    (¬ call.LeavesMm ∧ ¬ call.LeavesFiles ∧ ∃ p, Forked s s' c p) ∨
      (call.LeavesMm ∧ ¬ call.LeavesFiles ∧ ∃ m, Execed s s' c m) ∨ (call.LeavesMm ∧ call.LeavesFiles ∧ Exited s s' c) := by
  cases h with
  | @fork flags _ _ hrun =>
    have hpost := doFork_uses al flags hfine hc.live
    rw [hrun] at hpost
    exact Or.inl ⟨id, id, hpost⟩
  | @execve fuel e loaded _ hrun =>
    have hpost := doExecve_uses (c := c) al fuel e hfine
    rw [hrun] at hpost
    exact Or.inr (Or.inl ⟨trivial, id, hpost loaded rfl⟩)
  | @exit fuel code _ hrun =>
    have hpost := doExit_uses al fuel code hc
    rw [hrun] at hpost
    exact Or.inr (Or.inr ⟨trivial, trivial, hpost⟩)

theorem Kernel.Sound.step (h : s.Sound s.procs) (hstep : KernStep al s s') : s'.Sound s'.procs := by
  obtain ⟨c, call, ⟨hc, hlive⟩, hcall⟩ := hstep
  have hsame : ∀ {s' : Kernel}, s'.table.procList = s.table.procList → s'.table.idleproc = s.table.idleproc → s'.procs = s.procs := by
    intro s' hlist hidle
    rw [Kernel.procs, hlist, hidle]
    rfl
  rcases hcall.cases h.fine (h.running hc hlive) with ⟨-, -, p, hf⟩ | ⟨-, -, m, he⟩ | ⟨-, -, he⟩
  · have hprocs : s'.procs = p :: s.procs := by
      rw [Kernel.procs, hf.procList, hf.idleproc]
      rfl
    rw [hprocs]
    exact h.forked hc hf
  · rw [hsame he.states.procList he.states.idleproc]
    exact h.execed hc he
  · rw [hsame he.ended.procList he.ended.idleproc]
    exact h.exited hc he

/-! ### The first processes -/

theorem Kernel.Bare.sound (h : s.Bare) : s.Sound [] := by
  have hmms : ∀ m, ¬ s.mmRefs.made m := fun m hm => List.not_mem_nil (h.mms ▸ hm : m ∈ [])
  have hfiles : ∀ t, ¬ s.filesRefs.made t := fun t ht => List.not_mem_nil (h.structs ▸ ht : t ∈ [])
  refine ⟨⟨List.nodup_nil, nofun, fun m hm => (hmms m hm).elim, fun m hm => (hmms m hm).elim, fun m _ => ?_⟩,
    ⟨List.nodup_nil, nofun, fun t ht => (hfiles t ht).elim, fun t ht => (hfiles t ht).elim, fun t _ => ?_⟩,
    ⟨⟨?_, ?_⟩, fun m hm => (hmms m hm).elim, fun t ht => (hfiles t ht).elim⟩, nofun⟩
  · exact congrFun h.mmDestroys m
  · exact congrFun h.destroys t
  · rw [h.exitMmaps, h.mmDestroys]
  · rw [h.putPgdirs, h.mmDestroys]

theorem Kernel.Sound.becomes {mms files : Refs ℕ ℕ} (h : s.Sound ps) (hs : Becomes s s' mms files) (hmms : mms.Counted ps)
    (hfiles : files.Counted ps) : s'.Sound ps := by
  refine ⟨?_, ?_, hs.fine h.fine, fun q hq => Nat.lt_of_lt_of_le (h.fresh q hq) hs.fresh⟩
  · rwa [hs.mms]
  · rwa [hs.files]

/-- Which process is `idleproc` or `initproc` does not matter. -/
theorem Kernel.Sound.withTable (h : s.Sound ps) {t : ProcTable} (hproc : t.proc = s.table.proc) :
    Kernel.Sound { s with table := t } ps := by
  have hfiles : Kernel.filesRefs { s with table := t } = s.filesRefs := by
    refine Refs.ext (funext fun q => ?_) rfl rfl rfl
    show (if (t.proc q).state = .zombie then _ else _) = if (s.table.proc q).state = .zombie then _ else _
    rw [hproc]
  refine ⟨h.mms, ?_, ⟨h.fine.balanced, h.fine.mms, h.fine.structs⟩, h.fresh⟩
  rw [hfiles]
  exact h.files

/-- So far there is only `idleproc`, which is not in `proc_list`. -/
structure Kernel.OnlyIdle (s : Kernel) (idle : ℕ) : Prop where
  sound : s.Sound [idle]
  live : (s.table.proc idle).state ≠ .zombie
  procList : s.table.procList = []

namespace Kernel.OnlyIdle

variable {idle t : ℕ}

theorem becomes {mms files : Refs ℕ ℕ} (h : s.OnlyIdle idle) (hs : Becomes s s' mms files) (hmms : mms.Counted [idle])
    (hfiles : files.Counted [idle]) : s'.OnlyIdle idle :=
  ⟨h.sound.becomes hs hmms hfiles, fun hz => h.live ((hs.states.zombie idle).mp hz), hs.states.procList.trans h.procList⟩

theorem same (h : s.OnlyIdle idle) (hs : SameUses s s') : s'.OnlyIdle idle := h.becomes hs h.sound.mms h.sound.files

theorem entered (h : s.Bare) (he : Entered s s' idle) : s'.OnlyIdle idle := by
  have hsound := h.sound
  refine ⟨⟨?_, ?_, he.fine hsound.fine, fun q hq => ?_⟩, fun hz => ((he.zombie idle).mp hz).1 rfl, he.procList.trans h.procList⟩
  · rw [he.mms]
    exact hsound.mms.clear List.not_mem_nil
  · rw [he.files]
    exact hsound.files.clear List.not_mem_nil
  · rw [List.mem_singleton.mp hq]
    exact he.fresh

theorem runnable (h : s.OnlyIdle idle) :
    SameUses s { s with table := s.table.setProc idle fun d => { d with pid := 0, state := .runnable } } := by
  refine sameUses_table ⟨rfl, rfl, fun q => ?_⟩
  rw [ProcTable.proc_setProc]
  split_ifs with hq
  · rw [hq]
    exact iff_of_false nofun h.live
  · exact Iff.rfl

/-- `idleproc` gets a table of open files. -/
theorem opened (h : s.OnlyIdle idle) (hnone : s.filesRefs.holds idle = none) (hnew : s.vm.freshBlock ≤ t)
    (hs : Becomes s s₁ s.mmRefs (s.filesRefs.create t)) :
    Kernel.OnlyIdle
      { s₁ with
        fd := { s₁.fd with filesCount := Function.update s₁.fd.filesCount t (s₁.fd.filesCount t + 1) }
        filesp := Function.update s₁.filesp idle (some t) } idle := by
  have hlive : (s₁.table.proc idle).state ≠ .zombie := fun hz => h.live ((hs.states.zombie idle).mp hz)
  have hjoin := filesJoin_uses hlive t
  rw [hs.mms, hs.files, Refs.join_create] at hjoin
  refine h.becomes (hs.trans hjoin) h.sound.mms (h.sound.files.make List.mem_cons_self hnone fun hmade => ?_)
  exact Nat.not_lt.mpr hnew (h.sound.fine.structs t hmade)

/-- `idleproc` makes `initproc`. -/
theorem forked (h : s.OnlyIdle idle) (hidle : s.table.idleproc = idle) :
    ((doFork al idle cloneVm >>= fun pid => onTable (Prog.modify fun t => { t with initproc := t.findProc pid })).run s).Post
      (fun _ s' => s'.Sound s'.procs) (fun _ _ => True) fun _ => True := by
  refine Outcome.post_bind.mpr ((doFork_uses al cloneVm h.sound.fine h.live).mono ?_ (fun _ _ _ => trivial) fun _ _ => trivial)
  rintro pid s₁ ⟨p, hf⟩
  have hprocs : s₁.procs = p :: [idle] := by
    rw [Kernel.procs, hf.procList, hf.idleproc, h.procList, hidle]
    rfl
  show Kernel.Sound { s₁ with table := { s₁.table with initproc := s₁.table.findProc pid } } s₁.procs
  rw [hprocs]
  exact (h.sound.forked List.mem_cons_self hf).withTable rfl

end Kernel.OnlyIdle

/-- **`proc_init`** makes `idleproc` and `initproc`. -/
theorem Booted.sound (h : Booted al s) : s.Sound s.procs := by
  obtain ⟨bare, hbare, hrun⟩ := h
  suffices hpost : ((procInit al).run bare).Post (fun _ s' => s'.Sound s'.procs) (fun _ _ => True) fun _ => True by
    rw [hrun] at hpost
    exact hpost
  refine Outcome.post_bind.mpr ((allocProc_uses al bare).mono (fun r s₁ he => ?_) (fun _ _ hf => hf.elim) fun _ hf => hf.elim)
  cases r with
  | none => exact trivial
  | some idle =>
    have he := he idle rfl
    have h₁ : s₁.OnlyIdle idle := .entered hbare he
    obtain ⟨s₂, hs₂⟩ : ∃ s₂ : Kernel,
      s₂ = { s₁ with table := s₁.table.setProc idle fun d => { d with pid := 0, state := .runnable } } := ⟨_, rfl⟩
    have hset : (onTable (setProc idle fun d => { d with pid := 0, state := .runnable })).run s₁ = .ok () s₂ := by
      rw [hs₂]
      rfl
    have hsame : SameUses s₁ s₂ := hs₂ ▸ h₁.runnable
    have hnone : s₂.filesRefs.holds idle = none := by
      rw [hsame.files, he.files]
      exact Function.update_self _ _ _
    dsimp only
    rw [Prog.bind_of_ok hset]
    refine Outcome.post_bind.mpr ((filesCreate_uses al s₂).mono (fun r s₃ h₃ => ?_) (fun _ _ hf => hf.elim) fun _ hf => hf.elim)
    cases r with
    | none => exact trivial
    | some t =>
      obtain ⟨hnew, hcreate⟩ := h₃ t rfl
      have h₄ := (h₁.same hsame).opened hnone hnew hcreate
      have h₅ := h₄.sound.withTable (t := { s₃.table with idleproc := idle, nrProcess := s₃.table.nrProcess + 1 }) rfl
      have hall : Kernel.OnlyIdle _ idle := ⟨h₅, h₄.live, h₄.procList⟩
      exact hall.forked rfl

/-! ### The counts -/

/-- How many processes have the address space. -/
def Kernel.mmUsers (s : Kernel) (m : ℕ) : ℕ := s.procs.countP fun p => s.mm p = some m

/-- How many processes that have not exited have the table of open files. -/
def Kernel.filesUsers (s : Kernel) (t : ℕ) : ℕ := s.procs.countP fun p => (s.table.proc p).state ≠ .zombie ∧ s.filesp p = some t

/-- The counts are numbers of processes, and what has no user has been freed, once. -/
structure Kernel.SharedCounts (s : Kernel) : Prop where
  nodup : s.procs.Nodup
  mmMade : ∀ p ∈ s.procs, ∀ m, s.mm p = some m → m ∈ s.vm.mms
  mmCount : ∀ m ∈ s.vm.mms, (s.vm.mm m).mmCount = s.mmUsers m
  filesMade : ∀ p ∈ s.procs, (s.table.proc p).state ≠ .zombie → ∀ t, s.filesp p = some t → t ∈ s.filesStructs
  filesCount : ∀ t ∈ s.filesStructs, s.fd.filesCount t = s.filesUsers t
  exitMmaps : ∀ m ∈ s.vm.mms, s.vm.exitMmaps m = if s.mmUsers m = 0 then 1 else 0
  putPgdirs : ∀ m ∈ s.vm.mms, s.vm.putPgdirs m = if s.mmUsers m = 0 then 1 else 0
  mmDestroys : ∀ m ∈ s.vm.mms, s.vm.mmDestroys m = if s.mmUsers m = 0 then 1 else 0
  filesDestroys : ∀ t ∈ s.filesStructs, s.filesDestroys t = if s.filesUsers t = 0 then 1 else 0

/-- What the call of the process `c` has freed: the objects of which `c` was the last user, if the call gives them up. -/
structure Released (s s' : Kernel) (c : ℕ) (call : Call) : Prop where
  exitMmaps : ∀ m, s'.vm.exitMmaps m = s.vm.exitMmaps m + if call.LeavesMm ∧ s.mm c = some m ∧ s.mmUsers m = 1 then 1 else 0
  putPgdirs : ∀ m, s'.vm.putPgdirs m = s.vm.putPgdirs m + if call.LeavesMm ∧ s.mm c = some m ∧ s.mmUsers m = 1 then 1 else 0
  mmDestroys : ∀ m, s'.vm.mmDestroys m = s.vm.mmDestroys m + if call.LeavesMm ∧ s.mm c = some m ∧ s.mmUsers m = 1 then 1 else 0
  filesDestroys : ∀ t, s'.filesDestroys t =
    s.filesDestroys t + if call.LeavesFiles ∧ s.filesp c = some t ∧ s.filesUsers t = 1 then 1 else 0

theorem Kernel.filesUsers_eq (s : Kernel) (t : ℕ) : s.filesUsers t = s.filesRefs.users s.procs t := by
  refine List.countP_congr fun p _ => ?_
  rw [decide_eq_true_iff, decide_eq_true_iff]
  show _ ↔ (if (s.table.proc p).state = .zombie then none else s.filesp p) = some t
  split_ifs with hz
  · exact iff_of_false (fun h => h.1 hz) nofun
  · exact and_iff_right hz

theorem Kernel.Sound.counts (h : s.Sound s.procs) : s.SharedCounts := by
  have hdrops : ∀ m ∈ s.vm.mms, s.vm.mmDestroys m = if s.mmUsers m = 0 then 1 else 0 := h.mms.drops
  refine ⟨h.mms.nodup, h.mms.made, h.mms.count, fun p hp hlive t ht => ?_, fun t ht => ?_, fun m hm => ?_, fun m hm => ?_, hdrops,
    fun t ht => ?_⟩
  · exact h.files.made p hp t ((if_neg hlive).trans ht)
  · rw [s.filesUsers_eq]
    exact Int.ofNat.inj (h.files.count t ht)
  · rw [h.fine.balanced.1]
    exact hdrops m hm
  · rw [h.fine.balanced.2]
    exact hdrops m hm
  · rw [s.filesUsers_eq]
    exact h.files.drops t ht

/-- **The last user frees the object**, and nobody else does. -/
theorem CallStep.released {call : Call} (hstep : CallStep al s c call s') (h : s.Sound s.procs) (hc : s.CanCall c) :
    Released s s' c call := by
  obtain ⟨hmem, hlive⟩ := hc
  have hcases := hstep.cases h.fine (h.running hmem hlive)
  have hleave : ∀ m, (s.mmRefs.leave c).drops m = s.vm.mmDestroys m + if s.mm c = some m ∧ s.mmUsers m = 1 then 1 else 0 :=
    h.mms.drops_leave hmem
  have hholds : s.filesRefs.holds c = s.filesp c := if_neg hlive
  have hfine : s'.Fine := by
    rcases hcases with ⟨-, -, p, hf⟩ | ⟨-, -, m, he⟩ | ⟨-, -, he⟩
    · exact hf.fine h.fine
    · exact he.fine h.fine
    · exact he.fine h.fine
  have hmms : ∀ m, s'.vm.mmDestroys m = s.vm.mmDestroys m + if call.LeavesMm ∧ s.mm c = some m ∧ s.mmUsers m = 1 then 1 else 0 := by
    intro m
    rcases hcases with ⟨hnot, -, p, hf⟩ | ⟨hleaves, -, m', he⟩ | ⟨hleaves, -, he⟩
    · rw [if_neg fun hand => hnot hand.1]
      exact congrFun hf.mms.drops m
    · simp only [hleaves, true_and]
      rw [← hleave m]
      exact congrFun (congrArg Refs.drops he.mms) m
    · simp only [hleaves, true_and]
      rw [← hleave m]
      exact congrFun (congrArg Refs.drops he.mms) m
  refine ⟨fun m => ?_, fun m => ?_, hmms, fun t => ?_⟩
  · rw [hfine.balanced.1, h.fine.balanced.1]
    exact hmms m
  · rw [hfine.balanced.2, h.fine.balanced.2]
    exact hmms m
  · rcases hcases with ⟨-, hnot, p, hf⟩ | ⟨-, hnot, m', he⟩ | ⟨-, hleaves, he⟩
    · rw [if_neg fun hand => hnot hand.1]
      exact congrFun hf.files.drops t
    · rw [if_neg fun hand => hnot hand.1]
      exact congrFun (congrArg Refs.drops he.files) t
    · simp only [hleaves, true_and]
      rw [← hholds, s.filesUsers_eq]
      exact (congrFun (congrArg Refs.drops he.files) t).trans (h.files.drops_leave hmem t)

/-- **Shared objects are counted.** In every run of forks, new programs and exits, by any processes in any order, the counts are the
numbers of users, each object is freed once, by the call that takes away its last user, and no assertion on `mm_count` fails. -/
theorem shared_objects_counted (al : Allocs) (hboot : Booted al s₀) (hrun : ReflTransGen (KernStep al) s₀ s) :
    s.SharedCounts ∧ ∀ c, s.CanCall c →
      (∀ call s', CallStep al s c call s' → Released s s' c call) ∧
      (∀ flags, ((doFork al c flags).run s).PanicsIn KernSafe) ∧
      (∀ fuel e, ((doExecve al fuel c e).run s).PanicsIn KernSafe) ∧
      ∀ fuel code, ((doExit al fuel c code).run s).PanicsIn KernSafe := by
  have h : s.Sound s.procs := invariant_of_step (fun s => s.Sound s.procs) hrun hboot.sound fun _ _ => Kernel.Sound.step
  refine ⟨h.counts, fun c hc => ⟨fun call s' hcall => hcall.released h hc, fun flags => ?_, fun fuel e => ?_, fun fuel code => ?_⟩⟩
  · exact (doFork_uses al flags h.fine hc.2).mono (fun _ _ _ => trivial) (fun _ _ _ => trivial) fun _ hp => hp
  · exact (doExecve_uses al fuel e h.fine).mono (fun _ _ _ => trivial) (fun _ _ _ => trivial) fun _ hp => hp
  · exact doExit_safe al fuel c code s

/-- A kernel without processes, with the free pages `free`. -/
def Kernel.bare (free : List ℕ) : Kernel where
  table := ⟨fun _ => ⟨.uninit, 0, none, 0, 0, none, none, none⟩, [], fun _ => [], 0, .init, 0, none⟩
  vm := .start 0 free
  fd := ⟨fun _ => ⟨.none, 0, 0, 0⟩, fun _ => 0, [], 0, fun _ => 0, fun _ => 0, 0, fun _ => 0⟩
  mm := fun _ => none
  filesp := fun _ => none
  kstack := fun _ => 0
  filesStructs := []
  filesDestroys := fun _ => 0

/-- `initproc`, which is the block 3, makes a thread that shares its table, and the thread exits. -/
def threadRun : KernProg Unit := do
  procInit .firstFit
  let s ← Prog.get
  Prog.assert (s.CanCall 3) .noFiles
  let _ ← doFork .firstFit 3 (cloneVm ||| cloneFs)
  let s ← Prog.get
  Prog.assert (s.CanCall 5) .noFiles
  doExit .firstFit 0 5 7

theorem shared_objects_counted_thread :
    ∃ s₀ s, Booted .firstFit s₀ ∧ ReflTransGen (KernStep .firstFit) s₀ s ∧ s.SharedCounts ∧ s.fd.filesCount 4 = 1 := by
  obtain ⟨s, hrun, hcount⟩ := Outcome.of_observe (r := threadRun.run (.bare [1, 2, 3, 4])) (f := fun s => s.fd.filesCount 4) (a := ())
    (b := 1) (by decide +kernel)
  obtain ⟨_, s₀, hboot, hrun⟩ := Prog.bind_eq_ok.mp hrun
  obtain ⟨hc₀, hrun⟩ := Prog.assert_bind_eq_ok.mp (Prog.get_bind_eq_ok.mp hrun)
  obtain ⟨pid, s₁, hfork, hrun⟩ := Prog.bind_eq_ok.mp hrun
  obtain ⟨hc₁, hexit⟩ := Prog.assert_bind_eq_ok.mp (Prog.get_bind_eq_ok.mp hrun)
  have hbooted : Booted .firstFit s₀ := ⟨_, ⟨rfl, rfl, rfl, rfl, rfl, rfl, rfl⟩, hboot⟩
  have hsteps : ReflTransGen (KernStep .firstFit) s₀ s :=
    (ReflTransGen.single ⟨3, _, hc₀, .fork hfork⟩).tail ⟨5, _, hc₁, .exit hexit⟩
  exact ⟨s₀, s, hbooted, hsteps, (shared_objects_counted .firstFit hbooted hsteps).1, hcount⟩

end Ucore.Kern
