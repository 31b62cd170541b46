import Ucore.Process.CallFrames

/-!
# What a call changes of the shared objects

The parts of `do_exit`, `do_fork` and `do_execve` that give back an object or get one.

* `mmRelease_uses` and `putFs_uses` give back, and `doExit_uses` does both.
* `copyFs_uses` and `copyMm_uses` get: the object of the parent, or a new one. `doFork_uses` is the whole.
* `loadIcode_uses` makes an address space for a process that has none, and `doExecve_uses` starts a program.
* `Exited`, `Forked` and `Execed` are what the calls do when they succeed. Whatever comes of them, no assertion on `mm_count` fails.
-/

namespace Ucore.Kern

open Ucore.Lib Ucore.Process Ucore.Vm Ucore.Fs Ucore.Fs.Fd

variable {s s₁ s' : Kernel} {mms files mms' files' : Refs ℕ ℕ} {c p : ℕ} {α : Type}

/-! ### Objects that are given back -/

/-- **The end of an address space for a process**: with the last one, it is cleaned up. -/
theorem mmRelease_uses (al : Allocs) (c : ℕ) (s : Kernel) : ((mmRelease al c).run s).Post
    (fun _ s' => Becomes s s' (s.mmRefs.leave c) s.filesRefs) (fun _ _ => True) KernSafe := by
  unfold mmRelease
  rw [Prog.run_bind, Prog.run_get, Outcome.andThen_ok]
  have hholds : s.mmRefs.holds c = s.mm c := rfl
  cases hmm : s.mm c with
  | none =>
    rw [hmm] at hholds
    rw [Refs.leave_of_none hholds]
    exact Std.Refl.refl (r := SameUses) s
  | some m =>
    rw [hmm] at hholds
    rw [Refs.leave_of_some hholds]
    let vm₁ := s.vm.setMm m fun d => { d with mmCount := d.mmCount - 1 }
    have hcounts : vm₁.counts = Function.update s.vm.counts m (s.vm.counts m - 1) := counts_setMm s.vm m _
    have hdec : (onVm (mmCountDec m)).run s = .ok (vm₁.counts m) { s with vm := vm₁ } := rfl
    rw [Prog.bind_of_ok hdec, hcounts, Function.update_self]
    have hfine : s.Fine → vm₁.Balanced := fun hs => hs.balanced
    show Outcome.Post _ _ _ (Prog.run (_ >>= _) _)
    by_cases hlast : s.vm.counts m - 1 = 0
    · rw [if_pos hlast]
      have hzero : vm₁.counts m = 0 := by
        rw [hcounts, Function.update_self, hlast]
      refine onVm_then (cleanupMm_cleaned al hzero) fun _ vm' h => ?_
      refine ⟨Std.Refl.refl _, Refs.ext rfl (h.counts.trans hcounts) ?_ ?_, rfl, fun hs => ⟨h.balanced (hfine hs), ?_, ?_⟩, h.fresh⟩
      · funext m'
        exact congrArg (m' ∈ ·) h.mms
      · exact h.mmDestroys.trans (if_pos hlast).symm
      · intro m' hm'
        have hmem : m' ∈ vm'.mms := hm'
        rw [h.mms] at hmem
        exact Nat.lt_of_lt_of_le (hs.mms m' hmem) h.fresh
      · exact fun t ht => Nat.lt_of_lt_of_le (hs.structs t ht) h.fresh
    · rw [if_neg hlast]
      refine ⟨Std.Refl.refl _, Refs.ext rfl hcounts rfl ?_, rfl, fun hs => ⟨hfine hs, hs.mms, hs.structs⟩, Nat.le_refl _⟩
      exact (if_neg hlast).symm

theorem filesDestroy_uses (t : ℕ) (s : Kernel) : ((filesDestroy t).run s).Post
    (fun _ s' => Becomes s s' s.mmRefs { s.filesRefs with drops := Function.update s.filesDestroys t (s.filesDestroys t + 1) })
    (fun _ _ => True) KernSafe := by
  refine (keepsUses_onFd (keepsFilesCount_filesDestroy t)).then_post ?_
  intro _ s₁ h₁
  refine (keepsUses_kfree t).then_post ?_
  intro _ s₂ h₂
  have h : SameUses s s₂ := h₁.same h₂
  have hfiles := h.files
  have hdrops : s₂.filesDestroys = s.filesDestroys := congrArg Refs.drops hfiles
  refine ⟨h.states, h.mms, ?_, fun hs => ⟨(h.fine hs).balanced, (h.fine hs).mms, (h.fine hs).structs⟩, h.fresh⟩
  rw [← hfiles, ← hdrops]
  rfl

/-- `put_fs` on behalf of a process that is about to exit. -/
theorem putFs_uses (hc : s.Running c) : ((putFs c).run s).Post
    (fun _ s' => Becomes s s' s.mmRefs { s.filesRefs.leave c with holds := s.filesRefs.holds }) (fun _ _ => True) KernSafe := by
  unfold putFs
  rw [Prog.run_bind, Prog.run_get, Outcome.andThen_ok]
  have hholds : s.filesRefs.holds c = s.filesp c := if_neg hc.live
  cases hfiles : s.filesp c with
  | none =>
    rw [hfiles] at hholds
    rw [Refs.leave_of_none hholds]
    exact Std.Refl.refl (r := SameUses) s
  | some t =>
    rw [hfiles] at hholds
    rw [Refs.leave_of_some hholds]
    let fd₁ : FdWorld := { s.fd with filesCount := Function.update s.fd.filesCount t (s.fd.filesCount t - 1) }
    have hdec : (filesCountDec t).run s = .ok (fd₁.filesCount t) { s with fd := fd₁ } := rfl
    have hself : fd₁.filesCount t = s.fd.filesCount t - 1 := Function.update_self _ _ _
    have hpos := hc.count t hfiles
    have hlast : s.fd.filesCount t - 1 = 0 ↔ s.filesRefs.count t - 1 = 0 := by
      show _ ↔ (s.fd.filesCount t : ℤ) - 1 = 0
      omega
    have hcounts : Kernel.filesRefs { s with fd := fd₁ } =
        { s.filesRefs with count := Function.update s.filesRefs.count t (s.filesRefs.count t - 1) } := by
      refine Refs.ext rfl (funext fun t' => ?_) rfl rfl
      show ((Function.update s.fd.filesCount t (s.fd.filesCount t - 1) t' : ℕ) : ℤ) =
        Function.update s.filesRefs.count t (s.filesRefs.count t - 1) t'
      rw [Function.update_apply, Function.update_apply]
      split_ifs
      · exact Int.natCast_pred_of_pos hpos
      · rfl
    have hstep : Becomes s { s with fd := fd₁ } s.mmRefs
        { s.filesRefs with count := Function.update s.filesRefs.count t (s.filesRefs.count t - 1) } :=
      ⟨Std.Refl.refl _, rfl, hcounts, fun hs => ⟨hs.balanced, hs.mms, hs.structs⟩, Nat.le_refl _⟩
    dsimp only
    rw [Prog.bind_of_ok hdec, hself]
    by_cases hzero : s.fd.filesCount t - 1 = 0
    · rw [if_pos hzero, if_pos (hlast.mp hzero)]
      refine (filesDestroy_uses t _).mono (fun _ s' h => ?_) (fun _ _ _ => trivial) fun _ h => h
      have hall := hstep.trans h
      rwa [hcounts] at hall
    · rw [if_neg hzero, if_neg fun h => hzero (hlast.mpr h)]
      exact hstep

/-- The process has exited. -/
structure Exited (s s' : Kernel) (c : ℕ) : Prop where
  ended : Ended s.table s'.table c
  mms : s'.mmRefs = s.mmRefs.leave c
  files : s'.filesRefs = s.filesRefs.leave c
  fine : s.Fine → s'.Fine
  fresh : s.vm.freshBlock ≤ s'.vm.freshBlock

/-- **`do_exit`** gives back the address space and the table. -/
theorem doExit_uses (al : Allocs) (fuel : ℕ) (code : ℤ) (hc : s.Running c) :
    ((doExit al fuel c code).run s).Post (fun _ s' => Exited s s' c) (fun _ _ => True) KernSafe := by
  rw [doExit, Prog.run_bind, Prog.run_get, Outcome.andThen_ok, Prog.run_ite, Prog.run_ite]
  split_ifs
  · exact kernSafe_table _
  · exact kernSafe_table _
  · refine (mmRelease_uses al c s).bind fun _ s₁ h₁ => ?_
    refine (putFs_uses (hc.congr h₁.states h₁.files)).bind fun _ s₂ h₂ => ?_
    have hended := doExit_ended fuel c code s₂.table
    refine Outcome.post_embed.mpr (hended.mono (fun _ t' h => ?_) (fun _ _ _ => trivial) fun e _ => kernSafe_table e)
    have hall := h₁.trans h₂
    have hlist := h.procList.trans hall.states.procList
    refine ⟨⟨hlist, h.idleproc.trans hall.states.idleproc, fun p => ?_⟩, ?_, ?_, fun hs => ?_, hall.fresh⟩
    · rw [h.zombie p, hall.states.zombie p]
    · exact hall.mms.trans h₁.mms
    · have hfiles := h₂.files
      rw [h₁.files] at hfiles
      have hcounts : s₂.filesRefs.count = (s.filesRefs.leave c).count := by rw [hfiles]
      have hmade : s₂.filesRefs.made = (s.filesRefs.leave c).made := by rw [hfiles]
      have hdrops : s₂.filesRefs.drops = (s.filesRefs.leave c).drops := by rw [hfiles]
      refine Refs.ext (funext fun p => ?_) hcounts hmade hdrops
      have hp : (if (s₂.table.proc p).state = .zombie then none else s₂.filesp p) =
          if (s.table.proc p).state = .zombie then none else s.filesp p := congrFun (congrArg Refs.holds hfiles) p
      rw [Refs.holds_leave]
      show (if (t'.proc p).state = .zombie then none else s₂.filesp p) =
        Function.update s.filesRefs.holds c none p
      rw [Function.update_apply]
      by_cases hpc : p = c
      · rw [if_pos hpc, if_pos ((h.zombie p).mpr (Or.inl hpc))]
      · rw [if_neg hpc]
        have hz : (t'.proc p).state = .zombie ↔ (s₂.table.proc p).state = .zombie := (h.zombie p).trans (or_iff_right hpc)
        simp only [hz]
        exact hp
    · have hfine := hall.fine hs
      exact ⟨hfine.balanced, hfine.mms, hfine.structs⟩

/-- `do_exit` fails at no assertion on `mm_count`, whoever calls it. -/
theorem doExit_safe (al : Allocs) (fuel c : ℕ) (code : ℤ) (s : Kernel) : ((doExit al fuel c code).run s).PanicsIn KernSafe := by
  rw [doExit, Prog.run_bind, Prog.run_get, Outcome.andThen_ok, Prog.run_ite, Prog.run_ite]
  split_ifs
  · exact kernSafe_table _
  · exact kernSafe_table _
  · refine (mmRelease_uses al c s).bind fun _ s₁ _ => Outcome.Post.bind (Q := fun _ _ => True) ?_ fun _ s₂ _ => ?_
    · unfold putFs
      rw [Prog.run_bind, Prog.run_get, Outcome.andThen_ok]
      cases s₁.filesp c with
      | none => exact trivial
      | some t =>
        have hdec : ∃ n s₂, (filesCountDec t).run s₁ = .ok n s₂ := ⟨_, _, rfl⟩
        obtain ⟨n, s₂, hdec⟩ := hdec
        dsimp only
        rw [Prog.bind_of_ok hdec, Prog.run_ite]
        split_ifs
        · exact (filesDestroy_uses t s₂).mono (fun _ _ _ => trivial) (fun _ _ _ => trivial) fun _ h => h
        · exact trivial
    · exact Outcome.post_embed.mpr ((doExit_ended fuel c code s₂.table).mono (fun _ _ _ => trivial) (fun _ _ _ => trivial)
        fun e _ => kernSafe_table e)

/-! ### Objects that a new process gets -/

/-- A process is being made, and has no object yet. -/
structure Entered (s s' : Kernel) (p : ℕ) : Prop where
  new : p = s.vm.freshBlock
  fresh : p < s'.vm.freshBlock
  procList : s'.table.procList = s.table.procList
  idleproc : s'.table.idleproc = s.table.idleproc
  zombie : ∀ q, (s'.table.proc q).state = .zombie ↔ q ≠ p ∧ (s.table.proc q).state = .zombie
  mms : s'.mmRefs = s.mmRefs.clear p
  files : s'.filesRefs = s.filesRefs.clear p
  fine : s.Fine → s'.Fine

theorem Entered.same (h : Entered s s₁ p) (h' : SameUses s₁ s') : Entered s s' p :=
  ⟨h.new, Nat.lt_of_lt_of_le h.fresh h'.fresh, h'.states.procList.trans h.procList, h'.states.idleproc.trans h.idleproc,
    fun q => (h'.states.zombie q).trans (h.zombie q), h'.mms.trans h.mms, h'.files.trans h.files, fun hs => h'.fine (h.fine hs)⟩

theorem allocProc_uses (al : Allocs) (s : Kernel) : ((allocProc al).run s).Post
    (fun r s' => ∀ p, r = some p → Entered s s' p) (fun _ _ => False) fun _ => False := by
  refine Outcome.post_bind.mpr (Outcome.post_embed.mpr ((kmalloc_fresh al s.vm).mono ?_ (fun _ _ h => h) fun _ h => h))
  rintro r vm ⟨hsame, hr⟩
  cases r with
  | none => exact nofun
  | some p =>
    obtain ⟨hp, hfresh⟩ := hr p rfl
    have huses : SameUses s { s with vm := vm } := sameUses_vm hsame
    rintro _ ⟨rfl⟩
    have hzombie : ∀ q, ((s.table.setProc p Process.allocProc).proc q).state = .zombie ↔
        q ≠ p ∧ (s.table.proc q).state = .zombie := by
      intro q
      rw [ProcTable.proc_setProc]
      by_cases hq : q = p
      · rw [if_pos hq]
        exact iff_of_false nofun fun h => h.1 hq
      · rw [if_neg hq]
        exact (and_iff_right hq).symm
    have hmade : (fun m => m ∈ vm.mms) = fun m => m ∈ s.vm.mms := by rw [hsame.mms]
    refine ⟨hp, Nat.lt_of_lt_of_eq (Nat.lt_succ_self p) hfresh.symm, rfl, rfl, hzombie, Refs.ext rfl hsame.counts hmade hsame.mmDestroys,
      Refs.ext (funext fun q => ?_) rfl rfl rfl, fun hs => ?_⟩
    · show (if ((s.table.setProc p Process.allocProc).proc q).state = .zombie then none else Function.update s.filesp p none q) =
        Function.update s.filesRefs.holds p none q
      by_cases hq : q = p
      · rw [hq, Function.update_self, Function.update_self, ite_self]
      · have hz : ((s.table.setProc p Process.allocProc).proc q).state = .zombie ↔ (s.table.proc q).state = .zombie :=
          (hzombie q).trans (and_iff_right hq)
        rw [Function.update_of_ne hq, Function.update_of_ne hq]
        simp only [hz]
        rfl
    · have hfine := huses.fine hs
      exact ⟨hfine.balanced, hfine.mms, hfine.structs⟩

/-- A process that is being made gets a table, which has one user more. -/
theorem filesJoin_uses (hp : (s.table.proc p).state ≠ .zombie) (t : ℕ) :
    Becomes s
      { s with
        fd := { s.fd with filesCount := Function.update s.fd.filesCount t (s.fd.filesCount t + 1) }
        filesp := Function.update s.filesp p (some t) }
      s.mmRefs (s.filesRefs.join p t) := by
  refine ⟨Std.Refl.refl _, rfl, Refs.ext (funext fun q => ?_) (funext fun t' => ?_) rfl rfl,
    fun hs => ⟨hs.balanced, hs.mms, hs.structs⟩, Nat.le_refl _⟩
  · show (if (s.table.proc q).state = .zombie then none else Function.update s.filesp p (some t) q) =
      Function.update s.filesRefs.holds p (some t) q
    simp only [Function.update_apply]
    by_cases hq : q = p
    · rw [if_pos hq, if_pos hq, hq, if_neg hp]
    · rw [if_neg hq, if_neg hq]
      rfl
  · show ((Function.update s.fd.filesCount t (s.fd.filesCount t + 1) t' : ℕ) : ℤ) =
      Function.update s.filesRefs.count t (s.filesRefs.count t + 1) t'
    rw [Function.update_apply, Function.update_apply]
    split_ifs
    · exact Nat.cast_succ _
    · rfl

theorem filesCreate_uses (al : Allocs) (s : Kernel) : ((filesCreate al).run s).Post
    (fun r s' => ∀ t, r = some t → s.vm.freshBlock ≤ t ∧ Becomes s s' s.mmRefs (s.filesRefs.create t)) (fun _ _ => False)
    fun _ => False := by
  refine Outcome.post_bind.mpr (Outcome.post_embed.mpr ((kmalloc_fresh al s.vm).mono ?_ (fun _ _ h => h) fun _ h => h))
  rintro r vm ⟨hsame, hr⟩
  cases r with
  | none => exact nofun
  | some t =>
    obtain ⟨ht, hfresh⟩ := hr t rfl
    have huses : SameUses s { s with vm := vm } := sameUses_vm hsame
    rintro _ ⟨rfl⟩
    refine ⟨Nat.le_of_eq ht.symm, Std.Refl.refl _, huses.mms, Refs.ext rfl (funext fun t' => ?_) (funext fun t' => ?_) rfl,
      fun hs => ?_, hsame.fresh⟩
    · show ((Function.update s.fd.filesCount t 0 t' : ℕ) : ℤ) = Function.update s.filesRefs.count t 0 t'
      rw [Function.update_apply, Function.update_apply]
      split_ifs <;> rfl
    · exact propext List.mem_cons
    · have hfine := huses.fine hs
      refine ⟨hfine.balanced, hfine.mms, fun t' ht' => ?_⟩
      show t' < vm.freshBlock
      rcases List.mem_cons.mp ht' with rfl | ht'
      · rw [hfresh]
        exact Nat.lt_succ_self _
      · exact hfine.structs t' ht'

/-- **`copy_fs`**: the table of the parent, or a new one. -/
theorem copyFs_uses (al : Allocs) (flags : BitVec 32) (hfine : s.Fine) (hc : (s.table.proc c).state ≠ .zombie)
    (hp : (s.table.proc p).state ≠ .zombie) : ((copyFs al c flags p).run s).Post
      (fun _ s' => ∃ files, Refs.Gets s.filesRefs files c p ∧ Becomes s s' s.mmRefs files) (fun _ _ => True) KernSafe := by
  unfold copyFs
  have hholds : s.filesRefs.holds c = s.filesp c := if_neg hc
  cases hold : s.filesp c with
  | none =>
    rw [Prog.bind_of_panic (currentFiles_stop hold)]
    exact kernSafe_noFiles
  | some old =>
    rw [hold] at hholds
    rw [Prog.bind_of_ok (currentFiles_run hold)]
    by_cases hshare : flags &&& cloneFs ≠ 0
    · rw [if_pos hshare]
      exact ⟨_, Or.inr (Or.inl ⟨old, hholds, rfl⟩), filesJoin_uses hp old⟩
    · rw [if_neg hshare, Prog.bind_assoc]
      refine Outcome.post_bind.mpr ((filesCreate_uses al s).mono (fun r s₁ h₁ => ?_) (fun _ _ hf => hf.elim) fun _ hf => hf.elim)
      cases r with
      | none => exact trivial
      | some t =>
        obtain ⟨hnew, h₁⟩ := h₁ t rfl
        dsimp only
        rw [Prog.bind_assoc]
        refine (keepsUses_onFd (keepsFilesCount_of_tables (keepsTables_dupFs t old))).attempt.then_post ?_
        intro r s₂ h₂
        cases r with
        | error e => exact Outcome.Post.bind ((filesDestroy_uses t s₂).bind fun _ _ _ => trivial) fun _ _ h => h
        | ok u =>
          have h := h₁.same h₂
          have hjoin := filesJoin_uses (fun hz => hp ((h.states.zombie p).mp hz)) t
          rw [h.mms, h.files, Refs.join_create] at hjoin
          exact ⟨_, Or.inr (Or.inr ⟨t, fun hmade => Nat.not_lt.mpr hnew (hfine.structs t hmade), rfl⟩), h.trans hjoin⟩

/-- A process gets an address space, which has one user more. -/
theorem mmJoin_uses {m : ℕ} {vm : VmState} (h : SameCounts (s.vm.setMm m fun d => { d with mmCount := d.mmCount + 1 }) vm) :
    Becomes s { s with vm := vm, mm := Function.update s.mm p (some m) } (s.mmRefs.join p m) s.filesRefs := by
  have hcounts : vm.counts = Function.update s.vm.counts m (s.vm.counts m + 1) := h.counts.trans (counts_setMm s.vm m _)
  have hmms : vm.mms = s.vm.mms := h.mms
  have hmade : (fun m' => m' ∈ vm.mms) = fun m' => m' ∈ s.vm.mms := by rw [hmms]
  refine ⟨Std.Refl.refl _, Refs.ext rfl hcounts hmade h.mmDestroys, rfl, fun hs => ⟨h.balanced hs.balanced, fun m' hm' => ?_,
    fun t ht => Nat.lt_of_lt_of_le (hs.structs t ht) h.fresh⟩, h.fresh⟩
  exact Nat.lt_of_lt_of_le (hs.mms m' ((congrFun hmade m').mp hm')) h.fresh

/-- **`copy_mm`**: the address space of the parent, or a new one, or none. -/
theorem copyMm_uses (al : Allocs) (flags : BitVec 32) (hfine : s.Fine) : ((copyMm al c flags p).run s).Post
    (fun _ s' => ∃ mms, Refs.Gets s.mmRefs mms c p ∧ Becomes s s' mms s.filesRefs) (fun _ _ => True) KernSafe := by
  unfold copyMm
  rw [Prog.run_bind, Prog.run_get, Outcome.andThen_ok]
  have hholds : s.mmRefs.holds c = s.mm c := rfl
  cases hold : s.mm c with
  | none =>
    rw [hold] at hholds
    exact ⟨_, Or.inl ⟨hholds, rfl⟩, Std.Refl.refl (r := SameUses) s⟩
  | some old =>
    rw [hold] at hholds
    show Outcome.Post _ _ _ (Prog.run (_ >>= _) _)
    by_cases hshare : flags &&& cloneVm ≠ 0
    · rw [if_pos hshare]
      exact ⟨_, Or.inr (Or.inl ⟨old, hholds, rfl⟩), mmJoin_uses (Std.Refl.refl _)⟩
    · rw [if_neg hshare]
      refine onVm_then (copyMm_made al old s.vm) fun m vm h => ?_
      have hmade : (fun m' => m' ∈ vm.mms) = fun m' => m' = m ∨ m' ∈ s.vm.mms := by
        funext m'
        rw [h.mms]
        exact propext List.mem_cons
      refine ⟨_, Or.inr (Or.inr ⟨m, fun hm => Nat.not_lt.mpr h.old (hfine.mms m hm), rfl⟩), Std.Refl.refl _,
        Refs.ext rfl h.counts hmade h.mmDestroys, rfl, fun hs => ⟨h.balanced hs.balanced, fun m' hm' => ?_, fun t ht => ?_⟩, ?_⟩
      · rcases (congrFun hmade m').mp hm' with rfl | hm'
        · exact h.fresh
        · exact Nat.lt_trans (hs.mms m' hm') (Nat.lt_of_le_of_lt h.old h.fresh)
      · exact Nat.lt_trans (hs.structs t ht) (Nat.lt_of_le_of_lt h.old h.fresh)
      · exact Nat.le_of_lt (Nat.lt_of_le_of_lt h.old h.fresh)

/-- The process `c` has made the process `p`. -/
structure Forked (s s' : Kernel) (c p : ℕ) : Prop where
  new : p = s.vm.freshBlock
  fresh : p < s'.vm.freshBlock
  procList : s'.table.procList = p :: s.table.procList
  idleproc : s'.table.idleproc = s.table.idleproc
  zombie : ∀ q, (s'.table.proc q).state = .zombie ↔ q ≠ p ∧ (s.table.proc q).state = .zombie
  mms : Refs.Gets (s.mmRefs.clear p) s'.mmRefs c p
  files : Refs.Gets (s.filesRefs.clear p) s'.filesRefs c p
  fine : s.Fine → s'.Fine

/-- The part behind `setup_kstack`. -/
theorem forkBuild_uses (al : Allocs) (flags : BitVec 32) (hent : Entered s s₁ p) (hfine : s₁.Fine)
    (hc : (s₁.table.proc c).state ≠ .zombie) :
    ((forkBuild al c p flags).run s₁).Post (fun _ s' => Forked s s' c p) (fun _ _ => True) KernSafe := by
  have hfree : ∀ s₅, ((do onVm (kfree p); Prog.throw (.vm .noMem) : KernProg ℤ).run s₅).Post (fun _ s' => Forked s s' c p)
      (fun _ _ => True) KernSafe := fun s₅ => ((keepsUses_kfree p).panicsIn s₅).then_throw
  have hput : ∀ s₅, ((do putKstack p; onVm (kfree p); Prog.throw (.vm .noMem) : KernProg ℤ).run s₅).Post
      (fun _ s' => Forked s s' c p) (fun _ _ => True) KernSafe := fun _ => (keepsUses_putKstack p).then_post fun _ s₆ _ => hfree s₆
  unfold forkBuild
  refine (keepsUses_setupKstack al p).attempt.then_post ?_
  intro r s₂ h₂
  cases r with
  | error e => exact hfree s₂
  | ok u =>
    have hent := hent.same h₂
    have hp : (s₂.table.proc p).state ≠ .zombie := fun hz => ((hent.zombie p).mp hz).1 rfl
    have hc' : (s₂.table.proc c).state ≠ .zombie := fun hz => hc ((h₂.states.zombie c).mp hz)
    refine Outcome.post_bind.mpr (Outcome.post_attempt.mpr ((copyFs_uses al flags (h₂.fine hfine) hc' hp).mono ?_
      (fun _ s₃ _ => hput s₃) fun _ h => h))
    rintro _ s₃ ⟨files, hgets, h₃⟩
    refine Outcome.post_bind.mpr (Outcome.post_attempt.mpr ((copyMm_uses al flags (h₃.fine (h₂.fine hfine))).mono ?_
      (fun _ s₄ _ => hput s₄) fun _ h => h))
    rintro _ s₄ ⟨mms, hgets', h₄⟩
    have hstarted := forkLinks_started p s₄.table
    refine Outcome.post_embed.mpr (hstarted.mono (fun _ t' h => ?_) (fun _ _ _ => trivial) fun e _ => kernSafe_table e)
    have hall := h₃.trans h₄
    have hfiles : Kernel.filesRefs { s₄ with table := t' } = s₄.filesRefs := by
      refine Refs.ext (funext fun q => ?_) rfl rfl rfl
      show (if (t'.proc q).state = .zombie then _ else _) = if (s₄.table.proc q).state = .zombie then _ else _
      simp only [h.zombie q]
    refine ⟨hent.new, Nat.lt_of_lt_of_le hent.fresh hall.fresh, ?_, ?_, fun q => ?_, ?_, ?_, fun hs => ?_⟩
    · rw [h.procList, hall.states.procList, hent.procList]
    · rw [h.idleproc, hall.states.idleproc, hent.idleproc]
    · exact (h.zombie q).trans ((hall.states.zombie q).trans (hent.zombie q))
    · show Refs.Gets (s.mmRefs.clear p) s₄.mmRefs c p
      rw [h₄.mms, ← hent.mms, ← h₃.mms]
      exact hgets'
    · rw [hfiles, hall.files, ← hent.files, h₃.files]
      exact hgets
    · have hfine := hall.fine (hent.fine hs)
      exact ⟨hfine.balanced, hfine.mms, hfine.structs⟩

/-- **`do_fork`** gives the child an address space and a table. -/
theorem doFork_uses (al : Allocs) (flags : BitVec 32) (hfine : s.Fine) (hc : (s.table.proc c).state ≠ .zombie) :
    ((doFork al c flags).run s).Post (fun _ s' => ∃ p, Forked s s' c p) (fun _ _ => True) KernSafe := by
  rw [doFork, Prog.run_bind, Prog.run_get, Outcome.andThen_ok, Prog.run_ite]
  split_ifs
  · exact trivial
  refine Outcome.post_bind.mpr ((allocProc_uses al s).mono (fun r s₁ h₁ => ?_) (fun _ _ hf => hf.elim) fun _ hf => hf.elim)
  cases r with
  | none => exact trivial
  | some p =>
    have hparent : KeepsUses (onTable (setProc p fun d => { d with parent := some c })) :=
      keepsUses_onTable (keepsStates_setProc p fun _ => Iff.rfl)
    refine hparent.then_post ?_
    intro _ s₂ h₂
    rw [Prog.run_bind, Prog.run_get, Outcome.andThen_ok]
    have hassert : KeepsUses (Prog.assert ((s₂.table.proc c).waitState = 0) (.table .waitState)) :=
      Within.assert _ (kernSafe_table _)
    refine hassert.then_post ?_
    intro _ s₃ h₃
    have hent : Entered s s₃ p := ((h₁ p rfl).same h₂).same h₃
    have hc' : (s₃.table.proc c).state ≠ .zombie := fun hz => hc ((hent.zombie c).mp hz).2
    exact (forkBuild_uses al flags hent (hent.fine hfine) hc').mono (fun _ _ h => ⟨p, h⟩) (fun _ _ h => h) fun _ h => h

/-! ### A new program -/

/-- The process has left its address space, and has the new one `m`. -/
structure Execed (s s' : Kernel) (c m : ℕ) : Prop where
  states : SameStates s.table s'.table
  new : ¬ s.mmRefs.made m
  mms : s'.mmRefs = (s.mmRefs.leave c).make c m
  files : s'.filesRefs = s.filesRefs
  fine : s.Fine → s'.Fine
  fresh : s.vm.freshBlock ≤ s'.vm.freshBlock

theorem mmCreate_uses (al : Allocs) (s : Kernel) : ((onVm (mmCreate al)).run s).Post
    (fun r s' => ∀ m, r = some m → s.vm.freshBlock ≤ m ∧ Becomes s s' (s.mmRefs.create m) s.filesRefs) (fun _ _ => False)
    fun _ => False := by
  refine Outcome.post_embed.mpr ((mmCreate_made al s.vm).mono (fun r vm h m hm => ?_) (fun _ _ h => h) fun _ h => h)
  have h := h m hm
  have hmade : (fun m' => m' ∈ vm.mms) = fun m' => m' = m ∨ m' ∈ s.vm.mms := by
    funext m'
    rw [h.mms]
    exact propext List.mem_cons
  refine ⟨h.old, Std.Refl.refl _, Refs.ext rfl h.counts hmade h.mmDestroys, rfl,
    fun hs => ⟨h.balanced hs.balanced, fun m' hm' => ?_, fun t ht => ?_⟩, ?_⟩
  · rcases (congrFun hmade m').mp hm' with rfl | hm'
    · exact h.fresh
    · exact Nat.lt_trans (hs.mms m' hm') (Nat.lt_of_le_of_lt h.old h.fresh)
  · exact Nat.lt_trans (hs.structs t ht) (Nat.lt_of_le_of_lt h.old h.fresh)
  · exact Nat.le_of_lt (Nat.lt_of_le_of_lt h.old h.fresh)

/-- **`load_icode`** makes an address space for the process. -/
theorem loadIcode_uses (al : Allocs) (c t : ℕ) (fd : ℤ) (file : ExecFile) (args : List (List UInt8)) (s : Kernel) :
    ((loadIcode al c t fd file args).run s).Post
      (fun _ s' => ∃ m, s.vm.freshBlock ≤ m ∧ Becomes s s' (s.mmRefs.make c m) s.filesRefs) (fun _ _ => True) KernSafe := by
  unfold loadIcode
  rw [Prog.run_bind, Prog.run_get, Outcome.andThen_ok]
  have hassert : KeepsUses (Prog.assert (s.mm c = none) .mmNotEmpty) := Within.assert _ ⟨nofun, nofun⟩
  refine hassert.then_post ?_
  intro _ s₁ h₁
  refine Outcome.post_bind.mpr ((mmCreate_uses al s₁).mono (fun r s₂ h₂ => ?_) (fun _ _ hf => hf.elim) fun _ hf => hf.elim)
  cases r with
  | none => exact trivial
  | some m =>
    obtain ⟨hnew, h₂⟩ := h₂ m rfl
    have hmade : Becomes s s₂ (s.mmRefs.create m) s.filesRefs := by
      have hall := h₁.trans h₂
      rwa [h₁.mms, h₁.files] at hall
    -- as long as there is no user, the clean-up fails at no assertion
    have hzero : ∀ {s₃}, Becomes s s₃ (s.mmRefs.create m) s.filesRefs → s₃.vm.counts m = 0 := by
      intro s₃ h₃
      have hcounts : s₃.vm.counts = Function.update s.vm.counts m 0 := congrArg Refs.count h₃.mms
      rw [hcounts, Function.update_self]
    have hdestroy : ∀ {s₃ : Kernel}, s₃.vm.counts m = 0 → ((onVm (mmDestroy m)).run s₃).PanicsIn KernSafe := fun hcount =>
      Outcome.post_embed.mpr ((mmDestroy_same hcount).mono (fun _ _ _ => trivial) (fun _ _ _ => trivial) fun _ => CountSafe.kern)
    have hcleanup : ∀ {s₃ : Kernel}, s₃.vm.counts m = 0 → ((onVm (cleanupMm al m)).run s₃).PanicsIn KernSafe := fun hcount =>
      Outcome.post_embed.mpr ((cleanupMm_cleaned al hcount).mono (fun _ _ _ => trivial) (fun _ _ _ => trivial) fun _ => CountSafe.kern)
    refine (keepsUses_onVm (keepsCounts_setupPgdir al m)).attempt.then_post ?_
    intro r s₃ h₃
    have hmade := hmade.same h₃
    cases r with
    | error e => exact (hdestroy (hzero hmade)).then_throw
    | ok u =>
      refine (keepsUses_onVm (keepsCounts_readElfHdr al file)).attempt.then_post ?_
      intro r s₄ h₄
      have hmade := hmade.same h₄
      cases r with
      | error e =>
        refine onVm_then (putPgdir_same m s₄.vm) fun _ vm h => (hdestroy ?_).then_throw
        exact (congrFun h.counts m).trans (hzero hmade)
      | ok elf =>
        refine (keepsUses_onVm (keepsCounts_loadSegments al file m elf _)).attempt.then_post ?_
        intro r s₅ h₅
        have hmade := hmade.same h₅
        cases r with
        | error e => exact (hcleanup (hzero hmade)).then_throw
        | ok u =>
          have hclose : KeepsUses (onFd (Fd.fileClose t fd)) := keepsUses_onFd (keepsFilesCount_fileClose t fd)
          refine hclose.attempt.then_post ?_
          intro _ s₆ h₆
          have hmade := hmade.same h₆
          have hstack : KeepsCounts (mmMap al m (ustackTop - ustackSize) ustackSize (vmRead ||| vmWrite ||| vmStack)) :=
            keepsCounts_mmMap al m _ _ _
          refine (keepsUses_onVm hstack).attempt.then_post ?_
          intro r s₇ h₇
          have hmade := hmade.same h₇
          cases r with
          | error e => exact (hcleanup (hzero hmade)).then_throw
          | ok u =>
            refine onVm_then (finishLoad_same al m elf args s₇.vm) fun loaded vm h => ?_
            have hall := hmade.trans (mmJoin_uses (p := c) h)
            rw [hmade.mms, hmade.files, Refs.join_create] at hall
            exact ⟨m, Nat.le_trans h₁.fresh hnew, hall⟩

/-- **`do_execve`** that returns to the process. -/
theorem doExecve_uses (al : Allocs) (fuel : ℕ) (e : ExecCall) (hfine : s.Fine) : ((doExecve al fuel c e).run s).Post
    (fun r s' => ∀ loaded, r = .running loaded → ∃ m, Execed s s' c m) (fun _ _ => True) KernSafe := by
  rw [doExecve, Prog.run_bind, Prog.run_get, Outcome.andThen_ok, Prog.run_ite]
  split_ifs
  swap
  · exact trivial
  have hexit : ∀ kargv err s₁, ((execveExit al fuel c kargv err).run s₁).Post
      (fun r s' => ∀ loaded, r = .running loaded → ∃ m, Execed s s' c m) (fun _ _ => True) KernSafe := by
    intro kargv err s₁
    refine (keepsUses_onVm (keepsCounts_putKargv kargv.reverse)).then_post ?_
    intro _ s₂ _
    exact (doExit_safe al fuel c _ s₂).bind fun _ s₃ _ => nofun
  refine Within.then_post (?_ : KeepsUses _) ?_
  · cases e.name with
    | none => exact Within.pure _
    | some name =>
      exact Within.bind (keepsUses_onVm (keepsCounts_copyString _ _ _ _ _)) fun _ => Within.ite (Within.pure _) (Within.throw _)
  intro _ s₁ h₁
  refine (keepsUses_onVm (keepsCounts_copyKargv al _ _ _ _ _)).then_post ?_
  intro kargv s₂ h₂
  refine (keepsUses_currentFiles c).then_post ?_
  intro t s₃ h₃
  refine (keepsUses_onFd (keepsFilesCount_filesCloseall t)).then_post ?_
  intro _ s₄ h₄
  refine (keepsUses_sysfileOpen al c t _ e).attempt.then_post ?_
  intro r s₅ h₅
  cases r with
  | error err => exact hexit kargv err s₅
  | ok fd =>
    have hsame : SameUses s s₅ := (((h₁.same h₂).same h₃).same h₄).same h₅
    refine (mmRelease_uses al c s₅).bind fun _ s₆ h₆ => ?_
    have hleft := Becomes.trans hsame h₆
    refine Outcome.post_bind.mpr (Outcome.post_attempt.mpr ((loadIcode_uses al c t fd e.file _ s₆).mono ?_ ?_ fun _ h => h))
    · rintro loaded s₇ ⟨m, hm, h₇⟩
      refine (keepsUses_onVm (keepsCounts_putKargv kargv.reverse)).then_post ?_
      intro _ s₈ h₈
      have hall := (hleft.trans h₇).same h₈
      rintro _ -
      refine ⟨m, hall.states, fun hmade => ?_, ?_, ?_, hall.fine, hall.fresh⟩
      · exact Nat.not_lt.mpr hm (Nat.lt_of_lt_of_le (hfine.mms m hmade) hleft.fresh)
      · rw [hall.mms, h₆.mms, hsame.mms]
      · rw [hall.files, h₆.files, hsame.files]
    · exact fun err s₇ _ => hexit kargv err s₇

end Ucore.Kern
