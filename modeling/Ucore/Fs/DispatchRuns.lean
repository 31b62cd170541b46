import Ucore.Fs.VopDispatch

/-!
# Calls that find their operations

When a call of `sysfile.c` ends at the assertion of `__vop_op`, and when it does not.

* `VfsPanic.Other` are the panics of other assertions. For each function, `…_other` says when its panics are of this
  kind, `vfileOpen_other` for the whole of `file_open`.
* `SameFds` is kept by all calls but `open`, `close` and `dup`; `FdsOk`, that no directory is open for writing, is kept
  by all calls (`FdsOk.call`), so it holds in every state that a process reaches (`VfsReach.fdsOk`).
* `dispatched_iff` puts them together: in a reachable state, a call finds all its operations if and only if
  `VfsCall.Dispatches`. `VfsImpl.Returns` are operations that do not panic; with them the call returns.
-/

namespace Ucore.Fs

open Ucore.Lib Relation

variable {π σ ν α : Type}

/-! ### Operations -/

/-- The panic is another one than that of `__vop_op`. -/
def VfsPanic.Other (p : VfsPanic π) : Prop := ∀ op, p ≠ .vop op

section dispatched

variable {impl : VfsImpl π σ ν} {w : VfsState σ ν}

/-- The panics inside an operation are others. -/
theorem onFs_other (m : Prog π FsError σ α) : ((onFs m : VfsProg π σ ν α).run w).PanicsIn VfsPanic.Other := by
  rw [onFs, Prog.zoom]
  simp only
  cases m.run w.fs with
  | ok a fs => trivial
  | error e fs => trivial
  | panic p =>
    intro op heq
    cases heq

/-- **An operation is called**: it has to be in the table. -/
theorem vopOp_other {op : Vop} {node : ν} {m : Prog π FsError σ α} :
    ((vopOp impl op node m).run w).PanicsIn VfsPanic.Other ↔ (impl.ops node).has op = true := by
  rw [vopOp, Outcome.panicsIn_bind]
  by_cases hop : (impl.ops node).has op = true
  · rw [Prog.run_assert_of _ _ hop]
    exact ⟨fun _ => hop, fun _ => ⟨trivial, fun _ _ _ => onFs_other m⟩⟩
  · rw [Prog.run_assert_of_not _ _ hop]
    exact ⟨fun h => absurd rfl (h.1 op), fun h => absurd h hop⟩

theorem onFs_eq_ok {m : Prog π FsError σ α} {a : α} {w' : VfsState σ ν} :
    (onFs m : VfsProg π σ ν α).run w = .ok a w' ↔ ∃ fs, m.run w.fs = .ok a fs ∧ w' = { w with fs := fs } := by
  rw [onFs, Prog.zoom]
  simp only
  cases m.run w.fs with
  | ok b fs =>
    constructor
    · rintro ⟨⟩
      exact ⟨fs, rfl, rfl⟩
    · rintro ⟨_, ⟨⟩, rfl⟩
      rfl
  | error e fs => simp
  | panic p => simp

theorem vopOp_eq_ok {op : Vop} {node : ν} {m : Prog π FsError σ α} {a : α} {w' : VfsState σ ν} :
    (vopOp impl op node m).run w = .ok a w' ↔
      (impl.ops node).has op = true ∧ ∃ fs, m.run w.fs = .ok a fs ∧ w' = { w with fs := fs } := by
  rw [vopOp, Prog.assert_bind_eq_ok, onFs_eq_ok]

/-- An operation in the table fails with its own error. -/
theorem vopOp_of_error {op : Vop} {node : ν} {m : Prog π FsError σ α} {e : FsError} {fs : σ}
    (hop : (impl.ops node).has op = true) (h : m.run w.fs = .error e fs) :
    (vopOp impl op node m).run w = .error e { w with fs := fs } := by
  rw [vopOp, Prog.bind_of_ok (Prog.run_assert_of _ _ hop), onFs, Prog.zoom]
  simp only [h]

/-- All tables have `vop_fstat`. -/
theorem vopFstat_other (node : ν) : ((vopFstat impl node).run w).PanicsIn VfsPanic.Other := by
  rw [vopFstat, vopOp_other]
  cases impl.ops node <;> rfl

/-! ### Opening -/

/-- A lookup starts where there is `vop_lookup`. -/
theorem vfsLookupOp_other (path : CString) : ((vfsLookupOp impl path).run w).PanicsIn VfsPanic.Other := by
  rw [vfsLookupOp, Outcome.panicsIn_bind]
  refine ⟨onFs_other _, ?_⟩
  rintro ⟨node, subpath⟩ w' hstart
  obtain ⟨fs, hdevice, rfl⟩ := onFs_eq_ok.mp hstart
  have hnode := impl.start_ops _ _ _ _ _ hdevice
  simp only
  split_ifs
  · rw [vopOp_other]
    cases hops : impl.ops node with
    | dirops => rfl
    | fileops => exact absurd hops hnode
    | devops => rfl
  · trivial

/-- No table has `vop_create`: the directory of a path that is to be created must not be found. -/
theorem vfsOpenNode_other {path : CString} {flags : BitVec 32} {r : Except FsError ν} :
    ((vfsOpenNode impl path flags r).run w).PanicsIn VfsPanic.Other ↔
      (r = .error .noEnt → flags &&& oCreat ≠ 0 →
        ∀ dir fs, (impl.getDevice (pathLeft path)).run w.fs ≠ .ok dir fs) := by
  cases r with
  | ok node =>
    rw [vfsOpenNode, Prog.run_ite]
    constructor
    · rintro - ⟨⟩
    · intro _
      split_ifs <;> trivial
  | error e =>
    rw [vfsOpenNode]
    by_cases hcreate : e = .noEnt ∧ flags &&& oCreat ≠ 0
    · rw [if_pos hcreate, Outcome.panicsIn_bind]
      constructor
      · rintro ⟨-, hdir⟩ - - dir fs hdevice
        have hpanic := hdir dir { w with fs := fs } (onFs_eq_ok.mpr ⟨fs, hdevice, rfl⟩)
        rw [vopOp_other] at hpanic
        cases hops : impl.ops dir.1 <;> rw [hops] at hpanic <;> cases hpanic
      · intro hnone
        refine ⟨onFs_other _, fun dir w' hdevice => ?_⟩
        obtain ⟨fs, hrun, -⟩ := onFs_eq_ok.mp hdevice
        exact absurd hrun (hnone (by rw [hcreate.1]) hcreate.2 dir fs)
    · rw [if_neg hcreate]
      refine ⟨fun _ heq hflag => absurd ⟨?_, hflag⟩ hcreate, fun _ => trivial⟩
      cases heq
      rfl

/-- All tables have `vop_open`. -/
theorem vopOpen_other (node : ν) (flags : BitVec 32) : ((vopOpen impl node flags).run w).PanicsIn VfsPanic.Other := by
  rw [vopOpen, vopOp_other]
  cases impl.ops node <;> rfl

theorem sfsOpendir_run (flags : BitVec 32) (s : σ) :
    (sfsOpendir flags : Prog π FsError σ Unit).run s =
      if flags &&& oAccmode = 0 ∧ flags &&& oAppend = 0 then .ok () s else .error .isDir s := by
  rw [sfsOpendir, Prog.run_ite, Prog.run_ite]
  by_cases hacc : flags &&& oAccmode = 0
  · by_cases happ : flags &&& oAppend = 0
    · rw [if_neg (fun h => h hacc), if_neg (fun h => h happ), if_pos ⟨hacc, happ⟩]
      rfl
    · rw [if_neg (fun h => h hacc), if_pos happ, if_neg (fun h => happ h.2)]
      rfl
  · rw [if_pos hacc, if_neg (fun h => hacc h.1)]
    rfl

/-- A directory is opened for reading only, and not for appending. -/
theorem vopOpen_dirops {node : ν} {flags : BitVec 32} (hops : impl.ops node = .dirops) {w' : VfsState σ ν} :
    (vopOpen impl node flags).run w = .ok () w' ↔
      (flags &&& oAccmode = 0 ∧ flags &&& oAppend = 0) ∧ w' = w := by
  rw [vopOpen, vopOp_eq_ok, hops]
  simp only [sfsOpendir_run]
  split_ifs with hflags
  · constructor
    · rintro ⟨-, fs, ⟨⟩, rfl⟩
      exact ⟨hflags, rfl⟩
    · rintro ⟨-, rfl⟩
      exact ⟨rfl, _, rfl, rfl⟩
  · constructor
    · rintro ⟨-, fs, ⟨⟩, -⟩
    · rintro ⟨hok, -⟩
      exact absurd hok hflags

/-- A device is opened without `O_CREAT` and `O_TRUNC`. -/
theorem vopOpen_devops {node : ν} {flags : BitVec 32} (hops : impl.ops node = .devops) {w' : VfsState σ ν}
    (h : (vopOpen impl node flags).run w = .ok () w') : flags &&& oCreat = 0 ∧ flags &&& oTrunc = 0 := by
  rw [vopOpen, vopOp_eq_ok, hops] at h
  obtain ⟨-, fs, hrun, -⟩ := h
  simp only [devOpen] at hrun
  split_ifs at hrun with hflags
  · cases hrun
  · have hzero : flags &&& (oCreat ||| oTrunc ||| oExcl ||| oAppend) = 0 := not_not.mp hflags
    constructor
    · have := congrArg (· &&& oCreat) hzero
      simpa [BitVec.and_assoc, oCreat, oTrunc, oExcl, oAppend] using this
    · have := congrArg (· &&& oTrunc) hzero
      simpa [BitVec.and_assoc, oCreat, oTrunc, oExcl, oAppend] using this

/-- What is opened can be truncated, except for a directory. -/
theorem vfsOpenTruncate_other {node : ν} {flags : BitVec 32} {w' : VfsState σ ν}
    (h : (vopOpen impl node flags).run w = .ok () w') :
    ((vfsOpenTruncate impl node flags).run w').PanicsIn VfsPanic.Other ↔
      (impl.ops node = .dirops → flags &&& oTrunc = 0 ∧ flags &&& oCreat = 0) := by
  rw [vfsOpenTruncate, Prog.run_ite]
  by_cases hflags : flags &&& oTrunc ≠ 0 ∨ flags &&& oCreat ≠ 0
  · rw [if_pos hflags, vopOp_other]
    cases hops : impl.ops node with
    | dirops =>
      constructor
      · intro hhas
        cases hhas
      · intro hnot
        obtain ⟨htrunc, hcreat⟩ := hnot rfl
        exact absurd hflags (by simp [htrunc, hcreat])
    | fileops => exact ⟨fun _ heq => absurd heq (by decide), fun _ => rfl⟩
    | devops =>
      obtain ⟨hcreat, htrunc⟩ := vopOpen_devops hops h
      exact absurd hflags (by simp [htrunc, hcreat])
  · rw [if_neg hflags]
    push Not at hflags
    exact ⟨fun _ _ => hflags, fun _ => trivial⟩

/-- `O_RDONLY` is not for writing. -/
theorem accmode_rdonly {flags : BitVec 32} {canRead canWrite : Bool}
    (hmode : accmode flags = some (canRead, canWrite)) (hacc : flags &&& oAccmode = 0) : canWrite = false := by
  rw [accmode, hacc] at hmode
  cases hmode
  rfl

/-- Only a node that was found is opened. -/
theorem vfsOpenNode_eq_ok {path : CString} {flags : BitVec 32} {r : Except FsError ν} {node : ν} {w' : VfsState σ ν} :
    (vfsOpenNode impl path flags r).run w = .ok node w' ↔
      (r = .ok node ∧ w' = w) ∧ (flags &&& oExcl = 0 ∨ flags &&& oCreat = 0) := by
  cases r with
  | ok found =>
    rw [vfsOpenNode, Prog.run_ite]
    by_cases hexcl : flags &&& oExcl ≠ 0 ∧ flags &&& oCreat ≠ 0
    · rw [if_pos hexcl]
      constructor
      · rintro ⟨⟩
      · rintro ⟨-, hzero⟩
        exact (hzero.elim hexcl.1 hexcl.2).elim
    · rw [if_neg hexcl]
      rw [not_and_or, not_not, not_not] at hexcl
      constructor
      · rintro ⟨⟩
        exact ⟨⟨rfl, rfl⟩, hexcl⟩
      · rintro ⟨⟨⟨⟩, rfl⟩, -⟩
        rfl
  | error e =>
    rw [vfsOpenNode]
    constructor
    · intro h
      split_ifs at h
      · obtain ⟨dir, w₁, -, hcreate⟩ := Prog.bind_eq_ok.mp h
        obtain ⟨hhas, -⟩ := vopOp_eq_ok.mp hcreate
        cases hops : impl.ops dir.1 <;> rw [hops] at hhas <;> cases hhas
      · cases h
    · rintro ⟨⟨⟨⟩, -⟩, -⟩

/-- What is done with a path that has been found, or not. -/
theorem vfsOpenRest_other (impl : VfsImpl π σ ν) (path : CString) {flags : BitVec 32} (r : Except FsError ν)
    (htrunc : flags &&& oAccmode = 0 → flags &&& oTrunc = 0) :
    ((do
      let node ← vfsOpenNode impl path flags r
      vopOpen impl node flags
      vfsOpenTruncate impl node flags
      pure node : VfsProg π σ ν ν).run w).PanicsIn VfsPanic.Other ↔
      (flags &&& oCreat ≠ 0 →
        (r = .error .noEnt → ∀ dir fs, (impl.getDevice (pathLeft path)).run w.fs ≠ .ok dir fs) ∧
        ∀ node, r = .ok node → impl.ops node = .dirops →
          flags &&& oExcl ≠ 0 ∨ flags &&& oAccmode ≠ 0 ∨ flags &&& oAppend ≠ 0) := by
  rw [Outcome.panicsIn_bind, vfsOpenNode_other]
  constructor
  · rintro ⟨hmissing, hfound⟩ hcreat
    refine ⟨fun heq => hmissing heq hcreat, ?_⟩
    rintro node rfl hops
    by_contra hnone
    push Not at hnone
    obtain ⟨hexcl, hacc, happ⟩ := hnone
    have hrest := hfound node w (vfsOpenNode_eq_ok.mpr ⟨⟨rfl, rfl⟩, .inl hexcl⟩)
    have hopened : (vopOpen impl node flags).run w = .ok () w := (vopOpen_dirops hops).mpr ⟨⟨hacc, happ⟩, rfl⟩
    rw [Outcome.panicsIn_bind] at hrest
    have htruncate := hrest.2 () w hopened
    rw [Outcome.panicsIn_bind, vfsOpenTruncate_other hopened] at htruncate
    exact hcreat (htruncate.1 hops).2
  · intro hflags
    refine ⟨fun heq hcreat => (hflags hcreat).1 heq, fun node w' hnode => ?_⟩
    obtain ⟨⟨hr, rfl⟩, hexcl⟩ := vfsOpenNode_eq_ok.mp hnode
    rw [Outcome.panicsIn_bind]
    refine ⟨vopOpen_other node flags, fun _ w'' hopened => ?_⟩
    rw [Outcome.panicsIn_bind, vfsOpenTruncate_other hopened]
    refine ⟨fun hops => ?_, fun _ _ _ => trivial⟩
    obtain ⟨⟨hacc, happ⟩, -⟩ := (vopOpen_dirops hops).mp hopened
    refine ⟨htrunc hacc, ?_⟩
    by_contra hcreat
    rcases (hflags hcreat).2 node hr hops with h | h | h
    · exact hexcl.elim h hcreat
    · exact h hacc
    · exact h happ

/-- **Opening a path.** -/
theorem vfsOpenPath_other {path : CString} {flags : BitVec 32} {canRead canWrite : Bool}
    (hmode : accmode flags = some (canRead, canWrite)) (htrunc : flags &&& oTrunc ≠ 0 → canWrite = true) :
    ((vfsOpenPath impl path flags).run w).PanicsIn VfsPanic.Other ↔
      (flags &&& oCreat ≠ 0 →
        (∀ w', (vfsLookupOp impl path).run w = .error .noEnt w' →
          ∀ dir fs, (impl.getDevice (pathLeft path)).run w'.fs ≠ .ok dir fs) ∧
        ∀ node w', (vfsLookupOp impl path).run w = .ok node w' → impl.ops node = .dirops →
          flags &&& oExcl ≠ 0 ∨ flags &&& oAccmode ≠ 0 ∨ flags &&& oAppend ≠ 0) := by
  have hrdonly : flags &&& oAccmode = 0 → flags &&& oTrunc = 0 := by
    intro hacc
    by_contra hne
    rw [htrunc hne] at hmode
    cases accmode_rdonly hmode hacc
  have hother : ((vfsLookupOp impl path).run w).PanicsIn VfsPanic.Other := vfsLookupOp_other path
  rw [vfsOpenPath, hmode]
  simp only
  rw [if_neg (fun h => by rw [htrunc h.1] at h; cases h.2), Outcome.panicsIn_bind, Outcome.panicsIn_attempt]
  simp only [hother, true_and, Prog.attempt]
  cases (vfsLookupOp impl path).run w with
  | ok node w₁ =>
    have hrest := vfsOpenRest_other impl (w := w₁) path (.ok node) hrdonly
    constructor
    · intro h hcreat
      have hgoes := hrest.mp (h _ _ rfl) hcreat
      refine ⟨fun _ h => by (cases h), ?_⟩
      rintro _ _ ⟨⟩
      exact hgoes.2 node rfl
    · rintro hflags _ _ ⟨⟩
      refine hrest.mpr fun hcreat => ⟨fun h => by (cases h), ?_⟩
      rintro _ ⟨⟩
      exact (hflags hcreat).2 node w₁ rfl
  | error e w₁ =>
    have hrest := vfsOpenRest_other impl (w := w₁) path (.error e) hrdonly
    constructor
    · intro h hcreat
      have hgoes := hrest.mp (h _ _ rfl) hcreat
      refine ⟨?_, fun _ _ h => by cases h⟩
      rintro _ ⟨⟩
      exact hgoes.1 rfl
    · rintro hflags _ _ ⟨⟩
      refine hrest.mpr fun hcreat => ⟨?_, fun _ h => by cases h⟩
      rintro ⟨⟩
      exact (hflags hcreat).1 w₁ rfl
  | panic p => simp

theorem vfdArrayAlloc_none_run :
    (vfdArrayAlloc none : VfsProg π σ ν ℕ).run w =
      match w.freeFd with
      | some fd => .ok fd w
      | none => .error .maxOpen w := by
  rw [vfdArrayAlloc, Prog.run_bind, Prog.run_get, Outcome.andThen_ok]
  cases w.freeFd <;> rfl

theorem openPos_other (node : ν) (flags : BitVec 32) : ((openPos impl node flags).run w).PanicsIn VfsPanic.Other := by
  rw [openPos, Prog.run_ite]
  split_ifs
  · rw [Outcome.panicsIn_bind]
    exact ⟨vopFstat_other node, fun _ _ _ => trivial⟩
  · trivial

/-- **Opening a file.** -/
theorem vfileOpen_other {path : CString} {flags : BitVec 32} :
    ((vfileOpen impl path flags).run w).PanicsIn VfsPanic.Other ↔ OpenDispatches impl w path flags := by
  unfold vfileOpen OpenDispatches
  cases hmode : accmode flags with
  | none =>
    refine ⟨fun _ hopens => ?_, fun _ => trivial⟩
    obtain ⟨⟨_, _, hsome, -⟩, -⟩ := hopens
    rw [hmode] at hsome
    cases hsome
  | some mode =>
    obtain ⟨canRead, canWrite⟩ := mode
    simp only
    rw [Prog.run_bind, vfdArrayAlloc_none_run]
    cases hfree : w.freeFd with
    | none =>
      refine ⟨fun _ hopens => ?_, fun _ => trivial⟩
      have := hopens.2
      rw [hfree] at this
      cases this
    | some fd =>
      rw [Outcome.andThen_ok, Outcome.panicsIn_bind]
      have hrest : ∀ node w', ((do
          let pos ← openPos impl node flags
          Prog.modify fun w => w.setFd fd (some ⟨canRead, canWrite, pos, node⟩)
          pure fd : VfsProg π σ ν ℕ).run w').PanicsIn VfsPanic.Other := by
        intro node w'
        rw [Outcome.panicsIn_bind]
        exact ⟨openPos_other node flags, fun _ _ _ => trivial⟩
      by_cases htrunc : flags &&& oTrunc ≠ 0 → canWrite = true
      · rw [vfsOpenPath_other hmode htrunc]
        have hopens : w.Opens flags := ⟨⟨canRead, canWrite, hmode, htrunc⟩, by rw [hfree]; rfl⟩
        exact ⟨fun h _ => h.1, fun h => ⟨h hopens, fun node w' _ => hrest node w'⟩⟩
      · constructor
        · rintro - ⟨⟨_, _, hsome, hok⟩, -⟩
          rw [hmode] at hsome
          cases hsome
          exact absurd hok htrunc
        · intro _
          rw [Classical.not_imp, Bool.not_eq_true] at htrunc
          rw [vfsOpenPath, hmode]
          simp only
          rw [if_pos htrunc]
          exact ⟨trivial, nofun⟩

/-! ### What calls leave of the table -/

/-- What the calls but `open`, `close` and `dup` do not change of an open file. -/
def OpenFile.access (f : OpenFile ν) : Bool × Bool × ν := (f.readable, f.writable, f.node)

/-- The same files are open, perhaps at other positions. -/
def SameFds (w w' : VfsState σ ν) : Prop :=
  ∀ fd, (w'.fdArray fd).map OpenFile.access = (w.fdArray fd).map OpenFile.access

theorem SameFds.refl (w : VfsState σ ν) : SameFds w w := fun _ => rfl

theorem SameFds.trans {w₁ w₂ w₃ : VfsState σ ν} (h₁ : SameFds w₁ w₂) (h₂ : SameFds w₂ w₃) : SameFds w₁ w₃ :=
  fun fd => (h₂ fd).trans (h₁ fd)

theorem SameFds.symm {w w' : VfsState σ ν} (h : SameFds w w') : SameFds w' w := fun fd => (h fd).symm

/-- A file that is open now was open before. -/
theorem SameFds.file {w w' : VfsState σ ν} (h : SameFds w w') {fd : ℤ} {f : OpenFile ν} (hf : w'.file fd = some f) :
    ∃ g, w.file fd = some g ∧ g.access = f.access := by
  unfold VfsState.file at hf ⊢
  split_ifs at hf ⊢ with hfd
  have hsame := h fd.toNat
  rw [hf, Option.map_some, eq_comm, Option.map_eq_some_iff] at hsame
  exact hsame

/-- A file stays open for the same, after an operation on the file system. -/
theorem SameFds.setFd {fd : ℤ} {f g : OpenFile ν} (hg : w.file fd = some g) (hfg : g.access = f.access) (fs : σ) :
    SameFds w (VfsState.setFd { w with fs := fs } fd.toNat (some f)) := by
  intro i
  unfold VfsState.file at hg
  split_ifs at hg
  by_cases hi : i = fd.toNat
  · subst hi
    rw [VfsState.setFd, hg]
    simp [hfg]
  · rw [VfsState.setFd]
    simp [Function.update_of_ne hi]

/-- The files that are open stay what they are. -/
def KeepsFds (m : VfsProg π σ ν α) : Prop := ∀ w, (m.run w).Post (fun _ => SameFds w) (fun _ => SameFds w) fun _ => True

theorem KeepsFds.pure (a : α) : KeepsFds (Pure.pure a : VfsProg π σ ν α) := SameFds.refl

theorem KeepsFds.throw (e : FsError) : KeepsFds (Prog.throw e : VfsProg π σ ν α) := SameFds.refl

theorem KeepsFds.get : KeepsFds (Prog.get : VfsProg π σ ν (VfsState σ ν)) := SameFds.refl

theorem KeepsFds.assert (c : Prop) [Decidable c] (p : VfsPanic π) : KeepsFds (Prog.assert c p : VfsProg π σ ν Unit) := by
  intro w
  rw [Prog.run_assert]
  split_ifs
  · exact SameFds.refl w
  · trivial

theorem KeepsFds.bind {β : Type} {m : VfsProg π σ ν α} {k : α → VfsProg π σ ν β} (hm : KeepsFds m)
    (hk : ∀ a, KeepsFds (k a)) : KeepsFds (m >>= k) := by
  intro w
  refine Outcome.Post.bind (hm w) fun a w' hsame => ?_
  exact (hk a w').mono (fun _ _ h => hsame.trans h) (fun _ _ h => hsame.trans h) fun _ h => h

theorem KeepsFds.attempt {m : VfsProg π σ ν α} (hm : KeepsFds m) : KeepsFds (Prog.attempt m) := by
  intro w
  have hrun := hm w
  rw [Prog.attempt]
  simp only
  revert hrun
  cases m.run w <;> exact id

theorem KeepsFds.onFs (m : Prog π FsError σ α) : KeepsFds (Fs.onFs m : VfsProg π σ ν α) := by
  intro w
  rw [Fs.onFs, Prog.zoom]
  simp only
  cases m.run w.fs with
  | ok a fs => exact SameFds.refl w
  | error e fs => exact SameFds.refl w
  | panic p => trivial

theorem KeepsFds.vopOp (op : Vop) (node : ν) (m : Prog π FsError σ α) : KeepsFds (Fs.vopOp impl op node m) :=
  .bind (.assert _ _) fun _ => .onFs m

theorem KeepsFds.vopFstat (node : ν) : KeepsFds (Fs.vopFstat impl node) := .vopOp _ _ _

theorem KeepsFds.vfdArrayAlloc (fd : Option ℤ) : KeepsFds (Fs.vfdArrayAlloc fd : VfsProg π σ ν ℕ) := by
  refine .bind .get fun w => ?_
  cases fd with
  | none => exact match w.freeFd with
    | some fd => .pure fd
    | none => .throw _
  | some fd =>
    simp only
    split_ifs
    · exact .pure _
    · exact .throw _
    · exact .throw _

theorem KeepsFds.vfd2file (fd : ℤ) : KeepsFds (Fs.vfd2file fd : VfsProg π σ ν (OpenFile ν)) :=
  .bind .get fun w => match w.file fd with
    | some f => .pure f
    | none => .throw _

theorem KeepsFds.vfileTestfd (fd : ℤ) (readable writable : Bool) :
    KeepsFds (Fs.vfileTestfd fd readable writable : VfsProg π σ ν Bool) :=
  .bind .get fun w => match w.file fd with
    | some _ => .pure _
    | none => .pure _

theorem vfd2file_eq_ok {fd : ℤ} {f : OpenFile ν} {w' : VfsState σ ν} :
    (vfd2file fd : VfsProg π σ ν (OpenFile ν)).run w = .ok f w' ↔ w.file fd = some f ∧ w' = w := by
  rw [vfd2file, Prog.get_bind_eq_ok]
  cases w.file fd with
  | none => simp
  | some g =>
    constructor
    · rintro ⟨⟩
      exact ⟨rfl, rfl⟩
    · rintro ⟨⟨⟩, rfl⟩
      rfl

/-- A function that begins with `fd2file`. -/
theorem keepsFds_of_file {fd : ℤ} {k : OpenFile ν → VfsProg π σ ν α}
    (hk : ∀ w f, w.file fd = some f → ((k f).run w).Post (fun _ => SameFds w) (fun _ => SameFds w) fun _ => True) :
    KeepsFds (vfd2file fd >>= k) := by
  intro w
  rw [Outcome.post_bind]
  cases hrun : (vfd2file fd : VfsProg π σ ν (OpenFile ν)).run w with
  | ok f w' =>
    obtain ⟨hf, rfl⟩ := vfd2file_eq_ok.mp hrun
    exact hk _ f hf
  | error e w' =>
    have hkeep := KeepsFds.vfd2file (π := π) fd w
    rw [hrun] at hkeep
    exact hkeep
  | panic p => trivial

/-- The position moves after an operation on the file. -/
theorem keepsFds_of_vopOp {β : Type} {fd : ℤ} {f g : OpenFile ν} (hg : w.file fd = some g) (hfg : g.access = f.access)
    {op : Vop} {node : ν} {m : Prog π FsError σ α} {pos : α → ℤ} {r : α → β} :
    ((do
      let a ← vopOp impl op node m
      Prog.modify fun w => w.setFd fd.toNat (some { f with pos := pos a })
      pure (r a) : VfsProg π σ ν β).run w).Post (fun _ => SameFds w) (fun _ => SameFds w) fun _ => True := by
  rw [Outcome.post_bind]
  cases hrun : (vopOp impl op node m).run w with
  | ok a w' =>
    obtain ⟨-, fs, -, rfl⟩ := vopOp_eq_ok.mp hrun
    exact SameFds.setFd (f := { f with pos := pos a }) hg hfg fs
  | error e w' =>
    have hvop : KeepsFds (vopOp impl op node m) := .vopOp op node m
    have hkeep := hvop w
    rw [hrun] at hkeep
    exact hkeep
  | panic p => trivial

theorem KeepsFds.vfileRead (fd : ℤ) (len : ℕ) : KeepsFds (Fs.vfileRead impl fd len) := by
  refine keepsFds_of_file fun w f hf => ?_
  rw [Prog.run_ite]
  split_ifs
  · exact KeepsFds.throw _ w
  · exact keepsFds_of_vopOp hf rfl

theorem KeepsFds.vfileWrite (fd : ℤ) (base : List UInt8) (len : ℕ) : KeepsFds (Fs.vfileWrite impl fd base len) := by
  refine keepsFds_of_file fun w f hf => ?_
  rw [Prog.run_ite]
  split_ifs
  · exact KeepsFds.throw _ w
  · exact keepsFds_of_vopOp hf rfl

theorem KeepsFds.vseekTarget (f : OpenFile ν) (pos : ℤ) (whence : Whence) :
    KeepsFds (Fs.vseekTarget impl f pos whence) := by
  cases whence with
  | set => exact .pure _
  | cur => exact .pure _
  | fromEnd => exact .bind (.vopFstat _) fun _ => .pure _
  | other => exact .throw _

theorem KeepsFds.vfileSeek (fd pos : ℤ) (whence : Whence) : KeepsFds (Fs.vfileSeek impl fd pos whence) := by
  refine keepsFds_of_file fun w f hf => ?_
  refine Outcome.Post.bind (KeepsFds.vseekTarget f pos whence w) fun target w' hsame => ?_
  obtain ⟨g, hg, hfg⟩ := hsame.symm.file hf
  refine Outcome.Post.mono ?_ (fun _ _ h => hsame.trans h) (fun _ _ h => hsame.trans h) fun _ h => h
  exact keepsFds_of_vopOp (r := fun _ => ()) hg hfg

theorem KeepsFds.vioAttempt {m : VfsProg π σ ν VopIo} (hm : KeepsFds m) : KeepsFds (Fs.vioAttempt m) :=
  .bind hm.attempt fun r => match r with
    | .ok _ => .pure _
    | .error _ => .pure _

theorem KeepsFds.vsysfileOut (ret : IoRet) (r : SysResult) : KeepsFds (Fs.vsysfileOut ret r : VfsProg π σ ν SysResult) := by
  unfold Fs.vsysfileOut
  split
  · exact .pure _
  · split_ifs
    · exact .pure _
    · exact .throw _
  · split_ifs <;> exact .pure _

theorem KeepsFds.vsysfileReadLoop (fd : ℤ) (u : UserMem) (fuel len : ℕ) (r : SysResult) :
    KeepsFds (Fs.vsysfileReadLoop impl fd u fuel len r) := by
  induction fuel generalizing len r with
  | zero => exact .vsysfileOut _ _
  | succ fuel ih =>
    unfold Fs.vsysfileReadLoop
    split_ifs
    · exact .vsysfileOut _ _
    · refine .bind (.vioAttempt (.vfileRead fd _)) fun io => ?_
      split_ifs
      · exact .vsysfileOut _ _
      · exact .bind (.assert _ _) fun _ => ih _ _
      · exact .bind (.assert _ _) fun _ => .vsysfileOut _ _
      · exact .vsysfileOut _ _
      · exact .vsysfileOut _ _

theorem KeepsFds.vassertLen (alen len : ℕ) : KeepsFds (Fs.vassertLen alen len : VfsProg π σ ν Unit) := by
  unfold Fs.vassertLen
  split_ifs
  · exact .assert _ _
  · exact .pure _

theorem KeepsFds.vsysfileWriteLoop (fd : ℤ) (u : UserMem) (fuel : ℕ) (buf : List UInt8) (r : SysResult) :
    KeepsFds (Fs.vsysfileWriteLoop impl fd u fuel buf r) := by
  induction fuel generalizing buf r with
  | zero => exact .vsysfileOut _ _
  | succ fuel ih =>
    unfold Fs.vsysfileWriteLoop
    split_ifs
    · exact .vsysfileOut _ _
    · refine .bind (.vioAttempt (.vfileWrite fd _ _)) fun io => .bind (.vassertLen _ _) fun _ => ?_
      split_ifs
      · exact .vsysfileOut _ _
      · exact ih _ _
    · exact .vsysfileOut _ _

/-! ### Reading and writing -/

/-- What is asked of an open file, in a function that begins with `fd2file`. -/
theorem vfd2file_bind_other {fd : ℤ} {k : OpenFile ν → VfsProg π σ ν α} :
    ((vfd2file fd >>= k).run w).PanicsIn VfsPanic.Other ↔
      ∀ f, w.file fd = some f → ((k f).run w).PanicsIn VfsPanic.Other := by
  rw [Outcome.panicsIn_bind]
  constructor
  · intro h f hf
    exact h.2 f w (vfd2file_eq_ok.mpr ⟨hf, rfl⟩)
  · intro h
    refine ⟨?_, fun f w' hrun => ?_⟩
    · rw [vfd2file, Prog.run_bind, Prog.run_get, Outcome.andThen_ok]
      cases w.file fd <;> trivial
    · obtain ⟨hf, rfl⟩ := vfd2file_eq_ok.mp hrun
      exact h f hf

/-- An operation of an open file, if the file is open for it. -/
theorem vopOp_movePos_other {op : Vop} {fd : ℤ} {f : OpenFile ν} {m : Prog π FsError σ VopIo} :
    ((do
      let r ← vopOp impl op f.node m
      movePos fd f r : VfsProg π σ ν VopIo).run w).PanicsIn VfsPanic.Other ↔ (impl.ops f.node).has op = true := by
  rw [Outcome.panicsIn_bind, vopOp_other]
  exact ⟨fun h => h.1, fun h => ⟨h, fun _ _ _ => trivial⟩⟩

/-- Directories have no `vop_read`. -/
theorem has_vopRead {ops : InodeOps} : ops.has .vopRead = true ↔ ops ≠ .dirops := by
  cases ops <;> decide

theorem has_vopWrite {ops : InodeOps} : ops.has .vopWrite = true ↔ ops ≠ .dirops := by
  cases ops <;> decide

theorem has_vopTryseek {ops : InodeOps} : ops.has .vopTryseek = true ↔ ops ≠ .dirops := by
  cases ops <;> decide

theorem has_vopFsync {ops : InodeOps} : ops.has .vopFsync = true ↔ ops ≠ .devops := by
  cases ops <;> decide

theorem has_vopGetdirentry {ops : InodeOps} : ops.has .vopGetdirentry = true ↔ ops = .dirops := by
  cases ops <;> decide

/-- Reads of the file do not end at `vop_read`. -/
def ReadOk (impl : VfsImpl π σ ν) (fd : ℤ) (w : VfsState σ ν) : Prop :=
  ∀ f, w.file fd = some f → f.readable = true → impl.ops f.node ≠ .dirops

/-- Writes to the file do not end at `vop_write`. -/
def WriteOk (impl : VfsImpl π σ ν) (fd : ℤ) (w : VfsState σ ν) : Prop :=
  ∀ f, w.file fd = some f → f.writable = true → impl.ops f.node ≠ .dirops

theorem ReadOk.sameFds {w' : VfsState σ ν} {fd : ℤ} (h : ReadOk impl fd w) (hsame : SameFds w w') :
    ReadOk impl fd w' := by
  intro f hf hread
  obtain ⟨g, hg, hgf⟩ := hsame.file hf
  obtain ⟨hr, -, hnode⟩ : g.readable = f.readable ∧ g.writable = f.writable ∧ g.node = f.node := by
    simpa [OpenFile.access] using hgf
  rw [← hnode]
  exact h g hg (hr.trans hread)

theorem WriteOk.sameFds {w' : VfsState σ ν} {fd : ℤ} (h : WriteOk impl fd w) (hsame : SameFds w w') :
    WriteOk impl fd w' := by
  intro f hf hwrite
  obtain ⟨g, hg, hgf⟩ := hsame.file hf
  obtain ⟨-, hw, hnode⟩ : g.readable = f.readable ∧ g.writable = f.writable ∧ g.node = f.node := by
    simpa [OpenFile.access] using hgf
  rw [← hnode]
  exact h g hg (hw.trans hwrite)

theorem vfileRead_other {fd : ℤ} {len : ℕ} :
    ((vfileRead impl fd len).run w).PanicsIn VfsPanic.Other ↔ ReadOk impl fd w := by
  unfold vfileRead ReadOk
  rw [vfd2file_bind_other]
  refine forall₂_congr fun f hf => ?_
  rw [Prog.run_ite]
  cases hread : f.readable with
  | true => rw [if_neg (by decide), vopOp_movePos_other, has_vopRead, forall_prop_of_true rfl]
  | false => exact ⟨fun _ heq => absurd heq (by decide), fun _ => by rw [if_pos rfl]; trivial⟩

theorem vfileWrite_other {fd : ℤ} {base : List UInt8} {len : ℕ} :
    ((vfileWrite impl fd base len).run w).PanicsIn VfsPanic.Other ↔ WriteOk impl fd w := by
  unfold vfileWrite WriteOk
  rw [vfd2file_bind_other]
  refine forall₂_congr fun f hf => ?_
  rw [Prog.run_ite]
  cases hwrite : f.writable with
  | true => rw [if_neg (by decide), vopOp_movePos_other, has_vopWrite, forall_prop_of_true rfl]
  | false => exact ⟨fun _ heq => absurd heq (by decide), fun _ => by rw [if_pos rfl]; trivial⟩

theorem vioAttempt_other {m : VfsProg π σ ν VopIo} :
    ((vioAttempt m).run w).PanicsIn VfsPanic.Other ↔ (m.run w).PanicsIn VfsPanic.Other := by
  rw [vioAttempt, Outcome.panicsIn_bind, Outcome.panicsIn_attempt]
  refine ⟨fun h => h.1, fun h => ⟨h, fun r w' _ => ?_⟩⟩
  cases r <;> trivial

/-- What holds after a program that keeps the open files. -/
theorem KeepsFds.sameFds {m : VfsProg π σ ν α} (hm : KeepsFds m) {a : α} {w' : VfsState σ ν}
    (hrun : m.run w = .ok a w') : SameFds w w' := by
  have hkeep := hm w
  rw [hrun] at hkeep
  exact hkeep

theorem vsysfileOut_other (ret : IoRet) (r : SysResult) :
    ((vsysfileOut ret r : VfsProg π σ ν SysResult).run w).PanicsIn VfsPanic.Other := by
  unfold vsysfileOut
  split
  · trivial
  · split_ifs <;> trivial
  · split_ifs <;> trivial

theorem assert_other {c : Prop} [Decidable c] {p : VfsPanic π} (hp : p.Other) :
    ((Prog.assert c p : VfsProg π σ ν Unit).run w).PanicsIn VfsPanic.Other := by
  rw [Prog.run_assert]
  split_ifs
  · trivial
  · exact hp

theorem sysfileLen_other : (VfsPanic.sysfileLen : VfsPanic π).Other := nofun

theorem vsysfileReadLoop_other {fd : ℤ} (u : UserMem) (fuel len : ℕ) (r : SysResult) (h : ReadOk impl fd w) :
    ((vsysfileReadLoop impl fd u fuel len r).run w).PanicsIn VfsPanic.Other := by
  induction fuel generalizing w len r with
  | zero => exact vsysfileOut_other _ _
  | succ fuel ih =>
    unfold vsysfileReadLoop
    split_ifs
    · exact vsysfileOut_other _ _
    · rw [Outcome.panicsIn_bind]
      refine ⟨vioAttempt_other.mpr (vfileRead_other.mpr h), fun io w' hrun => ?_⟩
      have hok : ReadOk impl fd w' := h.sameFds ((KeepsFds.vioAttempt (.vfileRead fd _)).sameFds hrun)
      split_ifs
      · exact vsysfileOut_other _ _
      · rw [Outcome.panicsIn_bind]
        refine ⟨assert_other sysfileLen_other, fun _ w'' hassert => ?_⟩
        exact ih _ _ (hok.sameFds ((KeepsFds.assert _ _).sameFds hassert))
      · rw [Outcome.panicsIn_bind]
        exact ⟨assert_other sysfileLen_other, fun _ _ _ => vsysfileOut_other _ _⟩
      · exact vsysfileOut_other _ _
      · exact vsysfileOut_other _ _

theorem vassertLen_other (alen len : ℕ) :
    ((vassertLen alen len : VfsProg π σ ν Unit).run w).PanicsIn VfsPanic.Other := by
  unfold vassertLen
  split_ifs
  · exact assert_other sysfileLen_other
  · trivial

theorem vsysfileWriteLoop_other {fd : ℤ} (u : UserMem) (fuel : ℕ) (buf : List UInt8) (r : SysResult)
    (h : WriteOk impl fd w) : ((vsysfileWriteLoop impl fd u fuel buf r).run w).PanicsIn VfsPanic.Other := by
  induction fuel generalizing w buf r with
  | zero => exact vsysfileOut_other _ _
  | succ fuel ih =>
    unfold vsysfileWriteLoop
    split_ifs
    · exact vsysfileOut_other _ _
    · rw [Outcome.panicsIn_bind]
      refine ⟨vioAttempt_other.mpr (vfileWrite_other.mpr h), fun io w' hrun => ?_⟩
      have hok : WriteOk impl fd w' := h.sameFds ((KeepsFds.vioAttempt (.vfileWrite fd _ _)).sameFds hrun)
      rw [Outcome.panicsIn_bind]
      refine ⟨vassertLen_other _ _, fun _ w'' hassert => ?_⟩
      split_ifs
      · exact vsysfileOut_other _ _
      · exact ih _ _ (hok.sameFds ((KeepsFds.vassertLen _ _).sameFds hassert))
    · exact vsysfileOut_other _ _

theorem vfileTestfd_run (fd : ℤ) (readable writable : Bool) :
    (vfileTestfd fd readable writable : VfsProg π σ ν Bool).run w =
      .ok (match w.file fd with
        | some f => (!readable || f.readable) && (!writable || f.writable)
        | none => false) w := by
  rw [vfileTestfd, Prog.run_bind, Prog.run_get, Outcome.andThen_ok]
  cases w.file fd <;> rfl

theorem vsysfileRead_other {fd : ℤ} {len : ℕ} {u : UserMem} :
    ((vsysfileRead impl fd len u).run w).PanicsIn VfsPanic.Other ↔
      (len ≠ 0 → u.kmalloc = true → ReadOk impl fd w) := by
  rw [vsysfileRead, Prog.run_ite]
  cases len with
  | zero => exact ⟨fun _ hne => absurd rfl hne, fun _ => trivial⟩
  | succ n =>
    rw [if_neg (Nat.succ_ne_zero n), Prog.run_bind, vfileTestfd_run, Outcome.andThen_ok, Prog.run_ite]
    cases hfile : w.file fd with
    | none =>
      refine ⟨fun _ _ _ f hf => ?_, fun _ => trivial⟩
      rw [hfile] at hf
      cases hf
    | some f =>
      cases hread : f.readable with
      | false =>
        refine ⟨fun _ _ _ g hg hgread => ?_, fun _ => ?_⟩
        · rw [hfile] at hg
          cases hg
          rw [hread] at hgread
          cases hgread
        · simp [hread]
      | true =>
        rw [if_neg (by simp [hread]), Prog.run_ite]
        cases hmalloc : u.kmalloc with
        | false => exact ⟨fun _ _ heq => absurd heq (by decide), fun _ => trivial⟩
        | true =>
          rw [if_neg (by decide)]
          refine ⟨fun h _ _ => ?_, fun h => vsysfileReadLoop_other u _ _ _ (h (Nat.succ_ne_zero n) rfl)⟩
          rw [vsysfileReadLoop, Prog.run_ite, if_neg (Nat.succ_ne_zero n), Outcome.panicsIn_bind] at h
          exact vfileRead_other.mp (vioAttempt_other.mp h.1)

theorem vsysfileWrite_other {fd : ℤ} {buf : List UInt8} {u : UserMem} (h : WriteOk impl fd w) :
    ((vsysfileWrite impl fd buf u).run w).PanicsIn VfsPanic.Other := by
  rw [vsysfileWrite, Prog.run_ite]
  by_cases hlen : buf.length = 0
  · rw [if_pos hlen]
    trivial
  · rw [if_neg hlen, Prog.run_bind, vfileTestfd_run, Outcome.andThen_ok, Prog.run_ite, Prog.run_ite]
    split_ifs
    · trivial
    · trivial
    · exact vsysfileWriteLoop_other u _ _ _ h

/-! ### The other calls -/

/-- A seek that is asked for in a known way has a target. -/
theorem vseekTarget_run (f : OpenFile ν) (pos : ℤ) {whence : Whence} (hwhence : whence ≠ .other) :
    ∃ target, (vseekTarget impl f pos whence).run w = .ok target w := by
  cases whence with
  | set => exact ⟨pos, rfl⟩
  | cur => exact ⟨toOff (pos + f.pos), rfl⟩
  | fromEnd =>
    have hstat : (vopFstat impl f.node).run w = .ok (impl.fstat f.node w.fs) w :=
      vopOp_eq_ok.mpr ⟨by cases impl.ops f.node <;> rfl, w.fs, rfl, rfl⟩
    refine ⟨toOff (pos + (impl.fstat f.node w.fs).size), ?_⟩
    rw [vseekTarget, Prog.bind_of_ok hstat, Prog.run_pure]
  | other => exact absurd rfl hwhence

theorem vfileSeek_other {fd pos : ℤ} {whence : Whence} :
    ((vfileSeek impl fd pos whence).run w).PanicsIn VfsPanic.Other ↔
      (whence ≠ .other → ∀ f, w.file fd = some f → impl.ops f.node ≠ .dirops) := by
  rw [vfileSeek, vfd2file_bind_other]
  by_cases hwhence : whence = .other
  · subst hwhence
    exact ⟨fun _ hne => absurd rfl hne, fun _ _ _ => trivial⟩
  · rw [forall_prop_of_true hwhence]
    refine forall₂_congr fun f hf => ?_
    obtain ⟨target, hrun⟩ : ∃ target, (vseekTarget impl f pos whence).run w = .ok target w :=
      vseekTarget_run f pos hwhence
    rw [Prog.bind_of_ok hrun, Outcome.panicsIn_bind, vopOp_other, has_vopTryseek]
    exact ⟨fun h => h.1, fun h => ⟨h, fun _ _ _ => trivial⟩⟩

theorem vfileFsync_other {fd : ℤ} :
    ((vfileFsync impl fd).run w).PanicsIn VfsPanic.Other ↔ ∀ f, w.file fd = some f → impl.ops f.node ≠ .devops := by
  rw [vfileFsync, vfd2file_bind_other]
  exact forall₂_congr fun f hf => vopOp_other.trans has_vopFsync

theorem vsysfileFstat_other (fd : ℤ) (copyOut : Bool) :
    ((vsysfileFstat impl fd copyOut).run w).PanicsIn VfsPanic.Other := by
  rw [vsysfileFstat, Outcome.panicsIn_bind]
  refine ⟨?_, fun _ _ _ => ?_⟩
  · rw [vfileFstat, vfd2file_bind_other]
    exact fun f _ => vopFstat_other f.node
  · split_ifs <;> trivial

theorem vsysfileGetdirentry_other {fd offset : ℤ} {kmalloc copyIn copyOut : Bool} :
    ((vsysfileGetdirentry impl fd offset kmalloc copyIn copyOut).run w).PanicsIn VfsPanic.Other ↔
      (kmalloc = true → copyIn = true → ∀ f, w.file fd = some f → impl.ops f.node = .dirops) := by
  have hentry : ((vfileGetdirentry impl fd offset).run w).PanicsIn VfsPanic.Other ↔
      ∀ f, w.file fd = some f → impl.ops f.node = .dirops := by
    rw [vfileGetdirentry, vfd2file_bind_other]
    refine forall₂_congr fun f hf => ?_
    rw [Outcome.panicsIn_bind, vopOp_other, has_vopGetdirentry]
    exact ⟨fun h => h.1, fun h => ⟨h, fun _ _ _ => trivial⟩⟩
  unfold vsysfileGetdirentry
  cases kmalloc with
  | false => exact ⟨fun _ heq => absurd heq (by decide), fun _ => trivial⟩
  | true =>
    cases copyIn with
    | false => exact ⟨fun _ _ heq => absurd heq (by decide), fun _ => trivial⟩
    | true =>
      rw [if_neg (by decide), if_neg (by decide), Outcome.panicsIn_bind, hentry]
      refine ⟨fun h _ _ => h.1, fun h => ⟨h rfl rfl, fun _ _ _ => ?_⟩⟩
      split_ifs <;> trivial

theorem vfileClose_other (fd : ℤ) : ((vfileClose fd : VfsProg π σ ν Unit).run w).PanicsIn VfsPanic.Other := by
  rw [vfileClose, vfd2file_bind_other]
  exact fun _ _ => trivial

theorem vfileDup_other (fd1 : ℤ) (fd2 : Option ℤ) :
    ((vfileDup fd1 fd2 : VfsProg π σ ν ℕ).run w).PanicsIn VfsPanic.Other := by
  rw [vfileDup, vfd2file_bind_other]
  intro f _
  rw [Outcome.panicsIn_bind]
  refine ⟨?_, fun _ _ _ => trivial⟩
  rw [vfdArrayAlloc, Prog.run_bind, Prog.run_get, Outcome.andThen_ok]
  cases fd2 with
  | none => cases w.freeFd <;> trivial
  | some fd =>
    simp only
    split_ifs <;> trivial

/-! ### Runs -/

/-- No directory is open for writing. -/
def FdsOk (impl : VfsImpl π σ ν) (w : VfsState σ ν) : Prop :=
  ∀ fd f, w.fdArray fd = some f → f.writable = true → impl.ops f.node ≠ .dirops

theorem FdsOk.writeOk (h : FdsOk impl w) (fd : ℤ) : WriteOk impl fd w := by
  intro f hf
  unfold VfsState.file at hf
  split_ifs at hf
  exact h fd.toNat f hf

theorem FdsOk.sameFds {w' : VfsState σ ν} (h : FdsOk impl w) (hsame : SameFds w w') : FdsOk impl w' := by
  intro fd f hf hwrite
  have hget := hsame fd
  rw [hf, Option.map_some, eq_comm, Option.map_eq_some_iff] at hget
  obtain ⟨g, hg, hgf⟩ := hget
  obtain ⟨-, hw, hnode⟩ : g.readable = f.readable ∧ g.writable = f.writable ∧ g.node = f.node := by
    simpa [OpenFile.access] using hgf
  rw [← hnode]
  exact h fd g hg (hw.trans hwrite)

theorem FdsOk.setFd (h : FdsOk impl w) (fd : ℕ) {item : Option (OpenFile ν)}
    (hitem : ∀ f, item = some f → f.writable = true → impl.ops f.node ≠ .dirops) : FdsOk impl (w.setFd fd item) := by
  intro i f hf
  by_cases hi : i = fd
  · subst hi
    rw [VfsState.setFd] at hf
    simp only [Function.update_self] at hf
    exact hitem f hf
  · rw [VfsState.setFd] at hf
    simp only [Function.update_of_ne hi] at hf
    exact h i f hf

theorem KeepsFds.fdsOk {m : VfsProg π σ ν α} (hm : KeepsFds m) (h : FdsOk impl w) :
    (m.run w).Post (fun _ => FdsOk impl) (fun _ => FdsOk impl) fun _ => True :=
  (hm w).mono (fun _ _ hsame => h.sameFds hsame) (fun _ _ hsame => h.sameFds hsame) fun _ hp => hp

theorem KeepsFds.vfsLookupOp (path : CString) : KeepsFds (Fs.vfsLookupOp impl path) := by
  refine .bind (.onFs _) fun start => ?_
  simp only
  split_ifs
  · exact .vopOp _ _ _
  · exact .pure _

theorem KeepsFds.vfsOpenNode (path : CString) (flags : BitVec 32) (r : Except FsError ν) :
    KeepsFds (Fs.vfsOpenNode impl path flags r) := by
  unfold Fs.vfsOpenNode
  cases r with
  | ok node =>
    simp only
    split_ifs
    · exact .throw _
    · exact .pure _
  | error e =>
    simp only
    split_ifs
    · exact .bind (.onFs _) fun _ => .vopOp _ _ _
    · exact .throw _

theorem KeepsFds.vfsOpenTruncate (node : ν) (flags : BitVec 32) : KeepsFds (Fs.vfsOpenTruncate impl node flags) := by
  unfold Fs.vfsOpenTruncate
  split_ifs
  · exact .vopOp _ _ _
  · exact .pure _

theorem KeepsFds.vfsOpenPath (path : CString) (flags : BitVec 32) : KeepsFds (Fs.vfsOpenPath impl path flags) := by
  unfold Fs.vfsOpenPath
  cases accmode flags with
  | none => exact .throw _
  | some mode =>
    simp only
    split_ifs
    · exact .throw _
    · refine .bind (.attempt (.vfsLookupOp path)) fun r => .bind (.vfsOpenNode path flags r) fun node => ?_
      exact .bind (.vopOp _ _ _) fun _ => .bind (.vfsOpenTruncate node flags) fun _ => .pure _

/-- A directory is not opened for writing. -/
theorem vfsOpenPath_writable {path : CString} {flags : BitVec 32} {canRead : Bool} {node : ν} {w' : VfsState σ ν}
    (hmode : accmode flags = some (canRead, true)) (hrun : (vfsOpenPath impl path flags).run w = .ok node w') :
    impl.ops node ≠ .dirops := by
  intro hops
  unfold vfsOpenPath at hrun
  rw [hmode] at hrun
  simp only at hrun
  rw [if_neg (by simp)] at hrun
  obtain ⟨r, w₁, -, hrun⟩ := Prog.bind_eq_ok.mp hrun
  obtain ⟨found, w₂, -, hrun⟩ := Prog.bind_eq_ok.mp hrun
  obtain ⟨_, w₃, hopened, hrun⟩ := Prog.bind_eq_ok.mp hrun
  obtain ⟨_, w₄, -, hrun⟩ := Prog.bind_eq_ok.mp hrun
  cases hrun
  cases accmode_rdonly hmode ((vopOpen_dirops hops).mp hopened).1.1

theorem KeepsFds.openPos (node : ν) (flags : BitVec 32) : KeepsFds (Fs.openPos impl node flags) := by
  unfold Fs.openPos
  split_ifs
  · exact .bind (.vopFstat node) fun _ => .pure _
  · exact .pure _

/-- **No directory gets open for writing**: `file_open`. -/
theorem FdsOk.vfileOpen (h : FdsOk impl w) (path : CString) (flags : BitVec 32) :
    ((Fs.vfileOpen impl path flags).run w).Post (fun _ => FdsOk impl) (fun _ => FdsOk impl) fun _ => True := by
  unfold Fs.vfileOpen
  cases hmode : accmode flags with
  | none => exact h
  | some mode =>
    obtain ⟨canRead, canWrite⟩ := mode
    simp only
    refine Outcome.Post.bind ((KeepsFds.vfdArrayAlloc none).fdsOk h) fun fd w₁ h₁ => ?_
    rw [Outcome.post_bind]
    have hopen : KeepsFds (vfsOpenPath impl path flags) := .vfsOpenPath path flags
    have hkeep := hopen.fdsOk h₁
    cases hrun : (vfsOpenPath impl path flags).run w₁ with
    | ok node w₂ =>
      rw [hrun] at hkeep
      refine Outcome.Post.bind ((KeepsFds.openPos node flags).fdsOk hkeep) fun pos w₃ h₃ => ?_
      refine h₃.setFd fd ?_
      rintro _ ⟨⟩ hwrite
      simp only at hwrite
      subst hwrite
      exact vfsOpenPath_writable hmode hrun
    | error e w₂ =>
      rw [hrun] at hkeep
      exact hkeep
    | panic p => trivial

theorem KeepsFds.discard {m : VfsProg π σ ν α} (hm : KeepsFds m) : KeepsFds (do let _ ← m) :=
  .bind hm fun _ => .pure ()

theorem KeepsFds.vsysfileRead (fd : ℤ) (len : ℕ) (u : UserMem) : KeepsFds (Fs.vsysfileRead impl fd len u) := by
  unfold Fs.vsysfileRead
  by_cases hlen : len = 0
  · rw [if_pos hlen]
    exact .pure _
  · rw [if_neg hlen]
    refine .bind (.vfileTestfd _ _ _) fun ok => ?_
    split_ifs
    · exact .throw _
    · exact .throw _
    · exact .vsysfileReadLoop _ _ _ _ _

theorem KeepsFds.vsysfileWrite (fd : ℤ) (buf : List UInt8) (u : UserMem) :
    KeepsFds (Fs.vsysfileWrite impl fd buf u) := by
  unfold Fs.vsysfileWrite
  by_cases hlen : buf.length = 0
  · rw [if_pos hlen]
    exact .pure _
  · rw [if_neg hlen]
    refine .bind (.vfileTestfd _ _ _) fun ok => ?_
    split_ifs
    · exact .throw _
    · exact .throw _
    · exact .vsysfileWriteLoop _ _ _ _ _

theorem KeepsFds.vsysfileFstat (fd : ℤ) (copyOut : Bool) : KeepsFds (Fs.vsysfileFstat impl fd copyOut) := by
  refine .bind (.bind (.vfd2file fd) fun f => .vopFstat f.node) fun stat => ?_
  split_ifs
  · exact .throw _
  · exact .pure _

theorem KeepsFds.vsysfileGetdirentry (fd offset : ℤ) (kmalloc copyIn copyOut : Bool) :
    KeepsFds (Fs.vsysfileGetdirentry impl fd offset kmalloc copyIn copyOut) := by
  unfold Fs.vsysfileGetdirentry
  by_cases hmalloc : kmalloc = false
  · rw [if_pos hmalloc]
    exact .throw _
  by_cases hcopy : copyIn = false
  · rw [if_neg hmalloc, if_pos hcopy]
    exact .throw _
  · rw [if_neg hmalloc, if_neg hcopy]
    refine .bind (.bind (.vfd2file fd) fun f => .bind (.vopOp _ _ _) fun _ => .pure _) fun entry => ?_
    split_ifs
    · exact .throw _
    · exact .pure _

/-- **What a call does to the table.** -/
theorem FdsOk.call (h : FdsOk impl w) (call : VfsCall) :
    ((call.code impl).run w).Post (fun _ => FdsOk impl) (fun _ => FdsOk impl) fun _ => True := by
  cases call with
  | sysOpen path flags =>
    refine Outcome.Post.bind (Q := fun _ => FdsOk impl) ?_ fun _ _ h' => h'
    cases path with
    | none => exact h
    | some path => exact h.vfileOpen path flags
  | sysRead fd len u => exact (KeepsFds.vsysfileRead fd len u).discard.fdsOk h
  | sysWrite fd buf u => exact (KeepsFds.vsysfileWrite fd buf u).discard.fdsOk h
  | sysSeek fd pos whence => exact (KeepsFds.vfileSeek fd pos whence).fdsOk h
  | sysFstat fd copyOut => exact (KeepsFds.vsysfileFstat fd copyOut).discard.fdsOk h
  | sysFsync fd => exact KeepsFds.fdsOk (.bind (.vfd2file fd) fun f => .vopOp _ _ _) h
  | sysGetdirentry fd offset kmalloc copyIn copyOut =>
    exact (KeepsFds.vsysfileGetdirentry fd offset kmalloc copyIn copyOut).discard.fdsOk h
  | sysClose fd =>
    refine Outcome.Post.bind ((KeepsFds.vfd2file fd).fdsOk h) fun _ w' h' => ?_
    exact h'.setFd _ nofun
  | sysDup fd1 fd2 =>
    refine Outcome.Post.bind (Q := fun _ => FdsOk impl) ?_ fun _ _ h' => h'
    rw [vfileDup, Outcome.post_bind]
    have hkeep := (KeepsFds.vfd2file (π := π) fd1).fdsOk h
    cases hrun : (vfd2file fd1 : VfsProg π σ ν (OpenFile ν)).run w with
    | ok f w₁ =>
      obtain ⟨hf, rfl⟩ := vfd2file_eq_ok.mp hrun
      refine Outcome.Post.bind ((KeepsFds.vfdArrayAlloc fd2).fdsOk h) fun fd w₂ h₂ => ?_
      refine h₂.setFd fd ?_
      rintro _ ⟨⟩
      exact h.writeOk fd1 f hf
    | error e w₁ =>
      rw [hrun] at hkeep
      exact hkeep
    | panic p => trivial

theorem VfsReach.fdsOk (h : VfsReach impl w) : FdsOk impl w := by
  obtain ⟨fs, hrun⟩ := h
  refine invariant_of_step (FdsOk impl) hrun ?_ ?_
  · intro fd f hf
    cases hf
  · intro w₁ w₂ h₁ hstep
    cases hstep with
    | done call hcall =>
      have hpost := h₁.call call
      rw [hcall] at hpost
      exact hpost
    | failed call e hcall =>
      have hpost := h₁.call call
      rw [hcall] at hpost
      exact hpost
    | others fs => exact h₁

/-- The panics of a call are others if and only if the condition holds. -/
theorem FdsOk.other_iff (h : FdsOk impl w) (call : VfsCall) :
    ((call.code impl).run w).PanicsIn VfsPanic.Other ↔ call.Dispatches impl w := by
  have hdiscard : ∀ {β : Type} (m : VfsProg π σ ν β), ((do let _ ← m : VfsProg π σ ν Unit).run w).PanicsIn
      VfsPanic.Other ↔ (m.run w).PanicsIn VfsPanic.Other := by
    intro β m
    rw [Outcome.panicsIn_bind]
    exact ⟨fun h => h.1, fun h => ⟨h, fun _ _ _ => trivial⟩⟩
  cases call with
  | sysOpen path flags =>
    refine (hdiscard _).trans ?_
    cases path with
    | none => exact ⟨fun _ p hp => (nomatch hp), fun _ => trivial⟩
    | some path =>
      refine vfileOpen_other.trans ⟨fun hopen p hp => ?_, fun hall => hall path rfl⟩
      cases hp
      exact hopen
  | sysRead fd len u => exact (hdiscard _).trans vsysfileRead_other
  | sysWrite fd buf u =>
    exact (hdiscard _).trans ⟨fun _ => trivial, fun _ => vsysfileWrite_other (h.writeOk fd)⟩
  | sysSeek fd pos whence => exact vfileSeek_other
  | sysFstat fd copyOut => exact (hdiscard _).trans ⟨fun _ => trivial, fun _ => vsysfileFstat_other fd copyOut⟩
  | sysFsync fd => exact vfileFsync_other
  | sysGetdirentry fd offset kmalloc copyIn copyOut => exact (hdiscard _).trans vsysfileGetdirentry_other
  | sysClose fd => exact ⟨fun _ => trivial, fun _ => vfileClose_other fd⟩
  | sysDup fd1 fd2 => exact (hdiscard _).trans ⟨fun _ => trivial, fun _ => vfileDup_other fd1 fd2⟩

end dispatched

/-! ### Operations that return -/

/-- The operations return, and do not move more bytes than they are asked to. -/
structure VfsImpl.Returns (impl : VfsImpl π σ ν) : Prop where
  getDevice : ∀ path s p, (impl.getDevice path).run s ≠ .panic p
  lookup : ∀ node path s p, (impl.lookup node path).run s ≠ .panic p
  dopOpen : ∀ node flags s p, (impl.dopOpen node flags).run s ≠ .panic p
  read : ∀ node pos len s, ((impl.read node pos len).run s).Post (fun r _ => r.alen ≤ len) (fun _ _ => True) fun _ => False
  write : ∀ node base pos len s,
    ((impl.write node base pos len).run s).Post (fun r _ => r.alen ≤ len) (fun _ _ => True) fun _ => False
  tryseek : ∀ node pos s p, (impl.tryseek node pos).run s ≠ .panic p
  fsync : ∀ node s p, (impl.fsync node).run s ≠ .panic p
  truncate : ∀ node len s p, (impl.truncate node len).run s ≠ .panic p
  getdirentry : ∀ node offset s p, (impl.getdirentry node offset).run s ≠ .panic p

/-- The panic is that of `__vop_op`. -/
def VfsPanic.Missing (p : VfsPanic π) : Prop := ∃ op, p = .vop op

/-- The only assertion that can fail is that of `__vop_op`. -/
def OnlyMissing (m : VfsProg π σ ν α) : Prop := ∀ w, (m.run w).PanicsIn VfsPanic.Missing

section missing

variable {impl : VfsImpl π σ ν}

theorem OnlyMissing.pure (a : α) : OnlyMissing (Pure.pure a : VfsProg π σ ν α) := fun _ => trivial

theorem OnlyMissing.throw (e : FsError) : OnlyMissing (Prog.throw e : VfsProg π σ ν α) := fun _ => trivial

theorem OnlyMissing.get : OnlyMissing (Prog.get : VfsProg π σ ν (VfsState σ ν)) := fun _ => trivial

theorem OnlyMissing.modify (f : VfsState σ ν → VfsState σ ν) : OnlyMissing (Prog.modify f : VfsProg π σ ν Unit) :=
  fun _ => trivial

theorem OnlyMissing.bind {β : Type} {m : VfsProg π σ ν α} {k : α → VfsProg π σ ν β} (hm : OnlyMissing m)
    (hk : ∀ a, OnlyMissing (k a)) : OnlyMissing (m >>= k) :=
  fun w => Outcome.panicsIn_bind.mpr ⟨hm w, fun a w' _ => hk a w'⟩

theorem OnlyMissing.attempt {m : VfsProg π σ ν α} (hm : OnlyMissing m) : OnlyMissing (Prog.attempt m) :=
  fun w => Outcome.panicsIn_attempt.mpr (hm w)

theorem OnlyMissing.onFs {m : Prog π FsError σ α} (hm : ∀ s p, m.run s ≠ .panic p) :
    OnlyMissing (Fs.onFs m : VfsProg π σ ν α) := by
  intro w
  rw [Fs.onFs, Prog.zoom]
  simp only
  cases hrun : m.run w.fs with
  | ok a fs => trivial
  | error e fs => trivial
  | panic p => exact absurd hrun (hm w.fs p)

theorem OnlyMissing.vopOp {op : Vop} {node : ν} {m : Prog π FsError σ α} (hm : ∀ s p, m.run s ≠ .panic p) :
    OnlyMissing (Fs.vopOp impl op node m) := by
  refine .bind (fun w => ?_) fun _ => .onFs hm
  rw [Prog.run_assert]
  split_ifs
  · trivial
  · exact ⟨op, rfl⟩

theorem OnlyMissing.vopFstat (node : ν) : OnlyMissing (Fs.vopFstat impl node) := .vopOp nofun

theorem OnlyMissing.vfd2file (fd : ℤ) : OnlyMissing (Fs.vfd2file fd : VfsProg π σ ν (OpenFile ν)) :=
  .bind .get fun w => match w.file fd with
    | some f => .pure f
    | none => .throw _

theorem OnlyMissing.vfdArrayAlloc (fd : Option ℤ) : OnlyMissing (Fs.vfdArrayAlloc fd : VfsProg π σ ν ℕ) := by
  refine .bind .get fun w => ?_
  cases fd with
  | none => exact match w.freeFd with
    | some fd => .pure fd
    | none => .throw _
  | some fd =>
    simp only
    split_ifs
    · exact .pure _
    · exact .throw _
    · exact .throw _

theorem VfsImpl.Returns.vfileOpen (h : impl.Returns) (path : CString) (flags : BitVec 32) :
    OnlyMissing (Fs.vfileOpen impl path flags) := by
  have hlookup : OnlyMissing (vfsLookupOp impl path) := by
    refine .bind (.onFs (h.getDevice path)) fun start => ?_
    simp only
    split_ifs
    · exact .vopOp (h.lookup _ _)
    · exact .pure _
  have hnode : ∀ r, OnlyMissing (vfsOpenNode impl path flags r) := by
    intro r
    unfold vfsOpenNode
    cases r with
    | ok node =>
      simp only
      split_ifs
      · exact .throw _
      · exact .pure _
    | error e =>
      simp only
      split_ifs
      · exact .bind (.onFs (h.getDevice _)) fun _ => .vopOp nofun
      · exact .throw _
  have hopen : ∀ node, OnlyMissing (vopOpen impl node flags) := by
    intro node
    refine .vopOp ?_
    cases impl.ops node with
    | dirops =>
      intro s p
      simp only [sfsOpendir_run]
      split_ifs <;> simp
    | fileops => exact nofun
    | devops =>
      simp only [devOpen]
      split_ifs
      · exact nofun
      · exact h.dopOpen node flags
  have htruncate : ∀ node, OnlyMissing (vfsOpenTruncate impl node flags) := by
    intro node
    unfold vfsOpenTruncate
    split_ifs
    · exact .vopOp (h.truncate node 0)
    · exact .pure _
  have hpath : OnlyMissing (vfsOpenPath impl path flags) := by
    unfold vfsOpenPath
    cases accmode flags with
    | none => exact .throw _
    | some mode =>
      simp only
      split_ifs
      · exact .throw _
      · exact .bind hlookup.attempt fun r => .bind (hnode r) fun node => .bind (hopen node) fun _ =>
          .bind (htruncate node) fun _ => .pure _
  unfold Fs.vfileOpen
  cases accmode flags with
  | none => exact .throw _
  | some mode =>
    refine .bind (.vfdArrayAlloc none) fun fd => .bind hpath fun node => .bind ?_ fun pos => ?_
    · unfold openPos
      split_ifs
      · exact .bind (.vopFstat node) fun _ => .pure _
      · exact .pure _
    · exact .bind (.modify _) fun _ => .pure _

/-- An operation that moves at most `len` bytes. -/
def Moves (len : ℕ) (m : VfsProg π σ ν VopIo) : Prop :=
  ∀ w, (m.run w).Post (fun io _ => io.alen ≤ len) (fun _ _ => True) VfsPanic.Missing

theorem Moves.vopOp {op : Vop} {node : ν} {m : Prog π FsError σ VopIo} {len : ℕ} {fd : ℤ} {f : OpenFile ν}
    (hm : ∀ s, (m.run s).Post (fun r _ => r.alen ≤ len) (fun _ _ => True) fun _ => False) :
    Moves len (do
      let r ← Fs.vopOp impl op node m
      movePos fd f r) := by
  intro w
  refine Outcome.Post.bind (Q := fun io _ => io.alen ≤ len) ?_ fun _ _ hle => hle
  rw [Fs.vopOp, Prog.run_bind, Prog.run_assert]
  split_ifs
  · have hrun := hm w.fs
    rw [Outcome.andThen_ok, Fs.onFs, Prog.zoom]
    simp only
    revert hrun
    cases m.run w.fs with
    | ok r fs => exact id
    | error e fs => exact id
    | panic p => exact False.elim
  · exact ⟨op, rfl⟩

theorem Moves.vioAttempt {m : VfsProg π σ ν VopIo} {len : ℕ} (hm : Moves len m) : Moves len (Fs.vioAttempt m) := by
  intro w
  have hrun := hm w
  rw [Fs.vioAttempt, Prog.run_bind, Prog.attempt]
  simp only
  revert hrun
  cases m.run w with
  | ok r w' => exact id
  | error e w' => exact fun _ => Nat.zero_le len
  | panic p => exact id

theorem Moves.ite_throw {c : Prop} [Decidable c] {m : VfsProg π σ ν VopIo} {len : ℕ} {e : FsError} (hm : Moves len m) :
    Moves len (if c then Prog.throw e else m) := by
  split_ifs
  · exact fun _ => trivial
  · exact hm

theorem VfsImpl.Returns.vfileRead (h : impl.Returns) (fd : ℤ) (len : ℕ) : Moves len (Fs.vfileRead impl fd len) := by
  intro w
  refine Outcome.Post.bind (Q := fun _ _ => True) (OnlyMissing.vfd2file fd w) fun f w' _ => ?_
  exact Moves.ite_throw (.vopOp (h.read _ _ _)) w'

theorem VfsImpl.Returns.vfileWrite (h : impl.Returns) (fd : ℤ) (base : List UInt8) (len : ℕ) :
    Moves len (Fs.vfileWrite impl fd base len) := by
  intro w
  refine Outcome.Post.bind (Q := fun _ _ => True) (OnlyMissing.vfd2file fd w) fun f w' _ => ?_
  exact Moves.ite_throw (.vopOp (h.write _ _ _ _)) w'

theorem OnlyMissing.vsysfileOut (ret : IoRet) (r : SysResult) :
    OnlyMissing (Fs.vsysfileOut ret r : VfsProg π σ ν SysResult) := by
  unfold Fs.vsysfileOut
  split
  · exact .pure _
  · split_ifs
    · exact .pure _
    · exact .throw _
  · split_ifs <;> exact .pure _

theorem VfsImpl.Returns.vsysfileReadLoop (h : impl.Returns) (fd : ℤ) (u : UserMem) (fuel len : ℕ) (r : SysResult) :
    OnlyMissing (Fs.vsysfileReadLoop impl fd u fuel len r) := by
  induction fuel generalizing len r with
  | zero => exact .vsysfileOut _ _
  | succ fuel ih =>
    unfold Fs.vsysfileReadLoop
    split_ifs
    · exact .vsysfileOut _ _
    · intro w
      refine Outcome.Post.bind ((h.vfileRead fd (min 4096 len)).vioAttempt w) fun io w' hle => ?_
      have hlen : io.alen ≤ len := hle.trans (min_le_right _ _)
      by_cases hzero : io.alen = 0
      · rw [if_pos hzero]
        exact OnlyMissing.vsysfileOut _ _ w'
      rw [if_neg hzero]
      by_cases hcopy : u.copy r.copied io.alen = true
      · rw [if_pos hcopy, Prog.bind_of_ok (Prog.run_assert_of _ _ hlen)]
        simp only
        split_ifs
        · exact ih _ _ w'
        · exact OnlyMissing.vsysfileOut _ _ w'
      · rw [if_neg hcopy]
        exact OnlyMissing.vsysfileOut _ _ w'

theorem VfsImpl.Returns.vsysfileWriteLoop (h : impl.Returns) (fd : ℤ) (u : UserMem) (fuel : ℕ) (buf : List UInt8)
    (r : SysResult) : OnlyMissing (Fs.vsysfileWriteLoop impl fd u fuel buf r) := by
  induction fuel generalizing buf r with
  | zero => exact .vsysfileOut _ _
  | succ fuel ih =>
    unfold Fs.vsysfileWriteLoop
    split_ifs
    · exact .vsysfileOut _ _
    · intro w
      refine Outcome.Post.bind ((h.vfileWrite fd _ (min 4096 buf.length)).vioAttempt w) fun io w' hle => ?_
      have hlen : io.alen ≤ buf.length := hle.trans (min_le_right _ _)
      have hassert : (vassertLen io.alen buf.length : VfsProg π σ ν Unit).run w' = .ok () w' := by
        unfold vassertLen
        split_ifs
        · exact Prog.run_assert_of _ _ hlen
        · rfl
      rw [Prog.bind_of_ok hassert]
      simp only
      split_ifs
      · exact OnlyMissing.vsysfileOut _ _ w'
      · exact ih _ _ w'
    · exact .vsysfileOut _ _

theorem OnlyMissing.vfileTestfd (fd : ℤ) (readable writable : Bool) :
    OnlyMissing (Fs.vfileTestfd fd readable writable : VfsProg π σ ν Bool) := by
  intro w
  rw [vfileTestfd_run]
  trivial

theorem VfsImpl.Returns.vsysfileRead (h : impl.Returns) (fd : ℤ) (len : ℕ) (u : UserMem) :
    OnlyMissing (Fs.vsysfileRead impl fd len u) := by
  unfold Fs.vsysfileRead
  by_cases hlen : len = 0
  · rw [if_pos hlen]
    exact .pure _
  · rw [if_neg hlen]
    refine .bind (.vfileTestfd _ _ _) fun ok => ?_
    split_ifs
    · exact .throw _
    · exact .throw _
    · exact h.vsysfileReadLoop _ _ _ _ _

theorem VfsImpl.Returns.vsysfileWrite (h : impl.Returns) (fd : ℤ) (buf : List UInt8) (u : UserMem) :
    OnlyMissing (Fs.vsysfileWrite impl fd buf u) := by
  unfold Fs.vsysfileWrite
  by_cases hlen : buf.length = 0
  · rw [if_pos hlen]
    exact .pure _
  · rw [if_neg hlen]
    refine .bind (.vfileTestfd _ _ _) fun ok => ?_
    split_ifs
    · exact .throw _
    · exact .throw _
    · exact h.vsysfileWriteLoop _ _ _ _ _

theorem VfsImpl.Returns.vfileSeek (h : impl.Returns) (fd pos : ℤ) (whence : Whence) :
    OnlyMissing (Fs.vfileSeek impl fd pos whence) := by
  refine .bind (.vfd2file fd) fun f => .bind ?_ fun target => .bind (.vopOp (h.tryseek _ _)) fun _ => .modify _
  cases whence with
  | set => exact .pure _
  | cur => exact .pure _
  | fromEnd => exact .bind (.vopFstat _) fun _ => .pure _
  | other => exact .throw _

theorem VfsImpl.Returns.vsysfileGetdirentry (h : impl.Returns) (fd offset : ℤ) (kmalloc copyIn copyOut : Bool) :
    OnlyMissing (Fs.vsysfileGetdirentry impl fd offset kmalloc copyIn copyOut) := by
  unfold Fs.vsysfileGetdirentry
  by_cases hmalloc : kmalloc = false
  · rw [if_pos hmalloc]
    exact .throw _
  by_cases hcopy : copyIn = false
  · rw [if_neg hmalloc, if_pos hcopy]
    exact .throw _
  · rw [if_neg hmalloc, if_neg hcopy]
    refine .bind (.bind (.vfd2file fd) fun f => .bind (.vopOp (h.getdirentry _ _)) fun _ => .pure _) fun entry => ?_
    split_ifs
    · exact .throw _
    · exact .pure _

/-- **Operations that return**: a call can only stop at the assertion of `__vop_op`. -/
theorem VfsImpl.Returns.call (h : impl.Returns) (call : VfsCall) : OnlyMissing (call.code impl) := by
  cases call with
  | sysOpen path flags =>
    refine .bind ?_ fun _ => .pure _
    cases path with
    | none => exact .throw _
    | some path => exact h.vfileOpen path flags
  | sysRead fd len u => exact .bind (h.vsysfileRead fd len u) fun _ => .pure _
  | sysWrite fd buf u => exact .bind (h.vsysfileWrite fd buf u) fun _ => .pure _
  | sysSeek fd pos whence => exact h.vfileSeek fd pos whence
  | sysFstat fd copyOut =>
    refine .bind (.bind (.bind (.vfd2file fd) fun f => .vopFstat f.node) fun _ => ?_) fun _ => .pure _
    split_ifs
    · exact .throw _
    · exact .pure _
  | sysFsync fd => exact .bind (.vfd2file fd) fun f => .vopOp (h.fsync f.node)
  | sysGetdirentry fd offset kmalloc copyIn copyOut =>
    exact .bind (h.vsysfileGetdirentry fd offset kmalloc copyIn copyOut) fun _ => .pure _
  | sysClose fd => exact .bind (.vfd2file fd) fun _ => .modify _
  | sysDup fd1 fd2 =>
    exact .bind (.bind (.vfd2file fd1) fun f => .bind (.vfdArrayAlloc fd2) fun fd =>
      .bind (.modify _) fun _ => .pure _) fun _ => .pure _

end missing

end Ucore.Fs
