import Ucore.Process.Table

/-!
# What the functions on the links do

One lemma for each function of the process table, field by field: `setLinks_run`, `removeLinks_run`, `wakeupProc_run`
and `adopt_run`. Proofs about runs of the table use these and do not look at the functions.
-/

namespace Ucore.Process

open Ucore.Lib

variable {t t' t₁ : ProcTable} {c i p q x : ℕ} {f : Proc → Proc}

namespace ProcTable

theorem proc_setProc (t : ProcTable) (p : ℕ) (f : Proc → Proc) (x : ℕ) :
    (t.setProc p f).proc x = if x = p then f (t.proc x) else t.proc x := by
  show Function.update t.proc p (f (t.proc p)) x = _
  rw [Function.update_apply]
  split_ifs with h
  · rw [h]
  · rfl

/-- A field of a process, after a change to a process. -/
theorem field_setProc {β : Type} (g : Proc → β) (t : ProcTable) (p : ℕ) (f : Proc → Proc) (x : ℕ) :
    g ((t.setProc p f).proc x) = if x = p then g (f (t.proc x)) else g (t.proc x) := by
  rw [proc_setProc]
  split_ifs <;> rfl

theorem parent_setProc : ((t.setProc p f).proc x).parent = if x = p then (f (t.proc x)).parent else (t.proc x).parent :=
  field_setProc Proc.parent t p f x

theorem cptr_setProc : ((t.setProc p f).proc x).cptr = if x = p then (f (t.proc x)).cptr else (t.proc x).cptr :=
  field_setProc Proc.cptr t p f x

theorem yptr_setProc : ((t.setProc p f).proc x).yptr = if x = p then (f (t.proc x)).yptr else (t.proc x).yptr :=
  field_setProc Proc.yptr t p f x

theorem optr_setProc : ((t.setProc p f).proc x).optr = if x = p then (f (t.proc x)).optr else (t.proc x).optr :=
  field_setProc Proc.optr t p f x

@[simp] theorem procList_setProc : (t.setProc p f).procList = t.procList := rfl

@[simp] theorem nrProcess_setProc : (t.setProc p f).nrProcess = t.nrProcess := rfl

@[simp] theorem cursors_setProc : (t.setProc p f).cursors = t.cursors := rfl

@[simp] theorem idleproc_setProc : (t.setProc p f).idleproc = t.idleproc := rfl

@[simp] theorem initproc_setProc : (t.setProc p f).initproc = t.initproc := rfl

end ProcTable

/-! ### What stays the same -/

/-- A process keeps its identifier, its exit code, and whether it has exited. -/
structure SameOwn (d d' : Proc) : Prop where
  pid : d'.pid = d.pid
  exitCode : d'.exitCode = d.exitCode
  zombie : d'.state = .zombie ↔ d.state = .zombie

theorem SameOwn.refl (d : Proc) : SameOwn d d := ⟨rfl, rfl, Iff.rfl⟩

theorem SameOwn.trans {d d₁ d' : Proc} (h : SameOwn d d₁) (h' : SameOwn d₁ d') : SameOwn d d' :=
  ⟨h'.pid.trans h.pid, h'.exitCode.trans h.exitCode, h'.zombie.trans h.zombie⟩

/-- The parts of the table that the functions on the family tree do not change. -/
structure SameTable (t t' : ProcTable) : Prop where
  hashList : t'.hashList = t.hashList
  cursors : t'.cursors = t.cursors
  idleproc : t'.idleproc = t.idleproc
  initproc : t'.initproc = t.initproc
  own : ∀ x, SameOwn (t.proc x) (t'.proc x)

theorem SameTable.refl (t : ProcTable) : SameTable t t := ⟨rfl, rfl, rfl, rfl, fun _ => SameOwn.refl _⟩

/-- A change to the pointers of a process. -/
theorem SameTable.setProc (h : SameTable t t') (p : ℕ) (hf : ∀ d, SameOwn d (f d)) : SameTable t (t'.setProc p f) := by
  refine ⟨h.hashList, h.cursors, h.idleproc, h.initproc, fun x => (h.own x).trans ?_⟩
  rw [ProcTable.proc_setProc]
  split_ifs
  · exact hf _
  · exact SameOwn.refl _

theorem SameTable.withLists (h : SameTable t t') (l : List ℕ) (n : ℤ) :
    SameTable t { t' with procList := l, nrProcess := n } :=
  ⟨h.hashList, h.cursors, h.idleproc, h.initproc, h.own⟩

theorem SameTable.trans (h : SameTable t t₁) (h' : SameTable t₁ t') : SameTable t t' :=
  ⟨h'.hashList.trans h.hashList, h'.cursors.trans h.cursors, h'.idleproc.trans h.idleproc,
    h'.initproc.trans h.initproc, fun x => (h.own x).trans (h'.own x)⟩

/-- The pointers of the family tree are the same, and who is in `proc_list`. -/
structure SameFamily (t t' : ProcTable) : Prop where
  procList : t'.procList = t.procList
  nr : t'.nrProcess = t.nrProcess
  parent : ∀ x, (t'.proc x).parent = (t.proc x).parent
  cptr : ∀ x, (t'.proc x).cptr = (t.proc x).cptr
  yptr : ∀ x, (t'.proc x).yptr = (t.proc x).yptr
  optr : ∀ x, (t'.proc x).optr = (t.proc x).optr

theorem SameFamily.refl (t : ProcTable) : SameFamily t t :=
  ⟨rfl, rfl, fun _ => rfl, fun _ => rfl, fun _ => rfl, fun _ => rfl⟩

/-! ### The functions -/

/-- The process `p` has become the youngest child of `q`. -/
structure LinksSet (t t' : ProcTable) (p q : ℕ) : Prop where
  procList : t'.procList = p :: t.procList
  nr : t'.nrProcess = t.nrProcess + 1
  same : SameTable t t'
  parent : ∀ x, (t'.proc x).parent = (t.proc x).parent
  cptr : ∀ x, (t'.proc x).cptr = if x = q then some p else (t.proc x).cptr
  yptr : ∀ x, (t'.proc x).yptr =
    if (t.proc q).cptr = some x then some p else if x = p then none else (t.proc x).yptr
  optr : ∀ x, (t'.proc x).optr = if x = p then (t.proc q).cptr else (t.proc x).optr

/-- **`set_links`** -/
theorem setLinks_run (hq : (t.proc p).parent = some q) :
    ∃ t', (setLinks p).run t = .ok () t' ∧ LinksSet t t' p q := by
  let t₁ : ProcTable := { t with procList := p :: t.procList }
  let t₂ := t₁.setProc p fun d => { d with yptr := none }
  have hparent : (t₂.proc p).parent = some q := by
    simp only [t₂, ProcTable.parent_setProc, if_pos]
    exact hq
  have hcptr : (t₂.proc q).cptr = (t.proc q).cptr := by
    simp only [t₂, ProcTable.cptr_setProc, ite_self]
    rfl
  have hsame : SameTable t t₂ := ((SameTable.refl t).withLists _ _).setProc p fun _ => ⟨rfl, rfl, Iff.rfl⟩
  simp only [setLinks, setProc, Prog.run_bind, Prog.run_modify, Prog.run_get, Outcome.andThen_ok]
  rw [show ({ t with procList := p :: t.procList } : ProcTable).setProc p (fun d => { d with yptr := none }) = t₂ from rfl,
    hparent]
  simp only [hcptr, Prog.run_bind, Prog.run_modify, Outcome.andThen_ok]
  cases hc : (t.proc q).cptr with
  | none =>
    refine ⟨_, rfl, rfl, rfl, ?_, fun x => ?_, fun x => ?_, fun x => ?_, fun x => ?_⟩
    · refine SameTable.withLists (SameTable.setProc (SameTable.setProc hsame _ ?_) _ ?_) _ _ <;>
        exact fun _ => ⟨rfl, rfl, Iff.rfl⟩
    all_goals simp only [ProcTable.parent_setProc, ProcTable.cptr_setProc, ProcTable.yptr_setProc,
      ProcTable.optr_setProc, ite_self, hc, reduceCtorEq, if_false, t₂, t₁]
  | some o =>
    refine ⟨_, rfl, rfl, rfl, ?_, fun x => ?_, fun x => ?_, fun x => ?_, fun x => ?_⟩
    · refine SameTable.withLists (SameTable.setProc (SameTable.setProc (SameTable.setProc hsame _ ?_) _ ?_) _ ?_) _ _ <;>
        exact fun _ => ⟨rfl, rfl, Iff.rfl⟩
    all_goals simp only [ProcTable.parent_setProc, ProcTable.cptr_setProc, ProcTable.yptr_setProc,
      ProcTable.optr_setProc, ite_self, hc, Option.some.injEq, eq_comm, t₂, t₁]

/-- The process `p` is no longer a child of `q`. -/
structure LinksRemoved (t t' : ProcTable) (p q : ℕ) : Prop where
  procList : t'.procList = t.procList.erase p
  nr : t'.nrProcess = t.nrProcess - 1
  same : SameTable t t'
  parent : ∀ x, (t'.proc x).parent = (t.proc x).parent
  cptr : ∀ x, (t'.proc x).cptr = if (t.proc p).yptr = none ∧ x = q then (t.proc p).optr else (t.proc x).cptr
  yptr : ∀ x, (t'.proc x).yptr = if (t.proc p).optr = some x then (t.proc p).yptr else (t.proc x).yptr
  optr : ∀ x, (t'.proc x).optr = if (t.proc p).yptr = some x then (t.proc p).optr else (t.proc x).optr

/-- **`remove_links`** -/
theorem removeLinks_run (hq : (t.proc p).parent = some q) :
    ∃ t', (removeLinks p).run t = .ok () t' ∧ LinksRemoved t t' p q := by
  let t₁ : ProcTable := { t with procList := t.procList.erase p }
  have hstep : ∃ t₂, (setIfAny (t₁.proc p).optr fun d => { d with yptr := (t₁.proc p).yptr }).run t₁ = .ok () t₂ ∧
      t₂.procList = t₁.procList ∧ t₂.nrProcess = t₁.nrProcess ∧ SameTable t₁ t₂ ∧
      (∀ x, (t₂.proc x).parent = (t.proc x).parent) ∧ (∀ x, (t₂.proc x).cptr = (t.proc x).cptr) ∧
      (∀ x, (t₂.proc x).optr = (t.proc x).optr) ∧
      ∀ x, (t₂.proc x).yptr = if (t.proc p).optr = some x then (t.proc p).yptr else (t.proc x).yptr := by
    cases ho : (t₁.proc p).optr with
    | none =>
      refine ⟨t₁, rfl, rfl, rfl, ⟨rfl, rfl, rfl, rfl, fun x => SameOwn.refl _⟩, fun _ => rfl, fun _ => rfl, fun _ => rfl,
        fun x => ?_⟩
      rw [if_neg nofun]
    | some o =>
      refine ⟨_, rfl, rfl, rfl, ?_, fun x => ?_, fun x => ?_, fun x => ?_, fun x => ?_⟩
      · refine SameTable.setProc (SameTable.refl t₁) _ ?_
        exact fun _ => ⟨rfl, rfl, Iff.rfl⟩
      all_goals simp only [ProcTable.parent_setProc, ProcTable.cptr_setProc, ProcTable.yptr_setProc,
        ProcTable.optr_setProc, ite_self, Option.some.injEq, eq_comm, t₁]
  obtain ⟨t₂, hrun, hlist, hnr, hsame, hparent, hcptr, hoptr, hyptr⟩ := hstep
  have hy : (t₂.proc p).yptr = (t.proc p).yptr := by
    rw [hyptr]
    split_ifs <;> rfl
  rw [removeLinks, Prog.run_bind, Prog.run_modify, Outcome.andThen_ok, Prog.run_bind, Prog.run_get, Outcome.andThen_ok,
    Prog.bind_of_ok hrun, Prog.run_bind, Prog.run_get, Outcome.andThen_ok, Prog.run_bind, hy, hoptr, hparent, hq]
  cases hyp : (t.proc p).yptr with
  | none =>
    refine ⟨_, rfl, hlist, congrArg (· - 1) hnr, ?_, fun x => ?_, fun x => ?_, fun x => ?_, fun x => ?_⟩
    · have hsame' : SameTable t t₂ := ⟨hsame.hashList, hsame.cursors, hsame.idleproc, hsame.initproc, hsame.own⟩
      refine SameTable.withLists (SameTable.setProc hsame' _ ?_) _ _
      exact fun _ => ⟨rfl, rfl, Iff.rfl⟩
    all_goals simp only [ProcTable.parent_setProc, ProcTable.cptr_setProc, ProcTable.yptr_setProc,
      ProcTable.optr_setProc, ite_self, hparent, hcptr, hyptr, hoptr, hyp, true_and, reduceCtorEq, if_false]
  | some y =>
    refine ⟨_, rfl, hlist, congrArg (· - 1) hnr, ?_, fun x => ?_, fun x => ?_, fun x => ?_, fun x => ?_⟩
    · have hsame' : SameTable t t₂ := ⟨hsame.hashList, hsame.cursors, hsame.idleproc, hsame.initproc, hsame.own⟩
      refine SameTable.withLists (SameTable.setProc hsame' _ ?_) _ _
      exact fun _ => ⟨rfl, rfl, Iff.rfl⟩
    all_goals simp only [ProcTable.parent_setProc, ProcTable.cptr_setProc, ProcTable.yptr_setProc,
      ProcTable.optr_setProc, ite_self, hparent, hcptr, hyptr, hoptr, hyp, reduceCtorEq, false_and, if_false,
      Option.some.injEq, eq_comm]

/-- **`wakeup_proc`** on a process that has not exited changes no link. -/
theorem wakeupProc_run (hp : (t.proc p).state ≠ .zombie) :
    ∃ t', (wakeupProc p).run t = .ok () t' ∧ SameTable t t' ∧ SameFamily t t' := by
  rw [wakeupProc, Prog.run_bind, Prog.run_get, Outcome.andThen_ok, Prog.run_bind, Prog.run_assert_of _ _ hp,
    Outcome.andThen_ok, Prog.run_ite]
  by_cases hrun : (t.proc p).state ≠ .runnable
  · rw [if_pos hrun]
    refine ⟨_, rfl, ⟨rfl, rfl, rfl, rfl, fun x => ?_⟩, ⟨rfl, rfl, fun x => ?_, fun x => ?_, fun x => ?_, fun x => ?_⟩⟩
    all_goals rw [ProcTable.proc_setProc]
    · by_cases hx : x = p
      · subst hx
        rw [if_pos rfl]
        exact ⟨rfl, rfl, iff_of_false nofun hp⟩
      · rw [if_neg hx]
        exact SameOwn.refl _
    all_goals split_ifs <;> rfl
  · rw [if_neg hrun]
    exact ⟨t, rfl, ⟨rfl, rfl, rfl, rfl, fun x => SameOwn.refl _⟩, SameFamily.refl t⟩

/-! ### Identifiers -/

theorem length_pids : t.pids.length = t.procList.length := List.length_map _

theorem mem_pids {pid : ℤ} : pid ∈ t.pids ↔ ∃ p ∈ t.procList, (t.proc p).pid = pid := List.mem_map

/-- Processes that keep their identifiers. -/
theorem pids_congr {l : List ℕ} (hl : t'.procList = l) (h : ∀ p ∈ l, (t'.proc p).pid = (t.proc p).pid) :
    t'.pids = l.map fun p => (t.proc p).pid := by
  rw [ProcTable.pids, hl]
  exact List.map_congr_left h

/-- **`get_pid`** on the table. -/
theorem tableGetPid_run (h : PidInv t.pids t.cursors) (hlen : t.procList.length < 8191) :
    ∃ c, tableGetPid.run t = .ok c.lastPid { t with cursors := c } ∧ PidInv t.pids c ∧ c.lastPid < maxPid ∧
      c.lastPid ∉ t.pids := by
  obtain ⟨c, hrun, hinv, hlt, hnew⟩ := getPid_spec h (by rw [length_pids]; exact hlen) (le_refl 8191)
  refine ⟨c, ?_, hinv, hlt, hnew⟩
  rw [tableGetPid, Prog.run_bind, Prog.run_get, Outcome.andThen_ok, hrun]
  rfl

/-! ### The loop of `do_exit` -/

/-- The first child `p` of `c` has become the youngest child of `i`. -/
structure Adopted (t t' : ProcTable) (c p i : ℕ) : Prop where
  procList : t'.procList = t.procList
  nr : t'.nrProcess = t.nrProcess
  same : SameTable t t'
  parent : ∀ x, (t'.proc x).parent = if x = p then some i else (t.proc x).parent
  cptr : ∀ x, (t'.proc x).cptr = if x = i then some p else if x = c then (t.proc p).optr else (t.proc x).cptr
  yptr : ∀ x, (t'.proc x).yptr =
    if (t.proc i).cptr = some x then some p else if x = p then none else (t.proc x).yptr
  optr : ∀ x, (t'.proc x).optr = if x = p then (t.proc i).cptr else (t.proc x).optr

/-- **One turn of the loop** of `do_exit`. -/
theorem adopt_run (hi : t.initproc = some i) (hci : c ≠ i) (hlive : (t.proc i).state ≠ .zombie) :
    ∃ t', (adopt c p).run t = .ok () t' ∧ Adopted t t' c p i := by
  let t₁ := (t.setProc c fun d => { d with cptr := (t.proc p).optr }).setProc p fun d => { d with yptr := none }
  have hi₁ : t₁.initproc = some i := hi
  have hsame : SameTable t t₁ := by
    refine SameTable.setProc (SameTable.setProc (SameTable.refl t) _ ?_) _ ?_ <;> exact fun _ => ⟨rfl, rfl, Iff.rfl⟩
  have hcptr : (t₁.proc i).cptr = (t.proc i).cptr := by
    simp only [t₁, ProcTable.proc_setProc]
    rw [if_neg hci.symm]
    split_ifs <;> rfl
  -- the end of the turn, when the pointers have been changed
  have hwake : ∀ t₂, Adopted t t₂ c p i → ∃ t', ((if (t₂.proc p).state = .zombie ∧ (t₂.proc i).waitState = wtChild then
      wakeupProc i else pure () : TableProg Unit).run t₂ = .ok () t') ∧ Adopted t t' c p i := by
    intro t₂ h
    have hlive₂ : (t₂.proc i).state ≠ .zombie := fun hz => hlive ((h.same.own i).zombie.mp hz)
    obtain ⟨t₃, hrun, hsame, hfam⟩ := wakeupProc_run hlive₂
    rw [Prog.run_ite]
    split_ifs
    · refine ⟨t₃, hrun, hfam.procList.trans h.procList, hfam.nr.trans h.nr, h.same.trans hsame, fun x => ?_,
        fun x => ?_, fun x => ?_, fun x => ?_⟩
      · rw [hfam.parent, h.parent]
      · rw [hfam.cptr, h.cptr]
      · rw [hfam.yptr, h.yptr]
      · rw [hfam.optr, h.optr]
    · exact ⟨t₂, rfl, h⟩
  simp only [adopt, setProc, Prog.run_bind, Prog.run_get, Prog.run_modify, Outcome.andThen_ok]
  rw [show ((t.setProc c fun d => { d with cptr := (t.proc p).optr }).setProc p fun d =>
    { d with yptr := none }) = t₁ from rfl, hi₁]
  simp only [hcptr, Prog.run_bind, Prog.run_modify, Outcome.andThen_ok]
  cases hc : (t.proc i).cptr with
  | none =>
    refine hwake _ ⟨rfl, rfl, ?_, fun x => ?_, fun x => ?_, fun x => ?_, fun x => ?_⟩
    · refine SameTable.setProc (SameTable.setProc (SameTable.setProc hsame _ ?_) _ ?_) _ ?_ <;>
        exact fun _ => ⟨rfl, rfl, Iff.rfl⟩
    all_goals simp only [ProcTable.parent_setProc, ProcTable.cptr_setProc, ProcTable.yptr_setProc,
      ProcTable.optr_setProc, ite_self, hc, reduceCtorEq, if_false, t₁]
  | some o =>
    refine hwake _ ⟨rfl, rfl, ?_, fun x => ?_, fun x => ?_, fun x => ?_, fun x => ?_⟩
    · refine SameTable.setProc (SameTable.setProc (SameTable.setProc (SameTable.setProc hsame _ ?_) _ ?_) _ ?_) _ ?_ <;>
        exact fun _ => ⟨rfl, rfl, Iff.rfl⟩
    all_goals simp only [ProcTable.parent_setProc, ProcTable.cptr_setProc, ProcTable.yptr_setProc,
      ProcTable.optr_setProc, ite_self, hc, Option.some.injEq, eq_comm, t₁]

end Ucore.Process
