import Ucore.Lib.Chain
import Ucore.Process.Links

/-!
# The invariant of the process table

What holds of the lists and of the family tree between two calls, and what each call does to it.

* `TableInv` is about `proc_list`, the hash table, the number of processes and the identifiers; `Family` is about the
  pointers `parent`, `cptr`, `yptr` and `optr`. The list of the children of each process is what `Family` is about.
* `doFork_run` and `doExit_post` say how the calls end, and that the invariant is kept.
* `Orphans` is the invariant of the loop of `do_exit`, in which the first child of the process that exits has a stale
  `yptr`.
-/

namespace Ucore.Process

open Ucore.Lib

/-- A process is there: `idleproc`, or one in `proc_list`. -/
def ProcTable.Live (t : ProcTable) (p : ℕ) : Prop := p = t.idleproc ∨ p ∈ t.procList

/-- A process can run: it is there and has not exited. -/
def ProcTable.Running (t : ProcTable) (p : ℕ) : Prop := t.Live p ∧ (t.proc p).state ≠ .zombie

/-- The lists of the process table agree. -/
structure TableInv (t : ProcTable) : Prop where
  nodup : t.procList.Nodup
  idle : t.idleproc ∉ t.procList
  hashNodup : ∀ h, (t.hashList h).Nodup
  hash : ∀ h p, p ∈ t.hashList h ↔ p ∈ t.procList ∧ pidHashfn (t.proc p).pid = h
  nr : t.nrProcess = t.procList.length + 1
  cursors : PidInv t.pids t.cursors
  pids : t.pids.Nodup
  range : ∀ p ∈ t.procList, 1 ≤ (t.proc p).pid ∧ (t.proc p).pid < maxPid

/-- The children of a process are linked from its `cptr` on. -/
structure Children (t : ProcTable) (q : ℕ) (l : List ℕ) : Prop where
  head : (t.proc q).cptr = l.head?
  chain : Chained (fun x => (t.proc x).optr) (fun x => (t.proc x).yptr) l
  mem : ∀ p, p ∈ l ↔ p ∈ t.procList ∧ (t.proc p).parent = some q

/-- The family tree. -/
structure Family (t : ProcTable) (kids : ℕ → List ℕ) : Prop where
  parent : ∀ p ∈ t.procList, ∃ q, (t.proc p).parent = some q ∧ q ≠ p ∧ t.Running q
  children : ∀ q, t.Live q → Children t q (kids q)

/-- The two processes that never exit. -/
structure Permanent (t : ProcTable) (i : ℕ) : Prop where
  init : t.initproc = some i
  mem : i ∈ t.procList
  initRuns : (t.proc i).state ≠ .zombie
  idleRuns : (t.proc t.idleproc).state ≠ .zombie
  parent : (t.proc i).parent = some t.idleproc

variable {t t' t₁ : ProcTable} {kids kids' : ℕ → List ℕ} {c i p q x : ℕ} {l l' : List ℕ}

/-! ### Small facts -/

theorem TableInv.pid_injective (h : TableInv t) (hp : p ∈ t.procList) (hq : q ∈ t.procList)
    (heq : (t.proc p).pid = (t.proc q).pid) : p = q := by
  have hpids : (t.procList.map fun p => (t.proc p).pid).Nodup := h.pids
  exact List.inj_on_of_nodup_map hpids hp hq heq

/-- **`find_proc`** finds the process with an identifier. -/
theorem TableInv.findProc (h : TableInv t) (pid : ℤ) (p : ℕ) :
    t.findProc pid = some p ↔ p ∈ t.procList ∧ (t.proc p).pid = pid := by
  unfold ProcTable.findProc
  constructor
  · intro hfind
    split_ifs at hfind
    have hpid := List.find?_some hfind
    exact ⟨((h.hash _ p).mp (List.mem_of_find?_eq_some hfind)).1, of_decide_eq_true hpid⟩
  · rintro ⟨hp, rfl⟩
    have hrange := h.range p hp
    rw [if_pos ⟨by omega, hrange.2⟩]
    have hmem : p ∈ t.hashList (pidHashfn (t.proc p).pid) := (h.hash _ p).mpr ⟨hp, rfl⟩
    cases hfind : (t.hashList (pidHashfn (t.proc p).pid)).find? fun q => (t.proc q).pid = (t.proc p).pid with
    | none =>
      rw [List.find?_eq_none] at hfind
      exact absurd (decide_eq_true rfl) (hfind p hmem)
    | some q =>
      have hpid := List.find?_some hfind
      have hq := ((h.hash _ q).mp (List.mem_of_find?_eq_some hfind)).1
      rw [h.pid_injective hq hp (of_decide_eq_true hpid)]

/-- The children of a process whose links have not been touched. -/
theorem Children.congr (h : Children t q l) (hlist : ∀ x, (t.proc x).parent = some q ∨ (t'.proc x).parent = some q →
      (x ∈ t'.procList ∧ (t'.proc x).parent = some q ↔ x ∈ t.procList ∧ (t.proc x).parent = some q))
    (hcptr : (t'.proc q).cptr = (t.proc q).cptr)
    (hlinks : ∀ x ∈ l, (t'.proc x).optr = (t.proc x).optr ∧ (t'.proc x).yptr = (t.proc x).yptr) : Children t' q l := by
  refine ⟨hcptr.trans h.head, h.chain.congr (fun x hx => (hlinks x hx).1) fun x hx => (hlinks x hx).2, fun x => ?_⟩
  rw [h.mem]
  constructor
  · exact fun hx => (hlist x (Or.inl hx.2)).mpr hx
  · exact fun hx => (hlist x (Or.inr hx.2)).mp hx

/-- The calls keep what a process is. -/
structure SameProcs (t t' : ProcTable) : Prop where
  procList : t'.procList = t.procList
  nr : t'.nrProcess = t.nrProcess
  same : SameTable t t'

theorem SameProcs.refl (t : ProcTable) : SameProcs t t := ⟨rfl, rfl, SameTable.refl t⟩

theorem SameProcs.trans (h : SameProcs t t₁) (h' : SameProcs t₁ t') : SameProcs t t' :=
  ⟨h'.procList.trans h.procList, h'.nr.trans h.nr, h.same.trans h'.same⟩

theorem SameProcs.live (h : SameProcs t t') : t'.Live x ↔ t.Live x := by
  rw [ProcTable.Live, h.procList, h.same.idleproc, ProcTable.Live]

theorem SameProcs.running (h : SameProcs t t') : t'.Running x ↔ t.Running x :=
  and_congr h.live (not_congr (h.same.own x).zombie)

/-- The lists do not depend on the pointers. -/
theorem TableInv.congr (h : TableInv t) (hsame : SameProcs t t') : TableInv t' := by
  have hpids : t'.pids = t.pids := pids_congr hsame.procList fun p _ => (hsame.same.own p).pid
  refine ⟨?_, ?_, fun b => ?_, fun b p => ?_, ?_, ?_, ?_, fun p hp => ?_⟩
  · rw [hsame.procList]
    exact h.nodup
  · rw [hsame.procList, hsame.same.idleproc]
    exact h.idle
  · rw [hsame.same.hashList]
    exact h.hashNodup b
  · rw [hsame.same.hashList, hsame.procList, (hsame.same.own p).pid]
    exact h.hash b p
  · rw [hsame.nr, hsame.procList]
    exact h.nr
  · rw [hpids, hsame.same.cursors]
    exact h.cursors
  · rw [hpids]
    exact h.pids
  · rw [hsame.procList] at hp
    rw [(hsame.same.own p).pid]
    exact h.range p hp

theorem Permanent.congr (h : Permanent t i) (hsame : SameProcs t t')
    (hparent : (t'.proc i).parent = (t.proc i).parent) : Permanent t' i := by
  refine ⟨hsame.same.initproc.trans h.init, ?_, fun hz => h.initRuns ((hsame.same.own i).zombie.mp hz), ?_, ?_⟩
  · rw [hsame.procList]
    exact h.mem
  · rw [hsame.same.idleproc]
    exact fun hz => h.idleRuns ((hsame.same.own _).zombie.mp hz)
  · rw [hparent, h.parent, hsame.same.idleproc]

/-- The tree does not depend on anything else. -/
theorem Family.congr (h : Family t kids) (hsame : SameProcs t t') (hfam : SameFamily t t') : Family t' kids := by
  refine ⟨fun p hp => ?_, fun q hq => ?_⟩
  · rw [hfam.procList] at hp
    obtain ⟨q, hparent, hne, hrun⟩ := h.parent p hp
    exact ⟨q, (hfam.parent p).trans hparent, hne, hsame.running.mpr hrun⟩
  · refine (h.children q (hsame.live.mp hq)).congr (fun x _ => ?_) (hfam.cptr q) fun x _ => ⟨hfam.optr x, hfam.yptr x⟩
    rw [hfam.procList, hfam.parent]

/-! ### Fork -/

/-- The child `p` of `c` is there. -/
structure Forked (t t' : ProcTable) (c p : ℕ) (pid : ℤ) : Prop where
  procList : t'.procList = p :: t.procList
  hashList : t'.hashList = Function.update t.hashList (pidHashfn pid) (p :: t.hashList (pidHashfn pid))
  nr : t'.nrProcess = t.nrProcess + 1
  idleproc : t'.idleproc = t.idleproc
  initproc : t'.initproc = t.initproc
  newPid : (t'.proc p).pid = pid ∧ 1 ≤ pid ∧ pid < maxPid ∧ pid ∉ t.pids
  cursors : PidInv t.pids t'.cursors ∧ t'.cursors.lastPid = pid
  newRuns : (t'.proc p).state ≠ .zombie
  own : ∀ x, x ≠ p → SameOwn (t.proc x) (t'.proc x)
  parent : ∀ x, (t'.proc x).parent = if x = p then some c else (t.proc x).parent
  cptr : ∀ x, x ≠ p → (t'.proc x).cptr = if x = c then some p else (t.proc x).cptr
  newCptr : (t'.proc p).cptr = none
  yptr : ∀ x, x ≠ p → (t'.proc x).yptr = if (t.proc c).cptr = some x then some p else (t.proc x).yptr
  newYptr : (t'.proc p).yptr = none
  optr : ∀ x, (t'.proc x).optr = if x = p then (t.proc c).cptr else (t.proc x).optr

/-- **`do_fork`** of a process that waits for nothing. -/
theorem doFork_run (h : TableInv t) (hnr : t.nrProcess < maxProcess) (hcp : c ≠ p) (hp : p ∉ t.procList)
    (hcptr : (t.proc c).cptr ≠ some p) (hwait : (t.proc c).waitState = 0) :
    ∃ pid t', (doFork c p).run t = .ok pid t' ∧ Forked t t' c p pid := by
  have hne : ∀ x ∈ t.procList, x ≠ p := fun x hx heq => hp (heq ▸ hx)
  let t₁ := t.setProc p fun d => { allocProc d with parent := some c }
  have hpids : t₁.pids = t.pids := by
    refine pids_congr rfl fun x hx => ?_
    rw [ProcTable.proc_setProc, if_neg (hne x hx)]
  have hwait₁ : (t₁.proc c).waitState = 0 := by
    rw [ProcTable.proc_setProc, if_neg hcp]
    exact hwait
  have hinv₁ : PidInv t₁.pids t₁.cursors := by
    rw [hpids]
    exact h.cursors
  have hlen : t₁.procList.length < 8191 := by
    have := h.nr
    unfold maxProcess at hnr
    show t.procList.length < 8191
    omega
  obtain ⟨cur, hget, hcur, hlt, hnew⟩ := tableGetPid_run hinv₁ hlen
  rw [hpids] at hcur hnew
  let t₂ := ({ t₁ with cursors := cur } : ProcTable).setProc p fun d => { d with pid := cur.lastPid }
  have hpid₂ : (t₂.proc p).pid = cur.lastPid := by
    rw [ProcTable.proc_setProc, if_pos rfl]
  let t₃ : ProcTable :=
    { t₂ with
      hashList := Function.update t₂.hashList (pidHashfn (t₂.proc p).pid) (p :: t₂.hashList (pidHashfn (t₂.proc p).pid)) }
  have hother : ∀ x, x ≠ p → t₃.proc x = t.proc x := by
    intro x hx
    show (t₂.proc x) = _
    rw [ProcTable.proc_setProc, if_neg hx]
    show t₁.proc x = _
    rw [ProcTable.proc_setProc, if_neg hx]
  have hchild : t₃.proc p = { allocProc (t.proc p) with parent := some c, pid := cur.lastPid } := by
    show (t₂.proc p) = _
    rw [ProcTable.proc_setProc, if_pos rfl]
    show ({ t₁.proc p with pid := cur.lastPid } : Proc) = _
    rw [ProcTable.proc_setProc, if_pos rfl]
  obtain ⟨t₄, hlinks, hset⟩ := setLinks_run (t := t₃) (p := p) (q := c) (by rw [hchild])
  have hnotz : (t₃.proc p).state ≠ .zombie := by
    rw [hchild]
    exact ProcState.noConfusion
  have hlive₄ : (t₄.proc p).state ≠ .zombie := fun hz => hnotz ((hset.same.own p).zombie.mp hz)
  obtain ⟨t₅, hwake, hsame, hfam⟩ := wakeupProc_run hlive₄
  have hown : ∀ x, SameOwn (t₃.proc x) (t₅.proc x) := fun x => (hset.same.own x).trans (hsame.own x)
  refine ⟨cur.lastPid, t₅, ?_, ?_⟩
  · rw [doFork, Prog.run_bind, Prog.run_get, Outcome.andThen_ok, Prog.run_ite, if_neg (by omega), setProc,
      Prog.run_bind, Prog.run_modify, Outcome.andThen_ok, Prog.run_bind, Prog.run_get, Outcome.andThen_ok,
      Prog.run_bind, Prog.run_assert_of _ _ hwait₁, Outcome.andThen_ok, Prog.bind_of_ok hget, setProc, Prog.run_bind,
      Prog.run_modify, Outcome.andThen_ok, hashProc, Prog.run_bind, Prog.run_modify, Outcome.andThen_ok,
      Prog.bind_of_ok hlinks, Prog.bind_of_ok hwake, Prog.run_pure]
  · have hcptr₃ : (t₃.proc c).cptr = (t.proc c).cptr := by rw [hother c hcp]
    refine ⟨?_, ?_, ?_, ?_, ?_, ⟨?_, hcur.pos, hlt, hnew⟩, ⟨?_, ?_⟩, ?_, fun x hx => ?_,
      fun x => ?_, fun x hx => ?_, ?_, fun x hx => ?_, ?_, fun x => ?_⟩
    · exact hfam.procList.trans hset.procList
    · rw [hsame.hashList, hset.same.hashList]
      show Function.update t₂.hashList _ _ = _
      rw [hpid₂]
      rfl
    · exact hfam.nr.trans hset.nr
    · exact hsame.idleproc.trans hset.same.idleproc
    · exact hsame.initproc.trans hset.same.initproc
    · rw [(hown p).pid, hchild]
    · rw [hsame.cursors, hset.same.cursors]
      exact hcur
    · rw [hsame.cursors, hset.same.cursors]
      rfl
    · exact fun hz => hnotz ((hown p).zombie.mp hz)
    · rw [← hother x hx]
      exact hown x
    · rw [hfam.parent, hset.parent]
      by_cases hx : x = p
      · rw [if_pos hx, hx, hchild]
      · rw [if_neg hx, hother x hx]
    · rw [hfam.cptr, hset.cptr, hother x hx]
    · rw [hfam.cptr, hset.cptr, if_neg hcp.symm, hchild]
      rfl
    · rw [hfam.yptr, hset.yptr, hcptr₃, if_neg hx, hother x hx]
    · rw [hfam.yptr, hset.yptr, hcptr₃, if_neg hcptr, if_pos rfl]
    · rw [hfam.optr, hset.optr, hcptr₃]
      by_cases hx : x = p
      · rw [if_pos hx, if_pos hx]
      · rw [if_neg hx, if_neg hx, hother x hx]

theorem Forked.live {pid : ℤ} (hf : Forked t t' c p pid) : t'.Live x ↔ x = p ∨ t.Live x := by
  rw [ProcTable.Live, hf.procList, hf.idleproc, List.mem_cons, ProcTable.Live]
  tauto

theorem Forked.running {pid : ℤ} (hf : Forked t t' c p pid) (hx : t.Running x) (hne : x ≠ p) : t'.Running x :=
  ⟨hf.live.mpr (Or.inr hx.1), fun hz => hx.2 ((hf.own x hne).zombie.mp hz)⟩

theorem TableInv.forked {pid : ℤ} (h : TableInv t) (hp : ¬ t.Live p) (hf : Forked t t' c p pid) : TableInv t' := by
  have hnew : p ∉ t.procList := fun hmem => hp (Or.inr hmem)
  have hne : ∀ x ∈ t.procList, x ≠ p := fun x hx heq => hnew (heq ▸ hx)
  obtain ⟨hpid, hpos, hlt, hfresh⟩ := hf.newPid
  have hpids : t'.pids = pid :: t.pids := by
    rw [ProcTable.pids, hf.procList, List.map_cons, hpid, ProcTable.pids]
    congr 1
    exact List.map_congr_left fun x hx => (hf.own x (hne x hx)).pid
  refine ⟨?_, ?_, fun b => ?_, fun b x => ?_, ?_, ?_, ?_, fun x hx => ?_⟩
  · rw [hf.procList]
    exact List.nodup_cons.mpr ⟨hnew, h.nodup⟩
  · rw [hf.procList, hf.idleproc, List.mem_cons]
    rintro (heq | hmem)
    · exact hp (Or.inl heq.symm)
    · exact h.idle hmem
  · rw [hf.hashList, Function.update_apply]
    split_ifs with hb
    · exact List.nodup_cons.mpr ⟨fun hmem => hnew ((h.hash _ p).mp hmem).1, h.hashNodup _⟩
    · exact h.hashNodup b
  · have hold : x ∈ t.hashList b → x ≠ p := fun hmem => hne x ((h.hash b x).mp hmem).1
    rw [hf.hashList, Function.update_apply, hf.procList, List.mem_cons]
    by_cases hxp : x = p
    · subst hxp
      rw [hpid]
      split_ifs with hb
      · simp [hb]
      · exact iff_of_false (fun hmem => hold hmem rfl) fun hand => hb hand.2.symm
    · rw [(hf.own x hxp).pid]
      split_ifs with hb
      · rw [List.mem_cons, hb, h.hash]
        simp [hxp]
      · rw [h.hash]
        simp [hxp]
  · rw [hf.nr, hf.procList, h.nr, List.length_cons, Nat.cast_succ]
  · rw [hpids]
    refine hf.cursors.1.mono fun x hx => ?_
    rw [hf.cursors.2]
    exact (List.mem_cons.mp hx).symm
  · rw [hpids]
    exact List.nodup_cons.mpr ⟨hfresh, h.pids⟩
  · rw [hf.procList] at hx
    by_cases hxp : x = p
    · rw [hxp, hpid]
      exact ⟨hpos, hlt⟩
    · rw [(hf.own x hxp).pid]
      exact h.range x ((List.mem_cons.mp hx).resolve_left hxp)

theorem Permanent.forked {pid : ℤ} (h : Permanent t i) (hp : ¬ t.Live p) (hf : Forked t t' c p pid) : Permanent t' i := by
  have hi : i ≠ p := by
    rintro rfl
    exact hp (Or.inr h.mem)
  have hidle : t.idleproc ≠ p := fun heq => hp (Or.inl heq.symm)
  refine ⟨hf.initproc.trans h.init, ?_, fun hz => h.initRuns ((hf.own i hi).zombie.mp hz), ?_, ?_⟩
  · rw [hf.procList]
    exact List.mem_cons_of_mem _ h.mem
  · rw [hf.idleproc]
    exact fun hz => h.idleRuns ((hf.own _ hidle).zombie.mp hz)
  · rw [hf.parent, if_neg hi, hf.idleproc]
    exact h.parent

/-- **The child is the first one** of its parent, and has no children. -/
theorem Family.forked {pid : ℤ} (h : Family t kids) (hc : t.Running c) (hp : ¬ t.Live p) (hf : Forked t t' c p pid) :
    Family t' (Function.update (Function.update kids c (p :: kids c)) p []) := by
  have hnew : p ∉ t.procList := fun hmem => hp (Or.inr hmem)
  have hcp : c ≠ p := by
    rintro rfl
    exact hp hc.1
  -- the children of anybody are older than `p`
  have hold : ∀ q, t.Live q → ∀ x ∈ kids q, x ≠ p := by
    rintro q hq x hx rfl
    exact hnew (((h.children q hq).mem x).mp hx).1
  refine ⟨fun x hx => ?_, fun q hq => ?_⟩
  · rw [hf.procList] at hx
    rw [hf.parent]
    by_cases hxp : x = p
    · exact ⟨c, if_pos hxp, hxp ▸ hcp, hf.running hc hcp⟩
    · obtain ⟨q, hparent, hne, hrun⟩ := h.parent x ((List.mem_cons.mp hx).resolve_left hxp)
      refine ⟨q, (if_neg hxp).trans hparent, hne, hf.running hrun ?_⟩
      rintro rfl
      exact hp hrun.1
  by_cases hqp : q = p
  · subst hqp
    rw [Function.update_self]
    refine ⟨hf.newCptr, Chained.nil, fun x => ?_⟩
    rw [hf.procList, hf.parent]
    refine iff_of_false List.not_mem_nil ?_
    rintro ⟨hx, hparent⟩
    split_ifs at hparent with hxp
    · exact hcp (Option.some.inj hparent)
    · obtain ⟨r, hr, -, hrun⟩ := h.parent x ((List.mem_cons.mp hx).resolve_left hxp)
      rw [hparent] at hr
      exact hp (Option.some.inj hr ▸ hrun.1)
  have hlive : t.Live q := (hf.live.mp hq).resolve_left hqp
  obtain ⟨hhead, hchain, hmem⟩ := h.children q hlive
  rw [Function.update_of_ne hqp]
  by_cases hqc : q = c
  · subst hqc
    rw [Function.update_self]
    refine ⟨?_, ?_, fun x => ?_⟩
    · rw [hf.cptr q hqp, if_pos rfl]
      rfl
    · refine hchain.push (fun hx => hold q hlive p hx rfl) ?_ hf.newYptr (fun b hb => ?_) (fun b hb => ?_) fun b hb hne => ?_
      · rw [hf.optr, if_pos rfl, hhead]
      · rw [hf.yptr b (hold q hlive b (List.mem_of_mem_head? hb)), hhead, if_pos hb]
      · rw [hf.optr, if_neg (hold q hlive b hb)]
      · rw [hf.yptr b (hold q hlive b hb), hhead, if_neg hne]
    · rw [hf.procList, hf.parent, List.mem_cons, List.mem_cons, hmem]
      by_cases hxp : x = p
      · simp [hxp]
      · simp [hxp]
  · rw [Function.update_of_ne hqc]
    refine (h.children q hlive).congr (fun x hx => ?_) ?_ fun x hx => ⟨?_, ?_⟩
    · rw [hf.procList, hf.parent, List.mem_cons]
      by_cases hxp : x = p
      · subst hxp
        rw [if_pos rfl]
        refine iff_of_false (fun hand => hqc (Option.some.inj hand.2).symm) fun hand => hnew hand.1
      · simp [hxp]
    · rw [hf.cptr q hqp, if_neg hqc]
    · rw [hf.optr, if_neg (hold q hlive x hx)]
    · rw [hf.yptr x (hold q hlive x hx), if_neg]
      -- the first child of `c` is not one of `q`
      intro hhead'
      have hxc := ((h.children c hc.1).mem x).mp (List.mem_of_mem_head? ((h.children c hc.1).head ▸ hhead'))
      have hxq := (hmem x).mp hx
      rw [hxc.2] at hxq
      exact hqc (Option.some.inj hxq.2).symm

/-! ### Exit -/

/-- The tree while the children of `c`, which has exited, are given to `initproc`. -/
structure Orphans (t : ProcTable) (kids : ℕ → List ℕ) (c : ℕ) : Prop where
  parent : ∀ p ∈ t.procList, ∃ q, (t.proc p).parent = some q ∧ q ≠ p ∧ (t.Running q ∨ q = c)
  children : ∀ q, t.Live q → q ≠ c → Children t q (kids q)
  head : (t.proc c).cptr = (kids c).head?
  nodup : (kids c).Nodup
  fwd : Chain (fun x => (t.proc x).optr) (kids c) none
  mem : ∀ p, p ∈ kids c ↔ p ∈ t.procList ∧ (t.proc p).parent = some c

/-- When none is left, the tree is as it should be. -/
theorem Orphans.family (h : Orphans t kids c) (hkids : kids c = []) : Family t kids := by
  refine ⟨fun p hp => ?_, fun q hq => ?_⟩
  · obtain ⟨q, hparent, hne, hrun | rfl⟩ := h.parent p hp
    · exact ⟨q, hparent, hne, hrun⟩
    · have hmem := (h.mem p).mpr ⟨hp, hparent⟩
      rw [hkids] at hmem
      exact absurd hmem List.not_mem_nil
  · by_cases hqc : q = c
    · subst hqc
      refine ⟨h.head, ?_, h.mem⟩
      rw [hkids]
      exact Chained.nil
    · exact h.children q hq hqc

/-- **One child changes hands.** -/
theorem Orphans.adopted (h : Orphans t kids c) (hkids : kids c = p :: l) (hci : c ≠ i) (hi : t.Running i)
    (hpi : p ≠ i) (had : Adopted t t' c p i) : Orphans t' (Function.update (Function.update kids c l) i (p :: kids i)) c := by
  have hsame : SameProcs t t' := ⟨had.procList, had.nr, had.same⟩
  have hp := (h.mem p).mp (by rw [hkids]; exact List.mem_cons_self)
  obtain ⟨hpl, hl⟩ := List.nodup_cons.mp (hkids ▸ h.nodup)
  -- the children of others than `c` are not `p`
  have hold : ∀ q, t.Live q → q ≠ c → ∀ x ∈ kids q, x ≠ p := by
    rintro q hq hqc x hx rfl
    have hxq := ((h.children q hq hqc).mem x).mp hx
    rw [hp.2] at hxq
    exact hqc (Option.some.inj hxq.2).symm
  have hfwd := h.fwd
  rw [hkids] at hfwd
  refine ⟨fun x hx => ?_, fun q hq hqc => ?_, ?_, ?_, ?_, fun x => ?_⟩
  · rw [had.procList] at hx
    rw [had.parent]
    by_cases hxp : x = p
    · exact ⟨i, if_pos hxp, hxp ▸ hpi.symm, Or.inl (hsame.running.mpr hi)⟩
    · obtain ⟨q, hparent, hne, hrun⟩ := h.parent x hx
      exact ⟨q, (if_neg hxp).trans hparent, hne, hrun.imp_left hsame.running.mpr⟩
  · have hlive : t.Live q := hsame.live.mp hq
    have hchildren := h.children q hlive hqc
    by_cases hqi : q = i
    · subst hqi
      rw [Function.update_self]
      refine ⟨?_, ?_, fun x => ?_⟩
      · rw [had.cptr, if_pos rfl]
        rfl
      · refine hchildren.chain.push (fun hx => hold q hlive hqc p hx rfl) ?_ ?_ (fun b hb => ?_) (fun b hb => ?_)
          fun b hb hne => ?_
        · rw [had.optr, if_pos rfl, hchildren.head]
        · rw [had.yptr, hchildren.head, if_neg, if_pos rfl]
          exact fun heq => hold q hlive hqc p (List.mem_of_mem_head? heq) rfl
        · rw [had.yptr, hchildren.head, if_pos hb]
        · rw [had.optr, if_neg (hold q hlive hqc b hb)]
        · rw [had.yptr, hchildren.head, if_neg hne, if_neg (hold q hlive hqc b hb)]
      · rw [had.procList, had.parent, List.mem_cons, hchildren.mem]
        by_cases hxp : x = p
        · simp [hxp, hp.1]
        · simp [hxp]
    · rw [Function.update_of_ne hqi, Function.update_of_ne hqc]
      refine hchildren.congr (fun x _ => ?_) ?_ fun x hx => ⟨?_, ?_⟩
      · rw [had.procList, had.parent]
        by_cases hxp : x = p
        · subst hxp
          rw [if_pos rfl, hp.2]
          exact iff_of_false (fun hand => hqi (Option.some.inj hand.2).symm) fun hand => hqc (Option.some.inj hand.2).symm
        · rw [if_neg hxp]
      · rw [had.cptr, if_neg hqi, if_neg hqc]
      · rw [had.optr, if_neg (hold q hlive hqc x hx)]
      · rw [had.yptr, if_neg, if_neg (hold q hlive hqc x hx)]
        -- the first child of `i` is not one of `q`
        intro hhead
        have hchildrenᵢ := h.children i hi.1 hci.symm
        have hxi := (hchildrenᵢ.mem x).mp (List.mem_of_mem_head? (hchildrenᵢ.head ▸ hhead))
        have hxq := (hchildren.mem x).mp hx
        rw [hxi.2] at hxq
        exact hqi (Option.some.inj hxq.2).symm
  all_goals rw [Function.update_of_ne hci, Function.update_self]
  · rw [had.cptr, if_neg hci, if_pos rfl]
    have hnext := hfwd.next_cons
    rw [Option.or_none] at hnext
    exact hnext
  · exact hl
  · refine hfwd.tail.congr fun x hx => ?_
    rw [had.optr, if_neg]
    rintro rfl
    exact hpl hx
  · rw [had.procList, had.parent]
    have hmem := h.mem x
    rw [hkids, List.mem_cons] at hmem
    by_cases hxp : x = p
    · subst hxp
      rw [if_pos rfl]
      exact iff_of_false hpl fun hand => hci (Option.some.inj hand.2).symm
    · rw [if_neg hxp, ← hmem]
      simp [hxp]

/-- **The loop of `do_exit`** gives every child to `initproc`, in as many turns as there are children. -/
theorem adoptAll_post (fuel : ℕ) (h : Orphans t kids c) (hperm : Permanent t i) (hidle : c ≠ t.idleproc) (hci : c ≠ i) :
    ((adoptAll c fuel).run t).Post (fun _ t' => (∃ kids', Family t' kids') ∧ Permanent t' i ∧ SameProcs t t')
      (fun _ _ => False)
      (fun e => e = .loop ∧ fuel < (kids c).length) := by
  induction fuel generalizing t kids with
  | zero =>
    rw [adoptAll, Prog.run_bind, Prog.run_get, Outcome.andThen_ok, Prog.run_assert, h.head]
    cases hkids : kids c with
    | nil => exact ⟨⟨kids, h.family hkids⟩, hperm, SameProcs.refl t⟩
    | cons p l => exact ⟨rfl, Nat.zero_lt_succ _⟩
  | succ fuel ih =>
    rw [adoptAll, Prog.run_bind, Prog.run_get, Outcome.andThen_ok, h.head]
    cases hkids : kids c with
    | nil => exact ⟨⟨kids, h.family hkids⟩, hperm, SameProcs.refl t⟩
    | cons p l =>
      obtain ⟨t₁, hrun, had⟩ := adopt_run (p := p) hperm.init hci hperm.initRuns
      have hsame : SameProcs t t₁ := ⟨had.procList, had.nr, had.same⟩
      have hp := (h.mem p).mp (by rw [hkids]; exact List.mem_cons_self)
      have hpi : p ≠ i := by
        rintro rfl
        rw [hperm.parent] at hp
        exact hidle (Option.some.inj hp.2).symm
      have hperm₁ : Permanent t₁ i := hperm.congr hsame (by rw [had.parent, if_neg hpi.symm])
      have hrest := ih (h.adopted hkids hci ⟨Or.inr hperm.mem, hperm.initRuns⟩ hpi had) hperm₁
        (by rw [hsame.same.idleproc]; exact hidle)
      rw [Function.update_of_ne hci, Function.update_self] at hrest
      simp only [List.head?_cons]
      rw [Prog.bind_of_ok hrun]
      refine hrest.mono ?_ (fun _ _ hE => hE) ?_
      · rintro _ t' ⟨hfam, hperm', hsame'⟩
        exact ⟨hfam, hperm', hsame.trans hsame'⟩
      · rintro e ⟨he, hlt⟩
        exact ⟨he, Nat.succ_lt_succ hlt⟩

/-- What `do_exit` does to the process itself and to the others. -/
structure Exited (t t' : ProcTable) (c : ℕ) (code : ℤ) : Prop where
  procList : t'.procList = t.procList
  own : ∀ x, x ≠ c → SameOwn (t.proc x) (t'.proc x)
  zombie : (t'.proc c).state = .zombie
  exitCode : (t'.proc c).exitCode = code

/-- **`do_exit`** by a process that can run and is neither `idleproc` nor `initproc`. -/
theorem doExit_post (fuel : ℕ) (code : ℤ) (h : TableInv t) (hfam : Family t kids) (hperm : Permanent t i)
    (hc : t.Running c) (hidle : c ≠ t.idleproc) (hci : c ≠ i) :
    ((doExit fuel c code).run t).Post
      (fun _ t' => TableInv t' ∧ (∃ kids', Family t' kids') ∧ Permanent t' i ∧ Exited t t' c code) (fun _ _ => False)
      (fun e => e = .loop ∧ fuel < (kids c).length) := by
  have hmem : c ∈ t.procList := hc.1.resolve_left hidle
  obtain ⟨q, hq, hqc', hrunq⟩ := hfam.parent c hmem
  let t₁ := t.setProc c fun d => { d with state := .zombie, exitCode := code }
  have hother : ∀ x, x ≠ c → t₁.proc x = t.proc x := fun x hx => (ProcTable.proc_setProc _ _ _ _).trans (if_neg hx)
  have hself : t₁.proc c = { t.proc c with state := .zombie, exitCode := code } :=
    (ProcTable.proc_setProc _ _ _ _).trans (if_pos rfl)
  have hpid : ∀ x, (t₁.proc x).pid = (t.proc x).pid := fun x => by
    by_cases hx : x = c
    · rw [hx, hself]
    · rw [hother x hx]
  have hlinks : SameFamily t t₁ := by
    refine ⟨rfl, rfl, fun x => ?_, fun x => ?_, fun x => ?_, fun x => ?_⟩
    all_goals simp only [ProcTable.parent_setProc, ProcTable.cptr_setProc, ProcTable.yptr_setProc,
      ProcTable.optr_setProc, ite_self, t₁]
  have hrun₁ : ∀ x, x ≠ c → t.Running x → t₁.Running x := fun x hx hrun => by
    refine ⟨hrun.1, ?_⟩
    rw [hother x hx]
    exact hrun.2
  have htable₁ : TableInv t₁ := by
    have hpids : t₁.pids = t.pids := pids_congr rfl fun x _ => hpid x
    refine ⟨h.nodup, h.idle, h.hashNodup, fun b x => ?_, h.nr, ?_, ?_, fun x hx => ?_⟩
    · rw [hpid]
      exact h.hash b x
    · rw [hpids]
      exact h.cursors
    · rw [hpids]
      exact h.pids
    · rw [hpid]
      exact h.range x hx
  have hperm₁ : Permanent t₁ i := by
    refine ⟨hperm.init, hperm.mem, ?_, ?_, ?_⟩
    · rw [hother i hci.symm]
      exact hperm.initRuns
    · show (t₁.proc t.idleproc).state ≠ _
      rw [hother _ hidle.symm]
      exact hperm.idleRuns
    · rw [hlinks.parent]
      exact hperm.parent
  have horphans : ∀ t₂, SameProcs t₁ t₂ → SameFamily t₁ t₂ → Orphans t₂ kids c := by
    intro t₂ hsame hfam₂
    have hchildren : ∀ q, t₂.Live q → Children t₂ q (kids q) := fun q hq => by
      refine (hfam.children q (hsame.live.mp hq)).congr (fun x _ => ?_) ?_ fun x _ => ⟨?_, ?_⟩
      · rw [hfam₂.procList, hfam₂.parent, hlinks.parent]
        rfl
      · rw [hfam₂.cptr, hlinks.cptr]
      · rw [hfam₂.optr, hlinks.optr]
      · rw [hfam₂.yptr, hlinks.yptr]
    have hchildren_c := hchildren c (hsame.live.mpr hc.1)
    refine ⟨fun p hp => ?_, fun q hq _ => hchildren q hq, hchildren_c.head, hchildren_c.chain.nodup,
      hchildren_c.chain.fwd, hchildren_c.mem⟩
    rw [hsame.procList] at hp
    obtain ⟨r, hr, hne, hrun⟩ := hfam.parent p hp
    refine ⟨r, by rw [hfam₂.parent, hlinks.parent, hr], hne, ?_⟩
    by_cases hrc : r = c
    · exact Or.inr hrc
    · exact Or.inl (hsame.running.mpr (hrun₁ r hrc hrun))
  -- the rest of the function, from a state in which the parent may have been woken
  have hrest : ∀ t₂, SameProcs t₁ t₂ → SameFamily t₁ t₂ → ((adoptAll c fuel).run t₂).Post
      (fun _ t' => TableInv t' ∧ (∃ kids', Family t' kids') ∧ Permanent t' i ∧ Exited t t' c code) (fun _ _ => False)
      (fun e => e = .loop ∧ fuel < (kids c).length) := by
    intro t₂ hsame hfam₂
    have hidle₂ : c ≠ t₂.idleproc := by
      rw [hsame.same.idleproc]
      exact hidle
    refine (adoptAll_post fuel (horphans t₂ hsame hfam₂) (hperm₁.congr hsame (hfam₂.parent i)) hidle₂ hci).mono ?_
      (fun _ _ hE => hE) fun _ hP => hP
    rintro _ t' ⟨hfam', hperm', hsame'⟩
    have hall := hsame.trans hsame'
    refine ⟨htable₁.congr hall, hfam', hperm', hall.procList, fun x hx => ?_, ?_, ?_⟩
    · rw [← hother x hx]
      exact hall.same.own x
    · rw [(hall.same.own c).zombie, hself]
    · rw [(hall.same.own c).exitCode, hself]
  have hqc : (t₁.proc c).parent = some q := by rw [hlinks.parent, hq]
  rw [doExit, Prog.run_bind, Prog.run_get, Outcome.andThen_ok, Prog.run_ite, if_neg hidle, Prog.run_ite,
    if_neg (by rw [hperm.init]; exact fun heq => hci (Option.some.inj heq)), setProc, Prog.run_bind, Prog.run_modify,
    Outcome.andThen_ok, Prog.run_bind, Prog.run_get, Outcome.andThen_ok]
  rw [show (t.setProc c fun d => { d with state := .zombie, exitCode := code }) = t₁ from rfl, hqc]
  simp only
  by_cases hwait : (t₁.proc q).waitState = wtChild
  · rw [if_pos hwait]
    have hqlive : (t₁.proc q).state ≠ .zombie := (hrun₁ q hqc' hrunq).2
    obtain ⟨t₂, hwake, hsame, hfam₂⟩ := wakeupProc_run hqlive
    rw [Prog.bind_of_ok hwake]
    exact hrest t₂ ⟨hfam₂.procList, hfam₂.nr, hsame⟩ hfam₂
  · rw [if_neg hwait]
    exact hrest t₁ (SameProcs.refl t₁) (SameFamily.refl t₁)

end Ucore.Process
