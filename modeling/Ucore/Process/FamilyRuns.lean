import Ucore.Process.Family

/-!
# Runs of the process table

`do_wait`, and what holds of the process table in every state that forks, exits and waits lead to.

* `reap_run` and `waitPass_post` are `do_wait`: a child that has exited is gone, or the process sleeps.
* `ProcStep` is a call by a process that can run, labelled with what happens to processes in it. `ProcRun` is a run, with
  the list of these events.
* `Phase` is the life of a process. `ProcRun.phase` says that in every run the events of a process are those of a
  life: it is forked, exits with a code and is reaped with that code, and then its memory may be that of another one.
* `process_table` is what the table and the events look like in every run, and `ProcRun.calls_return` says that no call
  fails an assertion or runs forever.
-/

namespace Ucore.Process

open Ucore.Lib

variable {t t' t₁ : ProcTable} {kids kids' : ℕ → List ℕ} {c i p q x : ℕ} {l l' l₁ l₂ : List ℕ}

/-! ### Wait -/

/-- **The loop of `do_wait`** finds the first child that has exited. -/
theorem zombieChild_post (fuel : ℕ) (l : List ℕ) (hl : Chain (fun x => (t.proc x).optr) l none) :
    ((t.zombieChild fuel l.head?).run t).Post
      (fun r s => s = t ∧ (∀ p, r = some p → p ∈ l ∧ (t.proc p).state = .zombie) ∧
        (r = none → ∀ p ∈ l, (t.proc p).state ≠ .zombie))
      (fun _ _ => False) (fun e => e = .loop ∧ fuel < l.length) := by
  induction fuel generalizing l with
  | zero =>
    cases l with
    | nil => exact ⟨rfl, nofun, fun _ => nofun⟩
    | cons p l => exact ⟨rfl, Nat.zero_lt_succ _⟩
  | succ fuel ih =>
    cases l with
    | nil => exact ⟨rfl, nofun, fun _ => nofun⟩
    | cons p l =>
      have hnext := hl.next_cons
      rw [Option.or_none] at hnext
      rw [List.head?_cons, ProcTable.zombieChild, Prog.run_ite]
      by_cases hz : (t.proc p).state = .zombie
      · rw [if_pos hz]
        refine ⟨rfl, fun r hr => ?_, nofun⟩
        rw [← Option.some.inj hr]
        exact ⟨List.mem_cons_self, hz⟩
      · rw [if_neg hz, hnext]
        refine (ih l hl.tail).mono ?_ (fun _ _ hE => hE) ?_
        · rintro r s ⟨hs, hsome, hnone⟩
          refine ⟨hs, fun r hr => ⟨List.mem_cons_of_mem _ (hsome r hr).1, (hsome r hr).2⟩, fun hr r hmem => ?_⟩
          rcases List.mem_cons.mp hmem with rfl | hmem
          · exact hz
          · exact hnone hr r hmem
        · rintro e ⟨he, hlt⟩
          exact ⟨he, Nat.succ_lt_succ hlt⟩

/-- What is left when the process `p`, which had exited, is gone. -/
structure Reaped (t t' : ProcTable) (p : ℕ) : Prop where
  procList : t'.procList = t.procList.erase p
  own : ∀ x, SameOwn (t.proc x) (t'.proc x)

theorem LinksRemoved.live (hrem : LinksRemoved t t' p q) (hnodup : t.procList.Nodup) (hp : p ≠ t.idleproc) :
    t'.Live x ↔ t.Live x ∧ x ≠ p := by
  rw [ProcTable.Live, hrem.procList, hrem.same.idleproc, hnodup.mem_erase_iff, ProcTable.Live]
  constructor
  · rintro (rfl | ⟨hne, hmem⟩)
    · exact ⟨Or.inl rfl, hp.symm⟩
    · exact ⟨Or.inr hmem, hne⟩
  · rintro ⟨hx | hmem, hne⟩
    · exact Or.inl hx
    · exact Or.inr ⟨hne, hmem⟩

/-- **A child is taken out of the tree.** -/
theorem Family.removed (hfam : Family t kids) (hnodup : t.procList.Nodup) (hidle : p ≠ t.idleproc)
    (hp : p ∈ t.procList) (hz : (t.proc p).state = .zombie) (hc : t.Live c) (hkids : kids c = l₁ ++ p :: l₂)
    (hrem : LinksRemoved t t' p c) : Family t' (Function.update kids c (l₁ ++ l₂)) := by
  have hchildren := hfam.children c hc
  rw [hkids] at hchildren
  obtain ⟨hoptr, hyptr⟩ := hchildren.chain.links
  have hmem : ∀ x, x ∈ l₁ ++ l₂ → x ∈ kids c := by
    intro x hx
    rw [hkids]
    rcases List.mem_append.mp hx with hx | hx
    · exact List.mem_append_left _ hx
    · exact List.mem_append_right _ (List.mem_cons_of_mem _ hx)
  have hnot : p ∉ l₁ ++ l₂ := by
    have hmid := hchildren.chain.nodup
    rw [List.nodup_middle] at hmid
    exact (List.nodup_cons.mp hmid).1
  -- the neighbours of `p` are children of `c`
  have hother : ∀ q, t.Live q → q ≠ c → ∀ x ∈ kids q, (t.proc p).yptr ≠ some x ∧ (t.proc p).optr ≠ some x := by
    intro q hq hqc x hx
    have hxq := ((hfam.children q hq).mem x).mp hx
    have hnotc : x ∉ kids c := fun hxc => by
      rw [((hfam.children c hc).mem x).mp hxc |>.2] at hxq
      exact hqc (Option.some.inj hxq.2).symm
    rw [hoptr, hyptr]
    exact ⟨fun heq => hnotc (hmem x (List.mem_append_left _ (List.mem_of_getLast? heq))),
      fun heq => hnotc (hmem x (List.mem_append_right _ (List.mem_of_mem_head? heq)))⟩
  refine ⟨fun x hx => ?_, fun q hq => ?_⟩
  · rw [hrem.procList] at hx
    obtain ⟨q, hparent, hne, hrun⟩ := hfam.parent x (List.mem_of_mem_erase hx)
    refine ⟨q, (hrem.parent x).trans hparent, hne, (hrem.live hnodup hidle).mpr ⟨hrun.1, ?_⟩,
      fun hzq => hrun.2 ((hrem.same.own q).zombie.mp hzq)⟩
    rintro rfl
    exact hrun.2 hz
  obtain ⟨hlive, hqp⟩ := (hrem.live hnodup hidle).mp hq
  by_cases hqc : q = c
  · subst hqc
    rw [Function.update_self]
    refine ⟨?_, ?_, fun x => ?_⟩
    · rw [hrem.cptr, hyptr, hoptr, hchildren.head]
      cases l₁ with
      | nil => rw [if_pos ⟨rfl, rfl⟩, List.nil_append]
      | cons a l₁ =>
        rw [if_neg]
        · rfl
        · rintro ⟨hnone, -⟩
          exact absurd (List.getLast?_eq_none_iff.mp hnone) (List.cons_ne_nil _ _)
    · refine hchildren.chain.remove (fun b hb => ?_) (fun b hb => ?_) (fun b hb hne => ?_) fun b hb hne => ?_
      · rw [hrem.optr, if_pos (hyptr.trans hb)]
      · rw [hrem.yptr, if_pos (hoptr.trans hb)]
      · rw [hrem.optr, if_neg (by rw [hyptr]; exact hne)]
      · rw [hrem.yptr, if_neg (by rw [hoptr]; exact hne)]
    · rw [hrem.procList, hrem.parent, hnodup.mem_erase_iff, and_assoc, ← hchildren.mem]
      constructor
      · intro hx
        refine ⟨?_, by rw [← hkids]; exact hmem x hx⟩
        rintro rfl
        exact hnot hx
      · rintro ⟨hxp, hx⟩
        rcases List.mem_append.mp hx with hx | hx
        · exact List.mem_append_left _ hx
        · exact List.mem_append_right _ ((List.mem_cons.mp hx).resolve_left hxp)
  · rw [Function.update_of_ne hqc]
    refine (hfam.children q hlive).congr (fun x hx => ?_) ?_ fun x hx => ⟨?_, ?_⟩
    · rw [hrem.procList, hrem.parent, hnodup.mem_erase_iff]
      constructor
      · exact fun hand => ⟨hand.1.2, hand.2⟩
      · rintro ⟨hxl, hxq⟩
        refine ⟨⟨?_, hxl⟩, hxq⟩
        rintro rfl
        rw [((hchildren.mem x).mp (List.mem_append_right _ List.mem_cons_self)).2] at hxq
        exact hqc (Option.some.inj hxq).symm
    · rw [hrem.cptr, if_neg fun hand => hqc hand.2]
    · rw [hrem.optr, if_neg (hother q hlive hqc x hx).1]
    · rw [hrem.yptr, if_neg (hother q hlive hqc x hx).2]

/-- A process is taken out of the lists. -/
theorem TableInv.removed (h : TableInv t) (hp : p ∈ t.procList) (hlist : t'.procList = t.procList.erase p)
    (hhash : ∀ b, t'.hashList b = (t.hashList b).erase p) (hnr : t'.nrProcess = t.nrProcess - 1)
    (hcursors : t'.cursors = t.cursors) (hidle : t'.idleproc = t.idleproc)
    (hpid : ∀ x, (t'.proc x).pid = (t.proc x).pid) : TableInv t' := by
  have hsub : t'.pids.Sublist t.pids := by
    rw [pids_congr hlist fun x _ => hpid x]
    exact List.Sublist.map _ List.erase_sublist
  refine ⟨?_, ?_, fun b => ?_, fun b x => ?_, ?_, ?_, h.pids.sublist hsub, fun x hx => ?_⟩
  · rw [hlist]
    exact h.nodup.sublist List.erase_sublist
  · rw [hlist, hidle]
    exact fun hmem => h.idle (List.mem_of_mem_erase hmem)
  · rw [hhash]
    exact (h.hashNodup b).sublist List.erase_sublist
  · rw [hhash, hlist, (h.hashNodup b).mem_erase_iff, h.nodup.mem_erase_iff, hpid, h.hash, and_assoc]
  · have hlen := List.length_erase_add_one hp
    rw [hnr, hlist, h.nr]
    omega
  · rw [hcursors]
    exact h.cursors.mono fun pid hpid => Or.inl (hsub.subset hpid)
  · rw [hlist] at hx
    rw [hpid]
    exact h.range x (List.mem_of_mem_erase hx)

/-- **The end of `do_wait`**, for a child that has exited. -/
theorem reap_run (h : TableInv t) (hfam : Family t kids) (hperm : Permanent t i) (hc : t.Live c)
    (hp : p ∈ t.procList) (hz : (t.proc p).state = .zombie) (hparent : (t.proc p).parent = some c) :
    ∃ t', (reap p).run t = .ok (.reaped p (t.proc p).exitCode) t' ∧ TableInv t' ∧ (∃ kids', Family t' kids') ∧
      Permanent t' i ∧ Reaped t t' p := by
  have hidle : p ≠ t.idleproc := by
    rintro rfl
    exact h.idle hp
  have hpi : p ≠ i := by
    rintro rfl
    exact hperm.initRuns hz
  let t₁ : ProcTable := { t with hashList := fun b => (t.hashList b).erase p }
  obtain ⟨t', hrun, hrem⟩ := removeLinks_run (t := t₁) (p := p) hparent
  have hrem' : LinksRemoved { t with hashList := t'.hashList } t' p c := by
    obtain ⟨h₁, h₂, h₃, h₄, h₅, h₆, h₇⟩ := hrem
    exact ⟨h₁, h₂, ⟨rfl, h₃.cursors, h₃.idleproc, h₃.initproc, h₃.own⟩, h₄, h₅, h₆, h₇⟩
  obtain ⟨l₁, l₂, hkids⟩ := List.append_of_mem (((hfam.children c hc).mem p).mpr ⟨hp, hparent⟩)
  have hfam₁ : Family { t with hashList := t'.hashList } kids := by
    refine ⟨hfam.parent, fun q hq => ?_⟩
    obtain ⟨h₁, h₂, h₃⟩ := hfam.children q hq
    exact ⟨h₁, h₂, h₃⟩
  refine ⟨t', ?_, ?_, ⟨_, hfam₁.removed h.nodup hidle hp hz hc hkids hrem'⟩, ?_, hrem.procList, hrem.same.own⟩
  · rw [reap, Prog.run_bind, Prog.run_get, Outcome.andThen_ok, Prog.run_ite, if_neg, unhashProc, Prog.run_bind,
      Prog.run_modify, Outcome.andThen_ok, Prog.bind_of_ok hrun, Prog.run_pure]
    rw [hperm.init]
    rintro (heq | heq)
    · exact hidle heq
    · exact hpi (Option.some.inj heq)
  · refine h.removed hp hrem.procList (fun b => ?_) hrem.nr hrem.same.cursors hrem.same.idleproc
      fun x => (hrem.same.own x).pid
    rw [hrem.same.hashList]
  · refine ⟨hrem.same.initproc.trans hperm.init, ?_, fun hzi => hperm.initRuns ((hrem.same.own i).zombie.mp hzi), ?_, ?_⟩
    · rw [hrem.procList]
      exact (List.mem_erase_of_ne hpi.symm).mpr hperm.mem
    · rw [hrem.same.idleproc]
      exact fun hzi => hperm.idleRuns ((hrem.same.own _).zombie.mp hzi)
    · rw [hrem.parent, hrem.same.idleproc]
      exact hperm.parent

/-- A process goes to sleep. -/
theorem waitAsleep_run (hc : (t.proc c).state ≠ .zombie) :
    ∃ t', (waitAsleep c).run t = .ok .asleep t' ∧ SameProcs t t' ∧ SameFamily t t' := by
  refine ⟨_, rfl, ⟨rfl, rfl, ⟨rfl, rfl, rfl, rfl, fun x => ?_⟩⟩, ⟨rfl, rfl, fun x => ?_, fun x => ?_, fun x => ?_, fun x => ?_⟩⟩
  · rw [ProcTable.proc_setProc]
    by_cases hx : x = c
    · subst hx
      rw [if_pos rfl]
      exact ⟨rfl, rfl, iff_of_false nofun hc⟩
    · rw [if_neg hx]
      exact SameOwn.refl _
  all_goals simp only [ProcTable.parent_setProc, ProcTable.cptr_setProc, ProcTable.yptr_setProc,
    ProcTable.optr_setProc, ite_self]

/-- What a pass of `do_wait` has done: a child of `c` that had exited is gone, and its exit code is returned. -/
def Waited (t t' : ProcTable) (c : ℕ) : WaitEnd → Prop
  | .reaped p code => p ∈ t.procList ∧ (t.proc p).parent = some c ∧ (t.proc p).state = .zombie ∧
      (t.proc p).exitCode = code ∧ Reaped t t' p
  | .asleep => SameProcs t t'

/-- **`do_wait`**, one pass by a process that can run. -/
theorem waitPass_post (fuel : ℕ) (pid : ℤ) (h : TableInv t) (hfam : Family t kids) (hperm : Permanent t i)
    (hc : t.Running c) : ((waitPass fuel c pid).run t).Post
      (fun e t' => TableInv t' ∧ (∃ kids', Family t' kids') ∧ Permanent t' i ∧ Waited t t' c e)
      (fun e t' => e = .badProc ∧ t' = t) (fun e => e = .loop ∧ fuel < (kids c).length) := by
  have hreap : ∀ p ∈ t.procList, (t.proc p).state = .zombie → (t.proc p).parent = some c → ((reap p).run t).Post
      (fun e t' => TableInv t' ∧ (∃ kids', Family t' kids') ∧ Permanent t' i ∧ Waited t t' c e)
      (fun e t' => e = .badProc ∧ t' = t) (fun e => e = .loop ∧ fuel < (kids c).length) := by
    intro p hp hz hparent
    obtain ⟨t', hrun, htable, hfam', hperm', hreaped⟩ := reap_run h hfam hperm hc.1 hp hz hparent
    rw [hrun]
    exact ⟨htable, hfam', hperm', hp, hparent, hz, rfl, hreaped⟩
  have hsleep : ((waitAsleep c).run t).Post
      (fun e t' => TableInv t' ∧ (∃ kids', Family t' kids') ∧ Permanent t' i ∧ Waited t t' c e)
      (fun e t' => e = .badProc ∧ t' = t) (fun e => e = .loop ∧ fuel < (kids c).length) := by
    obtain ⟨t', hrun, hsame, hfam'⟩ := waitAsleep_run hc.2
    rw [hrun]
    exact ⟨h.congr hsame, ⟨kids, hfam.congr hsame hfam'⟩, hperm.congr hsame (hfam'.parent i), hsame⟩
  rw [waitPass, Prog.run_bind, Prog.run_get, Outcome.andThen_ok]
  by_cases hpid : pid ≠ 0
  · rw [if_pos hpid]
    cases hfind : t.findProc pid with
    | none => exact ⟨rfl, rfl⟩
    | some p =>
      simp only
      rw [Prog.run_ite]
      by_cases hparent : (t.proc p).parent = some c
      · rw [if_pos hparent, Prog.run_ite]
        by_cases hz : (t.proc p).state = .zombie
        · rw [if_pos hz]
          exact hreap p ((h.findProc pid p).mp hfind).1 hz hparent
        · rw [if_neg hz]
          exact hsleep
      · rw [if_neg hparent]
        exact ⟨rfl, rfl⟩
  · rw [if_neg hpid]
    have hchildren := hfam.children c hc.1
    rw [hchildren.head]
    refine ((zombieChild_post fuel (kids c) hchildren.chain.fwd).mono (fun _ _ hQ => hQ) (fun _ _ hE => hE.elim)
      fun _ hP => hP).bind ?_
    rintro r s ⟨rfl, hsome, -⟩
    cases r with
    | some p =>
      obtain ⟨hp, hz⟩ := hsome p rfl
      obtain ⟨hlist, hparent⟩ := (hchildren.mem p).mp hp
      exact hreap p hlist hz hparent
    | none =>
      cases (kids c).head? with
      | some p => exact hsleep
      | none => exact ⟨rfl, rfl⟩

/-! ### Runs -/

/-- What happens to a process: `c` forks the process `p`, `p` exits, `c` reaps `p`. -/
inductive ProcEvent where
  | forked (c p : ℕ)
  | exited (p : ℕ) (code : ℤ)
  | reaped (c p : ℕ) (code : ℤ)
  deriving Repr, DecidableEq

/-- The event of a pass of `do_wait`. -/
def WaitEnd.events (c : ℕ) : WaitEnd → List ProcEvent
  | .reaped p code => [.reaped c p code]
  | .asleep => []

/-- A call by a process that can run, or a process that is woken by something else. A child gets memory in which there
is no process. -/
inductive ProcStep : ProcTable → List ProcEvent → ProcTable → Prop
  | fork {t t' : ProcTable} (c p : ℕ) (pid : ℤ) (hc : t.Running c) (hp : ¬ t.Live p)
      (hrun : (doFork c p).run t = .ok pid t') : ProcStep t [.forked c p] t'
  | exit {t t' : ProcTable} (c fuel : ℕ) (code : ℤ) (hc : t.Running c)
      (hrun : (doExit fuel c code).run t = .ok () t') : ProcStep t [.exited c code] t'
  | wait {t t' : ProcTable} (c fuel : ℕ) (pid : ℤ) (e : WaitEnd) (hc : t.Running c)
      (hrun : (waitPass fuel c pid).run t = .ok e t') : ProcStep t (e.events c) t'
  | wakeup {t t' : ProcTable} (p : ℕ) (hrun : (wakeupProc p).run t = .ok () t') : ProcStep t [] t'

/-- A run from the start of the machine on, with the events in it, the last one first. -/
inductive ProcRun : ProcTable → List ProcEvent → Prop
  | boot {t : ProcTable} (proc : ℕ → Proc) (idle p : ℕ) (hp : p ≠ idle)
      (hrun : (procInit idle p).run (ProcTable.boot proc idle) = .ok () t) : ProcRun t [.forked idle p]
  | step {t t' : ProcTable} {trace events : List ProcEvent} (h : ProcRun t trace) (hstep : ProcStep t events t') :
      ProcRun t' (events ++ trace)

/-- Where a process is in its life. -/
inductive Phase where
  | absent
  | alive
  | exited (code : ℤ)
  deriving Repr, DecidableEq

/-- The next phase of the process `p`; there is none if the event cannot happen to it. -/
def Phase.next (p : ℕ) : Phase → ProcEvent → Option Phase
  | ph, .forked _ q => if q = p then (if ph = .absent then some .alive else none) else some ph
  | ph, .exited q code => if q = p then (if ph = .alive then some (.exited code) else none) else some ph
  | ph, .reaped _ q code => if q = p then (if ph = .exited code then some .absent else none) else some ph

/-- The phase of the process `p` after the events, of which the last one is first in the list. -/
def phaseOf (p : ℕ) : List ProcEvent → Option Phase
  | [] => some .absent
  | e :: trace => (phaseOf p trace).bind fun ph => ph.next p e

/-- What a phase says about the table. -/
def Phase.Matches (t : ProcTable) (p : ℕ) : Phase → Prop
  | .absent => p ∉ t.procList
  | .alive => p ∈ t.procList ∧ (t.proc p).state ≠ .zombie
  | .exited code => p ∈ t.procList ∧ (t.proc p).state = .zombie ∧ (t.proc p).exitCode = code

theorem Phase.Matches.congr {ph : Phase} (h : ph.Matches t p) (hlist : p ∈ t'.procList ↔ p ∈ t.procList)
    (hown : SameOwn (t.proc p) (t'.proc p)) : ph.Matches t' p := by
  cases ph with
  | absent => exact fun hmem => h (hlist.mp hmem)
  | alive => exact ⟨hlist.mpr h.1, fun hz => h.2 (hown.zombie.mp hz)⟩
  | exited code => exact ⟨hlist.mpr h.1, hown.zombie.mpr h.2.1, hown.exitCode.trans h.2.2⟩

/-- A process in `proc_list` that has not exited is alive. -/
theorem Phase.Matches.alive {ph : Phase} (h : ph.Matches t p) (hp : p ∈ t.procList) (hrun : (t.proc p).state ≠ .zombie) :
    ph = .alive := by
  cases ph with
  | absent => exact absurd hp h
  | alive => rfl
  | exited code => exact absurd h.2.1 hrun

theorem Phase.Matches.exited {ph : Phase} (h : ph.Matches t p) (hp : p ∈ t.procList) (hz : (t.proc p).state = .zombie) :
    ph = .exited (t.proc p).exitCode := by
  cases ph with
  | absent => exact absurd hp h
  | alive => exact absurd hz h.2
  | exited code => rw [h.2.2]

theorem Phase.Matches.absent {ph : Phase} (h : ph.Matches t p) (hp : p ∉ t.procList) : ph = .absent := by
  cases ph with
  | absent => rfl
  | alive => exact absurd h.1 hp
  | exited code => exact absurd h.1 hp

/-- The invariant of a run. -/
structure RunInv (t : ProcTable) (trace : List ProcEvent) : Prop where
  table : TableInv t
  family : ∃ kids, Family t kids
  permanent : ∃ i, Permanent t i
  phase : ∀ p, ∃ ph, phaseOf p trace = some ph ∧ ph.Matches t p

/-- **One step of a run.** -/
theorem RunInv.step {trace events : List ProcEvent} (h : RunInv t trace) (hstep : ProcStep t events t') :
    RunInv t' (events ++ trace) := by
  obtain ⟨htable, ⟨kids, hfam⟩, ⟨i, hperm⟩, hphase⟩ := h
  cases hstep with
  | fork c p pid hc hp hrun =>
    have hcp : c ≠ p := by
      rintro rfl
      exact hp hc.1
    have hnew : p ∉ t.procList := fun hmem => hp (Or.inr hmem)
    have hcptr : (t.proc c).cptr ≠ some p := fun heq => by
      have hchildren := hfam.children c hc.1
      rw [hchildren.head] at heq
      exact hnew ((hchildren.mem p).mp (List.mem_of_mem_head? heq)).1
    -- the call has succeeded, so there was room for a process and `c` waits for nothing
    have hnr : t.nrProcess < maxProcess := by
      by_contra hge
      rw [doFork, Prog.run_bind, Prog.run_get, Outcome.andThen_ok, Prog.run_ite, if_pos (by omega)] at hrun
      cases hrun
    have hwait : (t.proc c).waitState = 0 := by
      rw [doFork, Prog.run_bind, Prog.run_get, Outcome.andThen_ok, Prog.run_ite, if_neg (by omega), setProc,
        Prog.run_bind, Prog.run_modify, Outcome.andThen_ok, Prog.get_bind_eq_ok, Prog.assert_bind_eq_ok] at hrun
      have hwait := hrun.1
      rw [ProcTable.proc_setProc, if_neg hcp] at hwait
      exact hwait
    obtain ⟨pid', t₁, hrun₁, hf⟩ := doFork_run htable hnr hcp hnew hcptr hwait
    rw [hrun] at hrun₁
    rw [← (Outcome.ok.inj hrun₁).2] at hf
    refine ⟨htable.forked hp hf, ⟨_, hfam.forked hc hp hf⟩, ⟨i, hperm.forked hp hf⟩, fun x => ?_⟩
    obtain ⟨ph, hph, hmatch⟩ := hphase x
    rw [List.singleton_append, phaseOf, hph, Option.bind_some, Phase.next]
    by_cases hxp : p = x
    · subst hxp
      rw [if_pos rfl, if_pos (hmatch.absent hnew)]
      refine ⟨_, rfl, ?_, hf.newRuns⟩
      rw [hf.procList]
      exact List.mem_cons_self
    · rw [if_neg hxp]
      refine ⟨ph, rfl, hmatch.congr ?_ (hf.own x (Ne.symm hxp))⟩
      rw [hf.procList, List.mem_cons]
      exact or_iff_right (Ne.symm hxp)
  | exit c fuel code hc hrun =>
    have hidle : c ≠ t.idleproc := by
      rintro rfl
      rw [doExit, Prog.run_bind, Prog.run_get, Outcome.andThen_ok, Prog.run_ite, if_pos rfl] at hrun
      cases hrun
    have hci : c ≠ i := by
      rintro rfl
      rw [doExit, Prog.run_bind, Prog.run_get, Outcome.andThen_ok, Prog.run_ite, if_neg hidle, Prog.run_ite,
        if_pos hperm.init.symm] at hrun
      cases hrun
    have hpost := doExit_post fuel code htable hfam hperm hc hidle hci
    rw [hrun] at hpost
    obtain ⟨htable', hfam', hperm', hex⟩ := hpost
    refine ⟨htable', hfam', ⟨i, hperm'⟩, fun x => ?_⟩
    obtain ⟨ph, hph, hmatch⟩ := hphase x
    rw [List.singleton_append, phaseOf, hph, Option.bind_some, Phase.next]
    have hmem : c ∈ t.procList := hc.1.resolve_left hidle
    by_cases hxc : c = x
    · subst hxc
      rw [if_pos rfl, if_pos (hmatch.alive hmem hc.2)]
      refine ⟨_, rfl, ?_, hex.zombie, hex.exitCode⟩
      rw [hex.procList]
      exact hmem
    · rw [if_neg hxc]
      exact ⟨ph, rfl, hmatch.congr (by rw [hex.procList]) (hex.own x (Ne.symm hxc))⟩
  | wait c fuel pid e hc hrun =>
    have hpost := waitPass_post fuel pid htable hfam hperm hc
    rw [hrun] at hpost
    obtain ⟨htable', hfam', hperm', hwaited⟩ := hpost
    refine ⟨htable', hfam', ⟨i, hperm'⟩, fun x => ?_⟩
    obtain ⟨ph, hph, hmatch⟩ := hphase x
    cases e with
    | reaped p code =>
      obtain ⟨hp, -, hz, hcode, hreaped⟩ := hwaited
      rw [WaitEnd.events, List.singleton_append, phaseOf, hph, Option.bind_some, Phase.next]
      by_cases hxp : p = x
      · subst hxp
        rw [if_pos rfl, if_pos (by rw [hmatch.exited hp hz, hcode])]
        refine ⟨_, rfl, ?_⟩
        rw [Phase.Matches, hreaped.procList]
        exact htable.nodup.not_mem_erase
      · rw [if_neg hxp]
        refine ⟨ph, rfl, hmatch.congr ?_ (hreaped.own x)⟩
        rw [hreaped.procList]
        exact List.mem_erase_of_ne (Ne.symm hxp)
    | asleep =>
      have hsame : SameProcs t t' := hwaited
      exact ⟨ph, hph, hmatch.congr (by rw [hsame.procList]) (hsame.same.own x)⟩
  | wakeup p hrun =>
    have hp : (t.proc p).state ≠ .zombie := by
      rw [wakeupProc, Prog.get_bind_eq_ok, Prog.assert_bind_eq_ok] at hrun
      exact hrun.1
    obtain ⟨t₁, hrun₁, hsame, hfam'⟩ := wakeupProc_run hp
    rw [hrun] at hrun₁
    rw [← (Outcome.ok.inj hrun₁).2] at hsame hfam'
    have hprocs : SameProcs t t' := ⟨hfam'.procList, hfam'.nr, hsame⟩
    refine ⟨htable.congr hprocs, ⟨kids, hfam.congr hprocs hfam'⟩, ⟨i, hperm.congr hprocs (hfam'.parent i)⟩, fun x => ?_⟩
    obtain ⟨ph, hph, hmatch⟩ := hphase x
    exact ⟨ph, hph, hmatch.congr (by rw [hprocs.procList]) (hsame.own x)⟩

/-- The table before the first fork. -/
theorem boot_inv (proc : ℕ → Proc) (idle : ℕ) :
    TableInv (ProcTable.boot proc idle) ∧ Family (ProcTable.boot proc idle) fun _ => [] := by
  refine ⟨⟨List.nodup_nil, List.not_mem_nil, fun _ => List.nodup_nil, fun _ _ => ?_, rfl, PidInv.init, List.nodup_nil,
    nofun⟩, nofun, fun q hq => ?_⟩
  · exact iff_of_false List.not_mem_nil fun hand => List.not_mem_nil hand.1
  · have hidle : q = idle := hq.resolve_right List.not_mem_nil
    subst hidle
    refine ⟨?_, Chained.nil, fun p => iff_of_false List.not_mem_nil fun hand => List.not_mem_nil hand.1⟩
    show ((Function.update proc q { allocProc (proc q) with state := .runnable, pid := 0 }) q).cptr = none
    rw [Function.update_self]
    rfl

/-- **`proc_init`** leaves `initproc` as the only child of `idleproc`. -/
theorem procInit_inv (proc : ℕ → Proc) {idle p : ℕ} (hp : p ≠ idle) :
    ∃ t, (procInit idle p).run (ProcTable.boot proc idle) = .ok () t ∧ RunInv t [.forked idle p] := by
  obtain ⟨htable, hfam⟩ := boot_inv proc idle
  have hself : (ProcTable.boot proc idle).proc idle = { allocProc (proc idle) with state := .runnable, pid := 0 } :=
    Function.update_self _ _ _
  have hlive : ¬ (ProcTable.boot proc idle).Live p := by
    rintro (heq | hmem)
    · exact hp heq
    · exact List.not_mem_nil hmem
  have hidle : (ProcTable.boot proc idle).Running idle := by
    refine ⟨Or.inl rfl, ?_⟩
    rw [hself]
    exact ProcState.noConfusion
  obtain ⟨pid, t₁, hrun, hf⟩ := doFork_run htable (show (1 : ℤ) < maxProcess by decide) hp.symm List.not_mem_nil
    (by rw [hself]; exact nofun) (by rw [hself]; rfl)
  have htable₁ := htable.forked hlive hf
  have hfam₁ := hfam.forked hidle hlive hf
  have hmem : p ∈ t₁.procList := by
    rw [hf.procList]
    exact List.mem_cons_self
  have hfind : t₁.findProc pid = some p := (htable₁.findProc pid p).mpr ⟨hmem, hf.newPid.1⟩
  refine ⟨{ t₁ with initproc := some p }, ?_, ?_,
    ⟨Function.update (Function.update (fun _ => []) idle [p]) p [], hfam₁.parent, fun q hq => ?_⟩,
    ⟨p, rfl, hmem, hf.newRuns, ?_, ?_⟩, fun x => ?_⟩
  · rw [procInit, Prog.bind_of_ok hrun, Prog.run_modify, hfind]
  · obtain ⟨h₁, h₂, h₃, h₄, h₅, h₆, h₇, h₈⟩ := htable₁
    exact ⟨h₁, h₂, h₃, h₄, h₅, h₆, h₇, h₈⟩
  · obtain ⟨h₁, h₂, h₃⟩ := hfam₁.children q hq
    exact ⟨h₁, h₂, h₃⟩
  · show (t₁.proc t₁.idleproc).state ≠ _
    rw [hf.idleproc]
    exact (hf.running hidle hp.symm).2
  · show (t₁.proc p).parent = some t₁.idleproc
    rw [hf.parent, if_pos rfl, hf.idleproc]
    rfl
  · rw [phaseOf, phaseOf, Option.bind_some, Phase.next]
    by_cases hxp : p = x
    · subst hxp
      rw [if_pos rfl, if_pos rfl]
      exact ⟨_, rfl, hmem, hf.newRuns⟩
    · rw [if_neg hxp]
      refine ⟨_, rfl, ?_⟩
      show x ∉ t₁.procList
      rw [hf.procList]
      intro hmem
      rcases List.mem_cons.mp hmem with heq | hmem
      · exact hxp heq.symm
      · exact List.not_mem_nil hmem

/-- **The invariant of all runs.** -/
theorem ProcRun.inv {trace : List ProcEvent} (h : ProcRun t trace) : RunInv t trace := by
  induction h with
  | boot proc idle p hp hrun =>
    obtain ⟨t₁, hrun₁, hinv⟩ := procInit_inv proc hp
    rw [hrun] at hrun₁
    rw [(Outcome.ok.inj hrun₁).2]
    exact hinv
  | step _ hstep ih => exact ih.step hstep

/-- What the claims on the process table are about: the lists, the tree and the search for an identifier. -/
structure WellLinked (t : ProcTable) : Prop where
  nodup : t.procList.Nodup
  hash : ∀ p, p ∈ t.procList ↔ ∃ b, p ∈ t.hashList b
  hashNodup : ∀ b, (t.hashList b).Nodup
  hashOnce : ∀ p b b', p ∈ t.hashList b → p ∈ t.hashList b' → b = b'
  nr : t.nrProcess = t.procList.length + 1
  children : ∀ q, t.Live q → ∃ l, Children t q l
  pids : ∀ p ∈ t.procList, ∀ q ∈ t.procList, (t.proc p).pid = (t.proc q).pid → p = q
  findProc : ∀ pid p, t.findProc pid = some p ↔ p ∈ t.procList ∧ (t.proc p).pid = pid

/-- **The process table and the family tree.** In every run of forks, exits and waits, at every boundary between two
calls: the lists agree, the children of each process are linked from its `cptr` on, and `find_proc` finds the process
with an identifier. The events of a process are those of lives that follow one another: it is forked, exits with a
code, and is then reaped with this code. And where a child is reaped, it is by its parent of that moment. -/
theorem process_table {trace : List ProcEvent} (h : ProcRun t trace) :
    WellLinked t ∧ (∀ p, ∃ ph, phaseOf p trace = some ph ∧ ph.Matches t p) ∧
      ∀ events t', ProcStep t events t' → ∀ c p code, .reaped c p code ∈ events →
        p ∈ t.procList ∧ (t.proc p).parent = some c ∧ (t.proc p).state = .zombie ∧ (t.proc p).exitCode = code ∧
          t'.procList = t.procList.erase p := by
  obtain ⟨htable, ⟨kids, hfam⟩, ⟨i, hperm⟩, hphase⟩ := h.inv
  refine ⟨⟨htable.nodup, fun p => ?_, htable.hashNodup, fun p b b' hb hb' => ?_, htable.nr, fun q hq => ?_,
    fun p hp q hq heq => htable.pid_injective hp hq heq, htable.findProc⟩, hphase, ?_⟩
  · exact ⟨fun hp => ⟨_, (htable.hash _ p).mpr ⟨hp, rfl⟩⟩, fun ⟨b, hb⟩ => ((htable.hash b p).mp hb).1⟩
  · rw [← ((htable.hash b p).mp hb).2, ((htable.hash b' p).mp hb').2]
  · exact ⟨_, hfam.children q hq⟩
  · intro events t' hstep c p code hmem
    cases hstep with
    | fork c' p' pid hc hp hrun => simp at hmem
    | exit c' fuel code' hc hrun => simp at hmem
    | wakeup p' hrun => simp at hmem
    | wait c' fuel pid e hc hrun =>
      have hpost := waitPass_post fuel pid htable hfam hperm hc
      rw [hrun] at hpost
      cases e with
      | asleep => simp [WaitEnd.events] at hmem
      | reaped p' code' =>
        obtain ⟨-, -, -, hp, hparent, hz, hcode, hreaped⟩ := hpost
        rw [WaitEnd.events, List.mem_singleton, ProcEvent.reaped.injEq] at hmem
        obtain ⟨rfl, rfl, rfl⟩ := hmem
        exact ⟨hp, hparent, hz, hcode, hreaped.procList⟩

/-- Memory in which nothing has been written. -/
def blankProc : Proc := ⟨.uninit, 0, none, 0, 0, none, none, none⟩

/-- The process that `initproc` has forked exits with the code 7, and is reaped. -/
theorem process_table_reap : ∃ t, ProcRun t [.reaped 1 2 7, .exited 2 7, .forked 1 2, .forked 0 1] ∧ WellLinked t ∧
    t.findProc 2 = none := by
  have h₁ := ProcRun.boot (fun _ => blankProc) 0 1 (by decide) rfl
  have h₂ := h₁.step (ProcStep.fork 1 2 2 ⟨Or.inr (by decide), by decide⟩ (by rintro (h | h) <;> revert h <;> decide) rfl)
  have h₃ := h₂.step (ProcStep.exit 2 1 7 ⟨Or.inr (by decide), by decide⟩ rfl)
  have h₄ := h₃.step (ProcStep.wait 1 1 0 (.reaped 2 7) ⟨Or.inr (by decide), by decide⟩ rfl)
  exact ⟨_, h₄, (process_table h₄).1, rfl⟩

/-- **The calls return.** No assertion fails in them, and their loops end within as many turns as there are processes. -/
theorem ProcRun.calls_return {trace : List ProcEvent} (h : ProcRun t trace) (hc : t.Running c) {fuel : ℕ}
    (hfuel : t.procList.length ≤ fuel) :
    (c ≠ t.idleproc → some c ≠ t.initproc → ∀ code, ∃ t', (doExit fuel c code).run t = .ok () t') ∧
      ∀ pid, (∃ e t', (waitPass fuel c pid).run t = .ok e t') ∨ (waitPass fuel c pid).run t = .error .badProc t := by
  obtain ⟨htable, ⟨kids, hfam⟩, ⟨i, hperm⟩, -⟩ := h.inv
  -- the children are some of the processes
  have hle : (kids c).length ≤ t.procList.length := by
    have hchildren := hfam.children c hc.1
    exact (hchildren.chain.nodup.subperm fun p hp => ((hchildren.mem p).mp hp).1).length_le
  refine ⟨fun hidle hinit code => ?_, fun pid => ?_⟩
  · have hci : c ≠ i := fun heq => hinit (by rw [hperm.init, heq])
    have hpost := doExit_post fuel code htable hfam hperm hc hidle hci
    revert hpost
    cases (doExit fuel c code).run t with
    | ok u t' => exact fun _ => ⟨t', rfl⟩
    | error e t' => exact fun hE => hE.elim
    | panic e => exact fun hP => absurd hP.2 (by omega)
  · have hpost := waitPass_post fuel pid htable hfam hperm hc
    revert hpost
    cases (waitPass fuel c pid).run t with
    | ok e t' => exact fun _ => Or.inl ⟨e, t', rfl⟩
    | error e t' =>
      rintro ⟨rfl, rfl⟩
      exact Or.inr rfl
    | panic e => exact fun hP => absurd hP.2 (by omega)

/-- A process that has been forked exits. -/
theorem calls_return_forked : ∃ t, t.Running 2 ∧ ∀ code, ∃ t', (doExit 2 2 code).run t = .ok () t' := by
  have h₁ := ProcRun.boot (fun _ => blankProc) 0 1 (by decide) rfl
  have h₂ := h₁.step (ProcStep.fork 1 2 2 ⟨Or.inr (by decide), by decide⟩ (by rintro (h | h) <;> revert h <;> decide) rfl)
  exact ⟨_, ⟨Or.inr (by decide), by decide⟩, (h₂.calls_return ⟨Or.inr (by decide), by decide⟩ (by decide)).1 (by decide) (by decide)⟩

end Ucore.Process
