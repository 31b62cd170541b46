import Ucore.Process.Links

/-!
# Runs of `get_pid`

Processes are created and removed in any order; `get_pid` always finds an identifier for the next one.

* `createProc` is what `do_fork` does to `proc_list` and to the cursors, and `PidStep` is a creation or a removal.
* `CursorInv.step` is the invariant, and `get_pid_fresh` what follows from it in every state that is reached.
-/

namespace Ucore.Process

open Ucore.Lib Relation

/-- The part of `do_fork` that takes an identifier and puts the process into `proc_list`.
Source: `kern/process/proc.c` `do_fork` -/
def createProc (c p : ℕ) : TableProg ℤ := do
  let t ← Prog.get
  if t.nrProcess ≥ maxProcess then
    Prog.throw .noFreeProc
  else do
    setProc p fun d => { allocProc d with parent := some c }
    let pid ← tableGetPid
    setProc p fun d => { d with pid := pid }
    setLinks p
    pure pid

/-- A process is created in memory where there is none, or removed. -/
inductive PidStep : ProcTable → ProcTable → Prop
  | create {t t' : ProcTable} (c p : ℕ) (pid : ℤ) (hp : p ∉ t.procList) (hrun : (createProc c p).run t = .ok pid t') :
      PidStep t t'
  | remove {t t' : ProcTable} (p : ℕ) (hp : p ∈ t.procList) (hrun : (removeLinks p).run t = .ok () t') : PidStep t t'

/-- The state before the first process is created. -/
structure NoProcess (t : ProcTable) : Prop where
  procList : t.procList = []
  cursors : t.cursors = .init
  nr : 0 ≤ t.nrProcess

/-- The invariant of the cursors. -/
structure CursorInv (t : ProcTable) : Prop where
  pids : PidInv t.pids t.cursors
  length_le : t.procList.length ≤ t.nrProcess
  parent : ∀ p ∈ t.procList, ∃ q, (t.proc p).parent = some q

variable {t₀ t t' : ProcTable} {c p : ℕ}

theorem NoProcess.inv (h : NoProcess t) : CursorInv t := by
  refine ⟨?_, ?_, fun p hp => ?_⟩
  · rw [ProcTable.pids, h.procList, h.cursors]
    exact PidInv.init
  · rw [h.procList]
    exact h.nr
  · rw [h.procList] at hp
    exact absurd hp List.not_mem_nil

/-- **A creation** gets a new identifier. -/
theorem CursorInv.create (h : CursorInv t) (c : ℕ) (hnr : t.nrProcess < maxProcess) (hp : p ∉ t.procList) :
    ∃ cur t', getPid t.pids 8191 t.cursors = some cur ∧ (createProc c p).run t = .ok cur.lastPid t' ∧
      cur.lastPid < maxPid ∧ cur.lastPid ∉ t.pids ∧ CursorInv t' := by
  have hlen := h.length_le
  have hne : ∀ x ∈ t.procList, x ≠ p := fun x hx heq => hp (heq ▸ hx)
  let t₁ := t.setProc p fun d => { allocProc d with parent := some c }
  have hpids : t₁.pids = t.pids := by
    refine pids_congr rfl fun x hx => ?_
    rw [ProcTable.proc_setProc, if_neg (hne x hx)]
  have hinv₁ : PidInv t₁.pids t₁.cursors := by
    rw [hpids]
    exact h.pids
  obtain ⟨cur, hget, hcur, hlt, hnew⟩ := getPid_spec h.pids (by rw [length_pids]; unfold maxProcess at hnr; omega)
    (le_refl 8191)
  have hrun : tableGetPid.run t₁ = .ok cur.lastPid { t₁ with cursors := cur } := by
    rw [tableGetPid, Prog.run_bind, Prog.run_get, Outcome.andThen_ok, hpids]
    simp only [t₁, ProcTable.cursors_setProc, hget]
    rfl
  let t₂ := ({ t₁ with cursors := cur } : ProcTable).setProc p fun d => { d with pid := cur.lastPid }
  have hparent : ∀ x, (t₂.proc x).parent = if x = p then some c else (t.proc x).parent := fun x => by
    simp only [t₂, t₁, ProcTable.parent_setProc, ite_self]
  obtain ⟨t', hlinks, hset⟩ := setLinks_run ((hparent p).trans (if_pos rfl))
  refine ⟨cur, t', hget, ?_, hlt, hnew, ?_, ?_, fun x hx => ?_⟩
  · rw [createProc, Prog.run_bind, Prog.run_get, Outcome.andThen_ok, Prog.run_ite, if_neg (by omega), setProc,
      Prog.run_bind, Prog.run_modify, Outcome.andThen_ok, Prog.bind_of_ok hrun, setProc, Prog.run_bind,
      Prog.run_modify, Outcome.andThen_ok, Prog.bind_of_ok hlinks, Prog.run_pure]
  · rw [hset.same.cursors]
    refine hcur.mono fun pid hpid => ?_
    obtain ⟨x, hx, rfl⟩ := mem_pids.mp hpid
    rw [hset.procList] at hx
    rw [(hset.same.own x).pid, ProcTable.proc_setProc]
    by_cases hxp : x = p
    · rw [if_pos hxp]
      exact Or.inr rfl
    · rw [if_neg hxp, ProcTable.proc_setProc, if_neg hxp]
      exact Or.inl (mem_pids.mpr ⟨x, (List.mem_cons.mp hx).resolve_left hxp, rfl⟩)
  · rw [hset.procList, hset.nr, List.length_cons, Nat.cast_succ]
    exact Int.add_le_add_right hlen 1
  · rw [hset.procList] at hx
    rw [hset.parent, hparent]
    by_cases hxp : x = p
    · exact ⟨c, if_pos hxp⟩
    · rw [if_neg hxp]
      exact h.parent x ((List.mem_cons.mp hx).resolve_left hxp)

/-- **A removal**, whichever process it is. -/
theorem CursorInv.remove (h : CursorInv t) (hp : p ∈ t.procList) (hrun : (removeLinks p).run t = .ok () t') :
    CursorInv t' := by
  obtain ⟨q, hq⟩ := h.parent p hp
  obtain ⟨t₁, hrun₁, hrem⟩ := removeLinks_run hq
  rw [hrun] at hrun₁
  rw [← (Outcome.ok.inj hrun₁).2] at hrem
  refine ⟨?_, ?_, fun x hx => ?_⟩
  · rw [hrem.same.cursors]
    refine h.pids.mono fun pid hpid => ?_
    obtain ⟨x, hx, rfl⟩ := mem_pids.mp hpid
    rw [hrem.procList] at hx
    rw [(hrem.same.own x).pid]
    exact Or.inl (mem_pids.mpr ⟨x, List.mem_of_mem_erase hx, rfl⟩)
  · have hlen := List.length_erase_add_one hp
    have hle := h.length_le
    rw [hrem.procList, hrem.nr]
    omega
  · rw [hrem.procList] at hx
    rw [hrem.parent]
    exact h.parent x (List.mem_of_mem_erase hx)

theorem CursorInv.step (h : CursorInv t) (hstep : PidStep t t') : CursorInv t' := by
  cases hstep with
  | create c p pid hp hrun =>
    by_cases hnr : t.nrProcess < maxProcess
    · obtain ⟨cur, t₁, -, hrun₁, -, -, hinv⟩ := h.create c hnr hp
      rw [hrun] at hrun₁
      rw [(Outcome.ok.inj hrun₁).2]
      exact hinv
    · rw [createProc, Prog.run_bind, Prog.run_get, Outcome.andThen_ok, Prog.run_ite, if_pos (by omega)] at hrun
      cases hrun
  | remove p hp hrun => exact h.remove hp hrun

/-- **Process identifiers.** In every state that creations and removals lead to, no process has an identifier strictly
between `last_pid` and `next_safe`; and as long as there are fewer than `MAX_PROCESS` of them, `get_pid` ends, however
often its loop may run from 8191 passes on, with an identifier from 1 to `MAX_PID - 1` that no process has. -/
theorem get_pid_fresh (h₀ : NoProcess t₀) (hrun : ReflTransGen PidStep t₀ t) :
    (∀ p ∈ t.procList, ¬ (t.cursors.lastPid < (t.proc p).pid ∧ (t.proc p).pid < t.cursors.nextSafe)) ∧
      (t.nrProcess < maxProcess → ∃ cur, (∀ fuel ≥ 8191, getPid t.pids fuel t.cursors = some cur) ∧
        1 ≤ cur.lastPid ∧ cur.lastPid < maxPid ∧ (∀ p ∈ t.procList, (t.proc p).pid ≠ cur.lastPid) ∧
        ∀ c p, p ∉ t.procList → ∃ t', (createProc c p).run t = .ok cur.lastPid t') := by
  have hinv : CursorInv t := invariant_of_step CursorInv hrun h₀.inv fun _ _ h hstep => h.step hstep
  refine ⟨fun p hp => hinv.pids.between _ (mem_pids.mpr ⟨p, hp, rfl⟩), fun hnr => ?_⟩
  have hlen : t.pids.length < 8191 := by
    have := hinv.length_le
    rw [length_pids]
    unfold maxProcess at hnr
    omega
  obtain ⟨cur, hget, hcur, hlt, hnew⟩ := getPid_spec hinv.pids hlen (le_refl 8191)
  refine ⟨cur, fun fuel hfuel => getPid_mono hget hfuel, hcur.pos, hlt, fun p hp heq => ?_, fun c p hp => ?_⟩
  · exact hnew (mem_pids.mpr ⟨p, hp, heq⟩)
  · obtain ⟨cur', t', hget', hcreate, -⟩ := hinv.create c hnr hp
    rw [hget] at hget'
    rw [Option.some.inj hget']
    exact ⟨t', hcreate⟩

/-- The first process gets the identifier 1. -/
theorem get_pid_fresh_first : ∃ cur, getPid [] 8191 .init = some cur ∧ cur.lastPid = 1 ∧
    ∃ t', (createProc 0 1).run (ProcTable.boot (fun _ => ⟨.uninit, 0, none, 0, 0, none, none, none⟩) 0) =
      .ok cur.lastPid t' := by
  have hboot : ReflTransGen PidStep (ProcTable.boot (fun _ => ⟨.uninit, 0, none, 0, 0, none, none, none⟩) 0)
      (ProcTable.boot (fun _ => ⟨.uninit, 0, none, 0, 0, none, none, none⟩) 0) := .refl
  obtain ⟨cur, hget, -, -, -, hcreate⟩ :=
    (get_pid_fresh ⟨rfl, rfl, Int.zero_le_ofNat 1⟩ hboot).2 (show (1 : ℤ) < maxProcess by decide)
  have hcur : getPid [] 8191 .init = some cur := hget 8191 (le_refl _)
  refine ⟨cur, hcur, ?_, hcreate 0 1 List.not_mem_nil⟩
  have hone : getPid [] 8191 .init = some ⟨1, maxPid⟩ := rfl
  rw [hone] at hcur
  rw [← Option.some.inj hcur]

end Ucore.Process
