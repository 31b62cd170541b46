import Mathlib.Data.Int.Interval
import Mathlib.Order.Interval.Finset.Defs
import Mathlib.Tactic.Common

/-!
# Process identifiers

`get_pid` and its two cursors, which it keeps from one call to the next.

* `pidScan` is one pass over `proc_list`; it ends (`done`) or has to start again (`again`). `pidRepeat` starts it again
  and again, up to `fuel` times.
* `PidScanned` is the invariant of a pass: no identifier that has been passed is `last_pid`, or lies between it and
  `next_safe`.
* `pidRepeat_spec` says that the passes end: the distance from `last_pid` to the next identifier that is not in use gets
  smaller with each of them.
* `getPid_spec` is what `get_pid` does.
-/

namespace Ucore.Process

/-- `MAX_PROCESS` -/
def maxProcess : ℕ := 4096

/-- `MAX_PID` -/
def maxPid : ℤ := 8192

/-- The static variables of `get_pid`. -/
structure PidCursors where
  lastPid : ℤ
  nextSafe : ℤ
  deriving Repr, DecidableEq

/-- Their values at the start. -/
def PidCursors.init : PidCursors := ⟨maxPid, maxPid⟩

/-- How a pass over `proc_list` ends: at the end of the list, or at `goto repeat`. -/
inductive PidPass where
  | done (c : PidCursors)
  | again (c : PidCursors)
  deriving Repr, DecidableEq

/-- The loop of `get_pid` over the identifiers in `proc_list`.
Source: `kern/process/proc.c` `get_pid` -/
def pidScan : List ℤ → PidCursors → PidPass
  | [], c => .done c
  | pid :: rest, c =>
    if pid = c.lastPid then
      if c.lastPid + 1 ≥ c.nextSafe then
        .again ⟨if c.lastPid + 1 ≥ maxPid then 1 else c.lastPid + 1, maxPid⟩
      else
        pidScan rest { c with lastPid := c.lastPid + 1 }
    else if pid > c.lastPid ∧ c.nextSafe > pid then
      pidScan rest { c with nextSafe := pid }
    else
      pidScan rest c

/-- From the label `repeat` on, for at most `fuel` passes. -/
def pidRepeat (pids : List ℤ) : ℕ → PidCursors → Option PidCursors
  | 0, _ => none
  | fuel + 1, c =>
    match pidScan pids c with
    | .done c' => some c'
    | .again c' => pidRepeat pids fuel c'

/-- `get_pid`; the new `last_pid` is what it returns.
Source: `kern/process/proc.c` `get_pid` -/
def getPid (pids : List ℤ) (fuel : ℕ) (c : PidCursors) : Option PidCursors :=
  if c.lastPid + 1 ≥ maxPid then
    pidRepeat pids fuel ⟨1, maxPid⟩
  else if c.lastPid + 1 ≥ c.nextSafe then
    pidRepeat pids fuel ⟨c.lastPid + 1, maxPid⟩
  else
    some { c with lastPid := c.lastPid + 1 }

/-! ### One pass -/

/-- The cursors are those of a pass that has seen the identifiers `seen`. -/
structure PidScanned (seen : List ℤ) (c : PidCursors) : Prop where
  pos : 1 ≤ c.lastPid
  lt : c.lastPid < c.nextSafe
  le : c.nextSafe ≤ maxPid
  outside : ∀ pid ∈ seen, pid < c.lastPid ∨ c.nextSafe ≤ pid

variable {pids rest : List ℤ} {c c' : PidCursors}

/-- The identifier `d` places behind `last`, when the counting starts again at 1 behind `MAX_PID - 1`. -/
def pidAhead (last d : ℤ) : ℤ := (last - 1 + d) % (maxPid - 1) + 1

theorem pidAhead_succ {last d : ℤ} (h₁ : 1 ≤ last) (h₂ : last < maxPid) :
    pidAhead (if last + 1 ≥ maxPid then 1 else last + 1) d = pidAhead last (d + 1) := by
  unfold pidAhead maxPid at *
  split_ifs <;> omega

theorem pidAhead_zero {last : ℤ} (h₁ : 1 ≤ last) (h₂ : last < maxPid) : pidAhead last 0 = last := by
  unfold pidAhead maxPid at *
  omega

/-- An identifier is free `d` places behind `last_pid`. -/
def FreeAhead (pids : List ℤ) (c : PidCursors) (d : ℕ) : Prop := pidAhead c.lastPid d ∉ pids

/-- Where `last_pid` is in use, the next free identifier gets nearer when it is increased. -/
theorem FreeAhead.step {d : ℕ} (h : FreeAhead pids c d) (h₁ : 1 ≤ c.lastPid) (h₂ : c.lastPid < maxPid)
    (hused : c.lastPid ∈ pids) : ∃ d' < d,
      pidAhead (if c.lastPid + 1 ≥ maxPid then 1 else c.lastPid + 1) d' ∉ pids := by
  cases d with
  | zero =>
    rw [FreeAhead, Nat.cast_zero, pidAhead_zero h₁ h₂] at h
    exact absurd hused h
  | succ d =>
    refine ⟨d, Nat.lt_succ_self d, ?_⟩
    rw [pidAhead_succ h₁ h₂]
    exact_mod_cast h

/-- **One pass.** At the end of the list, all identifiers have been seen; otherwise the next free one is nearer. -/
theorem pidScan_spec (rest seen : List ℤ) {c : PidCursors} {d : ℕ} (h : PidScanned seen c)
    (hfree : FreeAhead (seen ++ rest) c d) :
    match pidScan rest c with
    | .done c' => PidScanned (seen ++ rest) c'
    | .again c' => PidScanned [] c' ∧ ∃ d' < d, FreeAhead (seen ++ rest) c' d' := by
  induction rest generalizing seen c d with
  | nil =>
    rw [List.append_nil]
    exact h
  | cons pid rest ih =>
    obtain ⟨hpos, hlt, hle, houtside⟩ := h
    have hmax : c.lastPid < maxPid := by omega
    rw [show seen ++ pid :: rest = (seen ++ [pid]) ++ rest by simp] at hfree ⊢
    rw [pidScan]
    by_cases hused : pid = c.lastPid
    · rw [if_pos hused]
      have hmem : c.lastPid ∈ (seen ++ [pid]) ++ rest := by simp [hused]
      obtain ⟨d', hd', hfree'⟩ := hfree.step hpos hmax hmem
      by_cases hstop : c.lastPid + 1 ≥ c.nextSafe
      · rw [if_pos hstop]
        refine ⟨⟨?_, ?_, le_refl _, nofun⟩, d', hd', hfree'⟩ <;> simp only <;> unfold maxPid at * <;>
          split_ifs <;> omega
      · rw [if_neg hstop]
        have hnext : PidScanned (seen ++ [pid]) { c with lastPid := c.lastPid + 1 } := by
          refine ⟨by simp only; omega, by simp only; omega, hle, fun p hp => ?_⟩
          rcases List.mem_append.mp hp with hp | hp
          · have := houtside p hp
            simp only
            omega
          · rw [List.mem_singleton.mp hp]
            simp only
            omega
        have hfree₁ : FreeAhead ((seen ++ [pid]) ++ rest) { c with lastPid := c.lastPid + 1 } d' := by
          rw [if_neg (by omega)] at hfree'
          exact hfree'
        have hrec := ih (seen ++ [pid]) hnext hfree₁
        revert hrec
        cases pidScan rest { c with lastPid := c.lastPid + 1 } with
        | done c' => exact fun hrec => hrec
        | again c' => exact fun ⟨hscan, e, he, hf⟩ => ⟨hscan, e, he.trans hd', hf⟩
    · rw [if_neg hused]
      by_cases hbetween : pid > c.lastPid ∧ c.nextSafe > pid
      · rw [if_pos hbetween]
        refine ih (seen ++ [pid]) ⟨hpos, hbetween.1, ?_, fun p hp => ?_⟩ hfree
        · simp only
          omega
        · rcases List.mem_append.mp hp with hp | hp
          · have := houtside p hp
            simp only
            omega
          · rw [List.mem_singleton.mp hp]
            simp only
            omega
      · rw [if_neg hbetween]
        refine ih (seen ++ [pid]) ⟨hpos, hlt, hle, fun p hp => ?_⟩ hfree
        rcases List.mem_append.mp hp with hp | hp
        · exact houtside p hp
        · rw [List.mem_singleton.mp hp]
          omega

/-! ### All passes -/

/-- **The passes end**, and no identifier in use is the one that is returned, or lies between it and `next_safe`. -/
theorem pidRepeat_spec (fuel : ℕ) {c : PidCursors} {d : ℕ} (h : PidScanned [] c) (hfree : FreeAhead pids c d)
    (hd : d < fuel) : ∃ c', pidRepeat pids fuel c = some c' ∧ PidScanned pids c' := by
  induction fuel generalizing c d with
  | zero => omega
  | succ fuel ih =>
    have hpass := pidScan_spec pids [] h hfree
    rw [pidRepeat]
    revert hpass
    cases pidScan pids c with
    | done c' => exact fun hpass => ⟨c', rfl, hpass⟩
    | again c' =>
      rintro ⟨hscan, d', hd', hfree'⟩
      exact ih hscan hfree' (by omega)

/-- More passes than needed change nothing. -/
theorem pidRepeat_mono {fuel fuel' : ℕ} (h : pidRepeat pids fuel c = some c') (hle : fuel ≤ fuel') :
    pidRepeat pids fuel' c = some c' := by
  induction fuel generalizing c fuel' with
  | zero => cases h
  | succ fuel ih =>
    obtain ⟨n, rfl⟩ : ∃ n, fuel' = n + 1 := ⟨fuel' - 1, by omega⟩
    rw [pidRepeat] at h ⊢
    revert h
    cases pidScan pids c with
    | done c₁ => exact fun h => h
    | again c₁ => exact fun h => ih h (by omega)

theorem getPid_mono {fuel fuel' : ℕ} (h : getPid pids fuel c = some c') (hle : fuel ≤ fuel') :
    getPid pids fuel' c = some c' := by
  unfold getPid at *
  split_ifs at * with h₁ h₂
  · exact pidRepeat_mono h hle
  · exact pidRepeat_mono h hle
  · exact h

/-- Fewer processes than identifiers leave one that is free. -/
theorem exists_freeAhead (c : PidCursors) (hlen : pids.length < 8191) : ∃ d < 8191, FreeAhead pids c d := by
  have hcard : pids.toFinset.card < (Finset.Ico (1 : ℤ) maxPid).card := by
    rw [Int.card_Ico]
    exact lt_of_le_of_lt pids.toFinset_card_le hlen
  obtain ⟨pid, hpid, hnot⟩ := Finset.exists_mem_notMem_of_card_lt_card hcard
  rw [Finset.mem_Ico] at hpid
  rw [List.mem_toFinset] at hnot
  obtain ⟨d, hd⟩ := Int.eq_ofNat_of_zero_le (Int.emod_nonneg (pid - c.lastPid) (by decide : (8191 : ℤ) ≠ 0))
  have heq : pidAhead c.lastPid d = pid := by
    unfold pidAhead maxPid at *
    omega
  refine ⟨d, by omega, ?_⟩
  rw [FreeAhead, heq]
  exact hnot

/-- What the cursors say about the identifiers in use between two calls. -/
structure PidInv (pids : List ℤ) (c : PidCursors) : Prop where
  pos : 1 ≤ c.lastPid
  le : c.nextSafe ≤ maxPid
  between : ∀ pid ∈ pids, ¬ (c.lastPid < pid ∧ pid < c.nextSafe)

theorem PidInv.init : PidInv [] PidCursors.init := ⟨by decide, le_refl _, nofun⟩

/-- Fewer identifiers in use, or `last_pid` one of them, change nothing. -/
theorem PidInv.mono (h : PidInv pids c) (hsub : ∀ pid ∈ rest, pid ∈ pids ∨ pid = c.lastPid) : PidInv rest c := by
  refine ⟨h.pos, h.le, fun pid hpid => ?_⟩
  rcases hsub pid hpid with hold | rfl
  · exact h.between pid hold
  · omega

/-- **`get_pid`** returns an identifier that is not in use, whenever there are fewer processes than identifiers. -/
theorem getPid_spec {fuel : ℕ} (h : PidInv pids c) (hlen : pids.length < 8191) (hfuel : 8191 ≤ fuel) :
    ∃ c', getPid pids fuel c = some c' ∧ PidInv pids c' ∧ c'.lastPid < maxPid ∧ c'.lastPid ∉ pids := by
  obtain ⟨hpos, hle, hbetween⟩ := h
  have hscanned : ∀ {c₁ : PidCursors}, PidScanned pids c₁ → PidInv pids c₁ ∧ c₁.lastPid < maxPid ∧ c₁.lastPid ∉ pids := by
    rintro c₁ ⟨hpos₁, hlt₁, hle₁, houtside⟩
    refine ⟨⟨hpos₁, hle₁, fun pid hpid => ?_⟩, by omega, fun hmem => ?_⟩
    · have := houtside pid hpid
      omega
    · have := houtside _ hmem
      omega
  have hrepeat : ∀ last, 1 ≤ last → last < maxPid → ∃ c', pidRepeat pids fuel ⟨last, maxPid⟩ = some c' ∧
      PidInv pids c' ∧ c'.lastPid < maxPid ∧ c'.lastPid ∉ pids := by
    intro last h₁ h₂
    obtain ⟨d, hd, hfree⟩ := exists_freeAhead ⟨last, maxPid⟩ hlen
    obtain ⟨c', hrun, hscan⟩ := pidRepeat_spec fuel ⟨h₁, h₂, le_refl _, nofun⟩ hfree (hd.trans_le hfuel)
    exact ⟨c', hrun, hscanned hscan⟩
  unfold getPid
  by_cases hmax : c.lastPid + 1 ≥ maxPid
  · rw [if_pos hmax]
    exact hrepeat 1 (le_refl _) (by decide)
  rw [if_neg hmax]
  by_cases hsafe : c.lastPid + 1 ≥ c.nextSafe
  · rw [if_pos hsafe]
    exact hrepeat _ (by omega) (by omega)
  · rw [if_neg hsafe]
    refine ⟨_, rfl, hscanned ⟨by simp only; omega, by simp only; omega, hle, fun pid hpid => ?_⟩⟩
    have := hbetween pid hpid
    simp only
    omega

end Ucore.Process
