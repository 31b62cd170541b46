import Ucore.Lib.Prog
import Mathlib.Tactic.Ring

/-!
# The search in the table of symbols

`stab_binsearch` of `kern/debug/kdebug.c`: a binary search for an address among the entries of one type, in a table in which
entries of all types are mixed.

* `Search` are the variables of the function and the two integers that its pointers lead to. `Search.reads` records the entries of
  the table that have been read.
* An `int` is an integer here. An entry has 12 bytes, so a table has fewer than `2 ^ 29` of them and `l + r` does not overflow.
  `addr` is an `uintptr_t`, and `addr ++` wraps around.
* `Turn` says what a turn of the loop can do, and `searchLoop_run` is the rule for the loop: what every turn keeps holds when it
  ends. It does end, as a turn makes `[l, r]` smaller or leaves an entry at `l` that is below the new address.
-/

namespace Ucore.Debug

open Ucore.Lib

/-- Source: `kern/debug/stab.h` `struct stab`, with what the search reads -/
structure Stab where
  nType : BitVec 8
  nValue : BitVec 32
  deriving Repr, DecidableEq

/-- The entry has the type. -/
def Stab.Of (e : Stab) (type : ℤ) : Prop := (e.nType.toNat : ℤ) = type

instance (e : Stab) (type : ℤ) : Decidable (e.Of type) := inferInstanceAs (Decidable ((e.nType.toNat : ℤ) = type))

/-- The variables of `stab_binsearch`. -/
structure Search where
  l : ℤ
  r : ℤ
  anyMatches : Bool
  addr : BitVec 32
  /-- `*region_left` -/
  regionLeft : ℤ
  /-- `*region_right` -/
  regionRight : ℤ
  /-- The entries that have been read. -/
  reads : List ℤ
  deriving Repr, DecidableEq

/-- A loop has not ended. -/
inductive SearchPanic where
  | loop
  deriving Repr, DecidableEq

abbrev SearchProg := Prog SearchPanic Empty Search

/-- The state in which the loop is reached. -/
def Search.start (left right : ℤ) (addr : BitVec 32) : Search := ⟨left, right, false, addr, left, right, []⟩

/-- `true_m` -/
def Search.trueM (s : Search) : ℤ := (s.l + s.r).tdiv 2

section search

variable (stabs : ℤ → Stab) (type : ℤ)

/-- `stabs[i]` -/
def readStab (i : ℤ) : SearchProg Stab := do
  Prog.modify fun s => { s with reads := i :: s.reads }
  pure (stabs i)

/-- The loop for the earliest stab with the right type. -/
def backUp : ℕ → ℤ → SearchProg ℤ
  | 0, _ => Prog.stop .loop
  | fuel + 1, m => do
    let s ← Prog.get
    if s.l ≤ m then do
      let e ← readStab stabs m
      if e.Of type then pure m else backUp fuel (m - 1)
    else pure m

/-- A turn of the loop. -/
def searchTurn : SearchProg Unit := do
  let s ← Prog.get
  let m ← backUp stabs type (s.trueM + 2 - s.l).toNat s.trueM
  if m < s.l then Prog.modify fun s' => { s' with l := s.trueM + 1 }
  else do
    let e ← readStab stabs m
    Prog.modify fun s' => { s' with anyMatches := true }
    if e.nValue < s.addr then Prog.modify fun s' => { s' with regionLeft := m, l := s.trueM + 1 }
    else if s.addr < e.nValue then Prog.modify fun s' => { s' with regionRight := m - 1, r := m - 1 }
    else Prog.modify fun s' => { s' with regionLeft := m, l := m, addr := s.addr + 1 }

/-- The loop of the binary search. -/
def searchLoop : ℕ → SearchProg Unit
  | 0 => Prog.stop .loop
  | fuel + 1 => do
    let s ← Prog.get
    if s.l ≤ s.r then do
      searchTurn stabs type
      searchLoop fuel
    else pure ()

/-- The loop for the rightmost region. -/
def lastOf : ℕ → ℤ → SearchProg ℤ
  | 0, _ => Prog.stop .loop
  | fuel + 1, l => do
    let s ← Prog.get
    if s.regionLeft < l then do
      let e ← readStab stabs l
      if e.Of type then pure l else lastOf fuel (l - 1)
    else pure l

/-- Source: `kern/debug/kdebug.c` `stab_binsearch` -/
def stabBinsearch : SearchProg Unit := do
  let s ← Prog.get
  searchLoop stabs type (2 * (s.r + 1 - s.l).toNat + 2)
  let s ← Prog.get
  if s.anyMatches = false then Prog.modify fun s => { s with regionRight := s.regionLeft - 1 }
  else do
    let l ← lastOf stabs type (s.regionRight + 1 - s.regionLeft).toNat.succ s.regionRight
    Prog.modify fun s => { s with regionLeft := l }

/-! ### A turn -/

/-- `m` is the last entry of the type in `[l, t]`. -/
structure LastOf (l t m : ℤ) : Prop where
  le : l ≤ m
  le' : m ≤ t
  of : (stabs m).Of type
  none : ∀ i, m < i → i ≤ t → ¬ (stabs i).Of type

/-- What a turn of the loop can do. -/
inductive Turn (s : Search) (reads : List ℤ) : Search → Prop
  | skip (h : ∀ i, s.l ≤ i → i ≤ s.trueM → ¬ (stabs i).Of type) : Turn s reads { s with l := s.trueM + 1, reads := reads }
  | less {m : ℤ} (h : LastOf stabs type s.l s.trueM m) (hlt : (stabs m).nValue < s.addr) :
    Turn s reads { s with anyMatches := true, regionLeft := m, l := s.trueM + 1, reads := reads }
  | greater {m : ℤ} (h : LastOf stabs type s.l s.trueM m) (hlt : s.addr < (stabs m).nValue) :
    Turn s reads { s with anyMatches := true, regionRight := m - 1, r := m - 1, reads := reads }
  | exact {m : ℤ} (h : LastOf stabs type s.l s.trueM m) (heq : (stabs m).nValue = s.addr) :
    Turn s reads { s with anyMatches := true, regionLeft := m, l := m, addr := s.addr + 1, reads := reads }

variable {stabs type} {s : Search} {l t m : ℤ}

/-- The same state with more reads, all of them in `[l, r]`. -/
def Search.Reads (s : Search) (l r : ℤ) (s' : Search) : Prop :=
  ∃ reads, s' = { s with reads := reads } ∧ ∀ i ∈ reads, i ∈ s.reads ∨ (l ≤ i ∧ i ≤ r)

theorem Search.Reads.refl (s : Search) (l r : ℤ) : s.Reads l r s := ⟨s.reads, rfl, fun _ hi => .inl hi⟩

theorem Search.Reads.cons {s' : Search} {r i : ℤ} (h : Search.Reads { s with reads := i :: s.reads } l r s') (hl : l ≤ i)
    (hr : i ≤ r) : s.Reads l r s' := by
  obtain ⟨reads, rfl, hreads⟩ := h
  refine ⟨reads, rfl, fun j hj => ?_⟩
  rcases hreads j hj with hj | hj
  · rcases List.mem_cons.mp hj with rfl | hj
    · exact .inr ⟨hl, hr⟩
    · exact .inl hj
  · exact .inr hj

theorem Search.Reads.mono {s' : Search} {r r' : ℤ} (h : s.Reads l r s') (hr : r ≤ r') : s.Reads l r' s' := by
  obtain ⟨reads, rfl, hreads⟩ := h
  exact ⟨reads, rfl, fun i hi => (hreads i hi).imp_right fun hi => ⟨hi.1, hi.2.trans hr⟩⟩

theorem readStab_run (i : ℤ) : (readStab stabs i).run s = .ok (stabs i) { s with reads := i :: s.reads } := rfl

/-- The loop stops at the last entry of the type, or before `l`. -/
theorem backUp_run (stabs : ℤ → Stab) (type : ℤ) {fuel : ℕ} (hlow : s.l ≤ m + 1) (hfuel : m + 1 - s.l < fuel) :
    ∃ m' s', (backUp stabs type fuel m).run s = .ok m' s' ∧ s.Reads s.l m s' ∧
      ((m' = s.l - 1 ∧ ∀ i, s.l ≤ i → i ≤ m → ¬ (stabs i).Of type) ∨ LastOf stabs type s.l m m') := by
  induction fuel generalizing s m with
  | zero => omega
  | succ fuel ih =>
    rw [backUp, Prog.bind_of_ok (Prog.run_get s)]
    by_cases hle : s.l ≤ m
    · rw [if_pos hle, Prog.bind_of_ok (readStab_run m)]
      by_cases hof : (stabs m).Of type
      · rw [if_pos hof]
        refine ⟨m, _, rfl, (Search.Reads.refl _ _ _).cons hle le_rfl, .inr ⟨hle, le_rfl, hof, fun i hlt hi => ?_⟩⟩
        omega
      · rw [if_neg hof]
        obtain ⟨m', s', hrun, hreads, hpost⟩ := ih (s := { s with reads := m :: s.reads }) (m := m - 1)
          (by dsimp only; omega) (by dsimp only; omega)
        refine ⟨m', s', hrun, (hreads.mono (by omega)).cons hle le_rfl, ?_⟩
        rcases hpost with ⟨hm', hnone⟩ | hlast
        · refine .inl ⟨hm', fun i hi hi' => ?_⟩
          rcases eq_or_lt_of_le hi' with rfl | hlt
          · exact hof
          · exact hnone i hi (by omega)
        · have hle' := hlast.le'
          refine .inr ⟨hlast.le, by omega, hlast.of, fun i hlt hi => ?_⟩
          rcases eq_or_lt_of_le hi with rfl | hi
          · exact hof
          · exact hlast.none i hlt (by omega)
    · rw [if_neg hle]
      exact ⟨m, s, rfl, .refl .., .inl ⟨by omega, fun i hi hi' => by omega⟩⟩

theorem Search.trueM_bounds (h0 : 0 ≤ s.l) (h : s.l ≤ s.r) : s.l ≤ s.trueM ∧ s.trueM ≤ s.r := by
  have hdiv : s.trueM = (s.l + s.r) / 2 := Int.tdiv_eq_ediv_of_nonneg (by omega)
  omega

/-- **A turn of the loop.** -/
theorem searchTurn_run (stabs : ℤ → Stab) (type : ℤ) (h0 : 0 ≤ s.l) (h : s.l ≤ s.r) :
    ∃ s' reads, (searchTurn stabs type).run s = .ok () s' ∧ Turn stabs type s reads s' ∧
      ∀ i ∈ reads, i ∈ s.reads ∨ (s.l ≤ i ∧ i ≤ s.r) := by
  obtain ⟨hl, hr⟩ := s.trueM_bounds h0 h
  have hfuel : s.trueM + 1 - s.l < (s.trueM + 2 - s.l).toNat := by omega
  obtain ⟨m, s₁, hrun, ⟨reads, rfl, hreads⟩, hpost⟩ := backUp_run stabs type (by omega) hfuel
  have hin : ∀ i ∈ reads, i ∈ s.reads ∨ (s.l ≤ i ∧ i ≤ s.r) := fun i hi =>
    (hreads i hi).imp_right fun hi => ⟨hi.1, hi.2.trans hr⟩
  rw [searchTurn, Prog.bind_of_ok (Prog.run_get s), Prog.bind_of_ok hrun]
  rcases hpost with ⟨hm, hnone⟩ | hlast
  · rw [if_pos (by omega)]
    exact ⟨_, reads, rfl, .skip hnone, hin⟩
  · have hle := hlast.le
    have hle' := hlast.le'
    have hin' : ∀ i ∈ m :: reads, i ∈ s.reads ∨ (s.l ≤ i ∧ i ≤ s.r) := fun i hi => by
      rcases List.mem_cons.mp hi with rfl | hi
      · exact .inr ⟨hle, hle'.trans hr⟩
      · exact hin i hi
    rw [if_neg (by omega), Prog.bind_of_ok (readStab_run m), Prog.bind_of_ok (Prog.run_modify ..)]
    by_cases hlt : (stabs m).nValue < s.addr
    · rw [if_pos hlt]
      exact ⟨_, m :: reads, rfl, .less hlast hlt, hin'⟩
    · rw [if_neg hlt]
      by_cases hgt : s.addr < (stabs m).nValue
      · rw [if_pos hgt]
        exact ⟨_, m :: reads, rfl, .greater hlast hgt, hin'⟩
      · rw [if_neg hgt]
        exact ⟨_, m :: reads, rfl, .exact hlast (BitVec.le_antisymm (BitVec.not_lt.mp hgt) (BitVec.not_lt.mp hlt)), hin'⟩

/-! ### The loop -/

/-- What every turn keeps. -/
structure Within (left right : ℤ) (s : Search) : Prop where
  le_l : left ≤ s.l
  r_le : s.r ≤ right
  regionLeft : left ≤ s.regionLeft
  regionRight : s.regionRight = s.r
  reads : ∀ i ∈ s.reads, left ≤ i ∧ i ≤ right

theorem Within.turn {left right : ℤ} {s' : Search} {reads : List ℤ} (h : Within left right s) (h0 : 0 ≤ left) (hle : s.l ≤ s.r)
    (hreads : ∀ i ∈ reads, i ∈ s.reads ∨ (s.l ≤ i ∧ i ≤ s.r)) (hturn : Turn stabs type s reads s') : Within left right s' := by
  have hl := h.le_l
  have hr := h.r_le
  obtain ⟨hm, hm'⟩ := s.trueM_bounds (h0.trans hl) hle
  have hin : ∀ i ∈ reads, left ≤ i ∧ i ≤ right := fun i hi => by
    rcases hreads i hi with hi | hi
    · exact h.reads i hi
    · omega
  cases hturn with
  | skip => exact ⟨by dsimp only; omega, hr, h.regionLeft, h.regionRight, hin⟩
  | less hlast =>
    have hle := hlast.le
    exact ⟨by dsimp only; omega, hr, by dsimp only; omega, h.regionRight, hin⟩
  | greater hlast =>
    have hle := hlast.le'
    exact ⟨hl, by dsimp only; omega, h.regionLeft, rfl, hin⟩
  | exact hlast =>
    have hle := hlast.le
    exact ⟨by dsimp only; omega, hr, by dsimp only; omega, h.regionRight, hin⟩

/-- A bound on the turns that are left. -/
def Search.turns (stabs : ℤ → Stab) (type : ℤ) (s : Search) : ℕ :=
  2 * (s.r + 1 - s.l).toNat + if (stabs s.l).Of type ∧ (stabs s.l).nValue = s.addr then 1 else 0

theorem Search.turns_le (stabs : ℤ → Stab) (type : ℤ) (s : Search) : s.turns stabs type ≤ 2 * (s.r + 1 - s.l).toNat + 1 := by
  unfold Search.turns
  split_ifs <;> omega

theorem Turn.turns_lt {s' : Search} {reads : List ℤ} (h0 : 0 ≤ s.l) (hle : s.l ≤ s.r) (hturn : Turn stabs type s reads s') :
    s'.turns stabs type < s.turns stabs type := by
  have hle' := s'.turns_le stabs type
  obtain ⟨hm, hm'⟩ := s.trueM_bounds h0 hle
  have hsmall : ∀ n : ℕ, n + 1 ≤ (s.r + 1 - s.l).toNat → 2 * n + 1 < s.turns stabs type := fun n hn => by
    unfold Search.turns
    omega
  cases hturn with
  | skip => exact hle'.trans_lt (hsmall _ (by dsimp only; omega))
  | less => exact hle'.trans_lt (hsmall _ (by dsimp only; omega))
  | greater hlast =>
    have := hlast.le
    have := hlast.le'
    exact hle'.trans_lt (hsmall _ (by dsimp only; omega))
  | @exact m hlast heq =>
    have hlm := hlast.le
    have hmt := hlast.le'
    rcases eq_or_lt_of_le hlm with heq' | hlt
    · -- The entry at `l` was the one with the address, and is below it now.
      obtain rfl := heq'
      have hne : s.addr ≠ s.addr + 1 := by bv_omega
      have hold : s.turns stabs type = 2 * (s.r + 1 - s.l).toNat + 1 := by rw [Search.turns, if_pos ⟨hlast.of, heq⟩]
      rw [hold, Search.turns, if_neg fun h => hne (heq.symm.trans h.2)]
      exact Nat.lt_succ_self _
    · exact hle'.trans_lt (hsmall _ (by dsimp only; omega))

/-- **The loop ends**, and what every turn keeps holds then. -/
theorem searchLoop_run {I : Search → Prop} {left right : ℤ} {fuel : ℕ} (h0 : 0 ≤ left)
    (hI : ∀ {s s' : Search} {reads : List ℤ}, Within left right s → I s → s.l ≤ s.r → Turn stabs type s reads s' → I s')
    (hwithin : Within left right s) (hs : I s) (hfuel : s.turns stabs type < fuel) :
    ∃ s', (searchLoop stabs type fuel).run s = .ok () s' ∧ Within left right s' ∧ I s' ∧ s'.r < s'.l := by
  induction fuel generalizing s with
  | zero => cases hfuel
  | succ fuel ih =>
    rw [searchLoop, Prog.bind_of_ok (Prog.run_get s)]
    by_cases hle : s.l ≤ s.r
    · have hl := h0.trans hwithin.le_l
      obtain ⟨s₁, reads, hrun, hturn, hreads⟩ := searchTurn_run stabs type hl hle
      rw [if_pos hle, Prog.bind_of_ok hrun]
      exact ih (hwithin.turn h0 hle hreads hturn) (hI hwithin hs hle hturn)
        (lt_of_lt_of_le (hturn.turns_lt hl hle) (Nat.lt_succ_iff.mp hfuel))
    · rw [if_neg hle]
      exact ⟨s, rfl, hwithin, hs, not_le.mp hle⟩

/-- The loop for the rightmost region stops at the last entry of the type, or at the left bound. -/
theorem lastOf_run (stabs : ℤ → Stab) (type : ℤ) {fuel : ℕ} {r : ℤ} (hfuel : r - s.regionLeft < fuel) (hpos : 0 < fuel) :
    ∃ l s', (lastOf stabs type fuel r).run s = .ok l s' ∧ s.Reads (s.regionLeft + 1) r s' ∧ l ≤ r ∧
      (r ≤ s.regionLeft → l = r) ∧ (s.regionLeft ≤ r → s.regionLeft ≤ l) ∧ (s.regionLeft < l → (stabs l).Of type) ∧
      ∀ i, l < i → i ≤ r → ¬ (stabs i).Of type := by
  induction fuel generalizing s r with
  | zero => cases hpos
  | succ fuel ih =>
    rw [lastOf, Prog.bind_of_ok (Prog.run_get s)]
    by_cases hlt : s.regionLeft < r
    · rw [if_pos hlt, Prog.bind_of_ok (readStab_run r)]
      by_cases hof : (stabs r).Of type
      · rw [if_pos hof]
        refine ⟨r, _, rfl, (Search.Reads.refl _ _ _).cons hlt le_rfl, le_rfl, fun _ => rfl, fun h => h, fun _ => hof,
          fun i hi hi' => ?_⟩
        omega
      · rw [if_neg hof]
        obtain ⟨l, s', hrun, hreads, hle, -, hge, hlast, hnone⟩ := ih (s := { s with reads := r :: s.reads }) (r := r - 1)
          (by dsimp only; omega) (by omega)
        dsimp only at hge hlast
        refine ⟨l, s', hrun, (hreads.mono (by omega)).cons hlt le_rfl, by omega, fun h => by omega, fun _ => hge (by omega), hlast,
          fun i hi hi' => ?_⟩
        rcases eq_or_lt_of_le hi' with rfl | hi'
        · exact hof
        · exact hnone i hi (by omega)
    · rw [if_neg hlt]
      exact ⟨r, s, rfl, .refl .., le_rfl, fun _ => rfl, fun h => h, fun h => absurd h hlt, fun i hi hi' => by omega⟩

end search

end Ucore.Debug
