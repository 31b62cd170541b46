import Mathlib.Data.List.Nodup
import Mathlib.Data.List.Perm.Basic
import Mathlib.Data.Int.Basic
import Mathlib.Logic.Function.Basic
import Mathlib.Tactic.Common

/-!
# Shared objects with a count

Users hold at most one object each, and every object counts its users. The user that brings the count back to zero
drops the object.

* `Refs` is what the users hold and what the objects say. `clear`, `join`, `create`, `make` and `leave` are the
  operations, and `Gets` is what a new user can get from another one.
* `Refs.users r ps o` is the number of users among `ps` that hold `o`.
* `Counted` is the invariant: counts are numbers of users, and an object without users has been dropped once. Every
  operation keeps it.
* `Counted.drops_leave` says when `leave` drops an object.
-/

namespace Ucore.Lib

/-- Users, objects, and the number of times that each object has been dropped. -/
@[ext]
structure Refs (P O : Type) where
  /-- What each user holds. -/
  holds : P → Option O
  count : O → ℤ
  /-- The objects that there have been. -/
  made : O → Prop
  drops : O → ℕ

namespace Refs

variable {P O : Type} [DecidableEq P] [DecidableEq O]

/-- The number of users of an object. -/
def users (r : Refs P O) (ps : List P) (o : O) : ℕ := ps.countP fun p => r.holds p = some o

/-- A user holds nothing. -/
def clear (r : Refs P O) (p : P) : Refs P O := { r with holds := Function.update r.holds p none }

/-- A user gets an object that is there. -/
def join (r : Refs P O) (p : P) (o : O) : Refs P O :=
  { r with holds := Function.update r.holds p (some o), count := Function.update r.count o (r.count o + 1) }

/-- There is a new object. -/
def create (r : Refs P O) (o : O) : Refs P O :=
  { r with count := Function.update r.count o 0, made := fun o' => o' = o ∨ r.made o' }

/-- A user gets a new object. -/
def make (r : Refs P O) (p : P) (o : O) : Refs P O :=
  { holds := Function.update r.holds p (some o)
    count := Function.update r.count o 1
    made := fun o' => o' = o ∨ r.made o'
    drops := r.drops }

/-- A user gives back what it holds. -/
def leave (r : Refs P O) (p : P) : Refs P O :=
  match r.holds p with
  | none => r
  | some o =>
    { r with
      holds := Function.update r.holds p none
      count := Function.update r.count o (r.count o - 1)
      drops := if r.count o - 1 = 0 then Function.update r.drops o (r.drops o + 1) else r.drops }

/-- The counts are right. -/
structure Counted (r : Refs P O) (ps : List P) : Prop where
  nodup : ps.Nodup
  made : ∀ p ∈ ps, ∀ o, r.holds p = some o → r.made o
  count : ∀ o, r.made o → r.count o = r.users ps o
  drops : ∀ o, r.made o → r.drops o = if r.users ps o = 0 then 1 else 0
  fresh : ∀ o, ¬ r.made o → r.drops o = 0

variable {r r' : Refs P O} {ps : List P} {p c : P} {o o' : O}

/-! ### The users of an object -/

omit [DecidableEq P] in
theorem users_cons : r.users (p :: ps) o = r.users ps o + if r.holds p = some o then 1 else 0 := by
  unfold users
  rw [List.countP_cons]
  by_cases hp : r.holds p = some o
  · rw [if_pos hp, if_pos (decide_eq_true hp)]
  · rw [if_neg hp, if_neg fun h => hp (of_decide_eq_true h)]

/-- The users among which one is. -/
theorem users_erase (hp : p ∈ ps) :
    r.users ps o = r.users (ps.erase p) o + if r.holds p = some o then 1 else 0 := by
  rw [← users_cons]
  exact (List.perm_cons_erase hp).countP_eq _

omit [DecidableEq P] in
theorem users_congr (h : ∀ q ∈ ps, r'.holds q = r.holds q) : r'.users ps o = r.users ps o := by
  refine List.countP_congr fun q hq => ?_
  rw [h q hq]

theorem users_pos (hp : p ∈ ps) (hold : r.holds p = some o) : 0 < r.users ps o := by
  rw [users_erase hp, if_pos hold]
  exact Nat.succ_pos _

/-- One user holds something else. -/
theorem users_update (hnodup : ps.Nodup) (hp : p ∈ ps) (h : ∀ q, q ≠ p → r'.holds q = r.holds q) :
    r'.users ps o + (if r.holds p = some o then 1 else 0) = r.users ps o + if r'.holds p = some o then 1 else 0 := by
  have herase : r'.users (ps.erase p) o = r.users (ps.erase p) o :=
    users_congr fun q hq => h q fun heq => hnodup.not_mem_erase (heq ▸ hq)
  rw [users_erase (r := r') hp, users_erase (r := r) hp, herase]
  exact Nat.add_right_comm _ _ _

omit [DecidableEq P] in
theorem Counted.users_eq_zero (h : r.Counted ps) (ho : ¬ r.made o) : r.users ps o = 0 := by
  unfold users
  rw [List.countP_eq_zero]
  exact fun q hq hold => ho (h.made q hq o (of_decide_eq_true hold))

/-- One user more. -/
theorem users_hold (hnodup : ps.Nodup) (hp : p ∈ ps) (hnone : r.holds p = none)
    (h : r'.holds = Function.update r.holds p (some o)) (o' : O) :
    r'.users ps o' = r.users ps o' + if o' = o then 1 else 0 := by
  have hupdate : r'.users ps o' + (if r.holds p = some o' then 1 else 0) =
      r.users ps o' + if r'.holds p = some o' then 1 else 0 := by
    apply users_update hnodup hp
    intro q hq
    rw [h, Function.update_of_ne hq]
  rw [h, Function.update_self, hnone, if_neg (Option.some_ne_none o').symm, Nat.add_zero] at hupdate
  simp only [hupdate, Option.some.injEq, eq_comm]

/-! ### The operations -/

/-- A user that holds nothing is new. -/
theorem Counted.clear (h : r.Counted ps) (hp : p ∉ ps) : (r.clear p).Counted (p :: ps) := by
  have hself : (r.clear p).holds p = none := Function.update_self _ _ _
  have hother : ∀ q, q ≠ p → (r.clear p).holds q = r.holds q := fun q hq => Function.update_of_ne hq _ _
  have husers : ∀ o, (r.clear p).users (p :: ps) o = r.users ps o := by
    intro o
    rw [users_cons, hself, if_neg (Option.some_ne_none o).symm]
    exact users_congr fun q hq => hother q (ne_of_mem_of_not_mem hq hp)
  refine ⟨List.nodup_cons.mpr ⟨hp, h.nodup⟩, fun q hq o hold => ?_, fun o ho => ?_, fun o ho => ?_, h.fresh⟩
  · rcases List.mem_cons.mp hq with rfl | hq
    · rw [hself] at hold
      cases hold
    · rw [hother q (ne_of_mem_of_not_mem hq hp)] at hold
      exact h.made q hq o hold
  · rw [husers]
    exact h.count o ho
  · rw [husers]
    exact h.drops o ho

theorem Counted.join (h : r.Counted ps) (hp : p ∈ ps) (hnone : r.holds p = none) (hc : c ∈ ps)
    (hold : r.holds c = some o) : (r.join p o).Counted ps := by
  have hself : (r.join p o).holds p = some o := Function.update_self _ _ _
  have hother : ∀ q, q ≠ p → (r.join p o).holds q = r.holds q := fun q hq => Function.update_of_ne hq _ _
  have husers : ∀ o', (r.join p o).users ps o' = r.users ps o' + if o' = o then 1 else 0 :=
    users_hold h.nodup hp hnone rfl
  have hmade := h.made c hc o hold
  refine ⟨h.nodup, fun q hq o' hold' => ?_, fun o' ho' => ?_, fun o' ho' => ?_, h.fresh⟩
  · by_cases hqp : q = p
    · rw [hqp, hself] at hold'
      rw [← Option.some.inj hold']
      exact hmade
    · rw [hother q hqp] at hold'
      exact h.made q hq o' hold'
  · rw [husers]
    show Function.update r.count o (r.count o + 1) o' = _
    by_cases heq : o' = o
    · rw [heq, Function.update_self, h.count o hmade, if_pos rfl]
      rfl
    · rw [Function.update_of_ne heq, h.count o' ho', if_neg heq, Nat.add_zero]
  · rw [husers]
    show r.drops o' = _
    rw [h.drops o' ho']
    by_cases heq : o' = o
    · have hpos := users_pos hc hold
      rw [heq, if_pos rfl, if_neg (Nat.ne_of_gt hpos), if_neg (Nat.succ_ne_zero _)]
    · rw [if_neg heq, Nat.add_zero]

theorem Counted.make (h : r.Counted ps) (hp : p ∈ ps) (hnone : r.holds p = none) (ho : ¬ r.made o) :
    (r.make p o).Counted ps := by
  have hself : (r.make p o).holds p = some o := Function.update_self _ _ _
  have hother : ∀ q, q ≠ p → (r.make p o).holds q = r.holds q := fun q hq => Function.update_of_ne hq _ _
  have husers : ∀ o', (r.make p o).users ps o' = r.users ps o' + if o' = o then 1 else 0 :=
    users_hold h.nodup hp hnone rfl
  have hzero := h.users_eq_zero ho
  refine ⟨h.nodup, fun q hq o' hold' => ?_, fun o' ho' => ?_, fun o' ho' => ?_, fun o' ho' => ?_⟩
  · by_cases hqp : q = p
    · rw [hqp, hself] at hold'
      exact Or.inl (Option.some.inj hold').symm
    · rw [hother q hqp] at hold'
      exact Or.inr (h.made q hq o' hold')
  · rw [husers]
    show Function.update r.count o 1 o' = _
    by_cases heq : o' = o
    · rw [heq, Function.update_self, hzero, if_pos rfl]
      rfl
    · rw [Function.update_of_ne heq, h.count o' (ho'.resolve_left heq), if_neg heq, Nat.add_zero]
  · rw [husers]
    show r.drops o' = _
    by_cases heq : o' = o
    · rw [heq, h.fresh o ho, if_pos rfl, if_neg (Nat.succ_ne_zero _)]
    · rw [h.drops o' (ho'.resolve_left heq), if_neg heq, Nat.add_zero]
  · exact h.fresh o' fun hmade => ho' (Or.inr hmade)

/-- A new object is made, and the user gets it. -/
theorem join_create : (r.create o).join p o = r.make p o := by
  refine Refs.ext rfl ?_ rfl rfl
  show Function.update (Function.update r.count o 0) o (Function.update r.count o 0 o + 1) = Function.update r.count o 1
  rw [Function.update_idem, Function.update_self, Int.zero_add]

/-- What a new user gets from the user `c`: nothing, the same object, or an object of its own. -/
def Gets (r r' : Refs P O) (c p : P) : Prop :=
  (r.holds c = none ∧ r' = r) ∨ (∃ o, r.holds c = some o ∧ r' = r.join p o) ∨ ∃ o, ¬ r.made o ∧ r' = r.make p o

theorem Counted.gets (h : r.Counted ps) (hp : p ∈ ps) (hnone : r.holds p = none) (hc : c ∈ ps) (hgets : Gets r r' c p) :
    r'.Counted ps := by
  rcases hgets with ⟨-, rfl⟩ | ⟨o, hold, rfl⟩ | ⟨o, ho, rfl⟩
  · exact h
  · exact h.join hp hnone hc hold
  · exact h.make hp hnone ho

/-- Nobody drops an object by getting one. -/
theorem Gets.drops (h : Gets r r' c p) : r'.drops = r.drops := by
  rcases h with ⟨-, rfl⟩ | ⟨o, -, rfl⟩ | ⟨o, -, rfl⟩ <;> rfl

theorem leave_of_none (hnone : r.holds p = none) : r.leave p = r := by
  unfold leave
  rw [hnone]

theorem leave_of_some (hold : r.holds p = some o) : r.leave p =
    { r with
      holds := Function.update r.holds p none
      count := Function.update r.count o (r.count o - 1)
      drops := if r.count o - 1 = 0 then Function.update r.drops o (r.drops o + 1) else r.drops } := by
  unfold leave
  rw [hold]

theorem holds_leave (r : Refs P O) (p : P) : (r.leave p).holds = Function.update r.holds p none := by
  cases hold : r.holds p with
  | none => rw [leave_of_none hold, ← hold, Function.update_eq_self]
  | some o => rw [leave_of_some hold]

theorem made_leave (r : Refs P O) (p : P) : (r.leave p).made = r.made := by
  cases hold : r.holds p with
  | none => rw [leave_of_none hold]
  | some o => rw [leave_of_some hold]

/-- The other users stay. -/
theorem users_leave (h : r.Counted ps) (hp : p ∈ ps) :
    (r.leave p).users ps o + (if r.holds p = some o then 1 else 0) = r.users ps o := by
  have hupdate : (r.leave p).users ps o + (if r.holds p = some o then 1 else 0) =
      r.users ps o + if (r.leave p).holds p = some o then 1 else 0 := by
    apply users_update h.nodup hp
    intro q hq
    rw [holds_leave, Function.update_of_ne hq]
  rw [holds_leave, Function.update_self, if_neg (Option.some_ne_none o).symm] at hupdate
  exact hupdate

/-- **The last user drops the object**, and nobody else does. -/
theorem Counted.drops_leave (h : r.Counted ps) (hp : p ∈ ps) (o : O) :
    (r.leave p).drops o = r.drops o + if r.holds p = some o ∧ r.users ps o = 1 then 1 else 0 := by
  cases hold : r.holds p with
  | none => rw [leave_of_none hold, if_neg fun hand => Option.some_ne_none o hand.1.symm, Nat.add_zero]
  | some o₁ =>
    have hcount := h.count o₁ (h.made p hp o₁ hold)
    have hiff : r.count o₁ - 1 = 0 ↔ r.users ps o₁ = 1 := by
      rw [hcount]
      omega
    rw [leave_of_some hold]
    show (if _ then _ else _ : O → ℕ) o = _
    by_cases hlast : r.users ps o₁ = 1
    · rw [if_pos (hiff.mpr hlast)]
      by_cases heq : o = o₁
      · rw [heq, Function.update_self, if_pos ⟨rfl, hlast⟩]
      · rw [Function.update_of_ne heq, if_neg fun hand => heq (Option.some.inj hand.1).symm, Nat.add_zero]
    · rw [if_neg fun h => hlast (hiff.mp h)]
      refine (if_neg fun hand => hlast ?_).symm ▸ rfl
      rw [Option.some.inj hand.1]
      exact hand.2

theorem Counted.leave (h : r.Counted ps) (hp : p ∈ ps) : (r.leave p).Counted ps := by
  have husers : ∀ o, (r.leave p).users ps o + (if r.holds p = some o then 1 else 0) = r.users ps o :=
    fun o => users_leave h hp
  refine ⟨h.nodup, fun q hq o hold => ?_, fun o ho => ?_, fun o ho => ?_, fun o ho => ?_⟩
  · rw [made_leave]
    rw [holds_leave, Function.update_apply] at hold
    split_ifs at hold
    exact h.made q hq o hold
  · rw [made_leave] at ho
    have hu := husers o
    have hcount := h.count o ho
    cases hold : r.holds p with
    | none =>
      rw [hold, if_neg (Option.some_ne_none o).symm, Nat.add_zero] at hu
      rw [hu, leave_of_none hold, hcount]
    | some o₁ =>
      rw [leave_of_some hold]
      rw [leave_of_some hold, hold] at hu
      show Function.update r.count o₁ (r.count o₁ - 1) o = _
      by_cases heq : o = o₁
      · subst heq
        rw [if_pos rfl] at hu
        rw [Function.update_self, hcount, ← hu]
        push_cast
        exact Int.add_sub_cancel _ _
      · rw [if_neg fun hsome => heq (Option.some.inj hsome).symm, Nat.add_zero] at hu
        rw [Function.update_of_ne heq, hcount, hu]
  · rw [made_leave] at ho
    have hu := husers o
    rw [h.drops_leave hp, h.drops o ho]
    by_cases hold : r.holds p = some o
    · rw [if_pos hold] at hu
      by_cases hlast : r.users ps o = 1
      · rw [if_neg (by omega), if_pos ⟨hold, hlast⟩, if_pos (by omega)]
      · rw [if_neg (by omega), if_neg fun hand => hlast hand.2, if_neg (by omega)]
    · rw [if_neg hold, Nat.add_zero] at hu
      rw [hu, if_neg (c := r.holds p = some o ∧ _) fun hand => hold hand.1, Nat.add_zero]
  · rw [made_leave] at ho
    rw [h.drops_leave hp, h.fresh o ho, if_neg fun hand => ho (h.made p hp o hand.1)]

end Refs

end Ucore.Lib
