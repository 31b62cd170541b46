import Mathlib.Logic.Function.Basic
import Mathlib.Tactic.Common

/-!
# Moving blocks

Copies of `n` cells of a memory from `src` to `dst`, where the two places may overlap.

* `moved` is the result as it should be: the cells at `dst` are those that were at `src`, and all others are as before.
* `copyUp`, `copyDown` and `copyWords` are loops that read and write the same memory. `copyUp_eq`, `copyDown_eq` and `copyWords_eq`:
  each gives `moved`, when no cell is overwritten before it is read.
* `moved_moved`: one part after the other, which all three proofs use.
-/

namespace Ucore.Lib

variable {α : Type} {m : ℕ → α} {src dst n k w : ℕ}

/-- The memory with the `n` cells from `src` on at `dst`. -/
def moved (m : ℕ → α) (src dst n : ℕ) : ℕ → α := fun i => if dst ≤ i ∧ i < dst + n then m (src + (i - dst)) else m i

/-- Cell by cell, the lowest first. -/
def copyUp (src dst : ℕ) : ℕ → (ℕ → α) → ℕ → α
  | 0, m => m
  | n + 1, m => copyUp (src + 1) (dst + 1) n (Function.update m dst (m src))

/-- Cell by cell, the highest first. -/
def copyDown (src dst : ℕ) : ℕ → (ℕ → α) → ℕ → α
  | 0, m => m
  | n + 1, m => copyDown src dst n (Function.update m (dst + n) (m (src + n)))

/-- Word by word, the lowest first, where a word has `w` cells. -/
def copyWords (w src dst : ℕ) : ℕ → (ℕ → α) → ℕ → α
  | 0, m => m
  | n + 1, m => copyWords w (src + w) (dst + w) n (moved m src dst w)

theorem moved_of_mem {i : ℕ} (h : dst ≤ i) (h' : i < dst + n) : moved m src dst n i = m (src + (i - dst)) := if_pos ⟨h, h'⟩

theorem moved_of_not_mem {i : ℕ} (h : i < dst ∨ dst + n ≤ i) : moved m src dst n i = m i := if_neg (by omega)

@[simp] theorem moved_zero : moved m src dst 0 = m := funext fun _ => moved_of_not_mem (by omega)

theorem moved_one : moved m src dst 1 = Function.update m dst (m src) := by
  funext i
  rw [Function.update_apply]
  split_ifs with hi
  · rw [moved_of_mem (by omega) (by omega), hi, Nat.sub_self, Nat.add_zero]
  · exact moved_of_not_mem (by omega)

/-- What is moved first may not be where the rest is still to be read. -/
theorem moved_moved (h : dst ≤ src ∨ src + n + k ≤ dst) : moved (moved m src dst n) (src + n) (dst + n) k = moved m src dst (n + k) := by
  funext i
  by_cases hfirst : dst ≤ i ∧ i < dst + n
  · rw [moved_of_not_mem (by omega), moved_of_mem hfirst.1 hfirst.2, moved_of_mem (by omega) (by omega)]
  · by_cases hrest : dst + n ≤ i ∧ i < dst + n + k
    · have hplace : src + n + (i - (dst + n)) = src + (i - dst) := by omega
      rw [moved_of_mem hrest.1 hrest.2, hplace, moved_of_not_mem (by omega), moved_of_mem (by omega) (by omega)]
    · rw [moved_of_not_mem (by omega), moved_of_not_mem (by omega), moved_of_not_mem (by omega)]

theorem copyUp_eq (h : dst ≤ src ∨ src + n ≤ dst) : copyUp src dst n m = moved m src dst n := by
  induction n generalizing src dst m with
  | zero => exact moved_zero.symm
  | succ n ih =>
    rw [copyUp, ih (by omega), ← moved_one, moved_moved (by omega), Nat.add_comm 1 n]

theorem copyDown_eq (h : src ≤ dst ∨ dst + n ≤ src) : copyDown src dst n m = moved m src dst n := by
  induction n generalizing m with
  | zero => exact moved_zero.symm
  | succ n ih =>
    rw [copyDown, ih (by omega)]
    funext i
    by_cases hi : dst ≤ i ∧ i < dst + n
    · have hread : src + (i - dst) ≠ dst + n := by omega
      rw [moved_of_mem hi.1 hi.2, moved_of_mem hi.1 (by omega), Function.update_of_ne hread]
    · rw [moved_of_not_mem (by omega), Function.update_apply]
      split_ifs with htop
      · rw [moved_of_mem (by omega) (by omega), htop, Nat.add_sub_cancel_left]
      · rw [moved_of_not_mem (by omega)]

theorem copyWords_eq (h : dst ≤ src ∨ src + n * w ≤ dst) : copyWords w src dst n m = moved m src dst (n * w) := by
  induction n generalizing src dst m with
  | zero => rw [Nat.zero_mul, moved_zero, copyWords]
  | succ n ih =>
    rw [Nat.succ_mul] at h ⊢
    rw [copyWords, ih (by omega), moved_moved (by omega), Nat.add_comm w]

end Ucore.Lib
