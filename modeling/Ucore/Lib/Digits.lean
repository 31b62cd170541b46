import Mathlib.Data.Nat.Digits.Lemmas

/-!
# Numerals

`numeral b n` are the digits of `n` in base `b`, as they are written: the most significant one first, and `[0]` for zero.

* `numeral_of_le` is the recursion that prints it.
* `foldl_numeral`: reading the digits one after the other gives the number back, also where the arithmetic is that of a ring in which
  it wraps around.
-/

namespace Ucore.Lib

/-- The digits of `n` in base `b`. -/
def numeral (b n : ℕ) : List ℕ := if n = 0 then [0] else (b.digits n).reverse

variable {b n : ℕ}

theorem numeral_of_lt (h : n < b) : numeral b n = [n] := by
  by_cases hn : n = 0
  · rw [numeral, if_pos hn, hn]
  · rw [numeral, if_neg hn, Nat.digits_of_lt b n hn h]
    rfl

theorem numeral_of_le (hb : 2 ≤ b) (h : b ≤ n) : numeral b n = numeral b (n / b) ++ [n % b] := by
  have hn : n ≠ 0 := by omega
  have hdiv : n / b ≠ 0 := (Nat.div_pos h (by omega)).ne'
  rw [numeral, if_neg hn, numeral, if_neg hdiv, Nat.digits_def' hb (Nat.pos_of_ne_zero hn), List.reverse_cons]

theorem numeral_ne_nil (b n : ℕ) : numeral b n ≠ [] := by
  rw [numeral]
  split_ifs with hn
  · exact List.cons_ne_nil _ _
  · rw [Ne, List.reverse_eq_nil_iff, Nat.digits_eq_nil_iff_eq_zero]
    exact hn

theorem lt_of_mem_numeral (hb : 2 ≤ b) {d : ℕ} (h : d ∈ numeral b n) : d < b := by
  rw [numeral] at h
  split_ifs at h with hn
  · rw [List.mem_singleton.mp h]
    omega
  · exact Nat.digits_lt_base hb (List.mem_reverse.mp h)

/-- Only zero is written with a leading zero. -/
theorem eq_zero_of_numeral {l : List ℕ} (h : numeral b n = 0 :: l) : n = 0 := by
  by_contra hn
  have hne : b.digits n ≠ [] := fun hnil => hn (Nat.digits_eq_nil_iff_eq_zero.mp hnil)
  rw [numeral, if_neg hn] at h
  have hhead : (b.digits n).reverse.head (fun hnil => hne (List.reverse_eq_nil_iff.mp hnil)) = 0 := by
    simp only [h, List.head_cons]
  rw [List.head_reverse] at hhead
  exact absurd hhead (Nat.getLast_digit_ne_zero b hn)

/-- A number below `b ^ k` has at most `k` digits. -/
theorem length_numeral_le (hb : 2 ≤ b) {k : ℕ} (hk : 0 < k) (h : n < b ^ k) : (numeral b n).length ≤ k := by
  rw [numeral]
  split_ifs with hn
  · exact hk
  · rw [List.length_reverse]
    exact (Nat.digits_length_le_iff hb n).mpr h

/-- Reading a numeral. -/
theorem foldl_numeral {R : Type} [Semiring R] (b n : ℕ) :
    (numeral b n).foldl (fun (v : R) (d : ℕ) => v * (b : R) + (d : R)) 0 = (n : R) := by
  rw [numeral]
  split_ifs with hn
  · simp [hn]
  · have hval : ((Nat.ofDigits b (b.digits n) : ℕ) : R) = (n : R) := congrArg Nat.cast (Nat.ofDigits_digits b n)
    rw [List.foldl_reverse, ← hval, Nat.coe_ofDigits, Nat.ofDigits_eq_foldr]
    congr 1
    funext d v
    rw [add_comm, Nat.cast_comm]

end Ucore.Lib
