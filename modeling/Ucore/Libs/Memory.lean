import Ucore.Lib.BlockMove

/-!
# Copies of memory

`memmove` and `memcpy` of `libs/string.c` and `libs/x86.h`.

* `memmoveC` is the C text, and `memmoveArch` the string instructions that are used instead, with `memcpyArch` for its first case.
* `memmove_exact`: both give the bytes that were at the source, however the two places overlap.
-/

namespace Ucore.Libs

open Ucore.Lib

variable {α : Type}

/-- The loops in C. Source: `libs/string.c` `memmove` -/
def memmoveC (dst src n : ℕ) (m : ℕ → α) : ℕ → α :=
  if src < dst ∧ src + n > dst then copyDown src dst n m else copyUp src dst n m

/-- `rep movsl` for the words and `rep movsb` for the bytes that are left. Source: `libs/x86.h` `__memcpy` -/
def memcpyArch (dst src n : ℕ) (m : ℕ → α) : ℕ → α :=
  let m' := copyWords 4 src dst (n / 4) m
  if n % 4 = 0 then m' else copyUp (src + n / 4 * 4) (dst + n / 4 * 4) (n % 4) m'

/-- Behind `std`, `rep movsb` goes down. Source: `libs/x86.h` `__memmove` -/
def memmoveArch (dst src n : ℕ) (m : ℕ → α) : ℕ → α :=
  if dst < src then memcpyArch dst src n m else copyDown src dst n m

/-- Source: `libs/string.c` `memmove` -/
def memmove (dst src n : ℕ) (m : ℕ → α) : ℕ → α := memmoveArch dst src n m

variable {m : ℕ → α} {dst src n : ℕ}

theorem memcpyArch_eq (h : dst ≤ src ∨ src + n ≤ dst) : memcpyArch dst src n m = moved m src dst n := by
  have hn : n / 4 * 4 + n % 4 = n := Nat.div_add_mod' n 4
  unfold memcpyArch
  rw [copyWords_eq (by omega)]
  split_ifs with hrest
  · rw [hrest, Nat.add_zero] at hn
    rw [hn]
  · rw [copyUp_eq (by omega), moved_moved (by omega), hn]

theorem memmoveArch_eq : memmoveArch dst src n m = moved m src dst n := by
  unfold memmoveArch
  split_ifs with hup
  · exact memcpyArch_eq (Or.inl (Nat.le_of_lt hup))
  · exact copyDown_eq (Or.inl (Nat.le_of_not_lt hup))

theorem memmoveC_eq : memmoveC dst src n m = moved m src dst n := by
  unfold memmoveC
  split_ifs with hdown
  · exact copyDown_eq (Or.inl (Nat.le_of_lt hdown.1))
  · exact copyUp_eq (by omega)

theorem memmove_eq : memmove dst src n m = moved m src dst n := memmoveArch_eq

/-- **`memmove` is exact.** Whether or not the places overlap, and in which way, the C text and the instructions leave at the
destination what was at the source, and change nothing else. -/
theorem memmove_exact (dst src n : ℕ) (m : ℕ → UInt8) : memmoveC dst src n m = memmoveArch dst src n m ∧
    (∀ i < n, memmoveArch dst src n m (dst + i) = m (src + i)) ∧ ∀ i, i < dst ∨ dst + n ≤ i → memmoveArch dst src n m i = m i := by
  refine ⟨memmoveC_eq.trans memmoveArch_eq.symm, fun i hi => ?_, fun i hi => ?_⟩
  · rw [memmoveArch_eq, moved_of_mem (Nat.le_add_right dst i) (Nat.add_lt_add_left hi dst), Nat.add_sub_cancel_left]
  · rw [memmoveArch_eq, moved_of_not_mem hi]

end Ucore.Libs
