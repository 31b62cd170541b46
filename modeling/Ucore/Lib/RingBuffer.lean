import Mathlib.Logic.Function.Basic
import Mathlib.Tactic.Common

/-!
# Ring buffers

An array of `n` places that is used in a circle, with two positions that only grow: `r` counts what has been taken out and `w`
what has been put in. `window buf n r w` is what is there.

* `window_push` and `window_pop` are the two operations.
* `window_push_full`: writing to the place of `w` when the buffer is full is writing to the place of `r`.
* `ring buf n r w` is the same for positions that start again at 0, as `wrap` lets them do. Then a full buffer is an empty one:
  `ring_push` and `ring_pop`.
-/

namespace Ucore.Lib

variable {α : Type} {buf : ℕ → α} {n r w : ℕ} {c : α}

/-- What has been put in and not taken out, the oldest first. -/
def window (buf : ℕ → α) (n r w : ℕ) : List α := (List.range' r (w - r)).map fun i => buf (i % n)

theorem length_window : (window buf n r w).length = w - r := by
  unfold window
  rw [List.length_map, List.length_range']

/-- Positions of one window have different places. -/
theorem mod_ne_of_window {i : ℕ} (hi : r ≤ i) (hiw : i < w) (hlt : w - r < n) : i % n ≠ w % n := by
  intro heq
  have hdvd : n ∣ w - i := Nat.dvd_of_mod_eq_zero (Nat.sub_mod_eq_zero_of_mod_eq heq.symm)
  have hle : n ≤ w - i := Nat.le_of_dvd (Nat.sub_pos_of_lt hiw) hdvd
  omega

theorem window_push (hrw : r ≤ w) (hlt : w - r < n) :
    window (Function.update buf (w % n) c) n r (w + 1) = window buf n r w ++ [c] := by
  unfold window
  rw [Nat.succ_sub hrw, List.range'_1_concat, List.map_append, Nat.add_sub_cancel' hrw]
  congr 1
  · refine List.map_congr_left fun i hi => ?_
    obtain ⟨hle, hiw⟩ := List.mem_range'_1.mp hi
    rw [Nat.add_sub_cancel' hrw] at hiw
    exact Function.update_of_ne (mod_ne_of_window hle hiw hlt) _ _
  · rw [List.map_singleton, Function.update_self]

theorem window_pop (hrw : r < w) : window buf n r w = buf (r % n) :: window buf n (r + 1) w := by
  unfold window
  have hlen : w - r = w - (r + 1) + 1 := by omega
  rw [hlen, List.range'_succ, List.map_cons]

/-- In a full buffer the next place is the oldest one. -/
theorem window_push_full (hn : 0 < n) (hfull : w = r + n) :
    window (Function.update buf (w % n) c) n r w = c :: (window buf n r w).tail := by
  have hrw : r < w := by omega
  have hplace : w % n = r % n := by rw [hfull, Nat.add_mod_right]
  rw [window_pop hrw, window_pop hrw, List.tail_cons, hplace, Function.update_self]
  congr 1
  unfold window
  refine List.map_congr_left fun i hi => ?_
  obtain ⟨hle, hiw⟩ := List.mem_range'_1.mp hi
  have hshort : i - r < n := by omega
  have hne : r % n ≠ i % n := mod_ne_of_window (Nat.le_refl r) (Nat.lt_of_succ_le hle) hshort
  exact Function.update_of_ne hne.symm _ _

/-! ### Positions that start again -/

/-- The next position. -/
def wrap (n i : ℕ) : ℕ := if i + 1 = n then 0 else i + 1

/-- What is between the positions `r` and `w`, both below `n`. -/
def ring (buf : ℕ → α) (n r w : ℕ) : List α := window buf n r (if r ≤ w then w else w + n)

theorem wrap_lt {i : ℕ} (h : i < n) : wrap n i < n := by
  unfold wrap
  split_ifs <;> omega

theorem wrap_mod {i : ℕ} (h : i < n) : (i + 1) % n = wrap n i := by
  unfold wrap
  split_ifs with hend
  · rw [hend, Nat.mod_self]
  · exact Nat.mod_eq_of_lt (by omega)

/-- A window may be moved once around. -/
theorem window_add : window buf n (r + n) (w + n) = window buf n r w := by
  unfold window
  rw [Nat.add_sub_add_right, Nat.add_comm r n, ← List.map_add_range', List.map_map]
  refine List.map_congr_left fun i _ => ?_
  show buf ((n + i) % n) = buf (i % n)
  rw [Nat.add_mod_left]

/-- Something is put in. If the buffer is then full, it counts as empty. -/
theorem ring_push (hr : r < n) (hw : w < n) : ring (Function.update buf w c) n r (wrap n w) =
    if (ring buf n r w).length + 1 = n then [] else ring buf n r w ++ [c] := by
  obtain ⟨v, hv⟩ : ∃ v, v = if r ≤ w then w else w + n := ⟨_, rfl⟩
  have hplace : v % n = w := by
    rw [hv]
    split_ifs
    · exact Nat.mod_eq_of_lt hw
    · rw [Nat.add_mod_right, Nat.mod_eq_of_lt hw]
  have hrv : r ≤ v ∧ v - r < n := by
    rw [hv]
    split_ifs <;> omega
  have hlen : (ring buf n r w).length = v - r := by rw [ring, length_window, hv]
  rw [hlen]
  split_ifs with hfull
  · have hback : wrap n w = r := by
      rw [← wrap_mod hw, ← hplace, Nat.mod_add_mod, show v + 1 = r + n by omega, Nat.add_mod_right, Nat.mod_eq_of_lt hr]
    rw [hback, ring, if_pos (Nat.le_refl r), window, Nat.sub_self]
    rfl
  · have hnext : (if r ≤ wrap n w then wrap n w else wrap n w + n) = v + 1 := by
      rw [hv] at hfull ⊢
      unfold wrap
      split_ifs at hfull ⊢ <;> omega
    rw [ring, ring, hnext, ← hv, ← hplace]
    exact window_push hrv.1 hrv.2

/-- The oldest is taken out. -/
theorem ring_pop (hr : r < n) (hw : w < n) (hne : r ≠ w) : ring buf n r w = buf r :: ring buf n (wrap n r) w := by
  unfold ring
  have hrv : r < if r ≤ w then w else w + n := by split_ifs <;> omega
  rw [window_pop hrv, Nat.mod_eq_of_lt hr]
  congr 1
  by_cases hend : r + 1 = n
  · have hzero : wrap n r = 0 := if_pos hend
    have hround : window buf n (0 + n) (w + n) = window buf n 0 w := window_add
    rw [Nat.zero_add] at hround
    rw [hzero, if_neg (by omega), if_pos (Nat.zero_le w), hend, hround]
  · have hnext : wrap n r = r + 1 := if_neg hend
    rw [hnext]
    congr 1
    split_ifs <;> omega

theorem ring_self : ring buf n r r = [] := by
  rw [ring, if_pos (Nat.le_refl r), window, Nat.sub_self]
  rfl

end Ucore.Lib
