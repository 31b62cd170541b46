import Mathlib.Data.List.GetD
import Mathlib.Tactic.Common

/-!
# Lists read off a function

A store that is addressed by positions is a function; what a client sees of it is a list. This file
relates the two: `tabulate g off n` is the list of the values of `g` at `off, …, off + n - 1`.

* `tabulate_append`: adjacent pieces join.
* `drop_take_tabulate`: a part of the list is a piece of the function.
* `tabulate_overlay`: writing a list over the function at `off` is splicing it into the list.
* `tabulate_pad`: a function that is constant from `n` on pads the list.
-/

namespace Ucore.Lib

variable {α : Type} {g g' : ℕ → α} {off n m : ℕ}

/-- The values of `g` at the `n` positions from `off` on. -/
def tabulate (g : ℕ → α) (off n : ℕ) : List α := (List.range' off n).map g

@[simp] theorem length_tabulate : (tabulate g off n).length = n := by
  rw [tabulate, List.length_map, List.length_range']

@[simp] theorem tabulate_zero : tabulate g off 0 = [] := rfl

@[simp] theorem getElem_tabulate {i : ℕ} (h : i < (tabulate g off n).length) :
    (tabulate g off n)[i] = g (off + i) := by
  simp [tabulate]

/-- Adjacent pieces join. -/
theorem tabulate_append : tabulate g off n ++ tabulate g (off + n) m = tabulate g off (n + m) := by
  rw [tabulate, tabulate, tabulate, ← List.map_append, List.range'_append_1]

/-- A part of a list that was read off. -/
theorem drop_take_tabulate (len : ℕ) :
    ((tabulate g 0 n).drop off).take len = tabulate g off (min len (n - off)) := by
  apply List.ext_getElem
  · simp
  · intro i h₁ h₂
    simp

/-! ### Writing -/

/-- A list with `data` written over it at `off`. -/
def splice (l : List α) (off : ℕ) (data : List α) : List α :=
  l.take off ++ data ++ l.drop (off + data.length)

theorem length_splice {l data : List α} (h : off ≤ l.length) :
    (splice l off data).length = max l.length (off + data.length) := by
  simp only [splice, List.length_append, List.length_take, List.length_drop]
  omega

/-- A function with `data` written over it at `off`. -/
def overlay (g : ℕ → α) (off : ℕ) (data : List α) : ℕ → α := fun k =>
  if h : off ≤ k ∧ k < off + data.length then data.get ⟨k - off, by omega⟩ else g k

theorem overlay_of_mem {data : List α} {k : ℕ} (h : off ≤ k) (h' : k - off < data.length) :
    overlay g off data k = data[k - off] := by
  rw [overlay, dif_pos ⟨h, by omega⟩, List.get_eq_getElem]

theorem overlay_of_not_mem {data : List α} {k : ℕ} (h : ¬ (off ≤ k ∧ k < off + data.length)) :
    overlay g off data k = g k := dif_neg h

/-- Two writes one after the other are one write. -/
theorem overlay_append (data data' : List α) :
    overlay (overlay g off data) (off + data.length) data' = overlay g off (data ++ data') := by
  funext k
  by_cases h₁ : off ≤ k ∧ k < off + data.length
  · have hk : k - off < data.length := by omega
    rw [overlay_of_not_mem (by omega), overlay_of_mem h₁.1 hk,
      overlay_of_mem h₁.1 (by rw [List.length_append]; omega), List.getElem_append_left]
  · by_cases h₂ : off + data.length ≤ k ∧ k < off + data.length + data'.length
    · have hk : k - (off + data.length) < data'.length := by omega
      rw [overlay_of_mem h₂.1 hk,
        overlay_of_mem (by omega) (by rw [List.length_append]; omega),
        List.getElem_append_right (by omega)]
      congr 1
      omega
    · rw [overlay_of_not_mem h₂, overlay_of_not_mem h₁,
        overlay_of_not_mem (by rw [List.length_append]; omega)]

@[simp] theorem overlay_nil : overlay g off [] = g := by
  funext k
  exact overlay_of_not_mem (by simp)

/-- One more value is written. -/
theorem update_overlay (data : List α) (a : α) :
    Function.update (overlay g off data) (off + data.length) a = overlay g off (data ++ [a]) := by
  funext k
  rw [← overlay_append]
  by_cases hk : k = off + data.length
  · rw [hk, Function.update_self, overlay_of_mem (Nat.le_refl _) (by rw [Nat.sub_self]; exact Nat.one_pos)]
    simp
  · have hout : ¬ (off + data.length ≤ k ∧ k < off + data.length + [a].length) := by
      rw [List.length_singleton]
      omega
    rw [Function.update_of_ne hk, overlay_of_not_mem hout]

/-- The last value is taken back. -/
theorem update_overlay_last (data : List α) (a : α) :
    Function.update (overlay g off (data ++ [a])) (off + data.length) (g (off + data.length)) = overlay g off data := by
  funext k
  rw [← overlay_append]
  by_cases hk : k = off + data.length
  · rw [hk, Function.update_self, overlay_of_not_mem (by omega)]
  · rw [Function.update_of_ne hk, overlay_of_not_mem (by rw [List.length_singleton]; omega)]

/-- Writing over the function is splicing into the list. -/
theorem tabulate_overlay {data : List α} (h : off ≤ n) :
    tabulate (overlay g off data) 0 (max n (off + data.length)) =
      splice (tabulate g 0 n) off data := by
  apply List.ext_getElem
  · rw [length_tabulate, length_splice (by rwa [length_tabulate]), length_tabulate]
  · intro i h₁ h₂
    rw [getElem_tabulate, Nat.zero_add]
    rw [length_tabulate] at h₁
    simp only [splice]
    by_cases hi : i < off
    · rw [overlay_of_not_mem (by omega), List.getElem_append_left (by simp; omega),
        List.getElem_append_left (by simp; omega)]
      simp
    · by_cases hi' : i < off + data.length
      · have hk : i - off < data.length := by omega
        rw [overlay_of_mem (by omega) hk, List.getElem_append_left (by simp; omega),
          List.getElem_append_right (by simp; omega)]
        simp only [List.length_take, length_tabulate, Nat.min_eq_left h]
      · rw [overlay_of_not_mem (by omega), List.getElem_append_right (by simp; omega)]
        simp only [List.getElem_drop, getElem_tabulate, List.length_append, List.length_take,
          length_tabulate]
        congr 1
        omega

/-- A function that is constant from `n` on. -/
theorem tabulate_pad {d : α} (h : ∀ k, n ≤ k → g k = d) (hle : n ≤ m) :
    tabulate g 0 m = tabulate g 0 n ++ List.replicate (m - n) d := by
  obtain ⟨j, rfl⟩ := Nat.exists_eq_add_of_le hle
  rw [← tabulate_append, Nat.zero_add, Nat.add_sub_cancel_left]
  congr 1
  apply List.ext_getElem
  · simp
  · intro i h₁ h₂
    rw [getElem_tabulate, List.getElem_replicate]
    exact h _ (Nat.le_add_right n i)

end Ucore.Lib
