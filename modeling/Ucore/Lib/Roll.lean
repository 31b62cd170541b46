import Ucore.Lib.Tabulate
import Mathlib.Algebra.Order.Group.Nat
import Mathlib.Logic.Function.Basic
import Mathlib.Tactic.Common

/-!
# Paper rolls

Text on a roll of paper that has no end, with rows of `w` cells, which is seen through a window of `h` rows.

* `Roll` has the cells, the place of the cursor and the start of the window. The window moves down when the cursor leaves it, and
  never up: `follow`.
* `put`, `back`, `newline` and `home` are what a character can do.
* `Roll.Ready`: the cursor is in the window, and the paper below the window is blank. Every operation keeps it.
* `Clear`: there is nothing behind the cursor. `Written base l` is the paper of `base` with the text `l` at the cursor; `put` makes the
  text longer and `back` makes it shorter.
-/

namespace Ucore.Lib

variable {α : Type}

structure Roll (α : Type) where
  cell : ℕ → α
  cursor : ℕ
  /-- The first cell of the window. -/
  top : ℕ

namespace Roll

/-- The window moves down by a row when the cursor has left it. -/
def follow (w h : ℕ) (r : Roll α) : Roll α := if r.top + w * h ≤ r.cursor then { r with top := r.top + w } else r

/-- A character is written. -/
def put (w h : ℕ) (a : α) (r : Roll α) : Roll α :=
  follow w h { r with cell := Function.update r.cell r.cursor a, cursor := r.cursor + 1 }

/-- The character before the cursor is erased, if it is in the window. -/
def back (a : α) (r : Roll α) : Roll α :=
  if r.top < r.cursor then { r with cell := Function.update r.cell (r.cursor - 1) a, cursor := r.cursor - 1 } else r

/-- To the start of the next row. -/
def newline (w h : ℕ) (r : Roll α) : Roll α := follow w h { r with cursor := (r.cursor / w + 1) * w }

/-- To the start of the row. -/
def home (w : ℕ) (r : Roll α) : Roll α := { r with cursor := r.cursor / w * w }

/-- The window starts with a row, the cursor is in it, and below it the paper is blank. -/
structure Ready (w h : ℕ) (blank : α) (r : Roll α) : Prop where
  row : w ∣ r.top
  le : r.top ≤ r.cursor
  lt : r.cursor < r.top + w * h
  below : ∀ k, r.top + w * h ≤ k → r.cell k = blank

/-- There is nothing at the cursor and behind it. -/
def Clear (blank : α) (r : Roll α) : Prop := ∀ k, r.cursor ≤ k → r.cell k = blank

variable {w h : ℕ} {blank a : α} {r : Roll α}

@[simp] theorem cell_follow : (follow w h r).cell = r.cell := by
  unfold follow
  split_ifs <;> rfl

@[simp] theorem cursor_follow : (follow w h r).cursor = r.cursor := by
  unfold follow
  split_ifs <;> rfl

/-- The cursor has moved by at most a row behind the window. -/
theorem Ready.follow (hrow : w ∣ r.top) (hle : r.top ≤ r.cursor) (hlt : r.cursor < r.top + w * h + w) (hh : 0 < h)
    (hbelow : ∀ k, r.top + w * h ≤ k → r.cell k = blank) : Ready w h blank (Roll.follow w h r) := by
  have hwh : w ≤ w * h := Nat.le_mul_of_pos_right w hh
  unfold Roll.follow
  split_ifs with hout
  · refine ⟨Nat.dvd_add hrow (Nat.dvd_refl w), ?_, ?_, fun k hk => hbelow k ?_⟩
    · show r.top + w ≤ r.cursor
      omega
    · show r.cursor < r.top + w + w * h
      omega
    · have hk : r.top + w + w * h ≤ k := hk
      omega
  · exact ⟨hrow, hle, Nat.lt_of_not_le hout, hbelow⟩

theorem Ready.put (hr : Ready w h blank r) (hw : 0 < w) (hh : 0 < h) (a : α) : Ready w h blank (r.put w h a) := by
  have hlt := hr.lt
  refine Ready.follow hr.row (Nat.le_succ_of_le hr.le) ?_ hh fun k hk => ?_
  · dsimp only
    omega
  · have hne : k ≠ r.cursor := Nat.ne_of_gt (Nat.lt_of_lt_of_le hlt hk)
    exact (Function.update_of_ne hne _ _).trans (hr.below k hk)

theorem Ready.back (hr : Ready w h blank r) (a : α) : Ready w h blank (r.back a) := by
  have hlt := hr.lt
  unfold Roll.back
  split_ifs with hin
  · refine ⟨hr.row, Nat.le_sub_one_of_lt hin, Nat.lt_of_le_of_lt (Nat.sub_le _ _) hlt, fun k hk => ?_⟩
    have hne : k ≠ r.cursor - 1 := by
      dsimp only at hk
      omega
    exact (Function.update_of_ne hne _ _).trans (hr.below k hk)
  · exact hr

theorem Ready.newline (hr : Ready w h blank r) (hw : 0 < w) (hh : 0 < h) : Ready w h blank (r.newline w h) := by
  have hlt := hr.lt
  have hnext : r.cursor / w * w + w = (r.cursor / w + 1) * w := (Nat.succ_mul _ _).symm
  have hrest : r.cursor / w * w + r.cursor % w = r.cursor := Nat.div_add_mod' _ _
  have hmod : r.cursor % w < w := Nat.mod_lt _ hw
  have hle := hr.le
  refine Ready.follow hr.row ?_ ?_ hh hr.below
  · dsimp only
    omega
  · dsimp only
    omega

theorem Ready.home (hr : Ready w h blank r) : Ready w h blank (r.home w) := by
  have hlow : r.cursor / w * w ≤ r.cursor := Nat.div_mul_le_self _ _
  refine ⟨hr.row, ?_, Nat.lt_of_le_of_lt hlow hr.lt, hr.below⟩
  obtain ⟨n, hn⟩ := hr.row
  show r.top ≤ r.cursor / w * w
  rcases Nat.eq_zero_or_pos w with rfl | hw
  · rw [hn, Nat.zero_mul]
    exact Nat.zero_le _
  · have hle : n ≤ r.cursor / w := (Nat.le_div_iff_mul_le hw).mpr (by rw [Nat.mul_comm, ← hn]; exact hr.le)
    rw [hn, Nat.mul_comm]
    exact Nat.mul_le_mul_right w hle

/-! ### Nothing behind the cursor -/

theorem Clear.put (hr : r.Clear blank) (w h : ℕ) (a : α) : (r.put w h a).Clear blank := by
  intro k hk
  rw [Roll.put, cursor_follow] at hk
  rw [Roll.put, cell_follow]
  have hlt : r.cursor < k := hk
  exact (Function.update_of_ne (Nat.ne_of_gt hlt) _ _).trans (hr k (Nat.le_of_lt hlt))

theorem Clear.back (hr : r.Clear blank) : (r.back blank).Clear blank := by
  unfold Roll.back
  split_ifs with hin
  · intro k hk
    have hk : r.cursor - 1 ≤ k := hk
    dsimp only
    rw [Function.update_apply]
    split_ifs with heq
    · rfl
    · exact hr k (by omega)
  · exact hr

theorem Clear.newline (hr : r.Clear blank) (hw : 0 < w) (h : ℕ) : (r.newline w h).Clear blank := by
  intro k hk
  rw [Roll.newline, cursor_follow] at hk
  rw [Roll.newline, cell_follow]
  have hlt : r.cursor < (r.cursor / w + 1) * w := Nat.lt_mul_of_div_lt (Nat.lt_succ_self _) hw
  exact hr k (Nat.le_trans (Nat.le_of_lt hlt) hk)

/-! ### A text at the cursor -/

/-- The paper of `base`, with the text `l` at its cursor, which is still in the window. -/
structure Written (base : Roll α) (l : List α) (r : Roll α) : Prop where
  cell : r.cell = overlay base.cell base.cursor l
  cursor : r.cursor = base.cursor + l.length
  top : r.top ≤ base.cursor

variable {base : Roll α} {l : List α}

theorem Written.nil (hr : Ready w h blank r) : Written r [] r := ⟨overlay_nil.symm, rfl, hr.le⟩

theorem Written.put (ht : Written base l r) (hr : Ready w h blank r) (hfit : l.length + 1 + w ≤ w * h) (a : α) :
    Written base (l ++ [a]) (r.put w h a) := by
  have hcursor := ht.cursor
  have htop := ht.top
  have hlt := hr.lt
  refine ⟨?_, ?_, ?_⟩
  · rw [Roll.put, cell_follow]
    show Function.update r.cell r.cursor a = _
    rw [hcursor, ht.cell, update_overlay]
  · rw [Roll.put, cursor_follow, List.length_append, hcursor]
    rfl
  · rw [Roll.put, Roll.follow]
    split_ifs with hout
    · dsimp only at hout ⊢
      omega
    · exact htop

theorem Written.back (ht : Written base (l ++ [a]) r) (hclear : base.Clear blank) : Written base l (r.back blank) := by
  have hcursor := ht.cursor
  have htop := ht.top
  rw [List.length_append, List.length_singleton] at hcursor
  have hlast : r.cursor - 1 = base.cursor + l.length := by omega
  rw [Roll.back, if_pos (by omega), hlast]
  refine ⟨?_, rfl, htop⟩
  show Function.update r.cell (base.cursor + l.length) blank = _
  rw [ht.cell, ← hclear (base.cursor + l.length) (Nat.le_add_right _ _), update_overlay_last]

end Roll

end Ucore.Lib
