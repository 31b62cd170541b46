import Ucore.Lib.Roll
import Ucore.Libs.Memory
import Mathlib.Data.BitVec

/-!
# The screen

`cga_putc` of `kern/driver/console.c`, which writes a character into the memory of the screen.

* `Cga` is the memory of the screen, the position of the next character, and the registers of the cursor that blinks.
* `rollPutc` says what a character does on a roll of paper that has no end.
* `cgaPutc_shows`: the screen shows the window of the roll, through every character. `cga_shows_roll` is about whole texts, and says
  that nothing is written outside of the screen and that the cursor blinks at its place.
-/

namespace Ucore.Driver

open Ucore.Lib Ucore.Libs

/-- `CRT_ROWS` -/
def crtRows : ℕ := 25

/-- `CRT_COLS` -/
def crtCols : ℕ := 80

/-- `CRT_SIZE` -/
def crtSize : ℕ := crtRows * crtCols

/-- A character with its colours. -/
abbrev Cell := BitVec 16

/-- A space, grey on black. -/
def blankCell : Cell := 0x0720

/-- The variables of the screen, and the registers 14 and 15 of the 6845. -/
structure Cga where
  crtBuf : ℕ → Cell
  crtPos : ℕ
  cursorHigh : ℕ
  cursorLow : ℕ

/-- A character without colours is grey on black. -/
def coloured (c : BitVec 32) : BitVec 32 := if c &&& ~~~0xFF#32 = 0 then c ||| 0x0700#32 else c

/-- What `'\b'` leaves: a space with the colours of the `'\b'`. -/
def erased (c : BitVec 32) : Cell := ((c &&& ~~~0xFF#32) ||| 0x20#32).setWidth 16

/-- The character, at the position. -/
def cgaWrite (c : BitVec 32) (s : Cga) : Cga :=
  match (c &&& 0xFF#32).toNat with
  | 8 =>
    if s.crtPos > 0 then { s with crtBuf := Function.update s.crtBuf (s.crtPos - 1) (erased c), crtPos := s.crtPos - 1 }
    else s
  | 10 =>
    let pos := (s.crtPos + crtCols) % 2 ^ 16
    { s with crtPos := pos - pos % crtCols }
  | 13 => { s with crtPos := s.crtPos - s.crtPos % crtCols }
  | _ => { s with crtBuf := Function.update s.crtBuf s.crtPos (c.setWidth 16), crtPos := (s.crtPos + 1) % 2 ^ 16 }

/-- The loop that clears the last row. -/
def clearCells : ℕ → ℕ → (ℕ → Cell) → ℕ → Cell
  | _, 0, buf => buf
  | i, n + 1, buf => clearCells (i + 1) n (Function.update buf i blankCell)

/-- All rows move up when the position has left the screen. -/
def cgaScroll (s : Cga) : Cga :=
  if s.crtPos ≥ crtSize then
    { s with
      crtBuf := clearCells (crtSize - crtCols) crtCols (memmove 0 crtCols (crtSize - crtCols) s.crtBuf)
      crtPos := s.crtPos - crtCols }
  else s

/-- The registers are told where the cursor is. -/
def cgaMoveCursor (s : Cga) : Cga := { s with cursorHigh := s.crtPos / 2 ^ 8 % 2 ^ 8, cursorLow := s.crtPos % 2 ^ 8 }

/-- Source: `kern/driver/console.c` `cga_putc` -/
def cgaPutc (c : BitVec 32) (s : Cga) : Cga := cgaMoveCursor (cgaScroll (cgaWrite (coloured c) s))

/-! ### The roll of paper -/

/-- What a character does on the paper. -/
def rollPutc (c : BitVec 32) (r : Roll Cell) : Roll Cell :=
  match (c &&& 0xFF#32).toNat with
  | 8 => r.back (erased (coloured c))
  | 10 => r.newline crtCols crtRows
  | 13 => r.home crtCols
  | _ => r.put crtCols crtRows ((coloured c).setWidth 16)

/-- The screen shows the window of the roll. -/
structure Shows (s : Cga) (r : Roll Cell) : Prop where
  ready : r.Ready crtCols crtRows blankCell
  pos : r.cursor = r.top + s.crtPos
  cells : ∀ i < crtSize, s.crtBuf i = r.cell (r.top + i)

variable {s : Cga} {r : Roll Cell} {buf : ℕ → Cell} {c : BitVec 32} {i n k : ℕ}

theorem coloured_low (c : BitVec 32) : coloured c &&& 0xFF#32 = c &&& 0xFF#32 := by
  unfold coloured
  split_ifs with hc
  · have hzero : 0x0700#32 &&& 0xFF#32 = 0#32 := by decide
    rw [BitVec.and_or_distrib_right, hzero, BitVec.or_zero]
  · rfl

theorem clearCells_apply : clearCells i n buf k = if i ≤ k ∧ k < i + n then blankCell else buf k := by
  induction n generalizing i buf with
  | zero => exact (if_neg (by omega)).symm
  | succ n ih =>
    rw [clearCells, ih, Function.update_apply]
    split_ifs <;> first | rfl | omega

theorem Shows.lt (h : Shows s r) : s.crtPos < crtSize := by
  have hlt := h.ready.lt
  have hpos := h.pos
  rw [Nat.mul_comm] at hlt
  unfold crtSize
  omega

/-- The position has moved, by at most a row behind the screen. -/
theorem shows_scroll (hpos : r.cursor = r.top + s.crtPos) (hcells : ∀ i < crtSize, s.crtBuf i = r.cell (r.top + i))
    (hready : (r.follow crtCols crtRows).Ready crtCols crtRows blankCell) (hbelow : ∀ k, r.top + crtSize ≤ k → r.cell k = blankCell) :
    Shows (cgaScroll s) (r.follow crtCols crtRows) := by
  have hsize : crtCols * crtRows = crtSize := Nat.mul_comm _ _
  refine ⟨hready, ?_, fun i hi => ?_⟩
  · unfold cgaScroll Roll.follow
    rw [hsize]
    by_cases hout : s.crtPos ≥ crtSize
    · have hle : crtCols ≤ crtSize := by decide
      rw [if_pos hout, if_pos (by omega)]
      dsimp only
      omega
    · rw [if_neg hout, if_neg (by omega)]
      exact hpos
  · unfold cgaScroll Roll.follow
    rw [hsize]
    by_cases hout : s.crtPos ≥ crtSize
    · have hle : crtCols ≤ crtSize := by decide
      rw [if_pos hout, if_pos (by omega)]
      dsimp only
      rw [clearCells_apply, memmove_eq]
      split_ifs with hlast
      · exact (hbelow _ (by omega)).symm
      · rw [moved_of_mem (Nat.zero_le i) (by omega), hcells _ (by omega)]
        congr 1
        omega
    · rw [if_neg hout, if_neg (by omega)]
      exact hcells i hi

theorem cgaScroll_of_lt (h : s.crtPos < crtSize) : cgaScroll s = s := if_neg (Nat.not_le.mpr h)

/-- **One character.** -/
theorem cgaPutc_shows (h : Shows s r) (c : BitVec 32) : Shows (cgaPutc c s) (rollPutc c r) := by
  have hlt := h.lt
  have hsmall : crtSize + crtCols < 2 ^ 16 := by decide
  have hbelow : ∀ k, r.top + crtSize ≤ k → r.cell k = blankCell := h.ready.below
  have hpos := h.pos
  obtain ⟨n, hn⟩ := h.ready.row
  have hcols : 0 < crtCols := by decide
  have hmod : r.cursor % crtCols = s.crtPos % crtCols := by rw [hpos, hn, Nat.mul_add_mod]
  have hrest : r.cursor / crtCols * crtCols + r.cursor % crtCols = r.cursor := Nat.div_add_mod' _ _
  suffices hscroll : Shows (cgaScroll (cgaWrite (coloured c) s)) (rollPutc c r) from ⟨hscroll.ready, hscroll.pos, hscroll.cells⟩
  unfold cgaWrite rollPutc
  rw [coloured_low]
  split
  · -- a backspace
    have hready := h.ready.back (erased (coloured c))
    unfold Roll.back at hready ⊢
    by_cases hzero : s.crtPos > 0
    · rw [if_pos (by omega)] at hready
      rw [if_pos hzero, if_pos (by omega), cgaScroll_of_lt (by dsimp only; omega)]
      refine ⟨hready, by dsimp only; omega, fun i hi => ?_⟩
      dsimp only
      rw [Function.update_apply, Function.update_apply, h.cells i hi]
      exact if_congr (by omega) rfl rfl
    · rw [if_neg hzero, if_neg (by omega), cgaScroll_of_lt hlt]
      exact h
  · -- a new line
    refine shows_scroll ?_ h.cells (h.ready.newline hcols (by decide)) hbelow
    have hadd : (s.crtPos + crtCols) % crtCols = s.crtPos % crtCols := Nat.add_mod_right _ _
    have hle := Nat.mod_le s.crtPos crtCols
    dsimp only
    rw [Nat.mod_eq_of_lt (by omega), hadd, Nat.succ_mul]
    omega
  · -- the start of the row
    have hle := Nat.mod_le s.crtPos crtCols
    rw [cgaScroll_of_lt (by dsimp only; omega)]
    refine ⟨h.ready.home, ?_, h.cells⟩
    show r.cursor / crtCols * crtCols = r.top + (s.crtPos - s.crtPos % crtCols)
    omega
  · -- any other character
    refine shows_scroll ?_ (fun i hi => ?_) (h.ready.put hcols (by decide) _) fun k hk => ?_
    · dsimp only
      rw [Nat.mod_eq_of_lt (by omega), hpos, Nat.add_assoc]
    · dsimp only
      rw [Function.update_apply, Function.update_apply, h.cells i hi]
      exact if_congr (by omega) rfl rfl
    · have hk : r.top + crtSize ≤ k := hk
      have hne : k ≠ r.cursor := by omega
      exact (Function.update_of_ne hne _ _).trans (hbelow k hk)

/-- Nothing is written behind the screen, and the cursor blinks at the position. -/
structure OnScreen (s s' : Cga) : Prop where
  outside : ∀ k, crtSize ≤ k → s'.crtBuf k = s.crtBuf k
  cursor : s'.cursorHigh * 2 ^ 8 + s'.cursorLow = s'.crtPos

theorem cgaPutc_onScreen (h : Shows s r) (c : BitVec 32) : OnScreen s (cgaPutc c s) := by
  have hlt := h.lt
  have hlt' := (cgaPutc_shows h c).lt
  have hsmall : crtSize < 2 ^ 16 := by decide
  have hwrite : ∀ k, crtSize ≤ k → (cgaWrite (coloured c) s).crtBuf k = s.crtBuf k := by
    intro k hk
    unfold cgaWrite
    split
    · split_ifs
      · exact Function.update_of_ne (by omega) _ _
      · rfl
    · rfl
    · rfl
    · exact Function.update_of_ne (by omega) _ _
  refine ⟨fun k hk => ?_, ?_⟩
  · rw [← hwrite k hk]
    show (cgaScroll (cgaWrite (coloured c) s)).crtBuf k = _
    unfold cgaScroll
    split_ifs
    · have hsize : crtSize - crtCols + crtCols = crtSize := by decide
      dsimp only
      rw [clearCells_apply, if_neg (by omega), memmove_eq, moved_of_not_mem (by omega)]
    · rfl
  · show (cgaScroll (cgaWrite (coloured c) s)).crtPos / 2 ^ 8 % 2 ^ 8 * 2 ^ 8 + (cgaScroll (cgaWrite (coloured c) s)).crtPos % 2 ^ 8 =
      (cgaScroll (cgaWrite (coloured c) s)).crtPos
    have hpos' : (cgaScroll (cgaWrite (coloured c) s)).crtPos < crtSize := hlt'
    omega

/-- A text, character by character. -/
def cgaPuts (s : Cga) (text : List (BitVec 32)) : Cga := text.foldl (fun s c => cgaPutc c s) s

def rollPuts (r : Roll Cell) (text : List (BitVec 32)) : Roll Cell := text.foldl (fun r c => rollPutc c r) r

theorem cgaPuts_shows (text : List (BitVec 32)) (h : Shows s r) : Shows (cgaPuts s text) (rollPuts r text) := by
  induction text generalizing s r with
  | nil => exact h
  | cons c text ih => exact ih (cgaPutc_shows h c)

/-- **The screen is a window.** After any text, the screen shows the last rows of the paper on which the text has been written, the
cursor blinks on the screen where the next character will be, and no memory outside of the screen has been written to. -/
theorem cga_shows_roll (text : List (BitVec 32)) (h : Shows s r) (hcursor : s.cursorHigh * 2 ^ 8 + s.cursorLow = s.crtPos) :
    Shows (cgaPuts s text) (rollPuts r text) ∧ OnScreen s (cgaPuts s text) := by
  refine ⟨cgaPuts_shows text h, ?_⟩
  induction text generalizing s r with
  | nil => exact ⟨fun _ _ => rfl, hcursor⟩
  | cons c text ih =>
    have hone := cgaPutc_onScreen h c
    have hrest := ih (cgaPutc_shows h c) hone.cursor
    exact ⟨fun k hk => (hrest.outside k hk).trans (hone.outside k hk), hrest.cursor⟩

/-- The screen after it has been cleared. -/
def Cga.clear : Cga := ⟨fun _ => blankCell, 0, 0, 0⟩

def blankRoll : Roll Cell := ⟨fun _ => blankCell, 0, 0⟩

theorem Cga.clear_shows : Shows .clear blankRoll :=
  ⟨⟨dvd_zero _, Nat.le_refl 0, by decide, fun _ _ => rfl⟩, rfl, fun _ _ => rfl⟩

theorem cga_shows_roll_line : (cgaPuts .clear [0x68#32, 0x0A#32, 0x69#32]).crtPos = 81 ∧
    Shows (cgaPuts .clear [0x68#32, 0x0A#32, 0x69#32]) (rollPuts blankRoll [0x68#32, 0x0A#32, 0x69#32]) :=
  ⟨by decide, (cga_shows_roll _ Cga.clear_shows rfl).1⟩

end Ucore.Driver
