import Mathlib.Data.List.GetD
import Mathlib.Data.List.TakeWhile

/-!
# C strings

Strings that end with a zero byte, in buffers that may be longer.

* `CString` is a list of bytes without a zero.
* `CString.ofBuffer buf n` is the string at the start of the buffer `buf`, of which `n` bytes are looked at.
* `strcpy` overwrites the start of a buffer and leaves the rest of it. `ofBuffer_of_strcpy`: what is read back from the
  first `c` bytes is the string, cut to `c` bytes.
-/

namespace Ucore.Lib

/-- The bytes of a string, without the zero at its end. -/
structure CString where
  bytes : List UInt8
  nul_free : ∀ b ∈ bytes, b ≠ 0

namespace CString

@[ext] theorem ext {s t : CString} (h : s.bytes = t.bytes) : s = t := by
  cases s
  cases t
  congr

instance : DecidableEq CString := fun s t => decidable_of_iff (s.bytes = t.bytes) ⟨ext, congrArg bytes⟩

/-- `strlen` -/
def strlen (s : CString) : ℕ := s.bytes.length

/-- The first `c` bytes. -/
def cut (s : CString) (c : ℕ) : CString := ⟨s.bytes.take c, fun b hb => s.nul_free b (List.mem_of_mem_take hb)⟩

/-- The string behind the first `n` bytes, and behind all bytes `b` that follow them. -/
def skip (s : CString) (n : ℕ) (b : UInt8) : CString :=
  ⟨(s.bytes.drop n).dropWhile (· = b), fun c hc =>
    s.nul_free c (List.mem_of_mem_drop ((List.dropWhile_sublist _).mem hc))⟩

theorem head?_skip (s : CString) (n : ℕ) (b : UInt8) : (s.skip n b).bytes.head? ≠ some b := by
  intro h
  have hnot := List.head?_dropWhile_not (· = b) (s.bytes.drop n)
  rw [show (List.dropWhile (· = b) (s.bytes.drop n)).head? = some b from h] at hnot
  simp at hnot

theorem strlen_cut (s : CString) (c : ℕ) : (s.cut c).strlen = min c s.strlen := List.length_take

theorem cut_eq_self {s : CString} {c : ℕ} : s.cut c = s ↔ s.strlen ≤ c := by
  constructor
  · intro h
    have := s.strlen_cut c
    rw [h] at this
    omega
  · intro h
    exact ext (List.take_of_length_le h)

/-- The string at the start of the buffer `buf`, of which `n` bytes are looked at. -/
def ofBuffer (buf : ℕ → UInt8) (n : ℕ) : CString where
  bytes := ((List.range n).map buf).takeWhile fun b => b ≠ 0
  nul_free b hb := by simpa using List.mem_takeWhile_imp hb

theorem ofBuffer_congr {buf buf' : ℕ → UInt8} {n : ℕ} (h : ∀ k < n, buf k = buf' k) :
    ofBuffer buf n = ofBuffer buf' n := by
  have hmap : (List.range n).map buf = (List.range n).map buf' :=
    List.map_congr_left fun k hk => h k (List.mem_range.mp hk)
  apply ext
  show ((List.range n).map buf).takeWhile (fun b => b ≠ 0) = ((List.range n).map buf').takeWhile fun b => b ≠ 0
  rw [hmap]

/-- A string is read back when it is at the start of the buffer, with a zero behind it. -/
theorem ofBuffer_eq {s : CString} {buf : ℕ → UInt8} {n : ℕ} (hle : s.strlen ≤ n)
    (hbytes : ∀ k < s.strlen, buf k = s.bytes.getD k 0) (hend : s.strlen < n → buf s.strlen = 0) :
    ofBuffer buf n = s := by
  apply ext
  have hbytes : (List.range s.strlen).map buf = s.bytes := by
    apply List.ext_getElem
    · rw [List.length_map, List.length_range, strlen]
    · intro k h₁ h₂
      rw [List.getElem_map, List.getElem_range, hbytes k h₂, List.getD_eq_getElem _ _ h₂]
  have hsplit : (List.range n).map buf = s.bytes ++ ((List.range' s.strlen (n - s.strlen)).map buf) := by
    rw [← hbytes, ← List.map_append, List.range_eq_range', List.range_eq_range']
    congr 1
    have happend : List.range' 0 s.strlen ++ List.range' (0 + s.strlen) (n - s.strlen) =
        List.range' 0 (s.strlen + (n - s.strlen)) := List.range'_append_1
    rw [Nat.zero_add, Nat.add_sub_cancel' hle] at happend
    exact happend.symm
  show ((List.range n).map buf).takeWhile (fun b => b ≠ 0) = s.bytes
  rw [hsplit, List.takeWhile_append_of_pos fun b hb => by simpa using s.nul_free b hb]
  rcases Nat.eq_or_lt_of_le hle with heq | hlt
  · rw [heq, Nat.sub_self]
    simp
  · obtain ⟨d, hd⟩ : ∃ d, n - s.strlen = d + 1 := ⟨n - s.strlen - 1, by omega⟩
    rw [hd, List.range'_succ, List.map_cons, List.takeWhile_cons, hend hlt]
    simp

end CString

/-- `strcpy`: the string and a zero go to the start of the buffer. -/
def strcpy (buf : ℕ → UInt8) (s : CString) : ℕ → UInt8 := fun k =>
  if k < s.strlen then s.bytes.getD k 0 else if k = s.strlen then 0 else buf k

/-- The first `c` bytes of the buffer are kept, with zeros behind them: the string is cut. -/
theorem CString.ofBuffer_of_strcpy {s : CString} {b buf' : ℕ → UInt8} {c n : ℕ} (hc : c < n)
    (hkept : ∀ k < c, buf' k = strcpy b s k) (hzero : ∀ k, c ≤ k → k < n → buf' k = 0) :
    ofBuffer buf' n = s.cut c := by
  have hlen := s.strlen_cut c
  refine ofBuffer_eq (by omega) (fun k hk => ?_) fun hlt => ?_
  · rw [hkept k (by omega), strcpy, if_pos (by omega)]
    simp only [cut, List.getD_eq_getElem?_getD, List.getElem?_take]
    rw [if_pos (by omega)]
  · rcases Nat.le_total c s.strlen with hle | hle
    · rw [hlen, Nat.min_eq_left hle]
      exact hzero c (Nat.le_refl c) hc
    · rw [hlen, Nat.min_eq_right hle]
      by_cases heq : s.strlen = c
      · rw [heq]
        exact hzero c (Nat.le_refl c) hc
      · rw [hkept _ (by omega), strcpy, if_neg (Nat.lt_irrefl _), if_pos rfl]

end Ucore.Lib
