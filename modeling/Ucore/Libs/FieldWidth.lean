import Ucore.Libs.NumberFormat

/-!
# The width of a number

`field` is a number in a field: its text, with spaces before it, zeros between the sign and the digits, or spaces behind it.

* What the code prints is the sign, then the padding up to the width, without room for the sign, and then the digits. The padding is
  the character that the flag is stored as, and for the flag `-` this is the `-` itself.
* `width_honoured_iff`: the field is printed when the digits fill it, or when there is no sign, the flag is not `-`, and the difference
  is an `int`.
-/

namespace Ucore.Libs

open Ucore.Lib

/-- A number in a field of the width `w`. -/
def field (flag : PadFlag) (w : ℕ) (sgn dgs : List ℤ) : List ℤ :=
  match flag with
  | .spaces => List.replicate (w - (sgn.length + dgs.length)) (ascii ' ') ++ (sgn ++ dgs)
  | .zeros => sgn ++ (List.replicate (w - (sgn.length + dgs.length)) (ascii '0') ++ dgs)
  | .right => sgn ++ dgs ++ List.replicate (w - (sgn.length + dgs.length)) (ascii ' ')

theorem length_field (flag : PadFlag) (w : ℕ) (sgn dgs : List ℤ) : (field flag w sgn dgs).length = max w (sgn.length + dgs.length) := by
  cases flag <;> simp only [field, List.length_append, List.length_replicate] <;> omega

/-- A field that the text fills. -/
theorem field_of_le {flag : PadFlag} {w : ℕ} {sgn dgs : List ℤ} (h : w ≤ sgn.length + dgs.length) : field flag w sgn dgs = sgn ++ dgs := by
  have hfill : w - (sgn.length + dgs.length) = 0 := by omega
  cases flag <;> simp only [field, hfill, List.replicate_zero, List.nil_append, List.append_nil]

/-- What is printed is the number in its field. -/
def Honours (flag : PadFlag) (w : ℕ) (conv : NumberConversion) (v : ℤ) (out : List ℤ) : Prop :=
  out.length = max w ((sign v).length + (digits conv.base v).length) ∧ out = field flag w (sign v) (digits conv.base v)

theorem honours_iff {flag : PadFlag} {w : ℕ} {conv : NumberConversion} {v : ℤ} {out : List ℤ} :
    Honours flag w conv v out ↔ out = field flag w (sign v) (digits conv.base v) :=
  ⟨And.right, fun h => ⟨by rw [h, length_field], h⟩⟩

/-! ### The padding -/

theorem toNat_int_of_nonpos {n : ℤ} (hlow : -2 ^ 31 ≤ n) (h : n ≤ 0) : (int n).toNat = 0 := by
  rw [int, Int.bmod_eq_of_le (by omega) (by omega)]
  exact Int.toNat_of_nonpos h

theorem toNat_int_eq_iff {n : ℕ} : (int n).toNat = n ↔ n < 2 ^ 31 := by
  rw [int, Int.bmod_def]
  split_ifs <;> omega

theorem toNat_int_succ_ne (n : ℕ) : (int n).toNat + 1 ≠ n := by
  rw [int, Int.bmod_def]
  split_ifs <;> omega

theorem digitChar_ne_space {d : ℕ} (hd : d < 16) : digitChar d ≠ ascii ' ' := by
  have hall : ∀ d < 16, digitChar d ≠ ascii ' ' := by decide
  exact hall d hd

/-- The sign, the padding and the digits are the number in its field only if there is nothing to pad, or no sign and the right
character to pad with. -/
theorem padded_eq_field_iff {flag : PadFlag} {w n : ℕ} {sgn dgs : List ℤ} (hw : dgs.length < w) (hn : n = (int (w - dgs.length)).toNat)
    (hsgn : sgn.length ≤ 1) (hdgs : ∃ l d, dgs = l ++ [d] ∧ d ≠ ascii ' ') :
    sgn ++ (List.replicate n flag.padc ++ dgs) = field flag w sgn dgs ↔
      sgn = [] ∧ flag ≠ .right ∧ w < dgs.length + 2 ^ 31 := by
  obtain ⟨m, rfl⟩ : ∃ m, w = dgs.length + (m + 1) := ⟨w - dgs.length - 1, by omega⟩
  have hn : n = (int (m + 1 : ℕ)).toNat := by
    rw [hn]
    congr 2
    omega
  constructor
  · intro heq
    have hlen := congrArg List.length heq
    rw [length_field] at hlen
    simp only [List.length_append, List.length_replicate] at hlen
    have hsgn0 : sgn.length = 0 := by
      by_contra hne
      have := toNat_int_succ_ne (m + 1)
      omega
    have hsgn : sgn = [] := List.eq_nil_of_length_eq_zero hsgn0
    have hm : (int (m + 1 : ℕ)).toNat = m + 1 := by omega
    refine ⟨hsgn, fun hright => ?_, by have := toNat_int_eq_iff.mp hm; omega⟩
    -- The last character of the field is a space.
    obtain ⟨l, d, hl, hd⟩ := hdgs
    have hfill : dgs.length + (m + 1) - (sgn.length + dgs.length) = m + 1 := by omega
    have hdigit : (sgn ++ (List.replicate n flag.padc ++ dgs)).getLast? = some d := by
      rw [hl, ← List.append_assoc, ← List.append_assoc]
      exact List.getLast?_concat ..
    have hspace : (field flag (dgs.length + (m + 1)) sgn dgs).getLast? = some (ascii ' ') := by
      rw [hright, field, hfill, List.replicate_succ', ← List.append_assoc]
      exact List.getLast?_concat ..
    rw [heq, hspace] at hdigit
    exact hd (Option.some.inj hdigit).symm
  · rintro ⟨rfl, hright, hlt⟩
    have hm : n = m + 1 := hn.trans (toNat_int_eq_iff.mpr (by omega))
    have hfill : dgs.length + (m + 1) - (([] : List ℤ).length + dgs.length) = m + 1 := by
      rw [List.length_nil]
      omega
    cases flag with
    | spaces => rw [field, hfill, hm]; rfl
    | zeros => rw [field, hfill, hm]; rfl
    | right => exact absurd rfl hright

/-! ### What the code prints -/

/-- A `putch` that keeps the characters. -/
def collect (ch : ℤ) (out : List ℤ) : List ℤ := out ++ [ch]

theorem emits_collect (chars out : List ℤ) : emits collect chars out = out ++ chars := by
  induction chars generalizing out with
  | nil => exact (List.append_nil out).symm
  | cons ch chars ih => rw [emits_cons, ih, collect, List.append_assoc, List.singleton_append]

/-- The values are those of at most 64 bits. -/
theorem NumberConversion.natAbs_value_lt (conv : NumberConversion) (args : ℕ → BitVec 32) (i k : ℕ) :
    (conv.value args i k).natAbs < 2 ^ 64 := by
  have hword := (args i).isLt
  have hwords := (args (i + 1) ++ args i : BitVec 64).isLt
  have hlow := (args i).le_toInt
  have hhigh := (args i).toInt_lt
  have hlow' := (args (i + 1) ++ args i : BitVec 64).le_toInt
  have hhigh' := (args (i + 1) ++ args i : BitVec 64).toInt_lt
  cases conv <;> simp only [NumberConversion.value] <;> split_ifs <;> omega

theorem length_digits_le (conv : NumberConversion) (args : ℕ → BitVec 32) (i k : ℕ) :
    (numeral conv.base (conv.value args i k).natAbs).length ≤ 64 :=
  length_numeral_le conv.two_le_base (by decide)
    ((conv.natAbs_value_lt args i k).trans_le (Nat.pow_le_pow_left conv.two_le_base 64))

/-- The last character of a number is no space. -/
theorem digits_eq_concat (conv : NumberConversion) (v : ℤ) : ∃ l d, digits conv.base v = l ++ [d] ∧ d ≠ ascii ' ' := by
  obtain ⟨l, d, hnum⟩ := List.eq_nil_or_concat (numeral conv.base v.natAbs) |>.resolve_left (numeral_ne_nil _ _)
  have hd : d < conv.base := lt_of_mem_numeral (n := v.natAbs) conv.two_le_base (by rw [hnum]; simp)
  have hbase : conv.base ≤ 16 := by cases conv <;> decide
  refine ⟨l.map digitChar, digitChar d, ?_, digitChar_ne_space (hd.trans_le hbase)⟩
  rw [digits, hnum]
  simp

theorem length_sign_le (v : ℤ) : (sign v).length ≤ 1 := by
  rw [sign]
  split_ifs <;> decide

theorem sign_eq_nil_iff {v : ℤ} : sign v = [] ↔ 0 ≤ v := by
  by_cases hneg : v < 0
  · rw [sign, if_pos hneg]
    exact iff_of_false (List.cons_ne_nil _ _) (not_le.mpr hneg)
  · rw [sign, if_neg hneg]
    exact iff_of_true rfl (not_lt.mp hneg)

/-- **When the width of a number is honoured.** -/
theorem width_honoured_iff (depth : ℕ) (flag : PadFlag) (w k : ℕ) (conv : NumberConversion) (args : ℕ → BitVec 32)
    (memory : BitVec 32 → CString) (hw : 1 ≤ w) :
    ∃ s, (vprintfmt collect (depth + 1) (numberFormat flag w k conv) args memory).run (Printer.start []) = .ok () s ∧
      (Honours flag w conv (conv.value args 0 k) s.out ↔
        w ≤ (digits conv.base (conv.value args 0 k)).length ∨
          (0 ≤ conv.value args 0 k ∧ flag ≠ .right ∧ w < (digits conv.base (conv.value args 0 k)).length + 2 ^ 31)) := by
  obtain ⟨s, hrun, hout⟩ := vprintfmt_number collect depth flag w k conv args memory []
  have hlen := length_digits_le conv args 0 k
  generalize conv.value args 0 k = v at hout hlen ⊢
  have hdigits : (digits conv.base v).length = (numeral conv.base v.natAbs).length := List.length_map _
  have hprint : s.out = sign v ++
      (List.replicate (int (w - (digits conv.base v).length)).toNat flag.padc ++ digits conv.base v) := by
    rw [hout, numberText, widthValue, if_neg (by omega), int_sub, hdigits, emits_collect]
    rfl
  refine ⟨s, hrun, ?_⟩
  rw [honours_iff]
  by_cases hle : w ≤ (digits conv.base v).length
  · rw [hprint, toNat_int_of_nonpos (by omega) (by omega), List.replicate_zero, List.nil_append, field_of_le (by omega)]
    exact iff_of_true rfl (.inl hle)
  · rw [hprint, padded_eq_field_iff (not_le.mp hle) rfl (length_sign_le v) (digits_eq_concat conv v), sign_eq_nil_iff]
    exact (or_iff_right hle).symm

theorem width_honoured_iff_five : ∃ s, (vprintfmt collect 2 (numberFormat .zeros 5 0 .signed) (fun _ => -42) fun _ => literal "").run
    (Printer.start []) = .ok () s ∧ (Honours .zeros 5 .signed (-42) s.out ↔ 5 ≤ (digits 10 (-42)).length ∨
      (0 ≤ (-42 : ℤ) ∧ PadFlag.zeros ≠ .right ∧ 5 < (digits 10 (-42)).length + 2 ^ 31)) :=
  width_honoured_iff 1 .zeros 5 0 .signed (fun _ => -42) (fun _ => literal "") (by decide)

/-- The sign is printed before the padding, and takes no room in the width. -/
example : ((vprintfmt collect 2 (numberFormat .spaces 5 0 .signed) (fun _ => -5) fun _ => literal "").run (Printer.start [])).observe
    Printer.out = some ((), "-    5".toList.map ascii) := by decide +kernel

/-- The flag to pad on the right pads on the left, with itself. -/
theorem not_width_honoured : ¬ ∀ (depth : ℕ) (flag : PadFlag) (w k : ℕ) (conv : NumberConversion) (args : ℕ → BitVec 32)
    (memory : BitVec 32 → CString), 1 ≤ w → ∃ s, (vprintfmt collect (depth + 1) (numberFormat flag w k conv) args memory).run
      (Printer.start []) = .ok () s ∧ Honours flag w conv (conv.value args 0 k) s.out := by
  intro h
  obtain ⟨s, hrun, hhonours⟩ := h 1 .right 5 0 .signed (fun _ => 5) (fun _ => literal "") (by decide)
  have hobs : ((vprintfmt collect 2 (numberFormat .right 5 0 .signed) (fun _ => 5) fun _ => literal "").run (Printer.start [])).observe
      Printer.out = some ((), "----5".toList.map ascii) := by decide +kernel
  rw [hrun] at hobs
  have hout : s.out = "----5".toList.map ascii := (Prod.mk.inj (Option.some.inj hobs)).2
  have hfield := hhonours.2
  rw [hout] at hfield
  revert hfield
  decide +kernel

end Ucore.Libs
