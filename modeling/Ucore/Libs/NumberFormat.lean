import Ucore.Libs.PrintFormat

/-!
# What the conversions of numbers print

The formats with one conversion of a number: a flag, a width, some `l`, and the letter.

* `NumberConversion` are the letters `d`, `u`, `o` and `x`, and `value` is the number that the conversion prints.
* `reswitch_number` is about the letter, `reswitch_width` and `reswitch_long` are about what is before it.
* `vprintfmt_number` puts them together: the sign, and then `numberText` for the width and the character to pad with.
-/

namespace Ucore.Libs

open Ucore.Lib

variable {σ : Type} {putch : ℤ → σ → σ} {args : ℕ → BitVec 32} {memory : BitVec 32 → CString} {fmt : CString}
  {call : CString → BitVec 32 → (BitVec 32 → CString) → PrintProg σ Unit} {s : Printer σ} {fuel : ℕ} {c : Conversion}

/-- The conversions of numbers. -/
inductive NumberConversion where
  | signed | unsigned | octal | hex
  deriving Repr, DecidableEq

namespace NumberConversion

def letter : NumberConversion → UInt8
  | signed => 'd'.toUInt8
  | unsigned => 'u'.toUInt8
  | octal => 'o'.toUInt8
  | hex => 'x'.toUInt8

def base : NumberConversion → ℕ
  | signed => 10
  | unsigned => 10
  | octal => 8
  | hex => 16

theorem two_le_base (conv : NumberConversion) : 2 ≤ conv.base := by cases conv <;> decide

/-- The number for the words from `i` on, with `k` times an `l`. -/
def value (conv : NumberConversion) (args : ℕ → BitVec 32) (i k : ℕ) : ℤ :=
  match conv with
  | signed => if 2 ≤ k then (args (i + 1) ++ args i : BitVec 64).toInt else (args i).toInt
  | _ => if 2 ≤ k then ((args (i + 1) ++ args i : BitVec 64).toNat : ℤ) else (args i).toNat

end NumberConversion

/-- The sign of a number. -/
def sign (v : ℤ) : List ℤ := if v < 0 then [ascii '-'] else []

/-- The digits of a number. -/
def digits (base : ℕ) (v : ℤ) : List ℤ := (numeral base v.natAbs).map digitChar

/-! ### The letter -/

theorem getint_run (args : ℕ → BitVec 32) (s : Printer σ) (k : ℕ) : ∃ ap, (getint args k).run s =
    .ok (if 2 ≤ k then args (s.ap + 1) ++ args s.ap else (args s.ap).signExtend 64) { s with ap := ap } := by
  rw [getint]
  split_ifs with hk
  · exact ⟨s.ap + 2, rfl⟩
  · exact ⟨s.ap + 1, rfl⟩

theorem getuint_run (args : ℕ → BitVec 32) (s : Printer σ) (k : ℕ) : ∃ ap, (getuint args k).run s =
    .ok (if 2 ≤ k then args (s.ap + 1) ++ args s.ap else (args s.ap).setWidth 64) { s with ap := ap } := by
  rw [getuint]
  split_ifs with hk
  · exact ⟨s.ap + 2, rfl⟩
  · exact ⟨s.ap + 1, rfl⟩

theorem number_run (num : BitVec 64) {base : BitVec 32} (hbase : 2 ≤ base.toNat) : (number putch c num base).run s =
    .ok () { s with out := emits putch (numberText base.toNat num.toNat c.width c.padc) s.out } := by
  have hlt : num.toNat < base.toNat ^ 64 := num.isLt.trans_le (Nat.pow_le_pow_left hbase 64)
  exact printnum_run hbase ((length_numeral_le hbase (by decide) hlt).trans (by decide))

/-- The absolute value of a negative number, also of the most negative one. -/
theorem toNat_neg_of_neg {num : BitVec 64} (h : num.toInt < 0) : (-num).toNat = num.toInt.natAbs := by
  have hlt := num.isLt
  rw [BitVec.toInt_eq_toNat_cond] at h ⊢
  rw [BitVec.toNat_neg]
  split_ifs at h ⊢ <;> omega

theorem toNat_of_nonneg {num : BitVec 64} (h : 0 ≤ num.toInt) : num.toNat = num.toInt.natAbs := by
  have hlt := num.isLt
  rw [BitVec.toInt_eq_toNat_cond] at h ⊢
  split_ifs at h ⊢ <;> omega

/-- The conversions that take their argument as unsigned. -/
theorem unsigned_run (conv : NumberConversion) {base : BitVec 32} (hbase : conv.base = base.toNat)
    (hconv : ∀ i k, conv.value args i k = if 2 ≤ k then ((args (i + 1) ++ args i : BitVec 64).toNat : ℤ) else (args i).toNat) :
    ∃ ap, (getuint args c.lflag >>= fun num => number putch c num base).run { s with fmt := s.fmt + 1 } =
      .ok () ⟨s.fmt + 1, ap, emits putch (sign (conv.value args s.ap c.lflag) ++
        numberText conv.base (conv.value args s.ap c.lflag).natAbs c.width c.padc) s.out⟩ := by
  obtain ⟨ap, hrun⟩ := getuint_run args { s with fmt := s.fmt + 1 } c.lflag
  have hval : conv.value args s.ap c.lflag =
      (if 2 ≤ c.lflag then args (s.ap + 1) ++ args s.ap else (args s.ap).setWidth 64 : BitVec 64).toNat := by
    rw [hconv]
    split_ifs
    · rfl
    · rw [BitVec.toNat_setWidth_of_le (by decide)]
  have hnot : ¬ conv.value args s.ap c.lflag < 0 := by omega
  refine ⟨ap, ?_⟩
  rw [Prog.bind_of_ok hrun, number_run _ (hbase ▸ conv.two_le_base), sign, if_neg hnot, hval, Int.natAbs_natCast, hbase]
  rfl

section letter

variable (putch args memory call fuel)

/-- A conversion prints the sign and the digits, with the padding between them. -/
theorem reswitch_number (conv : NumberConversion) {pre rest : List UInt8} (h : fmt.bytes = pre ++ conv.letter :: rest)
    (hs : s.fmt = pre.length) : ∃ ap, (reswitch putch args call fmt memory (fuel + 1) c).run s =
      .ok () ⟨s.fmt + 1, ap, emits putch (sign (conv.value args s.ap c.lflag) ++
        numberText conv.base (conv.value args s.ap c.lflag).natAbs c.width c.padc) s.out⟩ := by
  have hnext := nextFmt_run h hs
  rw [List.headD_cons] at hnext
  rw [reswitch, Prog.bind_of_ok hnext]
  cases conv with
  | signed =>
    obtain ⟨ap, hrun⟩ := getint_run args { s with fmt := s.fmt + 1 } c.lflag
    have hval : (if 2 ≤ c.lflag then args (s.ap + 1) ++ args s.ap else (args s.ap).signExtend 64 : BitVec 64).toInt =
        NumberConversion.signed.value args s.ap c.lflag := by
      rw [NumberConversion.value]
      split_ifs
      · rfl
      · exact BitVec.toInt_signExtend_of_le (by decide)
    dsimp only at hrun
    generalize (if 2 ≤ c.lflag then args (s.ap + 1) ++ args s.ap else (args s.ap).signExtend 64 : BitVec 64) = num at hrun hval
    rw [show directive NumberConversion.signed.letter = .signed by decide]
    dsimp only
    rw [Prog.bind_of_ok hrun, ← hval]
    refine ⟨ap, ?_⟩
    by_cases hneg : num.toInt < 0
    · rw [if_pos hneg, Prog.bind_of_ok (emit_run _), number_run _ (by decide), sign, if_pos hneg, toNat_neg_of_neg hneg]
      rfl
    · rw [if_neg hneg, number_run _ (by decide), sign, if_neg hneg, toNat_of_nonneg (not_lt.mp hneg)]
      rfl
  | unsigned =>
    rw [show directive NumberConversion.unsigned.letter = .unsigned by decide]
    exact unsigned_run .unsigned rfl fun _ _ => rfl
  | octal =>
    rw [show directive NumberConversion.octal.letter = .octal by decide]
    exact unsigned_run .octal rfl fun _ _ => rfl
  | hex =>
    rw [show directive NumberConversion.hex.letter = .hex by decide]
    exact unsigned_run .hex rfl fun _ _ => rfl

end letter

/-! ### What is before the letter -/

/-- The character of a decimal digit. -/
def digitByte (d : ℕ) : UInt8 := UInt8.ofNat (48 + d)

theorem digitByte_spec {d : ℕ} (hd : d < 10) : ((digitByte d).toNat : ℤ) - ascii '0' = d ∧
    ¬ (digitByte d < '0'.toUInt8 ∨ '9'.toUInt8 < digitByte d) ∧ digitByte d ≠ 0 ∧ digitByte d ≠ '%'.toUInt8 ∧
    (d ≠ 0 → directive (digitByte d) = .digit) := by
  have hall : ∀ d < 10, ((digitByte d).toNat : ℤ) - ascii '0' = d ∧
      ¬ (digitByte d < '0'.toUInt8 ∨ '9'.toUInt8 < digitByte d) ∧ digitByte d ≠ 0 ∧ digitByte d ≠ '%'.toUInt8 ∧
      (d ≠ 0 → directive (digitByte d) = .digit) := by decide
  exact hall d hd

/-- The decimal text of a width. -/
def decimal (w : ℕ) : List UInt8 := (numeral 10 w).map digitByte

theorem int_int (n : ℤ) : int (int n) = int n := Int.bmod_bmod

/-- The wraps of the steps are the wrap of the number. -/
theorem foldl_int (ds : List ℕ) (p : ℤ) :
    ds.foldl (fun p (d : ℕ) => int (p * 10 + d)) (int p) = int (ds.foldl (fun p (d : ℕ) => p * 10 + d) p) := by
  induction ds generalizing p with
  | nil => rfl
  | cons d ds ih =>
    have hstep : int (int p * 10 + d) = int (p * 10 + d) := by
      rw [int, int, ← Int.bmod_add_bmod, Int.bmod_mul_bmod, Int.bmod_add_bmod, int]
    rw [List.foldl_cons, List.foldl_cons, hstep, ih]

/-- The loop of the width field, for the digits `d₀` and `ds`. -/
theorem widthField_digits {pre rest : List UInt8} {ds : List ℕ} {d₀ : ℕ} (h : fmt.bytes = pre ++ ds.map digitByte ++ rest)
    (hs : s.fmt = pre.length) (hds : ∀ d ∈ d₀ :: ds, d < 10) (hrest : rest.headD 0 < '0'.toUInt8 ∨ '9'.toUInt8 < rest.headD 0)
    (hfuel : ds.length < fuel) (p : ℤ) : (widthField fmt fuel p (digitByte d₀)).run s =
      .ok ((d₀ :: ds).foldl (fun p (d : ℕ) => int (p * 10 + d)) p) { s with fmt := s.fmt + ds.length } := by
  induction fuel generalizing s pre ds d₀ p with
  | zero => cases hfuel
  | succ fuel ih =>
    have hp : p * 10 + (digitByte d₀).toNat - ascii '0' = p * 10 + d₀ := by
      have := (digitByte_spec (hds d₀ List.mem_cons_self)).1
      omega
    rw [widthField, Prog.bind_of_ok (Prog.run_get s), hp]
    cases ds with
    | nil =>
      rw [List.map_nil, List.append_nil] at h
      rw [Prog.bind_of_ok (readFmt_run h hs), if_pos hrest, List.length_nil, Nat.cast_zero, add_zero]
      rfl
    | cons d₁ ds =>
      have h' : fmt.bytes = pre ++ (digitByte d₁ :: (ds.map digitByte ++ rest)) := by
        rw [h, List.append_assoc]
        rfl
      have h'' : fmt.bytes = pre ++ [digitByte d₁] ++ ds.map digitByte ++ rest := by
        rw [h']
        simp
      have hplace : s.fmt + ((d₁ :: ds).length : ℤ) = s.fmt + 1 + ds.length := by
        rw [List.length_cons]
        omega
      rw [Prog.bind_of_ok (readFmt_run h' hs), List.headD_cons,
        if_neg (digitByte_spec (hds d₁ (List.mem_cons_of_mem _ List.mem_cons_self))).2.1, Prog.bind_of_ok (Prog.run_modify ..),
        ih h'' (place_concat hs _) (fun d hd => hds d (List.mem_cons_of_mem _ hd)) (Nat.lt_of_succ_lt_succ hfuel), hplace]
      rfl

/-- The width. -/
theorem reswitch_width {pre rest : List UInt8} {w : ℕ} (hw : w ≠ 0) (h : fmt.bytes = pre ++ decimal w ++ rest) (hs : s.fmt = pre.length)
    (hrest : rest.headD 0 < '0'.toUInt8 ∨ '9'.toUInt8 < rest.headD 0) : (reswitch putch args call fmt memory (fuel + 1) c).run s =
      (reswitch putch args call fmt memory fuel (c.processPrecision (int w))).run { s with fmt := s.fmt + (decimal w).length } := by
  obtain ⟨d₀, ds, hnum⟩ := List.exists_cons_of_ne_nil (numeral_ne_nil 10 w)
  have hd₀ : d₀ ≠ 0 := fun hd₀ => hw (eq_zero_of_numeral (hd₀ ▸ hnum))
  have hds : ∀ d ∈ d₀ :: ds, d < 10 := fun d hd => lt_of_mem_numeral (b := 10) (n := w) (by decide) (hnum ▸ hd)
  have hdec : decimal w = digitByte d₀ :: ds.map digitByte := by rw [decimal, hnum]; rfl
  have hread : (d₀ :: ds).foldl (fun p (d : ℕ) => int (p * 10 + d)) 0 = int w := by
    have hval := foldl_numeral (R := ℤ) 10 w
    rw [hnum] at hval
    exact (foldl_int (d₀ :: ds) 0).trans (congrArg int hval)
  have hnext : fmt.bytes = pre ++ (digitByte d₀ :: (ds.map digitByte ++ rest)) := by
    rw [h, hdec, List.append_assoc]
    rfl
  have hlen : ds.length < fmt.strlen + 2 := by
    rw [CString.strlen, hnext]
    simp only [List.length_append, List.length_cons, List.length_map]
    omega
  have hrun := nextFmt_run hnext hs
  rw [List.headD_cons] at hrun
  rw [reswitch, Prog.bind_of_ok hrun, (digitByte_spec (hds d₀ List.mem_cons_self)).2.2.2.2 hd₀]
  dsimp only
  have hdigits : fmt.bytes = pre ++ [digitByte d₀] ++ ds.map digitByte ++ rest := by
    rw [hnext]
    simp
  rw [Prog.bind_of_ok (widthField_digits hdigits (place_concat hs _) hds hrest hlen 0), hread, hdec, List.length_cons,
    List.length_map, Nat.cast_succ, add_assoc, add_comm (1 : ℤ)]

/-! ### The formats -/

/-- The flags for padding. -/
inductive PadFlag where
  | spaces | zeros | right
  deriving Repr, DecidableEq

namespace PadFlag

def text : PadFlag → List UInt8
  | spaces => []
  | zeros => ['0'.toUInt8]
  | right => ['-'.toUInt8]

/-- The character that the flag is stored as. -/
def padc : PadFlag → ℤ
  | spaces => ascii ' '
  | zeros => ascii '0'
  | right => ascii '-'

end PadFlag

/-- The text of a width; 0 is for none. -/
def widthText (w : ℕ) : List UInt8 := if w = 0 then [] else decimal w

/-- The value of the width field. -/
def widthValue (w : ℕ) : ℤ := if w = 0 then -1 else int w

/-- The text of a conversion behind the `%`. -/
def numberBody (flag : PadFlag) (w k : ℕ) (conv : NumberConversion) : List UInt8 :=
  flag.text ++ (widthText w ++ (List.replicate k 'l'.toUInt8 ++ [conv.letter]))

theorem numberBody_nul_free (flag : PadFlag) (w k : ℕ) (conv : NumberConversion) : ∀ b ∈ numberBody flag w k conv, b ≠ 0 := by
  intro b hb
  simp only [numberBody, List.mem_append, List.mem_replicate, List.mem_singleton] at hb
  rcases hb with hb | hb | ⟨-, rfl⟩ | rfl
  · cases flag with
    | spaces => cases hb
    | zeros =>
      rw [List.mem_singleton.mp hb]
      decide
    | right =>
      rw [List.mem_singleton.mp hb]
      decide
  · rw [widthText] at hb
    split_ifs at hb
    · cases hb
    · obtain ⟨d, hd, rfl⟩ := List.mem_map.mp hb
      exact (digitByte_spec (lt_of_mem_numeral (by decide) hd)).2.2.1
  · decide
  · cases conv <;> decide

/-- The format with one conversion of a number. -/
def numberFormat (flag : PadFlag) (w k : ℕ) (conv : NumberConversion) : CString :=
  ⟨'%'.toUInt8 :: numberBody flag w k conv, List.forall_mem_cons.mpr ⟨by decide, numberBody_nul_free flag w k conv⟩⟩

/-- A format that starts with its only conversion. -/
theorem vprintfmt_single {body : List UInt8} (h : fmt.bytes = '%'.toUInt8 :: body) {depth : ℕ} {out : σ} {s' : Printer σ}
    (hrun : (reswitch putch args (printfmt (vprintfmt putch depth)) fmt memory (fmt.strlen + 2) Conversion.start).run ⟨1, 0, out⟩ =
      .ok () s') (hs' : s'.fmt = fmt.strlen) :
    (vprintfmt putch (depth + 1) fmt args memory).run (Printer.start out) = .ok () { s' with fmt := s'.fmt + 1 } := by
  have hlen : fmt.strlen = body.length + 1 := by rw [CString.strlen, h, List.length_cons]
  have hfirst : (plainText putch fmt (fmt.strlen + 1)).run (Printer.start out) = .ok true ⟨1, 0, out⟩ := by
    have h' : fmt.bytes = [] ++ '%'.toUInt8 :: body := h
    rw [plainText, Prog.bind_of_ok (nextFmt_run h' rfl), List.headD_cons, if_pos rfl]
    rfl
  have hlast : (plainText putch fmt (fmt.strlen + 1)).run s' = .ok false { s' with fmt := s'.fmt + 1 } := by
    rw [plainText, Prog.bind_of_ok (nextFmt_run (List.append_nil fmt.bytes).symm hs'), List.headD_nil, if_neg (by decide),
      if_pos rfl]
    rfl
  rw [vprintfmt]
  conv_lhs => rw [hlen]
  rw [printLoop, Prog.bind_of_ok hfirst, if_pos rfl, Prog.bind_of_ok hrun, printLoop, Prog.bind_of_ok hlast]
  rfl

section parts

variable (putch args memory call fuel)

/-- The flag. -/
theorem reswitch_flag (flag : PadFlag) {pre rest : List UInt8} (h : fmt.bytes = pre ++ (flag.text ++ rest)) (hs : s.fmt = pre.length)
    (hc : c.padc = ascii ' ') : ∃ fuel', fuel ≤ fuel' ∧ (reswitch putch args call fmt memory (fuel + 1) c).run s =
      (reswitch putch args call fmt memory fuel' { c with padc := flag.padc }).run { s with fmt := s.fmt + flag.text.length } := by
  have hnext := nextFmt_run h hs
  cases flag with
  | spaces =>
    refine ⟨fuel + 1, Nat.le_succ _, ?_⟩
    simp only [PadFlag.text, PadFlag.padc, List.length_nil, Nat.cast_zero, add_zero, ← hc]
  | zeros =>
    refine ⟨fuel, le_rfl, ?_⟩
    rw [PadFlag.text, List.singleton_append, List.headD_cons] at hnext
    rw [reswitch, Prog.bind_of_ok hnext, show directive '0'.toUInt8 = .zero by decide]
    rfl
  | right =>
    refine ⟨fuel, le_rfl, ?_⟩
    rw [PadFlag.text, List.singleton_append, List.headD_cons] at hnext
    rw [reswitch, Prog.bind_of_ok hnext, show directive '-'.toUInt8 = .minus by decide]
    rfl

/-- The width, if there is one. -/
theorem reswitch_field (w : ℕ) {pre rest : List UInt8} (h : fmt.bytes = pre ++ (widthText w ++ rest)) (hs : s.fmt = pre.length)
    (hrest : rest.headD 0 < '0'.toUInt8 ∨ '9'.toUInt8 < rest.headD 0) (hc : c.width = -1) (hc' : c.precision = -1) :
    ∃ fuel', fuel ≤ fuel' ∧ (reswitch putch args call fmt memory (fuel + 1) c).run s =
      (reswitch putch args call fmt memory fuel' { c with width := widthValue w }).run
        { s with fmt := s.fmt + (widthText w).length } := by
  by_cases hw : w = 0
  · refine ⟨fuel + 1, Nat.le_succ _, ?_⟩
    rw [widthText, if_pos hw, widthValue, if_pos hw, ← hc, List.length_nil, Nat.cast_zero, add_zero]
  · refine ⟨fuel, le_rfl, ?_⟩
    rw [widthText, if_neg hw, ← List.append_assoc] at h
    have hprec : c.processPrecision (int w) = { c with width := int w } := by
      rw [Conversion.processPrecision, if_pos (by omega), ← hc']
    rw [reswitch_width hw h hs hrest, widthText, if_neg hw, widthValue, if_neg hw, hprec]

/-- The long flags. -/
theorem reswitch_long {pre rest : List UInt8} {k : ℕ} (h : fmt.bytes = pre ++ List.replicate k 'l'.toUInt8 ++ rest)
    (hs : s.fmt = pre.length) : (reswitch putch args call fmt memory (fuel + k) c).run s =
      (reswitch putch args call fmt memory fuel { c with lflag := c.lflag + k }).run { s with fmt := s.fmt + k } := by
  induction k generalizing s pre c with
  | zero => simp only [Nat.cast_zero, add_zero]
  | succ k ih =>
    rw [List.replicate_succ, List.append_assoc, List.cons_append] at h
    have hrun := nextFmt_run h hs
    rw [List.headD_cons] at hrun
    have hplace : s.fmt + ((k + 1 : ℕ) : ℤ) = s.fmt + 1 + k := by omega
    have hflag : c.lflag + (k + 1) = c.lflag + 1 + k := by omega
    rw [hplace, hflag, ← Nat.add_assoc, reswitch, Prog.bind_of_ok hrun, show directive 'l'.toUInt8 = .long by decide]
    dsimp only
    have h' : fmt.bytes = pre ++ ['l'.toUInt8] ++ List.replicate k 'l'.toUInt8 ++ rest := by
      rw [h]
      simp
    rw [ih h' (place_concat hs _)]

end parts

/-- **The number formats.** -/
theorem vprintfmt_number (putch : ℤ → σ → σ) (depth : ℕ) (flag : PadFlag) (w k : ℕ) (conv : NumberConversion) (args : ℕ → BitVec 32)
    (memory : BitVec 32 → CString) (out : σ) :
    ∃ s', (vprintfmt putch (depth + 1) (numberFormat flag w k conv) args memory).run (Printer.start out) = .ok () s' ∧
      s'.out = emits putch (sign (conv.value args 0 k) ++
        numberText conv.base (conv.value args 0 k).natAbs (widthValue w) flag.padc) out := by
  have hflag : (numberFormat flag w k conv).bytes =
      ['%'.toUInt8] ++ (flag.text ++ (widthText w ++ (List.replicate k 'l'.toUInt8 ++ [conv.letter]))) := rfl
  have hwidth : (numberFormat flag w k conv).bytes =
      (['%'.toUInt8] ++ flag.text) ++ (widthText w ++ (List.replicate k 'l'.toUInt8 ++ [conv.letter])) := by
    rw [hflag, List.append_assoc]
  have hlong : (numberFormat flag w k conv).bytes =
      (['%'.toUInt8] ++ flag.text ++ widthText w) ++ List.replicate k 'l'.toUInt8 ++ [conv.letter] := by
    rw [hwidth]
    simp only [List.append_assoc]
  have hlen : (numberFormat flag w k conv).strlen = 1 + flag.text.length + (widthText w).length + k + 1 := by
    rw [CString.strlen, hlong]
    simp only [List.length_append, List.length_replicate, List.length_singleton]
  have hhead : (List.replicate k 'l'.toUInt8 ++ [conv.letter]).headD 0 < '0'.toUInt8 ∨
      '9'.toUInt8 < (List.replicate k 'l'.toUInt8 ++ [conv.letter]).headD 0 := by
    cases k with
    | zero => cases conv <;> decide
    | succ k =>
      rw [List.replicate_succ, List.cons_append, List.headD_cons]
      exact .inr (by decide)
  obtain ⟨f₁, hf₁, hrun₁⟩ := reswitch_flag putch args memory (printfmt (vprintfmt putch depth))
    ((numberFormat flag w k conv).strlen + 1) (s := ⟨1, 0, out⟩) (c := Conversion.start) flag hflag rfl rfl
  obtain ⟨f₁, rfl⟩ : ∃ f, f₁ = f + 1 := ⟨f₁ - 1, by omega⟩
  obtain ⟨f₂, hf₂, hrun₂⟩ := reswitch_field putch args memory (printfmt (vprintfmt putch depth)) f₁
    (s := ⟨1 + flag.text.length, 0, out⟩) (c := { Conversion.start with padc := flag.padc }) w hwidth
    (by rw [List.length_append, List.length_singleton]; dsimp only; omega) hhead rfl rfl
  obtain ⟨f₃, rfl⟩ : ∃ f, f₂ = f + 1 + k := ⟨f₂ - (k + 1), by omega⟩
  have hplace : (1 : ℤ) + flag.text.length + (widthText w).length = (['%'.toUInt8] ++ flag.text ++ widthText w).length := by
    simp only [List.length_append, List.length_singleton]
    omega
  have hrun₃ := reswitch_long putch args memory (printfmt (vprintfmt putch depth)) (f₃ + 1)
    (s := ⟨1 + flag.text.length + (widthText w).length, 0, out⟩) (c := ⟨flag.padc, widthValue w, -1, 0, false⟩) hlong hplace
  dsimp only at hrun₃
  rw [Nat.zero_add] at hrun₃
  have hletter : (numberFormat flag w k conv).bytes =
      (['%'.toUInt8] ++ flag.text ++ widthText w) ++ List.replicate k 'l'.toUInt8 ++ conv.letter :: [] := hlong
  obtain ⟨ap, hrun₄⟩ := reswitch_number putch args memory (printfmt (vprintfmt putch depth)) f₃
    (s := ⟨1 + flag.text.length + (widthText w).length + k, 0, out⟩) (c := ⟨flag.padc, widthValue w, -1, k, false⟩) conv hletter
    (by rw [List.length_append, List.length_replicate, Nat.cast_add, ← hplace])
  refine ⟨_, vprintfmt_single hflag (hrun₁.trans (hrun₂.trans (hrun₃.trans hrun₄))) ?_, rfl⟩
  dsimp only
  omega

end Ucore.Libs
