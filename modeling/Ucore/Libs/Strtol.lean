import Ucore.Libs.FieldWidth
import Mathlib.Data.BitVec

/-!
# Numbers that are printed and read back

`strtol` of `libs/string.c`, and `vsnprintf` of `libs/printfmt.c`, which prints to a buffer.

* A string is read up to its terminator and not behind it: no test of `strtol` holds for a zero, and the second character is looked at
  only behind a `0`. The place where it stops is counted from the start of the string.
* The places in the buffer are counted from `str`. What does not fit is counted, but not stored.
* `strtol_snprintf`: the number that was printed is read back, and the whole text is read.
-/

namespace Ucore.Libs

open Ucore.Lib

/-! ### `strtol` -/

/-- The value of a digit or a letter. -/
def digitValue (c : UInt8) : Option ℤ :=
  if '0'.toUInt8 ≤ c ∧ c ≤ '9'.toUInt8 then some (c.toNat - ascii '0')
  else if 'a'.toUInt8 ≤ c ∧ c ≤ 'z'.toUInt8 then some (c.toNat - ascii 'a' + 10)
  else if 'A'.toUInt8 ≤ c ∧ c ≤ 'Z'.toUInt8 then some (c.toNat - ascii 'A' + 10)
  else none

/-- The loop over the digits, with the value and what is left of the string. -/
def strtolDigits (base : ℤ) : List UInt8 → BitVec 32 → BitVec 32 × List UInt8
  | [], val => (val, [])
  | c :: s, val =>
    match digitValue c with
    | none => (val, c :: s)
    | some dig =>
      if base ≤ dig then (val, c :: s) else strtolDigits base s (val * BitVec.ofInt 32 base + BitVec.ofInt 32 dig)

/-- The prefix of the base, and the base. -/
def strtolPrefix (base : ℤ) (s : List UInt8) : List UInt8 × ℤ :=
  if (base = 0 ∨ base = 16) ∧ s.head? = some '0'.toUInt8 ∧ s[1]? = some 'x'.toUInt8 then (s.drop 2, 16)
  else if base = 0 ∧ s.head? = some '0'.toUInt8 then (s.drop 1, 8)
  else if base = 0 then (s, 10)
  else (s, base)

/-- The value, and the place where it ends. Source: `libs/string.c` `strtol` -/
def strtol (s : CString) (base : ℤ) : BitVec 32 × ℕ :=
  let p := s.bytes.dropWhile fun c => c = ' '.toUInt8 ∨ c = '\t'.toUInt8
  let neg := p.head? = some '-'.toUInt8
  let p := if p.head? = some '+'.toUInt8 then p.drop 1 else if p.head? = some '-'.toUInt8 then p.drop 1 else p
  let p := strtolPrefix base p
  let r := strtolDigits p.2 p.1 0
  (if neg then -r.1 else r.1, s.strlen - r.2.length)

/-! ### `vsnprintf` -/

/-- Source: `libs/printfmt.c` `struct sprintbuf`, with the buffer -/
structure Sprintbuf where
  buf : ℕ
  ebuf : ℤ
  cnt : ℤ
  bytes : ℕ → UInt8

/-- The character that is stored for an `int`. -/
def charByte (ch : ℤ) : UInt8 := UInt8.ofNat (ch % 256).toNat

/-- Source: `libs/printfmt.c` `sprintputch` -/
def sprintputch (ch : ℤ) (b : Sprintbuf) : Sprintbuf :=
  let b := { b with cnt := int (b.cnt + 1) }
  if (b.buf : ℤ) < b.ebuf then { b with buf := b.buf + 1, bytes := Function.update b.bytes b.buf (charByte ch) } else b

/-- Source: `libs/error.h` `E_INVAL` -/
def eInval : ℤ := 3

/-- `null` says that `str` is `NULL`. Source: `libs/printfmt.c` `vsnprintf`, to which `snprintf` hands its arguments -/
def vsnprintf (depth : ℕ) (null : Bool) (size : ℕ) (fmt : CString) (args : ℕ → BitVec 32) (memory : BitVec 32 → CString) :
    PrintProg Sprintbuf ℤ := do
  Prog.modify fun s => { s with out := { s.out with buf := 0, ebuf := size - 1, cnt := 0 } }
  let s ← Prog.get
  if null = true ∨ s.out.ebuf < s.out.buf then pure (-eInval)
  else do
    vprintfmt sprintputch depth fmt args memory
    Prog.modify fun s => { s with out := { s.out with bytes := Function.update s.out.bytes s.out.buf 0 } }
    let s ← Prog.get
    pure s.out.cnt

/-! ### Reading a number -/

theorem charByte_digitChar {d : ℕ} (hd : d < 16) : digitValue (charByte (digitChar d)) = some (d : ℤ) ∧
    charByte (digitChar d) ∉ [0, ' '.toUInt8, '\t'.toUInt8, '+'.toUInt8, '-'.toUInt8, 'x'.toUInt8] := by
  have hall : ∀ d < 16, digitValue (charByte (digitChar d)) = some (d : ℤ) ∧
    charByte (digitChar d) ∉ [0, ' '.toUInt8, '\t'.toUInt8, '+'.toUInt8, '-'.toUInt8, 'x'.toUInt8] := by decide
  exact hall d hd

/-- The digits of a text are read to its end. -/
theorem strtolDigits_run {base : ℕ} (hbase : base ≤ 16) {ds : List ℕ} (hds : ∀ d ∈ ds, d < base) (val : BitVec 32) :
    strtolDigits base (ds.map fun d => charByte (digitChar d)) val =
      (ds.foldl (fun (v : BitVec 32) (d : ℕ) => v * (base : BitVec 32) + (d : BitVec 32)) val, []) := by
  induction ds generalizing val with
  | nil => rfl
  | cons d ds ih =>
    have hd := hds d List.mem_cons_self
    rw [List.map_cons, strtolDigits, (charByte_digitChar (hd.trans_le hbase)).1]
    dsimp only
    rw [if_neg (by omega), ih fun d hd => hds d (List.mem_cons_of_mem _ hd), BitVec.ofInt_natCast, BitVec.ofInt_natCast]
    rfl

/-- A number behind a sign is read to its end. -/
theorem strtol_numeral {base n : ℕ} (hbase : 2 ≤ base) (hbase' : base ≤ 16) (neg : Bool) {t : CString}
    (ht : t.bytes = (if neg = true then ['-'.toUInt8] else []) ++ (numeral base n).map fun d => charByte (digitChar d)) :
    strtol t base = (if neg = true then -(n : BitVec 32) else n, t.strlen) := by
  have hds : ∀ d ∈ numeral base n, d < base := fun d hd => lt_of_mem_numeral hbase hd
  obtain ⟨d₀, ds, hnum⟩ := List.exists_cons_of_ne_nil (numeral_ne_nil base n)
  have hread : strtolDigits base ((numeral base n).map fun d => charByte (digitChar d)) 0 = ((n : BitVec 32), []) := by
    rw [strtolDigits_run hbase' hds, foldl_numeral]
  have hfirst := (charByte_digitChar ((hds d₀ (hnum ▸ List.mem_cons_self)).trans_le hbase')).2
  -- There is no prefix, as no digit is an `x`.
  have hprefix : strtolPrefix base ((numeral base n).map fun d => charByte (digitChar d)) =
      ((numeral base n).map fun d => charByte (digitChar d), (base : ℤ)) := by
    have hx : ((numeral base n).map fun d => charByte (digitChar d))[1]? ≠ some 'x'.toUInt8 := fun hx => by
      obtain ⟨d, hd, hdx⟩ := List.mem_map.mp (List.mem_of_getElem? hx)
      have hd16 := (charByte_digitChar ((hds d hd).trans_le hbase')).2
      rw [hdx] at hd16
      exact hd16 (by decide)
    rw [strtolPrefix, if_neg fun h => hx h.2.2, if_neg (by omega), if_neg (by omega)]
  generalize htext : ((numeral base n).map fun d => charByte (digitChar d)) = text at ht hread hprefix
  have hhead : text.head? = some (charByte (digitChar d₀)) := by rw [← htext, hnum]; rfl
  have hne : text.head? ≠ some '+'.toUInt8 ∧ text.head? ≠ some '-'.toUInt8 := by
    rw [hhead]
    refine ⟨fun h => hfirst ?_, fun h => hfirst ?_⟩ <;> rw [Option.some.inj h] <;> decide
  have htail : text = charByte (digitChar d₀) :: ds.map fun d => charByte (digitChar d) := by rw [← htext, hnum]; rfl
  cases neg with
  | false =>
    rw [if_neg Bool.false_ne_true, List.nil_append] at ht
    have hblank : t.bytes.dropWhile (fun c => c = ' '.toUInt8 ∨ c = '\t'.toUInt8) = text := by
      rw [ht, htail, List.dropWhile_cons_of_neg]
      rw [decide_eq_true_eq, not_or]
      refine ⟨fun h => hfirst ?_, fun h => hfirst ?_⟩ <;> rw [h] <;> decide
    have hsign : (if text.head? = some '+'.toUInt8 then text.drop 1
        else if text.head? = some '-'.toUInt8 then text.drop 1 else text) = text := by
      rw [if_neg hne.1, if_neg hne.2]
    rw [strtol, hblank, hsign, hprefix, hread, if_neg hne.2, if_neg Bool.false_ne_true]
    rfl
  | true =>
    rw [if_pos rfl, List.singleton_append] at ht
    have hblank : t.bytes.dropWhile (fun c => c = ' '.toUInt8 ∨ c = '\t'.toUInt8) = '-'.toUInt8 :: text := by
      rw [ht, List.dropWhile_cons_of_neg (by decide)]
    have hplus : ('-'.toUInt8 :: text).head? ≠ some '+'.toUInt8 := fun h => absurd (Option.some.inj h) (by decide)
    have hminus : ('-'.toUInt8 :: text).head? = some '-'.toUInt8 := rfl
    have hsign : (if ('-'.toUInt8 :: text).head? = some '+'.toUInt8 then ('-'.toUInt8 :: text).drop 1
        else if ('-'.toUInt8 :: text).head? = some '-'.toUInt8 then ('-'.toUInt8 :: text).drop 1 else '-'.toUInt8 :: text) = text := by
      rw [if_neg hplus, if_pos hminus]
      rfl
    rw [strtol, hblank, hsign, hprefix, hread, if_pos hminus, if_pos rfl]
    rfl

/-! ### Printing to a buffer -/

/-- What characters leave in a buffer: they are counted, and stored as far as there is room. -/
theorem emits_sprintputch (chars : List ℤ) {b : Sprintbuf} (hcnt : b.cnt = int b.cnt) :
    (emits sprintputch chars b).cnt = int (b.cnt + chars.length) ∧
      (b.buf + chars.length ≤ b.ebuf → (emits sprintputch chars b).buf = b.buf + chars.length ∧
        (∀ k < b.buf, (emits sprintputch chars b).bytes k = b.bytes k) ∧
        ∀ k < chars.length, (emits sprintputch chars b).bytes (b.buf + k) = charByte (chars.getD k 0)) := by
  induction chars generalizing b with
  | nil => exact ⟨by rw [List.length_nil, Nat.cast_zero, add_zero]; exact hcnt, fun _ => ⟨rfl, fun k _ => rfl, fun k hk => by cases hk⟩⟩
  | cons ch chars ih =>
    have hput : (sprintputch ch b).cnt = int (b.cnt + 1) := by
      rw [sprintputch]
      dsimp only
      split_ifs <;> rfl
    obtain ⟨hcnt', hbytes⟩ := ih (b := sprintputch ch b) (by rw [hput, int_int])
    rw [emits_cons, List.length_cons]
    refine ⟨?_, fun hroom => ?_⟩
    · rw [hcnt', hput, int, int, Int.bmod_add_bmod, int]
      congr 1
      omega
    · have hlt : (b.buf : ℤ) < b.ebuf := by omega
      have hstore : sprintputch ch b = ⟨b.buf + 1, b.ebuf, int (b.cnt + 1), Function.update b.bytes b.buf (charByte ch)⟩ := by
        rw [sprintputch]
        dsimp only
        rw [if_pos hlt]
      rw [hstore] at hbytes ⊢
      dsimp only at hbytes
      obtain ⟨hbuf, hbefore, hafter⟩ := hbytes (by omega)
      refine ⟨by rw [hbuf]; omega, fun k hk => ?_, fun k hk => ?_⟩
      · rw [hbefore k (by omega), Function.update_of_ne hk.ne]
      · cases k with
        | zero => exact (hbefore b.buf (Nat.lt_succ_self _)).trans (Function.update_self ..)
        | succ k =>
          have hk' := hafter k (Nat.lt_of_succ_lt_succ hk)
          rw [Nat.add_assoc, Nat.add_comm 1] at hk'
          rw [hk']
          rfl

/-- The text of a number, as bytes. -/
def numberString (conv : NumberConversion) (v : ℤ) : CString where
  bytes := (if v < 0 then ['-'.toUInt8] else []) ++ (numeral conv.base v.natAbs).map fun d => charByte (digitChar d)
  nul_free b hb := by
    rcases List.mem_append.mp hb with hb | hb
    · split_ifs at hb
      · rw [List.mem_singleton.mp hb]
        decide
      · cases hb
    · obtain ⟨d, hd, rfl⟩ := List.mem_map.mp hb
      have hbase : conv.base ≤ 16 := by cases conv <;> decide
      exact fun h => (charByte_digitChar ((lt_of_mem_numeral conv.two_le_base hd).trans_le hbase)).2 (by rw [h]; decide)

theorem numberString_bytes (conv : NumberConversion) (v : ℤ) :
    (numberString conv v).bytes = (sign v ++ digits conv.base v).map charByte := by
  rw [List.map_append, digits, List.map_map]
  show _ ++ _ = _ ++ _
  congr 1
  rw [sign]
  split_ifs <;> rfl

/-- What a conversion reads from a word, as a word. -/
theorem ofInt_value (conv : NumberConversion) (args : ℕ → BitVec 32) : BitVec.ofInt 32 (conv.value args 0 0) = args 0 := by
  cases conv with
  | signed => exact BitVec.ofInt_toInt
  | unsigned => exact (BitVec.ofInt_natCast ..).trans (by rw [BitVec.ofNat_toNat, BitVec.setWidth_eq])
  | octal => exact (BitVec.ofInt_natCast ..).trans (by rw [BitVec.ofNat_toNat, BitVec.setWidth_eq])
  | hex => exact (BitVec.ofInt_natCast ..).trans (by rw [BitVec.ofNat_toNat, BitVec.setWidth_eq])

/-- The text of a number is read back. -/
theorem strtol_numberString (conv : NumberConversion) (v : ℤ) :
    strtol (numberString conv v) conv.base = (BitVec.ofInt 32 v, (numberString conv v).strlen) := by
  have hbase : conv.base ≤ 16 := by cases conv <;> decide
  have hbytes : (numberString conv v).bytes = (if decide (v < 0) = true then ['-'.toUInt8] else []) ++
      (numeral conv.base v.natAbs).map fun d => charByte (digitChar d) := by
    simp only [decide_eq_true_eq]
    rfl
  have hcast : ((v.natAbs : ℕ) : BitVec 32) = BitVec.ofInt 32 v.natAbs := (BitVec.ofInt_natCast ..).symm
  rw [strtol_numeral conv.two_le_base hbase (decide (v < 0)) hbytes, hcast]
  congr 1
  by_cases hneg : v < 0
  · rw [if_pos (decide_eq_true hneg), ← BitVec.ofInt_neg]
    congr 1
    omega
  · rw [if_neg (by simpa using hneg)]
    congr 1
    omega

/-- A number has at most eleven characters. -/
theorem strlen_numberString_le (conv : NumberConversion) (args : ℕ → BitVec 32) :
    (numberString conv (conv.value args 0 0)).strlen ≤ 11 := by
  have hlen : ∀ v k, 0 < k → v.natAbs < conv.base ^ k → (numberString conv v).strlen ≤ (if v < 0 then 1 else 0) + k := fun v k hk hv => by
    have hnum := length_numeral_le conv.two_le_base hk hv
    rw [CString.strlen, numberString, List.length_append, List.length_map]
    split_ifs
    · exact Nat.add_le_add_left hnum 1
    · exact Nat.add_le_add_left hnum 0
  have hword := (args 0).isLt
  have hlow := (args 0).le_toInt
  have hhigh := (args 0).toInt_lt
  have hunsigned : ∀ k, 0 < k → k ≤ 11 → (args 0).toNat < conv.base ^ k → (numberString conv (args 0).toNat).strlen ≤ 11 :=
    fun k hk hle hv => by
    have h := hlen (args 0).toNat k hk hv
    rw [if_neg (by omega)] at h
    omega
  cases conv with
  | signed =>
    have hvalue : NumberConversion.signed.value args 0 0 = (args 0).toInt := rfl
    rw [hvalue]
    have h := hlen (args 0).toInt 10 (by decide) (by simp only [NumberConversion.base]; omega)
    split_ifs at h <;> omega
  | unsigned => exact hunsigned 10 (by decide) (by decide) (by simp only [NumberConversion.base]; omega)
  | octal => exact hunsigned 11 (by decide) (by decide) (by simp only [NumberConversion.base]; omega)
  | hex => exact hunsigned 8 (by decide) (by decide) (by simp only [NumberConversion.base]; omega)

/-- The format of a conversion without a flag, a width or an `l`. -/
def plainFormat (conv : NumberConversion) : CString := numberFormat .spaces 0 0 conv

/-- Without a width there is no padding. -/
theorem numberText_plain (conv : NumberConversion) (args : ℕ → BitVec 32) (padc : ℤ) :
    numberText conv.base (conv.value args 0 0).natAbs (widthValue 0) padc = digits conv.base (conv.value args 0 0) := by
  have hlen := length_digits_le conv args 0 0
  rw [numberText, widthValue, if_pos rfl, toNat_int_of_nonpos (by omega) (by omega)]
  rfl

/-- **`vsnprintf`** of a number returns its length, and stores it when there is room for it. -/
theorem vsnprintf_run (depth : ℕ) (conv : NumberConversion) (args : ℕ → BitVec 32) (memory : BitVec 32 → CString) {size : ℕ}
    (b : Sprintbuf) (hsize : 0 < size) :
    ∃ s, (vsnprintf (depth + 1) false size (plainFormat conv) args memory).run (Printer.start b) =
        .ok (numberString conv (conv.value args 0 0)).strlen s ∧
      ((numberString conv (conv.value args 0 0)).strlen < size →
        CString.ofBuffer s.out.bytes size = numberString conv (conv.value args 0 0)) := by
  have hbytes := numberString_bytes conv (conv.value args 0 0)
  have hle := strlen_numberString_le conv args
  obtain ⟨s, hrun, hout⟩ := vprintfmt_number sprintputch depth .spaces 0 0 conv args memory { b with buf := 0, ebuf := size - 1, cnt := 0 }
  rw [numberText_plain] at hout
  generalize numberString conv (conv.value args 0 0) = t at hbytes hle ⊢
  generalize sign (conv.value args 0 0) ++ digits conv.base (conv.value args 0 0) = chars at hbytes hout
  have hlen : chars.length = t.strlen := by rw [CString.strlen, hbytes, List.length_map]
  obtain ⟨hcnt, hstored⟩ := emits_sprintputch chars (b := { b with buf := 0, ebuf := size - 1, cnt := 0 }) rfl
  rw [← hout] at hcnt hstored
  dsimp only at hcnt hstored
  rw [hlen, zero_add] at hcnt
  have hcnt' : s.out.cnt = t.strlen := by
    rw [hcnt, int, Int.bmod_eq_of_le (by omega) (by omega)]
  refine ⟨{ s with out := { s.out with bytes := Function.update s.out.bytes s.out.buf 0 } }, ?_, fun hlt => ?_⟩
  · rw [vsnprintf, Prog.bind_of_ok (Prog.run_modify ..), Prog.bind_of_ok (Prog.run_get _)]
    dsimp only
    rw [if_neg (by rw [Bool.false_eq_true, false_or]; omega)]
    refine (Prog.bind_of_ok hrun).trans ?_
    rw [Prog.bind_of_ok (Prog.run_modify ..), Prog.bind_of_ok (Prog.run_get _), ← hcnt']
    rfl
  · obtain ⟨hbuf, -, hchars⟩ := hstored (by omega)
    rw [hlen, Nat.zero_add] at hbuf
    refine CString.ofBuffer_eq hlt.le (fun k hk => ?_) fun _ => ?_
    · have hk' := hchars k (by omega)
      rw [Nat.zero_add] at hk'
      dsimp only
      rw [hbuf, Function.update_of_ne hk.ne, hk', hbytes]
      exact (List.getD_map (d := (0 : ℤ)) ..).symm
    · dsimp only
      rw [hbuf, Function.update_self]

/-- **Numbers are read back.** The buffer is large enough when what is returned is less than its size. The divisions do not fault. -/
theorem strtol_snprintf (depth : ℕ) (conv : NumberConversion) (args : ℕ → BitVec 32) (memory : BitVec 32 → CString) (size : ℕ)
    (b : Sprintbuf) (hsize : 0 < size) :
    (∃ (len : ℕ) (s : Printer Sprintbuf), (vsnprintf (depth + 1) false size (plainFormat conv) args memory).run (Printer.start b) =
        .ok len s ∧ len ≤ 11 ∧ (len < size → (CString.ofBuffer s.out.bytes size).strlen = len ∧
          strtol (CString.ofBuffer s.out.bytes size) conv.base = (args 0, len))) ∧
      ∀ (num : BitVec 64) (base : BitVec 32), base ≠ 0 →
        (num.toNat / 2 ^ 32 % base.toNat * 2 ^ 32 + num.toNat % 2 ^ 32) / base.toNat < 2 ^ 32 ∧
          (doDiv num base).run (Printer.start b) =
            .ok (BitVec.ofNat 64 (num.toNat / base.toNat), BitVec.ofNat 32 (num.toNat % base.toNat)) (Printer.start b) := by
  refine ⟨?_, fun num base hbase => ⟨?_, doDiv_run num hbase⟩⟩
  · obtain ⟨s, hrun, hstored⟩ := vsnprintf_run depth conv args memory b hsize
    refine ⟨_, s, hrun, strlen_numberString_le conv args, fun hlt => ?_⟩
    rw [hstored hlt, strtol_numberString, ofInt_value]
    exact ⟨rfl, rfl⟩
  · exact second_quotient_lt (Nat.pos_of_ne_zero fun h => hbase (BitVec.eq_of_toNat_eq h)) (Nat.mod_lt _ (by decide))

/-- The smallest number. -/
theorem strtol_snprintf_smallest : ∃ (len : ℕ) (s : Printer Sprintbuf),
    (vsnprintf 2 false 12 (plainFormat .signed) (fun _ => 0x80000000) fun _ => literal "").run
        (Printer.start ⟨0, 0, 0, fun _ => 0⟩) = .ok len s ∧
      strtol (CString.ofBuffer s.out.bytes 12) 10 = (0x80000000, len) := by
  obtain ⟨⟨len, s, hrun, hlen, hread⟩, -⟩ := strtol_snprintf 1 .signed (fun _ => 0x80000000) (fun _ => literal "") 12
    ⟨0, 0, 0, fun _ => 0⟩ (by decide)
  exact ⟨len, s, hrun, (hread (by omega)).2⟩

end Ucore.Libs
