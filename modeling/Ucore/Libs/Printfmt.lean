import Ucore.Lib.Prog
import Ucore.Lib.CString
import Ucore.Lib.Digits

/-!
# Formatted output

`vprintfmt` of `libs/printfmt.c`, with what it calls.

* A format is a `CString`, and `fmt` is the place in it. To read before its start or behind its terminator is a panic, and so is a
  division in `do_div` whose quotient does not fit.
* The arguments are the words on the stack, and `memory` has the string that a pointer points to.
* An `int` is an integer that `int` wraps. `lflag` counts characters of the format, so it does not overflow.
* `putch` changes a state of its own, which `vprintfmt` hands on.
-/

namespace Ucore.Libs

open Ucore.Lib

/-- Where `vprintfmt` may go wrong: it reads outside of the format, a division faults, a loop has not ended, or a call of `printfmt`
calls it again. -/
inductive PrintPanic where
  | format | divide | loop | nested
  deriving Repr, DecidableEq

/-- `fmt`, `ap` and the state of `putch`. -/
structure Printer (σ : Type) where
  fmt : ℤ
  ap : ℕ
  out : σ

abbrev PrintProg (σ : Type) := Prog PrintPanic Empty (Printer σ)

/-- The value of an `int`. -/
def int (n : ℤ) : ℤ := n.bmod (2 ^ 32)

/-- The value of an `unsigned char`. -/
def ascii (c : Char) : ℤ := c.toNat

/-- A string of the source. -/
def literal (s : String) : CString := ⟨(s.toList.map Char.toUInt8).filter (· ≠ 0), fun _ hb => by simpa using (List.mem_filter.mp hb).2⟩

section print

variable {σ : Type} (putch : ℤ → σ → σ)

/-- A call of `putch`. -/
def emit (ch : ℤ) : PrintProg σ Unit := Prog.modify fun s => { s with out := putch ch s.out }

/-! ### Numbers -/

/-- The quotient and the remainder. Source: `libs/x86.h` `do_div` -/
def doDiv (n : BitVec 64) (base : BitVec 32) : PrintProg σ (BitVec 64 × BitVec 32) :=
  let low : BitVec 32 := n.setWidth 32
  let high : BitVec 32 := (n >>> 32).setWidth 32
  let upper := if high ≠ 0 then high % base else high
  let high := if high ≠ 0 then high / base else high
  let dividend := upper.toNat * 2 ^ 32 + low.toNat
  -- `divl` faults when the quotient does not fit in a register.
  if base = 0 ∨ 2 ^ 32 ≤ dividend / base.toNat then Prog.stop .divide
  else pure (high ++ BitVec.ofNat 32 (dividend / base.toNat), BitVec.ofNat 32 (dividend % base.toNat))

/-- `"0123456789abcdef"[mod]` -/
def digitChar (mod : ℕ) : ℤ := ascii ("0123456789abcdef".toList.getD mod '\x00')

/-- The loop `for (; width > 0; width --) putch(padc)`, with the width that it leaves. -/
def padding (padc : ℤ) : ℕ → ℤ → PrintProg σ ℤ
  | 0, _ => Prog.stop .loop
  | fuel + 1, width =>
    if 0 < width then do
      emit putch padc
      padding padc fuel (width - 1)
    else pure width

/-- The same, where the width is not used any more. -/
def pad (padc width : ℤ) : PrintProg σ Unit := do
  let _ ← padding putch padc (width.toNat + 1) width
  pure ()

/-- Source: `libs/printfmt.c` `printnum` -/
def printnum : ℕ → BitVec 64 → BitVec 32 → ℤ → ℤ → PrintProg σ Unit
  | 0, _, _, _, _ => Prog.stop .loop
  | fuel + 1, num, base, width, padc => do
    let result ← doDiv num base
    let before := if base.setWidth 64 ≤ num then printnum fuel result.1 base (int (width - 1)) padc else pad putch padc (int (width - 1))
    before
    emit putch (digitChar result.2.toNat)

variable (args : ℕ → BitVec 32)

/-- The next word of the arguments. -/
def vaArg : PrintProg σ (BitVec 32) := do
  let s ← Prog.get
  Prog.modify fun s => { s with ap := s.ap + 1 }
  pure (args s.ap)

/-- Source: `libs/printfmt.c` `getuint` -/
def getuint (lflag : ℕ) : PrintProg σ (BitVec 64) :=
  if 2 ≤ lflag then do
    let low ← vaArg args
    let high ← vaArg args
    pure (high ++ low)
  else do
    let word ← vaArg args
    pure (word.setWidth 64)

/-- Source: `libs/printfmt.c` `getint` -/
def getint (lflag : ℕ) : PrintProg σ (BitVec 64) :=
  if 2 ≤ lflag then do
    let low ← vaArg args
    let high ← vaArg args
    pure (high ++ low)
  else do
    let word ← vaArg args
    pure (word.signExtend 64)

/-! ### Strings -/

/-- The variables of a conversion. -/
structure Conversion where
  padc : ℤ
  width : ℤ
  precision : ℤ
  lflag : ℕ
  altflag : Bool
  deriving Repr, DecidableEq

/-- What they are after a `%`. -/
def Conversion.start : Conversion := ⟨ascii ' ', -1, -1, 0, false⟩

/-- Source: `libs/string.c` `strnlen` -/
def strnlen (s : CString) (len : ℕ) : ℕ := (s.cut len).strlen

/-- The value of a `char`. -/
def charValue (b : UInt8) : ℤ := b.toBitVec.toInt

/-- The loop over the characters of a string, with the width that it leaves. -/
def putString (altflag : Bool) : List UInt8 → ℤ → ℤ → PrintProg σ ℤ
  | [], _, width => pure width
  | b :: p, precision, width =>
    if precision < 0 ∨ 0 ≤ precision - 1 then do
      emit putch (if altflag = true ∧ (charValue b < ascii ' ' ∨ ascii '~' < charValue b) then ascii '?' else charValue b)
      putString altflag p (if precision < 0 then precision else precision - 1) (int (width - 1))
    else pure width

/-- What is printed before a string, with the width that it leaves. -/
def padLeft (c : Conversion) (p : CString) : PrintProg σ ℤ :=
  if 0 < c.width ∧ c.padc ≠ ascii '-' then
    let width := int (c.width - strnlen p (c.precision % 2 ^ 32).toNat)
    padding putch c.padc (width.toNat + 1) width
  else pure c.width

/-- The case `s`. -/
def stringConversion (c : Conversion) (p : CString) : PrintProg σ Unit := do
  let width ← padLeft putch c p
  let width ← putString putch c.altflag p.bytes c.precision width
  pad putch (ascii ' ') width

/-! ### Errors -/

/-- Source: `libs/error.h` `MAXERROR` -/
def maxError : ℤ := 24

/-- Source: `libs/printfmt.c` `error_string` -/
def errorString : List (Option CString) :=
  [none, some (literal "unspecified error"), some (literal "bad process"), some (literal "invalid parameter"),
    some (literal "out of memory"), some (literal "out of processes"), some (literal "segmentation fault"), none,
    some (literal "invalid elf file"), some (literal "process is killed"), some (literal "panic failure"), none, none,
    some (literal "no such device"), some (literal "device not available"), some (literal "device/file is busy"),
    some (literal "no such file or directory"), some (literal "is a directory"), some (literal "not a directory"),
    some (literal "cross device link"), some (literal "unimplemented feature"), some (literal "illegal seek"),
    some (literal "too many files are open"), some (literal "file or directory already exists"),
    some (literal "directory is not empty")]

variable (printfmt : CString → BitVec 32 → (BitVec 32 → CString) → PrintProg σ Unit)

/-- The case `e`. The most negative number is its own negation, and the entry that it leads to is the first one, as addresses
have 32 bits. -/
def errorConversion (word : BitVec 32) : PrintProg σ Unit :=
  let err := if word.toInt < 0 then -word else word
  match if maxError < err.toInt then none else errorString.getD ((4 * err).toNat / 4) none with
  | none => printfmt (literal "error %d") err fun _ => literal ""
  | some p => printfmt (literal "%s") 1 fun _ => p

/-! ### The format -/

variable (fmt : CString) (memory : BitVec 32 → CString)

/-- The character of the format at a place. -/
def readFmt (i : ℤ) : PrintProg σ UInt8 :=
  if i < 0 ∨ fmt.strlen < i then Prog.stop .format else pure (fmt.bytes.getD i.toNat 0)

/-- `*(unsigned char *)fmt ++` -/
def nextFmt : PrintProg σ UInt8 := do
  let s ← Prog.get
  let ch ← readFmt fmt s.fmt
  Prog.modify fun s => { s with fmt := s.fmt + 1 }
  pure ch

/-- The cases of the switch. -/
inductive Directive where
  | minus | zero | digit | star | dot | sharp | long
  | char | error | string | signed | unsigned | octal | pointer | hex | percent | unknown
  deriving Repr, DecidableEq

/-- The case for a character. -/
def directive (ch : UInt8) : Directive :=
  if ch = '-'.toUInt8 then .minus
  else if ch = '0'.toUInt8 then .zero
  else if '1'.toUInt8 ≤ ch ∧ ch ≤ '9'.toUInt8 then .digit
  else if ch = '*'.toUInt8 then .star
  else if ch = '.'.toUInt8 then .dot
  else if ch = '#'.toUInt8 then .sharp
  else if ch = 'l'.toUInt8 then .long
  else if ch = 'c'.toUInt8 then .char
  else if ch = 'e'.toUInt8 then .error
  else if ch = 's'.toUInt8 then .string
  else if ch = 'd'.toUInt8 then .signed
  else if ch = 'u'.toUInt8 then .unsigned
  else if ch = 'o'.toUInt8 then .octal
  else if ch = 'p'.toUInt8 then .pointer
  else if ch = 'x'.toUInt8 then .hex
  else if ch = '%'.toUInt8 then .percent
  else .unknown

/-- The loop of the width field. -/
def widthField : ℕ → ℤ → UInt8 → PrintProg σ ℤ
  | 0, _, _ => Prog.stop .loop
  | fuel + 1, precision, ch => do
    let precision := int (precision * 10 + ch.toNat - ascii '0')
    let s ← Prog.get
    -- A `char` here: the characters from 128 on are below `'0'`, and end the loop either way.
    let ch ← readFmt fmt s.fmt
    if ch < '0'.toUInt8 ∨ '9'.toUInt8 < ch then pure precision
    else do
      Prog.modify fun s => { s with fmt := s.fmt + 1 }
      widthField fuel precision ch

/-- `process_precision` -/
def Conversion.processPrecision (c : Conversion) (precision : ℤ) : Conversion :=
  if c.width < 0 then { c with width := precision, precision := -1 } else { c with precision := precision }

/-- `number` -/
def number (c : Conversion) (num : BitVec 64) (base : BitVec 32) : PrintProg σ Unit := printnum putch 65 num base c.width c.padc

/-- `for (fmt --; fmt[-1] != '%'; fmt --)`, from its test on. -/
def backToPercent : ℕ → PrintProg σ Unit
  | 0 => Prog.stop .loop
  | fuel + 1 => do
    let s ← Prog.get
    let ch ← readFmt fmt (s.fmt - 1)
    if ch = '%'.toUInt8 then pure ()
    else do
      Prog.modify fun s => { s with fmt := s.fmt - 1 }
      backToPercent fuel

/-- The switch, from `reswitch` on. -/
def reswitch : ℕ → Conversion → PrintProg σ Unit
  | 0, _ => Prog.stop .loop
  | fuel + 1, c => do
    let ch ← nextFmt fmt
    match directive ch with
    | .minus => reswitch fuel { c with padc := ascii '-' }
    | .zero => reswitch fuel { c with padc := ascii '0' }
    | .digit => do
      let precision ← widthField fmt (fmt.strlen + 2) 0 ch
      reswitch fuel (c.processPrecision precision)
    | .star => do
      let word ← vaArg args
      reswitch fuel (c.processPrecision word.toInt)
    | .dot => reswitch fuel (if c.width < 0 then { c with width := 0 } else c)
    | .sharp => reswitch fuel { c with altflag := true }
    | .long => reswitch fuel { c with lflag := c.lflag + 1 }
    | .char => do
      let word ← vaArg args
      emit putch word.toInt
    | .error => do
      let word ← vaArg args
      errorConversion printfmt word
    | .string => do
      let p ← vaArg args
      stringConversion putch c (if p = 0 then literal "(null)" else memory p)
    | .signed => do
      let num ← getint args c.lflag
      if num.toInt < 0 then do
        emit putch (ascii '-')
        number putch c (-num) 10
      else number putch c num 10
    | .unsigned => do
      let num ← getuint args c.lflag
      number putch c num 10
    | .octal => do
      let num ← getuint args c.lflag
      number putch c num 8
    | .pointer => do
      emit putch (ascii '0')
      emit putch (ascii 'x')
      let p ← vaArg args
      number putch c (p.setWidth 64) 16
    | .hex => do
      let num ← getuint args c.lflag
      number putch c num 16
    | .percent => emit putch ch.toNat
    | .unknown => do
      emit putch (ascii '%')
      Prog.modify fun s => { s with fmt := s.fmt - 1 }
      backToPercent fmt (fmt.strlen + 1)

/-- The characters up to a `%`, or to the end of the format. -/
def plainText : ℕ → PrintProg σ Bool
  | 0 => Prog.stop .loop
  | fuel + 1 => do
    let ch ← nextFmt fmt
    if ch = '%'.toUInt8 then pure true
    else if ch = 0 then pure false
    else do
      emit putch ch.toNat
      plainText fuel

/-- The loop over the conversions. -/
def printLoop : ℕ → PrintProg σ Unit
  | 0 => Prog.stop .loop
  | fuel + 1 => do
    let more ← plainText putch fmt (fmt.strlen + 1)
    if more = true then do
      reswitch putch args printfmt fmt memory (fmt.strlen + 2) Conversion.start
      printLoop fuel
    else pure ()

end print

variable {σ : Type}

/-- The state in which `vprintfmt` is called. -/
def Printer.start (out : σ) : Printer σ := ⟨0, 0, out⟩

/-- A call of `vprintfmt` for a format with one argument. Source: `libs/printfmt.c` `printfmt` -/
def printfmt (vprintfmt : CString → (ℕ → BitVec 32) → (BitVec 32 → CString) → PrintProg σ Unit) (fmt : CString) (arg : BitVec 32)
    (memory : BitVec 32 → CString) : PrintProg σ Unit :=
  (vprintfmt fmt (fun _ => arg) memory).zoom (fun s => Printer.start s.out) (fun s' s => { s with out := s'.out }) id

/-- Calls of `printfmt` may be nested `depth` deep. Source: `libs/printfmt.c` `vprintfmt` -/
def vprintfmt (putch : ℤ → σ → σ) : ℕ → CString → (ℕ → BitVec 32) → (BitVec 32 → CString) → PrintProg σ Unit
  | 0, _, _, _ => Prog.stop .nested
  | depth + 1, fmt, args, memory => printLoop putch args (printfmt (vprintfmt putch depth)) fmt memory (fmt.strlen + 1)

/-! ### What numbers print -/

/-- What calls of `putch` leave. -/
def emits (putch : ℤ → σ → σ) (chars : List ℤ) (out : σ) : σ := chars.foldl (fun out ch => putch ch out) out

section runs

variable {putch : ℤ → σ → σ} {s : Printer σ}

@[simp] theorem emits_nil (out : σ) : emits putch [] out = out := rfl

@[simp] theorem emits_cons (ch : ℤ) (chars : List ℤ) (out : σ) : emits putch (ch :: chars) out = emits putch chars (putch ch out) := rfl

@[simp] theorem emits_append (chars chars' : List ℤ) (out : σ) :
    emits putch (chars ++ chars') out = emits putch chars' (emits putch chars out) := List.foldl_append

theorem emit_run (ch : ℤ) : (emit putch ch).run s = .ok () { s with out := putch ch s.out } := rfl

/-- The high half divided by the base leaves a rest below it, so the quotient of the second division fits. -/
theorem second_quotient_lt {high low base : ℕ} (hbase : 0 < base) (hlow : low < 2 ^ 32) :
    (high % base * 2 ^ 32 + low) / base < 2 ^ 32 := by
  rw [Nat.div_lt_iff_lt_mul hbase]
  have hmod := Nat.mod_lt high hbase
  nlinarith

/-- The two divisions are a division. -/
theorem two_divisions {n high low base : ℕ} (hbase : 0 < base) (hn : n = high * 2 ^ 32 + low) :
    n / base = high / base * 2 ^ 32 + (high % base * 2 ^ 32 + low) / base ∧ n % base = (high % base * 2 ^ 32 + low) % base := by
  have hsplit : n = high % base * 2 ^ 32 + low + high / base * 2 ^ 32 * base := by
    have := Nat.div_add_mod high base
    calc n = (base * (high / base) + high % base) * 2 ^ 32 + low := by rw [this, hn]
      _ = high % base * 2 ^ 32 + low + high / base * 2 ^ 32 * base := by ring
  rw [hsplit, Nat.add_mul_div_right _ _ hbase, Nat.add_mul_mod_self_right]
  exact ⟨Nat.add_comm _ _, rfl⟩

theorem toNat_append (x y : BitVec 32) : (x ++ y).toNat = x.toNat * 2 ^ 32 + y.toNat := by
  rw [BitVec.toNat_append, ← Nat.shiftLeft_add_eq_or_of_lt y.isLt, Nat.shiftLeft_eq]

/-- **`do_div`** divides, and does not fault. -/
theorem doDiv_run (n : BitVec 64) {base : BitVec 32} (hbase : base ≠ 0) :
    (doDiv n base).run s = .ok (BitVec.ofNat 64 (n.toNat / base.toNat), BitVec.ofNat 32 (n.toNat % base.toNat)) s := by
  have hpos : 0 < base.toNat := Nat.pos_of_ne_zero fun h => hbase (BitVec.eq_of_toNat_eq h)
  have hlow : (n.setWidth 32).toNat = n.toNat % 2 ^ 32 := BitVec.toNat_setWidth ..
  have hhigh : ((n >>> 32).setWidth 32).toNat = n.toNat / 2 ^ 32 := by
    rw [BitVec.toNat_setWidth, BitVec.toNat_ushiftRight, Nat.shiftRight_eq_div_pow]
    exact Nat.mod_eq_of_lt (Nat.div_lt_of_lt_mul n.isLt)
  rw [doDiv]
  generalize n.setWidth 32 = low at hlow
  generalize (n >>> 32).setWidth 32 = high at hhigh
  -- For a high half of zero the first division is left out.
  have hupper : (if high ≠ 0 then high % base else high) = high % base := by
    split_ifs with h
    · rfl
    · rw [not_not.mp h]
      exact BitVec.zero_umod.symm
  have hquot : (if high ≠ 0 then high / base else high) = high / base := by
    split_ifs with h
    · rfl
    · rw [not_not.mp h]
      exact BitVec.zero_udiv.symm
  have hhalves : n.toNat = high.toNat * 2 ^ 32 + low.toNat := by omega
  obtain ⟨hdiv, hmod⟩ := two_divisions hpos hhalves
  have hfits : (high.toNat % base.toNat * 2 ^ 32 + low.toNat) / base.toNat < 2 ^ 32 := second_quotient_lt hpos low.isLt
  have hresult : (high / base ++ BitVec.ofNat 32 ((high.toNat % base.toNat * 2 ^ 32 + low.toNat) / base.toNat) : BitVec 64) =
      BitVec.ofNat 64 (n.toNat / base.toNat) := by
    apply BitVec.eq_of_toNat_eq
    rw [toNat_append, BitVec.toNat_ofNat, BitVec.toNat_ofNat, Nat.mod_eq_of_lt hfits,
      Nat.mod_eq_of_lt ((Nat.div_le_self _ _).trans_lt n.isLt), BitVec.toNat_udiv, hdiv]
  rw [hupper, hquot, BitVec.toNat_umod, if_neg (not_or.mpr ⟨hbase, not_le.mpr hfits⟩), hresult, ← hmod]
  rfl

theorem int_sub (m n : ℤ) : int (int m - n) = int (m - n) := Int.bmod_sub_bmod

theorem padding_run {padc : ℤ} {fuel : ℕ} {width : ℤ} (hfuel : width.toNat < fuel) :
    (padding putch padc fuel width).run s =
      .ok (min width 0) { s with out := emits putch (List.replicate width.toNat padc) s.out } := by
  induction fuel generalizing s width with
  | zero => cases hfuel
  | succ fuel ih =>
    rw [padding]
    by_cases hpos : 0 < width
    · obtain ⟨k, rfl⟩ : ∃ k : ℕ, width = k + 1 := ⟨(width - 1).toNat, by omega⟩
      have hk : ((k : ℤ) + 1).toNat = k + 1 := by omega
      rw [if_pos hpos, Prog.bind_of_ok (emit_run padc), ih (by omega), hk, List.replicate_succ, Int.add_sub_cancel, Int.toNat_natCast,
        min_eq_right (by omega), min_eq_right (by omega)]
      rfl
    · rw [if_neg hpos, Int.toNat_of_nonpos (not_lt.mp hpos), min_eq_left (not_lt.mp hpos)]
      rfl

theorem pad_run (padc width : ℤ) :
    (pad putch padc width).run s = .ok () { s with out := emits putch (List.replicate width.toNat padc) s.out } := by
  rw [pad, Prog.bind_of_ok (padding_run (Nat.lt_succ_self _))]
  rfl

/-- The digits of a number, with as many characters before them as the width leaves room for. -/
def numberText (base num : ℕ) (width padc : ℤ) : List ℤ :=
  List.replicate (int (width - (numeral base num).length)).toNat padc ++ (numeral base num).map digitChar

/-- **`printnum`** prints the digits. -/
theorem printnum_run {fuel : ℕ} {num : BitVec 64} {base : BitVec 32} {width padc : ℤ} (hbase : 2 ≤ base.toNat)
    (hfuel : (numeral base.toNat num.toNat).length ≤ fuel) :
    (printnum putch fuel num base width padc).run s =
      .ok () { s with out := emits putch (numberText base.toNat num.toNat width padc) s.out } := by
  induction fuel generalizing s num width with
  | zero => exact absurd (List.eq_nil_of_length_eq_zero (Nat.le_zero.mp hfuel)) (numeral_ne_nil _ _)
  | succ fuel ih =>
    have hne : base ≠ 0 := fun h => by
      rw [h] at hbase
      cases hbase
    have hwide : (base.setWidth 64).toNat = base.toNat := by
      rw [BitVec.toNat_setWidth]
      exact Nat.mod_eq_of_lt (base.isLt.trans (by decide))
    have hmod : (BitVec.ofNat 32 (num.toNat % base.toNat)).toNat = num.toNat % base.toNat :=
      Nat.mod_eq_of_lt ((Nat.mod_lt _ (by omega)).trans base.isLt)
    rw [printnum, Prog.bind_of_ok (doDiv_run num hne)]
    by_cases hle : base.toNat ≤ num.toNat
    · have hdiv : (BitVec.ofNat 64 (num.toNat / base.toNat)).toNat = num.toNat / base.toNat :=
        Nat.mod_eq_of_lt ((Nat.div_le_self _ _).trans_lt num.isLt)
      rw [numeral_of_le hbase hle, List.length_append, List.length_singleton] at hfuel
      have htext : numberText base.toNat num.toNat width padc =
          numberText base.toNat (num.toNat / base.toNat) (int (width - 1)) padc ++ [digitChar (num.toNat % base.toNat)] := by
        rw [numberText, numberText, numeral_of_le hbase hle, List.length_append, List.length_singleton, Nat.cast_add, Nat.cast_one,
          int_sub, sub_sub, add_comm (1 : ℤ), List.map_append, List.append_assoc]
        rfl
      rw [if_pos (BitVec.le_def.mpr (hwide ▸ hle)), Prog.bind_of_ok (ih (by rw [hdiv]; omega)), emit_run, hmod, hdiv, htext,
        emits_append]
      rfl
    · have hlt : num.toNat < base.toNat := not_le.mp hle
      have htext : numberText base.toNat num.toNat width padc =
          List.replicate (int (width - 1)).toNat padc ++ [digitChar (num.toNat % base.toNat)] := by
        rw [numberText, numeral_of_lt hlt, Nat.mod_eq_of_lt hlt]
        rfl
      rw [if_neg fun h => hle (hwide ▸ BitVec.le_def.mp h), Prog.bind_of_ok (pad_run ..), emit_run, hmod, htext, emits_append]
      rfl

end runs

end Ucore.Libs
