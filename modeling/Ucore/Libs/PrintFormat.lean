import Ucore.Libs.Printfmt

/-!
# Staying in the format

`vprintfmt` returns for every format, and reads no character outside of it.

* `Keeps m`: `m` returns, and leaves the place in the format as it is. What a conversion does with its arguments is of this kind.
* `reswitch_run`: the switch takes the characters of the conversion one by one. It ends behind them, or goes back to the `%`, and never
  before it, so every turn of the outer loop ends behind the `%` that it has found.
* `printLoop_run` is the rule for the loop, and `vprintfmt_run` puts it together: the messages of errors are printed by calls of its own.
-/

namespace Ucore.Libs

open Ucore.Lib

variable {σ α β : Type} {putch : ℤ → σ → σ} {args : ℕ → BitVec 32} {memory : BitVec 32 → CString} {fmt : CString}
  {call : CString → BitVec 32 → (BitVec 32 → CString) → PrintProg σ Unit} {s : Printer σ}

/-! ### What leaves the place alone -/

/-- The program returns, and leaves the place in the format. -/
def Keeps (m : PrintProg σ α) : Prop := ∀ s : Printer σ, ∃ a ap out, m.run s = .ok a { s with ap := ap, out := out }

theorem Keeps.pure (a : α) : Keeps (pure a : PrintProg σ α) := fun s => ⟨a, s.ap, s.out, rfl⟩

theorem Keeps.bind {m : PrintProg σ α} {k : α → PrintProg σ β} (hm : Keeps m) (hk : ∀ a, Keeps (k a)) : Keeps (m >>= k) := fun s => by
  obtain ⟨a, ap, out, hrun⟩ := hm s
  rw [Prog.bind_of_ok hrun]
  exact hk a _

theorem Keeps.ite {c : Prop} [Decidable c] {m m' : PrintProg σ α} (hm : Keeps m) (hm' : Keeps m') : Keeps (if c then m else m') := by
  split_ifs
  · exact hm
  · exact hm'

theorem emit_keeps (ch : ℤ) : Keeps (emit putch ch) := fun s => ⟨(), s.ap, putch ch s.out, rfl⟩

theorem vaArg_keeps : Keeps (σ := σ) (vaArg args) := fun s => ⟨args s.ap, s.ap + 1, s.out, rfl⟩

theorem pad_keeps (padc width : ℤ) : Keeps (pad putch padc width) := fun s => ⟨(), s.ap, _, pad_run padc width⟩

theorem number_keeps (c : Conversion) (num : BitVec 64) {base : BitVec 32} (hbase : 2 ≤ base.toNat) : Keeps (number putch c num base) :=
  fun s => by
  have hlt : num.toNat < base.toNat ^ 64 := num.isLt.trans_le (Nat.pow_le_pow_left hbase 64)
  exact ⟨(), s.ap, _, printnum_run hbase ((length_numeral_le hbase (by decide) hlt).trans (by decide))⟩

theorem getuint_keeps (lflag : ℕ) : Keeps (σ := σ) (getuint args lflag) :=
  .ite (.bind vaArg_keeps fun _ => .bind vaArg_keeps fun _ => .pure _) (.bind vaArg_keeps fun _ => .pure _)

theorem getint_keeps (lflag : ℕ) : Keeps (σ := σ) (getint args lflag) :=
  .ite (.bind vaArg_keeps fun _ => .bind vaArg_keeps fun _ => .pure _) (.bind vaArg_keeps fun _ => .pure _)

theorem putString_keeps (altflag : Bool) (p : List UInt8) (precision width : ℤ) : Keeps (putString putch altflag p precision width) := by
  induction p generalizing precision width with
  | nil => exact .pure width
  | cons b p ih => exact .ite (.bind (emit_keeps _) fun _ => ih _ _) (.pure width)

theorem padLeft_keeps (c : Conversion) (p : CString) : Keeps (padLeft putch c p) :=
  .ite (fun s => ⟨_, s.ap, _, padding_run (Nat.lt_succ_self _)⟩) (.pure _)

theorem stringConversion_keeps (c : Conversion) (p : CString) : Keeps (stringConversion putch c p) :=
  .bind (padLeft_keeps c p) fun _ => .bind (putString_keeps _ _ _ _) fun _ => pad_keeps _ _

/-! ### Reading the format -/

/-- The place behind a character. -/
theorem place_concat {i : ℤ} {pre : List UInt8} (hi : i = pre.length) (ch : UInt8) : i + 1 = (pre ++ [ch]).length := by
  rw [hi, List.length_append, List.length_singleton, Nat.cast_succ]

/-- The character at a place. -/
theorem readFmt_run {pre rest : List UInt8} (h : fmt.bytes = pre ++ rest) {i : ℤ} (hi : i = pre.length) :
    (readFmt fmt i).run s = .ok (rest.headD 0) s := by
  have hle : pre.length ≤ fmt.strlen := by
    rw [CString.strlen, h, List.length_append]
    exact Nat.le_add_right _ _
  rw [readFmt, if_neg (by omega), hi, Int.toNat_natCast, h]
  cases rest with
  | nil => rw [List.append_nil, List.getD_eq_default _ _ le_rfl]; rfl
  | cons ch rest => rw [List.getD_append_right _ _ _ _ le_rfl, Nat.sub_self]; rfl

theorem nextFmt_run {pre rest : List UInt8} (h : fmt.bytes = pre ++ rest) (hs : s.fmt = pre.length) :
    (nextFmt fmt).run s = .ok (rest.headD 0) { s with fmt := s.fmt + 1 } := by
  rw [nextFmt, Prog.bind_of_ok (Prog.run_get s), Prog.bind_of_ok (readFmt_run h hs)]
  rfl

/-- The text before the next `%`. -/
theorem plainText_run (putch : ℤ → σ → σ) {pre rest : List UInt8} {fuel : ℕ} (h : fmt.bytes = pre ++ rest) (hs : s.fmt = pre.length)
    (hfuel : rest.length < fuel) : ∃ more s', (plainText putch fmt fuel).run s = .ok more s' ∧ s'.ap = s.ap ∧
      (more = true → ∃ plain rest', rest = plain ++ '%'.toUInt8 :: rest' ∧ s'.fmt = pre.length + plain.length + 1) := by
  induction fuel generalizing s pre rest with
  | zero => cases hfuel
  | succ fuel ih =>
    rw [plainText, Prog.bind_of_ok (nextFmt_run h hs)]
    cases rest with
    | nil => exact ⟨false, _, rfl, rfl, fun hmore => by cases hmore⟩
    | cons ch rest =>
      have hch : ch ≠ 0 := fmt.nul_free ch (by rw [h]; exact List.mem_append_right _ List.mem_cons_self)
      rw [List.headD_cons]
      by_cases hpercent : ch = '%'.toUInt8
      · rw [if_pos hpercent]
        refine ⟨true, _, rfl, rfl, fun _ => ⟨[], rest, by rw [hpercent]; rfl, ?_⟩⟩
        rw [List.length_nil]
        dsimp only
        omega
      · rw [if_neg hpercent, if_neg hch, Prog.bind_of_ok (emit_run _)]
        obtain ⟨more, s', hrun, hap, hmore⟩ := ih (s := { s with fmt := s.fmt + 1, out := putch ch.toNat s.out })
          (h.trans (List.append_cons ..)) (place_concat hs ch) (Nat.lt_of_succ_lt_succ hfuel)
        refine ⟨more, s', hrun, hap, fun hm => ?_⟩
        obtain ⟨plain, rest', rfl, hpos⟩ := hmore hm
        refine ⟨ch :: plain, rest', rfl, ?_⟩
        rw [hpos, List.length_append, List.length_cons, List.length_cons, List.length_nil]
        omega

/-- A character that is followed by the rest of the conversion. -/
def IsFlag (ch : UInt8) : Prop := directive ch ∈ [.minus, .zero, .digit, .star, .dot, .sharp, .long]

instance (ch : UInt8) : Decidable (IsFlag ch) :=
  inferInstanceAs (Decidable (directive ch ∈ [.minus, .zero, .digit, .star, .dot, .sharp, .long]))

theorem isFlag_of_digit {ch : UInt8} (h : ¬ (ch < '0'.toUInt8 ∨ '9'.toUInt8 < ch)) : IsFlag ch := by
  have hall : ∀ n < 256, ¬ (UInt8.ofNat n < '0'.toUInt8 ∨ '9'.toUInt8 < UInt8.ofNat n) → IsFlag (UInt8.ofNat n) := by decide +kernel
  have hch := hall ch.toNat ch.toNat_lt
  rw [UInt8.ofNat_toNat] at hch
  exact hch h

theorem not_mem_of_isFlag {l : List UInt8} (h : ∀ ch ∈ l, IsFlag ch) : '%'.toUInt8 ∉ l := fun hmem =>
  absurd (h _ hmem) (by decide)

/-- The loop of the width field takes digits. -/
theorem widthField_run {pre rest : List UInt8} {fuel : ℕ} (h : fmt.bytes = pre ++ rest) (hs : s.fmt = pre.length)
    (hfuel : rest.length < fuel) (precision : ℤ) (ch : UInt8) : ∃ precision' digits rest', rest = digits ++ rest' ∧
      (∀ d ∈ digits, IsFlag d) ∧ (widthField fmt fuel precision ch).run s = .ok precision' { s with fmt := s.fmt + digits.length } := by
  induction fuel generalizing s pre rest precision ch with
  | zero => cases hfuel
  | succ fuel ih =>
    rw [widthField, Prog.bind_of_ok (Prog.run_get s), Prog.bind_of_ok (readFmt_run h hs)]
    by_cases hend : rest.headD 0 < '0'.toUInt8 ∨ '9'.toUInt8 < rest.headD 0
    · rw [if_pos hend]
      exact ⟨_, [], rest, rfl, fun d hd => absurd hd List.not_mem_nil, by rw [List.length_nil, Nat.cast_zero, add_zero]; rfl⟩
    · rw [if_neg hend, Prog.bind_of_ok (Prog.run_modify ..)]
      cases rest with
      | nil => exact absurd (.inl (by decide)) hend
      | cons ch' rest =>
        obtain ⟨precision', digits, rest', rfl, hflags, hrun⟩ := ih (s := { s with fmt := s.fmt + 1 })
          (h.trans (List.append_cons ..)) (place_concat hs ch') (Nat.lt_of_succ_lt_succ hfuel)
          (int (precision * 10 + ch.toNat - ascii '0')) ch'
        refine ⟨precision', ch' :: digits, rest', rfl, ?_, ?_⟩
        · exact List.forall_mem_cons.mpr ⟨isFlag_of_digit hend, hflags⟩
        · rw [List.headD_cons, hrun, List.length_cons, Nat.cast_succ, add_assoc, add_comm (1 : ℤ)]

/-- **Going back**: the characters behind the last `%` are passed over. -/
theorem backToPercent_run {pre mid rest : List UInt8} {fuel : ℕ} (h : fmt.bytes = pre ++ '%'.toUInt8 :: mid ++ rest)
    (hmid : '%'.toUInt8 ∉ mid) (hs : s.fmt = pre.length + 1 + mid.length) (hfuel : mid.length < fuel) :
    (backToPercent fmt fuel).run s = .ok () { s with fmt := pre.length + 1 } := by
  induction fuel generalizing s mid rest with
  | zero => cases hfuel
  | succ fuel ih =>
    rw [backToPercent, Prog.bind_of_ok (Prog.run_get s)]
    cases mid using List.reverseRecOn with
    | nil =>
      rw [List.length_nil, Nat.cast_zero, add_zero] at hs
      have h' : fmt.bytes = pre ++ '%'.toUInt8 :: rest := by
        rw [h, List.append_assoc]
        rfl
      have hplace : s.fmt - 1 = pre.length := by omega
      rw [Prog.bind_of_ok (readFmt_run h' hplace), List.headD_cons, if_pos rfl, ← hs]
      rfl
    | append_singleton mid ch =>
      rw [List.mem_append, not_or, List.mem_singleton] at hmid
      rw [List.length_append, List.length_singleton] at hs hfuel
      have h' : fmt.bytes = pre ++ '%'.toUInt8 :: mid ++ ch :: rest := by
        rw [h]
        simp
      have hplace : s.fmt - 1 = (pre ++ '%'.toUInt8 :: mid).length := by
        rw [List.length_append, List.length_cons]
        omega
      rw [Prog.bind_of_ok (readFmt_run h' hplace), List.headD_cons, if_neg (Ne.symm hmid.2), Prog.bind_of_ok (Prog.run_modify ..),
        ih h' hmid.1 (by dsimp only; omega) (by omega)]

/-! ### The switch -/

/-- No character of the format that is behind a `%` makes it print an error. -/
def ErrorFree (fmt : CString) : Prop := ∀ i < fmt.strlen, fmt.bytes[i]? = some 'e'.toUInt8 → '%'.toUInt8 ∉ fmt.bytes.take i

instance (fmt : CString) : Decidable (ErrorFree fmt) :=
  inferInstanceAs (Decidable (∀ i < fmt.strlen, fmt.bytes[i]? = some 'e'.toUInt8 → '%'.toUInt8 ∉ fmt.bytes.take i))

/-- The lengths of the parts of the format. -/
theorem strlen_parts {pre mid rest : List UInt8} (h : fmt.bytes = pre ++ '%'.toUInt8 :: mid ++ rest) :
    pre.length + 1 + mid.length + rest.length = fmt.strlen := by
  rw [CString.strlen, h]
  simp only [List.length_append, List.length_cons]
  omega

theorem not_errorFree {pre mid rest : List UInt8} (h : fmt.bytes = pre ++ '%'.toUInt8 :: mid ++ 'e'.toUInt8 :: rest) :
    ¬ ErrorFree fmt := fun hfree => by
  have hlen : (pre ++ '%'.toUInt8 :: mid).length < fmt.strlen := by
    rw [← strlen_parts h, List.length_append, List.length_cons, List.length_cons]
    omega
  have hget : fmt.bytes[(pre ++ '%'.toUInt8 :: mid).length]? = some 'e'.toUInt8 := by
    rw [h, List.getElem?_append_right le_rfl, Nat.sub_self]
    rfl
  have hnot := hfree _ hlen hget
  rw [h, List.take_append_of_le_length le_rfl, List.take_length] at hnot
  exact hnot (List.mem_append_right _ List.mem_cons_self)

theorem eq_of_directive_error {ch : UInt8} (h : directive ch = .error) : ch = 'e'.toUInt8 := by
  have hall : ∀ n < 256, directive (UInt8.ofNat n) = .error → UInt8.ofNat n = 'e'.toUInt8 := by decide +kernel
  have hch := hall ch.toNat ch.toNat_lt
  rw [UInt8.ofNat_toNat] at hch
  exact hch h

/-- The terminator is no conversion. -/
theorem directive_nul : directive 0 = .unknown := by decide

/-- The rest of a conversion that is unknown: flags, and a character that is none and no conversion, which may be the terminator. -/
def Unknown (rest : List UInt8) : Prop :=
  ∃ flags tail, rest = flags ++ tail ∧ (∀ ch ∈ flags, IsFlag ch) ∧ directive (tail.headD 0) = .unknown

theorem Unknown.isFlag {ch : UInt8} {rest : List UInt8} (h : Unknown (ch :: rest)) (hch : directive ch ≠ .unknown) :
    IsFlag ch ∧ Unknown rest := by
  obtain ⟨flags, tail, heq, hflags, htail⟩ := h
  cases flags with
  | nil =>
    rw [List.nil_append] at heq
    rw [← heq] at htail
    exact absurd htail hch
  | cons ch' flags =>
    obtain ⟨rfl, rfl⟩ := List.cons.inj heq
    exact ⟨hflags _ List.mem_cons_self, flags, tail, rfl, fun ch hch => hflags ch (List.mem_cons_of_mem _ hch), htail⟩

theorem Unknown.of_append {digits rest : List UInt8} (h : Unknown (digits ++ rest)) (hdigits : ∀ d ∈ digits, IsFlag d) :
    Unknown rest := by
  induction digits with
  | nil => exact h
  | cons d digits ih =>
    have hd : directive d ≠ .unknown := fun hd => by
      have hflag := hdigits d List.mem_cons_self
      rw [IsFlag, hd] at hflag
      exact absurd hflag (by decide)
    exact ih (h.isFlag hd).2 fun d' hd' => hdigits d' (List.mem_cons_of_mem _ hd')

/-- **The switch** returns, behind the `%` and not behind the terminator. When the conversion is unknown it prints the `%` and returns
directly behind it. -/
theorem reswitch_run (putch : ℤ → σ → σ) (args : ℕ → BitVec 32) (memory : BitVec 32 → CString)
    (herror : ErrorFree fmt ∨ ∀ word, Keeps (errorConversion call word)) {pre mid rest : List UInt8} {fuel : ℕ}
    (h : fmt.bytes = pre ++ '%'.toUInt8 :: mid ++ rest) (hmid : '%'.toUInt8 ∉ mid) (hs : s.fmt = pre.length + 1 + mid.length)
    (hfuel : rest.length < fuel) (c : Conversion) : ∃ s', (reswitch putch args call fmt memory fuel c).run s = .ok () s' ∧
      (pre.length + 1 ≤ s'.fmt ∧ s'.fmt ≤ fmt.strlen) ∧
      (Unknown rest → s'.fmt = pre.length + 1 ∧ s'.out = putch (ascii '%') s.out) := by
  induction fuel generalizing s mid rest c with
  | zero => cases hfuel
  | succ fuel ih =>
    have hlen := strlen_parts h
    have hplace : s.fmt = (pre ++ '%'.toUInt8 :: mid).length := by
      rw [List.length_append, List.length_cons]
      omega
    rw [reswitch, Prog.bind_of_ok (nextFmt_run h hplace)]
    by_cases hunknown : directive (rest.headD 0) = .unknown
    · -- Back to the `%`, over the flags.
      rw [hunknown]
      dsimp only
      rw [Prog.bind_of_ok (emit_run _), Prog.bind_of_ok (Prog.run_modify ..),
        backToPercent_run h hmid (by dsimp only; omega) (by omega)]
      exact ⟨_, rfl, ⟨le_rfl, by dsimp only; omega⟩, fun _ => ⟨rfl, rfl⟩⟩
    · -- The character is not the terminator.
      obtain ⟨ch, rest, rfl⟩ : ∃ ch rest', rest = ch :: rest' := by
        cases rest with
        | nil => exact absurd directive_nul hunknown
        | cons ch rest => exact ⟨ch, rest, rfl⟩
      rw [List.headD_cons] at hunknown ⊢
      rw [List.length_cons] at hlen hfuel
      -- A conversion ends behind the character, and is known.
      have hends : ∀ m : PrintProg σ Unit, Keeps m → ¬ IsFlag ch → ∃ s', m.run { s with fmt := s.fmt + 1 } = .ok () s' ∧
          (pre.length + 1 ≤ s'.fmt ∧ s'.fmt ≤ fmt.strlen) ∧
          (Unknown (ch :: rest) → s'.fmt = pre.length + 1 ∧ s'.out = putch (ascii '%') s.out) := fun m hm hflag => by
        obtain ⟨_, ap, out, hrun⟩ := hm { s with fmt := s.fmt + 1 }
        exact ⟨_, hrun, ⟨by dsimp only; omega, by dsimp only; omega⟩, fun h => absurd (h.isFlag hunknown).1 hflag⟩
      -- A flag is followed by the rest of the conversion.
      have hmore : ∀ (c : Conversion) (ap : ℕ), IsFlag ch →
          ∃ s', (reswitch putch args call fmt memory fuel c).run { s with fmt := s.fmt + 1, ap := ap } = .ok () s' ∧
            (pre.length + 1 ≤ s'.fmt ∧ s'.fmt ≤ fmt.strlen) ∧
            (Unknown (ch :: rest) → s'.fmt = pre.length + 1 ∧ s'.out = putch (ascii '%') s.out) := fun c ap hflag => by
        have hnot : '%'.toUInt8 ∉ mid ++ [ch] := by
          rw [List.mem_append, not_or]
          exact ⟨hmid, not_mem_of_isFlag (List.forall_mem_singleton.mpr hflag)⟩
        have h' : fmt.bytes = pre ++ '%'.toUInt8 :: (mid ++ [ch]) ++ rest := by
          rw [h]
          simp
        obtain ⟨s', hrun, hin, hback⟩ := ih (s := { s with fmt := s.fmt + 1, ap := ap }) h' hnot
          (by rw [List.length_append, List.length_singleton]; dsimp only; omega) (by omega) c
        exact ⟨s', hrun, hin, fun h => hback (h.isFlag hunknown).2⟩
      cases hd : directive ch with
      | minus => exact hmore _ s.ap (by rw [IsFlag, hd]; decide)
      | zero => exact hmore _ s.ap (by rw [IsFlag, hd]; decide)
      | digit =>
        have hroom : rest.length < fmt.strlen + 2 := by omega
        obtain ⟨precision, digits, rest, rfl, hdigits, hrun⟩ := widthField_run (s := { s with fmt := s.fmt + 1 })
          (h.trans (List.append_cons ..)) (place_concat hplace ch) hroom 0 ch
        have hflag : IsFlag ch := by
          rw [IsFlag, hd]
          decide
        have hnot : '%'.toUInt8 ∉ mid ++ ch :: digits := by
          rw [List.mem_append, not_or]
          exact ⟨hmid, not_mem_of_isFlag (List.forall_mem_cons.mpr ⟨hflag, hdigits⟩)⟩
        rw [List.length_append] at hfuel
        dsimp only
        rw [Prog.bind_of_ok hrun]
        have h' : fmt.bytes = pre ++ '%'.toUInt8 :: (mid ++ ch :: digits) ++ rest := by
          rw [h]
          simp
        obtain ⟨s', hrun', hin, hback⟩ := ih (s := { s with fmt := s.fmt + 1 + digits.length }) h' hnot
          (by rw [List.length_append, List.length_cons]; dsimp only; omega) (by omega) (c.processPrecision precision)
        exact ⟨s', hrun', hin, fun h => hback ((h.isFlag hunknown).2.of_append hdigits)⟩
      | star => exact hmore _ (s.ap + 1) (by rw [IsFlag, hd]; decide)
      | dot => exact hmore _ s.ap (by rw [IsFlag, hd]; decide)
      | sharp => exact hmore _ s.ap (by rw [IsFlag, hd]; decide)
      | long => exact hmore _ s.ap (by rw [IsFlag, hd]; decide)
      | char => exact hends _ (.bind vaArg_keeps fun _ => emit_keeps _) (by rw [IsFlag, hd]; decide)
      | error =>
        rcases herror with hfree | herror
        · rw [eq_of_directive_error hd] at h
          exact absurd hfree (not_errorFree h)
        · exact hends _ (.bind vaArg_keeps fun word => herror word) (by rw [IsFlag, hd]; decide)
      | string => exact hends _ (.bind vaArg_keeps fun _ => stringConversion_keeps _ _) (by rw [IsFlag, hd]; decide)
      | signed =>
        refine hends _ (.bind (getint_keeps _) fun num => ?_) (by rw [IsFlag, hd]; decide)
        exact .ite (.bind (emit_keeps _) fun _ => number_keeps c _ (by decide)) (number_keeps c _ (by decide))
      | unsigned => exact hends _ (.bind (getuint_keeps _) fun _ => number_keeps c _ (by decide)) (by rw [IsFlag, hd]; decide)
      | octal => exact hends _ (.bind (getuint_keeps _) fun _ => number_keeps c _ (by decide)) (by rw [IsFlag, hd]; decide)
      | pointer =>
        refine hends _ (.bind (emit_keeps _) fun _ => .bind (emit_keeps _) fun _ => .bind vaArg_keeps fun _ => ?_)
          (by rw [IsFlag, hd]; decide)
        exact number_keeps c _ (by decide)
      | hex => exact hends _ (.bind (getuint_keeps _) fun _ => number_keeps c _ (by decide)) (by rw [IsFlag, hd]; decide)
      | percent => exact hends _ (emit_keeps _) (by rw [IsFlag, hd]; decide)
      | unknown => exact absurd hd hunknown

/-- **The outer loop.** Each turn finds a `%` and ends behind it. -/
theorem printLoop_run (herror : ErrorFree fmt ∨ ∀ word, Keeps (errorConversion call word)) {pre rest : List UInt8} {fuel : ℕ}
    (h : fmt.bytes = pre ++ rest) (hs : s.fmt = pre.length) (hfuel : rest.length < fuel) :
    ∃ s', (printLoop putch args call fmt memory fuel).run s = .ok () s' := by
  induction fuel generalizing s pre rest with
  | zero => cases hfuel
  | succ fuel ih =>
    have hlen : pre.length + rest.length = fmt.strlen := by rw [CString.strlen, h, List.length_append]
    have hroom : rest.length < fmt.strlen + 1 := by omega
    obtain ⟨more, s₁, hrun, -, hmore⟩ := plainText_run putch h hs hroom
    rw [printLoop, Prog.bind_of_ok hrun]
    cases more with
    | false => exact ⟨s₁, rfl⟩
    | true =>
      obtain ⟨plain, rest', rfl, hs₁⟩ := hmore rfl
      rw [List.length_append, List.length_cons] at hlen hfuel
      have h' : fmt.bytes = (pre ++ plain) ++ '%'.toUInt8 :: [] ++ rest' := by
        rw [h]
        simp
      have hplace : s₁.fmt = (pre ++ plain).length + 1 + ([] : List UInt8).length := by
        rw [hs₁, List.length_append, List.length_nil]
        omega
      have hroom : rest'.length < fmt.strlen + 2 := by omega
      obtain ⟨s₂, hrun, ⟨hlow, hhigh⟩, -⟩ := reswitch_run putch args memory herror h' List.not_mem_nil hplace hroom Conversion.start
      rw [if_pos rfl, Prog.bind_of_ok hrun]
      rw [List.length_append] at hlow
      -- The next turn starts with a part of what is behind the `%`.
      obtain ⟨k, hk⟩ : ∃ k : ℕ, s₂.fmt = k := ⟨s₂.fmt.toNat, by omega⟩
      refine ih (List.take_append_drop k fmt.bytes).symm ?_ ?_
      · rw [hk, List.length_take, ← CString.strlen]
        omega
      · rw [List.length_drop, ← CString.strlen]
        omega

theorem printfmt_keeps {vprintfmt : CString → (ℕ → BitVec 32) → (BitVec 32 → CString) → PrintProg σ Unit} {arg : BitVec 32}
    (h : ∀ out, ∃ s', (vprintfmt fmt (fun _ => arg) memory).run (Printer.start out) = .ok () s') :
    Keeps (printfmt vprintfmt fmt arg memory) := fun s => by
  obtain ⟨s', hrun⟩ := h s.out
  refine ⟨(), s.ap, s'.out, ?_⟩
  rw [printfmt, Prog.zoom]
  dsimp only
  rw [hrun]

theorem vprintfmt_errorFree (depth : ℕ) (hfree : ErrorFree fmt) (args : ℕ → BitVec 32) (memory : BitVec 32 → CString) (out : σ) :
    ∃ s', (vprintfmt putch (depth + 1) fmt args memory).run (Printer.start out) = .ok () s' :=
  printLoop_run (.inl hfree) (List.nil_append fmt.bytes).symm rfl (Nat.lt_succ_self _)

/-- The messages of errors are printed by formats without a conversion for errors. -/
theorem errorConversion_keeps (depth : ℕ) (word : BitVec 32) :
    Keeps (errorConversion (printfmt (vprintfmt putch (depth + 1))) word) := by
  rw [errorConversion]
  split
  · exact printfmt_keeps fun out => vprintfmt_errorFree depth (by decide) _ _ out
  · exact printfmt_keeps fun out => vprintfmt_errorFree depth (by decide) _ _ out

/-- **`vprintfmt` returns** for every format and all arguments, without a read outside of the format; calls of `printfmt` are one deep.
After a conversion that is unknown it goes on directly behind the `%`. -/
theorem vprintfmt_run (putch : ℤ → σ → σ) (depth : ℕ) (fmt : CString) (args : ℕ → BitVec 32) (memory : BitVec 32 → CString) (out : σ) :
    (∃ s', (vprintfmt putch (depth + 2) fmt args memory).run (Printer.start out) = .ok () s') ∧
      ∀ (pre rest : List UInt8) (s : Printer σ), fmt.bytes = pre ++ '%'.toUInt8 :: rest → Unknown rest → s.fmt = pre.length + 1 →
        ∃ s', (reswitch putch args (printfmt (vprintfmt putch (depth + 1))) fmt memory (fmt.strlen + 2) Conversion.start).run s =
          .ok () s' ∧ s'.fmt = pre.length + 1 ∧ s'.out = putch (ascii '%') s.out := by
  have herror : ∀ word, Keeps (errorConversion (printfmt (vprintfmt putch (depth + 1))) word) := errorConversion_keeps depth
  refine ⟨printLoop_run (.inr herror) (List.nil_append fmt.bytes).symm rfl (Nat.lt_succ_self _), fun pre rest s h hunknown hs => ?_⟩
  have h : fmt.bytes = pre ++ '%'.toUInt8 :: [] ++ rest := h.trans (by simp)
  have hlen := strlen_parts h
  obtain ⟨s', hrun, -, hback⟩ := reswitch_run putch args memory (.inr herror) h List.not_mem_nil
    (by rw [hs]; exact (add_zero _).symm) (show rest.length < fmt.strlen + 2 by omega) Conversion.start
  exact ⟨s', hrun, hback hunknown⟩

/-- An unknown conversion, an error, and one that the format ends in. -/
example : ((vprintfmt (fun ch out => out ++ [ch]) 2 (literal "%-5y%e%08") (fun _ => -4) fun _ => literal "").run (Printer.start [])).observe
    Printer.out = some ((), "%-5yout of memory%08".toList.map ascii) := by decide +kernel

end Ucore.Libs
