import Ucore.Driver.Cga
import Ucore.Libs.NumberFormat

/-!
# Console output

A character of the kernel goes to the parallel port, to the screen and to the serial port: `cons_putc` of `kern/driver/console.c`, and
`vcprintf` of `kern/libs/stdio.c`, which prints formats with it.

* `ConsOut` is the screen, with what the two ports have been given. `Prints o o' text` says that the text has gone to all three.
* `vprintfmt_string` is about the format `%s`: the characters of the string, and nothing else.
-/

namespace Ucore.Driver

open Ucore.Lib Ucore.Libs

structure ConsOut where
  screen : Cga
  /-- What the parallel port has been given. -/
  lpt : List (BitVec 8)
  /-- What the serial port has been given. -/
  serial : List (BitVec 8)

/-- What a port is given: for `'\b'` also a space, which is printed over the character. Source: `kern/driver/console.c` `lpt_putc`,
`serial_putc` -/
def portBytes (c : BitVec 32) : List (BitVec 8) := if c ≠ 8 then [c.setWidth 8] else [8, 32, 8]

/-- Source: `kern/driver/console.c` `cons_putc` -/
def consPutc (c : BitVec 32) (o : ConsOut) : ConsOut := ⟨cgaPutc c o.screen, o.lpt ++ portBytes c, o.serial ++ portBytes c⟩

/-- With the variable that counts the characters. Source: `kern/libs/stdio.c` `cputch` -/
def cputch (ch : ℤ) (p : ConsOut × ℤ) : ConsOut × ℤ := (consPutc (.ofInt 32 ch) p.1, int (p.2 + 1))

/-- Source: `kern/libs/stdio.c` `vcprintf` -/
def vcprintf (depth : ℕ) (fmt : CString) (args : ℕ → BitVec 32) (memory : BitVec 32 → CString) : Prog PrintPanic Empty ConsOut ℤ :=
  Prog.zoom (fun o => Printer.start (o, 0)) (fun s _ => s.out.1) id do
    vprintfmt cputch depth fmt args memory
    let s ← Prog.get
    pure s.out.2

/-! ### The format `%s` -/

section string

variable {σ : Type} {putch : ℤ → σ → σ} {s : Printer σ} {p : List UInt8} {width : ℤ}

/-- Without a precision all characters are printed. -/
theorem putString_run (hwidth : width ≤ 0) (hlow : -2 ^ 31 ≤ width - p.length) :
    (putString putch false p (-1) width).run s =
      .ok (width - p.length) { s with out := emits putch (p.map charValue) s.out } := by
  induction p generalizing s width with
  | nil =>
    rw [List.length_nil, Nat.cast_zero, sub_zero]
    rfl
  | cons b p ih =>
    have hstep : int (width - 1) = width - 1 := by
      rw [List.length_cons] at hlow
      exact Int.bmod_eq_of_le (by omega) (by omega)
    rw [List.length_cons, Nat.cast_succ] at hlow ⊢
    rw [putString, if_pos (Or.inl (by decide)), if_neg (by simp), if_pos (by decide), Prog.bind_of_ok (emit_run _), hstep,
      ih (by omega) (by omega)]
    congr 1
    omega

/-- **A string** that is printed by `%s`. -/
theorem vprintfmt_string (putch : ℤ → σ → σ) (depth : ℕ) (args : ℕ → BitVec 32) (memory : BitVec 32 → CString) (out : σ)
    (hnull : args 0 ≠ 0) (hlen : (memory (args 0)).strlen < 2 ^ 31) :
    (vprintfmt putch (depth + 1) (literal "%s") args memory).run (Printer.start out) =
      .ok () ⟨3, 1, emits putch ((memory (args 0)).bytes.map charValue) out⟩ := by
  have hfmt : (literal "%s").bytes = ['%'.toUInt8] ++ ['s'.toUInt8] := by decide
  have hstrlen : (literal "%s").strlen = 2 := by decide
  rw [CString.strlen] at hlen
  suffices hrun : (reswitch putch args (printfmt (vprintfmt putch depth)) (literal "%s") memory ((literal "%s").strlen + 2)
      Conversion.start).run ⟨1, 0, out⟩ = .ok () ⟨2, 1, emits putch ((memory (args 0)).bytes.map charValue) out⟩ from
    vprintfmt_single hfmt hrun (by rw [hstrlen]; rfl)
  have hdir : directive 's'.toUInt8 = .string := by decide
  have harg : (vaArg (σ := σ) args).run ⟨2, 0, out⟩ = .ok (args 0) ⟨2, 1, out⟩ := rfl
  have hleft : (padLeft putch Conversion.start (memory (args 0))).run ⟨2, 1, out⟩ = .ok (-1) ⟨2, 1, out⟩ := by
    rw [padLeft, if_neg (fun h => absurd h.1 (by decide))]
    rfl
  rw [hstrlen, reswitch, Prog.bind_of_ok (nextFmt_run hfmt rfl), List.headD_cons, hdir]
  dsimp only
  refine (Prog.bind_of_ok harg).trans ?_
  rw [if_neg hnull, stringConversion, Prog.bind_of_ok hleft]
  refine (Prog.bind_of_ok (putString_run (by decide) (by omega))).trans ?_
  rw [pad_run, Int.toNat_of_nonpos (by omega)]
  rfl

end string

/-! ### What has been printed -/

variable {o o' o₂ : ConsOut} {text text' : List (BitVec 32)} {c : BitVec 32}

/-- The text has gone to the screen and to both ports. -/
structure Prints (o o' : ConsOut) (text : List (BitVec 32)) : Prop where
  screen : o'.screen = cgaPuts o.screen text
  lpt : o'.lpt = o.lpt ++ text.flatMap portBytes
  serial : o'.serial = o.serial ++ text.flatMap portBytes

theorem Prints.refl (o : ConsOut) : Prints o o [] := ⟨rfl, (List.append_nil _).symm, (List.append_nil _).symm⟩

theorem Prints.putc (h : Prints o o' text) (c : BitVec 32) : Prints o (consPutc c o') (text ++ [c]) := by
  refine ⟨?_, ?_, ?_⟩
  · rw [cgaPuts, List.foldl_append]
    exact congrArg (cgaPutc c) h.screen
  · rw [List.flatMap_append, List.flatMap_singleton, ← List.append_assoc, ← h.lpt]
    rfl
  · rw [List.flatMap_append, List.flatMap_singleton, ← List.append_assoc, ← h.serial]
    rfl

/-- The characters that `vprintfmt` gives to `cputch`. -/
theorem emits_cputch (chars : List ℤ) (h : Prints o o' text) (cnt : ℤ) :
    Prints o (emits cputch chars (o', cnt)).1 (text ++ chars.map (BitVec.ofInt 32)) := by
  induction chars generalizing o' text cnt with
  | nil =>
    rw [List.map_nil, List.append_nil]
    exact h
  | cons ch chars ih =>
    rw [emits_cons, List.map_cons, List.append_cons]
    exact ih (h.putc _) _

/-- A string, as characters for `cons_putc`. -/
def charsOf (p : CString) : List (BitVec 32) := p.bytes.map fun b => .ofInt 32 (charValue b)

/-- **`cprintf("%s", p)`** prints the string. -/
theorem vcprintf_string (depth : ℕ) {p : BitVec 32} (memory : BitVec 32 → CString) (o : ConsOut) (hnull : p ≠ 0)
    (hlen : (memory p).strlen < 2 ^ 31) : ∃ cnt o', (vcprintf (depth + 1) (literal "%s") (fun _ => p) memory).run o = .ok cnt o' ∧
      Prints o o' (charsOf (memory p)) := by
  have hrun := vprintfmt_string cputch depth (fun _ => p) memory (o, 0) hnull hlen
  have hprints := emits_cputch ((memory p).bytes.map charValue) (Prints.refl o) 0
  rw [List.nil_append, List.map_map] at hprints
  refine ⟨(emits cputch ((memory p).bytes.map charValue) (o, 0)).2, _, ?_, hprints⟩
  rw [vcprintf, Prog.zoom]
  dsimp only
  rw [Prog.bind_of_ok hrun]
  rfl

end Ucore.Driver
