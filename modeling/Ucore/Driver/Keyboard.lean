import Mathlib.Data.BitVec
import Mathlib.Tactic.Common

/-!
# The keyboard decoder

`kbd_proc_data` of `kern/driver/console.c`, which turns the bytes of the keyboard into characters.

* The tables are those of the source, by the byte of a key: its code, with the highest bit set if the key sends an escape byte first.
* `kbdProcData` is the function, with the byte that it reads and the word `shift` that it keeps.
* `KeyEvent` is a key that is pressed or released, and `scan` are the bytes that the keyboard sends for it. `Mods` is what the
  keyboard looks like after some events: a modifier is held when the last event of its keys was a press, and a lock is on when its
  key has been pressed an odd number of times.
* `kbd_decodes`: the bytes of any events are decoded to the characters that have been typed.
-/

namespace Ucore.Driver

/-- The code of a character. -/
def codeOf (c : Char) : BitVec 8 := .ofNat 8 c.toNat

/-- `SHIFT` -/
def shiftBit : BitVec 32 := 1

/-- `CTL` -/
def ctlBit : BitVec 32 := 2

/-- `ALT` -/
def altBit : BitVec 32 := 4

/-- `CAPSLOCK` -/
def capsLock : BitVec 32 := 8

/-- `NUMLOCK` -/
def numLock : BitVec 32 := 16

/-- `SCROLLLOCK` -/
def scrollLock : BitVec 32 := 32

/-- `E0ESC` -/
def e0esc : BitVec 32 := 64

/-- `KEY_DEL` -/
def keyDel : BitVec 8 := 0xE9

def shiftcode (data : BitVec 8) : BitVec 32 :=
  match data.toNat with
  | 0x1D => ctlBit
  | 0x2A => shiftBit
  | 0x36 => shiftBit
  | 0x38 => altBit
  | 0x9D => ctlBit
  | 0xB8 => altBit
  | _ => 0

def togglecode (data : BitVec 8) : BitVec 32 :=
  match data.toNat with
  | 0x3A => capsLock
  | 0x45 => numLock
  | 0x46 => scrollLock
  | _ => 0

/-- The keys around the cursor keys, which the three tables have in common. -/
def cursorKey (data : BitVec 8) : BitVec 8 :=
  match data.toNat with
  | 0xC8 => 0xE2
  | 0xC9 => 0xE6
  | 0xCB => 0xE4
  | 0xCD => 0xE5
  | 0xCF => 0xE1
  | 0xD0 => 0xE3
  | 0xD1 => 0xE7
  | 0xD2 => 0xE8
  | 0xD3 => keyDel
  | _ => 0

/-- The keys behind the letters, which are the same with and without `SHIFT`. -/
def keypad : List Char :=
  ['\x00', '\x00', '\x00', '\x00', '\x00', '\x00', '\x00', '7', '8', '9', '-', '4', '5', '6', '+', '1', '2', '3', '0', '.', '\x00',
    '\x00', '\x00', '\x00']

def normalRows : List Char :=
  ['\x00', '\x1b', '1', '2', '3', '4', '5', '6', '7', '8', '9', '0', '-', '=', '\x08', '\t', 'q', 'w', 'e', 'r', 't', 'y', 'u', 'i',
    'o', 'p', '[', ']', '\n', '\x00', 'a', 's', 'd', 'f', 'g', 'h', 'j', 'k', 'l', ';', '\x27', '\x60', '\x00', '\x5c', 'z', 'x', 'c',
    'v', 'b', 'n', 'm', ',', '.', '/', '\x00', '*', '\x00', ' ', '\x00', '\x00', '\x00', '\x00', '\x00', '\x00'] ++ keypad

def shiftRows : List Char :=
  ['\x00', '\x1b', '!', '@', '#', '$', '%', '^', '&', '*', '(', ')', '_', '+', '\x08', '\t', 'Q', 'W', 'E', 'R', 'T', 'Y', 'U', 'I',
    'O', 'P', '\x7b', '\x7d', '\n', '\x00', 'A', 'S', 'D', 'F', 'G', 'H', 'J', 'K', 'L', ':', '\x22', '~', '\x00', '|', 'Z', 'X', 'C',
    'V', 'B', 'N', 'M', '<', '>', '?', '\x00', '*', '\x00', ' ', '\x00', '\x00', '\x00', '\x00', '\x00', '\x00'] ++ keypad

/-- `C(x)`, and nothing where the table has nothing. -/
def ctlRows : List (BitVec 8) :=
  List.replicate 16 0 ++
    (['Q', 'W', 'E', 'R', 'T', 'Y', 'U', 'I', 'O', 'P', '@', '@', 'M', '@', 'A', 'S', 'D', 'F', 'G', 'H', 'J', 'K', 'L', '@', '@', '@',
      '@', '\x5c', 'Z', 'X', 'C', 'V', 'B', 'N', 'M', '@', '@', '/', '@', '@'].map fun c => codeOf c - codeOf '@')

def normalmap (data : BitVec 8) : BitVec 8 :=
  match data.toNat with
  | 0x9C => codeOf '\n'
  | 0xB5 => codeOf '/'
  | 0xC7 => 0xE0
  | n => if n < 0x80 then codeOf (normalRows.getD n '\x00') else cursorKey data

def shiftmap (data : BitVec 8) : BitVec 8 :=
  match data.toNat with
  | 0x9C => codeOf '\n'
  | 0xB5 => codeOf '/'
  | 0xC7 => 0xE0
  | n => if n < 0x80 then codeOf (shiftRows.getD n '\x00') else cursorKey data

def ctlmap (data : BitVec 8) : BitVec 8 :=
  match data.toNat with
  | 0x97 => 0xE0
  | 0xB5 => codeOf '/' - codeOf '@'
  | n => if n < 0x80 then ctlRows.getD n 0 else cursorKey data

def charcode (mode : BitVec 32) : BitVec 8 → BitVec 8 :=
  match mode.toNat with
  | 0 => normalmap
  | 1 => shiftmap
  | _ => ctlmap

/-- `CAPSLOCK` exchanges small and capital letters. -/
def capsLetter (c : BitVec 8) : BitVec 8 :=
  if codeOf 'a' ≤ c ∧ c ≤ codeOf 'z' then c + (codeOf 'A' - codeOf 'a')
  else if codeOf 'A' ≤ c ∧ c ≤ codeOf 'Z' then c + (codeOf 'a' - codeOf 'A')
  else c

/-- What is returned, and whether the machine has been told to start again. -/
structure KbdResult where
  c : BitVec 8
  reboot : Bool
  deriving DecidableEq

/-- A key that has been pressed, behind the lines that look at the escape byte. -/
def kbdPressed (data : BitVec 8) (shift : BitVec 32) : KbdResult × BitVec 32 :=
  let shift := (shift ||| shiftcode data) ^^^ togglecode data
  let c := charcode (shift &&& (ctlBit ||| shiftBit)) data
  let c := if shift &&& capsLock ≠ 0 then capsLetter c else c
  (⟨c, ~~~shift &&& (ctlBit ||| altBit) = 0 ∧ c = keyDel⟩, shift)

/-- The byte `data` is read. Source: `kern/driver/console.c` `kbd_proc_data` -/
def kbdProcData (data : BitVec 8) (shift : BitVec 32) : KbdResult × BitVec 32 :=
  if data = 0xE0 then (⟨0, false⟩, shift ||| e0esc)
  else if data &&& 0x80 ≠ 0 then
    let data := if shift &&& e0esc ≠ 0 then data else data &&& 0x7F
    (⟨0, false⟩, shift &&& ~~~(shiftcode data ||| e0esc))
  else if shift &&& e0esc ≠ 0 then kbdPressed (data ||| 0x80) (shift &&& ~~~e0esc)
  else kbdPressed data shift

/-- Byte after byte. -/
def kbdRun : List (BitVec 8) → BitVec 32 → List KbdResult × BitVec 32
  | [], shift => ([], shift)
  | data :: bytes, shift =>
    ((kbdProcData data shift).1 :: (kbdRun bytes (kbdProcData data shift).2).1, (kbdRun bytes (kbdProcData data shift).2).2)

/-! ### Keys -/

/-- A key. The code `0x60` is not used: with the highest bit set it would be the escape byte. -/
structure Key where
  /-- It sends an escape byte first. -/
  isExtended : Bool
  code : BitVec 7
  used : code ≠ 0x60
  deriving DecidableEq

/-- The place of the key in the tables. -/
def Key.index (k : Key) : BitVec 8 := (if k.isExtended then 0x80 else 0) ||| k.code.setWidth 8

inductive KeyEvent where
  | press (k : Key)
  | release (k : Key)
  deriving DecidableEq

def escape (k : Key) : List (BitVec 8) := if k.isExtended then [0xE0] else []

/-- The bytes that the keyboard sends. -/
def scan : KeyEvent → List (BitVec 8)
  | .press k => escape k ++ [k.code.setWidth 8]
  | .release k => escape k ++ [0x80 ||| k.code.setWidth 8]

inductive Modifier where
  | shift | ctl | alt
  deriving DecidableEq

inductive Lock where
  | caps | num | scroll
  deriving DecidableEq

/-- The modifier that the key is. -/
def Key.modifier (k : Key) : Option Modifier :=
  match k.isExtended, k.code.toNat with
  | false, 0x1D => some .ctl
  | true, 0x1D => some .ctl
  | false, 0x2A => some .shift
  | false, 0x36 => some .shift
  | false, 0x38 => some .alt
  | true, 0x38 => some .alt
  | _, _ => none

def Key.lock (k : Key) : Option Lock :=
  match k.isExtended, k.code.toNat with
  | false, 0x3A => some .caps
  | false, 0x45 => some .num
  | false, 0x46 => some .scroll
  | _, _ => none

/-- What is held down, and which locks are on. -/
structure Mods where
  held : Modifier → Bool
  locked : Lock → Bool

/-- Nothing is held or locked. -/
def Mods.none : Mods := ⟨fun _ => false, fun _ => false⟩

def Mods.after (m : Mods) : KeyEvent → Mods
  | .press k => ⟨fun x => m.held x || k.modifier = some x, fun x => xor (m.locked x) (k.lock = some x)⟩
  | .release k => ⟨fun x => m.held x && k.modifier ≠ some x, m.locked⟩

/-- The character that a key gives. -/
def Mods.char (m : Mods) (k : Key) : BitVec 8 :=
  let c := if m.held .ctl then ctlmap k.index else if m.held .shift then shiftmap k.index else normalmap k.index
  if m.locked .caps then capsLetter c else c

/-- What an event gives: a press its character. -/
def Mods.result (m : Mods) : KeyEvent → KbdResult
  | .press k => ⟨m.char k, m.held .ctl && m.held .alt && m.char k = keyDel⟩
  | .release _ => ⟨0, false⟩

/-- The bytes before the last one give nothing. -/
def KeyEvent.padding : KeyEvent → List KbdResult
  | .press k => (escape k).map fun _ => ⟨0, false⟩
  | .release k => (escape k).map fun _ => ⟨0, false⟩

/-- What is typed, event after event. -/
def typed : Mods → List KeyEvent → List KbdResult
  | _, [] => []
  | m, e :: es => e.padding ++ (m.after e).result e :: typed (m.after e) es

/-- The keyboard after some events. -/
def Mods.afterAll (m : Mods) (es : List KeyEvent) : Mods := es.foldl Mods.after m

/-- The word `shift` for the state of the keyboard. -/
def Mods.bits (m : Mods) : BitVec 32 :=
  (if m.held .shift then shiftBit else 0) ||| (if m.held .ctl then ctlBit else 0) ||| (if m.held .alt then altBit else 0) |||
    (if m.locked .caps then capsLock else 0) ||| (if m.locked .num then numLock else 0) ||| (if m.locked .scroll then scrollLock else 0)

/-! ### The tables and the keys -/

def Modifier.bit : Modifier → BitVec 32
  | .shift => shiftBit
  | .ctl => ctlBit
  | .alt => altBit

def Lock.bit : Lock → BitVec 32
  | .caps => capsLock
  | .num => numLock
  | .scroll => scrollLock

variable {m : Mods} {k : Key} {bytes bytes' : List (BitVec 8)} {shift : BitVec 32}

theorem shiftcode_index (k : Key) : shiftcode k.index = (k.modifier.map Modifier.bit).getD 0 := by
  obtain ⟨e, code, -⟩ := k
  revert e code
  decide

theorem togglecode_index (k : Key) : togglecode k.index = (k.lock.map Lock.bit).getD 0 := by
  obtain ⟨e, code, -⟩ := k
  revert e code
  decide

/-- A statement about the words of all states of the keyboard. -/
theorem bits_induction {P : Mods → Prop} (h : ∀ a b c x y z : Bool, P ⟨fun | .shift => a | .ctl => b | .alt => c,
    fun | .caps => x | .num => y | .scroll => z⟩) (m : Mods) : P m := by
  have hheld : m.held = fun | .shift => m.held .shift | .ctl => m.held .ctl | .alt => m.held .alt := by
    funext x
    cases x <;> rfl
  have hlocked : m.locked = fun | .caps => m.locked .caps | .num => m.locked .num | .scroll => m.locked .scroll := by
    funext x
    cases x <;> rfl
  have heq : m = ⟨m.held, m.locked⟩ := rfl
  rw [heq, hheld, hlocked]
  exact h _ _ _ _ _ _

/-- The escape bit is not one of them; it is set and cleared again. -/
theorem bits_escape (m : Mods) : ¬ m.bits &&& e0esc ≠ 0 ∧ (m.bits ||| e0esc) &&& e0esc ≠ 0 ∧ (m.bits ||| e0esc) &&& ~~~e0esc = m.bits := by
  induction m using bits_induction with
  | h a b c x y z =>
    revert a b c x y z
    decide

theorem bits_press (m : Mods) (k : Key) :
    (m.bits ||| shiftcode k.index) ^^^ togglecode k.index = (m.after (.press k)).bits := by
  rw [shiftcode_index, togglecode_index, Mods.after]
  induction m using bits_induction with
  | h a b c x y z =>
    rcases k.modifier with _ | _ | _ | _ <;> rcases k.lock with _ | _ | _ | _ <;> revert a b c x y z <;> decide

theorem bits_release (m : Mods) (k : Key) : m.bits &&& ~~~(shiftcode k.index ||| e0esc) = (m.after (.release k)).bits ∧
    (m.bits ||| e0esc) &&& ~~~(shiftcode k.index ||| e0esc) = (m.after (.release k)).bits := by
  rw [shiftcode_index, Mods.after]
  induction m using bits_induction with
  | h a b c x y z => rcases k.modifier with _ | _ | _ | _ <;> revert a b c x y z <;> decide

theorem bits_mode (m : Mods) : charcode (m.bits &&& (ctlBit ||| shiftBit)) =
    if m.held .ctl then ctlmap else if m.held .shift then shiftmap else normalmap := by
  induction m using bits_induction with
  | h a b c x y z => cases a <;> cases b <;> cases c <;> cases x <;> cases y <;> cases z <;> rfl

theorem bits_caps (m : Mods) : m.bits &&& capsLock ≠ 0 ↔ m.locked .caps := by
  induction m using bits_induction with
  | h a b c x y z =>
    revert a b c x y z
    decide

theorem bits_reboot (m : Mods) : ~~~m.bits &&& (ctlBit ||| altBit) = 0 ↔ m.held .ctl ∧ m.held .alt := by
  induction m using bits_induction with
  | h a b c x y z =>
    revert a b c x y z
    decide

/-- The tables are chosen, and the machine is told to start again, as the modifiers say. -/
theorem kbdPressed_bits (m : Mods) (k : Key) :
    kbdPressed k.index m.bits = ((m.after (.press k)).result (.press k), (m.after (.press k)).bits) := by
  unfold kbdPressed
  rw [bits_press]
  generalize m.after (.press k) = m'
  have hchar : (if m'.bits &&& capsLock ≠ 0 then capsLetter (charcode (m'.bits &&& (ctlBit ||| shiftBit)) k.index)
      else charcode (m'.bits &&& (ctlBit ||| shiftBit)) k.index) = m'.char k := by
    rw [bits_mode, Mods.char]
    simp only [bits_caps]
    split_ifs <;> rfl
  dsimp only
  rw [hchar, Mods.result]
  congr 2
  have hreboot : (~~~m'.bits &&& (ctlBit ||| altBit) = 0 ∧ m'.char k = keyDel) ↔
      (m'.held .ctl && m'.held .alt && m'.char k = keyDel) = true := by
    rw [bits_reboot]
    simp
  rw [Bool.eq_iff_iff, decide_eq_true_iff]
  exact hreboot

/-! ### Events -/

theorem kbdRun_append : kbdRun (bytes ++ bytes') shift =
    ((kbdRun bytes shift).1 ++ (kbdRun bytes' (kbdRun bytes shift).2).1, (kbdRun bytes' (kbdRun bytes shift).2).2) := by
  induction bytes generalizing shift with
  | nil => rfl
  | cons data bytes ih =>
    rw [List.cons_append, kbdRun, ih]
    rfl

/-- The code of a key is no escape byte and has not the highest bit, whether the key is pressed or released. -/
theorem Key.code_facts (k : Key) : (k.code.setWidth 8 : BitVec 8) ≠ 0xE0 ∧ (k.code.setWidth 8 : BitVec 8) &&& 0x80 = 0 ∧
    0x80 ||| (k.code.setWidth 8 : BitVec 8) ≠ 0xE0 ∧ (0x80 ||| (k.code.setWidth 8 : BitVec 8)) &&& 0x80 ≠ 0 ∧
    (0x80 ||| (k.code.setWidth 8 : BitVec 8)) &&& 0x7F = k.code.setWidth 8 := by
  have hcodes : ∀ code : BitVec 7, code ≠ 0x60 → (code.setWidth 8 : BitVec 8) ≠ 0xE0 ∧ (code.setWidth 8 : BitVec 8) &&& 0x80 = 0 ∧
      0x80 ||| (code.setWidth 8 : BitVec 8) ≠ 0xE0 ∧ (0x80 ||| (code.setWidth 8 : BitVec 8)) &&& 0x80 ≠ 0 ∧
      (0x80 ||| (code.setWidth 8 : BitVec 8)) &&& 0x7F = code.setWidth 8 := by decide
  exact hcodes k.code k.used

theorem Key.index_eq (k : Key) : k.index = if k.isExtended then k.code.setWidth 8 ||| 0x80 else k.code.setWidth 8 := by
  unfold Key.index
  split_ifs
  · exact BitVec.or_comm _ _
  · exact BitVec.zero_or

/-- The word `shift` behind the escape byte, if there is one. -/
def Mods.escaped (m : Mods) (k : Key) : BitVec 32 := if k.isExtended then m.bits ||| e0esc else m.bits

/-- The last byte of a key that is pressed. -/
theorem kbdProcData_press (m : Mods) (k : Key) : kbdProcData (k.code.setWidth 8) (m.escaped k) =
    ((m.after (.press k)).result (.press k), (m.after (.press k)).bits) := by
  obtain ⟨hnone, hset, hclear⟩ := bits_escape m
  obtain ⟨hcode, hlow, -⟩ := k.code_facts
  have hpressed := kbdPressed_bits m k
  rw [k.index_eq] at hpressed
  rw [kbdProcData, if_neg hcode, if_neg (not_not.mpr hlow), Mods.escaped]
  split_ifs at hpressed ⊢ with hk
  · rw [hclear, hpressed]
  · exact hpressed

/-- The last byte of a key that is released. -/
theorem kbdProcData_release (m : Mods) (k : Key) : kbdProcData (0x80 ||| k.code.setWidth 8) (m.escaped k) =
    ((m.after (.release k)).result (.release k), (m.after (.release k)).bits) := by
  obtain ⟨hnone, hset, -⟩ := bits_escape m
  obtain ⟨-, -, hcode, hhigh, hback⟩ := k.code_facts
  obtain ⟨hrelease, hrelease'⟩ := bits_release m k
  rw [k.index_eq] at hrelease hrelease'
  rw [kbdProcData, if_neg hcode, if_pos hhigh, Mods.escaped]
  dsimp only
  split_ifs at hrelease hrelease' ⊢ with hk
  · rw [BitVec.or_comm 0x80, hrelease']
    rfl
  · rw [hback, hrelease]
    rfl

/-- **One event**: the bytes before the last give nothing, and the last gives what has been typed. -/
theorem kbdRun_event (m : Mods) (e : KeyEvent) : kbdRun (scan e) m.bits = (e.padding ++ [(m.after e).result e], (m.after e).bits) := by
  have hescape : ∀ k : Key, kbdRun (escape k) m.bits = ((escape k).map fun _ => ⟨0, false⟩, m.escaped k) := by
    intro k
    unfold escape Mods.escaped
    split_ifs
    · rfl
    · rfl
  cases e with
  | press k =>
    rw [scan, kbdRun_append, hescape, kbdRun, kbdProcData_press]
    rfl
  | release k =>
    rw [scan, kbdRun_append, hescape, kbdRun, kbdProcData_release]
    rfl

/-- Event after event. -/
theorem kbdRun_events (m : Mods) (es : List KeyEvent) : kbdRun (es.flatMap scan) m.bits = (typed m es, (m.afterAll es).bits) := by
  induction es generalizing m with
  | nil => rfl
  | cons e es ih =>
    rw [List.flatMap_cons, kbdRun_append, kbdRun_event, ih, typed, List.append_assoc]
    rfl

/-! ### What is held and locked -/

/-- The last event of the keys of a modifier, if there has been one, was a press. -/
def lastPressed (x : Modifier) (es : List KeyEvent) : Bool :=
  match es.reverse.find? fun e => match e with
    | .press k => k.modifier = some x
    | .release k => k.modifier = some x with
  | some (.press _) => true
  | _ => false

/-- How often a lock has been pressed. -/
def presses (x : Lock) (es : List KeyEvent) : ℕ :=
  es.countP fun e => match e with
    | .press k => k.lock = some x
    | .release _ => false

/-- **The modifiers** are those whose last event was a press, and **the locks** those that have been pressed an odd number of times. -/
theorem afterAll_eq (es : List KeyEvent) : (∀ x, (Mods.none.afterAll es).held x = lastPressed x es) ∧
    ∀ x, (Mods.none.afterAll es).locked x = decide (presses x es % 2 = 1) := by
  induction es using List.reverseRecOn with
  | nil => exact ⟨fun _ => rfl, fun _ => rfl⟩
  | append_singleton es e ih =>
    obtain ⟨hheld, hlocked⟩ := ih
    have hstep : Mods.none.afterAll (es ++ [e]) = (Mods.none.afterAll es).after e := by
      unfold Mods.afterAll
      rw [List.foldl_append]
      rfl
    rw [hstep]
    refine ⟨fun x => ?_, fun x => ?_⟩
    · unfold lastPressed at hheld ⊢
      rw [List.reverse_append, List.reverse_singleton, List.singleton_append, List.find?_cons]
      cases e with
      | press k =>
        show ((Mods.none.afterAll es).held x || decide (k.modifier = some x)) = _
        rw [hheld]
        by_cases hk : k.modifier = some x
        · simp [hk]
        · simp [hk]
      | release k =>
        show ((Mods.none.afterAll es).held x && decide (k.modifier ≠ some x)) = _
        rw [hheld]
        by_cases hk : k.modifier = some x
        · simp [hk]
        · simp [hk]
    · unfold presses at hlocked ⊢
      rw [List.countP_append, List.countP_singleton]
      cases e with
      | press k =>
        show xor ((Mods.none.afterAll es).locked x) (decide (k.lock = some x)) = _
        rw [hlocked]
        rw [Bool.eq_iff_iff]
        by_cases hk : k.lock = some x
        · simp only [hk, decide_true, Bool.xor_true, Bool.not_eq_true', decide_eq_false_iff_not, if_true, decide_eq_true_iff]
          omega
        · simp [hk]
      | release k =>
        show (Mods.none.afterAll es).locked x = _
        rw [hlocked]
        simp

/-- **The decoder is exact.** For every sequence of keys that are pressed and released, with and without escape bytes, the characters
are those of the tables for what is held and locked at that time. At the end the word `shift` has the modifiers whose last event was
a press and the locks that have been pressed an odd number of times, and no byte is waited for. -/
theorem kbd_decodes (es : List KeyEvent) : (kbdRun (es.flatMap scan) 0).1 = typed .none es ∧
    ∃ m : Mods, (kbdRun (es.flatMap scan) 0).2 = m.bits ∧ (∀ x, m.held x = lastPressed x es) ∧
      ∀ x, m.locked x = decide (presses x es % 2 = 1) := by
  have hrun : kbdRun (es.flatMap scan) 0 = _ := kbdRun_events .none es
  rw [hrun]
  exact ⟨rfl, _, rfl, afterAll_eq es⟩

end Ucore.Driver
