import Ucore.Driver.ConsoleInput
import Ucore.Driver.ConsoleOutput

/-!
# Reading a line

`readline` of `kern/libs/readline.c` edits a line with the characters of the console, and echoes them.

* `readlineLoop` is its loop, over the results of `cons_getc`. When there are no more of them, the call is still waiting.
* `edited` says what the line is: a character goes to its end, and `'\b'` removes the last one.
* `Editing base line t`: the buffer has the line, the screen shows the paper of `base` with the line at its cursor. A character
  keeps it, `Editing.step`, and so does the loop, `readlineLoop_reads`.
* `readline_shows` is about a call with a prompt, and `typed_line_shown` goes back to the keys that have been pressed.
-/

namespace Ucore.Driver

open Ucore.Lib Ucore.Libs

/-- `BUFSIZE` -/
def bufsize : ℕ := 1024

/-- The devices, and the buffer of `readline`. -/
structure Terminal where
  out : ConsOut
  buf : ℕ → BitVec 8

/-- `line polls`: the buffer is returned, and `polls` has not been used. -/
inductive ReadResult where
  | waiting
  | null
  | line (polls : List (BitVec 8))
  deriving DecidableEq

/-- The loop, with the variable `i`. `getchar` calls `cons_getc` again when there is nothing. -/
def readlineLoop : List (BitVec 8) → ℕ → Terminal → ReadResult × Terminal
  | [], _, t => (.waiting, t)
  | b :: polls, i, t =>
    if b = 0 then readlineLoop polls i t
    else
      let c : BitVec 32 := b.setWidth 32
      if c.toInt < 0 then (.null, t)
      else if 32 ≤ c.toInt ∧ i < bufsize - 1 then
        readlineLoop polls (i + 1) ⟨consPutc c t.out, Function.update t.buf i (c.setWidth 8)⟩
      else if c = 8 ∧ 0 < i then readlineLoop polls (i - 1) { t with out := consPutc c t.out }
      else if c = 10 ∨ c = 13 then (.line polls, ⟨consPutc c t.out, Function.update t.buf i 0⟩)
      else readlineLoop polls i t

/-- The prompt is a pointer, which may be `NULL`. Source: `kern/libs/readline.c` `readline` -/
def readline (depth : ℕ) (prompt : BitVec 32) (memory : BitVec 32 → CString) (polls : List (BitVec 8)) :
    Prog PrintPanic Empty Terminal ReadResult := do
  if prompt ≠ 0 then do
    let _ ← (vcprintf depth (literal "%s") (fun _ => prompt) memory).zoom Terminal.out (fun o t => { t with out := o }) id
  let t ← Prog.get
  Prog.modify fun t => (readlineLoop polls 0 t).2
  pure (readlineLoop polls 0 t).1

/-! ### The line -/

/-- The character ends the line. -/
def ends (b : BitVec 8) : Bool := b = 10 || b = 13

/-- What any other character does to the line. -/
def edit (line : List (BitVec 8)) (b : BitVec 8) : List (BitVec 8) :=
  if 32 ≤ b.toNat ∧ line.length < bufsize - 1 then line ++ [b]
  else if b = 8 then line.dropLast
  else line

/-- The line after some more characters. -/
def edited (line chars : List (BitVec 8)) : List (BitVec 8) := chars.foldl edit line

/-- A character on the screen. -/
def cellOf (b : BitVec 8) : Cell := (coloured (b.setWidth 32)).setWidth 16

/-- The line is in the buffer and on the screen. -/
structure Editing (base : Roll Cell) (line : List (BitVec 8)) (t : Terminal) : Prop where
  stored : tabulate t.buf 0 line.length = line
  printable : ∀ b ∈ line, 32 ≤ b.toNat
  fits : line.length < bufsize
  screen : ∃ r, Shows t.out.screen r ∧ Roll.Written base (line.map cellOf) r

variable {base r : Roll Cell} {line polls : List (BitVec 8)} {t : Terminal} {b : BitVec 8}

/-! ### One character -/

/-- The facts about the characters that are printed. -/
theorem setWidth_facts (b : BitVec 8) : (b.setWidth 32 : BitVec 32).toInt = b.toNat ∧ (b.setWidth 32 &&& 0xFF#32).toNat = b.toNat ∧
    ((b.setWidth 32 : BitVec 32).setWidth 8 : BitVec 8) = b ∧ ((b.setWidth 32 : BitVec 32) = 8 ↔ b = 8) ∧
    ((b.setWidth 32 : BitVec 32) = 10 ∨ (b.setWidth 32 : BitVec 32) = 13 ↔ ends b = true) := by
  revert b
  decide +kernel

theorem rollPutc_char (h : 32 ≤ b.toNat) : rollPutc (b.setWidth 32) r = r.put crtCols crtRows (cellOf b) := by
  obtain ⟨-, hlow, -⟩ := setWidth_facts b
  unfold rollPutc
  rw [hlow]
  split
  · omega
  · omega
  · omega
  · rfl

theorem rollPutc_back : rollPutc 8 r = r.back blankCell := by
  have herased : erased (coloured 8) = blankCell := by decide
  exact congrArg r.back herased

/-- A character goes to the end of the line. -/
theorem Editing.char (h : Editing base line t) (hchar : 32 ≤ b.toNat) (hroom : line.length < bufsize - 1) :
    Editing base (line ++ [b]) ⟨consPutc (b.setWidth 32) t.out, Function.update t.buf line.length b⟩ := by
  obtain ⟨r, hshows, hwritten⟩ := h.screen
  refine ⟨?_, ?_, ?_, r.put crtCols crtRows (cellOf b), ?_, ?_⟩
  · rw [List.length_append, List.length_singleton, ← tabulate_append, Nat.zero_add]
    have hkept : tabulate (Function.update t.buf line.length b) 0 line.length = tabulate t.buf 0 line.length := by
      refine List.map_congr_left fun k hk => Function.update_of_ne ?_ _ _
      have hk := (List.mem_range'_1.mp hk).2
      omega
    rw [hkept, h.stored]
    congr 1
    exact congrArg (fun x => [x]) (Function.update_self _ _ _)
  · intro d hd
    rcases List.mem_append.mp hd with hd | hd
    · exact h.printable d hd
    · rw [List.mem_singleton.mp hd]
      exact hchar
  · rw [List.length_append, List.length_singleton]
    exact Nat.add_lt_of_lt_sub hroom
  · have hputc := cgaPutc_shows hshows (b.setWidth 32)
    rwa [rollPutc_char hchar] at hputc
  · have hsize : bufsize + crtCols ≤ crtCols * crtRows := by decide
    have hput := hwritten.put hshows.ready (by rw [List.length_map]; omega) (cellOf b)
    rwa [List.map_append]

/-- The last character is removed. -/
theorem Editing.back (h : Editing base (line ++ [b]) t) (hclear : base.Clear blankCell) :
    Editing base line { t with out := consPutc 8 t.out } := by
  obtain ⟨r, hshows, hwritten⟩ := h.screen
  have hstored := h.stored
  have hfits := h.fits
  rw [List.length_append, List.length_singleton] at hstored hfits
  refine ⟨?_, fun d hd => h.printable d (List.mem_append_left _ hd), Nat.lt_of_succ_lt hfits, r.back blankCell, ?_, ?_⟩
  · rw [← tabulate_append] at hstored
    exact List.append_inj_left hstored length_tabulate
  · have hputc := cgaPutc_shows hshows 8
    rwa [rollPutc_back] at hputc
  · rw [List.map_append] at hwritten
    exact hwritten.back hclear

/-- **One character** that does not end the line. -/
theorem Editing.step (h : Editing base line t) (hclear : base.Clear blankCell) (hzero : b ≠ 0) (hb : ends b = false) (polls : List (BitVec 8)) :
    ∃ t', readlineLoop (b :: polls) line.length t = readlineLoop polls (edit line b).length t' ∧ Editing base (edit line b) t' := by
  obtain ⟨hvalue, -, hback, height, hends⟩ := setWidth_facts b
  rw [readlineLoop]
  dsimp only
  rw [hvalue, hback, edit, if_neg hzero, if_neg (by omega)]
  by_cases hchar : 32 ≤ b.toNat ∧ line.length < bufsize - 1
  · rw [if_pos (by omega), if_pos hchar, List.length_append, List.length_singleton]
    exact ⟨_, rfl, h.char hchar.1 hchar.2⟩
  · rw [if_neg (by omega), if_neg hchar]
    have hgoes : ¬ ((b.setWidth 32 : BitVec 32) = 10 ∨ (b.setWidth 32 : BitVec 32) = 13) := by
      rw [hends, hb]
      exact Bool.false_ne_true
    by_cases h8 : b = 8
    · rw [if_pos h8]
      rcases List.eq_nil_or_concat line with rfl | ⟨line, d, rfl⟩
      · rw [if_neg (fun hpos => absurd hpos.2 (Nat.lt_irrefl 0)), if_neg hgoes]
        exact ⟨t, rfl, h⟩
      · rw [List.concat_eq_append] at h ⊢
        have hc : (b.setWidth 32 : BitVec 32) = 8 := height.mpr h8
        rw [List.dropLast_concat, List.length_append, List.length_singleton, Nat.add_sub_cancel, hc, if_pos ⟨rfl, Nat.succ_pos _⟩]
        exact ⟨_, rfl, h.back hclear⟩
    · rw [if_neg h8, if_neg (fun hc => h8 (height.mp hc.1)), if_neg hgoes]
      exact ⟨t, rfl, h⟩

/-! ### A call -/

/-- How a call has ended that has read the characters `read`: it is waiting, or the character `e` has ended the line. -/
inductive Reads (base : Roll Cell) (line read : List (BitVec 8)) : ReadResult → Terminal → Prop where
  | waiting {t : Terminal} (hall : ∀ b ∈ read, ends b = false) (h : Editing base (edited line read) t) :
    Reads base line read .waiting t
  | line {t : Terminal} {before rest : List (BitVec 8)} {e : BitVec 8} (hread : read = before ++ e :: chars rest)
    (hbefore : ∀ b ∈ before, ends b = false) (he : ends e = true) (h : Editing base (edited line before) t) :
    Reads base line read (.line rest) ⟨consPutc (e.setWidth 32) t.out, Function.update t.buf (edited line before).length 0⟩

/-- **The loop**, from a line that is there already. -/
theorem readlineLoop_reads (h : Editing base line t) (hclear : base.Clear blankCell) (polls : List (BitVec 8)) :
    Reads base line (chars polls) (readlineLoop polls line.length t).1 (readlineLoop polls line.length t).2 := by
  induction polls generalizing line t with
  | nil => exact .waiting nofun h
  | cons b polls ih =>
    by_cases hzero : b = 0
    · rw [hzero]
      exact ih h
    have hchars : chars (b :: polls) = b :: chars polls := List.filter_cons_of_pos (decide_eq_true hzero)
    rw [hchars]
    cases hb : ends b with
    | false =>
      obtain ⟨t', hloop, hediting⟩ := h.step hclear hzero hb polls
      have hrest := ih hediting
      rw [← hloop] at hrest
      generalize (readlineLoop (b :: polls) line.length t).1 = result at hrest ⊢
      generalize (readlineLoop (b :: polls) line.length t).2 = last at hrest ⊢
      cases hrest with
      | waiting hall hline => exact .waiting (List.forall_mem_cons.mpr ⟨hb, hall⟩) hline
      | @line t' before rest e hread hbefore he hline =>
        have hread' : b :: chars polls = b :: before ++ e :: chars rest := congrArg (b :: ·) hread
        exact .line hread' (List.forall_mem_cons.mpr ⟨hb, hbefore⟩) he hline
    | true =>
      obtain ⟨hvalue, -, -, height, hends⟩ := setWidth_facts b
      have hvalues : b = 10 ∨ b = 13 := by
        rw [ends, Bool.or_eq_true, decide_eq_true_iff, decide_eq_true_iff] at hb
        exact hb
      have hne : ¬ 32 ≤ b.toNat ∧ b ≠ 8 := by
        rcases hvalues with rfl | rfl <;> decide
      rw [readlineLoop, if_neg hzero]
      dsimp only
      rw [hvalue, if_neg (by omega), if_neg (by omega), if_neg (fun hc => hne.2 (height.mp hc.1)), if_pos (hends.mpr hb)]
      have hread : b :: chars polls = [] ++ b :: chars polls := rfl
      exact .line hread nofun hb h

/-! ### The prompt -/

/-- What is printed first. -/
def promptText (prompt : BitVec 32) (memory : BitVec 32 → CString) : CString := if prompt ≠ 0 then memory prompt else literal ""

theorem charsOf_low (b : UInt8) : (BitVec.ofInt 32 (charValue b) &&& 0xFF#32).toNat = b.toNat ∧
    (b.toNat = 8 → BitVec.ofInt 32 (charValue b) = 8) := by
  have hall : ∀ n < 256, (BitVec.ofInt 32 (charValue (UInt8.ofNat n)) &&& 0xFF#32).toNat = n ∧
      (n = 8 → BitVec.ofInt 32 (charValue (UInt8.ofNat n)) = 8) := by decide +kernel
  have hb := hall b.toNat b.toNat_lt
  rwa [UInt8.ofNat_toNat] at hb

/-- A text without a `'\r'` leaves nothing behind the cursor. -/
theorem rollPuts_clear {p : List UInt8} (hr : r.Clear blankCell) (hp : 13 ∉ p) :
    (rollPuts r (p.map fun b => .ofInt 32 (charValue b))).Clear blankCell := by
  induction p generalizing r with
  | nil => exact hr
  | cons b p ih =>
    obtain ⟨hlow, height⟩ := charsOf_low b
    refine ih ?_ fun hmem => hp (List.mem_cons_of_mem b hmem)
    have hne : b.toNat ≠ 13 := by
      intro h13
      have hb : b = 13 := UInt8.toNat_inj.mp h13
      exact hp (by rw [hb]; exact List.mem_cons_self)
    show (rollPutc (.ofInt 32 (charValue b)) r).Clear blankCell
    by_cases h8 : b.toNat = 8
    · rw [height h8, rollPutc_back]
      exact hr.back
    · unfold rollPutc
      rw [hlow]
      split
      · contradiction
      · exact hr.newline (by decide) _
      · contradiction
      · exact hr.put _ _ _

/-- Before anything has been typed. -/
theorem editing_nil (hshows : Shows t.out.screen r) : Editing r [] t :=
  ⟨rfl, nofun, by decide, r, hshows, .nil hshows.ready⟩

/-- The prompt is printed before the loop. -/
theorem readline_run (depth : ℕ) {prompt : BitVec 32} {memory : BitVec 32 → CString} (hlen : (promptText prompt memory).strlen < 2 ^ 31)
    (hshows : Shows t.out.screen r) (polls : List (BitVec 8)) : ∃ o, Prints t.out o (charsOf (promptText prompt memory)) ∧
      Shows o.screen (rollPuts r (charsOf (promptText prompt memory))) ∧ (readline (depth + 1) prompt memory polls).run t =
        .ok (readlineLoop polls 0 { t with out := o }).1 (readlineLoop polls 0 { t with out := o }).2 := by
  obtain ⟨o, hprints, hrun⟩ : ∃ o, Prints t.out o (charsOf (promptText prompt memory)) ∧
      (readline (depth + 1) prompt memory polls).run t =
        .ok (readlineLoop polls 0 { t with out := o }).1 (readlineLoop polls 0 { t with out := o }).2 := by
    unfold promptText at hlen ⊢
    by_cases hnull : prompt = 0
    · rw [if_neg (not_not.mpr hnull), readline, if_neg (not_not.mpr hnull)]
      exact ⟨t.out, Prints.refl _, rfl⟩
    · rw [if_pos hnull] at hlen
      rw [if_pos hnull, readline, if_pos hnull]
      obtain ⟨cnt, o, hprint, hprints⟩ := vcprintf_string depth memory t.out hnull hlen
      have hzoom : ((vcprintf (depth + 1) (literal "%s") (fun _ => prompt) memory).zoom Terminal.out (fun o t => { t with out := o })
          (id : PrintPanic → PrintPanic)).run t = .ok cnt { t with out := o } := by
        rw [Prog.zoom]
        dsimp only
        rw [hprint]
      exact ⟨o, hprints, (Prog.bind_of_ok hzoom).trans rfl⟩
  refine ⟨o, hprints, ?_, hrun⟩
  rw [hprints.screen]
  exact cgaPuts_shows _ hshows

/-- **`readline`**. Whatever the console returns, and whenever: the prompt is printed, and the line is what the characters before the
first `'\n'` or `'\r'` have been edited to. It is in the buffer with a zero behind it, and on the screen behind the prompt, also when the
screen has scrolled. -/
theorem readline_shows (depth : ℕ) {prompt : BitVec 32} {memory : BitVec 32 → CString} (hlen : (promptText prompt memory).strlen < 2 ^ 31)
    (hreturn : 13 ∉ (promptText prompt memory).bytes) (hshows : Shows t.out.screen r) (hclear : r.Clear blankCell)
    (polls : List (BitVec 8)) : ∃ o result t', (readline (depth + 1) prompt memory polls).run t = .ok result t' ∧
      Prints t.out o (charsOf (promptText prompt memory)) ∧
      Reads (rollPuts r (charsOf (promptText prompt memory))) [] (chars polls) result t' := by
  obtain ⟨o, hprints, hscreen, hrun⟩ := readline_run depth hlen hshows polls
  exact ⟨o, _, _, hrun, hprints, readlineLoop_reads (editing_nil (t := { t with out := o }) hscreen) (rollPuts_clear hclear hreturn) polls⟩

/-- The screen has been cleared, and nothing has been printed. -/
def Terminal.start : Terminal := ⟨⟨.clear, [], []⟩, fun _ => 0⟩

/-- `h`, a backspace, `i` and a new line. -/
theorem readline_shows_hi : ∃ o result t',
    (readline 1 1 (fun _ => literal "K> ") [0x68, 0, 0x08, 0x69, 0x0A]).run .start = .ok result t' ∧
      Prints Terminal.start.out o (charsOf (promptText 1 fun _ => literal "K> ")) ∧
      Reads (rollPuts blankRoll (charsOf (promptText 1 fun _ => literal "K> "))) [] (chars [0x68, 0, 0x08, 0x69, 0x0A]) result t' :=
  readline_shows 0 (by decide) (by decide) (t := .start) Cga.clear_shows (fun _ _ => rfl) _

/-! ### From the keys to the line -/

/-- The characters that some keys give. -/
def typedText (keys : List KeyEvent) : List (BitVec 8) := chars ((typed .none keys).map KbdResult.c)

variable {s : Console} {es : List ConsEvent} {keys : List KeyEvent}

/-- Without a serial line, and when nothing has been lost: what has been read is the start of what has been typed. -/
theorem read_typed (hstart : s.Start) (hshift : s.shift = 0) (hline : ∀ data, ConsEvent.line data ∉ es)
    (hkeys : keyBytes es = keys.flatMap scan) (hkept : (Devices.run es s.devices).2.queue.overflows = 0) :
    ∃ unread, typedText keys = chars (consRun es s).1 ++ unread ∧
      ((consRun es s).2.unread = [] → (consRun es s).2.kbd = [] → unread = []) := by
  obtain ⟨hout, hholds⟩ := consRun_queue hstart.holds es
  have haccounts : Accounts [] s.devices.queue := ⟨nofun, rfl, fun _ => rfl⟩
  have hkept := (haccounts.run es).kept hkept
  have harrived := run_keyboard (d := s.devices) rfl hline
  have hbits : Mods.none.bits = 0 := by decide
  have htyped : decoded (s.devices.kbd ++ keyBytes es) s.devices.shift = typedText keys := by
    show decoded (keyBytes es) s.shift = _
    rw [hshift, hkeys, decoded, ← hbits, kbdRun_events, typedText]
  rw [htyped] at harrived
  rw [List.nil_append, ← hout] at hkept
  refine ⟨(Devices.run es s.devices).2.queue.queue ++ decoded (Devices.run es s.devices).2.kbd
    (Devices.run es s.devices).2.shift, ?_, fun hread hkbd => ?_⟩
  · rw [← List.append_assoc, hkept]
    exact harrived.symm
  · rw [← hholds.unread, ← hholds.kbd, hread, hkbd]
    rfl

/-- **From the keys to the line.** Keys are pressed and released in any order while `readline` looks for characters at any times. If
the queue is never full, then what it reads is the start of what the keys mean, and all of it when no byte is left over; the line, in
the buffer and on the screen, is what this has been edited to. -/
theorem typed_line_shown (hstart : s.Start) (hshift : s.shift = 0) (hline : ∀ data, ConsEvent.line data ∉ es)
    (hkeys : keyBytes es = keys.flatMap scan) (hkept : (Devices.run es s.devices).2.queue.overflows = 0) (depth : ℕ)
    {prompt : BitVec 32} {memory : BitVec 32 → CString} (hlen : (promptText prompt memory).strlen < 2 ^ 31)
    (hreturn : 13 ∉ (promptText prompt memory).bytes) (hshows : Shows t.out.screen r) (hclear : r.Clear blankCell) :
    ∃ o result t' read unread, (readline (depth + 1) prompt memory (consRun es s).1).run t = .ok result t' ∧
      typedText keys = read ++ unread ∧ ((consRun es s).2.unread = [] → (consRun es s).2.kbd = [] → unread = []) ∧
      Prints t.out o (charsOf (promptText prompt memory)) ∧
      Reads (rollPuts r (charsOf (promptText prompt memory))) [] read result t' := by
  obtain ⟨unread, htext, hall⟩ := read_typed hstart hshift hline hkeys hkept
  obtain ⟨o, hprints, hscreen, hrun⟩ := readline_run depth hlen hshows (consRun es s).1
  have hreads := readlineLoop_reads (editing_nil (t := { t with out := o }) hscreen) (rollPuts_clear hclear hreturn) (consRun es s).1
  exact ⟨o, _, _, _, unread, hrun, htext, hall, hprints, hreads⟩

/-- The key `H` is pressed and released, and then the enter key. -/
theorem typed_line_shown_h : ∃ result t' read, (readline 1 0 (fun _ => literal "")
    (consRun [.key 0x23, .getc, .getc, .key 0xA3, .key 0x1C, .getc] Console.idle).1).run .start = .ok result t' ∧
      Reads (rollPuts blankRoll (charsOf (promptText 0 fun _ => literal ""))) [] read result t' := by
  have hkeys : keyBytes [.key 0x23, .getc, .getc, .key 0xA3, .key 0x1C, .getc] =
      [.press ⟨false, 0x23, by decide⟩, .release ⟨false, 0x23, by decide⟩, .press ⟨false, 0x1C, by decide⟩].flatMap scan := rfl
  have hlen : (promptText 0 fun _ => literal "").strlen < 2 ^ 31 := by decide
  obtain ⟨o, result, t', read, unread, hrun, -, -, -, hreads⟩ := typed_line_shown (s := .idle) (t := .start) ⟨rfl, rfl, rfl, rfl⟩ rfl
    (by simp) hkeys (by decide) 0 hlen (by decide) Cga.clear_shows (fun _ _ => rfl)
  exact ⟨result, t', read, hrun, hreads⟩

end Ucore.Driver
