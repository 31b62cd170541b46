import Ucore.Lib.CString
import Ucore.Lib.Prog
import Mathlib.Data.List.Forall2
import Mathlib.Data.List.TakeWhile

/-!
# The kernel monitor

`parse` of `kern/debug/kmonitor.c`, which cuts a command line into arguments in place, and what `runcmd` does with them.

* `Parse` has the line in two parts, before and from `buf` on; the zero at its end is read when the second part is over.
* `Parse.stores` records the stores to `argv` with their index. The array is on the stack of `runcmd`, so a store behind it goes
  to the stack frames of the callers, which `parse` does not use.
* `words` is the text split at its whitespace. `parseLoop_run`: there is one store for each word.
* The check of `argc` prints a message and goes on. `parse_splits_iff`: the array is large enough exactly for the lines of at most
  `maxargs` words.
-/

namespace Ucore.Debug

open Ucore.Lib

/-- `MAXARGS` -/
def maxargs : ℕ := 16

/-- `WHITESPACE` -/
def whitespace : List UInt8 := [' ', '\t', '\n', '\r'].map Char.toUInt8

/-- The variables of `parse`. -/
structure Parse where
  /-- The line before `buf`. -/
  before : List UInt8
  /-- The line from `buf` on. -/
  after : List UInt8
  argc : ℕ
  /-- The stores to `argv`: the index, and the offset in the line that is stored. -/
  stores : List (ℕ × ℕ)
  /-- How often the message has been printed. -/
  messages : ℕ
  deriving Repr, DecidableEq

/-- The line has not been consumed. -/
inductive ParsePanic where
  | unfinished
  deriving Repr, DecidableEq

abbrev ParseProg := Prog ParsePanic Empty Parse

/-- The loop over whitespace. -/
def skipBlanks : List UInt8 → List UInt8 → List UInt8 × List UInt8
  | before, [] => (before, [])
  | before, c :: after => if c ∈ whitespace then skipBlanks (before ++ [0]) after else (before, c :: after)

/-- The loop over the characters of an argument. -/
def scanArg : List UInt8 → List UInt8 → List UInt8 × List UInt8
  | before, [] => (before, [])
  | before, c :: after => if c ∈ whitespace then (before, c :: after) else scanArg (before ++ [c]) after

/-- `buf` is moved by one of the loops. -/
def Parse.move (s : Parse) (loop : List UInt8 → List UInt8 → List UInt8 × List UInt8) : Parse :=
  { s with before := (loop s.before s.after).1, after := (loop s.before s.after).2 }

/-- `argv[argc ++] = buf` -/
def Parse.store (s : Parse) : Parse :=
  { s with argc := s.argc + 1, stores := s.stores ++ [(s.argc, s.before.length)] }

/-- The loop of `parse`. -/
def parseLoop : ℕ → ParseProg ℕ
  | 0 => Prog.stop .unfinished
  | fuel + 1 => do
    Prog.modify fun s => s.move skipBlanks
    let s ← Prog.get
    if s.after = [] then pure s.argc
    else do
      (if s.argc = maxargs - 1 then Prog.modify fun s => { s with messages := s.messages + 1 } else pure () : ParseProg Unit)
      Prog.modify Parse.store
      Prog.modify fun s => s.move scanArg
      parseLoop fuel

/-- Source: `kern/debug/kmonitor.c` `parse` -/
def parse : ParseProg ℕ := do
  let s ← Prog.get
  parseLoop (s.after.length + 1)

/-- The state in which `parse` is called. -/
def Parse.start (line : CString) : Parse := ⟨[], line.bytes, 0, [], 0⟩

/-- The string at an offset of the line, up to its zero. -/
def Parse.str (s : Parse) (t : ℕ) : List UInt8 := ((s.before ++ s.after).drop t).takeWhile (· ≠ 0)

/-- The words of a text. -/
def words (text : List UInt8) : List (List UInt8) := (text.splitOnP (· ∈ whitespace)).filter (· ≠ [])

/-! ### The loops -/

/-- The text when its whitespace has been overwritten. -/
def blank (text : List UInt8) : List UInt8 := text.map fun c => if c ∈ whitespace then 0 else c

theorem blank_append (text text' : List UInt8) : blank (text ++ text') = blank text ++ blank text' := List.map_append

theorem blank_word {text : List UInt8} (h : ∀ c ∈ text, c ∉ whitespace) : blank text = text := by
  refine (List.map_congr_left fun c hc => ?_).trans (List.map_id' text)
  rw [if_neg (h c hc)]

theorem skipBlanks_spec (before text : List UInt8) : (skipBlanks before text).2 = text.dropWhile (· ∈ whitespace) ∧
    (skipBlanks before text).1 ++ blank (skipBlanks before text).2 = before ++ blank text := by
  induction text generalizing before with
  | nil => exact ⟨rfl, rfl⟩
  | cons c text ih =>
    by_cases hc : c ∈ whitespace
    · obtain ⟨hafter, hline⟩ := ih (before ++ [0])
      simp only [skipBlanks, hc, if_true, List.dropWhile_cons, decide_true]
      refine ⟨hafter, hline.trans ?_⟩
      simp [blank, hc]
    · simp [skipBlanks, hc]

theorem scanArg_eq (before text : List UInt8) :
    scanArg before text = (before ++ text.takeWhile (· ∉ whitespace), text.dropWhile (· ∉ whitespace)) := by
  induction text generalizing before with
  | nil => simp [scanArg]
  | cons c text ih =>
    by_cases hc : c ∈ whitespace
    · simp [scanArg, hc]
    · simp [scanArg, hc, ih]

/-! ### Words -/

theorem words_space {c : UInt8} (hc : c ∈ whitespace) (text : List UInt8) : words (c :: text) = words text := by
  rw [words, List.splitOnP_cons_eq_if_modifyHead, if_pos (by simpa using hc), List.filter_cons_of_neg (by simp), words]

theorem words_dropWhile (text : List UInt8) : words (text.dropWhile (· ∈ whitespace)) = words text := by
  induction text with
  | nil => rfl
  | cons c text ih =>
    by_cases hc : c ∈ whitespace
    · simpa [hc, words_space hc] using ih
    · simp [hc]

theorem words_nil : words [] = [] := rfl

/-- A text that does not start with whitespace starts with a word. -/
theorem words_word {c : UInt8} (hc : c ∉ whitespace) (text : List UInt8) : words (c :: text) =
    (c :: text).takeWhile (· ∉ whitespace) :: words ((c :: text).dropWhile (· ∉ whitespace)) := by
  have hword : ∀ b ∈ (c :: text).takeWhile (· ∉ whitespace), decide (b ∈ whitespace) = false := fun b hb => by
    simpa using List.mem_takeWhile_imp hb
  have hne : (c :: text).takeWhile (· ∉ whitespace) ≠ [] := by simp [hc]
  have hsplit := List.takeWhile_append_dropWhile (p := (· ∉ whitespace)) (l := c :: text)
  cases hrest : (c :: text).dropWhile (· ∉ whitespace) with
  | nil =>
    rw [hrest, List.append_nil] at hsplit
    rw [words, ← hsplit, List.splitOnP_eq_singleton hword, hsplit, words_nil, List.filter_cons_of_pos (by simp), List.filter_nil,
      hsplit]
  | cons b rest =>
    have hb : b ∈ whitespace := by
      have hhead := List.head?_dropWhile_not (· ∉ whitespace) (c :: text)
      rw [hrest] at hhead
      simpa using hhead
    rw [hrest] at hsplit
    rw [words_space hb, words, ← hsplit, List.splitOnP_append_cons_of_forall_mem hword b (by simpa using hb), hsplit, words,
      List.filter_cons_of_pos (by simpa using hne)]

/-! ### The arguments -/

/-- The string at the start of an argument. -/
theorem str_word {before word rest : List UInt8} (hword : ∀ c ∈ word, c ≠ 0) (hrest : rest.head?.getD 0 ∈ 0 :: whitespace) :
    ((before ++ (word ++ blank rest)).drop before.length).takeWhile (· ≠ 0) = word := by
  rw [List.drop_left, List.takeWhile_append_of_pos (by simpa using hword)]
  cases rest with
  | nil => simp [blank]
  | cons c rest =>
    have hc : c = 0 ∨ c ∈ whitespace := by simpa using hrest
    have hzero : (if c ∈ whitespace then 0 else c) = 0 := by
      rcases hc with rfl | hc
      · exact if_neg (by decide)
      · exact if_pos hc
    simp [blank, hzero]

/-- A turn of the loop in which the line is over. -/
theorem parseLoop_end {s : Parse} (h : s.after.dropWhile (· ∈ whitespace) = []) (fuel : ℕ) :
    ∃ s', (parseLoop (fuel + 1)).run s = .ok s.argc s' ∧ s'.before ++ s'.after = s.before ++ blank s.after ∧ s'.stores = s.stores := by
  obtain ⟨hafter, hline⟩ := skipBlanks_spec s.before s.after
  rw [h] at hafter
  rw [hafter] at hline
  refine ⟨s.move skipBlanks, ?_, ?_, rfl⟩
  · rw [parseLoop, Prog.bind_of_ok (Prog.run_modify ..), Prog.bind_of_ok (Prog.run_get _), if_pos (by exact hafter)]
    rfl
  · rw [← hline, Parse.move, hafter]
    rfl

/-- A turn of the loop in which there is a word. -/
theorem parseLoop_word {s : Parse} {c : UInt8} {rest : List UInt8} (h : s.after.dropWhile (· ∈ whitespace) = c :: rest) (fuel : ℕ) :
    ∃ before messages, before ++ blank (c :: rest) = s.before ++ blank s.after ∧ s.before.length ≤ before.length ∧
      (parseLoop (fuel + 1)).run s = (parseLoop fuel).run ⟨before ++ (c :: rest).takeWhile (· ∉ whitespace),
        (c :: rest).dropWhile (· ∉ whitespace), s.argc + 1, s.stores ++ [(s.argc, before.length)], messages⟩ := by
  obtain ⟨hafter, hline⟩ := skipBlanks_spec s.before s.after
  have hle : (s.after.dropWhile (· ∈ whitespace)).length ≤ s.after.length := (List.dropWhile_sublist _).length_le
  rw [h] at hafter hle
  rw [hafter] at hline
  refine ⟨(skipBlanks s.before s.after).1, if s.argc = maxargs - 1 then s.messages + 1 else s.messages, hline, ?_, ?_⟩
  · have hlen := congrArg List.length hline
    simp only [List.length_append, blank, List.length_map] at hlen
    omega
  · have hskip : s.move skipBlanks = ⟨(skipBlanks s.before s.after).1, c :: rest, s.argc, s.stores, s.messages⟩ := by
      rw [Parse.move, hafter]
    have hturn : ∀ m, (Parse.store ⟨(skipBlanks s.before s.after).1, c :: rest, s.argc, s.stores, m⟩).move scanArg =
        ⟨(skipBlanks s.before s.after).1 ++ (c :: rest).takeWhile (· ∉ whitespace), (c :: rest).dropWhile (· ∉ whitespace),
          s.argc + 1, s.stores ++ [(s.argc, (skipBlanks s.before s.after).1.length)], m⟩ := fun m => by
      rw [Parse.move, Parse.store, scanArg_eq]
    rw [parseLoop, Prog.bind_of_ok (Prog.run_modify ..), Prog.bind_of_ok (Prog.run_get _), hskip,
      if_neg (List.cons_ne_nil c rest)]
    by_cases hlast : s.argc = maxargs - 1
    · rw [if_pos hlast, Prog.bind_of_ok (Prog.run_modify ..), Prog.bind_of_ok (Prog.run_modify ..),
        Prog.bind_of_ok (Prog.run_modify ..), hturn, if_pos hlast]
    · rw [if_neg hlast, Prog.bind_of_ok (Prog.run_pure ..), Prog.bind_of_ok (Prog.run_modify ..),
        Prog.bind_of_ok (Prog.run_modify ..), hturn, if_neg hlast]

/-- What the loop has stored for the words `ws` when it has started with `argc` arguments and the `pos` bytes before `buf`. -/
structure StoredWords (argc pos : ℕ) (ws : List (List UInt8)) (stores : List (ℕ × ℕ)) (line : List UInt8) : Prop where
  indices : stores.map Prod.fst = List.range' argc ws.length
  behind : ∀ st ∈ stores, pos ≤ st.2
  ascending : (stores.map Prod.snd).Pairwise (· < ·)
  strings : List.Forall₂ (fun st w => (line.drop st.2).takeWhile (· ≠ 0) = w) stores ws

/-- A word in front of those that have been stored. -/
theorem StoredWords.cons {argc pos : ℕ} {before word : List UInt8} {ws : List (List UInt8)} {stores : List (ℕ × ℕ)}
    {line : List UInt8} (h : StoredWords (argc + 1) (before ++ word).length ws stores line) (hpos : pos ≤ before.length)
    (hne : word ≠ []) (hstr : (line.drop before.length).takeWhile (· ≠ 0) = word) :
    StoredWords argc pos (word :: ws) ((argc, before.length) :: stores) line := by
  have hlt : 0 < word.length := List.length_pos_iff.mpr hne
  have hbehind : ∀ st ∈ stores, before.length < st.2 := fun st hst => by
    have hle := h.behind st hst
    rw [List.length_append] at hle
    omega
  refine ⟨?_, fun st hst => ?_, ?_, .cons hstr h.strings⟩
  · rw [List.map_cons, h.indices]
    rfl
  · rcases List.mem_cons.mp hst with rfl | hst
    · exact hpos
    · exact hpos.trans (hbehind st hst).le
  · refine List.pairwise_cons.mpr ⟨fun t ht => ?_, h.ascending⟩
    obtain ⟨st, hst, rfl⟩ := List.mem_map.mp ht
    exact hbehind st hst

/-- **The loop** stores one pointer for each word. -/
theorem parseLoop_run {s : Parse} {fuel : ℕ} (hfree : ∀ c ∈ s.after, c ≠ 0) (hfuel : s.after.length < fuel) :
    ∃ s' stores, (parseLoop fuel).run s = .ok (s.argc + (words s.after).length) s' ∧
      s'.before ++ s'.after = s.before ++ blank s.after ∧ s'.stores = s.stores ++ stores ∧
      StoredWords s.argc s.before.length (words s.after) stores (s.before ++ blank s.after) := by
  induction fuel generalizing s with
  | zero => cases hfuel
  | succ fuel ih =>
    have hle : (s.after.dropWhile (· ∈ whitespace)).length ≤ s.after.length := (List.dropWhile_sublist _).length_le
    have hhead := List.head?_dropWhile_not (· ∈ whitespace) s.after
    have hfree' : ∀ c ∈ s.after.dropWhile (· ∈ whitespace), c ≠ 0 := fun c hc => hfree c ((List.dropWhile_sublist _).mem hc)
    rw [← words_dropWhile s.after]
    cases hrest : s.after.dropWhile (· ∈ whitespace) with
    | nil =>
      obtain ⟨s', hrun, hline, hstores⟩ := parseLoop_end hrest fuel
      refine ⟨s', [], hrun, hline, by rw [hstores, List.append_nil], rfl, ?_, List.Pairwise.nil, .nil⟩
      intro st hst
      cases hst
    | cons c rest =>
      rw [hrest] at hle hhead hfree'
      have hc : c ∉ whitespace := by simpa using hhead
      obtain ⟨before, messages, hline, hpos, hturn⟩ := parseLoop_word hrest fuel
      have hsplit := List.takeWhile_append_dropWhile (p := (· ∉ whitespace)) (l := c :: rest)
      have hword : ∀ b ∈ (c :: rest).takeWhile (· ∉ whitespace), b ∉ whitespace := fun b hb => by
        simpa using List.mem_takeWhile_imp hb
      have hne : (c :: rest).takeWhile (· ∉ whitespace) ≠ [] := by simp [hc]
      have hbehind := List.head?_dropWhile_not (· ∉ whitespace) (c :: rest)
      rw [words_word hc, hturn, ← hline]
      generalize (c :: rest).takeWhile (· ∉ whitespace) = word at *
      generalize (c :: rest).dropWhile (· ∉ whitespace) = text at *
      rw [← hsplit] at hfree' hle ⊢
      have hlt := List.length_pos_iff.mpr hne
      rw [List.length_append] at hle
      obtain ⟨s', stores, hrun, hend, hstores, hall⟩ := ih
        (s := ⟨before ++ word, text, s.argc + 1, s.stores ++ [(s.argc, before.length)], messages⟩)
        (fun c hc => hfree' c (List.mem_append_right _ hc)) (by dsimp only; omega)
      rw [blank_append, blank_word hword]
      rw [List.append_assoc] at hend hstores hall
      refine ⟨s', (s.argc, before.length) :: stores, ?_, hend, hstores, hall.cons hpos hne ?_⟩
      · rw [hrun, List.length_cons, Nat.add_right_comm]
        rfl
      · refine str_word (fun c hc => hfree' c (List.mem_append_left _ hc)) ?_
        cases text with
        | nil => exact List.mem_cons_self
        | cons d text => exact List.mem_cons_of_mem _ (by simpa using hbehind)

/-- The stores are in the array, and they are pointers to the words of the line in order, as many as there is room for. -/
structure Splits (line : CString) (argc : ℕ) (s : Parse) : Prop where
  inBounds : ∀ st ∈ s.stores, st.1 < maxargs
  argc_le : argc ≤ maxargs
  indices : s.stores.map Prod.fst = List.range argc
  ascending : (s.stores.map Prod.snd).Pairwise (· < ·)
  strings : List.Forall₂ (fun st w => s.str st.2 = w) s.stores ((words line.bytes).take maxargs)

/-- **`parse`** stores one pointer for each word. -/
theorem parse_run (line : CString) : ∃ s, parse.run (Parse.start line) = .ok (words line.bytes).length s ∧
    s.stores.map Prod.fst = List.range (words line.bytes).length ∧ (s.stores.map Prod.snd).Pairwise (· < ·) ∧
    List.Forall₂ (fun st w => s.str st.2 = w) s.stores (words line.bytes) := by
  have hfuel : (Parse.start line).after.length < line.bytes.length + 1 := Nat.lt_succ_self _
  obtain ⟨s, stores, hrun, hline, hstores, hall⟩ := parseLoop_run line.nul_free hfuel
  have hrun : (parseLoop (line.bytes.length + 1)).run (Parse.start line) = .ok (0 + (words line.bytes).length) s := hrun
  have hstores : s.stores = stores := hstores
  refine ⟨s, ?_, ?_, ?_, ?_⟩
  · rw [parse, Prog.bind_of_ok (Prog.run_get _), ← Nat.zero_add (words line.bytes).length]
    exact hrun
  · rw [hstores, hall.indices, List.range_eq_range']
    rfl
  · rw [hstores]
    exact hall.ascending
  · rw [hstores]
    refine hall.strings.imp fun st w hstr => ?_
    rw [Parse.str, hline]
    exact hstr

/-- The arguments fit into the array exactly when the line has at most `maxargs` words. -/
theorem parse_splits_iff (line : CString) :
    (∃ argc s, parse.run (Parse.start line) = .ok argc s ∧ Splits line argc s) ↔ (words line.bytes).length ≤ maxargs := by
  obtain ⟨s, hrun, hindices, hascending, hstrings⟩ := parse_run line
  constructor
  · rintro ⟨argc, s', hrun', h⟩
    rw [hrun] at hrun'
    obtain ⟨rfl, rfl⟩ := Outcome.ok.inj hrun'
    exact h.argc_le
  · intro hle
    refine ⟨_, s, hrun, fun st hst => ?_, hle, hindices, hascending, ?_⟩
    · have hmem : st.1 ∈ s.stores.map Prod.fst := List.mem_map_of_mem hst
      rw [hindices] at hmem
      exact (List.mem_range.mp hmem).trans_le hle
    · rw [List.take_of_length_le hle]
      exact hstrings

/-- A line of 17 words. -/
def seventeenWords : CString := ⟨(List.replicate 17 ['a'.toUInt8, ' '.toUInt8]).flatten, by decide +kernel⟩

/-- There are stores behind the array. -/
theorem not_parse_splits : ¬ ∀ line, ∃ argc s, parse.run (Parse.start line) = .ok argc s ∧ Splits line argc s := by
  intro h
  obtain ⟨argc, s, hrun, hsplits⟩ := h seventeenWords
  have hobs : (parse.run (Parse.start seventeenWords)).observe Parse.argc = some (17, 17) := by decide +kernel
  rw [hrun] at hobs
  obtain ⟨rfl, -⟩ := Prod.mk.inj (Option.some.inj hobs)
  exact absurd hsplits.argc_le (by decide)

/-! ### Commands -/

/-- The functions of `commands`. -/
inductive Command where
  | monHelp | monKerninfo | monBacktrace
  deriving Repr, DecidableEq

/-- Source: `kern/debug/kmonitor.c` `commands` -/
def commands : List (List UInt8 × Command) :=
  [(['h', 'e', 'l', 'p'].map Char.toUInt8, .monHelp),
    (['k', 'e', 'r', 'n', 'i', 'n', 'f', 'o'].map Char.toUInt8, .monKerninfo),
    (['b', 'a', 'c', 'k', 't', 'r', 'a', 'c', 'e'].map Char.toUInt8, .monBacktrace)]

/-- What `runcmd` does with a line. -/
inductive Dispatch where
  | nothing
  | call (func : Command) (args : List (List UInt8))
  | unknown (name : List UInt8)
  deriving Repr, DecidableEq

/-- The command for the words of a line. -/
def dispatch : List (List UInt8) → Dispatch
  | [] => .nothing
  | name :: args =>
    match commands.find? fun c => c.1 = name with
    | some c => .call c.2 args
    | none => .unknown name

/-- What a command is called with are the strings that its arguments point to. Source: `kern/debug/kmonitor.c` `runcmd` -/
def runcmd : ParseProg Dispatch := do
  let argc ← parse
  let s ← Prog.get
  pure (dispatch ((s.stores.take argc).map fun st => s.str st.2))

/-- **`runcmd`** looks for the first word of the line. -/
theorem runcmd_run (line : CString) : ∃ s, runcmd.run (Parse.start line) = .ok (dispatch (words line.bytes)) s := by
  obtain ⟨s, hrun, hindices, -, hstrings⟩ := parse_run line
  have hargs : (s.stores.take (words line.bytes).length).map (fun st => s.str st.2) = words line.bytes := by
    rw [← hstrings.length_eq, List.take_length]
    exact List.forall₂_eq_eq_eq ▸ (List.forall₂_map_left_iff.mpr hstrings)
  refine ⟨s, ?_⟩
  rw [runcmd, Prog.bind_of_ok hrun, Prog.bind_of_ok (Prog.run_get s), hargs]
  rfl

/-- A command with whitespace around its words. -/
example : (runcmd.run (Parse.start ⟨[' ', 'h', 'e', 'l', 'p', ' ', ' ', 'm', 'e', '\n'].map Char.toUInt8, by decide +kernel⟩)).observe
    Parse.stores = some (.call .monHelp [['m', 'e'].map Char.toUInt8], [(0, 1), (1, 7)]) := by decide

end Ucore.Debug
