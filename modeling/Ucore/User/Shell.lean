import Ucore.Lib.CString
import Ucore.Lib.Prog
import Mathlib.Algebra.Group.Int.Defs

/-!
# The shell

`gettoken` and `runcmd` of `user/sh.c`, on a command line that they cut in place.

* `Sh.line` are the bytes of the command line up to its last one; the zero behind them is read when the list is over.
* A token is an offset in the line. What it reads as depends on the bytes behind it: `Sh.str`.
* The results of the system calls are a list, so a run is one of those that the system may give: a `fork` that returns 0 is
  the child. What the shell prints is left out.
* `Sh.reopened` and `Sh.execd` record what is handed to `reopen` and to `__exec`.
-/

namespace Ucore.User

open Ucore.Lib

/-- `WHITESPACE` -/
def whitespace : List UInt8 := [' ', '\t', '\r', '\n'].map Char.toUInt8

/-- `SYMBOLS` -/
def symbols : List UInt8 := ['<', '|', '>', '&', ';'].map Char.toUInt8

/-- The character that starts and ends a quotation. -/
def quote : UInt8 := 34

/-- `EXEC_MAX_ARG_NUM` -/
def execMaxArgNum : ℕ := 32

/-- `E_NOENT` -/
def eNoent : ℤ := 16

/-- A call of `reopen`. -/
structure Reopen where
  fd : ℕ
  /-- The file name, up to its zero. -/
  name : List UInt8
  /-- The part of the command line in which `gettoken` looked for the word. -/
  behind : List UInt8
  deriving Repr, DecidableEq

/-- The variables of `runcmd`, and what the calls return and are given. -/
structure Sh where
  line : List UInt8
  /-- `cmd`: `none` for `NULL`. -/
  cmd : Option ℕ
  t : ℕ
  /-- `argv`, of length `argc`. -/
  argv : List ℕ
  shcwd : List UInt8
  /-- What the calls to come return. -/
  results : List ℤ
  reopened : List Reopen
  execd : Option (List (List UInt8))
  deriving Repr, DecidableEq

/-- What `gettoken` returns. -/
inductive Token where
  | eof
  | word
  | symbol (c : UInt8)
  deriving Repr, DecidableEq

/-- The line has not been consumed. -/
inductive ShPanic where
  | unfinished
  deriving Repr, DecidableEq

/-- An early return of `runcmd` is an error that carries its value. -/
abbrev ShProg := Prog ShPanic ℤ Sh

/-- The string at an offset, up to its zero. -/
def Sh.str (s : Sh) (t : ℕ) : List UInt8 := (s.line.drop t).takeWhile (· ≠ 0)

/-! ### Tokens -/

/-- The loop over whitespace. The bytes before `s` and those from `s` on. -/
def skipWhitespace : List UInt8 → List UInt8 → List UInt8 × List UInt8
  | before, [] => (before, [])
  | before, c :: after => if c ∈ whitespace then skipWhitespace (before ++ [0]) after else (before, c :: after)

/-- The loop over the characters of a word. -/
def scanWord : Bool → List UInt8 → List UInt8 → List UInt8 × List UInt8
  | _, before, [] => (before, [])
  | flag, before, c :: after =>
    if c ≠ 0 ∧ (flag = true ∨ c ∉ whitespace ++ symbols) then
      if c = quote then scanWord (!flag) (before ++ [32]) after else scanWord flag (before ++ [c]) after
    else (before, c :: after)

/-- The pointer `s` between the two parts, or `NULL` at the end of the string. -/
def endPointer (before after : List UInt8) : Option ℕ := if after.headD 0 ≠ 0 then some before.length else none

/-- Source: `sh.c` `gettoken` -/
def gettoken : ShProg Token := do
  let s ← Prog.get
  match s.cmd with
  | none => pure .eof
  | some p =>
    match skipWhitespace (s.line.take p) (s.line.drop p) with
    | (before, after) =>
      if after.headD 0 = 0 then do
        Prog.modify fun s => { s with line := before ++ after }
        pure .eof
      else if after.headD 0 ∈ symbols then do
        Prog.modify fun s => { s with
          line := before ++ 0 :: after.tail
          t := before.length
          cmd := endPointer (before ++ [0]) after.tail }
        pure (.symbol (after.headD 0))
      else
        match scanWord false before after with
        | (before', after') => do
          Prog.modify fun s => { s with
            line := before' ++ after'
            t := before.length
            cmd := endPointer before' after' }
          pure .word

/-! ### Commands -/

/-- The result of the next system call. -/
def syscall : ShProg ℤ := do
  let s ← Prog.get
  Prog.modify fun s => { s with results := s.results.tail }
  pure (s.results.headD 0)

/-- Source: `sh.c` `reopen` -/
def reopen (fd2 : ℕ) (filename behind : List UInt8) : ShProg ℤ := do
  Prog.modify fun s => { s with reopened := s.reopened ++ [⟨fd2, filename, behind⟩] }
  let ret ← syscall
  if 0 ≤ ret ∧ ret ≠ fd2 then do
    let ret ← syscall
    pure (if ret < 0 then ret else 0)
  else pure (if ret < 0 then ret else 0)

/-- Source: `sh.c` `testfile` -/
def testfile : ShProg ℤ := do
  let ret ← syscall
  pure (if ret < 0 then ret else 0)

/-- The two cases of a redirection. -/
def redirect (fd : ℕ) : ShProg Unit := do
  let before ← Prog.get
  let token ← gettoken
  if token = .word then do
    let s ← Prog.get
    let ret ← reopen fd (s.str s.t) (before.line.drop (before.cmd.getD before.line.length))
    if ret ≠ 0 then Prog.throw ret else pure ()
  else Prog.throw (-1)

/-- The end of `runcmd`, from `runit` on. -/
def runit : ShProg ℤ := do
  let s ← Prog.get
  match s.argv.map s.str with
  | [] => pure 0
  | name :: args =>
    if name = ['c', 'd'].map Char.toUInt8 then
      match args with
      | [dir] => do
        Prog.modify fun s => { s with shcwd := dir }
        pure 0
      | _ => pure (-1)
    else do
      let ret ← testfile
      if ret ≠ 0 ∧ ret ≠ -eNoent then pure ret
      else do
        let name := if ret = 0 then name else '/'.toUInt8 :: name
        Prog.modify fun s => { s with execd := some (name :: args) }
        syscall

/-- The loop over the tokens. -/
def runcmdLoop : ℕ → ShProg ℤ
  | 0 => Prog.stop .unfinished
  | fuel + 1 => do
    let token ← gettoken
    match token with
    | .word => do
      let s ← Prog.get
      if s.argv.length = execMaxArgNum then Prog.throw (-1)
      else do
        Prog.modify fun s => { s with argv := s.argv ++ [s.t] }
        runcmdLoop fuel
    | .eof => runit
    | .symbol c =>
      if c = '<'.toUInt8 then do
        redirect 0
        runcmdLoop fuel
      else if c = '>'.toUInt8 then do
        redirect 1
        runcmdLoop fuel
      else if c = '|'.toUInt8 then do
        let ret ← syscall
        if ret = 0 then do
          let ret ← syscall
          if ret < 0 then Prog.throw ret
          else do
            Prog.modify fun s => { s with argv := [] }
            runcmdLoop fuel
        else if ret < 0 then Prog.throw ret
        else do
          let ret ← syscall
          if ret < 0 then Prog.throw ret else runit
      else if c = ';'.toUInt8 then do
        let ret ← syscall
        if ret = 0 then runit
        else if ret < 0 then Prog.throw ret
        else do
          Prog.modify fun s => { s with argv := [] }
          runcmdLoop fuel
      else Prog.throw (-1)

/-- Source: `sh.c` `runcmd` -/
def runcmd : ShProg ℤ := do
  let s ← Prog.get
  runcmdLoop (s.line.length + 1)

/-- The state in which `runcmd` is called. -/
def Sh.start (cmd : CString) (results : List ℤ) : Sh where
  line := cmd.bytes
  cmd := some 0
  t := 0
  argv := []
  shcwd := []
  results := results
  reopened := []
  execd := none

/-! ### The text of a command line -/

/-- The first token of a text, with its characters and the text behind it. -/
inductive Lexeme where
  | eof
  | word (chars rest : List UInt8)
  | symbol (c : UInt8) (rest : List UInt8)
  deriving Repr, DecidableEq

/-- The characters of a word and the text behind it: the next whitespace or symbol outside quotes ends it, and a quote reads
as a space. -/
def splitWord : Bool → List UInt8 → List UInt8 × List UInt8
  | _, [] => ([], [])
  | quoted, c :: text =>
    if quoted = true ∨ c ∉ whitespace ++ symbols then
      if c = quote then ((splitWord (!quoted) text).map (32 :: ·) id)
      else ((splitWord quoted text).map (c :: ·) id)
    else ([], c :: text)

/-- The first token of a text. -/
def lexeme (text : List UInt8) : Lexeme :=
  match text.dropWhile (· ∈ whitespace) with
  | [] => .eof
  | c :: rest => if c ∈ symbols then .symbol c rest else .word (splitWord false (c :: rest)).1 (splitWord false (c :: rest)).2

/-- The word that a text starts with. -/
def wordOf (text : List UInt8) : Option (List UInt8) :=
  match lexeme text with
  | .word chars _ => some chars
  | _ => none

end Ucore.User
