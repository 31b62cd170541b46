import Ucore.User.Shell

/-!
# The file names of redirections

Which file name `runcmd` hands to `reopen`.

* `gettoken_post`: the tokens are those of the text, and a word reads as the word and all text behind it, as nothing has been
  written there yet. The next call of `gettoken` ends the word, but a redirection does not wait for it.
* So a file name is the word exactly where the command line ends with the word: `redirect_post`.
* `Trailing` says of a text that a redirection which is reached has text behind its word, and `names_exact_iff` that this is
  what goes wrong.
-/

namespace Ucore.User

open Ucore.Lib

/-- Every file name is the word behind its symbol. -/
def ExactNames (s : Sh) : Prop := ∀ r ∈ s.reopened, wordOf r.behind = some r.name

/-- In every run on the command line the file names are the words. -/
def NamesExact (cmd : CString) : Prop :=
  ∀ results, (runcmd.run (Sh.start cmd results)).Post (fun _ => ExactNames) (fun _ => ExactNames) fun _ => False

/-- With `argc` words before it, the text has a redirection with more text behind its word, and nothing ends the command line
before. -/
inductive Trailing : ℕ → List UInt8 → Prop
  | here {argc : ℕ} {text rest chars behind : List UInt8} {c : UInt8} (h : lexeme text = .symbol c rest)
    (hc : c = '<'.toUInt8 ∨ c = '>'.toUInt8) (hword : lexeme rest = .word chars behind) (hne : behind ≠ []) :
    Trailing argc text
  | word {argc : ℕ} {text chars rest : List UInt8} (h : lexeme text = .word chars rest) (hargc : argc ≠ execMaxArgNum)
    (hrest : Trailing (argc + 1) rest) : Trailing argc text
  | next {argc : ℕ} {text rest : List UInt8} {c : UInt8} (h : lexeme text = .symbol c rest)
    (hc : c = '|'.toUInt8 ∨ c = ';'.toUInt8) (hrest : Trailing 0 rest) : Trailing argc text

/-! ### The loops of `gettoken` -/

theorem skipWhitespace_spec (before text : List UInt8) :
    ∃ before', skipWhitespace before text = (before', text.dropWhile (· ∈ whitespace)) ∧
      before'.length + (text.dropWhile (· ∈ whitespace)).length = before.length + text.length := by
  induction text generalizing before with
  | nil => exact ⟨before, rfl, rfl⟩
  | cons c text ih =>
    by_cases hc : c ∈ whitespace
    · obtain ⟨before', hskip, hlen⟩ := ih (before ++ [0])
      refine ⟨before', ?_, ?_⟩
      · simpa [skipWhitespace, hc] using hskip
      · simp only [List.length_append, List.length_singleton] at hlen
        simp only [List.dropWhile_cons, hc, decide_true, if_true, List.length_cons]
        omega
    · exact ⟨before, by simp [skipWhitespace, hc], by simp [hc]⟩

theorem scanWord_eq (flag : Bool) (before : List UInt8) {text : List UInt8} (h : ∀ b ∈ text, b ≠ 0) :
    scanWord flag before text = (before ++ (splitWord flag text).1, (splitWord flag text).2) := by
  induction text generalizing flag before with
  | nil => simp [scanWord, splitWord]
  | cons c text ih =>
    have hc : c ≠ 0 := h c List.mem_cons_self
    have ih := fun flag before => ih flag before fun b hb => h b (List.mem_cons_of_mem c hb)
    simp only [scanWord, splitWord, hc, ne_eq, not_false_eq_true, true_and]
    split_ifs
    · rw [ih]
      simp
    · rw [ih]
      simp
    · simp

/-- A word and what is behind it have no zero, as the text has none. -/
theorem splitWord_ne_zero (quoted : Bool) {text : List UInt8} (h : ∀ b ∈ text, b ≠ 0) :
    (∀ b ∈ (splitWord quoted text).1, b ≠ 0) ∧ ∀ b ∈ (splitWord quoted text).2, b ≠ 0 := by
  induction text generalizing quoted with
  | nil => simp [splitWord]
  | cons c text ih =>
    have hc : c ≠ 0 := h c List.mem_cons_self
    have ih := fun quoted => ih quoted fun b hb => h b (List.mem_cons_of_mem c hb)
    simp only [splitWord]
    split_ifs
    · obtain ⟨h₁, h₂⟩ := ih (!quoted)
      exact ⟨by simpa using h₁, h₂⟩
    · obtain ⟨h₁, h₂⟩ := ih quoted
      exact ⟨by simpa [hc] using h₁, h₂⟩
    · exact ⟨by simp, h⟩

theorem splitWord_length (quoted : Bool) (text : List UInt8) :
    (splitWord quoted text).1.length + (splitWord quoted text).2.length = text.length := by
  induction text generalizing quoted with
  | nil => rfl
  | cons c text ih =>
    simp only [splitWord]
    split_ifs
    · have := ih (!quoted)
      simp only [Prod.map, List.length_cons, id]
      omega
    · have := ih quoted
      simp only [Prod.map, List.length_cons, id]
      omega
    · simp

/-- A text that starts with neither whitespace nor a symbol starts with a word. -/
theorem splitWord_pos {c : UInt8} (text : List UInt8) (hspace : c ∉ whitespace) (hsymbol : c ∉ symbols) :
    (splitWord false (c :: text)).2.length ≤ text.length := by
  have hc : false = true ∨ c ∉ whitespace ++ symbols := .inr (by simp [hspace, hsymbol])
  simp only [splitWord, if_pos hc]
  split_ifs
  · have := splitWord_length (!false) text
    simp only [Prod.map, id]
    omega
  · have := splitWord_length false text
    simp only [Prod.map, id]
    omega

/-! ### A token -/

/-- The bytes of a C string. -/
abbrev NulFree (text : List UInt8) : Prop := ∀ b ∈ text, b ≠ 0

/-- The part of the line from `cmd` on. -/
def At (s : Sh) (text : List UInt8) : Prop :=
  NulFree text ∧ ∃ before, s.line = before ++ text ∧ (s.cmd = some before.length ∨ s.cmd = none ∧ text = [])

/-- What `gettoken` leaves as it is. -/
structure SameCalls (s s' : Sh) : Prop where
  argv : s'.argv = s.argv
  results : s'.results = s.results
  reopened : s'.reopened = s.reopened

theorem At.behind {s : Sh} {text : List UInt8} (h : At s text) : s.line.drop (s.cmd.getD s.line.length) = text := by
  obtain ⟨-, before, hline, hcmd | ⟨hcmd, rfl⟩⟩ := h
  · simp [hcmd, hline]
  · simp [hcmd]

theorem endPointer_at {before after : List UInt8} (hfree : NulFree after) :
    endPointer before after = some before.length ∨ endPointer before after = none ∧ after = [] := by
  cases after with
  | nil => exact .inr ⟨rfl, rfl⟩
  | cons c after =>
    have hc : c ≠ 0 := hfree c List.mem_cons_self
    exact .inl (by simp [endPointer, hc])

/-- What a token does, by the text it is taken from. -/
def TokenPost (s : Sh) (text : List UInt8) (token : Token) (s' : Sh) : Prop :=
  SameCalls s s' ∧ match lexeme text with
    | .eof => token = .eof
    | .symbol c rest => token = .symbol c ∧ At s' rest ∧ rest.length < text.length
    | .word chars rest => token = .word ∧ At s' rest ∧ rest.length < text.length ∧ s'.str s'.t = chars ++ rest

theorem dropWhile_whitespace {text rest : List UInt8} {c : UInt8}
    (h : text.dropWhile (· ∈ whitespace) = c :: rest) : c ∉ whitespace := by
  have := List.head?_dropWhile_not (· ∈ whitespace) text
  rw [h] at this
  simpa using this

theorem whitespace_nulFree {text : List UInt8} (h : NulFree text) : NulFree (text.dropWhile (· ∈ whitespace)) :=
  fun b hb => h b ((List.dropWhile_sublist _).mem hb)

/-- **The next token** is the first one of the text. -/
theorem gettoken_post {s : Sh} {text : List UInt8} (h : At s text) :
    ∃ token s', gettoken.run s = .ok token s' ∧ TokenPost s text token s' := by
  obtain ⟨hfree, before, hline, hcmd⟩ := h
  rcases hcmd with hcmd | ⟨hcmd, rfl⟩
  swap
  · refine ⟨.eof, s, ?_, ⟨rfl, rfl, rfl⟩, rfl⟩
    rw [gettoken, Prog.bind_of_ok (Prog.run_get s), hcmd]
    rfl
  obtain ⟨before', hskip, hlen⟩ := skipWhitespace_spec before text
  have htake : s.line.take before.length = before ∧ s.line.drop before.length = text := by simp [hline]
  rw [gettoken, Prog.bind_of_ok (Prog.run_get s), hcmd]
  dsimp only
  rw [htake.1, htake.2, hskip]
  dsimp only
  have hrest := whitespace_nulFree hfree
  have hshort : (text.dropWhile (· ∈ whitespace)).length ≤ text.length := (List.dropWhile_sublist _).length_le
  cases hdrop : text.dropWhile (· ∈ whitespace) with
  | nil =>
    refine ⟨.eof, { s with line := before' ++ [] }, rfl, ⟨rfl, rfl, rfl⟩, ?_⟩
    simp [lexeme, hdrop]
  | cons c rest =>
    rw [hdrop] at hrest hshort
    have hc : c ≠ 0 := hrest c List.mem_cons_self
    have hrest' : NulFree rest := fun b hb => hrest b (List.mem_cons_of_mem c hb)
    rw [if_neg (show ¬ (c :: rest).headD 0 = 0 from hc)]
    by_cases hsymbol : c ∈ symbols
    · rw [if_pos (show (c :: rest).headD 0 ∈ symbols from hsymbol)]
      refine ⟨.symbol c, _, rfl, ⟨rfl, rfl, rfl⟩, ?_⟩
      rw [lexeme, hdrop]
      simp only [hsymbol, if_true]
      refine ⟨trivial, ⟨hrest', before' ++ [0], by simp, endPointer_at hrest'⟩, hshort⟩
    · rw [if_neg (show ¬ (c :: rest).headD 0 ∈ symbols from hsymbol), scanWord_eq false before' hrest]
      refine ⟨.word, _, rfl, ⟨rfl, rfl, rfl⟩, ?_⟩
      rw [lexeme, hdrop]
      simp only [hsymbol, if_false]
      obtain ⟨hchars, hbehind⟩ := splitWord_ne_zero false hrest
      have hpos := splitWord_pos rest (dropWhile_whitespace hdrop) hsymbol
      refine ⟨trivial, ⟨hbehind, _, rfl, endPointer_at hbehind⟩, ?_, ?_⟩
      · exact lt_of_le_of_lt hpos hshort
      · -- Nothing has been written behind the word.
        simp only [Sh.str, List.append_assoc, List.drop_left]
        refine List.takeWhile_eq_self_iff.mpr fun b hb => ?_
        rcases List.mem_append.mp hb with hb | hb
        · simpa using hchars b hb
        · simpa using hbehind b hb

/-! ### What is recorded -/

/-- The record of the calls of `reopen` grows. -/
def Records (s s' : Sh) : Prop := s.reopened <+: s'.reopened

instance : Std.Refl Records := ⟨fun s => List.prefix_refl s.reopened⟩

instance : IsTrans Sh Records := ⟨fun _ _ _ => List.IsPrefix.trans⟩

/-- The record of the calls of `reopen` stays. -/
def SameRecord (s s' : Sh) : Prop := s'.reopened = s.reopened

instance : Std.Refl SameRecord := ⟨fun _ => rfl⟩

instance : IsTrans Sh SameRecord := ⟨fun _ _ _ h h' => h'.trans h⟩

theorem syscall_sameRecord : Within SameRecord (fun _ => False) syscall :=
  .bind .get fun _ => .bind (.modify fun _ => rfl) fun _ => .pure _

theorem runit_sameRecord : Within SameRecord (fun _ => False) runit := by
  refine .bind .get fun s => ?_
  cases s.argv.map s.str with
  | nil => exact .pure _
  | cons name args =>
    refine .ite ?_ ?_
    · match args with
      | [] => exact .pure _
      | [_] => exact .bind (.modify fun _ => rfl) fun _ => .pure _
      | _ :: _ :: _ => exact .pure _
    · refine .bind (.bind syscall_sameRecord fun _ => .pure _) fun ret => .ite (.pure _) ?_
      exact .bind (.modify fun _ => rfl) fun _ => syscall_sameRecord

/-- The rest of a call of `reopen` changes only what the calls to come return. -/
theorem syscall_run (s : Sh) : syscall.run s = .ok (s.results.headD 0) { s with results := s.results.tail } := rfl

theorem reopen_run (fd : ℕ) (filename behind : List UInt8) (s : Sh) :
    ∃ ret results, (reopen fd filename behind).run s =
      .ok ret { s with reopened := s.reopened ++ [⟨fd, filename, behind⟩], results := results } := by
  rw [reopen, Prog.bind_of_ok (Prog.run_modify ..), Prog.bind_of_ok (syscall_run _)]
  split_ifs
  · rw [Prog.bind_of_ok (syscall_run _)]
    exact ⟨_, _, rfl⟩
  · exact ⟨_, _, rfl⟩
  · exact ⟨_, _, rfl⟩

/-- **A redirection** hands the word and all text behind it to `reopen`. Without a word it fails. -/
theorem redirect_post (fd : ℕ) {s : Sh} {text : List UInt8} (h : At s text) :
    match lexeme text with
    | .word chars behind => ((redirect fd).run s).Post
        (fun _ s' => At s' behind ∧ s'.argv = s.argv ∧ s'.reopened = s.reopened ++ [⟨fd, chars ++ behind, text⟩])
        (fun _ s' => s'.reopened = s.reopened ++ [⟨fd, chars ++ behind, text⟩]) fun _ => False
    | _ => ∃ s', (redirect fd).run s = .error (-1) s' ∧ s'.reopened = s.reopened := by
  obtain ⟨token, s₁, htoken, hsame, hpost⟩ := gettoken_post h
  have hstart : (redirect fd).run s = (if token = .word then do
      let s ← Prog.get
      let ret ← reopen fd (s.str s.t) text
      if ret ≠ 0 then Prog.throw ret else pure ()
    else Prog.throw (-1) : ShProg Unit).run s₁ := by
    rw [redirect, Prog.bind_of_ok (Prog.run_get s), Prog.bind_of_ok htoken, h.behind]
  rw [hstart]
  cases hlex : lexeme text with
  | eof =>
    rw [hlex] at hpost
    exact ⟨s₁, by simp [hpost], hsame.reopened⟩
  | symbol c rest =>
    rw [hlex] at hpost
    exact ⟨s₁, by simp [hpost.1], hsame.reopened⟩
  | word chars behind =>
    rw [hlex] at hpost
    obtain ⟨rfl, hat, -, hstr⟩ := hpost
    obtain ⟨ret, results, hreopen⟩ := reopen_run fd (s₁.str s₁.t) text s₁
    dsimp only
    rw [if_pos rfl, Prog.bind_of_ok (Prog.run_get s₁), Prog.bind_of_ok hreopen, ← hsame.reopened, ← hstr]
    split_ifs
    · rfl
    · exact ⟨hat, hsame.argv, rfl⟩

/-! ### Whole runs -/

theorem SameRecord.records {s s' : Sh} (h : SameRecord s s') : Records s s' := by
  have hsame : s'.reopened = s.reopened := h
  show s.reopened <+: s'.reopened
  exact hsame ▸ List.prefix_rfl

/-- A program that records nothing. -/
theorem Records.of_same {α : Type} {m : ShProg α} (h : Within SameRecord (fun _ => False) m) :
    Within Records (fun _ => True) m := fun s =>
  (h s).mono (fun _ _ => SameRecord.records) (fun _ _ => SameRecord.records) fun _ _ => trivial

theorem setArgv_records (argv : Sh → List ℕ) :
    Within Records (fun _ => True) (Prog.modify fun s => { s with argv := argv s } : ShProg Unit) :=
  .modify fun s => List.prefix_refl s.reopened

theorem gettoken_records : Within Records (fun _ => True) gettoken := by
  refine .bind .get fun s => ?_
  cases s.cmd with
  | none => exact .pure _
  | some p =>
    refine .ite ?_ (.ite ?_ ?_)
    · exact .bind (.modify fun s => List.prefix_refl s.reopened) fun _ => .pure _
    · exact .bind (.modify fun s => List.prefix_refl s.reopened) fun _ => .pure _
    · exact .bind (.modify fun s => List.prefix_refl s.reopened) fun _ => .pure _

theorem redirect_records (fd : ℕ) : Within Records (fun _ => True) (redirect fd) := by
  have hreopen : ∀ name behind, Within Records (fun _ => True) (reopen fd name behind) := by
    intro name behind
    refine .bind (.modify fun s => List.prefix_append _ _) fun _ => .bind (.of_same syscall_sameRecord) fun ret => ?_
    exact .ite (.bind (.of_same syscall_sameRecord) fun _ => .pure _) (.pure _)
  refine .bind .get fun s => .bind gettoken_records fun token => .ite (.bind .get fun s => ?_) (.throw _)
  exact .bind (hreopen _ _) fun ret => .ite (.throw _) (.pure _)

/-- What has been recorded stays recorded. -/
theorem runcmdLoop_records (fuel : ℕ) : Within Records (fun _ => True) (runcmdLoop fuel) := by
  induction fuel with
  | zero => exact .stop trivial
  | succ fuel ih =>
    have hsyscall := Records.of_same syscall_sameRecord
    have hrunit := Records.of_same runit_sameRecord
    refine .bind gettoken_records fun token => ?_
    cases token with
    | eof => exact hrunit
    | word => exact .bind .get fun s => .ite (.throw _) (.bind (setArgv_records _) fun _ => ih)
    | symbol c =>
      refine .ite (.bind (redirect_records 0) fun _ => ih) (.ite (.bind (redirect_records 1) fun _ => ih)
        (.ite ?_ (.ite ?_ (.throw _))))
      · refine .bind hsyscall fun ret => .ite ?_ (.ite (.throw _) ?_)
        · exact .bind hsyscall fun ret => .ite (.throw _) (.bind (setArgv_records _) fun _ => ih)
        · exact .bind hsyscall fun ret => .ite (.throw _) hrunit
      · refine .bind hsyscall fun ret => .ite hrunit (.ite (.throw _) ?_)
        exact .bind (setArgv_records _) fun _ => ih

theorem not_trailing_nil (argc : ℕ) : ¬ Trailing argc [] := by
  intro h
  cases h with
  | here h => cases h
  | word h => cases h
  | next h => cases h

theorem wordOf_word {text chars rest : List UInt8} (h : lexeme text = .word chars rest) : wordOf text = some chars := by
  rw [wordOf, h]

/-- A part that records nothing leaves the names exact. -/
theorem ExactNames.of_same {α : Type} {m : ShProg α} (h : Within SameRecord (fun _ => False) m) {s : Sh}
    (hs : ExactNames s) : (m.run s).Post (fun _ => ExactNames) (fun _ => ExactNames) fun _ => False := by
  have hkeep : ∀ s', SameRecord s s' → ExactNames s' := fun s' hs' r hr => hs r (hs' ▸ hr)
  exact (h s).mono (fun _ => hkeep) (fun _ => hkeep) fun _ h => h

theorem ExactNames.redirect {fd : ℕ} {s : Sh} {text : List UInt8} (h : At s text) (hs : ExactNames s)
    (hlast : ∀ chars behind, lexeme text = .word chars behind → behind = []) :
    ((redirect fd).run s).Post (fun _ s' => ExactNames s' ∧ At s' [] ∧ s'.argv = s.argv) (fun _ => ExactNames)
      fun _ => False := by
  have hpost := redirect_post fd h
  cases hlex : lexeme text with
  | eof =>
    rw [hlex] at hpost
    obtain ⟨s', hrun, hsame⟩ := hpost
    rw [hrun]
    exact fun r hr => hs r (hsame ▸ hr)
  | symbol c rest =>
    rw [hlex] at hpost
    obtain ⟨s', hrun, hsame⟩ := hpost
    rw [hrun]
    exact fun r hr => hs r (hsame ▸ hr)
  | word chars behind =>
    rw [hlex] at hpost
    obtain rfl := hlast chars behind hlex
    have hnew : ∀ s' : Sh, s'.reopened = s.reopened ++ [⟨fd, chars ++ [], text⟩] → ExactNames s' := by
      intro s' hs' r hr
      rw [hs'] at hr
      rcases List.mem_append.mp hr with hr | hr
      · exact hs r hr
      · rw [List.mem_singleton.mp hr, List.append_nil]
        exact wordOf_word hlex
    exact hpost.mono (fun _ s' h => ⟨hnew s' h.2.2, h.1, h.2.1⟩) (fun _ s' h => hnew s' h) fun _ h => h

/-- **A text without trailing redirections** has its file names right. -/
theorem runcmdLoop_exact {fuel : ℕ} {s : Sh} {text : List UInt8} (h : At s text) (hfuel : text.length < fuel)
    (hnot : ¬ Trailing s.argv.length text) (hs : ExactNames s) :
    ((runcmdLoop fuel).run s).Post (fun _ => ExactNames) (fun _ => ExactNames) fun _ => False := by
  induction fuel generalizing s text with
  | zero => omega
  | succ fuel ih =>
    obtain ⟨token, s₁, htoken, hsame, hpost⟩ := gettoken_post h
    have hs₁ : ExactNames s₁ := fun r hr => hs r (hsame.reopened ▸ hr)
    rw [runcmdLoop, Prog.bind_of_ok htoken]
    cases hlex : lexeme text with
    | eof =>
      rw [hlex] at hpost
      rw [hpost]
      exact hs₁.of_same runit_sameRecord
    | word chars rest =>
      rw [hlex] at hpost
      obtain ⟨rfl, hat, hshort, -⟩ := hpost
      dsimp only
      rw [Prog.bind_of_ok (Prog.run_get s₁)]
      split_ifs with hmax
      · exact hs₁
      · rw [Prog.bind_of_ok (Prog.run_modify ..)]
        refine ih hat (by omega) (fun ht => hnot (.word hlex (hsame.argv ▸ hmax) ?_)) hs₁
        rwa [List.length_append, List.length_singleton, hsame.argv] at ht
    | symbol c rest =>
      rw [hlex] at hpost
      obtain ⟨rfl, hat, hshort⟩ := hpost
      dsimp only
      -- A redirection that is reached is the end of the text.
      have hredirect : c = '<'.toUInt8 ∨ c = '>'.toUInt8 → ∀ fd, ((do
          redirect fd
          runcmdLoop fuel : ShProg ℤ).run s₁).Post (fun _ => ExactNames) (fun _ => ExactNames) fun _ => False := by
        intro hc fd
        have hlast : ∀ chars behind, lexeme rest = .word chars behind → behind = [] := fun chars behind hword => by
          by_contra hne
          exact hnot (.here hlex hc hword hne)
        refine (hs₁.redirect hat hlast).bind ?_
        rintro _ s₂ ⟨hs₂, hend, -⟩
        refine ih hend ?_ (not_trailing_nil _) hs₂
        rw [List.length_nil]
        omega
      -- The next command has no words yet.
      have hnext : c = '|'.toUInt8 ∨ c = ';'.toUInt8 → ∀ s₂, At s₂ rest → ExactNames s₂ → s₂.argv = [] →
          ((runcmdLoop fuel).run s₂).Post (fun _ => ExactNames) (fun _ => ExactNames) fun _ => False := by
        intro hc s₂ hat₂ hs₂ hargv
        refine ih hat₂ (by omega) (fun ht => hnot (.next hlex hc ?_)) hs₂
        rwa [hargv] at ht
      split_ifs with hin hout hpipe hthen
      · exact hredirect (.inl hin) 0
      · exact hredirect (.inr hout) 1
      · rw [Prog.bind_of_ok (syscall_run s₁)]
        split_ifs
        · rw [Prog.bind_of_ok (syscall_run _)]
          split_ifs
          · exact hs₁
          · exact hnext (.inl hpipe) _ hat hs₁ rfl
        · exact hs₁
        · rw [Prog.bind_of_ok (syscall_run _)]
          split_ifs
          · exact hs₁
          · exact ExactNames.of_same runit_sameRecord hs₁
      · rw [Prog.bind_of_ok (syscall_run s₁)]
        split_ifs
        · exact ExactNames.of_same runit_sameRecord hs₁
        · exact hs₁
        · exact hnext (.inr hthen) _ hat hs₁ rfl
      · exact hs₁

/-- Once a wrong name is recorded, the run has one. -/
theorem Records.not_exact {s s' : Sh} (h : Records s s') (hs : ¬ ExactNames s) : ¬ ExactNames s' := fun hs' =>
  hs fun r hr => hs' r (h.subset hr)

/-- **A text with a trailing redirection** has a run, one in which the calls succeed and every command is run by the process
that reads on, with a wrong file name. -/
theorem Trailing.not_exact {argc : ℕ} {text : List UInt8} (h : Trailing argc text) :
    ∃ results, ∀ fuel s, At s text → s.argv.length = argc → s.results = results → text.length < fuel →
      ((runcmdLoop fuel).run s).Post (fun _ s' => ¬ ExactNames s') (fun _ s' => ¬ ExactNames s') fun _ => True := by
  induction h with
  | @here argc text rest chars behind c h hc hword hne =>
    refine ⟨[], fun fuel s hat hargc hresults hfuel => ?_⟩
    obtain ⟨fuel, rfl⟩ := Nat.exists_eq_succ_of_ne_zero (Nat.ne_zero_of_lt hfuel)
    obtain ⟨token, s₁, htoken, hsame, hpost⟩ := gettoken_post hat
    rw [h] at hpost
    obtain ⟨rfl, hat₁, -⟩ := hpost
    rw [runcmdLoop, Prog.bind_of_ok htoken]
    dsimp only
    -- The name is longer than the word.
    have hwrong : ∀ fd, ((do
        redirect fd
        runcmdLoop fuel : ShProg ℤ).run s₁).Post (fun _ s' => ¬ ExactNames s') (fun _ s' => ¬ ExactNames s')
          fun _ => True := by
      intro fd
      have hbad : ∀ s' : Sh, s'.reopened = s₁.reopened ++ [⟨fd, chars ++ behind, rest⟩] → ¬ ExactNames s' := by
        intro s' hs' hexact
        have := hexact ⟨fd, chars ++ behind, rest⟩ (by simp [hs'])
        rw [wordOf_word hword, Option.some_inj] at this
        exact hne (List.self_eq_append_right.mp this)
      have hpost := redirect_post fd hat₁
      rw [hword] at hpost
      refine Outcome.post_bind.mpr (hpost.mono (fun _ s₂ h₂ => ?_) (fun _ s₂ h₂ => hbad s₂ h₂) fun _ _ => trivial)
      have hrest := runcmdLoop_records fuel s₂
      exact hrest.mono (fun _ s' hr => hr.not_exact (hbad s₂ h₂.2.2)) (fun _ s' hr => hr.not_exact (hbad s₂ h₂.2.2))
        fun _ h => h
    rcases hc with rfl | rfl
    · rw [if_pos rfl]
      exact hwrong 0
    · rw [if_neg (by decide), if_pos rfl]
      exact hwrong 1
  | @word argc text chars rest h hargc hrest ih =>
    obtain ⟨results, ih⟩ := ih
    refine ⟨results, fun fuel s hat hlen hresults hfuel => ?_⟩
    obtain ⟨fuel, rfl⟩ := Nat.exists_eq_succ_of_ne_zero (Nat.ne_zero_of_lt hfuel)
    obtain ⟨token, s₁, htoken, hsame, hpost⟩ := gettoken_post hat
    rw [h] at hpost
    obtain ⟨rfl, hat₁, hshort, -⟩ := hpost
    rw [runcmdLoop, Prog.bind_of_ok htoken]
    dsimp only
    rw [Prog.bind_of_ok (Prog.run_get s₁), if_neg (by rwa [hsame.argv, hlen]), Prog.bind_of_ok (Prog.run_modify ..)]
    refine ih fuel _ hat₁ ?_ (hsame.results.trans hresults) (by omega)
    rw [List.length_append, List.length_singleton, hsame.argv, hlen]
  | @next argc text rest c h hc hrest ih =>
    obtain ⟨results, ih⟩ := ih
    refine ⟨if c = '|'.toUInt8 then 0 :: 0 :: results else 1 :: results, fun fuel s hat hlen hresults hfuel => ?_⟩
    obtain ⟨fuel, rfl⟩ := Nat.exists_eq_succ_of_ne_zero (Nat.ne_zero_of_lt hfuel)
    obtain ⟨token, s₁, htoken, hsame, hpost⟩ := gettoken_post hat
    rw [h] at hpost
    obtain ⟨rfl, hat₁, hshort⟩ := hpost
    have hresults₁ := hsame.results.trans hresults
    rw [runcmdLoop, Prog.bind_of_ok htoken]
    dsimp only
    rcases hc with rfl | rfl
    · -- The child of the first `fork` goes on.
      rw [if_pos rfl] at hresults₁
      rw [if_neg (by decide), if_neg (by decide), if_pos rfl, Prog.bind_of_ok (syscall_run s₁), hresults₁,
        List.headD_cons, if_pos rfl, Prog.bind_of_ok (syscall_run _)]
      exact ih fuel _ hat₁ rfl rfl (by omega)
    · -- The parent goes on.
      rw [if_neg (by decide)] at hresults₁
      rw [if_neg (by decide), if_neg (by decide), if_neg (by decide), if_pos rfl, Prog.bind_of_ok (syscall_run s₁),
        hresults₁]
      exact ih fuel _ hat₁ rfl rfl (by omega)

theorem start_at (cmd : CString) (results : List ℤ) : At (Sh.start cmd results) cmd.bytes :=
  ⟨cmd.nul_free, [], rfl, .inl rfl⟩

theorem Trailing.not_namesExact {cmd : CString} (h : Trailing 0 cmd.bytes) : ¬ NamesExact cmd := by
  intro hall
  obtain ⟨results, hwrong⟩ := h.not_exact
  have hpost := hwrong (cmd.bytes.length + 1) _ (start_at cmd results) rfl rfl (Nat.lt_succ_self _)
  have hexact := hall results
  rw [runcmd, Prog.bind_of_ok (Prog.run_get _)] at hexact
  have hboth := hpost.and hexact
  revert hboth
  cases (runcmdLoop (cmd.bytes.length + 1)).run (Sh.start cmd results) with
  | ok a s' => exact fun hboth => hboth.1 hboth.2
  | error e s' => exact fun hboth => hboth.1 hboth.2
  | panic p => exact fun hboth => hboth.2

/-- The file names are the words exactly when no redirection that is reached has text behind its word. -/
theorem names_exact_iff (cmd : CString) : NamesExact cmd ↔ ¬ Trailing 0 cmd.bytes := by
  constructor
  · exact fun h htrailing => htrailing.not_namesExact h
  · intro hnot results
    rw [runcmd, Prog.bind_of_ok (Prog.run_get _)]
    refine runcmdLoop_exact (start_at cmd results) (Nat.lt_succ_self _) hnot fun r hr => ?_
    cases hr

/-- The command line `cat <a >b`. -/
def catCommand : CString := ⟨['c', 'a', 't', ' ', '<', 'a', ' ', '>', 'b'].map Char.toUInt8, by decide +kernel⟩

/-- Not every command line has its file names right. -/
theorem not_names_exact : ¬ ∀ cmd, NamesExact cmd := by
  intro h
  have hcat : Trailing 0 catCommand.bytes := .word rfl (by decide) (.here rfl (.inl rfl) rfl (by decide))
  exact hcat.not_namesExact (h catCommand)

/-- The first `reopen` opens `a >b`, and the second one `b`. -/
example : ((runcmd.run (Sh.start catCommand [0, 1, 0])).observe fun s => s.reopened.map Reopen.name) =
    some (0, [['a', ' ', '>', 'b'].map Char.toUInt8, ['b'].map Char.toUInt8]) := by decide

end Ucore.User
