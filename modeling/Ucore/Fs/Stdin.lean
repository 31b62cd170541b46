import Ucore.Lib.RingBuffer
import Ucore.Sync.Semaphore

/-!
# The keyboard

Interrupts put the characters that are typed into a ring buffer, and processes take them out. A reader that finds no character
sleeps on a wait queue in the middle of its loop.

* `devStdinWrite` and `devStdinRead` are the two functions; `devStdinResume` is what a reader does when `schedule` returns.
* `StdinStep` is an interrupt, a piece of a reader, or anything else that puts processes to sleep or wakes them up, and `StdinRun`
  are the runs, with what they have accepted, taken and returned.
* `stdin_fifo`: the characters come out in the order in which they went in, as long as none is typed while the buffer is full:
  `dev_stdin_write` stores the character before it looks whether there is room for it (`Typed`).
-/

namespace Ucore.Fs

open Ucore.Lib Ucore.Sync

variable {α : Type}

/-- `STDIN_BUFSIZE` -/
def stdinBufsize : ℕ := 4096

/-- A call of `dev_stdin_read` that sleeps: how many characters it still wants, and those in the buffer of the caller. -/
structure ReadCall where
  rest : ℕ
  buf : List UInt8
  deriving Repr, DecidableEq

/-- The variables of the device, the processes as far as they sleep, and the calls of `dev_stdin_read` that sleep. -/
structure Stdin where
  stdinBuffer : ℕ → UInt8
  rpos : ℕ
  wpos : ℕ
  sync : SyncState
  call : ℕ → Option ReadCall

abbrev StdinProg := Prog SyncPanic Unit Stdin

/-- A program on the processes. -/
def onSync (m : SyncProg α) : StdinProg α := Prog.zoom Stdin.sync (fun t s => { s with sync := t }) id m

/-- Source: `kern/fs/devs/dev_stdin.c` `dev_stdin_write` -/
def devStdinWrite (c : UInt8) : StdinProg Unit :=
  if c ≠ 0 then do
    Prog.modify fun s => { s with stdinBuffer := Function.update s.stdinBuffer (s.wpos % stdinBufsize) c }
    Prog.modify fun s => if s.wpos - s.rpos < stdinBufsize then { s with wpos := s.wpos + 1 } else s
    onSync Sync.devStdinWrite
  else pure ()

/-- How a piece of `dev_stdin_read` ends: what is in the buffer of the caller, and whether the call is over. -/
structure ReadPiece where
  buf : List UInt8
  isOver : Bool
  deriving Repr, DecidableEq

/-- The loop, with `rest` turns to go. -/
def readLoop (p : ℕ) : ℕ → List UInt8 → StdinProg ReadPiece
  | 0, buf => pure ⟨buf, true⟩
  | rest + 1, buf => do
    let s ← Prog.get
    if s.rpos < s.wpos then do
      Prog.modify fun s => { s with rpos := s.rpos + 1 }
      readLoop p rest (buf ++ [s.stdinBuffer (s.rpos % stdinBufsize)])
    else do
      onSync (devStdinReadBegin p)
      Prog.modify fun s => { s with call := Function.update s.call p (some ⟨rest + 1, buf⟩) }
      pure ⟨buf, false⟩

/-- Source: `kern/fs/devs/dev_stdin.c` `dev_stdin_read` -/
def devStdinRead (p len : ℕ) : StdinProg ReadPiece := readLoop p len []

/-- `dev_stdin_read` from the return of `schedule` on. Woken up by something else than a character, it returns what it has. -/
def devStdinResume (p : ℕ) (c : ReadCall) : StdinProg ReadPiece := do
  onSync (devStdinReadEnd p)
  Prog.modify fun s => { s with call := Function.update s.call p none }
  let s ← Prog.get
  if (s.sync.proc p).wait.wakeupFlags = wtKbd then readLoop p c.rest c.buf
  else pure ⟨c.buf, true⟩

/-! ### Runs -/

/-- What happens in a step: a character is typed, or a process takes characters, and returns those of the whole call if it is
over. -/
inductive StdinEvent where
  | typed (c : UInt8)
  | read (p : ℕ) (taken : List UInt8) (result : Option (List UInt8))
  | other

/-- The result of a call that is over. -/
def ReadPiece.result (e : ReadPiece) : Option (List UInt8) := if e.isOver then some e.buf else none

/-- One step, in any order. -/
inductive StdinStep (s : Stdin) : StdinEvent → Stdin → Prop where
  | write {s' : Stdin} (c : UInt8) (hrun : (devStdinWrite c).run s = .ok () s') : StdinStep s (.typed c) s'
  | read {s' : Stdin} {e : ReadPiece} (p len : ℕ) (hp : s.sync.Running p) (hcall : s.call p = none)
    (hrun : (devStdinRead p len).run s = .ok e s') : StdinStep s (.read p e.buf e.result) s'
  | resume {s' : Stdin} {e : ReadPiece} (p : ℕ) (c : ReadCall) (hp : (s.sync.proc p).state = .runnable)
    (hcall : s.call p = some c) (hrun : (devStdinResume p c).run s = .ok e s') :
    StdinStep s (.read p (e.buf.drop c.buf.length) e.result) s'
  | other {s' : Stdin} (c : Sync.Call) (hc : c.Enabled s.sync) (hwrite : c ≠ .write) (hread : ∀ p, c ≠ .read p)
    (hresume : ∀ p, c = .resume p → s.call p = none) (hrun : (onSync c.exec).run s = .ok () s') : StdinStep s .other s'

/-- What a run has done: the characters that count as accepted, those that have been taken, with the process, and what the calls
have returned. -/
structure StdinLog where
  accepted : List UInt8
  taken : List (ℕ × UInt8)
  returned : List (ℕ × List UInt8)

/-- A character is accepted if there is room for it among those that have not been taken. -/
def StdinLog.add (l : StdinLog) : StdinEvent → StdinLog
  | .typed c =>
    if c ≠ 0 ∧ l.accepted.length - l.taken.length < stdinBufsize then { l with accepted := l.accepted ++ [c] } else l
  | .read p taken result =>
    { l with taken := l.taken ++ taken.map (Prod.mk p), returned := l.returned ++ (result.map (Prod.mk p)).toList }
  | .other => l

/-- The runs whose steps all satisfy `P`. -/
inductive StdinRun (P : Stdin → StdinEvent → Prop) (s₀ : Stdin) : StdinLog → Stdin → Prop where
  | start : StdinRun P s₀ ⟨[], [], []⟩ s₀
  | step {l : StdinLog} {s s' : Stdin} {e : StdinEvent} (hrun : StdinRun P s₀ l s) (hP : P s e) (hstep : StdinStep s e s') :
    StdinRun P s₀ (l.add e) s'

/-- Source: `kern/fs/devs/dev_stdin.c` `stdin_device_init` -/
structure Stdin.Start (s : Stdin) : Prop where
  rpos : s.rpos = 0
  wpos : s.wpos = 0
  queue : s.sync.queue .stdin = []
  call : ∀ p, s.call p = none

/-- The characters in the buffer. -/
def Stdin.unread (s : Stdin) : List UInt8 := window s.stdinBuffer stdinBufsize s.rpos s.wpos

/-- What a process has in its buffer while its call sleeps. -/
def Stdin.pending (s : Stdin) (p : ℕ) : List UInt8 := ((s.call p).map ReadCall.buf).getD []

/-- What a process has taken, and what its calls have returned. -/
def StdinLog.takenBy (l : StdinLog) (p : ℕ) : List UInt8 := (l.taken.filter (·.1 = p)).map Prod.snd

def StdinLog.returnedTo (l : StdinLog) (p : ℕ) : List UInt8 := ((l.returned.filter (·.1 = p)).map Prod.snd).flatten

/-- A character that is typed finds room, or is the same as the oldest one. -/
def Calm (s : Stdin) (e : StdinEvent) : Prop :=
  ∀ c, e = .typed c → c ≠ 0 → s.unread.length < stdinBufsize ∨ s.unread.head? = some c

/-- No two calls of `dev_stdin_read` go on at the same time. -/
def Alone (s : Stdin) (e : StdinEvent) : Prop := ∀ p taken result, e = .read p taken result → ∀ q, q ≠ p → s.call q = none

/-! ### What the functions do to the buffer -/

variable {s s' s₀ : Stdin} {l : StdinLog} {e : ReadPiece} {p : ℕ} {c : UInt8} {taken buf : List UInt8} {result : Option (List UInt8)}

theorem onSync_eq_ok {m : SyncProg α} {a : α} (h : (onSync m).run s = .ok a s') : ∃ t, s' = { s with sync := t } := by
  unfold onSync Prog.zoom at h
  dsimp only at h
  cases hm : m.run s.sync with
  | ok b t =>
    rw [hm] at h
    cases h
    exact ⟨t, rfl⟩
  | error b t =>
    rw [hm] at h
    cases h
  | panic b =>
    rw [hm] at h
    cases h

theorem pending_of_none (h : s.call p = none) : s.pending p = [] := by
  unfold Stdin.pending
  rw [h]
  rfl

theorem pending_of_some {c : ReadCall} (h : s.call p = some c) : s.pending p = c.buf := by
  unfold Stdin.pending
  rw [h]
  rfl

theorem pending_congr (h : s'.call p = s.call p) : s'.pending p = s.pending p := by
  unfold Stdin.pending
  rw [h]

/-- What a process takes is what was the oldest, and the other calls go on as before. -/
structure Took (p : ℕ) (taken : List UInt8) (s s' : Stdin) : Prop where
  unread : s.unread = taken ++ s'.unread
  le : s'.rpos ≤ s'.wpos
  others : ∀ q, q ≠ p → s'.call q = s.call q

/-- What the caller has got is what is returned, or what is kept while the call sleeps. -/
theorem readLoop_took {rest : ℕ} (h : (readLoop p rest buf).run s = .ok e s') (hle : s.rpos ≤ s.wpos) (hcall : s.call p = none) :
    ∃ got, Took p got s s' ∧ buf ++ got = e.result.getD [] ++ s'.pending p ∧ e.buf = buf ++ got := by
  induction rest generalizing s buf with
  | zero =>
    cases h
    refine ⟨[], ⟨rfl, hle, fun _ _ => rfl⟩, ?_, (List.append_nil buf).symm⟩
    rw [pending_of_none hcall]
    rfl
  | succ rest ih =>
    rw [readLoop, Prog.get_bind_eq_ok] at h
    by_cases hchar : s.rpos < s.wpos
    · rw [if_pos hchar, Prog.bind_of_ok (Prog.run_modify ..)] at h
      obtain ⟨got, htook, hend, hbuf⟩ := ih h hchar hcall
      have hunread : s.unread = s.stdinBuffer (s.rpos % stdinBufsize) :: (got ++ s'.unread) := by
        rw [← htook.unread]
        exact window_pop hchar
      rw [List.append_assoc] at hend hbuf
      exact ⟨_ :: got, ⟨hunread, htook.le, htook.others⟩, hend, hbuf⟩
    · rw [if_neg hchar, Prog.bind_eq_ok] at h
      obtain ⟨⟨⟩, s₁, hsync, h⟩ := h
      obtain ⟨t, rfl⟩ := onSync_eq_ok hsync
      cases h
      refine ⟨[], ⟨rfl, hle, fun q hq => Function.update_of_ne hq _ _⟩, ?_, (List.append_nil buf).symm⟩
      rw [pending_of_some (Function.update_self ..), List.append_nil]
      rfl

/-- A piece of a reader. -/
theorem StdinStep.took (h : StdinStep s (.read p taken result) s') (hle : s.rpos ≤ s.wpos) :
    Took p taken s s' ∧ s.pending p ++ taken = result.getD [] ++ s'.pending p := by
  cases h with
  | @read _ e _ len hp hcall hrun =>
    obtain ⟨got, htook, hend, hbuf⟩ := readLoop_took hrun hle hcall
    rw [List.nil_append] at hbuf
    rw [pending_of_none hcall, hbuf]
    exact ⟨htook, hend⟩
  | @resume _ e _ c hp hcall hrun =>
    unfold devStdinResume at hrun
    rw [Prog.bind_eq_ok] at hrun
    obtain ⟨⟨⟩, s₁, hsync, hrun⟩ := hrun
    obtain ⟨t, rfl⟩ := onSync_eq_ok hsync
    rw [Prog.bind_of_ok (Prog.run_modify ..), Prog.get_bind_eq_ok] at hrun
    have hothers : ∀ q, q ≠ p → Function.update s.call p none q = s.call q := fun q hq => Function.update_of_ne hq _ _
    have hnone : Function.update s.call p none p = none := Function.update_self ..
    rw [pending_of_some hcall]
    split_ifs at hrun
    · obtain ⟨got, htook, hend, hbuf⟩ := readLoop_took hrun hle hnone
      rw [hbuf, List.drop_left]
      exact ⟨⟨htook.unread, htook.le, fun q hq => (htook.others q hq).trans (hothers q hq)⟩, hend⟩
    · cases hrun
      rw [List.drop_length, List.append_nil]
      refine ⟨⟨rfl, hle, hothers⟩, ?_⟩
      rw [pending_of_none hnone]
      exact (List.append_nil c.buf).symm

/-- A character is typed: it goes to the end, or, if there is no room, to the place of the oldest one. -/
structure Typed (c : UInt8) (s s' : Stdin) : Prop where
  call : s'.call = s.call
  le : s'.rpos ≤ s'.wpos
  unread : s'.unread = if c = 0 then s.unread else if s.unread.length < stdinBufsize then s.unread ++ [c] else c :: s.unread.tail

theorem devStdinWrite_typed (h : (devStdinWrite c).run s = .ok () s') (hle : s.rpos ≤ s.wpos)
    (hroom : s.unread.length ≤ stdinBufsize) : Typed c s s' := by
  have hlen : s.unread.length = s.wpos - s.rpos := length_window
  unfold devStdinWrite at h
  by_cases hc : c = 0
  · rw [if_neg (not_not.mpr hc)] at h
    cases h
    exact ⟨rfl, hle, (if_pos hc).symm⟩
  · rw [if_pos hc, Prog.bind_of_ok (Prog.run_modify ..), Prog.bind_of_ok (Prog.run_modify ..)] at h
    obtain ⟨t, rfl⟩ := onSync_eq_ok h
    by_cases hspace : s.wpos - s.rpos < stdinBufsize
    · rw [if_pos hspace]
      refine ⟨rfl, Nat.le_succ_of_le hle, ?_⟩
      rw [if_neg hc, hlen, if_pos hspace]
      exact window_push hle hspace
    · rw [if_neg hspace]
      refine ⟨rfl, hle, ?_⟩
      have hfull : s.wpos = s.rpos + stdinBufsize := by omega
      rw [if_neg hc, hlen, if_neg hspace]
      exact window_push_full (by decide) hfull

theorem StdinStep.typed (h : StdinStep s (.typed c) s') (hle : s.rpos ≤ s.wpos) (hroom : s.unread.length ≤ stdinBufsize) :
    Typed c s s' := by
  cases h with
  | write _ hrun => exact devStdinWrite_typed hrun hle hroom

/-- The rest of the kernel has nothing to do with the buffer. -/
theorem StdinStep.other_eq (h : StdinStep s .other s') : ∃ t, s' = { s with sync := t } := by
  cases h with
  | other _ _ _ _ _ hrun => exact onSync_eq_ok hrun

/-! ### What every run keeps -/

/-- The positions are in order, there are not too many characters, and every process has got what it has taken. -/
structure StdinInv (l : StdinLog) (s : Stdin) : Prop where
  le : s.rpos ≤ s.wpos
  room : s.unread.length ≤ stdinBufsize
  results : ∀ p, l.returnedTo p ++ s.pending p = l.takenBy p

/-- A character changes nothing of what has been taken and returned. -/
theorem add_typed (l : StdinLog) (c : UInt8) : (l.add (.typed c)).taken = l.taken ∧ (l.add (.typed c)).returned = l.returned := by
  unfold StdinLog.add
  dsimp only
  split_ifs
  · exact ⟨rfl, rfl⟩
  · exact ⟨rfl, rfl⟩

theorem takenBy_read (l : StdinLog) (p q : ℕ) (taken : List UInt8) (result : Option (List UInt8)) :
    (l.add (.read p taken result)).takenBy q = l.takenBy q ++ if p = q then taken else [] := by
  unfold StdinLog.takenBy StdinLog.add
  dsimp only
  rw [List.filter_append, List.map_append]
  congr 1
  split_ifs with hpq
  · rw [List.filter_eq_self.mpr, List.map_map]
    · exact List.map_id _
    · intro x hx
      obtain ⟨b, -, rfl⟩ := List.mem_map.mp hx
      exact decide_eq_true hpq
  · rw [List.filter_eq_nil_iff.mpr, List.map_nil]
    intro x hx
    obtain ⟨b, -, rfl⟩ := List.mem_map.mp hx
    rw [decide_eq_true_iff]
    exact hpq

theorem returnedTo_read (l : StdinLog) (p q : ℕ) (taken : List UInt8) (result : Option (List UInt8)) :
    (l.add (.read p taken result)).returnedTo q = l.returnedTo q ++ if p = q then result.getD [] else [] := by
  unfold StdinLog.returnedTo StdinLog.add
  dsimp only
  rw [List.filter_append, List.map_append, List.flatten_append]
  congr 1
  cases result with
  | none => split_ifs <;> rfl
  | some b =>
    split_ifs with hpq
    · simp [hpq]
    · simp [hpq]

theorem StdinInv.step {e : StdinEvent} (h : StdinInv l s) (hstep : StdinStep s e s') : StdinInv (l.add e) s' := by
  cases e with
  | typed c =>
    obtain ⟨hcall, hle, hunread⟩ := hstep.typed h.le h.room
    refine ⟨hle, ?_, fun p => ?_⟩
    · rw [hunread]
      have hpos : 0 < stdinBufsize := by decide
      split_ifs with hc hlt
      · exact h.room
      · rw [List.length_append]
        exact hlt
      · have hfull := Nat.le_antisymm h.room (Nat.le_of_not_lt hlt)
        rw [List.length_cons, List.length_tail, hfull]
        exact (Nat.sub_add_cancel hpos).le
    · obtain ⟨htaken, hreturned⟩ := add_typed l c
      unfold StdinLog.returnedTo StdinLog.takenBy
      rw [htaken, hreturned, pending_congr (congrFun hcall p)]
      exact h.results p
  | read p taken result =>
    obtain ⟨⟨hunread, hle, hothers⟩, hend⟩ := hstep.took h.le
    refine ⟨hle, ?_, fun q => ?_⟩
    · have := h.room
      rw [hunread, List.length_append] at this
      exact Nat.le_of_add_left_le this
    · rw [takenBy_read, returnedTo_read, ← h.results q]
      split_ifs with hpq
      · rw [← hpq, List.append_assoc, List.append_assoc, hend]
      · rw [pending_congr (hothers q (Ne.symm hpq)), List.append_nil, List.append_nil]
  | other =>
    obtain ⟨t, rfl⟩ := hstep.other_eq
    exact ⟨h.le, h.room, h.results⟩

section runs

variable {P : Stdin → StdinEvent → Prop}

theorem Stdin.Start.inv (h : s.Start) : StdinInv ⟨[], [], []⟩ s := by
  have hunread : s.unread = [] := by
    unfold Stdin.unread window
    rw [h.rpos, h.wpos]
    rfl
  refine ⟨?_, ?_, fun p => ?_⟩
  · rw [h.rpos, h.wpos]
  · rw [hunread]
    exact Nat.zero_le _
  · rw [pending_of_none (h.call p)]
    rfl

theorem StdinRun.inv (h : StdinRun P s₀ l s) (h₀ : s₀.Start) : StdinInv l s := by
  induction h with
  | start => exact h₀.inv
  | step hrun hP hstep ih => exact ih.step hstep

/-- As long as no character is typed into a full buffer, what is in there is what has been accepted and not been taken. -/
theorem StdinRun.order (h : StdinRun Calm s₀ l s) (h₀ : s₀.Start) : l.accepted = l.taken.map Prod.snd ++ s.unread := by
  induction h with
  | start =>
    unfold Stdin.unread window
    rw [h₀.rpos, h₀.wpos]
    rfl
  | @step l s s' e hrun hcalm hstep ih =>
    have hinv := hrun.inv h₀
    cases e with
    | typed c =>
      obtain ⟨-, -, hunread⟩ := hstep.typed hinv.le hinv.room
      have hlen : l.accepted.length - l.taken.length = s.unread.length := by
        rw [ih, List.length_append, List.length_map]
        exact Nat.add_sub_cancel_left _ _
      unfold StdinLog.add
      dsimp only
      rw [hunread, hlen]
      by_cases hc : c = 0
      · rw [if_pos hc, if_neg fun hand => hand.1 hc]
        exact ih
      · rw [if_neg hc]
        by_cases hlt : s.unread.length < stdinBufsize
        · rw [if_pos hlt, if_pos ⟨hc, hlt⟩, ← List.append_assoc, ← ih]
        · rw [if_neg hlt, if_neg fun hand => hlt hand.2]
          -- the character is the same as the oldest one
          have hhead : s.unread.head? = some c := (hcalm c rfl hc).resolve_left hlt
          rw [List.cons_head?_tail hhead]
          exact ih
    | read p taken result =>
      obtain ⟨⟨hunread, -, -⟩, -⟩ := hstep.took hinv.le
      unfold StdinLog.add
      dsimp only
      rw [ih, hunread, List.map_append, List.map_map, List.append_assoc]
      congr 2
      exact (List.map_id taken).symm
    | other =>
      obtain ⟨t, rfl⟩ := hstep.other_eq
      exact ih

/-- When no two calls go on at the same time, the results are what has been taken, up to what the one call has that sleeps. -/
theorem StdinRun.alone (h : StdinRun Alone s₀ l s) (h₀ : s₀.Start) :
    ∃ p, (∀ q, q ≠ p → s.call q = none) ∧ (l.returned.map Prod.snd).flatten ++ s.pending p = l.taken.map Prod.snd := by
  induction h with
  | start =>
    refine ⟨0, fun q _ => h₀.call q, ?_⟩
    rw [pending_of_none (h₀.call 0)]
    rfl
  | @step l s s' e hrun halone hstep ih =>
    have hinv := hrun.inv h₀
    obtain ⟨p, hcall, hflat⟩ := ih
    cases e with
    | typed c =>
      obtain ⟨hsame, -, -⟩ := hstep.typed hinv.le hinv.room
      obtain ⟨htaken, hreturned⟩ := add_typed l c
      refine ⟨p, fun q hq => (congrFun hsame q).trans (hcall q hq), ?_⟩
      rw [htaken, hreturned, pending_congr (congrFun hsame p)]
      exact hflat
    | read q taken result =>
      have hothers := halone q taken result rfl
      obtain ⟨htook, hend⟩ := hstep.took hinv.le
      -- of the two processes, at most one has a call that sleeps
      have hpending : s.pending p = s.pending q := by
        by_cases hpq : p = q
        · rw [hpq]
        · rw [pending_of_none (hothers p hpq), pending_of_none (hcall q (Ne.symm hpq))]
      have hresult : ((result.map (Prod.mk q)).toList.map Prod.snd).flatten = result.getD [] := by
        cases result with
        | none => rfl
        | some b => exact List.append_nil b
      refine ⟨q, fun x hx => (htook.others x hx).trans (hothers x hx), ?_⟩
      unfold StdinLog.add
      dsimp only
      rw [List.map_append, List.flatten_append, hresult, List.append_assoc, ← hend, ← hpending, ← List.append_assoc, hflat,
        List.map_append, List.map_map]
      congr 1
      exact (List.map_id taken).symm
    | other =>
      obtain ⟨t, rfl⟩ := hstep.other_eq
      exact ⟨p, hcall, hflat⟩

end runs

/-! ### A full buffer -/

/-- The start, with all processes in user mode. -/
def stdinBoot : Stdin where
  stdinBuffer := fun _ => 0
  rpos := 0
  wpos := 0
  sync :=
    { proc := fun _ => { state := .runnable, waitState := 0, exiting := false, wait := ⟨0, none⟩, site := .running }
      value := fun _ => 0
      queue := fun _ => []
      timers := [] }
  call := fun _ => none

theorem stdinBoot_start : stdinBoot.Start := ⟨rfl, rfl, rfl, fun _ => rfl⟩

/-- A character when nobody waits. -/
theorem devStdinWrite_nobody (hq : s.sync.queue .stdin = []) (hc : c ≠ 0) : (devStdinWrite c).run s = .ok ()
    { s with
      stdinBuffer := Function.update s.stdinBuffer (s.wpos % stdinBufsize) c
      wpos := if s.wpos - s.rpos < stdinBufsize then s.wpos + 1 else s.wpos } := by
  unfold devStdinWrite
  rw [if_pos hc, Prog.bind_of_ok (Prog.run_modify ..), Prog.bind_of_ok (Prog.run_modify ..)]
  unfold onSync Prog.zoom Sync.devStdinWrite
  dsimp only
  split_ifs with hspace
  · rw [Prog.run_bind, Prog.run_get, Outcome.andThen_ok, hq]
    rfl
  · rw [Prog.run_bind, Prog.run_get, Outcome.andThen_ok, hq]
    rfl

/-- Up to a full buffer, all that is typed is accepted. -/
theorem typed_run {P : Stdin → StdinEvent → Prop} (hP : ∀ s, P s (.typed 97)) (n : ℕ) (hn : n ≤ stdinBufsize) :
    ∃ s, StdinRun P stdinBoot ⟨List.replicate n 97, [], []⟩ s ∧ s.sync = stdinBoot.sync ∧ s.call = stdinBoot.call ∧
      s.rpos = 0 ∧ s.wpos = n := by
  induction n with
  | zero => exact ⟨stdinBoot, .start, rfl, rfl, rfl, rfl⟩
  | succ n ih =>
    obtain ⟨s, hrun, hsync, hcall, hrpos, hwpos⟩ := ih (Nat.le_of_succ_le hn)
    have hq : s.sync.queue .stdin = [] := by
      rw [hsync]
      rfl
    have hwrite := devStdinWrite_nobody hq (show (97 : UInt8) ≠ 0 by decide)
    have hspace : s.wpos - s.rpos < stdinBufsize := by
      rw [hrpos, hwpos]
      exact hn
    rw [if_pos hspace] at hwrite
    have hstep := hrun.step (hP s) (.write 97 hwrite)
    have hlog : StdinLog.add ⟨List.replicate n 97, [], []⟩ (.typed 97) = ⟨List.replicate (n + 1) 97, [], []⟩ := by
      unfold StdinLog.add
      dsimp only
      rw [if_pos ⟨by decide, by rwa [List.length_replicate]⟩, List.replicate_succ']
    rw [hlog] at hstep
    refine ⟨_, hstep, hsync, hcall, hrpos, ?_⟩
    dsimp only
    rw [hwpos]

/-- Without room, a character counts for nothing. -/
theorem add_typed_full {n : ℕ} (hn : stdinBufsize ≤ n) :
    StdinLog.add ⟨List.replicate n 97, [], []⟩ (.typed c) = ⟨List.replicate n 97, [], []⟩ := by
  refine if_neg fun hand => absurd hand.2 (Nat.not_lt.mpr ?_)
  rwa [List.length_replicate]

end Ucore.Fs
