import Ucore.Driver.Keyboard
import Ucore.Lib.RingBuffer

/-!
# Console input

The characters of the keyboard and of the serial line go into one ring buffer, and `cons_getc` of `kern/driver/console.c` takes them
out.

* `Console` has the buffer, and the bytes that the two devices have ready. `consGetc` looks at the devices, and returns the oldest
  character.
* `ConsEvent` is a byte that arrives, or a call of `cons_getc`; `consRun` are the runs of them.
* `Forgetful` is the queue behind it: with the character that would make it full, everything in it is lost. `consRun_queue`: the runs
  are those of this queue.
* `console_lossless_iff`: all characters come out in their order exactly if the queue has never been full.
-/

namespace Ucore.Driver

open Ucore.Lib

/-- `CONSBUFSIZE` -/
def consbufsize : ℕ := 512

structure Console where
  buf : ℕ → BitVec 8
  rpos : ℕ
  wpos : ℕ
  /-- The word `shift` of `kbd_proc_data`. -/
  shift : BitVec 32
  serialExists : Bool
  /-- What the keyboard has ready. -/
  kbd : List (BitVec 8)
  /-- What the serial port has ready. -/
  serial : List (BitVec 8)
  /-- The machine has been told to start again. -/
  reboot : Bool

/-- The body of the loop in `cons_intr`. -/
def consStore (c : BitVec 8) (s : Console) : Console :=
  if c ≠ 0 then { s with buf := Function.update s.buf s.wpos c, wpos := wrap consbufsize s.wpos } else s

/-- `cons_intr`, where `proc` takes a byte of those that are ready. Source: `kern/driver/console.c` `cons_intr` -/
def consIntr (proc : BitVec 8 → Console → BitVec 8 × Console) : List (BitVec 8) → Console → Console
  | [], s => s
  | data :: ready, s => consIntr proc ready (consStore (proc data s).1 (proc data s).2)

/-- Source: `kern/driver/console.c` `serial_proc_data` -/
def serialProcData (data : BitVec 8) (s : Console) : BitVec 8 × Console := (if data = 127 then 8 else data, s)

/-- Source: `kern/driver/console.c` `serial_intr` -/
def serialIntr (s : Console) : Console :=
  if s.serialExists then consIntr serialProcData s.serial { s with serial := [] } else s

/-- `kbd_proc_data` with the variables of the console. -/
def kbdProc (data : BitVec 8) (s : Console) : BitVec 8 × Console :=
  let (out, shift) := kbdProcData data s.shift
  (out.c, { s with shift := shift, reboot := s.reboot || out.reboot })

/-- Source: `kern/driver/console.c` `kbd_intr` -/
def kbdIntr (s : Console) : Console := consIntr kbdProc s.kbd { s with kbd := [] }

/-- Source: `kern/driver/console.c` `cons_getc` -/
def consGetc (s : Console) : BitVec 8 × Console :=
  let s := kbdIntr (serialIntr s)
  if s.rpos ≠ s.wpos then (s.buf s.rpos, { s with rpos := wrap consbufsize s.rpos }) else (0, s)

/-! ### Runs -/

inductive ConsEvent where
  | key (data : BitVec 8)
  | line (data : BitVec 8)
  | getc
  deriving DecidableEq

/-- One event, with what a call has returned. -/
def consStep : ConsEvent → Console → List (BitVec 8) × Console
  | .key data, s => ([], { s with kbd := s.kbd ++ [data] })
  | .line data, s => ([], { s with serial := s.serial ++ [data] })
  | .getc, s => ([(consGetc s).1], (consGetc s).2)

/-- The results of the calls, with the zeros for "nothing". -/
def consRun : List ConsEvent → Console → List (BitVec 8) × Console
  | [], s => ([], s)
  | e :: es, s => ((consStep e s).1 ++ (consRun es (consStep e s).2).1, (consRun es (consStep e s).2).2)

/-! ### The queue -/

/-- The queue, with the characters that have been put into it and the number of times that it has been full. -/
structure Forgetful where
  queue : List (BitVec 8)
  arrived : List (BitVec 8)
  overflows : ℕ

/-- The last place is never used. -/
def Forgetful.push (q : Forgetful) (c : BitVec 8) : Forgetful :=
  if c = 0 then q
  else if q.queue.length + 1 = consbufsize then ⟨[], q.arrived ++ [c], q.overflows + 1⟩
  else ⟨q.queue ++ [c], q.arrived ++ [c], q.overflows⟩

def Forgetful.pop (q : Forgetful) : BitVec 8 × Forgetful :=
  match q.queue with
  | [] => (0, q)
  | c :: queue => (c, { q with queue := queue })

/-- The queue, and the two devices. -/
structure Devices where
  queue : Forgetful
  shift : BitVec 32
  serialExists : Bool
  kbd : List (BitVec 8)
  serial : List (BitVec 8)

/-- The serial line sends 127 for the backspace key. -/
def serialChar (data : BitVec 8) : BitVec 8 := if data = 127 then 8 else data

/-- What the bytes mean that are ready: first those of the serial line, then those of the keyboard. -/
def Devices.ready (d : Devices) : List (BitVec 8) :=
  (if d.serialExists then d.serial.map serialChar else []) ++ (kbdRun d.kbd d.shift).1.map KbdResult.c

def Devices.step : ConsEvent → Devices → List (BitVec 8) × Devices
  | .key data, d => ([], { d with kbd := d.kbd ++ [data] })
  | .line data, d => ([], { d with serial := d.serial ++ [data] })
  | .getc, d =>
    let (c, q) := (d.ready.foldl Forgetful.push d.queue).pop
    ([c], ⟨q, (kbdRun d.kbd d.shift).2, d.serialExists, [], if d.serialExists then [] else d.serial⟩)

def Devices.run : List ConsEvent → Devices → List (BitVec 8) × Devices
  | [], d => ([], d)
  | e :: es, d => ((d.step e).1 ++ (Devices.run es (d.step e).2).1, (Devices.run es (d.step e).2).2)

/-- The characters in the buffer. -/
def Console.unread (s : Console) : List (BitVec 8) := ring s.buf consbufsize s.rpos s.wpos

/-- The buffer has the characters of the queue, and the rest is the same. -/
structure Holds (s : Console) (d : Devices) : Prop where
  rpos : s.rpos < consbufsize
  wpos : s.wpos < consbufsize
  unread : s.unread = d.queue.queue
  shift : s.shift = d.shift
  serialExists : s.serialExists = d.serialExists
  kbd : s.kbd = d.kbd
  serial : s.serial = d.serial

variable {s : Console} {d : Devices} {q : Forgetful} {c : BitVec 8} {ready : List (BitVec 8)} {es : List ConsEvent}

theorem consStore_holds (h : Holds s d) (c : BitVec 8) : Holds (consStore c s) { d with queue := d.queue.push c } := by
  unfold consStore Forgetful.push
  by_cases hc : c = 0
  · rw [if_neg (not_not.mpr hc), if_pos hc]
    exact h
  · have hpush : ring (Function.update s.buf s.wpos c) consbufsize s.rpos (wrap consbufsize s.wpos) =
        if s.unread.length + 1 = consbufsize then [] else s.unread ++ [c] := ring_push h.rpos h.wpos
    rw [if_pos hc, if_neg hc]
    rw [h.unread] at hpush
    split_ifs at hpush ⊢ with hfull
    · exact { h with wpos := wrap_lt h.wpos, unread := hpush }
    · exact { h with wpos := wrap_lt h.wpos, unread := hpush }

/-- The loop over the serial line. -/
theorem consIntr_serial (h : Holds s d) :
    Holds (consIntr serialProcData ready s) { d with queue := (ready.map serialChar).foldl Forgetful.push d.queue } := by
  induction ready generalizing s d with
  | nil => exact h
  | cons data ready ih => exact ih (consStore_holds h _)

/-- The loop over the keyboard. -/
theorem consIntr_kbd (h : Holds s d) : Holds (consIntr kbdProc ready s)
    { d with
      queue := ((kbdRun ready d.shift).1.map KbdResult.c).foldl Forgetful.push d.queue
      shift := (kbdRun ready d.shift).2 } := by
  induction ready generalizing s d with
  | nil => exact h
  | cons data ready ih =>
    have hproc : Holds (kbdProc data s).2 { d with shift := (kbdProcData data d.shift).2 } :=
      { h with shift := congrArg (fun x => (kbdProcData data x).2) h.shift }
    have hchar : (kbdProc data s).1 = (kbdProcData data d.shift).1.c := congrArg (fun x => (kbdProcData data x).1.c) h.shift
    have hstore := consStore_holds hproc (kbdProc data s).1
    rw [hchar] at hstore
    rw [consIntr, hchar]
    exact ih hstore

/-- Both devices have been looked at. -/
theorem intr_holds (h : Holds s d) : Holds (kbdIntr (serialIntr s)) ⟨d.ready.foldl Forgetful.push d.queue, (kbdRun d.kbd d.shift).2,
    d.serialExists, [], if d.serialExists then [] else d.serial⟩ := by
  have hserial : Holds (serialIntr s) { d with
      queue := (if d.serialExists then d.serial.map serialChar else []).foldl Forgetful.push d.queue
      serial := if d.serialExists then [] else d.serial } := by
    unfold serialIntr
    rw [h.serialExists, h.serial]
    split_ifs
    · exact consIntr_serial (d := { d with serial := [] }) { h with serialExists := rfl, serial := rfl }
    · exact h
  rw [Devices.ready, List.foldl_append, kbdIntr, hserial.kbd]
  exact consIntr_kbd (d := { d with queue := _, kbd := [], serial := _ }) { hserial with kbd := rfl }

/-- **One event.** -/
theorem consStep_holds (h : Holds s d) (e : ConsEvent) :
    (consStep e s).1 = (d.step e).1 ∧ Holds (consStep e s).2 (d.step e).2 := by
  cases e with
  | key data => exact ⟨rfl, { h with kbd := congrArg (· ++ [data]) h.kbd }⟩
  | line data => exact ⟨rfl, { h with serial := congrArg (· ++ [data]) h.serial }⟩
  | getc =>
    have hready := intr_holds h
    unfold consStep consGetc Devices.step
    dsimp only
    generalize kbdIntr (serialIntr s) = s₁ at hready ⊢
    generalize d.ready.foldl Forgetful.push d.queue = q at hready ⊢
    unfold Forgetful.pop
    by_cases hempty : s₁.rpos = s₁.wpos
    · have hnone : q.queue = [] := by
        have hunread := hready.unread
        rw [Console.unread, hempty, ring_self] at hunread
        exact hunread.symm
      rw [if_neg (not_not.mpr hempty), hnone]
      exact ⟨rfl, hready⟩
    · have hpop : s₁.unread = s₁.buf s₁.rpos :: _ := ring_pop hready.rpos hready.wpos hempty
      rw [hready.unread] at hpop
      dsimp only at hpop
      rw [if_pos hempty, hpop]
      exact ⟨rfl, { hready with rpos := wrap_lt hready.rpos, unread := rfl }⟩

/-- **The runs are those of the queue**, whatever arrives and whenever it is looked for. -/
theorem consRun_queue (h : Holds s d) (es : List ConsEvent) :
    (consRun es s).1 = (Devices.run es d).1 ∧ Holds (consRun es s).2 (Devices.run es d).2 := by
  induction es generalizing s d with
  | nil => exact ⟨rfl, h⟩
  | cons e es ih =>
    obtain ⟨hout, hnext⟩ := consStep_holds h e
    obtain ⟨houts, hlast⟩ := ih hnext
    refine ⟨?_, hlast⟩
    rw [consRun, Devices.run, hout, houts]

/-! ### What is lost -/

/-- The characters among the results of `cons_getc`. -/
def chars (outs : List (BitVec 8)) : List (BitVec 8) := outs.filter (· ≠ 0)

theorem chars_single (hc : c ≠ 0) : chars [c] = [c] := List.filter_eq_self.mpr fun b hb => decide_eq_true (by rwa [List.mem_singleton.mp hb])

/-- Every character has come out, is in the queue, or has been lost together with `consbufsize - 1` others. -/
structure Accounts (out : List (BitVec 8)) (q : Forgetful) : Prop where
  nonzero : ∀ c ∈ q.queue, c ≠ 0
  count : q.arrived.length = out.length + q.queue.length + consbufsize * q.overflows
  kept : q.overflows = 0 → out ++ q.queue = q.arrived

variable {out ins : List (BitVec 8)}

theorem Accounts.push (h : Accounts out q) (c : BitVec 8) : Accounts out (q.push c) := by
  have hcount := h.count
  unfold Forgetful.push
  split_ifs with hzero hfull
  · exact h
  · refine ⟨nofun, ?_, nofun⟩
    show (q.arrived ++ [c]).length = out.length + 0 + consbufsize * (q.overflows + 1)
    rw [List.length_append, List.length_singleton, Nat.mul_succ]
    omega
  · refine ⟨fun b hb => ?_, ?_, fun hnone => ?_⟩
    · rcases List.mem_append.mp hb with hb | hb
      · exact h.nonzero b hb
      · rw [List.mem_singleton.mp hb]
        exact hzero
    · show (q.arrived ++ [c]).length = out.length + (q.queue ++ [c]).length + consbufsize * q.overflows
      rw [List.length_append, List.length_append, hcount, List.length_singleton]
      omega
    · show out ++ (q.queue ++ [c]) = q.arrived ++ [c]
      rw [← List.append_assoc, h.kept hnone]

theorem Accounts.pushAll (h : Accounts out q) (ins : List (BitVec 8)) : Accounts out (ins.foldl Forgetful.push q) := by
  induction ins generalizing q with
  | nil => exact h
  | cons c ins ih => exact ih (h.push c)

theorem Accounts.pop (h : Accounts out q) : Accounts (out ++ chars [q.pop.1]) q.pop.2 := by
  have hcount := h.count
  have hkept := h.kept
  have hnonzero := h.nonzero
  unfold Forgetful.pop
  cases hq : q.queue with
  | nil =>
    have hnothing : chars [0] = [] := rfl
    rw [hnothing, List.append_nil]
    exact h
  | cons c queue =>
    rw [hq] at hcount hkept hnonzero
    rw [chars_single (hnonzero c List.mem_cons_self)]
    refine ⟨fun b hb => hnonzero b (List.mem_cons_of_mem c hb), ?_, fun hnone => ?_⟩
    · show q.arrived.length = (out ++ [c]).length + queue.length + consbufsize * q.overflows
      rw [hcount, List.length_append, List.length_singleton, List.length_cons]
      omega
    · show out ++ [c] ++ queue = q.arrived
      rw [List.append_assoc, List.singleton_append]
      exact hkept hnone

theorem chars_append (l l' : List (BitVec 8)) : chars (l ++ l') = chars l ++ chars l' := List.filter_append ..

theorem Accounts.run (h : Accounts out d.queue) (es : List ConsEvent) :
    Accounts (out ++ chars (Devices.run es d).1) (Devices.run es d).2.queue := by
  induction es generalizing out d with
  | nil =>
    rw [Devices.run, chars, List.filter_nil, List.append_nil]
    exact h
  | cons e es ih =>
    have hstep : Accounts (out ++ chars (d.step e).1) (d.step e).2.queue := by
      cases e with
      | key data =>
        show Accounts (out ++ chars []) d.queue
        rw [chars, List.filter_nil, List.append_nil]
        exact h
      | line data =>
        show Accounts (out ++ chars []) d.queue
        rw [chars, List.filter_nil, List.append_nil]
        exact h
      | getc => exact (h.pushAll _).pop
    rw [Devices.run, chars_append, ← List.append_assoc]
    exact ih hstep

/-- The console before anything has arrived. -/
structure Console.Start (s : Console) : Prop where
  rpos : s.rpos = 0
  wpos : s.wpos = 0
  kbd : s.kbd = []
  serial : s.serial = []

/-- The queue and the devices that go with it. -/
def Console.devices (s : Console) : Devices := ⟨⟨[], [], 0⟩, s.shift, s.serialExists, [], []⟩

theorem Console.Start.holds (h : s.Start) : Holds s s.devices := by
  refine ⟨by rw [h.rpos]; decide, by rw [h.wpos]; decide, ?_, rfl, rfl, h.kbd, h.serial⟩
  rw [Console.unread, h.rpos, h.wpos, ring_self]
  rfl

/-- **What comes out of the console.** Whatever the keyboard and the serial line send, and whenever `cons_getc` is called, the
characters come out as from the queue. They are all there, in their order, exactly if the queue has never been full; otherwise
`consbufsize` of them are lost each time. -/
theorem console_lossless_iff (h : s.Start) (es : List ConsEvent) : ∃ q : Forgetful, (Devices.run es s.devices).2.queue = q ∧
    (consRun es s).1 = (Devices.run es s.devices).1 ∧ (consRun es s).2.unread = q.queue ∧
    q.arrived.length = (chars (consRun es s).1 ++ (consRun es s).2.unread).length + consbufsize * q.overflows ∧
    (chars (consRun es s).1 ++ (consRun es s).2.unread = q.arrived ↔ q.overflows = 0) := by
  obtain ⟨hout, hholds⟩ := consRun_queue h.holds es
  have hstart : Accounts [] s.devices.queue := ⟨nofun, rfl, fun _ => rfl⟩
  have hrun := hstart.run es
  rw [List.nil_append, ← hout] at hrun
  refine ⟨_, rfl, hout, hholds.unread, ?_, fun hall => ?_, fun hnone => ?_⟩
  · rw [hholds.unread, List.length_append]
    exact hrun.count
  · have hlen := congrArg List.length hall
    have hcount := hrun.count
    have hsize : 0 < consbufsize := by decide
    rw [hholds.unread, List.length_append] at hlen
    have hzero : consbufsize * (Devices.run es s.devices).2.queue.overflows = 0 := by omega
    exact (Nat.mul_eq_zero.mp hzero).resolve_left (Nat.ne_of_gt hsize)
  · rw [hholds.unread]
    exact hrun.kept hnone

/-- Nothing has arrived, and there is no serial port. -/
def Console.idle : Console := ⟨fun _ => 0, 0, 0, 0, false, [], [], false⟩

/-- The key `H`, which is read before the enter key is pressed. -/
theorem console_lossless_iff_h : chars (consRun [.key 0x23, .getc, .key 0x1C, .getc] .idle).1 ++
    (consRun [.key 0x23, .getc, .key 0x1C, .getc] .idle).2.unread = [0x68, 0x0A] := by
  obtain ⟨q, hq, -, -, -, hall⟩ := console_lossless_iff (s := .idle) ⟨rfl, rfl, rfl, rfl⟩ [.key 0x23, .getc, .key 0x1C, .getc]
  have harrived : q.arrived = [0x68, 0x0A] ∧ q.overflows = 0 := by
    rw [← hq]
    decide
  rw [← harrived.1]
  exact hall.mpr harrived.2

/-! ### The keyboard alone -/

/-- The characters that some bytes of the keyboard mean. -/
def decoded (bytes : List (BitVec 8)) (shift : BitVec 32) : List (BitVec 8) := chars ((kbdRun bytes shift).1.map KbdResult.c)

/-- The bytes that the keyboard sends in a run. -/
def keyBytes : List ConsEvent → List (BitVec 8)
  | [] => []
  | .key data :: es => data :: keyBytes es
  | .line _ :: es => keyBytes es
  | .getc :: es => keyBytes es

theorem decoded_append (bytes bytes' : List (BitVec 8)) (shift : BitVec 32) :
    decoded (bytes ++ bytes') shift = decoded bytes shift ++ decoded bytes' (kbdRun bytes shift).2 := by
  rw [decoded, kbdRun_append, List.map_append, chars_append]
  rfl

theorem arrived_pushAll (q : Forgetful) (ins : List (BitVec 8)) : (ins.foldl Forgetful.push q).arrived = q.arrived ++ chars ins := by
  induction ins generalizing q with
  | nil => exact (List.append_nil _).symm
  | cons c ins ih =>
    have hone : (q.push c).arrived = q.arrived ++ chars [c] := by
      unfold Forgetful.push
      split_ifs with hzero
      · rw [hzero]
        exact (List.append_nil _).symm
      · rw [chars_single hzero]
      · rw [chars_single hzero]
    rw [List.foldl_cons, ih, hone, List.append_assoc, ← chars_append, List.singleton_append]

theorem arrived_pop (q : Forgetful) : q.pop.2.arrived = q.arrived := by
  unfold Forgetful.pop
  split <;> rfl

/-- Without a serial line, what has arrived or is ready is what the keyboard has sent. -/
theorem run_keyboard (hserial : d.serial = []) (hline : ∀ data, ConsEvent.line data ∉ es) :
    (Devices.run es d).2.queue.arrived ++
        decoded (Devices.run es d).2.kbd (Devices.run es d).2.shift =
      d.queue.arrived ++ decoded (d.kbd ++ keyBytes es) d.shift := by
  induction es generalizing d with
  | nil => rw [Devices.run, keyBytes, List.append_nil]
  | cons e es ih =>
    have hrest : ∀ data, ConsEvent.line data ∉ es := fun data hmem => hline data (List.mem_cons_of_mem e hmem)
    cases e with
    | key data =>
      rw [Devices.run, ih (by exact hserial) hrest]
      show d.queue.arrived ++ decoded (d.kbd ++ [data] ++ keyBytes es) d.shift = _
      rw [List.append_assoc]
      rfl
    | line data => exact absurd List.mem_cons_self (hline data)
    | getc =>
      have hnone : (if d.serialExists then [] else d.serial) = [] := by
        rw [hserial]
        exact ite_self _
      have hready : d.ready = (kbdRun d.kbd d.shift).1.map KbdResult.c := by
        rw [Devices.ready, hserial, List.map_nil, ite_self, List.nil_append]
      rw [Devices.run, ih hnone hrest]
      show ((d.ready).foldl Forgetful.push d.queue).pop.2.arrived ++ decoded ([] ++ keyBytes es) (kbdRun d.kbd d.shift).2 = _
      rw [arrived_pop, arrived_pushAll, hready, List.nil_append, keyBytes, decoded_append, List.append_assoc]
      rfl

end Ucore.Driver
