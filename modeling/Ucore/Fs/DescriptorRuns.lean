import Ucore.Fs.Descriptors

/-!
# Threads that share tables of open files

Any number of threads work on the tables. A thread is outside the file system, in the middle of opening a
file, or in the middle of an operation; `FdStep` lets any of them go on, in any order. A function that does
not wait between two changes of the tables is one step, and so is a `vfs_open` with what follows it.

* `FdAct` are the things a thread can do, and `FdAct.code` is the code of each.
* `SysInv` is the invariant: that of the tables for the operations that the threads are in the middle of.
* `SysInv.act`: whatever a thread does next keeps it, and no assertion fails.
* `descriptor_life_cycle` is what holds in every state.
-/

namespace Ucore.Fs.Fd

open Ucore.Lib Ucore.Fs

/-! ### Threads -/

/-- What a thread is in the middle of. -/
inductive ThreadOp where
  /-- `file_open`, with its entry allocated -/
  | opening (fd : ℕ)
  /-- an operation between `fd_array_acquire` and `fd_array_release`, on the descriptor `desc` -/
  | io (fd desc : ℕ)
  deriving Repr, DecidableEq

/-- A thread with its table. -/
structure Thread where
  files : ℕ
  op : Option ThreadOp
  deriving Repr, DecidableEq

/-- The tables and the threads. -/
structure FdSys where
  world : FdWorld
  threads : List Thread

/-- The thread is in the middle of an operation on the entry. -/
def Thread.inIo (th : Thread) (sl : Slot) : Bool :=
  match th.op with
  | some (.io fd _) => (th.files, fd) = sl
  | _ => false

/-- The thread is opening the entry. -/
def Thread.inOpen (th : Thread) (sl : Slot) : Bool :=
  match th.op with
  | some (.opening fd) => (th.files, fd) = sl
  | _ => false

/-- The operations of some threads that are under way on the entry. -/
def ioCount (ths : List Thread) (sl : Slot) : ℕ := ths.countP fun th => th.inIo sl

/-- The threads that are opening the entry. -/
def openingCount (ths : List Thread) (sl : Slot) : ℕ := ths.countP fun th => th.inOpen sl

/-- The operations under way on the entry. -/
def FdSys.inFlight (s : FdSys) (sl : Slot) : ℕ := ioCount s.threads sl

/-! ### What a thread does next -/

/-- A step of a thread. -/
inductive FdAct where
  /-- `file_open` up to `vfs_open` -/
  | openBegin
  /-- `vfs_open` has returned an inode -/
  | openEnd (node : ℕ)
  /-- `vfs_open` has failed -/
  | openFail
  /-- an operation begins -/
  | acquire (fd : ℤ)
  /-- the operation is over -/
  | release
  | close (fd : ℤ)
  | dup (fd1 : ℤ) (fd2 : Option ℤ)
  | closeall
  /-- a new thread, with the same table or a copy of it -/
  | fork (shared : Bool)
  | exit
  deriving Repr, DecidableEq

namespace FdAct

/-- The code of a step. It returns the thread as it goes on, and a thread that it has made. -/
def code (th : Thread) : FdAct → FdProg (List Thread)
  | .openBegin => do
    let fd ← fdArrayAlloc th.files none
    pure [{ th with op := some (.opening fd) }]
  | .openEnd node =>
    match th.op with
    | some (.opening fd) => do
      fileOpenEnd (th.files, fd) node
      pure [{ th with op := none }]
    | _ => pure [th]
  | .openFail =>
    match th.op with
    | some (.opening fd) => do
      fdArrayFree (th.files, fd)
      pure [{ th with op := none }]
    | _ => pure [th]
  | .acquire fd => do
    let fd ← fd2file th.files fd
    let w ← Prog.get
    fdArrayAcquire (th.files, fd)
    pure [{ th with op := some (.io fd (w.entry (th.files, fd)).desc) }]
  | .release =>
    match th.op with
    | some (.io fd _) => do
      fdArrayRelease (th.files, fd)
      pure [{ th with op := none }]
    | _ => pure [th]
  | .close fd => do
    fileClose th.files fd
    pure [th]
  | .dup fd1 fd2 => do
    fileDup th.files fd1 fd2
    pure [th]
  | .closeall => do
    filesCloseall th.files
    pure [th]
  | .fork shared => do
    let t ← copyFiles th.files shared
    pure [th, ⟨t, none⟩]
  | .exit => do
    putFiles th.files
    pure []

/-- When a thread can do it: it ends what it is in the middle of before it begins something else. -/
def Enabled (th : Thread) : FdAct → Prop
  | .openEnd node => node ≠ 0 ∧ ∃ fd, th.op = some (.opening fd)
  | .openFail => ∃ fd, th.op = some (.opening fd)
  | .release => ∃ fd desc, th.op = some (.io fd desc)
  | _ => th.op = none

/-- The entries that a step closes if they are open. -/
def Closes (th : Thread) : FdAct → Slot → Prop
  | .close fd, sl => sl.1 = th.files ∧ (sl.2 : ℤ) = fd
  | .closeall, sl => sl.1 = th.files
  | .exit, sl => sl.1 = th.files
  | _, _ => False

end FdAct

/-- One step of the thread `th`. A step that ends with an error code leaves the thread as it is. -/
inductive FdStep (a : FdAct) (th : Thread) : FdSys → FdSys → Prop where
  | ok {w w' l₁ l₂ ths} (henabled : a.Enabled th) (hrun : (a.code th).run w = .ok ths w') :
    FdStep a th ⟨w, l₁ ++ th :: l₂⟩ ⟨w', l₁ ++ ths ++ l₂⟩
  | error {w w' l₁ l₂ e} (henabled : a.Enabled th) (hrun : (a.code th).run w = .error e w') :
    FdStep a th ⟨w, l₁ ++ th :: l₂⟩ ⟨w', l₁ ++ th :: l₂⟩

/-- One thread with an empty table. The references to inodes that are not from open files are any. -/
def fdBoot (refCount : ℕ → ℕ) : FdSys where
  world :=
    { entry := fun _ => ⟨.none, 0, 0, 0⟩
      filesCount := fun t => if t = 0 then 1 else 0
      tables := [0]
      freshTable := 1
      openCount := fun _ => 0
      refCount := refCount
      freshDesc := 0
      vfsCloses := fun _ => 0 }
  threads := [⟨0, none⟩]

/-- The states that interleavings of threads lead to. -/
def FdReach (s : FdSys) : Prop :=
  ∃ refCount, Relation.ReflTransGen (fun s s' => ∃ a th, FdStep a th s s') (fdBoot refCount) s

/-! ### Counting threads -/

section counting

variable {th : Thread} {l₁ l₂ ths : List Thread} {sl : Slot} {fd d : ℕ}

theorem ioCount_append : ioCount (l₁ ++ l₂) sl = ioCount l₁ sl + ioCount l₂ sl := List.countP_append

theorem openingCount_append : openingCount (l₁ ++ l₂) sl = openingCount l₁ sl + openingCount l₂ sl :=
  List.countP_append

theorem ioCount_cons : ioCount (th :: ths) sl = ioCount ths sl + (th.inIo sl).toNat := by
  unfold ioCount
  rw [List.countP_cons]
  cases th.inIo sl <;> rfl

theorem openingCount_cons : openingCount (th :: ths) sl = openingCount ths sl + (th.inOpen sl).toNat := by
  unfold openingCount
  rw [List.countP_cons]
  cases th.inOpen sl <;> rfl

theorem Thread.inIo_of_none (h : th.op = none) : th.inIo sl = false := by
  simp only [inIo, h]

theorem Thread.inOpen_of_none (h : th.op = none) : th.inOpen sl = false := by
  simp only [inOpen, h]

theorem Thread.inIo_of_opening (h : th.op = some (.opening fd)) : th.inIo sl = false := by
  simp only [inIo, h]

theorem Thread.inOpen_of_opening (h : th.op = some (.opening fd)) :
    th.inOpen sl = decide ((th.files, fd) = sl) := by
  simp only [inOpen, h]

theorem Thread.inIo_of_io (h : th.op = some (.io fd d)) : th.inIo sl = decide ((th.files, fd) = sl) := by
  simp only [inIo, h]

theorem Thread.inOpen_of_io (h : th.op = some (.io fd d)) : th.inOpen sl = false := by
  simp only [inOpen, h]

/-- The counts when the thread `th` is replaced by `ths`. -/
theorem ioCount_replace (th : Thread) (l₁ l₂ ths : List Thread) (sl : Slot) :
    ioCount (l₁ ++ ths ++ l₂) sl + (th.inIo sl).toNat = ioCount (l₁ ++ th :: l₂) sl + ioCount ths sl := by
  simp only [ioCount_append, ioCount_cons]
  omega

theorem openingCount_replace (th : Thread) (l₁ l₂ ths : List Thread) (sl : Slot) :
    openingCount (l₁ ++ ths ++ l₂) sl + (th.inOpen sl).toNat =
      openingCount (l₁ ++ th :: l₂) sl + openingCount ths sl := by
  simp only [openingCount_append, openingCount_cons]
  omega

theorem ioCount_pos (hth : th ∈ ths) (hop : th.op = some (.io fd d)) : 0 < ioCount ths (th.files, fd) := by
  refine List.countP_pos_iff.mpr ⟨th, hth, ?_⟩
  rw [Thread.inIo_of_io hop]
  simp

theorem openingCount_pos (hth : th ∈ ths) (hop : th.op = some (.opening fd)) :
    0 < openingCount ths (th.files, fd) := by
  refine List.countP_pos_iff.mpr ⟨th, hth, ?_⟩
  rw [Thread.inOpen_of_opening hop]
  simp

end counting

/-! ### The invariant -/

/-- The invariant of tables and threads. -/
structure SysInv (s : FdSys) : Prop where
  tables : FdInv (ioCount s.threads) (openingCount s.threads) s.world
  files : ∀ th ∈ s.threads, th.files ∈ s.world.tables
  filesCount : ∀ t, s.world.filesCount t = s.threads.countP fun th => th.files = t
  /-- An operation is on the descriptor that it has begun with. -/
  io : ∀ th ∈ s.threads, ∀ fd d, th.op = some (.io fd d) → (s.world.entry (th.files, fd)).desc = d

/-- What a step does to the descriptors. -/
def Moves (C : Slot → Prop) (w w' : FdWorld) : Prop := Steady w w' ∨ Closing C w w'

section inv

variable {w w' : FdWorld} {th : Thread} {l₁ l₂ ths : List Thread} {C : Slot → Prop}

/-- An entry with an operation under way has a descriptor. -/
theorem FdInv.live_of_io {ios opening : Slot → ℕ} {sl : Slot} (h : FdInv ios opening w) (hpos : 0 < ios sl) :
    (w.entry sl).live = true := by
  have hcounted := h.counted sl
  unfold FdEntry.Counted at hcounted
  unfold FdEntry.live
  cases hstatus : (w.entry sl).status with
  | none =>
    simp only [hstatus] at hcounted
    omega
  | init =>
    simp only [hstatus] at hcounted
    omega
  | opened => simp
  | closed => simp

/-- An entry that a thread is opening is in the state `FD_INIT`. -/
theorem FdInv.init_of_opening {ios opening : Slot → ℕ} {sl : Slot} (h : FdInv ios opening w)
    (hpos : 0 < opening sl) : (w.entry sl).status = .init := by
  have hcounted := h.counted sl
  unfold FdEntry.Counted at hcounted
  cases hstatus : (w.entry sl).status with
  | init => rfl
  | none =>
    simp only [hstatus] at hcounted
    omega
  | opened =>
    simp only [hstatus] at hcounted
    omega
  | closed =>
    simp only [hstatus] at hcounted
    omega

/-- A thread has made a step and is replaced by `ths`. -/
theorem SysInv.replace (h : SysInv ⟨w, l₁ ++ th :: l₂⟩)
    (hinv : FdInv (ioCount (l₁ ++ ths ++ l₂)) (openingCount (l₁ ++ ths ++ l₂)) w') (hmoves : Moves C w w')
    (hfiles : ∀ th' ∈ l₁ ++ ths ++ l₂, th'.files ∈ w'.tables)
    (hcount : ∀ t, w'.filesCount t + (decide (th.files = t)).toNat =
      w.filesCount t + ths.countP fun th => th.files = t)
    (hio : ∀ th' ∈ ths, th' ≠ th → ∀ fd d, th'.op = some (.io fd d) →
      (w'.entry (th'.files, fd)).desc = d) :
    SysInv ⟨w', l₁ ++ ths ++ l₂⟩ := by
  refine ⟨hinv, hfiles, fun t => ?_, fun th' hth' fd d hop => ?_⟩
  · have hold := h.filesCount t
    have hnew := hcount t
    simp only [List.countP_append, List.countP_cons] at hold ⊢
    cases hdec : decide (th.files = t) with
    | false =>
      simp only [hdec, Bool.toNat_false, Bool.false_eq_true, if_false] at hold hnew
      omega
    | true =>
      simp only [hdec, Bool.toNat_true, if_true] at hold hnew
      omega
  · by_cases hold : th' ∈ l₁ ++ th :: l₂
    · have hlive := h.tables.live_of_io (ioCount_pos hold hop)
      have hdesc := h.io th' hold fd d hop
      rcases hmoves with hsteady | hclosing
      · rw [hsteady.keeps _ hlive]
        exact hdesc
      · have hlive' := hinv.live_of_io (ioCount_pos hth' hop)
        rw [(hclosing.back _ hlive').2.1]
        exact hdesc
    · have hnew : th' ∈ ths ∧ th' ≠ th := by
        simp only [List.mem_append, List.mem_cons] at hth' hold
        tauto
      exact hio th' hnew.1 hnew.2 fd d hop

/-- The thread goes on with what it was in the middle of, or with something else in the same table. -/
theorem SysInv.continue (h : SysInv ⟨w, l₁ ++ th :: l₂⟩) {th' : Thread} (hfiles : th'.files = th.files)
    (hinv : FdInv (ioCount (l₁ ++ [th'] ++ l₂)) (openingCount (l₁ ++ [th'] ++ l₂)) w')
    (hmoves : Moves C w w') (hsame : SameTables w w')
    (hio : th' ≠ th → ∀ fd d, th'.op = some (.io fd d) → (w'.entry (th'.files, fd)).desc = d) :
    SysInv ⟨w', l₁ ++ [th'] ++ l₂⟩ := by
  refine h.replace hinv hmoves (fun th₁ hth₁ => ?_) (fun t => ?_) fun th₁ hth₁ => ?_
  · rw [hsame.tables]
    simp only [List.mem_append, List.mem_singleton] at hth₁
    rcases hth₁ with (hth₁ | rfl) | hth₁
    · exact h.files th₁ (by simp [hth₁])
    · rw [hfiles]
      exact h.files th (by simp)
    · exact h.files th₁ (by simp [hth₁])
  · rw [hsame.filesCount, List.countP_singleton, hfiles]
    by_cases ht : th.files = t <;> simp [ht]
  · obtain rfl := List.mem_singleton.mp hth₁
    exact hio

/-- The thread has done something that does not change what it is in the middle of. -/
theorem SysInv.same (h : SysInv ⟨w, l₁ ++ th :: l₂⟩)
    (hinv : FdInv (ioCount (l₁ ++ th :: l₂)) (openingCount (l₁ ++ th :: l₂)) w') (hmoves : Moves C w w')
    (hsame : SameTables w w') : SysInv ⟨w', l₁ ++ [th] ++ l₂⟩ := by
  refine h.continue rfl ?_ hmoves hsame fun hne => absurd rfl hne
  simpa using hinv

theorem SysInv.filesCount_pos (h : SysInv ⟨w, l₁ ++ th :: l₂⟩) : 0 < w.filesCount th.files := by
  rw [h.filesCount]
  exact List.countP_pos_iff.mpr ⟨th, by simp, by simp⟩

theorem fd2file_post (t : ℕ) (fd : ℤ) :
    ((fd2file t fd).run w).Post
      (fun (i : ℕ) w' => ((i : ℤ) = fd ∧ i < filesStructNentry ∧ (w.entry (t, i)).status = .opened) ∧ w' = w)
      (fun _ w' => w' = w) (fun _ => False) := by
  unfold fd2file
  rw [Prog.run_bind, Prog.run_get, Outcome.andThen_ok]
  simp only [Prog.run_ite]
  split_ifs with hfd hstatus
  · exact ⟨⟨by omega, by omega, hstatus⟩, rfl⟩
  · rfl
  · rfl

/-! ### Every step keeps the invariant -/

/-- What is proved of each step. -/
def FdAct.Sound (a : FdAct) (th : Thread) (w : FdWorld) (l₁ l₂ : List Thread) : Prop :=
  ((a.code th).run w).Post (fun ths w' => SysInv ⟨w', l₁ ++ ths ++ l₂⟩ ∧ Moves (a.Closes th) w w')
    (fun _ w' => w' = w) (fun _ => False)

theorem SysInv.openBegin (h : SysInv ⟨w, l₁ ++ th :: l₂⟩) (hop : th.op = none) :
    FdAct.openBegin.Sound th w l₁ l₂ := by
  unfold FdAct.Sound FdAct.code
  refine (h.tables.fdArrayAlloc none).bind ?_
  rintro fd _ ⟨hfd, hstatus, rfl⟩
  have hsl : (th.files, fd) ∈ w.slots := FdWorld.mem_slots.mpr ⟨h.files th (by simp), hfd⟩
  have hzero : openingCount (l₁ ++ th :: l₂) (th.files, fd) = 0 := (h.tables.of_none hstatus).2.2
  have hmoves : Moves (FdAct.openBegin.Closes th) w (w.found (th.files, fd)) := Or.inl (found_steady hstatus)
  refine ⟨h.continue rfl ?_ hmoves ⟨rfl, rfl, rfl⟩ ?_, hmoves⟩
  · have hio : ioCount (l₁ ++ [{ th with op := some (.opening fd) }] ++ l₂) = ioCount (l₁ ++ th :: l₂) := by
      funext sl
      simp only [ioCount_append, ioCount_cons, Thread.inIo_of_none hop,
        Thread.inIo_of_opening (show ({ th with op := some (.opening fd) } : Thread).op = _ from rfl)]
      simp [ioCount]
    have hopening : openingCount (l₁ ++ [{ th with op := some (.opening fd) }] ++ l₂) =
        Function.update (openingCount (l₁ ++ th :: l₂)) (th.files, fd) 1 := by
      funext sl
      have hrep := openingCount_replace th l₁ l₂ [{ th with op := some (.opening fd) }] sl
      rw [Thread.inOpen_of_none hop, openingCount_cons,
        Thread.inOpen_of_opening (show ({ th with op := some (.opening fd) } : Thread).op = _ from rfl)] at hrep
      have hnil : openingCount [] sl = 0 := rfl
      by_cases heq : (th.files, fd) = sl
      · subst heq
        rw [Function.update_self]
        simp only [decide_true, Bool.toNat_true, Bool.toNat_false] at hrep
        omega
      · rw [Function.update_of_ne (Ne.symm heq)]
        simp only [decide_eq_false heq, Bool.toNat_false] at hrep
        omega
    rw [hio, hopening]
    exact h.tables.found hsl hstatus
  · intro _ fd' d hcon
    cases hcon

/-- The counts when a thread ends what it is in the middle of. -/
theorem openingCount_end {fd : ℕ} (hop : th.op = some (.opening fd))
    (hone : openingCount (l₁ ++ th :: l₂) (th.files, fd) = 1) :
    ioCount (l₁ ++ [{ th with op := none }] ++ l₂) = ioCount (l₁ ++ th :: l₂) ∧
      openingCount (l₁ ++ [{ th with op := none }] ++ l₂) =
        Function.update (openingCount (l₁ ++ th :: l₂)) (th.files, fd) 0 := by
  constructor
  · funext sl
    have hrep := ioCount_replace th l₁ l₂ [{ th with op := none }] sl
    rw [Thread.inIo_of_opening hop, ioCount_cons,
      Thread.inIo_of_none (show ({ th with op := none } : Thread).op = none from rfl)] at hrep
    have hnil : ioCount [] sl = 0 := rfl
    simp only [Bool.toNat_false] at hrep
    omega
  · funext sl
    have hrep := openingCount_replace th l₁ l₂ [{ th with op := none }] sl
    rw [Thread.inOpen_of_opening hop, openingCount_cons,
      Thread.inOpen_of_none (show ({ th with op := none } : Thread).op = none from rfl)] at hrep
    have hnil : openingCount [] sl = 0 := rfl
    by_cases heq : (th.files, fd) = sl
    · subst heq
      rw [Function.update_self]
      simp only [decide_true, Bool.toNat_true, Bool.toNat_false] at hrep
      omega
    · rw [Function.update_of_ne (Ne.symm heq)]
      simp only [decide_eq_false heq, Bool.toNat_false] at hrep
      omega

/-- The entry that a thread is opening. -/
theorem SysInv.opening (h : SysInv ⟨w, l₁ ++ th :: l₂⟩) {fd : ℕ} (hop : th.op = some (.opening fd)) :
    (w.entry (th.files, fd)).status = .init ∧ (w.entry (th.files, fd)).openCount = 0 ∧
      ioCount (l₁ ++ th :: l₂) (th.files, fd) = 0 ∧ openingCount (l₁ ++ th :: l₂) (th.files, fd) = 1 ∧
      (th.files, fd) ∈ w.slots := by
  have hstatus := h.tables.init_of_opening (openingCount_pos (show th ∈ l₁ ++ th :: l₂ by simp) hop)
  obtain ⟨hcount, hios, hone⟩ := h.tables.of_init hstatus
  refine ⟨hstatus, hcount, hios, hone, h.tables.used _ ?_⟩
  rw [hstatus]
  exact FdStatus.noConfusion

theorem SysInv.openEnd (h : SysInv ⟨w, l₁ ++ th :: l₂⟩) {node fd : ℕ} (hnode : node ≠ 0)
    (hop : th.op = some (.opening fd)) : (FdAct.openEnd node).Sound th w l₁ l₂ := by
  obtain ⟨hstatus, hcount, hios, hone, hsl⟩ := h.opening hop
  have hlive : (w.entry (th.files, fd)).live = false := by simp [FdEntry.live, hstatus]
  have hmoves : Moves ((FdAct.openEnd node).Closes th) w (w.launch (th.files, fd) node) :=
    Or.inl (launch_steady hlive)
  unfold FdAct.Sound FdAct.code
  simp only [hop]
  rw [Prog.bind_of_ok (fileOpenEnd_run hstatus hcount hnode), Prog.run_pure]
  refine ⟨h.continue rfl ?_ hmoves launch_sameTables ?_, hmoves⟩
  · obtain ⟨hio, hopening⟩ := openingCount_end hop hone
    rw [hio, hopening]
    exact h.tables.launch hsl hlive hios hnode
  · intro _ fd' d hcon
    cases hcon

theorem SysInv.openFail (h : SysInv ⟨w, l₁ ++ th :: l₂⟩) {fd : ℕ} (hop : th.op = some (.opening fd)) :
    FdAct.openFail.Sound th w l₁ l₂ := by
  obtain ⟨hstatus, hcount, hios, hone, hsl⟩ := h.opening hop
  obtain ⟨w', hrun, hinv, hsame, hsteady⟩ := h.tables.fdArrayFree hsl hstatus
  have hmoves : Moves (FdAct.openFail.Closes th) w w' := Or.inl hsteady
  unfold FdAct.Sound FdAct.code
  simp only [hop]
  rw [Prog.bind_of_ok hrun, Prog.run_pure]
  refine ⟨h.continue rfl ?_ hmoves hsame ?_, hmoves⟩
  · obtain ⟨hio, hopening⟩ := openingCount_end hop hone
    rw [hio, hopening]
    exact hinv
  · intro _ fd' d hcon
    cases hcon

theorem SysInv.acquire (h : SysInv ⟨w, l₁ ++ th :: l₂⟩) (hop : th.op = none) (fd : ℤ) :
    (FdAct.acquire fd).Sound th w l₁ l₂ := by
  unfold FdAct.Sound FdAct.code
  refine (fd2file_post th.files fd).bind ?_
  rintro i _ ⟨⟨-, hi, hstatus⟩, rfl⟩
  rename_i w
  rw [Prog.run_bind, Prog.run_get, Outcome.andThen_ok]
  -- the operations under way, with this one
  let th' : Thread := { th with op := some (.io i (w.entry (th.files, i)).desc) }
  have hcounts : ∀ sl, ioCount (l₁ ++ [th'] ++ l₂) sl =
      ioCount (l₁ ++ th :: l₂) sl + (decide ((th.files, i) = sl)).toNat := by
    intro sl
    have hrep := ioCount_replace th l₁ l₂ [th'] sl
    rw [Thread.inIo_of_none hop, ioCount_cons, Thread.inIo_of_io (show th'.op = some (.io i _) from rfl),
      show th'.files = th.files from rfl] at hrep
    have hnil : ioCount [] sl = 0 := rfl
    simp only [Bool.toNat_false] at hrep
    omega
  have hopening : openingCount (l₁ ++ [th'] ++ l₂) = openingCount (l₁ ++ th :: l₂) := by
    funext sl
    have hrep := openingCount_replace th l₁ l₂ [th'] sl
    rw [Thread.inOpen_of_none hop, openingCount_cons, Thread.inOpen_of_io (show th'.op = some (.io i _) from rfl)] at hrep
    have hnil : openingCount [] sl = 0 := rfl
    simp only [Bool.toNat_false] at hrep
    omega
  obtain ⟨w', hrun, hinv, hsame, hsteady, hdesc⟩ := h.tables.acquire hstatus (ioCount (l₁ ++ [th'] ++ l₂))
    (fun sl hne => by rw [hcounts, decide_eq_false (Ne.symm hne)]; rfl)
    (by rw [hcounts, decide_eq_true rfl]; rfl)
  have hmoves : Moves ((FdAct.acquire fd).Closes th) w w' := Or.inl hsteady
  rw [Prog.bind_of_ok hrun, Prog.run_pure]
  refine ⟨h.continue (show th'.files = th.files from rfl) ?_ hmoves hsame ?_, hmoves⟩
  · rw [hopening]
    exact hinv
  · intro _ fd' d hop'
    have hop'' : some (ThreadOp.io i (w.entry (th.files, i)).desc) = some (.io fd' d) := hop'
    cases hop''
    exact hdesc

theorem SysInv.release (h : SysInv ⟨w, l₁ ++ th :: l₂⟩) {fd desc : ℕ} (hop : th.op = some (.io fd desc)) :
    FdAct.release.Sound th w l₁ l₂ := by
  have hpos : 0 < ioCount (l₁ ++ th :: l₂) (th.files, fd) := ioCount_pos (by simp) hop
  have hcounts : ∀ sl, ioCount (l₁ ++ [{ th with op := none }] ++ l₂) sl +
      (decide ((th.files, fd) = sl)).toNat = ioCount (l₁ ++ th :: l₂) sl := by
    intro sl
    have hrep := ioCount_replace th l₁ l₂ [{ th with op := none }] sl
    rw [Thread.inIo_of_io hop, ioCount_cons, Thread.inIo_of_none (show ({ th with op := none } : Thread).op = none from rfl)] at hrep
    have hnil : ioCount [] sl = 0 := rfl
    simp only [Bool.toNat_false] at hrep
    omega
  have hopening : openingCount (l₁ ++ [{ th with op := none }] ++ l₂) = openingCount (l₁ ++ th :: l₂) := by
    funext sl
    have hrep := openingCount_replace th l₁ l₂ [{ th with op := none }] sl
    rw [Thread.inOpen_of_io hop, openingCount_cons,
      Thread.inOpen_of_none (show ({ th with op := none } : Thread).op = none from rfl)] at hrep
    have hnil : openingCount [] sl = 0 := rfl
    simp only [Bool.toNat_false] at hrep
    omega
  obtain ⟨w', hrun, hinv, hsame, hclosing⟩ := h.tables.release hpos
    (ioCount (l₁ ++ [{ th with op := none }] ++ l₂))
    (fun sl hne => by
      have := hcounts sl
      rw [decide_eq_false (Ne.symm hne)] at this
      exact this)
    (by
      have := hcounts (th.files, fd)
      rw [decide_eq_true rfl] at this
      exact this)
  have hmoves : Moves (FdAct.release.Closes th) w w' := Or.inr (hclosing.mono_closed fun _ => False.elim)
  unfold FdAct.Sound FdAct.code
  simp only [hop]
  rw [Prog.bind_of_ok hrun, Prog.run_pure]
  refine ⟨h.continue rfl ?_ hmoves hsame ?_, hmoves⟩
  · rw [hopening]
    exact hinv
  · intro _ fd' d hcon
    cases hcon

theorem SysInv.close (h : SysInv ⟨w, l₁ ++ th :: l₂⟩) (fd : ℤ) : (FdAct.close fd).Sound th w l₁ l₂ := by
  have hclose : ((fileClose th.files fd).run w).Post
      (fun _ w' => SysInv ⟨w', l₁ ++ [th] ++ l₂⟩ ∧ Moves ((FdAct.close fd).Closes th) w w')
      (fun _ w' => w' = w) (fun _ => False) := by
    unfold fileClose
    refine (fd2file_post th.files fd).bind ?_
    rintro i _ ⟨⟨hi, -, hstatus⟩, rfl⟩
    rename_i w
    obtain ⟨w', hrun, hinv, hsame, hclosing, -, -⟩ := h.tables.close hstatus
    have hmoves : Moves ((FdAct.close fd).Closes th) w w' := by
      refine Or.inr (hclosing.mono_closed ?_)
      rintro sl rfl
      exact ⟨rfl, hi⟩
    rw [hrun]
    exact ⟨h.same hinv hmoves hsame, hmoves⟩
  unfold FdAct.Sound FdAct.code
  refine hclose.bind ?_
  intro _ w' hw'
  exact hw'

theorem SysInv.dup (h : SysInv ⟨w, l₁ ++ th :: l₂⟩) (fd1 : ℤ) (fd2 : Option ℤ) :
    (FdAct.dup fd1 fd2).Sound th w l₁ l₂ := by
  have hdup : ((fileDup th.files fd1 fd2).run w).Post
      (fun _ w' => SysInv ⟨w', l₁ ++ [th] ++ l₂⟩ ∧ Moves ((FdAct.dup fd1 fd2).Closes th) w w')
      (fun _ w' => w' = w) (fun _ => False) := by
    unfold fileDup
    refine (fd2file_post th.files fd1).bind ?_
    rintro src _ ⟨⟨-, -, hsrc⟩, rfl⟩
    rename_i w
    refine (h.tables.fdArrayAlloc fd2).bind ?_
    rintro dst _ ⟨hdst, hstatus, rfl⟩
    have hsl : (th.files, dst) ∈ w.slots := FdWorld.mem_slots.mpr ⟨h.files th (by simp), hdst⟩
    obtain ⟨hcount, hios, hopening⟩ := h.tables.of_none hstatus
    have hnode := h.tables.counted (th.files, src)
    simp only [FdEntry.Counted, hsrc] at hnode
    have hne : (th.files, src) ≠ (th.files, dst) := by
      intro heq
      rw [heq, hstatus] at hsrc
      cases hsrc
    have hsrcEntry : (w.found (th.files, dst)).entry (th.files, src) = w.entry (th.files, src) :=
      Function.update_of_ne hne _ _
    have hdstEntry : (w.found (th.files, dst)).entry (th.files, dst) =
        { w.entry (th.files, dst) with status := .init, node := 0 } := Function.update_self ..
    have hlive : ((w.found (th.files, dst)).entry (th.files, dst)).live = false := by
      rw [hdstEntry]
      rfl
    rw [fdArrayDup_run (by rw [hdstEntry]) (by rw [hdstEntry]; exact hcount) (by rw [hsrcEntry]; exact hsrc)
      (by rw [hsrcEntry]; exact hnode.2.2), hsrcEntry]
    have hinv := (h.tables.found hsl hstatus).launch hsl hlive hios hnode.2.2
    rw [Function.update_idem, ← hopening, Function.update_eq_self] at hinv
    have hmoves : Moves ((FdAct.dup fd1 fd2).Closes th) w ((w.found (th.files, dst)).launch (th.files, dst)
        (w.entry (th.files, src)).node) :=
      Or.inl ((found_steady hstatus).trans (launch_steady hlive))
    exact ⟨h.same hinv hmoves ⟨rfl, rfl, rfl⟩, hmoves⟩
  unfold FdAct.Sound FdAct.code
  refine hdup.bind ?_
  intro _ w' hw'
  exact hw'

theorem SysInv.closeall (h : SysInv ⟨w, l₁ ++ th :: l₂⟩) : FdAct.closeall.Sound th w l₁ l₂ := by
  obtain ⟨w', hrun, hinv, hsame, hclosing⟩ := h.tables.filesCloseall h.filesCount_pos
  have hmoves : Moves (FdAct.closeall.Closes th) w w' := Or.inr hclosing
  unfold FdAct.Sound FdAct.code
  rw [Prog.bind_of_ok hrun, Prog.run_pure]
  exact ⟨h.same hinv hmoves hsame, hmoves⟩

/-- A thread that is in the middle of nothing does not count. -/
theorem counts_idle (l₁ l₂ ths' : List Thread) (hop : th.op = none) (hops : ∀ th' ∈ ths', th'.op = none) :
    ioCount (l₁ ++ ths' ++ l₂) = ioCount (l₁ ++ th :: l₂) ∧
      openingCount (l₁ ++ ths' ++ l₂) = openingCount (l₁ ++ th :: l₂) := by
  constructor
  · funext sl
    have hrep := ioCount_replace th l₁ l₂ ths' sl
    have hzero : ioCount ths' sl = 0 := by
      unfold ioCount
      rw [List.countP_eq_zero]
      intro th' hth'
      rw [Thread.inIo_of_none (hops th' hth')]
      exact Bool.false_ne_true
    rw [Thread.inIo_of_none hop, hzero] at hrep
    exact hrep
  · funext sl
    have hrep := openingCount_replace th l₁ l₂ ths' sl
    have hzero : openingCount ths' sl = 0 := by
      unfold openingCount
      rw [List.countP_eq_zero]
      intro th' hth'
      rw [Thread.inOpen_of_none (hops th' hth')]
      exact Bool.false_ne_true
    rw [Thread.inOpen_of_none hop, hzero] at hrep
    exact hrep

theorem SysInv.fork (h : SysInv ⟨w, l₁ ++ th :: l₂⟩) (hop : th.op = none) (shared : Bool) :
    (FdAct.fork shared).Sound th w l₁ l₂ := by
  have hth : th.files ∈ w.tables := h.files th (by simp)
  have hidle : ∀ t, ∀ th' ∈ [th, ⟨t, none⟩], th'.op = none := by
    intro t th' hth'
    rcases List.mem_pair.mp hth' with rfl | rfl
    · exact hop
    · rfl
  have hnew : ∀ {w' : FdWorld} {t : ℕ}, t ∈ w'.tables → (∀ t' ∈ w.tables, t' ∈ w'.tables) →
      ∀ th' ∈ l₁ ++ [th, ⟨t, none⟩] ++ l₂, th'.files ∈ w'.tables := by
    intro w' t ht hsub th' hth'
    simp only [List.mem_append, List.mem_cons, List.not_mem_nil, or_false] at hth'
    rcases hth' with (hth' | rfl | rfl) | hth'
    · exact hsub _ (h.files th' (by simp [hth']))
    · exact hsub _ hth
    · exact ht
    · exact hsub _ (h.files th' (by simp [hth']))
  unfold FdAct.Sound FdAct.code
  cases shared with
  | true =>
    rw [Prog.bind_of_ok copyFiles_shared, Prog.run_pure]
    have hmoves : Moves ((FdAct.fork true).Closes th) w
        { w with filesCount := Function.update w.filesCount th.files (w.filesCount th.files + 1) } :=
      Or.inl ⟨fun _ _ => rfl, rfl⟩
    refine ⟨h.replace ?_ hmoves (hnew hth fun _ ht' => ht') (fun t => ?_) ?_, hmoves⟩
    · obtain ⟨hio, hopening⟩ := counts_idle l₁ l₂ _ hop (hidle th.files)
      rw [hio, hopening]
      exact h.tables.setCount _
    · show Function.update w.filesCount th.files _ t + _ = _
      by_cases ht : th.files = t
      · subst ht
        rw [Function.update_self]
        simp
      · rw [Function.update_of_ne (Ne.symm ht)]
        simp [ht]
    · intro th' hth' _ fd d hio
      rw [hidle _ th' hth'] at hio
      cases hio
  | false =>
    obtain ⟨w', hrun, hinv, hsteady, htables, hfiles⟩ := h.tables.copyFiles hth h.filesCount_pos
    rw [Prog.bind_of_ok hrun, Prog.run_pure]
    have hmoves : Moves ((FdAct.fork false).Closes th) w w' := Or.inl hsteady
    have hne : th.files ≠ w.freshTable := Nat.ne_of_lt (h.tables.fresh _ hth)
    have hzero : w.filesCount w.freshTable = 0 := by
      rw [h.filesCount, List.countP_eq_zero]
      intro th' hth'
      have := h.tables.fresh _ (h.files th' hth')
      simp only [decide_eq_true_eq]
      exact Nat.ne_of_lt this
    refine ⟨h.replace ?_ hmoves (hnew ?_ fun t' ht' => ?_) (fun t => ?_) ?_, hmoves⟩
    · obtain ⟨hio, hopening⟩ := counts_idle l₁ l₂ _ hop (hidle w.freshTable)
      rw [hio, hopening]
      exact hinv
    · rw [htables]
      exact List.mem_cons_self
    · rw [htables]
      exact List.mem_cons_of_mem _ ht'
    · rw [hfiles]
      by_cases ht : w.freshTable = t
      · subst ht
        rw [Function.update_self, hzero]
        simp [hne]
      · rw [Function.update_of_ne (Ne.symm ht)]
        by_cases ht' : th.files = t <;> simp [ht, ht']
    · intro th' hth' _ fd d hio
      rw [hidle _ th' hth'] at hio
      cases hio

theorem SysInv.exit (h : SysInv ⟨w, l₁ ++ th :: l₂⟩) (hop : th.op = none) :
    FdAct.exit.Sound th w l₁ l₂ := by
  have hth : th.files ∈ w.tables := h.files th (by simp)
  have hcounts : w.filesCount th.files = _ := h.filesCount th.files
  simp only [List.countP_append, List.countP_cons, decide_true, if_true] at hcounts
  -- the last thread of a table is the only one that could be in the middle of something there
  have hidle : w.filesCount th.files = 1 → ∀ fd, ioCount (l₁ ++ th :: l₂) (th.files, fd) = 0 ∧
      openingCount (l₁ ++ th :: l₂) (th.files, fd) = 0 := by
    intro hone fd
    have hother : ∀ th' ∈ l₁ ++ th :: l₂, th' = th ∨ th'.files ≠ th.files := by
      intro th' hth'
      have h₁ : l₁.countP (fun th' => decide (th'.files = th.files)) = 0 := by omega
      have h₂ : l₂.countP (fun th' => decide (th'.files = th.files)) = 0 := by omega
      rw [List.countP_eq_zero] at h₁ h₂
      simp only [List.mem_append, List.mem_cons] at hth'
      rcases hth' with hth' | rfl | hth'
      · exact Or.inr (by simpa using h₁ th' hth')
      · exact Or.inl rfl
      · exact Or.inr (by simpa using h₂ th' hth')
    constructor
    · by_contra hne
      obtain ⟨th', hth', hio⟩ := List.countP_pos_iff.mp (Nat.pos_of_ne_zero hne)
      rcases hother th' hth' with rfl | hfiles
      · rw [Thread.inIo_of_none hop] at hio
        cases hio
      · unfold Thread.inIo at hio
        split at hio
        · simp only [decide_eq_true_eq, Prod.mk.injEq] at hio
          exact hfiles hio.1
        · cases hio
    · by_contra hne
      obtain ⟨th', hth', hio⟩ := List.countP_pos_iff.mp (Nat.pos_of_ne_zero hne)
      rcases hother th' hth' with rfl | hfiles
      · rw [Thread.inOpen_of_none hop] at hio
        cases hio
      · unfold Thread.inOpen at hio
        split at hio
        · simp only [decide_eq_true_eq, Prod.mk.injEq] at hio
          exact hfiles hio.1
        · cases hio
  obtain ⟨w', hrun, hinv, hclosing, hfiles, htables⟩ := h.tables.putFiles hth h.filesCount_pos hidle
  have hmoves : Moves (FdAct.exit.Closes th) w w' := Or.inr hclosing
  unfold FdAct.Sound FdAct.code
  rw [Prog.bind_of_ok hrun, Prog.run_pure]
  refine ⟨h.replace ?_ hmoves (fun th' hth' => ?_) (fun t => ?_) fun th' hth' => ?_, hmoves⟩
  · obtain ⟨hio, hopening⟩ := counts_idle l₁ l₂ [] hop
      fun _ hmem => absurd hmem List.not_mem_nil
    rw [hio, hopening]
    exact hinv
  · have hmem : th' ∈ l₁ ∨ th' ∈ l₂ := by simpa using hth'
    refine htables _ (h.files th' (by simp only [List.mem_append, List.mem_cons]; tauto)) ?_
    by_contra hcon
    rw [not_or, not_not, not_lt] at hcon
    have heq : th'.files = th.files := hcon.1
    have hle : w.filesCount th.files ≤ 1 := hcon.2
    have hpos : 0 < l₁.countP (fun th' => decide (th'.files = th.files)) +
        l₂.countP (fun th' => decide (th'.files = th.files)) := by
      rcases hmem with hmem | hmem
      · have : 0 < l₁.countP (fun th' => decide (th'.files = th.files)) :=
          List.countP_pos_iff.mpr ⟨th', hmem, by simpa using heq⟩
        omega
      · have : 0 < l₂.countP (fun th' => decide (th'.files = th.files)) :=
          List.countP_pos_iff.mpr ⟨th', hmem, by simpa using heq⟩
        omega
    omega
  · have hpos := h.filesCount_pos
    rw [hfiles]
    by_cases ht : th.files = t
    · subst ht
      rw [Function.update_self]
      simp only [decide_true, Bool.toNat_true, List.countP_nil]
      omega
    · rw [Function.update_of_ne (Ne.symm ht)]
      simp [ht]
  · exact absurd hth' List.not_mem_nil

/-- **Whatever a thread does next keeps the invariant, and no assertion fails.** -/
theorem SysInv.act (h : SysInv ⟨w, l₁ ++ th :: l₂⟩) {a : FdAct} (henabled : a.Enabled th) :
    a.Sound th w l₁ l₂ := by
  cases a with
  | openBegin => exact h.openBegin henabled
  | openEnd node =>
    obtain ⟨hnode, fd, hop⟩ := henabled
    exact h.openEnd hnode hop
  | openFail =>
    obtain ⟨fd, hop⟩ := henabled
    exact h.openFail hop
  | acquire fd => exact h.acquire henabled fd
  | release =>
    obtain ⟨fd, desc, hop⟩ := henabled
    exact h.release hop
  | close fd => exact h.close fd
  | dup fd1 fd2 => exact h.dup fd1 fd2
  | closeall => exact h.closeall
  | fork shared => exact h.fork henabled shared
  | exit => exact h.exit henabled

theorem SysInv.boot (refCount : ℕ → ℕ) : SysInv (fdBoot refCount) where
  tables :=
    { counted := fun _ => ⟨rfl, rfl, rfl⟩
      used := fun _ hne => absurd rfl hne
      nodup := List.nodup_singleton 0
      fresh := fun t ht => by
        rw [List.mem_singleton.mp ht]
        exact Nat.zero_lt_one
      openCount := fun _ => (List.countP_eq_zero.mpr fun _ _ => Bool.false_ne_true).symm
      refCount := fun _ => Nat.zero_le _
      closes := fun d => by
        rw [if_neg (show ¬ d < (fdBoot refCount).world.freshDesc from Nat.not_lt_zero d)]
        exact (Nat.zero_add _).trans (List.countP_eq_zero.mpr fun _ _ => Bool.false_ne_true) }
  files := by simp [fdBoot]
  filesCount := fun t => by
    rw [fdBoot, List.countP_singleton]
    by_cases ht : t = 0
    · simp [ht]
    · simp [ht, Ne.symm ht]
  io := by simp [fdBoot]

/-- What a step does to the invariant and to the descriptors. -/
theorem SysInv.step {s s' : FdSys} {a : FdAct} (h : SysInv s) (hstep : FdStep a th s s') :
    SysInv s' ∧ Moves (a.Closes th) s.world s'.world := by
  cases hstep with
  | ok henabled hrun =>
    have hsound := h.act henabled
    rw [FdAct.Sound, hrun] at hsound
    exact hsound
  | error henabled hrun =>
    have hsound := h.act henabled
    rw [FdAct.Sound, hrun] at hsound
    obtain rfl := hsound
    exact ⟨h, Or.inl (Steady.refl _)⟩

end inv

theorem FdReach.inv {s : FdSys} (h : FdReach s) : SysInv s := by
  obtain ⟨refCount, hrun⟩ := h
  refine invariant_of_step SysInv hrun (SysInv.boot refCount) ?_
  rintro a b hinv ⟨act, th, hstep⟩
  exact (hinv.step hstep).1

/-- A run goes on with a step of a thread. -/
theorem FdReach.step {w w' : FdWorld} {th : Thread} (l₁ l₂ : List Thread) {ths : List Thread} (a : FdAct)
    (h : FdReach ⟨w, l₁ ++ th :: l₂⟩) (henabled : a.Enabled th) (hrun : (a.code th).run w = .ok ths w') :
    FdReach ⟨w', l₁ ++ ths ++ l₂⟩ := by
  obtain ⟨refCount, hsteps⟩ := h
  exact ⟨refCount, hsteps.tail ⟨a, th, FdStep.ok henabled hrun⟩⟩

/-- **The life of a descriptor**, in every state that an interleaving of threads leads to. -/
theorem descriptor_life_cycle {s : FdSys} (h : FdReach s) :
    -- the count of an entry
    (∀ sl, (s.world.entry sl).openCount =
      (if (s.world.entry sl).status = .opened then 1 else 0) + s.inFlight sl) ∧
    -- the count of an inode
    (∀ node, s.world.openCount node = s.world.slots.countP fun sl => (s.world.entry sl).holds node) ∧
    -- no assertion fails, whichever thread goes on
    (∀ th ∈ s.threads, ∀ a : FdAct, a.Enabled th → ∀ p, (a.code th).run s.world ≠ .panic p) ∧
    -- a descriptor that has been opened is in one entry, or `vfs_close` has run for it once
    (∀ d, d < s.world.freshDesc →
      (s.world.vfsCloses d = 0 ∧ (s.world.slots.countP fun sl => (s.world.entry sl).has d) = 1) ∨
      (s.world.vfsCloses d = 1 ∧ ∀ sl, (s.world.entry sl).has d = false)) ∧
    -- it does not run before the last operation on the descriptor is over, and is not forgotten after it
    (∀ d, 0 < s.world.vfsCloses d → ∀ th ∈ s.threads, ∀ fd, th.op ≠ some (.io fd d)) ∧
    (∀ sl, (s.world.entry sl).status = .closed → 0 < s.inFlight sl) ∧
    -- it runs for descriptors that have been closed
    (∀ a th s', FdStep a th s s' → ∀ d, s'.world.vfsCloses d ≠ s.world.vfsCloses d →
      ∃ sl, (s.world.entry sl).has d = true ∧
        ((s.world.entry sl).status = .closed ∨ a.Closes th sl)) ∧
    -- and the entry has no other descriptor before
    (∀ a th s', FdStep a th s s' → ∀ sl, (s.world.entry sl).live = true →
      ((s'.world.entry sl).live = true ∧ (s'.world.entry sl).desc = (s.world.entry sl).desc ∧
        (s'.world.entry sl).node = (s.world.entry sl).node) ∨
      s'.world.vfsCloses (s.world.entry sl).desc = 1) := by
  have hinv := h.inv
  refine ⟨hinv.tables.openCount_eq, hinv.tables.openCount, fun th hth a henabled p hpanic => ?_,
    fun d hd => hinv.tables.closes_cases hd, fun d hclosed th hth fd hop => ?_, fun sl hstatus => ?_,
    fun a th s' hstep d hne => ?_, fun a th s' hstep sl hlive => ?_⟩
  · obtain ⟨l₁, l₂, heq⟩ := List.append_of_mem hth
    have hinv' : SysInv ⟨s.world, l₁ ++ th :: l₂⟩ := by
      rw [← heq]
      exact hinv
    have hsound := hinv'.act henabled
    rw [FdAct.Sound, hpanic] at hsound
    exact hsound
  · have hlive := hinv.tables.live_of_io (ioCount_pos hth hop)
    have hdesc := hinv.io th hth fd d hop
    have := hinv.tables.closes_of_live hlive
    rw [hdesc] at this
    omega
  · have hcounted := hinv.tables.counted sl
    simp only [FdEntry.Counted, hstatus] at hcounted
    exact hcounted.2.2.2
  · rcases (hinv.step hstep).2 with hsteady | hclosing
    · rw [hsteady.vfsCloses] at hne
      exact absurd rfl hne
    · exact hclosing.closes d hne
  · obtain ⟨hinv', hmoves⟩ := hinv.step hstep
    rcases hmoves with hsteady | hclosing
    · rw [hsteady.keeps sl hlive]
      exact Or.inl ⟨hlive, rfl, rfl⟩
    · refine (hclosing.keeps sl hlive).imp_right fun hpos => ?_
      have := hinv'.tables.closes_le (s.world.entry sl).desc
      omega

/-- A thread opens a file and makes a second thread; the second begins an operation, and the first closes
the descriptor under it. The entry waits for the operation. -/
theorem descriptor_life_cycle_closed_under_io :
    ∃ s, FdReach s ∧ (s.world.entry (0, 0)).status = .closed ∧ s.inFlight (0, 0) = 1 ∧
      (s.world.entry (0, 0)).openCount = 1 := by
  have hreach : ∃ s, FdReach s ∧ (s.world.entry (0, 0)).status = .closed ∧ s.inFlight (0, 0) = 1 := by
    refine ⟨_, FdReach.step [] [_] (.close 0) (FdReach.step [⟨0, none⟩] [] (.acquire 0)
      (FdReach.step [] [] (.fork true) (FdReach.step [] [] (.openEnd 5) (FdReach.step [] [] .openBegin
        ⟨fun _ => 0, Relation.ReflTransGen.refl⟩ rfl rfl) ⟨by decide, 0, rfl⟩ rfl) rfl rfl) rfl rfl) rfl rfl,
      rfl, rfl⟩
  obtain ⟨s, hs, hstatus, hio⟩ := hreach
  refine ⟨s, hs, hstatus, hio, ?_⟩
  have hcount := (descriptor_life_cycle hs).1 (0, 0)
  rw [hstatus, hio] at hcount
  exact hcount

end Ucore.Fs.Fd
