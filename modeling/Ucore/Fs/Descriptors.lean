import Ucore.Fs.File

/-!
# The life of a descriptor

The tables of open files with all that happens inside a call: an operation holds its entry while it is
under way, a close may come before the operation ends, and whichever of the two is last frees the entry.
Tables are shared by threads, copied by a fork and destroyed with their last thread.

* `FdWorld` is what the code works on: the entries of all tables, the number of threads of each table and
  the counts of the inodes. Each descriptor that is opened gets a number of its own, which only the
  statements use.
* `fdArrayAlloc`, `fdArrayFree`, … , `dupFs` are the functions of `file.c` and `fs.c`. The present
  directory of a table is left out.
* `FdInv` is the invariant of the tables, for a given number of operations under way on each entry. Every
  function keeps it: `FdInv.launch`, `FdInv.release`, `FdInv.close`, `FdInv.dupFs`, … .
* `Closing` and `Steady` say what a function can do to the descriptors.
-/

namespace Ucore.Fs.Fd

open Ucore.Lib Ucore.Fs

/-- The values of `status`. Source: `kern/fs/file.h` `struct file` -/
inductive FdStatus where
  | none | init | opened | closed
  deriving Repr, DecidableEq

/-- An entry of a table of open files, without the position and the access modes.
Source: `kern/fs/file.h` `struct file` -/
structure FdEntry where
  status : FdStatus
  /-- The inode, or 0. -/
  node : ℕ
  openCount : ℕ
  /-- The number of the descriptor. -/
  desc : ℕ
  deriving Repr, DecidableEq

/-- A table and an index in it. -/
abbrev Slot := ℕ × ℕ

/-- The tables and the counts of the inodes. -/
structure FdWorld where
  /-- The entries of the tables. -/
  entry : Slot → FdEntry
  /-- `files_count` of each table. -/
  filesCount : ℕ → ℕ
  /-- The tables in memory. -/
  tables : List ℕ
  /-- The next table that `files_create` returns. -/
  freshTable : ℕ
  /-- `open_count` of each inode. -/
  openCount : ℕ → ℕ
  /-- `ref_count` of each inode. -/
  refCount : ℕ → ℕ
  /-- The number of the next descriptor. -/
  freshDesc : ℕ
  /-- How often `vfs_close` has run for each descriptor. -/
  vfsCloses : ℕ → ℕ

/-- The assertions of `file.c`, `fs.c` and `inode.c` on the way of a descriptor. -/
inductive FdPanic where
  | allocCount | freeStatus | freeCount | acquireStatus | releaseStatus | releaseCount | openStatus
  | closeStatus | closeCount | dupStatus | inodeOpenDec | inodeRefDec | destroyCount | destroyStatus
  | closeallCount | dupFsCount
  deriving Repr, DecidableEq

abbrev FdProg := Prog FdPanic FsError FdWorld

/-- Change an entry. -/
def FdWorld.set (w : FdWorld) (sl : Slot) (e : FdEntry) : FdWorld :=
  { w with entry := Function.update w.entry sl e }

/-! ### The functions of the source -/

/-- `vop_open_dec` and `vop_ref_dec`; the descriptor `desc` is closed.
Source: `kern/fs/vfs/vfsfile.c` `vfs_close` -/
def vfsClose (node desc : ℕ) : FdProg Unit := do
  let w ← Prog.get
  Prog.assert (0 < w.openCount node) .inodeOpenDec
  Prog.assert (0 < w.refCount node) .inodeRefDec
  Prog.modify fun w =>
    { w with
      openCount := Function.update w.openCount node (w.openCount node - 1)
      refCount := Function.update w.refCount node (w.refCount node - 1)
      vfsCloses := Function.update w.vfsCloses desc (w.vfsCloses desc + 1) }

/-- Source: `kern/fs/file.c` `fd_array_alloc`, behind its search -/
def fdArrayFound (sl : Slot) : FdProg Unit := do
  let w ← Prog.get
  Prog.assert ((w.entry sl).openCount = 0) .allocCount
  Prog.modify fun w => w.set sl { w.entry sl with status := .init, node := 0 }

/-- The search of `fd_array_alloc`: any free index, or the index `fd`. -/
def fdArrayFind (t : ℕ) (fd : Option ℤ) : FdProg ℕ := do
  let w ← Prog.get
  match fd with
  | none =>
    match (List.range filesStructNentry).find? fun fd => (w.entry (t, fd)).status = .none with
    | some fd => pure fd
    | none => Prog.throw .maxOpen
  | some fd =>
    if 0 ≤ fd ∧ fd < filesStructNentry then
      if (w.entry (t, fd.toNat)).status = .none then pure fd.toNat else Prog.throw .busy
    else
      Prog.throw .inval

/-- `NO_FD` is `none` here. Source: `kern/fs/file.c` `fd_array_alloc` -/
def fdArrayAlloc (t : ℕ) (fd : Option ℤ) : FdProg ℕ := do
  let fd ← fdArrayFind t fd
  fdArrayFound (t, fd)
  pure fd

/-- Source: `kern/fs/file.c` `fd_array_free` -/
def fdArrayFree (sl : Slot) : FdProg Unit := do
  let w ← Prog.get
  let e := w.entry sl
  Prog.assert (e.status = .init ∨ e.status = .closed) .freeStatus
  Prog.assert (e.openCount = 0) .freeCount
  if e.status = .closed then
    vfsClose e.node e.desc
  Prog.modify fun w => w.set sl { w.entry sl with status := .none }

/-- Source: `kern/fs/file.c` `fd_array_acquire` -/
def fdArrayAcquire (sl : Slot) : FdProg Unit := do
  let w ← Prog.get
  Prog.assert ((w.entry sl).status = .opened) .acquireStatus
  Prog.modify fun w => w.set sl { w.entry sl with openCount := (w.entry sl).openCount + 1 }

/-- `open_count` is lowered, and the entry freed if it becomes 0: the end of `fd_array_release` and of
`fd_array_close`. -/
def fopenCountDec (sl : Slot) : FdProg Unit := do
  Prog.modify fun w => w.set sl { w.entry sl with openCount := (w.entry sl).openCount - 1 }
  let w ← Prog.get
  if (w.entry sl).openCount = 0 then
    fdArrayFree sl

/-- Source: `kern/fs/file.c` `fd_array_release` -/
def fdArrayRelease (sl : Slot) : FdProg Unit := do
  let w ← Prog.get
  Prog.assert ((w.entry sl).status = .opened ∨ (w.entry sl).status = .closed) .releaseStatus
  Prog.assert (0 < (w.entry sl).openCount) .releaseCount
  fopenCountDec sl

/-- The descriptor gets its number. Source: `kern/fs/file.c` `fd_array_open` -/
def fdArrayOpen (sl : Slot) : FdProg Unit := do
  let w ← Prog.get
  Prog.assert ((w.entry sl).status = .init ∧ (w.entry sl).node ≠ 0) .openStatus
  Prog.modify fun w =>
    { w.set sl
        { w.entry sl with
          status := .opened
          openCount := (w.entry sl).openCount + 1
          desc := w.freshDesc } with
      freshDesc := w.freshDesc + 1 }

/-- Source: `kern/fs/file.c` `fd_array_close` -/
def fdArrayClose (sl : Slot) : FdProg Unit := do
  let w ← Prog.get
  Prog.assert ((w.entry sl).status = .opened) .closeStatus
  Prog.assert (0 < (w.entry sl).openCount) .closeCount
  Prog.modify fun w => w.set sl { w.entry sl with status := .closed }
  fopenCountDec sl

/-- `vop_ref_inc` and `vop_open_inc` -/
def FdWorld.incNode (w : FdWorld) (node : ℕ) : FdWorld :=
  { w with
    openCount := Function.update w.openCount node (w.openCount node + 1)
    refCount := Function.update w.refCount node (w.refCount node + 1) }

/-- Source: `kern/fs/file.c` `fd_array_dup` -/
def fdArrayDup (dst src : Slot) : FdProg Unit := do
  let w ← Prog.get
  Prog.assert ((w.entry dst).status = .init ∧ (w.entry src).status = .opened) .dupStatus
  Prog.modify fun w =>
    (w.incNode (w.entry src).node).set dst { w.entry dst with node := (w.entry src).node }
  fdArrayOpen dst

/-- Source: `kern/fs/file.c` `fd2file` -/
def fd2file (t : ℕ) (fd : ℤ) : FdProg ℕ := do
  let w ← Prog.get
  if 0 ≤ fd ∧ fd < filesStructNentry then
    if (w.entry (t, fd.toNat)).status = .opened then pure fd.toNat else Prog.throw .inval
  else
    Prog.throw .inval

/-- The end of `file_open` when `vfs_open` has returned `node`; `vfs_open` has raised both counts.
Source: `kern/fs/file.c` `file_open` -/
def fileOpenEnd (sl : Slot) (node : ℕ) : FdProg Unit := do
  Prog.modify fun w => (w.incNode node).set sl { w.entry sl with node := node }
  fdArrayOpen sl

/-- Source: `kern/fs/file.c` `file_close` -/
def fileClose (t : ℕ) (fd : ℤ) : FdProg Unit := do
  let fd ← fd2file t fd
  fdArrayClose (t, fd)

/-- Source: `kern/fs/file.c` `file_dup` -/
def fileDup (t : ℕ) (fd1 : ℤ) (fd2 : Option ℤ) : FdProg Unit := do
  let src ← fd2file t fd1
  let dst ← fdArrayAlloc t fd2
  fdArrayDup (t, dst) (t, src)

/-- An entry is closed if it is open: the loops of `files_closeall` and `files_destroy`. -/
def closeOpened (sl : Slot) : FdProg Unit := do
  let w ← Prog.get
  if (w.entry sl).status = .opened then
    fdArrayClose sl

/-- The loop of `files_closeall`, over the indices `fds`. -/
def closeallLoop (t : ℕ) : List ℕ → FdProg Unit
  | [] => pure ()
  | fd :: fds => do
    closeOpened (t, fd)
    closeallLoop t fds

/-- Source: `kern/fs/fs.c` `files_closeall` -/
def filesCloseall (t : ℕ) : FdProg Unit := do
  let w ← Prog.get
  Prog.assert (0 < w.filesCount t) .closeallCount
  closeallLoop t (List.range' 2 (filesStructNentry - 2))

/-- The loop of `files_destroy`. -/
def destroyLoop (t : ℕ) : List ℕ → FdProg Unit
  | [] => pure ()
  | fd :: fds => do
    closeOpened (t, fd)
    let w ← Prog.get
    Prog.assert ((w.entry (t, fd)).status = .none) .destroyStatus
    destroyLoop t fds

/-- Source: `kern/fs/fs.c` `files_destroy` -/
def filesDestroy (t : ℕ) : FdProg Unit := do
  let w ← Prog.get
  Prog.assert (w.filesCount t = 0) .destroyCount
  destroyLoop t (List.range filesStructNentry)
  Prog.modify fun w => { w with tables := w.tables.erase t }

/-- A new table without open files. Source: `kern/fs/fs.c` `files_create`, `kern/fs/file.c`
`fd_array_init` -/
def filesCreate : FdProg ℕ := do
  let w ← Prog.get
  Prog.modify fun w =>
    { w with
      entry := fun sl => if sl.1 = w.freshTable then ⟨.none, 0, 0, 0⟩ else w.entry sl
      filesCount := Function.update w.filesCount w.freshTable 0
      tables := w.freshTable :: w.tables
      freshTable := w.freshTable + 1 }
  pure w.freshTable

/-- The loop of `dup_fs`. -/
def dupFsLoop (dst src : ℕ) : List ℕ → FdProg Unit
  | [] => pure ()
  | fd :: fds => do
    let w ← Prog.get
    if (w.entry (src, fd)).status = .opened then do
      Prog.modify fun w => w.set (dst, fd) { w.entry (dst, fd) with status := .init }
      fdArrayDup (dst, fd) (src, fd)
    dupFsLoop dst src fds

/-- Source: `kern/fs/fs.c` `dup_fs` -/
def dupFs (dst src : ℕ) : FdProg Unit := do
  let w ← Prog.get
  Prog.assert (w.filesCount dst = 0 ∧ 0 < w.filesCount src) .dupFsCount
  dupFsLoop dst src (List.range filesStructNentry)

/-- The tables of a new thread: the same one, or a copy. Source: `kern/process/proc.c` `copy_files` -/
def copyFiles (t : ℕ) (shared : Bool) : FdProg ℕ := do
  let t' ← (if shared then pure t
    else do
      let t' ← filesCreate
      dupFs t' t
      pure t')
  Prog.modify fun w => { w with filesCount := Function.update w.filesCount t' (w.filesCount t' + 1) }
  pure t'

/-- The table is destroyed with its last thread. Source: `kern/process/proc.c` `put_files` -/
def putFiles (t : ℕ) : FdProg Unit := do
  Prog.modify fun w => { w with filesCount := Function.update w.filesCount t (w.filesCount t - 1) }
  let w ← Prog.get
  if w.filesCount t = 0 then
    filesDestroy t

/-! ### Entries with a descriptor -/

/-- The entry has a descriptor that is not closed in `vfs`. -/
def FdEntry.live (e : FdEntry) : Bool := e.status = .opened ∨ e.status = .closed

/-- The entry refers to an inode. -/
def FdEntry.holds (e : FdEntry) (node : ℕ) : Bool := e.live && e.node = node

/-- The entry has the descriptor `desc`. -/
def FdEntry.has (e : FdEntry) (desc : ℕ) : Bool := e.live && e.desc = desc

/-- The entries of the tables in memory. -/
def FdWorld.slots (w : FdWorld) : List Slot :=
  w.tables.flatMap fun t => (List.range filesStructNentry).map (Prod.mk t)

theorem FdWorld.mem_slots {w : FdWorld} {sl : Slot} :
    sl ∈ w.slots ↔ sl.1 ∈ w.tables ∧ sl.2 < filesStructNentry := by
  obtain ⟨t, fd⟩ := sl
  unfold slots
  simp only [List.mem_flatMap, List.mem_map, List.mem_range, Prod.mk.injEq]
  constructor
  · rintro ⟨t', ht', fd', hfd', rfl, rfl⟩
    exact ⟨ht', hfd'⟩
  · rintro ⟨ht, hfd⟩
    exact ⟨t, ht, fd, hfd, rfl, rfl⟩

theorem FdWorld.slots_nodup {w : FdWorld} (h : w.tables.Nodup) : w.slots.Nodup := by
  unfold slots
  rw [List.nodup_flatMap]
  refine ⟨fun t _ => ?_, ?_⟩
  · exact List.nodup_range.map fun a b hab => (Prod.mk.inj hab).2
  · refine h.imp fun {t t'} hne => ?_
    intro sl hsl hsl'
    simp only [List.mem_map] at hsl hsl'
    obtain ⟨_, -, rfl⟩ := hsl
    obtain ⟨_, -, heq⟩ := hsl'
    exact hne (Prod.mk.inj heq).1.symm

/-- A count over a list without repetitions, when the predicate changes at one element. -/
theorem countP_change {α : Type} {l : List α} (hl : l.Nodup) {a : α} (ha : a ∈ l) {p q : α → Bool}
    (h : ∀ b, b ≠ a → q b = p b) : l.countP q + (p a).toNat = l.countP p + (q a).toNat := by
  induction l with
  | nil => cases ha
  | cons b l ih =>
    rw [List.nodup_cons] at hl
    rw [List.countP_cons, List.countP_cons]
    rcases List.mem_cons.mp ha with rfl | ha
    · have hrest : l.countP q = l.countP p := by
        refine List.countP_congr fun c hc => ?_
        rw [h c (by rintro rfl; exact hl.1 hc)]
      rw [hrest]
      cases p a <;> cases q a <;> simp
    · have hba : b ≠ a := by
        rintro rfl
        exact hl.1 ha
      have := ih hl.2 ha
      rw [h b hba]
      omega

/-! ### The invariant of the tables -/

/-- The counts of an entry on which `ios` operations are under way and which `opening` threads are
opening. -/
def FdEntry.Counted (e : FdEntry) (ios opening : ℕ) : Prop :=
  match e.status with
  | .none => e.openCount = 0 ∧ ios = 0 ∧ opening = 0
  | .init => e.openCount = 0 ∧ ios = 0 ∧ opening = 1
  | .opened => e.openCount = 1 + ios ∧ opening = 0 ∧ e.node ≠ 0
  | .closed => e.openCount = ios ∧ opening = 0 ∧ e.node ≠ 0 ∧ 0 < ios

/-- The invariant of the tables, with `ios` operations under way on the entries and `opening` threads that
open them. -/
structure FdInv (ios opening : Slot → ℕ) (w : FdWorld) : Prop where
  counted : ∀ sl, (w.entry sl).Counted (ios sl) (opening sl)
  /-- Entries are used in the tables only. -/
  used : ∀ sl, (w.entry sl).status ≠ .none → sl ∈ w.slots
  nodup : w.tables.Nodup
  fresh : ∀ t ∈ w.tables, t < w.freshTable
  /-- The count of an inode is the number of entries that refer to it. -/
  openCount : ∀ node, w.openCount node = w.slots.countP fun sl => (w.entry sl).holds node
  refCount : ∀ node, w.openCount node ≤ w.refCount node
  /-- A descriptor that has been opened is in one entry, or it has been closed once. -/
  closes : ∀ d, w.vfsCloses d + (w.slots.countP fun sl => (w.entry sl).has d) =
    if d < w.freshDesc then 1 else 0

/-- What no function but those that make and destroy tables changes. -/
structure SameTables (w w' : FdWorld) : Prop where
  tables : w'.tables = w.tables
  freshTable : w'.freshTable = w.freshTable
  filesCount : w'.filesCount = w.filesCount

namespace SameTables

variable {w w' w'' : FdWorld}

theorem refl (w : FdWorld) : SameTables w w := ⟨rfl, rfl, rfl⟩

theorem trans (h : SameTables w w') (h' : SameTables w' w'') : SameTables w w'' :=
  ⟨h'.tables.trans h.tables, h'.freshTable.trans h.freshTable, h'.filesCount.trans h.filesCount⟩

theorem slots (h : SameTables w w') : w'.slots = w.slots := by
  unfold FdWorld.slots
  rw [h.tables]

end SameTables

namespace FdInv

variable {ios opening : Slot → ℕ} {w w' : FdWorld} {sl : Slot} {node : ℕ}

/-- One entry changes, and with it the counts of inodes and descriptors. -/
theorem change (h : FdInv ios opening w) (hsl : sl ∈ w.slots) {ios' opening' : Slot → ℕ}
    (hsame : SameTables w w') (hentry : ∀ sl', sl' ≠ sl → w'.entry sl' = w.entry sl')
    (hios : ∀ sl', sl' ≠ sl → ios' sl' = ios sl') (hopening : ∀ sl', sl' ≠ sl → opening' sl' = opening sl')
    (hcounted : (w'.entry sl).Counted (ios' sl) (opening' sl))
    (hopen : ∀ node, w'.openCount node + ((w.entry sl).holds node).toNat =
      w.openCount node + ((w'.entry sl).holds node).toNat)
    (href : ∀ node, w'.openCount node ≤ w'.refCount node)
    (hcloses : ∀ d, w'.vfsCloses d + ((w'.entry sl).has d).toNat + (if d < w.freshDesc then 1 else 0) =
      w.vfsCloses d + ((w.entry sl).has d).toNat + if d < w'.freshDesc then 1 else 0) :
    FdInv ios' opening' w' := by
  have hnodup := FdWorld.slots_nodup h.nodup
  refine ⟨fun sl' => ?_, fun sl' hne => ?_, ?_, ?_, fun n => ?_, href, fun d => ?_⟩
  · by_cases heq : sl' = sl
    · rw [heq]
      exact hcounted
    · rw [hentry sl' heq, hios sl' heq, hopening sl' heq]
      exact h.counted sl'
  · rw [hsame.slots]
    by_cases heq : sl' = sl
    · rw [heq]
      exact hsl
    · rw [hentry sl' heq] at hne
      exact h.used sl' hne
  · rw [hsame.tables]
    exact h.nodup
  · rw [hsame.tables, hsame.freshTable]
    exact h.fresh
  · have hchange := countP_change hnodup hsl (p := fun sl => (w.entry sl).holds n)
      (q := fun sl => (w'.entry sl).holds n) fun sl' hne => by simp only [hentry sl' hne]
    have hcount := h.openCount n
    have := hopen n
    rw [hsame.slots]
    omega
  · have hchange := countP_change hnodup hsl (p := fun sl => (w.entry sl).has d)
      (q := fun sl => (w'.entry sl).has d) fun sl' hne => by simp only [hentry sl' hne]
    have hcount := h.closes d
    have := hcloses d
    rw [hsame.slots]
    omega

/-- An entry that no thread is using is free or open. -/
theorem idle (h : FdInv ios opening w) (hios : ios sl = 0) (hopening : opening sl = 0) :
    (w.entry sl).status = .none ∨ ((w.entry sl).status = .opened ∧ (w.entry sl).openCount = 1) := by
  have hcounted := h.counted sl
  unfold FdEntry.Counted at hcounted
  cases hstatus : (w.entry sl).status with
  | none => exact Or.inl rfl
  | init =>
    simp only [hstatus] at hcounted
    omega
  | opened =>
    simp only [hstatus] at hcounted
    exact Or.inr ⟨rfl, by omega⟩
  | closed =>
    simp only [hstatus] at hcounted
    omega

/-- The count of an entry is 1 for the open descriptor, and 1 for each operation. -/
theorem openCount_eq (h : FdInv ios opening w) (sl : Slot) :
    (w.entry sl).openCount = (if (w.entry sl).status = .opened then 1 else 0) + ios sl := by
  have hcounted := h.counted sl
  unfold FdEntry.Counted at hcounted
  cases hstatus : (w.entry sl).status with
  | none =>
    simp only [hstatus] at hcounted
    simp [hcounted.1, hcounted.2.1]
  | init =>
    simp only [hstatus] at hcounted
    simp [hcounted.1, hcounted.2.1]
  | opened =>
    simp only [hstatus] at hcounted
    simp [hcounted.1]
  | closed =>
    simp only [hstatus] at hcounted
    simp [hcounted.1]

theorem used_of_live (h : FdInv ios opening w) (hlive : (w.entry sl).live = true) : sl ∈ w.slots := by
  refine h.used sl fun hnone => ?_
  simp [FdEntry.live, hnone] at hlive

theorem closes_le (h : FdInv ios opening w) (d : ℕ) : w.vfsCloses d ≤ 1 := by
  have hcloses := h.closes d
  split_ifs at hcloses <;> omega

/-- `vfs_close` has not run for a descriptor that an entry has. -/
theorem closes_of_live (h : FdInv ios opening w) (hlive : (w.entry sl).live = true) :
    w.vfsCloses (w.entry sl).desc = 0 := by
  have hcloses := h.closes (w.entry sl).desc
  have hpos : 0 < w.slots.countP fun sl' => (w.entry sl').has (w.entry sl).desc :=
    List.countP_pos_iff.mpr ⟨sl, h.used_of_live hlive, by simp [FdEntry.has, hlive]⟩
  split_ifs at hcloses <;> omega

/-- A descriptor is in one entry, or `vfs_close` has run for it once. -/
theorem closes_cases (h : FdInv ios opening w) {d : ℕ} (hd : d < w.freshDesc) :
    (w.vfsCloses d = 0 ∧ (w.slots.countP fun sl => (w.entry sl).has d) = 1) ∨
      (w.vfsCloses d = 1 ∧ ∀ sl, (w.entry sl).has d = false) := by
  have hcloses := h.closes d
  rw [if_pos hd] at hcloses
  rcases Nat.eq_zero_or_pos (w.vfsCloses d) with hzero | hpos
  · exact Or.inl ⟨hzero, by omega⟩
  · refine Or.inr ⟨by omega, fun sl => ?_⟩
    by_contra hhas
    rw [Bool.not_eq_false] at hhas
    unfold FdEntry.has at hhas
    rw [Bool.and_eq_true, decide_eq_true_eq] at hhas
    have := h.closes_of_live hhas.1
    rw [hhas.2] at this
    omega

end FdInv

/-! ### What a function does to the descriptors -/

/-- Descriptors are closed, in the entries of `C` also those that are open. -/
structure Closing (C : Slot → Prop) (w w' : FdWorld) : Prop where
  /-- A descriptor stays in its entry until `vfs_close` has run. -/
  keeps : ∀ sl, (w.entry sl).live = true →
    ((w'.entry sl).live = true ∧ (w'.entry sl).desc = (w.entry sl).desc ∧
      (w'.entry sl).node = (w.entry sl).node) ∨ 0 < w'.vfsCloses (w.entry sl).desc
  /-- No descriptor is opened. -/
  back : ∀ sl, (w'.entry sl).live = true →
    (w.entry sl).live = true ∧ (w'.entry sl).desc = (w.entry sl).desc ∧
      ((w'.entry sl).status = .closed → (w.entry sl).status = .closed ∨ C sl)
  mono : ∀ d, w.vfsCloses d ≤ w'.vfsCloses d
  /-- `vfs_close` runs for a descriptor that has been closed. -/
  closes : ∀ d, w'.vfsCloses d ≠ w.vfsCloses d →
    ∃ sl, (w.entry sl).has d = true ∧ ((w.entry sl).status = .closed ∨ C sl)

/-- No descriptor is closed. -/
structure Steady (w w' : FdWorld) : Prop where
  keeps : ∀ sl, (w.entry sl).live = true → w'.entry sl = { w.entry sl with openCount := (w'.entry sl).openCount }
  vfsCloses : w'.vfsCloses = w.vfsCloses

theorem Steady.refl (w : FdWorld) : Steady w w := ⟨fun _ _ => rfl, rfl⟩

theorem Steady.live_of {w w' : FdWorld} (h : Steady w w') {sl : Slot} (hlive : (w.entry sl).live = true) :
    (w'.entry sl).live = true := by
  rw [h.keeps sl hlive]
  exact hlive

theorem Steady.trans {w w' w'' : FdWorld} (h : Steady w w') (h' : Steady w' w'') : Steady w w'' := by
  refine ⟨fun sl hlive => ?_, h'.vfsCloses.trans h.vfsCloses⟩
  rw [h'.keeps sl (h.live_of hlive), h.keeps sl hlive]

/-- A change of entries without a descriptor. -/
theorem Steady.of_entry {w w' : FdWorld}
    (hentry : ∀ sl, (w.entry sl).live = true → w'.entry sl = w.entry sl) (hcloses : w'.vfsCloses = w.vfsCloses) :
    Steady w w' :=
  ⟨fun sl hlive => by rw [hentry sl hlive], hcloses⟩

namespace Closing

variable {C C' : Slot → Prop} {w w' w'' : FdWorld}

theorem refl (w : FdWorld) : Closing C w w :=
  ⟨fun _ hlive => Or.inl ⟨hlive, rfl, rfl⟩, fun _ hlive => ⟨hlive, rfl, Or.inl⟩, fun _ => Nat.le_refl _,
    fun _ hne => absurd rfl hne⟩

theorem mono_closed (h : Closing C w w') (hC : ∀ sl, C sl → C' sl) : Closing C' w w' := by
  refine ⟨h.keeps, fun sl hlive => ?_, h.mono, fun d hne => ?_⟩
  · obtain ⟨hlive', hdesc, hclosed⟩ := h.back sl hlive
    exact ⟨hlive', hdesc, fun hs => (hclosed hs).imp_right (hC sl)⟩
  · obtain ⟨sl, hhas, hclosed⟩ := h.closes d hne
    exact ⟨sl, hhas, hclosed.imp_right (hC sl)⟩

theorem trans (h : Closing C w w') (h' : Closing C w' w'') : Closing C w w'' := by
  refine ⟨fun sl hlive => ?_, fun sl hlive => ?_, fun d => (h.mono d).trans (h'.mono d), fun d hne => ?_⟩
  · rcases h.keeps sl hlive with ⟨hlive', hdesc, hnode⟩ | hclosed
    · rcases h'.keeps sl hlive' with ⟨hlive'', hdesc', hnode'⟩ | hclosed
      · exact Or.inl ⟨hlive'', hdesc'.trans hdesc, hnode'.trans hnode⟩
      · rw [hdesc] at hclosed
        exact Or.inr hclosed
    · exact Or.inr (lt_of_lt_of_le hclosed (h'.mono _))
  · obtain ⟨hlive', hdesc', hclosed'⟩ := h'.back sl hlive
    obtain ⟨hlive'', hdesc, hclosed⟩ := h.back sl hlive'
    exact ⟨hlive'', hdesc'.trans hdesc, fun hs => (hclosed' hs).elim hclosed Or.inr⟩
  · by_cases heq : w'.vfsCloses d = w.vfsCloses d
    · rw [← heq] at hne
      obtain ⟨sl, hhas, hclosed⟩ := h'.closes d hne
      unfold FdEntry.has at hhas
      rw [Bool.and_eq_true, decide_eq_true_eq] at hhas
      obtain ⟨hlive, hdesc, hwas⟩ := h.back sl hhas.1
      refine ⟨sl, ?_, hclosed.elim hwas Or.inr⟩
      unfold FdEntry.has
      rw [hlive, ← hdesc, hhas.2]
      simp
    · exact h.closes d heq

end Closing

/-! ### Opening -/

/-- The entry is opened on an inode, with a new descriptor. -/
def FdWorld.launch (w : FdWorld) (sl : Slot) (node : ℕ) : FdWorld :=
  { (w.incNode node).set sl ⟨.opened, node, 1, w.freshDesc⟩ with freshDesc := w.freshDesc + 1 }

section opening

variable {w : FdWorld} {sl src : Slot} {node : ℕ}

theorem fileOpenEnd_run (hstatus : (w.entry sl).status = .init) (hcount : (w.entry sl).openCount = 0)
    (hnode : node ≠ 0) : (fileOpenEnd sl node).run w = .ok () (w.launch sl node) := by
  have hassert : (((w.incNode node).set sl { w.entry sl with node := node }).entry sl).status = .init ∧
      (((w.incNode node).set sl { w.entry sl with node := node }).entry sl).node ≠ 0 := by
    simp only [FdWorld.set, Function.update_self]
    exact ⟨hstatus, hnode⟩
  simp only [fileOpenEnd, fdArrayOpen, Prog.run_bind, Prog.run_modify, Outcome.andThen_ok, Prog.run_get,
    Prog.run_assert_of _ _ hassert]
  simp only [FdWorld.launch, FdWorld.set, FdWorld.incNode, Function.update_self, Function.update_idem, hcount]

theorem fdArrayDup_run (hstatus : (w.entry sl).status = .init) (hcount : (w.entry sl).openCount = 0)
    (hsrc : (w.entry src).status = .opened) (hnode : (w.entry src).node ≠ 0) :
    (fdArrayDup sl src).run w = .ok () (w.launch sl (w.entry src).node) := by
  rw [← fileOpenEnd_run hstatus hcount hnode, fdArrayDup, Prog.run_bind, Prog.run_get, Outcome.andThen_ok,
    Prog.run_bind, Prog.run_assert_of _ _ ⟨hstatus, hsrc⟩, Outcome.andThen_ok]
  rfl

theorem launch_sameTables : SameTables w (w.launch sl node) := ⟨rfl, rfl, rfl⟩

theorem launch_steady (hlive : (w.entry sl).live = false) : Steady w (w.launch sl node) := by
  refine Steady.of_entry (fun sl' hlive' => ?_) rfl
  have hne : sl' ≠ sl := by
    rintro rfl
    rw [hlive] at hlive'
    cases hlive'
  exact Function.update_of_ne hne _ _

variable {ios opening : Slot → ℕ}

theorem FdEntry.holds_of_not_live {e : FdEntry} (h : e.live = false) (node : ℕ) : e.holds node = false := by
  unfold FdEntry.holds
  rw [h, Bool.false_and]

theorem FdEntry.has_of_not_live {e : FdEntry} (h : e.live = false) (d : ℕ) : e.has d = false := by
  unfold FdEntry.has
  rw [h, Bool.false_and]

theorem FdInv.launch (h : FdInv ios opening w) (hsl : sl ∈ w.slots) (hlive : (w.entry sl).live = false)
    (hios : ios sl = 0) (hnode : node ≠ 0) :
    FdInv ios (Function.update opening sl 0) (w.launch sl node) := by
  have hentry : (w.launch sl node).entry sl = ⟨.opened, node, 1, w.freshDesc⟩ := Function.update_self ..
  refine h.change hsl launch_sameTables (fun sl' hne => Function.update_of_ne hne _ _) (fun _ _ => rfl)
    (fun sl' hne => Function.update_of_ne hne _ _) ?_ (fun n => ?_) (fun n => ?_) fun d => ?_
  · rw [hentry, Function.update_self, hios]
    exact ⟨rfl, rfl, hnode⟩
  · rw [hentry, FdEntry.holds_of_not_live hlive]
    show Function.update w.openCount node _ n + _ = _
    by_cases hn : n = node
    · subst hn
      rw [Function.update_self]
      simp [FdEntry.holds, FdEntry.live]
    · rw [Function.update_of_ne hn]
      simp [FdEntry.holds, Ne.symm hn]
  · show Function.update w.openCount node _ n ≤ Function.update w.refCount node _ n
    have := h.refCount n
    by_cases hn : n = node
    · subst hn
      rw [Function.update_self, Function.update_self]
      omega
    · rw [Function.update_of_ne hn, Function.update_of_ne hn]
      exact this
  · rw [hentry, FdEntry.has_of_not_live hlive]
    show w.vfsCloses d + _ + _ = w.vfsCloses d + _ + if d < w.freshDesc + 1 then 1 else 0
    simp only [FdEntry.has, FdEntry.live]
    by_cases hd : w.freshDesc = d
    · subst hd
      simp
    · have : d < w.freshDesc + 1 ↔ d < w.freshDesc := by omega
      simp [hd, this]

/-- The entry is taken by `fd_array_alloc`. -/
def FdWorld.found (w : FdWorld) (sl : Slot) : FdWorld :=
  w.set sl { w.entry sl with status := .init, node := 0 }

theorem FdInv.not_live_of_none (hstatus : (w.entry sl).status = .none) : (w.entry sl).live = false := by
  simp [FdEntry.live, hstatus]

/-- An entry without a descriptor becomes another one. -/
theorem FdInv.set (h : FdInv ios opening w) (hsl : sl ∈ w.slots) {e : FdEntry} {n : ℕ}
    (hlive : (w.entry sl).live = false) (hlive' : e.live = false) (hcounted : e.Counted (ios sl) n) :
    FdInv ios (Function.update opening sl n) (w.set sl e) := by
  have hentry : (w.set sl e).entry sl = e := Function.update_self ..
  refine h.change hsl ⟨rfl, rfl, rfl⟩ (fun sl' hne => Function.update_of_ne hne _ _) (fun _ _ => rfl)
    (fun sl' hne => Function.update_of_ne hne _ _) ?_ (fun node => ?_) h.refCount fun d => ?_
  · rw [hentry, Function.update_self]
    exact hcounted
  · rw [hentry, FdEntry.holds_of_not_live hlive, FdEntry.holds_of_not_live hlive']
    rfl
  · rw [hentry, FdEntry.has_of_not_live hlive, FdEntry.has_of_not_live hlive']
    rfl

theorem FdInv.of_none (h : FdInv ios opening w) (hstatus : (w.entry sl).status = .none) :
    (w.entry sl).openCount = 0 ∧ ios sl = 0 ∧ opening sl = 0 := by
  have hcounted := h.counted sl
  simp only [FdEntry.Counted, hstatus] at hcounted
  exact hcounted

theorem FdInv.of_init (h : FdInv ios opening w) (hstatus : (w.entry sl).status = .init) :
    (w.entry sl).openCount = 0 ∧ ios sl = 0 ∧ opening sl = 1 := by
  have hcounted := h.counted sl
  simp only [FdEntry.Counted, hstatus] at hcounted
  exact hcounted

theorem FdInv.found (h : FdInv ios opening w) (hsl : sl ∈ w.slots) (hstatus : (w.entry sl).status = .none) :
    FdInv ios (Function.update opening sl 1) (w.found sl) := by
  obtain ⟨hcount, hios, -⟩ := h.of_none hstatus
  exact h.set hsl (FdInv.not_live_of_none hstatus) rfl ⟨hcount, hios, rfl⟩

theorem found_steady (hstatus : (w.entry sl).status = .none) : Steady w (w.found sl) := by
  refine Steady.of_entry (fun sl' hlive' => ?_) rfl
  have hne : sl' ≠ sl := by
    rintro rfl
    rw [FdInv.not_live_of_none hstatus] at hlive'
    cases hlive'
  exact Function.update_of_ne hne _ _

/-- `fd_array_alloc` takes a free entry, or returns an error and changes nothing. -/
theorem FdInv.fdArrayAlloc (h : FdInv ios opening w) {t : ℕ} (fd : Option ℤ) :
    (fdArrayAlloc t fd).run w |>.Post
      (fun fd w' => fd < filesStructNentry ∧ (w.entry (t, fd)).status = .none ∧ w' = w.found (t, fd))
      (fun _ w' => w' = w) (fun _ => False) := by
  have hfind : (fdArrayFind t fd).run w |>.Post
      (fun fd w' => (fd < filesStructNentry ∧ (w.entry (t, fd)).status = .none) ∧ w' = w)
      (fun _ w' => w' = w) (fun _ => False) := by
    unfold fdArrayFind
    rw [Prog.run_bind, Prog.run_get, Outcome.andThen_ok]
    cases fd with
    | none =>
      simp only
      split
      · rename_i i hi
        have hmem := List.mem_of_find?_eq_some hi
        have hstatus := List.find?_some hi
        simp only [decide_eq_true_eq] at hstatus
        exact ⟨⟨List.mem_range.mp hmem, hstatus⟩, rfl⟩
      · rfl
    | some fd =>
      simp only [Prog.run_ite]
      split_ifs with hfd hstatus
      · exact ⟨⟨by omega, hstatus⟩, rfl⟩
      · rfl
      · rfl
  unfold Fd.fdArrayAlloc
  refine hfind.bind ?_
  rintro i _ ⟨⟨hi, hstatus⟩, rfl⟩
  obtain ⟨hcount, -, -⟩ := h.of_none hstatus
  simp only [fdArrayFound, Prog.run_bind, Prog.run_get, Outcome.andThen_ok, Prog.run_assert_of _ _ hcount,
    Prog.run_modify, Prog.run_pure]
  exact ⟨hi, hstatus, rfl⟩

/-- `file_open` gives its entry back. -/
theorem FdInv.fdArrayFree (h : FdInv ios opening w) (hsl : sl ∈ w.slots)
    (hstatus : (w.entry sl).status = .init) :
    ∃ w', (fdArrayFree sl).run w = .ok () w' ∧ FdInv ios (Function.update opening sl 0) w' ∧
      SameTables w w' ∧ Steady w w' := by
  obtain ⟨hcount, hios, -⟩ := h.of_init hstatus
  have hlive : (w.entry sl).live = false := by simp [FdEntry.live, hstatus]
  refine ⟨w.set sl { w.entry sl with status := .none }, ?_, h.set hsl hlive rfl ⟨hcount, hios, rfl⟩,
    ⟨rfl, rfl, rfl⟩, Steady.of_entry (fun sl' hlive' => ?_) rfl⟩
  · have hnot : ¬ (w.entry sl).status = .closed := by simp [hstatus]
    simp only [Fd.fdArrayFree, Prog.run_bind, Prog.run_get, Outcome.andThen_ok,
      Prog.run_assert_of _ _ (Or.inl hstatus), Prog.run_assert_of _ _ hcount, if_neg hnot, Prog.run_modify]
  · have hne : sl' ≠ sl := by
      rintro rfl
      rw [hlive] at hlive'
      cases hlive'
    exact Function.update_of_ne hne _ _

end opening

/-! ### Operations and closing -/

section closing

variable {w : FdWorld} {sl : Slot} {ios opening : Slot → ℕ}

/-- The last operation or the close is over: `vfs_close`, and the entry is free. -/
def FdWorld.retire (w : FdWorld) (sl : Slot) : FdWorld :=
  { w.set sl { w.entry sl with status := .none, openCount := 0 } with
    openCount := Function.update w.openCount (w.entry sl).node (w.openCount (w.entry sl).node - 1)
    refCount := Function.update w.refCount (w.entry sl).node (w.refCount (w.entry sl).node - 1)
    vfsCloses := Function.update w.vfsCloses (w.entry sl).desc (w.vfsCloses (w.entry sl).desc + 1) }

/-- The node of an entry with a descriptor is open and referred to. -/
theorem FdInv.node_pos (h : FdInv ios opening w) (hlive : (w.entry sl).live = true) :
    0 < w.openCount (w.entry sl).node ∧ 0 < w.refCount (w.entry sl).node := by
  have hsl : sl ∈ w.slots := h.used_of_live hlive
  have hpos : 0 < w.openCount (w.entry sl).node := by
    rw [h.openCount]
    refine List.countP_pos_iff.mpr ⟨sl, hsl, ?_⟩
    simp [FdEntry.holds, hlive]
  exact ⟨hpos, lt_of_lt_of_le hpos (h.refCount _)⟩

theorem vfsClose_run {node desc : ℕ} (hopen : 0 < w.openCount node) (href : 0 < w.refCount node) :
    (vfsClose node desc).run w = .ok ()
      { w with
        openCount := Function.update w.openCount node (w.openCount node - 1)
        refCount := Function.update w.refCount node (w.refCount node - 1)
        vfsCloses := Function.update w.vfsCloses desc (w.vfsCloses desc + 1) } := by
  simp only [vfsClose, Prog.run_bind, Prog.run_get, Outcome.andThen_ok, Prog.run_assert_of _ _ hopen,
    Prog.run_assert_of _ _ href, Prog.run_modify]

theorem fdArrayFree_closed (sl : Slot) (hstatus : (w.entry sl).status = .closed) (hcount : (w.entry sl).openCount = 0)
    (hopen : 0 < w.openCount (w.entry sl).node) (href : 0 < w.refCount (w.entry sl).node) :
    (fdArrayFree sl).run w = .ok () (w.retire sl) := by
  simp only [fdArrayFree, Prog.run_bind, Prog.run_get, Outcome.andThen_ok,
    Prog.run_assert_of _ _ (Or.inr hstatus), Prog.run_assert_of _ _ hcount, if_pos hstatus,
    vfsClose_run hopen href, Prog.run_modify]
  simp only [FdWorld.retire, FdWorld.set, hcount]

/-- The end of `fd_array_release` and `fd_array_close` on an entry that is closed. -/
theorem fopenCountDec_last (hstatus : (w.entry sl).status = .closed) (hcount : (w.entry sl).openCount = 1)
    (hopen : 0 < w.openCount (w.entry sl).node) (href : 0 < w.refCount (w.entry sl).node) :
    (fopenCountDec sl).run w = .ok () (w.retire sl) := by
  have hentry : (w.set sl { w.entry sl with openCount := (w.entry sl).openCount - 1 }).entry sl =
      { w.entry sl with openCount := 0 } := by
    simp only [FdWorld.set, Function.update_self, hcount]
  have hfree := fdArrayFree_closed (w := w.set sl { w.entry sl with openCount := (w.entry sl).openCount - 1 })
    sl (by rw [hentry]; exact hstatus) (by rw [hentry]) (by rw [hentry]; exact hopen)
    (by rw [hentry]; exact href)
  simp only [fopenCountDec, Prog.run_bind, Prog.run_modify, Outcome.andThen_ok, Prog.run_get]
  rw [if_pos (by rw [hentry]), hfree]
  simp only [FdWorld.retire, hentry]
  simp only [FdWorld.set, Function.update_idem]

theorem fopenCountDec_more (hcount : 1 < (w.entry sl).openCount) :
    (fopenCountDec sl).run w =
      .ok () (w.set sl { w.entry sl with openCount := (w.entry sl).openCount - 1 }) := by
  have hentry : ((w.set sl { w.entry sl with openCount := (w.entry sl).openCount - 1 }).entry sl).openCount ≠
      0 := by
    simp only [FdWorld.set, Function.update_self]
    omega
  simp only [fopenCountDec, Prog.run_bind, Prog.run_modify, Outcome.andThen_ok, Prog.run_get, if_neg hentry,
    Prog.run_pure]

theorem FdInv.retire (h : FdInv ios opening w) (hlive : (w.entry sl).live = true) (ios' : Slot → ℕ)
    (hios : ∀ sl', sl' ≠ sl → ios' sl' = ios sl') (hnone : ios' sl = 0) :
    FdInv ios' opening (w.retire sl) := by
  obtain ⟨hopen, href⟩ := h.node_pos hlive
  have hsl : sl ∈ w.slots := h.used_of_live hlive
  have hopening : opening sl = 0 := by
    have hcounted := h.counted sl
    simp only [FdEntry.live, Bool.decide_or, Bool.or_eq_true, decide_eq_true_eq] at hlive
    unfold FdEntry.Counted at hcounted
    rcases hlive with hs | hs <;> rw [hs] at hcounted <;> exact hcounted.2.1
  have hentry : (w.retire sl).entry sl = { w.entry sl with status := .none, openCount := 0 } :=
    Function.update_self ..
  have hdead : ((w.retire sl).entry sl).live = false := by rw [hentry]; rfl
  refine h.change hsl ⟨rfl, rfl, rfl⟩ (fun sl' hne => Function.update_of_ne hne _ _) hios (fun _ _ => rfl) ?_
    (fun n => ?_) (fun n => ?_) fun d => ?_
  · rw [hentry]
    exact ⟨rfl, hnone, hopening⟩
  · rw [FdEntry.holds_of_not_live hdead]
    show Function.update w.openCount _ _ n + _ = _
    by_cases hn : n = (w.entry sl).node
    · subst hn
      rw [Function.update_self]
      simp only [FdEntry.holds, hlive, Bool.true_and, decide_true, Bool.toNat_true, Bool.toNat_false]
      omega
    · rw [Function.update_of_ne hn]
      simp [FdEntry.holds, Ne.symm hn]
  · show Function.update w.openCount _ _ n ≤ Function.update w.refCount _ _ n
    have := h.refCount n
    by_cases hn : n = (w.entry sl).node
    · subst hn
      rw [Function.update_self, Function.update_self]
      omega
    · rw [Function.update_of_ne hn, Function.update_of_ne hn]
      exact this
  · rw [FdEntry.has_of_not_live hdead]
    show Function.update w.vfsCloses _ _ d + _ + _ = w.vfsCloses d + _ + _
    by_cases hd : d = (w.entry sl).desc
    · subst hd
      rw [Function.update_self]
      simp only [FdEntry.has, hlive, Bool.true_and, decide_true, Bool.toNat_true, Bool.toNat_false]
      rfl
    · rw [Function.update_of_ne hd]
      simp only [FdEntry.has, decide_eq_false (Ne.symm hd), Bool.and_false, Bool.toNat_false]
      rfl

theorem retire_closing {C : Slot → Prop} (hlive : (w.entry sl).live = true)
    (hclosed : (w.entry sl).status = .closed ∨ C sl) : Closing C w (w.retire sl) := by
  have hother : ∀ sl', sl' ≠ sl → (w.retire sl).entry sl' = w.entry sl' := fun sl' hne =>
    Function.update_of_ne hne _ _
  refine ⟨fun sl' hlive' => ?_, fun sl' hlive' => ?_, fun d => ?_, fun d hne => ?_⟩
  · by_cases heq : sl' = sl
    · subst heq
      refine Or.inr ?_
      show 0 < Function.update w.vfsCloses _ _ _
      rw [Function.update_self]
      exact Nat.succ_pos _
    · rw [hother sl' heq]
      exact Or.inl ⟨hlive', rfl, rfl⟩
  · by_cases heq : sl' = sl
    · subst heq
      have hentry : (w.retire sl').entry sl' = { w.entry sl' with status := .none, openCount := 0 } :=
        Function.update_self ..
      rw [hentry] at hlive'
      cases hlive'
    · rw [hother sl' heq] at hlive' ⊢
      exact ⟨hlive', rfl, Or.inl⟩
  · show w.vfsCloses d ≤ Function.update w.vfsCloses _ _ d
    by_cases hd : d = (w.entry sl).desc
    · subst hd
      rw [Function.update_self]
      exact Nat.le_succ _
    · rw [Function.update_of_ne hd]
  · have hd : (w.entry sl).desc = d := by
      by_contra hd
      exact hne (Function.update_of_ne (Ne.symm hd) _ _)
    exact ⟨sl, by simp [FdEntry.has, hlive, hd], hclosed⟩

/-- The entry keeps its descriptor; its count changes with the operations under way, or it is closed. -/
theorem FdInv.keep (h : FdInv ios opening w) (hlive : (w.entry sl).live = true) {e : FdEntry}
    (ios' : Slot → ℕ) (hlive' : e.live = true) (hnode : e.node = (w.entry sl).node)
    (hdesc : e.desc = (w.entry sl).desc) (hios : ∀ sl', sl' ≠ sl → ios' sl' = ios sl')
    (hcounted : e.Counted (ios' sl) (opening sl)) : FdInv ios' opening (w.set sl e) := by
  have hsl : sl ∈ w.slots := h.used_of_live hlive
  have hentry : (w.set sl e).entry sl = e := Function.update_self ..
  refine h.change hsl ⟨rfl, rfl, rfl⟩ (fun sl' hne => Function.update_of_ne hne _ _) hios (fun _ _ => rfl) ?_
    (fun n => ?_) h.refCount fun d => ?_
  · rw [hentry]
    exact hcounted
  · rw [hentry]
    simp only [FdEntry.holds, hlive, hlive', hnode]
    rfl
  · rw [hentry]
    simp only [FdEntry.has, hlive, hlive', hdesc]
    rfl

theorem keep_closing {C : Slot → Prop} (hlive : (w.entry sl).live = true) {e : FdEntry}
    (hlive' : e.live = true) (hnode : e.node = (w.entry sl).node) (hdesc : e.desc = (w.entry sl).desc)
    (hclosed : e.status = .closed → (w.entry sl).status = .closed ∨ C sl) :
    Closing C w (w.set sl e) := by
  have hentry : (w.set sl e).entry sl = e := Function.update_self ..
  have hother : ∀ sl', sl' ≠ sl → (w.set sl e).entry sl' = w.entry sl' := fun sl' hne =>
    Function.update_of_ne hne _ _
  refine ⟨fun sl' hlive₁ => Or.inl ?_, fun sl' hlive₁ => ?_, fun _ => Nat.le_refl _, fun d hne => absurd rfl hne⟩
  · by_cases heq : sl' = sl
    · rw [heq, hentry]
      exact ⟨hlive', hdesc, hnode⟩
    · rw [hother sl' heq]
      exact ⟨hlive₁, rfl, rfl⟩
  · by_cases heq : sl' = sl
    · rw [heq, hentry]
      exact ⟨hlive, hdesc, hclosed⟩
    · rw [hother sl' heq] at hlive₁ ⊢
      exact ⟨hlive₁, rfl, Or.inl⟩

/-- An operation is over. -/
theorem FdInv.release (h : FdInv ios opening w) (hpos : 0 < ios sl) (ios' : Slot → ℕ)
    (hios : ∀ sl', sl' ≠ sl → ios' sl' = ios sl') (hless : ios' sl + 1 = ios sl) :
    ∃ w', (fdArrayRelease sl).run w = .ok () w' ∧ FdInv ios' opening w' ∧ SameTables w w' ∧
      Closing (fun _ => False) w w' := by
  have hcounted := h.counted sl
  unfold FdEntry.Counted at hcounted
  cases hstatus : (w.entry sl).status with
  | none =>
    simp only [hstatus] at hcounted
    omega
  | init =>
    simp only [hstatus] at hcounted
    omega
  | opened =>
    simp only [hstatus] at hcounted
    obtain ⟨hcount, hopening, hnode⟩ := hcounted
    have hlive : (w.entry sl).live = true := by simp [FdEntry.live, hstatus]
    refine ⟨w.set sl { w.entry sl with openCount := (w.entry sl).openCount - 1 }, ?_,
      h.keep hlive ios' ?_ rfl rfl hios ?_, ⟨rfl, rfl, rfl⟩, keep_closing hlive ?_ rfl rfl Or.inl⟩
    · simp only [fdArrayRelease, Prog.run_bind, Prog.run_get, Outcome.andThen_ok,
        Prog.run_assert_of _ _ (Or.inl hstatus),
        Prog.run_assert_of _ _ (show 0 < (w.entry sl).openCount by omega)]
      exact fopenCountDec_more (by omega)
    · exact hlive
    · simp only [FdEntry.Counted, hstatus]
      exact ⟨by omega, hopening, hnode⟩
    · exact hlive
  | closed =>
    simp only [hstatus] at hcounted
    obtain ⟨hcount, hopening, hnode, -⟩ := hcounted
    have hlive : (w.entry sl).live = true := by simp [FdEntry.live, hstatus]
    have hrun : (fdArrayRelease sl).run w = (fopenCountDec sl).run w := by
      simp only [fdArrayRelease, Prog.run_bind, Prog.run_get, Outcome.andThen_ok,
        Prog.run_assert_of _ _ (Or.inr hstatus),
        Prog.run_assert_of _ _ (show 0 < (w.entry sl).openCount by omega)]
    rw [hrun]
    rcases Nat.eq_zero_or_pos (ios' sl) with hlast | hmore
    · obtain ⟨hopen, href⟩ := h.node_pos hlive
      exact ⟨_, fopenCountDec_last hstatus (by omega) hopen href, h.retire hlive ios' hios hlast,
        ⟨rfl, rfl, rfl⟩, retire_closing hlive (Or.inl hstatus)⟩
    · refine ⟨_, fopenCountDec_more (by omega), h.keep hlive ios' hlive rfl rfl hios ?_, ⟨rfl, rfl, rfl⟩,
        keep_closing hlive hlive rfl rfl Or.inl⟩
      simp only [FdEntry.Counted, hstatus]
      exact ⟨by omega, hopening, hnode, hmore⟩

/-- An open entry is closed. It is free at once if no operation is under way. -/
theorem FdInv.close (h : FdInv ios opening w) (hstatus : (w.entry sl).status = .opened) :
    ∃ w', (fdArrayClose sl).run w = .ok () w' ∧ FdInv ios opening w' ∧ SameTables w w' ∧
      Closing (fun sl' => sl' = sl) w w' ∧ (∀ sl', sl' ≠ sl → w'.entry sl' = w.entry sl') ∧
      (ios sl = 0 → (w'.entry sl).status = .none) := by
  have hcounted := h.counted sl
  simp only [FdEntry.Counted, hstatus] at hcounted
  obtain ⟨hcount, hopening, hnode⟩ := hcounted
  have hlive : (w.entry sl).live = true := by simp [FdEntry.live, hstatus]
  obtain ⟨hopen, href⟩ := h.node_pos hlive
  have hentry : (w.set sl { w.entry sl with status := .closed }).entry sl =
      { w.entry sl with status := .closed } := Function.update_self ..
  have hrun : (fdArrayClose sl).run w =
      (fopenCountDec sl).run (w.set sl { w.entry sl with status := .closed }) := by
    simp only [fdArrayClose, Prog.run_bind, Prog.run_get, Outcome.andThen_ok, Prog.run_assert_of _ _ hstatus,
      Prog.run_assert_of _ _ (show 0 < (w.entry sl).openCount by omega), Prog.run_modify]
  rw [hrun]
  rcases Nat.eq_zero_or_pos (ios sl) with hlast | hmore
  · have hretire : (w.set sl { w.entry sl with status := .closed }).retire sl = w.retire sl := by
      simp only [FdWorld.retire, hentry]
      simp only [FdWorld.set, Function.update_idem]
    refine ⟨_, fopenCountDec_last (by rw [hentry])
      (by rw [hentry]; show (w.entry sl).openCount = 1; omega) (by rw [hentry]; exact hopen)
      (by rw [hentry]; exact href), ?_⟩
    rw [hretire]
    refine ⟨h.retire hlive ios (fun _ _ => rfl) hlast, ⟨rfl, rfl, rfl⟩, retire_closing hlive (Or.inr rfl),
      fun sl' hne => Function.update_of_ne hne _ _, fun _ => ?_⟩
    show (Function.update w.entry sl _ sl).status = _
    rw [Function.update_self]
  · have hset : (w.set sl { w.entry sl with status := .closed }).set sl
        { (w.set sl { w.entry sl with status := .closed }).entry sl with
          openCount := ((w.set sl { w.entry sl with status := .closed }).entry sl).openCount - 1 } =
        w.set sl { w.entry sl with status := .closed, openCount := (w.entry sl).openCount - 1 } := by
      rw [hentry]
      simp only [FdWorld.set, Function.update_idem]
    refine ⟨_, fopenCountDec_more (by rw [hentry]; show 1 < (w.entry sl).openCount; omega), ?_⟩
    rw [hset]
    refine ⟨h.keep hlive ios rfl rfl rfl (fun _ _ => rfl) ?_, ⟨rfl, rfl, rfl⟩,
      keep_closing hlive rfl rfl rfl fun _ => Or.inr rfl, fun sl' hne => Function.update_of_ne hne _ _, ?_⟩
    · simp only [FdEntry.Counted]
      exact ⟨by omega, hopening, hnode, hmore⟩
    · intro h0
      omega

/-- An operation begins. -/
theorem FdInv.acquire (h : FdInv ios opening w) (hstatus : (w.entry sl).status = .opened) (ios' : Slot → ℕ)
    (hios : ∀ sl', sl' ≠ sl → ios' sl' = ios sl') (hmore : ios' sl = ios sl + 1) :
    ∃ w', (fdArrayAcquire sl).run w = .ok () w' ∧ FdInv ios' opening w' ∧ SameTables w w' ∧ Steady w w' ∧
      (w'.entry sl).desc = (w.entry sl).desc := by
  have hcounted := h.counted sl
  simp only [FdEntry.Counted, hstatus] at hcounted
  obtain ⟨hcount, hopening, hnode⟩ := hcounted
  have hlive : (w.entry sl).live = true := by simp [FdEntry.live, hstatus]
  have hentry : (w.set sl { w.entry sl with openCount := (w.entry sl).openCount + 1 }).entry sl =
      { w.entry sl with openCount := (w.entry sl).openCount + 1 } := Function.update_self ..
  refine ⟨w.set sl { w.entry sl with openCount := (w.entry sl).openCount + 1 }, ?_,
    h.keep hlive ios' hlive rfl rfl hios ?_, ⟨rfl, rfl, rfl⟩, ⟨fun sl' hlive' => ?_, rfl⟩, ?_⟩
  · simp only [fdArrayAcquire, Prog.run_bind, Prog.run_get, Outcome.andThen_ok, Prog.run_assert_of _ _ hstatus,
      Prog.run_modify]
  · simp only [FdEntry.Counted, hstatus]
    exact ⟨by omega, hopening, hnode⟩
  · by_cases heq : sl' = sl
    · rw [heq, hentry]
    · simp only [FdWorld.set, Function.update_of_ne heq]
  · rw [hentry]

end closing

/-! ### Whole tables -/

section tables

variable {w : FdWorld} {sl : Slot} {ios opening : Slot → ℕ} {t : ℕ}

theorem FdInv.closeOpened (h : FdInv ios opening w) (sl : Slot) :
    ∃ w', (closeOpened sl).run w = .ok () w' ∧ FdInv ios opening w' ∧ SameTables w w' ∧
      Closing (fun sl' => sl' = sl) w w' ∧ (∀ sl', sl' ≠ sl → w'.entry sl' = w.entry sl') ∧
      (ios sl = 0 → opening sl = 0 → (w'.entry sl).status = .none) := by
  by_cases hstatus : (w.entry sl).status = .opened
  · obtain ⟨w', hrun, hinv, hsame, hclosing, hother, hnone⟩ := h.close hstatus
    refine ⟨w', ?_, hinv, hsame, hclosing, hother, fun hios _ => hnone hios⟩
    simp only [Fd.closeOpened, Prog.run_bind, Prog.run_get, Outcome.andThen_ok, if_pos hstatus, hrun]
  · refine ⟨w, ?_, h, SameTables.refl w, Closing.refl w, fun _ _ => rfl, fun hios hopening => ?_⟩
    · simp only [Fd.closeOpened, Prog.run_bind, Prog.run_get, Outcome.andThen_ok, if_neg hstatus,
        Prog.run_pure]
    · exact (h.idle hios hopening).resolve_right fun hopened => hstatus hopened.1

theorem FdInv.closeallLoop (fds : List ℕ) (h : FdInv ios opening w) :
    ∃ w', (closeallLoop t fds).run w = .ok () w' ∧ FdInv ios opening w' ∧ SameTables w w' ∧
      Closing (fun sl => sl.1 = t) w w' := by
  induction fds generalizing w with
  | nil => exact ⟨w, rfl, h, SameTables.refl w, Closing.refl w⟩
  | cons fd fds ih =>
    obtain ⟨w₁, hrun₁, hinv₁, hsame₁, hclosing₁, -, -⟩ := h.closeOpened (t, fd)
    obtain ⟨w₂, hrun₂, hinv₂, hsame₂, hclosing₂⟩ := ih hinv₁
    refine ⟨w₂, ?_, hinv₂, hsame₁.trans hsame₂, (hclosing₁.mono_closed ?_).trans hclosing₂⟩
    · rw [Fd.closeallLoop, Prog.bind_of_ok hrun₁, hrun₂]
    · rintro sl rfl
      rfl

theorem FdInv.filesCloseall (h : FdInv ios opening w) (hcount : 0 < w.filesCount t) :
    ∃ w', (filesCloseall t).run w = .ok () w' ∧ FdInv ios opening w' ∧ SameTables w w' ∧
      Closing (fun sl => sl.1 = t) w w' := by
  obtain ⟨w', hrun, hrest⟩ := h.closeallLoop (t := t) (List.range' 2 (filesStructNentry - 2))
  refine ⟨w', ?_, hrest⟩
  rw [Fd.filesCloseall, Prog.run_bind, Prog.run_get, Outcome.andThen_ok, Prog.run_bind,
    Prog.run_assert_of _ _ hcount, Outcome.andThen_ok, hrun]

/-- The loop of `files_destroy`, when no thread uses the table: its assertion holds, and the entries that it
has been at are free. -/
theorem FdInv.destroyLoop (fds : List ℕ) (h : FdInv ios opening w) (hios : ∀ fd, ios (t, fd) = 0)
    (hopening : ∀ fd, opening (t, fd) = 0) :
    ∃ w', (destroyLoop t fds).run w = .ok () w' ∧ FdInv ios opening w' ∧ SameTables w w' ∧
      Closing (fun sl => sl.1 = t) w w' ∧
      ∀ fd, fd ∈ fds ∨ (w.entry (t, fd)).status = .none → (w'.entry (t, fd)).status = .none := by
  induction fds generalizing w with
  | nil =>
    refine ⟨w, rfl, h, SameTables.refl w, Closing.refl w, fun fd hfd => hfd.resolve_left ?_⟩
    exact List.not_mem_nil
  | cons fd fds ih =>
    obtain ⟨w₁, hrun₁, hinv₁, hsame₁, hclosing₁, hother₁, hnone₁⟩ := h.closeOpened (t, fd)
    have hstatus := hnone₁ (hios fd) (hopening fd)
    obtain ⟨w₂, hrun₂, hinv₂, hsame₂, hclosing₂, hnone₂⟩ := ih hinv₁
    refine ⟨w₂, ?_, hinv₂, hsame₁.trans hsame₂, (hclosing₁.mono_closed ?_).trans hclosing₂, ?_⟩
    · rw [Fd.destroyLoop, Prog.bind_of_ok hrun₁, Prog.run_bind, Prog.run_get, Outcome.andThen_ok,
        Prog.run_bind, Prog.run_assert_of _ _ hstatus, Outcome.andThen_ok, hrun₂]
    · rintro sl rfl
      rfl
    · intro fd' hfd'
      by_cases heq : fd' = fd
      · subst heq
        exact hnone₂ fd' (Or.inr hstatus)
      · refine hnone₂ fd' (hfd'.imp (fun hmem => (List.mem_cons.mp hmem).resolve_left heq) fun hfree => ?_)
        rw [hother₁ (t, fd') (by simpa using heq)]
        exact hfree

/-- A table whose entries are free leaves memory. -/
theorem FdInv.erase (h : FdInv ios opening w) (ht : t ∈ w.tables)
    (hfree : ∀ fd, (w.entry (t, fd)).status = .none) :
    FdInv ios opening { w with tables := w.tables.erase t } := by
  have hperm : (t :: w.tables.erase t).Perm w.tables := (List.perm_cons_erase ht).symm
  have hcount : ∀ p : Slot → Bool, (∀ fd, p (t, fd) = false) →
      ({ w with tables := w.tables.erase t } : FdWorld).slots.countP p = w.slots.countP p := by
    intro p hp
    unfold FdWorld.slots
    rw [← (hperm.flatMap_right _).countP_eq, List.flatMap_cons, List.countP_append]
    have hzero : ((List.range filesStructNentry).map (Prod.mk t)).countP p = 0 := by
      rw [List.countP_eq_zero]
      intro sl hsl
      obtain ⟨fd, -, rfl⟩ := List.mem_map.mp hsl
      rw [hp]
      exact Bool.false_ne_true
    rw [hzero, Nat.zero_add]
  refine ⟨h.counted, fun sl hne => ?_, h.nodup.erase t, fun t' ht' => h.fresh t' (List.mem_of_mem_erase ht'),
    fun n => ?_, h.refCount, fun d => ?_⟩
  · obtain ⟨hmem, hlt⟩ := FdWorld.mem_slots.mp (h.used sl hne)
    refine FdWorld.mem_slots.mpr ⟨(List.mem_erase_of_ne ?_).mpr hmem, hlt⟩
    rintro rfl
    exact hne (hfree sl.2)
  · rw [hcount _ fun fd => FdEntry.holds_of_not_live (FdInv.not_live_of_none (hfree fd)) n]
    exact h.openCount n
  · rw [hcount _ fun fd => FdEntry.has_of_not_live (FdInv.not_live_of_none (hfree fd)) d]
    exact h.closes d

theorem FdInv.filesDestroy (h : FdInv ios opening w) (ht : t ∈ w.tables) (hcount : w.filesCount t = 0)
    (hios : ∀ fd, ios (t, fd) = 0) (hopening : ∀ fd, opening (t, fd) = 0) :
    ∃ w', (filesDestroy t).run w = .ok () w' ∧ FdInv ios opening w' ∧ w'.tables = w.tables.erase t ∧
      w'.filesCount = w.filesCount ∧ Closing (fun sl => sl.1 = t) w w' := by
  obtain ⟨w₁, hrun, hinv, hsame, hclosing, hnone⟩ :=
    h.destroyLoop (List.range filesStructNentry) hios hopening
  have hfree : ∀ fd, (w₁.entry (t, fd)).status = .none := by
    intro fd
    refine hnone fd ?_
    by_contra hcon
    rw [not_or] at hcon
    exact hcon.1 (List.mem_range.mpr (FdWorld.mem_slots.mp (h.used (t, fd) hcon.2)).2)
  refine ⟨{ w₁ with tables := w₁.tables.erase t }, ?_, hinv.erase (by rw [hsame.tables]; exact ht) hfree, ?_,
    hsame.filesCount, ⟨hclosing.keeps, hclosing.back, hclosing.mono, hclosing.closes⟩⟩
  · rw [Fd.filesDestroy, Prog.run_bind, Prog.run_get, Outcome.andThen_ok, Prog.run_bind,
      Prog.run_assert_of _ _ hcount, Outcome.andThen_ok, Prog.bind_of_ok hrun, Prog.run_modify]
  · rw [hsame.tables]

/-- The world with a new table. -/
def FdWorld.create (w : FdWorld) : FdWorld :=
  { w with
    entry := fun sl => if sl.1 = w.freshTable then ⟨.none, 0, 0, 0⟩ else w.entry sl
    filesCount := Function.update w.filesCount w.freshTable 0
    tables := w.freshTable :: w.tables
    freshTable := w.freshTable + 1 }

theorem filesCreate_run : filesCreate.run w = .ok w.freshTable w.create := rfl

/-- A table that is not there has no entries in use. -/
theorem FdInv.freshTable_none (h : FdInv ios opening w) (fd : ℕ) :
    (w.entry (w.freshTable, fd)).status = .none := by
  by_contra hne
  have := h.fresh _ (FdWorld.mem_slots.mp (h.used _ hne)).1
  exact Nat.lt_irrefl _ this

theorem create_steady (h : FdInv ios opening w) : Steady w w.create := by
  refine Steady.of_entry (fun sl hlive => if_neg fun heq => ?_) rfl
  obtain ⟨t, fd⟩ := sl
  obtain rfl : t = w.freshTable := heq
  rw [FdInv.not_live_of_none (h.freshTable_none fd)] at hlive
  cases hlive

theorem FdInv.create (h : FdInv ios opening w) : FdInv ios opening w.create := by
  have hentry : ∀ sl, (w.entry sl).status ≠ .none → w.create.entry sl = w.entry sl := by
    rintro ⟨t, fd⟩ hne
    refine if_neg fun heq => hne ?_
    obtain rfl : t = w.freshTable := heq
    exact h.freshTable_none fd
  have hstatus : ∀ sl, (w.create.entry sl).status = (w.entry sl).status := by
    intro sl
    by_cases hnone : (w.entry sl).status = .none
    · rw [hnone]
      show (if _ then _ else _ : FdEntry).status = _
      split_ifs
      · rfl
      · exact hnone
    · rw [hentry sl hnone]
  have hcount : ∀ p : FdEntry → Bool, (∀ e, e.live = false → p e = false) →
      (w.create.slots.countP fun sl => p (w.create.entry sl)) = w.slots.countP fun sl => p (w.entry sl) := by
    intro p hp
    have hslots : w.create.slots = (List.range filesStructNentry).map (Prod.mk w.freshTable) ++ w.slots := rfl
    rw [hslots, List.countP_append]
    have hzero : ((List.range filesStructNentry).map (Prod.mk w.freshTable)).countP
        (fun sl => p (w.create.entry sl)) = 0 := by
      rw [List.countP_eq_zero]
      intro sl hsl
      obtain ⟨fd, -, rfl⟩ := List.mem_map.mp hsl
      rw [hp _ (FdInv.not_live_of_none (by rw [hstatus]; exact h.freshTable_none fd))]
      exact Bool.false_ne_true
    rw [hzero, Nat.zero_add]
    refine List.countP_congr fun sl _ => ?_
    by_cases hnone : (w.entry sl).status = .none
    · rw [hp _ (FdInv.not_live_of_none hnone), hp _ (FdInv.not_live_of_none (by rw [hstatus]; exact hnone))]
    · rw [hentry sl hnone]
  refine ⟨fun sl => ?_, fun sl hne => ?_, ?_, ?_, fun n => ?_, h.refCount, fun d => ?_⟩
  · by_cases hnone : (w.entry sl).status = .none
    · obtain ⟨hopen, hios, hopening⟩ := h.of_none hnone
      have hopen' : (w.create.entry sl).openCount = 0 := by
        show (if _ then _ else _ : FdEntry).openCount = _
        split_ifs
        · rfl
        · exact hopen
      simp only [FdEntry.Counted, hstatus, hnone]
      exact ⟨hopen', hios, hopening⟩
    · rw [hentry sl hnone]
      exact h.counted sl
  · rw [hstatus] at hne
    obtain ⟨hmem, hlt⟩ := FdWorld.mem_slots.mp (h.used sl hne)
    exact FdWorld.mem_slots.mpr ⟨List.mem_cons_of_mem _ hmem, hlt⟩
  · exact List.nodup_cons.mpr ⟨fun hmem => Nat.lt_irrefl _ (h.fresh _ hmem), h.nodup⟩
  · intro t ht
    rcases List.mem_cons.mp ht with rfl | ht
    · exact Nat.lt_succ_self _
    · exact Nat.lt_succ_of_lt (h.fresh t ht)
  · rw [hcount (fun e => e.holds n) fun e he => FdEntry.holds_of_not_live he n]
    exact h.openCount n
  · rw [hcount (fun e => e.has d) fun e he => FdEntry.has_of_not_live he d]
    exact h.closes d

/-- The loop of `dup_fs`: the entries of the new table that are still to come are free. -/
theorem FdInv.dupFsLoop {dst src : ℕ} (hne : dst ≠ src) (fds : List ℕ) (hfds : fds.Nodup)
    (hlt : ∀ fd ∈ fds, fd < filesStructNentry) (h : FdInv ios opening w) (hdst : dst ∈ w.tables)
    (hfree : ∀ fd ∈ fds, (w.entry (dst, fd)).status = .none) :
    ∃ w', (dupFsLoop dst src fds).run w = .ok () w' ∧ FdInv ios opening w' ∧ SameTables w w' ∧
      Steady w w' := by
  induction fds generalizing w with
  | nil => exact ⟨w, rfl, h, SameTables.refl w, Steady.refl w⟩
  | cons fd fds ih =>
    rw [List.nodup_cons] at hfds
    have hnone : (w.entry (dst, fd)).status = .none := hfree fd List.mem_cons_self
    by_cases hstatus : (w.entry (src, fd)).status = .opened
    · obtain ⟨hcount, hios, hopening⟩ := h.of_none hnone
      have hsrc := h.counted (src, fd)
      simp only [FdEntry.Counted, hstatus] at hsrc
      have hsl : (dst, fd) ∈ w.slots := FdWorld.mem_slots.mpr ⟨hdst, hlt fd List.mem_cons_self⟩
      have hnot : (src, fd) ≠ (dst, fd) := fun heq => hne (Prod.mk.inj heq).1.symm
      have hsrcEntry : (w.set (dst, fd) { w.entry (dst, fd) with status := .init }).entry (src, fd) =
          w.entry (src, fd) := Function.update_of_ne hnot _ _
      have hdstEntry : (w.set (dst, fd) { w.entry (dst, fd) with status := .init }).entry (dst, fd) =
          { w.entry (dst, fd) with status := .init } := Function.update_self ..
      have hrun : (fdArrayDup (dst, fd) (src, fd)).run
          (w.set (dst, fd) { w.entry (dst, fd) with status := .init }) =
          .ok () (w.launch (dst, fd) (w.entry (src, fd)).node) := by
        rw [fdArrayDup_run (by rw [hdstEntry]) (by rw [hdstEntry]; exact hcount)
          (by rw [hsrcEntry]; exact hstatus) (by rw [hsrcEntry]; exact hsrc.2.2), hsrcEntry]
        simp only [FdWorld.launch, FdWorld.set, FdWorld.incNode, Function.update_idem]
      have hlive := FdInv.not_live_of_none hnone
      have hinv : FdInv ios opening (w.launch (dst, fd) (w.entry (src, fd)).node) := by
        have := h.launch hsl hlive hios hsrc.2.2
        rwa [← hopening, Function.update_eq_self] at this
      obtain ⟨w', hrun', hinv', hsame', hsteady'⟩ := ih hfds.2 (fun fd' hfd' => hlt fd' (List.mem_cons_of_mem _ hfd'))
        hinv hdst fun fd' hfd' => by
          have hother : (dst, fd') ≠ (dst, fd) := by
            rintro heq
            exact hfds.1 ((Prod.mk.inj heq).2 ▸ hfd')
          have hentry : (w.launch (dst, fd) (w.entry (src, fd)).node).entry (dst, fd') = w.entry (dst, fd') :=
            Function.update_of_ne hother _ _
          rw [hentry]
          exact hfree fd' (List.mem_cons_of_mem _ hfd')
      refine ⟨w', ?_, hinv', launch_sameTables.trans hsame', (launch_steady hlive).trans hsteady'⟩
      simp only [Fd.dupFsLoop, Prog.run_bind, Prog.run_get, Outcome.andThen_ok, if_pos hstatus,
        Prog.run_modify, hrun, hrun']
    · obtain ⟨w', hrun', hinv', hsame', hsteady'⟩ := ih hfds.2 (fun fd' hfd' => hlt fd' (List.mem_cons_of_mem _ hfd'))
        h hdst fun fd' hfd' => hfree fd' (List.mem_cons_of_mem _ hfd')
      refine ⟨w', ?_, hinv', hsame', hsteady'⟩
      simp only [Fd.dupFsLoop, Prog.run_bind, Prog.run_get, Outcome.andThen_ok, if_neg hstatus, hrun']

/-- The numbers of threads do not matter to the entries. -/
theorem FdInv.setCount (h : FdInv ios opening w) (filesCount : ℕ → ℕ) :
    FdInv ios opening { w with filesCount := filesCount } :=
  ⟨h.counted, h.used, h.nodup, h.fresh, h.openCount, h.refCount, h.closes⟩

/-- A new thread with a copy of the table. -/
theorem FdInv.copyFiles (h : FdInv ios opening w) (ht : t ∈ w.tables) (hcount : 0 < w.filesCount t) :
    ∃ w', (copyFiles t false).run w = .ok w.freshTable w' ∧ FdInv ios opening w' ∧ Steady w w' ∧
      w'.tables = w.freshTable :: w.tables ∧ w'.filesCount = Function.update w.filesCount w.freshTable 1 := by
  have hne : w.freshTable ≠ t := by
    rintro rfl
    exact Nat.lt_irrefl _ (h.fresh _ ht)
  have hnew : w.create.filesCount w.freshTable = 0 := Function.update_self ..
  have hold : 0 < w.create.filesCount t := by
    show 0 < Function.update w.filesCount w.freshTable 0 t
    rw [Function.update_of_ne hne.symm]
    exact hcount
  obtain ⟨w₁, hrun, hinv, hsame, hsteady⟩ := h.create.dupFsLoop hne (List.range filesStructNentry)
    List.nodup_range (fun fd hfd => List.mem_range.mp hfd) List.mem_cons_self fun fd _ => by
      show (if _ then _ else _ : FdEntry).status = _
      rw [if_pos rfl]
  have hdup : (dupFs w.freshTable t).run w.create = .ok () w₁ := by
    rw [dupFs, Prog.run_bind, Prog.run_get, Outcome.andThen_ok, Prog.run_bind,
      Prog.run_assert_of _ _ ⟨hnew, hold⟩, Outcome.andThen_ok, hrun]
  refine ⟨{ w₁ with filesCount := Function.update w₁.filesCount w.freshTable (w₁.filesCount w.freshTable + 1) },
    ?_, hinv.setCount _, ?_, hsame.tables, ?_⟩
  · simp only [Fd.copyFiles, Prog.run_bind, Bool.false_eq_true, if_false, filesCreate_run, Outcome.andThen_ok,
      hdup, Prog.run_pure, Prog.run_modify]
  · have := (create_steady h).trans hsteady
    exact ⟨this.keeps, this.vfsCloses⟩
  · show Function.update w₁.filesCount w.freshTable (w₁.filesCount w.freshTable + 1) = _
    rw [hsame.filesCount, hnew]
    exact Function.update_idem ..

theorem copyFiles_shared :
    (copyFiles t true).run w =
      .ok t { w with filesCount := Function.update w.filesCount t (w.filesCount t + 1) } := rfl

/-- A thread leaves its table, on which it is doing nothing. -/
theorem FdInv.putFiles (h : FdInv ios opening w) (ht : t ∈ w.tables) (hcount : 0 < w.filesCount t)
    (hidle : w.filesCount t = 1 → ∀ fd, ios (t, fd) = 0 ∧ opening (t, fd) = 0) :
    ∃ w', (putFiles t).run w = .ok () w' ∧ FdInv ios opening w' ∧ Closing (fun sl => sl.1 = t) w w' ∧
      w'.filesCount = Function.update w.filesCount t (w.filesCount t - 1) ∧
      ∀ t' ∈ w.tables, t' ≠ t ∨ 1 < w.filesCount t → t' ∈ w'.tables := by
  have hself : Function.update w.filesCount t (w.filesCount t - 1) t = w.filesCount t - 1 :=
    Function.update_self ..
  by_cases hlast : w.filesCount t = 1
  · obtain ⟨w', hrun, hinv, htables, hfiles, hclosing⟩ :=
      (h.setCount (Function.update w.filesCount t (w.filesCount t - 1))).filesDestroy ht
        (show Function.update w.filesCount t (w.filesCount t - 1) t = 0 by rw [hself]; omega)
        (fun fd => (hidle hlast fd).1) fun fd => (hidle hlast fd).2
    refine ⟨w', ?_, hinv, ⟨hclosing.keeps, hclosing.back, hclosing.mono, hclosing.closes⟩, hfiles,
      fun t' ht' hor => ?_⟩
    · simp only [Fd.putFiles, Prog.run_bind, Prog.run_modify, Prog.run_get, Outcome.andThen_ok]
      rw [if_pos (by rw [hself]; omega), hrun]
    · rw [htables]
      exact (List.mem_erase_of_ne (hor.resolve_right (by omega))).mpr ht'
  · refine ⟨{ w with filesCount := Function.update w.filesCount t (w.filesCount t - 1) }, ?_,
      h.setCount _, ?_, rfl, fun t' ht' _ => ht'⟩
    · simp only [Fd.putFiles, Prog.run_bind, Prog.run_modify, Prog.run_get, Outcome.andThen_ok]
      rw [if_neg (by rw [hself]; omega), Prog.run_pure]
    · have := Closing.refl (C := fun sl => sl.1 = t) w
      exact ⟨this.keeps, this.back, this.mono, this.closes⟩

end tables

end Ucore.Fs.Fd
