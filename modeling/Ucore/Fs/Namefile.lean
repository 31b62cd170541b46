import Ucore.Fs.DirIteration
import Ucore.Fs.OpenBalance

/-!
# The path of a directory

`sfs_namefile`: a climb from a directory to the root, which writes the names on its way from the end of the buffer to the
front.

* `NameState` has the inodes in memory, with their counts, and the buffer.
* `namefileLoop` holds one reference, to the directory that it has come to. Each exit of the loop gives it back.
* `sfsNamefile_adds`: no call of `sfs_namefile` changes the counts of an inode, however it ends.
-/

namespace Ucore.Fs.Counted

open Ucore.Lib

/-- The inodes, and the buffer of the call. -/
structure NameState where
  fs : OpenState
  iob : Iobuf

/-- The assertions of `sfs_namefile` and of the functions it calls. -/
inductive NamePanic where
  | inside (p : OpenPanic)
  | notParent | iobufSkip
  /-- The loop has taken all the steps it was given. -/
  | fuel
  deriving Repr, DecidableEq

abbrev NameProg := Prog NamePanic FsError NameState

/-- Call a function of the inodes. -/
def onOpen {α : Type} (m : OpenProg α) : NameProg α := Prog.zoom NameState.fs (fun s w => { w with fs := s }) .inside m

/-- Write to the memory of the buffer. -/
def writeBuf (f : Block → Block) : NameProg Unit :=
  Prog.modify fun w => { w with iob := { w.iob with data := f w.iob.data } }

/-- `iobuf_skip`, with its assertion. -/
def skipBuf (n : ℕ) : NameProg Unit := do
  let w ← Prog.get
  if h : n ≤ w.iob.resid then Prog.modify fun _ => { w with iob := iobufSkip w.iob n h }
  else Prog.stop .iobufSkip

/-- The loop of `sfs_dirent_findino_nolock` over `n` slots from `i` on. -/
def direntFindinoLoop (sin ino : ℕ) : ℕ → ℕ → SfsProg Dirent
  | 0, _ => Prog.throw .noEnt
  | n + 1, i => do
    let entry ← sfsDirentReadNolock sin i
    if entry.ino = ino then pure entry else direntFindinoLoop sin ino n (i + 1)

/-- Source: `kern/fs/sfs/sfs_inode.c` `sfs_dirent_findino_nolock` -/
def sfsDirentFindinoNolock (sin ino : ℕ) : SfsProg Dirent := do
  let s ← Prog.get
  direntFindinoLoop sin ino (s.inode sin).blocks 0

theorem parentName_nul_free : ∀ b ∈ ([46, 46] : List UInt8), b ≠ 0 := by simp

/-- `..` -/
def parentName : CString := ⟨[46, 46], parentName_nul_free⟩

/-- `ptr`, counted from the start of the buffer, and `resid`. -/
structure NameCursor where
  ptr : ℕ
  resid : ℕ

/-- The cursor in front of a name and its slash. -/
def NameCursor.back (c : NameCursor) (name : CString) : NameCursor :=
  ⟨c.ptr - (name.strlen + 1), c.resid - (name.strlen + 1)⟩

/-- A name and a slash. -/
def writeName (ptr : ℕ) (name : CString) (m : Block) : Block := (m.splice ptr name.bytes).splice (ptr + name.strlen) [47]

section namefile

variable (env : KernelEnv)

/-- The way out: `failed`. -/
def failed {α : Type} (d : ℕ) (e : FsError) : NameProg α := do
  onOpen (inodeRefDec env (.sfs d))
  Prog.throw e

/-- The loop of `sfs_namefile`, which has come to the directory `d`. -/
def namefileLoop : ℕ → ℕ → NameCursor → NameProg NameCursor
  | 0, _, _ => Prog.stop .fuel
  | fuel + 1, d, c => do
    match ← Prog.attempt (onOpen (sfsLookupOnce d parentName)) with
    | .error e => failed env d e
    | .ok parent => do
      onOpen (inodeRefDec env (.sfs d))
      if parent = .sfs d then do
        onOpen (inodeRefDec env (.sfs d))
        pure c
      else match parent with
        | .device _ => Prog.stop .notParent
        | .sfs p => do
          let w ← Prog.get
          Prog.assert (d ≠ p ∧ (w.fs.kernel.sfs.inode p).type = .dir) .notParent
          match ← Prog.attempt (onOpen (onSfs (sfsDirentFindinoNolock p d))) with
          | .error e => failed env p e
          | .ok entry =>
            if entry.name.strlen + 1 > c.resid then failed env p .noMem
            else do
              writeBuf (writeName (c.back entry.name).ptr entry.name)
              namefileLoop fuel p (c.back entry.name)

/-- What `sfs_namefile` does with the buffer behind its loop: the names go to the front, between a slash and a zero. -/
def namefileMove (start ptr alen : ℕ) (m : Block) : Block :=
  ((m.splice (start + 1) (m.read ptr alen)).splice start [47]).splice (start + 1 + alen) [0]

/-- Source: `kern/fs/sfs/sfs_inode.c` `sfs_namefile` -/
def sfsNamefile (fuel d : ℕ) : NameProg Unit := do
  let w ← Prog.get
  if w.iob.resid ≤ 2 then Prog.throw .noMem
  else do
    onOpen kmalloc
    let _ ← onOpen (inodeRefInc (.sfs d))
    let c ← namefileLoop env fuel d ⟨w.iob.used + w.iob.resid, w.iob.resid - 2⟩
    writeBuf (namefileMove w.iob.used c.ptr (w.iob.resid - c.resid - 2))
    skipBuf (w.iob.resid - c.resid - 2)

end namefile

/-! ### The account -/

/-- The counts of the inodes. -/
def NameState.counts (w : NameState) : VNode → BitVec 32 × BitVec 32 := w.fs.counts

section account

variable {env : KernelEnv} {α : Type} {δ : α → VNode → BitVec 32 × BitVec 32} {r : VNode → BitVec 32 × BitVec 32}

theorem onOpen_adds {m : OpenProg α} (h : Adds OpenState.counts δ r m) : Adds NameState.counts δ r (onOpen m) :=
  .zoom_part h fun _ _ => rfl

theorem writeBuf_adds (f : Block → Block) : Adds NameState.counts (fun _ => 0) r (writeBuf f) :=
  .modify fun _ => (add_zero _).symm

theorem skipBuf_adds (n : ℕ) : Adds NameState.counts (fun _ => 0) r (skipBuf n) := by
  intro w
  rw [skipBuf, Prog.bind_of_ok (Prog.run_get w)]
  split_ifs
  · exact (add_zero _).symm
  · trivial

/-- The way out gives the reference back. -/
theorem failed_adds (d : ℕ) (e : FsError) : Adds NameState.counts δ (-ref (.sfs d)) (failed env d e : NameProg α) :=
  (onOpen_adds inodeRefDec_adds).bind fun _ => .throw (sub_self _)

/-- **The climb** gives back the reference it starts with, and all that it takes. -/
theorem namefileLoop_adds (fuel d : ℕ) (c : NameCursor) :
    Adds NameState.counts (fun _ => -ref (.sfs d)) (-ref (.sfs d)) (namefileLoop env fuel d c) := by
  induction fuel generalizing d c with
  | zero => exact .stop _
  | succ fuel ih =>
    refine (onOpen_adds (sfsLookupOnce_adds d parentName)).attempt.bind fun x => ?_
    cases x with
    | error e => exact (failed_adds d e).congr (fun _ => sub_zero _) (sub_zero _)
    | ok parent =>
      refine (onOpen_adds inodeRefDec_adds).bind fun _ => .ite (fun heq => ?_) fun hne => ?_
      · -- the root
        rw [heq]
        refine (onOpen_adds inodeRefDec_adds).bind fun _ => .pure ?_
        rw [onExcept_ok]
        abel
      · cases parent with
        | device name => exact .stop _
        | sfs p =>
          refine .get_bind fun w => .assert_bind fun _ => ?_
          refine .bind_zero (onOpen_adds onKernel_adds).attempt_zero fun y => ?_
          cases y with
          | error e => exact (failed_adds p e).congr (fun _ => rfl) (by rw [onExcept_ok]; abel)
          | ok entry =>
            refine .ite (fun _ => ?_) fun _ => ?_
            · exact (failed_adds p .noMem).congr (fun _ => rfl) (by rw [onExcept_ok]; abel)
            · refine .bind_zero (writeBuf_adds _) fun _ => (ih p _).congr (fun _ => ?_) ?_
              · rw [onExcept_ok]
                abel
              · rw [onExcept_ok]
                abel

/-- **Every call of `sfs_namefile`** leaves the counts of all inodes as they are. -/
theorem sfsNamefile_adds (fuel d : ℕ) : Adds NameState.counts (fun _ => 0) 0 (sfsNamefile env fuel d) := by
  refine .get_bind fun w => .ite (fun _ => .throw rfl) fun _ => ?_
  refine .bind_zero (onOpen_adds kmalloc_adds) fun _ => (onOpen_adds inodeRefInc_adds).bind fun _ => ?_
  rw [zero_sub]
  refine (namefileLoop_adds fuel d _).bind fun c => .bind_zero (writeBuf_adds _) fun _ => ?_
  exact (skipBuf_adds _).congr (fun _ => sub_self _) rfl

end account

end Ucore.Fs.Counted
