import Ucore.Fs.SfsSync

/-!
# Descriptors that are open for reading only

`file_write` asks whether a descriptor is open for writing; no other function of `file.c` does. Here are the calls
that a process can make on a descriptor opened with `O_RDONLY`, and what they do to the files.

* `fileDup`, `fileFstat` and `fileCloseLast` complete the functions of `file.c`. Closing the last descriptor of a
  file calls `sfs_close`, and giving up the last reference to its inode calls `sfs_reclaim`; the next `sfs_load_inode`
  finds what is on disk.
* `SameFiles s t`: the files have the same sizes, blocks and bytes, and the same blocks are free.
* `file_seek` calls `sfs_tryseek`, which extends the file if the position is behind its end
  (`read_only_seek_extends`). `read_only_keeps_files`: calls that are `InPlace` change no file.
-/

namespace Ucore.Fs

open Ucore.Lib Relation

variable {c : SfsConst} {s t u : Sfs} {ino : ℕ}

/-! ### More functions of the file layer -/

/-- Source: `kern/fs/file.c` `fd_array_alloc`; `NO_FD` is `none` -/
def fdArrayAllocAt (pid : ℕ) (fd : Option ℤ) : FileProg ℕ :=
  match fd with
  | none => fdArrayAlloc pid
  | some fd => do
    let w ← Prog.get
    if 0 ≤ fd ∧ fd < filesStructNentry then
      if (w.fdArray pid fd.toNat).isNone then pure fd.toNat else Prog.throw .busy
    else
      Prog.throw .inval

/-- Source: `kern/fs/file.c` `file_dup`, `fd_array_dup` -/
def fileDup (pid : ℕ) (fd1 : ℤ) (fd2 : Option ℤ) : FileProg ℕ := do
  let f ← fd2file pid fd1
  let fd ← fdArrayAllocAt pid fd2
  Prog.modify fun w => w.setFd pid fd (some f)
  pure fd

/-- `struct stat` -/
structure Stat where
  mode : SfsType
  nlinks : ℕ
  blocks : ℕ
  size : ℕ
  deriving Repr, DecidableEq

/-- The descriptor is one of a regular file. Source: `kern/fs/file.c` `file_fstat`,
`kern/fs/sfs/sfs_inode.c` `sfs_fstat` -/
def fileFstat (c : SfsConst) (pid : ℕ) (fd : ℤ) : FileProg Stat := do
  let f ← fd2file pid fd
  let w ← Prog.get
  let din := w.sfs.inode f.node
  pure ⟨din.type, c.nlinks f.node, din.blocks, din.size⟩

/-- The inode leaves memory. When it is needed again, `sfs_load_inode` reads it from disk. -/
def Sfs.forget (s : Sfs) (ino : ℕ) : Sfs := s.setInode ino fun _ => diskInode (s.disk ino)

/-- The end of `sfs_reclaim` for a file without links: its inode and its indirect block become free. -/
def reclaimBlocks (c : SfsConst) (ino : ℕ) : SfsProg Unit := do
  if c.nlinks ino = 0 then do
    let s ← Prog.get
    sfsBlockFree ino
    if (s.inode ino).indirect ≠ 0 then
      sfsBlockFree (s.inode ino).indirect

/-- What `sfs_reclaim` does to the disk when no reference to the inode is left.
Source: `kern/fs/sfs/sfs_inode.c` `sfs_reclaim` -/
def sfsReclaimDisk (c : SfsConst) (ino : ℕ) : SfsProg Unit := do
  if c.nlinks ino = 0 then
    sfsTruncfile ino 0
  sfsFsync c ino
  reclaimBlocks c ino
  Prog.modify fun s => s.forget ino

/-- What a close is the last one of: nothing, the descriptors of the inode, or the references to it. -/
inductive Last where
  | none | descriptor | reference
  deriving Repr, DecidableEq

/-- `vop_close` and `vop_reclaim`, as far as they are called; an error of theirs is only printed.
Source: `kern/fs/vfs/inode.c` `inode_open_dec`, `inode_ref_dec` -/
def vfsCloseLast (c : SfsConst) (ino : ℕ) : Last → SfsProg Unit
  | .none => pure ()
  | .descriptor => do
    let _ ← Prog.attempt (sfsFsync c ino)
  | .reference => do
    let _ ← Prog.attempt (sfsFsync c ino)
    let _ ← Prog.attempt (sfsReclaimDisk c ino)

/-- Source: `kern/fs/file.c` `file_close`, `fd_array_free`, `kern/fs/vfs/vfsfile.c` `vfs_close` -/
def fileCloseLast (c : SfsConst) (pid : ℕ) (fd : ℤ) (last : Last) : FileProg Unit := do
  let f ← fd2file pid fd
  onSfs (vfsCloseLast c f.node last)
  Prog.modify fun w => w.setFd pid fd.toNat none

/-! ### The same files -/

/-- The files have the same sizes, blocks and bytes, and the same blocks are free. -/
structure SameFiles (s t : Sfs) : Prop where
  blocks : t.blocks = s.blocks
  inos : t.inos = s.inos
  freemap : t.freemap = s.freemap
  unused : t.unusedBlocks = s.unusedBlocks
  type : ∀ ino, (t.inode ino).type = (s.inode ino).type
  size : ∀ ino, (t.inode ino).size = (s.inode ino).size
  count : ∀ ino, (t.inode ino).blocks = (s.inode ino).blocks
  indirect : ∀ ino, (t.inode ino).indirect = (s.inode ino).indirect
  slot : ∀ ino ∈ s.inos, ∀ i, t.slot ino i = s.slot ino i
  byte : ∀ ino ∈ s.inos, ∀ k, t.byteAt ino k = s.byteAt ino k

theorem SameFiles.refl (s : Sfs) : SameFiles s s :=
  ⟨rfl, rfl, rfl, rfl, fun _ => rfl, fun _ => rfl, fun _ => rfl, fun _ => rfl, fun _ _ _ => rfl, fun _ _ _ => rfl⟩

theorem SameFiles.trans (h : SameFiles s t) (h' : SameFiles t u) : SameFiles s u := by
  refine ⟨h'.blocks.trans h.blocks, h'.inos.trans h.inos, h'.freemap.trans h.freemap, h'.unused.trans h.unused,
    fun ino => (h'.type ino).trans (h.type ino), fun ino => (h'.size ino).trans (h.size ino),
    fun ino => (h'.count ino).trans (h.count ino), fun ino => (h'.indirect ino).trans (h.indirect ino),
    fun ino hino i => ?_, fun ino hino k => ?_⟩
  · rw [h'.slot ino (by rw [h.inos]; exact hino), h.slot ino hino]
  · rw [h'.byte ino (by rw [h.inos]; exact hino), h.byte ino hino]

theorem SameFiles.ok (h : SameFiles s t) (hok : s.Ok) : t.Ok := by
  refine ⟨(hok.consistent.congr h.blocks h.inos h.freemap h.unused h.indirect h.slot h.count).1, ?_⟩
  intro ino hino htype
  rw [h.inos] at hino
  rw [h.type] at htype
  have hsize := hok.sizes ino hino htype
  unfold Sfs.SizeMapped at hsize ⊢
  rwa [h.size, h.count]

/-- Pointers and blocks of files that are as they were. -/
theorem SameFiles.of_pointers (hcons : s.Consistent) (hblocks : t.blocks = s.blocks) (hinos : t.inos = s.inos)
    (hmap : t.freemap = s.freemap) (hunused : t.unusedBlocks = s.unusedBlocks)
    (htype : ∀ ino, (t.inode ino).type = (s.inode ino).type)
    (hsize : ∀ ino, (t.inode ino).size = (s.inode ino).size)
    (hcount : ∀ ino, (t.inode ino).blocks = (s.inode ino).blocks)
    (hdirect : ∀ ino, ∀ i < 12, (t.inode ino).direct i = (s.inode ino).direct i)
    (hindirect : ∀ ino, (t.inode ino).indirect = (s.inode ino).indirect)
    (hdisk : ∀ b, b ∉ s.inos → t.disk b = s.disk b) : SameFiles s t := by
  -- a block of a file is no inode
  have hdata : ∀ o, (∀ ino, o ≠ .inode ino) → s.blk o ≠ 0 → t.disk (s.blk o) = s.disk (s.blk o) := by
    intro o ho hne
    refine hdisk _ fun hmem => ?_
    exact ho _ (hcons.inj o (.inode (s.blk o)) hne (if_pos hmem).symm)
  have hslot : ∀ ino ∈ s.inos, ∀ i, t.slot ino i = s.slot ino i := by
    intro ino hino i
    refine Sfs.slot_congr (fun hi => hdirect ino i hi) (hindirect ino) fun hne => ?_
    have hblk : s.blk (.indirect ino) = (s.inode ino).indirect := if_pos hino
    rw [← hblk] at hne ⊢
    exact hdata _ (fun _ => Owner.noConfusion) hne
  refine ⟨hblocks, hinos, hmap, hunused, htype, hsize, hcount, hindirect, hslot, fun ino hino k => ?_⟩
  unfold Sfs.byteAt
  rw [hslot ino hino]
  split_ifs with hzero
  · rfl
  · have hblk : s.blk (.data ino (k / 4096)) = s.slot ino (k / 4096) := if_pos hino
    rw [← hblk] at hzero ⊢
    rw [hdata _ (fun _ => Owner.noConfusion) hzero]

/-- Writing an inode changes no file. -/
theorem SameFiles.flushInode (hcons : s.Consistent) (hino : ino ∈ s.inos) : SameFiles s (s.flushInode c ino) := by
  have hinode : ∀ ino', (s.flushInode c ino).inode ino' = s.inode ino' ∨
      (s.flushInode c ino).inode ino' = { s.inode ino' with dirty := false } := by
    intro ino'
    by_cases heq : ino' = ino
    · subst heq
      exact Or.inr (Sfs.flushInode_same c s ino')
    · exact Or.inl (Sfs.flushInode_of_ne c s heq)
  refine SameFiles.of_pointers hcons rfl rfl rfl rfl ?_ ?_ ?_ ?_ ?_ fun b hb => ?_
  · intro ino'
    rcases hinode ino' with h | h <;> rw [h]
  · intro ino'
    rcases hinode ino' with h | h <;> rw [h]
  · intro ino'
    rcases hinode ino' with h | h <;> rw [h]
  · intro ino' i _
    rcases hinode ino' with h | h <;> rw [h]
  · intro ino'
    rcases hinode ino' with h | h <;> rw [h]
  · refine Sfs.flushInode_disk_of_ne c s ?_
    rintro rfl
    exact hb hino

/-- Reading back an inode that is on disk changes no file. -/
theorem SameFiles.forget (hcons : s.Consistent) (hino : ino ∈ s.inos) (hon : s.OnDisk c ino)
    (hsize : (s.inode ino).size < 2 ^ 32) (hcount : (s.inode ino).blocks < 2 ^ 32) : SameFiles s (s.forget ino) := by
  obtain ⟨hdirect, hindirect⟩ := hcons.diskInode_pointers hino hon rfl rfl
  have hother : ∀ ino', ino' ≠ ino → (s.forget ino).inode ino' = s.inode ino' := fun ino' hne =>
    Sfs.setInode_of_ne _ _ _ hne
  have hsame : (s.forget ino).inode ino = diskInode (s.disk ino) := Sfs.setInode_same _ _ _
  have hall : ∀ {α : Type} (f : SfsInode → α), f (diskInode (s.disk ino)) = f (s.inode ino) →
      ∀ ino', f ((s.forget ino).inode ino') = f (s.inode ino') := by
    intro α f hf ino'
    by_cases heq : ino' = ino
    · rw [heq, hsame, hf]
    · rw [hother ino' heq]
  refine SameFiles.of_pointers hcons rfl rfl rfl rfl (hall _ ?_) (hall _ ?_) (hall _ ?_) ?_ (hall _ hindirect)
    fun _ _ => rfl
  · show SfsType.ofCode ((s.disk ino).word 1 % 65536) = (s.inode ino).type
    rw [word_of_bytes hon (by omega)]
    conv_rhs => rw [← SfsType.ofCode_code (s.inode ino).type]
    congr 1
    simp only [SfsInode.words]
    have hcode : (s.inode ino).type.code < 4 := by
      cases (s.inode ino).type <;> decide
    omega
  · show (s.disk ino).word 0 = (s.inode ino).size
    rw [word_of_bytes hon (by omega)]
    exact Nat.mod_eq_of_lt hsize
  · show (s.disk ino).word 2 = (s.inode ino).blocks
    rw [word_of_bytes hon (by omega)]
    exact Nat.mod_eq_of_lt hcount
  · intro ino' i hi
    exact hall (fun d => d.direct i) (hdirect i hi) ino'

/-! ### Calls -/

/-- A call on a descriptor that is open for reading only, or the opening of one. -/
inductive RoCall where
  | openFile (pid ino : ℕ)
  | read (pid : ℕ) (fd : ℤ) (len : ℕ)
  | seek (pid : ℕ) (fd pos : ℤ) (whence : Whence)
  | fstat (pid : ℕ) (fd : ℤ)
  | dup (pid : ℕ) (fd1 : ℤ) (fd2 : Option ℤ)
  | close (pid : ℕ) (fd : ℤ) (last : Last)

namespace RoCall

/-- The code of a call; `O_RDONLY` is 0. -/
def code (c : SfsConst) : RoCall → FileProg Unit
  | .openFile pid ino => do
    let _ ← fileOpen pid ino 0
  | .read pid fd len => do
    let _ ← fileRead pid fd len
  | .seek pid fd pos whence => fileSeek pid fd pos whence
  | .fstat pid fd => do
    let _ ← fileFstat c pid fd
  | .dup pid fd1 fd2 => do
    let _ ← fileDup pid fd1 fd2
  | .close pid fd last => fileCloseLast c pid fd last

/-- The descriptor that the call is about, if it is about one. -/
def file (w : FileSys) : RoCall → Option File
  | .openFile _ _ => none
  | .read pid fd _ => w.file pid fd
  | .seek pid fd _ _ => w.file pid fd
  | .fstat pid fd => w.file pid fd
  | .dup pid fd1 _ => w.file pid fd1
  | .close pid fd _ => w.file pid fd

/-- The call opens a file, or is about a descriptor that is open for reading only. -/
def OnReadOnly (w : FileSys) (call : RoCall) : Prop :=
  (∀ f, call.file w = some f → f.readable = true ∧ f.writable = false) ∧
    ∀ pid ino, call = .openFile pid ino → w.sfs.IsFile ino

end RoCall

/-- Where `file_seek` seeks to. -/
def seekTarget (s : Sfs) (f : File) (pos : ℤ) : Whence → Option ℤ
  | .set => some pos
  | .cur => some (toOff (pos + f.pos))
  | .fromEnd => some (toOff (pos + (s.inode f.node).size))
  | .other => none

/-- The call does not reach the code that changes files. A seek is to a position in the file, or is rejected. A read
ends inside the blocks of the file: the size can be past them when a write has failed. An inode that leaves memory
has been written, or is dirty and will be. -/
def InPlace (c : SfsConst) (w : FileSys) : RoCall → Prop
  | .read pid fd len => ∀ f, w.file pid fd = some f → IoAccepted (w.sfs.inode f.node).size f.pos len false →
    ioEndpos (w.sfs.inode f.node).size f.pos len false ≤ 4096 * (w.sfs.inode f.node).blocks
  | .seek pid fd pos whence => ∀ f, w.file pid fd = some f → ∀ target, seekTarget w.sfs f pos whence = some target →
    0 ≤ target → target < sfsMaxFileSize → target.toNat ≤ (w.sfs.inode f.node).size
  | .close pid fd .reference => ∀ f, w.file pid fd = some f →
    (w.sfs.inode f.node).dirty = true ∨ w.sfs.OnDisk c f.node
  | _ => True

/-- A call on descriptors that are open for reading only, and the state it leaves behind, whether it returns or
fails. -/
def RoStep (c : SfsConst) (C : FileSys → RoCall → Prop) (w w' : FileSys) : Prop :=
  ∃ call : RoCall, call.OnReadOnly w ∧ C w call ∧
    ((call.code c).run w = .ok () w' ∨ ∃ e, (call.code c).run w = .error e w')

/-- The states reached by calls that satisfy `C`. -/
def RoReach (c : SfsConst) (C : FileSys → RoCall → Prop) : FileSys → FileSys → Prop := ReflTransGen (RoStep c C)

/-- The invariant: the sizes and the counts of blocks fit their 32 bits, and `sfs_load_inode` has seen a link to
every inode. -/
structure RoInv (c : SfsConst) (w : FileSys) : Prop where
  ok : w.Ok
  inode_ne : ∀ ino ∈ w.sfs.inos, ino ≠ 0
  size_lt : ∀ ino ∈ w.sfs.inos, (w.sfs.inode ino).size < 2 ^ 32
  count_lt : ∀ ino ∈ w.sfs.inos, (w.sfs.inode ino).blocks < 2 ^ 32
  linked : ∀ ino ∈ w.sfs.inos, c.nlinks ino ≠ 0

section calls

variable {w w' : FileSys} {pid : ℕ} {fd : ℤ} {f : File}

/-- A read that ends inside the blocks of the file changes nothing. -/
theorem sfsIoNolock_inPlace (h : s.Ok) (hfile : s.IsFile ino) {offset : ℤ} {alen : ℕ}
    (hin : IoAccepted (s.inode ino).size offset alen false →
      ioEndpos (s.inode ino).size offset alen false ≤ 4096 * (s.inode ino).blocks) :
    ((sfsIoNolock ino [] offset alen false).run s).Post (fun _ t => t = s) (fun _ _ => False) (fun _ => True) := by
  by_cases hacc : IoAccepted (s.inode ino).size offset alen false
  swap
  · obtain ⟨ret, hrun⟩ := sfsIoNolock_of_not_accepted hfile.not_dir hacc
    rw [hrun]
    rfl
  have hend := hin hacc
  have hsize : ioEndpos (s.inode ino).size offset alen false ≤ (s.inode ino).size :=
    Nat.min_le_right _ _
  rw [sfsIoNolock_of_accepted hfile.not_dir hacc]
  refine (ioTransfer_post (I := fun pos r t => t = s ∧ offset.toNat + r.alen = pos) (F := fun _ _ => False)
    (P := fun _ => True) ?_ hacc.lt ⟨rfl, rfl⟩).bind ?_
  · rintro pos size whole r _ hoff hpos hle hone - hwhole hret ⟨rfl, halen⟩
    -- the block is there
    refine (ioStep_post h.consistent hfile.1 (by omega) hwhole).mono ?_ (fun _ _ hF => hF) fun _ _ => trivial
    rintro r' t (⟨b, s₁, blk, ⟨-, -, -, rfl⟩ | ⟨hidx, -⟩, rfl, rfl, -⟩ | ⟨e, ⟨-, hidx, -⟩, -⟩)
    · refine Or.inl ⟨hret, rfl, ?_⟩
      show offset.toNat + (r.alen + size) = pos + size
      omega
    · omega
    · omega
  · rintro r _ (⟨-, rfl, halen⟩ | ⟨-, hF⟩)
    · show Sfs.raiseSize _ ino _ = _
      rw [Sfs.raiseSize, if_neg (by omega)]
    · exact hF.elim

/-- The files after a call are the same, and the descriptors are sound. -/
def RoKept (w w' : FileSys) : Prop := w'.Ok ∧ SameFiles w.sfs w'.sfs

theorem RoKept.refl (h : w.Ok) : RoKept w w := ⟨h, .refl _⟩

theorem SameFiles.isFile (h : SameFiles s t) (hfile : s.IsFile ino) : t.IsFile ino := by
  refine ⟨?_, ?_⟩
  · rw [h.inos]
    exact hfile.1
  · rw [h.type]
    exact hfile.2

/-- An operation on the files that changes none of them. -/
theorem RoKept.onSfs {α : Type} {m : SfsProg α} (h : w.Ok)
    (hm : (m.run w.sfs).Post (fun _ t => SameFiles w.sfs t) (fun _ t => SameFiles w.sfs t) (fun _ => True)) :
    ((onSfs m).run w).Post (fun _ w' => RoKept w w' ∧ w'.fdArray = w.fdArray)
      (fun _ w' => RoKept w w' ∧ w'.fdArray = w.fdArray) (fun _ => True) := by
  have hbelow : ∀ w' : FileSys, SameFiles w.sfs w'.sfs ∧ w'.fdArray = w.fdArray →
      RoKept w w' ∧ w'.fdArray = w.fdArray := by
    rintro w' ⟨hsame, hfds⟩
    exact ⟨⟨Below.ok ⟨hfds, fun _ => hsame.isFile⟩ h (hsame.ok h.sfs), hsame⟩, hfds⟩
  exact (onSfs_post hm).mono (fun _ w' => hbelow w') (fun _ w' => hbelow w') fun _ _ => trivial

theorem RoKept.setFd (h : RoKept w w') (pid fd : ℕ) {f : Option File}
    (hf : ∀ g, f = some g → w.sfs.IsFile g.node) : RoKept w (w'.setFd pid fd f) :=
  ⟨h.1.setFd pid fd fun g hg => h.2.isFile (hf g hg), h.2⟩

theorem fileRead_inPlace (h : w.Ok) (hf : w.file pid fd = some f) {len : ℕ}
    (hin : IoAccepted (w.sfs.inode f.node).size f.pos len false →
      ioEndpos (w.sfs.inode f.node).size f.pos len false ≤ 4096 * (w.sfs.inode f.node).blocks) :
    ((fileRead pid fd len).run w).Post (fun _ w' => RoKept w w') (fun _ w' => RoKept w w') (fun _ => True) := by
  have hfile := h.isFile hf
  have hio : ((sfsIo f.node [] f.pos len false).run w.sfs).Post (fun _ t => SameFiles w.sfs t)
      (fun _ t => SameFiles w.sfs t) (fun _ => True) := by
    rw [sfsIo]
    refine ((sfsIoNolock_inPlace h.sfs hfile hin).mono (fun _ _ hQ => hQ) (fun _ _ hF => hF.elim)
      fun _ hP => hP).bind ?_
    rintro r _ rfl
    simp only [Prog.run_bind, Prog.run_ite, Prog.run_assert]
    split_ifs
    · exact .refl _
    · trivial
    · exact .refl _
  rw [fileRead, Prog.bind_of_ok (fd2file_run hf), Prog.run_ite]
  split_ifs
  · exact .refl h
  · rw [fileIo]
    refine ((RoKept.onSfs h hio).mono (fun _ _ hQ => hQ) (fun _ _ hE => hE.1) fun _ hP => hP).bind ?_
    rintro r w₁ ⟨hkept, -⟩
    refine hkept.setFd pid fd.toNat ?_
    rintro g ⟨⟩
    exact hfile

theorem sfsTryseek_inPlace {pos : ℤ} (hin : 0 ≤ pos → pos < sfsMaxFileSize → pos.toNat ≤ (s.inode ino).size) :
    ((sfsTryseek ino pos).run s).Post (fun _ t => SameFiles s t) (fun _ t => SameFiles s t) (fun _ => True) := by
  simp only [sfsTryseek, Prog.run_ite]
  by_cases hrange : pos < 0 ∨ pos ≥ sfsMaxFileSize
  · rw [if_pos hrange]
    exact .refl s
  · rw [if_neg hrange, Prog.run_bind, Prog.run_get, Outcome.andThen_ok, Prog.run_ite]
    have hle := hin (by omega) (by omega)
    rw [if_neg (by omega)]
    exact .refl s

theorem fileSeek_inPlace (h : w.Ok) (hf : w.file pid fd = some f) {pos : ℤ} {whence : Whence}
    (hin : ∀ target, seekTarget w.sfs f pos whence = some target →
      0 ≤ target → target < sfsMaxFileSize → target.toNat ≤ (w.sfs.inode f.node).size) :
    ((fileSeek pid fd pos whence).run w).Post (fun _ w' => RoKept w w') (fun _ w' => RoKept w w')
      (fun _ => True) := by
  have hfile := h.isFile hf
  have hmove : ∀ target, seekTarget w.sfs f pos whence = some target → ((do
      onSfs (sfsTryseek f.node target)
      Prog.modify fun s => s.setFd pid fd.toNat (some { f with pos := target }) :
        FileProg Unit).run w).Post (fun _ w' => RoKept w w') (fun _ w' => RoKept w w') (fun _ => True) := by
    intro target htarget
    refine ((RoKept.onSfs h (sfsTryseek_inPlace (hin target htarget))).mono (fun _ _ hQ => hQ)
      (fun _ _ hE => hE.1) fun _ hP => hP).bind ?_
    rintro _ w₁ ⟨hkept, -⟩
    refine hkept.setFd pid fd.toNat ?_
    rintro g ⟨⟩
    exact hfile
  rw [fileSeek, Prog.bind_of_ok (fd2file_run hf), Prog.run_bind, Prog.run_get, Outcome.andThen_ok]
  cases whence with
  | set => exact hmove _ rfl
  | cur => exact hmove _ rfl
  | fromEnd => exact hmove _ rfl
  | other => exact .refl h

theorem Sfs.Ok.lt_blocks (h : s.Ok) (hino : ino ∈ s.inos) (h0 : ino ≠ 0) : ino < s.blocks := by
  have hblk : s.blk (.inode ino) = ino := if_pos hino
  have hused := h.consistent.used (.inode ino) (by rw [hblk]; exact h0)
  rw [hblk] at hused
  exact hused.1

/-- `sfs_fsync` changes no file. If the inode was dirty or on disk, it is on disk afterwards. -/
theorem sfsFsync_sameFiles (h : s.Ok) (hino : ino ∈ s.inos) (h0 : ino ≠ 0) :
    ∃ t, (sfsFsync c ino).run s = .ok () t ∧ SameFiles s t ∧ (t.inode ino).dirty = false ∧
      ((s.inode ino).dirty = true ∨ s.OnDisk c ino → t.OnDisk c ino) := by
  refine ⟨_, sfsFsync_run ⟨h0, h.lt_blocks hino h0⟩, ?_⟩
  by_cases hdirty : (s.inode ino).dirty = true
  · rw [if_pos hdirty]
    exact ⟨.flushInode h.consistent hino, by rw [Sfs.flushInode_same], fun _ => Sfs.flushInode_onDisk c s⟩
  · rw [if_neg hdirty]
    exact ⟨.refl s, by simpa using hdirty, fun hcase => hcase.resolve_left hdirty⟩

/-- `sfs_reclaim` of a linked inode that is on disk changes no file. -/
theorem sfsReclaimDisk_sameFiles (h : s.Ok) (hino : ino ∈ s.inos) (h0 : ino ≠ 0) (hlinks : c.nlinks ino ≠ 0)
    (hclean : (s.inode ino).dirty = false) (hon : s.OnDisk c ino) (hsize : (s.inode ino).size < 2 ^ 32)
    (hcount : (s.inode ino).blocks < 2 ^ 32) :
    (sfsReclaimDisk c ino).run s = .ok () (s.forget ino) ∧ SameFiles s (s.forget ino) := by
  refine ⟨?_, .forget h.consistent hino hon hsize hcount⟩
  have hsync : (sfsFsync c ino).run s = .ok () s := by
    rw [sfsFsync_run ⟨h0, h.lt_blocks hino h0⟩, if_neg (by rw [hclean]; exact Bool.false_ne_true)]
  simp only [sfsReclaimDisk, reclaimBlocks, if_neg hlinks, Prog.run_bind, Prog.run_pure, Outcome.andThen_ok, hsync,
    Prog.run_modify]

theorem vfsCloseLast_sameFiles (h : RoInv c w) (hino : ino ∈ w.sfs.inos) {last : Last}
    (hin : last = .reference → (w.sfs.inode ino).dirty = true ∨ w.sfs.OnDisk c ino) :
    ∃ t, (vfsCloseLast c ino last).run w.sfs = .ok () t ∧ SameFiles w.sfs t := by
  have h0 := h.inode_ne ino hino
  obtain ⟨t, hsync, hsame, hclean, hon⟩ := sfsFsync_sameFiles (c := c) h.ok.sfs hino h0
  cases last with
  | none => exact ⟨_, rfl, .refl _⟩
  | descriptor =>
    refine ⟨t, ?_, hsame⟩
    simp only [vfsCloseLast, Prog.run_bind, Prog.attempt, hsync, Outcome.andThen_ok, Prog.run_pure]
  | reference =>
    have hino' : ino ∈ t.inos := by
      rw [hsame.inos]
      exact hino
    obtain ⟨hrun, hsame'⟩ := sfsReclaimDisk_sameFiles (hsame.ok h.ok.sfs) hino' h0 (h.linked ino hino) hclean
      (hon (hin rfl)) (by rw [hsame.size]; exact h.size_lt ino hino) (by rw [hsame.count]; exact h.count_lt ino hino)
    refine ⟨_, ?_, hsame.trans hsame'⟩
    simp only [vfsCloseLast, Prog.run_bind, Prog.attempt, hsync, Outcome.andThen_ok, hrun, Prog.run_pure]

theorem fileCloseLast_inPlace (h : RoInv c w) (hf : w.file pid fd = some f) {last : Last}
    (hin : last = .reference → (w.sfs.inode f.node).dirty = true ∨ w.sfs.OnDisk c f.node) :
    ((fileCloseLast c pid fd last).run w).Post (fun _ w' => RoKept w w') (fun _ w' => RoKept w w')
      (fun _ => True) := by
  obtain ⟨t, hrun, hsame⟩ := vfsCloseLast_sameFiles h (h.ok.isFile hf).1 hin
  rw [fileCloseLast, Prog.bind_of_ok (fd2file_run hf)]
  have hpost : ((vfsCloseLast c f.node last).run w.sfs).Post (fun _ t => SameFiles w.sfs t)
      (fun _ t => SameFiles w.sfs t) (fun _ => True) := by
    rw [hrun]
    exact hsame
  refine ((RoKept.onSfs h.ok hpost).mono (fun _ _ hQ => hQ) (fun _ _ hE => hE.1) fun _ hP => hP).bind ?_
  rintro _ w₁ ⟨hkept, -⟩
  exact hkept.setFd pid fd.toNat fun g hg => by cases hg

theorem fdArrayAllocAt_post {P : SfsPanic → Prop} (pid : ℕ) (fd : Option ℤ) :
    ((fdArrayAllocAt pid fd).run w).Post (fun _ w' => w' = w) (fun _ w' => w' = w) P := by
  cases fd with
  | none => exact fdArrayAlloc_post pid
  | some fd =>
    simp only [fdArrayAllocAt, Prog.run_bind, Prog.run_get, Outcome.andThen_ok, Prog.run_ite]
    split_ifs <;> rfl

theorem fileDup_inPlace (h : w.Ok) (hf : w.file pid fd = some f) (fd2 : Option ℤ) :
    ((fileDup pid fd fd2).run w).Post (fun _ w' => RoKept w w') (fun _ w' => RoKept w w') (fun _ => True) := by
  rw [fileDup, Prog.bind_of_ok (fd2file_run hf)]
  refine ((fdArrayAllocAt_post pid fd2).mono (fun _ _ hQ => hQ) ?_ fun _ hP => hP).bind ?_
  · rintro _ w₁ rfl
    exact .refl h
  · rintro fd' w₁ rfl
    refine (RoKept.refl h).setFd pid fd' ?_
    rintro g ⟨⟩
    exact h.isFile hf

theorem fileOpen_readOnly (h : w.Ok) (hfile : w.sfs.IsFile ino) (pid : ℕ) :
    ((fileOpen pid ino 0).run w).Post (fun _ w' => RoKept w w') (fun _ w' => RoKept w w') (fun _ => True) := by
  have hvfs : (vfsOpen ino 0).run w = .ok ino w := rfl
  rw [fileOpen]
  refine ((fdArrayAlloc_post pid).mono (fun _ _ hQ => hQ) ?_ fun _ hP => hP).bind ?_
  · rintro _ w₁ rfl
    exact .refl h
  · rintro fd w₁ rfl
    rw [Prog.bind_of_ok hvfs]
    refine (RoKept.refl h).setFd pid fd ?_
    rintro g ⟨⟩
    exact hfile

/-- A call that is in place changes no file. -/
theorem RoCall.code_inPlace (h : RoInv c w) {call : RoCall} (hcall : call.OnReadOnly w) (hin : InPlace c w call) :
    ((call.code c).run w).Post (fun _ w' => RoKept w w') (fun _ w' => RoKept w w') (fun _ => True) := by
  have hdone : ∀ {α : Type} {m : FileProg α},
      (m.run w).Post (fun _ w' => RoKept w w') (fun _ w' => RoKept w w') (fun _ => True) →
      ((do let _ ← m; pure () : FileProg Unit).run w).Post (fun _ w' => RoKept w w') (fun _ w' => RoKept w w')
        (fun _ => True) := fun hm => hm.bind fun _ _ hQ => hQ
  have hnone : ∀ {α : Type} {k : File → FileProg α} {pid : ℕ} {fd : ℤ}, w.file pid fd = none →
      ((fd2file pid fd >>= k).run w).Post (fun _ w' => RoKept w w') (fun _ w' => RoKept w w') (fun _ => True) := by
    intro α k pid fd hf
    rw [Prog.bind_of_error (fd2file_none hf)]
    exact .refl h.ok
  cases call with
  | openFile pid ino => exact hdone (fileOpen_readOnly h.ok (hcall.2 pid ino rfl) pid)
  | read pid fd len =>
    refine hdone ?_
    cases hf : w.file pid fd with
    | none => exact hnone hf
    | some f => exact fileRead_inPlace h.ok hf (hin f hf)
  | seek pid fd pos whence =>
    cases hf : w.file pid fd with
    | none => exact hnone hf
    | some f => exact fileSeek_inPlace h.ok hf (hin f hf)
  | fstat pid fd =>
    refine hdone ?_
    cases hf : w.file pid fd with
    | none => exact hnone hf
    | some f =>
      rw [fileFstat, Prog.bind_of_ok (fd2file_run hf)]
      exact .refl h.ok
  | dup pid fd1 fd2 =>
    refine hdone ?_
    cases hf : w.file pid fd1 with
    | none => exact hnone hf
    | some f => exact fileDup_inPlace h.ok hf fd2
  | close pid fd last =>
    cases hf : w.file pid fd with
    | none => exact hnone hf
    | some f =>
      refine fileCloseLast_inPlace h hf ?_
      rintro rfl
      exact hin f hf

theorem RoInv.kept (h : RoInv c w) (hkept : RoKept w w') : RoInv c w' := by
  obtain ⟨hok, hsame⟩ := hkept
  refine ⟨hok, ?_, fun ino hino => ?_, fun ino hino => ?_, ?_⟩
  · rw [hsame.inos]
    exact h.inode_ne
  · rw [hsame.inos] at hino
    rw [hsame.size]
    exact h.size_lt ino hino
  · rw [hsame.inos] at hino
    rw [hsame.count]
    exact h.count_lt ino hino
  · rw [hsame.inos]
    exact h.linked

end calls

/-- **Read-only descriptors in place**: after every sequence of calls on descriptors that are open for reading
only, none of which reaches the code that changes files, every file has its size, its blocks and its bytes, and
the free map and the count of free blocks are the same. -/
theorem read_only_keeps_files {w₀ w : FileSys} (h₀ : RoInv c w₀) (h : RoReach c (InPlace c) w₀ w) :
    SameFiles w₀.sfs w.sfs := by
  have hinv : RoInv c w ∧ SameFiles w₀.sfs w.sfs := by
    refine invariant_of_step (fun w => RoInv c w ∧ SameFiles w₀.sfs w.sfs) h ⟨h₀, .refl _⟩ ?_
    rintro a b ⟨hinv, hsame⟩ ⟨call, hcall, hin, hrun⟩
    have hpost := RoCall.code_inPlace hinv hcall hin
    have hkept : RoKept a b := by
      rcases hrun with hrun | ⟨e, hrun⟩
      · rwa [hrun] at hpost
      · rwa [hrun] at hpost
    exact ⟨hinv.kept hkept, hsame.trans hkept.2⟩
  exact hinv.2

/-! ### A file that is extended -/

theorem noOpenFiles_roInv : RoInv oneLink noOpenFiles := by
  refine ⟨noOpenFiles_ok, fun ino hino => ?_, fun _ _ => ?_, fun _ _ => ?_, fun _ _ => one_ne_zero⟩
  · obtain rfl := List.mem_singleton.mp hino
    decide
  · show 0 < 2 ^ 32
    decide
  · show 0 < 2 ^ 32
    decide

/-- The empty file, opened for reading only by process 1. -/
def openedReadOnly : FileSys := noOpenFiles.setFd 1 0 (some ⟨true, false, 0, 4⟩)

theorem openedReadOnly_file {f : File} (hf : openedReadOnly.file 1 0 = some f) : f = ⟨true, false, 0, 4⟩ :=
  (Option.some.inj (show some (⟨true, false, 0, 4⟩ : File) = some f from hf)).symm

theorem openedReadOnly_step {C : FileSys → RoCall → Prop} (hC : C noOpenFiles (.openFile 1 4)) :
    RoStep oneLink C noOpenFiles openedReadOnly := by
  refine ⟨.openFile 1 4, ⟨fun f hf => (by cases hf), fun pid ino heq => ?_⟩, hC, Or.inl rfl⟩
  cases heq
  exact ⟨mem_emptyFile, rfl⟩

/-- The descriptor is opened, moved to the start of the file and closed. -/
theorem read_only_keeps_files_rewound : ∃ w, RoReach oneLink (InPlace oneLink) noOpenFiles w ∧
    w.fdArray 1 0 = none ∧ SameFiles noOpenFiles.sfs w.sfs := by
  have hseek : RoStep oneLink (InPlace oneLink) openedReadOnly openedReadOnly := by
    refine ⟨.seek 1 0 0 .set, ⟨fun f hf => ?_, fun pid ino heq => by cases heq⟩, fun f hf target htarget _ _ => ?_,
      Or.inl ?_⟩
    · rw [openedReadOnly_file hf]
      exact ⟨rfl, rfl⟩
    · cases htarget
      exact Nat.zero_le _
    · have hsame : openedReadOnly.setFd 1 0 (some ⟨true, false, 0, 4⟩) = openedReadOnly := by
        simp only [openedReadOnly, FileSys.setFd, Function.update_self, Function.update_idem]
      exact Eq.trans rfl (congrArg (Outcome.ok ()) hsame)
  have hclose : RoStep oneLink (InPlace oneLink) openedReadOnly (openedReadOnly.setFd 1 0 none) := by
    refine ⟨.close 1 0 .none, ⟨fun f hf => ?_, fun pid ino heq => by cases heq⟩, trivial, Or.inl rfl⟩
    rw [openedReadOnly_file hf]
    exact ⟨rfl, rfl⟩
  have hreach : RoReach oneLink (InPlace oneLink) noOpenFiles (openedReadOnly.setFd 1 0 none) :=
    .tail (.tail (.single (openedReadOnly_step trivial)) hseek) hclose
  exact ⟨_, hreach, FileSys.setFd_same _ _ _ _, read_only_keeps_files noOpenFiles_roInv hreach⟩

/-- **A read-only descriptor extends a file**: an empty file is opened with `O_RDONLY`, and a seek to 8192 makes it
two blocks long. -/
theorem read_only_seek_extends : RoInv oneLink noOpenFiles ∧
    RoStep oneLink (fun _ _ => True) noOpenFiles openedReadOnly ∧
    (RoCall.seek 1 0 (8192 : ℕ) .set).OnReadOnly openedReadOnly ∧ ∃ w,
    ((RoCall.seek 1 0 (8192 : ℕ) .set).code oneLink).run openedReadOnly = .ok () w ∧
    (noOpenFiles.sfs.inode 4).size = 0 ∧ (w.sfs.inode 4).size = 8192 ∧ (w.sfs.inode 4).blocks = 2 ∧
    noOpenFiles.sfs.slot 4 0 = 0 ∧ w.sfs.slot 4 0 ≠ 0 := by
  obtain ⟨s, hseek, hres⟩ := seek_two_blocks
  have hfile : openedReadOnly.file 1 0 = some ⟨true, false, 0, 4⟩ := rfl
  refine ⟨noOpenFiles_roInv, openedReadOnly_step trivial, ⟨fun f hf => ?_, fun pid ino heq => by cases heq⟩,
    FileSys.setFd ⟨s, openedReadOnly.fdArray⟩ 1 0 (some ⟨true, false, (8192 : ℕ), 4⟩), ?_, rfl, hres.size, hres.blocks,
    rfl, ?_⟩
  · rw [openedReadOnly_file hf]
    exact ⟨rfl, rfl⟩
  · rw [RoCall.code, fileSeek, Prog.bind_of_ok (fd2file_run hfile)]
    have hon : (onSfs (sfsTryseek 4 (8192 : ℕ))).run openedReadOnly = .ok () ⟨s, openedReadOnly.fdArray⟩ := by
      simp only [onSfs, Prog.zoom, show openedReadOnly.sfs = emptyFile [5, 6] from rfl, hseek]
    simp only [Prog.run_bind, Prog.run_get, Outcome.andThen_ok, hon, Prog.run_modify]
    rfl
  · have hfull : s.Full 4 := hres.full fun i hi => absurd hi (Nat.not_lt_zero i)
    have hblocks := hres.blocks
    exact hfull 0 (by omega)

end Ucore.Fs
