import Ucore.Fs.SfsFile
import Mathlib.Logic.Relation
import Mathlib.Tactic.NormNum

/-!
# Runs of file operations

Sequences of reads, writes, seeks and truncations on the regular files of an image, each of which
may return or fail.

* `blocks_owned_once`: such a sequence keeps an image consistent and loses no block.
* `blocks_match_size_of_growth_fits`: the block count of every file matches its size, as long as no
  growth runs out of free blocks midway. `sfs_truncfile` and `sfs_bmap_load_nolock` raise the block
  count step by step and the size only at the end, so a growth that fails after its first block
  leaves the two apart (`blocks_mismatch_after_short_seek`).
* `indices_in_range_of_index_fits`: no block index goes past the indirect block, as long as no
  write or seek goes past 1036 blocks. The checks of `sfs_io_nolock` and `sfs_truncfile` allow for
  128 MiB (`index_out_of_range_at_limit`).
-/

namespace Ucore.Fs

open Ucore.Lib Relation

/-- An operation on the file `sin`. -/
inductive SfsOp where
  | read (sin : ℕ) (offset : ℤ) (alen : ℕ)
  | write (sin : ℕ) (buf : List UInt8) (offset : ℤ) (alen : ℕ)
  | seek (sin : ℕ) (pos : ℤ)
  | truncate (sin : ℕ) (len : ℤ)
  deriving Repr, DecidableEq

namespace SfsOp

/-- The file that an operation is about. -/
def file : SfsOp → ℕ
  | .read sin _ _ => sin
  | .write sin _ _ _ => sin
  | .seek sin _ => sin
  | .truncate sin _ => sin

/-- The code of an operation. -/
def code : SfsOp → SfsProg Unit
  | .read sin offset alen => do
    let _ ← sfsIoNolock sin [] offset alen false
    pure ()
  | .write sin buf offset alen => do
    let _ ← sfsIoNolock sin buf offset alen true
    pure ()
  | .seek sin pos => sfsTryseek sin pos
  | .truncate sin len => sfsTruncfile sin len

/-- The operation is about a regular file of the image. -/
def OnFile (op : SfsOp) (s : Sfs) : Prop := op.file ∈ s.inos ∧ (s.inode op.file).type = .file

end SfsOp

/-- An operation that satisfies `C`, on a regular file, and the state it leaves behind, whether it
returns or fails. -/
def SfsStep (C : Sfs → SfsOp → Prop) (s s' : Sfs) : Prop :=
  ∃ op : SfsOp, op.OnFile s ∧ C s op ∧
    (op.code.run s = .ok () s' ∨ ∃ e, op.code.run s = .error e s')

/-- The states reached by operations that satisfy `C`. -/
def SfsReach (C : Sfs → SfsOp → Prop) : Sfs → Sfs → Prop := ReflTransGen (SfsStep C)

variable {s s' : Sfs}

/-- What holds of every outcome that leaves a state behind holds of a step. -/
theorem SfsStep.of_post {C : Sfs → SfsOp → Prop} (h : SfsStep C s s') (R : Sfs → Prop)
    (hpost : ∀ op : SfsOp, op.OnFile s → C s op →
      (op.code.run s).Post (fun _ t => R t) (fun _ t => R t) fun _ => True) : R s' := by
  obtain ⟨op, hop, hC, hrun⟩ := h
  have := hpost op hop hC
  rcases hrun with hrun | ⟨e, hrun⟩
  · rwa [hrun] at this
  · rwa [hrun] at this

theorem SfsOp.OnFile.not_dir {op : SfsOp} (h : op.OnFile s) : (s.inode op.file).type ≠ .dir := by
  rw [h.2]
  exact SfsType.noConfusion

/-- Every operation touches its own file and free blocks only. -/
theorem SfsOp.code_kept (h : s.Consistent) {op : SfsOp} (hop : op.OnFile s) :
    (op.code.run s).Post (fun _ t => Kept s t op.file) (fun _ t => Kept s t op.file)
      fun _ => True := by
  have hio : ∀ buf offset alen write,
      ((do let _ ← sfsIoNolock op.file buf offset alen write; pure () : SfsProg Unit).run s).Post
        (fun _ t => Kept s t op.file) (fun _ t => Kept s t op.file) fun _ => True := by
    intro buf offset alen write
    rw [Outcome.post_bind]
    refine (sfsIoNolock_post h hop.1 hop.not_dir).mono ?_ (fun _ _ hF => hF.elim) fun _ _ => trivial
    rintro r t (⟨-, rfl⟩ | ⟨-, s₁, rfl, ⟨-, hinv⟩ | hshort⟩)
    · exact .refl h _
    · exact hinv.progress.kept.trans (.raiseSize hinv.progress.kept.consistent _ _)
    · exact hshort.inv.progress.kept.trans (.raiseSize hshort.inv.progress.kept.consistent _ _)
  cases op with
  | read sin offset alen => exact hio [] offset alen false
  | write sin buf offset alen => exact hio buf offset alen true
  | seek sin pos =>
    refine (sfsTryseek_post h hop.1 pos).mono ?_ ?_ fun _ _ => trivial
    · rintro _ t (⟨-, rfl⟩ | ⟨-, hres⟩)
      · exact .refl h _
      · exact hres.kept
    · rintro e t (⟨-, rfl, -⟩ | ⟨-, -, -, hshort⟩)
      · exact .refl h _
      · exact hshort.progress.kept
  | truncate sin len =>
    refine (sfsTruncfile_post h hop.1 len).mono (fun _ _ hres => hres.kept) ?_ fun _ _ => trivial
    rintro e t (⟨-, rfl, -⟩ | ⟨-, -, hshort⟩)
    · exact .refl h _
    · exact hshort.progress.kept

/-- **Block ownership.** Starting from a consistent image, every sequence of operations on regular
files, also one in which calls fail part way for lack of free blocks, leads to a consistent image:
`unused_blocks` counts the free blocks, a block that is reached from an inode is marked in use and
reached once, and the entries past the block count of an inode are 0. The blocks in use that are not
reached from an inode are the same as before, so no block gets lost. -/
theorem blocks_owned_once {s₀ s : Sfs} (h₀ : s₀.Consistent)
    (h : SfsReach (fun _ _ => True) s₀ s) : s.Consistent ∧ s.Lost = s₀.Lost := by
  refine invariant_of_step (fun s => s.Consistent ∧ s.Lost = s₀.Lost) h ⟨h₀, rfl⟩ ?_
  rintro a b ⟨hcons, hlost⟩ hstep
  refine hstep.of_post (fun s => s.Consistent ∧ s.Lost = s₀.Lost) fun op hop _ =>
    (SfsOp.code_kept hcons hop).mono ?_ ?_ fun _ hP => hP
  · exact fun _ t hkept => ⟨hkept.consistent, hkept.lost.trans hlost⟩
  · exact fun _ t hkept => ⟨hkept.consistent, hkept.lost.trans hlost⟩

/-- The number of blocks of the images below fits its word. -/
theorem blocks64_lt : 64 < 2 ^ 32 := by decide

/-- An image of 64 blocks with one empty file, number 4, and the free blocks `free`. -/
def emptyFile (free : List ℕ) : Sfs :=
  { blocks := 64
    unusedBlocks := free.length
    superDirty := false
    freemap := .ofFree 32768 free
    disk := fun _ => zeroBlock
    inos := [4]
    inode := fun _ => ⟨0, .file, 0, fun _ => 0, 0, false⟩
    blocks_lt := blocks64_lt }

theorem mem_emptyFile {free : List ℕ} : 4 ∈ (emptyFile free).inos := List.mem_singleton.mpr rfl

section emptyFile

variable {free : List ℕ} (hfree : free.Nodup) (hlt : ∀ i ∈ free, 4 < i ∧ i < 64)

include hfree hlt

theorem emptyFile_spec : (∀ i, (emptyFile free).freemap.isFree i = decide (i ∈ free)) ∧
    (emptyFile free).freemap.count = free.length :=
  Bitmap.ofFree_spec hfree fun i hi => by have := hlt i hi; omega

theorem emptyFile_not_badFree : ¬ (emptyFile free).BadFree := by
  rintro ⟨c, hc, hbad⟩
  rw [(emptyFile_spec hfree hlt).1, decide_eq_true_iff] at hc
  have := hlt c hc
  exact hbad ⟨by omega, this.2⟩

theorem emptyFile_consistent : (emptyFile free).Consistent := by
  have hslot : ∀ i, (emptyFile free).slot 4 i = 0 := fun i => by simp [Sfs.slot, emptyFile]
  obtain ⟨hspec, hcount⟩ := emptyFile_spec hfree hlt
  refine Sfs.Consistent.of_single rfl ?_ hcount.symm ⟨?_, ?_⟩
    (fun hne => absurd rfl hne) (fun i hne => absurd (hslot i) hne)
    (fun i _ hne => absurd (hslot i) hne) fun i _ => hslot i
  · show (Bitmap.ofFree 32768 free).nbits = (64 + 32767) / 32768 * 32768
    rw [Bitmap.nbits_ofFree]
  · show 4 < 64
    omega
  · rw [hspec, decide_eq_false fun h4 => by have := hlt 4 h4; omega]

end emptyFile

/-- A seek to two blocks with one free block: the file has got that block when the call fails. -/
theorem seek_short (pos : ℕ) (hpos : 4096 < pos) (hpos' : pos ≤ 8192) :
    ∃ s, (sfsTryseek 4 pos).run (emptyFile [5]) = .error .noMem s ∧ Kept (emptyFile [5]) s 4 ∧
      (s.inode 4).blocks = 1 ∧ (s.inode 4).size = 0 := by
  have hfree : ([5] : List ℕ).Nodup := by decide
  have hlt : ∀ i ∈ [5], 4 < i ∧ i < 64 := by decide
  have hcount := (emptyFile_spec hfree hlt).2
  have htwo : (pos + 4095) / 4096 = 2 := by omega
  have hneed : (emptyFile [5]).needTo 4 2 = 2 := rfl
  have hpost := sfsTryseek_post (emptyFile_consistent hfree hlt) mem_emptyFile (pos : ℤ)
  rw [Int.toNat_natCast] at hpost
  cases hrun : (sfsTryseek 4 pos).run (emptyFile [5]) with
  | ok _ s =>
    rw [hrun] at hpost
    rcases hpost with ⟨hle, -⟩ | ⟨-, hres⟩
    · exact absurd (show pos ≤ 0 from hle) (by omega)
    · have := hres.fits
      rw [htwo, hneed, hcount] at this
      exact absurd this (by decide)
  | error e s =>
    rw [hrun] at hpost
    rcases hpost with ⟨-, -, hrange⟩ | ⟨rfl, -, -, hshort⟩
    · have : sfsMaxFileSize = 134217728 := rfl
      omega
    · have h₁ := hshort.short
      have h₂ := hshort.count
      have h₃ := hshort.progress.count 2 (by omega)
      have h₄ : s.needTo 4 2 = 2 - (s.inode 4).blocks := by
        rw [Sfs.needTo, if_neg (by omega), if_neg (by omega), Nat.add_zero]
      rw [hcount, hneed, h₄, List.length_singleton] at h₃
      rw [Sfs.need, if_pos (Or.inl (by omega))] at h₂
      exact ⟨s, rfl, hshort.progress.kept, by omega, hshort.progress.size⟩
  | panic p =>
    rw [hrun] at hpost
    have := (hpost.2.2.size_eq (emptyFile_not_badFree hfree hlt) (by omega)).1
    exact absurd (show 0 = pos from this) (by omega)

/-- A run in which a call fails part way. -/
theorem blocks_owned_once_short_seek : ∃ s, SfsReach (fun _ _ => True) (emptyFile [5]) s ∧
    (s.inode 4).blocks = 1 ∧ s.Consistent ∧ s.Lost = (emptyFile [5]).Lost := by
  obtain ⟨s, hrun, -, hblocks, -⟩ := seek_short 8192 (by omega) le_rfl
  have hreach : SfsReach (fun _ _ => True) (emptyFile [5]) s :=
    .single ⟨.seek 4 (8192 : ℕ), ⟨mem_emptyFile, rfl⟩, trivial, Or.inr ⟨_, hrun⟩⟩
  exact ⟨s, hreach, hblocks,
    blocks_owned_once (emptyFile_consistent (by decide) (by decide)) hreach⟩

/-- The property `Q` of every regular file. -/
def Sfs.ForallFiles (s : Sfs) (Q : Sfs → ℕ → Prop) : Prop :=
  ∀ ino ∈ s.inos, (s.inode ino).type = .file → Q s ino

/-- A property of single files that an operation on another file does not touch, and that each
operation keeps for its own file, is kept for all files. -/
theorem SfsOp.code_forallFiles {Q : Sfs → ℕ → Prop} {P : SfsPanic → Prop} (h : s.Consistent)
    {op : SfsOp} (hop : op.OnFile s)
    (hother : ∀ t, Kept s t op.file → ∀ ino ∈ s.inos, ino ≠ op.file → Q s ino → Q t ino)
    (hall : s.ForallFiles Q)
    (hpost : (op.code.run s).Post (fun _ t => Q t op.file) (fun _ t => Q t op.file) P) :
    (op.code.run s).Post (fun _ t => t.Consistent ∧ t.ForallFiles Q)
      (fun _ t => t.Consistent ∧ t.ForallFiles Q) P := by
  have hfiles : ∀ t, Kept s t op.file → Q t op.file → t.Consistent ∧ t.ForallFiles Q := by
    intro t hkept ht
    refine ⟨hkept.consistent, fun ino hino htype => ?_⟩
    by_cases heq : ino = op.file
    · rw [heq]
      exact ht
    · rw [hkept.inos] at hino
      rw [hkept.other ino heq] at htype
      exact hother t hkept ino hino heq (hall ino hino htype)
  have hkept := SfsOp.code_kept h hop
  cases hrun : op.code.run s with
  | ok u t =>
    rw [hrun] at hkept hpost
    exact hfiles t hkept hpost
  | error e t =>
    rw [hrun] at hkept hpost
    exact hfiles t hkept hpost
  | panic p =>
    rw [hrun] at hpost
    exact hpost

/-! ### The block count and the size -/

/-- Every regular file has exactly the blocks for its size. -/
def Sfs.SizeAgree (s : Sfs) : Prop := s.ForallFiles fun s ino =>
  (s.inode ino).blocks = ((s.inode ino).size + 4095) / 4096

/-- There are free blocks for the whole growth of the file to `len` bytes, or not even for its
first block. -/
def Sfs.GrowsAllOrNone (s : Sfs) (sin len : ℕ) : Prop :=
  (s.inode sin).blocks < (len + 4095) / 4096 →
    s.needTo sin ((len + 4095) / 4096) ≤ s.freemap.count ∨ s.freemap.count < s.need sin

/-- The condition on the image before an operation: a growth has all its blocks or none, and a write
that starts behind the end of the file, inside the block after its last one, has a free block. -/
def GrowthFits (s : Sfs) : SfsOp → Prop
  | .read _ _ _ => True
  | .write sin _ offset alen => IoAccepted (s.inode sin).size offset alen true →
    (s.inode sin).size < offset.toNat → offset.toNat / 4096 = (s.inode sin).blocks →
      offset.toNat % 4096 ≠ 0 → s.need sin ≤ s.freemap.count
  | .seek sin pos => pos < sfsMaxFileSize → s.GrowsAllOrNone sin pos.toNat
  | .truncate sin len => len ≤ sfsMaxFileSize → s.GrowsAllOrNone sin len.toNat

/-- A file that has not got more blocks needs what it needed, and has what it had. -/
theorem Progress.short_of_not_grown {sin : ℕ} (h : Progress s s' sin)
    (hblocks : (s'.inode sin).blocks = (s.inode sin).blocks)
    (hshort : s'.freemap.count < s'.need sin) : s.freemap.count < s.need sin := by
  have h₀ := h.count _ hblocks.le
  have h₁ := h.count ((s.inode sin).blocks + 1) (by omega)
  rw [Sfs.needTo_of_le le_rfl, Sfs.needTo_of_le hblocks.ge] at h₀
  rw [← Sfs.need_eq_needTo, ← hblocks, ← Sfs.need_eq_needTo] at h₁
  omega

/-- After a transfer that started inside the file the block count matches the size. -/
theorem IoInv.sizeAgree {s₁ : Sfs} {sin offset endpos : ℕ} {r : IoResult}
    (h : IoInv s sin offset endpos endpos r s₁) (hlt : offset < endpos)
    (hagree : (s.inode sin).blocks = ((s.inode sin).size + 4095) / 4096) :
    ((s₁.raiseSize sin (offset + r.alen)).inode sin).blocks =
      (((s₁.raiseSize sin (offset + r.alen)).inode sin).size + 4095) / 4096 := by
  have h₁ := h.mapped hlt
  have h₂ := h.progress.mono
  have h₃ := h.grown
  rw [Sfs.raiseSize_blocks, Sfs.raiseSize_size, h.progress.size, h.alen]
  by_cases hg : (s.inode sin).blocks < (s₁.inode sin).blocks
  · have := h₃ hg
    omega
  · omega

/-- So it does after a transfer that ran out of free blocks, unless the very first block, in the
middle of which the transfer starts, is behind the end of the file. -/
theorem IoShort.sizeAgree {s₁ : Sfs} {sin offset endpos : ℕ} {r : IoResult}
    (h : IoShort s sin offset endpos r s₁)
    (hagree : (s.inode sin).blocks = ((s.inode sin).size + 4095) / 4096)
    (hfit : (s.inode sin).size < offset → offset / 4096 = (s.inode sin).blocks →
      offset % 4096 ≠ 0 → s.need sin ≤ s.freemap.count) :
    ((s₁.raiseSize sin (offset + r.alen)).inode sin).blocks =
      (((s₁.raiseSize sin (offset + r.alen)).inode sin).size + 4095) / 4096 := by
  have hmono := h.inv.progress.mono
  have hnext := h.next
  rw [Sfs.raiseSize_blocks, Sfs.raiseSize_size, h.inv.progress.size]
  by_cases hstart : r.alen = 0
  · -- nothing was transferred: the first block was missing
    have hblocks := h.inv.start (by omega)
    have hcount := h.inv.progress.short_of_not_grown hblocks h.count
    by_cases hoff : (s.inode sin).size < offset ∧ offset % 4096 ≠ 0
    · have := hfit hoff.1 (by omega) hoff.2
      omega
    · rw [hstart]
      omega
  · have haligned := h.inv.aligned (by omega) h.short
    have hmapped := h.inv.mapped (by omega)
    by_cases hg : (s.inode sin).blocks < (s₁.inode sin).blocks
    · have := h.inv.grown hg
      omega
    · omega

/-- A growth that failed has not begun. -/
theorem GrowShort.not_grown {sin len : ℕ} (h : GrowShort s s' sin len)
    (hfit : s.GrowsAllOrNone sin len) : (s'.inode sin).blocks = (s.inode sin).blocks := by
  have hmono := h.progress.mono
  have hshort := h.short
  by_contra hne
  rcases hfit (by omega) with hall | hnone
  · exact absurd h.count_lt (not_lt.mpr hall)
  · have hc := h.progress.count _ le_rfl
    rw [Sfs.needTo_of_le (s := s') le_rfl] at hc
    have hneed : s.need sin ≤ s.needTo sin (s'.inode sin).blocks := Sfs.need_le_needTo (by omega)
    omega

theorem LoadPanic.ne_truncSame {sin index : ℕ} {p : SfsPanic} (h : LoadPanic s sin index p) :
    p ≠ .truncSame := by
  rcases h with ⟨rfl, -⟩ | ⟨rfl, -⟩ | ⟨rfl, -⟩ <;> exact SfsPanic.noConfusion

theorem TruncPanic.ne_truncSame {sin len : ℕ} {p : SfsPanic}
    (hagree : (s.inode sin).blocks = ((s.inode sin).size + 4095) / 4096)
    (h : TruncPanic s sin len p) : p ≠ .truncSame := by
  rcases h with ⟨-, hsize, hne⟩ | ⟨s', -, -, hp⟩
  · exact absurd hagree.symm (by rw [hsize]; exact hne)
  · exact hp.ne_truncSame

theorem GrowShort.sizeAgree {sin len : ℕ} (h : GrowShort s s' sin len)
    (hagree : (s.inode sin).blocks = ((s.inode sin).size + 4095) / 4096)
    (hfit : s.GrowsAllOrNone sin len) :
    (s'.inode sin).blocks = ((s'.inode sin).size + 4095) / 4096 := by
  rw [h.not_grown hfit, h.progress.size, hagree]

/-- The outcome of an operation on the file it is about: the block count matches the size, and the
assertion of `sfs_truncfile` is not the one that fails. -/
theorem SfsOp.code_sizeAgree (h : s.Consistent) {op : SfsOp} (hop : op.OnFile s)
    (hagree : (s.inode op.file).blocks = ((s.inode op.file).size + 4095) / 4096) :
    (op.code.run s).Post
      (fun _ t => GrowthFits s op →
        (t.inode op.file).blocks = ((t.inode op.file).size + 4095) / 4096)
      (fun _ t => GrowthFits s op →
        (t.inode op.file).blocks = ((t.inode op.file).size + 4095) / 4096)
      fun p => p ≠ .truncSame := by
  have hio : ∀ buf offset alen write,
      ((do let _ ← sfsIoNolock op.file buf offset alen write; pure () : SfsProg Unit).run s).Post
        (fun _ t => (IoAccepted (s.inode op.file).size offset alen write →
            (s.inode op.file).size < offset.toNat →
            offset.toNat / 4096 = (s.inode op.file).blocks → offset.toNat % 4096 ≠ 0 →
            s.need op.file ≤ s.freemap.count) →
          (t.inode op.file).blocks = ((t.inode op.file).size + 4095) / 4096)
        (fun _ _ => False) fun p => p ≠ .truncSame := by
    intro buf offset alen write
    rw [Outcome.post_bind]
    refine (sfsIoNolock_post h hop.1 hop.not_dir).mono ?_ (fun _ _ hF => hF) ?_
    · rintro r t (⟨-, rfl⟩ | ⟨hacc, s₁, rfl, ⟨-, hinv⟩ | hshort⟩) hfit
      · exact hagree
      · exact hinv.sizeAgree hacc.lt hagree
      · exact hshort.sizeAgree hagree (hfit hacc)
    · rintro p ⟨-, pos, r, s₁, -, -, -, hp⟩
      exact hp.ne_truncSame
  cases op with
  | read sin offset alen =>
    refine (hio [] offset alen false).mono (fun _ t ht _ => ht fun hacc hlt => ?_)
      (fun _ _ hF => hF.elim) fun _ hp => hp
    -- a read that has something to do starts inside the file
    exact absurd (hacc.2.2.2.resolve_left Bool.noConfusion) (not_lt.mpr hlt.le)
  | write sin buf offset alen =>
    exact (hio buf offset alen true).mono (fun _ _ ht => ht) (fun _ _ hF => hF.elim) fun _ hp => hp
  | seek sin pos =>
    refine (sfsTryseek_post h hop.1 pos).mono ?_ ?_ fun p hp => hp.2.2.ne_truncSame hagree
    · rintro _ t (⟨-, rfl⟩ | ⟨-, hres⟩) -
      · exact hagree
      · exact hres.blocks.trans (by rw [hres.size])
    · rintro e t (⟨-, rfl, -⟩ | ⟨-, hmax, -, hshort⟩) hfit
      · exact hagree
      · exact hshort.sizeAgree hagree (hfit hmax)
  | truncate sin len =>
    refine (sfsTruncfile_post h hop.1 len).mono ?_ ?_ fun p hp => hp.2.ne_truncSame hagree
    · rintro _ t hres -
      exact hres.blocks.trans (by rw [hres.size])
    · rintro e t (⟨-, rfl, -⟩ | ⟨-, hmax, hshort⟩) hfit
      · exact hagree
      · exact hshort.sizeAgree hagree (hfit hmax)

/-- **The block count matches the size while growth is all or nothing.** In every run whose
operations satisfy `GrowthFits`, each regular file has exactly the blocks for its size after every
operation, successful or not, and the assertion `tblks == din->blocks` of `sfs_truncfile` does not
fail on any later call. -/
theorem blocks_match_size_of_growth_fits {s₀ s : Sfs} (h₀ : s₀.Consistent) (hs₀ : s₀.SizeAgree)
    (h : SfsReach GrowthFits s₀ s) :
    s.SizeAgree ∧ ∀ op : SfsOp, op.OnFile s → op.code.run s ≠ .panic .truncSame := by
  have hinv : s.Consistent ∧ s.SizeAgree := by
    refine invariant_of_step (fun s => s.Consistent ∧ s.SizeAgree) h ⟨h₀, hs₀⟩ ?_
    rintro a b ⟨hcons, hagree⟩ hstep
    refine hstep.of_post _ fun op hop hfit => SfsOp.code_forallFiles hcons hop ?_ hagree
      ((SfsOp.code_sizeAgree hcons hop (hagree _ hop.1 hop.2)).mono (fun _ _ hQ => hQ hfit)
        (fun _ _ hE => hE hfit) fun _ _ => trivial)
    intro t hkept ino _ hne hQ
    rw [hkept.other ino hne]
    exact hQ
  refine ⟨hinv.2, fun op hop hrun => ?_⟩
  have hpost := SfsOp.code_sizeAgree hinv.1 hop (hinv.2 _ hop.1 hop.2)
  rw [hrun] at hpost
  exact hpost rfl

theorem emptyFile_sizeAgree (free : List ℕ) : (emptyFile free).SizeAgree := by
  intro ino _ _
  simp [emptyFile]

/-- An empty file grows to two blocks. -/
theorem truncate_two_blocks : ∃ s, (sfsTruncfile 4 (8192 : ℕ)).run (emptyFile [5, 6]) = .ok () s ∧
    Resized (emptyFile [5, 6]) s 4 8192 := by
  have hfree : ([5, 6] : List ℕ).Nodup := by decide
  have hlt : ∀ i ∈ [5, 6], 4 < i ∧ i < 64 := by decide
  refine sfsTruncfile_ok (emptyFile_consistent hfree hlt) mem_emptyFile
    (emptyFile_not_badFree hfree hlt) (emptyFile_sizeAgree _ 4 mem_emptyFile rfl) (by omega) ?_
  rw [(emptyFile_spec hfree hlt).2]
  exact le_rfl

/-- A run with a growth that has all its blocks. -/
theorem blocks_match_size_two_blocks : ∃ s, SfsReach GrowthFits (emptyFile [5, 6]) s ∧
    (s.inode 4).blocks = 2 ∧ s.SizeAgree ∧
    ∀ op : SfsOp, op.OnFile s → op.code.run s ≠ .panic .truncSame := by
  obtain ⟨s, hrun, hres⟩ := truncate_two_blocks
  have hreach : SfsReach GrowthFits (emptyFile [5, 6]) s :=
    .single ⟨.truncate 4 (8192 : ℕ), ⟨mem_emptyFile, rfl⟩, fun _ _ => Or.inl hres.fits, Or.inl hrun⟩
  exact ⟨s, hreach, hres.blocks, blocks_match_size_of_growth_fits
    (emptyFile_consistent (by decide) (by decide)) (emptyFile_sizeAgree _) hreach⟩

/-- A seek that fails after its first block leaves the file with one block and size 0, and the
assertion of `sfs_truncfile` fails on the next truncation to 0. -/
theorem blocks_mismatch_after_short_seek :
    (emptyFile [5]).Consistent ∧ (emptyFile [5]).SizeAgree ∧
    ∃ s, (sfsTryseek 4 (8192 : ℕ)).run (emptyFile [5]) = .error .noMem s ∧ ¬ s.SizeAgree ∧
      (sfsTruncfile 4 0).run s = .panic .truncSame := by
  obtain ⟨s, hrun, hkept, hblocks, hsize⟩ := seek_short 8192 (by omega) le_rfl
  have hcons : (emptyFile [5]).Consistent := emptyFile_consistent (by decide) (by decide)
  refine ⟨hcons, emptyFile_sizeAgree _, s, hrun, fun hagree => ?_, ?_⟩
  · have := hagree 4 (by rw [hkept.inos]; exact mem_emptyFile) (by rw [hkept.type]; rfl)
    omega
  · simp [sfsTruncfile, hsize, hblocks]

/-! ### Block indices -/

/-- The file has its blocks, and its size is one that they can hold. -/
def Sfs.FileOk (s : Sfs) (ino : ℕ) : Prop := s.Full ino ∧ (s.inode ino).size ≤ 4096 * 1036

/-- The condition on the image before an operation: a growth past the 12 direct and 1024 indirect
blocks runs out of free blocks before it gets there. A write behind the end of the file is not a
growth; it stops at an earlier assertion. -/
def IndexFits (s : Sfs) : SfsOp → Prop
  | .read _ _ _ => True
  | .write sin _ offset alen => IoAccepted (s.inode sin).size offset alen true →
    4096 * 1036 < ioEndpos (s.inode sin).size offset alen true →
      (s.inode sin).blocks < offset.toNat / 4096 ∨ s.freemap.count < s.needTo sin 1036
  | .seek sin pos => pos < sfsMaxFileSize → 4096 * 1036 < pos.toNat →
    s.freemap.count < s.needTo sin 1036
  | .truncate sin len => len ≤ sfsMaxFileSize → 4096 * 1036 < len.toNat →
    s.freemap.count < s.needTo sin 1036

/-- There is no slot past the indirect block. -/
theorem Sfs.Full.blocks_le {sin : ℕ} (h : s.Full sin) : (s.inode sin).blocks ≤ 1036 := by
  by_contra hlt
  exact h 1036 (by omega) (by simp [Sfs.slot])

/-- A file that has come to 1036 blocks has had the free blocks for it. -/
theorem Progress.needTo_le {sin : ℕ} (h : Progress s s' sin) (hblocks : (s'.inode sin).blocks = 1036) :
    s.needTo sin 1036 ≤ s.freemap.count := by
  have hcount := h.count 1036 hblocks.le
  rw [Sfs.needTo_of_le hblocks.ge] at hcount
  omega

/-- Only the index 1036 of a file of 1036 blocks is out of range. -/
theorem LoadPanic.of_getRange {sin index : ℕ} (hfull : s.Full sin)
    (h : LoadPanic s sin index .getRange) : index = 1036 ∧ (s.inode sin).blocks = 1036 := by
  have := hfull.blocks_le
  rcases h with ⟨h, -⟩ | ⟨-, hle, hge⟩ | ⟨h, -⟩
  · exact SfsPanic.noConfusion h
  · omega
  · exact SfsPanic.noConfusion h

theorem IoPanic.of_getRange {sin offset endpos : ℕ} (hfull : s.Full sin)
    (h : IoPanic s sin offset endpos .getRange) :
    4096 * 1036 < endpos ∧ offset / 4096 ≤ (s.inode sin).blocks ∧
      s.needTo sin 1036 ≤ s.freemap.count := by
  obtain ⟨pos, r, s₁, hinv, hle, hlt, hp⟩ := h
  obtain ⟨hidx, hblocks⟩ := hp.of_getRange (hinv.progress.full hfull)
  refine ⟨by omega, ?_, hinv.progress.needTo_le hblocks⟩
  rcases hle.eq_or_lt with rfl | hlt'
  · have := hinv.start rfl
    omega
  · exact hinv.within hlt'

theorem TruncPanic.of_getRange {sin len : ℕ} (hfull : s.Full sin)
    (h : TruncPanic s sin len .getRange) :
    4096 * 1036 < len ∧ s.needTo sin 1036 ≤ s.freemap.count := by
  rcases h with ⟨h, -⟩ | ⟨s', hprog, hlt, hp⟩
  · exact SfsPanic.noConfusion h
  · obtain ⟨-, hblocks⟩ := hp.of_getRange (hprog.full hfull)
    exact ⟨by omega, hprog.needTo_le hblocks⟩

theorem Sfs.FileOk.raiseSize {sin endpos : ℕ} (h : s.FileOk sin) (hend : endpos ≤ 4096 * 1036) :
    (s.raiseSize sin endpos).FileOk sin := by
  refine ⟨fun i hi => ?_, ?_⟩
  · rw [Sfs.raiseSize_slot]
    exact h.1 i (by rwa [Sfs.raiseSize_blocks] at hi)
  · rw [Sfs.raiseSize_size]
    exact max_le h.2 hend

theorem Progress.fileOk {sin : ℕ} (h : Progress s s' sin) (hok : s.FileOk sin) : s'.FileOk sin :=
  ⟨h.full hok.1, by rw [h.size]; exact hok.2⟩

theorem Resized.fileOk {sin len : ℕ} (h : Resized s s' sin len) (hok : s.FileOk sin) :
    s'.FileOk sin := by
  have hle := (h.full hok.1).blocks_le
  have hblocks := h.blocks
  exact ⟨h.full hok.1, by rw [h.size]; omega⟩

/-- The outcome of an operation on the file it is about: the file keeps its blocks, and no index is
out of range if the operation satisfies `IndexFits`. -/
theorem SfsOp.code_fileOk (h : s.Consistent) {op : SfsOp} (hop : op.OnFile s)
    (hok : s.FileOk op.file) :
    (op.code.run s).Post (fun _ t => t.FileOk op.file) (fun _ t => t.FileOk op.file)
      fun p => IndexFits s op → p ≠ .getRange := by
  have hio : ∀ buf offset alen write,
      ((do let _ ← sfsIoNolock op.file buf offset alen write; pure () : SfsProg Unit).run s).Post
        (fun _ t => t.FileOk op.file) (fun _ _ => False)
        fun p => p = .getRange → IoAccepted (s.inode op.file).size offset alen write ∧
          4096 * 1036 < ioEndpos (s.inode op.file).size offset alen write ∧
          offset.toNat / 4096 ≤ (s.inode op.file).blocks ∧
          s.needTo op.file 1036 ≤ s.freemap.count := by
    intro buf offset alen write
    rw [Outcome.post_bind]
    refine (sfsIoNolock_post h hop.1 hop.not_dir).mono ?_ (fun _ _ hF => hF) ?_
    · rintro r t (⟨-, rfl⟩ | ⟨hacc, s₁, rfl, ⟨-, hinv⟩ | hshort⟩)
      · exact hok
      · have hok₁ := hinv.progress.fileOk hok
        have hmapped := hinv.mapped hacc.lt
        have hle := hok₁.1.blocks_le
        refine hok₁.raiseSize ?_
        rw [hinv.alen]
        omega
      · have hnext := hshort.next
        have hrange := hshort.range
        exact (hshort.inv.progress.fileOk hok).raiseSize (by omega)
    · rintro p ⟨hacc, hp⟩ rfl
      exact ⟨hacc, hp.of_getRange hok.1⟩
  cases op with
  | read sin offset alen =>
    refine (hio [] offset alen false).mono (fun _ _ ht => ht) (fun _ _ hF => hF.elim) fun p hp => ?_
    rintro - rfl
    -- a read ends inside the file
    obtain ⟨-, hend, -⟩ := hp rfl
    have hsize : (s.inode sin).size ≤ 4096 * 1036 := hok.2
    have : ioEndpos (s.inode sin).size offset alen false ≤ (s.inode sin).size := min_le_right _ _
    exact absurd (hend.trans_le this) (not_lt.mpr hsize)
  | write sin buf offset alen =>
    refine (hio buf offset alen true).mono (fun _ _ ht => ht) (fun _ _ hF => hF.elim) fun p hp => ?_
    rintro hfit rfl
    obtain ⟨hacc, hend, hin, hcount⟩ := hp rfl
    rcases hfit hacc hend with hout | hless
    · exact absurd hin (not_le.mpr hout)
    · exact absurd hcount (not_le.mpr hless)
  | seek sin pos =>
    refine (sfsTryseek_post h hop.1 pos).mono ?_ ?_ ?_
    · rintro _ t (⟨-, rfl⟩ | ⟨-, hres⟩)
      · exact hok
      · exact hres.fileOk hok
    · rintro e t (⟨-, rfl, -⟩ | ⟨-, -, -, hshort⟩)
      · exact hok
      · exact hshort.progress.fileOk hok
    · rintro p ⟨hmax, -, hp⟩ hfit rfl
      obtain ⟨hlen, hcount⟩ := hp.of_getRange hok.1
      exact absurd hcount (not_le.mpr (hfit hmax hlen))
  | truncate sin len =>
    refine (sfsTruncfile_post h hop.1 len).mono (fun _ _ hres => hres.fileOk hok) ?_ ?_
    · rintro e t (⟨-, rfl, -⟩ | ⟨-, -, hshort⟩)
      · exact hok
      · exact hshort.progress.fileOk hok
    · rintro p ⟨hmax, hp⟩ hfit rfl
      obtain ⟨hlen, hcount⟩ := hp.of_getRange hok.1
      exact absurd hcount (not_le.mpr (hfit hmax hlen))

/-- **Block indices stay in range while no file outgrows the block map.** In every state reached by
operations that satisfy `IndexFits`, an operation that satisfies it does not stop at `index out of
range`. -/
theorem indices_in_range_of_index_fits {s₀ s : Sfs} (h₀ : s₀.Consistent)
    (hs₀ : s₀.ForallFiles Sfs.FileOk) (h : SfsReach IndexFits s₀ s) {op : SfsOp} (hop : op.OnFile s)
    (hfit : IndexFits s op) : op.code.run s ≠ .panic .getRange := by
  have hinv : s.Consistent ∧ s.ForallFiles Sfs.FileOk := by
    refine invariant_of_step (fun s => s.Consistent ∧ s.ForallFiles Sfs.FileOk) h ⟨h₀, hs₀⟩ ?_
    rintro a b ⟨hcons, hok⟩ hstep
    refine hstep.of_post _ fun op hop _ => SfsOp.code_forallFiles hcons hop ?_ hok
      ((SfsOp.code_fileOk hcons hop (hok _ hop.1 hop.2)).mono (fun _ _ hQ => hQ)
        (fun _ _ hE => hE) fun _ _ => trivial)
    rintro t hkept ino hino hne ⟨hfull, hsize⟩
    refine ⟨fun i hi => ?_, by rwa [hkept.other ino hne]⟩
    rw [hkept.other ino hne] at hi
    rw [hkept.slot ino hino hne]
    exact hfull i hi
  intro hrun
  have hpost := SfsOp.code_fileOk hinv.1 hop (hinv.2 _ hop.1 hop.2)
  rw [hrun] at hpost
  exact hpost hfit rfl

/-- A file that has grown to two blocks can be asked to grow further. -/
theorem indices_in_range_two_blocks : ∃ s, SfsReach IndexFits (emptyFile [5, 6]) s ∧
    (s.inode 4).blocks = 2 ∧ (SfsOp.seek 4 (12288 : ℕ)).code.run s ≠ .panic .getRange := by
  obtain ⟨s, hrun, hres⟩ := truncate_two_blocks
  have hreach : SfsReach IndexFits (emptyFile [5, 6]) s :=
    .single ⟨.truncate 4 (8192 : ℕ), ⟨mem_emptyFile, rfl⟩, fun _ h => by omega, Or.inl hrun⟩
  have hop : (SfsOp.seek 4 (12288 : ℕ)).OnFile s :=
    ⟨by rw [hres.kept.inos]; exact mem_emptyFile, by rw [SfsOp.file, hres.kept.type]; rfl⟩
  refine ⟨s, hreach, hres.blocks, indices_in_range_of_index_fits
    (emptyFile_consistent (by decide) (by decide)) (fun ino _ _ => ⟨fun i hi => ?_, ?_⟩) hreach hop
    fun _ h => by omega⟩
  · exact absurd hi (Nat.not_lt_zero _)
  · exact Nat.zero_le _

/-- An image without free blocks, whose file 4 has all 1036 blocks: 100 to 111, and 113 on through
the indirect block 112. -/
def fullFile : Sfs :=
  { blocks := 2000
    unusedBlocks := 0
    superDirty := false
    freemap := .ofFree 32768 []
    disk := fun b k => if b = 112 then (putU32 (113 + k / 4)).getD (k % 4) 0 else 0
    inos := [4]
    inode := fun _ => ⟨4096 * 1036, .file, 1036, fun i => 100 + i, 112, false⟩
    blocks_lt := by decide }

theorem fullFile_slot (i : ℕ) :
    fullFile.slot 4 i = if i < 12 then 100 + i else if i < 1036 then 101 + i else 0 := by
  have hentry : ∀ j < 1024, fullFile.entry 112 j = 113 + j := by
    intro j hj
    have hread : (fullFile.disk 112).read (j * 4) 4 = putU32 (113 + j) := by
      have h₀ : j * 4 / 4 = j ∧ j * 4 % 4 = 0 := by omega
      have h₁ : (j * 4 + 1) / 4 = j ∧ (j * 4 + 1) % 4 = 1 := by omega
      have h₂ : (j * 4 + 1 + 1) / 4 = j ∧ (j * 4 + 1 + 1) % 4 = 2 := by omega
      have h₃ : (j * 4 + 1 + 1 + 1) / 4 = j ∧ (j * 4 + 1 + 1 + 1) % 4 = 3 := by omega
      simp only [Block.read, List.range', List.map, fullFile, if_pos, h₀, h₁, h₂, h₃]
      rfl
    rw [Sfs.entry, hread, getU32_putU32 (by omega)]
  rw [Sfs.slot]
  split_ifs with h₁ h₂ h₃ h₄
  · rfl
  · show fullFile.entry 112 (i - 12) = 101 + i
    rw [hentry _ (by omega)]
    omega
  · exact absurd h₂.1 h₃
  · exact absurd ⟨h₄, by decide⟩ h₂
  · rfl

theorem fullFile_consistent : fullFile.Consistent ∧ fullFile.ForallFiles Sfs.FileOk := by
  obtain ⟨hspec, hcount⟩ := Bitmap.ofFree_spec List.nodup_nil (show ∀ i ∈ [], i < 32768 by simp)
  have hused : ∀ b < 2000, fullFile.InUse b := fun b hb => ⟨hb, (hspec b).trans (by simp)⟩
  refine ⟨Sfs.Consistent.of_single rfl ?_ hcount.symm (hused 4 (by omega)) ?_ ?_ ?_ ?_, ?_⟩
  · show (Bitmap.ofFree 32768 []).nbits = (2000 + 32767) / 32768 * 32768
    rw [Bitmap.nbits_ofFree]
  · exact fun _ => ⟨hused 112 (by omega), by decide⟩
  · intro i hne
    rw [fullFile_slot] at hne ⊢
    refine ⟨hused _ ?_, ?_, ?_⟩
    · split_ifs <;> omega
    · split_ifs at hne ⊢ <;> omega
    · show _ ≠ 112
      split_ifs at hne ⊢ <;> omega
  · intro i j hne heq
    rw [fullFile_slot] at hne heq
    rw [fullFile_slot] at heq
    split_ifs at hne heq <;> omega
  · intro i hi
    have hi' : 1036 ≤ i := hi
    rw [fullFile_slot, if_neg (by omega), if_neg (by omega)]
  · intro ino hino _
    obtain rfl : ino = 4 := List.mem_singleton.mp hino
    refine ⟨fun i hi => ?_, le_rfl⟩
    have hi' : i < 1036 := hi
    rw [fullFile_slot]
    split_ifs <;> omega

/-- A write of one byte at the end of a file of 1036 blocks, far below `SFS_MAX_FILE_SIZE`, asks for
the block index 1036. -/
theorem index_out_of_range_at_limit : fullFile.Consistent ∧ fullFile.ForallFiles Sfs.FileOk ∧
    (SfsOp.write 4 [7] 4243456 1).OnFile fullFile ∧
    IoAccepted (fullFile.inode 4).size 4243456 1 true ∧
    (SfsOp.write 4 [7] 4243456 1).code.run fullFile = .panic .getRange := by
  have hacc : IoAccepted (fullFile.inode 4).size 4243456 1 true := by
    refine ⟨by norm_num, by norm_num [sfsMaxFileSize], ?_, Or.inl rfl⟩
    norm_num [toOff, Int.bmod]
  refine ⟨fullFile_consistent.1, fullFile_consistent.2, ⟨List.mem_singleton.mpr rfl, rfl⟩, hacc, ?_⟩
  have hio : (sfsIoNolock 4 [7] 4243456 1 true).run fullFile = .panic .getRange := by
    rw [sfsIoNolock_of_accepted SfsType.noConfusion hacc]
    refine Prog.bind_of_panic (ioTransfer_of_panic hacc.lt ?_)
    have hle : 1036 ≤ (fullFile.inode 4).blocks := le_rfl
    simp only [show (4243456 : ℤ).toNat / 4096 = 1036 from rfl, sfsBmapLoadNolock, Prog.run_bind,
      Prog.run_get, Outcome.andThen_ok, Prog.run_assert_of _ _ hle,
      sfsBmapGetNolock_range le_rfl, Outcome.andThen_panic]
  rw [SfsOp.code, Prog.bind_of_panic hio]

end Ucore.Fs
