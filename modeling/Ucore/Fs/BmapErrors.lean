import Ucore.Fs.SfsRuns
import Mathlib.Tactic.Common

/-!
# Block mapping when transfers fail

`sfs_bmap_get_sub_nolock` of `kern/fs/sfs/sfs_inode.c` on a device whose transfers may fail.

* `Device` says for each transfer whether it fails, and what a failed write leaves in the block. `IoSfs` has the number of
  transfers so far, and the variable that `entp` points to.
* `sound_sfsBmapGetSubNolock`: on a device that never fails, the function is the one of `Ucore.Fs.Sfs`.
* `sfsBlockAlloc_run` is the step that goes wrong. When the new block cannot be cleared, `sfs_block_alloc` returns the
  error, and the block stays marked: no caller gives it back.
* `bmap_get_sub_atomic`: an error leaves the free map, the count and `*entp` as they were if and only if the transfer that
  would clear a new block does not fail (`ClearFails`).
-/

namespace Ucore.Fs.Failing

open Ucore.Lib

/-! ### The code -/

/-- How the transfers of a device end, by their number. -/
structure Device where
  /-- The error code, if it fails. -/
  fails : ℕ → Option FsError
  /-- What a failed write leaves in a block, of its old and its new content. -/
  torn : ℕ → Block → Block → Block

/-- A mounted file system, the number of transfers, and the variable `*entp`. -/
structure IoSfs where
  fs : Sfs
  ios : ℕ
  entp : ℕ

abbrev IoProg := Prog SfsPanic FsError IoSfs

/-- Code without transfers. -/
def noIo {α : Type} (m : SfsProg α) : IoProg α := Prog.zoom IoSfs.fs (fun t s => { s with fs := t }) id m

section device

variable (dev : Device)

/-- Reading a block. Source: `kern/fs/sfs/sfs_io.c` `sfs_rwblock_nolock` -/
def sfsRblock (blkno : ℕ) : IoProg Block := do
  let s ← Prog.get
  Prog.assert (blkno ≠ 0 ∧ blkno < s.fs.blocks) .rwblock
  Prog.modify fun s => { s with ios := s.ios + 1 }
  match dev.fails s.ios with
  | some e => Prog.throw e
  | none => pure (s.fs.disk blkno)

/-- Writing a block. Source: `kern/fs/sfs/sfs_io.c` `sfs_rwblock_nolock` -/
def sfsWblock (blk : Block) (blkno : ℕ) : IoProg Unit := do
  let s ← Prog.get
  Prog.assert (blkno ≠ 0 ∧ blkno < s.fs.blocks) .rwblock
  Prog.modify fun s => { s with ios := s.ios + 1 }
  match dev.fails s.ios with
  | some e => do
    Prog.modify fun t => { t with fs := t.fs.writeBlock blkno (dev.torn s.ios (t.fs.disk blkno) blk) }
    Prog.throw e
  | none => Prog.modify fun t => { t with fs := t.fs.writeBlock blkno blk }

/-- Source: `kern/fs/sfs/sfs_io.c` `sfs_rbuf` -/
def sfsRbuf (len blkno offset : ℕ) : IoProg (List UInt8) := do
  Prog.assert (offset < 4096 ∧ offset + len ≤ 4096) .bufRange
  let blk ← sfsRblock dev blkno
  pure (blk.read offset len)

/-- Source: `kern/fs/sfs/sfs_io.c` `sfs_wbuf` -/
def sfsWbuf (data : List UInt8) (blkno offset : ℕ) : IoProg Unit := do
  Prog.assert (offset < 4096 ∧ offset + data.length ≤ 4096) .bufRange
  let blk ← sfsRblock dev blkno
  sfsWblock dev (blk.splice offset data) blkno

/-- Source: `kern/fs/sfs/sfs_io.c` `sfs_clear_block`, for one block -/
def sfsClearBlock (blkno : ℕ) : IoProg Unit := sfsWblock dev zeroBlock blkno

/-- `sfs_block_alloc` up to `sfs_clear_block`. -/
def sfsBlockTake : SfsProg ℕ := do
  let ino ← onFreemap bitmapAlloc
  let s ← Prog.get
  Prog.assert (0 < s.unusedBlocks) .allocUnused
  Prog.modify fun s => { s with unusedBlocks := s.unusedBlocks - 1, superDirty := true }
  let inuse ← sfsBlockInuse ino
  Prog.assert (inuse = true) .allocInuse
  pure ino

/-- Source: `kern/fs/sfs/sfs_inode.c` `sfs_block_alloc` -/
def sfsBlockAlloc : IoProg ℕ := do
  let ino ← noIo sfsBlockTake
  sfsClearBlock dev ino
  pure ino

/-- The label `failed_cleanup` of `sfs_bmap_get_sub_nolock`. -/
def getSubCleanup (ent : ℕ) (e : FsError) : IoProg ℕ := do
  let s ← Prog.get
  if ent ≠ s.entp then
    noIo (sfsBlockFree ent)
  Prog.throw e

/-- The label `out` of `sfs_bmap_get_sub_nolock`. -/
def getSubOut (ent ino : ℕ) : IoProg ℕ := do
  let s ← Prog.get
  if ent ≠ s.entp then
    Prog.modify fun s => { s with entp := ent }
  pure ino

/-- The part of `sfs_bmap_get_sub_nolock` that gets a new block and enters it at `offset` of the entry block `ent`. -/
def getSubCreate (ent offset : ℕ) : IoProg ℕ := do
  let r ← Prog.attempt (sfsBlockAlloc dev)
  match r with
  | .error e => getSubCleanup ent e
  | .ok ino => do
    let r ← Prog.attempt (sfsWbuf dev (putU32 ino) ent offset)
    match r with
    | .error e => do
      noIo (sfsBlockFree ino)
      getSubCleanup ent e
    | .ok () => getSubOut ent ino

/-- Source: `kern/fs/sfs/sfs_inode.c` `sfs_bmap_get_sub_nolock` -/
def sfsBmapGetSubNolock (index : ℕ) (create : Bool) : IoProg ℕ := do
  Prog.assert (index < 1024) .subIndex
  let s ← Prog.get
  if s.entp ≠ 0 then do
    let bytes ← sfsRbuf dev 4 s.entp (index * 4)
    if getU32 bytes ≠ 0 ∨ create = false then
      getSubOut s.entp (getU32 bytes)
    else
      getSubCreate dev s.entp (index * 4)
  else if create = false then
    getSubOut 0 0
  else do
    let ent ← sfsBlockAlloc dev
    getSubCreate dev ent (index * 4)

end device

/-! ### A device that never fails -/

section sound

variable {α β γ δ : Type} {c : ℕ}

/-- The outcome of code without transfers as one of code with transfers: `f` gives the value and `*entp`. -/
def carry (c ios : ℕ) (f : α → β × ℕ) : Outcome SfsPanic FsError Sfs α → Outcome SfsPanic FsError IoSfs β
  | .ok a fs => .ok (f a).1 ⟨fs, ios, (f a).2⟩
  | .error e fs => .error e ⟨fs, ios, c⟩
  | .panic p => .panic p

/-- With the value `c` of `*entp`, the two programs do the same. -/
def Sound (c : ℕ) (f : α → β × ℕ) (m : IoProg β) (m' : SfsProg α) : Prop :=
  ∀ fs ios, ∃ ios', m.run ⟨fs, ios, c⟩ = carry c ios' f (m'.run fs)

theorem Sound.bind {f : β → γ × ℕ} {m : IoProg α} {m' : SfsProg α} {k : α → IoProg γ} {k' : α → SfsProg β}
    (hm : Sound c (fun a => (a, c)) m m') (hk : ∀ a, Sound c f (k a) (k' a)) : Sound c f (m >>= k) (m' >>= k') := by
  intro fs ios
  obtain ⟨ios₁, hrun⟩ := hm fs ios
  rw [Prog.run_bind, Prog.run_bind, hrun]
  cases m'.run fs with
  | ok a fs₁ => exact hk a fs₁ ios₁
  | error e fs₁ => exact ⟨ios₁, rfl⟩
  | panic p => exact ⟨ios₁, rfl⟩

theorem Sound.attempt {m : IoProg α} {m' : SfsProg α} (hm : Sound c (fun a => (a, c)) m m') :
    Sound c (fun r => (r, c)) (Prog.attempt m) (Prog.attempt m') := by
  intro fs ios
  obtain ⟨ios', hrun⟩ := hm fs ios
  refine ⟨ios', ?_⟩
  unfold Prog.attempt
  simp only [hrun]
  cases m'.run fs with
  | ok a fs₁ => rfl
  | error e fs₁ => rfl
  | panic p => rfl

theorem Sound.noIo (m : SfsProg α) : Sound c (fun a => (a, c)) (noIo m) m := by
  intro fs ios
  refine ⟨ios, ?_⟩
  unfold Failing.noIo Prog.zoom
  simp only
  cases m.run fs with
  | ok a fs₁ => rfl
  | error e fs₁ => rfl
  | panic p => rfl

theorem Sound.pure (a : α) : Sound c (fun a => (a, c)) (Pure.pure a : IoProg α) (Pure.pure a) := fun _ ios => ⟨ios, rfl⟩

theorem Sound.throw {f : α → β × ℕ} (e : FsError) : Sound c f (Prog.throw e) (Prog.throw e) := fun _ ios => ⟨ios, rfl⟩

theorem Sound.assert {p : Prop} [Decidable p] (site : SfsPanic) :
    Sound c (fun a => (a, c)) (Prog.assert p site) (Prog.assert p site) := by
  intro fs ios
  refine ⟨ios, ?_⟩
  rw [Prog.run_assert, Prog.run_assert]
  by_cases hp : p
  · rw [if_pos hp, if_pos hp]
    rfl
  · rw [if_neg hp, if_neg hp]
    rfl

/-- The label `out` hands `ent` to the caller. -/
theorem sound_getSubOut (ent ino : ℕ) : Sound c (fun r => (r.2, r.1)) (getSubOut ent ino) (pure (ent, ino)) := by
  intro fs ios
  refine ⟨ios, ?_⟩
  unfold getSubOut
  rw [Prog.run_bind, Prog.run_get, Outcome.andThen_ok]
  by_cases hent : ent = c
  · rw [if_neg (not_not.mpr hent), hent]
    rfl
  · rw [if_pos hent]
    rfl

theorem sound_getSubCleanup (ent : ℕ) (e : FsError) :
    Sound c (fun r => (r.2, r.1)) (getSubCleanup ent e) (Fs.getSubCleanup c ent e) := by
  intro fs ios
  unfold getSubCleanup Fs.getSubCleanup
  rw [Prog.run_bind, Prog.run_get, Outcome.andThen_ok]
  by_cases hent : ent = c
  · rw [if_neg (not_not.mpr hent), if_neg (not_not.mpr hent)]
    exact ⟨ios, rfl⟩
  · rw [if_pos hent, if_pos hent]
    exact ((Sound.noIo (sfsBlockFree ent)).bind fun _ => .throw e) fs ios

variable {dev : Device} (hgood : ∀ k, dev.fails k = none)

include hgood

theorem sound_sfsRblock (blkno : ℕ) : Sound c (fun a => (a, c)) (sfsRblock dev blkno) (Fs.sfsRblock blkno) := by
  intro fs ios
  refine ⟨ios + 1, ?_⟩
  unfold sfsRblock Fs.sfsRblock
  by_cases hb : blkno ≠ 0 ∧ blkno < fs.blocks
  · simp only [Prog.run_bind, Prog.run_get, Outcome.andThen_ok, Prog.run_assert_of _ _ hb, Prog.run_modify, hgood]
    rfl
  · simp only [Prog.run_bind, Prog.run_get, Outcome.andThen_ok, Prog.run_assert_of_not _ _ hb, Outcome.andThen_panic]
    rfl

theorem sound_sfsWblock (blk : Block) (blkno : ℕ) :
    Sound c (fun a => (a, c)) (sfsWblock dev blk blkno) (Fs.sfsWblock blk blkno) := by
  intro fs ios
  refine ⟨ios + 1, ?_⟩
  unfold sfsWblock Fs.sfsWblock
  by_cases hb : blkno ≠ 0 ∧ blkno < fs.blocks
  · simp only [Prog.run_bind, Prog.run_get, Outcome.andThen_ok, Prog.run_assert_of _ _ hb, Prog.run_modify, hgood]
    rfl
  · simp only [Prog.run_bind, Prog.run_get, Outcome.andThen_ok, Prog.run_assert_of_not _ _ hb, Outcome.andThen_panic]
    rfl

theorem sound_sfsRbuf (len blkno offset : ℕ) :
    Sound c (fun a => (a, c)) (sfsRbuf dev len blkno offset) (Fs.sfsRbuf len blkno offset) :=
  (Sound.assert _).bind fun _ => (sound_sfsRblock hgood blkno).bind fun _ => .pure _

theorem sound_sfsWbuf (data : List UInt8) (blkno offset : ℕ) :
    Sound c (fun a => (a, c)) (sfsWbuf dev data blkno offset) (Fs.sfsWbuf data blkno offset) :=
  (Sound.assert _).bind fun _ => (sound_sfsRblock hgood blkno).bind fun _ => sound_sfsWblock hgood _ _

theorem sound_sfsBlockAlloc : Sound c (fun a => (a, c)) (sfsBlockAlloc dev) Fs.sfsBlockAlloc := by
  have hsplit : Fs.sfsBlockAlloc = (sfsBlockTake >>= fun ino => Fs.sfsClearBlock ino >>= fun _ => pure ino) := by
    unfold Fs.sfsBlockAlloc sfsBlockTake
    simp only [Prog.bind_assoc, Prog.pure_bind]
  rw [hsplit]
  exact (Sound.noIo sfsBlockTake).bind fun ino => (sound_sfsWblock hgood zeroBlock ino).bind fun _ => .pure ino

theorem sound_getSubCreate (ent offset : ℕ) :
    Sound c (fun r => (r.2, r.1)) (getSubCreate dev ent offset) (Fs.getSubCreate c ent offset) := by
  refine (sound_sfsBlockAlloc hgood).attempt.bind fun r => ?_
  cases r with
  | error e => exact sound_getSubCleanup ent e
  | ok ino =>
    refine (sound_sfsWbuf hgood (putU32 ino) ent offset).attempt.bind fun r => ?_
    cases r with
    | error e => exact (Sound.noIo (sfsBlockFree ino)).bind fun _ => sound_getSubCleanup ent e
    | ok _ => exact sound_getSubOut ent ino

/-- **On a device that never fails the function is the one without failures**: what that one returns as the entry block is in
`*entp` afterwards. -/
theorem sound_sfsBmapGetSubNolock (index : ℕ) (create : Bool) :
    Sound c (fun r => (r.2, r.1)) (sfsBmapGetSubNolock dev index create) (Fs.sfsBmapGetSubNolock c index create) := by
  refine (Sound.assert _).bind fun _ => fun fs ios => ?_
  rw [Prog.run_bind, Prog.run_get, Outcome.andThen_ok]
  by_cases hzero : c = 0
  · rw [if_neg (not_not.mpr hzero), if_neg (not_not.mpr hzero)]
    cases create with
    | false =>
      obtain ⟨ios', hrun⟩ := sound_getSubOut (c := c) 0 0 fs ios
      exact ⟨ios', hrun⟩
    | true => exact ((sound_sfsBlockAlloc hgood).bind fun ent => sound_getSubCreate hgood ent (index * 4)) fs ios
  · rw [if_pos hzero, if_pos hzero]
    refine ((sound_sfsRbuf hgood 4 c (index * 4)).bind fun bytes => ?_) fs ios
    split_ifs
    · exact sound_getSubOut c (getU32 bytes)
    · exact sound_getSubCreate hgood c (index * 4)

end sound

variable {dev : Device} {s s' : IoSfs} {fs : Sfs} {b ent index offset : ℕ} {e : FsError}

/-! ### The free map -/

/-- The free map and the count agree, and only blocks of the image are free. -/
structure BlocksOk (fs : Sfs) : Prop where
  shape : fs.freemap.nbits = (fs.blocks + 32767) / 32768 * 32768
  count : fs.unusedBlocks = fs.freemap.count
  range : ∀ b, fs.freemap.isFree b = true → b ≠ 0 ∧ b < fs.blocks

theorem BlocksOk.of_consistent (h : fs.Consistent) (hbad : ¬ fs.BadFree) : BlocksOk fs :=
  ⟨h.shape, h.count, fun b hb => by_contra fun hno => hbad ⟨b, hb, hno⟩⟩

theorem BlocksOk.lt_nbits (h : BlocksOk fs) (hb : b < fs.blocks) : b < fs.freemap.nbits := by
  rw [h.shape]
  omega

/-- An index that is flipped twice. -/
theorem flip_flip {m : Bitmap} (hb : b < 32 * m.map.length) : (m.flip b).flip b = m := by
  have hword : b / 32 < m.map.length := by omega
  obtain ⟨nbits, map, hlength⟩ := m
  simp only [Bitmap.flip, Bitmap.setWord, Bitmap.mk.injEq, true_and]
  rw [List.set_set, List.getD_eq_getElem _ _ (by rwa [List.length_set]), List.getElem_set_self,
    List.getD_eq_getElem _ _ hword, BitVec.xor_assoc, BitVec.xor_self, BitVec.xor_zero, List.set_getElem_self]

/-- A free block has been marked as taken. -/
def marked (fs : Sfs) (b : ℕ) : Sfs :=
  { fs with freemap := fs.freemap.flip b, unusedBlocks := fs.unusedBlocks - 1, superDirty := true }

theorem BlocksOk.marked (h : BlocksOk fs) (hfree : fs.freemap.isFree b = true) : BlocksOk (marked fs b) := by
  refine ⟨h.shape, ?_, fun c hc => ?_⟩
  · show fs.unusedBlocks - 1 = (fs.freemap.flip b).count
    rw [h.count, ← Bitmap.count_take hfree, Nat.add_sub_cancel]
  · have hc' : (fs.freemap.flip b).isFree c = true := hc
    rw [Bitmap.isFree_flip (Bitmap.isFree_lt hfree)] at hc'
    by_cases heq : c = b
    · rw [heq]
      exact h.range b hfree
    · rw [Function.update_of_ne heq] at hc'
      exact h.range c hc'

/-- The content of blocks does not matter. -/
theorem BlocksOk.writeBlock (h : BlocksOk fs) (b : ℕ) (blk : Block) : BlocksOk (fs.writeBlock b blk) := ⟨h.shape, h.count, h.range⟩

theorem inUse_marked (h : BlocksOk fs) (hfree : fs.freemap.isFree b = true) : (marked fs b).InUse b :=
  ⟨(h.range b hfree).2, isFree_take hfree⟩

/-- The part of `sfs_block_alloc` before the transfer takes a free block, if there is one. -/
theorem sfsBlockTake_run (h : BlocksOk fs) : (fs.freemap.count = 0 ∧ sfsBlockTake.run fs = .error .noMem fs) ∨
    ∃ b, fs.freemap.isFree b = true ∧ sfsBlockTake.run fs = .ok b (marked fs b) := by
  rcases bitmapAlloc_run fs.freemap with ⟨hnone, hrun⟩ | ⟨b, hfree, -, hrun⟩
  · refine Or.inl ⟨Bitmap.count_eq_zero.mpr hnone, ?_⟩
    unfold sfsBlockTake
    rw [Prog.bind_of_error (onFreemap_error hrun)]
  · refine Or.inr ⟨b, hfree, ?_⟩
    have hpos : 0 < fs.unusedBlocks := by
      rw [h.count]
      exact Bitmap.count_pos hfree
    have hinuse : (sfsBlockInuse b).run (marked fs b) = .ok true (marked fs b) := by
      rw [sfsBlockInuse_run ((h.marked hfree).lt_nbits (h.range b hfree).2) (h.range b hfree),
        (inUse_marked h hfree).2, Bool.not_false]
    unfold sfsBlockTake
    rw [Prog.bind_of_ok (onFreemap_ok hrun), Prog.run_bind, Prog.run_get, Outcome.andThen_ok,
      Prog.bind_of_ok (Prog.run_assert_of _ _ hpos), Prog.run_bind, Prog.run_modify, Outcome.andThen_ok]
    show (sfsBlockInuse b >>= _).run (marked fs b) = _
    rw [Prog.bind_of_ok hinuse, Prog.bind_of_ok (Prog.run_assert_of _ _ rfl)]
    rfl

/-! ### The transfers -/

theorem noIo_ok {α : Type} {m : SfsProg α} {a : α} {fs' : Sfs} (h : m.run s.fs = .ok a fs') :
    (noIo m).run s = .ok a { s with fs := fs' } := by
  unfold noIo Prog.zoom
  simp only [h]

theorem noIo_error {α : Type} {m : SfsProg α} {fs' : Sfs} (h : m.run s.fs = .error e fs') :
    (noIo m).run s = .error e { s with fs := fs' } := by
  unfold noIo Prog.zoom
  simp only [h]

theorem sfsWblock_run (dev : Device) (blk : Block) (hb : b ≠ 0 ∧ b < s.fs.blocks) :
    (dev.fails s.ios = none → (sfsWblock dev blk b).run s = .ok () { s with fs := s.fs.writeBlock b blk, ios := s.ios + 1 }) ∧
    ∀ e, dev.fails s.ios = some e →
      ∃ left, (sfsWblock dev blk b).run s = .error e { s with fs := s.fs.writeBlock b left, ios := s.ios + 1 } := by
  unfold sfsWblock
  rw [Prog.run_bind, Prog.run_get, Outcome.andThen_ok, Prog.bind_of_ok (Prog.run_assert_of _ _ hb), Prog.run_bind,
    Prog.run_modify, Outcome.andThen_ok]
  constructor
  · intro hok
    rw [hok]
    rfl
  · intro e hfail
    rw [hfail]
    exact ⟨_, rfl⟩

/-- **`sfs_block_alloc`** fails for lack of a free block, takes one, or fails to clear the one that it has marked. -/
theorem sfsBlockAlloc_run (dev : Device) (h : BlocksOk s.fs) : (s.fs.freemap.count = 0 ∧ (sfsBlockAlloc dev).run s = .error .noMem s) ∨
    ∃ b, s.fs.freemap.isFree b = true ∧
      (dev.fails s.ios = none → (sfsBlockAlloc dev).run s =
        .ok b { s with fs := (marked s.fs b).writeBlock b zeroBlock, ios := s.ios + 1 }) ∧
      ∀ e, dev.fails s.ios = some e → ∃ left, (sfsBlockAlloc dev).run s =
        .error e { s with fs := (marked s.fs b).writeBlock b left, ios := s.ios + 1 } := by
  unfold sfsBlockAlloc
  rcases sfsBlockTake_run h with ⟨hcount, hrun⟩ | ⟨b, hfree, hrun⟩
  · exact Or.inl ⟨hcount, Prog.bind_of_error (noIo_error hrun)⟩
  · obtain ⟨hok, hfail⟩ := sfsWblock_run (s := { s with fs := marked s.fs b }) dev zeroBlock (h.range b hfree)
    refine Or.inr ⟨b, hfree, fun hnone => ?_, fun e he => ?_⟩
    · rw [Prog.bind_of_ok (noIo_ok hrun)]
      unfold sfsClearBlock
      rw [Prog.bind_of_ok (hok hnone)]
      rfl
    · obtain ⟨left, hwrite⟩ := hfail e he
      refine ⟨left, ?_⟩
      rw [Prog.bind_of_ok (noIo_ok hrun)]
      exact Prog.bind_of_error hwrite

/-- Only the content of blocks has changed, and the number of transfers. -/
structure SameMarks (s s' : IoSfs) : Prop where
  freemap : s'.fs.freemap = s.fs.freemap
  unused : s'.fs.unusedBlocks = s.fs.unusedBlocks
  blocks : s'.fs.blocks = s.fs.blocks
  entp : s'.entp = s.entp

theorem SameMarks.blocksOk (h : SameMarks s s') (hok : BlocksOk s.fs) : BlocksOk s'.fs := by
  obtain ⟨hfreemap, hunused, hblocks, -⟩ := h
  exact ⟨by rw [hfreemap, hblocks, hok.shape], by rw [hunused, hfreemap, hok.count], by rw [hfreemap, hblocks]; exact hok.range⟩

theorem SameMarks.inUse (h : SameMarks s s') (hused : s.fs.InUse b) : s'.fs.InUse b := by
  unfold Sfs.InUse
  rw [h.blocks, h.freemap]
  exact hused

theorem sfsRbuf_post (dev : Device) {len : ℕ} (hb : b ≠ 0 ∧ b < s.fs.blocks) (hoff : offset < 4096 ∧ offset + len ≤ 4096) :
    (dev.fails s.ios = none → (sfsRbuf dev len b offset).run s = .ok ((s.fs.disk b).read offset len) { s with ios := s.ios + 1 }) ∧
    ∀ e, dev.fails s.ios = some e → (sfsRbuf dev len b offset).run s = .error e { s with ios := s.ios + 1 } := by
  unfold sfsRbuf sfsRblock
  rw [Prog.bind_of_ok (Prog.run_assert_of _ _ hoff), Prog.run_bind, Prog.run_bind, Prog.run_get, Outcome.andThen_ok,
    Prog.bind_of_ok (Prog.run_assert_of _ _ hb), Prog.run_bind, Prog.run_modify, Outcome.andThen_ok]
  constructor
  · intro hok
    rw [hok]
    rfl
  · intro e hfail
    rw [hfail]
    rfl

theorem sfsWbuf_post (dev : Device) (data : List UInt8) (hb : b ≠ 0 ∧ b < s.fs.blocks) (hoff : offset < 4096 ∧ offset + data.length ≤ 4096) :
    ((sfsWbuf dev data b offset).run s).Post (fun _ s' => SameMarks s s') (fun _ s' => SameMarks s s') fun _ => False := by
  unfold sfsWbuf sfsRblock
  rw [Prog.bind_of_ok (Prog.run_assert_of _ _ hoff), Prog.run_bind, Prog.run_bind, Prog.run_get, Outcome.andThen_ok,
    Prog.bind_of_ok (Prog.run_assert_of _ _ hb), Prog.run_bind, Prog.run_modify, Outcome.andThen_ok]
  cases hread : dev.fails s.ios with
  | some e => exact ⟨rfl, rfl, rfl, rfl⟩
  | none =>
    obtain ⟨hok, hfail⟩ := sfsWblock_run (s := { s with ios := s.ios + 1 }) dev ((s.fs.disk b).splice offset data) hb
    show Outcome.Post _ _ _ ((sfsWblock dev ((s.fs.disk b).splice offset data) b).run { s with ios := s.ios + 1 })
    cases hwrite : dev.fails (s.ios + 1) with
    | some e =>
      obtain ⟨left, hrun⟩ := hfail e hwrite
      rw [hrun]
      exact ⟨rfl, rfl, rfl, rfl⟩
    | none =>
      rw [hok hwrite]
      exact ⟨rfl, rfl, rfl, rfl⟩

theorem sfsBlockFree_run (h : BlocksOk s.fs) (hb : b ≠ 0) (hused : s.fs.InUse b) :
    (noIo (sfsBlockFree b)).run s = .ok () { s with fs := s.fs.give b } :=
  noIo_ok (Fs.sfsBlockFree_run (h.lt_nbits hused.1) hb hused)

/-! ### A new block in an entry block -/

/-- The marks of `s`, but the entry block `ent` is free again if it is not the old one. -/
structure Cleaned (ent : ℕ) (s s' : IoSfs) : Prop where
  freemap : s'.fs.freemap = if ent = s.entp then s.fs.freemap else s.fs.freemap.flip ent
  unused : s'.fs.unusedBlocks = s.fs.unusedBlocks + if ent = s.entp then 0 else 1
  entp : s'.entp = s.entp

/-- The label `failed_cleanup`. -/
theorem getSubCleanup_run (h : BlocksOk s.fs) (hent : ent ≠ 0) (hused : s.fs.InUse ent) (e : FsError) :
    ∃ s', (getSubCleanup ent e).run s = .error e s' ∧ Cleaned ent s s' := by
  unfold getSubCleanup
  rw [Prog.run_bind, Prog.run_get, Outcome.andThen_ok]
  by_cases hold : ent = s.entp
  · refine ⟨s, ?_, ?_, ?_, rfl⟩
    · rw [if_neg (not_not.mpr hold)]
      rfl
    · rw [if_pos hold]
    · rw [if_pos hold, Nat.add_zero]
  · refine ⟨{ s with fs := s.fs.give ent }, ?_, ?_, ?_, rfl⟩
    · rw [if_pos hold, Prog.bind_of_ok (sfsBlockFree_run h hent hused)]
      rfl
    · rw [if_neg hold]
      rfl
    · rw [if_neg hold]
      rfl

/-- The clean-up after an error that came in `s₁`, where one block is marked that was free in `s`. -/
theorem Cleaned.of_marked {s₁ : IoSfs} (h : Cleaned ent s₁ s') (hcount : BlocksOk s.fs) (hfree : s.fs.freemap.isFree b = true)
    (hunused : s₁.fs.unusedBlocks = s.fs.unusedBlocks - 1) (hentp : s₁.entp = s.entp) :
    s'.fs.unusedBlocks + 1 = s.fs.unusedBlocks + if ent = s.entp then 0 else 1 := by
  have hpos : 0 < s.fs.unusedBlocks := by
    rw [hcount.count]
    exact Bitmap.count_pos hfree
  rw [h.unused, hunused, hentp]
  omega

/-- Without a new block that cannot be cleared, an error leaves no marks. -/
theorem getSubCreate_post (dev : Device) (h : BlocksOk s.fs) (hent : ent ≠ 0) (hused : s.fs.InUse ent) (hindex : index < 1024)
    (hclear : 0 < s.fs.freemap.count → dev.fails s.ios = none) :
    ((getSubCreate dev ent (index * 4)).run s).Post (fun _ _ => True) (fun _ s' => Cleaned ent s s') fun _ => False := by
  unfold getSubCreate
  rcases sfsBlockAlloc_run dev h with ⟨-, hrun⟩ | ⟨b, hfree, hok, -⟩
  · obtain ⟨s', hclean, hcleaned⟩ := getSubCleanup_run h hent hused .noMem
    refine Outcome.post_bind.mpr (Outcome.post_attempt.mpr ?_)
    rw [hrun]
    show Outcome.Post _ _ _ ((getSubCleanup ent .noMem).run s)
    rw [hclean]
    exact hcleaned
  · have hcount : 0 < s.fs.freemap.count := Bitmap.count_pos hfree
    have hlt := Bitmap.isFree_lt hfree
    set s₁ : IoSfs := { s with fs := (marked s.fs b).writeBlock b zeroBlock, ios := s.ios + 1 } with hs₁
    have hok₁ : BlocksOk s₁.fs := (h.marked hfree).writeBlock b zeroBlock
    have hne : ent ≠ b := by
      rintro rfl
      rw [hused.2] at hfree
      cases hfree
    have hused₁ : s₁.fs.InUse ent := by
      refine ⟨hused.1, ?_⟩
      show (s.fs.freemap.flip b).isFree ent = false
      rw [Bitmap.isFree_flip hlt, Function.update_of_ne hne]
      exact hused.2
    refine Outcome.post_bind.mpr (Outcome.post_attempt.mpr ?_)
    rw [hok (hclear hcount)]
    refine Outcome.post_bind.mpr (Outcome.post_attempt.mpr ?_)
    refine (sfsWbuf_post (s := s₁) dev (putU32 b) ⟨hent, hused.1⟩ ?_).mono ?_ ?_ fun _ hf => hf
    · rw [length_putU32]
      omega
    · intro _ s₂ _
      unfold getSubOut
      rw [Prog.run_bind, Prog.run_get, Outcome.andThen_ok]
      by_cases hold : ent = s₂.entp
      · rw [if_neg (not_not.mpr hold)]
        trivial
      · rw [if_pos hold]
        trivial
    · intro e s₂ hsame
      -- both blocks are given back
      have hb : s₂.fs.InUse b := hsame.inUse (inUse_marked h hfree)
      have hok₂ := hsame.blocksOk hok₁
      show Outcome.Post _ _ _ ((noIo (sfsBlockFree b) >>= fun _ => getSubCleanup ent e).run s₂)
      rw [Prog.bind_of_ok (sfsBlockFree_run hok₂ (h.range b hfree).1 hb)]
      have hback : s₂.fs.freemap.flip b = s.fs.freemap := by
        rw [hsame.freemap]
        exact flip_flip hlt
      have hunused : s₂.fs.unusedBlocks + 1 = s.fs.unusedBlocks := by
        rw [hsame.unused]
        show s.fs.unusedBlocks - 1 + 1 = s.fs.unusedBlocks
        rw [h.count]
        exact Nat.sub_add_cancel hcount
      have hok₃ : BlocksOk (s₂.fs.give b) := ⟨by rw [Sfs.give_freemap, hback, Sfs.give_blocks, hsame.blocks]; exact h.shape,
        by rw [Sfs.give_freemap, hback, ← h.count]; exact hunused,
        by rw [Sfs.give_freemap, hback, Sfs.give_blocks, hsame.blocks]; exact h.range⟩
      have hused₃ : (s₂.fs.give b).InUse ent := by
        refine ⟨by rw [Sfs.give_blocks, hsame.blocks]; exact hused.1, ?_⟩
        rw [Sfs.give_freemap, hback]
        exact hused.2
      obtain ⟨s', hclean, hcleaned⟩ := getSubCleanup_run (s := { s₂ with fs := s₂.fs.give b }) hok₃ hent hused₃ e
      rw [hclean]
      have hentp : s₂.entp = s.entp := hsame.entp
      refine ⟨?_, ?_, hcleaned.entp.trans hentp⟩
      · rw [hcleaned.freemap]
        show (if ent = s₂.entp then s₂.fs.freemap.flip b else (s₂.fs.freemap.flip b).flip ent) = _
        rw [hback, hentp]
      · rw [hcleaned.unused]
        show s₂.fs.unusedBlocks + 1 + (if ent = s₂.entp then 0 else 1) = _
        rw [hunused, hentp]

/-- A new block that cannot be cleared stays marked. -/
theorem getSubCreate_leaks (dev : Device) (h : BlocksOk s.fs) (hent : ent ≠ 0) (hused : s.fs.InUse ent) (offset : ℕ)
    (hcount : 0 < s.fs.freemap.count) (hfail : dev.fails s.ios = some e) :
    ∃ s', (getSubCreate dev ent offset).run s = .error e s' ∧
      s'.fs.unusedBlocks + 1 = s.fs.unusedBlocks + if ent = s.entp then 0 else 1 := by
  rcases sfsBlockAlloc_run dev h with ⟨hzero, -⟩ | ⟨b, hfree, -, hleak⟩
  · exact absurd hzero (Nat.ne_of_gt hcount)
  · obtain ⟨left, hrun⟩ := hleak e hfail
    have hne : ent ≠ b := by
      rintro rfl
      rw [hused.2] at hfree
      cases hfree
    have hused₁ : ((marked s.fs b).writeBlock b left).InUse ent := by
      refine ⟨hused.1, ?_⟩
      show (s.fs.freemap.flip b).isFree ent = false
      rw [Bitmap.isFree_flip (Bitmap.isFree_lt hfree), Function.update_of_ne hne]
      exact hused.2
    obtain ⟨s', hclean, hcleaned⟩ := getSubCleanup_run
      (s := { s with fs := (marked s.fs b).writeBlock b left, ios := s.ios + 1 }) ((h.marked hfree).writeBlock b left) hent hused₁ e
    refine ⟨s', ?_, hcleaned.of_marked h hfree rfl rfl⟩
    unfold getSubCreate Prog.attempt
    rw [Prog.run_bind]
    simp only [hrun, Outcome.andThen_ok]
    exact hclean

/-! ### The function -/

/-- The free map, the count and `*entp` are as before. -/
structure Unchanged (s s' : IoSfs) : Prop where
  freemap : s'.fs.freemap = s.fs.freemap
  unused : s'.fs.unusedBlocks = s.fs.unusedBlocks
  entp : s'.entp = s.entp

/-- The function comes to a free block and cannot clear it: for the entry block, or for the block itself. -/
def ClearFails (dev : Device) (s : IoSfs) (index : ℕ) : Prop :=
  if s.entp = 0 then
    0 < s.fs.freemap.count ∧ dev.fails s.ios ≠ none ∨
      1 < s.fs.freemap.count ∧ dev.fails s.ios = none ∧ dev.fails (s.ios + 1) ≠ none
  else
    0 < s.fs.freemap.count ∧ dev.fails s.ios = none ∧ s.fs.entry s.entp index = 0 ∧ dev.fails (s.ios + 1) ≠ none

/-- An outcome that is an error leaves the marks as they were. -/
def Atomic (s : IoSfs) (r : Outcome SfsPanic FsError IoSfs ℕ) : Prop := ∀ e s', r = .error e s' → Unchanged s s'

theorem not_atomic_of_unused (h : s'.fs.unusedBlocks ≠ s.fs.unusedBlocks) : ¬ Atomic s (.error e s') := fun hatomic =>
  h (hatomic e s' rfl).unused

/-- With the entry block `ent` in use, the rest is atomic if and only if a new block can be cleared; `s` has the marks from before,
and `ent` is marked since then if it is a new one. -/
theorem getSubCreate_atomic (dev : Device) (s₁ : IoSfs) (h : BlocksOk s₁.fs) (hent : ent ≠ 0) (hused : s₁.fs.InUse ent)
    (hindex : index < 1024) (hentp : s₁.entp = s.entp)
    (hfreemap : s.fs.freemap = if ent = s₁.entp then s₁.fs.freemap else s₁.fs.freemap.flip ent)
    (hunused : s.fs.unusedBlocks = s₁.fs.unusedBlocks + if ent = s₁.entp then 0 else 1) :
    Atomic s ((getSubCreate dev ent (index * 4)).run s₁) ↔ ¬ (0 < s₁.fs.freemap.count ∧ dev.fails s₁.ios ≠ none) := by
  constructor
  · rintro hatomic ⟨hcount, hne⟩
    obtain ⟨e, he⟩ := Option.ne_none_iff_exists'.mp hne
    obtain ⟨s', hrun, hleak⟩ := getSubCreate_leaks dev h hent hused (index * 4) hcount he
    rw [hrun] at hatomic
    refine not_atomic_of_unused ?_ hatomic
    rw [hunused, ← hleak]
    exact (Nat.succ_ne_self _).symm
  · intro hclear e s' hrun
    have hpost := getSubCreate_post dev h hent hused hindex fun hcount => by
      by_contra hne
      exact hclear ⟨hcount, hne⟩
    rw [hrun] at hpost
    exact ⟨hpost.freemap.trans hfreemap.symm, hpost.unused.trans hunused.symm, hpost.entp.trans hentp⟩

/-- There is no entry block yet. -/
theorem newEntry_atomic (dev : Device) (h : BlocksOk s.fs) (hzero : s.entp = 0) (hindex : index < 1024) :
    Atomic s ((sfsBlockAlloc dev >>= fun ent => getSubCreate dev ent (index * 4)).run s) ↔ ¬ ClearFails dev s index := by
  unfold ClearFails
  rw [if_pos hzero]
  rcases sfsBlockAlloc_run dev h with ⟨hcount, hrun⟩ | ⟨ent, hfree, hgood, hleak⟩
  · rw [Prog.bind_of_error hrun]
    refine iff_of_true ?_ (by omega)
    rintro e s' heq
    cases heq
    exact ⟨rfl, rfl, rfl⟩
  · have hcount : (s.fs.freemap.flip ent).count + 1 = s.fs.freemap.count := Bitmap.count_take hfree
    have hpos : 0 < s.fs.unusedBlocks := by
      rw [h.count, ← hcount]
      exact Nat.succ_pos _
    cases hfirst : dev.fails s.ios with
    | some e =>
      obtain ⟨left, hrun⟩ := hleak e hfirst
      rw [Prog.bind_of_error hrun]
      refine iff_of_false (not_atomic_of_unused ?_) (not_not.mpr (Or.inl ⟨by omega, fun hnone => nomatch hnone⟩))
      show s.fs.unusedBlocks - 1 ≠ s.fs.unusedBlocks
      omega
    | none =>
      rw [Prog.bind_of_ok (hgood hfirst)]
      have hold : ent ≠ s.entp := by
        rw [hzero]
        exact (h.range ent hfree).1
      have hok : BlocksOk ((marked s.fs ent).writeBlock ent zeroBlock) := (h.marked hfree).writeBlock ent zeroBlock
      have hused : ((marked s.fs ent).writeBlock ent zeroBlock).InUse ent := inUse_marked h hfree
      have hatomic := getSubCreate_atomic (s := s) dev
        { s with fs := (marked s.fs ent).writeBlock ent zeroBlock, ios := s.ios + 1 } hok (h.range ent hfree).1 hused hindex rfl
        (by rw [if_neg hold]; exact (flip_flip (Bitmap.isFree_lt hfree)).symm)
        (by rw [if_neg hold]; exact (Nat.sub_add_cancel hpos).symm)
      refine hatomic.trans (not_congr ?_)
      show 0 < (s.fs.freemap.flip ent).count ∧ dev.fails (s.ios + 1) ≠ none ↔ _
      have hlt : 0 < (s.fs.freemap.flip ent).count ↔ 1 < s.fs.freemap.count := by omega
      simp [hlt]

/-- The entry block has to be read. -/
theorem oldEntry_atomic (dev : Device) (h : BlocksOk s.fs) (hzero : s.entp ≠ 0) (hused : s.fs.InUse s.entp) (hindex : index < 1024) :
    Atomic s ((sfsRbuf dev 4 s.entp (index * 4) >>= fun bytes =>
      if getU32 bytes ≠ 0 ∨ true = false then getSubOut s.entp (getU32 bytes) else getSubCreate dev s.entp (index * 4)).run s) ↔
    ¬ ClearFails dev s index := by
  unfold ClearFails
  rw [if_neg hzero]
  obtain ⟨hgood, hfail⟩ := sfsRbuf_post (s := s) dev ⟨hzero, hused.1⟩ (show index * 4 < 4096 ∧ index * 4 + 4 ≤ 4096 by omega)
  cases hfirst : dev.fails s.ios with
  | some e =>
    rw [Prog.bind_of_error (hfail e hfirst)]
    refine iff_of_true ?_ fun hclear => (nomatch hclear.2.1)
    rintro e' s' heq
    cases heq
    exact ⟨rfl, rfl, rfl⟩
  | none =>
    rw [Prog.bind_of_ok (hgood hfirst), Sfs.read_entry]
    by_cases hentry : s.fs.entry s.entp index = 0
    · rw [if_neg (by simp [hentry])]
      have hatomic := getSubCreate_atomic (s := s) dev { s with ios := s.ios + 1 } h hzero hused hindex rfl (if_pos rfl).symm
        (by rw [if_pos rfl]; rfl)
      refine hatomic.trans (not_congr ?_)
      simp [hentry]
    · rw [if_pos (Or.inl hentry)]
      refine iff_of_true ?_ fun hclear => hentry hclear.2.2.1
      intro e s' heq
      unfold getSubOut at heq
      rw [Prog.run_bind, Prog.run_get, Outcome.andThen_ok, if_neg (not_not.mpr rfl)] at heq
      cases heq

/-- **Mapping a block is atomic if and only if no new block fails to be cleared.** The entry block is the one of a file. -/
theorem bmap_get_sub_atomic (dev : Device) {sin : ℕ} (hcons : s.fs.Consistent) (hbad : ¬ s.fs.BadFree) (hsin : sin ∈ s.fs.inos)
    (hentp : s.entp = (s.fs.inode sin).indirect) (hindex : index < 1024) :
    (∀ e s', (sfsBmapGetSubNolock dev index true).run s = .error e s' → Unchanged s s') ↔ ¬ ClearFails dev s index := by
  have hok : BlocksOk s.fs := .of_consistent hcons hbad
  show Atomic s ((sfsBmapGetSubNolock dev index true).run s) ↔ _
  unfold sfsBmapGetSubNolock
  rw [Prog.bind_of_ok (Prog.run_assert_of _ _ hindex), Prog.run_bind, Prog.run_get, Outcome.andThen_ok]
  by_cases hzero : s.entp = 0
  · rw [if_neg (not_not.mpr hzero), if_neg (fun hf => nomatch hf)]
    exact newEntry_atomic dev hok hzero hindex
  · have hused : s.fs.InUse s.entp := by
      rw [hentp] at hzero ⊢
      exact hcons.indirect_used hsin hzero
    rw [if_pos hzero]
    exact oldEntry_atomic dev hok hzero hused hindex

/-- A file without blocks in an image with three free ones, before the first transfer. -/
def threeFree : IoSfs := ⟨emptyFile [5, 6, 7], 0, 0⟩

/-- The device that fails at one transfer. -/
def failsAt (k : ℕ) : Device := ⟨fun i => if i = k then some .inval else none, fun _ old _ => old⟩

/-- The new entry cannot be written: both new blocks are given back. -/
theorem bmap_get_sub_atomic_write : ∃ s', (sfsBmapGetSubNolock (failsAt 2) 0 true).run threeFree = .error .inval s' ∧
    Unchanged threeFree s' := by
  have hclears : ¬ ClearFails (failsAt 2) threeFree 0 := by
    unfold ClearFails
    rw [if_pos (show threeFree.entp = 0 from rfl)]
    rintro (⟨-, hfirst⟩ | ⟨-, -, hsecond⟩)
    · exact hfirst rfl
    · exact hsecond rfl
  exact ⟨_, rfl, (bmap_get_sub_atomic (s := threeFree) (failsAt 2) (emptyFile_consistent (by decide) (by decide))
    (emptyFile_not_badFree (by decide) (by decide)) mem_emptyFile rfl (show 0 < 1024 by decide)).mpr hclears _ _ rfl⟩

/-- The new entry block cannot be cleared: it stays marked, and one block less is counted. -/
theorem bmap_get_sub_leaks : ∃ s', (sfsBmapGetSubNolock (failsAt 0) 0 true).run threeFree = .error .inval s' ∧
    threeFree.fs.unusedBlocks = 3 ∧ s'.fs.unusedBlocks = 2 := by
  have hok : BlocksOk threeFree.fs := .of_consistent (emptyFile_consistent (by decide) (by decide))
    (emptyFile_not_badFree (by decide) (by decide))
  have hcount : threeFree.fs.freemap.count = 3 := (emptyFile_spec (by decide) (by decide)).2
  have hrun : (sfsBmapGetSubNolock (failsAt 0) 0 true).run threeFree =
      ((sfsBlockAlloc (failsAt 0) >>= fun ent => getSubCreate (failsAt 0) ent (0 * 4)).run threeFree) := by
    unfold sfsBmapGetSubNolock
    rw [Prog.bind_of_ok (Prog.run_assert_of _ _ (by decide)), Prog.run_bind, Prog.run_get, Outcome.andThen_ok,
      if_neg (not_not.mpr (show threeFree.entp = 0 from rfl)), if_neg (fun hf => nomatch hf)]
  rcases sfsBlockAlloc_run (failsAt 0) hok with ⟨hzero, -⟩ | ⟨b, -, -, hleak⟩
  · rw [hcount] at hzero
    cases hzero
  · obtain ⟨left, halloc⟩ := hleak .inval rfl
    exact ⟨_, hrun.trans (Prog.bind_of_error halloc), rfl, rfl⟩

end Ucore.Fs.Failing
