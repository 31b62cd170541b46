import Ucore.Tools.MksfsImage

/-!
# The count at mount time

The image that `close_sfs` leaves after any sequence of block allocations, and the loop of `sfs_do_mount` that counts
its free blocks.

* `countUnused` is that loop, and `countUnused_run` says that it finds `Bitmap.count`.
* `AllocRun` is a run of the image builder with the list of the blocks that it has handed out, and `AllocRun.inv` says
  which blocks these are.
* `image_mounts`: the count is the number in the superblock, and the bits are those of the blocks that are left.
-/

namespace Ucore.Tools

open Ucore.Lib Ucore.Fs

/-! ### Counting -/

/-- The loop over the bits of the free map, of which `n` are left from `i` on.
Source: `kern/fs/sfs/sfs_fs.c` `sfs_do_mount` -/
def countUnused : ℕ → ℕ → ℕ → Prog BitmapPanic FsError Bitmap ℕ
  | 0, _, unused => pure unused
  | n + 1, i, unused => do
    let free ← bitmapTest i
    countUnused n (i + 1) (if free then unused + 1 else unused)

theorem countUnused_run_aux {b : Bitmap} (n i unused : ℕ) (h : i + n ≤ b.nbits) :
    (countUnused n i unused).run b = .ok (unused + ((Finset.Ico i (i + n)).filter fun j => b.isFree j).card) b := by
  induction n generalizing i unused with
  | zero => simp [countUnused]
  | succ n ih =>
    have hset : Finset.Ico i (i + (n + 1)) = insert i (Finset.Ico (i + 1) (i + 1 + n)) := by
      ext j
      simp only [Finset.mem_Ico, Finset.mem_insert]
      omega
    have hnew : i ∉ (Finset.Ico (i + 1) (i + 1 + n)).filter fun j => b.isFree j := by
      simp
    rw [countUnused, Prog.bind_of_ok (bitmapTest_run (by omega)), ih _ _ (by omega), hset, Finset.filter_insert]
    by_cases hfree : b.isFree i = true
    · rw [if_pos hfree, if_pos hfree, Finset.card_insert_of_notMem hnew, Nat.add_assoc, Nat.add_comm 1]
    · rw [if_neg hfree, if_neg hfree]

/-- **The loop counts the free indices**, when the last word of the bitmap is full. -/
theorem countUnused_run {b : Bitmap} (h : b.nbits = 32 * b.map.length) :
    (countUnused b.nbits 0 0).run b = .ok b.count b := by
  rw [countUnused_run_aux _ _ _ (by omega), Nat.zero_add, Nat.zero_add, Bitmap.count, ← h, Finset.range_eq_Ico]

/-! ### Allocations -/

/-- `create_sfs` has run on an image file of `nblocks` blocks, and the blocks `bs` have been handed out since then, in
this order: by `sfs_alloc_ino` alone, or in a step of the program, which takes the numbers up to its new `next_ino`. -/
inductive AllocRun (img : ℕ → Block) (nblocks : ℕ) : List ℕ → Mksfs → Prop
  | create {m : Mksfs} (hrun : createSfs.run (Mksfs.init img nblocks) = .ok () m) : AllocRun img nblocks [] m
  | alloc {bs : List ℕ} {m m' : Mksfs} {b : ℕ} (h : AllocRun img nblocks bs m)
      (hrun : sfsAllocIno.run m = .ok b m') : AllocRun img nblocks (bs ++ [b]) m'
  | step {bs : List ℕ} {m m' : Mksfs} (h : AllocRun img nblocks bs m) (hstep : MkStep m m') :
      AllocRun img nblocks (bs ++ List.range' m.nextIno (m'.nextIno - m.nextIno)) m'

variable {img : ℕ → Block} {nblocks : ℕ} {m m' : Mksfs} {bs : List ℕ}

/-- A step takes numbers from the front. -/
theorem MkStep.grows (hstep : MkStep m m') (h : m.Ok) : m'.ninos = m.ninos ∧ m.nextIno ≤ m'.nextIno := by
  obtain ⟨⟨ρ, hinv⟩, -⟩ := h
  cases hstep with
  | inode real f type htype hrun =>
    have hpost := allocCacheInode_post hinv real type
    rw [hrun] at hpost
    obtain ⟨-, -, hnew⟩ := hpost
    exact ⟨hnew.ninos, by rw [hnew.next]; exact Nat.le_succ _⟩
  | block f len data hf htype hlen hrun =>
    have hpost := storeBlock_post hinv hf data hlen
    rw [hrun] at hpost
    obtain ⟨ρ', -, -, hstored⟩ := hpost
    exact ⟨hstored.ninos, hstored.lt_next.le⟩
  | entry c f name hc hf hrun =>
    have hpost := addEntry_post hinv hc hf name
    rw [hrun] at hpost
    obtain ⟨ρ', -, -, hent⟩ := hpost
    exact ⟨hent.ninos, hent.lt_next.le⟩

/-- A block that nobody asked a role for. -/
theorem Mksfs.Ok.alloc (h : m.Ok) (hlt : m.nextIno < m.ninos) : m.alloc.Ok := by
  obtain ⟨⟨ρ, hinv⟩, hdirs⟩ := h
  obtain ⟨h₁, h₂, h₃, h₄, h₅, h₆, h₇, h₈⟩ := hdirs
  exact ⟨⟨_, hinv.alloc hlt 0 0⟩, ⟨h₁, h₂, h₃, h₄, h₅, h₆, h₇, h₈⟩⟩

/-- What a run of allocations has done: the blocks behind the free map are handed out in order. -/
structure Allocated (nblocks : ℕ) (bs : List ℕ) (m : Mksfs) : Prop where
  ok : m.Ok
  ninos : m.ninos = min nblocks sfsMaxNblks
  blocks : bs = List.range' m.start (m.nextIno - m.start)

theorem Allocated.append (h : Allocated nblocks bs m) (hok : m'.Ok) (hninos : m'.ninos = m.ninos)
    (hle : m.nextIno ≤ m'.nextIno) :
    Allocated nblocks (bs ++ List.range' m.nextIno (m'.nextIno - m.nextIno)) m' := by
  obtain ⟨⟨ρ, hinv⟩, -⟩ := h.ok
  have hstart := hinv.start_le
  have hstart' : m'.start = m.start := by rw [Mksfs.start, hninos, Mksfs.start]
  refine ⟨hok, by rw [hninos, h.ninos], ?_⟩
  rw [h.blocks, hstart', show m.nextIno = m.start + (m.nextIno - m.start) by omega,
    show m.start + (m.nextIno - m.start) - m.start = m.nextIno - m.start by omega, List.range'_append_1]
  congr 1
  omega

theorem AllocRun.inv (h : AllocRun img nblocks bs m) : Allocated nblocks bs m := by
  induction h with
  | create hrun =>
    rw [createSfs_run] at hrun
    split_ifs at hrun with hlt
    rw [← (Outcome.ok.inj hrun).2]
    refine ⟨Mksfs.created_ok hlt, rfl, ?_⟩
    rw [show (Mksfs.created img nblocks).nextIno = (Mksfs.created img nblocks).start from rfl, Nat.sub_self,
      List.range'_zero]
  | @alloc bs m m' b _ hrun ih =>
    rw [sfsAllocIno_run] at hrun
    split_ifs at hrun with hlt
    obtain ⟨hb, hm'⟩ := Outcome.ok.inj hrun
    rw [← hb, ← hm']
    have hone : m.alloc.nextIno - m.nextIno = 1 := Nat.add_sub_cancel_left _ _
    have happ := ih.append (ih.ok.alloc hlt) rfl (Nat.le_succ _)
    rw [hone] at happ
    exact happ
  | step _ hstep ih =>
    obtain ⟨hninos, hle⟩ := hstep.grows ih.ok
    exact ih.append (hstep.ok ih.ok) hninos hle

/-! ### The image -/

/-- The blocks in use: the superblock, the root directory, the free map and those that have been handed out. -/
def usedBlocks (ninos : ℕ) (bs : List ℕ) : List ℕ := 0 :: 1 :: (List.range' 2 (freemapBlocks ninos) ++ bs)

/-- They are the numbers below the next one. -/
theorem Allocated.mem_usedBlocks (h : Allocated nblocks bs m) (b : ℕ) : b ∈ usedBlocks m.ninos bs ↔ b < m.nextIno := by
  obtain ⟨⟨ρ, hinv⟩, -⟩ := h.ok
  have hstart := hinv.start_le
  rw [usedBlocks, h.blocks]
  simp only [List.mem_cons, List.mem_append, List.mem_range'_1]
  unfold Mksfs.start at *
  omega

/-- The bitmap that `sfs_do_mount` loads, of `ROUNDUP(blocks, SFS_BLKBITS)` bits. -/
def mountFreemap (disk : ℕ → Block) : Bitmap := diskBitmap disk (freemapBlocks ((disk 0).word 1) * 32768)

/-- **Every image mounts.** After any sequence of allocations, the number of free blocks that the kernel counts in the
free map of the image is the one in its superblock; the bit of a block is 0 if the block is in use and 1 if not, and
there are no bits behind the last block. -/
theorem image_mounts (h : AllocRun img nblocks bs m) : ∃ m', closeSfs.run m = .ok () m' ∧
    (m'.img 0).word 1 = min nblocks sfsMaxNblks ∧
    (countUnused (mountFreemap m'.img).nbits 0 0).run (mountFreemap m'.img) =
      .ok ((m'.img 0).word 2) (mountFreemap m'.img) ∧
    (∀ b, (mountFreemap m'.img).isFree b = true ↔
      b ∉ usedBlocks ((m'.img 0).word 1) bs ∧ b < (m'.img 0).word 1) ∧
    ∀ dBlocks, (m'.img 0).word 1 ≤ dBlocks → ∃ s, sfsDoMount m'.img dBlocks m'.inos = .ok s () := by
  have halloc := h.inv
  obtain ⟨⟨ρ, hinv⟩, -⟩ := halloc.ok
  obtain ⟨-, hninos, hunused⟩ := hinv.super_words
  have hmap : mountFreemap m.image = diskBitmap m.image (freemapBlocks m.ninos * 32768) := by
    rw [mountFreemap, hninos]
  obtain ⟨m', hm', himg⟩ : ∃ m', m' = { m with img := m.image } ∧ m'.img = m.image := ⟨_, rfl, rfl⟩
  refine ⟨m', hm' ▸ closeSfs_run hinv, ?_, ?_, fun b => ?_, fun d hd => ?_⟩
  all_goals rw [himg] at *
  · rw [hninos, halloc.ninos]
  · have hwords : (mountFreemap m.image).nbits = 32 * (mountFreemap m.image).map.length := by
      rw [(mountFreemap m.image).length_eq]
      show freemapBlocks _ * 32768 = 32 * ((freemapBlocks _ * 32768 + 31) / 32)
      omega
    rw [countUnused_run hwords, hmap, hinv.count_image, hunused]
  · rw [hmap, hinv.isFree_image, hninos, halloc.mem_usedBlocks, decide_eq_true_iff, Nat.not_lt]
  · rw [hninos] at hd
    obtain ⟨s, hs, -⟩ := (mount_image d hinv).2 hd
    rw [hm']
    exact ⟨s, hs⟩

/-- `create_sfs` accepts an image of five blocks, and the first block that is handed out is the fourth. -/
theorem image_mounts_five : ∃ m m', AllocRun (fun _ => zeroBlock) 5 [3] m ∧ closeSfs.run m = .ok () m' ∧
    (m'.img 0).word 1 = 5 := by
  have hcreate : createSfs.run (Mksfs.init (fun _ => zeroBlock) 5) = .ok () (Mksfs.created (fun _ => zeroBlock) 5) := rfl
  have hrun : AllocRun (fun _ => zeroBlock) 5 ([] ++ [3]) (Mksfs.created (fun _ => zeroBlock) 5).alloc :=
    AllocRun.alloc (AllocRun.create hcreate) (by rw [sfsAllocIno_run]; rfl)
  obtain ⟨m', hclose, hblocks, -⟩ := image_mounts hrun
  exact ⟨_, m', hrun, hclose, hblocks⟩

end Ucore.Tools
