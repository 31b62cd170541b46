import Ucore.Fs.SfsDisk
import Ucore.Fs.SfsFrame

/-!
# What reaches the disk

Runs of file operations, of `sfs_fsync` and of `sfs_sync` on a file system that has been mounted, and what is
on the disk after them.

* `SyncInv` is the invariant: an inode that is not dirty is on disk, its count of blocks apart, and so is the
  free map while `super_dirty` is not set.
* `sfs_bmap_load_nolock` raises the count of blocks of an inode without marking the inode as dirty. Mostly
  something else marks it; where nothing does, the growth is silent (`SilentGrowth`).
  `dirty_sound_of_marked_growth`: without silent growth an inode that is not dirty is on disk with all its
  fields. `short_truncate_not_marked` is a run with one.
* `sfs_fsync` writes the inode and nothing else, so a block that a synced file has may still be free on disk
  (`fsync_leaves_block_free`). `sfs_sync` writes the free map too: `remount_after_sync`.
-/

namespace Ucore.Fs

open Ucore.Lib Relation

variable {c : SfsConst} {s t : Sfs} {ino : ℕ}

/-! ### Writing an inode -/

/-- The inode on disk is the one in memory. -/
def Sfs.OnDisk (s : Sfs) (c : SfsConst) (ino : ℕ) : Prop :=
  (s.disk ino).read 0 64 = (s.inode ino).bytes (c.nlinks ino)

/-- The inode is written and is not dirty any more. -/
def Sfs.flushInode (s : Sfs) (c : SfsConst) (ino : ℕ) : Sfs :=
  (s.setInode ino fun d => { d with dirty := false }).writeBlock ino
    ((s.disk ino).splice 0 ((s.inode ino).bytes (c.nlinks ino)))

theorem SfsInode.length_bytes (d : SfsInode) (nlinks : ℕ) : (d.bytes nlinks).length = 64 := by
  rw [SfsInode.bytes, Block.read, List.length_map, List.length_range']

theorem sfsFsync_run (hino : ino ≠ 0 ∧ ino < s.blocks) :
    (sfsFsync c ino).run s = .ok () (if (s.inode ino).dirty = true then s.flushInode c ino else s) := by
  rw [sfsFsync, Prog.run_bind, Prog.run_get, Outcome.andThen_ok]
  by_cases hdirty : (s.inode ino).dirty = true
  · rw [if_pos hdirty, if_pos hdirty, Prog.run_bind, Prog.run_modify, Outcome.andThen_ok]
    have hw : (sfsWbuf ((s.inode ino).bytes (c.nlinks ino)) ino 0).run
        (s.setInode ino fun d => { d with dirty := false }) = .ok () (s.flushInode c ino) :=
      sfsWbuf_run hino (by rw [SfsInode.length_bytes]; omega)
    simp only [Prog.run_bind, Prog.attempt, hw, Outcome.andThen_ok, Prog.run_pure]
  · rw [if_neg hdirty, if_neg hdirty, Prog.run_pure]

section flush

variable (s c ino)

theorem Sfs.flushInode_inode :
    (s.flushInode c ino).inode = Function.update s.inode ino { s.inode ino with dirty := false } := rfl

theorem Sfs.flushInode_same : (s.flushInode c ino).inode ino = { s.inode ino with dirty := false } := by
  rw [Sfs.flushInode_inode, Function.update_self]

variable {ino}

theorem Sfs.flushInode_of_ne {ino' : ℕ} (h : ino' ≠ ino) : (s.flushInode c ino).inode ino' = s.inode ino' := by
  rw [Sfs.flushInode_inode, Function.update_of_ne h]

theorem Sfs.flushInode_disk_of_ne {b : ℕ} (h : b ≠ ino) : (s.flushInode c ino).disk b = s.disk b :=
  Function.update_of_ne h _ _

theorem Sfs.flushInode_onDisk : (s.flushInode c ino).OnDisk c ino := by
  have hread := Block.read_splice_same (s.disk ino) 0 ((s.inode ino).bytes (c.nlinks ino))
  rw [SfsInode.length_bytes] at hread
  rw [Sfs.OnDisk, Sfs.flushInode_same]
  show ((Function.update s.disk ino _) ino).read 0 64 = _
  rw [Function.update_self, hread]
  rfl

end flush

/-- Writing an inode is nothing to the files. -/
theorem Kept.flushInode (h : s.Consistent) (hino : ino ∈ s.inos) (h0 : ino ≠ 0) :
    Kept s (s.flushInode c ino) ino := by
  have hguard : s.Guarded ino := ⟨h0, Or.inl hino⟩
  have hg := h.guarded hguard
  have hslot : ∀ ino' ∈ s.inos, ∀ i, (s.flushInode c ino).slot ino' i = s.slot ino' i := by
    intro ino' hino' i
    have hd : ((s.flushInode c ino).inode ino').direct = (s.inode ino').direct ∧
        ((s.flushInode c ino).inode ino').indirect = (s.inode ino').indirect := by
      by_cases heq : ino' = ino
      · rw [heq, Sfs.flushInode_same]
        exact ⟨rfl, rfl⟩
      · rw [Sfs.flushInode_of_ne _ _ heq]
        exact ⟨rfl, rfl⟩
    exact Sfs.slot_congr (fun _ => by rw [hd.1]) hd.2 fun _ =>
      Sfs.flushInode_disk_of_ne _ _ (hg.2 ino' hino').1
  have hfields : ∀ ino', ((s.flushInode c ino).inode ino').indirect = (s.inode ino').indirect ∧
      ((s.flushInode c ino).inode ino').blocks = (s.inode ino').blocks := by
    intro ino'
    by_cases heq : ino' = ino
    · rw [heq, Sfs.flushInode_same]
      exact ⟨rfl, rfl⟩
    · rw [Sfs.flushInode_of_ne _ _ heq]
      exact ⟨rfl, rfl⟩
  obtain ⟨hcons, hlost⟩ : (s.flushInode c ino).Consistent ∧ (s.flushInode c ino).Lost = s.Lost :=
    h.congr rfl rfl rfl rfl (fun ino' => (hfields ino').1)
    hslot fun ino' => (hfields ino').2
  refine ⟨rfl, rfl, by rw [Sfs.flushInode_same], fun ino' hne => Sfs.flushInode_of_ne _ _ hne,
    fun ino' hino' _ i => hslot ino' hino' i, fun ino' hino' _ i hne => ?_, id, hcons, hlost⟩
  exact Sfs.flushInode_disk_of_ne _ _ ((hg.2 ino' hino').2 i)

/-! ### The invariant -/

/-- The superblock and the free map on disk are those in memory. -/
structure Sfs.SuperOnDisk (s : Sfs) : Prop where
  magic : (s.disk 0).word 0 = sfsMagic
  blocks : (s.disk 0).word 1 = s.blocks
  unused : (s.disk 0).word 2 = s.unusedBlocks
  freemap : ∀ j < freemapBlocks s.blocks, s.disk (2 + j) = s.freemap.block j

/-- The invariant of what is on disk. -/
structure SyncInv (c : SfsConst) (s : Sfs) : Prop where
  ok : s.Ok
  inode_ne : ∀ ino ∈ s.inos, ino ≠ 0
  /-- The blocks of the free map are there, and nobody's. -/
  room : 2 + freemapBlocks s.blocks ≤ s.blocks
  reserved : ∀ j < freemapBlocks s.blocks, s.Lost (2 + j)
  /-- An inode that is not dirty is on disk, its count of blocks apart. -/
  inodes : ∀ ino ∈ s.inos, (s.inode ino).dirty = false →
    ∃ n, (s.disk ino).read 0 64 = SfsInode.bytes { s.inode ino with blocks := n } (c.nlinks ino)
  super : s.superDirty = false → s.SuperOnDisk

/-- An inode that is not dirty is on disk. -/
def Sfs.DirtySound (s : Sfs) (c : SfsConst) : Prop :=
  ∀ ino ∈ s.inos, (s.inode ino).dirty = false → s.OnDisk c ino

/-- A file system as it has been mounted: what is in memory is what is on disk. -/
structure Mounted (c : SfsConst) (s : Sfs) : Prop where
  ok : s.Ok
  inode_ne : ∀ ino ∈ s.inos, ino ≠ 0
  room : 2 + freemapBlocks s.blocks ≤ s.blocks
  reserved : ∀ j < freemapBlocks s.blocks, s.Lost (2 + j)
  inodes : ∀ ino ∈ s.inos, s.OnDisk c ino
  super : s.SuperOnDisk

theorem Mounted.inv (h : Mounted c s) : SyncInv c s :=
  ⟨h.ok, h.inode_ne, h.room, h.reserved, fun ino hino _ => ⟨(s.inode ino).blocks, h.inodes ino hino⟩,
    fun _ => h.super⟩

theorem Mounted.dirtySound (h : Mounted c s) : s.DirtySound c := fun ino hino _ => h.inodes ino hino

section inv

theorem SyncInv.lt_blocks (h : SyncInv c s) (hino : ino ∈ s.inos) : ino ≠ 0 ∧ ino < s.blocks := by
  have h0 := h.inode_ne ino hino
  have hblk : s.blk (.inode ino) = ino := if_pos hino
  have hused := h.ok.consistent.used (.inode ino) (by rw [hblk]; exact h0)
  rw [hblk] at hused
  exact ⟨h0, hused.1⟩

theorem SyncInv.guarded_freemap (h : SyncInv c s) {j : ℕ} (hj : j < freemapBlocks s.blocks) :
    s.Guarded (2 + j) := ⟨by omega, Or.inr (h.reserved j hj)⟩

/-- A file operation keeps the invariant. -/
theorem SyncInv.framed {sin : ℕ} (h : SyncInv c s) (hframed : OpFramed s t sin) (hok : t.Ok) : SyncInv c t := by
  have hkept := hframed.kept
  refine ⟨hok, ?_, ?_, ?_, fun ino hino hclean => ?_, fun hclean => ?_⟩
  · rw [hkept.inos]
    exact h.inode_ne
  · rw [hkept.blocks]
    exact h.room
  · rw [hkept.blocks, hkept.lost]
    exact h.reserved
  · rw [hkept.inos] at hino
    rw [hframed.spares.disk ino ⟨h.inode_ne ino hino, Or.inl hino⟩]
    by_cases heq : ino = sin
    · subst heq
      rcases hframed.flag with hdirty | hgrows
      · rw [hclean] at hdirty
        cases hdirty
      · obtain ⟨hsame, -⟩ := hgrows.silent hclean
        rw [hsame] at hclean ⊢
        exact h.inodes ino hino hclean
    · rw [hkept.other ino heq] at hclean ⊢
      exact h.inodes ino hino hclean
  · rcases hframed.spares.super with hdirty | ⟨hdirty, hmap, hunused⟩
    · rw [hclean] at hdirty
      cases hdirty
    · have hsuper := h.super (hdirty.symm.trans hclean)
      refine ⟨?_, ?_, ?_, fun j hj => ?_⟩
      · rw [hframed.spares.zero]
        exact hsuper.magic
      · rw [hframed.spares.zero, hkept.blocks]
        exact hsuper.blocks
      · rw [hframed.spares.zero, hunused]
        exact hsuper.unused
      · rw [hkept.blocks] at hj
        rw [hframed.spares.disk _ (h.guarded_freemap hj), hmap]
        exact hsuper.freemap j hj

/-- Writing an inode keeps the invariant. -/
theorem SyncInv.flushInode (h : SyncInv c s) (hino : ino ∈ s.inos) : SyncInv c (s.flushInode c ino) := by
  have h0 := h.inode_ne ino hino
  have hkept := Kept.flushInode (c := c) h.ok.consistent hino h0
  refine ⟨?_, h.inode_ne, h.room, ?_, fun ino' hino' hclean => ?_, fun hclean => ?_⟩
  · refine ⟨hkept.consistent, fun ino' hino' htype => ?_⟩
    unfold Sfs.SizeMapped
    by_cases heq : ino' = ino
    · rw [heq, Sfs.flushInode_same] at htype ⊢
      exact h.ok.sizes ino hino htype
    · rw [Sfs.flushInode_of_ne _ _ heq] at htype ⊢
      exact h.ok.sizes ino' hino' htype
  · rw [hkept.lost]
    exact h.reserved
  · by_cases heq : ino' = ino
    · subst heq
      refine ⟨(s.inode ino').blocks, ?_⟩
      rw [Sfs.flushInode_onDisk c s, Sfs.flushInode_same]
    · rw [Sfs.flushInode_of_ne _ _ heq] at hclean ⊢
      rw [Sfs.flushInode_disk_of_ne _ _ heq]
      exact h.inodes ino' hino' hclean
  · have hsuper := h.super hclean
    have hdisk0 : (s.flushInode c ino).disk 0 = s.disk 0 := Sfs.flushInode_disk_of_ne _ _ h0.symm
    refine ⟨?_, ?_, ?_, fun j hj => ?_⟩
    · rw [hdisk0]
      exact hsuper.magic
    · rw [hdisk0]
      exact hsuper.blocks
    · rw [hdisk0]
      exact hsuper.unused
    · have hne : 2 + j ≠ ino := by
        rintro rfl
        exact (h.reserved j hj).2.2 (.inode (2 + j)) (if_pos hino)
      rw [Sfs.flushInode_disk_of_ne _ _ hne]
      exact hsuper.freemap j hj

theorem Sfs.DirtySound.flushInode (h : s.DirtySound c) (ino : ℕ) : (s.flushInode c ino).DirtySound c := by
  intro ino' hino' hclean
  by_cases heq : ino' = ino
  · subst heq
    exact Sfs.flushInode_onDisk c s
  · rw [Sfs.flushInode_of_ne _ _ heq] at hclean
    rw [Sfs.OnDisk, Sfs.flushInode_of_ne _ _ heq, Sfs.flushInode_disk_of_ne _ _ heq]
    exact h ino' hino' hclean

end inv

/-! ### `sfs_sync` -/

section sync

/-- The state after `sfs_fsync`. -/
def Sfs.fsynced (s : Sfs) (c : SfsConst) (ino : ℕ) : Sfs :=
  if (s.inode ino).dirty = true then s.flushInode c ino else s

/-- What `sfs_fsync` keeps, of one inode or of several. -/
structure Fsynced (c : SfsConst) (s t : Sfs) : Prop where
  inv : SyncInv c t
  inos : t.inos = s.inos
  blocks : t.blocks = s.blocks
  freemap : t.freemap = s.freemap
  unused : t.unusedBlocks = s.unusedBlocks
  dirtySound : s.DirtySound c → t.DirtySound c
  /-- No inode becomes dirty. -/
  clean : ∀ ino, (s.inode ino).dirty = false → (t.inode ino).dirty = false

theorem Fsynced.refl (h : SyncInv c s) : Fsynced c s s := ⟨h, rfl, rfl, rfl, rfl, id, fun _ => id⟩

theorem Fsynced.trans {u : Sfs} (h : Fsynced c s t) (h' : Fsynced c t u) : Fsynced c s u :=
  ⟨h'.inv, h'.inos.trans h.inos, h'.blocks.trans h.blocks, h'.freemap.trans h.freemap,
    h'.unused.trans h.unused, h'.dirtySound ∘ h.dirtySound, fun ino hclean => h'.clean ino (h.clean ino hclean)⟩

theorem SyncInv.fsynced (h : SyncInv c s) (hino : ino ∈ s.inos) :
    Fsynced c s (s.fsynced c ino) ∧ ((s.fsynced c ino).inode ino).dirty = false := by
  unfold Sfs.fsynced
  by_cases hdirty : (s.inode ino).dirty = true
  · rw [if_pos hdirty]
    refine ⟨⟨h.flushInode hino, rfl, rfl, rfl, rfl, fun hsound => hsound.flushInode ino, fun ino' hclean => ?_⟩, ?_⟩
    · by_cases heq : ino' = ino
      · rw [heq, Sfs.flushInode_same]
      · rw [Sfs.flushInode_of_ne _ _ heq]
        exact hclean
    · rw [Sfs.flushInode_same]
  · rw [if_neg hdirty]
    rw [Bool.not_eq_true] at hdirty
    exact ⟨Fsynced.refl h, hdirty⟩

theorem SyncInv.sfsFsync_run (h : SyncInv c s) (hino : ino ∈ s.inos) :
    (sfsFsync c ino).run s = .ok () (s.fsynced c ino) := Fs.sfsFsync_run (h.lt_blocks hino)

/-- The loop of `sfs_sync` over the inodes leaves none of them dirty. -/
theorem SyncInv.syncInodes (h : SyncInv c s) (inos : List ℕ) (hinos : ∀ ino ∈ inos, ino ∈ s.inos) :
    ∃ t, (syncInodes c inos).run s = .ok () t ∧ Fsynced c s t ∧
      ∀ ino ∈ inos, (t.inode ino).dirty = false := by
  induction inos generalizing s with
  | nil => exact ⟨s, rfl, Fsynced.refl h, fun _ hmem => absurd hmem List.not_mem_nil⟩
  | cons ino inos ih =>
    have hino := hinos ino List.mem_cons_self
    obtain ⟨hsynced, hclean⟩ := h.fsynced hino
    obtain ⟨t, hrun, hrest, hall⟩ := ih hsynced.inv fun ino' hino' => by
      rw [hsynced.inos]
      exact hinos ino' (List.mem_cons_of_mem _ hino')
    refine ⟨t, ?_, hsynced.trans hrest, fun ino' hino' => ?_⟩
    · simp only [Fs.syncInodes, Prog.run_bind, Prog.attempt, h.sfsFsync_run hino, Outcome.andThen_ok, hrun]
    · rcases List.mem_cons.mp hino' with rfl | hmem
      · exact hrest.clean ino' hclean
      · exact hall ino' hmem

/-- The blocks `js` of the free map are written. -/
def Sfs.writeFreemap (s : Sfs) (js : List ℕ) : Sfs :=
  { s with disk := fun b => if 2 ≤ b ∧ b - 2 ∈ js then s.freemap.block (b - 2) else s.disk b }

theorem syncFreemapLoop_run (js : List ℕ) (hjs : ∀ j ∈ js, 2 + j < s.blocks) :
    (syncFreemapLoop js).run s = .ok () (s.writeFreemap js) := by
  induction js generalizing s with
  | nil => simp [syncFreemapLoop, Sfs.writeFreemap]
  | cons j js ih =>
    have hj := hjs j List.mem_cons_self
    rw [syncFreemapLoop, Prog.run_bind, Prog.run_get, Outcome.andThen_ok,
      Prog.bind_of_ok (sfsWblock_run ⟨by omega, hj⟩ _)]
    rw [ih (s := s.writeBlock (2 + j) (s.freemap.block j)) fun j' hj' => hjs j' (List.mem_cons_of_mem _ hj')]
    congr 1
    simp only [Sfs.writeFreemap, Sfs.writeBlock, Sfs.mk.injEq, true_and, and_true]
    funext b
    by_cases hb : b = 2 + j
    · subst hb
      rw [Function.update_self, Nat.add_sub_cancel_left, ite_self, if_pos ⟨by omega, List.mem_cons_self⟩]
    · rw [Function.update_of_ne hb]
      have hiff : (2 ≤ b ∧ b - 2 ∈ js) ↔ (2 ≤ b ∧ b - 2 ∈ j :: js) := by
        rw [List.mem_cons]
        constructor
        · exact fun h => ⟨h.1, Or.inr h.2⟩
        · exact fun h => ⟨h.1, h.2.resolve_left fun heq => hb (by omega)⟩
      simp only [hiff]

/-- The state after `sfs_sync`, when `s` is the one with all inodes written. -/
def Sfs.superSynced (s : Sfs) (c : SfsConst) : Sfs :=
  ({ s with
    superDirty := false
    disk := Function.update s.disk 0 (superBlock s.blocks s.unusedBlocks c.info) } : Sfs).writeFreemap
    (List.range (freemapBlocks s.blocks))

theorem Sfs.superSynced_disk {b : ℕ} (hb0 : b ≠ 0) (hb : ∀ j < freemapBlocks s.blocks, b ≠ 2 + j) :
    (s.superSynced c).disk b = s.disk b := by
  show (if 2 ≤ b ∧ b - 2 ∈ List.range (freemapBlocks s.blocks) then _ else Function.update s.disk 0 _ b) = _
  rw [if_neg, Function.update_of_ne hb0]
  rintro ⟨h2, hmem⟩
  exact hb (b - 2) (List.mem_range.mp hmem) (by omega)

theorem Sfs.superSynced_onDisk (hblocks : s.unusedBlocks < 2 ^ 32) : (s.superSynced c).SuperOnDisk := by
  have h0 : (s.superSynced c).disk 0 = superBlock s.blocks s.unusedBlocks c.info := by
    show (if 2 ≤ 0 ∧ 0 - 2 ∈ List.range (freemapBlocks s.blocks) then s.freemap.block (0 - 2)
      else Function.update s.disk 0 (superBlock s.blocks s.unusedBlocks c.info) 0) = _
    rw [if_neg (by omega), Function.update_self]
  refine ⟨?_, ?_, ?_, fun j hj => ?_⟩
  · rw [h0, superBlock_word (by omega)]
    rfl
  · rw [h0, superBlock_word (by omega)]
    exact Nat.mod_eq_of_lt s.blocks_lt
  · rw [h0, superBlock_word (by omega)]
    exact Nat.mod_eq_of_lt hblocks
  · show (if 2 ≤ 2 + j ∧ 2 + j - 2 ∈ List.range (freemapBlocks s.blocks) then s.freemap.block (2 + j - 2)
      else _) = s.freemap.block j
    rw [Nat.add_sub_cancel_left, if_pos ⟨by omega, List.mem_range.mpr hj⟩]

theorem orDirty_of_ok {m : SfsProg Unit} (h : m.run s = .ok () t) : (orDirty m).run s = .ok () t := by
  simp only [orDirty, Prog.run_bind, Prog.attempt, h, Outcome.andThen_ok, Prog.run_pure]

theorem Bitmap.count_lt {b : Bitmap} {i : ℕ} (hi : i < 32 * b.map.length) (h : b.isFree i = false) :
    b.count < 32 * b.map.length := by
  have hgive := Bitmap.count_give h hi
  have hle : (b.flip i).count ≤ 32 * (b.flip i).map.length := by
    unfold Bitmap.count
    exact (Finset.card_filter_le _ _).trans (Finset.card_range _).le
  rw [Bitmap.length_flip] at hle
  omega

/-- The count of free blocks fits into its word. -/
theorem SyncInv.unused_lt (h : SyncInv c s) : s.unusedBlocks < 2 ^ 32 := by
  have hroom := h.room
  have hlt := s.blocks_lt
  have hshape := h.ok.consistent.shape
  have hlen := s.freemap.length_eq
  have hzero : 0 < freemapBlocks s.blocks := by
    unfold freemapBlocks
    omega
  have hused : s.freemap.isFree 2 = false := (h.reserved 0 hzero).2.1
  have hcount := Bitmap.count_lt (h.ok.consistent.lt_length (b := 2) (by omega)) hused
  rw [h.ok.consistent.count]
  omega

/-- **`sfs_sync`** writes all inodes, and then the superblock and the free map if they have changed. -/
theorem SyncInv.sfsSync_run (h : SyncInv c s) :
    ∃ s₁, Fsynced c s s₁ ∧ (∀ ino ∈ s₁.inos, (s₁.inode ino).dirty = false) ∧
      (sfsSync c).run s = .ok () (if s₁.superDirty = true then s₁.superSynced c else s₁) := by
  obtain ⟨s₁, hrun, hsynced, hclean⟩ := h.syncInodes s.inos fun _ hino => hino
  refine ⟨s₁, hsynced, by rw [hsynced.inos]; exact hclean, ?_⟩
  rw [sfsSync, Prog.run_bind, Prog.run_get, Outcome.andThen_ok, Prog.bind_of_ok hrun, Prog.run_bind,
    Prog.run_get, Outcome.andThen_ok]
  by_cases hdirty : s₁.superDirty = true
  · rw [if_pos hdirty, if_pos hdirty, Prog.run_bind, Prog.run_modify, Outcome.andThen_ok]
    have hroom := hsynced.inv.room
    have hsuper : (sfsSyncSuper c).run { s₁ with superDirty := false } = .ok ()
        (({ s₁ with superDirty := false } : Sfs).writeBlock 0
          (superBlock s₁.blocks s₁.unusedBlocks c.info)) := by
      simp only [sfsSyncSuper, Prog.run_bind, Prog.run_get, Outcome.andThen_ok,
        Prog.run_assert_of _ _ (show 0 < s₁.blocks by omega), Prog.run_modify]
    rw [Prog.bind_of_ok (orDirty_of_ok hsuper)]
    refine orDirty_of_ok ?_
    rw [sfsSyncFreemap, Prog.run_bind, Prog.run_get, Outcome.andThen_ok]
    refine syncFreemapLoop_run _ fun j hj => ?_
    have := List.mem_range.mp hj
    show 2 + j < s₁.blocks
    have hj' : j < freemapBlocks s₁.blocks := this
    omega
  · rw [if_neg hdirty, if_neg hdirty, Prog.run_pure]

/-- The blocks that the end of `sfs_sync` writes are neither inodes nor blocks of files. -/
theorem SyncInv.superSynced_disk (h : SyncInv c s) {o : Owner} (ho : s.blk o ≠ 0) :
    (s.superSynced c).disk (s.blk o) = s.disk (s.blk o) :=
  Sfs.superSynced_disk ho fun j hj heq => (h.reserved j hj).2.2 o heq

theorem SyncInv.superSynced (h : SyncInv c s) :
    SyncInv c (s.superSynced c) ∧ (s.DirtySound c → (s.superSynced c).DirtySound c) := by
  have hdisk : ∀ ino ∈ s.inos, (s.superSynced c).disk ino = s.disk ino := by
    intro ino hino
    have hblk : s.blk (.inode ino) = ino := if_pos hino
    have := h.superSynced_disk (o := .inode ino) (by rw [hblk]; exact h.inode_ne ino hino)
    rwa [hblk] at this
  have hslot : ∀ ino ∈ s.inos, ∀ i, (s.superSynced c).slot ino i = s.slot ino i := by
    intro ino hino i
    refine Sfs.slot_congr (fun _ => rfl) rfl fun hne => ?_
    have hblk : s.blk (.indirect ino) = (s.inode ino).indirect := if_pos hino
    have := h.superSynced_disk (o := .indirect ino) (by rw [hblk]; exact hne)
    rwa [hblk] at this
  obtain ⟨hcons, hlost⟩ : (s.superSynced c).Consistent ∧ (s.superSynced c).Lost = s.Lost :=
    h.ok.consistent.congr rfl rfl rfl rfl (fun _ => rfl) hslot
    fun _ => rfl
  refine ⟨⟨⟨hcons, h.ok.sizes⟩, h.inode_ne, h.room, ?_, fun ino hino hclean => ?_,
    fun _ => Sfs.superSynced_onDisk h.unused_lt⟩, fun hsound ino hino hclean => ?_⟩
  · rw [hlost]
    exact h.reserved
  · rw [hdisk ino hino]
    exact h.inodes ino hino hclean
  · rw [Sfs.OnDisk, hdisk ino hino]
    exact hsound ino hino hclean

/-- `sfs_sync` returns, and nothing is left to be written. -/
theorem SyncInv.sync (h : SyncInv c s) :
    ∃ t, (sfsSync c).run s = .ok () t ∧ SyncInv c t ∧ (s.DirtySound c → t.DirtySound c) ∧
      (∀ ino ∈ t.inos, (t.inode ino).dirty = false) ∧ t.superDirty = false ∧ t.blocks = s.blocks ∧
      t.inos = s.inos := by
  obtain ⟨s₁, hsynced, hclean, hrun⟩ := h.sfsSync_run
  by_cases hdirty : s₁.superDirty = true
  · rw [if_pos hdirty] at hrun
    obtain ⟨hinv, hsound⟩ := hsynced.inv.superSynced
    exact ⟨_, hrun, hinv, hsound ∘ hsynced.dirtySound, hclean, rfl, hsynced.blocks, hsynced.inos⟩
  · rw [if_neg hdirty] at hrun
    rw [Bool.not_eq_true] at hdirty
    exact ⟨s₁, hrun, hsynced.inv, hsynced.dirtySound, hclean, hdirty, hsynced.blocks, hsynced.inos⟩

end sync

/-! ### Mounting again -/

/-- The pointers that are read from disk are those in memory, when they have been written. -/
theorem Sfs.Consistent.diskInode_pointers (h : s.Consistent) (hino : ino ∈ s.inos) {d : SfsInode} {nlinks : ℕ}
    (hread : (s.disk ino).read 0 64 = d.bytes nlinks) (hdirect : d.direct = (s.inode ino).direct)
    (hindirect : d.indirect = (s.inode ino).indirect) :
    (∀ i < 12, (diskInode (s.disk ino)).direct i = (s.inode ino).direct i) ∧
      (diskInode (s.disk ino)).indirect = (s.inode ino).indirect := by
  have hlt := s.blocks_lt
  rw [← hdirect, ← hindirect]
  constructor
  · intro i hi
    refine diskInode_direct hread hi ?_
    rw [hdirect]
    by_cases hzero : (s.inode ino).direct i = 0
    · omega
    · have hslot : s.slot ino i = (s.inode ino).direct i := by rw [Sfs.slot, if_pos hi]
      have := (h.slot_used hino (by rw [hslot]; exact hzero)).1
      omega
  · refine diskInode_indirect hread ?_
    rw [hindirect]
    by_cases hzero : (s.inode ino).indirect = 0
    · omega
    · have := (h.indirect_used hino hzero).1
      omega

theorem SyncInv.diskInode_pointers (h : SyncInv c s) (hino : ino ∈ s.inos)
    (hclean : (s.inode ino).dirty = false) :
    (∀ i < 12, (diskInode (s.disk ino)).direct i = (s.inode ino).direct i) ∧
      (diskInode (s.disk ino)).indirect = (s.inode ino).indirect := by
  obtain ⟨n, hread⟩ := h.inodes ino hino hclean
  exact h.ok.consistent.diskInode_pointers hino hread rfl rfl

/-- The file system that is mounted when the inodes have been written. The superblock and the free map are
those of `s₀`. -/
theorem SyncInv.remount {s₀ : Sfs} (h : SyncInv c s) (hclean : ∀ ino ∈ s.inos, (s.inode ino).dirty = false)
    (h₀ : SyncInv c s₀) (hsuper : s₀.SuperOnDisk) (hzero : s.disk 0 = s₀.disk 0) (hblocks : s.blocks = s₀.blocks)
    (hfreemap : ∀ j < freemapBlocks s₀.blocks, s.disk (2 + j) = s₀.disk (2 + j)) {n : ℕ}
    (hd : s.blocks ≤ n) :
    ∃ t, sfsDoMount s.disk n s.inos = .ok t () ∧ t.blk = s.blk ∧ t.freemap = s₀.freemap ∧
      t.blocks = s.blocks ∧ t.unusedBlocks = s₀.unusedBlocks := by
  have hnbits : s₀.freemap.nbits = freemapBlocks s₀.blocks * 32768 := h₀.ok.consistent.shape
  have hword : (s.disk 0).word 1 = s₀.blocks := by rw [hzero, hsuper.blocks]
  have hmap : diskBitmap s.disk (freemapBlocks ((s.disk 0).word 1) * 32768) = s₀.freemap := by
    rw [hword, ← hnbits]
    refine diskBitmap_eq hnbits fun j hj => ?_
    rw [hfreemap j hj]
    exact hsuper.freemap j hj
  have hcount : ¬ (diskBitmap s.disk (freemapBlocks ((s.disk 0).word 1) * 32768)).count ≠ (s.disk 0).word 2 := by
    rw [hmap, hzero, hsuper.unused, not_not]
    exact h₀.ok.consistent.count.symm
  have hrun : sfsDoMount s.disk n s.inos = .ok
      { blocks := (s.disk 0).word 1
        unusedBlocks := (s.disk 0).word 2
        superDirty := false
        freemap := diskBitmap s.disk (freemapBlocks ((s.disk 0).word 1) * 32768)
        disk := s.disk
        inos := s.inos
        inode := fun ino => diskInode (s.disk ino)
        blocks_lt := Block.word_lt _ _ } () := by
    rw [sfsDoMount, if_neg (by rw [hzero, hsuper.magic, not_not]), if_neg (by rw [hword, ← hblocks]; omega)]
    simp only
    rw [if_neg hcount]
  refine ⟨_, hrun, ?_, hmap, hword.trans hblocks.symm, by rw [← hsuper.unused, ← hzero]⟩
  · funext o
    cases o with
    | inode ino => rfl
    | indirect ino =>
      simp only [Sfs.blk]
      split_ifs with hino
      · exact (h.diskInode_pointers hino (hclean ino hino)).2
      · rfl
    | data ino i =>
      simp only [Sfs.blk]
      split_ifs with hino
      · obtain ⟨hdirect, hindirect⟩ := h.diskInode_pointers hino (hclean ino hino)
        exact Sfs.slot_congr (fun hi => hdirect i hi) hindirect fun _ => rfl
      · rfl

/-! ### Growth that is not marked -/

/-- The operation adds blocks to a file, all of them through an indirect block that is there, and neither
changes its size nor ends the resizing: nothing sets the dirty flag. A read or a write does so where the size
is past the last block. -/
def SilentGrowth (s : Sfs) (op : SfsOp) : Prop :=
  (s.inode op.file).dirty = false ∧ 12 ≤ (s.inode op.file).blocks ∧ (s.inode op.file).indirect ≠ 0 ∧
    0 < s.freemap.count ∧
    match op with
    | .read sin offset alen => IoAccepted (s.inode sin).size offset alen false ∧
      4096 * (s.inode sin).blocks < ioEndpos (s.inode sin).size offset alen false
    | .write sin _ offset alen => IoAccepted (s.inode sin).size offset alen true ∧
      4096 * (s.inode sin).blocks < ioEndpos (s.inode sin).size offset alen true ∧
      ioEndpos (s.inode sin).size offset alen true ≤ (s.inode sin).size
    | .seek sin pos => pos < sfsMaxFileSize ∧
      s.freemap.count < (pos.toNat + 4095) / 4096 - (s.inode sin).blocks
    | .truncate sin len => len ≤ sfsMaxFileSize ∧
      s.freemap.count < (len.toNat + 4095) / 4096 - (s.inode sin).blocks

section silent

variable {sin : ℕ}

/-- The blocks that a file gets through its indirect block are free blocks of before. -/
theorem Progress.count_of_indirect (h : Progress s t sin) (hind : (s.inode sin).indirect ≠ 0)
    (hind' : (t.inode sin).indirect = (s.inode sin).indirect) {n : ℕ} (hn : (t.inode sin).blocks ≤ n) :
    t.freemap.count + (n - (s.inode sin).blocks) = s.freemap.count + (n - (t.inode sin).blocks) := by
  have hcount := h.count n hn
  have hmono := h.mono
  have hneed : ∀ u : Sfs, (u.inode sin).indirect ≠ 0 → u.needTo sin n = n - (u.inode sin).blocks := by
    intro u hu
    rw [Sfs.needTo]
    split_ifs with hle
    · omega
    · rename_i hcase
      exact absurd hcase.1 hu
    · omega
  rwa [hneed s hind, hneed t (by rw [hind']; exact hind)] at hcount

/-- A growth that failed part way. -/
theorem GrowShort.silent {len : ℕ} (h : GrowShort s t sin len) (hind : (s.inode sin).indirect ≠ 0)
    (hind' : (t.inode sin).indirect = (s.inode sin).indirect)
    (hgrown : (s.inode sin).blocks < (t.inode sin).blocks) :
    0 < s.freemap.count ∧ s.freemap.count < (len + 4095) / 4096 - (s.inode sin).blocks := by
  have hcount := h.progress.count_of_indirect hind hind' (Nat.le_refl _)
  have hneed := h.count
  have hshort := h.short
  rw [Sfs.need, if_pos (Or.inr (by rw [hind']; exact hind))] at hneed
  omega

/-- A truncation that returns has marked the inode, or done nothing. -/
theorem sfsTruncfile_marks (s : Sfs) (sin : ℕ) (len : ℤ) :
    ((sfsTruncfile sin len).run s).Post (fun _ t => t = s ∨ (t.inode sin).dirty = true) (fun _ _ => True)
      (fun _ => True) := by
  have htrue : ∀ {α : Type} (m : SfsProg α),
      (m.run s).Post (fun _ _ => True) (fun _ _ => True) (fun _ => True) := by
    intro α m
    cases m.run s <;> trivial
  have hdone : ∀ t : Sfs,
      ((do
        let s ← Prog.get
        Prog.assert ((s.inode sin).blocks = (len.toNat + 4095) / 4096) .truncDone
        Prog.modify fun s => s.setInode sin fun d => { d with size := len.toNat, dirty := true } :
        SfsProg Unit).run t).Post (fun _ t => t = s ∨ (t.inode sin).dirty = true) (fun _ _ => True)
        (fun _ => True) := by
    intro t
    rw [Prog.run_bind, Prog.run_get, Outcome.andThen_ok, Prog.run_bind, Prog.run_assert]
    split_ifs
    · exact Or.inr (by rw [Sfs.setInode_same])
    · trivial
  simp only [sfsTruncfile, Prog.run_ite]
  split_ifs with hrange
  · trivial
  rw [Prog.run_bind, Prog.run_get, Outcome.andThen_ok]
  simp only [Prog.run_ite]
  by_cases hsame : (s.inode sin).size = len.toNat
  · rw [if_pos hsame, Prog.run_assert]
    split_ifs
    · exact Or.inl rfl
    · trivial
  rw [if_neg hsame]
  by_cases hgrow : (s.inode sin).blocks < (len.toNat + 4095) / 4096
  · simp only [if_pos hgrow]
    exact (htrue _).bind fun _ t _ => hdone t
  · simp only [if_neg hgrow]
    exact (htrue _).bind fun _ t _ => hdone t

theorem sfsTryseek_marks (s : Sfs) (sin : ℕ) (pos : ℤ) :
    ((sfsTryseek sin pos).run s).Post (fun _ t => t = s ∨ (t.inode sin).dirty = true) (fun _ _ => True)
      (fun _ => True) := by
  simp only [sfsTryseek, Prog.run_ite]
  split_ifs with hrange
  · trivial
  rw [Prog.run_bind, Prog.run_get, Outcome.andThen_ok]
  simp only [Prog.run_ite]
  split_ifs
  · exact sfsTruncfile_marks _ _ pos
  · exact Or.inl rfl

/-- A transfer that has added blocks without raising the size. -/
theorem sfsIoNolock_silent (h : s.Ok) (hfile : s.IsFile sin) (buf : List UInt8) (offset : ℤ) (alen : ℕ)
    (write : Bool) :
    ((sfsIoNolock sin buf offset alen write).run s).Post
      (fun _ t => (t.inode sin).dirty = false → (s.inode sin).blocks < (t.inode sin).blocks →
        (s.inode sin).indirect ≠ 0 → (t.inode sin).indirect = (s.inode sin).indirect →
        0 < s.freemap.count ∧ IoAccepted (s.inode sin).size offset alen write ∧
          4096 * (s.inode sin).blocks < ioEndpos (s.inode sin).size offset alen write ∧
          ioEndpos (s.inode sin).size offset alen write ≤ (s.inode sin).size)
      (fun _ _ => False) (fun _ => True) := by
  have hmapped : (s.inode sin).size / 4096 ≤ (s.inode sin).blocks := h.sizes sin hfile.1 hfile.2
  refine (sfsIoNolock_post h.consistent hfile.1 hfile.not_dir).mono ?_ (fun _ _ hF => hF) fun _ _ => trivial
  rintro r t (⟨-, rfl⟩ | ⟨hacc, s₁, rfl, hio⟩) hclean hgrown hind hind'
  · exact absurd hgrown (Nat.lt_irrefl _)
  · -- the size has not been raised
    have hsize : offset.toNat + r.alen ≤ (s₁.inode sin).size := by
      by_contra hlt
      rw [Sfs.raiseSize, if_pos (by omega), Sfs.setInode_same] at hclean
      cases hclean
    rw [Sfs.raiseSize, if_neg (by omega)] at hgrown hind'
    rcases hio with ⟨-, hinv⟩ | hshort
    · have hend := hinv.alen
      have hgrow := hinv.grown hgrown
      have hcount := hinv.progress.count_of_indirect hind hind' (Nat.le_refl _)
      rw [hinv.progress.size] at hsize
      exact ⟨by omega, hacc, by omega, by omega⟩
    · -- a transfer that ends early ends with a block, and so behind the size
      have hgrow := hshort.inv.grown hgrown
      have hnext := hshort.next
      rw [hshort.inv.progress.size] at hsize
      omega

theorem sfsIoNolock_ok (h : s.Ok) (hfile : s.IsFile sin) (buf : List UInt8) (offset : ℤ) (alen : ℕ)
    (write : Bool) :
    ((sfsIoNolock sin buf offset alen write).run s).Post (fun _ t => t.Ok) (fun _ _ => False) (fun _ => True) := by
  have hsize := h.sizes sin hfile.1 hfile.2
  refine (sfsIoNolock_post h.consistent hfile.1 hfile.not_dir).mono ?_ (fun _ _ hF => hF) fun _ _ => trivial
  rintro r t (⟨-, rfl⟩ | ⟨hacc, s₁, rfl, ⟨-, hinv⟩ | hshort⟩)
  · exact h
  · have halen := hinv.alen
    have hmapped := hinv.mapped hacc.lt
    exact (hinv.progress.kept.trans (.raiseSize hinv.progress.kept.consistent sin _)).ok h
      ((hinv.progress.sizeMapped hsize).raiseSize (by omega))
  · have hnext := hshort.next
    exact (hshort.inv.progress.kept.trans (.raiseSize hshort.inv.progress.kept.consistent sin _)).ok h
      ((hshort.inv.progress.sizeMapped hsize).raiseSize (by omega))

/-- A growth that the dirty flag does not tell of comes from one of the cases of `SilentGrowth`. -/
theorem OpFramed.unchanged {op : SfsOp} (hframed : OpFramed s t op.file)
    (hsilent : (t.inode op.file).dirty = false → (s.inode op.file).dirty = false →
      12 ≤ (s.inode op.file).blocks → (s.inode op.file).indirect ≠ 0 → (t.inode op.file).indirect = (s.inode op.file).indirect →
      (s.inode op.file).blocks < (t.inode op.file).blocks → SilentGrowth s op)
    (hmarked : ¬ SilentGrowth s op) (hclean : (t.inode op.file).dirty = false) :
    t.inode op.file = s.inode op.file := by
  rcases hframed.flag with hdirty | hgrows
  · rw [hclean] at hdirty
    cases hdirty
  · obtain ⟨hsame, hcase⟩ := hgrows.silent hclean
    have hclean' : (s.inode op.file).dirty = false := by
      rw [hsame] at hclean
      exact hclean
    rcases Nat.eq_or_lt_of_le hgrows.1 with heq | hlt
    · rw [hsame, ← heq]
    · obtain ⟨hge, hind⟩ := hcase hlt
      exact absurd (hsilent hclean hclean' hge hind (by rw [hsame]) hlt) hmarked

end silent

/-- What a file operation has done: the inode of its file is dirty or the same, unless it has grown
silently. -/
theorem SfsOp.code_sound (h : s.Ok) {op : SfsOp} (hop : op.OnFile s) :
    (op.code.run s).Post
      (fun _ t => OpFramed s t op.file ∧ t.Ok ∧
        (¬ SilentGrowth s op → (t.inode op.file).dirty = false → t.inode op.file = s.inode op.file))
      (fun _ t => OpFramed s t op.file ∧ t.Ok ∧
        (¬ SilentGrowth s op → (t.inode op.file).dirty = false → t.inode op.file = s.inode op.file))
      (fun _ => True) := by
  have hframed := SfsOp.code_framed h.consistent hop
  cases op with
  | read sin offset alen =>
    have hfile : s.IsFile sin := hop
    have hio := (sfsIoNolock_silent h hfile [] offset alen false).and (sfsIoNolock_ok h hfile [] offset alen false)
    rw [SfsOp.code, Prog.run_bind] at hframed ⊢
    cases hrun : (sfsIoNolock sin [] offset alen false).run s with
    | ok r t =>
      rw [hrun] at hio hframed
      have hframed' : OpFramed s t (SfsOp.read sin offset alen).file := hframed
      refine ⟨hframed', hio.2, hframed'.unchanged fun hclean hclean' hge hind hind' hgrown => ?_⟩
      obtain ⟨hcount, hacc, hend, -⟩ := hio.1 hclean hgrown hind hind'
      exact ⟨hclean', hge, hind, hcount, hacc, hend⟩
    | error e t =>
      rw [hrun] at hio
      exact hio.1.elim
    | panic p => trivial
  | write sin buf offset alen =>
    have hfile : s.IsFile sin := hop
    have hio := (sfsIoNolock_silent h hfile buf offset alen true).and (sfsIoNolock_ok h hfile buf offset alen true)
    rw [SfsOp.code, Prog.run_bind] at hframed ⊢
    cases hrun : (sfsIoNolock sin buf offset alen true).run s with
    | ok r t =>
      rw [hrun] at hio hframed
      have hframed' : OpFramed s t (SfsOp.write sin buf offset alen).file := hframed
      refine ⟨hframed', hio.2, hframed'.unchanged fun hclean hclean' hge hind hind' hgrown => ?_⟩
      obtain ⟨hcount, hio'⟩ := hio.1 hclean hgrown hind hind'
      exact ⟨hclean', hge, hind, hcount, hio'⟩
    | error e t =>
      rw [hrun] at hio
      exact hio.1.elim
    | panic p => trivial
  | seek sin pos =>
    have hfile : s.IsFile sin := hop
    have hpost := (sfsTryseek_post h.consistent hfile.1 pos).and (sfsTryseek_ok_post h hfile pos)
    have hmarks := sfsTryseek_marks s sin pos
    rw [SfsOp.code] at hframed ⊢
    cases hrun : (sfsTryseek sin pos).run s with
    | ok _ t =>
      rw [hrun] at hpost hframed hmarks
      refine ⟨hframed, hpost.2.2, fun _ hclean => ?_⟩
      rcases hmarks with rfl | hdirty
      · rfl
      · rw [SfsOp.file, hdirty] at hclean
        cases hclean
    | error e t =>
      rw [hrun] at hpost hframed
      have hframed' : OpFramed s t (SfsOp.seek sin pos).file := hframed
      refine ⟨hframed', hpost.2.2, hframed'.unchanged fun hclean hclean' hge hind hind' hgrown => ?_⟩
      rcases hpost.1 with ⟨-, rfl, -⟩ | ⟨-, hmax, -, hshort⟩
      · exact absurd hgrown (Nat.lt_irrefl _)
      · obtain ⟨hcount, hless⟩ := hshort.silent hind hind' hgrown
        exact ⟨hclean', hge, hind, hcount, hmax, hless⟩
    | panic p => trivial
  | truncate sin len =>
    have hfile : s.IsFile sin := hop
    have hpost := (sfsTruncfile_post h.consistent hfile.1 len).and (sfsTruncfile_ok_post h hfile len)
    have hmarks := sfsTruncfile_marks s sin len
    rw [SfsOp.code] at hframed ⊢
    cases hrun : (sfsTruncfile sin len).run s with
    | ok _ t =>
      rw [hrun] at hpost hframed hmarks
      refine ⟨hframed, hpost.2.2, fun _ hclean => ?_⟩
      rcases hmarks with rfl | hdirty
      · rfl
      · rw [SfsOp.file, hdirty] at hclean
        cases hclean
    | error e t =>
      rw [hrun] at hpost hframed
      have hframed' : OpFramed s t (SfsOp.truncate sin len).file := hframed
      refine ⟨hframed', hpost.2.2, hframed'.unchanged fun hclean hclean' hge hind hind' hgrown => ?_⟩
      rcases hpost.1 with ⟨-, rfl, -⟩ | ⟨-, hmax, hshort⟩
      · exact absurd hgrown (Nat.lt_irrefl _)
      · obtain ⟨hcount, hless⟩ := hshort.silent hind hind' hgrown
        exact ⟨hclean', hge, hind, hcount, hmax, hless⟩
    | panic p => trivial

/-! ### Runs -/

/-- An operation on a mounted file system. -/
inductive SyncOp where
  | file (op : SfsOp)
  | fsync (ino : ℕ)
  | sync

/-- The code of an operation. -/
def SyncOp.code (c : SfsConst) : SyncOp → SfsProg Unit
  | .file op => op.code
  | .fsync ino => sfsFsync c ino
  | .sync => sfsSync c

/-- The operation is about a file, or an inode, of the image. -/
def SyncOp.OnFile (s : Sfs) : SyncOp → Prop
  | .file op => op.OnFile s
  | .fsync ino => ino ∈ s.inos
  | .sync => True

/-- An operation that satisfies `C`, and the state it leaves behind, whether it returns or fails. -/
def SyncStep (c : SfsConst) (C : Sfs → SyncOp → Prop) (s t : Sfs) : Prop :=
  ∃ op : SyncOp, op.OnFile s ∧ C s op ∧ ((op.code c).run s = .ok () t ∨ ∃ e, (op.code c).run s = .error e t)

/-- The states reached by operations that satisfy `C`. -/
def SyncReach (c : SfsConst) (C : Sfs → SyncOp → Prop) : Sfs → Sfs → Prop := ReflTransGen (SyncStep c C)

/-- A file operation that does not grow a file silently. -/
def MarkedGrowth (s : Sfs) : SyncOp → Prop
  | .file op => ¬ SilentGrowth s op
  | _ => True

/-- Every operation keeps the invariant, and the soundness of the dirty flags unless it grows a file
silently. -/
theorem SyncInv.step {C : Sfs → SyncOp → Prop} (h : SyncInv c s) (hstep : SyncStep c C s t) :
    SyncInv c t ∧ ((∀ op, C s op → MarkedGrowth s op) → s.DirtySound c → t.DirtySound c) := by
  obtain ⟨op, hop, hC, hrun⟩ := hstep
  cases op with
  | file op =>
    have hpost := SfsOp.code_sound h.ok hop
    have hframed : OpFramed s t op.file ∧ t.Ok ∧
        (¬ SilentGrowth s op → (t.inode op.file).dirty = false → t.inode op.file = s.inode op.file) := by
      rcases hrun with hrun | ⟨e, hrun⟩
      · rw [show op.code.run s = .ok () t from hrun] at hpost
        exact hpost
      · rw [show op.code.run s = .error e t from hrun] at hpost
        exact hpost
    obtain ⟨hframed, hok, hsame⟩ := hframed
    refine ⟨h.framed hframed hok, fun hmarked hsound ino hino hclean => ?_⟩
    have hino' : ino ∈ s.inos := by
      rw [← hframed.kept.inos]
      exact hino
    rw [Sfs.OnDisk, hframed.spares.disk ino ⟨h.inode_ne ino hino', Or.inl hino'⟩]
    by_cases heq : ino = op.file
    · subst heq
      have hsame' := hsame (hmarked (.file op) hC) hclean
      rw [hsame'] at hclean ⊢
      exact hsound _ hino' hclean
    · rw [hframed.kept.other ino heq] at hclean ⊢
      exact hsound ino hino' hclean
  | fsync ino =>
    have hok := h.sfsFsync_run hop
    rcases hrun with hrun | ⟨e, hrun⟩
    · rw [show (sfsFsync c ino).run s = .ok () t from hrun] at hok
      injection hok with _ hok
      subst hok
      obtain ⟨hsynced, -⟩ := h.fsynced hop
      exact ⟨hsynced.inv, fun _ => hsynced.dirtySound⟩
    · rw [show (sfsFsync c ino).run s = .error e t from hrun] at hok
      cases hok
  | sync =>
    obtain ⟨t', hok, hinv, hsound, -⟩ := h.sync
    rcases hrun with hrun | ⟨e, hrun⟩
    · rw [show (sfsSync c).run s = .ok () t from hrun] at hok
      injection hok with _ hok
      subst hok
      exact ⟨hinv, fun _ => hsound⟩
    · rw [show (sfsSync c).run s = .error e t from hrun] at hok
      cases hok

theorem SyncReach.inv {C : Sfs → SyncOp → Prop} {s₀ : Sfs} (h : SyncReach c C s₀ s) (h₀ : SyncInv c s₀) :
    SyncInv c s :=
  invariant_of_step (SyncInv c) h h₀ fun _ _ hinv hstep => (hinv.step hstep).1

/-- **The dirty flag is sound without silent growth**: in every state that is reached from a mounted file
system by operations none of which grows a file silently, an inode that is not dirty is on disk with all its
fields, and `sfs_fsync` leaves every inode on disk. -/
theorem dirty_sound_of_marked_growth {s₀ : Sfs} (h₀ : Mounted c s₀) (h : SyncReach c MarkedGrowth s₀ s) :
    (∀ ino ∈ s.inos, (s.inode ino).dirty = false → s.OnDisk c ino) ∧
      ∀ ino ∈ s.inos, ∃ t, (sfsFsync c ino).run s = .ok () t ∧ t.OnDisk c ino ∧
        t.inode ino = { s.inode ino with dirty := false } := by
  have hinv : SyncInv c s ∧ s.DirtySound c := by
    refine invariant_of_step (fun s => SyncInv c s ∧ s.DirtySound c) h ⟨h₀.inv, h₀.dirtySound⟩ ?_
    rintro a b ⟨hinv, hsound⟩ hstep
    obtain ⟨hinv', hsound'⟩ := hinv.step hstep
    exact ⟨hinv', hsound' (fun _ hC => hC) hsound⟩
  refine ⟨hinv.2, fun ino hino => ⟨_, hinv.1.sfsFsync_run hino, ?_⟩⟩
  unfold Sfs.fsynced
  by_cases hdirty : (s.inode ino).dirty = true
  · rw [if_pos hdirty]
    exact ⟨Sfs.flushInode_onDisk c s, Sfs.flushInode_same c s ino⟩
  · rw [if_neg hdirty]
    rw [Bool.not_eq_true] at hdirty
    exact ⟨hinv.2 ino hino hdirty, by rw [← hdirty]⟩

/-- **After `sfs_sync` the disk is consistent**: whatever operations have been made on a mounted file system,
`sfs_sync` returns, the disk can be mounted again, and every block that is reached from an inode on disk is marked
in use in the free map on disk. No allocation hands out one of them. -/
theorem remount_after_sync {s₀ : Sfs} (h₀ : Mounted c s₀) (h : SyncReach c (fun _ _ => True) s₀ s) {dBlocks : ℕ}
    (hd : s.blocks ≤ dBlocks) :
    ∃ t, (sfsSync c).run s = .ok () t ∧ ∃ t', sfsDoMount t.disk dBlocks t.inos = .ok t' () ∧
      (∀ o, t'.blk o ≠ 0 → t'.InUse (t'.blk o)) ∧
      ∀ b u, sfsBlockAlloc.run t' = .ok b u → ∀ o, t'.blk o ≠ b := by
  have hinv := h.inv h₀.inv
  obtain ⟨t, hrun, hinv', -, hclean, hsuper, hblocks, -⟩ := hinv.sync
  obtain ⟨t', hmount, hblk, hmap, hblocks', -⟩ := hinv'.remount hclean hinv' (hinv'.super hsuper) rfl rfl
    (fun _ _ => rfl) (show t.blocks ≤ dBlocks by rw [hblocks]; exact hd)
  have hused : ∀ o, t'.blk o ≠ 0 → t'.InUse (t'.blk o) := by
    intro o ho
    rw [Sfs.InUse, hblk, hmap, hblocks']
    rw [hblk] at ho
    exact hinv'.ok.consistent.used o ho
  refine ⟨t, hrun, t', hmount, hused, fun b u halloc o heq => ?_⟩
  have hspares := sfsBlockAlloc_spares (K := fun c => c ≠ 0 ∧ ∃ o, t'.blk o = c) (s := t') (by
    rintro c ⟨hc, o, rfl⟩
    exact (hused o hc).2)
  rw [halloc] at hspares
  exact hspares.2.1 ⟨hspares.2.2.1, o, heq⟩

/-! ### An image -/

/-- The inode of a file of `n` blocks, from 8 on, with the indirect block `e`. -/
def tailInode (n e : ℕ) : SfsInode := ⟨4096 * n, .file, n, fun i => if i < n then 8 + i else 0, e, false⟩

/-- An image of 64 blocks as it has been mounted. It has one file, number 4, and the free blocks `free`. -/
def tailImage (n e : ℕ) (free : List ℕ) : Sfs :=
  { blocks := 64
    unusedBlocks := free.length
    superDirty := false
    freemap := .ofFree 32768 free
    disk := fun b =>
      if b = 0 then superBlock 64 free.length []
      else if b = 2 then (Bitmap.ofFree 32768 free).block 0
      else if b = 4 then wordsBlock ((tailInode n e).words 1)
      else zeroBlock
    inos := [4]
    inode := fun _ => tailInode n e
    blocks_lt := blocks64_lt }

/-- Every inode has one link. -/
def oneLink : SfsConst := ⟨fun _ => 1, []⟩

section tailImage

variable {n e : ℕ} {free : List ℕ}

theorem tailImage_isFile : (tailImage n e free).IsFile 4 := ⟨List.mem_singleton.mpr rfl, rfl⟩

theorem tailImage_slot (free : List ℕ) (hn : n ≤ 12) (he : e = 0 ∨ e = 20) (i : ℕ) :
    (tailImage n e free).slot 4 i = if i < n then 8 + i else 0 := by
  have hentry : ∀ j, (tailImage n 20 free).entry 20 j = 0 := fun j => rfl
  rw [Sfs.slot]
  by_cases hi : i < 12
  · rw [if_pos hi]
    rfl
  · rw [if_neg hi, if_neg (show ¬ i < n by omega)]
    rcases he with rfl | rfl
    · exact if_neg fun hne => hne.2 rfl
    · split_ifs
      · exact hentry _
      · rfl

variable (hn : n ≤ 12) (he : e = 0 ∨ e = 20) (hfree : free.Nodup) (hlt : ∀ i ∈ free, 20 < i ∧ i < 64)

include hfree hlt

theorem tailImage_freemap : (∀ i, (tailImage n e free).freemap.isFree i = decide (i ∈ free)) ∧
    (tailImage n e free).freemap.count = free.length :=
  Bitmap.ofFree_spec hfree fun i hi => by have := hlt i hi; omega

theorem tailImage_inUse {b : ℕ} (hb : b ≤ 20) : (tailImage n e free).InUse b := by
  refine ⟨show b < 64 by omega, ?_⟩
  rw [(tailImage_freemap hfree hlt).1, decide_eq_false fun hmem => ?_]
  have := hlt b hmem
  omega

theorem tailImage_not_badFree : ¬ (tailImage n e free).BadFree := by
  rintro ⟨b, hb, hbad⟩
  rw [(tailImage_freemap hfree hlt).1, decide_eq_true_iff] at hb
  have := hlt b hb
  exact hbad ⟨by omega, this.2⟩

include hn he

theorem tailImage_consistent : (tailImage n e free).Consistent := by
  have hslot := tailImage_slot free hn he
  refine Sfs.Consistent.of_single rfl ?_ (tailImage_freemap hfree hlt).2.symm
    (tailImage_inUse hfree hlt (by omega)) (fun hne => ?_) (fun i hne => ?_) (fun i j hne heq => ?_)
    fun i hi => ?_
  · show (Bitmap.ofFree 32768 free).nbits = (64 + 32767) / 32768 * 32768
    rw [Bitmap.nbits_ofFree]
  · have hind : ((tailImage n e free).inode 4).indirect = e := rfl
    rw [hind] at hne ⊢
    exact ⟨tailImage_inUse hfree hlt (by omega), by omega⟩
  · have hind : ((tailImage n e free).inode 4).indirect = e := rfl
    rw [hslot] at hne ⊢
    rw [hind]
    split_ifs at hne ⊢ with hi
    · exact ⟨tailImage_inUse hfree hlt (by omega), by omega, by omega⟩
    · exact absurd rfl hne
  · rw [hslot] at hne
    rw [hslot, hslot] at heq
    split_ifs at hne heq <;> omega
  · have hi' : n ≤ i := hi
    rw [hslot, if_neg (by omega)]

theorem tailImage_mounted : Mounted oneLink (tailImage n e free) := by
  have hcons := tailImage_consistent hn he hfree hlt
  have hslot := tailImage_slot free hn he
  have hmap : freemapBlocks (tailImage n e free).blocks = 1 := by
    show (64 + 32767) / 32768 = 1
    omega
  refine ⟨⟨hcons, fun ino _ _ => ?_⟩, fun ino hino => ?_, ?_, fun j hj => ?_,
    fun ino hino => ?_, ?_⟩
  · show 4096 * n / 4096 ≤ n
    omega
  · obtain rfl := List.mem_singleton.mp hino
    decide
  · rw [hmap]
    show 2 + 1 ≤ 64
    omega
  · obtain rfl : j = 0 := by omega
    refine ⟨by decide, (tailImage_inUse hfree hlt (by omega)).2, fun o => ?_⟩
    cases o with
    | inode ino =>
      simp only [Sfs.blk]
      split_ifs with hino
      · obtain rfl := List.mem_singleton.mp hino
        decide
      · decide
    | indirect ino =>
      have hind : ((tailImage n e free).inode ino).indirect = e := rfl
      simp only [Sfs.blk, hind]
      split_ifs <;> omega
    | data ino i =>
      simp only [Sfs.blk]
      split_ifs with hino
      · obtain rfl := List.mem_singleton.mp hino
        rw [hslot]
        split_ifs <;> omega
      · decide
  · obtain rfl := List.mem_singleton.mp hino
    rfl
  · have hlen : free.length < 2 ^ 32 := by
      have hsub : free.Subperm (List.range 64) := List.subperm_of_subset hfree fun i hi =>
        List.mem_range.mpr (hlt i hi).2
      have hle := hsub.length_le
      rw [List.length_range] at hle
      omega
    refine ⟨?_, ?_, ?_, fun j hj => ?_⟩
    · exact superBlock_word (by omega)
    · exact superBlock_word (by omega)
    · exact (superBlock_word (by omega)).trans (Nat.mod_eq_of_lt hlen)
    · obtain rfl : j = 0 := by omega
      rfl

end tailImage

/-- A truncation that fails has added blocks and done nothing else to the inode. -/
theorem sfsTruncfile_short {sin : ℕ} (h : s.Consistent) (hsin : sin ∈ s.inos) (len : ℤ) :
    ((sfsTruncfile sin len).run s).Post (fun _ _ => True) (fun _ t => Grows (s.inode sin) (t.inode sin))
      (fun _ => True) := by
  have hdone : ∀ t : Sfs,
      ((do
        let s ← Prog.get
        Prog.assert ((s.inode sin).blocks = (len.toNat + 4095) / 4096) .truncDone
        Prog.modify fun s => s.setInode sin fun d => { d with size := len.toNat, dirty := true } :
        SfsProg Unit).run t).Post (fun _ _ => True) (fun _ t => Grows (s.inode sin) (t.inode sin))
        (fun _ => True) := by
    intro t
    rw [Prog.run_bind, Prog.run_get, Outcome.andThen_ok, Prog.run_bind, Prog.run_assert]
    split_ifs <;> trivial
  simp only [sfsTruncfile, Prog.run_ite]
  split_ifs with hrange
  · exact Grows.refl _
  rw [Prog.run_bind, Prog.run_get, Outcome.andThen_ok]
  simp only [Prog.run_ite]
  by_cases hsame : (s.inode sin).size = len.toNat
  · rw [if_pos hsame, Prog.run_assert]
    split_ifs <;> trivial
  rw [if_neg hsame]
  by_cases hgrow : (s.inode sin).blocks < (len.toNat + 4095) / 4096
  · simp only [if_pos hgrow]
    refine ((growBlocks_framed h hsin _ _).mono (fun _ _ ht => ht) (fun _ _ ht => ht.grows) fun _ hP => hP).bind ?_
    intro _ t _
    exact hdone t
  · simp only [if_neg hgrow]
    obtain ⟨t, hrun, -⟩ := shrinkBlocks_framed h hsin
      (show (s.inode sin).blocks - (len.toNat + 4095) / 4096 ≤ (s.inode sin).blocks by omega)
    rw [Prog.bind_of_ok hrun]
    exact hdone t

/-- A truncation to 14 blocks of a file of 12, with an indirect block and one free block. -/
theorem truncate_short {len : ℕ} (hlen : 53248 < len) (hlen' : len ≤ 57344) :
    ∃ s, (sfsTruncfile 4 len).run (tailImage 12 20 [21]) = .error .noMem s ∧ 4 ∈ s.inos ∧
      (s.inode 4).dirty = false ∧ (s.inode 4).blocks = 13 ∧ (diskInode (s.disk 4)).blocks = 12 ∧
      ¬ s.OnDisk oneLink 4 ∧ (sfsFsync oneLink 4).run s = .ok () s := by
  have hfree : ([21] : List ℕ).Nodup := by decide
  have hlt : ∀ i ∈ [21], 20 < i ∧ i < 64 := by decide
  have hmounted := tailImage_mounted (n := 12) (e := 20) (by omega) (Or.inr rfl) hfree hlt
  have hcount := (tailImage_freemap (n := 12) (e := 20) hfree hlt).2
  have hcons := hmounted.ok.consistent
  have hfile : (tailImage 12 20 [21]).IsFile 4 := tailImage_isFile
  have hpost := (sfsTruncfile_post hcons hfile.1 len).and ((sfsTruncfile_short hcons hfile.1 len).and
    (sfsTruncfile_framed hcons hfile.1 len))
  have hmax : sfsMaxFileSize = 134217728 := rfl
  have hneed : (tailImage 12 20 [21]).needTo 4 14 = 2 := rfl
  rw [Int.toNat_natCast] at hpost
  cases hrun : (sfsTruncfile 4 len).run (tailImage 12 20 [21]) with
  | ok _ s =>
    rw [hrun] at hpost
    have hfits := hpost.1.fits
    rw [show (len + 4095) / 4096 = 14 by omega, hneed, hcount, List.length_singleton] at hfits
    omega
  | error e s =>
    rw [hrun] at hpost
    obtain ⟨hcase, hgrows, hframed⟩ := hpost
    rcases hcase with ⟨-, -, hrange⟩ | ⟨rfl, -, hshort⟩
    · omega
    -- the indirect block is there, and so only the count has changed
    have hsame : s.inode 4 = { tailInode 12 20 with blocks := (s.inode 4).blocks } := by
      have hcase : 12 ≤ ((tailImage 12 20 [21]).inode 4).blocks ∧
          ((tailImage 12 20 [21]).inode 4).indirect ≠ 0 := by decide
      have := hgrows.2.2
      rwa [if_pos hcase] at this
    have hind : (s.inode 4).indirect = 20 := by rw [hsame]; rfl
    have hclean : (s.inode 4).dirty = false := by rw [hsame]; rfl
    have hblocks : (s.inode 4).blocks = 13 := by
      have h₀ : ((tailImage 12 20 [21]).inode 4).blocks = 12 := rfl
      have h₁ := hshort.short
      have h₂ := hshort.count
      have h₃ := hshort.progress.count_of_indirect (n := 14) (by decide) (by rw [hind]; rfl) (by omega)
      rw [Sfs.need, if_pos (Or.inr (by rw [hind]; decide))] at h₂
      rw [hcount, h₀, List.length_singleton] at h₃
      omega
    have hdisk : s.disk 4 = wordsBlock ((tailInode 12 20).words 1) :=
      hframed.spares.disk 4 ⟨by decide, Or.inl hfile.1⟩
    have hold : (diskInode (s.disk 4)).blocks = 12 := by
      rw [hdisk]
      exact word_wordsBlock _ 2
    have hmem : 4 ∈ s.inos := by
      rw [hframed.kept.inos]
      exact hfile.1
    have hlt4 : 4 < s.blocks := by
      rw [hframed.kept.blocks]
      decide
    refine ⟨s, rfl, hmem, hclean, hblocks, hold, fun hon => ?_, ?_⟩
    · have hword := word_of_bytes hon (j := 2) (by omega)
      rw [SfsInode.words, hblocks] at hword
      have hold' : (s.disk 4).word 2 = 12 := hold
      omega
    · rw [sfsFsync_run ⟨by decide, hlt4⟩, if_neg (by rw [hclean]; decide)]
  | panic p =>
    rw [hrun] at hpost
    have hsize := (hpost.1.2.size_eq (tailImage_not_badFree hfree hlt) (by omega)).1
    have hold : ((tailImage 12 20 [21]).inode 4).size = 4096 * 12 := rfl
    omega

/-- A file of 12 blocks that has an indirect block is extended to 14 blocks, with one free block. The call
fails, and has added a block: the inode in memory has 13 blocks, the one on disk has 12, and the dirty flag is
not set. -/
theorem short_truncate_not_marked : Mounted oneLink (tailImage 12 20 [21]) ∧
    ∃ s, (sfsTruncfile 4 (57344 : ℕ)).run (tailImage 12 20 [21]) = .error .noMem s ∧ 4 ∈ s.inos ∧
      (s.inode 4).dirty = false ∧ (s.inode 4).blocks = 13 ∧ (diskInode (s.disk 4)).blocks = 12 ∧
      ¬ s.OnDisk oneLink 4 ∧ (sfsFsync oneLink 4).run s = .ok () s :=
  ⟨tailImage_mounted (by omega) (Or.inr rfl) (by decide) (by decide), truncate_short (by omega) (Nat.le_refl _)⟩

/-- The file of the image gets its first block. -/
theorem tail_truncated : ∃ s, (sfsTruncfile 4 (4096 : ℕ)).run (tailImage 0 0 [21]) = .ok () s ∧
    Resized (tailImage 0 0 [21]) s 4 4096 ∧ OpFramed (tailImage 0 0 [21]) s 4 := by
  have hfree : ([21] : List ℕ).Nodup := by decide
  have hlt : ∀ i ∈ [21], 20 < i ∧ i < 64 := by decide
  have hcons := tailImage_consistent (n := 0) (e := 0) (by omega) (Or.inl rfl) hfree hlt
  have hfile : (tailImage 0 0 [21]).IsFile 4 := tailImage_isFile
  obtain ⟨s, hrun, hres⟩ := sfsTruncfile_ok hcons hfile.1 (tailImage_not_badFree hfree hlt) rfl
    (show 4096 ≤ 1036 * 4096 by omega)
    (by rw [(tailImage_freemap hfree hlt).2]; exact Nat.le_refl _)
  have hframed := sfsTruncfile_framed hcons hfile.1 (4096 : ℕ)
  rw [hrun] at hframed
  exact ⟨s, hrun, hres, hframed⟩

/-- The block it gets was free. -/
theorem tail_truncated_slot (hres : Resized (tailImage 0 0 [21]) s 4 4096) : s.blk (.data 4 0) = 21 := by
  have hfree : ([21] : List ℕ).Nodup := by decide
  have hlt : ∀ i ∈ [21], 20 < i ∧ i < 64 := by decide
  have hslot := tailImage_slot (n := 0) (e := 0) [21] (by omega) (Or.inl rfl)
  have hmem : 4 ∈ s.inos := by
    rw [hres.kept.inos]
    exact tailImage_isFile.1
  have hne : s.blk (.data 4 0) ≠ 0 := by
    have hfull : s.Full 4 := hres.full fun i hi => absurd hi (Nat.not_lt_zero i)
    have hblocks := hres.blocks
    rw [Sfs.blk, if_pos hmem]
    exact hfull 0 (by omega)
  have hown : ∀ o, (tailImage 0 0 [21]).blk o = 0 ∨ (tailImage 0 0 [21]).blk o = 4 := by
    intro o
    cases o with
    | inode ino =>
      simp only [Sfs.blk]
      split_ifs with hino
      · exact Or.inr (List.mem_singleton.mp hino)
      · exact Or.inl rfl
    | indirect ino =>
      simp only [Sfs.blk]
      split_ifs <;> exact Or.inl rfl
    | data ino i =>
      simp only [Sfs.blk]
      split_ifs with hino
      · obtain rfl : ino = 4 := List.mem_singleton.mp hino
        rw [hslot]
        exact Or.inl rfl
      · exact Or.inl rfl
  -- otherwise it would have been lost, and nothing gets lost or is found
  by_contra hb
  have hlost : (tailImage 0 0 [21]).Lost (s.blk (.data 4 0)) := by
    refine ⟨hne, ?_, fun o ho => ?_⟩
    · rw [(tailImage_freemap hfree hlt).1, decide_eq_false fun hin => hb (List.mem_singleton.mp hin)]
    · rcases hown o with hzero | hfour
      · exact hne (ho.symm.trans hzero)
      · have hinode : s.blk (.inode 4) = 4 := if_pos hmem
        have heq := hres.kept.consistent.inj (.inode 4) (.data 4 0) (by rw [hinode]; decide)
          (hinode.trans (hfour.symm.trans ho))
        cases heq
  rw [← hres.kept.lost] at hlost
  exact hlost.2.2 _ rfl

/-- **A synced file with a free block.** A file gets a block and is synced. On the disk, which can be mounted, the
block is free: the first allocation hands it out. -/
theorem fsync_leaves_block_free : Mounted oneLink (tailImage 0 0 [21]) ∧
    ∃ s t t', (sfsTruncfile 4 (4096 : ℕ)).run (tailImage 0 0 [21]) = .ok () s ∧
      (sfsFsync oneLink 4).run s = .ok () t ∧ sfsDoMount t.disk 64 t.inos = .ok t' () ∧
      t'.blk (.data 4 0) ≠ 0 ∧ ¬ t'.InUse (t'.blk (.data 4 0)) ∧
      ∃ u, sfsBlockAlloc.run t' = .ok (t'.blk (.data 4 0)) u := by
  have hfree : ([21] : List ℕ).Nodup := by decide
  have hlt : ∀ i ∈ [21], 20 < i ∧ i < 64 := by decide
  have hmounted := tailImage_mounted (n := 0) (e := 0) (by omega) (Or.inl rfl) hfree hlt
  obtain ⟨s, hrun, hres, hframed⟩ := tail_truncated
  have hinv : SyncInv oneLink s :=
    hmounted.inv.framed hframed (hres.kept.ok hmounted.ok hres.sizeMapped)
  have hmem : 4 ∈ s.inos := by
    rw [hres.kept.inos]
    exact tailImage_isFile.1
  obtain ⟨hsynced, hclean⟩ := hinv.fsynced hmem
  refine ⟨hmounted, s, s.fsynced oneLink 4, ?_⟩
  -- `sfs_fsync` writes block 4 only
  have hdisk : ∀ b ≠ 4, (s.fsynced oneLink 4).disk b = s.disk b := by
    intro b hb
    unfold Sfs.fsynced
    split_ifs
    · exact Sfs.flushInode_disk_of_ne _ _ hb
    · rfl
  have hblocks : (s.fsynced oneLink 4).blocks = 64 := by rw [hsynced.blocks, hres.kept.blocks]; rfl
  obtain ⟨t', hmount, hblk, hmap, hblocks', hunused⟩ := hsynced.inv.remount (n := 64)
    (fun ino hino => by
      rw [hsynced.inos, hres.kept.inos] at hino
      obtain rfl := List.mem_singleton.mp hino
      exact hclean)
    hmounted.inv hmounted.super (by rw [hdisk 0 (by decide), hframed.spares.zero]) hblocks
    (fun j hj => by
      have hmap : freemapBlocks (tailImage 0 0 [21]).blocks = 1 := by
        show (64 + 32767) / 32768 = 1
        omega
      obtain rfl : j = 0 := by omega
      rw [hdisk 2 (by decide), hframed.spares.disk 2 (hmounted.inv.guarded_freemap (j := 0) (by omega))])
    (by rw [hblocks])
  have hslot : t'.blk (.data 4 0) = 21 := by
    have hblk' : (s.fsynced oneLink 4).blk (.data 4 0) = s.blk (.data 4 0) := by
      unfold Sfs.fsynced
      split_ifs
      · simp only [Sfs.blk, Sfs.slot]
        rw [Sfs.flushInode_same]
        rfl
      · rfl
    rw [hblk, hblk']
    exact tail_truncated_slot hres
  have hmap21 : ∀ b, t'.freemap.isFree b = true ↔ b = 21 := by
    intro b
    rw [hmap, (tailImage_freemap hfree hlt).1, decide_eq_true_iff, List.mem_singleton]
  refine ⟨t', hrun, hinv.sfsFsync_run hmem, hmount, by rw [hslot]; decide, fun hused => ?_, ?_⟩
  · rw [hslot] at hused
    have := (hmap21 21).mpr rfl
    rw [hused.2] at this
    cases this
  · have hcons := hmounted.ok.consistent
    rcases sfsBlockAlloc_run (s := t')
        (by rw [hmap, hblocks', hblocks]; exact hcons.shape) (by rw [hunused, hmap]; exact hcons.count) with
      ⟨hnone, -⟩ | ⟨b, hb, ⟨-, -, halloc⟩ | ⟨hbad, -⟩⟩
    · rw [hmap, (tailImage_freemap hfree hlt).2] at hnone
      cases hnone
    · rw [hslot, ← (hmap21 b).mp hb]
      exact ⟨_, halloc⟩
    · rw [(hmap21 b).mp hb, hblocks', hblocks] at hbad
      exact absurd ⟨by decide, by decide⟩ hbad

/-- The file gets a block and is synced. -/
theorem dirty_sound_first_block : ∃ s, SyncReach oneLink MarkedGrowth (tailImage 0 0 [21]) s ∧
    (s.inode 4).blocks = 1 ∧ ∃ t, (sfsFsync oneLink 4).run s = .ok () t ∧ t.OnDisk oneLink 4 := by
  obtain ⟨s, hrun, hres, -⟩ := tail_truncated
  have hreach : SyncReach oneLink MarkedGrowth (tailImage 0 0 [21]) s := by
    refine .single ⟨.file (.truncate 4 (4096 : ℕ)), tailImage_isFile, fun hsilent => ?_, Or.inl hrun⟩
    exact absurd hsilent.2.1 (by decide)
  have hmem : 4 ∈ s.inos := by
    rw [hres.kept.inos]
    exact tailImage_isFile.1
  obtain ⟨t, hsync, hon, -⟩ := (dirty_sound_of_marked_growth
    (tailImage_mounted (by omega) (Or.inl rfl) (by decide) (by decide)) hreach).2 4 hmem
  exact ⟨s, hreach, hres.blocks, t, hsync, hon⟩

/-- The file gets a block, and everything is synced: the block is in use on disk. -/
theorem remount_after_first_block : ∃ s, SyncReach oneLink (fun _ _ => True) (tailImage 0 0 [21]) s ∧
    (s.inode 4).blocks = 1 ∧ ∃ t, (sfsSync oneLink).run s = .ok () t ∧
      ∃ t', sfsDoMount t.disk 64 t.inos = .ok t' () ∧ ∀ o, t'.blk o ≠ 0 → t'.InUse (t'.blk o) := by
  obtain ⟨s, hrun, hres, -⟩ := tail_truncated
  have hreach : SyncReach oneLink (fun _ _ => True) (tailImage 0 0 [21]) s :=
    .single ⟨.file (.truncate 4 (4096 : ℕ)), tailImage_isFile, trivial, Or.inl hrun⟩
  obtain ⟨t, hsync, t', hmount, hused, -⟩ := remount_after_sync
    (tailImage_mounted (by omega) (Or.inl rfl) (by decide) (by decide)) hreach
    (show s.blocks ≤ 64 by rw [hres.kept.blocks]; exact Nat.le_refl _)
  exact ⟨s, hreach, hres.blocks, t, hsync, t', hmount, hused⟩

end Ucore.Fs
