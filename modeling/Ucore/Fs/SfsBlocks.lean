import Ucore.Fs.Sfs
import Ucore.Lib.Ownership

/-!
# Who owns which block

The blocks of an image belong to inodes: the block an inode lives in, its indirect block and its
data blocks (`Owner`, `Sfs.blk`). `Sfs.Consistent` is the condition of a consistent image.

* `sfsBlockAlloc_run`, `sfsBlockFree_run`: what the block allocator does.
* `sfsBmapLoadNolock_post`: the block map either finds a block (nothing changes), or appends one to
  the file (`Appended`), or fails for lack of free blocks (`Untouched`), or stops at one of the
  places that `LoadPanic` lists.
* `sfsBmapTruncateNolock_run`: the last block of a file is dropped (`Dropped`).

`Appended`, `Untouched` and `Dropped` say everything the rest of the development needs to know
about the block map, that the image stays consistent among it.
-/

namespace Ucore.Fs

open Ucore.Lib

/-! ### Slots and owners -/

/-- The entry `j` of the entry block `ent`. -/
def Sfs.entry (s : Sfs) (ent j : ℕ) : ℕ := getU32 ((s.disk ent).read (j * 4) 4)

/-- The block at index `i` of a file, or 0. -/
def Sfs.slot (s : Sfs) (ino i : ℕ) : ℕ :=
  if i < 12 then (s.inode ino).direct i
  else if i < 1036 ∧ (s.inode ino).indirect ≠ 0 then s.entry (s.inode ino).indirect (i - 12)
  else 0

/-- The places from which a block is reached. -/
inductive Owner where
  /-- The block the inode itself is stored in. -/
  | inode (ino : ℕ)
  /-- The indirect block of an inode. -/
  | indirect (ino : ℕ)
  /-- The block at index `i` of the file. -/
  | data (ino i : ℕ)
  deriving Repr, DecidableEq

/-- The block that an owner holds, or 0. -/
def Sfs.blk (s : Sfs) : Owner → ℕ
  | .inode ino => if ino ∈ s.inos then ino else 0
  | .indirect ino => if ino ∈ s.inos then (s.inode ino).indirect else 0
  | .data ino i => if ino ∈ s.inos then s.slot ino i else 0

/-- A block is marked in use. -/
def Sfs.InUse (s : Sfs) (b : ℕ) : Prop := b < s.blocks ∧ s.freemap.isFree b = false

/-- A consistent image. -/
structure Sfs.Consistent (s : Sfs) : Prop where
  /-- The free map has `sfs_freemap_bits(super)` bits. -/
  shape : s.freemap.nbits = (s.blocks + 32767) / 32768 * 32768
  /-- `unused_blocks` is the number of set bits of the free map. -/
  count : s.unusedBlocks = s.freemap.count
  /-- A block that is reached from an inode is marked in use. -/
  used : ∀ o, s.blk o ≠ 0 → s.InUse (s.blk o)
  /-- No block is reached twice. -/
  inj : ∀ o o', s.blk o ≠ 0 → s.blk o = s.blk o' → o = o'
  /-- Entries at or past the block count of an inode are 0. -/
  tail : ∀ ino ∈ s.inos, ∀ i, (s.inode ino).blocks ≤ i → s.slot ino i = 0

/-- The blocks that are in use and not reached from any inode: the superblock's and the free map's,
and any that got lost. -/
def Sfs.Lost (s : Sfs) : ℕ → Prop := Stray s.freemap.isFree s.blk

/-- An image with one inode is consistent when its blocks are in use, nonzero entries differ, and
there are none past the block count. -/
theorem Sfs.Consistent.of_single {s : Sfs} {ino : ℕ} (hinos : s.inos = [ino])
    (hshape : s.freemap.nbits = (s.blocks + 32767) / 32768 * 32768)
    (hcount : s.unusedBlocks = s.freemap.count) (hino : s.InUse ino)
    (hind : (s.inode ino).indirect ≠ 0 →
      s.InUse (s.inode ino).indirect ∧ (s.inode ino).indirect ≠ ino)
    (hslot : ∀ i, s.slot ino i ≠ 0 →
      s.InUse (s.slot ino i) ∧ s.slot ino i ≠ ino ∧ s.slot ino i ≠ (s.inode ino).indirect)
    (hinj : ∀ i j, s.slot ino i ≠ 0 → s.slot ino i = s.slot ino j → i = j)
    (htail : ∀ i, (s.inode ino).blocks ≤ i → s.slot ino i = 0) : s.Consistent := by
  -- an owner that holds a block belongs to the one inode
  have hown : ∀ o, s.blk o ≠ 0 →
      o = .inode ino ∧ s.blk o = ino ∨ o = .indirect ino ∧ s.blk o = (s.inode ino).indirect ∨
      ∃ i, o = .data ino i ∧ s.blk o = s.slot ino i := by
    intro o ho
    cases o with
    | inode k =>
      by_cases hk : k = ino
      · subst hk
        exact Or.inl ⟨rfl, by simp [Sfs.blk, hinos]⟩
      · exact absurd (by simp [Sfs.blk, hinos, hk]) ho
    | indirect k =>
      by_cases hk : k = ino
      · subst hk
        exact Or.inr (Or.inl ⟨rfl, by simp [Sfs.blk, hinos]⟩)
      · exact absurd (by simp [Sfs.blk, hinos, hk]) ho
    | data k i =>
      by_cases hk : k = ino
      · subst hk
        exact Or.inr (Or.inr ⟨i, rfl, by simp [Sfs.blk, hinos]⟩)
      · exact absurd (by simp [Sfs.blk, hinos, hk]) ho
  refine ⟨hshape, hcount, fun o ho => ?_, fun o o' ho heq => ?_, fun k hk i hi => ?_⟩
  · rcases hown o ho with ⟨-, hb⟩ | ⟨-, hb⟩ | ⟨i, -, hb⟩
    · rw [hb]
      exact hino
    · rw [hb] at ho ⊢
      exact (hind ho).1
    · rw [hb] at ho ⊢
      exact (hslot i ho).1
  · have ho' : s.blk o' ≠ 0 := heq ▸ ho
    rcases hown o ho with ⟨rfl, hb⟩ | ⟨rfl, hb⟩ | ⟨i, rfl, hb⟩ <;>
      rcases hown o' ho' with ⟨rfl, hb'⟩ | ⟨rfl, hb'⟩ | ⟨j, rfl, hb'⟩ <;>
      rw [hb] at ho heq <;> rw [hb'] at ho' heq
    · exact absurd heq.symm (hind ho').2
    · exact absurd heq.symm (hslot j ho').2.1
    · exact absurd heq (hind ho).2
    · exact absurd heq.symm (hslot j ho').2.2
    · exact absurd heq (hslot i ho).2.1
    · exact absurd heq (hslot i ho).2.2
    · rw [hinj i j ho heq]
  · rw [hinos, List.mem_singleton] at hk
    subst hk
    exact htail i hi

/-! ### Elementary changes -/

/-- A free block is taken and cleared. -/
def Sfs.take (s : Sfs) (b : ℕ) : Sfs :=
  { s with
    freemap := s.freemap.flip b
    unusedBlocks := s.unusedBlocks - 1
    superDirty := true
    disk := Function.update s.disk b zeroBlock }

/-- A block is given back. -/
def Sfs.give (s : Sfs) (b : ℕ) : Sfs :=
  { s with
    freemap := s.freemap.flip b
    unusedBlocks := s.unusedBlocks + 1
    superDirty := true }

/-- A block gets new content. -/
def Sfs.writeBlock (s : Sfs) (b : ℕ) (blk : Block) : Sfs :=
  { s with disk := Function.update s.disk b blk }

/-- An entry of an entry block is changed. -/
def Sfs.putEntry (s : Sfs) (ent j n : ℕ) : Sfs :=
  s.writeBlock ent ((s.disk ent).splice (j * 4) (putU32 n))

section fields

variable (s : Sfs) (b : ℕ) (blk : Block) (ent j n sin : ℕ) (f : SfsInode → SfsInode)

@[simp] theorem Sfs.take_blocks : (s.take b).blocks = s.blocks := rfl
@[simp] theorem Sfs.take_inos : (s.take b).inos = s.inos := rfl
@[simp] theorem Sfs.take_inode : (s.take b).inode = s.inode := rfl
@[simp] theorem Sfs.take_freemap : (s.take b).freemap = s.freemap.flip b := rfl
@[simp] theorem Sfs.give_blocks : (s.give b).blocks = s.blocks := rfl
@[simp] theorem Sfs.give_inos : (s.give b).inos = s.inos := rfl
@[simp] theorem Sfs.give_inode : (s.give b).inode = s.inode := rfl
@[simp] theorem Sfs.give_freemap : (s.give b).freemap = s.freemap.flip b := rfl
@[simp] theorem Sfs.give_disk : (s.give b).disk = s.disk := rfl
@[simp] theorem Sfs.writeBlock_blocks : (s.writeBlock b blk).blocks = s.blocks := rfl
@[simp] theorem Sfs.writeBlock_inos : (s.writeBlock b blk).inos = s.inos := rfl
@[simp] theorem Sfs.writeBlock_inode : (s.writeBlock b blk).inode = s.inode := rfl
@[simp] theorem Sfs.writeBlock_freemap : (s.writeBlock b blk).freemap = s.freemap := rfl
@[simp] theorem Sfs.writeBlock_unusedBlocks :
    (s.writeBlock b blk).unusedBlocks = s.unusedBlocks := rfl
@[simp] theorem Sfs.putEntry_blocks : (s.putEntry ent j n).blocks = s.blocks := rfl
@[simp] theorem Sfs.putEntry_inos : (s.putEntry ent j n).inos = s.inos := rfl
@[simp] theorem Sfs.putEntry_inode : (s.putEntry ent j n).inode = s.inode := rfl
@[simp] theorem Sfs.putEntry_freemap : (s.putEntry ent j n).freemap = s.freemap := rfl
@[simp] theorem Sfs.putEntry_unusedBlocks :
    (s.putEntry ent j n).unusedBlocks = s.unusedBlocks := rfl
@[simp] theorem Sfs.setInode_blocks : (s.setInode sin f).blocks = s.blocks := rfl
@[simp] theorem Sfs.setInode_inos : (s.setInode sin f).inos = s.inos := rfl
@[simp] theorem Sfs.setInode_freemap : (s.setInode sin f).freemap = s.freemap := rfl
@[simp] theorem Sfs.setInode_disk : (s.setInode sin f).disk = s.disk := rfl
@[simp] theorem Sfs.setInode_unusedBlocks : (s.setInode sin f).unusedBlocks = s.unusedBlocks := rfl

@[simp] theorem Sfs.setInode_same : (s.setInode sin f).inode sin = f (s.inode sin) := by
  simp [Sfs.setInode]

theorem Sfs.setInode_of_ne {ino : ℕ} (h : ino ≠ sin) :
    (s.setInode sin f).inode ino = s.inode ino := by
  simp [Sfs.setInode, Function.update_of_ne h]

end fields

/-! ### Entries of an entry block -/

theorem getU32_putU32 {n : ℕ} (h : n < 2 ^ 32) : getU32 (putU32 n) = n := by
  simp only [getU32, putU32, UInt8.toNat_ofNat']
  omega

@[simp] theorem length_putU32 (n : ℕ) : (putU32 n).length = 4 := rfl

theorem Block.read_splice_same (blk : Block) (offset : ℕ) (data : List UInt8) :
    (blk.splice offset data).read offset data.length = data := by
  apply List.ext_getElem
  · simp [Block.read]
  · intro k h₁ h₂
    simp only [Block.read, List.getElem_map, List.getElem_range', Nat.one_mul, Block.splice]
    rw [if_pos (by omega), Nat.add_sub_cancel_left, List.getD_eq_getElem _ _ h₂]

theorem Block.read_congr {blk blk' : Block} {offset len : ℕ}
    (h : ∀ k, offset ≤ k → k < offset + len → blk' k = blk k) :
    blk'.read offset len = blk.read offset len := by
  rw [Block.read, Block.read, List.map_inj_left]
  intro k hk
  rw [List.mem_range'_1] at hk
  exact h k hk.1 hk.2

theorem Block.splice_of_not_mem (blk : Block) {offset k : ℕ} {data : List UInt8}
    (h : ¬ (offset ≤ k ∧ k < offset + data.length)) : blk.splice offset data k = blk k := if_neg h

theorem Sfs.entry_congr {s s' : Sfs} {ent : ℕ} (h : s'.disk ent = s.disk ent) (j : ℕ) :
    s'.entry ent j = s.entry ent j := by
  rw [Sfs.entry, Sfs.entry, h]

theorem Sfs.entry_putEntry (s : Sfs) (ent : ℕ) {n : ℕ} (hn : n < 2 ^ 32) (j j' : ℕ) :
    (s.putEntry ent j n).entry ent j' = if j' = j then n else s.entry ent j' := by
  simp only [Sfs.entry, Sfs.putEntry, Sfs.writeBlock, Function.update_self]
  split_ifs with heq
  · subst heq
    have := Block.read_splice_same (s.disk ent) (j' * 4) (putU32 n)
    rw [length_putU32] at this
    rw [this, getU32_putU32 hn]
  · congr 1
    apply Block.read_congr
    intro k h₁ h₂
    exact Block.splice_of_not_mem _ (by rw [length_putU32]; omega)

theorem Sfs.entry_zeroBlock {s : Sfs} {ent : ℕ} (h : s.disk ent = zeroBlock) (j : ℕ) :
    s.entry ent j = 0 := by
  rw [Sfs.entry, h]
  rfl

/-- A slot depends on the pointers of its inode and on the content of the indirect block. -/
theorem Sfs.slot_congr {s s' : Sfs} {ino i : ℕ}
    (hdirect : i < 12 → (s'.inode ino).direct i = (s.inode ino).direct i)
    (hindirect : (s'.inode ino).indirect = (s.inode ino).indirect)
    (hdisk : (s.inode ino).indirect ≠ 0 →
      s'.disk (s.inode ino).indirect = s.disk (s.inode ino).indirect) :
    s'.slot ino i = s.slot ino i := by
  unfold Sfs.slot
  rw [hindirect]
  split_ifs with h₁ h₂
  · exact hdirect h₁
  · exact Sfs.entry_congr (hdisk h₂.2) _
  · rfl

/-! ### The block allocator -/

section freemap

variable {s : Sfs}

theorem Sfs.Consistent.lt_nbits (h : s.Consistent) {b : ℕ} (hb : b < s.blocks) :
    b < s.freemap.nbits := by
  rw [h.shape]
  omega

theorem Sfs.Consistent.lt_length (h : s.Consistent) {b : ℕ} (hb : b < s.blocks) :
    b < 32 * s.freemap.map.length := by
  have := h.lt_nbits hb
  have := s.freemap.length_eq
  omega

theorem Sfs.Consistent.owned (h : s.Consistent) : Owned s.freemap.isFree s.blk :=
  ⟨fun o ho => (h.used o ho).2, h.inj⟩

theorem onFreemap_ok {α : Type} {m : Prog BitmapPanic FsError Bitmap α} {a : α} {b : Bitmap}
    (h : m.run s.freemap = .ok a b) : (onFreemap m).run s = .ok a { s with freemap := b } := by
  simp only [onFreemap, Prog.zoom, h]

theorem onFreemap_error {α : Type} {m : Prog BitmapPanic FsError Bitmap α} {e : FsError}
    {b : Bitmap} (h : m.run s.freemap = .error e b) :
    (onFreemap m).run s = .error e { s with freemap := b } := by
  simp only [onFreemap, Prog.zoom, h]

theorem sfsBlockInuse_run {b : ℕ} (hbits : b < s.freemap.nbits) (hb : b ≠ 0 ∧ b < s.blocks) :
    (sfsBlockInuse b).run s = .ok (!s.freemap.isFree b) s := by
  simp only [sfsBlockInuse, Prog.run_bind, Prog.run_get, Outcome.andThen_ok, if_pos hb,
    onFreemap_ok (bitmapTest_run hbits), Prog.run_pure]

theorem sfsBlockInuse_range {b : ℕ} (hb : ¬ (b ≠ 0 ∧ b < s.blocks)) :
    (sfsBlockInuse b).run s = .panic .inuseRange := by
  simp only [sfsBlockInuse, Prog.run_bind, Prog.run_get, Outcome.andThen_ok, if_neg hb,
    Prog.run_stop]

theorem sfsRblock_run {b : ℕ} (hb : b ≠ 0 ∧ b < s.blocks) :
    (sfsRblock b).run s = .ok (s.disk b) s := by
  simp only [sfsRblock, Prog.run_bind, Prog.run_get, Outcome.andThen_ok, Prog.run_assert_of _ _ hb,
    Prog.run_pure]

theorem sfsWblock_run {b : ℕ} (hb : b ≠ 0 ∧ b < s.blocks) (blk : Block) :
    (sfsWblock blk b).run s = .ok () (s.writeBlock b blk) := by
  simp only [sfsWblock, Prog.run_bind, Prog.run_get, Outcome.andThen_ok, Prog.run_assert_of _ _ hb,
    Prog.run_modify]
  rfl

theorem sfsRbuf_run {b len offset : ℕ} (hb : b ≠ 0 ∧ b < s.blocks)
    (hoff : offset < 4096 ∧ offset + len ≤ 4096) :
    (sfsRbuf len b offset).run s = .ok ((s.disk b).read offset len) s := by
  simp only [sfsRbuf, Prog.run_bind, Prog.run_assert_of _ _ hoff, Outcome.andThen_ok,
    sfsRblock_run hb, Prog.run_pure]

theorem sfsWbuf_run {b offset : ℕ} {data : List UInt8} (hb : b ≠ 0 ∧ b < s.blocks)
    (hoff : offset < 4096 ∧ offset + data.length ≤ 4096) :
    (sfsWbuf data b offset).run s = .ok () (s.writeBlock b ((s.disk b).splice offset data)) := by
  simp only [sfsWbuf, Prog.run_bind, Prog.run_assert_of _ _ hoff, Outcome.andThen_ok,
    sfsRblock_run hb, sfsWblock_run hb]

/-- `sfs_block_alloc` takes the lowest free block and clears it, or fails when there is none. A
free map with a free bit outside the image stops it. -/
theorem sfsBlockAlloc_run (hshape : s.freemap.nbits = (s.blocks + 32767) / 32768 * 32768)
    (hcount : s.unusedBlocks = s.freemap.count) :
    (s.freemap.count = 0 ∧ sfsBlockAlloc.run s = .error .noMem s) ∨
    ∃ b, s.freemap.isFree b = true ∧
      (b ≠ 0 ∧ b < s.blocks ∧ sfsBlockAlloc.run s = .ok b (s.take b) ∨
        ¬ (b ≠ 0 ∧ b < s.blocks) ∧ sfsBlockAlloc.run s = .panic .inuseRange) := by
  rcases bitmapAlloc_run s.freemap with ⟨hnone, hrun⟩ | ⟨b, hfree, -, hrun⟩
  · left
    refine ⟨Bitmap.count_eq_zero.mpr hnone, ?_⟩
    simp only [sfsBlockAlloc, Prog.run_bind, onFreemap_error hrun, Outcome.andThen_error]
  · right
    refine ⟨b, hfree, ?_⟩
    have hpos : 0 < s.unusedBlocks := by
      rw [hcount]
      exact Bitmap.count_pos hfree
    set s₁ : Sfs := { s with
      freemap := s.freemap.flip b, unusedBlocks := s.unusedBlocks - 1, superDirty := true } with hs₁
    have hrest : sfsBlockAlloc.run s = ((sfsBlockInuse b) >>= fun inuse => do
        Prog.assert (inuse = true) .allocInuse
        sfsClearBlock b
        pure b).run s₁ := by
      simp only [sfsBlockAlloc, Prog.run_bind, onFreemap_ok hrun, Outcome.andThen_ok, Prog.run_get,
        Prog.run_assert_of _ _ hpos, Prog.run_modify, hs₁]
    rw [hrest]
    by_cases hb : b ≠ 0 ∧ b < s.blocks
    · left
      refine ⟨hb.1, hb.2, ?_⟩
      have hused : (s.freemap.flip b).isFree b = false := by
        rw [Bitmap.isFree_flip (Bitmap.isFree_lt hfree), Function.update_self, hfree]
        rfl
      have hbits : b < s₁.freemap.nbits := by
        show b < s.freemap.nbits
        omega
      have hinuse : (sfsBlockInuse b).run s₁ = .ok true s₁ := by
        rw [sfsBlockInuse_run hbits hb]
        simp only [hs₁, hused, Bool.not_false]
      rw [Prog.bind_of_ok hinuse]
      simp only [Prog.run_bind, Prog.run_assert, if_true, Outcome.andThen_ok, sfsClearBlock,
        sfsWblock_run (s := s₁) hb, Prog.run_pure]
      rfl
    · right
      exact ⟨hb, Prog.bind_of_panic (sfsBlockInuse_range hb)⟩

/-- `sfs_block_free` gives back a block that is in use. -/
theorem sfsBlockFree_run {b : ℕ} (hbits : b < s.freemap.nbits) (hb : b ≠ 0)
    (hused : s.InUse b) : (sfsBlockFree b).run s = .ok () (s.give b) := by
  simp only [sfsBlockFree, Prog.run_bind, sfsBlockInuse_run hbits ⟨hb, hused.1⟩, Outcome.andThen_ok,
    hused.2, Bool.not_false, Prog.run_assert, if_true, onFreemap_ok (bitmapFree_run hbits hused.2),
    Prog.run_modify]
  rfl

end freemap

end Ucore.Fs
