import Ucore.Fs.SfsBmap

/-!
# Operations on one file

What reading, writing and resizing a file do to an image, whatever way they end.

* `Kept s s' sin`: only the file `sin` and free blocks have been touched, and the image has stayed
  consistent. Every operation on `sin` has this effect.
* `Progress s s' sin`: moreover the file has at most grown; this is the effect of a transfer and of
  the loop that adds blocks. It accounts for the free blocks that were used (`Sfs.needTo`).
* `ioTransfer_post` is the rule for the transfer of `sfs_io_nolock`: a property of the position
  that every part of the transfer carries on holds at the end.
-/

namespace Ucore.Fs

open Ucore.Lib

variable {s s' s'' : Sfs} {sin b : ℕ}

/-- Only the file `sin` and free blocks have been touched. -/
structure Kept (s s' : Sfs) (sin : ℕ) : Prop where
  blocks : s'.blocks = s.blocks
  inos : s'.inos = s.inos
  type : (s'.inode sin).type = (s.inode sin).type
  /-- The other inodes are the same, -/
  other : ∀ ino, ino ≠ sin → s'.inode ino = s.inode ino
  /-- they have the same blocks, -/
  slot : ∀ ino ∈ s.inos, ino ≠ sin → ∀ i, s'.slot ino i = s.slot ino i
  /-- with the same content. -/
  disk : ∀ ino ∈ s.inos, ino ≠ sin → ∀ i, s.slot ino i ≠ 0 →
    s'.disk (s.slot ino i) = s.disk (s.slot ino i)
  /-- No bit outside the image has become free. -/
  badFree : s'.BadFree → s.BadFree
  consistent : s'.Consistent
  lost : s'.Lost = s.Lost

theorem Kept.refl (h : s.Consistent) (sin : ℕ) : Kept s s sin :=
  ⟨rfl, rfl, rfl, fun _ _ => rfl, fun _ _ _ _ => rfl, fun _ _ _ _ _ => rfl, id, h, rfl⟩

theorem Kept.trans (h : Kept s s' sin) (h' : Kept s' s'' sin) : Kept s s'' sin := by
  refine ⟨h'.blocks.trans h.blocks, h'.inos.trans h.inos, h'.type.trans h.type,
    fun ino hne => (h'.other ino hne).trans (h.other ino hne), fun ino hino hne i => ?_,
    fun ino hino hne i hslot => ?_, fun hbad => h.badFree (h'.badFree hbad), h'.consistent,
    h'.lost.trans h.lost⟩
  · rw [h'.slot ino (h.inos ▸ hino) hne, h.slot ino hino hne]
  · have hd := h'.disk ino (h.inos ▸ hino) hne i
    rw [h.slot ino hino hne] at hd
    rw [hd hslot, h.disk ino hino hne i hslot]

theorem Appended.kept (h : Appended s s' sin b) : Kept s s' sin := by
  refine ⟨h.blocks, h.inos, h.type, h.other, fun ino hino hne i => ?_,
    fun ino hino _ i hslot => h.disk ino hino i hslot, fun ⟨c, hc, hbad⟩ => ?_, h.consistent, h.lost⟩
  · rw [h.slot ino hino, if_neg fun hat => hne hat.1]
  · exact ⟨c, h.free c hc, by rwa [h.blocks] at hbad⟩

theorem Untouched.kept (h : Untouched s s') (sin : ℕ) : Kept s s' sin := by
  refine ⟨h.blocks, h.inos, by rw [h.inode], fun ino _ => by rw [h.inode],
    fun ino hino _ i => h.slot ino hino i, fun ino hino _ i hslot => h.disk ino hino i hslot,
    fun ⟨c, hc, hbad⟩ => ?_, h.consistent, h.lost⟩
  exact ⟨c, by rwa [← h.free], by rwa [h.blocks] at hbad⟩

theorem Dropped.kept (h : Dropped s s' sin) : Kept s s' sin := by
  refine ⟨h.blocks, h.inos, h.type, h.other, fun ino hino hne i => ?_,
    fun ino hino _ i hslot => h.disk ino hino i hslot, fun ⟨c, hc, hbad⟩ => ?_, h.consistent, h.lost⟩
  · rw [h.slot ino hino, if_neg fun hat => hne hat.1]
  · rw [h.blocks] at hbad
    exact ⟨c, (h.free c hc).resolve_right hbad, hbad⟩

/-! ### The bytes of a file -/

/-- The byte at position `k` of the blocks of a file; where there is no block, 0. -/
def Sfs.byteAt (s : Sfs) (ino k : ℕ) : UInt8 :=
  if s.slot ino (k / 4096) = 0 then 0 else s.disk (s.slot ino (k / 4096)) (k % 4096)

theorem Sfs.byteAt_of_slot_zero {ino k : ℕ} (h : s.slot ino (k / 4096) = 0) : s.byteAt ino k = 0 :=
  if_pos h

/-- The same block with the same content. -/
theorem Sfs.byteAt_congr {ino k : ℕ} (hslot : s'.slot ino (k / 4096) = s.slot ino (k / 4096))
    (hdisk : s.slot ino (k / 4096) ≠ 0 →
      s'.disk (s.slot ino (k / 4096)) = s.disk (s.slot ino (k / 4096))) :
    s'.byteAt ino k = s.byteAt ino k := by
  unfold Sfs.byteAt
  rw [hslot]
  split_ifs with h0
  · rfl
  · rw [hdisk h0]

theorem Sfs.Consistent.byteAt_tail (h : s.Consistent) {ino k : ℕ} (hino : ino ∈ s.inos)
    (hk : 4096 * (s.inode ino).blocks ≤ k) : s.byteAt ino k = 0 :=
  Sfs.byteAt_of_slot_zero (h.tail ino hino _ (by omega))

/-- The other files have the same bytes. -/
theorem Kept.byteAt (h : Kept s s' sin) {ino : ℕ} (hino : ino ∈ s.inos) (hne : ino ≠ sin) :
    s'.byteAt ino = s.byteAt ino := by
  funext k
  exact Sfs.byteAt_congr (h.slot ino hino hne _) fun h0 => h.disk ino hino hne _ h0

/-- A block that is appended is clear, so it does not show. -/
theorem Appended.byteAt (h : Appended s s' sin b) (hcons : s.Consistent) (hsin : sin ∈ s.inos) :
    s'.byteAt sin = s.byteAt sin := by
  funext k
  by_cases hk : k / 4096 = (s.inode sin).blocks
  · have hnew : s'.slot sin (k / 4096) = b := by rw [h.slot sin hsin, if_pos ⟨rfl, hk⟩]
    rw [Sfs.byteAt_of_slot_zero (hcons.tail sin hsin _ hk.ge), Sfs.byteAt, hnew, if_neg h.ne, h.new]
    rfl
  · exact Sfs.byteAt_congr (by rw [h.slot sin hsin, if_neg fun hat => hk hat.2])
      fun h0 => h.disk sin hsin _ h0

/-- The bytes of a block that is dropped are gone. -/
theorem Dropped.byteAt (h : Dropped s s' sin) (hsin : sin ∈ s.inos) {k : ℕ}
    (hk : k / 4096 ≠ (s.inode sin).blocks - 1) : s'.byteAt sin k = s.byteAt sin k :=
  Sfs.byteAt_congr (by rw [h.slot sin hsin, if_neg fun hat => hk hat.2])
    fun h0 => h.disk sin hsin _ h0

/-! ### Writing to a data block, and changing the size -/

/-- Writing to a data block changes no pointer. -/
theorem Sfs.slot_writeBlock (h : s.Consistent) (hsin : sin ∈ s.inos) {i : ℕ}
    (hne : s.slot sin i ≠ 0) (blk : Block) {ino : ℕ} (hino : ino ∈ s.inos) (j : ℕ) :
    (s.writeBlock (s.slot sin i) blk).slot ino j = s.slot ino j :=
  Sfs.slot_congr (fun _ => rfl) rfl fun _ =>
    Function.update_of_ne (h.slot_ne_indirect hsin hino hne).symm _ _

/-- An image with the same free map and the same pointers, and block counts that still bound
them. -/
theorem Sfs.Consistent.congr (h : s.Consistent) (hblocks : s'.blocks = s.blocks)
    (hinos : s'.inos = s.inos) (hmap : s'.freemap = s.freemap)
    (hunused : s'.unusedBlocks = s.unusedBlocks)
    (hind : ∀ ino, (s'.inode ino).indirect = (s.inode ino).indirect)
    (hslot : ∀ ino ∈ s.inos, ∀ i, s'.slot ino i = s.slot ino i)
    (hcount : ∀ ino, (s'.inode ino).blocks = (s.inode ino).blocks) :
    s'.Consistent ∧ s'.Lost = s.Lost := by
  have hblk : s'.blk = s.blk := by
    funext o
    cases o with
    | inode ino => simp only [Sfs.blk, hinos]
    | indirect ino => simp only [Sfs.blk, hinos, hind]
    | data ino i =>
      simp only [Sfs.blk, hinos]
      split_ifs with hino
      · exact hslot ino hino i
      · rfl
  refine ⟨⟨by rw [hmap, hblocks, h.shape], by rw [hunused, hmap, h.count], fun o ho => ?_, ?_,
    fun ino hino i hi => ?_⟩, ?_⟩
  · rw [hblk] at ho ⊢
    rw [Sfs.InUse, hblocks, hmap]
    exact h.used o ho
  · rw [hblk]
    exact h.inj
  · rw [hinos] at hino
    rw [hcount] at hi
    rw [hslot ino hino, h.tail ino hino i hi]
  · rw [Sfs.Lost, hmap, hblk]
    rfl

theorem Kept.writeBlock (h : s.Consistent) (hsin : sin ∈ s.inos) {i : ℕ} (hne : s.slot sin i ≠ 0)
    (blk : Block) : Kept s (s.writeBlock (s.slot sin i) blk) sin := by
  obtain ⟨hcons, hlost⟩ : (s.writeBlock (s.slot sin i) blk).Consistent ∧ (s.writeBlock (s.slot sin i) blk).Lost = s.Lost :=
    h.congr rfl rfl rfl rfl
    (fun _ => rfl) (fun ino hino j => Sfs.slot_writeBlock h hsin hne blk hino j) fun _ => rfl
  refine ⟨rfl, rfl, rfl, fun _ _ => rfl, fun ino hino _ j => Sfs.slot_writeBlock h hsin hne blk hino j,
    fun ino hino hno j hslot => ?_, id, hcons, hlost⟩
  refine Function.update_of_ne (fun heq => hno ?_) _ _
  exact (h.slot_inj hino hsin hslot heq).1

/-- A change of size and dirty flag only. -/
theorem Sfs.slot_setInode {f : SfsInode → SfsInode}
    (hdirect : (f (s.inode sin)).direct = (s.inode sin).direct)
    (hind : (f (s.inode sin)).indirect = (s.inode sin).indirect) (ino i : ℕ) :
    (s.setInode sin f).slot ino i = s.slot ino i := by
  by_cases hino : ino = sin
  · subst hino
    exact Sfs.slot_congr (fun _ => by rw [Sfs.setInode_same, hdirect])
      (by rw [Sfs.setInode_same, hind]) fun _ => rfl
  · exact Sfs.slot_congr (fun _ => by rw [Sfs.setInode_of_ne _ _ _ hino])
      (by rw [Sfs.setInode_of_ne _ _ _ hino]) fun _ => rfl

theorem Kept.setInode (h : s.Consistent) {f : SfsInode → SfsInode}
    (hdirect : (f (s.inode sin)).direct = (s.inode sin).direct)
    (hind : (f (s.inode sin)).indirect = (s.inode sin).indirect)
    (hblocks : (f (s.inode sin)).blocks = (s.inode sin).blocks)
    (htype : (f (s.inode sin)).type = (s.inode sin).type) : Kept s (s.setInode sin f) sin := by
  have hslot := Sfs.slot_setInode hdirect hind
  have hinode : ∀ ino, ((s.setInode sin f).inode ino).indirect = (s.inode ino).indirect ∧
      ((s.setInode sin f).inode ino).blocks = (s.inode ino).blocks := by
    intro ino
    by_cases hino : ino = sin
    · subst hino
      rw [Sfs.setInode_same]
      exact ⟨hind, hblocks⟩
    · rw [Sfs.setInode_of_ne _ _ _ hino]
      exact ⟨rfl, rfl⟩
  obtain ⟨hcons, hlost⟩ : (s.setInode sin f).Consistent ∧ (s.setInode sin f).Lost = s.Lost :=
    h.congr rfl rfl rfl rfl (fun ino => (hinode ino).1)
    (fun ino _ i => hslot ino i) fun ino => (hinode ino).2
  exact ⟨rfl, rfl, by rw [Sfs.setInode_same, htype], fun ino hne => Sfs.setInode_of_ne _ _ _ hne,
    fun ino _ _ i => hslot ino i, fun _ _ _ _ _ => rfl, id, hcons, hlost⟩

/-! ### Growth -/

/-- The number of free blocks it takes to bring a file to `t` blocks. -/
def Sfs.needTo (s : Sfs) (sin t : ℕ) : ℕ :=
  if t ≤ (s.inode sin).blocks then 0
  else t - (s.inode sin).blocks + if (s.inode sin).indirect = 0 ∧ 12 < t then 1 else 0

theorem Sfs.needTo_of_le {t : ℕ} (h : t ≤ (s.inode sin).blocks) : s.needTo sin t = 0 := if_pos h

/-- What the next block needs is what it takes to get one block further. -/
theorem Sfs.need_eq_needTo (s : Sfs) (sin : ℕ) :
    s.need sin = s.needTo sin ((s.inode sin).blocks + 1) := by
  rw [Sfs.need, Sfs.needTo]
  split_ifs <;> omega

/-- The next block is among the blocks that are needed. -/
theorem Sfs.need_le_needTo {t : ℕ} (h : (s.inode sin).blocks < t) : s.need sin ≤ s.needTo sin t := by
  rw [Sfs.need, Sfs.needTo, if_neg (not_le.mpr h)]
  split_ifs <;> omega

theorem Appended.needTo (h : Appended s s' sin b) {t : ℕ} (ht : (s'.inode sin).blocks ≤ t) :
    s'.freemap.count + s.needTo sin t = s.freemap.count + s'.needTo sin t := by
  have hcount := h.count
  have hgrown := h.grown
  have hind := h.indirect
  have h1 : s.needTo sin t = t - (s.inode sin).blocks +
      if (s.inode sin).indirect = 0 ∧ 12 < t then 1 else 0 := if_neg (by omega)
  rw [Sfs.need] at hcount
  rw [h1, Sfs.needTo, ← hcount]
  split_ifs at hcount ⊢ <;> omega

/-- The file has at most grown: its old blocks are in place, and the free blocks used are those
that were needed. -/
structure Progress (s s' : Sfs) (sin : ℕ) : Prop where
  kept : Kept s s' sin
  size : (s'.inode sin).size = (s.inode sin).size
  mono : (s.inode sin).blocks ≤ (s'.inode sin).blocks
  count : ∀ t, (s'.inode sin).blocks ≤ t →
    s'.freemap.count + s.needTo sin t = s.freemap.count + s'.needTo sin t
  old : ∀ i < (s.inode sin).blocks, s'.slot sin i = s.slot sin i
  new : ∀ i, (s.inode sin).blocks ≤ i → i < (s'.inode sin).blocks → s'.slot sin i ≠ 0

theorem Progress.refl (h : s.Consistent) (sin : ℕ) : Progress s s sin :=
  ⟨.refl h sin, rfl, le_rfl, fun _ _ => rfl, fun _ _ => rfl, fun i h₁ h₂ => by omega⟩

theorem Progress.trans (h : Progress s s' sin) (h' : Progress s' s'' sin) : Progress s s'' sin := by
  refine ⟨h.kept.trans h'.kept, h'.size.trans h.size, h.mono.trans h'.mono, fun t ht => ?_,
    fun i hi => ?_, fun i h₁ h₂ => ?_⟩
  · have e₁ := h.count t (h'.mono.trans ht)
    have e₂ := h'.count t ht
    omega
  · rw [h'.old i (lt_of_lt_of_le hi h.mono), h.old i hi]
  · by_cases hi : i < (s'.inode sin).blocks
    · rw [h'.old i hi]
      exact h.new i h₁ hi
    · exact h'.new i (not_lt.mp hi) h₂

theorem Appended.progress (hsin : sin ∈ s.inos) (h : Appended s s' sin b) : Progress s s' sin := by
  refine ⟨h.kept, h.size, by rw [h.grown]; omega, fun t ht => h.needTo ht, fun i hi => ?_,
    fun i h₁ h₂ => ?_⟩
  · rw [h.slot sin hsin, if_neg (by omega)]
  · rw [h.grown] at h₂
    rw [h.slot sin hsin, if_pos ⟨rfl, by omega⟩]
    exact h.ne

theorem Untouched.progress (hsin : sin ∈ s.inos) (h : Untouched s s') : Progress s s' sin := by
  have hneed : ∀ t, s'.needTo sin t = s.needTo sin t := fun t => by
    rw [Sfs.needTo, Sfs.needTo, h.inode]
  refine ⟨h.kept sin, by rw [h.inode], by rw [h.inode], fun t _ => by rw [hneed, h.count],
    fun i _ => h.slot sin hsin i, fun i h₁ h₂ => ?_⟩
  rw [h.inode] at h₂
  omega

theorem Progress.writeBlock (h : s.Consistent) (hsin : sin ∈ s.inos) {i : ℕ}
    (hne : s.slot sin i ≠ 0) (blk : Block) : Progress s (s.writeBlock (s.slot sin i) blk) sin :=
  ⟨.writeBlock h hsin hne blk, rfl, le_rfl, fun _ _ => rfl,
    fun j _ => Sfs.slot_writeBlock h hsin hne blk hsin j, fun _ h₁ h₂ => absurd h₁ (not_le.mpr h₂)⟩

/-- Every block below the block count of the file is there. -/
def Sfs.Full (s : Sfs) (sin : ℕ) : Prop := ∀ i < (s.inode sin).blocks, s.slot sin i ≠ 0

theorem Progress.full (h : Progress s s' sin) (hfull : s.Full sin) : s'.Full sin := by
  intro i hi
  by_cases hold : i < (s.inode sin).blocks
  · rw [h.old i hold]
    exact hfull i hold
  · exact h.new i (not_lt.mp hold) hi

/-- A load that returns: the file has grown to at least `index + 1` blocks, and the block is the one
at `index`. -/
theorem LoadOk.spec (h : s.Consistent) (hsin : sin ∈ s.inos) {index : ℕ}
    (hload : LoadOk s sin index b s') :
    Progress s s' sin ∧ s'.slot sin index = b ∧ b ≠ 0 ∧ index ≤ (s.inode sin).blocks ∧
      (s'.inode sin).blocks = max (s.inode sin).blocks (index + 1) := by
  rcases hload with ⟨hlt, rfl, hne, rfl⟩ | ⟨rfl, -, happ⟩
  · exact ⟨.refl h sin, rfl, hne, hlt.le, by omega⟩
  · refine ⟨happ.progress hsin, ?_, happ.ne, le_rfl, by rw [happ.grown]; omega⟩
    rw [happ.slot sin hsin, if_pos ⟨rfl, rfl⟩]

/-! ### The parts of a transfer -/

/-- The transfer inside one block: a write changes the block, a read changes nothing. -/
theorem sfsTransfer_run (write : Bool) {whole : Bool} {data : List UInt8} {blkoff size : ℕ}
    (hb : b ≠ 0 ∧ b < s.blocks) (hoff : blkoff < 4096 ∧ blkoff + size ≤ 4096)
    (hdata : data.length ≤ size) (hwhole : whole = true → blkoff = 0 ∧ size = 4096) :
    ∃ blk : Block, (sfsTransfer write whole data b blkoff size).run s =
        .ok (if write then [] else (s.disk b).read blkoff size)
          (if write then s.writeBlock b blk else s) ∧
      (data.length = size → ∀ k < 4096, blk k = (s.disk b).splice blkoff data k) := by
  cases write with
  | false =>
    refine ⟨(s.disk b).splice blkoff data, ?_, fun _ _ _ => rfl⟩
    cases whole with
    | false =>
      simp only [sfsTransfer, Bool.false_eq_true, if_false, sfsRbuf_run hb hoff]
    | true =>
      obtain ⟨rfl, rfl⟩ := hwhole rfl
      simp only [sfsTransfer, Bool.false_eq_true, if_false, if_true, Prog.run_bind, sfsRblock_run hb,
        Outcome.andThen_ok, Prog.run_pure]
  | true =>
    cases whole with
    | false =>
      refine ⟨(s.disk b).splice blkoff data, ?_, fun _ _ _ => rfl⟩
      simp only [sfsTransfer, if_true, Bool.false_eq_true, if_false, Prog.run_bind,
        sfsWbuf_run hb (show blkoff < 4096 ∧ blkoff + data.length ≤ 4096 by omega),
        Outcome.andThen_ok, Prog.run_pure]
    | true =>
      obtain ⟨rfl, rfl⟩ := hwhole rfl
      refine ⟨fun k => data.getD k 0, ?_, fun hlen k hk => ?_⟩
      · simp only [sfsTransfer, if_true, Prog.run_bind, sfsWblock_run hb, Outcome.andThen_ok,
          Prog.run_pure]
      · rw [Block.splice, if_pos (by omega), Nat.sub_zero]

/-- **One part of a transfer**: the block is mapped and its bytes are read or written, or the block
cannot be mapped and the transfer ends. -/
theorem ioStep_post (h : s.Consistent) (hsin : sin ∈ s.inos) {write whole : Bool}
    {buf : List UInt8} {blkno blkoff size : ℕ} {r : IoResult}
    (hoff : blkoff < 4096 ∧ blkoff + size ≤ 4096)
    (hwhole : whole = true → blkoff = 0 ∧ size = 4096) :
    ((ioStep sin write whole buf blkno blkoff size r).run s).Post
      (fun r' s' => (∃ b s₁ blk, LoadOk s sin blkno b s₁ ∧
          r' = ⟨r.ret, r.alen + size,
            r.bytes ++ if write then [] else (s₁.disk b).read blkoff size⟩ ∧
          s' = (if write then s₁.writeBlock b blk else s₁) ∧
          (((buf.drop r.alen).take size).length = size → ∀ k < 4096,
            blk k = (s₁.disk b).splice blkoff ((buf.drop r.alen).take size) k)) ∨
        ∃ e, LoadError s sin blkno e s' ∧ r' = ⟨some e, r.alen, r.bytes⟩)
      (fun _ _ => False) (LoadPanic s sin blkno) := by
  have hpost := sfsBmapLoadNolock_post h hsin blkno
  simp only [ioStep, Prog.run_bind, Prog.attempt]
  cases hload : (sfsBmapLoadNolock sin blkno).run s with
  | ok b s₁ =>
    rw [hload] at hpost
    obtain ⟨hprog, hslot, hb, -, -⟩ := LoadOk.spec h hsin hpost
    have hused := hprog.kept.consistent.slot_used (i := blkno)
      (show sin ∈ s₁.inos by rw [hprog.kept.inos]; exact hsin) (by rwa [hslot])
    rw [hslot] at hused
    obtain ⟨blk, hrun, hblk⟩ := sfsTransfer_run write (s := s₁) ⟨hb, hused.1⟩ hoff
      (show ((buf.drop r.alen).take size).length ≤ size by rw [List.length_take]; omega) hwhole
    simp only [Outcome.andThen_ok, Prog.run_bind, hrun, Prog.run_pure]
    exact Or.inl ⟨b, s₁, blk, hpost, rfl, rfl, hblk⟩
  | error e s₁ =>
    rw [hload] at hpost
    exact Or.inr ⟨e, hpost, rfl⟩
  | panic p =>
    rw [hload] at hpost
    exact hpost

/-- The same without the bytes: how far the file has grown and how many free blocks were used. -/
theorem ioStep_progress (h : s.Consistent) (hsin : sin ∈ s.inos) {write whole : Bool}
    {buf : List UInt8} {blkno blkoff size : ℕ} {r : IoResult}
    (hoff : blkoff < 4096 ∧ blkoff + size ≤ 4096)
    (hwhole : whole = true → blkoff = 0 ∧ size = 4096) :
    ((ioStep sin write whole buf blkno blkoff size r).run s).Post
      (fun r' s' => Progress s s' sin ∧
        (r'.ret = r.ret ∧ r'.alen = r.alen + size ∧ blkno ≤ (s.inode sin).blocks ∧
            (s'.inode sin).blocks = max (s.inode sin).blocks (blkno + 1) ∨
          r'.ret = some .noMem ∧ r'.alen = r.alen ∧ s'.inode = s.inode ∧ blkno < 1036 ∧
            blkno = (s.inode sin).blocks ∧ s.freemap.count < s.need sin))
      (fun _ _ => False) (LoadPanic s sin blkno) := by
  refine (ioStep_post h hsin hoff hwhole).mono ?_ (fun _ _ hf => hf) fun _ hp => hp
  rintro r' s' (⟨b, s₁, blk, hload, rfl, rfl, -⟩ | ⟨e, ⟨rfl, hidx, hrange, hcount, hunt⟩, rfl⟩)
  · obtain ⟨hprog, hslot, hb, hle, hblocks⟩ := LoadOk.spec h hsin hload
    cases write with
    | false => exact ⟨hprog, Or.inl ⟨rfl, rfl, hle, hblocks⟩⟩
    | true =>
      have hw := Progress.writeBlock hprog.kept.consistent
        (show sin ∈ s₁.inos by rw [hprog.kept.inos]; exact hsin) (i := blkno) (by rwa [hslot]) blk
      rw [hslot] at hw
      exact ⟨hprog.trans hw, Or.inl ⟨rfl, rfl, hle, hblocks⟩⟩
  · exact ⟨hunt.progress hsin, Or.inr ⟨rfl, rfl, hunt.inode, hrange, hidx, hcount⟩⟩

/-! ### The rule for transfers -/

section transfer

variable {write : Bool} {buf : List UInt8} {I : ℕ → IoResult → Sfs → Prop}
  {F : IoResult → Sfs → Prop} {P : SfsPanic → Prop} {offset endpos : ℕ}

/-- What is required of a part of the transfer at position `pos`, of `size` bytes inside one block
and up to its end or the end of the transfer: it carries `I` on to `pos + size`, or it ends the transfer with `F`. -/
def IoStepSpec (sin : ℕ) (write : Bool) (buf : List UInt8) (offset endpos : ℕ)
    (I : ℕ → IoResult → Sfs → Prop) (F : IoResult → Sfs → Prop) (P : SfsPanic → Prop) : Prop :=
  ∀ pos size whole r s, offset ≤ pos → 0 < size → pos + size ≤ endpos → pos % 4096 + size ≤ 4096 →
    (pos + size = endpos ∨ (pos + size) % 4096 = 0) →
    (whole = true → pos % 4096 = 0 ∧ size = 4096) → r.ret = none → I pos r s →
    ((ioStep sin write whole buf (pos / 4096) (pos % 4096) size r).run s).Post
      (fun r' s' => r'.ret = none ∧ I (pos + size) r' s' ∨ r'.ret ≠ none ∧ F r' s')
      (fun _ _ => False) P

theorem ioBlocks_post (hstep : IoStepSpec sin write buf offset endpos I F P) {blkno nblks : ℕ}
    {r : IoResult} (hoff : offset ≤ 4096 * blkno) (hend : 4096 * (blkno + nblks) ≤ endpos)
    (hret : r.ret = none) (hI : I (4096 * blkno) r s) :
    ((ioBlocks sin write buf blkno nblks r).run s).Post
      (fun r' s' => r'.ret = none ∧ I (4096 * (blkno + nblks)) r' s' ∨ r'.ret ≠ none ∧ F r' s')
      (fun _ _ => False) P := by
  induction nblks generalizing blkno r s with
  | zero => exact Or.inl ⟨hret, hI⟩
  | succ nblks ih =>
    have hdiv : 4096 * blkno / 4096 = blkno := by omega
    have hmod : 4096 * blkno % 4096 = 0 := by omega
    have hone := hstep (4096 * blkno) 4096 true r s hoff (by omega) (by omega) (by omega)
      (Or.inr (by omega)) (fun _ => ⟨hmod, rfl⟩) hret hI
    rw [hdiv, hmod] at hone
    rw [ioBlocks]
    refine hone.bind fun r' s' hr' => ?_
    rcases hr' with ⟨hnone, hI'⟩ | ⟨hsome, hF⟩
    · rw [hnone]
      have hnext : 4096 * (blkno + 1) = 4096 * blkno + 4096 := by omega
      have hoff' : offset ≤ 4096 * (blkno + 1) := by omega
      rw [show blkno + (nblks + 1) = blkno + 1 + nblks by omega] at hend ⊢
      rw [← hnext] at hI'
      exact ih hoff' hend hnone hI'
    · obtain ⟨e, he⟩ := Option.ne_none_iff_exists'.mp hsome
      rw [he]
      exact Or.inr ⟨hsome, hF⟩

theorem ioRest_post (hstep : IoStepSpec sin write buf offset endpos I F P) {blkno nblks : ℕ}
    {r : IoResult} (hoff : offset ≤ 4096 * blkno) (hend : blkno + nblks = endpos / 4096)
    (hret : r.ret = none) (hI : I (4096 * blkno) r s) :
    ((ioRest sin write buf blkno nblks endpos r).run s).Post
      (fun r' s' => r'.ret = none ∧ I endpos r' s' ∨ r'.ret ≠ none ∧ F r' s')
      (fun _ _ => False) P := by
  rw [ioRest]
  refine (ioBlocks_post hstep hoff (by omega) hret hI).bind fun r' s' hr' => ?_
  rcases hr' with ⟨hnone, hI'⟩ | ⟨hsome, hF⟩
  · rw [hnone]
    simp only [Prog.run_ite]
    split_ifs with htail
    · have hdiv : 4096 * (blkno + nblks) / 4096 = blkno + nblks := by omega
      have hmod : 4096 * (blkno + nblks) % 4096 = 0 := by omega
      have hend' : 4096 * (blkno + nblks) + endpos % 4096 ≤ endpos := by omega
      have hin : 4096 * (blkno + nblks) % 4096 + endpos % 4096 ≤ 4096 := by omega
      have hone := hstep (4096 * (blkno + nblks)) (endpos % 4096) false r' s' (by omega) (by omega)
        hend' hin (Or.inl (by omega)) Bool.noConfusion hnone hI'
      rw [hdiv, hmod] at hone
      rwa [show 4096 * (blkno + nblks) + endpos % 4096 = endpos by omega] at hone
    · rw [show 4096 * (blkno + nblks) = endpos by omega] at hI'
      exact Or.inl ⟨hnone, hI'⟩
  · obtain ⟨e, he⟩ := Option.ne_none_iff_exists'.mp hsome
    rw [he]
    exact Or.inr ⟨hsome, hF⟩

/-- **The rule for transfers.** -/
theorem ioTransfer_post (hstep : IoStepSpec sin write buf offset endpos I F P)
    (hlt : offset < endpos) (hI : I offset ⟨none, 0, []⟩ s) :
    ((ioTransfer sin write buf offset endpos).run s).Post
      (fun r' s' => r'.ret = none ∧ I endpos r' s' ∨ r'.ret ≠ none ∧ F r' s')
      (fun _ _ => False) P := by
  simp only [ioTransfer, Prog.run_ite]
  by_cases hcut : offset % 4096 ≠ 0
  · rw [if_pos hcut]
    set size := if endpos / 4096 - offset / 4096 ≠ 0 then 4096 - offset % 4096 else endpos - offset
      with hsize
    have hsize' : 0 < size ∧ offset + size ≤ endpos ∧ offset % 4096 + size ≤ 4096 ∧
        (endpos / 4096 - offset / 4096 = 0 → offset + size = endpos) ∧
        (endpos / 4096 - offset / 4096 ≠ 0 → offset + size = 4096 * (offset / 4096 + 1)) := by
      rw [hsize]
      split_ifs with hn <;> omega
    obtain ⟨hpos, hend, hin, hlast, hmore⟩ := hsize'
    have hstop : offset + size = endpos ∨ (offset + size) % 4096 = 0 := by
      by_cases hn : endpos / 4096 - offset / 4096 = 0
      · exact Or.inl (hlast hn)
      · rw [hmore hn]
        exact Or.inr (Nat.mul_mod_right _ _)
    have hone := hstep offset size false ⟨none, 0, []⟩ s le_rfl hpos hend hin hstop (by simp) rfl hI
    refine hone.bind fun r' s' hr' => ?_
    rcases hr' with ⟨hnone, hI'⟩ | ⟨hsome, hF⟩
    · rw [hnone]
      simp only [Prog.run_ite]
      split_ifs with hn
      · rw [hlast hn] at hI'
        exact Or.inl ⟨hnone, hI'⟩
      · rw [hmore hn] at hI'
        exact ioRest_post hstep (by omega) (by omega) hnone hI'
    · obtain ⟨e, he⟩ := Option.ne_none_iff_exists'.mp hsome
      rw [he]
      exact Or.inr ⟨hsome, hF⟩
  · rw [if_neg hcut]
    have hstart : 4096 * (offset / 4096) = offset := by omega
    refine ioRest_post hstep (by omega) ?_ rfl (by rwa [hstart])
    have := Nat.div_le_div_right (c := 4096) hlt.le
    omega

end transfer

/-! ### Reading and writing -/

/-- The state of a transfer that has come from `offset` to `pos`: the blocks up to `pos` are mapped,
and if the file has grown, then to `pos` exactly. -/
structure IoInv (s₀ : Sfs) (sin offset endpos pos : ℕ) (r : IoResult) (s : Sfs) : Prop where
  progress : Progress s₀ s sin
  alen : offset + r.alen = pos
  start : pos = offset → (s.inode sin).blocks = (s₀.inode sin).blocks
  within : offset < pos → offset / 4096 ≤ (s₀.inode sin).blocks
  aligned : offset < pos → pos < endpos → pos % 4096 = 0
  mapped : offset < pos → pos ≤ 4096 * (s.inode sin).blocks
  grown : (s₀.inode sin).blocks < (s.inode sin).blocks →
    (s.inode sin).blocks = (pos + 4095) / 4096

/-- The transfer has ended early: the next block is at the end of the file and there are too few
free blocks for it. -/
structure IoShort (s₀ : Sfs) (sin offset endpos : ℕ) (r : IoResult) (s : Sfs) : Prop where
  inv : IoInv s₀ sin offset endpos (offset + r.alen) r s
  ret : r.ret = some .noMem
  short : offset + r.alen < endpos
  next : (offset + r.alen) / 4096 = (s.inode sin).blocks
  range : (s.inode sin).blocks < 1036
  count : s.freemap.count < s.need sin

/-- The transfer has stopped at a panic on its way. -/
def IoPanic (s₀ : Sfs) (sin offset endpos : ℕ) (p : SfsPanic) : Prop :=
  ∃ pos r s, IoInv s₀ sin offset endpos pos r s ∧ offset ≤ pos ∧ pos < endpos ∧
    LoadPanic s sin (pos / 4096) p

theorem ioTransfer_inv (h : s.Consistent) (hsin : sin ∈ s.inos) {write : Bool} {buf : List UInt8}
    {offset endpos : ℕ} (hlt : offset < endpos) :
    ((ioTransfer sin write buf offset endpos).run s).Post
      (fun r s' => r.ret = none ∧ IoInv s sin offset endpos endpos r s' ∨
        r.ret ≠ none ∧ IoShort s sin offset endpos r s')
      (fun _ _ => False) (IoPanic s sin offset endpos) := by
  refine ioTransfer_post (I := IoInv s sin offset endpos) ?_ hlt
    ⟨.refl h sin, rfl, fun _ => rfl, fun h0 => by omega, fun h0 => by omega, fun h0 => by omega,
      fun h0 => by omega⟩
  intro pos size whole r s₁ hoff hpos hend hin hstop hwhole hret hinv
  have hsin₁ : sin ∈ s₁.inos := by
    rw [hinv.progress.kept.inos]
    exact hsin
  refine (ioStep_progress hinv.progress.kept.consistent hsin₁
    (show pos % 4096 < 4096 ∧ pos % 4096 + size ≤ 4096 by omega) hwhole).mono ?_ (fun _ _ hf => hf)
    fun p hp => ⟨pos, r, s₁, hinv, hoff, by omega, hp⟩
  rintro r' s' ⟨hprog, ⟨hret', halen, hle, hblocks⟩ | ⟨hret', halen, hinode, hrange, hidx, hcount⟩⟩
  · have h1 := hinv.alen
    have h2 := hinv.grown
    have h3 := hprog.mono
    refine Or.inl ⟨hret'.trans hret, hinv.progress.trans hprog, by omega, fun h0 => by omega,
      fun _ => ?_, fun _ h0 => hstop.resolve_left h0.ne, fun _ => by omega, fun h0 => ?_⟩
    · rcases hoff.eq_or_lt with rfl | hlt'
      · rwa [← hinv.start rfl]
      · exact hinv.within hlt'
    -- the file has grown now, or it had before
    by_cases hold : (s.inode sin).blocks < (s₁.inode sin).blocks
    · have := h2 hold
      have := hinv.mapped (by
        by_contra hno
        have := hinv.start (by omega)
        omega)
      omega
    · omega
  · have h1 := hinv.alen
    have hne : r'.ret ≠ none := by rw [hret']; exact Option.some_ne_none _
    have hprog' := hinv.progress.trans hprog
    have hpos' : offset + r'.alen = pos := by omega
    have hsame : (s'.inode sin).blocks = (s₁.inode sin).blocks := by rw [hinode]
    have hshort : s'.freemap.count < s'.need sin := by
      have hneed : s'.need sin = s₁.need sin := by rw [Sfs.need, Sfs.need, hinode]
      have hc := hprog.count (s'.inode sin).blocks le_rfl
      rw [Sfs.needTo_of_le (by omega), Sfs.needTo_of_le (by omega)] at hc
      omega
    refine Or.inr ⟨hne, ⟨?_, hret', by omega, by omega, by omega, hshort⟩⟩
    rw [hpos']
    exact ⟨hprog', hpos', fun h0 => hsame.trans (hinv.start h0), hinv.within, hinv.aligned, fun h0 => by
      rw [hsame]; exact hinv.mapped h0, fun h0 => by rw [hsame] at h0 ⊢; exact hinv.grown h0⟩

/-- The first block of a transfer cannot be mapped. -/
theorem ioTransfer_of_panic {write : Bool} {buf : List UInt8} {offset endpos : ℕ} {p : SfsPanic}
    (hlt : offset < endpos) (h : (sfsBmapLoadNolock sin (offset / 4096)).run s = .panic p) :
    (ioTransfer sin write buf offset endpos).run s = .panic p := by
  have hstep : ∀ whole blkoff size r,
      (ioStep sin write whole buf (offset / 4096) blkoff size r).run s = .panic p := by
    intro whole blkoff size r
    refine Prog.bind_of_panic ?_
    simp only [Prog.attempt, h]
  simp only [ioTransfer, Prog.run_ite]
  by_cases hcut : offset % 4096 ≠ 0
  · rw [if_pos hcut]
    exact Prog.bind_of_panic (hstep _ _ _ _)
  · rw [if_neg hcut, ioRest]
    cases hn : endpos / 4096 - offset / 4096 with
    | zero =>
      have htail : endpos % 4096 ≠ 0 := by omega
      simp only [ioBlocks, Prog.run_bind, Prog.run_pure, Outcome.andThen_ok, if_pos htail,
        Nat.add_zero]
      exact hstep _ _ _ _
    | succ n =>
      rw [ioBlocks]
      exact Prog.bind_of_panic (Prog.bind_of_panic (hstep _ _ _ _))

/-- The request passes the checks of `sfs_io_nolock` and has something to do. -/
def IoAccepted (size : ℕ) (offset : ℤ) (alen : ℕ) (write : Bool) : Prop :=
  0 ≤ offset ∧ offset < sfsMaxFileSize ∧ offset < toOff (offset + alen) ∧
    (write = true ∨ offset.toNat < size)

/-- The end of the transfer. -/
def ioEndpos (size : ℕ) (offset : ℤ) (alen : ℕ) (write : Bool) : ℕ :=
  if write then min (toOff (offset + alen)).toNat sfsMaxFileSize
  else min (min (toOff (offset + alen)).toNat sfsMaxFileSize) size

section io

variable {buf : List UInt8} {offset : ℤ} {alen : ℕ} {write : Bool}

theorem IoAccepted.lt (h : IoAccepted (s.inode sin).size offset alen write) :
    offset.toNat < ioEndpos (s.inode sin).size offset alen write := by
  obtain ⟨h₁, h₂, h₃, h₄⟩ := h
  unfold ioEndpos
  split_ifs with hw
  · omega
  · have := h₄.resolve_left hw
    omega

/-- A request that is rejected, or has nothing to do, changes nothing. -/
theorem sfsIoNolock_of_not_accepted (hdir : (s.inode sin).type ≠ .dir)
    (h : ¬ IoAccepted (s.inode sin).size offset alen write) :
    ∃ ret, (sfsIoNolock sin buf offset alen write).run s = .ok ⟨ret, 0, []⟩ s := by
  simp only [sfsIoNolock, Prog.run_bind, Prog.run_get, Outcome.andThen_ok,
    Prog.run_assert_of _ _ hdir]
  by_cases h₁ : offset < 0 ∨ offset ≥ sfsMaxFileSize ∨ offset > toOff (offset + alen)
  · exact ⟨some .inval, by simp only [if_pos h₁, Prog.run_pure]⟩
  by_cases h₂ : offset = toOff (offset + alen)
  · exact ⟨none, by simp only [if_neg h₁, if_pos h₂, Prog.run_pure]⟩
  have h₃ : write = false ∧ (s.inode sin).size ≤ offset.toNat := by
    by_contra hno
    refine h ⟨by omega, by omega, by omega, ?_⟩
    cases write with
    | true => exact Or.inl rfl
    | false => exact Or.inr (by simpa using hno)
  exact ⟨none, by simp only [if_neg h₁, if_neg h₂, if_pos h₃, Prog.run_pure]⟩

/-- A request inside the bounds that has nothing to do. -/
theorem sfsIoNolock_nothing (hdir : (s.inode sin).type ≠ .dir)
    (hrange : 0 ≤ offset ∧ offset < sfsMaxFileSize ∧ offset ≤ toOff (offset + alen))
    (h : offset = toOff (offset + alen) ∨ write = false ∧ (s.inode sin).size ≤ offset.toNat) :
    (sfsIoNolock sin buf offset alen write).run s = .ok ⟨none, 0, []⟩ s := by
  have h₁ : ¬ (offset < 0 ∨ offset ≥ sfsMaxFileSize ∨ offset > toOff (offset + alen)) := by omega
  simp only [sfsIoNolock, Prog.run_bind, Prog.run_get, Outcome.andThen_ok,
    Prog.run_assert_of _ _ hdir, if_neg h₁]
  by_cases h₂ : offset = toOff (offset + alen)
  · rw [if_pos h₂, Prog.run_pure]
  · rw [if_neg h₂, if_pos (h.resolve_left h₂), Prog.run_pure]

/-- The end of `sfs_io_nolock`: the size is raised to the end of what was transferred. -/
def Sfs.raiseSize (s : Sfs) (sin endpos : ℕ) : Sfs :=
  if (s.inode sin).size < endpos then
    s.setInode sin fun d => { d with size := endpos, dirty := true }
  else s

theorem sfsIoNolock_of_accepted (hdir : (s.inode sin).type ≠ .dir)
    (h : IoAccepted (s.inode sin).size offset alen write) :
    (sfsIoNolock sin buf offset alen write).run s =
      (ioTransfer sin write buf offset.toNat (ioEndpos (s.inode sin).size offset alen write) >>=
        fun r => do
          Prog.modify fun s => s.raiseSize sin (offset.toNat + r.alen)
          pure r).run s := by
  obtain ⟨h₁, h₂, h₃, h₄⟩ := h
  have hc₁ : ¬ (offset < 0 ∨ offset ≥ sfsMaxFileSize ∨ offset > toOff (offset + alen)) := by omega
  have hc₂ : ¬ offset = toOff (offset + alen) := by omega
  have hc₃ : ¬ (write = false ∧ (s.inode sin).size ≤ offset.toNat) := by
    rintro ⟨rfl, hle⟩
    exact absurd (h₄.resolve_left (by simp)) (not_lt.mpr hle)
  simp only [sfsIoNolock, Prog.run_bind, Prog.run_get, Outcome.andThen_ok,
    Prog.run_assert_of _ _ hdir, if_neg hc₁, if_neg hc₂, if_neg hc₃]
  rfl

/-- **`sfs_io_nolock`**, whatever way it ends. -/
theorem sfsIoNolock_post (h : s.Consistent) (hsin : sin ∈ s.inos)
    (hdir : (s.inode sin).type ≠ .dir) :
    ((sfsIoNolock sin buf offset alen write).run s).Post
      (fun r s' => r.alen = 0 ∧ s' = s ∨
        IoAccepted (s.inode sin).size offset alen write ∧
        ∃ s₁, s' = s₁.raiseSize sin (offset.toNat + r.alen) ∧
          let endpos := ioEndpos (s.inode sin).size offset alen write
          (r.ret = none ∧ IoInv s sin offset.toNat endpos endpos r s₁ ∨
            IoShort s sin offset.toNat endpos r s₁))
      (fun _ _ => False)
      (fun p => IoAccepted (s.inode sin).size offset alen write ∧
        IoPanic s sin offset.toNat (ioEndpos (s.inode sin).size offset alen write) p) := by
  by_cases hacc : IoAccepted (s.inode sin).size offset alen write
  · rw [sfsIoNolock_of_accepted hdir hacc]
    refine ((ioTransfer_inv h hsin hacc.lt).mono (fun _ _ hQ => hQ) (fun _ _ hE => hE)
      fun _ hP => ⟨hacc, hP⟩).bind fun r s₁ hr => ?_
    refine Or.inr ⟨hacc, s₁, rfl, ?_⟩
    rcases hr with ⟨hret, hinv⟩ | ⟨-, hshort⟩
    · exact Or.inl ⟨hret, hinv⟩
    · exact Or.inr hshort
  · obtain ⟨ret, hrun⟩ := sfsIoNolock_of_not_accepted hdir hacc
    rw [hrun]
    exact Or.inl ⟨rfl, rfl⟩

end io

theorem Kept.raiseSize (h : s.Consistent) (sin endpos : ℕ) : Kept s (s.raiseSize sin endpos) sin := by
  unfold Sfs.raiseSize
  split_ifs
  · exact .setInode h rfl rfl rfl rfl
  · exact .refl h sin

theorem Sfs.raiseSize_size (s : Sfs) (sin endpos : ℕ) :
    ((s.raiseSize sin endpos).inode sin).size = max (s.inode sin).size endpos := by
  unfold Sfs.raiseSize
  split_ifs with hlt
  · rw [Sfs.setInode_same]
    exact (max_eq_right hlt.le).symm
  · exact (max_eq_left (not_lt.mp hlt)).symm

theorem Sfs.raiseSize_blocks (s : Sfs) (sin endpos : ℕ) :
    ((s.raiseSize sin endpos).inode sin).blocks = (s.inode sin).blocks := by
  unfold Sfs.raiseSize
  split_ifs
  · rw [Sfs.setInode_same]
  · rfl

theorem Sfs.raiseSize_slot (s : Sfs) (sin endpos ino i : ℕ) :
    (s.raiseSize sin endpos).slot ino i = s.slot ino i := by
  unfold Sfs.raiseSize
  split_ifs
  · exact Sfs.slot_setInode rfl rfl ino i
  · rfl

/-! ### Resizing -/

/-- The loop that adds blocks. -/
theorem growBlocks_post (h : s.Consistent) (hsin : sin ∈ s.inos) (n : ℕ) :
    ((growBlocks sin (s.inode sin).blocks n).run s).Post
      (fun _ s' => Progress s s' sin ∧ (s'.inode sin).blocks = (s.inode sin).blocks + n ∧
        s'.byteAt sin = s.byteAt sin)
      (fun e s' => e = .noMem ∧ Progress s s' sin ∧
        (s'.inode sin).blocks < (s.inode sin).blocks + n ∧ s'.freemap.count < s'.need sin)
      (fun p => ∃ s', Progress s s' sin ∧ (s'.inode sin).blocks < (s.inode sin).blocks + n ∧
        LoadPanic s' sin (s'.inode sin).blocks p) := by
  induction n generalizing s with
  | zero => exact ⟨.refl h sin, rfl, rfl⟩
  | succ n ih =>
    rw [growBlocks]
    rw [Outcome.post_bind]
    refine (sfsBmapLoadNolock_post h hsin (s.inode sin).blocks).mono ?_ ?_ ?_
    · rintro b s₁ (⟨hlt, -⟩ | ⟨-, -, happ⟩)
      · exact absurd hlt (lt_irrefl _)
      · have hprog := happ.progress hsin
        have hrest := ih happ.consistent (show sin ∈ s₁.inos by rw [happ.inos]; exact hsin)
        rw [happ.grown] at hrest
        refine hrest.mono ?_ ?_ ?_
        · rintro _ s' ⟨hp, hb, hbytes⟩
          exact ⟨hprog.trans hp, by omega, hbytes.trans (happ.byteAt h hsin)⟩
        · rintro e s' ⟨he, hp, hb, hc⟩
          exact ⟨he, hprog.trans hp, by omega, hc⟩
        · rintro p ⟨s', hp, hb, hpanic⟩
          exact ⟨s', hprog.trans hp, by omega, hpanic⟩
    · rintro e s₁ ⟨rfl, -, -, hcount, hunt⟩
      refine ⟨rfl, hunt.progress hsin, by rw [hunt.inode]; omega, ?_⟩
      rwa [hunt.count, Sfs.need, hunt.inode, ← Sfs.need]
    · rintro p hp
      exact ⟨s, .refl h sin, by omega, hp⟩

/-- The file has lost blocks at its end. -/
structure Shrunk (s s' : Sfs) (sin : ℕ) : Prop where
  kept : Kept s s' sin
  size : (s'.inode sin).size = (s.inode sin).size
  old : ∀ i < (s'.inode sin).blocks, s'.slot sin i = s.slot sin i
  bytes : ∀ k < 4096 * (s'.inode sin).blocks, s'.byteAt sin k = s.byteAt sin k

/-- The loop that removes blocks. -/
theorem shrinkBlocks_run (h : s.Consistent) (hsin : sin ∈ s.inos) {n : ℕ}
    (hn : n ≤ (s.inode sin).blocks) :
    ∃ s', (shrinkBlocks sin n).run s = .ok () s' ∧ Shrunk s s' sin ∧
      (s'.inode sin).blocks = (s.inode sin).blocks - n := by
  induction n generalizing s with
  | zero => exact ⟨s, rfl, ⟨.refl h sin, rfl, fun _ _ => rfl, fun _ _ => rfl⟩, rfl⟩
  | succ n ih =>
    obtain ⟨s₁, hrun, hdrop⟩ := sfsBmapTruncateNolock_run h hsin (by omega)
    obtain ⟨s', hrun', hshrunk, hblocks⟩ := ih hdrop.consistent
      (show sin ∈ s₁.inos by rw [hdrop.inos]; exact hsin) (by rw [hdrop.shrunk]; omega)
    have hless := hdrop.shrunk
    refine ⟨s', ?_, ⟨hdrop.kept.trans hshrunk.kept, hshrunk.size.trans hdrop.size, fun i hi => ?_,
      fun k hk => ?_⟩, by omega⟩
    · rw [shrinkBlocks, Prog.bind_of_ok hrun, hrun']
    · rw [hshrunk.old i hi, hdrop.slot sin hsin, if_neg (by omega)]
    · rw [hshrunk.bytes k hk, hdrop.byteAt hsin (by omega)]

/-- A file that has been resized: its size is `len` and it has the blocks for it. -/
structure Resized (s s' : Sfs) (sin len : ℕ) : Prop where
  kept : Kept s s' sin
  size : (s'.inode sin).size = len
  blocks : (s'.inode sin).blocks = (len + 4095) / 4096
  full : s.Full sin → s'.Full sin
  /-- The blocks that are left, and none else, have their bytes. -/
  bytes : ∀ k, s'.byteAt sin k =
    if k < 4096 * ((len + 4095) / 4096) then s.byteAt sin k else 0
  /-- There were enough free blocks. -/
  fits : s.needTo sin ((len + 4095) / 4096) ≤ s.freemap.count

/-- A growth that has failed for lack of free blocks. -/
structure GrowShort (s s' : Sfs) (sin len : ℕ) : Prop where
  progress : Progress s s' sin
  short : (s'.inode sin).blocks < (len + 4095) / 4096
  count : s'.freemap.count < s'.need sin

/-- Where resizing to `len` can stop. -/
def TruncPanic (s : Sfs) (sin len : ℕ) (p : SfsPanic) : Prop :=
  p = .truncSame ∧ (s.inode sin).size = len ∧ (len + 4095) / 4096 ≠ (s.inode sin).blocks ∨
  ∃ s', Progress s s' sin ∧ (s'.inode sin).blocks < (len + 4095) / 4096 ∧
    LoadPanic s' sin (s'.inode sin).blocks p

theorem Kept.setSize (h : s.Consistent) (sin len : ℕ) :
    Kept s (s.setInode sin fun d => { d with size := len, dirty := true }) sin :=
  .setInode h rfl rfl rfl rfl

/-- **`sfs_truncfile`**, whatever way it ends. -/
theorem sfsTruncfile_post (h : s.Consistent) (hsin : sin ∈ s.inos) (len : ℤ) :
    ((sfsTruncfile sin len).run s).Post (fun _ s' => Resized s s' sin len.toNat)
      (fun e s' => e = .inval ∧ s' = s ∧ (len < 0 ∨ len > sfsMaxFileSize) ∨
        e = .noMem ∧ len ≤ sfsMaxFileSize ∧ GrowShort s s' sin len.toNat)
      (fun p => len ≤ sfsMaxFileSize ∧ TruncPanic s sin len.toNat p) := by
  simp only [sfsTruncfile, Prog.run_ite]
  split_ifs with hrange
  · exact Or.inl ⟨rfl, rfl, hrange⟩
  have hmax : len ≤ sfsMaxFileSize := by omega
  simp only [Prog.run_bind, Prog.run_get, Outcome.andThen_ok, Prog.run_ite]
  set tblks := (len.toNat + 4095) / 4096 with htblks
  split_ifs with hsame hgrow
  · by_cases hok : tblks = (s.inode sin).blocks
    · rw [Prog.run_assert_of _ _ hok]
      refine ⟨.refl h sin, hsame, hok.symm, id, fun k => ?_, by rw [Sfs.needTo_of_le hok.le]; omega⟩
      split_ifs with hk
      · rfl
      · exact h.byteAt_tail hsin (by omega)
    · rw [Prog.run_assert_of_not _ _ hok]
      exact ⟨hmax, Or.inl ⟨rfl, hsame, hok⟩⟩
  · have hpost := growBlocks_post h hsin (tblks - (s.inode sin).blocks)
    rw [show (s.inode sin).blocks + (tblks - (s.inode sin).blocks) = tblks by omega] at hpost
    refine (hpost.mono (fun _ _ hQ => hQ) ?_ ?_).bind ?_
    · rintro e s' ⟨rfl, hprog, hlt, hcount⟩
      exact Or.inr ⟨rfl, hmax, hprog, hlt, hcount⟩
    · rintro p ⟨s', hprog, hlt, hp⟩
      exact ⟨hmax, Or.inr ⟨s', hprog, hlt, hp⟩⟩
    · rintro _ s' ⟨hprog, hblocks, hbytes⟩
      simp only [Prog.run_bind, Prog.run_get, Outcome.andThen_ok, Prog.run_assert_of _ _ hblocks,
        Prog.run_modify]
      refine ⟨hprog.kept.trans (.setSize hprog.kept.consistent sin _), by rw [Sfs.setInode_same],
        by rw [Sfs.setInode_same]; exact hblocks, fun hfull i hi => ?_, fun k => ?_, ?_⟩
      · rw [Sfs.setInode_same] at hi
        rw [Sfs.slot_setInode rfl rfl]
        exact hprog.full hfull i hi
      · rw [Sfs.byteAt_congr (Sfs.slot_setInode rfl rfl _ _) fun _ => rfl, hbytes]
        split_ifs with hk
        · rfl
        · exact h.byteAt_tail hsin (by omega)
      · have hc := hprog.count tblks hblocks.le
        rw [Sfs.needTo_of_le (s := s') hblocks.ge] at hc
        show s.needTo sin tblks ≤ s.freemap.count
        omega
  · obtain ⟨s', hrun, hshrunk, hblocks⟩ := shrinkBlocks_run h hsin
      (n := (s.inode sin).blocks - tblks) (by omega)
    have hdone : (s'.inode sin).blocks = tblks := by omega
    simp only [hrun, Outcome.andThen_ok, Prog.run_bind, Prog.run_get, Prog.run_assert_of _ _ hdone,
      Prog.run_modify]
    refine ⟨hshrunk.kept.trans (.setSize hshrunk.kept.consistent sin _), by rw [Sfs.setInode_same],
      by rw [Sfs.setInode_same]; exact hdone, fun hfull i hi => ?_, fun k => ?_, ?_⟩
    · rw [Sfs.setInode_same] at hi
      simp only at hi
      rw [Sfs.slot_setInode rfl rfl, hshrunk.old i hi]
      exact hfull i (by omega)
    · rw [Sfs.byteAt_congr (Sfs.slot_setInode rfl rfl _ _) fun _ => rfl]
      split_ifs with hk
      · exact hshrunk.bytes k (by omega)
      · exact hshrunk.kept.consistent.byteAt_tail (by rw [hshrunk.kept.inos]; exact hsin) (by omega)
    · rw [Sfs.needTo_of_le (by omega)]
      omega

/-- **`sfs_tryseek`**: a position inside the file changes nothing, one behind it resizes the
file. -/
theorem sfsTryseek_post (h : s.Consistent) (hsin : sin ∈ s.inos) (pos : ℤ) :
    ((sfsTryseek sin pos).run s).Post
      (fun _ s' => pos.toNat ≤ (s.inode sin).size ∧ s' = s ∨
        (s.inode sin).size < pos.toNat ∧ Resized s s' sin pos.toNat)
      (fun e s' => e = .inval ∧ s' = s ∧ (pos < 0 ∨ pos ≥ sfsMaxFileSize) ∨
        e = .noMem ∧ pos < sfsMaxFileSize ∧ (s.inode sin).size < pos.toNat ∧ GrowShort s s' sin pos.toNat)
      (fun p => pos < sfsMaxFileSize ∧ (s.inode sin).size < pos.toNat ∧
        TruncPanic s sin pos.toNat p) := by
  simp only [sfsTryseek, Prog.run_ite]
  split_ifs with hrange
  · exact Or.inl ⟨rfl, rfl, hrange⟩
  have hmax : pos < sfsMaxFileSize := by omega
  simp only [Prog.run_bind, Prog.run_get, Outcome.andThen_ok, Prog.run_ite]
  split_ifs with hgrow
  · refine (sfsTruncfile_post h hsin pos).mono (fun _ _ hQ => Or.inr ⟨hgrow, hQ⟩) ?_
      fun _ hP => ⟨hmax, hgrow, hP.2⟩
    rintro e s' (⟨-, -, hout⟩ | ⟨he, -, hE⟩)
    · omega
    · exact Or.inr ⟨he, hmax, hgrow, hE⟩
  · exact Or.inl ⟨not_lt.mp hgrow, rfl⟩

/-! ### When resizing succeeds -/

/-- A growth that has failed had too few free blocks to begin with. -/
theorem GrowShort.count_lt {len : ℕ} (h : GrowShort s s' sin len) :
    s.freemap.count < s.needTo sin ((len + 4095) / 4096) := by
  have hcount := h.progress.count _ h.short.le
  have hneed := Sfs.need_le_needTo h.short
  have := h.count
  omega

/-- With free blocks inside the image only, and a length that the block map has room for, the only
assertion left is the one on an unchanged size. -/
theorem TruncPanic.size_eq {len : ℕ} {p : SfsPanic} (h : TruncPanic s sin len p)
    (hfree : ¬ s.BadFree) (hlen : len ≤ 1036 * 4096) :
    (s.inode sin).size = len ∧ (len + 4095) / 4096 ≠ (s.inode sin).blocks := by
  rcases h with ⟨-, hsize, hne⟩ | ⟨s', hprog, hlt, hp⟩
  · exact ⟨hsize, hne⟩
  · rcases hp with ⟨-, hp⟩ | ⟨-, -, hp⟩ | ⟨-, ⟨hp, -⟩ | hp⟩
    · exact absurd hp (lt_irrefl _)
    · omega
    · exact absurd hp (lt_irrefl _)
    · exact absurd (hprog.kept.badFree hp) hfree

/-- A file with the blocks for its size can be resized to any length the block map has room for and
the free blocks suffice for. -/
theorem sfsTruncfile_ok (h : s.Consistent) (hsin : sin ∈ s.inos) (hfree : ¬ s.BadFree)
    (hagree : (s.inode sin).blocks = ((s.inode sin).size + 4095) / 4096) {len : ℕ}
    (hlen : len ≤ 1036 * 4096) (hfits : s.needTo sin ((len + 4095) / 4096) ≤ s.freemap.count) :
    ∃ s', (sfsTruncfile sin len).run s = .ok () s' ∧ Resized s s' sin len := by
  have hpost := sfsTruncfile_post h hsin (len : ℤ)
  rw [Int.toNat_natCast] at hpost
  cases hrun : (sfsTruncfile sin len).run s with
  | ok _ s' =>
    rw [hrun] at hpost
    exact ⟨s', rfl, hpost⟩
  | error e s' =>
    rw [hrun] at hpost
    rcases hpost with ⟨-, -, hrange⟩ | ⟨-, -, hshort⟩
    · -- the length is inside the bounds that are checked
      have : sfsMaxFileSize = 134217728 := rfl
      omega
    · exact absurd hshort.count_lt (not_lt.mpr hfits)
  | panic p =>
    rw [hrun] at hpost
    obtain ⟨hsize, hne⟩ := hpost.2.size_eq hfree hlen
    exact absurd hagree.symm (by rwa [hsize])

end Ucore.Fs
