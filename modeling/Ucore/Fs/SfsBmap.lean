import Ucore.Fs.SfsBlocks

/-!
# The block map

What `sfs_bmap_load_nolock` and `sfs_bmap_truncate_nolock` do to a consistent image.

* `sfsBmapLoadNolock_post`: the block map finds a block (nothing changes), appends one to the file
  (`Appended`), fails for lack of free blocks (`Untouched`), or stops at one of the places that
  `LoadPanic` lists.
* `sfsBmapTruncateNolock_run`: the last block of a file is dropped (`Dropped`).

`Appended`, `Untouched` and `Dropped` say everything the rest of the development needs to know
about the block map; that the image stays consistent is part of them.
-/

namespace Ucore.Fs

open Ucore.Lib

variable {s s' : Sfs} {sin b : ℕ}

/-- The number of free blocks it takes to append a block to a file: two when the block is the first
one behind the direct blocks and there is no indirect block yet. -/
def Sfs.need (s : Sfs) (sin : ℕ) : ℕ :=
  if (s.inode sin).blocks < 12 ∨ (s.inode sin).indirect ≠ 0 then 1 else 2

/-- The file `sin` has got the block `b` at its end, and nothing else has changed. -/
structure Appended (s s' : Sfs) (sin b : ℕ) : Prop where
  blocks : s'.blocks = s.blocks
  inos : s'.inos = s.inos
  /-- The other inodes are the same. -/
  other : ∀ ino, ino ≠ sin → s'.inode ino = s.inode ino
  size : (s'.inode sin).size = (s.inode sin).size
  type : (s'.inode sin).type = (s.inode sin).type
  /-- The file has one block more. -/
  grown : (s'.inode sin).blocks = (s.inode sin).blocks + 1
  /-- Behind the direct blocks there is an indirect block now. -/
  indirect : (s'.inode sin).indirect = 0 ↔
    (s.inode sin).indirect = 0 ∧ (s.inode sin).blocks < 12
  ne : b ≠ 0
  /-- The block was free. -/
  fresh : s.freemap.isFree b = true
  /-- No block has become free. -/
  free : ∀ c, s'.freemap.isFree c = true → s.freemap.isFree c = true
  /-- As many blocks are taken as needed. -/
  count : s'.freemap.count + s.need sin = s.freemap.count
  slot : ∀ ino ∈ s.inos, ∀ i, s'.slot ino i =
    if ino = sin ∧ i = (s.inode sin).blocks then b else s.slot ino i
  /-- The new block is clear. -/
  new : s'.disk b = zeroBlock
  /-- The data blocks have their content. -/
  disk : ∀ ino ∈ s.inos, ∀ i, s.slot ino i ≠ 0 → s'.disk (s.slot ino i) = s.disk (s.slot ino i)
  consistent : s'.Consistent
  lost : s'.Lost = s.Lost

/-- Nothing has changed but the content of free blocks. -/
structure Untouched (s s' : Sfs) : Prop where
  blocks : s'.blocks = s.blocks
  inos : s'.inos = s.inos
  inode : s'.inode = s.inode
  free : s'.freemap.isFree = s.freemap.isFree
  count : s'.freemap.count = s.freemap.count
  slot : ∀ ino ∈ s.inos, ∀ i, s'.slot ino i = s.slot ino i
  disk : ∀ ino ∈ s.inos, ∀ i, s.slot ino i ≠ 0 → s'.disk (s.slot ino i) = s.disk (s.slot ino i)
  consistent : s'.Consistent
  lost : s'.Lost = s.Lost

/-- The file `sin` has lost its last block, and nothing else has changed. -/
structure Dropped (s s' : Sfs) (sin : ℕ) : Prop where
  blocks : s'.blocks = s.blocks
  inos : s'.inos = s.inos
  /-- The other inodes are the same. -/
  other : ∀ ino, ino ≠ sin → s'.inode ino = s.inode ino
  size : (s'.inode sin).size = (s.inode sin).size
  type : (s'.inode sin).type = (s.inode sin).type
  /-- The file has one block less. -/
  shrunk : (s'.inode sin).blocks = (s.inode sin).blocks - 1
  indirect : (s'.inode sin).indirect = (s.inode sin).indirect
  /-- Only a block of the image has become free. -/
  free : ∀ c, s'.freemap.isFree c = true → s.freemap.isFree c = true ∨ c ≠ 0 ∧ c < s.blocks
  count : s'.freemap.count = s.freemap.count +
    if s.slot sin ((s.inode sin).blocks - 1) = 0 then 0 else 1
  slot : ∀ ino ∈ s.inos, ∀ i, s'.slot ino i =
    if ino = sin ∧ i = (s.inode sin).blocks - 1 then 0 else s.slot ino i
  disk : ∀ ino ∈ s.inos, ∀ i, s.slot ino i ≠ 0 → s'.disk (s.slot ino i) = s.disk (s.slot ino i)
  consistent : s'.Consistent
  lost : s'.Lost = s.Lost

/-! ### Consistency when a block changes hands -/

theorem Sfs.blk_eq_update (hsin : sin ∈ s.inos) {idx c : ℕ} (hinos : s'.inos = s.inos)
    (hind : ∀ ino, (s'.inode ino).indirect = (s.inode ino).indirect)
    (hslot : ∀ ino ∈ s.inos, ∀ i, s'.slot ino i =
      if ino = sin ∧ i = idx then c else s.slot ino i) :
    s'.blk = Function.update s.blk (.data sin idx) c := by
  funext o
  cases o with
  | inode ino => simp [Sfs.blk, hinos]
  | indirect ino => simp [Sfs.blk, hinos, hind]
  | data ino i =>
    by_cases hino : ino ∈ s.inos
    · by_cases hat : ino = sin ∧ i = idx
      · obtain ⟨rfl, rfl⟩ := hat
        rw [Function.update_self]
        simp [Sfs.blk, hinos, hsin, hslot]
      · have hne : Owner.data ino i ≠ .data sin idx := fun heq => by
          injection heq with h₁ h₂
          exact hat ⟨h₁, h₂⟩
        rw [Function.update_of_ne hne]
        simp only [Sfs.blk, hinos, if_pos hino]
        rw [hslot ino hino, if_neg hat]
    · have hne : Owner.data ino i ≠ .data sin idx := fun heq => by
        injection heq with h₁ h₂
        exact hino (h₁ ▸ hsin)
      rw [Function.update_of_ne hne]
      simp [Sfs.blk, hinos, hino]

/-- A free block that goes to an owner that has none. -/
theorem Sfs.Consistent.take_owner (h : s.Consistent) {o : Owner} (hb : b ≠ 0) (hlt : b < s.blocks)
    (hfree : s.freemap.isFree b = true) (ho : s.blk o = 0) (hblocks : s'.blocks = s.blocks)
    (hmap : s'.freemap = s.freemap.flip b) (hunused : s'.unusedBlocks = s.unusedBlocks - 1)
    (hblk : s'.blk = Function.update s.blk o b)
    (htail : ∀ ino ∈ s'.inos, ∀ i, (s'.inode ino).blocks ≤ i → s'.slot ino i = 0) :
    s'.Consistent ∧ s'.Lost = s.Lost := by
  have hset : s'.freemap.isFree = Function.update s.freemap.isFree b false := by
    rw [hmap, Bitmap.isFree_flip (Bitmap.isFree_lt hfree), hfree]
    rfl
  have howned : Owned s'.freemap.isFree s'.blk := by
    rw [hset, hblk]
    exact h.owned.take hb hfree
  have hcount := Bitmap.count_take hfree
  refine ⟨⟨?_, ?_, fun o' ho' => ⟨?_, howned.used o' ho'⟩, howned.inj, htail⟩, ?_⟩
  · rw [hmap, Bitmap.nbits_flip, hblocks, h.shape]
  · rw [hunused, hmap, h.count]
    omega
  · rw [hblocks]
    rw [hblk] at ho' ⊢
    by_cases hoo : o' = o
    · rwa [hoo, Function.update_self]
    · rw [Function.update_of_ne hoo] at ho' ⊢
      exact (h.used o' ho').1
  · rw [Sfs.Lost, hset, hblk, stray_take ho hfree]
    rfl

/-- An owner that gives its block back. -/
theorem Sfs.Consistent.give_owner (h : s.Consistent) {o : Owner} (ho : s.blk o ≠ 0)
    (hblocks : s'.blocks = s.blocks) (hmap : s'.freemap = s.freemap.flip (s.blk o))
    (hunused : s'.unusedBlocks = s.unusedBlocks + 1)
    (hblk : s'.blk = Function.update s.blk o 0)
    (htail : ∀ ino ∈ s'.inos, ∀ i, (s'.inode ino).blocks ≤ i → s'.slot ino i = 0) :
    s'.Consistent ∧ s'.Lost = s.Lost := by
  obtain ⟨hlt, hused⟩ := h.used o ho
  have hset : s'.freemap.isFree = Function.update s.freemap.isFree (s.blk o) true := by
    rw [hmap, Bitmap.isFree_flip (h.lt_length hlt), hused]
    rfl
  have howned : Owned s'.freemap.isFree s'.blk := by
    rw [hset, hblk]
    exact h.owned.give ho
  refine ⟨⟨?_, ?_, fun o' ho' => ⟨?_, howned.used o' ho'⟩, howned.inj, htail⟩, ?_⟩
  · rw [hmap, Bitmap.nbits_flip, hblocks, h.shape]
  · rw [hunused, hmap, h.count, Bitmap.count_give hused (h.lt_length hlt)]
  · rw [hblocks]
    rw [hblk] at ho' ⊢
    have hoo : o' ≠ o := by
      rintro rfl
      exact ho' (Function.update_self _ _ _)
    rw [Function.update_of_ne hoo] at ho' ⊢
    exact (h.used o' ho').1
  · rw [Sfs.Lost, hset, hblk, stray_give ho]
    rfl

section owners

variable {ino ino' i : ℕ}

theorem Sfs.Consistent.slot_used (h : s.Consistent) (hino : ino ∈ s.inos) (hne : s.slot ino i ≠ 0) :
    s.InUse (s.slot ino i) := by
  have := h.used (.data ino i)
  simp only [Sfs.blk, if_pos hino] at this
  exact this hne

theorem Sfs.Consistent.indirect_used (h : s.Consistent) (hino : ino ∈ s.inos)
    (hne : (s.inode ino).indirect ≠ 0) : s.InUse (s.inode ino).indirect := by
  have := h.used (.indirect ino)
  simp only [Sfs.blk, if_pos hino] at this
  exact this hne

/-- A data block is not an indirect block. -/
theorem Sfs.Consistent.slot_ne_indirect (h : s.Consistent) (hino : ino ∈ s.inos)
    (hino' : ino' ∈ s.inos) (hne : s.slot ino i ≠ 0) : s.slot ino i ≠ (s.inode ino').indirect := by
  intro heq
  have := h.inj (.data ino i) (.indirect ino')
  simp only [Sfs.blk, if_pos hino, if_pos hino'] at this
  cases this hne heq

/-- Two inodes do not share an indirect block. -/
theorem Sfs.Consistent.indirect_inj (h : s.Consistent) (hino : ino ∈ s.inos) (hino' : ino' ∈ s.inos)
    (hne : (s.inode ino).indirect ≠ 0) (heq : (s.inode ino).indirect = (s.inode ino').indirect) :
    ino = ino' := by
  have := h.inj (.indirect ino) (.indirect ino')
  simp only [Sfs.blk, if_pos hino, if_pos hino'] at this
  injection this hne heq

/-- A block reached through one slot is not reached through another. -/
theorem Sfs.Consistent.slot_inj (h : s.Consistent) {i' : ℕ} (hino : ino ∈ s.inos)
    (hino' : ino' ∈ s.inos) (hne : s.slot ino i ≠ 0) (heq : s.slot ino i = s.slot ino' i') :
    ino = ino' ∧ i = i' := by
  have := h.inj (.data ino i) (.data ino' i')
  simp only [Sfs.blk, if_pos hino, if_pos hino'] at this
  injection this hne heq with h₁ h₂
  exact ⟨h₁, h₂⟩

theorem Sfs.InUse.ne_free {c : ℕ} (h : s.InUse c) (hfree : s.freemap.isFree b = true) : c ≠ b := by
  rintro rfl
  rw [h.2] at hfree
  cases hfree

theorem Sfs.take_disk_of_ne {c : ℕ} (hcb : c ≠ b) : (s.take b).disk c = s.disk c := by
  simp [Sfs.take, Function.update_of_ne hcb]

theorem Sfs.take_disk_same : (s.take b).disk b = zeroBlock := by
  simp [Sfs.take]

theorem Sfs.putEntry_disk_of_ne {ent j n c : ℕ} (h : c ≠ ent) :
    (s.putEntry ent j n).disk c = s.disk c := by
  simp [Sfs.putEntry, Sfs.writeBlock, Function.update_of_ne h]

end owners

/-! ### Appending a block -/

section append

/-- What there is to show for a block that is appended without a new indirect block. -/
theorem Appended.of_slot (h : s.Consistent) (hsin : sin ∈ s.inos) (hb : b ≠ 0) (hlt : b < s.blocks)
    (hfree : s.freemap.isFree b = true) (hneed : (s.inode sin).blocks < 12 ∨ (s.inode sin).indirect ≠ 0)
    (hblocks : s'.blocks = s.blocks) (hinos : s'.inos = s.inos)
    (hmap : s'.freemap = s.freemap.flip b) (hunused : s'.unusedBlocks = s.unusedBlocks - 1)
    (hother : ∀ ino, ino ≠ sin → s'.inode ino = s.inode ino)
    (hsize : (s'.inode sin).size = (s.inode sin).size)
    (htype : (s'.inode sin).type = (s.inode sin).type)
    (hgrown : (s'.inode sin).blocks = (s.inode sin).blocks + 1)
    (hind : (s'.inode sin).indirect = (s.inode sin).indirect)
    (hslot : ∀ ino ∈ s.inos, ∀ i, s'.slot ino i =
      if ino = sin ∧ i = (s.inode sin).blocks then b else s.slot ino i)
    (hnew : s'.disk b = zeroBlock)
    (hdisk : ∀ ino ∈ s.inos, ∀ i, s.slot ino i ≠ 0 →
      s'.disk (s.slot ino i) = s.disk (s.slot ino i)) : Appended s s' sin b := by
  have hind' : ∀ ino, (s'.inode ino).indirect = (s.inode ino).indirect := by
    intro ino
    by_cases hino : ino = sin
    · rw [hino, hind]
    · rw [hother ino hino]
  have hold : s.blk (.data sin (s.inode sin).blocks) = 0 := by
    simp only [Sfs.blk, if_pos hsin]
    exact h.tail sin hsin _ le_rfl
  have htail : ∀ ino ∈ s'.inos, ∀ i, (s'.inode ino).blocks ≤ i → s'.slot ino i = 0 := by
    intro ino hino i hi
    rw [hinos] at hino
    rw [hslot ino hino]
    by_cases hino' : ino = sin
    · subst hino'
      rw [hgrown] at hi
      rw [if_neg (by omega)]
      exact h.tail ino hino i (by omega)
    · rw [hother ino hino'] at hi
      rw [if_neg fun hat => hino' hat.1]
      exact h.tail ino hino i hi
  obtain ⟨hcons, hlost⟩ := h.take_owner hb hlt hfree hold hblocks hmap hunused
    (Sfs.blk_eq_update hsin hinos hind' hslot) htail
  refine ⟨hblocks, hinos, hother, hsize, htype, hgrown, ?_, hb, hfree, fun c hc => ?_, ?_, hslot, hnew,
    hdisk, hcons, hlost⟩
  · rw [hind]
    exact ⟨fun h0 => ⟨h0, hneed.resolve_right (by simp [h0])⟩, fun h0 => h0.1⟩
  · rw [hmap, Bitmap.isFree_flip (Bitmap.isFree_lt hfree), hfree] at hc
    by_cases hcb : c = b
    · rw [hcb, hfree]
    · rwa [Function.update_of_ne hcb] at hc
  · rw [Sfs.need, if_pos hneed, hmap]
    exact Bitmap.count_take hfree

/-- A new direct block. -/
theorem Appended.direct (h : s.Consistent) (hsin : sin ∈ s.inos)
    (hidx : (s.inode sin).blocks < 12) (hb : b ≠ 0) (hlt : b < s.blocks)
    (hfree : s.freemap.isFree b = true) :
    Appended s ((s.take b).setInode sin fun d =>
      { d with
        direct := Function.update d.direct (s.inode sin).blocks b
        dirty := true
        blocks := d.blocks + 1 }) sin b := by
  set idx := (s.inode sin).blocks with hidx'
  set s' := (s.take b).setInode sin fun d =>
    { d with direct := Function.update d.direct idx b, dirty := true, blocks := d.blocks + 1 } with hs'
  have hsame : s'.inode sin = { s.inode sin with
      direct := Function.update (s.inode sin).direct idx b, dirty := true, blocks := idx + 1 } := by
    rw [hs', Sfs.setInode_same]
    rfl
  have hother : ∀ ino, ino ≠ sin → s'.inode ino = s.inode ino := fun ino hne =>
    Sfs.setInode_of_ne _ _ _ hne
  have hdisk : ∀ c, s.InUse c → s'.disk c = s.disk c := fun c hc =>
    Sfs.take_disk_of_ne (hc.ne_free hfree)
  refine .of_slot h hsin hb hlt hfree (Or.inl hidx) rfl rfl rfl rfl hother (by rw [hsame])
    (by rw [hsame]) (by rw [hsame]) (by rw [hsame]) (fun ino hino i => ?_) Sfs.take_disk_same
    fun ino hino i hne => hdisk _ (h.slot_used hino hne)
  split_ifs with hat
  · obtain ⟨rfl, rfl⟩ := hat
    rw [Sfs.slot, if_pos hidx, hsame]
    exact Function.update_self _ _ _
  · by_cases hino' : ino = sin
    · subst hino'
      refine Sfs.slot_congr (fun _ => ?_) (by rw [hsame]) fun hne =>
        hdisk _ (h.indirect_used hino hne)
      rw [hsame]
      exact Function.update_of_ne (fun heq => hat ⟨rfl, heq⟩) _ _
    · exact Sfs.slot_congr (fun _ => by rw [hother ino hino']) (by rw [hother ino hino'])
        fun hne => hdisk _ (h.indirect_used hino hne)

/-- A new block behind the direct blocks, entered in the indirect block. -/
theorem Appended.entry (h : s.Consistent) (hsin : sin ∈ s.inos) (hge : 12 ≤ (s.inode sin).blocks)
    (hidx : (s.inode sin).blocks < 1036) (hind0 : (s.inode sin).indirect ≠ 0) (hb : b ≠ 0)
    (hlt : b < s.blocks) (hfree : s.freemap.isFree b = true) :
    Appended s (((s.take b).putEntry (s.inode sin).indirect ((s.inode sin).blocks - 12) b).setInode
      sin fun d => { d with blocks := d.blocks + 1 }) sin b := by
  set idx := (s.inode sin).blocks with hidx'
  set ent := (s.inode sin).indirect with hent
  set s₁ := (s.take b).putEntry ent (idx - 12) b with hs₁
  set s' := s₁.setInode sin fun d => { d with blocks := d.blocks + 1 } with hs'
  have hentUsed : s.InUse ent := h.indirect_used hsin hind0
  have hsame : s'.inode sin = { s.inode sin with blocks := idx + 1 } := by
    rw [hs', Sfs.setInode_same]
    rfl
  have hother : ∀ ino, ino ≠ sin → s'.inode ino = s.inode ino := fun ino hne =>
    Sfs.setInode_of_ne _ _ _ hne
  have hdisk : ∀ c, s.InUse c → c ≠ ent → s'.disk c = s.disk c := by
    intro c hc hce
    show s₁.disk c = s.disk c
    rw [hs₁, Sfs.putEntry_disk_of_ne hce, Sfs.take_disk_of_ne (hc.ne_free hfree)]
  have hentry : ∀ j, s'.entry ent j = if j = idx - 12 then b else s.entry ent j := by
    intro j
    have htake : (s.take b).entry ent j = s.entry ent j :=
      Sfs.entry_congr (Sfs.take_disk_of_ne (hentUsed.ne_free hfree)) j
    show s₁.entry ent j = _
    rw [hs₁, Sfs.entry_putEntry _ _ (hlt.trans s.blocks_lt), htake]
  refine .of_slot h hsin hb hlt hfree (Or.inr hind0) rfl rfl rfl rfl hother (by rw [hsame])
    (by rw [hsame]) (by rw [hsame]) (by rw [hsame]) (fun ino hino i => ?_) ?_
    fun ino hino i hne => hdisk _ (h.slot_used hino hne) (h.slot_ne_indirect hino hsin hne)
  · by_cases hino' : ino = sin
    · subst hino'
      rw [Sfs.slot, Sfs.slot, hsame]
      simp only [← hent, hentry, true_and, ← hidx']
      by_cases hi : i = idx
      · subst hi
        rw [if_neg (by omega), if_pos ⟨hidx, hind0⟩, if_pos rfl, if_pos rfl]
      · rw [if_neg hi]
        by_cases h₁ : i < 12
        · rw [if_pos h₁, if_pos h₁]
        · have hj : i - 12 ≠ idx - 12 := by omega
          rw [if_neg h₁, if_neg h₁, if_neg hj]
    · rw [if_neg fun hat => hino' hat.1]
      exact Sfs.slot_congr (fun _ => by rw [hother ino hino']) (by rw [hother ino hino']) fun hne =>
        hdisk _ (h.indirect_used hino hne) fun heq => hino' (h.indirect_inj hino hsin hne heq)
  · show s₁.disk b = zeroBlock
    rw [hs₁, Sfs.putEntry_disk_of_ne (hentUsed.ne_free hfree).symm, Sfs.take_disk_same]

/-- An indirect block for a file that had none. -/
def Sfs.attach (s : Sfs) (sin e : ℕ) : Sfs :=
  (s.take e).setInode sin fun d => { d with indirect := e, dirty := true }

variable {e : ℕ}

theorem Sfs.attach_slot (h : s.Consistent) (hind : (s.inode sin).indirect = 0)
    (hfree : s.freemap.isFree e = true) {ino : ℕ} (hino : ino ∈ s.inos) (i : ℕ) :
    (s.attach sin e).slot ino i = s.slot ino i := by
  have hdisk : ∀ c, s.InUse c → (s.attach sin e).disk c = s.disk c := fun c hc =>
    Sfs.take_disk_of_ne (hc.ne_free hfree)
  by_cases hino' : ino = sin
  · subst hino'
    have hzero : (s.attach ino e).disk e = zeroBlock := Sfs.take_disk_same
    rw [Sfs.slot, Sfs.slot, Sfs.attach, Sfs.setInode_same, ← Sfs.attach]
    simp only [Sfs.take_inode, hind, ne_eq, not_true_eq_false, and_false, if_false,
      Sfs.entry_zeroBlock hzero, ite_self]
  · have hsame : (s.attach sin e).inode ino = s.inode ino := Sfs.setInode_of_ne _ _ _ hino'
    exact Sfs.slot_congr (fun _ => by rw [hsame]) (by rw [hsame]) fun hne =>
      hdisk _ (h.indirect_used hino hne)

theorem Sfs.attach_consistent (h : s.Consistent) (hsin : sin ∈ s.inos)
    (hind : (s.inode sin).indirect = 0) (he : e ≠ 0) (hlt : e < s.blocks)
    (hfree : s.freemap.isFree e = true) :
    (s.attach sin e).Consistent ∧ (s.attach sin e).Lost = s.Lost := by
  have hsame : (s.attach sin e).inode sin = { s.inode sin with indirect := e, dirty := true } := by
    rw [Sfs.attach, Sfs.setInode_same]
    rfl
  have hother : ∀ ino, ino ≠ sin → (s.attach sin e).inode ino = s.inode ino := fun ino hne =>
    Sfs.setInode_of_ne _ _ _ hne
  have hblk : (s.attach sin e).blk = Function.update s.blk (.indirect sin) e := by
    funext o
    cases o with
    | inode ino => rfl
    | indirect ino =>
      by_cases hino : ino = sin
      · subst hino
        rw [Function.update_self]
        show (if ino ∈ s.inos then _ else 0) = e
        rw [if_pos hsin, hsame]
      · have hne : Owner.indirect ino ≠ .indirect sin := fun heq => by
          injection heq with h₁
          exact hino h₁
        rw [Function.update_of_ne hne]
        simp only [Sfs.blk, hother ino hino]
        rfl
    | data ino i =>
      rw [Function.update_of_ne (by simp)]
      show (if ino ∈ s.inos then _ else 0) = if ino ∈ s.inos then _ else 0
      split_ifs with hino
      · exact Sfs.attach_slot h hind hfree hino i
      · rfl
  have hold : s.blk (.indirect sin) = 0 := by
    simp only [Sfs.blk, if_pos hsin, hind]
  refine h.take_owner he hlt hfree hold rfl rfl rfl hblk fun ino hino i hi => ?_
  rw [Sfs.attach_slot h hind hfree hino]
  by_cases hino' : ino = sin
  · subst hino'
    rw [hsame] at hi
    exact h.tail ino hino i hi
  · rw [hother ino hino'] at hi
    exact h.tail ino hino i hi

/-- The first block behind the direct blocks, with a new indirect block. -/
theorem Appended.attach (h : s.Consistent) (hsin : sin ∈ s.inos)
    (hge : 12 ≤ (s.inode sin).blocks) (hind : (s.inode sin).indirect = 0) (he : e ≠ 0)
    (hlt : e < s.blocks) (hfree : s.freemap.isFree e = true)
    (happ : Appended (s.attach sin e) s' sin b) : Appended s s' sin b := by
  have hsame : (s.attach sin e).inode sin = { s.inode sin with indirect := e, dirty := true } := by
    rw [Sfs.attach, Sfs.setInode_same]
    rfl
  have hother : ∀ ino, ino ≠ sin → (s.attach sin e).inode ino = s.inode ino := fun ino hne =>
    Sfs.setInode_of_ne _ _ _ hne
  have hfreeLe : ∀ c, (s.attach sin e).freemap.isFree c = true → s.freemap.isFree c = true := by
    intro c hc
    have : (s.freemap.flip e).isFree c = true := hc
    rw [Bitmap.isFree_flip (Bitmap.isFree_lt hfree), hfree] at this
    by_cases hce : c = e
    · rw [hce, hfree]
    · rwa [Function.update_of_ne hce] at this
  have hcount : (s.attach sin e).freemap.count + 1 = s.freemap.count := Bitmap.count_take hfree
  refine ⟨happ.blocks, happ.inos, fun ino hne => (happ.other ino hne).trans (hother ino hne), ?_, ?_,
    ?_, ?_, happ.ne, hfreeLe b happ.fresh, fun c hc => hfreeLe c (happ.free c hc), ?_,
    fun ino hino i => ?_, happ.new, fun ino hino i hne => ?_, happ.consistent,
    happ.lost.trans (Sfs.attach_consistent h hsin hind he hlt hfree).2⟩
  · rw [happ.size, hsame]
  · rw [happ.type, hsame]
  · rw [happ.grown, hsame]
  · rw [happ.indirect, hsame]
    exact iff_of_false (fun h0 => he h0.1) fun h0 => by omega
  · have hneed : (s.attach sin e).need sin = 1 := by
      rw [Sfs.need, hsame, if_pos (Or.inr he)]
    have := happ.count
    rw [hneed] at this
    rw [Sfs.need, if_neg (by simp [hind, hge])]
    omega
  · rw [happ.slot ino hino, hsame, Sfs.attach_slot h hind hfree hino]
  · have hslot : (s.attach sin e).slot ino i = s.slot ino i := Sfs.attach_slot h hind hfree hino i
    have hd := happ.disk ino hino i
    rw [hslot] at hd
    rw [hd hne]
    exact Sfs.take_disk_of_ne ((h.slot_used hino hne).ne_free hfree)

end append

theorem Untouched.refl (h : s.Consistent) : Untouched s s :=
  ⟨rfl, rfl, rfl, rfl, rfl, fun _ _ _ => rfl, fun _ _ _ _ => rfl, h, rfl⟩

/-- A block that is taken and given back at once. -/
theorem Untouched.take_give (h : s.Consistent) (hfree : s.freemap.isFree b = true) :
    Untouched s ((s.take b).give b) := by
  have hlt := Bitmap.isFree_lt hfree
  have hset : ((s.take b).give b).freemap.isFree = s.freemap.isFree :=
    Bitmap.isFree_flip_flip hlt
  have hcount : ((s.freemap.flip b).flip b).count = s.freemap.count := by
    unfold Bitmap.count
    rw [Bitmap.isFree_flip_flip hlt, Bitmap.length_flip, Bitmap.length_flip]
  have hpos := Bitmap.count_pos hfree
  have hslot : ∀ ino ∈ s.inos, ∀ i, ((s.take b).give b).slot ino i = s.slot ino i := fun ino hino i =>
    Sfs.slot_congr (fun _ => rfl) rfl fun hne =>
      Sfs.take_disk_of_ne ((h.indirect_used hino hne).ne_free hfree)
  have hblk : ((s.take b).give b).blk = s.blk := by
    funext o
    cases o with
    | inode ino => rfl
    | indirect ino => rfl
    | data ino i =>
      show (if ino ∈ s.inos then _ else 0) = if ino ∈ s.inos then _ else 0
      split_ifs with hino
      · exact hslot ino hino i
      · rfl
  refine ⟨rfl, rfl, rfl, hset, hcount, hslot, fun ino hino i hne =>
    Sfs.take_disk_of_ne ((h.slot_used hino hne).ne_free hfree), ⟨h.shape, ?_, fun o ho => ?_, ?_,
    fun ino hino i hi => ?_⟩, ?_⟩
  · show s.unusedBlocks - 1 + 1 = ((s.freemap.flip b).flip b).count
    rw [hcount, h.count]
    omega
  · rw [hblk] at ho ⊢
    exact ⟨(h.used o ho).1, by rw [hset]; exact (h.used o ho).2⟩
  · rw [hblk]
    exact h.inj
  · rw [hslot ino hino]
    exact h.tail ino hino i hi
  · rw [Sfs.Lost, hset, hblk]
    rfl

/-! ### Running the block map -/

section run

/-- A free bit of the free map that is no block of the image. -/
def Sfs.BadFree (s : Sfs) : Prop := ∃ c, s.freemap.isFree c = true ∧ ¬ (c ≠ 0 ∧ c < s.blocks)

theorem Sfs.setInode_setInode (f g : SfsInode → SfsInode) :
    (s.setInode sin f).setInode sin g = s.setInode sin fun d => g (f d) := by
  simp [Sfs.setInode]

theorem bmapGetOut_run (hbits : b < s.freemap.nbits) (hb : b ≠ 0) (hused : s.InUse b) :
    (bmapGetOut b).run s = .ok b s := by
  simp only [bmapGetOut, ne_eq, hb, not_false_eq_true, if_true, Prog.run_bind,
    sfsBlockInuse_run hbits ⟨hb, hused.1⟩, Outcome.andThen_ok, hused.2, Bool.not_false,
    Prog.run_assert, Prog.run_pure]

theorem bmapGetOut_zero : (bmapGetOut 0).run s = .ok 0 s := by
  simp [bmapGetOut]

theorem Sfs.read_entry (s : Sfs) (ent j : ℕ) :
    getU32 ((s.disk ent).read (j * 4) 4) = s.entry ent j := rfl

/-- A block that is there is found, and nothing changes. -/
theorem sfsBmapGetNolock_found (h : s.Consistent) (hsin : sin ∈ s.inos) {index : ℕ}
    (hne : s.slot sin index ≠ 0) (create : Bool) :
    (sfsBmapGetNolock sin index create).run s = .ok (s.slot sin index) s := by
  have hused := h.slot_used hsin hne
  have hout := bmapGetOut_run (h.lt_nbits hused.1) hne hused
  simp only [sfsBmapGetNolock, Prog.run_bind, Prog.run_get, Outcome.andThen_ok]
  by_cases hidx : index < 12
  · have hslot : s.slot sin index = (s.inode sin).direct index := by rw [Sfs.slot, if_pos hidx]
    rw [hslot] at hne hout ⊢
    simp only [if_pos hidx, hne, false_and, if_false, hout]
  · have hcond : index < 1036 ∧ (s.inode sin).indirect ≠ 0 := by
      by_contra hno
      exact hne (by rw [Sfs.slot, if_neg hidx, if_neg hno])
    have hslot : s.slot sin index = s.entry (s.inode sin).indirect (index - 12) := by
      rw [Sfs.slot, if_neg hidx, if_pos hcond]
    have hent := h.indirect_used hsin hcond.2
    rw [hslot] at hne hout ⊢
    have hsub : (sfsBmapGetSubNolock (s.inode sin).indirect (index - 12) create).run s =
        .ok ((s.inode sin).indirect, s.entry (s.inode sin).indirect (index - 12)) s := by
      have hj : index - 12 < 1024 := by omega
      simp only [sfsBmapGetSubNolock, Prog.run_bind, Prog.run_assert_of _ _ hj, Outcome.andThen_ok,
        if_pos hcond.2, sfsRbuf_run ⟨hcond.2, hent.1⟩
          (show (index - 12) * 4 < 4096 ∧ (index - 12) * 4 + 4 ≤ 4096 by omega), Sfs.read_entry, ne_eq, hne, not_false_eq_true, true_or, if_true, Prog.run_pure]
    simp only [if_neg hidx, show index - 12 < 1024 by omega, if_true, hsub, ne_eq, not_true_eq_false,
      if_false, Outcome.andThen_ok, Prog.run_bind, hout]

/-- Without `create`, an index without a block gives 0. -/
theorem sfsBmapGetNolock_hole (h : s.Consistent) (hsin : sin ∈ s.inos) {index : ℕ}
    (hidx : index < 1036) (hzero : s.slot sin index = 0) :
    (sfsBmapGetNolock sin index false).run s = .ok 0 s := by
  simp only [sfsBmapGetNolock, Prog.run_bind, Prog.run_get, Outcome.andThen_ok]
  by_cases hdir : index < 12
  · have hslot : (s.inode sin).direct index = 0 := by rwa [Sfs.slot, if_pos hdir] at hzero
    simp only [if_pos hdir, hslot, Bool.false_eq_true, and_false, if_false, bmapGetOut_zero]
  · have hj : index - 12 < 1024 := by omega
    have hsub : (sfsBmapGetSubNolock (s.inode sin).indirect (index - 12) false).run s =
        .ok ((s.inode sin).indirect, 0) s := by
      by_cases hind : (s.inode sin).indirect = 0
      · simp only [sfsBmapGetSubNolock, Prog.run_bind, Prog.run_assert_of _ _ hj, Outcome.andThen_ok,
          hind, ne_eq, not_true_eq_false, if_false, if_true, Prog.run_pure]
      · have hslot : s.entry (s.inode sin).indirect (index - 12) = 0 := by
          rwa [Sfs.slot, if_neg hdir, if_pos ⟨hidx, hind⟩] at hzero
        have hent := h.indirect_used hsin hind
        simp only [sfsBmapGetSubNolock, Prog.run_bind, Prog.run_assert_of _ _ hj, Outcome.andThen_ok,
          if_pos hind, ne_eq, sfsRbuf_run ⟨hind, hent.1⟩
            (show (index - 12) * 4 < 4096 ∧ (index - 12) * 4 + 4 ≤ 4096 by omega),
          Sfs.read_entry, hslot, or_true, if_true, Prog.run_pure]
    simp only [if_neg hdir, if_pos hj, Prog.run_bind, hsub, ne_eq, not_true_eq_false, if_false,
      Outcome.andThen_ok, bmapGetOut_zero]

theorem sfsBmapGetNolock_range {index : ℕ} (hidx : 1036 ≤ index) (create : Bool) :
    (sfsBmapGetNolock sin index create).run s = .panic .getRange := by
  simp only [sfsBmapGetNolock, Prog.run_bind, Prog.run_get, Outcome.andThen_ok,
    if_neg (show ¬ index < 12 by omega), if_neg (show ¬ index - 12 < 1024 by omega), Prog.run_stop]

/-- The ways in which getting a new block at the end of the file can end. -/
inductive Created (s : Sfs) (sin : ℕ) : Outcome SfsPanic FsError Sfs ℕ → Prop where
  /-- A block is got; the count of blocks is still to be raised. -/
  | ok {b : ℕ} {s' : Sfs}
      (happ : Appended s (s'.setInode sin fun d => { d with blocks := d.blocks + 1 }) sin b) :
      Created s sin (.ok b s')
  /-- There are too few free blocks. -/
  | noMem {s' : Sfs} (hcount : s.freemap.count < s.need sin) (huntouched : Untouched s s') :
      Created s sin (.error .noMem s')
  /-- The free map has a bit outside the image. -/
  | range (hbad : s.BadFree) : Created s sin (.panic .inuseRange)

theorem isFree_take (hfree : s.freemap.isFree b = true) : (s.take b).freemap.isFree b = false := by
  show (s.freemap.flip b).isFree b = false
  rw [Bitmap.isFree_flip (Bitmap.isFree_lt hfree), Function.update_self, hfree]
  rfl

/-- A new direct block. -/
theorem sfsBmapGetNolock_direct (h : s.Consistent) (hsin : sin ∈ s.inos)
    (hidx : (s.inode sin).blocks < 12) :
    Created s sin ((sfsBmapGetNolock sin (s.inode sin).blocks true).run s) := by
  have hzero : (s.inode sin).direct (s.inode sin).blocks = 0 := by
    have := h.tail sin hsin _ le_rfl
    rwa [Sfs.slot, if_pos hidx] at this
  simp only [sfsBmapGetNolock, Prog.run_bind, Prog.run_get, Outcome.andThen_ok, if_pos hidx, hzero,
    and_self, if_true]
  rcases sfsBlockAlloc_run h.shape h.count with ⟨hcount, hrun⟩ | ⟨b, hfree, ⟨hb, hlt, hrun⟩ | ⟨hbad, hrun⟩⟩
  · rw [hrun, Outcome.andThen_error]
    refine .noMem ?_ (.refl h)
    rw [hcount, Sfs.need]
    split_ifs <;> omega
  · have happ := Appended.direct h hsin hidx hb hlt hfree
    set s₁ := (s.take b).setInode sin fun d => { d with
      direct := Function.update d.direct (s.inode sin).blocks b, dirty := true } with hs₁
    have hused : s₁.InUse b := ⟨hlt, isFree_take hfree⟩
    have hout : (bmapGetOut b).run s₁ = .ok b s₁ :=
      bmapGetOut_run (show b < s₁.freemap.nbits from h.lt_nbits hlt) hb hused
    simp only [hrun, Outcome.andThen_ok, Prog.run_bind, Prog.run_modify, ← hs₁, hout]
    refine .ok ?_
    rw [hs₁, Sfs.setInode_setInode]
    exact happ
  · rw [hrun, Outcome.andThen_panic]
    exact .range ⟨b, hfree, hbad⟩

/-- The entry of a new block in the indirect block, once there is one. -/
theorem getSubCreate_ok {entp ent j : ℕ} (hrun : sfsBlockAlloc.run s = .ok b (s.take b))
    (hent : ent ≠ 0 ∧ ent < s.blocks) (hj : j < 1024) :
    (getSubCreate entp ent (j * 4)).run s = .ok (ent, b) ((s.take b).putEntry ent j b) := by
  have hw : (sfsWbuf (putU32 b) ent (j * 4)).run (s.take b) =
      .ok () ((s.take b).putEntry ent j b) :=
    sfsWbuf_run hent (by rw [length_putU32]; omega)
  simp only [getSubCreate, Prog.run_bind, Prog.attempt, hrun, Outcome.andThen_ok, hw, Prog.run_pure]

theorem getSubCreate_panic {entp ent offset : ℕ} {p : SfsPanic}
    (hrun : sfsBlockAlloc.run s = .panic p) : (getSubCreate entp ent offset).run s = .panic p := by
  simp only [getSubCreate, Prog.run_bind, Prog.attempt, hrun, Outcome.andThen_panic]

/-- With the indirect block in place, a failed allocation changes nothing. -/
theorem getSubCreate_error {entp offset : ℕ} {e : FsError}
    (hrun : sfsBlockAlloc.run s = .error e s) :
    (getSubCreate entp entp offset).run s = .error e s := by
  simp only [getSubCreate, Prog.run_bind, Prog.attempt, hrun, Outcome.andThen_ok, getSubCleanup, ne_eq,
    not_true_eq_false, if_false, Prog.run_throw]

/-- A failed allocation gives the new indirect block back. -/
theorem getSubCreate_cleanup {ent offset : ℕ} {e : FsError} (hbits : ent < s.freemap.nbits)
    (hent : ent ≠ 0) (hused : s.InUse ent) (hrun : sfsBlockAlloc.run s = .error e s) :
    (getSubCreate 0 ent offset).run s = .error e (s.give ent) := by
  simp only [getSubCreate, Prog.run_bind, Prog.attempt, hrun, Outcome.andThen_ok, getSubCleanup, ne_eq,
    hent, not_false_eq_true, if_true, sfsBlockFree_run hbits hent hused, Prog.run_throw]

/-- A new entry in an indirect block that exists. -/
theorem sfsBmapGetNolock_entry (h : s.Consistent) (hsin : sin ∈ s.inos)
    (hge : 12 ≤ (s.inode sin).blocks) (hidx : (s.inode sin).blocks < 1036)
    (hind : (s.inode sin).indirect ≠ 0) :
    Created s sin ((sfsBmapGetNolock sin (s.inode sin).blocks true).run s) := by
  have hent := h.indirect_used hsin hind
  have hj : (s.inode sin).blocks - 12 < 1024 := by omega
  have hzero : s.entry (s.inode sin).indirect ((s.inode sin).blocks - 12) = 0 := by
    have := h.tail sin hsin _ le_rfl
    rwa [Sfs.slot, if_neg (not_lt.mpr hge), if_pos ⟨hidx, hind⟩] at this
  have hsub : (sfsBmapGetSubNolock (s.inode sin).indirect ((s.inode sin).blocks - 12) true).run s =
      (getSubCreate (s.inode sin).indirect (s.inode sin).indirect
        (((s.inode sin).blocks - 12) * 4)).run s := by
    simp only [sfsBmapGetSubNolock, Prog.run_bind, Prog.run_assert_of _ _ hj, Outcome.andThen_ok,
      if_pos hind, ne_eq, sfsRbuf_run ⟨hind, hent.1⟩
        (show ((s.inode sin).blocks - 12) * 4 < 4096 ∧ ((s.inode sin).blocks - 12) * 4 + 4 ≤ 4096 by
          omega), Sfs.read_entry, hzero, not_true_eq_false, Bool.true_eq_false, or_self, if_false]
  simp only [sfsBmapGetNolock, Prog.run_bind, Prog.run_get, Outcome.andThen_ok,
    if_neg (not_lt.mpr hge), if_pos hj, hsub]
  rcases sfsBlockAlloc_run h.shape h.count with ⟨hcount, hrun⟩ | ⟨b, hfree, ⟨hb, hlt, hrun⟩ | ⟨hbad, hrun⟩⟩
  · rw [getSubCreate_error hrun, Outcome.andThen_error]
    refine .noMem ?_ (.refl h)
    rw [hcount, Sfs.need]
    split_ifs <;> omega
  · have happ := Appended.entry h hsin hge hidx hind hb hlt hfree
    set s₁ := (s.take b).putEntry (s.inode sin).indirect ((s.inode sin).blocks - 12) b with hs₁
    have hout : (bmapGetOut b).run s₁ = .ok b s₁ :=
      bmapGetOut_run (show b < s₁.freemap.nbits from h.lt_nbits hlt) hb
        (show s₁.InUse b from ⟨hlt, isFree_take hfree⟩)
    simp only [getSubCreate_ok hrun ⟨hind, hent.1⟩ hj, Outcome.andThen_ok, ne_eq, not_true_eq_false,
      if_false, ← hs₁, hout]
    exact .ok happ
  · rw [getSubCreate_panic hrun, Outcome.andThen_panic]
    exact .range ⟨b, hfree, hbad⟩

/-- The first block behind the direct blocks: an indirect block is got first, and given back if
there is no second free block. -/
theorem sfsBmapGetNolock_attach (h : s.Consistent) (hsin : sin ∈ s.inos)
    (hge : 12 ≤ (s.inode sin).blocks) (hidx : (s.inode sin).blocks < 1036)
    (hind : (s.inode sin).indirect = 0) :
    Created s sin ((sfsBmapGetNolock sin (s.inode sin).blocks true).run s) := by
  have hj : (s.inode sin).blocks - 12 < 1024 := by omega
  have hneed : s.need sin = 2 := by
    rw [Sfs.need, if_neg (by simp [hind, hge])]
  simp only [sfsBmapGetNolock, Prog.run_bind, Prog.run_get, Outcome.andThen_ok,
    if_neg (not_lt.mpr hge), if_pos hj, sfsBmapGetSubNolock, Prog.run_assert_of _ _ hj, hind, ne_eq,
    not_true_eq_false, Bool.true_eq_false, if_false]
  rcases sfsBlockAlloc_run h.shape h.count with
    ⟨hcount, hrun⟩ | ⟨e, hefree, ⟨he, helt, hrun⟩ | ⟨hbad, hrun⟩⟩
  · rw [hrun, Outcome.andThen_error, Outcome.andThen_error]
    exact .noMem (by omega) (.refl h)
  · rw [hrun, Outcome.andThen_ok]
    have hused : (s.take e).InUse e := ⟨helt, isFree_take hefree⟩
    have hcount' : (s.take e).unusedBlocks = (s.take e).freemap.count := by
      have := Bitmap.count_take hefree
      have := h.count
      show s.unusedBlocks - 1 = (s.freemap.flip e).count
      omega
    rcases sfsBlockAlloc_run (s := s.take e) h.shape hcount' with
      ⟨hcount, hrun'⟩ | ⟨b, hfree, ⟨hb, hlt, hrun'⟩ | ⟨hbad, hrun'⟩⟩
    · rw [getSubCreate_cleanup (show e < (s.take e).freemap.nbits from h.lt_nbits helt) he hused hrun',
        Outcome.andThen_error]
      refine .noMem ?_ (.take_give h hefree)
      have : (s.freemap.flip e).count = 0 := hcount
      have := Bitmap.count_take hefree
      omega
    · -- the same state, with the indirect block entered in the inode first
      obtain ⟨hcons, -⟩ := Sfs.attach_consistent h hsin hind he helt hefree
      have hattach : (s.attach sin e).inode sin = { s.inode sin with indirect := e, dirty := true } := by
        rw [Sfs.attach, Sfs.setInode_same]
        rfl
      have happ := Appended.entry (s := s.attach sin e) hcons hsin (by rw [hattach]; exact hge)
        (by rw [hattach]; exact hidx) (by rw [hattach]; exact he) hb hlt hfree
      rw [hattach] at happ
      set s₁ := (((s.take e).take b).putEntry e ((s.inode sin).blocks - 12) b).setInode sin
        fun d => { d with indirect := e, dirty := true } with hs₁
      have hfree' : ((s.take e).take b).freemap.isFree b = false := isFree_take hfree
      have hout : (bmapGetOut b).run s₁ = .ok b s₁ :=
        bmapGetOut_run (show b < s₁.freemap.nbits from h.lt_nbits hlt) hb
          (show s₁.InUse b from ⟨hlt, hfree'⟩)
      simp only [getSubCreate_ok hrun' ⟨he, helt⟩ hj, Outcome.andThen_ok, he, not_false_eq_true, if_true,
        Prog.run_bind, Prog.run_assert, Prog.run_modify, ← hs₁, hout]
      exact .ok (Appended.attach h hsin hge hind he helt hefree happ)
    · rw [getSubCreate_panic hrun', Outcome.andThen_panic]
      refine .range ⟨b, ?_, hbad⟩
      have hbe : b ≠ e := by
        rintro rfl
        exact hbad ⟨he, helt⟩
      have : (s.freemap.flip e).isFree b = true := hfree
      rwa [Bitmap.isFree_flip (Bitmap.isFree_lt hefree), Function.update_of_ne hbe] at this
  · rw [hrun, Outcome.andThen_panic, Outcome.andThen_panic]
    exact .range ⟨e, hefree, hbad⟩

/-- Getting a new block at the end of a file. -/
theorem sfsBmapGetNolock_create (h : s.Consistent) (hsin : sin ∈ s.inos)
    (hidx : (s.inode sin).blocks < 1036) :
    Created s sin ((sfsBmapGetNolock sin (s.inode sin).blocks true).run s) := by
  by_cases hdir : (s.inode sin).blocks < 12
  · exact sfsBmapGetNolock_direct h hsin hdir
  · by_cases hind : (s.inode sin).indirect = 0
    · exact sfsBmapGetNolock_attach h hsin (not_lt.mp hdir) hidx hind
    · exact sfsBmapGetNolock_entry h hsin (not_lt.mp hdir) hidx hind

/-- What a load that returns has done: the block was there, or it has been appended. -/
def LoadOk (s : Sfs) (sin index b : ℕ) (s' : Sfs) : Prop :=
  index < (s.inode sin).blocks ∧ b = s.slot sin index ∧ b ≠ 0 ∧ s' = s ∨
  index = (s.inode sin).blocks ∧ index < 1036 ∧ Appended s s' sin b

/-- What a load that fails has done: there were too few free blocks. -/
def LoadError (s : Sfs) (sin index : ℕ) (e : FsError) (s' : Sfs) : Prop :=
  e = .noMem ∧ index = (s.inode sin).blocks ∧ index < 1036 ∧ s.freemap.count < s.need sin ∧
    Untouched s s'

/-- Where a load can stop: the index is past the end of the file, or past the indirect block, or
the image is damaged. -/
def LoadPanic (s : Sfs) (sin index : ℕ) (p : SfsPanic) : Prop :=
  p = .loadIndex ∧ (s.inode sin).blocks < index ∨
  p = .getRange ∧ index ≤ (s.inode sin).blocks ∧ 1036 ≤ index ∨
  p = .inuseRange ∧ (index < (s.inode sin).blocks ∧ s.slot sin index = 0 ∨ s.BadFree)

/-- A block that is there is found, and nothing changes. -/
theorem sfsBmapLoadNolock_found (h : s.Consistent) (hsin : sin ∈ s.inos) {index : ℕ}
    (hlt : index < (s.inode sin).blocks) (hslot : s.slot sin index ≠ 0) :
    (sfsBmapLoadNolock sin index).run s = .ok (s.slot sin index) s := by
  have hdec : decide (index = (s.inode sin).blocks) = false := by simp; omega
  have hused := h.slot_used hsin hslot
  simp only [sfsBmapLoadNolock, Prog.run_bind, Prog.run_get, Outcome.andThen_ok,
    Prog.run_assert_of _ _ hlt.le, hdec, sfsBmapGetNolock_found h hsin hslot,
    sfsBlockInuse_run (h.lt_nbits hused.1) ⟨hslot, hused.1⟩, hused.2, Bool.not_false,
    Prog.run_assert, if_true, if_neg hlt.ne, Prog.run_pure]

/-- Past the indirect block there is nothing. -/
theorem sfsBmapLoadNolock_range {index : ℕ} (hle : index ≤ (s.inode sin).blocks) (hidx : 1036 ≤ index) :
    (sfsBmapLoadNolock sin index).run s = .panic .getRange := by
  simp only [sfsBmapLoadNolock, Prog.run_bind, Prog.run_get, Outcome.andThen_ok,
    Prog.run_assert_of _ _ hle, sfsBmapGetNolock_range hidx, Outcome.andThen_panic]

/-- **The block map.** All that `sfs_bmap_load_nolock` can do in a consistent image. -/
theorem sfsBmapLoadNolock_post (h : s.Consistent) (hsin : sin ∈ s.inos) (index : ℕ) :
    ((sfsBmapLoadNolock sin index).run s).Post (LoadOk s sin index) (LoadError s sin index)
      (LoadPanic s sin index) := by
  by_cases hle : index ≤ (s.inode sin).blocks
  swap
  · simp only [sfsBmapLoadNolock, Prog.run_bind, Prog.run_get, Outcome.andThen_ok,
      Prog.run_assert_of_not _ _ hle, Outcome.andThen_panic]
    exact Or.inl ⟨rfl, by omega⟩
  by_cases hrange : 1036 ≤ index
  · rw [sfsBmapLoadNolock_range hle hrange]
    exact Or.inr (Or.inl ⟨rfl, hle, hrange⟩)
  rcases hle.lt_or_eq with hlt | rfl
  · have hdec : decide (index = (s.inode sin).blocks) = false := by simp; omega
    by_cases hzero : s.slot sin index = 0
    · have hget := sfsBmapGetNolock_hole h hsin (not_le.mp hrange) hzero
      simp only [sfsBmapLoadNolock, Prog.run_bind, Prog.run_get, Outcome.andThen_ok,
        Prog.run_assert_of _ _ hle, hdec, hget, sfsBlockInuse_range (s := s) (b := 0) (by simp),
        Outcome.andThen_panic]
      exact Or.inr (Or.inr ⟨rfl, Or.inl ⟨hlt, hzero⟩⟩)
    · rw [sfsBmapLoadNolock_found h hsin hlt hzero]
      exact Or.inl ⟨hlt, rfl, hzero, rfl⟩
  · simp only [sfsBmapLoadNolock, Prog.run_bind, Prog.run_get, Outcome.andThen_ok,
      Prog.run_assert_of _ _ hle, decide_true, if_true]
    have hcreate := sfsBmapGetNolock_create h hsin (not_le.mp hrange)
    generalize hget : (sfsBmapGetNolock sin (s.inode sin).blocks true).run s = out at hcreate
    cases hcreate with
    | @ok b s' happ =>
      have hslot := happ.slot sin hsin (s.inode sin).blocks
      rw [if_pos ⟨rfl, rfl⟩] at hslot
      have hused := happ.consistent.slot_used (i := (s.inode sin).blocks)
        (show sin ∈ _ by rw [happ.inos]; exact hsin) (by rw [hslot]; exact happ.ne)
      rw [hslot] at hused
      have hinuse : (sfsBlockInuse b).run s' = .ok true s' := by
        have hbits : b < s'.freemap.nbits := happ.consistent.lt_nbits hused.1
        have : s'.freemap.isFree b = false := hused.2
        rw [sfsBlockInuse_run hbits ⟨happ.ne, hused.1⟩]
        rw [this]
        rfl
      simp only [Outcome.andThen_ok, hinuse, Prog.run_assert, if_true, Prog.run_modify, Prog.run_bind,
        Prog.run_pure]
      exact Or.inr ⟨rfl, not_le.mp hrange, happ⟩
    | noMem hcount huntouched =>
      exact ⟨rfl, rfl, not_le.mp hrange, hcount, huntouched⟩
    | range hbad => exact Or.inr (Or.inr ⟨rfl, Or.inr hbad⟩)

end run

/-! ### Dropping the last block -/

section drop

/-- What there is to show when the last block of a file is dropped. -/
theorem Dropped.of_slot (h : s.Consistent) (hsin : sin ∈ s.inos) (hpos : (s.inode sin).blocks ≠ 0)
    (hblocks : s'.blocks = s.blocks) (hinos : s'.inos = s.inos)
    (hfreemap : if s.slot sin ((s.inode sin).blocks - 1) = 0 then
        s'.freemap = s.freemap ∧ s'.unusedBlocks = s.unusedBlocks
      else s'.freemap = s.freemap.flip (s.slot sin ((s.inode sin).blocks - 1)) ∧
        s'.unusedBlocks = s.unusedBlocks + 1)
    (hother : ∀ ino, ino ≠ sin → s'.inode ino = s.inode ino)
    (hsize : (s'.inode sin).size = (s.inode sin).size)
    (htype : (s'.inode sin).type = (s.inode sin).type)
    (hshrunk : (s'.inode sin).blocks = (s.inode sin).blocks - 1)
    (hind : (s'.inode sin).indirect = (s.inode sin).indirect)
    (hslot : ∀ ino ∈ s.inos, ∀ i, s'.slot ino i =
      if ino = sin ∧ i = (s.inode sin).blocks - 1 then 0 else s.slot ino i)
    (hdisk : ∀ ino ∈ s.inos, ∀ i, s.slot ino i ≠ 0 →
      s'.disk (s.slot ino i) = s.disk (s.slot ino i)) : Dropped s s' sin := by
  set idx := (s.inode sin).blocks - 1 with hidx
  have hind' : ∀ ino, (s'.inode ino).indirect = (s.inode ino).indirect := by
    intro ino
    by_cases hino : ino = sin
    · rw [hino, hind]
    · rw [hother ino hino]
  have hblk : s'.blk = Function.update s.blk (.data sin idx) 0 :=
    Sfs.blk_eq_update hsin hinos hind' hslot
  have hold : s.blk (.data sin idx) = s.slot sin idx := by
    simp only [Sfs.blk, if_pos hsin]
  have htail : ∀ ino ∈ s'.inos, ∀ i, (s'.inode ino).blocks ≤ i → s'.slot ino i = 0 := by
    intro ino hino i hi
    rw [hinos] at hino
    rw [hslot ino hino]
    split_ifs with hat
    · rfl
    · by_cases hino' : ino = sin
      · subst hino'
        rw [hshrunk] at hi
        have hne : i ≠ idx := fun heq => hat ⟨rfl, heq⟩
        exact h.tail ino hino i (by omega)
      · rw [hother ino hino'] at hi
        exact h.tail ino hino i hi
  by_cases hzero : s.slot sin idx = 0
  · rw [if_pos hzero] at hfreemap
    obtain ⟨hmap, hunused⟩ := hfreemap
    have hblk' : s'.blk = s.blk := by
      rw [hblk, ← hzero, ← hold, Function.update_eq_self]
    refine ⟨hblocks, hinos, hother, hsize, htype, hshrunk, hind, fun c hc => Or.inl (hmap ▸ hc), ?_, hslot,
      hdisk, ⟨?_, ?_, fun o ho => ?_, ?_, htail⟩, ?_⟩
    · rw [hmap, if_pos hzero, Nat.add_zero]
    · rw [hmap, hblocks, h.shape]
    · rw [hunused, hmap, h.count]
    · rw [hblk'] at ho ⊢
      rw [Sfs.InUse, hblocks, hmap]
      exact h.used o ho
    · rw [hblk']
      exact h.inj
    · rw [Sfs.Lost, hmap, hblk']
      rfl
  · rw [if_neg hzero] at hfreemap
    obtain ⟨hmap, hunused⟩ := hfreemap
    have hused := h.slot_used hsin hzero
    obtain ⟨hcons, hlost⟩ := h.give_owner (o := .data sin idx) (by rwa [hold]) hblocks
      (by rw [hold]; exact hmap) hunused hblk htail
    refine ⟨hblocks, hinos, hother, hsize, htype, hshrunk, hind, fun c hc => ?_, ?_, hslot, hdisk, hcons,
      hlost⟩
    · rw [hmap, Bitmap.isFree_flip (h.lt_length hused.1)] at hc
      by_cases hcb : c = s.slot sin idx
      · exact Or.inr (hcb ▸ ⟨hzero, hused.1⟩)
      · rw [Function.update_of_ne hcb] at hc
        exact Or.inl hc
    · rw [hmap, if_neg hzero]
      exact Bitmap.count_give hused.2 (h.lt_length hused.1)

/-- Dropping an index that has no block. -/
theorem Dropped.hole (h : s.Consistent) (hsin : sin ∈ s.inos) (hpos : (s.inode sin).blocks ≠ 0)
    (hzero : s.slot sin ((s.inode sin).blocks - 1) = 0) :
    Dropped s (s.setInode sin fun d => { d with blocks := d.blocks - 1, dirty := true }) sin := by
  set s' := s.setInode sin fun d => { d with blocks := d.blocks - 1, dirty := true } with hs'
  have hsame : s'.inode sin =
      { s.inode sin with blocks := (s.inode sin).blocks - 1, dirty := true } :=
    Sfs.setInode_same _ _ _
  have hother : ∀ ino, ino ≠ sin → s'.inode ino = s.inode ino := fun ino hne =>
    Sfs.setInode_of_ne _ _ _ hne
  refine .of_slot h hsin hpos rfl rfl ?_ hother (by rw [hsame]) (by rw [hsame]) (by rw [hsame])
    (by rw [hsame]) (fun ino hino i => ?_) fun _ _ _ _ => rfl
  · rw [if_pos hzero]
    exact ⟨rfl, rfl⟩
  · have hkeep : s'.slot ino i = s.slot ino i := by
      by_cases hino' : ino = sin
      · subst hino'
        exact Sfs.slot_congr (fun _ => by rw [hsame]) (by rw [hsame]) fun _ => rfl
      · exact Sfs.slot_congr (fun _ => by rw [hother ino hino']) (by rw [hother ino hino'])
          fun _ => rfl
    rw [hkeep]
    split_ifs with hat
    · obtain ⟨rfl, rfl⟩ := hat
      exact hzero
    · rfl

/-- Dropping a direct block. -/
theorem Dropped.direct (h : s.Consistent) (hsin : sin ∈ s.inos) (hpos : (s.inode sin).blocks ≠ 0)
    (hidx : (s.inode sin).blocks - 1 < 12)
    (hne : s.slot sin ((s.inode sin).blocks - 1) ≠ 0) :
    Dropped s ((s.give (s.slot sin ((s.inode sin).blocks - 1))).setInode sin fun d =>
      { d with
        direct := Function.update d.direct ((s.inode sin).blocks - 1) 0
        dirty := true
        blocks := d.blocks - 1 }) sin := by
  set idx := (s.inode sin).blocks - 1 with hidx'
  set s' := (s.give (s.slot sin idx)).setInode sin fun d =>
    { d with direct := Function.update d.direct idx 0, dirty := true, blocks := d.blocks - 1 } with hs'
  have hsame : s'.inode sin = { s.inode sin with
      direct := Function.update (s.inode sin).direct idx 0, dirty := true, blocks := idx } := by
    rw [hs', Sfs.setInode_same]
    rfl
  have hother : ∀ ino, ino ≠ sin → s'.inode ino = s.inode ino := fun ino hne =>
    Sfs.setInode_of_ne _ _ _ hne
  refine .of_slot h hsin hpos rfl rfl ?_ hother (by rw [hsame]) (by rw [hsame]) (by rw [hsame])
    (by rw [hsame]) (fun ino hino i => ?_) fun _ _ _ _ => rfl
  · rw [if_neg hne]
    exact ⟨rfl, rfl⟩
  · split_ifs with hat
    · obtain ⟨rfl, rfl⟩ := hat
      rw [Sfs.slot, if_pos hidx, hsame]
      exact Function.update_self _ _ _
    · by_cases hino' : ino = sin
      · subst hino'
        refine Sfs.slot_congr (fun _ => ?_) (by rw [hsame]) fun _ => rfl
        rw [hsame]
        exact Function.update_of_ne (fun heq => hat ⟨rfl, heq⟩) _ _
      · exact Sfs.slot_congr (fun _ => by rw [hother ino hino']) (by rw [hother ino hino'])
          fun _ => rfl

/-- Dropping a block that is entered in the indirect block. -/
theorem Dropped.entry (h : s.Consistent) (hsin : sin ∈ s.inos) (hpos : (s.inode sin).blocks ≠ 0)
    (hge : 12 ≤ (s.inode sin).blocks - 1) (hlt : (s.inode sin).blocks - 1 < 1036)
    (hind0 : (s.inode sin).indirect ≠ 0)
    (hne : s.slot sin ((s.inode sin).blocks - 1) ≠ 0) :
    Dropped s (((s.putEntry (s.inode sin).indirect ((s.inode sin).blocks - 1 - 12) 0).give
      (s.slot sin ((s.inode sin).blocks - 1))).setInode sin fun d =>
        { d with blocks := d.blocks - 1, dirty := true }) sin := by
  set idx := (s.inode sin).blocks - 1 with hidx'
  set ent := (s.inode sin).indirect with hent
  set s₁ := (s.putEntry ent (idx - 12) 0).give (s.slot sin idx) with hs₁
  set s' := s₁.setInode sin fun d => { d with blocks := d.blocks - 1, dirty := true } with hs'
  have hsame : s'.inode sin = { s.inode sin with blocks := idx, dirty := true } := by
    rw [hs', Sfs.setInode_same]
    rfl
  have hother : ∀ ino, ino ≠ sin → s'.inode ino = s.inode ino := fun ino hne =>
    Sfs.setInode_of_ne _ _ _ hne
  have hdisk : ∀ c, c ≠ ent → s'.disk c = s.disk c := fun c hc => Sfs.putEntry_disk_of_ne hc
  have hentry : ∀ j, s'.entry ent j = if j = idx - 12 then 0 else s.entry ent j := fun j =>
    Sfs.entry_putEntry s ent (by decide) (idx - 12) j
  refine .of_slot h hsin hpos rfl rfl ?_ hother (by rw [hsame]) (by rw [hsame]) (by rw [hsame])
    (by rw [hsame]) (fun ino hino i => ?_)
    fun ino hino i hne => hdisk _ (h.slot_ne_indirect hino hsin hne)
  · rw [if_neg hne]
    exact ⟨rfl, rfl⟩
  · by_cases hino' : ino = sin
    · subst hino'
      rw [Sfs.slot, Sfs.slot, hsame]
      simp only [← hent, hentry, true_and, ← hidx']
      by_cases hi : i = idx
      · subst hi
        rw [if_neg (by omega), if_pos ⟨hlt, hind0⟩, if_pos rfl, if_pos rfl]
      · rw [if_neg hi]
        by_cases h₁ : i < 12
        · rw [if_pos h₁, if_pos h₁]
        · have hj : i - 12 ≠ idx - 12 := by omega
          rw [if_neg h₁, if_neg h₁, if_neg hj]
    · rw [if_neg fun hat => hino' hat.1]
      exact Sfs.slot_congr (fun _ => by rw [hother ino hino']) (by rw [hother ino hino']) fun hne =>
        hdisk _ fun heq => hino' (h.indirect_inj hino hsin hne heq)

/-- The block of an index is given back and its slot cleared. -/
theorem sfsBmapFreeNolock_run (h : s.Consistent) (hsin : sin ∈ s.inos) (index : ℕ) :
    (sfsBmapFreeNolock sin index).run s = .ok ()
      (if s.slot sin index = 0 then s
      else if index < 12 then (s.give (s.slot sin index)).setInode sin fun d =>
        { d with direct := Function.update d.direct index 0, dirty := true }
      else (s.putEntry (s.inode sin).indirect (index - 12) 0).give (s.slot sin index)) := by
  simp only [sfsBmapFreeNolock, Prog.run_bind, Prog.run_get, Outcome.andThen_ok]
  by_cases hdir : index < 12
  · have hslot : s.slot sin index = (s.inode sin).direct index := by rw [Sfs.slot, if_pos hdir]
    rw [hslot]
    by_cases hzero : (s.inode sin).direct index = 0
    · simp only [if_pos hdir, hzero, ne_eq, not_true_eq_false, if_false, if_true, Prog.run_pure]
    · have hused := h.slot_used hsin (i := index) (by rwa [hslot])
      rw [hslot] at hused
      simp only [if_pos hdir, hzero, ne_eq, not_false_eq_true, if_false, if_true, Prog.run_bind,
        sfsBlockFree_run (h.lt_nbits hused.1) hzero hused, Outcome.andThen_ok, Prog.run_modify]
  · rw [if_neg hdir, if_neg hdir]
    by_cases hcond : index < 1036 ∧ (s.inode sin).indirect ≠ 0
    · have hslot : s.slot sin index = s.entry (s.inode sin).indirect (index - 12) := by
        rw [Sfs.slot, if_neg hdir, if_pos hcond]
      have hj : index - 12 < 1024 := by omega
      have hent := h.indirect_used hsin hcond.2
      have hoff : (index - 12) * 4 < 4096 ∧ (index - 12) * 4 + 4 ≤ 4096 := by omega
      have hinuse : (sfsBlockInuse (s.inode sin).indirect).run s = .ok true s := by
        rw [sfsBlockInuse_run (h.lt_nbits hent.1) ⟨hcond.2, hent.1⟩, hent.2]
        rfl
      simp only [if_pos hcond.2, sfsBmapFreeSubNolock, Prog.run_bind, hinuse,
        Outcome.andThen_ok, Prog.run_assert, hj, and_self, if_true, sfsRbuf_run ⟨hcond.2, hent.1⟩ hoff, Sfs.read_entry, hslot]
      by_cases hzero : s.entry (s.inode sin).indirect (index - 12) = 0
      · simp only [hzero, ne_eq, not_true_eq_false, if_false, if_true, Prog.run_pure]
      · have hused := h.slot_used hsin (i := index) (by rwa [hslot])
        rw [hslot] at hused
        have hw : (sfsWbuf (putU32 0) (s.inode sin).indirect ((index - 12) * 4)).run s =
            .ok () (s.putEntry (s.inode sin).indirect (index - 12) 0) :=
          sfsWbuf_run ⟨hcond.2, hent.1⟩ (by rw [length_putU32]; exact hoff)
        have hfree := sfsBlockFree_run (s := s.putEntry (s.inode sin).indirect (index - 12) 0)
          (h.lt_nbits hused.1) hzero hused
        simp only [hzero, ne_eq, not_false_eq_true, if_false, if_true, Prog.run_bind, hw,
          Outcome.andThen_ok, hfree]
    · have hslot : s.slot sin index = 0 := by rw [Sfs.slot, if_neg hdir, if_neg hcond]
      rw [if_pos hslot]
      by_cases hj : index - 12 < 1024
      · have hind : (s.inode sin).indirect = 0 := by
          by_contra hne
          exact hcond ⟨by omega, hne⟩
        simp only [if_pos hj, hind, ne_eq, not_true_eq_false, if_false, Prog.run_pure]
      · simp only [if_neg hj, Prog.run_pure]

/-- **Truncation by one block.** The last block of the file is dropped. -/
theorem sfsBmapTruncateNolock_run (h : s.Consistent) (hsin : sin ∈ s.inos)
    (hpos : (s.inode sin).blocks ≠ 0) :
    ∃ s', (sfsBmapTruncateNolock sin).run s = .ok () s' ∧ Dropped s s' sin := by
  have hfree := sfsBmapFreeNolock_run h hsin ((s.inode sin).blocks - 1)
  have hrun : ∀ s₁, (sfsBmapFreeNolock sin ((s.inode sin).blocks - 1)).run s = .ok () s₁ →
      (sfsBmapTruncateNolock sin).run s = .ok ()
        (s₁.setInode sin fun d => { d with blocks := d.blocks - 1, dirty := true }) := by
    intro s₁ hs₁
    simp only [sfsBmapTruncateNolock, Prog.run_bind, Prog.run_get, Outcome.andThen_ok,
      Prog.run_assert_of _ _ hpos, hs₁, Prog.run_modify]
  refine ⟨_, hrun _ hfree, ?_⟩
  by_cases hzero : s.slot sin ((s.inode sin).blocks - 1) = 0
  · rw [if_pos hzero]
    exact .hole h hsin hpos hzero
  · rw [if_neg hzero]
    by_cases hdir : (s.inode sin).blocks - 1 < 12
    · rw [if_pos hdir, Sfs.setInode_setInode]
      exact .direct h hsin hpos hdir hzero
    · rw [if_neg hdir]
      have hcond : (s.inode sin).blocks - 1 < 1036 ∧ (s.inode sin).indirect ≠ 0 := by
        by_contra hno
        exact hzero (by rw [Sfs.slot, if_neg hdir, if_neg hno])
      exact .entry h hsin hpos (by omega) hcond.1 hcond.2 hzero

end drop

end Ucore.Fs
