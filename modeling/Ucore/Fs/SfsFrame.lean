import Ucore.Fs.FileRuns

/-!
# What file operations leave alone

The lemmas about files say which blocks and bytes of files an operation changes. Here is what they say
nothing about: the blocks that belong to no file, and the flags that tell what has been changed.

* `Spares K s t`: the blocks in `K` have their content and are still in use, and a change of the free map or of
  the count of free blocks has been marked in `super_dirty`.
* `Grows d d'`: what adding blocks does to an inode. A new direct block and a new indirect block set the dirty
  flag; a new entry of an indirect block that is there does not.
* `Framed s t sin` puts the two together for an operation on the file `sin`, with the blocks that are an inode
  or belong to nobody; `SfsOp.code_framed` proves it of every operation.
-/

namespace Ucore.Fs

open Ucore.Lib

/-! ### Blocks that are spared -/

/-- The blocks in `K` are as they were, and a change of the free map has been marked. -/
structure Spares (K : ℕ → Prop) (s t : Sfs) : Prop where
  disk : ∀ c, K c → t.disk c = s.disk c
  /-- The superblock is not written. -/
  zero : t.disk 0 = s.disk 0
  used : ∀ c, K c → t.freemap.isFree c = false
  super : t.superDirty = true ∨
    (t.superDirty = s.superDirty ∧ t.freemap = s.freemap ∧ t.unusedBlocks = s.unusedBlocks)

section spares

variable {K : ℕ → Prop} {s t u : Sfs} {b sin : ℕ}

theorem Spares.refl (hK : ∀ c, K c → s.freemap.isFree c = false) : Spares K s s :=
  ⟨fun _ _ => rfl, rfl, hK, Or.inr ⟨rfl, rfl, rfl⟩⟩

theorem Spares.trans (h : Spares K s t) (h' : Spares K t u) : Spares K s u := by
  refine ⟨fun c hc => (h'.disk c hc).trans (h.disk c hc), h'.zero.trans h.zero, h'.used, ?_⟩
  rcases h'.super with hdirty | ⟨hdirty, hmap, hunused⟩
  · exact Or.inl hdirty
  · rcases h.super with hdirty₁ | ⟨hdirty₁, hmap₁, hunused₁⟩
    · exact Or.inl (hdirty.trans hdirty₁)
    · exact Or.inr ⟨hdirty.trans hdirty₁, hmap.trans hmap₁, hunused.trans hunused₁⟩

theorem Spares.take (hK : ∀ c, K c → s.freemap.isFree c = false) (hb : b ≠ 0)
    (hfree : s.freemap.isFree b = true) : Spares K s (s.take b) := by
  have hne : ∀ c, K c → c ≠ b := by
    rintro c hc rfl
    rw [hK c hc] at hfree
    cases hfree
  refine ⟨fun c hc => Sfs.take_disk_of_ne (hne c hc), Sfs.take_disk_of_ne hb.symm, fun c hc => ?_, Or.inl rfl⟩
  show (s.freemap.flip b).isFree c = false
  rw [Bitmap.isFree_flip (Bitmap.isFree_lt hfree), Function.update_of_ne (hne c hc)]
  exact hK c hc

theorem Spares.give (hK : ∀ c, K c → s.freemap.isFree c = false) (hb : ¬ K b)
    (hlt : b < 32 * s.freemap.map.length) : Spares K s (s.give b) := by
  refine ⟨fun _ _ => rfl, rfl, fun c hc => ?_, Or.inl rfl⟩
  have hne : c ≠ b := by
    rintro rfl
    exact hb hc
  show (s.freemap.flip b).isFree c = false
  rw [Bitmap.isFree_flip hlt, Function.update_of_ne hne]
  exact hK c hc

theorem Spares.writeBlock (hK : ∀ c, K c → s.freemap.isFree c = false) (hb0 : b ≠ 0) (hb : ¬ K b)
    (blk : Block) : Spares K s (s.writeBlock b blk) := by
  refine ⟨fun c hc => Function.update_of_ne ?_ _ _, Function.update_of_ne hb0.symm _ _, hK,
    Or.inr ⟨rfl, rfl, rfl⟩⟩
  rintro rfl
  exact hb hc

theorem Spares.setInode (hK : ∀ c, K c → s.freemap.isFree c = false) (f : SfsInode → SfsInode) :
    Spares K s (s.setInode sin f) := ⟨fun _ _ => rfl, rfl, hK, Or.inr ⟨rfl, rfl, rfl⟩⟩

/-! ### Functions on blocks -/

theorem sfsBlockInuse_post {E : FsError → Sfs → Prop} :
    ((sfsBlockInuse b).run s).Post (fun _ t => t = s ∧ b ≠ 0 ∧ b < s.blocks) E (fun _ => True) := by
  by_cases hb : b ≠ 0 ∧ b < s.blocks
  · by_cases hbits : b < s.freemap.nbits
    · rw [sfsBlockInuse_run hbits hb]
      exact ⟨rfl, hb⟩
    · simp only [sfsBlockInuse, Prog.run_bind, Prog.run_get, Outcome.andThen_ok, if_pos hb, onFreemap, Prog.zoom,
        bitmapTest, Prog.run_assert_of_not _ _ hbits, Outcome.andThen_panic]
      trivial
  · rw [sfsBlockInuse_range hb]
    trivial

theorem sfsWblock_post {E : FsError → Sfs → Prop} (blk : Block) :
    ((sfsWblock blk b).run s).Post (fun _ t => b ≠ 0 ∧ t = s.writeBlock b blk) E (fun _ => True) := by
  by_cases hb : b ≠ 0 ∧ b < s.blocks
  · rw [sfsWblock_run hb]
    exact ⟨hb.1, rfl⟩
  · simp only [sfsWblock, Prog.run_bind, Prog.run_get, Outcome.andThen_ok, Prog.run_assert_of_not _ _ hb,
      Outcome.andThen_panic]
    trivial

theorem sfsRbuf_post {E : FsError → Sfs → Prop} (len offset : ℕ) :
    ((sfsRbuf len b offset).run s).Post (fun _ t => t = s) E (fun _ => True) := by
  by_cases hoff : offset < 4096 ∧ offset + len ≤ 4096
  · by_cases hb : b ≠ 0 ∧ b < s.blocks
    · rw [sfsRbuf_run hb hoff]
      rfl
    · simp only [sfsRbuf, sfsRblock, Prog.run_bind, Prog.run_assert_of _ _ hoff, Prog.run_get,
        Outcome.andThen_ok, Prog.run_assert_of_not _ _ hb, Outcome.andThen_panic]
      trivial
  · simp only [sfsRbuf, Prog.run_bind, Prog.run_assert_of_not _ _ hoff, Outcome.andThen_panic]
    trivial

theorem sfsWbuf_post {E : FsError → Sfs → Prop} (data : List UInt8) (offset : ℕ) :
    ((sfsWbuf data b offset).run s).Post (fun _ t => b ≠ 0 ∧ ∃ blk, t = s.writeBlock b blk) E
      (fun _ => True) := by
  by_cases hoff : offset < 4096 ∧ offset + data.length ≤ 4096
  · by_cases hb : b ≠ 0 ∧ b < s.blocks
    · rw [sfsWbuf_run hb hoff]
      exact ⟨hb.1, _, rfl⟩
    · simp only [sfsWbuf, sfsRblock, Prog.run_bind, Prog.run_assert_of _ _ hoff, Prog.run_get,
        Outcome.andThen_ok, Prog.run_assert_of_not _ _ hb, Outcome.andThen_panic]
      trivial
  · simp only [sfsWbuf, Prog.run_bind, Prog.run_assert_of_not _ _ hoff, Outcome.andThen_panic]
    trivial

/-- What the functions on blocks do: they spare `K` and leave the inodes alone. -/
def SparesBlocks (K : ℕ → Prop) (s t : Sfs) : Prop := Spares K s t ∧ t.inode = s.inode

theorem SparesBlocks.trans (h : SparesBlocks K s t) (h' : SparesBlocks K t u) : SparesBlocks K s u :=
  ⟨h.1.trans h'.1, h'.2.trans h.2⟩

theorem sfsBlockAlloc_spares (hK : ∀ c, K c → s.freemap.isFree c = false) :
    (sfsBlockAlloc.run s).Post (fun b t => SparesBlocks K s t ∧ ¬ K b ∧ b ≠ 0 ∧ b < 32 * t.freemap.map.length)
      (fun _ t => t = s) (fun _ => True) := by
  rcases bitmapAlloc_run s.freemap with ⟨-, hrun⟩ | ⟨b, hfree, -, hrun⟩
  · simp only [sfsBlockAlloc, Prog.run_bind, onFreemap_error hrun, Outcome.andThen_error]
    rfl
  · simp only [sfsBlockAlloc, Prog.run_bind, onFreemap_ok hrun, Outcome.andThen_ok, Prog.run_get]
    by_cases hunused : 0 < s.unusedBlocks
    · rw [Prog.run_assert_of _ _ hunused]
      simp only [Outcome.andThen_ok]
      refine (sfsBlockInuse_post (E := fun _ t => t = s)).bind (m := sfsBlockInuse b) ?_
      rintro inuse _ ⟨rfl, hb, hlt⟩
      rw [Prog.run_bind, Prog.run_assert]
      split_ifs
      · simp only [Outcome.andThen_ok, Prog.run_bind, sfsClearBlock]
        rw [sfsWblock_run ⟨hb, hlt⟩]
        have hnotK : ¬ K b := by
          intro hc
          rw [hK b hc] at hfree
          cases hfree
        exact ⟨⟨Spares.take hK hb hfree, rfl⟩, hnotK, hb, by
          show b < 32 * (s.freemap.flip b).map.length
          rw [Bitmap.length_flip]
          exact Bitmap.isFree_lt hfree⟩
      · trivial
    · rw [Prog.run_assert_of_not _ _ hunused]
      trivial

theorem sfsBlockFree_spares {E : FsError → Sfs → Prop} (hK : ∀ c, K c → s.freemap.isFree c = false)
    (hb : ¬ K b) : ((sfsBlockFree b).run s).Post (fun _ t => SparesBlocks K s t) E (fun _ => True) := by
  unfold sfsBlockFree
  refine (sfsBlockInuse_post (E := E)).bind ?_
  rintro inuse _ ⟨rfl, hb0, hlt⟩
  rename_i s
  rw [Prog.run_bind, Prog.run_assert]
  split_ifs
  · rw [Outcome.andThen_ok, Prog.run_bind]
    by_cases hbits : b < s.freemap.nbits
    · have hlen : b < 32 * s.freemap.map.length := by
        have := s.freemap.length_eq
        omega
      by_cases hused : s.freemap.isFree b = false
      · rw [onFreemap_ok (bitmapFree_run hbits hused), Outcome.andThen_ok, Prog.run_modify]
        exact ⟨Spares.give hK hb hlen, rfl⟩
      · rw [Bool.not_eq_false] at hused
        have hset : ¬ s.freemap.map.getD (b / 32) 0 &&& bitMask (b % 32) = 0 :=
          (and_bitMask_ne_zero (Nat.mod_lt _ (by decide))).mpr hused
        simp only [onFreemap, Prog.zoom, bitmapFree, Prog.run_bind, Prog.run_get, Outcome.andThen_ok,
          Prog.run_assert_of _ _ hbits, Prog.run_assert_of_not _ _ hset, Outcome.andThen_panic]
        trivial
    · simp only [onFreemap, Prog.zoom, bitmapFree, Prog.run_bind, Prog.run_get, Outcome.andThen_ok,
        Prog.run_assert_of_not _ _ hbits, Outcome.andThen_panic]
      trivial
  · trivial

theorem getSubCleanup_spares {entp ent : ℕ} {Q : ℕ × ℕ → Sfs → Prop} (e : FsError)
    (hK : ∀ c, K c → s.freemap.isFree c = false) (hent : ¬ K ent) :
    ((getSubCleanup entp ent e).run s).Post Q (fun _ t => SparesBlocks K s t) (fun _ => True) := by
  unfold getSubCleanup
  by_cases hne : ent ≠ entp
  · simp only [if_pos hne]
    refine (sfsBlockFree_spares hK hent).bind ?_
    intro _ t ht
    exact ht
  · simp only [if_neg hne]
    exact ⟨Spares.refl hK, rfl⟩

theorem getSubCreate_spares {entp ent offset : ℕ} (hK : ∀ c, K c → s.freemap.isFree c = false)
    (hent : ¬ K ent) :
    ((getSubCreate entp ent offset).run s).Post (fun r t => SparesBlocks K s t ∧ r.1 = ent)
      (fun _ t => SparesBlocks K s t) (fun _ => True) := by
  have halloc := sfsBlockAlloc_spares hK
  simp only [getSubCreate, Prog.run_bind, Prog.attempt]
  cases hrun : sfsBlockAlloc.run s with
  | error e s₁ =>
    rw [hrun] at halloc
    obtain rfl := halloc
    exact getSubCleanup_spares e hK hent
  | panic p => trivial
  | ok b s₁ =>
    rw [hrun] at halloc
    obtain ⟨hspares, -, -, -⟩ := halloc
    have hw := sfsWbuf_post (b := ent) (s := s₁) (E := fun _ _ => False) (putU32 b) offset
    simp only [Outcome.andThen_ok, Prog.run_bind]
    cases hrun' : (sfsWbuf (putU32 b) ent offset).run s₁ with
    | error e s₂ =>
      rw [hrun'] at hw
      exact hw.elim
    | panic p => trivial
    | ok _ s₂ =>
      rw [hrun'] at hw
      obtain ⟨hent0, blk, rfl⟩ := hw
      exact ⟨hspares.trans ⟨Spares.writeBlock hspares.1.used hent0 hent blk, rfl⟩, rfl⟩

/-- The entry block stays the same if there is one; a new one has a number. -/
theorem sfsBmapGetSubNolock_spares {entp index : ℕ} {create : Bool}
    (hK : ∀ c, K c → s.freemap.isFree c = false) (hentp : entp ≠ 0 → ¬ K entp) :
    ((sfsBmapGetSubNolock entp index create).run s).Post
      (fun r t => SparesBlocks K s t ∧ (entp ≠ 0 ∨ create = false → r.1 = entp) ∧
        (entp = 0 → create = true → r.1 ≠ 0))
      (fun _ t => SparesBlocks K s t) (fun _ => True) := by
  have hrefl : SparesBlocks K s s := ⟨Spares.refl hK, rfl⟩
  unfold sfsBmapGetSubNolock
  rw [Prog.run_bind, Prog.run_assert]
  by_cases hidx : index < 1024
  swap
  · rw [if_neg hidx]
    trivial
  rw [if_pos hidx, Outcome.andThen_ok]
  by_cases hzero : entp ≠ 0
  · rw [if_pos hzero]
    refine (sfsRbuf_post (E := fun _ t => SparesBlocks K s t) 4 (index * 4)).bind ?_
    rintro bytes _ rfl
    by_cases hfound : getU32 bytes ≠ 0 ∨ create = false
    · rw [if_pos hfound]
      exact ⟨hrefl, fun _ => rfl, fun h0 => absurd h0 hzero⟩
    · rw [if_neg hfound]
      refine (getSubCreate_spares hK (hentp hzero)).mono ?_ (fun _ _ ht => ht) fun _ _ => trivial
      rintro r t ⟨ht, hr⟩
      exact ⟨ht, fun _ => hr, fun h0 => absurd h0 hzero⟩
  · rw [if_neg hzero]
    rw [not_not] at hzero
    by_cases hcreate : create = false
    · rw [if_pos hcreate]
      refine ⟨hrefl, fun _ => hzero.symm, fun _ htrue => ?_⟩
      rw [hcreate] at htrue
      cases htrue
    · rw [if_neg hcreate]
      have herr : ∀ (e : FsError) t, t = s → SparesBlocks K s t := by
        rintro e t rfl
        exact hrefl
      refine ((sfsBlockAlloc_spares hK).mono (fun _ _ hQ => hQ) herr fun _ hP => hP).bind ?_
      rintro ent s₁ ⟨hspares, hnotK, hne, -⟩
      refine (getSubCreate_spares hspares.1.used hnotK).mono ?_ (fun _ _ ht => hspares.trans ht)
        fun _ _ => trivial
      rintro r t ⟨ht, hr⟩
      refine ⟨hspares.trans ht, fun hor => ?_, fun _ _ => by rw [hr]; exact hne⟩
      rcases hor with hor | hor
      · exact absurd hzero hor
      · exact absurd hor hcreate

end spares

/-! ### The dirty flag of an inode -/

/-- What adding blocks does to an inode. Behind the direct blocks, and with the indirect block there, only the
count of blocks changes; otherwise the inode is the same or marked as dirty. -/
def Grows (d d' : SfsInode) : Prop :=
  d.blocks ≤ d'.blocks ∧ (d.dirty = true → d'.dirty = true) ∧
    if 12 ≤ d.blocks ∧ d.indirect ≠ 0 then d' = { d with blocks := d'.blocks } else d' = d ∨ d'.dirty = true

section grows

variable {d d' d'' : SfsInode}

theorem Grows.refl (d : SfsInode) : Grows d d := by
  refine ⟨Nat.le_refl _, id, ?_⟩
  split_ifs
  · rfl
  · exact Or.inl rfl

theorem Grows.trans (h : Grows d d') (h' : Grows d' d'') : Grows d d'' := by
  obtain ⟨hle, hdirty, hgrow⟩ := h
  obtain ⟨hle', hdirty', hgrow'⟩ := h'
  refine ⟨hle.trans hle', hdirty' ∘ hdirty, ?_⟩
  by_cases hcase : 12 ≤ d.blocks ∧ d.indirect ≠ 0
  · rw [if_pos hcase] at hgrow ⊢
    have hind : d'.indirect = d.indirect := by rw [hgrow]
    rw [if_pos ⟨hcase.1.trans hle, by rw [hind]; exact hcase.2⟩] at hgrow'
    rw [hgrow', hgrow]
  · rw [if_neg hcase] at hgrow ⊢
    rcases hgrow with rfl | hd
    · rw [if_neg hcase] at hgrow'
      exact hgrow'
    · exact Or.inr (hdirty' hd)

/-- Without the flag, only the count of blocks can have changed, and that through the indirect block. -/
theorem Grows.silent (h : Grows d d') (hclean : d'.dirty = false) :
    d' = { d with blocks := d'.blocks } ∧ (d.blocks < d'.blocks → 12 ≤ d.blocks ∧ d.indirect ≠ 0) := by
  obtain ⟨-, -, hgrow⟩ := h
  by_cases hcase : 12 ≤ d.blocks ∧ d.indirect ≠ 0
  · rw [if_pos hcase] at hgrow
    exact ⟨hgrow, fun _ => hcase⟩
  · rw [if_neg hcase] at hgrow
    rcases hgrow with rfl | hd
    · exact ⟨rfl, fun hlt => absurd hlt (Nat.lt_irrefl _)⟩
    · rw [hclean] at hd
      cases hd

end grows

section load

variable {K : ℕ → Prop} {s t : Sfs} {sin : ℕ}

theorem bmapGetOut_post {E : FsError → Sfs → Prop} (b : ℕ) :
    ((bmapGetOut b).run s).Post (fun _ t => t = s) E (fun _ => True) := by
  unfold bmapGetOut
  by_cases hb : b ≠ 0
  · simp only [if_pos hb]
    refine (sfsBlockInuse_post (E := E)).bind ?_
    rintro inuse _ ⟨rfl, -, -⟩
    rw [Prog.run_bind, Prog.run_assert]
    split_ifs
    · rfl
    · trivial
  · simp only [if_neg hb]
    rfl

/-- A new block at the end of a file. -/
theorem sfsBmapGetNolock_spares (h : s.Consistent) (hsin : sin ∈ s.inos)
    (hK : ∀ c, K c → s.freemap.isFree c = false) (hind : (s.inode sin).indirect ≠ 0 → ¬ K (s.inode sin).indirect) :
    ((sfsBmapGetNolock sin (s.inode sin).blocks true).run s).Post
      (fun _ t => Spares K s t ∧ (t.inode sin).blocks = (s.inode sin).blocks ∧
        if 12 ≤ (s.inode sin).blocks ∧ (s.inode sin).indirect ≠ 0 then t.inode sin = s.inode sin
        else (t.inode sin).dirty = true)
      (fun _ t => SparesBlocks K s t) (fun _ => True) := by
  unfold sfsBmapGetNolock
  rw [Prog.run_bind, Prog.run_get, Outcome.andThen_ok]
  have herr : ∀ (e : FsError) t, t = s → SparesBlocks K s t := by
    rintro e t rfl
    exact ⟨Spares.refl hK, rfl⟩
  by_cases hdir : (s.inode sin).blocks < 12
  · have hzero : (s.inode sin).direct (s.inode sin).blocks = 0 := by
      have := h.tail sin hsin _ le_rfl
      rwa [Sfs.slot, if_pos hdir] at this
    simp only [if_pos hdir, hzero, and_self, if_true]
    refine ((sfsBlockAlloc_spares hK).mono (fun _ _ hQ => hQ) herr fun _ hP => hP).bind ?_
    rintro b s₁ ⟨hspares, -, -, -⟩
    rw [Prog.run_bind, Prog.run_modify, Outcome.andThen_ok]
    refine (bmapGetOut_post b).mono ?_ (fun _ _ hE => hE) fun _ hP => hP
    rintro _ _ rfl
    refine ⟨hspares.1.trans (Spares.setInode hspares.1.used _), ?_, ?_⟩
    · rw [Sfs.setInode_same, hspares.2]
    · rw [if_neg (by omega), Sfs.setInode_same]
  · simp only [if_neg hdir]
    by_cases hidx : (s.inode sin).blocks - 12 < 1024
    swap
    · rw [if_neg hidx]
      trivial
    rw [if_pos hidx]
    refine (sfsBmapGetSubNolock_spares hK hind).bind ?_
    rintro ⟨ent, b⟩ s₁ ⟨hspares, hsame, hnew⟩
    by_cases hent : ent ≠ (s.inode sin).indirect
    · have hzero : (s.inode sin).indirect = 0 := by
        by_contra hne
        exact hent (hsame (Or.inl hne))
      simp only [if_pos hent]
      rw [Prog.run_bind, Prog.run_assert_of _ _ hzero, Outcome.andThen_ok, Prog.run_bind, Prog.run_modify,
        Outcome.andThen_ok]
      refine (bmapGetOut_post b).mono ?_ (fun _ _ hE => hE) fun _ hP => hP
      rintro _ _ rfl
      refine ⟨hspares.1.trans (Spares.setInode hspares.1.used _), ?_, ?_⟩
      · rw [Sfs.setInode_same, hspares.2]
      · rw [if_neg fun hcase => hcase.2 hzero, Sfs.setInode_same]
    · rw [not_not] at hent
      have hne : (s.inode sin).indirect ≠ 0 := fun h0 => hnew h0 rfl (hent.trans h0)
      simp only [hent, ne_eq, not_true_eq_false, if_false]
      refine (bmapGetOut_post b).mono ?_ (fun _ _ hE => hE) fun _ hP => hP
      rintro _ _ rfl
      refine ⟨hspares.1, by rw [hspares.2], ?_⟩
      rw [if_pos ⟨not_lt.mp hdir, hne⟩, hspares.2]

/-- A block that is not among those that the file system hands out: an inode, or nobody's. -/
def Sfs.Guarded (s : Sfs) (c : ℕ) : Prop := c ≠ 0 ∧ (c ∈ s.inos ∨ s.Lost c)

theorem Sfs.Consistent.guarded (h : s.Consistent) {c : ℕ} (hc : s.Guarded c) :
    s.freemap.isFree c = false ∧ ∀ ino ∈ s.inos, (s.inode ino).indirect ≠ c ∧ ∀ i, s.slot ino i ≠ c := by
  obtain ⟨hne, hc | hc⟩ := hc
  · have hblk : s.blk (.inode c) = c := if_pos hc
    have hne' : s.blk (.inode c) ≠ 0 := by rw [hblk]; exact hne
    have hused := (h.used (.inode c) hne').2
    rw [hblk] at hused
    refine ⟨hused, fun ino hino => ⟨fun heq => ?_, fun i heq => ?_⟩⟩
    · have := h.inj (.inode c) (.indirect ino) hne' (by
        rw [hblk]
        simp only [Sfs.blk, if_pos hino]
        exact heq.symm)
      cases this
    · have := h.inj (.inode c) (.data ino i) hne' (by
        rw [hblk]
        simp only [Sfs.blk, if_pos hino]
        exact heq.symm)
      cases this
  · obtain ⟨-, hused, hno⟩ := hc
    refine ⟨hused, fun ino hino => ⟨fun heq => hno (.indirect ino) ?_, fun i heq => hno (.data ino i) ?_⟩⟩
    · simp only [Sfs.blk, if_pos hino]
      exact heq
    · simp only [Sfs.blk, if_pos hino]
      exact heq

/-- The guarded blocks of a file system stay the same. -/
theorem Kept.guarded (h : Kept s t sin) : t.Guarded = s.Guarded := by
  funext c
  unfold Sfs.Guarded
  rw [h.inos, h.lost]

/-- What an operation that adds blocks to the file `sin` leaves alone. -/
structure Framed (s t : Sfs) (sin : ℕ) : Prop where
  kept : Kept s t sin
  spares : Spares s.Guarded s t
  grows : Grows (s.inode sin) (t.inode sin)

theorem Framed.refl (h : s.Consistent) (sin : ℕ) : Framed s s sin :=
  ⟨.refl h sin, Spares.refl fun _ hc => (h.guarded hc).1, Grows.refl _⟩

theorem Framed.trans {u : Sfs} (h : Framed s t sin) (h' : Framed t u sin) : Framed s u sin := by
  have hspares := h'.spares
  rw [h.kept.guarded] at hspares
  exact ⟨h.kept.trans h'.kept, h.spares.trans hspares, h.grows.trans h'.grows⟩

/-- `sfs_bmap_load_nolock` -/
theorem sfsBmapLoadNolock_framed (h : s.Consistent) (hsin : sin ∈ s.inos) (index : ℕ) :
    ((sfsBmapLoadNolock sin index).run s).Post (fun _ t => Framed s t sin) (fun _ t => Framed s t sin)
      (fun _ => True) := by
  have hK : ∀ c, s.Guarded c → s.freemap.isFree c = false := fun c hc => (h.guarded hc).1
  have hind : (s.inode sin).indirect ≠ 0 → ¬ s.Guarded (s.inode sin).indirect := fun _ hc =>
    ((h.guarded hc).2 sin hsin).1 rfl
  -- the part on the guarded blocks and the flag, for a block at the end
  have hnew : index = (s.inode sin).blocks →
      ((sfsBmapLoadNolock sin index).run s).Post
        (fun _ t => Spares s.Guarded s t ∧ Grows (s.inode sin) (t.inode sin))
        (fun _ t => Spares s.Guarded s t ∧ Grows (s.inode sin) (t.inode sin)) (fun _ => True) := by
    rintro rfl
    unfold sfsBmapLoadNolock
    rw [Prog.run_bind, Prog.run_get, Outcome.andThen_ok]
    simp only [decide_true, if_true]
    rw [Prog.run_bind, Prog.run_assert_of _ _ le_rfl, Outcome.andThen_ok]
    refine ((sfsBmapGetNolock_spares h hsin hK hind).mono (fun _ _ hQ => hQ) ?_ fun _ hP => hP).bind ?_
    · rintro e t ⟨hspares, hinode⟩
      exact ⟨hspares, by rw [hinode]; exact Grows.refl _⟩
    · rintro b s₁ ⟨hspares, hblocks, hflag⟩
      refine sfsBlockInuse_post.bind ?_
      rintro inuse _ ⟨rfl, -, -⟩
      rw [Prog.run_bind, Prog.run_assert]
      split_ifs
      · rw [Outcome.andThen_ok, Prog.run_bind, Prog.run_modify, Outcome.andThen_ok, Prog.run_pure]
        refine ⟨hspares.trans (Spares.setInode hspares.used _), ?_⟩
        rw [Sfs.setInode_same]
        refine ⟨by simp only; omega, ?_, ?_⟩
        · intro hdirty
          by_cases hcase : 12 ≤ (s.inode sin).blocks ∧ (s.inode sin).indirect ≠ 0
          · rw [if_pos hcase] at hflag
            rw [hflag]
            exact hdirty
          · rw [if_neg hcase] at hflag
            exact hflag
        · by_cases hcase : 12 ≤ (s.inode sin).blocks ∧ (s.inode sin).indirect ≠ 0
          · rw [if_pos hcase] at hflag ⊢
            rw [hflag]
          · rw [if_neg hcase] at hflag ⊢
            exact Or.inr hflag
      · trivial
  have hpost := sfsBmapLoadNolock_post h hsin index
  cases hrun : (sfsBmapLoadNolock sin index).run s with
  | ok b t =>
    rw [hrun] at hpost hnew
    rcases hpost with ⟨-, -, -, rfl⟩ | ⟨hidx, -, happ⟩
    · exact Framed.refl h sin
    · exact ⟨happ.kept, (hnew hidx).1, (hnew hidx).2⟩
  | error e t =>
    rw [hrun] at hpost hnew
    obtain ⟨-, hidx, -, -, hunt⟩ := hpost
    exact ⟨hunt.kept sin, (hnew hidx).1, (hnew hidx).2⟩
  | panic p => trivial

/-- The loop of `sfs_truncfile` that adds blocks -/
theorem growBlocks_framed (h : s.Consistent) (hsin : sin ∈ s.inos) (index n : ℕ) :
    ((growBlocks sin index n).run s).Post (fun _ t => Framed s t sin) (fun _ t => Framed s t sin)
      (fun _ => True) := by
  induction n generalizing s index with
  | zero => exact Framed.refl h sin
  | succ n ih =>
    rw [growBlocks]
    refine (sfsBmapLoadNolock_framed h hsin index).bind ?_
    intro b s₁ hframed
    refine (ih hframed.kept.consistent (by rw [hframed.kept.inos]; exact hsin) (index + 1)).mono ?_ ?_
      fun _ hP => hP
    · exact fun _ t ht => hframed.trans ht
    · exact fun _ t ht => hframed.trans ht

/-! ### Transfers -/

theorem sfsTransfer_post {E : FsError → Sfs → Prop} {write whole : Bool} {data : List UInt8} {b blkoff size : ℕ} :
    ((sfsTransfer write whole data b blkoff size).run s).Post
      (fun _ t => t = s ∨ write = true ∧ b ≠ 0 ∧ ∃ blk, t = s.writeBlock b blk) E (fun _ => True) := by
  unfold sfsTransfer
  cases write with
  | true =>
    simp only [if_true]
    cases whole with
    | true =>
      simp only [if_true]
      refine (sfsWblock_post _).bind ?_
      rintro _ t ⟨hb, rfl⟩
      exact Or.inr ⟨trivial, hb, _, rfl⟩
    | false =>
      simp only [Bool.false_eq_true, if_false]
      refine (sfsWbuf_post data blkoff).bind ?_
      rintro _ t ht
      exact Or.inr ⟨trivial, ht⟩
  | false =>
    simp only [Bool.false_eq_true, if_false]
    cases whole with
    | true =>
      simp only [if_true]
      by_cases hb : b ≠ 0 ∧ b < s.blocks
      · rw [Prog.bind_of_ok (sfsRblock_run hb)]
        exact Or.inl rfl
      · simp only [sfsRblock, Prog.run_bind, Prog.run_get, Outcome.andThen_ok, Prog.run_assert_of_not _ _ hb,
          Outcome.andThen_panic]
        trivial
    | false =>
      simp only [Bool.false_eq_true, if_false]
      exact (sfsRbuf_post size blkoff).mono (fun _ _ ht => Or.inl ht) (fun _ _ hE => hE) fun _ hP => hP

/-- Writing to a block of the file. -/
theorem Framed.writeBlock (h : s.Consistent) (hsin : sin ∈ s.inos) {i : ℕ} (hne : s.slot sin i ≠ 0)
    (blk : Block) : Framed s (s.writeBlock (s.slot sin i) blk) sin :=
  ⟨.writeBlock h hsin hne blk,
    Spares.writeBlock (fun _ hc => (h.guarded hc).1) hne (fun hc => ((h.guarded hc).2 sin hsin).2 i rfl) blk,
    Grows.refl _⟩

theorem ioStep_framed (h : s.Consistent) (hsin : sin ∈ s.inos) {write whole : Bool} {buf : List UInt8}
    {blkno blkoff size : ℕ} {r : IoResult} :
    ((ioStep sin write whole buf blkno blkoff size r).run s).Post (fun _ t => Framed s t sin)
      (fun _ _ => False) (fun _ => True) := by
  have hpost := sfsBmapLoadNolock_post h hsin blkno
  have hframed := sfsBmapLoadNolock_framed h hsin blkno
  simp only [ioStep, Prog.run_bind, Prog.attempt]
  cases hload : (sfsBmapLoadNolock sin blkno).run s with
  | error e s₁ =>
    rw [hload] at hframed
    exact hframed
  | panic p => trivial
  | ok b s₁ =>
    rw [hload] at hpost hframed
    obtain ⟨hprog, hslot, hb, -, -⟩ := LoadOk.spec h hsin hpost
    have hkept : Framed s s₁ sin := hframed
    refine sfsTransfer_post.bind ?_
    rintro bytes t (rfl | ⟨-, -, blk, rfl⟩)
    · exact hkept
    · have hw := Framed.writeBlock hkept.kept.consistent (show sin ∈ s₁.inos by rw [hkept.kept.inos]; exact hsin)
        (i := blkno) (by rwa [hslot]) blk
      rw [hslot] at hw
      exact hkept.trans hw

theorem ioTransfer_framed (h : s.Consistent) (hsin : sin ∈ s.inos) {write : Bool} {buf : List UInt8}
    {offset endpos : ℕ} (hlt : offset < endpos) :
    ((ioTransfer sin write buf offset endpos).run s).Post (fun _ t => Framed s t sin) (fun _ _ => False)
      (fun _ => True) := by
  refine (ioTransfer_post (I := fun _ _ t => Framed s t sin) (F := fun _ t => Framed s t sin)
    (P := fun _ => True) ?_ hlt (Framed.refl h sin)).mono ?_ (fun _ _ hE => hE) fun _ hP => hP
  · intro pos size whole r t _ _ _ _ _ _ _ hframed
    refine (ioStep_framed hframed.kept.consistent (by rw [hframed.kept.inos]; exact hsin)).mono ?_
      (fun _ _ hE => hE) fun _ hP => hP
    intro r' t' ht'
    by_cases hret : r'.ret = none
    · exact Or.inl ⟨hret, hframed.trans ht'⟩
    · exact Or.inr ⟨hret, hframed.trans ht'⟩
  · rintro r t (⟨-, ht⟩ | ⟨-, ht⟩)
    · exact ht
    · exact ht

/-! ### Operations -/

/-- What an operation on the file `sin` leaves alone, and that it marks what it changes, a growth apart. -/
structure OpFramed (s t : Sfs) (sin : ℕ) : Prop where
  kept : Kept s t sin
  spares : Spares s.Guarded s t
  flag : (t.inode sin).dirty = true ∨ Grows (s.inode sin) (t.inode sin)

theorem Framed.op (h : Framed s t sin) : OpFramed s t sin := ⟨h.kept, h.spares, Or.inr h.grows⟩

theorem OpFramed.setInode {f : SfsInode → SfsInode} (h : OpFramed s t sin)
    (hdirect : (f (t.inode sin)).direct = (t.inode sin).direct)
    (hind : (f (t.inode sin)).indirect = (t.inode sin).indirect)
    (hblocks : (f (t.inode sin)).blocks = (t.inode sin).blocks)
    (htype : (f (t.inode sin)).type = (t.inode sin).type) (hdirty : (f (t.inode sin)).dirty = true) :
    OpFramed s (t.setInode sin f) sin :=
  ⟨h.kept.trans (.setInode h.kept.consistent hdirect hind hblocks htype),
    h.spares.trans (Spares.setInode h.spares.used f), Or.inl (by rw [Sfs.setInode_same]; exact hdirty)⟩

/-- The last block is dropped. -/
theorem sfsBmapTruncateNolock_framed (h : s.Consistent) (hsin : sin ∈ s.inos)
    (hpos : (s.inode sin).blocks ≠ 0) :
    ∃ t, (sfsBmapTruncateNolock sin).run s = .ok () t ∧ OpFramed s t sin := by
  have hK : ∀ c, s.Guarded c → s.freemap.isFree c = false := fun c hc => (h.guarded hc).1
  obtain ⟨t, hrun, hdropped⟩ := sfsBmapTruncateNolock_run h hsin hpos
  have hfree := sfsBmapFreeNolock_run h hsin ((s.inode sin).blocks - 1)
  refine ⟨t, hrun, hdropped.kept, ?_, ?_⟩
  · set b := s.slot sin ((s.inode sin).blocks - 1) with hb
    have hspares : ∀ s₁, (sfsBmapFreeNolock sin ((s.inode sin).blocks - 1)).run s = .ok () s₁ →
        Spares s.Guarded s s₁ := by
      intro s₁ hs₁
      rw [hs₁] at hfree
      injection hfree with _ hfree
      subst hfree
      by_cases hzero : b = 0
      · rw [if_pos hzero]
        exact Spares.refl hK
      have hnotK : ¬ s.Guarded b := fun hc => ((h.guarded hc).2 sin hsin).2 _ rfl
      have hlt := h.lt_length (h.slot_used hsin hzero).1
      rw [if_neg hzero]
      split_ifs with hdir
      · exact (Spares.give hK hnotK hlt).trans (Spares.setInode (Spares.give hK hnotK hlt).used _)
      · have hnotE : ¬ s.Guarded (s.inode sin).indirect := fun hc => ((h.guarded hc).2 sin hsin).1 rfl
        have hind : (s.inode sin).indirect ≠ 0 := by
          intro h0
          apply hzero
          rw [hb, Sfs.slot, if_neg hdir, if_neg fun hcase => hcase.2 h0]
        have hput := Spares.writeBlock hK hind hnotE
          ((s.disk (s.inode sin).indirect).splice (((s.inode sin).blocks - 1 - 12) * 4) (putU32 0))
        exact hput.trans (Spares.give hput.used hnotK hlt)
    rw [sfsBmapTruncateNolock, Prog.run_bind, Prog.run_get, Outcome.andThen_ok, Prog.run_bind,
      Prog.run_assert_of _ _ hpos, Outcome.andThen_ok, Prog.bind_of_ok hfree, Prog.run_modify] at hrun
    injection hrun with _ hrun
    subst hrun
    have hs := hspares _ hfree
    exact hs.trans (Spares.setInode hs.used _)
  · rw [sfsBmapTruncateNolock, Prog.run_bind, Prog.run_get, Outcome.andThen_ok, Prog.run_bind,
      Prog.run_assert_of _ _ hpos, Outcome.andThen_ok, Prog.bind_of_ok hfree, Prog.run_modify] at hrun
    injection hrun with _ hrun
    subst hrun
    exact Or.inl (by rw [Sfs.setInode_same])

theorem OpFramed.trans {u : Sfs} (h : OpFramed s t sin) (h' : OpFramed t u sin) : OpFramed s u sin := by
  have hspares := h'.spares
  rw [h.kept.guarded] at hspares
  refine ⟨h.kept.trans h'.kept, h.spares.trans hspares, ?_⟩
  rcases h'.flag with hdirty | hgrows'
  · exact Or.inl hdirty
  · rcases h.flag with hdirty | hgrows
    · exact Or.inl (hgrows'.2.1 hdirty)
    · exact Or.inr (hgrows.trans hgrows')

theorem shrinkBlocks_framed (h : s.Consistent) (hsin : sin ∈ s.inos) {n : ℕ}
    (hn : n ≤ (s.inode sin).blocks) :
    ∃ t, (shrinkBlocks sin n).run s = .ok () t ∧ OpFramed s t sin := by
  induction n generalizing s with
  | zero => exact ⟨s, rfl, (Framed.refl h sin).op⟩
  | succ n ih =>
    obtain ⟨s₁, hrun₁, hdropped⟩ := sfsBmapTruncateNolock_run h hsin (by omega)
    obtain ⟨s₂, hrun₂, hframed⟩ := sfsBmapTruncateNolock_framed h hsin (by omega)
    rw [hrun₁] at hrun₂
    injection hrun₂ with _ hrun₂
    subst hrun₂
    have hshrunk := hdropped.shrunk
    obtain ⟨t, hrun, hrest⟩ := ih hframed.kept.consistent
      (show sin ∈ s₁.inos by rw [hframed.kept.inos]; exact hsin) (by omega)
    exact ⟨t, by rw [shrinkBlocks, Prog.bind_of_ok hrun₁, hrun], hframed.trans hrest⟩

theorem sfsTruncfile_framed (h : s.Consistent) (hsin : sin ∈ s.inos) (len : ℤ) :
    ((sfsTruncfile sin len).run s).Post (fun _ t => OpFramed s t sin) (fun _ t => OpFramed s t sin)
      (fun _ => True) := by
  have hrefl := (Framed.refl h sin).op
  -- the end: the size is set
  have hdone : ∀ t, OpFramed s t sin →
      ((do
        let s ← Prog.get
        Prog.assert ((s.inode sin).blocks = (len.toNat + 4095) / 4096) .truncDone
        Prog.modify fun s => s.setInode sin fun d => { d with size := len.toNat, dirty := true } :
        SfsProg Unit).run t).Post (fun _ t => OpFramed s t sin) (fun _ t => OpFramed s t sin)
        (fun _ => True) := by
    intro t ht
    rw [Prog.run_bind, Prog.run_get, Outcome.andThen_ok, Prog.run_bind, Prog.run_assert]
    split_ifs
    · exact ht.setInode rfl rfl rfl rfl rfl
    · trivial
  simp only [sfsTruncfile, Prog.run_ite]
  split_ifs with hrange
  · exact hrefl
  rw [Prog.run_bind, Prog.run_get, Outcome.andThen_ok]
  simp only [Prog.run_ite]
  by_cases hsame : (s.inode sin).size = len.toNat
  · rw [if_pos hsame, Prog.run_assert]
    split_ifs
    · exact hrefl
    · trivial
  rw [if_neg hsame]
  by_cases hgrow : (s.inode sin).blocks < (len.toNat + 4095) / 4096
  · simp only [if_pos hgrow]
    refine ((growBlocks_framed h hsin _ _).mono (fun _ _ ht => ht) (fun _ _ ht => ht.op) fun _ hP => hP).bind ?_
    intro _ t ht
    exact hdone t ht.op
  · simp only [if_neg hgrow]
    obtain ⟨t, hrun, ht⟩ := shrinkBlocks_framed h hsin
      (show (s.inode sin).blocks - (len.toNat + 4095) / 4096 ≤ (s.inode sin).blocks by omega)
    rw [Prog.bind_of_ok hrun]
    exact hdone t ht

theorem sfsTryseek_framed (h : s.Consistent) (hsin : sin ∈ s.inos) (pos : ℤ) :
    ((sfsTryseek sin pos).run s).Post (fun _ t => OpFramed s t sin) (fun _ t => OpFramed s t sin)
      (fun _ => True) := by
  have hrefl := (Framed.refl h sin).op
  simp only [sfsTryseek, Prog.run_ite]
  split_ifs with hrange
  · exact hrefl
  rw [Prog.run_bind, Prog.run_get, Outcome.andThen_ok]
  simp only [Prog.run_ite]
  split_ifs
  · exact sfsTruncfile_framed h hsin pos
  · exact hrefl

theorem OpFramed.raiseSize (h : OpFramed s t sin) (endpos : ℕ) : OpFramed s (t.raiseSize sin endpos) sin := by
  unfold Sfs.raiseSize
  split_ifs
  · exact h.setInode rfl rfl rfl rfl rfl
  · exact h

theorem sfsIoNolock_framed (h : s.Consistent) (hsin : sin ∈ s.inos) (hdir : (s.inode sin).type ≠ .dir)
    (buf : List UInt8) (offset : ℤ) (alen : ℕ) (write : Bool) :
    ((sfsIoNolock sin buf offset alen write).run s).Post (fun _ t => OpFramed s t sin) (fun _ _ => False)
      (fun _ => True) := by
  by_cases hacc : IoAccepted (s.inode sin).size offset alen write
  · rw [sfsIoNolock_of_accepted hdir hacc]
    refine (ioTransfer_framed h hsin hacc.lt).bind ?_
    intro r t ht
    exact ht.op.raiseSize _
  · obtain ⟨ret, hrun⟩ : ∃ ret, (sfsIoNolock sin buf offset alen write).run s = .ok ⟨ret, 0, []⟩ s :=
      sfsIoNolock_of_not_accepted hdir hacc
    rw [hrun]
    exact (Framed.refl h sin).op

end load

/-- **Every operation leaves the guarded blocks alone and marks what it changes**, a growth apart. -/
theorem SfsOp.code_framed {s : Sfs} (h : s.Consistent) {op : SfsOp} (hop : op.OnFile s) :
    (op.code.run s).Post (fun _ t => OpFramed s t op.file) (fun _ t => OpFramed s t op.file)
      (fun _ => True) := by
  have hio : ∀ buf offset alen write,
      ((do let _ ← sfsIoNolock op.file buf offset alen write; pure () : SfsProg Unit).run s).Post
        (fun _ t => OpFramed s t op.file) (fun _ t => OpFramed s t op.file) (fun _ => True) := by
    intro buf offset alen write
    refine ((sfsIoNolock_framed h hop.1 hop.not_dir buf offset alen write).mono (fun _ _ ht => ht)
      (fun _ _ hE => hE.elim) fun _ hP => hP).bind ?_
    intro r t ht
    exact ht
  cases op with
  | read sin offset alen => exact hio [] offset alen false
  | write sin buf offset alen => exact hio buf offset alen true
  | seek sin pos => exact sfsTryseek_framed h hop.1 pos
  | truncate sin len => exact sfsTruncfile_framed h hop.1 len

end Ucore.Fs
