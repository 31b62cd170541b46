import Ucore.Tools.MksfsRuns
import Mathlib.Order.Interval.Finset.Nat

/-!
# The finished image

What `close_sfs` writes, and what the kernel finds there.

* `Mksfs.flushList` has every block that is written once, so `closeSfs_run` says what is in each block afterwards.
* `mount_image`: the kernel mounts the image, if the device is large enough.
* `ImageOf.consistent`, `ImageOf.slot` and `ImageOf.isDir`: what is mounted is consistent, its inodes are those that the
  program had in memory, and the block map finds the blocks that were appended, up to the 1036 that it can reach.
* `ImageOf.load_run` and `ImageOf.dirent`: the blocks and the entries that the kernel gets.
-/

namespace Ucore.Tools

open Ucore.Lib Ucore.Fs

/-! ### Writing the blocks -/

/-- The first `len` bytes of a block, and zeros. -/
def Block.cut (data : Block) (len : ℕ) : Block := fun k => if k < len then data k else 0

/-- A list of blocks is written to the image file. -/
def writeAll (img : ℕ → Block) (l : List (ℕ × Block × ℕ)) : ℕ → Block :=
  l.foldl (fun img e => Function.update img e.1 (Block.cut e.2.1 e.2.2)) img

theorem writeBlocks_run (l : List (ℕ × Block × ℕ)) (m : Mksfs) (h : ∀ e ∈ l, e.2.2 ≤ 4096 ∧ e.1 < m.ninos) :
    (writeBlocks l).run m = .ok () { m with img := writeAll m.img l } := by
  induction l generalizing m with
  | nil => rfl
  | cons e l ih =>
    obtain ⟨ino, data, len⟩ := e
    have hok := h _ List.mem_cons_self
    rw [writeBlocks, Prog.run_bind, writeBlock, Prog.run_bind, Prog.run_get, Outcome.andThen_ok, Prog.run_bind,
      Prog.run_assert_of _ _ hok, Outcome.andThen_ok, Prog.run_modify, Outcome.andThen_ok]
    exact ih { m with img := Function.update m.img ino (Block.cut data len) } fun e he => h e (List.mem_cons_of_mem _ he)

theorem writeAll_of_not_mem {img : ℕ → Block} {l : List (ℕ × Block × ℕ)} {b : ℕ} (h : ∀ e ∈ l, e.1 ≠ b) :
    writeAll img l b = img b := by
  induction l generalizing img with
  | nil => rfl
  | cons e l ih =>
    rw [writeAll, List.foldl_cons, ← writeAll, ih fun e he => h e (List.mem_cons_of_mem _ he),
      Function.update_of_ne (h e List.mem_cons_self).symm]

/-- A block that is written with one content only. -/
theorem writeAll_of_mem {img : ℕ → Block} {l : List (ℕ × Block × ℕ)} {b len : ℕ} {data : Block}
    (hmem : (b, data, len) ∈ l) (h : ∀ e ∈ l, e.1 = b → e = (b, data, len)) :
    writeAll img l b = Block.cut data len := by
  induction l generalizing img with
  | nil => exact absurd hmem List.not_mem_nil
  | cons e l ih =>
    rw [writeAll, List.foldl_cons, ← writeAll]
    by_cases hlater : (b, data, len) ∈ l
    · exact ih hlater fun e he => h e (List.mem_cons_of_mem _ he)
    · have hfirst : (b, data, len) = e := (List.mem_cons.mp hmem).resolve_right hlater
      rw [writeAll_of_not_mem fun e' he' heq => ?_, ← hfirst, Function.update_self]
      rw [h e' (List.mem_cons_of_mem _ he') heq] at he'
      exact hlater he'

theorem Block.word_cut (data : Block) {len j : ℕ} (hj : 4 * j + 4 ≤ len) : (Block.cut data len).word j = data.word j := by
  refine Block.word_congr (n := j + 1) ?_ (Nat.lt_succ_self j)
  rw [Block.read, Block.read, List.map_inj_left]
  intro k hk
  rw [List.mem_range'_1] at hk
  exact if_pos (by omega)

/-! ### What is written -/

section flush

variable {ρ : ℕ → Role} {m : Mksfs}

/-- The four kinds of blocks that are written. -/
theorem Mksfs.mem_flushList {e : ℕ × Block × ℕ} : e ∈ m.flushList ↔
    (∃ q < freemapBlocks m.ninos, e = (2 + q, m.freemapBlock q, 4096)) ∨
      e = (0, superBlock m.ninos m.unusedBlocks sfsInfo, 44) ∨
      (∃ b ∈ m.cached, m.bucket b < 1024 ∧ e = (b, wordsBlock (m.cache b), 4096)) ∨
      ∃ f ∈ m.inos, e = (f, wordsBlock (m.inode f).words, 68) := by
  simp only [Mksfs.flushList, List.mem_append, List.mem_map, List.mem_range, List.mem_singleton, List.mem_flatMap,
    List.mem_filter, decide_eq_true_eq]
  constructor
  · rintro ((⟨q, hq, rfl⟩ | rfl) | ⟨i, hi, ⟨b, ⟨hb, rfl⟩, rfl⟩ | ⟨f, ⟨hf, -⟩, rfl⟩⟩)
    · exact Or.inl ⟨q, hq, rfl⟩
    · exact Or.inr (Or.inl rfl)
    · exact Or.inr (Or.inr (Or.inl ⟨b, hb, hi, rfl⟩))
    · exact Or.inr (Or.inr (Or.inr ⟨f, hf, rfl⟩))
  · rintro (⟨q, hq, rfl⟩ | rfl | ⟨b, hb, hi, rfl⟩ | ⟨f, hf, rfl⟩)
    · exact Or.inl (Or.inl ⟨q, hq, rfl⟩)
    · exact Or.inl (Or.inr rfl)
    · exact Or.inr ⟨_, hi, Or.inl ⟨b, ⟨hb, rfl⟩, rfl⟩⟩
    · exact Or.inr ⟨_, hash32_lt _, Or.inr ⟨f, ⟨hf, rfl⟩, rfl⟩⟩

/-- Blocks with a role are not those of the superblock and of the free map. -/
theorem MkInv.not_map (h : MkInv ρ m) {b : ℕ} (hb : ρ b ≠ .free) :
    b ≠ 0 ∧ ∀ q < freemapBlocks m.ninos, b ≠ 2 + q := by
  have hrole := h.role b hb
  refine ⟨h.pos hb, fun q hq => ?_⟩
  unfold Mksfs.start at hrole
  omega

theorem MkInv.role_ino (h : MkInv ρ m) {f : ℕ} (hf : f ∈ m.inos) : ρ f ≠ .free := by
  rw [(h.inos f).mp hf]
  exact Role.noConfusion

theorem MkInv.role_cached (h : MkInv ρ m) {b : ℕ} (hb : b ∈ m.cached) : ρ b ≠ .free ∧ ρ b ≠ .inode := by
  have hcache := (h.cached b).mp hb
  constructor <;> intro heq <;> rw [heq] at hcache <;> exact hcache

/-- **A block is written once.** -/
theorem MkInv.flush_unique (h : MkInv ρ m) {e e' : ℕ × Block × ℕ} (he : e ∈ m.flushList) (he' : e' ∈ m.flushList)
    (heq : e.1 = e'.1) : e = e' := by
  rw [Mksfs.mem_flushList] at he he'
  rcases he with ⟨q, hq, rfl⟩ | rfl | ⟨b, hb, -, rfl⟩ | ⟨f, hf, rfl⟩ <;>
    rcases he' with ⟨q', hq', rfl⟩ | rfl | ⟨b', hb', -, rfl⟩ | ⟨f', hf', rfl⟩ <;> simp only at heq
  · rw [show q = q' by omega]
  · omega
  · exact absurd heq.symm ((h.not_map (h.role_cached hb').1).2 q hq)
  · exact absurd heq.symm ((h.not_map (h.role_ino hf')).2 q hq)
  · omega
  · rfl
  · exact absurd heq.symm (h.not_map (h.role_cached hb').1).1
  · exact absurd heq.symm (h.not_map (h.role_ino hf')).1
  · exact absurd heq ((h.not_map (h.role_cached hb).1).2 q' hq')
  · exact absurd heq (h.not_map (h.role_cached hb).1).1
  · rw [heq]
  · rw [heq] at hb
    exact absurd ((h.inos f').mp hf') (h.role_cached hb).2
  · exact absurd heq ((h.not_map (h.role_ino hf)).2 q' hq')
  · exact absurd heq (h.not_map (h.role_ino hf)).1
  · rw [← heq] at hb'
    exact absurd ((h.inos f).mp hf) (h.role_cached hb').2
  · rw [heq]

/-- The image file when the program has ended. -/
def Mksfs.image (m : Mksfs) : ℕ → Block := writeAll m.img m.flushList

/-- **`close_sfs`** succeeds. -/
theorem closeSfs_run (h : MkInv ρ m) : closeSfs.run m = .ok () { m with img := m.image } := by
  rw [closeSfs, Prog.run_bind, Prog.run_get, Outcome.andThen_ok]
  refine writeBlocks_run _ _ fun e he => ?_
  have hstart := h.start_le
  have hnext := h.next_le
  unfold Mksfs.start at hstart
  rcases Mksfs.mem_flushList.mp he with ⟨q, hq, rfl⟩ | rfl | ⟨b, hb, -, rfl⟩ | ⟨f, hf, rfl⟩
  · exact ⟨Nat.le_refl _, by simp only; omega⟩
  · exact ⟨by simp only; omega, by simp only; omega⟩
  · have hlt := h.lt_next (h.role_cached hb).1
    exact ⟨Nat.le_refl _, by simp only; omega⟩
  · have hlt := h.lt_next (h.role_ino hf)
    exact ⟨by simp only; omega, by simp only; omega⟩

/-- What is in a block that is written. -/
theorem MkInv.image_of_mem (h : MkInv ρ m) {b len : ℕ} {data : Block} (hmem : (b, data, len) ∈ m.flushList) :
    m.image b = Block.cut data len :=
  writeAll_of_mem hmem fun _ he heq => h.flush_unique he hmem heq

theorem MkInv.image_super (h : MkInv ρ m) : m.image 0 = Block.cut (superBlock m.ninos m.unusedBlocks sfsInfo) 44 :=
  h.image_of_mem (Mksfs.mem_flushList.mpr (Or.inr (Or.inl rfl)))

theorem MkInv.image_freemap (h : MkInv ρ m) {q : ℕ} (hq : q < freemapBlocks m.ninos) :
    m.image (2 + q) = Block.cut (m.freemapBlock q) 4096 :=
  h.image_of_mem (Mksfs.mem_flushList.mpr (Or.inl ⟨q, hq, rfl⟩))

theorem MkInv.image_cached (h : MkInv ρ m) {b : ℕ} (hb : (ρ b).Cache) :
    m.image b = Block.cut (wordsBlock (m.cache b)) 4096 :=
  h.image_of_mem (Mksfs.mem_flushList.mpr (Or.inr (Or.inr (Or.inl ⟨b, (h.cached b).mpr hb, h.bucket b, rfl⟩))))

theorem MkInv.image_inode (h : MkInv ρ m) {f : ℕ} (hf : f ∈ m.inos) :
    m.image f = Block.cut (wordsBlock (m.inode f).words) 68 :=
  h.image_of_mem (Mksfs.mem_flushList.mpr (Or.inr (Or.inr (Or.inr ⟨f, hf, rfl⟩))))

/-- The blocks of files have been on the image before. -/
theorem MkInv.image_data (h : MkInv ρ m) {b f k : ℕ} (hb : ρ b = .data f k) : m.image b = m.img b := by
  have hfree : ρ b ≠ .free := by
    rw [hb]
    exact Role.noConfusion
  refine writeAll_of_not_mem fun e he heq => ?_
  rcases Mksfs.mem_flushList.mp he with ⟨q, hq, rfl⟩ | rfl | ⟨b', hb', -, rfl⟩ | ⟨g, hg, rfl⟩ <;> simp only at heq
  · exact (h.not_map hfree).2 q hq heq.symm
  · exact (h.not_map hfree).1 heq.symm
  · rw [heq, h.cached, hb] at hb'
    exact hb'
  · rw [heq, h.inos, hb] at hg
    exact Role.noConfusion hg

end flush

/-! ### The free map -/

theorem foldl_setBit (l : List ℕ) (data : ℕ → BitVec 32) (w : ℕ) {o : ℕ} (ho : o < 32) :
    (l.foldl (fun data j => Function.update data (j / 32) (data (j / 32) ||| bitMask (j % 32))) data w).getLsbD o =
      ((data w).getLsbD o || decide (32 * w + o ∈ l)) := by
  induction l generalizing data with
  | nil => simp
  | cons j l ih =>
    rw [List.foldl_cons, ih]
    by_cases hword : w = j / 32
    · subst hword
      rw [Function.update_self, BitVec.getLsbD_or, getLsbD_bitMask (Nat.mod_lt _ (by omega)), Bool.or_assoc]
      congr 1
      rw [← Bool.decide_or]
      refine decide_eq_decide.mpr ?_
      rw [List.mem_cons]
      refine or_congr_left ?_
      omega
    · rw [Function.update_of_ne hword]
      have hne : 32 * w + o ≠ j := by omega
      congr 1
      exact decide_eq_decide.mpr (by simp [hne])

theorem getLsbD_setBits (start stop w : ℕ) {o : ℕ} (ho : o < 32) :
    (setBits start stop w).getLsbD o = decide (start ≤ 32 * w + o ∧ 32 * w + o < stop) := by
  rw [setBits, foldl_setBit _ _ _ ho]
  simp only [BitVec.ofNat_eq_ofNat, BitVec.getLsbD_zero, Bool.false_or]
  refine decide_eq_decide.mpr ?_
  rw [List.mem_range'_1]
  omega

section freemap

variable {ρ : ℕ → Role} {m : Mksfs}

theorem Mksfs.freemapBlock_bit {q w o : ℕ} (hw : w < 1024) (ho : o < 32) :
    (BitVec.ofNat 32 ((m.freemapBlock q).word w)).getLsbD o =
      decide (m.nextIno ≤ 32768 * q + (32 * w + o) ∧ 32768 * q + (32 * w + o) < m.ninos) := by
  unfold Mksfs.freemapBlock
  simp only
  by_cases hgt : q * 32768 + 32768 > m.nextIno
  · rw [if_pos hgt, word_wordsBlock, Nat.mod_eq_of_lt (BitVec.isLt _), BitVec.ofNat_toNat, BitVec.setWidth_eq,
      getLsbD_setBits _ _ _ ho]
    refine decide_eq_decide.mpr ?_
    split_ifs <;> omega
  · rw [if_neg hgt]
    have hzero : zeroBlock.word w = 0 := rfl
    rw [hzero, BitVec.getLsbD_zero]
    refine (decide_eq_false ?_).symm
    omega

/-- **The free map of the image**: the blocks that have not been handed out. -/
theorem MkInv.isFree_image (h : MkInv ρ m) (b : ℕ) :
    (diskBitmap m.image (freemapBlocks m.ninos * 32768)).isFree b = decide (m.nextIno ≤ b ∧ b < m.ninos) := by
  have hlen := (diskBitmap m.image (freemapBlocks m.ninos * 32768)).length_eq
  have hmod : b % 32 < 32 := Nat.mod_lt _ (by omega)
  have hninos : m.ninos ≤ freemapBlocks m.ninos * 32768 := by
    unfold freemapBlocks
    omega
  by_cases hlt : b < freemapBlocks m.ninos * 32768
  · rw [Bitmap.isFree, List.getD_eq_getElem _ _ (by rw [hlen]; simp only [diskBitmap]; omega)]
    simp only [diskBitmap, List.getElem_map, List.getElem_range]
    rw [h.image_freemap (by omega), Block.word_cut _ (by omega),
      Mksfs.freemapBlock_bit (Nat.mod_lt _ (by omega)) hmod]
    refine decide_eq_decide.mpr ?_
    have hb : 32768 * (b / 32 / 1024) + (32 * (b / 32 % 1024) + b % 32) = b := by omega
    rw [hb]
  · rw [decide_eq_false (by omega)]
    by_contra hfree
    rw [Bool.not_eq_false] at hfree
    have := Bitmap.isFree_lt hfree
    rw [hlen] at this
    simp only [diskBitmap] at this
    omega

theorem MkInv.count_image (h : MkInv ρ m) :
    (diskBitmap m.image (freemapBlocks m.ninos * 32768)).count = m.unusedBlocks := by
  have hset : (Finset.range (32 * (diskBitmap m.image (freemapBlocks m.ninos * 32768)).map.length)).filter
      (fun b => (diskBitmap m.image (freemapBlocks m.ninos * 32768)).isFree b) = Finset.Ico m.nextIno m.ninos := by
    ext b
    rw [Finset.mem_filter, Finset.mem_Ico, Finset.mem_range]
    constructor
    · rintro ⟨-, hfree⟩
      rw [h.isFree_image, decide_eq_true_eq] at hfree
      exact hfree
    · intro hb
      have hfree : (diskBitmap m.image (freemapBlocks m.ninos * 32768)).isFree b = true := by
        rw [h.isFree_image, decide_eq_true_eq]
        exact hb
      exact ⟨Bitmap.isFree_lt hfree, hfree⟩
  rw [Bitmap.count, hset, Nat.card_Ico, h.unused]

end freemap

/-! ### The mounted image -/

/-- The program ends, and the kernel mounts the image from a device with `dBlocks` blocks. -/
def Mksfs.Mounts (m : Mksfs) (dBlocks : ℕ) (s : Sfs) : Prop :=
  ∃ m', closeSfs.run m = .ok () m' ∧ sfsDoMount m'.img dBlocks m.inos = .ok s ()

/-- What the kernel has in memory then. -/
structure ImageOf (m : Mksfs) (s : Sfs) : Prop where
  blocks : s.blocks = m.ninos
  unused : s.unusedBlocks = m.unusedBlocks
  nbits : s.freemap.nbits = freemapBlocks m.ninos * 32768
  count : s.freemap.count = m.unusedBlocks
  isFree : ∀ b, s.freemap.isFree b = decide (m.nextIno ≤ b ∧ b < m.ninos)
  disk : s.disk = m.image
  inos : s.inos = m.inos
  inode : ∀ f, s.inode f = diskInode (m.image f)

section mounted

variable {ρ : ℕ → Role} {m : Mksfs} {s : Sfs} {dBlocks f : ℕ}

theorem MkInv.super_words (h : MkInv ρ m) :
    (m.image 0).word 0 = sfsMagic ∧ (m.image 0).word 1 = m.ninos ∧ (m.image 0).word 2 = m.unusedBlocks := by
  have hninos := h.ninos_le
  have hunused := h.unused
  rw [h.image_super]
  refine ⟨?_, ?_, ?_⟩
  · rw [Block.word_cut _ (by omega), superBlock_word (by omega), if_pos rfl]
    rfl
  · rw [Block.word_cut _ (by omega), superBlock_word (by omega), if_neg (by omega), if_pos rfl,
      Nat.mod_eq_of_lt (by omega)]
  · rw [Block.word_cut _ (by omega), superBlock_word (by omega), if_neg (by omega), if_neg (by omega),
      Nat.mod_eq_of_lt (by omega)]

/-- **Mounting**: the device has to be as large as the image. -/
theorem mount_image (dBlocks : ℕ) (h : MkInv ρ m) :
    (dBlocks < m.ninos → sfsDoMount m.image dBlocks m.inos = .error .inval ()) ∧
      (m.ninos ≤ dBlocks → ∃ s, sfsDoMount m.image dBlocks m.inos = .ok s () ∧ ImageOf m s) := by
  obtain ⟨hmagic, hninos, hunused⟩ := h.super_words
  have hcount := h.count_image
  unfold sfsDoMount
  rw [if_neg (by rw [hmagic]; exact fun hne => hne rfl)]
  constructor
  · intro hlt
    rw [if_pos (by rw [hninos]; exact hlt)]
  · intro hle
    rw [if_neg (by rw [hninos]; omega)]
    simp only
    rw [if_neg (by rw [hninos, hunused, hcount]; exact fun hne => hne rfl)]
    refine ⟨_, rfl, hninos, hunused, ?_, ?_, fun b => ?_, rfl, rfl, fun _ => rfl⟩
    · show freemapBlocks _ * 32768 = _
      rw [hninos]
    · simp only
      rw [hninos]
      exact hcount
    · simp only
      rw [hninos]
      exact h.isFree_image b

theorem Mksfs.Mounts.mounted (h : m.Ok) (hmount : m.Mounts dBlocks s) : ImageOf m s := by
  obtain ⟨⟨ρ, hinv⟩, -⟩ := h
  obtain ⟨m', hclose, hdo⟩ := hmount
  rw [closeSfs_run hinv] at hclose
  rw [← (Outcome.ok.inj hclose).2] at hdo
  obtain ⟨hsmall, hlarge⟩ := mount_image dBlocks hinv
  rcases Nat.lt_or_ge dBlocks m.ninos with hlt | hge
  · rw [hsmall hlt] at hdo
    cases hdo
  · obtain ⟨s', hok, hmounted⟩ := hlarge hge
    rw [hok] at hdo
    rw [← (Outcome.ok.inj hdo).1]
    exact hmounted

theorem Mksfs.Ok.exists_mounts {d : ℕ} (h : m.Ok) (hle : m.ninos ≤ d) : ∃ s, m.Mounts d s := by
  obtain ⟨⟨ρ, hinv⟩, -⟩ := h
  obtain ⟨s, hok, -⟩ := (mount_image d hinv).2 hle
  exact ⟨s, _, closeSfs_run hinv, hok⟩

theorem MkInv.word_inode (hinv : MkInv ρ m) (hf : f ∈ m.inos) {j : ℕ} (hj : j < 17) :
    (m.image f).word j = (m.inode f).words j % 2 ^ 32 := by
  rw [hinv.image_inode hf, Block.word_cut _ (by omega), word_wordsBlock]

theorem MkInv.appended_bounds (hinv : MkInv ρ m) (hf : f ∈ m.inos) (k : ℕ) :
    (m.inode f).appended.getD k 0 < 2 ^ 32 := by
  have hninos := hinv.ninos_le
  have hnext := hinv.next_le
  rcases Nat.lt_or_ge k (m.inode f).appended.length with hlt | hge
  · have := hinv.appended_lt hf hlt
    omega
  · rw [List.getD_eq_default _ _ hge]
    omega

theorem MkInv.diskNlinks_image (hinv : MkInv ρ m) (hf : f ∈ m.inos) :
    diskNlinks (m.image f) = (m.inode f).nlinks := by
  have hnlinks := (hinv.files f hf).nlinks_lt
  unfold diskNlinks
  rw [hinv.word_inode hf (by omega)]
  show ((m.inode f).type.code + 65536 * (m.inode f).nlinks) % 2 ^ 32 / 65536 = _
  have hcode : (m.inode f).type.code < 4 := by cases (m.inode f).type <;> decide
  omega

namespace ImageOf

section inodes

variable (h : ImageOf m s) (hinv : MkInv ρ m) (hf : f ∈ m.inos)

include h hinv hf

theorem type : (s.inode f).type = (m.inode f).type := by
  have hnlinks := (hinv.files f hf).nlinks_lt
  have hcode : (m.inode f).type.code < 4 := by cases (m.inode f).type <;> decide
  have hword : (m.image f).word 1 = ((m.inode f).type.code + 65536 * (m.inode f).nlinks) % 2 ^ 32 :=
    hinv.word_inode hf (by omega)
  have hlow : (m.image f).word 1 % 65536 = (m.inode f).type.code := by omega
  rw [h.inode, type_diskInode, hlow]
  exact SfsType.ofCode_code _

theorem blocks_eq : (s.inode f).blocks = (m.inode f).appended.length := by
  have hfile := hinv.files f hf
  have hle := hfile.length_le
  rw [h.inode]
  show (m.image f).word 2 = _
  rw [hinv.word_inode hf (by omega)]
  show (m.inode f).blocks % 2 ^ 32 = _
  rw [hfile.blocks, Nat.mod_eq_of_lt (by omega)]

theorem size_eq : (s.inode f).size = (m.inode f).size := by
  have hfile := hinv.files f hf
  have hle := hfile.length_le
  have hsize := hfile.size_le
  rw [h.inode]
  show (m.image f).word 0 = _
  rw [hinv.word_inode hf (by omega)]
  show (m.inode f).size % 2 ^ 32 = _
  exact Nat.mod_eq_of_lt (by omega)

theorem direct {i : ℕ} (hi : i < 12) : (s.inode f).direct i = (m.inode f).appended.getD i 0 := by
  rw [h.inode]
  show (m.image f).word (i + 3) = _
  rw [hinv.word_inode hf (by omega)]
  show (if i < 12 then (m.inode f).direct i else _) % 2 ^ 32 = _
  rw [if_pos hi, (hinv.files f hf).direct i hi, Nat.mod_eq_of_lt (hinv.appended_bounds hf i)]

theorem indirect : (s.inode f).indirect = (m.inode f).indirect := by
  have hfile := hinv.files f hf
  have hlt : (m.inode f).indirect < 2 ^ 32 := by
    have hninos := hinv.ninos_le
    have hnext := hinv.next_le
    rcases Nat.lt_or_ge 12 (m.inode f).appended.length with hgt | hle
    · have := hinv.lt_next (b := (m.inode f).indirect) (by rw [(hfile.ind hgt).1]; exact Role.noConfusion)
      omega
    · rw [hfile.ind_zero hle]
      omega
  rw [h.inode]
  show (m.image f).word 15 = _
  rw [hinv.word_inode hf (by omega)]
  exact Nat.mod_eq_of_lt hlt

/-- **The block map of the kernel** on the inodes of the program: it sees 1036 blocks. -/
theorem slot (i : ℕ) : s.slot f i = if i < 1036 then (m.inode f).appended.getD i 0 else 0 := by
  have hfile := hinv.files f hf
  unfold Sfs.slot
  by_cases hi : i < 12
  · rw [if_pos hi, if_pos (by omega), h.direct hinv hf hi]
  rw [if_neg hi]
  by_cases hlt : i < 1036
  · rw [if_pos hlt, h.indirect hinv hf]
    rcases Nat.lt_or_ge 12 (m.inode f).appended.length with hgt | hle
    · obtain ⟨hrole, hwords⟩ := hfile.ind hgt
      rw [if_pos ⟨hlt, hinv.pos (by rw [hrole]; exact Role.noConfusion)⟩, Sfs.entry_eq_word, h.disk,
        hinv.image_cached (by rw [hrole]; trivial), Block.word_cut _ (by omega), word_wordsBlock,
        hwords (i - 12) (by omega), show 12 + (i - 12) = i by omega,
        Nat.mod_eq_of_lt (hinv.appended_bounds hf i)]
    · rw [if_neg (fun hand => hand.2 (hfile.ind_zero hle)), List.getD_eq_default _ _ (by omega)]
  · rw [if_neg (fun hand => hlt hand.1), if_neg hlt]

end inodes

/-- The role of the block that an owner holds. -/
def ownerRole : Owner → Role
  | .inode _ => .inode
  | .indirect f => .ind f
  | .data f k => .data f k

theorem role_blk (h : ImageOf m s) (hinv : MkInv ρ m) {o : Owner} (ho : s.blk o ≠ 0) : ρ (s.blk o) = ownerRole o := by
  cases o with
  | inode f =>
    simp only [Sfs.blk, h.inos] at ho ⊢
    split_ifs at ho ⊢ with hf
    · exact (hinv.inos f).mp hf
    · exact absurd rfl ho
  | indirect f =>
    simp only [Sfs.blk, h.inos] at ho ⊢
    split_ifs at ho ⊢ with hf
    · rw [h.indirect hinv hf] at ho ⊢
      rcases Nat.lt_or_ge 12 (m.inode f).appended.length with hgt | hle
      · exact ((hinv.files f hf).ind hgt).1
      · exact absurd ((hinv.files f hf).ind_zero hle) ho
    · exact absurd rfl ho
  | data f k =>
    simp only [Sfs.blk, h.inos] at ho ⊢
    split_ifs at ho ⊢ with hf
    · rw [h.slot hinv hf] at ho ⊢
      split_ifs at ho ⊢
      · rcases Nat.lt_or_ge k (m.inode f).appended.length with hlt | hge
        · exact (hinv.files f hf).data k hlt
        · exact absurd (List.getD_eq_default _ _ hge) ho
      · exact absurd rfl ho
    · exact absurd rfl ho

/-- **The mounted image is consistent.** -/
theorem consistent (h : ImageOf m s) (hinv : MkInv ρ m) : s.Consistent := by
  have hrole : ∀ o, s.blk o ≠ 0 → ρ (s.blk o) ≠ .free := by
    intro o ho
    rw [h.role_blk hinv ho]
    cases o <;> exact Role.noConfusion
  refine ⟨?_, ?_, fun o ho => ?_, fun o o' ho heq => ?_, fun f hf i hi => ?_⟩
  · rw [h.nbits, h.blocks]
    rfl
  · rw [h.unused, h.count]
  · have hlt := hinv.lt_next (hrole o ho)
    have hle := hinv.next_le
    refine ⟨by rw [h.blocks]; omega, ?_⟩
    rw [h.isFree]
    exact decide_eq_false (by omega)
  · have h₁ := h.role_blk hinv ho
    have h₂ := h.role_blk hinv (o := o') (by rw [← heq]; exact ho)
    rw [← heq, h₁] at h₂
    cases o <;> cases o' <;> simp only [ownerRole, reduceCtorEq, Role.ind.injEq, Role.data.injEq] at h₂
    · -- an inode is where its number says
      simp only [Sfs.blk] at ho heq
      split_ifs at ho heq
      · rw [heq]
      · exact absurd heq ho
      all_goals exact absurd rfl ho
    · rw [h₂]
    · rw [h₂.1, h₂.2]
  · rw [h.inos] at hf
    rw [h.blocks_eq hinv hf] at hi
    rw [h.slot hinv hf, List.getD_eq_default _ _ hi, ite_self]

theorem slot_ne_zero (h : ImageOf m s) (hinv : MkInv ρ m) (hf : f ∈ m.inos) {k : ℕ}
    (hk : k < (m.inode f).appended.length) (hlt : k < 1036) : s.slot f k ≠ 0 := by
  rw [h.slot hinv hf, if_pos hlt]
  refine hinv.pos ?_
  rw [(hinv.files f hf).data k hk]
  exact Role.noConfusion

/-- A directory of the program is one of the kernel. -/
theorem isDir (h : ImageOf m s) (hinv : MkInv ρ m) (hf : f ∈ m.inos) (hdir : (m.inode f).type = .dir) : s.IsDir f := by
  refine ⟨by rw [h.inos]; exact hf, by rw [h.type hinv hf]; exact hdir, fun i hi hlt => ?_⟩
  rw [h.blocks_eq hinv hf] at hi
  exact h.slot_ne_zero hinv hf hi hlt

/-- **The kernel's map of a block** that was appended. -/
theorem load_run (h : ImageOf m s) (hinv : MkInv ρ m) (hf : f ∈ m.inos) {k : ℕ}
    (hk : k < (m.inode f).appended.length) : (sfsBmapLoadNolock f k).run s =
      if k < 1036 then .ok ((m.inode f).appended.getD k 0) s else .panic .getRange := by
  have hblocks := h.blocks_eq hinv hf
  by_cases hlt : k < 1036
  · rw [if_pos hlt, sfsBmapLoadNolock_found (h.consistent hinv) (by rw [h.inos]; exact hf) (by omega)
      (h.slot_ne_zero hinv hf hk hlt), h.slot hinv hf, if_pos hlt]
  · rw [if_neg hlt, sfsBmapLoadNolock_range (by omega) (by omega)]

/-- **The entry that the kernel reads** at a slot of a directory. -/
theorem dirent (h : ImageOf m s) (hinv : MkInv ρ m) (hdirs : MkDirs m) (hf : f ∈ m.inos)
    (hdir : (m.inode f).type = .dir) {k : ℕ} (hk : k < 1036) {e : ℕ × CString}
    (he : (m.inode f).entries[k]? = some e) : s.dirent f k = ⟨e.1, e.2.cut 252⟩ := by
  have hlt : k < (m.inode f).appended.length := by
    rw [← hdirs.length f hf hdir]
    exact (List.getElem?_eq_some_iff.mp he).1
  rw [Sfs.dirent, h.slot hinv hf, if_pos hk, h.disk, hinv.image_data ((hinv.files f hf).data k hlt)]
  exact hdirs.entry f hf hdir k e he

end ImageOf

end mounted

end Ucore.Tools
