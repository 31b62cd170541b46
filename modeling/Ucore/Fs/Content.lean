import Ucore.Fs.FileRuns
import Ucore.Lib.Tabulate

/-!
# Files as byte lists

A regular file is a list of bytes: writing splices into it, reading copies from it, seeking past its
end pads it with zeros, and opening it with `O_TRUNC` empties it. `Ref` is this model of a file behind
one descriptor, and `run_refines_byte_list` says that the system calls on the file system behave like
it, byte for byte, over every sequence of operations for which the free blocks suffice.

The blocks of a file are a function on positions (`Sfs.byteAt`), 0 where there is no block. In these
terms appending a block changes nothing, and a transfer is `overlay` or `tabulate`, whichever way it
falls into pieces.

The padding is not written when a file grows: a new block has been cleared, and behind the end of the
file its last block has zeros already (`Sfs.Padded`). `mksfs` makes images with such blocks and the
system calls keep them so; without them growing uncovers what the block held
(`seek_uncovers_slack`).
-/

namespace Ucore.Fs

open Ucore.Lib

variable {s s' s₁ : Sfs} {sin b : ℕ}

/-! ### The bytes of a transfer -/

theorem LoadOk.byteAt (h : s.Consistent) (hsin : sin ∈ s.inos) {index : ℕ}
    (hload : LoadOk s sin index b s') : s'.byteAt sin = s.byteAt sin := by
  rcases hload with ⟨-, -, -, rfl⟩ | ⟨-, -, happ⟩
  · rfl
  · exact happ.byteAt h hsin

theorem Sfs.byteAt_of_slot {k : ℕ} (hslot : s.slot sin (k / 4096) = b) (hb : b ≠ 0) :
    s.byteAt sin k = s.disk b (k % 4096) := by
  rw [Sfs.byteAt, hslot, if_neg hb]

/-- Reading inside the block at `pos / 4096`. -/
theorem Sfs.read_eq_tabulate {pos size : ℕ} (hslot : s.slot sin (pos / 4096) = b) (hb : b ≠ 0)
    (hin : pos % 4096 + size ≤ 4096) :
    (s.disk b).read (pos % 4096) size = tabulate (s.byteAt sin) pos size := by
  apply List.ext_getElem
  · rw [Block.read, List.length_map, List.length_range', length_tabulate]
  · intro i h₁ h₂
    rw [length_tabulate] at h₂
    rw [getElem_tabulate, Sfs.byteAt_of_slot (b := b) (by rw [← hslot]; congr 1; omega) hb]
    simp only [Block.read, List.getElem_map, List.getElem_range', Nat.one_mul]
    congr 1
    omega

/-- Writing inside the block at `pos / 4096`. -/
theorem Sfs.byteAt_writeBlock (h : s.Consistent) (hsin : sin ∈ s.inos) {pos : ℕ}
    {data : List UInt8} {blk : Block} (hslot : s.slot sin (pos / 4096) = b) (hb : b ≠ 0)
    (hin : pos % 4096 + data.length ≤ 4096)
    (hblk : ∀ k < 4096, blk k = (s.disk b).splice (pos % 4096) data k) :
    (s.writeBlock b blk).byteAt sin = overlay (s.byteAt sin) pos data := by
  have hslots : ∀ j, (s.writeBlock b blk).slot sin j = s.slot sin j := by
    intro j
    rw [← hslot] at hb ⊢
    exact Sfs.slot_writeBlock h hsin hb blk hsin j
  funext k
  by_cases hk : k / 4096 = pos / 4096
  · have hsame : s.slot sin (k / 4096) = b := by rw [hk, hslot]
    rw [Sfs.byteAt_of_slot ((hslots _).trans hsame) hb]
    simp only [Sfs.writeBlock, Function.update_self]
    rw [hblk _ (Nat.mod_lt _ (by omega)), Block.splice]
    split_ifs with hmem
    · have hlt : k - pos < data.length := by omega
      rw [overlay_of_mem (by omega) hlt, show k % 4096 - pos % 4096 = k - pos by omega,
        List.getD_eq_getElem _ _ hlt]
    · rw [overlay_of_not_mem (by omega), Sfs.byteAt_of_slot hsame hb]
  · rw [overlay_of_not_mem (by omega)]
    refine Sfs.byteAt_congr (hslots _) fun h0 => Function.update_of_ne (fun heq => hk ?_) _ _
    exact (h.slot_inj hsin hsin h0 (heq.trans hslot.symm)).2

/-- The bytes of a transfer that has come from `offset` to `pos`. -/
structure IoBytes (s₀ : Sfs) (sin : ℕ) (write : Bool) (buf : List UInt8) (offset pos : ℕ)
    (r : IoResult) (s : Sfs) : Prop where
  progress : Progress s₀ s sin
  alen : offset + r.alen = pos
  file : s.byteAt sin =
    if write then overlay (s₀.byteAt sin) offset (buf.take r.alen) else s₀.byteAt sin
  bytes : r.bytes = if write then [] else tabulate (s₀.byteAt sin) offset r.alen

/-- A load that has failed has not touched the bytes. -/
theorem Untouched.byteAt (hsin : sin ∈ s.inos) (h : Untouched s s') : s'.byteAt sin = s.byteAt sin := by
  funext k
  refine Sfs.byteAt_congr (h.slot sin hsin _) fun hslot => ?_
  rw [h.disk sin hsin _ hslot]

/-- **The bytes of a transfer**, whatever pieces it is made of, and wherever it has ended. -/
theorem ioTransfer_bytes (h : s.Consistent) (hsin : sin ∈ s.inos) {write : Bool} {buf : List UInt8}
    {offset endpos : ℕ} (hlt : offset < endpos) (hbuf : write = true → endpos ≤ offset + buf.length) :
    ((ioTransfer sin write buf offset endpos).run s).Post
      (fun r s' => r.ret = none ∧ IoBytes s sin write buf offset endpos r s' ∨
        r.ret ≠ none ∧ IoBytes s sin write buf offset (offset + r.alen) r s')
      (fun _ _ => False) fun _ => True := by
  refine ioTransfer_post (I := IoBytes s sin write buf offset)
    (F := fun r s' => IoBytes s sin write buf offset (offset + r.alen) r s') ?_ hlt
    ⟨.refl h sin, rfl, ?_, ?_⟩
  · intro pos size whole r s₁ hoff hpos hend hin _ hwhole hret hinv
    have hcons := hinv.progress.kept.consistent
    have hsin₁ : sin ∈ s₁.inos := by
      rw [hinv.progress.kept.inos]
      exact hsin
    refine (ioStep_post hcons hsin₁ (show pos % 4096 < 4096 ∧ pos % 4096 + size ≤ 4096 by omega)
      hwhole).mono ?_ (fun _ _ hF => hF) fun _ _ => trivial
    rintro r' s' (⟨b, s₂, blk, hload, rfl, rfl, hblk⟩ | ⟨e, ⟨-, -, -, -, hunt⟩, rfl⟩)
    swap
    · refine Or.inr ⟨Option.some_ne_none e, hinv.progress.trans (hunt.progress hsin₁), rfl, ?_, hinv.bytes⟩
      exact (hunt.byteAt hsin₁).trans hinv.file
    left
    obtain ⟨hprog, hslot, hb, -, -⟩ := LoadOk.spec hcons hsin₁ hload
    have hbytes := LoadOk.byteAt hcons hsin₁ hload
    have halen := hinv.alen
    have hfile := hinv.file
    cases write with
    | false =>
      have hread := Sfs.read_eq_tabulate hslot hb hin
      simp only [Bool.false_eq_true, if_false] at hfile ⊢
      refine ⟨hret, hinv.progress.trans hprog, by rw [← halen]; exact (Nat.add_assoc _ _ _).symm,
        by rw [hbytes, hfile]; rfl, ?_⟩
      rw [hread, hbytes, hfile, hinv.bytes, ← halen]
      simp only [Bool.false_eq_true, if_false]
      exact tabulate_append
    | true =>
      have hlen := hbuf rfl
      have hdata : ((buf.drop r.alen).take size).length = size := by
        rw [List.length_take, List.length_drop]
        omega
      have htake : (buf.take r.alen).length = r.alen := by
        rw [List.length_take]
        omega
      have hsin₂ : sin ∈ s₂.inos := by
        rw [hprog.kept.inos]
        exact hsin₁
      have hw := Progress.writeBlock hprog.kept.consistent hsin₂ (i := pos / 4096)
        (by rwa [hslot]) blk
      rw [hslot] at hw
      simp only [if_true] at hfile ⊢
      refine ⟨hret, (hinv.progress.trans hprog).trans hw,
        by rw [← halen]; exact (Nat.add_assoc _ _ _).symm, ?_, ?_⟩
      · rw [if_pos rfl, Sfs.byteAt_writeBlock hprog.kept.consistent hsin₂ hslot hb
          (by rw [hdata]; exact hin) (hblk hdata), hbytes, hfile, List.take_add, ← overlay_append,
          htake, halen]
      · simp only [hinv.bytes, if_true, List.append_nil]
  · cases write <;> simp
  · cases write <;> simp

/-! ### Files in good order -/

/-- A regular file of a consistent image that has exactly the blocks for its size, all of them, and
an image whose free blocks are blocks of the image. -/
structure Sfs.Whole (s : Sfs) (ino : ℕ) : Prop where
  consistent : s.Consistent
  isFile : s.IsFile ino
  free : ¬ s.BadFree
  full : s.Full ino
  agree : (s.inode ino).blocks = ((s.inode ino).size + 4095) / 4096

/-- Behind the end of the file there are zeros. -/
def Sfs.Padded (s : Sfs) (ino : ℕ) : Prop := ∀ k, (s.inode ino).size ≤ k → s.byteAt ino k = 0

/-- The bytes of a file, as a list. -/
def Sfs.content (s : Sfs) (ino : ℕ) : List UInt8 := tabulate (s.byteAt ino) 0 (s.inode ino).size

@[simp] theorem Sfs.length_content (s : Sfs) (ino : ℕ) :
    (s.content ino).length = (s.inode ino).size := length_tabulate

theorem Kept.content (h : Kept s s' sin) {ino : ℕ} (hino : ino ∈ s.inos) (hne : ino ≠ sin) :
    s'.content ino = s.content ino := by
  rw [Sfs.content, Sfs.content, h.byteAt hino hne, h.other ino hne]

theorem Sfs.Whole.size_le (h : s.Whole sin) : (s.inode sin).size ≤ 4096 * 1036 := by
  have := h.full.blocks_le
  have := h.agree
  omega

theorem Sfs.Whole.of_kept (h : s.Whole sin) (hkept : Kept s s' sin) (hfull : s'.Full sin)
    (hagree : (s'.inode sin).blocks = ((s'.inode sin).size + 4095) / 4096) : s'.Whole sin :=
  ⟨hkept.consistent, hkept.isFile h.isFile, fun hbad => h.free (hkept.badFree hbad), hfull, hagree⟩

/-- A file in good order stops no transfer inside the range of the block map. -/
theorem IoPanic.false_of_whole {offset endpos : ℕ} {p : SfsPanic} (h : s.Whole sin)
    (hoff : offset ≤ (s.inode sin).size) (hend : endpos ≤ 4096 * 1036)
    (hp : IoPanic s sin offset endpos p) : False := by
  have hagree := h.agree
  obtain ⟨pos, r, s₁, hinv, hle, hlt, hload⟩ := hp
  rcases hload with ⟨rfl, hidx⟩ | ⟨-, -, hge⟩ | ⟨-, ⟨hidx, hslot⟩ | hbad⟩
  · have : (s.inode sin).blocks < offset / 4096 :=
      IoPanic.of_loadIndex ⟨pos, r, s₁, hinv, hle, hlt, Or.inl ⟨rfl, hidx⟩⟩
    omega
  · omega
  · exact hinv.progress.full h.full _ hidx hslot
  · exact h.free (hinv.progress.kept.badFree hbad)

/-- A transfer for which the free blocks suffice does not end early. -/
theorem IoShort.count_lt {offset endpos : ℕ} {r : IoResult} (h : IoShort s sin offset endpos r s') :
    s.freemap.count < s.needTo sin ((endpos + 4095) / 4096) := by
  have hnext := h.next
  have hlt := h.short
  have hblocks : (s'.inode sin).blocks < (endpos + 4095) / 4096 := by omega
  have hcount := h.inv.progress.count _ hblocks.le
  have hneed := Sfs.need_le_needTo hblocks
  have := h.count
  omega

/-- What a transfer of `n` bytes at `offset` has done to a file in good order. -/
structure Moved (s s' : Sfs) (sin : ℕ) (write : Bool) (buf : List UInt8) (offset n : ℕ) : Prop where
  whole : s'.Whole sin
  kept : Kept s s' sin
  size : (s'.inode sin).size = max (s.inode sin).size (offset + n)
  file : s'.byteAt sin =
    if write then overlay (s.byteAt sin) offset (buf.take n) else s.byteAt sin
  /-- The free blocks that were needed have been used. -/
  count : ∀ t, (s'.inode sin).blocks ≤ t →
    s'.freemap.count + s.needTo sin t = s.freemap.count + s'.needTo sin t

theorem Moved.refl (h : s.Whole sin) {write : Bool} {buf : List UInt8} {offset : ℕ}
    (hoff : offset ≤ (s.inode sin).size) : Moved s s sin write buf offset 0 := by
  refine ⟨h, .refl h.consistent sin, (max_eq_left hoff).symm, ?_, fun _ _ => rfl⟩
  cases write <;> simp

section io

variable {buf : List UInt8} {offset alen : ℕ} {write : Bool}

theorem Sfs.raiseSize_byteAt (s : Sfs) (sin endpos : ℕ) :
    (s.raiseSize sin endpos).byteAt sin = s.byteAt sin := by
  have hdisk : (s.raiseSize sin endpos).disk = s.disk := by
    unfold Sfs.raiseSize
    split_ifs <;> rfl
  funext k
  exact Sfs.byteAt_congr (Sfs.raiseSize_slot s sin endpos sin _) fun _ => by rw [hdisk]

theorem Sfs.raiseSize_needTo (s : Sfs) (sin endpos t : ℕ) :
    (s.raiseSize sin endpos).needTo sin t = s.needTo sin t ∧
      (s.raiseSize sin endpos).freemap = s.freemap := by
  unfold Sfs.raiseSize
  split_ifs
  · exact ⟨by rw [Sfs.needTo, Sfs.needTo, Sfs.setInode_same], rfl⟩
  · exact ⟨rfl, rfl⟩

/-- The end of a transfer that has come to `offset + n`. -/
theorem Moved.of_transfer (h : s.Whole sin) {n : ℕ} {r : IoResult} (hn : 0 < n)
    (hinv : IoInv s sin offset (offset + n) (offset + n) r s₁)
    (hbytes : IoBytes s sin write buf offset (offset + n) r s₁) :
    Moved s (s₁.raiseSize sin (offset + n)) sin write buf offset n := by
  have halen : r.alen = n := by
    have := hinv.alen
    omega
  have hsize := hinv.sizeAgree (by omega) h.agree
  have hkept := hinv.progress.kept.trans
    (.raiseSize hinv.progress.kept.consistent sin (offset + n))
  rw [halen] at hsize
  refine ⟨h.of_kept hkept (fun i hi => ?_) hsize, hkept, ?_, ?_, fun t ht => ?_⟩
  · rw [Sfs.raiseSize_blocks] at hi
    rw [Sfs.raiseSize_slot]
    exact hinv.progress.full h.full i hi
  · rw [Sfs.raiseSize_size, hinv.progress.size]
  · rw [Sfs.raiseSize_byteAt, hbytes.file, halen]
  · obtain ⟨hneed, hmap⟩ := Sfs.raiseSize_needTo s₁ sin (offset + n) t
    rw [Sfs.raiseSize_blocks] at ht
    rw [hneed, hmap]
    exact hinv.progress.count t ht

/-- A transfer that has its blocks comes to its end. -/
theorem ioTransfer_whole (h : s.Whole sin) {endpos : ℕ} (hoff : offset ≤ (s.inode sin).size)
    (hlt : offset < endpos) (hend : endpos ≤ 4096 * 1036)
    (hfits : s.needTo sin ((endpos + 4095) / 4096) ≤ s.freemap.count)
    (hbuf : write = true → endpos ≤ offset + buf.length) :
    ∃ r s₁, (ioTransfer sin write buf offset endpos).run s = .ok r s₁ ∧ r.ret = none ∧
      IoInv s sin offset endpos endpos r s₁ ∧ IoBytes s sin write buf offset endpos r s₁ := by
  refine Outcome.Post.exists_ok (((ioTransfer_inv h.consistent h.isFile.1 hlt).and
    (ioTransfer_bytes h.consistent h.isFile.1 hlt hbuf)).mono ?_ (fun _ _ hF => hF.1)
    fun _ hp => hp.1.false_of_whole h hoff hend)
  rintro r s₁ ⟨⟨hret, hinv⟩ | ⟨-, hshort⟩, hr⟩
  · rcases hr with ⟨-, hbytes⟩ | ⟨hne, -⟩
    · exact ⟨hret, hinv, hbytes⟩
    · exact absurd hret hne
  · exact absurd hshort.count_lt (not_lt.mpr hfits)

/-- The number of bytes that a transfer moves: as many as it is asked to, or as the file has. -/
def moveLen (s : Sfs) (sin offset alen : ℕ) (write : Bool) : ℕ :=
  if write then alen else min alen ((s.inode sin).size - offset)

/-- **`sfs_io_nolock` on a file in good order.** -/
theorem sfsIoNolock_whole (h : s.Whole sin) (hoff : offset ≤ (s.inode sin).size)
    (hlen : offset + alen < 2 ^ 31) (hbuf : write = true → buf.length = alen)
    (hend : write = true → offset + alen ≤ 4096 * 1036 ∧
      s.needTo sin ((offset + alen + 4095) / 4096) ≤ s.freemap.count) :
    ∃ s', (sfsIoNolock sin buf offset alen write).run s =
        .ok ⟨none, moveLen s sin offset alen write,
          if write then [] else tabulate (s.byteAt sin) offset (moveLen s sin offset alen write)⟩ s' ∧
      Moved s s' sin write buf offset (moveLen s sin offset alen write) := by
  have hmax : sfsMaxFileSize = 134217728 := rfl
  have hsize := h.size_le
  have htoOff : toOff ((offset : ℤ) + alen) = ((offset + alen : ℕ) : ℤ) := by
    rw [toOff_of_lt (by omega) (by omega)]
    omega
  by_cases hn : moveLen s sin offset alen write = 0
  · refine ⟨s, ?_, hn ▸ .refl h hoff⟩
    rw [hn, tabulate_zero, ite_self]
    refine sfsIoNolock_nothing h.isFile.not_dir ⟨by omega, by omega, by rw [htoOff]; omega⟩ ?_
    rw [htoOff, Int.toNat_natCast]
    cases write with
    | true =>
      simp only [moveLen, if_true] at hn
      exact Or.inl (by omega)
    | false =>
      simp only [moveLen, Bool.false_eq_true, if_false] at hn
      by_cases h0 : alen = 0
      · exact Or.inl (by omega)
      · exact Or.inr ⟨rfl, by omega⟩
  · have hcases : offset + moveLen s sin offset alen write ≤ 4096 * 1036 ∧
        s.needTo sin ((offset + moveLen s sin offset alen write + 4095) / 4096) ≤ s.freemap.count ∧
        ioEndpos (s.inode sin).size offset alen write =
          offset + moveLen s sin offset alen write ∧
        (write = true ∨ offset < (s.inode sin).size) := by
      unfold ioEndpos moveLen
      rw [htoOff, Int.toNat_natCast]
      unfold moveLen at hn
      cases write with
      | true =>
        simp only [if_true]
        obtain ⟨hle, hfits⟩ := hend rfl
        exact ⟨hle, hfits, by omega, Or.inl trivial⟩
      | false =>
        simp only [Bool.false_eq_true, if_false] at hn ⊢
        have hagree := h.agree
        refine ⟨by omega, ?_, by omega, Or.inr (by omega)⟩
        rw [Sfs.needTo_of_le (by omega)]
        exact Nat.zero_le _
    obtain ⟨hle, hfits, hendpos, hor⟩ := hcases
    have hpos : 0 < alen := by
      unfold moveLen at hn
      cases write <;> simp at hn <;> omega
    have hacc : IoAccepted (s.inode sin).size offset alen write := by
      refine ⟨by omega, by omega, by rw [htoOff]; omega, ?_⟩
      rwa [Int.toNat_natCast]
    have hlong : write = true →
        offset + moveLen s sin offset alen write ≤ offset + buf.length := by
      rintro rfl
      rw [hbuf rfl]
      exact le_rfl
    obtain ⟨r, s₁, hrun, hret, hinv, hbytes⟩ := ioTransfer_whole h hoff
      (show offset < offset + moveLen s sin offset alen write by omega) hle hfits hlong
    have halen : r.alen = moveLen s sin offset alen write := by
      have := hinv.alen
      omega
    refine ⟨_, ?_, Moved.of_transfer h (by omega) hinv hbytes⟩
    rw [sfsIoNolock_of_accepted h.isFile.not_dir hacc, hendpos, Int.toNat_natCast,
      Prog.bind_of_ok hrun, ← halen, ← hbytes.bytes]
    simp only [Prog.run_bind, Prog.run_modify, Outcome.andThen_ok, Prog.run_pure, ← hret]

end io

/-! ### Transfers in pieces -/

theorem Sfs.needTo_mono {t t' : ℕ} (h : t ≤ t') : s.needTo sin t ≤ s.needTo sin t' := by
  unfold Sfs.needTo
  split_ifs <;> omega

/-- A transfer sees no more of the buffer than it moves. -/
theorem Moved.congr {write : Bool} {buf buf' : List UInt8} {offset n : ℕ}
    (h : Moved s s' sin write buf' offset n) (hbuf : buf'.take n = buf.take n) :
    Moved s s' sin write buf offset n :=
  ⟨h.whole, h.kept, h.size, hbuf ▸ h.file, h.count⟩

theorem Moved.trans {s₂ : Sfs} {write : Bool} {buf : List UInt8} {offset n m : ℕ}
    (h : Moved s s₁ sin write buf offset n) (h' : Moved s₁ s₂ sin write (buf.drop n) (offset + n) m)
    (hn : write = true → n ≤ buf.length) : Moved s s₂ sin write buf offset (n + m) := by
  have hsize := h.size
  have hsize' := h'.size
  refine ⟨h'.whole, h.kept.trans h'.kept, by omega, ?_, fun t ht => ?_⟩
  · cases write with
    | false => exact h'.file.trans h.file
    | true =>
      have hlen : (buf.take n).length = n := by
        rw [List.length_take]
        exact min_eq_left (hn rfl)
      rw [h'.file, h.file]
      simp only [if_true]
      rw [List.take_add, ← overlay_append, hlen]
  · have hagree := h.whole.agree
    have hagree' := h'.whole.agree
    have hcount := h.count t (by omega)
    have hcount' := h'.count t ht
    omega

/-- What is left of a write still has its free blocks after a piece of it. -/
theorem Moved.fits {write : Bool} {buf : List UInt8} {offset n t : ℕ}
    (h : Moved s s' sin write buf offset n) (hfits : s.needTo sin t ≤ s.freemap.count) :
    s'.needTo sin t ≤ s'.freemap.count := by
  by_cases ht : (s'.inode sin).blocks ≤ t
  · have := h.count t ht
    omega
  · rw [Sfs.needTo_of_le (by omega)]
    exact Nat.zero_le _

/-! ### The file layer -/

section descriptor

variable {w : FileSys} {pid ino : ℕ} {fd : ℤ} {p : ℕ}

/-- The descriptor is open for reading and writing at the position `p` of the file `ino`. -/
def FileSys.At (w : FileSys) (pid : ℕ) (fd : ℤ) (ino p : ℕ) : Prop :=
  w.file pid fd = some ⟨true, true, p, ino⟩

theorem onSfs_run {α : Type} {m : SfsProg α} {a : α} {s' : Sfs} (h : m.run w.sfs = .ok a s') :
    (onSfs m).run w = .ok a ⟨s', w.fdArray⟩ := by
  simp only [onSfs, Prog.zoom, h]

theorem FileSys.At.setFd (h : w.At pid fd ino p) (s' : Sfs) (f : File) :
    (FileSys.setFd ⟨s', w.fdArray⟩ pid fd.toNat (some f)).file pid fd = some f :=
  FileSys.file_setFd (w := ⟨s', w.fdArray⟩) (f := ⟨true, true, p, ino⟩) h (some f)

theorem sfsIo_run {base : List UInt8} {offset : ℤ} {resid : ℕ} {write : Bool} {r : IoResult}
    (h : (sfsIoNolock sin base offset resid write).run s = .ok r s') (hle : r.alen ≤ resid) :
    (sfsIo sin base offset resid write).run s = .ok r s' := by
  rw [sfsIo, Prog.bind_of_ok h]
  simp only [Prog.run_bind, Prog.run_ite, Prog.run_assert_of _ _ hle, Prog.run_pure, ite_self,
    Outcome.andThen_ok]

theorem fileIo_whole (hat : w.At pid fd ino p) (h : w.sfs.Whole ino)
    (hp : p ≤ (w.sfs.inode ino).size) (buf : List UInt8) (len : ℕ) (write : Bool) (hlen : len ≤ 4096)
    (hbuf : write = true → buf.length = len)
    (hend : write = true → p + len ≤ 4096 * 1036 ∧
      w.sfs.needTo ino ((p + len + 4095) / 4096) ≤ w.sfs.freemap.count) :
    ∃ w', (fileIo pid fd ⟨true, true, p, ino⟩ buf len write).run w =
        .ok ⟨none, moveLen w.sfs ino p len write, if write then []
          else tabulate (w.sfs.byteAt ino) p (moveLen w.sfs ino p len write)⟩ w' ∧
      w'.At pid fd ino (p + moveLen w.sfs ino p len write) ∧
      Moved w.sfs w'.sfs ino write buf p (moveLen w.sfs ino p len write) := by
  have hsize := h.size_le
  obtain ⟨s', hrun, hmoved⟩ := sfsIoNolock_whole h hp (by omega) hbuf hend
  have hle : moveLen w.sfs ino p len write ≤ len := by
    unfold moveLen
    split_ifs <;> omega
  refine ⟨_, ?_, hat.setFd s' _, hmoved⟩
  rw [fileIo, Prog.bind_of_ok (onSfs_run (sfsIo_run hrun hle))]
  simp only [Prog.run_bind, Prog.run_modify, Outcome.andThen_ok, Prog.run_pure]
  rw [toOff_of_lt (by omega) (by omega), Nat.cast_add]

theorem ioAttempt_run {m : FileProg IoResult} {r : IoResult} {w' : FileSys}
    (h : m.run w = .ok r w') : (ioAttempt m).run w = .ok r w' := by
  simp only [ioAttempt, Prog.run_bind, Prog.attempt, h, Outcome.andThen_ok, Prog.run_pure]

/-- User memory and a kernel buffer are there. -/
def UserMem.Available (u : UserMem) : Prop := u.kmalloc = true ∧ ∀ k n, u.copy k n = true

theorem sysfileWriteLoop_whole {u : UserMem} (hu : u.Available) {fuel : ℕ} (copied : ℕ)
    {buf : List UInt8} (hfuel : buf.length ≤ fuel) (hat : w.At pid fd ino p)
    (h : w.sfs.Whole ino) (hp : p ≤ (w.sfs.inode ino).size) (hend : p + buf.length ≤ 4096 * 1036)
    (hfits : w.sfs.needTo ino ((p + buf.length + 4095) / 4096) ≤ w.sfs.freemap.count) :
    ∃ w', (sysfileWriteLoop pid fd u fuel buf ⟨copied, []⟩).run w =
        .ok ⟨copied + buf.length, []⟩ w' ∧
      w'.At pid fd ino (p + buf.length) ∧ Moved w.sfs w'.sfs ino true buf p buf.length := by
  induction fuel generalizing w buf p copied with
  | zero =>
    obtain rfl : buf = [] := List.length_eq_zero_iff.mp (by omega)
    exact ⟨w, rfl, hat, .refl h hp⟩
  | succ fuel ih =>
    rw [sysfileWriteLoop]
    by_cases hnil : buf.length = 0
    · obtain rfl : buf = [] := List.length_eq_zero_iff.mp hnil
      exact ⟨w, rfl, hat, .refl h hp⟩
    rw [if_neg hnil, if_pos (hu.2 _ _)]
    set n := min 4096 buf.length with hn
    have hdiv : (p + n + 4095) / 4096 ≤ (p + buf.length + 4095) / 4096 := by omega
    obtain ⟨w₁, hio, hat₁, hmoved₁⟩ := fileIo_whole hat h hp (buf.take 4096) n true (by omega) (fun _ => by rw [List.length_take])
      fun _ => ⟨by omega, (Sfs.needTo_mono hdiv).trans hfits⟩
    simp only [moveLen, if_true] at hio hat₁ hmoved₁
    have hw : (ioAttempt (fileWrite pid fd (buf.take 4096) n)).run w = .ok ⟨none, n, []⟩ w₁ := by
      refine ioAttempt_run ?_
      rw [fileWrite, Prog.bind_of_ok (fd2file_run hat)]
      exact hio
    have hmoved₁ : Moved w.sfs w₁.sfs ino true buf p n :=
      hmoved₁.congr (by rw [List.take_take]; congr 1; omega)
    have hrest : (buf.drop n).length = buf.length - n := List.length_drop
    have hsum : p + n + (buf.drop n).length = p + buf.length := by omega
    obtain ⟨w₂, hrun, hat₂, hmoved₂⟩ := ih (copied + n) (show (buf.drop n).length ≤ fuel by omega) hat₁
      hmoved₁.whole (by rw [hmoved₁.size]; omega) (by omega)
      (by rw [hsum]; exact hmoved₁.fits hfits)
    refine ⟨w₂, ?_, by rwa [hsum] at hat₂, ?_⟩
    · have hpass : (assertLen n buf.length).run w₁ = .ok () w₁ := by
        have hle : n ≤ buf.length := by omega
        rw [assertLen, Prog.run_ite, Prog.run_assert_of _ _ hle, Prog.run_pure, ite_self]
      rw [Prog.bind_of_ok hw, Prog.bind_of_ok hpass]
      simp only [if_neg (show ¬ n = 0 by omega)]
      rw [hrun]
      congr 2
      omega
    · have := hmoved₁.trans hmoved₂ fun _ => by omega
      rwa [show n + (buf.drop n).length = buf.length by omega] at this

theorem sysfileReadLoop_whole {u : UserMem} (hu : u.Available) {fuel len : ℕ} {r : SysResult}
    (hfuel : len ≤ fuel) (hat : w.At pid fd ino p) (h : w.sfs.Whole ino)
    (hp : p ≤ (w.sfs.inode ino).size) :
    ∃ w', (sysfileReadLoop pid fd u fuel len r).run w =
        .ok ⟨r.copied + moveLen w.sfs ino p len false,
          r.bytes ++ tabulate (w.sfs.byteAt ino) p (moveLen w.sfs ino p len false)⟩ w' ∧
      w'.At pid fd ino (p + moveLen w.sfs ino p len false) ∧
      Moved w.sfs w'.sfs ino false [] p (moveLen w.sfs ino p len false) := by
  induction fuel generalizing w len p r with
  | zero =>
    obtain rfl : len = 0 := by omega
    have hzero : moveLen w.sfs ino p 0 false = 0 := by simp [moveLen]
    rw [hzero]
    exact ⟨w, by simp [sysfileReadLoop, sysfileOut], hat, .refl h hp⟩
  | succ fuel ih =>
    rw [sysfileReadLoop]
    by_cases hlen : len = 0
    · have hzero : moveLen w.sfs ino p len false = 0 := by simp [moveLen, hlen]
      rw [hzero, if_pos hlen]
      exact ⟨w, by simp [sysfileOut], hat, .refl h hp⟩
    rw [if_neg hlen]
    obtain ⟨w₁, hio, hat₁, hmoved₁⟩ := fileIo_whole hat h hp [] (min 4096 len) false (by omega) Bool.noConfusion Bool.noConfusion
    set n := moveLen w.sfs ino p (min 4096 len) false with hn
    have hr : (ioAttempt (fileRead pid fd (min 4096 len))).run w =
        .ok ⟨none, n, tabulate (w.sfs.byteAt ino) p n⟩ w₁ := by
      refine ioAttempt_run ?_
      rw [fileRead, Prog.bind_of_ok (fd2file_run hat)]
      exact hio
    rw [Prog.bind_of_ok hr]
    have hn' : n = min (min 4096 len) ((w.sfs.inode ino).size - p) := by
      simp only [hn, moveLen, Bool.false_eq_true, if_false]
    by_cases hzero : n = 0
    · -- the end of the file
      have hdone : moveLen w.sfs ino p len false = 0 := by
        simp only [moveLen, Bool.false_eq_true, if_false]
        omega
      rw [hdone]
      rw [hzero] at hat₁ hmoved₁
      exact ⟨w₁, by simp [hzero, sysfileOut], hat₁, hmoved₁⟩
    · have hsize₁ : (w₁.sfs.inode ino).size = (w.sfs.inode ino).size := by
        rw [hmoved₁.size]
        omega
      have hfile₁ : w₁.sfs.byteAt ino = w.sfs.byteAt ino := hmoved₁.file
      have hle : n ≤ len := by omega
      obtain ⟨w₂, hrun, hat₂, hmoved₂⟩ := ih
        (r := ⟨r.copied + n, r.bytes ++ tabulate (w.sfs.byteAt ino) p n⟩) (show len - n ≤ fuel by omega) hat₁
        hmoved₁.whole (by omega)
      have hsum : n + moveLen w₁.sfs ino (p + n) (len - n) false = moveLen w.sfs ino p len false := by
        simp only [moveLen, Bool.false_eq_true, if_false, hsize₁]
        omega
      refine ⟨w₂, ?_, by rwa [Nat.add_assoc, hsum] at hat₂, ?_⟩
      · simp only [if_neg hzero, hu.2, if_true, Prog.run_bind, Prog.run_assert_of _ _ hle,
          Outcome.andThen_ok]
        rw [hrun, hfile₁, ← hsum]
        simp only [Nat.add_assoc, List.append_assoc, tabulate_append]
      · have := hmoved₁.trans (hmoved₂.congr (by rw [List.drop_nil])) Bool.noConfusion
        rwa [hsum] at this

theorem fileTestfd_at (hat : w.At pid fd ino p) (readable writable : Bool) :
    (fileTestfd pid fd readable writable).run w = .ok true w := by
  have hfile : w.file pid fd = some ⟨true, true, p, ino⟩ := hat
  simp only [fileTestfd, Prog.run_bind, Prog.run_get, Outcome.andThen_ok, hfile, Prog.run_pure,
    Bool.or_true, Bool.and_true]

/-- **A write through a descriptor** moves all of its bytes. -/
theorem sysfileWrite_whole {u : UserMem} (hu : u.Available) {buf : List UInt8}
    (hat : w.At pid fd ino p) (h : w.sfs.Whole ino) (hp : p ≤ (w.sfs.inode ino).size)
    (hend : p + buf.length ≤ 4096 * 1036)
    (hfits : w.sfs.needTo ino ((p + buf.length + 4095) / 4096) ≤ w.sfs.freemap.count) :
    ∃ w', (sysfileWrite pid fd buf u).run w = .ok ⟨buf.length, []⟩ w' ∧
      w'.At pid fd ino (p + buf.length) ∧ Moved w.sfs w'.sfs ino true buf p buf.length := by
  rw [sysfileWrite, Prog.run_ite]
  by_cases hnil : buf.length = 0
  · rw [if_pos hnil, hnil]
    exact ⟨w, rfl, hat, .refl h hp⟩
  · rw [if_neg hnil, Prog.bind_of_ok (fileTestfd_at hat _ _)]
    obtain ⟨w', hrun, hat', hmoved⟩ := sysfileWriteLoop_whole hu 0 le_rfl hat h hp hend hfits
    rw [Nat.zero_add] at hrun
    refine ⟨w', ?_, hat', hmoved⟩
    simp only [Bool.true_eq_false, if_false, hu.1, hrun]

/-- **A read through a descriptor** moves the bytes that are there. -/
theorem sysfileRead_whole {u : UserMem} (hu : u.Available) (len : ℕ) (hat : w.At pid fd ino p)
    (h : w.sfs.Whole ino) (hp : p ≤ (w.sfs.inode ino).size) :
    ∃ w', (sysfileRead pid fd len u).run w = .ok ⟨moveLen w.sfs ino p len false,
        tabulate (w.sfs.byteAt ino) p (moveLen w.sfs ino p len false)⟩ w' ∧
      w'.At pid fd ino (p + moveLen w.sfs ino p len false) ∧
      Moved w.sfs w'.sfs ino false [] p (moveLen w.sfs ino p len false) := by
  rw [sysfileRead, Prog.run_ite]
  by_cases hlen : len = 0
  · have hzero : moveLen w.sfs ino p len false = 0 := by simp [moveLen, hlen]
    rw [if_pos hlen, hzero]
    exact ⟨w, rfl, hat, .refl h hp⟩
  · rw [if_neg hlen, Prog.bind_of_ok (fileTestfd_at hat _ _)]
    obtain ⟨w', hrun, hat', hmoved⟩ := sysfileReadLoop_whole hu (r := ⟨0, []⟩) le_rfl hat h hp
    rw [Nat.zero_add, List.nil_append] at hrun
    refine ⟨w', ?_, hat', hmoved⟩
    simp only [Bool.true_eq_false, if_false, hu.1, hrun]

/-- What a change of size has done to a file in good order. -/
structure Fitted (s s' : Sfs) (sin len : ℕ) : Prop where
  whole : s'.Whole sin
  kept : Kept s s' sin
  size : (s'.inode sin).size = len
  file : ∀ k, s'.byteAt sin k = if k < 4096 * ((len + 4095) / 4096) then s.byteAt sin k else 0

theorem sfsTruncfile_whole (h : s.Whole sin) (len : ℕ) (hlen : len ≤ 1036 * 4096)
    (hfits : s.needTo sin ((len + 4095) / 4096) ≤ s.freemap.count) :
    ∃ s', (sfsTruncfile sin len).run s = .ok () s' ∧ Fitted s s' sin len := by
  obtain ⟨s', hrun, hres⟩ := sfsTruncfile_ok h.consistent h.isFile.1 h.free h.agree hlen hfits
  exact ⟨s', hrun, h.of_kept hres.kept (hres.full h.full) (by rw [hres.blocks, hres.size]), hres.kept,
    hres.size, hres.bytes⟩

/-- **A seek through a descriptor**: the file has at least `pos` bytes then, and the bytes of its
blocks are the same. -/
theorem fileSeek_whole (hat : w.At pid fd ino p) (h : w.sfs.Whole ino) (pos : ℕ)
    (hpos : pos ≤ 1036 * 4096)
    (hfits : w.sfs.needTo ino ((pos + 4095) / 4096) ≤ w.sfs.freemap.count) :
    ∃ w', (fileSeek pid fd pos .set).run w = .ok () w' ∧ w'.At pid fd ino pos ∧
      w'.sfs.Whole ino ∧ Kept w.sfs w'.sfs ino ∧
      (w'.sfs.inode ino).size = max (w.sfs.inode ino).size pos ∧
      w'.sfs.byteAt ino = w.sfs.byteAt ino := by
  have htry : ∃ s', (sfsTryseek ino pos).run w.sfs = .ok () s' ∧ s'.Whole ino ∧ Kept w.sfs s' ino ∧
      (s'.inode ino).size = max (w.sfs.inode ino).size pos ∧ s'.byteAt ino = w.sfs.byteAt ino := by
    have hrange : ¬ ((pos : ℤ) < 0 ∨ (pos : ℤ) ≥ sfsMaxFileSize) := by
      have : sfsMaxFileSize = 134217728 := rfl
      omega
    rw [sfsTryseek, if_neg hrange]
    simp only [Prog.run_bind, Prog.run_get, Outcome.andThen_ok, Prog.run_ite, Int.toNat_natCast]
    by_cases hgrow : (w.sfs.inode ino).size < pos
    · obtain ⟨s', hrun, hfit⟩ := sfsTruncfile_whole h _ hpos hfits
      refine ⟨s', by rw [if_pos hgrow, hrun], hfit.whole, hfit.kept, by rw [hfit.size]; omega, ?_⟩
      funext k
      rw [hfit.file]
      split_ifs with hk
      · rfl
      · have hagree := h.agree
        exact (h.consistent.byteAt_tail h.isFile.1 (by omega)).symm
    · exact ⟨w.sfs, by rw [if_neg hgrow, Prog.run_pure], h, .refl h.consistent ino, by omega, rfl⟩
  obtain ⟨s', hrun, hwhole, hkept, hsize, hfile⟩ := htry
  refine ⟨FileSys.setFd ⟨s', w.fdArray⟩ pid fd.toNat (some ⟨true, true, pos, ino⟩), ?_,
    hat.setFd s' _, hwhole, hkept, hsize, hfile⟩
  rw [fileSeek, Prog.bind_of_ok (fd2file_run hat)]
  simp only [Prog.run_bind, Prog.run_get, Outcome.andThen_ok, onSfs_run hrun, Prog.run_modify]

/-- Flags that open a file for reading and writing and truncate it. -/
def TruncFlags (flags : BitVec 32) : Prop :=
  accmode flags = some (true, true) ∧ flags &&& oTrunc ≠ 0 ∧
    ¬ (flags &&& oExcl ≠ 0 ∧ flags &&& oCreat ≠ 0)

theorem fdArrayAlloc_whole {k : ℕ} (hk : k < filesStructNentry) (hfree : w.fdArray pid k = none) :
    ∃ fd, fd < filesStructNentry ∧ (fdArrayAlloc pid).run w = .ok fd w := by
  cases hfind : (List.range filesStructNentry).find? fun fd => (w.fdArray pid fd).isNone with
  | none =>
    rw [List.find?_eq_none] at hfind
    exact absurd (by rw [hfree]; rfl) (hfind k (List.mem_range.mpr hk))
  | some fd =>
    refine ⟨fd, List.mem_range.mp (List.mem_of_find?_eq_some hfind), ?_⟩
    simp only [fdArrayAlloc, Prog.run_bind, Prog.run_get, Outcome.andThen_ok, hfind, Prog.run_pure]

/-- **Opening with `O_TRUNC`**, when there is a descriptor: the file is empty then. -/
theorem fileOpen_whole {flags : BitVec 32} (hflags : TruncFlags flags) (h : w.sfs.Whole ino) {k : ℕ}
    (hk : k < filesStructNentry) (hfree : w.fdArray pid k = none) :
    ∃ (fd : ℕ) (w' : FileSys), (fileOpen pid ino flags).run w = .ok fd w' ∧ w'.At pid fd ino 0 ∧
      Fitted w.sfs w'.sfs ino 0 := by
  obtain ⟨hacc, htrunc, hexcl⟩ := hflags
  obtain ⟨fd, hfd, halloc⟩ := fdArrayAlloc_whole hk hfree
  obtain ⟨s', hrun, hfit⟩ := sfsTruncfile_whole h 0 (Nat.zero_le _)
    (by rw [Sfs.needTo_of_le (by omega)]; exact Nat.zero_le _)
  have hvfs : (vfsOpen ino flags).run w = .ok ino ⟨s', w.fdArray⟩ := by
    have hc : ¬ (flags &&& oTrunc ≠ 0 ∧ true = false) := fun hc => Bool.noConfusion hc.2
    rw [vfsOpen]
    simp only [hacc, if_neg hc, if_neg hexcl, if_pos (Or.inl htrunc), Prog.run_bind]
    rw [onSfs_run (show (sfsTruncfile ino 0).run w.sfs = .ok () s' from hrun)]
    rfl
  have hpos : (if flags &&& oAppend ≠ 0 then toOff (s'.inode ino).size else 0) = 0 := by
    rw [hfit.size]
    split_ifs <;> rfl
  refine ⟨fd, FileSys.setFd ⟨s', w.fdArray⟩ pid fd (some ⟨true, true, (0 : ℕ), ino⟩), ?_, ?_, hfit⟩
  · rw [fileOpen]
    simp only [hacc, Prog.run_bind, halloc, Outcome.andThen_ok, hvfs, Prog.run_modify, Prog.run_pure,
      hpos]
    rfl
  · have hrange : 0 ≤ (fd : ℤ) ∧ (fd : ℤ) < filesStructNentry := ⟨by omega, by omega⟩
    rw [FileSys.At, FileSys.file, if_pos hrange, Int.toNat_natCast, FileSys.setFd_same]

theorem fileClose_run (hat : w.At pid fd ino p) :
    (fileClose pid fd).run w = .ok () (w.setFd pid fd.toNat none) ∧ fd.toNat < filesStructNentry := by
  refine ⟨?_, ?_⟩
  · rw [fileClose, Prog.bind_of_ok (fd2file_run hat), Prog.run_modify]
  · unfold FileSys.At FileSys.file at hat
    split_ifs at hat with hrange
    omega

end descriptor

/-! ### The reference model -/

/-- A file behind a descriptor: its bytes and the position. -/
structure Ref where
  content : List UInt8
  pos : ℕ
  deriving Repr, DecidableEq

/-- An operation on the file behind a descriptor. -/
inductive FileOp where
  | write (buf : List UInt8)
  | read (len : ℕ)
  | seek (pos : ℕ)
  /-- The descriptor is closed and the file opened anew. -/
  | reopen (flags : BitVec 32)
  deriving Repr, DecidableEq

/-- What an operation does to a byte list, and what it returns. -/
def Ref.step (a : Ref) : FileOp → Ref × SysResult
  | .write buf => (⟨splice a.content a.pos buf, a.pos + buf.length⟩, ⟨buf.length, []⟩)
  | .read len =>
    let bytes := (a.content.drop a.pos).take len
    (⟨a.content, a.pos + bytes.length⟩, ⟨bytes.length, bytes⟩)
  | .seek pos => (⟨a.content ++ List.replicate (pos - a.content.length) 0, pos⟩, ⟨0, []⟩)
  | .reopen _ => (⟨[], 0⟩, ⟨0, []⟩)

/-- A sequence of operations, and what they return. -/
def Ref.run (a : Ref) : List FileOp → Ref × List SysResult
  | [] => (a, [])
  | op :: ops =>
    let (a₁, r) := a.step op
    let (a₂, rs) := a₁.run ops
    (a₂, r :: rs)

/-- The system calls of an operation on the file `ino`; the descriptor that is open afterwards and
what the calls return. -/
def FileOp.code (pid ino : ℕ) (u : UserMem) (fd : ℤ) : FileOp → FileProg (ℤ × SysResult)
  | .write buf => do
    let r ← sysfileWrite pid fd buf u
    pure (fd, r)
  | .read len => do
    let r ← sysfileRead pid fd len u
    pure (fd, r)
  | .seek pos => do
    fileSeek pid fd pos .set
    pure (fd, ⟨0, []⟩)
  | .reopen flags => do
    fileClose pid fd
    let fd' ← fileOpen pid ino flags
    pure ((fd' : ℤ), ⟨0, []⟩)

/-- A sequence of operations. -/
def runOps (pid ino : ℕ) (u : UserMem) : ℤ → List FileOp → FileProg (ℤ × List SysResult)
  | fd, [] => pure (fd, [])
  | fd, op :: ops => do
    let (fd₁, r) ← op.code pid ino u fd
    let (fd₂, rs) ← runOps pid ino u fd₁ ops
    pure (fd₂, r :: rs)

/-- The operation keeps the size in the range of the block map, and the free blocks suffice for it.
A file is opened anew with `O_RDWR | O_TRUNC`. -/
def OpFits (s : Sfs) (ino : ℕ) (a : Ref) : FileOp → Prop
  | .write buf => a.pos + buf.length ≤ 1036 * 4096 ∧
    s.needTo ino ((a.pos + buf.length + 4095) / 4096) ≤ s.freemap.count
  | .read _ => True
  | .seek pos => pos ≤ 1036 * 4096 ∧ s.needTo ino ((pos + 4095) / 4096) ≤ s.freemap.count
  | .reopen flags => TruncFlags flags

/-- Every operation of a sequence fits in the state in which it is called. -/
def AllFit (pid ino : ℕ) (u : UserMem) : FileSys → ℤ → Ref → List FileOp → Prop
  | _, _, _, [] => True
  | w, fd, a, op :: ops => OpFits w.sfs ino a op ∧
    ∀ fd' r w', (op.code pid ino u fd).run w = .ok (fd', r) w' →
      AllFit pid ino u w' fd' (a.step op).1 ops

/-- The descriptor `fd` is open on the file `ino`, whose bytes and position are those of `a`. -/
structure Refines (w : FileSys) (pid : ℕ) (fd : ℤ) (ino : ℕ) (a : Ref) : Prop where
  fd : w.At pid fd ino a.pos
  whole : w.sfs.Whole ino
  padded : w.sfs.Padded ino
  content : w.sfs.content ino = a.content
  pos : a.pos ≤ a.content.length

section refinement

variable {w : FileSys} {pid ino : ℕ} {fd : ℤ} {a : Ref} {u : UserMem}

theorem Refines.length (h : Refines w pid fd ino a) :
    a.content.length = (w.sfs.inode ino).size := by
  rw [← h.content, Sfs.length_content]

theorem Refines.pos_le (h : Refines w pid fd ino a) : a.pos ≤ (w.sfs.inode ino).size :=
  h.length ▸ h.pos

theorem Moved.padded {write : Bool} {buf : List UInt8} {offset n : ℕ}
    (h : Moved s s' sin write buf offset n) (hpad : s.Padded sin) : s'.Padded sin := by
  intro k hk
  rw [h.size] at hk
  rw [h.file]
  split_ifs
  · have hlen : (buf.take n).length ≤ n := by
      rw [List.length_take]
      omega
    rw [overlay_of_not_mem (by omega)]
    exact hpad k (by omega)
  · exact hpad k (by omega)

theorem Refines.write (h : Refines w pid fd ino a) (hu : u.Available) {buf : List UInt8}
    (hfit : OpFits w.sfs ino a (.write buf)) :
    ∃ w', (sysfileWrite pid fd buf u).run w = .ok ⟨buf.length, []⟩ w' ∧
      Refines w' pid fd ino (a.step (.write buf)).1 ∧ Kept w.sfs w'.sfs ino := by
  obtain ⟨w', hrun, hat, hmoved⟩ := sysfileWrite_whole hu h.fd h.whole h.pos_le
    (by have := hfit.1; omega) hfit.2
  have hcontent : w'.sfs.content ino = splice a.content a.pos buf := by
    have hfile := hmoved.file
    rw [if_pos rfl, List.take_length] at hfile
    rw [Sfs.content, hmoved.size, hfile, tabulate_overlay h.pos_le, ← h.content, Sfs.content]
  refine ⟨w', hrun, ⟨hat, hmoved.whole, hmoved.padded h.padded, hcontent, ?_⟩, hmoved.kept⟩
  show a.pos + buf.length ≤ (splice a.content a.pos buf).length
  rw [length_splice h.pos]
  exact le_max_right _ _

theorem Refines.read (h : Refines w pid fd ino a) (hu : u.Available) (len : ℕ) :
    ∃ w', (sysfileRead pid fd len u).run w = .ok (a.step (.read len)).2 w' ∧
      Refines w' pid fd ino (a.step (.read len)).1 ∧ Kept w.sfs w'.sfs ino := by
  obtain ⟨w', hrun, hat, hmoved⟩ := sysfileRead_whole hu len h.fd h.whole h.pos_le
  set n := moveLen w.sfs ino a.pos len false with hn
  have hn' : n = min len ((w.sfs.inode ino).size - a.pos) := by
    simp only [hn, moveLen, Bool.false_eq_true, if_false]
  have hbytes : (a.content.drop a.pos).take len = tabulate (w.sfs.byteAt ino) a.pos n := by
    rw [← h.content, Sfs.content, drop_take_tabulate, hn']
  have hlen : ((a.content.drop a.pos).take len).length = n := by rw [hbytes, length_tabulate]
  have hsize : (w'.sfs.inode ino).size = (w.sfs.inode ino).size := by
    have := h.pos_le
    rw [hmoved.size]
    omega
  have hcontent : w'.sfs.content ino = a.content := by
    rw [Sfs.content, hsize, hmoved.file, ← h.content]
    rfl
  refine ⟨w', ?_, ⟨?_, hmoved.whole, hmoved.padded h.padded, hcontent, ?_⟩, hmoved.kept⟩
  · simp only [Ref.step, hbytes, hrun, length_tabulate]
  · simp only [Ref.step, hlen]
    exact hat
  · have := h.length
    have := h.pos_le
    simp only [Ref.step, hlen]
    omega

theorem Refines.seek (h : Refines w pid fd ino a) {pos : ℕ} (hfit : OpFits w.sfs ino a (.seek pos)) :
    ∃ w', (fileSeek pid fd pos .set).run w = .ok () w' ∧
      Refines w' pid fd ino (a.step (.seek pos)).1 ∧ Kept w.sfs w'.sfs ino := by
  obtain ⟨w', hrun, hat, hwhole, hkept, hsize, hfile⟩ := fileSeek_whole h.fd h.whole _ hfit.1 hfit.2
  have hcontent : w'.sfs.content ino =
      a.content ++ List.replicate (pos - a.content.length) 0 := by
    rw [Sfs.content, hsize, hfile, tabulate_pad h.padded (le_max_left _ _), h.length, ← h.content,
      Sfs.content]
    congr 2
    omega
  refine ⟨w', hrun, ⟨hat, hwhole, fun k hk => ?_, hcontent, ?_⟩, hkept⟩
  · rw [hsize] at hk
    rw [hfile]
    exact h.padded k (by omega)
  · simp only [Ref.step, List.length_append, List.length_replicate]
    omega

theorem Refines.reopen (h : Refines w pid fd ino a) {flags : BitVec 32}
    (hflags : TruncFlags flags) :
    ∃ (fd' : ℕ) (w' : FileSys), (do
        fileClose pid fd
        fileOpen pid ino flags : FileProg ℕ).run w = .ok fd' w' ∧
      Refines w' pid fd' ino (a.step (.reopen flags)).1 ∧ Kept w.sfs w'.sfs ino := by
  obtain ⟨hclose, hlt⟩ := fileClose_run h.fd
  obtain ⟨fd', w', hopen, hat, hfit⟩ := fileOpen_whole (w := w.setFd pid fd.toNat none) hflags
    h.whole hlt (FileSys.setFd_same w pid fd.toNat none)
  refine ⟨fd', w', by rw [Prog.bind_of_ok hclose, hopen], ⟨hat, hfit.whole, fun k _ => ?_, ?_, ?_⟩,
    hfit.kept⟩
  · rw [hfit.file]
    exact if_neg (Nat.not_lt_zero k)
  · rw [Sfs.content, hfit.size]
    rfl
  · exact Nat.zero_le _

/-- One operation on the file and on the byte list. -/
theorem Refines.step (h : Refines w pid fd ino a) (hu : u.Available) {op : FileOp}
    (hfit : OpFits w.sfs ino a op) :
    ∃ fd' w', (op.code pid ino u fd).run w = .ok (fd', (a.step op).2) w' ∧
      Refines w' pid fd' ino (a.step op).1 ∧ Kept w.sfs w'.sfs ino := by
  cases op with
  | write buf =>
    obtain ⟨w', hrun, href, hkept⟩ := h.write hu hfit
    exact ⟨fd, w', by rw [FileOp.code, Prog.bind_of_ok hrun]; rfl, href, hkept⟩
  | read len =>
    obtain ⟨w', hrun, href, hkept⟩ := h.read hu len
    exact ⟨fd, w', by rw [FileOp.code, Prog.bind_of_ok hrun]; rfl, href, hkept⟩
  | seek pos =>
    obtain ⟨w', hrun, href, hkept⟩ := h.seek hfit
    exact ⟨fd, w', by rw [FileOp.code, Prog.bind_of_ok hrun]; rfl, href, hkept⟩
  | reopen flags =>
    obtain ⟨fd', w', hrun, href, hkept⟩ := h.reopen hfit
    obtain ⟨⟨⟩, w₁, hclose, hopen⟩ := Prog.bind_eq_ok.mp hrun
    refine ⟨fd', w', ?_, href, hkept⟩
    rw [FileOp.code, Prog.bind_of_ok hclose, Prog.bind_of_ok hopen]
    rfl

/-- **Files are byte lists.** A sequence of writes, reads, seeks and openings with `O_TRUNC` through
one descriptor, each of which fits, returns what it returns on the byte list, and leaves behind the
bytes and the position it leaves behind there. The other files have their bytes. -/
theorem run_refines_byte_list (h : Refines w pid fd ino a) (hu : u.Available) {ops : List FileOp}
    (hfit : AllFit pid ino u w fd a ops) :
    ∃ fd' w', (runOps pid ino u fd ops).run w = .ok (fd', (a.run ops).2) w' ∧
      Refines w' pid fd' ino (a.run ops).1 ∧
      ∀ k ∈ w.sfs.inos, k ≠ ino → w'.sfs.content k = w.sfs.content k := by
  induction ops generalizing w fd a with
  | nil => exact ⟨fd, w, rfl, h, fun _ _ _ => rfl⟩
  | cons op ops ih =>
    obtain ⟨fd₁, w₁, hrun₁, href₁, hkept⟩ := h.step hu hfit.1
    obtain ⟨fd₂, w₂, hrun₂, href₂, hother⟩ := ih href₁ (hfit.2 _ _ _ hrun₁)
    refine ⟨fd₂, w₂, ?_, href₂, fun k hk hne => ?_⟩
    · rw [runOps, Prog.bind_of_ok hrun₁]
      exact Prog.bind_of_ok hrun₂
    · rw [hother k (by rw [hkept.inos]; exact hk) hne, hkept.content hk hne]

/-- The operation is inside the first block of a file that is not empty. -/
def FileOp.InBlock (a : Ref) : FileOp → Prop
  | .write buf => a.pos + buf.length ≤ 4096 ∧ a.content ≠ []
  | .read _ => True
  | .seek pos => pos ≤ 4096 ∧ a.content ≠ []
  | .reopen flags => TruncFlags flags

/-- Every operation of a sequence is. -/
def AllInBlock : Ref → List FileOp → Prop
  | _, [] => True
  | a, op :: ops => op.InBlock a ∧ AllInBlock (a.step op).1 ops

/-- Such operations need no free blocks. -/
theorem Refines.allFit (h : Refines w pid fd ino a) (hu : u.Available) {ops : List FileOp}
    (hops : AllInBlock a ops) : AllFit pid ino u w fd a ops := by
  induction ops generalizing w fd a with
  | nil => trivial
  | cons op ops ih =>
    have hneed : ∀ n, n ≤ 4096 → a.content ≠ [] →
        w.sfs.needTo ino ((n + 4095) / 4096) ≤ w.sfs.freemap.count := by
      intro n hn hne
      have hlen := h.length
      have hpos := List.length_pos_of_ne_nil hne
      have hagree := h.whole.agree
      rw [Sfs.needTo_of_le (by omega)]
      exact Nat.zero_le _
    have hfit : OpFits w.sfs ino a op := by
      cases op with
      | write buf => exact ⟨by have := hops.1.1; omega, hneed _ hops.1.1 hops.1.2⟩
      | read len => trivial
      | seek pos => exact ⟨by have := hops.1.1; omega, hneed _ hops.1.1 hops.1.2⟩
      | reopen flags => exact hops.1
    refine ⟨hfit, fun fd' r w' hrun => ?_⟩
    obtain ⟨fd₁, w₁, hrun₁, href₁, -⟩ := h.step hu hfit
    rw [hrun₁] at hrun
    injection hrun with hret hw
    injection hret with hfd
    rw [← hfd, ← hw]
    exact ih href₁ hops.2

end refinement

/-! ### What is behind the end of a file -/

/-- An image without free blocks, whose file 4 has the byte 7 in its block 5, and `slack` behind it.
The descriptor 0 of process 1 is open on it. -/
def oneByte (slack : UInt8) : FileSys :=
  { sfs :=
      { blocks := 64
        unusedBlocks := 0
        superDirty := false
        freemap := .ofFree 32768 []
        disk := fun _ k => if k = 0 then 7 else slack
        inos := [4]
        inode := fun _ => ⟨1, .file, 1, fun i => if i = 0 then 5 else 0, 0, false⟩
        blocks_lt := blocks64_lt }
    fdArray := fun pid fd => if pid = 1 ∧ fd = 0 then some ⟨true, true, (0 : ℕ), 4⟩ else none }

theorem oneByte_slot (slack : UInt8) (i : ℕ) :
    (oneByte slack).sfs.slot 4 i = if i = 0 then 5 else 0 := by
  rw [Sfs.slot]
  by_cases hi : i < 12
  · rw [if_pos hi]
    rfl
  · rw [if_neg hi, if_neg fun hne => hne.2 rfl, if_neg (by omega)]

theorem oneByte_whole (slack : UInt8) : (oneByte slack).sfs.Whole 4 := by
  obtain ⟨hspec, hcount⟩ := Bitmap.ofFree_spec List.nodup_nil (show ∀ i ∈ [], i < 32768 by simp)
  have hused : ∀ b < 64, (oneByte slack).sfs.InUse b := fun b hb => ⟨hb, (hspec b).trans (by simp)⟩
  have hslot := oneByte_slot slack
  refine ⟨Sfs.Consistent.of_single rfl ?_ hcount.symm (hused 4 (by omega)) (fun hne => absurd rfl hne)
    (fun i hne => ?_) (fun i j hne heq => ?_) fun i hi => ?_, ⟨List.mem_singleton.mpr rfl, rfl⟩, ?_,
    fun i hi => ?_, ?_⟩
  · show (Bitmap.ofFree 32768 []).nbits = (64 + 32767) / 32768 * 32768
    rw [Bitmap.nbits_ofFree]
  · rw [hslot] at hne ⊢
    split_ifs at hne ⊢ with hi
    · exact ⟨hused 5 (by omega), by omega, by show 5 ≠ 0; omega⟩
    · exact absurd rfl hne
  · rw [hslot] at hne heq
    rw [hslot] at heq
    split_ifs at hne heq <;> omega
  · have hi' : 1 ≤ i := hi
    rw [hslot, if_neg (by omega)]
  · rintro ⟨c, hc, -⟩
    exact absurd ((hspec c).symm.trans hc) (by simp)
  · have hi' : i < 1 := hi
    rw [hslot, if_pos (by omega)]
    omega
  · show 1 = (1 + 4095) / 4096
    omega

theorem oneByte_byteAt (slack : UInt8) (k : ℕ) : (oneByte slack).sfs.byteAt 4 k =
    if k = 0 then 7 else if k < 4096 then slack else 0 := by
  by_cases hk : k < 4096
  · have hslot : (oneByte slack).sfs.slot 4 (k / 4096) = 5 := by
      rw [oneByte_slot, if_pos (by omega)]
    rw [Sfs.byteAt_of_slot hslot (by omega), Nat.mod_eq_of_lt hk, if_pos hk]
    rfl
  · rw [Sfs.byteAt_of_slot_zero (by rw [oneByte_slot, if_neg (by omega)]), if_neg (by omega),
      if_neg hk]

theorem oneByte_refines : Refines (oneByte 0) 1 0 4 ⟨[7], 0⟩ := by
  refine ⟨rfl, oneByte_whole 0, fun k hk => ?_, ?_, Nat.zero_le _⟩
  · have hk' : 1 ≤ k := hk
    rw [oneByte_byteAt, if_neg (by omega), ite_self]
  · show tabulate ((oneByte 0).sfs.byteAt 4) 0 1 = [7]
    simp [tabulate, oneByte_byteAt]

theorem userMem_available : userMem.Available := ⟨rfl, fun _ _ => rfl⟩

/-- With zeros behind the end: two bytes are written, the file is padded to five, read from its
second byte on, and opened anew. -/
theorem run_refines_byte_list_one_byte : ∃ fd' w',
    (runOps 1 4 userMem 0 [.write [1, 2], .seek 5, .seek 1, .read 10, .reopen 18]).run (oneByte 0) =
      .ok (fd', [⟨2, []⟩, ⟨0, []⟩, ⟨0, []⟩, ⟨4, [2, 0, 0, 0]⟩, ⟨0, []⟩]) w' ∧
    Refines w' 1 fd' 4 ⟨[], 0⟩ := by
  have hops : AllInBlock ⟨[7], 0⟩ [.write [1, 2], .seek 5, .seek 1, .read 10, .reopen 18] := by
    refine ⟨by simp [FileOp.InBlock], by simp [FileOp.InBlock, Ref.step, splice],
      by simp [FileOp.InBlock, Ref.step, splice], trivial, ?_, trivial⟩
    show TruncFlags 18
    unfold TruncFlags
    decide
  obtain ⟨fd', w', hrun, href, -⟩ := run_refines_byte_list oneByte_refines userMem_available
    (oneByte_refines.allFit userMem_available hops)
  exact ⟨fd', w', hrun, href⟩

/-- A seek inside the last block does not touch what the block holds. -/
theorem oneByte_seek (slack : UInt8) : ∃ w₁ w₂ w₃,
    (FileOp.code 1 4 userMem 0 (.seek 2)).run (oneByte slack) = .ok (0, ⟨0, []⟩) w₁ ∧
    (FileOp.code 1 4 userMem 0 (.seek 1)).run w₁ = .ok (0, ⟨0, []⟩) w₂ ∧
    (FileOp.code 1 4 userMem 0 (.read 1)).run w₂ = .ok (0, ⟨1, [slack]⟩) w₃ ∧
    w₁.sfs.Whole 4 ∧ (w₁.sfs.inode 4).size = 2 := by
  have hneed : ∀ {s : Sfs} {pos : ℕ}, s.Whole 4 → 0 < (s.inode 4).size → pos ≤ 4096 →
      s.needTo 4 ((pos + 4095) / 4096) ≤ s.freemap.count := by
    intro s pos hs hsize hpos
    have := hs.agree
    rw [Sfs.needTo_of_le (by omega)]
    exact Nat.zero_le _
  have hat : (oneByte slack).At 1 0 4 0 := rfl
  have hwhole := oneByte_whole slack
  obtain ⟨w₁, hrun₁, hat₁, hwhole₁, -, hsize₁, hfile₁⟩ := fileSeek_whole hat hwhole 2
    (by omega) (hneed hwhole (by show 0 < 1; omega) (by omega))
  have hsize₁' : (w₁.sfs.inode 4).size = 2 := hsize₁
  obtain ⟨w₂, hrun₂, hat₂, hwhole₂, -, hsize₂, hfile₂⟩ := fileSeek_whole hat₁ hwhole₁ 1
    (by omega) (hneed hwhole₁ (by omega) (by omega))
  have hsize₂' : (w₂.sfs.inode 4).size = 2 := by omega
  obtain ⟨w₃, hrun₃, -, -⟩ := sysfileRead_whole userMem_available 1 hat₂ hwhole₂ (by omega)
  have hlen : moveLen w₂.sfs 4 1 1 false = 1 := by simp [moveLen, hsize₂']
  have hbytes : tabulate (w₂.sfs.byteAt 4) 1 1 = [slack] := by
    rw [hfile₂, hfile₁]
    simp [tabulate, oneByte_byteAt]
  rw [hlen, hbytes] at hrun₃
  refine ⟨w₁, w₂, w₃, ?_, ?_, ?_, hwhole₁, hsize₁'⟩
  · rw [FileOp.code, Prog.bind_of_ok hrun₁]
    rfl
  · rw [FileOp.code, Prog.bind_of_ok hrun₂]
    rfl
  · rw [FileOp.code, Prog.bind_of_ok hrun₃]
    rfl

/-- With something else than zeros behind the end of a file, a seek past its end uncovers it: the byte
list has 0 where the file has 9. -/
theorem seek_uncovers_slack : (oneByte 9).sfs.Whole 4 ∧ (oneByte 9).At 1 0 4 0 ∧
    (oneByte 9).sfs.content 4 = [7] ∧
    AllFit 1 4 userMem (oneByte 9) 0 ⟨[7], 0⟩ [.seek 2, .seek 1, .read 1] ∧
    ∃ w', (runOps 1 4 userMem 0 [.seek 2, .seek 1, .read 1]).run (oneByte 9) =
        .ok (0, [⟨0, []⟩, ⟨0, []⟩, ⟨1, [9]⟩]) w' ∧
      (Ref.run ⟨[7], 0⟩ [.seek 2, .seek 1, .read 1]).2 = [⟨0, []⟩, ⟨0, []⟩, ⟨1, [0]⟩] := by
  obtain ⟨w₁, w₂, w₃, hrun₁, hrun₂, hrun₃, hwhole₁, hsize₁⟩ := oneByte_seek 9
  refine ⟨oneByte_whole 9, rfl, ?_, ⟨⟨by omega, ?_⟩, fun fd' r w' hrun => ?_⟩, w₃, ?_, rfl⟩
  · show tabulate ((oneByte 9).sfs.byteAt 4) 0 1 = [7]
    simp [tabulate, oneByte_byteAt]
  · rw [Sfs.needTo_of_le (by show (2 + 4095) / 4096 ≤ 1; omega)]
    exact Nat.zero_le _
  · rw [hrun₁] at hrun
    injection hrun with hret hw
    subst hw
    refine ⟨⟨by omega, ?_⟩, fun _ _ _ _ => ⟨trivial, fun _ _ _ _ => trivial⟩⟩
    have := hwhole₁.agree
    rw [Sfs.needTo_of_le (by omega)]
    exact Nat.zero_le _
  · have h₃ : (runOps 1 4 userMem 0 [.read 1]).run w₂ = .ok (0, [⟨1, [9]⟩]) w₃ :=
      Prog.bind_of_ok hrun₃
    have h₂ : (runOps 1 4 userMem 0 [.seek 1, .read 1]).run w₁ =
        .ok (0, [⟨0, []⟩, ⟨1, [9]⟩]) w₃ := (Prog.bind_of_ok hrun₂).trans (Prog.bind_of_ok h₃)
    exact (Prog.bind_of_ok hrun₁).trans (Prog.bind_of_ok h₂)

end Ucore.Fs
