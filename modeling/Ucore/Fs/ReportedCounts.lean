import Ucore.Fs.Content

/-!
# The counts that `read` and `write` report

`sysfile_read` and `sysfile_write` move a request through a kernel buffer in pieces of 4096 bytes, and
return the number of bytes moved, or an error when there are none. This file compares what they return
with what they have done, for every consistent file system, every position and every user buffer.

* `BytesMoved` says that `n` bytes have moved between a file and a buffer: the position has advanced by `n`,
  and the bytes of the file are those before, with the first `n` of the buffer written over them in a
  write. `Reports` is what the claim asks of a result: `BytesMoved` for the number returned, and for 0
  after an error.
* `fileIo_moves` is what one call of `file_read` or `file_write` does. The number of its bytes has a
  closed form in `Sfs.maxBlocks`, the number of blocks that there is room for, and that number stays
  the same while the blocks are taken.
* `sysfileRead_reports`: a read is exact if and only if every piece that is delivered can be copied to the
  user's buffer, for `file_read` has moved the position before `copy_to_user` looks at the buffer.
* `sysfileWrite_reports`: a write copies from the user first and is exact, unless the position lies past the
  end of the file and there is no block for it: `sfs_io_nolock` raises the size to the position then.

`read_write_exact` is the two together, and `read_moves_past_fault` a read that goes wrong.
-/

namespace Ucore.Fs

open Ucore.Lib

variable {s s' s₁ : Sfs} {sin : ℕ}

/-! ### The room of a file -/

/-- The number of blocks that a file has or that the free blocks suffice for. -/
def Sfs.maxBlocks (s : Sfs) (sin : ℕ) : ℕ :=
  let blocks := (s.inode sin).blocks
  if (s.inode sin).indirect ≠ 0 ∨ blocks + s.freemap.count ≤ 12 then blocks + s.freemap.count
  else max blocks (blocks + s.freemap.count - 1)

/-- A file can be brought to `t` blocks if and only if `t` is in its room. -/
theorem Sfs.needTo_le_iff {t : ℕ} : s.needTo sin t ≤ s.freemap.count ↔ t ≤ s.maxBlocks sin := by
  unfold Sfs.needTo Sfs.maxBlocks
  dsimp only
  split_ifs <;> omega

/-- Taking blocks from the room of a file leaves the room. -/
theorem Progress.maxBlocks (h : Progress s s' sin) : s'.maxBlocks sin = s.maxBlocks sin := by
  have hiff : ∀ t, t ≤ s'.maxBlocks sin ↔ t ≤ s.maxBlocks sin := by
    intro t
    rw [← Sfs.needTo_le_iff, ← Sfs.needTo_le_iff]
    by_cases ht : (s'.inode sin).blocks ≤ t
    · have hcount := h.count t ht
      omega
    · -- the blocks that the file has by now were in its room
      have hcount := h.count (s'.inode sin).blocks (Nat.le_refl _)
      have hmono : s.needTo sin t ≤ s.needTo sin (s'.inode sin).blocks := Sfs.needTo_mono (by omega)
      rw [Sfs.needTo_of_le (Nat.le_refl _)] at hcount
      rw [Sfs.needTo_of_le (show t ≤ (s'.inode sin).blocks by omega)]
      omega
  exact Nat.le_antisymm ((hiff _).mp (Nat.le_refl _)) ((hiff _).mpr (Nat.le_refl _))

theorem Sfs.raiseSize_maxBlocks (s : Sfs) (sin endpos : ℕ) :
    (s.raiseSize sin endpos).maxBlocks sin = s.maxBlocks sin := by
  unfold Sfs.raiseSize
  split_ifs
  · unfold Sfs.maxBlocks
    rw [Sfs.setInode_same]
    rfl
  · rfl

theorem Sfs.blocks_le_maxBlocks (s : Sfs) (sin : ℕ) : (s.inode sin).blocks ≤ s.maxBlocks sin := by
  rw [← Sfs.needTo_le_iff, Sfs.needTo_of_le (Nat.le_refl _)]
  exact Nat.zero_le _

/-- A transfer that has ended early has used up the room. -/
theorem IoShort.maxBlocks {offset endpos : ℕ} {r : IoResult} (h : IoShort s sin offset endpos r s₁) :
    s.maxBlocks sin = (s₁.inode sin).blocks := by
  rw [← h.inv.progress.maxBlocks]
  apply Nat.le_antisymm _ (s₁.blocks_le_maxBlocks sin)
  by_contra hlt
  have hcount := h.count
  rw [Sfs.need_eq_needTo] at hcount
  exact absurd (Sfs.needTo_le_iff.mpr (show (s₁.inode sin).blocks + 1 ≤ s₁.maxBlocks sin by omega))
    (Nat.not_le.mpr hcount)

/-! ### The bytes of one transfer -/

section io

variable {buf : List UInt8} {offset : ℤ} {alen : ℕ} {write : Bool}

/-- How far a transfer to `endpos` comes. -/
theorem ioTransfer_alen {offset endpos : ℕ} {r : IoResult} (hlt : offset < endpos)
    (h : r.ret = none ∧ IoInv s sin offset endpos endpos r s₁ ∨
      r.ret ≠ none ∧ IoShort s sin offset endpos r s₁) :
    r.alen = min endpos (4096 * s.maxBlocks sin) - offset ∧ offset + r.alen ≤ endpos ∧
      (r.ret ≠ none → offset + r.alen < endpos) := by
  rcases h with ⟨hret, hinv⟩ | ⟨-, hshort⟩
  · have halen := hinv.alen
    have hmapped := hinv.mapped hlt
    have hroom := s₁.blocks_le_maxBlocks sin
    rw [hinv.progress.maxBlocks] at hroom
    exact ⟨by omega, by omega, fun hne => absurd hret hne⟩
  · have hroom := hshort.maxBlocks
    have hnext := hshort.next
    have hend := hshort.short
    rcases Nat.eq_zero_or_pos r.alen with hzero | hpos
    · exact ⟨by omega, by omega, fun _ => hend⟩
    · have hmapped := hshort.inv.mapped (by omega)
      exact ⟨by omega, by omega, fun _ => hend⟩

/-- **`sfs_io_nolock`** on a request of at least one byte and at most a piece: the bytes that have been
moved, and the size afterwards. -/
theorem sfsIoNolock_moves (h : s.Consistent) (hsin : sin ∈ s.inos) (hdir : (s.inode sin).type ≠ .dir)
    (offset : ℤ) (hpos : 0 < alen) (hpiece : alen ≤ 4096) (hbuf : write = true → buf.length = alen) :
    ((sfsIoNolock sin buf offset alen write).run s).Post
      (fun r s' => Kept s s' sin ∧ s'.maxBlocks sin = s.maxBlocks sin ∧
        (IoAccepted (s.inode sin).size offset alen write ∧
            r.alen = min (ioEndpos (s.inode sin).size offset alen write) (4096 * s.maxBlocks sin) -
              offset.toNat ∧
            offset.toNat + r.alen ≤ ioEndpos (s.inode sin).size offset alen write ∧
            (s'.inode sin).size = max (s.inode sin).size (offset.toNat + r.alen) ∨
          ¬ IoAccepted (s.inode sin).size offset alen write ∧ r.alen = 0 ∧
            (s'.inode sin).size = (s.inode sin).size) ∧
        s'.byteAt sin = (if write then overlay (s.byteAt sin) offset.toNat (buf.take r.alen) else s.byteAt sin) ∧
        r.bytes = (if write then [] else tabulate (s.byteAt sin) offset.toNat r.alen) ∧
        (r.ret ≠ none → r.alen < alen))
      (fun _ _ => False) fun _ => True := by
  by_cases hacc : IoAccepted (s.inode sin).size offset alen write
  · have hlt := hacc.lt
    have hmax : sfsMaxFileSize = 134217728 := rfl
    have hle : ioEndpos (s.inode sin).size offset alen write ≤ offset.toNat + alen := by
      have hto : toOff (offset + alen) = offset + alen := toOff_of_lt (by have := hacc.1; omega) (by have := hacc.2.1; omega)
      unfold ioEndpos
      rw [hto]
      have := hacc.1
      split_ifs <;> omega
    have hlong : write = true → ioEndpos (s.inode sin).size offset alen write ≤ offset.toNat + buf.length := by
      intro hw
      rw [hbuf hw]
      exact hle
    rw [sfsIoNolock_of_accepted hdir hacc]
    refine (((ioTransfer_inv h hsin hlt).and (ioTransfer_bytes h hsin hlt hlong)).mono
      (fun _ _ hQ => hQ) (fun _ _ hE => hE.1) fun _ _ => trivial).bind ?_
    rintro r s₁ ⟨hinv, hbytes⟩
    obtain ⟨halen, hend, hshort⟩ := ioTransfer_alen hlt hinv
    have hio : IoBytes s sin write buf offset.toNat (offset.toNat + r.alen) r s₁ := by
      rcases hbytes with ⟨-, hall⟩ | ⟨-, hpart⟩
      · rwa [hall.alen]
      · exact hpart
    have hkept := hio.progress.kept
    refine ⟨hkept.trans (.raiseSize hkept.consistent sin _), ?_, Or.inl ⟨hacc, halen, hend, ?_⟩, ?_, hio.bytes,
      fun hne => ?_⟩
    · exact (Sfs.raiseSize_maxBlocks _ _ _).trans hio.progress.maxBlocks
    · rw [Sfs.raiseSize_size, hio.progress.size]
    · rw [Sfs.raiseSize_byteAt]
      exact hio.file
    · have := hshort hne
      omega
  · obtain ⟨ret, hrun⟩ := sfsIoNolock_of_not_accepted hdir hacc
    rw [hrun]
    refine ⟨.refl h sin, rfl, Or.inr ⟨hacc, rfl, rfl⟩, ?_, ?_, fun _ => hpos⟩
    · cases write <;> simp
    · cases write <;> simp

/-- `sfs_io` adds the assertion on the number of bytes. -/
theorem sfsIo_inner {resid : ℕ} (h : ((sfsIoNolock sin buf offset resid write).run s).Post (fun _ _ => True)
      (fun _ _ => False) fun _ => True) :
    ((sfsIo sin buf offset resid write).run s).Post
      (fun r s' => r.alen ≤ resid ∧ (sfsIoNolock sin buf offset resid write).run s = .ok r s')
      (fun _ _ => False) fun _ => True := by
  unfold sfsIo
  cases hrun : (sfsIoNolock sin buf offset resid write).run s with
  | ok r s' =>
    rw [Prog.bind_of_ok hrun]
    simp only [Prog.run_ite, Prog.run_bind, Prog.run_pure, Prog.run_assert]
    split_ifs with hne hle
    · exact ⟨hle, rfl⟩
    · trivial
    · exact ⟨by omega, rfl⟩
  | error e s' =>
    rw [hrun] at h
    exact h.elim
  | panic p =>
    rw [Prog.bind_of_panic hrun]
    trivial

/-- The checks on a request of at most a piece, whose end is no overflow. -/
theorem ioAccepted_iff {size : ℕ} (hpos : 0 < alen) (hpiece : alen ≤ 4096) :
    IoAccepted size offset alen write ↔
      0 ≤ offset ∧ offset < sfsMaxFileSize ∧ (write = true ∨ offset.toNat < size) := by
  have hmax : sfsMaxFileSize = 134217728 := rfl
  unfold IoAccepted
  constructor
  · rintro ⟨h₁, h₂, -, h₄⟩
    exact ⟨h₁, h₂, h₄⟩
  · rintro ⟨h₁, h₂, h₄⟩
    rw [toOff_of_lt (by omega) (by omega)]
    exact ⟨h₁, h₂, by omega, h₄⟩

theorem ioEndpos_eq {size : ℕ} (hrange : 0 ≤ offset ∧ offset < sfsMaxFileSize) (hpiece : alen ≤ 4096) :
    ioEndpos size offset alen write =
      if write then min (offset.toNat + alen) sfsMaxFileSize else min (min (offset.toNat + alen) sfsMaxFileSize) size := by
  have hmax : sfsMaxFileSize = 134217728 := rfl
  unfold ioEndpos
  rw [toOff_of_lt (by omega) (by omega), show (offset + alen).toNat = offset.toNat + alen by omega]

end io

/-- The bytes that a read of `len` bytes at `pos` finds: up to the end of the file, and in the room that
the file has. -/
def Sfs.readable (s : Sfs) (sin : ℕ) (pos : ℤ) (len : ℕ) : ℕ :=
  if 0 ≤ pos ∧ pos < sfsMaxFileSize then
    min (min (min (pos.toNat + len) sfsMaxFileSize) (s.inode sin).size) (4096 * s.maxBlocks sin) - pos.toNat
  else 0

/-- The position lies past the end of the file, and there is no room for its block. -/
def Sfs.Uncovered (s : Sfs) (sin : ℕ) (pos : ℤ) : Prop :=
  0 ≤ pos ∧ pos < sfsMaxFileSize ∧ ((s.inode sin).size : ℤ) < pos ∧ s.maxBlocks sin ≤ pos.toNat / 4096

/-! ### Descriptors -/

/-- `n` bytes have moved between the file of a descriptor, at its position, and a buffer. -/
structure BytesMoved (w w' : FileSys) (pid : ℕ) (fd : ℤ) (f : File) (write : Bool) (buf : List UInt8) (n : ℕ) : Prop where
  /-- The position has advanced by as many, -/
  pos : w'.file pid fd = some { f with pos := f.pos + n }
  /-- a write has put the bytes of the buffer there, and neither a write nor a read has changed other bytes, -/
  bytes : w'.sfs.byteAt f.node =
    if write then overlay (w.sfs.byteAt f.node) f.pos.toNat (buf.take n) else w.sfs.byteAt f.node
  /-- and the size is the same, or ends with what has been written. -/
  size : (w'.sfs.inode f.node).size =
    if write = true ∧ n ≠ 0 then max (w.sfs.inode f.node).size (f.pos.toNat + n) else (w.sfs.inode f.node).size
  length : write = true → n ≤ buf.length
  within : n ≠ 0 → 0 ≤ f.pos ∧ (write = false → f.pos + n ≤ (w.sfs.inode f.node).size)

section descriptor

variable {w w' w₁ w₂ : FileSys} {pid : ℕ} {fd : ℤ} {f : File} {write : Bool} {buf : List UInt8} {n m : ℕ}

theorem BytesMoved.refl (h : w.file pid fd = some f) : BytesMoved w w pid fd f write buf 0 := by
  refine ⟨by rw [h, Nat.cast_zero, Int.add_zero], ?_, ?_, fun _ => Nat.zero_le _, fun hne => absurd rfl hne⟩
  · cases write <;> simp
  · rw [if_neg fun hne => hne.2 rfl]

/-- What moves first and what moves from there on is one move. -/
theorem BytesMoved.trans (h : BytesMoved w w₁ pid fd f write buf n)
    (h' : BytesMoved w₁ w₂ pid fd { f with pos := f.pos + n } write (buf.drop n) m) :
    BytesMoved w w₂ pid fd f write buf (n + m) := by
  have hn := h.within
  have hm := h'.within
  have hs := h.size
  have hs' := h'.size
  simp only at hm hs'
  refine ⟨by rw [h'.pos, Nat.cast_add, Int.add_assoc], ?_, ?_, fun hw => ?_, fun hne => ?_⟩
  · rw [h'.bytes, h.bytes]
    cases write with
    | false => rfl
    | true =>
      have hlen := h.length rfl
      have hstart : n ≠ 0 → (f.pos + n).toNat = f.pos.toNat + (buf.take n).length := by
        intro hne
        have := (hn hne).1
        rw [List.length_take]
        omega
      simp only [if_true]
      by_cases hzero : n = 0
      · subst hzero
        simp
      · rw [hstart hzero, overlay_append, ← List.take_add]
  · cases write with
    | false =>
      simp only [Bool.false_eq_true, false_and, if_false] at hs hs' ⊢
      exact hs'.trans hs
    | true =>
      simp only [true_and] at hs hs' ⊢
      by_cases hzero : n = 0
      · subst hzero
        rw [if_neg (by omega)] at hs
        rw [hs] at hs'
        simpa using hs'
      · have := (hn hzero).1
        rw [if_pos hzero] at hs
        rw [if_pos (by omega), hs', hs]
        split_ifs with hmore <;> omega
  · have hlen := h.length hw
    have hlen' := h'.length hw
    rw [List.length_drop] at hlen'
    omega
  · have hread : write = false → (w₁.sfs.inode f.node).size = (w.sfs.inode f.node).size := by
      rintro rfl
      simpa using hs
    by_cases hzero : n = 0
    · subst hzero
      obtain ⟨h₁, h₂⟩ := hm (by omega)
      exact ⟨by omega, fun hw => by have := h₂ hw; rw [hread hw] at this; omega⟩
    · obtain ⟨h₁, h₂⟩ := hn hzero
      refine ⟨h₁, fun hw => ?_⟩
      by_cases hzero' : m = 0
      · have := h₂ hw
        omega
      · have := (hm hzero').2 hw
        rw [hread hw] at this
        omega

/-- What one call of `file_read` or `file_write` has done, for a piece of `len` bytes. -/
structure PieceDone (w w' : FileSys) (pid : ℕ) (fd : ℤ) (f : File) (write : Bool) (buf : List UInt8) (len : ℕ)
    (r : IoResult) : Prop where
  kept : Kept w.sfs w'.sfs f.node
  maxBlocks : w'.sfs.maxBlocks f.node = w.sfs.maxBlocks f.node
  offset : toOff (f.pos + r.alen) = f.pos + r.alen
  pos : w'.file pid fd = some { f with pos := f.pos + r.alen }
  bytes : r.bytes = if write then [] else tabulate (w.sfs.byteAt f.node) f.pos.toNat r.alen
  le : r.alen ≤ len
  short : r.ret ≠ none → r.alen < len
  readable : write = false → r.alen = w.sfs.readable f.node f.pos len
  moves : ¬ (write = true ∧ w.sfs.Uncovered f.node f.pos) → BytesMoved w w' pid fd f write buf r.alen
  /-- A write without a block for its position writes nothing, and the file grows. -/
  uncovered : write = true → w.sfs.Uncovered f.node f.pos →
    r.alen = 0 ∧ (w'.sfs.inode f.node).size ≠ (w.sfs.inode f.node).size

/-- **One piece** of a read or a write. -/
theorem fileIo_moves (h : w.sfs.Consistent) (hf : w.file pid fd = some f) (hfile : w.sfs.IsFile f.node)
    (hoff : toOff f.pos = f.pos) {len : ℕ} (hpos : 0 < len) (hpiece : len ≤ 4096)
    (hbuf : write = true → buf.length = len) :
    ((fileIo pid fd f buf len write).run w).Post (fun r w' => PieceDone w w' pid fd f write buf len r)
      (fun _ _ => False) fun _ => True := by
  unfold fileIo
  have hdone := sfsIoNolock_moves h hfile.1 hfile.not_dir f.pos hpos hpiece hbuf
  have hio := sfsIo_inner (hdone.mono (fun _ _ _ => trivial) (fun _ _ hE => hE) fun _ _ => trivial)
  refine ((onSfs_post hio).mono (fun _ _ hQ => hQ) (fun _ _ hE => hE.1) fun _ _ => trivial).bind ?_
  rintro r w₁ ⟨⟨hle, hrun⟩, hfds⟩
  rw [hrun] at hdone
  obtain ⟨hkept, hroom, hsize, hbytes, hread, hshort⟩ := hdone
  rw [ioAccepted_iff hpos hpiece] at hsize
  have hmax : sfsMaxFileSize = 134217728 := rfl
  have hoff' : toOff (f.pos + r.alen) = f.pos + r.alen := by
    rcases hsize with ⟨⟨h₀, hlt, -⟩, -⟩ | ⟨-, hzero, -⟩
    · exact toOff_of_lt (by omega) (by omega)
    · rw [hzero, Nat.cast_zero, Int.add_zero, hoff]
  have hf₁ : w₁.file pid fd = some f := by
    unfold FileSys.file at hf ⊢
    rwa [hfds]
  have hfd : (w₁.setFd pid fd.toNat (some { f with pos := toOff (f.pos + r.alen) })).file pid fd =
      some { f with pos := f.pos + r.alen } := by
    rw [FileSys.file_setFd hf₁, hoff']
  refine ⟨hkept, hroom, hoff', hfd, hread, hle, hshort, fun hw => ?_, fun hcovered => ?_, fun hw hun => ?_⟩
  · unfold Sfs.readable
    rcases hsize with ⟨⟨h₀, hlt, -⟩, halen, -⟩ | ⟨hno, hzero, -⟩
    · rw [ioEndpos_eq ⟨h₀, hlt⟩ hpiece, if_neg (by rw [hw]; exact Bool.false_ne_true)] at halen
      rw [if_pos ⟨h₀, hlt⟩, halen]
    · split_ifs with hrange
      · have hbehind : ¬ f.pos.toNat < (w.sfs.inode f.node).size := fun hin => hno ⟨hrange.1, hrange.2, Or.inr hin⟩
        omega
      · exact hzero
  · refine ⟨hfd, hbytes, ?_, fun hw => (hbuf hw).symm ▸ hle, fun hne => ?_⟩
    · show (w₁.sfs.inode f.node).size = _
      rcases hsize with ⟨⟨h₀, hlt, hor⟩, halen, hend, hraised⟩ | ⟨-, hzero, hsame⟩
      · rw [ioEndpos_eq ⟨h₀, hlt⟩ hpiece] at halen hend
        cases write with
        | false =>
          have hin := hor.resolve_left Bool.false_ne_true
          simp only [Bool.false_eq_true, false_and, if_false] at hend ⊢
          omega
        | true =>
          simp only [true_and, if_true] at halen hend ⊢
          by_cases hzero : r.alen = 0
          · rw [if_neg (fun hne => hne hzero), hraised]
            -- nothing has been written, so the position is not past the end
            have hin : ¬ ((w.sfs.inode f.node).size : ℤ) < f.pos := by
              intro hpast
              refine hcovered ⟨rfl, h₀, hlt, hpast, ?_⟩
              omega
            omega
          · rw [if_pos hzero, hraised]
      · rw [if_neg (fun hne => hne.2 hzero), hsame]
    · rcases hsize with ⟨⟨h₀, hlt, -⟩, -, hend, -⟩ | ⟨-, hzero, -⟩
      · refine ⟨h₀, fun hw => ?_⟩
        rw [ioEndpos_eq ⟨h₀, hlt⟩ hpiece, if_neg (by rw [hw]; exact Bool.false_ne_true)] at hend
        omega
      · exact absurd hzero hne
  · obtain ⟨h₀, hlt, hpast, hfull⟩ := hun
    rcases hsize with ⟨-, halen, -, hraised⟩ | ⟨hno, -, -⟩
    · rw [ioEndpos_eq ⟨h₀, hlt⟩ hpiece, if_pos hw] at halen
      refine ⟨by omega, ?_⟩
      show (w₁.sfs.inode f.node).size ≠ _
      omega
    · exact absurd ⟨h₀, hlt, Or.inl hw⟩ hno

/-- A write sees no more of the buffer than it moves. -/
theorem BytesMoved.of_take {k : ℕ} (h : BytesMoved w w' pid fd f write (buf.take k) n) : BytesMoved w w' pid fd f write buf n := by
  refine ⟨h.pos, ?_, h.size, fun hw => ?_, h.within⟩
  · rw [h.bytes]
    cases write with
    | false => rfl
    | true =>
      have hlen := h.length rfl
      rw [List.length_take] at hlen
      simp only [if_true]
      rw [List.take_take, min_eq_left (by omega)]
  · have hlen := h.length hw
    rw [List.length_take] at hlen
    omega

/-- A call on its way, which has moved `n` bytes. -/
structure Going (w₀ w : FileSys) (pid : ℕ) (fd : ℤ) (f : File) (write : Bool) (buf : List UInt8) (n : ℕ) : Prop where
  moves : BytesMoved w₀ w pid fd f write buf n
  kept : Kept w₀.sfs w.sfs f.node
  isFile : w₀.sfs.IsFile f.node
  offset : toOff (f.pos + n) = f.pos + n

theorem Going.refl (h : w.sfs.Consistent) (hf : w.file pid fd = some f) (hfile : w.sfs.IsFile f.node)
    (hoff : toOff f.pos = f.pos) : Going w w pid fd f write buf 0 :=
  ⟨.refl hf, .refl h f.node, hfile, by rwa [Nat.cast_zero, Int.add_zero]⟩

/-- The next piece of a call. -/
theorem Going.piece {w₀ : FileSys} (hg : Going w₀ w pid fd f write buf n) {len k : ℕ} (hpos : 0 < len) (hpiece : len ≤ 4096)
    (hbuf : write = true → ((buf.drop n).take k).length = len) :
    ((fileIo pid fd { f with pos := f.pos + n } ((buf.drop n).take k) len write).run w).Post
      (fun r w' => PieceDone w w' pid fd { f with pos := f.pos + n } write ((buf.drop n).take k) len r)
      (fun _ _ => False) fun _ => True :=
  fileIo_moves hg.kept.consistent hg.moves.pos (hg.kept.isFile hg.isFile) hg.offset hpos hpiece hbuf

theorem Going.next {w₀ : FileSys} (hg : Going w₀ w pid fd f write buf n) {len k : ℕ} {r : IoResult}
    (hdone : PieceDone w w₁ pid fd { f with pos := f.pos + n } write ((buf.drop n).take k) len r)
    (hcovered : ¬ (write = true ∧ w.sfs.Uncovered f.node (f.pos + n))) :
    Going w₀ w₁ pid fd f write buf (n + r.alen) := by
  refine ⟨hg.moves.trans (hdone.moves hcovered).of_take, hg.kept.trans hdone.kept, hg.isFile, ?_⟩
  have := hdone.offset
  rwa [Nat.cast_add, ← Int.add_assoc]

/-- What a result says has happened: as many bytes have moved as it reports, and none after an error. -/
def Reports (w : FileSys) (pid : ℕ) (fd : ℤ) (f : File) (write : Bool) (buf : List UInt8) (len : ℕ) :
    Outcome SfsPanic FsError FileSys SysResult → Prop
  | .ok r w' => r.copied ≤ len ∧ BytesMoved w w' pid fd f write buf r.copied ∧
      r.bytes = if write then [] else tabulate (w.sfs.byteAt f.node) f.pos.toNat r.copied
  | .error _ w' => BytesMoved w w' pid fd f write buf 0
  | .panic _ => True

/-- The end of a call reports what has moved. -/
theorem sysfileOut_reports {w₀ : FileSys} {r : SysResult} {len : ℕ} (hm : BytesMoved w₀ w pid fd f write buf r.copied)
    (hlen : r.copied ≤ len)
    (hbytes : r.bytes = if write then [] else tabulate (w₀.sfs.byteAt f.node) f.pos.toNat r.copied)
    (ret : Option FsError) : Reports w₀ pid fd f write buf len ((sysfileOut ret r).run w) := by
  unfold sysfileOut
  cases ret with
  | none => exact ⟨hlen, hm, hbytes⟩
  | some e =>
    rw [Prog.run_ite]
    split_ifs with hne
    · exact ⟨hlen, hm, hbytes⟩
    · have hzero : r.copied = 0 := by omega
      rw [hzero] at hm
      exact hm

/-- It reports too little after a position that has moved on. -/
theorem not_reports_sysfileOut {w₀ : FileSys} {r : SysResult} {len : ℕ} {pos : ℤ}
    (hpos : w.file pid fd = some { f with pos := pos }) (hne : pos ≠ f.pos + r.copied) (e : FsError) :
    ¬ Reports w₀ pid fd f write buf len ((sysfileOut (some e) r).run w) := by
  have hmoved : ∀ n : ℕ, BytesMoved w₀ w pid fd f write buf n → pos = f.pos + n := by
    intro n hm
    have heq := hm.pos
    rw [hpos] at heq
    simpa using heq
  unfold sysfileOut
  rw [Prog.run_ite]
  split_ifs with hcopied
  · rintro ⟨-, hm, -⟩
    exact hne (hmoved _ hm)
  · intro hm
    apply hne
    rw [show r.copied = 0 by omega]
    exact hmoved 0 hm

/-- `sysfile_read` and `sysfile_write` before their loops: the checks of the length, of the descriptor and of
the kernel buffer. -/
theorem reports_checked {test : FileProg Bool} {ok buffer : Bool} {loop : FileProg SysResult} {len : ℕ} {cond : Prop}
    (hf : w.file pid fd = some f) (htest : test.run w = .ok ok w)
    (hret : ∀ p, (if len = 0 then pure ⟨0, []⟩ else do
      let ok ← test
      if ok = false then Prog.throw .inval else if buffer = false then Prog.throw .noMem else loop : FileProg SysResult).run w ≠
        .panic p)
    (hloop : len ≠ 0 → ok = true → (∀ p, loop.run w ≠ .panic p) → (Reports w pid fd f write buf len (loop.run w) ↔ cond)) :
    Reports w pid fd f write buf len ((if len = 0 then pure ⟨0, []⟩ else do
      let ok ← test
      if ok = false then Prog.throw .inval else if buffer = false then Prog.throw .noMem else loop : FileProg SysResult).run w) ↔
      (ok = true → buffer = true → len ≠ 0 → cond) := by
  have hnothing : ∀ e, Reports w pid fd f write buf len (.error e w) := fun e => BytesMoved.refl hf
  rw [Prog.run_ite] at hret ⊢
  by_cases hlen : len = 0
  · rw [if_pos hlen]
    refine ⟨fun _ _ _ hne => absurd hlen hne, fun _ => ⟨Nat.zero_le _, BytesMoved.refl hf, ?_⟩⟩
    cases write <;> rfl
  rw [if_neg hlen, Prog.bind_of_ok htest, Prog.run_ite] at hret ⊢
  cases ok with
  | false =>
    rw [if_pos rfl]
    exact ⟨fun _ hyes => absurd hyes Bool.false_ne_true, fun _ => hnothing .inval⟩
  | true =>
    rw [if_neg Bool.true_eq_false.mp, Prog.run_ite] at hret ⊢
    cases buffer with
    | false =>
      rw [if_pos rfl]
      exact ⟨fun _ _ hyes => absurd hyes Bool.false_ne_true, fun _ => hnothing .noMem⟩
    | true =>
      rw [if_neg Bool.true_eq_false.mp] at hret ⊢
      exact (hloop hlen rfl hret).trans ⟨fun h _ _ _ => h, fun h => h rfl rfl hlen⟩

/-! ### Reading -/

/-- How far a read can come. -/
def Sfs.readEnd (s : Sfs) (sin : ℕ) : ℕ := min (min sfsMaxFileSize (s.inode sin).size) (4096 * s.maxBlocks sin)

theorem Sfs.readEnd_le (s : Sfs) (sin : ℕ) : s.readEnd sin ≤ sfsMaxFileSize :=
  (Nat.min_le_left _ _).trans (Nat.min_le_left _ _)

theorem Sfs.readable_of_range {pos : ℤ} (h : 0 ≤ pos ∧ pos < sfsMaxFileSize) (len : ℕ) :
    s.readable sin pos len = min len (s.readEnd sin - pos.toNat) := by
  unfold Sfs.readable Sfs.readEnd
  rw [if_pos h, Nat.min_assoc, Nat.min_assoc, ← Nat.min_assoc sfsMaxFileSize]
  omega

theorem Sfs.readable_of_not {pos : ℤ} (h : ¬ (0 ≤ pos ∧ pos < sfsMaxFileSize)) (len : ℕ) :
    s.readable sin pos len = 0 := if_neg h

theorem Sfs.readable_zero (s : Sfs) (sin : ℕ) (pos : ℤ) : s.readable sin pos 0 = 0 := by
  by_cases h : 0 ≤ pos ∧ pos < sfsMaxFileSize
  · rw [Sfs.readable_of_range h, Nat.zero_min]
  · exact Sfs.readable_of_not h 0

/-- What a piece finds of what there is. -/
theorem Sfs.readable_min (s : Sfs) (sin : ℕ) (pos : ℤ) (len : ℕ) :
    s.readable sin pos (min 4096 len) = min 4096 (s.readable sin pos len) := by
  by_cases h : 0 ≤ pos ∧ pos < sfsMaxFileSize
  · rw [Sfs.readable_of_range h, Sfs.readable_of_range h, Nat.min_assoc]
  · rw [Sfs.readable_of_not h, Sfs.readable_of_not h, Nat.min_zero]

/-- What is left after a piece. -/
theorem Sfs.readable_after {pos : ℤ} {len n : ℕ} (hroom : s'.maxBlocks sin = s.maxBlocks sin)
    (hsize : (s'.inode sin).size = (s.inode sin).size) (hle : n ≤ s.readable sin pos len) :
    s'.readable sin (pos + n) (len - n) = s.readable sin pos len - n := by
  have hend : s'.readEnd sin = s.readEnd sin := by
    unfold Sfs.readEnd
    rw [hroom, hsize]
  have hmax := s.readEnd_le sin
  by_cases h : 0 ≤ pos ∧ pos < sfsMaxFileSize
  · rw [Sfs.readable_of_range h] at hle ⊢
    by_cases h' : 0 ≤ pos + n ∧ pos + n < sfsMaxFileSize
    · rw [Sfs.readable_of_range h', hend]
      omega
    · rw [Sfs.readable_of_not h']
      omega
  · rw [Sfs.readable_of_not h] at hle ⊢
    obtain rfl := Nat.le_zero.mp hle
    rw [Nat.cast_zero, Int.add_zero, Sfs.readable_of_not h]

/-- Every piece of `n` bytes can be copied, at the distance `k` of the user's buffer and on. -/
def UserMem.Copies (u : UserMem) (k n : ℕ) : Prop :=
  ∀ j, 4096 * j < n → u.copy (k + 4096 * j) (min 4096 (n - 4096 * j)) = true

theorem UserMem.copies_zero (u : UserMem) (k : ℕ) : u.Copies k 0 := fun _ hj => absurd hj (Nat.not_lt_zero _)

/-- The first piece and the others. -/
theorem UserMem.copies_iff {u : UserMem} {k n : ℕ} (hn : n ≠ 0) :
    u.Copies k n ↔ u.copy k (min 4096 n) = true ∧ u.Copies (k + min 4096 n) (n - min 4096 n) := by
  constructor
  · intro h
    refine ⟨by simpa using h 0 (by omega), fun j hj => ?_⟩
    have hstep := h (j + 1) (by omega)
    rw [show k + min 4096 n + 4096 * j = k + 4096 * (j + 1) by omega,
      show n - min 4096 n - 4096 * j = n - 4096 * (j + 1) by omega]
    exact hstep
  · rintro ⟨hfirst, hrest⟩ j hj
    cases j with
    | zero => simpa using hfirst
    | succ j =>
      have hstep := hrest j (by omega)
      rwa [show k + min 4096 n + 4096 * j = k + 4096 * (j + 1) by omega,
        show n - min 4096 n - 4096 * j = n - 4096 * (j + 1) by omega] at hstep

/-- A piece of a read. -/
theorem Going.fileRead {w₀ : FileSys} (hg : Going w₀ w pid fd f false [] n) (hread : f.readable = true) {len : ℕ}
    (hpos : 0 < len) (hpiece : len ≤ 4096) :
    ((ioAttempt (fileRead pid fd len)).run w).Post
      (fun io w₁ => PieceDone w w₁ pid fd { f with pos := f.pos + n } false [] len io ∧
        Going w₀ w₁ pid fd f false [] (n + io.alen)) (fun _ _ => False) fun _ => True := by
  have hrun : (Fs.fileRead pid fd len).run w = (fileIo pid fd { f with pos := f.pos + n } [] len false).run w := by
    rw [Fs.fileRead, Prog.bind_of_ok (fd2file_run hg.moves.pos), if_neg (by simp [hread])]
  have hio := hg.piece (k := 0) hpos hpiece Bool.noConfusion
  rw [List.take_zero, ← hrun] at hio
  refine (ioAttempt_post hio).mono ?_ (fun _ _ hE => hE) fun _ _ => trivial
  rintro io w₁ (hdone | ⟨_, hfalse, -⟩)
  · exact ⟨hdone, hg.next (k := 0) (by rwa [List.take_zero]) fun hno => absurd hno.1 Bool.false_ne_true⟩
  · exact hfalse.elim

/-- **The loop of `sysfile_read`**, after `r.copied` bytes. -/
theorem sysfileReadLoop_reports {w₀ : FileSys} {u : UserMem} {fuel len total : ℕ} {r : SysResult} (hfuel : len ≤ fuel)
    (hg : Going w₀ w pid fd f false [] r.copied) (hread : f.readable = true) (htotal : r.copied + len ≤ total)
    (hbytes : r.bytes = tabulate (w₀.sfs.byteAt f.node) f.pos.toNat r.copied)
    (hret : ∀ p, (sysfileReadLoop pid fd u fuel len r).run w ≠ .panic p) :
    Reports w₀ pid fd f false [] total ((sysfileReadLoop pid fd u fuel len r).run w) ↔
      u.Copies r.copied (w.sfs.readable f.node (f.pos + r.copied) len) := by
  have hdone : ∀ w' (r' : SysResult), Going w₀ w' pid fd f false [] r'.copied → r'.copied ≤ total →
      r'.bytes = tabulate (w₀.sfs.byteAt f.node) f.pos.toNat r'.copied → ∀ ret,
      Reports w₀ pid fd f false [] total ((sysfileOut ret r').run w') := fun w' r' hg' hle hbytes' ret =>
    sysfileOut_reports hg'.moves hle (by rw [hbytes', if_neg Bool.false_ne_true]) ret
  induction fuel generalizing w len r with
  | zero =>
    obtain rfl : len = 0 := by omega
    rw [Sfs.readable_zero]
    exact ⟨fun _ => u.copies_zero _, fun _ => hdone w r hg (by omega) hbytes none⟩
  | succ fuel ih =>
    rw [sysfileReadLoop, Prog.run_ite] at hret ⊢
    by_cases hlen : len = 0
    · rw [if_pos hlen, hlen, Sfs.readable_zero]
      exact ⟨fun _ => u.copies_zero _, fun _ => hdone w r hg (by omega) hbytes none⟩
    rw [if_neg hlen] at hret ⊢
    set N := w.sfs.readable f.node (f.pos + r.copied) len with hN
    have hpiece := hg.fileRead hread (show 0 < min 4096 len by omega) (by omega)
    cases hio : (ioAttempt (fileRead pid fd (min 4096 len))).run w with
    | error e w₁ =>
      rw [hio] at hpiece
      exact hpiece.elim
    | panic p => exact absurd (Prog.bind_of_panic hio) (hret p)
    | ok io w₁ =>
      rw [hio] at hpiece
      obtain ⟨hone, hgoing⟩ := hpiece
      rw [Prog.bind_of_ok hio] at hret ⊢
      have halen : io.alen = min 4096 N := (hone.readable rfl).trans (Sfs.readable_min _ _ _ _)
      by_cases hzero : io.alen = 0
      · -- there is nothing to read
        rw [if_pos hzero]
        rw [hzero, Nat.add_zero] at hgoing
        rw [show N = 0 by omega]
        exact ⟨fun _ => u.copies_zero _, fun _ => hdone w₁ r hgoing (by omega) hbytes io.ret⟩
      rw [if_neg hzero] at hret ⊢
      rw [UserMem.copies_iff (show N ≠ 0 by omega), ← halen]
      by_cases hcopy : u.copy r.copied io.alen = true
      · rw [if_pos hcopy] at hret ⊢
        have hle := hone.le
        rw [Prog.bind_of_ok (Prog.run_assert_of _ _ (show io.alen ≤ len by omega))] at hret ⊢
        have hbytes' : r.bytes ++ io.bytes = tabulate (w₀.sfs.byteAt f.node) f.pos.toNat (r.copied + io.alen) := by
          have hstart := (hgoing.moves.within (by omega)).1
          rw [hone.bytes, if_neg Bool.false_ne_true, hbytes, ← tabulate_append]
          show _ ++ tabulate (w.sfs.byteAt f.node) (f.pos + r.copied).toNat io.alen = _
          rw [hg.moves.bytes, if_neg Bool.false_ne_true, show (f.pos + r.copied).toNat = f.pos.toNat + r.copied by omega]
        cases hstop : io.ret with
        | some e =>
          -- the piece is short, so it is the last one
          have hshort := hone.short (by rw [hstop]; exact Option.some_ne_none e)
          rw [show N - io.alen = 0 by omega]
          exact ⟨fun _ => ⟨hcopy, u.copies_zero _⟩, fun _ => hdone w₁ _ hgoing (by dsimp only; omega) hbytes' (some e)⟩
        | none =>
          rw [hstop] at hret
          have hrest : w₁.sfs.readable f.node (f.pos + (r.copied + io.alen : ℕ)) (len - io.alen) = N - io.alen := by
            rw [Nat.cast_add, ← Int.add_assoc]
            exact Sfs.readable_after hone.maxBlocks (hone.moves fun hno => absurd hno.1 Bool.false_ne_true).size (by omega)
          have hiff := ih (r := ⟨r.copied + io.alen, r.bytes ++ io.bytes⟩) (by omega) hgoing (by dsimp only; omega) hbytes' hret
          dsimp only at hiff
          rw [hrest] at hiff
          exact hiff.trans ⟨fun h => ⟨hcopy, h⟩, fun h => h.2⟩
      · rw [if_neg hcopy]
        refine ⟨fun hrep => absurd hrep ?_, fun hall => absurd hall.1 hcopy⟩
        exact not_reports_sysfileOut hgoing.moves.pos (by omega) _

/-- **`sysfile_read`** is exact if and only if every piece that it delivers can be copied. -/
theorem sysfileRead_reports {u : UserMem} {len : ℕ} (h : w.sfs.Consistent) (hf : w.file pid fd = some f)
    (hfile : w.sfs.IsFile f.node) (hoff : toOff f.pos = f.pos) (hret : ∀ p, (sysfileRead pid fd len u).run w ≠ .panic p) :
    Reports w pid fd f false [] len ((sysfileRead pid fd len u).run w) ↔
      (f.readable = true → u.kmalloc = true → u.Copies 0 (w.sfs.readable f.node f.pos len)) := by
  have htest : (fileTestfd pid fd true false).run w = .ok f.readable w := by
    simp only [fileTestfd, Prog.run_bind, Prog.run_get, Outcome.andThen_ok, hf, Prog.run_pure, Bool.not_true,
      Bool.false_or, Bool.not_false, Bool.true_or, Bool.and_true]
  refine (reports_checked hf htest hret fun _ hread hret => ?_).trans ⟨fun hall hread hmem => ?_, fun hall hread hmem _ => hall hread hmem⟩
  · have hloop := sysfileReadLoop_reports (r := ⟨0, []⟩) (Nat.le_refl len) (Going.refl h hf hfile hoff) hread
      (show 0 + len ≤ len by omega) rfl hret
    dsimp only at hloop
    rwa [Nat.cast_zero, Int.add_zero] at hloop
  · by_cases hlen : len = 0
    · rw [hlen, Sfs.readable_zero]
      exact u.copies_zero 0
    · exact hall hread hmem hlen

/-! ### Writing -/

/-- A piece of a write. -/
theorem Going.fileWrite {w₀ : FileSys} (hg : Going w₀ w pid fd f true buf n) (hwrite : f.writable = true)
    (hne : (buf.drop n).length ≠ 0) :
    ((ioAttempt (fileWrite pid fd ((buf.drop n).take 4096) (min 4096 (buf.drop n).length))).run w).Post
      (fun io w₁ => PieceDone w w₁ pid fd { f with pos := f.pos + n } true ((buf.drop n).take 4096)
        (min 4096 (buf.drop n).length) io) (fun _ _ => False) fun _ => True := by
  have hio := hg.piece (k := 4096) (show 0 < min 4096 (buf.drop n).length by omega) (by omega) fun _ => List.length_take
  have hrun : (Fs.fileWrite pid fd ((buf.drop n).take 4096) (min 4096 (buf.drop n).length)).run w =
      (fileIo pid fd { f with pos := f.pos + n } ((buf.drop n).take 4096) (min 4096 (buf.drop n).length) true).run w := by
    rw [Fs.fileWrite, Prog.bind_of_ok (fd2file_run hg.moves.pos), if_neg (by simp [hwrite])]
  rw [← hrun] at hio
  refine (ioAttempt_post hio).mono ?_ (fun _ _ hE => hE) fun _ _ => trivial
  rintro io w₁ (hdone | ⟨_, hfalse, -⟩)
  · exact hdone
  · exact hfalse.elim

/-- What has been written is part of the file. -/
theorem PieceDone.covered {len : ℕ} {r : IoResult} (h : PieceDone w w₁ pid fd f true buf len r) (halen : r.alen ≠ 0) :
    ¬ w₁.sfs.Uncovered f.node (f.pos + r.alen) := by
  have hcovered : ¬ (true = true ∧ w.sfs.Uncovered f.node f.pos) := fun hun => halen (h.uncovered rfl hun.2).1
  have hmoves := h.moves hcovered
  have hsize := hmoves.size
  have hstart := (hmoves.within halen).1
  rw [if_pos ⟨rfl, halen⟩] at hsize
  rintro ⟨-, -, hpast, -⟩
  omega

theorem assertLen_run {alen len : ℕ} (hle : alen ≤ len) : (assertLen alen len).run w = .ok () w := by
  unfold assertLen
  rw [Prog.run_ite, Prog.run_assert_of _ _ hle, Prog.run_pure, ite_self]

/-- **The loop of `sysfile_write`**, after `r.copied` bytes. -/
theorem sysfileWriteLoop_reports {w₀ : FileSys} {u : UserMem} {fuel : ℕ} {r : SysResult}
    (hg : Going w₀ w pid fd f true buf r.copied) (hwrite : f.writable = true) (hbytes : r.bytes = [])
    (hcovered : ¬ w.sfs.Uncovered f.node (f.pos + r.copied)) :
    Reports w₀ pid fd f true buf buf.length ((sysfileWriteLoop pid fd u fuel (buf.drop r.copied) r).run w) := by
  have hdone : ∀ w' (r' : SysResult), Going w₀ w' pid fd f true buf r'.copied → r'.bytes = [] → ∀ ret,
      Reports w₀ pid fd f true buf buf.length ((sysfileOut ret r').run w') := fun w' r' hg' hbytes' ret =>
    sysfileOut_reports hg'.moves (hg'.moves.length rfl) (by rw [hbytes', if_pos rfl]) ret
  induction fuel generalizing w r with
  | zero => exact hdone w r hg hbytes none
  | succ fuel ih =>
    rw [sysfileWriteLoop, Prog.run_ite]
    by_cases hnil : (buf.drop r.copied).length = 0
    · rw [if_pos hnil]
      exact hdone w r hg hbytes none
    rw [if_neg hnil, Prog.run_ite]
    by_cases hcopy : u.copy r.copied (min 4096 (buf.drop r.copied).length) = true
    swap
    · rw [if_neg hcopy]
      exact hdone w r hg hbytes (some .inval)
    rw [if_pos hcopy]
    have hpiece := hg.fileWrite hwrite hnil
    cases hio : (ioAttempt (fileWrite pid fd ((buf.drop r.copied).take 4096) (min 4096 (buf.drop r.copied).length))).run w with
    | error e w₁ =>
      rw [hio] at hpiece
      exact hpiece.elim
    | panic p =>
      rw [Prog.bind_of_panic hio]
      trivial
    | ok io w₁ =>
      rw [hio] at hpiece
      have hone : PieceDone w w₁ pid fd { f with pos := f.pos + r.copied } true ((buf.drop r.copied).take 4096)
        (min 4096 (buf.drop r.copied).length) io := hpiece
      have hgoing : Going w₀ w₁ pid fd f true buf (r.copied + io.alen) := hg.next hone fun hun => hcovered hun.2
      have hle := hone.le
      rw [Prog.bind_of_ok hio, Prog.bind_of_ok (assertLen_run (show io.alen ≤ (buf.drop r.copied).length by omega))]
      cases hstop : io.ret with
      | some e => exact hdone w₁ ⟨r.copied + io.alen, []⟩ hgoing rfl (some e)
      | none =>
        simp only [Prog.run_ite]
        by_cases hzero : io.alen = 0
        · rw [if_pos hzero]
          exact hdone w₁ ⟨r.copied + io.alen, []⟩ hgoing rfl none
        · rw [if_neg hzero, List.drop_drop]
          refine ih (r := ⟨r.copied + io.alen, []⟩) hgoing rfl ?_
          have := hone.covered hzero
          rwa [Nat.cast_add, ← Int.add_assoc]

/-- A write that has moved nothing but changed the size reports neither. -/
theorem not_reports_of_size {w₀ : FileSys} {r : SysResult} {len : ℕ} (hzero : r.copied = 0)
    (hsize : (w.sfs.inode f.node).size ≠ (w₀.sfs.inode f.node).size) (ret : Option FsError) :
    ¬ Reports w₀ pid fd f true buf len ((sysfileOut ret r).run w) := by
  have hmoved : ¬ BytesMoved w₀ w pid fd f true buf 0 := by
    intro hm
    apply hsize
    rw [hm.size, if_neg fun hne => hne.2 rfl]
  unfold sysfileOut
  cases ret with
  | none =>
    rintro ⟨-, hm, -⟩
    rw [hzero] at hm
    exact hmoved hm
  | some e =>
    rw [Prog.run_ite, if_neg fun hne => hne hzero]
    exact hmoved

/-- The first piece of a write without a block for its position. -/
theorem sysfileWriteLoop_uncovered {u : UserMem} (h : w.sfs.Consistent) (hf : w.file pid fd = some f)
    (hfile : w.sfs.IsFile f.node) (hoff : toOff f.pos = f.pos) (hwrite : f.writable = true) (hne : buf.length ≠ 0)
    (hcopy : u.copy 0 (min 4096 buf.length) = true) (hun : w.sfs.Uncovered f.node f.pos)
    (hret : ∀ p, (sysfileWriteLoop pid fd u buf.length buf ⟨0, []⟩).run w ≠ .panic p) :
    ¬ Reports w pid fd f true buf buf.length ((sysfileWriteLoop pid fd u buf.length buf ⟨0, []⟩).run w) := by
  obtain ⟨fuel, hfuel⟩ := Nat.exists_eq_succ_of_ne_zero hne
  rw [hfuel] at hret ⊢
  rw [sysfileWriteLoop, Prog.run_ite, if_neg hne, Prog.run_ite, if_pos hcopy] at hret ⊢
  have hstart : Going w w pid fd f true buf 0 := Going.refl h hf hfile hoff
  have hpiece := hstart.fileWrite hwrite (by rwa [List.drop_zero])
  rw [List.drop_zero] at hpiece
  cases hio : (ioAttempt (fileWrite pid fd (buf.take 4096) (min 4096 buf.length))).run w with
  | error e w₁ =>
    rw [hio] at hpiece
    exact hpiece.elim
  | panic p => exact absurd (Prog.bind_of_panic hio) (hret p)
  | ok io w₁ =>
    rw [hio] at hpiece
    have hone : PieceDone w w₁ pid fd { f with pos := f.pos + (0 : ℕ) } true (buf.take 4096) (min 4096 buf.length) io := hpiece
    obtain ⟨hzero, hgrown⟩ := hone.uncovered rfl (by rwa [Nat.cast_zero, Int.add_zero])
    have hsize : (w₁.sfs.inode f.node).size ≠ (w.sfs.inode f.node).size := hgrown
    rw [Prog.bind_of_ok hio, Prog.bind_of_ok (assertLen_run (show io.alen ≤ buf.length by omega))]
    cases hstop : io.ret with
    | some e => exact not_reports_of_size (r := ⟨0 + io.alen, []⟩) (by dsimp only; omega) hsize (some e)
    | none =>
      simp only [Prog.run_ite]
      rw [if_pos hzero]
      exact not_reports_of_size (r := ⟨0 + io.alen, []⟩) (by dsimp only; omega) hsize none

/-- **`sysfile_write`** is exact, unless the position has no block and lies past the end of the file. -/
theorem sysfileWrite_reports {u : UserMem} (h : w.sfs.Consistent) (hf : w.file pid fd = some f)
    (hfile : w.sfs.IsFile f.node) (hoff : toOff f.pos = f.pos) (hret : ∀ p, (sysfileWrite pid fd buf u).run w ≠ .panic p) :
    Reports w pid fd f true buf buf.length ((sysfileWrite pid fd buf u).run w) ↔
      (f.writable = true → u.kmalloc = true → buf.length ≠ 0 → u.copy 0 (min 4096 buf.length) = true →
        ¬ w.sfs.Uncovered f.node f.pos) := by
  have htest : (fileTestfd pid fd false true).run w = .ok f.writable w := by
    simp only [fileTestfd, Prog.run_bind, Prog.run_get, Outcome.andThen_ok, hf, Prog.run_pure, Bool.not_true,
      Bool.false_or, Bool.not_false, Bool.true_or, Bool.true_and]
  refine reports_checked hf htest hret fun hlen hwrite hret => ?_
  have hgoing : Going w w pid fd f true buf (⟨0, []⟩ : SysResult).copied := Going.refl h hf hfile hoff
  constructor
  · intro hrep hcopy hun
    exact sysfileWriteLoop_uncovered h hf hfile hoff hwrite hlen hcopy hun hret hrep
  · intro hall
    by_cases hcopy : u.copy 0 (min 4096 buf.length) = true
    · exact sysfileWriteLoop_reports hgoing hwrite rfl (by rw [Nat.cast_zero, Int.add_zero]; exact hall hcopy)
    · -- the first bytes cannot be read from the user
      obtain ⟨fuel, hfuel⟩ := Nat.exists_eq_succ_of_ne_zero hlen
      rw [hfuel, sysfileWriteLoop, Prog.run_ite, if_neg hlen, Prog.run_ite, if_neg hcopy]
      exact sysfileOut_reports hgoing.moves (Nat.zero_le _) rfl (some .inval)

/-- **`read` and `write` report what has happened**, for every open descriptor of a regular file, every
user buffer, every length and every state of the file, whenever the call returns: a read if and only if
the pieces that it delivers can be copied to the user, and a write unless its first byte comes past the
end of the file and there is no block for it. -/
theorem read_write_exact (h : w.sfs.Consistent) (hf : w.file pid fd = some f) (hfile : w.sfs.IsFile f.node)
    (hoff : toOff f.pos = f.pos) (u : UserMem) :
    (∀ len, (∀ p, (sysfileRead pid fd len u).run w ≠ .panic p) →
      (Reports w pid fd f false [] len ((sysfileRead pid fd len u).run w) ↔
        (f.readable = true → u.kmalloc = true → u.Copies 0 (w.sfs.readable f.node f.pos len)))) ∧
    ∀ buf, (∀ p, (sysfileWrite pid fd buf u).run w ≠ .panic p) →
      (Reports w pid fd f true buf buf.length ((sysfileWrite pid fd buf u).run w) ↔
        (f.writable = true → u.kmalloc = true → buf.length ≠ 0 → u.copy 0 (min 4096 buf.length) = true →
          ¬ w.sfs.Uncovered f.node f.pos)) :=
  ⟨fun _ hret => sysfileRead_reports h hf hfile hoff hret, fun _ hret => sysfileWrite_reports h hf hfile hoff hret⟩

end descriptor

/-- A buffer that the user may not write. -/
def faulty : UserMem := ⟨true, fun _ _ => false⟩

/-- A read of one byte into a buffer that the user may not write: the call returns an error, and the
position has moved. -/
theorem read_moves_past_fault : (oneByte 0).sfs.Consistent ∧ (oneByte 0).sfs.IsFile 4 ∧
    (oneByte 0).file 1 0 = some ⟨true, true, 0, 4⟩ ∧
    (∃ w', (sysfileRead 1 0 1 faulty).run (oneByte 0) = .error .inval w' ∧ w'.file 1 0 = some ⟨true, true, 1, 4⟩) ∧
    ¬ Reports (oneByte 0) 1 0 ⟨true, true, 0, 4⟩ false [] 1 ((sysfileRead 1 0 1 faulty).run (oneByte 0)) := by
  have hwhole := oneByte_whole 0
  have hrun : ∃ w', (sysfileRead 1 0 1 faulty).run (oneByte 0) = .error .inval w' ∧
      w'.file 1 0 = some ⟨true, true, 1, 4⟩ := by
    have hat : (oneByte 0).At 1 0 4 0 := rfl
    obtain ⟨w', hio, hat', -⟩ := fileIo_whole hat hwhole (Nat.zero_le _) [] 1 false (by omega) Bool.noConfusion Bool.noConfusion
    have hpiece : (fileRead 1 0 1).run (oneByte 0) = .ok ⟨none, 1, tabulate ((oneByte 0).sfs.byteAt 4) 0 1⟩ w' := by
      rw [fileRead, Prog.bind_of_ok (fd2file_run hat)]
      exact hio
    refine ⟨w', ?_, hat'⟩
    rw [sysfileRead, if_neg Nat.one_ne_zero, Prog.bind_of_ok (fileTestfd_at hat _ _)]
    exact Prog.bind_of_ok (ioAttempt_run hpiece)
  refine ⟨hwhole.consistent, hwhole.isFile, rfl, hrun, ?_⟩
  obtain ⟨w', hrun, hpos⟩ := hrun
  rw [hrun]
  intro hmoved
  have heq := hpos.symm.trans hmoved.pos
  simp at heq

theorem read_write_exact_one_byte :
    (Reports (oneByte 0) 1 0 ⟨true, true, 0, 4⟩ false [] 1 ((sysfileRead 1 0 1 userMem).run (oneByte 0)) ↔
      ((true : Bool) = true → userMem.kmalloc = true → userMem.Copies 0 ((oneByte 0).sfs.readable 4 0 1))) ∧
    (Reports (oneByte 0) 1 0 ⟨true, true, 0, 4⟩ true [8] 1 ((sysfileWrite 1 0 [8] userMem).run (oneByte 0)) ↔
      ((true : Bool) = true → userMem.kmalloc = true → 1 ≠ 0 → userMem.copy 0 1 = true →
        ¬ (oneByte 0).sfs.Uncovered 4 0)) := by
  have hwhole := oneByte_whole 0
  have hat : (oneByte 0).At 1 0 4 0 := rfl
  have hexact := read_write_exact hwhole.consistent hat hwhole.isFile rfl userMem
  obtain ⟨w', hread, -⟩ := sysfileRead_whole userMem_available 1 hat hwhole (Nat.zero_le _)
  have hroom : 0 + [(8 : UInt8)].length ≤ 4096 * 1036 := by
    show 1 ≤ 4096 * 1036
    omega
  obtain ⟨w'', hwrite, -⟩ := sysfileWrite_whole userMem_available hat hwhole (Nat.zero_le _) hroom (Nat.zero_le _)
  constructor
  · refine hexact.1 1 fun p hp => ?_
    rw [hread] at hp
    cases hp
  · refine hexact.2 [8] fun p hp => ?_
    rw [hwrite] at hp
    cases hp

end Ucore.Fs
