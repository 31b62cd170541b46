import Ucore.Fs.FileRuns

/-!
# What opening does to a file

`vfs_open` truncates the file that it has found under `open_flags & O_TRUNC || create`, where `create` is the bit
`O_CREAT`. It does not ask whether the file is new, so `O_CREAT` alone empties a file that exists.

* `SameFile` says that a file is the same in two states: its size, its blocks and its bytes.
* `vfsOpen_sameFile_iff` says when a successful call without `O_TRUNC` leaves the file the same: when `O_CREAT` is not set
  either, or when there is nothing to lose.
* `vfsOpen_creat_run` is the other case: a file with bytes is opened, and it has no bytes and no blocks then.
-/

namespace Ucore.Fs

open Ucore.Lib

/-- A file is the same in two states. -/
structure SameFile (s s' : Sfs) (ino : ℕ) : Prop where
  size : (s'.inode ino).size = (s.inode ino).size
  blocks : (s'.inode ino).blocks = (s.inode ino).blocks
  /-- The disk block behind every index. -/
  slot : ∀ i, s'.slot ino i = s.slot ino i
  bytes : ∀ k, s'.byteAt ino k = s.byteAt ino k

theorem SameFile.refl (s : Sfs) (ino : ℕ) : SameFile s s ino := ⟨rfl, rfl, fun _ => rfl, fun _ => rfl⟩

section truncate

variable {s s' : Sfs} {ino : ℕ}

/-- A file of size 0 is not touched, and every other has size 0 afterwards. -/
theorem sfsTruncfile_zero (hrun : (sfsTruncfile ino 0).run s = .ok () s') :
    (s.inode ino).size = 0 ∧ s' = s ∨ (s.inode ino).size ≠ 0 ∧ (s'.inode ino).size = 0 := by
  have hrange : ¬ ((0 : ℤ) < 0 ∨ (0 : ℤ) > sfsMaxFileSize) := by
    have : sfsMaxFileSize = 134217728 := rfl
    omega
  rw [sfsTruncfile, if_neg hrange, Prog.get_bind_eq_ok] at hrun
  simp only [Int.toNat_zero] at hrun
  by_cases hsize : (s.inode ino).size = 0
  · rw [if_pos hsize, Prog.run_assert] at hrun
    split_ifs at hrun
    cases hrun
    exact Or.inl ⟨hsize, rfl⟩
  · -- no blocks are wanted, so the file does not grow
    rw [if_neg hsize, if_neg (Nat.not_lt_zero _), Prog.bind_eq_ok] at hrun
    obtain ⟨_, s₁, -, hrest⟩ := hrun
    rw [Prog.get_bind_eq_ok, Prog.assert_bind_eq_ok] at hrest
    obtain ⟨-, hset⟩ := hrest
    cases hset
    exact Or.inr ⟨hsize, by rw [Sfs.setInode_same]⟩

/-- A file with bytes loses them all: nothing can go wrong when a file shrinks. -/
theorem sfsTruncfile_zero_run (h : s.Consistent) (hino : ino ∈ s.inos) (hsize : (s.inode ino).size ≠ 0) :
    ∃ s', (sfsTruncfile ino 0).run s = .ok () s' ∧ Resized s s' ino 0 := by
  have hends : ((sfsTruncfile ino 0).run s).Post (fun _ s' => Resized s s' ino 0) (fun _ _ => False)
      fun _ => False := by
    refine (sfsTruncfile_post h hino 0).mono (fun _ _ hres => hres) ?_ ?_
    · rintro e s' (⟨-, -, hrange⟩ | ⟨-, -, hshort⟩)
      · have : sfsMaxFileSize = 134217728 := rfl
        omega
      · exact Nat.not_lt_zero _ hshort.short
    · rintro p ⟨-, ⟨-, hzero, -⟩ | ⟨s', -, hlt, -⟩⟩
      · exact hsize hzero
      · exact Nat.not_lt_zero _ hlt
  obtain ⟨_, s', hrun, hres⟩ := hends.exists_ok
  exact ⟨s', hrun, hres⟩

end truncate

section opening

variable {w w' : FileSys} {ino node : ℕ} {flags : BitVec 32}

theorem onSfs_eq_ok {α : Type} {m : SfsProg α} {a : α} (hrun : (onSfs m).run w = .ok a w') :
    m.run w.sfs = .ok a w'.sfs := by
  rw [onSfs, Prog.zoom] at hrun
  simp only at hrun
  split at hrun
  · next hm =>
    cases hrun
    exact hm
  · cases hrun
  · cases hrun

/-- What a successful call has done: nothing, or the truncation. -/
theorem vfsOpen_eq_ok (hrun : (vfsOpen ino flags).run w = .ok node w') :
    flags &&& oTrunc = 0 ∧ flags &&& oCreat = 0 ∧ w' = w ∨
      (flags &&& oTrunc ≠ 0 ∨ flags &&& oCreat ≠ 0) ∧ (sfsTruncfile ino 0).run w.sfs = .ok () w'.sfs := by
  rw [vfsOpen] at hrun
  split at hrun
  · cases hrun
  simp only [Prog.run_ite] at hrun
  split_ifs at hrun with _ _ htrunc
  · cases hrun
  · cases hrun
  · rw [Prog.bind_eq_ok] at hrun
    obtain ⟨_, w₁, hsfs, hpure⟩ := hrun
    cases hpure
    exact Or.inr ⟨htrunc, onSfs_eq_ok hsfs⟩
  · cases hrun
    rw [not_or, not_not, not_not] at htrunc
    exact Or.inl ⟨htrunc.1, htrunc.2, rfl⟩

/-- **Opening with `O_CREAT`** a file that has bytes: it has no blocks and no bytes then. -/
theorem vfsOpen_creat_run (h : w.sfs.Consistent) (hino : ino ∈ w.sfs.inos) (hsize : (w.sfs.inode ino).size ≠ 0)
    (hacc : accmode flags ≠ none) (htrunc : flags &&& oTrunc = 0) (hcreat : flags &&& oCreat ≠ 0)
    (hexcl : flags &&& oExcl = 0) :
    ∃ w', (vfsOpen ino flags).run w = .ok ino w' ∧ (w'.sfs.inode ino).size = 0 ∧ (w'.sfs.inode ino).blocks = 0 ∧
      ∀ k, w'.sfs.byteAt ino k = 0 := by
  obtain ⟨s', hrun, hres⟩ := sfsTruncfile_zero_run h hino hsize
  obtain ⟨⟨r, canWrite⟩, hmode⟩ := Option.ne_none_iff_exists'.mp hacc
  refine ⟨⟨s', w.fdArray⟩, ?_, hres.size, hres.blocks, fun k => ?_⟩
  · rw [vfsOpen]
    simp only [hmode]
    rw [if_neg fun hc => hc.1 htrunc, if_neg fun hc => hc.1 hexcl, if_pos (Or.inr hcreat), Prog.run_bind, onSfs, Prog.zoom]
    simp only [hrun, Outcome.andThen_ok, Prog.run_pure]
  · rw [hres.bytes, if_neg (Nat.not_lt_zero k)]

/-- A file of two blocks is opened with `O_WRONLY | O_CREAT`. -/
theorem creat_two_blocks : ∃ w w' : FileSys, w.sfs.Consistent ∧ w.sfs.IsFile 4 ∧ (w.sfs.inode 4).size = 8192 ∧
    (vfsOpen 4 5).run w = .ok 4 w' ∧ (w'.sfs.inode 4).size = 0 := by
  obtain ⟨s, -, hres⟩ := truncate_two_blocks
  have hfile : s.IsFile 4 := hres.kept.isFile ⟨mem_emptyFile, rfl⟩
  have hsize : (s.inode 4).size ≠ 0 := by
    rw [hres.size]
    decide
  have hacc : accmode 5 ≠ none := by decide
  obtain ⟨w', hrun, hzero, -, -⟩ := vfsOpen_creat_run (w := ⟨s, fun _ _ => none⟩) hres.kept.consistent hfile.1 hsize hacc
    (by decide) (by decide) (by decide)
  exact ⟨_, w', hres.kept.consistent, hfile, hres.size, hrun, hzero⟩

/-- **Opening without `O_TRUNC`** leaves the file the same exactly when `O_CREAT` is not set or the file is empty. -/
theorem vfsOpen_sameFile_iff (hflags : flags &&& oTrunc = 0) (hrun : (vfsOpen ino flags).run w = .ok node w') :
    SameFile w.sfs w'.sfs ino ↔ flags &&& oCreat = 0 ∨ (w.sfs.inode ino).size = 0 := by
  rcases vfsOpen_eq_ok hrun with ⟨-, hcreat, rfl⟩ | ⟨hasked, htrunc⟩
  · exact ⟨fun _ => Or.inl hcreat, fun _ => .refl _ _⟩
  have hcreat : flags &&& oCreat ≠ 0 := hasked.resolve_left fun h => h hflags
  rcases sfsTruncfile_zero htrunc with ⟨hsize, hsame⟩ | ⟨hsize, hgone⟩
  · rw [hsame]
    exact ⟨fun _ => Or.inr hsize, fun _ => .refl _ _⟩
  · constructor
    · intro h
      rw [← h.size]
      exact Or.inr hgone
    · rintro (hclear | hzero)
      · exact absurd hclear hcreat
      · exact absurd hzero hsize

/-- `O_WRONLY | O_CREAT`, and the file of two blocks. -/
theorem vfsOpen_sameFile_two_blocks : ∃ w w' : FileSys, (w.sfs.inode 4).size = 8192 ∧
    (vfsOpen 4 5).run w = .ok 4 w' ∧
    (SameFile w.sfs w'.sfs 4 ↔ (5 : BitVec 32) &&& oCreat = 0 ∨ (w.sfs.inode 4).size = 0) := by
  obtain ⟨w, w', -, -, hsize, hrun, -⟩ := creat_two_blocks
  exact ⟨w, w', hsize, hrun, vfsOpen_sameFile_iff (by decide) hrun⟩

/-- `O_WRONLY | O_CREAT` without `O_TRUNC`: the 8192 bytes of a file that exists are gone. -/
theorem vfsOpen_creat_loses_bytes : ∃ w w' : FileSys, w.sfs.Consistent ∧ w.sfs.IsFile 4 ∧ (w.sfs.inode 4).size = 8192 ∧
    (5 : BitVec 32) &&& oTrunc = 0 ∧ (vfsOpen 4 5).run w = .ok 4 w' ∧ (w'.sfs.inode 4).size = 0 ∧
    ¬ SameFile w.sfs w'.sfs 4 := by
  obtain ⟨w, w', hcons, hfile, hsize, hrun, hzero⟩ := creat_two_blocks
  refine ⟨w, w', hcons, hfile, hsize, by decide, hrun, hzero, fun h => ?_⟩
  have := h.size
  omega

end opening

end Ucore.Fs
