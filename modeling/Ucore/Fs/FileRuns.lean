import Ucore.Fs.File
import Ucore.Fs.SfsRuns

/-!
# Runs of system calls on open files

Interleavings of whole system calls of any number of processes, each with its own descriptors.

* `no_index_panic_of_valid_positions`: the assertion `index <= din->blocks` of
  `sfs_bmap_load_nolock` does not fail in a run in which every write starts at a position inside the
  blocks of its file, or right behind them.
* `stale_position_panics`: a position is checked when it is set and not when it is used. A descriptor
  that was moved to the end of a file keeps its position when another descriptor truncates the file,
  and the next write through it fails the assertion.
-/

namespace Ucore.Fs

open Ucore.Lib Relation

/-! ### Offsets -/

theorem toOff_of_lt {x : ℤ} (h₀ : 0 ≤ x) (h : x < 2 ^ 31) : toOff x = x := by
  rw [toOff, Int.bmod]
  omega

theorem toOff_le {x : ℤ} (h₀ : 0 ≤ x) : toOff x ≤ x := by
  rw [toOff, Int.bmod]
  omega

variable {s s' : Sfs} {sin : ℕ}

section io

variable {base : List UInt8} {offset : ℤ} {alen : ℕ} {write : Bool}

/-- A transfer moves no more bytes than asked for. -/
theorem IoAccepted.endpos_le (h : IoAccepted (s.inode sin).size offset alen write) :
    ioEndpos (s.inode sin).size offset alen write ≤ offset.toNat + alen := by
  have hle := toOff_le (x := offset + alen) (by have := h.1; omega)
  have h₀ := h.1
  unfold ioEndpos
  split_ifs <;> omega

theorem ioEndpos_le_max (size : ℕ) (offset : ℤ) (alen : ℕ) (write : Bool) :
    ioEndpos size offset alen write ≤ sfsMaxFileSize := by
  unfold ioEndpos
  split_ifs <;> omega

/-- A write that starts more than one block behind the last block fails the assertion. -/
theorem sfsIoNolock_loadIndex (hdir : (s.inode sin).type ≠ .dir)
    (hacc : IoAccepted (s.inode sin).size offset alen write)
    (hidx : (s.inode sin).blocks < offset.toNat / 4096) :
    (sfsIoNolock sin base offset alen write).run s = .panic .loadIndex := by
  rw [sfsIoNolock_of_accepted hdir hacc]
  refine Prog.bind_of_panic (ioTransfer_of_panic hacc.lt ?_)
  simp only [sfsBmapLoadNolock, Prog.run_bind, Prog.run_get, Outcome.andThen_ok,
    Prog.run_assert_of_not _ _ (not_le.mpr hidx), Outcome.andThen_panic]

/-- This is the only way to fail it. -/
theorem IoPanic.of_loadIndex {offset endpos : ℕ} (h : IoPanic s sin offset endpos .loadIndex) :
    (s.inode sin).blocks < offset / 4096 := by
  obtain ⟨pos, r, s₁, hinv, hle, hlt, hp⟩ := h
  have hidx : (s₁.inode sin).blocks < pos / 4096 := by
    rcases hp with ⟨-, hp⟩ | ⟨hp, -⟩ | ⟨hp, -⟩
    · exact hp
    · exact SfsPanic.noConfusion hp
    · exact SfsPanic.noConfusion hp
  rcases hle.eq_or_lt with rfl | hlt'
  · rwa [hinv.start rfl] at hidx
  · have := hinv.mapped hlt'
    omega

end io

/-! ### Sizes -/

/-- The size of a file is inside its blocks or the block behind them. -/
def Sfs.SizeMapped (s : Sfs) (ino : ℕ) : Prop := (s.inode ino).size / 4096 ≤ (s.inode ino).blocks

theorem Progress.sizeMapped (h : Progress s s' sin) (hs : s.SizeMapped sin) : s'.SizeMapped sin := by
  have := h.mono
  rw [Sfs.SizeMapped] at *
  rw [h.size]
  omega

theorem Resized.sizeMapped {len : ℕ} (h : Resized s s' sin len) : s'.SizeMapped sin := by
  rw [Sfs.SizeMapped, h.size, h.blocks]
  omega

theorem Sfs.SizeMapped.raiseSize {endpos : ℕ} (h : s.SizeMapped sin)
    (hend : endpos / 4096 ≤ (s.inode sin).blocks) : (s.raiseSize sin endpos).SizeMapped sin := by
  rw [Sfs.SizeMapped] at *
  rw [Sfs.raiseSize_size, Sfs.raiseSize_blocks]
  omega

/-- A regular file of the image. -/
def Sfs.IsFile (s : Sfs) (ino : ℕ) : Prop := ino ∈ s.inos ∧ (s.inode ino).type = .file

theorem Sfs.IsFile.not_dir (h : s.IsFile sin) : (s.inode sin).type ≠ .dir := by
  rw [h.2]
  exact SfsType.noConfusion

theorem Kept.isFile (h : Kept s s' sin) {ino : ℕ} (hino : s.IsFile ino) : s'.IsFile ino := by
  refine ⟨by rw [h.inos]; exact hino.1, ?_⟩
  by_cases heq : ino = sin
  · rw [heq, h.type, ← heq, hino.2]
  · rw [h.other ino heq, hino.2]

/-- The invariant of the file system. -/
structure Sfs.Ok (s : Sfs) : Prop where
  consistent : s.Consistent
  sizes : s.ForallFiles Sfs.SizeMapped

theorem Kept.ok (hkept : Kept s s' sin) (h : s.Ok) (hs : s'.SizeMapped sin) : s'.Ok := by
  refine ⟨hkept.consistent, fun ino hino htype => ?_⟩
  by_cases heq : ino = sin
  · rwa [heq]
  · rw [hkept.inos] at hino
    rw [hkept.other ino heq] at htype
    have := h.sizes ino hino htype
    rwa [Sfs.SizeMapped, hkept.other ino heq]

/-! ### The file system under the invariant -/

/-- A transfer ends inside the blocks of the file. The assertion on its block index fails only if it
starts behind them. -/
theorem sfsIo_post (h : s.Ok) (hfile : s.IsFile sin) (base : List UInt8) (offset : ℤ) (resid : ℕ)
    (write : Bool) :
    ((sfsIo sin base offset resid write).run s).Post
      (fun r t => Kept s t sin ∧ t.Ok ∧ (r.ret = none → r.alen ≠ 0 → 0 ≤ offset ∧
        offset.toNat + r.alen ≤ sfsMaxFileSize ∧
        offset.toNat + r.alen ≤ 4096 * (t.inode sin).blocks))
      (fun _ _ => False)
      (fun p => p = .loadIndex → IoAccepted (s.inode sin).size offset resid write ∧
        (s.inode sin).blocks < offset.toNat / 4096) := by
  have hdir : (s.inode sin).type ≠ .dir := by
    rw [hfile.2]
    exact SfsType.noConfusion
  have hsize := h.sizes sin hfile.1 hfile.2
  rw [sfsIo, Outcome.post_bind]
  refine (sfsIoNolock_post h.consistent hfile.1 hdir).mono ?_ (fun _ _ hF => hF) ?_
  · rintro r t (⟨halen, rfl⟩ | ⟨hacc, s₁, rfl, ⟨hret, hinv⟩ | hshort⟩)
    · simp only [halen, ne_eq, not_true, if_false, Prog.run_pure]
      exact ⟨.refl h.consistent sin, h, fun _ h0 => absurd halen h0⟩
    · have hend := hacc.endpos_le
      have hmax := ioEndpos_le_max (s.inode sin).size offset resid write
      have halen := hinv.alen
      have hmapped := hinv.mapped hacc.lt
      have hkept := hinv.progress.kept.trans
        (.raiseSize hinv.progress.kept.consistent sin (offset.toNat + r.alen))
      have hpass : r.alen ≤ resid := by omega
      simp only [Prog.run_bind, Prog.run_ite, Prog.run_assert_of _ _ hpass, Prog.run_pure, ite_self,
        Outcome.andThen_ok]
      refine ⟨hkept, hkept.ok h ((hinv.progress.sizeMapped hsize).raiseSize (by omega)),
        fun _ _ => ⟨hacc.1, by omega, ?_⟩⟩
      rw [Sfs.raiseSize_blocks]
      omega
    · have hend := hacc.endpos_le
      have halen := hshort.short
      have hnext := hshort.next
      have hkept := hshort.inv.progress.kept.trans
        (.raiseSize hshort.inv.progress.kept.consistent sin (offset.toNat + r.alen))
      have hpass : r.alen ≤ resid := by omega
      simp only [Prog.run_bind, Prog.run_ite, Prog.run_assert_of _ _ hpass, Prog.run_pure, ite_self,
        Outcome.andThen_ok]
      refine ⟨hkept, hkept.ok h ((hshort.inv.progress.sizeMapped hsize).raiseSize (by omega)),
        fun h0 => ?_⟩
      rw [hshort.ret] at h0
      exact absurd h0 (Option.some_ne_none _)
  · rintro p ⟨hacc, hp⟩ rfl
    exact ⟨hacc, hp.of_loadIndex⟩

theorem LoadPanic.ne_loadIndex {p : SfsPanic} (h : LoadPanic s sin (s.inode sin).blocks p) :
    p ≠ .loadIndex := by
  rcases h with ⟨-, h⟩ | ⟨rfl, -⟩ | ⟨rfl, -⟩
  · exact absurd h (lt_irrefl _)
  · exact SfsPanic.noConfusion
  · exact SfsPanic.noConfusion

theorem TruncPanic.ne_loadIndex {len : ℕ} {p : SfsPanic} (h : TruncPanic s sin len p) :
    p ≠ .loadIndex := by
  rcases h with ⟨rfl, -⟩ | ⟨s', -, -, hp⟩
  · exact SfsPanic.noConfusion
  · exact hp.ne_loadIndex

/-- Resizing and seeking never fail the assertion: they ask for the block after the last one. -/
theorem sfsTruncfile_ok_post (h : s.Ok) (hfile : s.IsFile sin) (len : ℤ) :
    ((sfsTruncfile sin len).run s).Post (fun _ t => Kept s t sin ∧ t.Ok)
      (fun _ t => Kept s t sin ∧ t.Ok) fun p => p ≠ .loadIndex := by
  refine (sfsTruncfile_post h.consistent hfile.1 len).mono ?_ ?_ fun p hp => hp.2.ne_loadIndex
  · exact fun _ t hres => ⟨hres.kept, hres.kept.ok h hres.sizeMapped⟩
  · rintro e t (⟨-, rfl, -⟩ | ⟨-, -, hshort⟩)
    · exact ⟨.refl h.consistent sin, h⟩
    · exact ⟨hshort.progress.kept, hshort.progress.kept.ok h
        (hshort.progress.sizeMapped (h.sizes sin hfile.1 hfile.2))⟩

theorem sfsTryseek_ok_post (h : s.Ok) (hfile : s.IsFile sin) (pos : ℤ) :
    ((sfsTryseek sin pos).run s).Post (fun _ t => Kept s t sin ∧ t.Ok)
      (fun _ t => Kept s t sin ∧ t.Ok) fun p => p ≠ .loadIndex := by
  refine (sfsTryseek_post h.consistent hfile.1 pos).mono ?_ ?_ fun p hp => hp.2.2.ne_loadIndex
  · rintro _ t (⟨-, rfl⟩ | ⟨-, hres⟩)
    · exact ⟨.refl h.consistent sin, h⟩
    · exact ⟨hres.kept, hres.kept.ok h hres.sizeMapped⟩
  · rintro e t (⟨-, rfl, -⟩ | ⟨-, -, -, hshort⟩)
    · exact ⟨.refl h.consistent sin, h⟩
    · exact ⟨hshort.progress.kept, hshort.progress.kept.ok h
        (hshort.progress.sizeMapped (h.sizes sin hfile.1 hfile.2))⟩

/-! ### Descriptors -/

variable {w w' : FileSys} {pid : ℕ} {fd : ℤ} {f : File}

theorem FileSys.setFd_same (w : FileSys) (pid fd : ℕ) (f : Option File) :
    (w.setFd pid fd f).fdArray pid fd = f := by
  simp [FileSys.setFd]

theorem FileSys.setFd_of_ne (w : FileSys) {pid fd pid' fd' : ℕ} (f : Option File)
    (h : ¬ (pid' = pid ∧ fd' = fd)) : (w.setFd pid fd f).fdArray pid' fd' = w.fdArray pid' fd' := by
  by_cases hpid : pid' = pid
  · subst hpid
    simp [FileSys.setFd, Function.update_of_ne fun hfd => h ⟨rfl, hfd⟩]
  · simp [FileSys.setFd, Function.update_of_ne hpid]

/-- The invariant of the file layer: descriptors are open on regular files. -/
structure FileSys.Ok (w : FileSys) : Prop where
  sfs : w.sfs.Ok
  fds : ∀ pid fd f, w.fdArray pid fd = some f → w.sfs.IsFile f.node

theorem FileSys.Ok.isFile (h : w.Ok) (hf : w.file pid fd = some f) : w.sfs.IsFile f.node := by
  unfold FileSys.file at hf
  split_ifs at hf
  exact h.fds _ _ _ hf

/-- An item of the table is set, possibly to another position. -/
theorem FileSys.file_setFd (hf : w.file pid fd = some f) (f' : Option File) :
    (w.setFd pid fd.toNat f').file pid fd = f' := by
  unfold FileSys.file at hf ⊢
  split_ifs at hf with hrange
  rw [if_pos hrange, FileSys.setFd_same]

theorem FileSys.Ok.setFd (h : w.Ok) (pid fd : ℕ) {f : Option File}
    (hf : ∀ g, f = some g → w.sfs.IsFile g.node) : (w.setFd pid fd f).Ok := by
  refine ⟨h.sfs, fun pid' fd' g hg => ?_⟩
  by_cases heq : pid' = pid ∧ fd' = fd
  · obtain ⟨rfl, rfl⟩ := heq
    rw [FileSys.setFd_same] at hg
    exact hf g hg
  · rw [FileSys.setFd_of_ne w f heq] at hg
    exact h.fds _ _ _ hg

/-- The file system has changed under the open files. -/
structure Below (w w' : FileSys) : Prop where
  fds : w'.fdArray = w.fdArray
  files : ∀ ino, w.sfs.IsFile ino → w'.sfs.IsFile ino

theorem Below.ok (h : Below w w') (hw : w.Ok) (hs : w'.sfs.Ok) : w'.Ok :=
  ⟨hs, fun pid fd f hf => h.files _ (hw.fds pid fd f (by rwa [h.fds] at hf))⟩

theorem onSfs_post {α : Type} {m : SfsProg α} {Q : α → Sfs → Prop} {E : FsError → Sfs → Prop}
    {P : SfsPanic → Prop} (h : (m.run w.sfs).Post Q E P) :
    ((onSfs m).run w).Post (fun a w' => Q a w'.sfs ∧ w'.fdArray = w.fdArray)
      (fun e w' => E e w'.sfs ∧ w'.fdArray = w.fdArray) P := by
  simp only [onSfs, Prog.zoom]
  cases hrun : m.run w.sfs with
  | ok a t =>
    rw [hrun] at h
    exact ⟨h, rfl⟩
  | error e t =>
    rw [hrun] at h
    exact ⟨h, rfl⟩
  | panic p =>
    rw [hrun] at h
    exact h

theorem fd2file_run (hf : w.file pid fd = some f) : (fd2file pid fd).run w = .ok f w := by
  simp only [fd2file, Prog.run_bind, Prog.run_get, Outcome.andThen_ok, hf, Prog.run_pure]

theorem fd2file_none (hf : w.file pid fd = none) : (fd2file pid fd).run w = .error .inval w := by
  simp only [fd2file, Prog.run_bind, Prog.run_get, Outcome.andThen_ok, hf, Prog.run_throw]

/-- A read or a write through a descriptor. -/
theorem fileIo_post (h : w.Ok) (hf : w.file pid fd = some f) (base : List UInt8) (len : ℕ)
    (write : Bool) :
    ((fileIo pid fd f base len write).run w).Post
      (fun r w' => w'.Ok ∧ ∃ pos, w'.file pid fd = some { f with pos := pos } ∧
        (r.ret = none → r.alen ≠ 0 →
          pos.toNat ≤ 4096 * (w'.sfs.inode f.node).blocks))
      (fun _ _ => False)
      (fun p => p = .loadIndex → IoAccepted (w.sfs.inode f.node).size f.pos len write ∧
        (w.sfs.inode f.node).blocks < f.pos.toNat / 4096) := by
  rw [fileIo]
  refine ((onSfs_post (sfsIo_post h.sfs (h.isFile hf) base f.pos len write)).mono (fun _ _ hQ => hQ)
    (fun _ _ hE => hE.1) fun _ hP => hP).bind ?_
  rintro r w₁ ⟨⟨hkept, hok, hend⟩, hfds⟩
  have hw₁ : w₁.Ok := Below.ok ⟨hfds, fun _ => hkept.isFile⟩ h hok
  have hf₁ : w₁.file pid fd = some f := by
    unfold FileSys.file at hf ⊢
    rwa [hfds]
  refine ⟨hw₁.setFd pid fd.toNat ?_, toOff (f.pos + r.alen), FileSys.file_setFd hf₁ _, ?_⟩
  · rintro g ⟨⟩
    have := hw₁.isFile hf₁
    exact this
  · intro hret halen
    obtain ⟨h₀, hmax, hblocks⟩ := hend hret halen
    have : sfsMaxFileSize = 134217728 := rfl
    rw [toOff_of_lt (by omega) (by omega)]
    show (f.pos + r.alen).toNat ≤ 4096 * (w₁.sfs.inode f.node).blocks
    omega

/-! ### Calls -/

theorem ioAttempt_post {m : FileProg IoResult} {Q : IoResult → FileSys → Prop}
    {E : FsError → FileSys → Prop} {P : SfsPanic → Prop} (h : (m.run w).Post Q E P) :
    ((ioAttempt m).run w).Post (fun r w' => Q r w' ∨ ∃ e, E e w' ∧ r = ⟨some e, 0, []⟩)
      (fun _ _ => False) P := by
  simp only [ioAttempt, Prog.run_bind, Prog.attempt]
  cases hrun : m.run w with
  | ok r w' =>
    rw [hrun] at h
    exact Or.inl h
  | error e w' =>
    rw [hrun] at h
    exact Or.inr ⟨e, h, rfl⟩
  | panic p =>
    rw [hrun] at h
    exact h

theorem sysfileOut_post {I : FileSys → Prop} {P : SfsPanic → Prop} (h : I w) (ret : Option FsError)
    (r : SysResult) :
    ((sysfileOut ret r).run w).Post (fun _ w' => I w') (fun _ w' => I w') P := by
  unfold sysfileOut
  split
  · rw [Prog.run_ite]
    split_ifs
    · exact h
    · exact h
  · exact h

theorem assertLen_post {E : FsError → FileSys → Prop} (alen len : ℕ) :
    ((assertLen alen len).run w).Post (fun _ w' => w' = w) E fun p => p ≠ .loadIndex := by
  unfold assertLen
  rw [Prog.run_ite, Prog.run_assert]
  split_ifs
  · exact rfl
  · exact SfsPanic.noConfusion
  · exact rfl

/-- A write through the descriptor starts inside the blocks of the file, or right behind them. -/
def File.PosOk (f : File) (w : FileSys) (len : ℕ) : Prop :=
  f.writable = true → IoAccepted (w.sfs.inode f.node).size f.pos len true →
    f.pos.toNat / 4096 ≤ (w.sfs.inode f.node).blocks

theorem fileWrite_post (h : w.Ok) (hf : w.file pid fd = some f) (base : List UInt8) (len : ℕ) :
    ((fileWrite pid fd base len).run w).Post
      (fun r w' => w'.Ok ∧ ∃ pos, w'.file pid fd = some { f with pos := pos } ∧
        (r.ret = none → r.alen ≠ 0 → pos.toNat ≤ 4096 * (w'.sfs.inode f.node).blocks))
      (fun _ w' => w'.Ok) (fun p => f.PosOk w len → p ≠ .loadIndex) := by
  rw [fileWrite, Prog.bind_of_ok (fd2file_run hf), Prog.run_ite]
  split_ifs with hw
  · exact h
  · refine (fileIo_post h hf base len true).mono (fun _ _ hQ => hQ) (fun _ _ hF => hF.elim) ?_
    rintro p hp hpos rfl
    obtain ⟨hacc, hidx⟩ := hp rfl
    exact absurd (hpos (by simpa using hw) hacc) (not_le.mpr hidx)

/-- A read starts inside the file. -/
theorem fileRead_post (h : w.Ok) (hf : w.file pid fd = some f) (len : ℕ) :
    ((fileRead pid fd len).run w).Post
      (fun _ w' => w'.Ok ∧ ∃ pos, w'.file pid fd = some { f with pos := pos })
      (fun _ w' => w'.Ok) (fun p => p ≠ .loadIndex) := by
  rw [fileRead, Prog.bind_of_ok (fd2file_run hf), Prog.run_ite]
  split_ifs
  · exact h
  · refine (fileIo_post h hf [] len false).mono ?_ (fun _ _ hF => hF.elim) ?_
    · rintro r w' ⟨hok, pos, hf', -⟩
      exact ⟨hok, pos, hf'⟩
    · rintro p hp rfl
      obtain ⟨hacc, hidx⟩ := hp rfl
      have hlt := hacc.2.2.2.resolve_left Bool.noConfusion
      have hsize : (w.sfs.inode f.node).size / 4096 ≤ (w.sfs.inode f.node).blocks :=
        h.sfs.sizes _ (h.isFile hf).1 (h.isFile hf).2
      omega

theorem sysfileReadLoop_post (h : w.Ok) (hf : w.file pid fd = some f) (u : UserMem) (fuel len : ℕ)
    (r : SysResult) :
    ((sysfileReadLoop pid fd u fuel len r).run w).Post (fun _ w' => w'.Ok) (fun _ w' => w'.Ok)
      fun p => p ≠ .loadIndex := by
  induction fuel generalizing w f len r with
  | zero => exact sysfileOut_post h none r
  | succ fuel ih =>
    rw [sysfileReadLoop, Prog.run_ite]
    split_ifs with hlen
    · exact sysfileOut_post h none r
    refine ((ioAttempt_post (fileRead_post h hf (min 4096 len))).mono (fun _ _ hQ => hQ)
      (fun _ _ hF => hF.elim) fun _ hP => hP).bind ?_
    rintro io w₁ (⟨hok, pos, hf₁⟩ | ⟨e, hok, rfl⟩)
    · simp only [Prog.run_ite]
      split_ifs
      · exact sysfileOut_post hok _ r
      · refine Outcome.post_bind.mpr ?_
        by_cases hle : io.alen ≤ len
        · rw [Prog.run_assert_of _ _ hle]
          show Outcome.Post _ _ _ _
          cases io.ret with
          | some e => exact sysfileOut_post hok _ _
          | none => exact ih hok hf₁ _ _
        · rw [Prog.run_assert_of_not _ _ hle]
          exact SfsPanic.noConfusion
      · exact sysfileOut_post hok _ r
    · simp only [if_true]
      exact sysfileOut_post hok _ r

theorem sysfileWriteLoop_post (h : w.Ok) (hf : w.file pid fd = some f) (u : UserMem) (fuel : ℕ)
    (buf : List UInt8) (r : SysResult)
    (hpos : u.copy r.copied (min 4096 buf.length) = true → f.PosOk w (min 4096 buf.length)) :
    ((sysfileWriteLoop pid fd u fuel buf r).run w).Post (fun _ w' => w'.Ok) (fun _ w' => w'.Ok)
      fun p => p ≠ .loadIndex := by
  induction fuel generalizing w f buf r with
  | zero => exact sysfileOut_post h none r
  | succ fuel ih =>
    simp only [sysfileWriteLoop, Prog.run_ite]
    split_ifs with hlen hcopy
    · exact sysfileOut_post h none r
    · refine ((ioAttempt_post (fileWrite_post h hf _ _)).mono (fun _ _ hQ => hQ)
        (fun _ _ hF => hF.elim) fun _ hP => hP (hpos hcopy)).bind ?_
      intro io w₁ hio
      refine (assertLen_post io.alen buf.length).bind ?_
      rintro _ w₁ rfl
      rcases hio with ⟨hok, pos, hf₁, hend⟩ | ⟨e, hok, rfl⟩
      · cases hret : io.ret with
        | some e => exact sysfileOut_post hok _ _
        | none =>
          simp only [Prog.run_ite]
          split_ifs with halen
          · exact sysfileOut_post hok _ _
          · -- the next piece starts where this one has ended
            have hle := hend hret halen
            refine ih hok hf₁ _ _ fun _ _ _ => ?_
            show pos.toNat / 4096 ≤ (w₁.sfs.inode f.node).blocks
            omega
      · exact sysfileOut_post hok _ _
    · exact sysfileOut_post h _ r

/-- A system call of the process `pid`. -/
inductive Call where
  | sysOpen (pid ino : ℕ) (flags : BitVec 32)
  | sysClose (pid : ℕ) (fd : ℤ)
  | sysSeek (pid : ℕ) (fd pos : ℤ) (whence : Whence)
  | sysRead (pid : ℕ) (fd : ℤ) (len : ℕ) (u : UserMem)
  | sysWrite (pid : ℕ) (fd : ℤ) (buf : List UInt8) (u : UserMem)

namespace Call

/-- The code of a call. -/
def code : Call → FileProg Unit
  | .sysOpen pid ino flags => do
    let _ ← fileOpen pid ino flags
    pure ()
  | .sysClose pid fd => fileClose pid fd
  | .sysSeek pid fd pos whence => fileSeek pid fd pos whence
  | .sysRead pid fd len u => do
    let _ ← sysfileRead pid fd len u
    pure ()
  | .sysWrite pid fd buf u => do
    let _ ← sysfileWrite pid fd buf u
    pure ()

/-- A path that is opened leads to a regular file. -/
def OnFile (c : Call) (w : FileSys) : Prop :=
  match c with
  | .sysOpen _ ino _ => w.sfs.IsFile ino
  | _ => True

end Call

/-- The condition on the state before a call: a write that gets as far as the file system starts at
a position inside the blocks of its file, or right behind them. -/
def PositionValid (w : FileSys) : Call → Prop
  | .sysWrite pid fd buf u => ∀ f, w.file pid fd = some f → u.kmalloc = true →
    u.copy 0 (min 4096 buf.length) = true → f.PosOk w (min 4096 buf.length)
  | _ => True

/-- A call that satisfies `C`, and the state it leaves behind, whether it returns or fails. -/
def CallStep (C : FileSys → Call → Prop) (w w' : FileSys) : Prop :=
  ∃ c : Call, c.OnFile w ∧ C w c ∧ (c.code.run w = .ok () w' ∨ ∃ e, c.code.run w = .error e w')

/-- The states reached by calls that satisfy `C`. -/
def CallReach (C : FileSys → Call → Prop) : FileSys → FileSys → Prop := ReflTransGen (CallStep C)

theorem fileTestfd_post {P : SfsPanic → Prop} (pid : ℕ) (fd : ℤ) (readable writable : Bool) :
    ((fileTestfd pid fd readable writable).run w).Post
      (fun ok w' => w' = w ∧ (ok = true → ∃ f, w.file pid fd = some f)) (fun _ _ => False) P := by
  simp only [fileTestfd, Prog.run_bind, Prog.run_get, Outcome.andThen_ok]
  cases hf : w.file pid fd with
  | some f => exact ⟨rfl, fun _ => ⟨f, rfl⟩⟩
  | none => exact ⟨rfl, Bool.noConfusion⟩

theorem sysfileRead_post (h : w.Ok) (pid : ℕ) (fd : ℤ) (len : ℕ) (u : UserMem) :
    ((sysfileRead pid fd len u).run w).Post (fun _ w' => w'.Ok) (fun _ w' => w'.Ok)
      fun p => p ≠ .loadIndex := by
  rw [sysfileRead, Prog.run_ite]
  by_cases hlen : len = 0
  · rw [if_pos hlen]
    exact h
  rw [if_neg hlen]
  refine ((fileTestfd_post pid fd true false).mono (fun _ _ hQ => hQ) (fun _ _ hF => hF.elim)
    fun _ hP => hP).bind ?_
  rintro ok w₁ ⟨rfl, hf⟩
  simp only [Prog.run_ite]
  split_ifs with hok
  · exact h
  · exact h
  · obtain ⟨f, hf⟩ := hf (by simpa using hok)
    exact sysfileReadLoop_post h hf u len len _

theorem sysfileWrite_post (h : w.Ok) {buf : List UInt8} {u : UserMem}
    (hpos : PositionValid w (.sysWrite pid fd buf u)) :
    ((sysfileWrite pid fd buf u).run w).Post (fun _ w' => w'.Ok) (fun _ w' => w'.Ok)
      fun p => p ≠ .loadIndex := by
  rw [sysfileWrite, Prog.run_ite]
  by_cases hlen : buf.length = 0
  · rw [if_pos hlen]
    exact h
  rw [if_neg hlen]
  refine ((fileTestfd_post pid fd false true).mono (fun _ _ hQ => hQ) (fun _ _ hF => hF.elim)
    fun _ hP => hP).bind ?_
  rintro ok w₁ ⟨rfl, hf⟩
  simp only [Prog.run_ite]
  split_ifs with hok hk
  · exact h
  · exact h
  · obtain ⟨f, hf⟩ := hf (by simpa using hok)
    exact sysfileWriteLoop_post h hf u _ _ _ (hpos f hf (by simpa using hk))

theorem fileSeek_post (h : w.Ok) (pid : ℕ) (fd pos : ℤ) (whence : Whence) :
    ((fileSeek pid fd pos whence).run w).Post (fun _ w' => w'.Ok) (fun _ w' => w'.Ok)
      fun p => p ≠ .loadIndex := by
  cases hf : w.file pid fd with
  | none =>
    rw [fileSeek, Prog.bind_of_error (fd2file_none hf)]
    exact h
  | some f =>
    have hfile := h.isFile hf
    have hmove : ∀ pos, ((do
        onSfs (sfsTryseek f.node pos)
        Prog.modify fun s => s.setFd pid fd.toNat (some { f with pos := pos }) :
          FileProg Unit).run w).Post (fun _ w' => w'.Ok) (fun _ w' => w'.Ok)
        fun p => p ≠ .loadIndex := by
      intro pos
      refine ((onSfs_post (sfsTryseek_ok_post h.sfs hfile pos)).mono (fun _ _ hQ => hQ) ?_
        fun _ hP => hP).bind ?_
      · rintro e w₁ ⟨⟨hkept, hok⟩, hfds⟩
        exact Below.ok ⟨hfds, fun _ => hkept.isFile⟩ h hok
      · rintro _ w₁ ⟨⟨hkept, hok⟩, hfds⟩
        refine (Below.ok ⟨hfds, fun _ => hkept.isFile⟩ h hok).setFd pid fd.toNat ?_
        rintro g ⟨⟩
        have := hkept.isFile hfile
        exact this
    rw [fileSeek, Prog.bind_of_ok (fd2file_run hf)]
    cases whence with
    | set => exact hmove _
    | cur => exact hmove _
    | fromEnd => exact hmove _
    | other => exact h

theorem fdArrayAlloc_post {P : SfsPanic → Prop} (pid : ℕ) :
    ((fdArrayAlloc pid).run w).Post (fun _ w' => w' = w) (fun _ w' => w' = w) P := by
  simp only [fdArrayAlloc, Prog.run_bind, Prog.run_get, Outcome.andThen_ok]
  split
  · exact rfl
  · exact rfl

theorem fdArrayAlloc_zero (h : w.fdArray pid 0 = none) : (fdArrayAlloc pid).run w = .ok 0 w := by
  have hfind : ((List.range filesStructNentry).find? fun fd => (w.fdArray pid fd).isNone) = some 0 := by
    rw [List.find?_range_eq_some]
    simp [h, filesStructNentry]
  simp only [fdArrayAlloc, Prog.run_bind, Prog.run_get, Outcome.andThen_ok, hfind, Prog.run_pure]

theorem vfsOpen_post (h : w.Ok) {ino : ℕ} (hfile : w.sfs.IsFile ino) (flags : BitVec 32) :
    ((vfsOpen ino flags).run w).Post (fun node w' => w'.Ok ∧ node = ino ∧ w'.sfs.IsFile ino)
      (fun _ w' => w'.Ok) fun p => p ≠ .loadIndex := by
  unfold vfsOpen
  split
  · exact h
  · simp only [Prog.run_ite]
    split_ifs
    · exact h
    · exact h
    · refine ((onSfs_post (sfsTruncfile_ok_post h.sfs hfile 0)).mono (fun _ _ hQ => hQ) ?_
        fun _ hP => hP).bind ?_
      · rintro e w₁ ⟨⟨hkept, hok⟩, hfds⟩
        exact Below.ok ⟨hfds, fun _ => hkept.isFile⟩ h hok
      · rintro _ w₁ ⟨⟨hkept, hok⟩, hfds⟩
        exact ⟨Below.ok ⟨hfds, fun _ => hkept.isFile⟩ h hok, rfl, hkept.isFile hfile⟩
    · exact ⟨h, rfl, hfile⟩

theorem fileOpen_post (h : w.Ok) {ino : ℕ} (hfile : w.sfs.IsFile ino) (pid : ℕ)
    (flags : BitVec 32) :
    ((fileOpen pid ino flags).run w).Post (fun _ w' => w'.Ok) (fun _ w' => w'.Ok)
      fun p => p ≠ .loadIndex := by
  unfold fileOpen
  split
  · exact h
  · refine ((fdArrayAlloc_post pid).mono (fun _ _ hQ => hQ) (fun _ _ hE => hE ▸ h)
      fun _ hP => hP).bind ?_
    rintro fd w₁ rfl
    refine (vfsOpen_post h hfile flags).bind ?_
    rintro node w₂ ⟨hok, rfl, hfile₂⟩
    refine hok.setFd pid fd ?_
    rintro g ⟨⟩
    exact hfile₂

/-- The outcome of a call: the invariant holds, and the assertion does not fail. -/
theorem Call.code_post (h : w.Ok) {c : Call} (hc : c.OnFile w) (hpos : PositionValid w c) :
    (c.code.run w).Post (fun _ w' => w'.Ok) (fun _ w' => w'.Ok) fun p => p ≠ .loadIndex := by
  cases c with
  | sysOpen pid ino flags =>
    rw [Call.code, Outcome.post_bind]
    exact (fileOpen_post h hc pid flags).mono (fun _ _ hQ => hQ) (fun _ _ hE => hE) fun _ hP => hP
  | sysClose pid fd =>
    cases hf : w.file pid fd with
    | none =>
      rw [Call.code, fileClose, Prog.bind_of_error (fd2file_none hf)]
      exact h
    | some f =>
      rw [Call.code, fileClose, Prog.bind_of_ok (fd2file_run hf)]
      exact h.setFd pid fd.toNat (fun g hg => by cases hg)
  | sysSeek pid fd pos whence => exact fileSeek_post h pid fd pos whence
  | sysRead pid fd len u =>
    rw [Call.code, Outcome.post_bind]
    exact (sysfileRead_post h pid fd len u).mono (fun _ _ hQ => hQ) (fun _ _ hE => hE) fun _ hP => hP
  | sysWrite pid fd buf u =>
    rw [Call.code, Outcome.post_bind]
    exact (sysfileWrite_post h hpos).mono (fun _ _ hQ => hQ) (fun _ _ hE => hE) fun _ hP => hP

/-- **A valid position never fails the assertion.** In every state reached by calls that satisfy
`PositionValid`, of any processes and in any order, a call that satisfies it does not fail the
assertion `index <= din->blocks` of `sfs_bmap_load_nolock`. -/
theorem no_index_panic_of_valid_positions {w₀ w : FileSys} (h₀ : w₀.Ok)
    (h : CallReach PositionValid w₀ w) {c : Call} (hc : c.OnFile w) (hpos : PositionValid w c) :
    c.code.run w ≠ .panic .loadIndex := by
  have hinv : w.Ok := by
    refine invariant_of_step FileSys.Ok h h₀ ?_
    rintro a b hok ⟨c, hc, hpos, hrun⟩
    have hpost := Call.code_post hok hc hpos
    rcases hrun with hrun | ⟨e, hrun⟩
    · rwa [hrun] at hpost
    · rwa [hrun] at hpost
  intro hrun
  have hpost := Call.code_post hinv hc hpos
  rw [hrun] at hpost
  exact hpost rfl

/-! ### A position that has become stale -/

/-- No open files, and an empty file 4 with two free blocks. -/
def noOpenFiles : FileSys := ⟨emptyFile [5, 6], fun _ _ => none⟩

/-- User memory that is there. -/
def userMem : UserMem := ⟨true, fun _ _ => true⟩

theorem noOpenFiles_ok : noOpenFiles.Ok := by
  refine ⟨⟨emptyFile_consistent (by decide) (by decide), fun ino _ _ => ?_⟩,
    fun _ _ _ hf => by cases hf⟩
  show 0 / 4096 ≤ 0
  omega

/-- A seek to 8192 makes the file two blocks long. -/
theorem seek_two_blocks : ∃ s, (sfsTryseek 4 (8192 : ℕ)).run (emptyFile [5, 6]) = .ok () s ∧
    Resized (emptyFile [5, 6]) s 4 8192 := by
  obtain ⟨s₁, hrun, hres⟩ := truncate_two_blocks
  refine ⟨s₁, ?_, hres⟩
  have hrange : ¬ (((8192 : ℕ) : ℤ) < 0 ∨ ((8192 : ℕ) : ℤ) ≥ sfsMaxFileSize) := by
    have : sfsMaxFileSize = 134217728 := rfl
    omega
  have hlt : ((emptyFile [5, 6]).inode 4).size < ((8192 : ℕ) : ℤ).toNat := by
    rw [Int.toNat_natCast]
    exact Nat.succ_pos _
  simp only [sfsTryseek, if_neg hrange, Prog.run_bind, Prog.run_get, Outcome.andThen_ok, if_pos hlt,
    hrun]

/-- Process 1 opens the file for reading and writing and seeks to 8192, which makes it two blocks
long. -/
theorem open_seek : ∃ w₁ w₂, (Call.sysOpen 1 4 2).code.run noOpenFiles = .ok () w₁ ∧
    (Call.sysSeek 1 0 (8192 : ℕ) .set).code.run w₁ = .ok () w₂ ∧
    Resized (emptyFile [5, 6]) w₂.sfs 4 8192 ∧ w₂.fdArray 1 0 = some ⟨true, true, (8192 : ℕ), 4⟩ ∧
    w₂.fdArray 2 0 = none := by
  obtain ⟨s₁, hseek, hres⟩ := seek_two_blocks
  set f : File := ⟨true, true, 0, 4⟩ with hf
  set w₁ := noOpenFiles.setFd 1 0 (some f) with hw₁
  have hopen : (Call.sysOpen 1 4 2).code.run noOpenFiles = .ok () w₁ := rfl
  have hfile : w₁.file 1 0 = some f := rfl
  refine ⟨w₁, FileSys.setFd ⟨s₁, w₁.fdArray⟩ 1 0 (some ⟨true, true, (8192 : ℕ), 4⟩), hopen, ?_, hres,
    rfl, rfl⟩
  rw [Call.code, fileSeek, Prog.bind_of_ok (fd2file_run hfile)]
  have hon : (onSfs (sfsTryseek 4 (8192 : ℕ))).run w₁ = .ok () ⟨s₁, w₁.fdArray⟩ := by
    simp only [onSfs, Prog.zoom, show w₁.sfs = emptyFile [5, 6] from rfl, hseek]
  simp only [Prog.run_bind, Prog.run_get, Outcome.andThen_ok, hf, hon, Prog.run_modify]
  rfl

/-- After these two calls the write of one byte is safe. -/
theorem no_index_panic_two_blocks : ∃ w, CallReach PositionValid noOpenFiles w ∧
    (w.sfs.inode 4).blocks = 2 ∧ (Call.sysWrite 1 0 [7] userMem).code.run w ≠ .panic .loadIndex := by
  obtain ⟨w₁, w₂, hopen, hseek, hres, hfile, -⟩ := open_seek
  have hreach : CallReach PositionValid noOpenFiles w₂ :=
    .tail (.single ⟨.sysOpen 1 4 2, ⟨mem_emptyFile, rfl⟩, trivial, Or.inl hopen⟩)
      ⟨.sysSeek 1 0 (8192 : ℕ) .set, trivial, trivial, Or.inl hseek⟩
  refine ⟨w₂, hreach, hres.blocks, no_index_panic_of_valid_positions noOpenFiles_ok hreach
    (c := .sysWrite 1 0 [7] userMem) trivial ?_⟩
  rintro f hf - - - -
  have hf' : w₂.fdArray 1 0 = some f := hf
  obtain rfl : f = ⟨true, true, (8192 : ℕ), 4⟩ := by
    rw [hfile] at hf'
    exact (Option.some.inj hf').symm
  rw [hres.blocks]
  exact le_rfl

/-- **A stale position fails the assertion.** Process 1 opens the file and seeks to 8192, process 2
opens it with `O_WRONLY | O_TRUNC`, and process 1 writes one byte. -/
theorem stale_position_panics : noOpenFiles.Ok ∧ ∃ w₁ w₂ w₃,
    (Call.sysOpen 1 4 2).code.run noOpenFiles = .ok () w₁ ∧
    (Call.sysSeek 1 0 (8192 : ℕ) .set).code.run w₁ = .ok () w₂ ∧
    (Call.sysOpen 2 4 17).code.run w₂ = .ok () w₃ ∧
    (Call.sysWrite 1 0 [7] userMem).code.run w₃ = .panic .loadIndex := by
  obtain ⟨w₁, w₂, hopen, hseek, hres, hfile, hfree⟩ := open_seek
  have hmem : 4 ∈ w₂.sfs.inos := by
    rw [hres.kept.inos]
    exact mem_emptyFile
  have hbad : ¬ w₂.sfs.BadFree := fun hbad =>
    emptyFile_not_badFree (by decide) (by decide) (hres.kept.badFree hbad)
  obtain ⟨s₂, htrunc, hres₂⟩ := sfsTruncfile_ok hres.kept.consistent hmem hbad
    (by rw [hres.blocks, hres.size]) (show 0 ≤ 1036 * 4096 by omega) (Nat.zero_le _)
  -- the second open
  set w₃ := FileSys.setFd ⟨s₂, w₂.fdArray⟩ 2 0 (some ⟨false, true, 0, 4⟩) with hw₃
  have htrunc' : (onSfs (sfsTruncfile 4 0)).run w₂ = .ok () ⟨s₂, w₂.fdArray⟩ := by
    simp only [onSfs, Prog.zoom, show (sfsTruncfile 4 0).run w₂.sfs = _ from htrunc]
  have hopen₂ : (Call.sysOpen 2 4 17).code.run w₂ = .ok () w₃ := by
    have hfd : (fdArrayAlloc 2).run w₂ = .ok 0 w₂ := fdArrayAlloc_zero hfree
    have hvfs : (vfsOpen 4 17).run w₂ = .ok 4 ⟨s₂, w₂.fdArray⟩ := Prog.bind_of_ok htrunc'
    have hopen : (fileOpen 2 4 17).run w₂ = .ok 0 w₃ :=
      (Prog.bind_of_ok hfd).trans (Prog.bind_of_ok hvfs)
    exact Prog.bind_of_ok hopen
  -- the write, at a position behind the blocks that are left
  have hf₃ : w₃.file 1 0 = some ⟨true, true, (8192 : ℕ), 4⟩ := hfile
  have hdir : (s₂.inode 4).type ≠ .dir := by
    rw [hres₂.kept.type, hres.kept.type]
    exact SfsType.noConfusion
  have hio : ∀ base, (sfsIoNolock 4 base (8192 : ℕ) 1 true).run s₂ = .panic .loadIndex := by
    intro base
    refine sfsIoNolock_loadIndex hdir ⟨by omega, ?_, ?_, Or.inl rfl⟩ ?_
    · have : sfsMaxFileSize = 134217728 := rfl
      omega
    · rw [toOff_of_lt (by omega) (by omega)]
      omega
    · rw [hres₂.blocks, Int.toNat_natCast]
      omega
  have hwrite : ∀ base, (fileWrite 1 0 base 1).run w₃ = .panic .loadIndex := by
    intro base
    have hon : (onSfs (sfsIo 4 base (8192 : ℕ) 1 true)).run w₃ = .panic .loadIndex := by
      have : (sfsIo 4 base (8192 : ℕ) 1 true).run w₃.sfs = .panic .loadIndex :=
        Prog.bind_of_panic (hio base)
      simp only [onSfs, Prog.zoom, this, id]
    rw [fileWrite, Prog.bind_of_ok (fd2file_run hf₃)]
    exact Prog.bind_of_panic hon
  have htest : (fileTestfd 1 0 false true).run w₃ = .ok true w₃ := by
    simp only [fileTestfd, Prog.run_bind, Prog.run_get, Outcome.andThen_ok, hf₃]
    rfl
  refine ⟨noOpenFiles_ok, w₁, w₂, w₃, hopen, hseek, hopen₂, Prog.bind_of_panic ?_⟩
  refine (Prog.bind_of_ok htest).trans (Prog.bind_of_panic (Prog.bind_of_panic ?_))
  simp only [Prog.attempt, show min 4096 [(7 : UInt8)].length = 1 from rfl, hwrite]

end Ucore.Fs
