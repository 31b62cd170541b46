import Ucore.Fs.SfsDisk
import Ucore.Fs.SfsFile
import Ucore.Lib.CString

/-!
# Directories

Entries of directories, the search for a name and the loading of the inode that is found.

* `direntOf blk` is the entry in a block.
* `sfsDirentReadNolock`, `sfsDirentSearchNolock` and `sfsLookup` are the functions of the source, and
  `sfsLoadInodeDisk` is what `sfs_load_inode` has to do with the disk. The lookup takes a whole path for a name.
* `sfsDirentSearchNolock_run` and `sfsLoadInodeDisk_run` say in full what the search and the loading do in a consistent
  image: the first entry with the name among the first 1036, and what happens if there is none.
-/

namespace Ucore.Fs

open Ucore.Lib

/-- Source: `kern/fs/sfs/sfs.h` `struct sfs_disk_entry` -/
structure Dirent where
  ino : ℕ
  name : CString
  deriving DecidableEq

/-- The entry in its 260 bytes; the last byte of the name is taken for 0. -/
def Dirent.ofBytes (bytes : List UInt8) : Dirent :=
  ⟨getU32 (bytes.take 4), CString.ofBuffer (fun k => bytes.getD (4 + k) 0) 255⟩

/-- Memory is there in all functions below.
Source: `kern/fs/sfs/sfs_inode.c` `sfs_dirent_read_nolock` -/
def sfsDirentReadNolock (sin slot : ℕ) : SfsProg Dirent := do
  let s ← Prog.get
  Prog.assert ((s.inode sin).type = .dir ∧ slot < (s.inode sin).blocks) .direntSlot
  let ino ← sfsBmapLoadNolock sin slot
  let inuse ← sfsBlockInuse ino
  Prog.assert (inuse = true) .direntInuse
  let bytes ← sfsRbuf 260 ino 0
  pure (.ofBytes bytes)

/-- The loop of `sfs_dirent_search_nolock` over `n` slots from `i` on. -/
def direntSearchLoop (sin : ℕ) (name : CString) : ℕ → ℕ → SfsProg (ℕ × ℕ)
  | 0, _ => Prog.throw .noEnt
  | n + 1, i => do
    let entry ← sfsDirentReadNolock sin i
    if entry.ino = 0 then
      direntSearchLoop sin name n (i + 1)
    else if name = entry.name then
      pure (i, entry.ino)
    else
      direntSearchLoop sin name n (i + 1)

/-- The slot and the inode number of a name; nobody asks for an empty slot.
Source: `kern/fs/sfs/sfs_inode.c` `sfs_dirent_search_nolock` -/
def sfsDirentSearchNolock (sin : ℕ) (name : CString) : SfsProg (ℕ × ℕ) := do
  Prog.assert (name.strlen ≤ 255) .searchName
  let s ← Prog.get
  direntSearchLoop sin name (s.inode sin).blocks 0

/-- Source: `kern/fs/sfs/sfs_inode.c` `sfs_get_ops` -/
def sfsGetOps (type : SfsType) : SfsProg Unit :=
  match type with
  | .dir => pure ()
  | .file => pure ()
  | _ => Prog.stop .fileType

/-- The inode is found in memory, where the inodes `loaded` are, or read from disk. The counts of the node in memory are
left out here.
Source: `kern/fs/sfs/sfs_inode.c` `sfs_load_inode`, `sfs_create_inode` -/
def sfsLoadInodeDisk (loaded : List ℕ) (ino : ℕ) : SfsProg ℕ :=
  if ino ∈ loaded then
    pure ino
  else do
    let inuse ← sfsBlockInuse ino
    Prog.assert (inuse = true) .inodeInuse
    let bytes ← sfsRbuf 64 ino 0
    let din : Block := fun k => bytes.getD k 0
    Prog.assert (diskNlinks din ≠ 0) .inodeNlinks
    sfsGetOps (diskInode din).type
    pure ino

/-- Source: `kern/fs/sfs/sfs_inode.c` `sfs_lookup`, `sfs_lookup_once` -/
def sfsLookup (loaded : List ℕ) (node : ℕ) (path : CString) : SfsProg ℕ := do
  Prog.assert (path.bytes ≠ [] ∧ path.bytes.head? ≠ some 47) .lookupPath
  let s ← Prog.get
  if (s.inode node).type ≠ .dir then
    Prog.throw .notDir
  else do
    let found ← sfsDirentSearchNolock node path
    sfsLoadInodeDisk loaded found.2

/-! ### Reading an entry -/

/-- The entry in a block. -/
def direntOf (blk : Block) : Dirent := ⟨blk.word 0, CString.ofBuffer (fun k => blk (4 + k)) 255⟩

theorem Block.getD_read (blk : Block) {offset len k : ℕ} (hk : k < len) :
    (blk.read offset len).getD k 0 = blk (offset + k) := by
  rw [List.getD_eq_getElem _ _ (by rw [Block.read, List.length_map, List.length_range']; exact hk)]
  simp [Block.read]

theorem Dirent.ofBytes_read (blk : Block) : Dirent.ofBytes (blk.read 0 260) = direntOf blk := by
  have hname : ∀ k < 255, (blk.read 0 260).getD (4 + k) 0 = blk (4 + k) := by
    intro k hk
    rw [Block.getD_read _ (by omega), Nat.zero_add]
  have hino : (blk.read 0 260).take 4 = blk.read 0 4 := by
    rw [Block.read, Block.read, ← List.map_take, List.take_range'_of_length_ge (by omega)]
  have hstring : CString.ofBuffer (fun k => (blk.read 0 260).getD (4 + k) 0) 255 =
      CString.ofBuffer (fun k => blk (4 + k)) 255 :=
    CString.ofBuffer_congr hname
  rw [Dirent.ofBytes, hino, hstring]
  rfl

section read

variable {s : Sfs} {sin : ℕ}

/-- The entry at a slot of a directory. -/
def Sfs.dirent (s : Sfs) (sin i : ℕ) : Dirent := direntOf (s.disk (s.slot sin i))

/-- A directory that can be searched: its blocks up to 1036 are there. -/
structure Sfs.IsDir (s : Sfs) (sin : ℕ) : Prop where
  mem : sin ∈ s.inos
  type : (s.inode sin).type = .dir
  full : ∀ i < (s.inode sin).blocks, i < 1036 → s.slot sin i ≠ 0

/-- An entry that can be reached is read, and one that cannot is past the indirect block. -/
theorem sfsDirentReadNolock_run (h : s.Consistent) (hdir : s.IsDir sin) {i : ℕ} (hi : i < (s.inode sin).blocks) :
    (sfsDirentReadNolock sin i).run s = if i < 1036 then .ok (s.dirent sin i) s else .panic .getRange := by
  rw [sfsDirentReadNolock, Prog.run_bind, Prog.run_get, Outcome.andThen_ok, Prog.run_bind,
    Prog.run_assert_of _ _ ⟨hdir.type, hi⟩, Outcome.andThen_ok]
  by_cases hlt : i < 1036
  · have hslot := hdir.full i hi hlt
    have hused := h.slot_used hdir.mem hslot
    have hb : s.slot sin i ≠ 0 ∧ s.slot sin i < s.blocks := ⟨hslot, hused.1⟩
    rw [if_pos hlt, Prog.bind_of_ok (sfsBmapLoadNolock_found h hdir.mem hi hslot),
      Prog.bind_of_ok (sfsBlockInuse_run (h.lt_nbits hused.1) hb), hused.2]
    simp only [Bool.not_false, Prog.run_bind, Prog.run_assert_of, Outcome.andThen_ok]
    rw [sfsRbuf_run hb (by omega), Outcome.andThen_ok, Prog.run_pure, Dirent.ofBytes_read]
    rfl
  · rw [if_neg hlt, Prog.bind_of_panic (sfsBmapLoadNolock_range hi.le (by omega))]

/-- The entry at a slot has the name. -/
def Sfs.hasName (s : Sfs) (sin : ℕ) (name : CString) (i : ℕ) : Bool :=
  (s.dirent sin i).ino ≠ 0 ∧ name = (s.dirent sin i).name

/-- What a search for a name ends with, when the slots `slots` are looked at. -/
def Sfs.searchOutcome (s : Sfs) (sin : ℕ) (name : CString) (slots : List ℕ) : Outcome SfsPanic FsError Sfs (ℕ × ℕ) :=
  match slots.find? (s.hasName sin name) with
  | some i => .ok (i, (s.dirent sin i).ino) s
  | none => if (s.inode sin).blocks ≤ 1036 then .error .noEnt s else .panic .getRange

theorem direntSearchLoop_run (h : s.Consistent) (hdir : s.IsDir sin) (name : CString) (n i : ℕ)
    (hn : i + n = (s.inode sin).blocks) (hi : i ≤ 1036) :
    (direntSearchLoop sin name n i).run s =
      s.searchOutcome sin name (List.range' i (min (s.inode sin).blocks 1036 - i)) := by
  induction n generalizing i with
  | zero =>
    rw [Nat.min_eq_left (by omega), show (s.inode sin).blocks - i = 0 by omega]
    simp only [direntSearchLoop, Prog.run_throw, Sfs.searchOutcome, List.range'_zero, List.find?_nil]
    rw [if_pos (by omega)]
  | succ n ih =>
    rw [direntSearchLoop, Prog.run_bind, sfsDirentReadNolock_run h hdir (by omega)]
    by_cases hlt : i < 1036
    · obtain ⟨k, hk⟩ : ∃ k, min (s.inode sin).blocks 1036 - i = k + 1 :=
        ⟨min (s.inode sin).blocks 1036 - i - 1, by omega⟩
      have hnext := ih (i + 1) (by omega) (by omega)
      rw [show min (s.inode sin).blocks 1036 - (i + 1) = k by omega] at hnext
      rw [if_pos hlt, Outcome.andThen_ok, hk, List.range'_succ, Sfs.searchOutcome, List.find?_cons]
      simp only [Prog.run_ite]
      by_cases hzero : (s.dirent sin i).ino = 0
      · rw [if_pos hzero, hnext, show s.hasName sin name i = false by simp [Sfs.hasName, hzero]]
        rfl
      · rw [if_neg hzero]
        by_cases hname : name = (s.dirent sin i).name
        · rw [if_pos hname, show s.hasName sin name i = true by simp [Sfs.hasName, hzero, ← hname]]
          rfl
        · rw [if_neg hname, hnext, show s.hasName sin name i = false by simp [Sfs.hasName, hname]]
          rfl
    · rw [if_neg hlt, show min (s.inode sin).blocks 1036 - i = 0 by omega, Sfs.searchOutcome, List.range'_zero,
        List.find?_nil]
      simp only [Outcome.andThen_panic]
      rw [if_neg (by omega)]

/-- **The search for a name.** -/
theorem sfsDirentSearchNolock_run (h : s.Consistent) (hdir : s.IsDir sin) (name : CString) :
    (sfsDirentSearchNolock sin name).run s = if name.strlen ≤ 255 then
      s.searchOutcome sin name (List.range (min (s.inode sin).blocks 1036)) else .panic .searchName := by
  rw [sfsDirentSearchNolock, Prog.run_bind, Prog.run_assert]
  split_ifs
  · rw [Outcome.andThen_ok, Prog.run_bind, Prog.run_get, Outcome.andThen_ok,
      direntSearchLoop_run h hdir name _ 0 (Nat.zero_add _) (Nat.zero_le _), Nat.sub_zero, List.range_eq_range']
  · rfl

end read

/-! ### Loading an inode -/

/-- The first 64 bytes of the block of an inode have its type and its number of links. -/
theorem word_one_read (blk : Block) : Block.word (fun k => (blk.read 0 64).getD k 0) 1 = blk.word 1 := by
  refine Block.word_congr (n := 2) (List.map_inj_left.mpr fun k hk => ?_) (by omega)
  rw [List.mem_range'_1] at hk
  rw [Block.getD_read _ (by omega), Nat.zero_add]

theorem diskNlinks_read (blk : Block) : diskNlinks (fun k => (blk.read 0 64).getD k 0) = diskNlinks blk :=
  congrArg (· / 65536) (word_one_read blk)

theorem diskType_read (blk : Block) : (diskInode fun k => (blk.read 0 64).getD k 0).type = (diskInode blk).type :=
  congrArg (fun w => SfsType.ofCode (w % 65536)) (word_one_read blk)

section load

variable {s : Sfs} {ino : ℕ}

/-- **Loading an inode** whose block is in use. -/
theorem sfsLoadInodeDisk_run (h : s.Consistent) (hino : ino ≠ 0) (hused : s.InUse ino) (loaded : List ℕ) :
    (sfsLoadInodeDisk loaded ino).run s =
      if ino ∈ loaded then .ok ino s
      else if diskNlinks (s.disk ino) = 0 then .panic .inodeNlinks
      else if (diskInode (s.disk ino)).type = .dir ∨ (diskInode (s.disk ino)).type = .file then .ok ino s
      else .panic .fileType := by
  unfold sfsLoadInodeDisk
  by_cases hmem : ino ∈ loaded
  · rw [if_pos hmem, if_pos hmem]
    rfl
  have hb : ino ≠ 0 ∧ ino < s.blocks := ⟨hino, hused.1⟩
  rw [if_neg hmem, if_neg hmem, Prog.bind_of_ok (sfsBlockInuse_run (h.lt_nbits hused.1) hb), hused.2]
  simp only [Bool.not_false, Prog.run_bind, Prog.run_assert_of, Outcome.andThen_ok]
  rw [sfsRbuf_run hb (by omega), Outcome.andThen_ok, Prog.run_bind, Prog.run_assert, diskNlinks_read, diskType_read]
  by_cases hzero : diskNlinks (s.disk ino) = 0
  · rw [if_neg (fun hne => hne hzero), if_pos hzero]
    rfl
  rw [if_pos hzero, if_neg hzero, Outcome.andThen_ok, Prog.run_bind]
  cases (diskInode (s.disk ino)).type <;> rfl

end load

end Ucore.Fs
