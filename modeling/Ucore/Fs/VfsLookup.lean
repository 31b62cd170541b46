import Ucore.Fs.Dirent

/-!
# Looking up a path

From a path to an inode: `vfs_lookup` takes the device off the front of the path and hands the rest to the file system,
as one name.

* `splitPath` is the scan of `get_device`: where a path starts, and what is left of it.
* `VfsEnv` is what a lookup depends on besides the image: the current directory, the boot file system and the inodes
  that are in memory. `vdevList` has the three devices of the kernel, of which one has a file system.
* `sfsLookup_run` and `vfsLookup_run` say what a lookup ends with, for a start directory that can be searched.
-/

namespace Ucore.Fs

open Ucore.Lib

/-! ### Paths -/

/-- Where a path starts: in the current directory, at the root of the boot file system, at the root of the current file
system, or on a device. -/
inductive PathStart where
  | curdir
  | bootfs
  | curfs
  | device (name : CString)
  deriving DecidableEq

/-- The first colon or slash of a path decides. Colons are 58 and slashes 47.
Source: `kern/fs/vfs/vfslookup.c` `get_device` -/
def splitPath (path : CString) : PathStart × CString :=
  match path.bytes.findIdx? fun b => b = 58 ∨ b = 47 with
  | none => (.curdir, path)
  | some i =>
    if path.bytes.getD i 0 = 58 then
      if 0 < i then (.device (path.cut i), path.skip (i + 1) 47) else (.curfs, path.skip 1 47)
    else if i = 0 then (.bootfs, path.skip 1 47)
    else (.curdir, path)

/-- What is left of a path does not start with a slash. -/
theorem splitPath_head (path : CString) : (splitPath path).2.bytes.head? ≠ some 47 := by
  unfold splitPath
  cases hfind : path.bytes.findIdx? fun b => b = 58 ∨ b = 47 with
  | none =>
    intro hhead
    rw [List.findIdx?_eq_none_iff] at hfind
    have := hfind 47 (List.mem_of_mem_head? hhead)
    simp at this
  | some i =>
    simp only
    split_ifs with hcolon hpos hzero
    · exact path.head?_skip _ _
    · exact path.head?_skip _ _
    · exact path.head?_skip _ _
    · intro hhead
      obtain ⟨hi, hmark, hbefore⟩ := List.findIdx?_eq_some_iff_getElem.mp hfind
      cases hbytes : path.bytes with
      | nil =>
        rw [hbytes] at hhead
        cases hhead
      | cons b bs =>
        rw [hbytes, List.head?_cons] at hhead
        have := hbefore 0 (by omega)
        simp [hbytes, Option.some.inj hhead] at this

/-! ### Devices and the start of a lookup -/

/-- An entry of the list of devices.
Source: `kern/fs/vfs/vfsdev.c` `vfs_dev_t` -/
structure VfsDev where
  name : CString
  /-- A file system is mounted on it. -/
  fs : Bool
  mountable : Bool

/-- `disk0` -/
def disk0 : CString := ⟨[100, 105, 115, 107, 48], by simp⟩

/-- `stdin` -/
def stdin : CString := ⟨[115, 116, 100, 105, 110], by simp⟩

/-- `stdout` -/
def stdout : CString := ⟨[115, 116, 100, 111, 117, 116], by simp⟩

/-- The devices, the latest first.
Source: `kern/fs/devs/dev.c` `dev_init`, `kern/fs/sfs/sfs.c` `sfs_init` -/
def vdevList : List VfsDev := [⟨disk0, true, true⟩, ⟨stdout, false, false⟩, ⟨stdin, false, false⟩]

/-- What a lookup depends on. -/
structure VfsEnv where
  /-- The current directory of the process. -/
  cwd : Option ℕ
  /-- The root of the boot file system. -/
  bootfs : Option ℕ
  /-- The inodes in memory. -/
  loaded : List ℕ

/-- An inode of the file system, or a device. -/
inductive VNode where
  | sfs (ino : ℕ)
  | device (name : CString)
  deriving DecidableEq

/-- Source: `kern/fs/vfs/vfsdev.c` `vfs_get_root`, with `sfs_get_root` -/
def vfsGetRoot (env : VfsEnv) (devname : CString) : SfsProg VNode :=
  match vdevList.find? fun d => d.name = devname with
  | none => Prog.throw .noDev
  | some d =>
    if d.fs = true then do
      let ino ← sfsLoadInodeDisk env.loaded 1
      pure (.sfs ino)
    else if d.mountable = true then Prog.throw .naDev
    else pure (.device devname)

/-- Source: `kern/fs/vfs/vfspath.c` `vfs_get_curdir` -/
def vfsGetCurdir (env : VfsEnv) : SfsProg VNode :=
  match env.cwd with
  | some d => pure (.sfs d)
  | none => Prog.throw .noEnt

/-- Source: `kern/fs/vfs/vfs.c` `vfs_get_bootfs` -/
def vfsGetBootfs (env : VfsEnv) : SfsProg VNode :=
  match env.bootfs with
  | some d => pure (.sfs d)
  | none => Prog.throw .noEnt

/-- The node that a lookup starts from. -/
def startNode (env : VfsEnv) : PathStart → SfsProg VNode
  | .curdir => vfsGetCurdir env
  | .bootfs => vfsGetBootfs env
  | .curfs => do
    let _ ← vfsGetCurdir env
    let ino ← sfsLoadInodeDisk env.loaded 1
    pure (.sfs ino)
  | .device name => vfsGetRoot env name

/-- Source: `kern/fs/vfs/vfslookup.c` `get_device` -/
def getDevice (env : VfsEnv) (path : CString) : SfsProg (VNode × CString) := do
  let node ← startNode env (splitPath path).1
  pure (node, (splitPath path).2)

/-- The inode that the lookup starts from is in memory, too.
Source: `kern/fs/vfs/inode.h` `vop_lookup`, `kern/fs/devs/dev.c` `dev_lookup` -/
def vopLookup (env : VfsEnv) (node : VNode) (path : CString) : SfsProg VNode :=
  match node with
  | .sfs ino => do
    let found ← sfsLookup (ino :: env.loaded) ino path
    pure (.sfs found)
  | .device _ => if path.bytes ≠ [] then Prog.throw .noEnt else pure node

/-- Source: `kern/fs/vfs/vfslookup.c` `vfs_lookup` -/
def vfsLookup (env : VfsEnv) (path : CString) : SfsProg VNode := do
  let (node, subpath) ← getDevice env path
  if subpath.bytes ≠ [] then
    vopLookup env node subpath
  else
    pure node

/-! ### What a lookup does -/

section lookup

variable {s : Sfs} {env : VfsEnv} {path : CString}

/-- **The lookup in a directory**: one search for the whole path. -/
theorem sfsLookup_run (h : s.Consistent) {d : ℕ} (hdir : s.IsDir d) (loaded : List ℕ) {name : CString}
    (hne : name.bytes ≠ []) (hslash : name.bytes.head? ≠ some 47) :
    (sfsLookup loaded d name).run s =
      if name.strlen ≤ 255 then
        (s.searchOutcome d name (List.range (min (s.inode d).blocks 1036))).andThen fun found =>
          sfsLoadInodeDisk loaded found.2
      else .panic .searchName := by
  rw [sfsLookup, Prog.run_bind, Prog.run_assert_of _ _ ⟨hne, hslash⟩, Outcome.andThen_ok, Prog.run_bind, Prog.run_get,
    Outcome.andThen_ok]
  rw [if_neg (fun hnot => hnot hdir.type), Prog.run_bind, sfsDirentSearchNolock_run h hdir]
  split_ifs
  · rfl
  · rfl

/-- **The lookup of a path**, behind its start. -/
theorem vfsLookup_run {node : VNode} (hstart : (startNode env (splitPath path).1).run s = .ok node s) :
    (vfsLookup env path).run s =
      if (splitPath path).2.bytes ≠ [] then (vopLookup env node (splitPath path).2).run s else .ok node s := by
  rw [vfsLookup, getDevice, Prog.run_bind, Prog.run_bind, hstart, Outcome.andThen_ok, Prog.run_pure, Outcome.andThen_ok,
    Prog.run_ite]
  rfl

end lookup

end Ucore.Fs
