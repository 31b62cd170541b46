import Ucore.Fs.VfsLookup
import Ucore.Tools.ReadBack
import Mathlib.Data.List.Find

/-!
# Paths on an image

What `vfs_lookup` does with a path on an image that the program has built.

* `Mksfs.firstEntry m d name` is the entry that the kernel finds for a name: the first of the first 1036 entries of `d`
  of whose name 252 bytes are left that are `name`. `ImageOf.lookup_run` is the lookup in these terms.
* `lookup_returns_iff`: a lookup returns, with an inode or an error code, if and only if `Mksfs.LookupSafe` holds. Names of
  more than 255 bytes, directories of more than 1036 entries, symbolic links and inodes with 65536 links stop the kernel.
* `lookup_finds_iff`: the path of a file of the host leads to its inode only if the file is in the top directory, since
  the rest of a path is taken for one name.
-/

namespace Ucore.Tools

open Ucore.Lib Ucore.Fs

variable {ρ : ℕ → Role} {m : Mksfs} {s : Sfs} {d f : ℕ}

/-! ### Lookup in a directory -/

/-- The entry that the kernel finds for a name. -/
def Mksfs.firstEntry (m : Mksfs) (d : ℕ) (name : CString) : Option (ℕ × CString) :=
  ((m.inode d).entries.take 1036).find? fun e => e.2.cut 252 = name

/-- The search of the kernel goes over the slots, and ends at the first entry with the name. -/
theorem ImageOf.find_slot (h : ImageOf m s) (hinv : MkInv ρ m) (hdirs : MkDirs m) (hd : d ∈ m.inos)
    (hdir : (m.inode d).type = .dir) (name : CString) :
    ((List.range (min (s.inode d).blocks 1036)).find? (s.hasName d name)).map
      (fun i => (m.inode d).entries.getD i (0, dot)) = m.firstEntry d name := by
  have hlength := hdirs.length d hd hdir
  have hblocks := h.blocks_eq hinv hd
  have hn : min (s.inode d).blocks 1036 = min 1036 (m.inode d).entries.length := by omega
  have htake : (m.inode d).entries.take 1036 =
      (List.range (min 1036 (m.inode d).entries.length)).map fun i => (m.inode d).entries.getD i (0, dot) := by
    apply List.ext_getElem
    · rw [List.length_map, List.length_range, List.length_take]
    · intro i h₁ h₂
      rw [List.length_take] at h₁
      rw [List.getElem_take, List.getElem_map, List.getElem_range, List.getD_eq_getElem _ _ (by omega)]
  rw [Mksfs.firstEntry, htake, List.find?_map, hn]
  congr 1
  refine List.find?_congr fun i hi => ?_
  rw [List.mem_range] at hi
  have hlt : i < (m.inode d).entries.length := by omega
  rw [h.hasName_iff hinv hdirs hd hdir (by omega) (List.getElem?_eq_getElem hlt), Function.comp_apply,
    List.getD_eq_getElem _ _ hlt]

/-- The kernel loads an inode of the program. -/
theorem ImageOf.load_inode (h : ImageOf m s) (hinv : MkInv ρ m) (hf : f ∈ m.inos) (loaded : List ℕ) :
    (sfsLoadInodeDisk loaded f).run s =
      if f ∈ loaded then .ok f s
      else if (m.inode f).nlinks = 0 then .panic .inodeNlinks
      else if (m.inode f).type = .dir ∨ (m.inode f).type = .file then .ok f s
      else .panic .fileType := by
  have hcons := h.consistent hinv
  have hne : f ≠ 0 := hinv.pos (hinv.role_ino hf)
  have hblk : s.blk (.inode f) = f := by
    rw [Sfs.blk, if_pos (by rw [h.inos]; exact hf)]
  have hused := hcons.used (.inode f) (by rw [hblk]; exact hne)
  rw [hblk] at hused
  have htype := h.type hinv hf
  rw [h.inode] at htype
  rw [sfsLoadInodeDisk_run hcons hne hused, h.disk, hinv.diskNlinks_image hf, htype]

/-- **The lookup of a name** in a directory of the program. -/
theorem ImageOf.lookup_run (h : ImageOf m s) (hinv : MkInv ρ m) (hdirs : MkDirs m) (hd : d ∈ m.inos)
    (hdir : (m.inode d).type = .dir) (loaded : List ℕ) {name : CString} (hne : name.bytes ≠ [])
    (hslash : name.bytes.head? ≠ some 47) :
    (sfsLookup loaded d name).run s =
      if name.strlen ≤ 255 then
        match m.firstEntry d name with
        | some e => (sfsLoadInodeDisk loaded e.1).run s
        | none => if (m.inode d).entries.length ≤ 1036 then .error .noEnt s else .panic .getRange
      else .panic .searchName := by
  have hlength := hdirs.length d hd hdir
  have hblocks := h.blocks_eq hinv hd
  rw [sfsLookup_run (h.consistent hinv) (h.isDir hinv hd hdir) loaded hne hslash]
  by_cases hlen : name.strlen ≤ 255
  swap
  · rw [if_neg hlen, if_neg hlen]
  rw [if_pos hlen, if_pos hlen, ← h.find_slot hinv hdirs hd hdir, Sfs.searchOutcome]
  cases hfind : (List.range (min (s.inode d).blocks 1036)).find? (s.hasName d name) with
  | none =>
    simp only [Option.map_none]
    rw [hblocks, ← hlength]
    split_ifs
    · rfl
    · rfl
  | some i =>
    have hi := List.mem_range.mp (List.mem_of_find?_eq_some hfind)
    have hlt : i < (m.inode d).entries.length := by omega
    simp only [Option.map_some, Outcome.andThen_ok]
    rw [h.dirent hinv hdirs hd hdir (by omega) (List.getElem?_eq_getElem hlt), List.getD_eq_getElem _ _ hlt]

theorem Mksfs.firstEntry_some {name : CString} {e : ℕ × CString} (h : m.firstEntry d name = some e) :
    e ∈ (m.inode d).entries ∧ e.2.cut 252 = name :=
  ⟨List.mem_of_mem_take (List.mem_of_find?_eq_some h), by simpa using List.find?_some h⟩

/-! ### Lookups that return -/

/-- An inode can be had: it is in memory, or has links and a type that the kernel knows. -/
def Mksfs.Loads (m : Mksfs) (loaded : List ℕ) (f : ℕ) : Prop :=
  f ∈ loaded ∨ (m.inode f).nlinks ≠ 0 ∧ ((m.inode f).type = .dir ∨ (m.inode f).type = .file)

/-- A name can be looked up: it is short enough, and there is an entry whose inode can be had, or the directory is small
enough to be searched to its end. -/
def Mksfs.Finds (m : Mksfs) (loaded : List ℕ) (d : ℕ) (name : CString) : Prop :=
  name.strlen ≤ 255 ∧
    match m.firstEntry d name with
    | some e => m.Loads loaded e.1
    | none => (m.inode d).entries.length ≤ 1036

/-- The directory that a lookup is in. -/
def startDir (env : VfsEnv) : PathStart → Option ℕ
  | .curdir => env.cwd
  | .bootfs => env.bootfs
  | .curfs => env.cwd.map fun _ => 1
  | .device name => if name = disk0 then some 1 else none

/-- The root can be had, where it is asked for. -/
def Mksfs.StartSafe (m : Mksfs) (env : VfsEnv) : PathStart → Prop
  | .curdir => True
  | .bootfs => True
  | .curfs => env.cwd = none ∨ m.Loads env.loaded 1
  | .device name => name ≠ disk0 ∨ m.Loads env.loaded 1

/-- The lookups that return. -/
def Mksfs.LookupSafe (m : Mksfs) (env : VfsEnv) (path : CString) : Prop :=
  m.StartSafe env (splitPath path).1 ∧
    ((splitPath path).2.bytes = [] ∨
      ∀ d, startDir env (splitPath path).1 = some d → m.Finds (d :: env.loaded) d (splitPath path).2)

/-- The current directory and the root of the boot file system are directories: `vfs_set_curdir` takes no others. -/
def Mksfs.Admits (m : Mksfs) (env : VfsEnv) : Prop :=
  ∀ d, env.cwd = some d ∨ env.bootfs = some d → d ∈ m.inos ∧ (m.inode d).type = .dir

theorem ImageOf.load_ok (h : ImageOf m s) (hinv : MkInv ρ m) (hf : f ∈ m.inos) {l : List ℕ}
    (hloads : m.Loads l f) : (sfsLoadInodeDisk l f).run s = .ok f s := by
  rw [h.load_inode hinv hf]
  rcases hloads with hmem | ⟨hlinks, htype⟩
  · rw [if_pos hmem]
  · rw [if_neg hlinks, if_pos htype, ite_self]

theorem ImageOf.load_panic (h : ImageOf m s) (hinv : MkInv ρ m) (hf : f ∈ m.inos) {loaded : List ℕ}
    (hloads : ¬ m.Loads loaded f) : ∃ p, (sfsLoadInodeDisk loaded f).run s = .panic p := by
  unfold Mksfs.Loads at hloads
  rw [h.load_inode hinv hf, if_neg fun hmem => hloads (Or.inl hmem)]
  split_ifs with hlinks htype
  · exact ⟨_, rfl⟩
  · exact absurd (Or.inr ⟨hlinks, htype⟩) hloads
  · exact ⟨_, rfl⟩

/-- The three ways in which a lookup starts. -/
theorem ImageOf.start_cases (h : ImageOf m s) (hinv : MkInv ρ m) (hdirs : MkDirs m) {env : VfsEnv} (henv : m.Admits env)
    (start : PathStart) :
    (m.StartSafe env start ∧ ∃ d, startDir env start = some d ∧ d ∈ m.inos ∧ (m.inode d).type = .dir ∧
        (startNode env start).run s = .ok (.sfs d) s) ∨
      (m.StartSafe env start ∧ startDir env start = none ∧
        ((∃ e, (startNode env start).run s = .error e s) ∨ ∃ n, (startNode env start).run s = .ok (.device n) s)) ∨
      (¬ m.StartSafe env start ∧ ∃ p, (startNode env start).run s = .panic p) := by
  obtain ⟨hmem, hroot⟩ := hdirs.root
  cases start with
  | curdir =>
    cases hcwd : env.cwd with
    | none => exact Or.inr (Or.inl ⟨trivial, hcwd, Or.inl ⟨.noEnt, by simp [startNode, vfsGetCurdir, hcwd]⟩⟩)
    | some d =>
      obtain ⟨hd, hdir⟩ := henv d (Or.inl hcwd)
      exact Or.inl ⟨trivial, d, hcwd, hd, hdir, by simp [startNode, vfsGetCurdir, hcwd]⟩
  | bootfs =>
    cases hboot : env.bootfs with
    | none => exact Or.inr (Or.inl ⟨trivial, hboot, Or.inl ⟨.noEnt, by simp [startNode, vfsGetBootfs, hboot]⟩⟩)
    | some d =>
      obtain ⟨hd, hdir⟩ := henv d (Or.inr hboot)
      exact Or.inl ⟨trivial, d, hboot, hd, hdir, by simp [startNode, vfsGetBootfs, hboot]⟩
  | curfs =>
    cases hcwd : env.cwd with
    | none =>
      exact Or.inr (Or.inl ⟨Or.inl hcwd, by simp [startDir, hcwd], Or.inl ⟨.noEnt, by
        simp [startNode, vfsGetCurdir, hcwd]⟩⟩)
    | some d =>
      by_cases hloads : m.Loads env.loaded 1
      · exact Or.inl ⟨Or.inr hloads, 1, by simp [startDir, hcwd], hmem, hroot, by
          simp [startNode, vfsGetCurdir, hcwd, h.load_ok hinv hmem hloads]⟩
      · obtain ⟨p, hp⟩ := h.load_panic hinv hmem hloads
        refine Or.inr (Or.inr ⟨fun hsafe => ?_, p, by simp [startNode, vfsGetCurdir, hcwd, hp]⟩)
        rcases hsafe with hnone | hsafe
        · rw [hcwd] at hnone
          cases hnone
        · exact hloads hsafe
  | device name =>
    by_cases hname : name = disk0
    · subst hname
      have hfind : vdevList.find? (fun d => d.name = disk0) = some ⟨disk0, true, true⟩ := rfl
      by_cases hloads : m.Loads env.loaded 1
      · exact Or.inl ⟨Or.inr hloads, 1, by simp [startDir], hmem, hroot, by
          simp [startNode, vfsGetRoot, hfind, h.load_ok hinv hmem hloads]⟩
      · obtain ⟨p, hp⟩ := h.load_panic hinv hmem hloads
        exact Or.inr (Or.inr ⟨fun hsafe => hsafe.elim (fun hne => hne rfl) hloads, p, by
          simp [startNode, vfsGetRoot, hfind, hp]⟩)
    · refine Or.inr (Or.inl ⟨Or.inl hname, by simp [startDir, hname], ?_⟩)
      have hne : ¬ disk0 = name := fun heq => hname heq.symm
      simp only [startNode, vfsGetRoot, vdevList, List.find?_cons, hne, decide_false]
      by_cases hstdout : stdout = name
      · simp [hstdout]
      by_cases hstdin : stdin = name
      · simp [hstdout, hstdin]
      · simp [hstdout, hstdin]

section safe

variable {img : ℕ → Block} {nblocks dBlocks : ℕ}

/-- **A lookup returns**, with an inode or with an error code, if and only if it is safe. -/
theorem lookup_returns_iff (hreach : MkReach img nblocks m) (hmount : m.Mounts dBlocks s) {env : VfsEnv}
    (henv : m.Admits env) (path : CString) :
    (∀ p, (vfsLookup env path).run s ≠ .panic p) ↔ m.LookupSafe env path := by
  have himage := hmount.mounted hreach.ok
  obtain ⟨⟨ρ, hinv⟩, hdirs⟩ := hreach.ok
  unfold Mksfs.LookupSafe
  rcases himage.start_cases hinv hdirs henv (splitPath path).1 with
    ⟨hsafe, d, hstart, hd, hdir, hrun⟩ | ⟨hsafe, hstart, hrun⟩ | ⟨hsafe, p, hrun⟩
  · rw [vfsLookup_run hrun]
    by_cases hempty : (splitPath path).2.bytes = []
    · rw [if_neg (fun hne => hne hempty)]
      exact ⟨fun _ => ⟨hsafe, Or.inl hempty⟩, fun _ p hp => by cases hp⟩
    rw [if_pos hempty, vopLookup, Prog.run_bind,
      himage.lookup_run hinv hdirs hd hdir _ hempty (splitPath_head path)]
    have hiff : (m.StartSafe env (splitPath path).1 ∧ ((splitPath path).2.bytes = [] ∨
        ∀ d, startDir env (splitPath path).1 = some d → m.Finds (d :: env.loaded) d (splitPath path).2)) ↔
        m.Finds (d :: env.loaded) d (splitPath path).2 := by
      constructor
      · rintro ⟨-, hnil | hall⟩
        · exact absurd hnil hempty
        · exact hall d hstart
      · intro hfinds
        refine ⟨hsafe, Or.inr fun d' hd' => ?_⟩
        rw [hstart] at hd'
        rw [← Option.some.inj hd']
        exact hfinds
    rw [hiff, Mksfs.Finds]
    by_cases hlen : (splitPath path).2.strlen ≤ 255
    swap
    · rw [if_neg hlen]
      exact ⟨fun hno => absurd rfl (hno _), fun hand => absurd hand.1 hlen⟩
    rw [if_pos hlen]
    cases hfirst : m.firstEntry d (splitPath path).2 with
    | none =>
      simp only
      split_ifs with hcount
      · exact ⟨fun _ => ⟨hlen, hcount⟩, fun _ p hp => by cases hp⟩
      · exact ⟨fun hno => absurd rfl (hno _), fun hand => absurd hand.2 hcount⟩
    | some e =>
      simp only
      have hmem := (hdirs.target d hd e (Mksfs.firstEntry_some hfirst).1).1
      by_cases hloads : m.Loads (d :: env.loaded) e.1
      · rw [himage.load_ok hinv hmem hloads]
        exact ⟨fun _ => ⟨hlen, hloads⟩, fun _ p hp => by cases hp⟩
      · obtain ⟨p, hp⟩ := himage.load_panic hinv hmem hloads
        rw [hp]
        exact ⟨fun hno => absurd rfl (hno _), fun hand => absurd hand.2 hloads⟩
  · have hright : m.StartSafe env (splitPath path).1 ∧ ((splitPath path).2.bytes = [] ∨
        ∀ d, startDir env (splitPath path).1 = some d → m.Finds (d :: env.loaded) d (splitPath path).2) := by
      refine ⟨hsafe, Or.inr fun d hd => ?_⟩
      rw [hstart] at hd
      cases hd
    refine ⟨fun _ => hright, fun _ p hp => ?_⟩
    rcases hrun with ⟨e, hrun⟩ | ⟨n, hrun⟩
    · rw [vfsLookup, getDevice, Prog.run_bind, Prog.bind_of_error hrun] at hp
      cases hp
    · rw [vfsLookup_run hrun] at hp
      split_ifs at hp with hempty
      simp only [vopLookup, if_pos hempty] at hp
      cases hp
  · refine ⟨fun hno => ?_, fun hand => absurd hand.1 hsafe⟩
    refine absurd ?_ (hno p)
    rw [vfsLookup, getDevice, Prog.run_bind, Prog.bind_of_panic hrun]
    rfl

/-- The state after boot: the process is in the root directory. -/
def bootEnv : VfsEnv := ⟨some 1, some 1, [1]⟩

theorem Mksfs.admits_boot (h : MkDirs m) : m.Admits bootEnv := by
  rintro d (hd | hd) <;> rw [← Option.some.inj hd] <;> exact h.root

/-- An image with an empty root directory. -/
theorem exists_empty (img : ℕ → Block) : ∃ m, Walked img 64 .nil m ∧ MkReach img 64 m ∧ m.ninos = 64 ∧
    (m.inode 1).entries = [(1, dot), (1, dotdot)] := by
  obtain ⟨m, hwalked, hninos⟩ := walked_of_accepted (t := .nil) img 64 trivial
    (by show 0 + 2 ≤ 32768; omega) (by show 3 + 6 + 0 ≤ 64; omega)
  obtain ⟨hreach, -, ⟨l, hentries, hlisted⟩, -⟩ := hwalked.tree (F := fun _ => False) trivial (fun hF => hF)
  refine ⟨m, hwalked, hreach, hninos, ?_⟩
  rw [hentries, List.forall₂_nil_left_iff.mp hlisted]

theorem splitPath_letters (n : ℕ) (hn : n ≠ 0) :
    splitPath (letters n hn).toCString = (.curdir, (letters n hn).toCString) := by
  have hnone : (letters n hn).bytes.findIdx? (fun b => b = 58 ∨ b = 47) = none := by
    rw [List.findIdx?_eq_none_iff]
    intro b hb
    rw [List.eq_of_mem_replicate hb]
    decide
  unfold splitPath
  rw [hnone]

/-- A name that is not there is an error, and nothing more. -/
theorem lookup_returns_missing : ∃ m s, MkReach (fun _ => zeroBlock) 64 m ∧ m.Mounts 64 s ∧ m.Admits bootEnv ∧
    ∀ p, (vfsLookup bootEnv (letters 255 (by decide)).toCString).run s ≠ .panic p := by
  obtain ⟨m, -, hreach, hninos, hentries⟩ := exists_empty fun _ => zeroBlock
  obtain ⟨s, hmount⟩ := hreach.ok.exists_mounts (d := 64) (by omega)
  have hadmits := Mksfs.admits_boot hreach.ok.2
  refine ⟨m, s, hreach, hmount, hadmits, (lookup_returns_iff hreach hmount hadmits _).mpr ?_⟩
  have hlen : (letters 255 (by decide)).strlen = 255 := strlen_letters 255 (by decide)
  unfold Mksfs.LookupSafe
  rw [splitPath_letters]
  refine ⟨trivial, Or.inr fun d hd => ⟨hlen.le, ?_⟩⟩
  have hd' : d = 1 := (Option.some.inj hd).symm
  subst hd'
  have hnone : m.firstEntry 1 (letters 255 (by decide)).toCString = none := by
    rw [Mksfs.firstEntry, List.find?_eq_none]
    intro e he heq
    rw [decide_eq_true_eq] at heq
    have hcut := e.2.strlen_cut 252
    rw [heq] at hcut
    have hlen' : (letters 255 (by decide)).toCString.strlen = 255 := hlen
    omega
  rw [hnone]
  simp only
  rw [hentries]
  decide

/-- A name of 256 letters stops the kernel, on an empty image. -/
theorem lookup_long_name : ∃ m s, MkReach (fun _ => zeroBlock) 64 m ∧ m.Mounts 64 s ∧ m.Admits bootEnv ∧
    (vfsLookup bootEnv (letters 256 (by decide)).toCString).run s = .panic .searchName := by
  obtain ⟨m, -, hreach, hninos, -⟩ := exists_empty fun _ => zeroBlock
  obtain ⟨s, hmount⟩ := hreach.ok.exists_mounts (d := 64) (by omega)
  have himage := hmount.mounted hreach.ok
  obtain ⟨⟨ρ, hinv⟩, hdirs⟩ := hreach.ok
  refine ⟨m, s, hreach, hmount, Mksfs.admits_boot hdirs, ?_⟩
  have hlen : ¬ (letters 256 (by decide)).toCString.strlen ≤ 255 := by
    have : (letters 256 (by decide)).toCString.strlen = 256 := strlen_letters 256 (by decide)
    omega
  have hne : (letters 256 (by decide)).toCString.bytes ≠ [] := (letters 256 (by decide)).ne_nil
  have hslash : (letters 256 (by decide)).toCString.bytes.head? ≠ some 47 := fun hhead =>
    (letters 256 (by decide)).no_slash (List.mem_of_mem_head? hhead)
  have hstart : (startNode bootEnv (splitPath (letters 256 (by decide)).toCString).1).run s = .ok (.sfs 1) s := by
    rw [splitPath_letters]
    rfl
  rw [vfsLookup_run hstart, splitPath_letters]
  simp only
  rw [if_pos hne, vopLookup, Prog.run_bind, himage.lookup_run hinv hdirs hdirs.root.1 hdirs.root.2 _ hne hslash,
    if_neg hlen]
  rfl

end safe

/-! ### The path of a file -/

/-- There is a regular file with a given path and number in a directory of the host. -/
inductive HostDir.HasFile : HostDir → List HostName → ℕ → Prop
  | here (name : HostName) (real : ℕ) (content : List UInt8) (rest : HostDir) :
      HasFile (.file name real content rest) [name] real
  | inside {sub : HostDir} {path : List HostName} {real : ℕ} (name : HostName) (r : ℕ) (rest : HostDir) :
      HasFile sub path real → HasFile (.dir name r sub rest) (name :: path) real
  | afterFile {rest : HostDir} {path : List HostName} {real : ℕ} (name : HostName) (r : ℕ) (content : List UInt8) :
      HasFile rest path real → HasFile (.file name r content rest) path real
  | afterLink {rest : HostDir} {path : List HostName} {real : ℕ} (name : HostName) (r : ℕ) (target : List UInt8) :
      HasFile rest path real → HasFile (.link name r target rest) path real
  | afterDir {rest : HostDir} {path : List HostName} {real : ℕ} (name : HostName) (r : ℕ) (sub : HostDir) :
      HasFile rest path real → HasFile (.dir name r sub rest) path real
  | afterOther {rest : HostDir} {path : List HostName} {real : ℕ} (name : HostName) :
      HasFile rest path real → HasFile (.other name rest) path real

theorem HostDir.HasFile.ne_nil {t : HostDir} {path : List HostName} {real : ℕ} (h : t.HasFile path real) :
    path ≠ [] := by
  induction h with
  | here => exact List.cons_ne_nil _ _
  | inside => exact List.cons_ne_nil _ _
  | afterFile _ _ _ _ ih => exact ih
  | afterLink _ _ _ _ ih => exact ih
  | afterDir _ _ _ _ ih => exact ih
  | afterOther _ _ ih => exact ih

/-- The bytes of `c1/c2/…/ck`. -/
def joinBytes : List HostName → List UInt8
  | [] => []
  | [name] => name.bytes
  | name :: path => name.bytes ++ 47 :: joinBytes path

theorem joinBytes_nul_free (path : List HostName) : ∀ b ∈ joinBytes path, b ≠ 0 := by
  induction path with
  | nil => exact fun b hb => absurd hb List.not_mem_nil
  | cons name path ih =>
    cases path with
    | nil => exact name.nul_free
    | cons name' path =>
      intro b hb
      rcases List.mem_append.mp hb with hmem | hmem
      · exact name.nul_free b hmem
      · rcases List.mem_cons.mp hmem with rfl | hmem
        · decide
        · exact ih b hmem

/-- `c1/c2/…/ck` -/
def joinPath (path : List HostName) : CString := ⟨joinBytes path, joinBytes_nul_free path⟩

/-- `disk0:/c1/c2/…/ck` -/
def diskPath (path : List HostName) : CString where
  bytes := disk0.bytes ++ [58, 47] ++ joinBytes path
  nul_free b hb := by
    have hdevice : ∀ c ∈ disk0.bytes ++ [58, 47], c ≠ 0 := by simp [disk0]
    rcases List.mem_append.mp hb with hmem | hmem
    · exact hdevice b hmem
    · exact joinBytes_nul_free path b hmem

theorem joinPath_head {path : List HostName} (hne : path ≠ []) :
    joinBytes path ≠ [] ∧ (joinBytes path).head? ≠ some 47 := by
  cases path with
  | nil => exact absurd rfl hne
  | cons name path =>
    have hname := name.ne_nil
    have hslash : name.bytes.head? ≠ some 47 := fun hhead => name.no_slash (List.mem_of_mem_head? hhead)
    cases path with
    | nil => exact ⟨hname, hslash⟩
    | cons name' path =>
      refine ⟨fun happ => hname (List.append_eq_nil_iff.mp happ).1, ?_⟩
      show (name.bytes ++ 47 :: joinBytes (name' :: path)).head? ≠ some 47
      rw [List.head?_append_of_ne_nil _ hname]
      exact hslash

/-- The device is taken off, and the rest stays. -/
theorem splitPath_diskPath {path : List HostName} (hne : path ≠ []) :
    splitPath (diskPath path) = (.device disk0, joinPath path) := by
  obtain ⟨hnil, hslash⟩ := joinPath_head hne
  have hfind : (diskPath path).bytes.findIdx? (fun b => b = 58 ∨ b = 47) = some 5 := rfl
  have hcolon : (diskPath path).bytes.getD 5 0 = 58 := rfl
  have hcut : (diskPath path).cut 5 = disk0 := rfl
  have hskip : (diskPath path).skip 6 47 = joinPath path := by
    apply CString.ext
    show (47 :: joinBytes path).dropWhile (· = 47) = joinBytes path
    rw [List.dropWhile_cons_of_pos (by decide)]
    cases hbytes : joinBytes path with
    | nil => exact absurd hbytes hnil
    | cons b bs =>
      rw [hbytes, List.head?_cons] at hslash
      refine List.dropWhile_cons_of_neg ?_
      rw [decide_eq_true_eq]
      exact fun heq => hslash (congrArg some heq)
  unfold splitPath
  rw [hfind]
  simp only
  rw [if_pos hcolon, if_pos (by decide), hcut, hskip]

/-- A path of more than one name has a slash in it. -/
theorem slash_mem_joinBytes (name name' : HostName) (path : List HostName) :
    47 ∈ joinBytes (name :: name' :: path) :=
  List.mem_append_right _ List.mem_cons_self

/-- Searches in two lists of related elements. -/
theorem forall₂_find? {α β : Type} {R : α → β → Prop} {p : α → Bool} {q : β → Bool} {l : List α} {l' : List β}
    (h : List.Forall₂ R l l') (hpq : ∀ a b, R a b → p a = q b) :
    l.find? p = none ∧ l'.find? q = none ∨ ∃ a b, l.find? p = some a ∧ l'.find? q = some b ∧ R a b := by
  induction h with
  | nil => exact Or.inl ⟨rfl, rfl⟩
  | @cons a b _ _ hab _ ih =>
    rw [List.find?_cons, List.find?_cons, hpq a b hab]
    cases q b with
    | true => exact Or.inr ⟨a, b, rfl, rfl, hab⟩
    | false => exact ih

/-- The numbers of regular files are different from those of links and directories, and from 0. -/
def HostDir.Valid (t : HostDir) : Prop := ∃ F : ℕ → Prop, ¬ F 0 ∧ t.Numbers F

section path

variable {img : ℕ → Block} {nblocks dBlocks : ℕ} {t : HostDir} {env : VfsEnv} {path : List HostName} {real : ℕ}

/-- The root is where paths with a device start. -/
theorem ImageOf.lookup_disk (h : ImageOf m s) (hinv : MkInv ρ m) (hdirs : MkDirs m) (hroot : 1 ∈ env.loaded)
    (hne : path ≠ []) :
    (vfsLookup env (diskPath path)).run s =
      ((sfsLookup (1 :: env.loaded) 1 (joinPath path)).run s).andThen fun found => pure (.sfs found) := by
  have hsplit := splitPath_diskPath hne
  have hfind : vdevList.find? (fun d => d.name = disk0) = some ⟨disk0, true, true⟩ := rfl
  have hstart : (startNode env (splitPath (diskPath path)).1).run s = .ok (.sfs 1) s := by
    rw [hsplit]
    simp [startNode, vfsGetRoot, hfind, h.load_ok hinv hdirs.root.1 (Or.inl hroot)]
  rw [vfsLookup_run hstart, hsplit]
  exact if_pos (joinPath_head hne).1

/-- The first entry for a name that is not one of the dots. -/
theorem firstEntry_root {l : List (ℕ × CString)} (hentries : (m.inode 1).entries = (1, dot) :: (1, dotdot) :: l)
    (name : CString) : m.firstEntry 1 name =
      if dot = name then some (1, dot) else if dotdot = name then some (1, dotdot)
      else (l.take 1034).find? fun e => e.2.cut 252 = name := by
  have hdot : dot.cut 252 = dot := rfl
  have hdotdot : dotdot.cut 252 = dotdot := rfl
  rw [Mksfs.firstEntry, hentries]
  show (((1, dot) :: (1, dotdot) :: l.take 1034).find? fun e => e.2.cut 252 = name) = _
  rw [List.find?_cons, List.find?_cons]
  simp only [hdot, hdotdot]
  by_cases h₁ : dot = name
  · rw [if_pos h₁, decide_eq_true h₁]
  rw [if_neg h₁, decide_eq_false h₁]
  by_cases h₂ : dotdot = name
  · rw [if_pos h₂, decide_eq_true h₂]
  · rw [if_neg h₂, decide_eq_false h₂]

/-- A name that starts with a dot is hidden, and so is one of which it is the start. -/
theorem HostName.hidden_of_cut {name : HostName} {dots : CString} (hdots : dots.bytes.head? = some 46)
    (h : name.toCString.cut 252 = dots) : name.hidden := by
  unfold HostName.hidden
  rw [← hdots, ← h]
  show name.bytes.head? = (name.bytes.take 252).head?
  rw [List.head?_take, if_neg (by decide)]

/-- **The path of a file** leads to its inode if and only if the file is in the top directory, the first of the first 1034
entries of whose name 252 bytes are left that are its name is one of the file, and the number of its names is no multiple
of 65536, unless its inode is in memory. -/
theorem lookup_finds_iff (hwalked : Walked img nblocks t m) (ht : t.Valid) (hmount : m.Mounts dBlocks s)
    (hroot : 1 ∈ env.loaded) (hfile : t.HasFile path real) :
    (∃ f, m.Is f .file real ∧ (vfsLookup env (diskPath path)).run s = .ok (.sfs f) s) ↔
      ∃ name, path = [name] ∧
        (∃ e, (t.entries.take 1034).find? (fun e => e.name.toCString.cut 252 = name.toCString) = some e ∧
          e.type = .file ∧ e.real = real) ∧
        ((∃ f ∈ env.loaded, m.Is f .file real) ∨ t.links real % 65536 ≠ 0) := by
  obtain ⟨F, hzero, hnumbers⟩ := ht
  obtain ⟨hreach, hnum, ⟨l, hentries, hlisted⟩, hlinks⟩ := hwalked.tree hnumbers hzero
  have himage := hmount.mounted hreach.ok
  obtain ⟨⟨ρ, hinv⟩, hdirs⟩ := hreach.ok
  have hne := hfile.ne_nil
  have hfind := forall₂_find? (List.forall₂_take 1034 hlisted)
    (p := fun e => e.name.toCString.cut 252 = joinPath path) (q := fun e => e.2.cut 252 = joinPath path)
    fun a b hab => by rw [hab.1]
  have hlinked : ∀ g, m.Is g .file real → (m.inode g).nlinks = t.links real % 65536 := by
    intro g hg
    rw [hdirs.nlinks g hg.1, hlinks g hg.1 hg.2.1, hg.2.2]
  rw [himage.lookup_disk hinv hdirs hroot hne,
    himage.lookup_run hinv hdirs hdirs.root.1 hdirs.root.2 _ (joinPath_head hne).1 (joinPath_head hne).2,
    firstEntry_root hentries]
  constructor
  · rintro ⟨f, his, hrun⟩
    have hone : f ≠ 1 := by
      rintro rfl
      have := his.2.1
      rw [hdirs.root.2] at this
      exact SfsType.noConfusion this
    -- the entry that has been found is none of the dots
    have hload := himage.load_ok hinv hdirs.root.1 (l := 1 :: env.loaded) (Or.inl List.mem_cons_self)
    by_cases hlen : (joinPath path).strlen ≤ 255
    swap
    · rw [if_neg hlen] at hrun
      cases hrun
    rw [if_pos hlen] at hrun
    by_cases hdot : dot = joinPath path
    · rw [if_pos hdot] at hrun
      simp only [hload] at hrun
      exact absurd (VNode.sfs.inj (Outcome.ok.inj hrun).1).symm hone
    by_cases hdotdot : dotdot = joinPath path
    · rw [if_neg hdot, if_pos hdotdot] at hrun
      simp only [hload] at hrun
      exact absurd (VNode.sfs.inj (Outcome.ok.inj hrun).1).symm hone
    rw [if_neg hdot, if_neg hdotdot] at hrun
    rcases hfind with ⟨-, hnone⟩ | ⟨e, x, he, hx, hname, hx'⟩
    · rw [hnone] at hrun
      simp only at hrun
      split_ifs at hrun <;> cases hrun
    rw [hx] at hrun
    simp only at hrun
    by_cases hloads : m.Loads (1 :: env.loaded) x.1
    swap
    · obtain ⟨p, hp⟩ := himage.load_panic hinv hx'.1 hloads
      rw [hp] at hrun
      cases hrun
    rw [himage.load_ok hinv hx'.1 hloads] at hrun
    have hfx : x.1 = f := VNode.sfs.inj (Outcome.ok.inj hrun).1
    rw [hfx] at hx' hloads
    have hcut : e.name.toCString.cut 252 = joinPath path := by simpa using List.find?_some he
    obtain ⟨name, rfl⟩ : ∃ name, path = [name] := by
      cases path with
      | nil => exact absurd rfl hne
      | cons name path =>
        cases path with
        | nil => exact ⟨name, rfl⟩
        | cons name' path =>
          have hslash := slash_mem_joinBytes name name' path
          rw [show joinBytes (name :: name' :: path) = (e.name.toCString.cut 252).bytes from
            congrArg CString.bytes hcut.symm] at hslash
          exact absurd (List.mem_of_mem_take hslash) e.name.no_slash
    refine ⟨name, rfl, ⟨e, he, hx'.2.1.symm.trans his.2.1, hx'.2.2.symm.trans his.2.2⟩, ?_⟩
    rcases hloads with hmem | ⟨hnlinks, -⟩
    · exact Or.inl ⟨f, (List.mem_cons.mp hmem).resolve_left hone, his⟩
    · rw [hlinked f his] at hnlinks
      exact Or.inr hnlinks
  · rintro ⟨name, rfl, ⟨e, he, htype, hreal⟩, hload⟩
    have hjoin : joinPath [name] = name.toCString := rfl
    rw [hjoin] at hfind ⊢
    rcases hfind with ⟨hnone, -⟩ | ⟨e', x, he', hx, -, his⟩
    · rw [he] at hnone
      cases hnone
    have heq : e' = e := Option.some.inj (he'.symm.trans he)
    subst heq
    rw [htype, hreal] at his
    have hcut : e'.name.toCString.cut 252 = name.toCString := by simpa using List.find?_some he
    have hvisible := t.not_hidden e' (List.mem_of_mem_take (List.mem_of_find?_eq_some he))
    have hdot : ¬ dot = name.toCString := fun hdot => hvisible (HostName.hidden_of_cut (by decide) (hcut.trans hdot.symm))
    have hdotdot : ¬ dotdot = name.toCString := fun hdot =>
      hvisible (HostName.hidden_of_cut (by decide) (hcut.trans hdot.symm))
    have hlen : name.toCString.strlen ≤ 255 := by
      have := e'.name.toCString.strlen_cut 252
      rw [hcut] at this
      omega
    have hloads : m.Loads (1 :: env.loaded) x.1 := by
      rcases hload with ⟨g, hg, hg'⟩ | hlinks'
      · rw [hnum.inj x.1 his.1 g hg'.1 his.2.1 (his.2.2.trans hg'.2.2.symm)]
        exact Or.inl (List.mem_cons_of_mem _ hg)
      · refine Or.inr ⟨?_, Or.inr his.2.1⟩
        rw [hlinked x.1 his]
        exact hlinks'
    refine ⟨x.1, his, ?_⟩
    rw [if_pos hlen, if_neg hdot, if_neg hdotdot, hx]
    simp only
    rw [himage.load_ok hinv his.1 hloads]
    rfl

end path

/-- A file in the top directory is found. -/
theorem lookup_finds_top : ∃ m s f, Walked (fun _ => zeroBlock) 64 (.file (letters 1 (by decide)) 7 [] .nil) m ∧
    m.Mounts 64 s ∧ m.Is f .file 7 ∧
    (vfsLookup bootEnv (diskPath [letters 1 (by decide)])).run s = .ok (.sfs f) s := by
  obtain ⟨m, -, hwalked, hreach, hninos, -, -, -⟩ := exists_single (fun _ => zeroBlock) 1 (by decide) (by decide)
  obtain ⟨s, hmount⟩ := hreach.ok.exists_mounts (d := 64) (by omega)
  have hentries : (HostDir.file (letters 1 (by decide)) 7 [] .nil).entries = [⟨letters 1 (by decide), .file, 7⟩] := rfl
  obtain ⟨f, his, hrun⟩ := (lookup_finds_iff hwalked
    ⟨fun r => r = 7, by decide, rfl, trivial⟩ hmount (show 1 ∈ bootEnv.loaded from List.mem_cons_self) (.here _ 7 [] .nil)).mpr
    ⟨letters 1 (by decide), rfl, ⟨⟨letters 1 (by decide), .file, 7⟩, by rw [hentries]; rfl, rfl, rfl⟩,
      Or.inr (by decide)⟩
  exact ⟨m, s, f, hwalked, hmount, his, hrun⟩

/-- A file in a directory is not. -/
theorem lookup_misses_inside : ∃ m s,
    Walked (fun _ => zeroBlock) 64
      (.dir (letters 1 (by decide)) 8 (.file (letters 2 (by decide)) 7 [] .nil) .nil) m ∧
    m.Mounts 64 s ∧
    (HostDir.dir (letters 1 (by decide)) 8 (.file (letters 2 (by decide)) 7 [] .nil) .nil).HasFile
      [letters 1 (by decide), letters 2 (by decide)] 7 ∧
    (vfsLookup bootEnv (diskPath [letters 1 (by decide), letters 2 (by decide)])).run s = .error .noEnt s := by
  have haccepted : (HostDir.dir (letters 1 (by decide)) 8 (.file (letters 2 (by decide)) 7 [] .nil) .nil).Accepted [0] :=
    ⟨by decide, by decide, by decide, ⟨by decide, by decide, trivial⟩, trivial⟩
  obtain ⟨m, hwalked, hninos⟩ := walked_of_accepted (fun _ => zeroBlock) 64 haccepted
    (by show 1 + 2 ≤ 32768; omega) (by show 3 + 6 + 14 ≤ 64; omega)
  obtain ⟨hreach, -, ⟨l, hentries, hlisted⟩, -⟩ := hwalked.tree (F := fun r => r = 7)
    ⟨by decide, ⟨rfl, trivial⟩, trivial⟩ (by decide)
  obtain ⟨s, hmount⟩ := hreach.ok.exists_mounts (d := 64) (by rw [hninos]; decide)
  have himage := hmount.mounted hreach.ok
  obtain ⟨⟨ρ, hinv⟩, hdirs⟩ := hreach.ok
  refine ⟨m, s, hwalked, hmount, .inside _ 8 .nil (.here _ 7 [] .nil), ?_⟩
  have hhost : (HostDir.dir (letters 1 (by decide)) 8 (.file (letters 2 (by decide)) 7 [] .nil) .nil).entries =
      [⟨letters 1 (by decide), .dir, 8⟩] := rfl
  rw [Listed, hhost] at hlisted
  obtain ⟨⟨f, name⟩, l', ⟨rfl, -⟩, hnil, rfl⟩ := List.forall₂_cons_left_iff.mp hlisted
  rw [List.forall₂_nil_left_iff.mp hnil] at hentries
  rw [himage.lookup_disk hinv hdirs List.mem_cons_self (List.cons_ne_nil _ _),
    himage.lookup_run hinv hdirs hdirs.root.1 hdirs.root.2 _ (by decide) (by decide), firstEntry_root hentries,
    hentries]
  rfl

end Ucore.Tools
