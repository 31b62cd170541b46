import Ucore.Fs.VopDispatch

/-!
# Parsing a path twice

`vfs_open` calls `vfs_lookup` and, when there is no such file, `vfs_lookup_parent` with the same buffer. `get_device` writes a zero
behind the name of a device, so the second call may see another path (`pathLeft`).

* `vfsLookup_reads`: a lookup changes nothing in the file system, whatever its state is.
* `parse_again`: the second call chooses the start and the name that the path asks for if and only if the path has no device in front
  of it, or both parses happen to agree (`ParsesAgain`).
-/

namespace Ucore.Fs

open Ucore.Lib

variable {s s' : Sfs} {env : VfsEnv} {path : CString}

/-! ### A lookup reads -/

/-- The program leaves the file system as it is. -/
abbrev Reads {α : Type} (m : SfsProg α) : Prop := Within Eq (fun _ => True) m

theorem bitmapTest_reads (index : ℕ) : Within Eq (fun _ => True) (bitmapTest index) := by
  unfold bitmapTest
  exact .bind .get fun _ => .bind (.assert _ trivial) fun _ => .pure _

theorem sfsBlockInuse_reads (ino : ℕ) : Reads (sfsBlockInuse ino) := by
  have htest : Reads (onFreemap (bitmapTest ino)) := by
    intro s
    have hreads := bitmapTest_reads ino s.freemap
    unfold onFreemap Prog.zoom
    dsimp only
    cases hrun : (bitmapTest ino).run s.freemap with
    | ok free b =>
      rw [hrun, Outcome.post_ok] at hreads
      rw [← hreads]
      rfl
    | error e b =>
      rw [hrun, Outcome.post_error] at hreads
      rw [← hreads]
      rfl
    | panic p => trivial
  unfold sfsBlockInuse
  exact .bind .get fun _ => .ite (.bind htest fun _ => .pure _) (.stop trivial)

theorem sfsRbuf_reads (len blkno offset : ℕ) : Reads (sfsRbuf len blkno offset) := by
  have hblock : Reads (sfsRblock blkno) := by
    unfold sfsRblock
    exact .bind .get fun _ => .bind (.assert _ trivial) fun _ => .pure _
  unfold sfsRbuf
  exact .bind (.assert _ trivial) fun _ => .bind hblock fun _ => .pure _

theorem bmapGetOut_reads (ino : ℕ) : Reads (bmapGetOut ino) := by
  unfold bmapGetOut
  dsimp only
  refine .ite (.bind (sfsBlockInuse_reads ino) fun inuse => ?_) (.pure _)
  exact .bind (.assert (inuse = true) trivial) fun _ => .pure _

/-- The entry block stays, when no block is created. -/
theorem sfsBmapGetSubNolock_reads (entp index : ℕ) (s : Sfs) : ((sfsBmapGetSubNolock entp index false).run s).Post
    (fun r t => s = t ∧ r.1 = entp) (fun _ t => s = t) fun _ => True := by
  unfold sfsBmapGetSubNolock
  refine Outcome.Post.assert_bind fun _ => ?_
  by_cases hent : entp ≠ 0
  · rw [if_pos hent]
    refine (sfsRbuf_reads 4 entp (index * 4)).post_bind ?_ (fun _ _ h => h) fun _ h => h
    rintro bytes _ rfl
    rw [if_pos (Or.inr rfl)]
    exact ⟨rfl, rfl⟩
  · rw [if_neg hent, if_pos rfl]
    exact ⟨rfl, (of_not_not hent).symm⟩

theorem sfsBmapGetNolock_reads (sin index : ℕ) : Reads (sfsBmapGetNolock sin index false) := by
  intro s
  unfold sfsBmapGetNolock
  rw [Prog.run_bind, Prog.run_get, Outcome.andThen_ok]
  dsimp only
  by_cases hdirect : index < 12
  · rw [if_pos hdirect, if_neg fun h => Bool.noConfusion h.2]
    exact bmapGetOut_reads _ s
  rw [if_neg hdirect]
  by_cases hrange : index - 12 < 1024
  · rw [if_pos hrange]
    refine Outcome.Post.bind (sfsBmapGetSubNolock_reads _ _ s) ?_
    rintro ⟨ent, ino⟩ _ ⟨rfl, hent⟩
    dsimp only at hent ⊢
    rw [if_neg (not_not_intro hent)]
    exact bmapGetOut_reads _ s
  · rw [if_neg hrange]
    trivial

/-- A block that the file has is found, and no block is added. -/
theorem sfsBmapLoadNolock_reads {sin index : ℕ} (h : index < (s.inode sin).blocks) :
    ((sfsBmapLoadNolock sin index).run s).Post (fun _ => Eq s) (fun _ => Eq s) fun _ => True := by
  have hnew : decide (index = (s.inode sin).blocks) = false := decide_eq_false (Nat.ne_of_lt h)
  unfold sfsBmapLoadNolock
  rw [Prog.run_bind, Prog.run_get, Outcome.andThen_ok]
  dsimp only
  rw [hnew]
  refine Outcome.Post.assert_bind fun _ => ?_
  refine (sfsBmapGetNolock_reads sin index).post_bind ?_ (fun _ _ h => h) fun _ h => h
  rintro ino _ rfl
  refine (sfsBlockInuse_reads ino).post_bind ?_ (fun _ _ h => h) fun _ h => h
  rintro inuse _ rfl
  refine Outcome.Post.assert_bind fun _ => ?_
  rw [if_neg (Nat.ne_of_lt h)]
  rfl

theorem sfsDirentReadNolock_reads (sin slot : ℕ) : Reads (sfsDirentReadNolock sin slot) := by
  intro s
  unfold sfsDirentReadNolock
  rw [Prog.run_bind, Prog.run_get, Outcome.andThen_ok]
  refine Outcome.Post.assert_bind fun hslot => ?_
  refine Outcome.Post.bind (sfsBmapLoadNolock_reads hslot.2) ?_
  rintro ino _ rfl
  exact Within.bind (sfsBlockInuse_reads ino) (fun _ => .bind (.assert _ trivial) fun _ => .bind (sfsRbuf_reads _ _ _)
    fun _ => .pure _) s

theorem direntSearchLoop_reads (sin : ℕ) (name : CString) (n i : ℕ) : Reads (direntSearchLoop sin name n i) := by
  induction n generalizing i with
  | zero => exact .throw _
  | succ n ih =>
    unfold direntSearchLoop
    exact .bind (sfsDirentReadNolock_reads sin i) fun _ => .ite (ih _) (.ite (.pure _) (ih _))

theorem sfsLoadInodeDisk_reads (loaded : List ℕ) (ino : ℕ) : Reads (sfsLoadInodeDisk loaded ino) := by
  have hops (type : SfsType) : Reads (sfsGetOps type) := by
    cases type with
    | dir => exact .pure _
    | file => exact .pure _
    | inval => exact .stop trivial
    | link => exact .stop trivial
  unfold sfsLoadInodeDisk
  exact .ite (.pure _) (.bind (sfsBlockInuse_reads ino) fun _ => .bind (.assert _ trivial) fun _ => .bind (sfsRbuf_reads _ _ _)
    fun _ => .bind (.assert _ trivial) fun _ => .bind (hops _) fun _ => .pure _)

theorem sfsLookup_reads (loaded : List ℕ) (node : ℕ) (name : CString) : Reads (sfsLookup loaded node name) := by
  have hsearch : Reads (sfsDirentSearchNolock node name) := by
    unfold sfsDirentSearchNolock
    exact .bind (.assert _ trivial) fun _ => .bind .get fun _ => direntSearchLoop_reads _ _ _ _
  unfold sfsLookup
  exact .bind (.assert _ trivial) fun _ => .bind .get fun _ => .ite (.throw _) (.bind hsearch fun _ => sfsLoadInodeDisk_reads _ _)

theorem startNode_reads (env : VfsEnv) (start : PathStart) : Reads (startNode env start) := by
  have hcurdir : Reads (vfsGetCurdir env) := by
    unfold vfsGetCurdir
    cases env.cwd with
    | none => exact .throw _
    | some d => exact .pure _
  have hload : Reads (do
      let ino ← sfsLoadInodeDisk env.loaded 1
      pure (.sfs ino) : SfsProg VNode) := .bind (sfsLoadInodeDisk_reads _ _) fun _ => .pure _
  cases start with
  | curdir => exact hcurdir
  | bootfs =>
    unfold startNode vfsGetBootfs
    cases env.bootfs with
    | none => exact .throw _
    | some d => exact .pure _
  | curfs => exact .bind hcurdir fun _ => hload
  | device name =>
    show Reads (vfsGetRoot env name)
    unfold vfsGetRoot
    split
    · exact .throw _
    · exact .ite hload (.ite (.throw _) (.pure _))

theorem vfsLookup_reads (env : VfsEnv) (path : CString) : Reads (vfsLookup env path) := by
  have hdevice : Reads (getDevice env path) := .bind (startNode_reads env _) fun _ => .pure _
  have hlookup (node : VNode) (name : CString) : Reads (vopLookup env node name) := by
    cases node with
    | sfs ino => exact .bind (sfsLookup_reads _ _ _) fun _ => .pure _
    | device dev => exact .ite (.throw _) (.pure _)
  exact .bind hdevice fun _ => .ite (hlookup _ _) (.pure _)

/-- An inode that can be had is the one that was asked for. -/
theorem sfsLoadInodeDisk_post (loaded : List ℕ) (ino : ℕ) (s : Sfs) : ((sfsLoadInodeDisk loaded ino).run s).Post
    (fun found _ => found = ino) (fun _ _ => False) fun _ => True := by
  have hinuse : ((sfsBlockInuse ino).run s).Post (fun _ _ => True) (fun _ _ => False) fun _ => True := by
    unfold sfsBlockInuse
    rw [Prog.run_bind, Prog.run_get, Outcome.andThen_ok, Prog.run_ite]
    split_ifs with hrange
    · unfold onFreemap Prog.zoom bitmapTest
      rw [Prog.run_bind]
      dsimp only
      rw [Prog.run_bind, Prog.run_get, Outcome.andThen_ok, Prog.run_bind, Prog.run_assert]
      split_ifs with hindex
      · trivial
      · trivial
    · trivial
  unfold sfsLoadInodeDisk
  by_cases hmem : ino ∈ loaded
  · rw [if_pos hmem]
    rfl
  · rw [if_neg hmem]
    refine Outcome.Post.bind hinuse fun inuse s₁ _ => Outcome.Post.assert_bind fun _ => ?_
    have hrbuf : ((sfsRbuf 64 ino 0).run s₁).Post (fun _ _ => True) (fun _ _ => False) fun _ => True := by
      unfold sfsRbuf sfsRblock
      refine Outcome.Post.assert_bind fun _ => ?_
      rw [Prog.run_bind, Prog.run_bind, Prog.run_get, Outcome.andThen_ok, Prog.run_bind, Prog.run_assert]
      split_ifs
      · trivial
      · trivial
    refine Outcome.Post.bind hrbuf fun bytes s₂ _ => Outcome.Post.assert_bind fun _ => ?_
    cases (diskInode fun k => bytes.getD k 0).type with
    | dir => rfl
    | file => rfl
    | inval => trivial
    | link => trivial

/-! ### Parsing the buffer again -/

/-- Source: `kern/fs/vfs/vfslookup.c` `vfs_lookup_parent` -/
def vfsLookupParent (env : VfsEnv) (path : CString) : SfsProg (VNode × CString) := getDevice env path

/-- The start of the lookup and the name that a parse has chosen. -/
def selected : Outcome SfsPanic FsError Sfs (VNode × CString) → Option (VNode × CString)
  | .ok found _ => some found
  | _ => none

/-- A path with the name of a device in front is the name of the device when it is parsed again, a name in the current directory. -/
def ParsesAgain (env : VfsEnv) (path : CString) : Prop :=
  match (splitPath path).1 with
  | .device name =>
    name ∉ vdevList.map VfsDev.name ∧ env.cwd = none ∨ name = disk0 ∧ env.cwd = some 1 ∧ (splitPath path).2 = disk0
  | _ => True

/-- The name of a device has neither colons nor slashes. -/
theorem splitPath_device {name : CString} (h : (splitPath path).1 = .device name) : splitPath name = (.curdir, name) := by
  unfold splitPath at h
  cases hfind : path.bytes.findIdx? fun b => b = 58 ∨ b = 47 with
  | none =>
    rw [hfind] at h
    cases h
  | some i =>
    rw [hfind] at h
    dsimp only at h
    split_ifs at h with hcolon hpos hzero
    cases h
    obtain ⟨hi, -, hbefore⟩ := List.findIdx?_eq_some_iff_getElem.mp hfind
    have hnone : (path.cut i).bytes.findIdx? (fun b => b = 58 ∨ b = 47) = none := by
      rw [List.findIdx?_eq_none_iff]
      intro b hb
      obtain ⟨j, hj, rfl⟩ := List.getElem_of_mem hb
      have hlt : j < i := by
        have hlen : (path.cut i).bytes.length = min i path.bytes.length := List.length_take
        omega
      have hbyte : (path.cut i).bytes[j] = path.bytes[j] := List.getElem_take
      rw [hbyte]
      exact Bool.eq_false_iff.mpr (hbefore j hlt)
    unfold splitPath
    rw [hnone]

/-- What a parse chooses, when the start is known. -/
theorem selected_of_start {node : VNode} (h : (startNode env (splitPath path).1).run s = .ok node s') :
    selected ((vfsLookupParent env path).run s) = some (node, (splitPath path).2) := by
  unfold vfsLookupParent getDevice
  rw [Prog.bind_of_ok h]
  rfl

theorem selected_of_error {e : FsError} (h : (startNode env (splitPath path).1).run s = .error e s') :
    selected ((vfsLookupParent env path).run s) = none := by
  unfold vfsLookupParent getDevice
  rw [Prog.bind_of_error h]
  rfl

/-- A lookup that has returned has found its start, or none. -/
theorem start_of_returned {r : Except FsError VNode} (h : (Prog.attempt (vfsLookup env path)).run s = .ok r s') :
    (∃ node, (startNode env (splitPath path).1).run s = .ok node s) ∨
      ∃ e, (startNode env (splitPath path).1).run s = .error e s := by
  have hreads := startNode_reads env (splitPath path).1 s
  cases hrun : (startNode env (splitPath path).1).run s with
  | ok node s₁ =>
    rw [hrun, Outcome.post_ok] at hreads
    exact Or.inl ⟨node, by rw [hreads]⟩
  | error e s₁ =>
    rw [hrun, Outcome.post_error] at hreads
    exact Or.inr ⟨e, by rw [hreads]⟩
  | panic p =>
    have hpanic : (vfsLookup env path).run s = .panic p := by
      unfold vfsLookup getDevice
      rw [Prog.bind_of_panic (Prog.bind_of_panic hrun)]
    unfold Prog.attempt at h
    dsimp only at h
    rw [hpanic] at h
    cases h

/-- The root of a device, or of the file system on it; there is no other error than a name that is no device. -/
theorem vfsGetRoot_post (env : VfsEnv) (name : CString) (s : Sfs) : ((vfsGetRoot env name).run s).Post
    (fun node _ => name ∈ vdevList.map VfsDev.name ∧ node = if name = disk0 then .sfs 1 else .device name)
    (fun _ _ => name ∉ vdevList.map VfsDev.name) fun _ => True := by
  have hdevs : vdevList.map VfsDev.name = [disk0, stdout, stdin] := rfl
  rw [hdevs]
  unfold vfsGetRoot
  by_cases hdisk : name = disk0
  · have hfind : vdevList.find? (fun d => d.name = name) = some ⟨disk0, true, true⟩ := by
      rw [hdisk]
      rfl
    rw [hfind]
    refine ((sfsLoadInodeDisk_post env.loaded 1 s).mono (fun _ _ h => h) (fun _ _ h => h.elim) fun _ h => h).bind ?_
    rintro _ _ rfl
    exact ⟨hdisk ▸ List.mem_cons_self, (if_pos hdisk).symm⟩
  by_cases hother : name = stdout ∨ name = stdin
  · have hfind : ∃ n, vdevList.find? (fun d => d.name = name) = some ⟨n, false, false⟩ := by
      rcases hother with rfl | rfl
      · exact ⟨stdout, rfl⟩
      · exact ⟨stdin, rfl⟩
    obtain ⟨n, hfind⟩ := hfind
    rw [hfind]
    refine ⟨List.mem_cons_of_mem _ ?_, (if_neg hdisk).symm⟩
    rcases hother with rfl | rfl
    · exact List.mem_cons_self
    · exact List.mem_cons_of_mem _ List.mem_cons_self
  · have hnot : name ∉ [disk0, stdout, stdin] := by
      intro hmem
      rcases List.mem_cons.mp hmem with hmem | hmem
      · exact hdisk hmem
      · rcases List.mem_cons.mp hmem with hmem | hmem
        · exact hother (Or.inl hmem)
        · exact hother (Or.inr (List.mem_singleton.mp hmem))
    have hfind : vdevList.find? (fun d => d.name = name) = none := by
      rw [List.find?_eq_none]
      intro d hd heq
      exact hnot (hdevs ▸ List.mem_map.mpr ⟨d, hd, of_decide_eq_true heq⟩)
    rw [hfind]
    exact hnot

/-- The name of a device is parsed again. -/
theorem selected_device {name : CString} (h : (splitPath path).1 = .device name) (s : Sfs) :
    selected ((vfsLookupParent env (pathLeft path)).run s) = env.cwd.map fun d => (.sfs d, name) := by
  have hleft : pathLeft path = name := by
    unfold pathLeft
    rw [h]
  have hsplit := splitPath_device h
  rw [hleft]
  cases hcwd : env.cwd with
  | none =>
    have hstart : (startNode env (splitPath name).1).run s = .error .noEnt s := by
      rw [hsplit]
      unfold startNode vfsGetCurdir
      rw [hcwd]
      rfl
    exact selected_of_error hstart
  | some d =>
    have hstart : (startNode env (splitPath name).1).run s = .ok (.sfs d) s := by
      rw [hsplit]
      unfold startNode vfsGetCurdir
      rw [hcwd]
      rfl
    have hsel := selected_of_start hstart
    rw [hsplit] at hsel
    exact hsel

/-- The inodes that the lookup has brought into memory do not change where a path without a device starts. -/
theorem startNode_again {start : PathStart} (hstart : ∀ name, start ≠ .device name) {loaded : List ℕ} (hloaded : env.loaded ⊆ loaded)
    (h : (∃ node, (startNode env start).run s = .ok node s) ∨ ∃ e, (startNode env start).run s = .error e s) :
    (startNode { env with loaded := loaded } start).run s = (startNode env start).run s := by
  cases start with
  | curdir => rfl
  | bootfs => rfl
  | device name => exact absurd rfl (hstart name)
  | curfs =>
    by_cases hmem : 1 ∈ env.loaded
    · have hload : sfsLoadInodeDisk loaded 1 = sfsLoadInodeDisk env.loaded 1 := by
        unfold sfsLoadInodeDisk
        rw [if_pos hmem, if_pos (hloaded hmem)]
      unfold startNode
      dsimp only
      rw [hload]
      rfl
    · by_cases hmem' : 1 ∈ loaded
      · -- the root is in memory now, and has been read from the disk before
        cases hcwd : env.cwd with
        | none =>
          unfold startNode vfsGetCurdir
          dsimp only
          rw [hcwd]
          rfl
        | some d =>
          have hfirst : (startNode env .curfs).run s = (sfsLoadInodeDisk env.loaded 1 >>= fun ino => pure (.sfs ino)).run s := by
            unfold startNode vfsGetCurdir
            rw [hcwd]
            rfl
          have hagain : (startNode { env with loaded := loaded } .curfs).run s = .ok (.sfs 1) s := by
            unfold startNode vfsGetCurdir sfsLoadInodeDisk
            dsimp only
            rw [hcwd, if_pos hmem']
            rfl
          rw [hcwd] at hagain
          rw [hagain]
          rw [hfirst] at h ⊢
          have hload := sfsLoadInodeDisk_post env.loaded 1 s
          have hreads := sfsLoadInodeDisk_reads env.loaded 1 s
          cases hrun : (sfsLoadInodeDisk env.loaded 1).run s with
          | ok found s₁ =>
            rw [hrun, Outcome.post_ok] at hload hreads
            rw [Prog.bind_of_ok hrun, hload, ← hreads]
            rfl
          | error e s₁ =>
            rw [hrun, Outcome.post_error] at hload
            exact hload.elim
          | panic p =>
            rw [Prog.bind_of_panic hrun] at h
            rcases h with ⟨node, h⟩ | ⟨e, h⟩
            · cases h
            · cases h
      · have hload : sfsLoadInodeDisk loaded 1 = sfsLoadInodeDisk env.loaded 1 := by
          unfold sfsLoadInodeDisk
          rw [if_neg hmem, if_neg hmem']
        unfold startNode
        dsimp only
        rw [hload]
        rfl

/-- **Parsing a path twice**: `vfs_lookup_parent` with the buffer that `vfs_lookup` has left chooses what it would have chosen before,
if and only if the path does not start with the name of a device, or both parses agree. -/
theorem parse_again {r : Except FsError VNode} {loaded : List ℕ} (hloaded : env.loaded ⊆ loaded)
    (h : (Prog.attempt (vfsLookup env path)).run s = .ok r s') :
    selected ((vfsLookupParent { env with loaded := loaded } (pathLeft path)).run s') = selected ((vfsLookupParent env path).run s) ↔
      ParsesAgain env path := by
  have hsame : s' = s := by
    have hreads := (vfsLookup_reads env path).attempt s
    rw [h, Outcome.post_ok] at hreads
    exact hreads.symm
  have hstart := start_of_returned h
  rw [hsame]
  by_cases hdevice : ∃ name, (splitPath path).1 = .device name
  · obtain ⟨name, hsplit⟩ := hdevice
    have hagain : selected ((vfsLookupParent { env with loaded := loaded } (pathLeft path)).run s) =
        env.cwd.map fun d => (.sfs d, name) := selected_device hsplit s
    have hroot := vfsGetRoot_post env name s
    unfold ParsesAgain
    rw [hagain, hsplit]
    dsimp only
    rcases hstart with ⟨node, hrun⟩ | ⟨e, hrun⟩
    · rw [selected_of_start hrun]
      rw [hsplit] at hrun
      rw [show (vfsGetRoot env name).run s = .ok node s from hrun, Outcome.post_ok] at hroot
      obtain ⟨hmem, hnode⟩ := hroot
      constructor
      · intro heq
        obtain ⟨d, hcwd, hd⟩ := Option.map_eq_some_iff.mp heq
        obtain ⟨hd, hname⟩ := Prod.mk.inj hd
        rw [hnode] at hd
        by_cases hdisk : name = disk0
        · rw [if_pos hdisk] at hd
          exact Or.inr ⟨hdisk, hcwd.trans (congrArg some (VNode.sfs.inj hd)), hname.symm.trans hdisk⟩
        · rw [if_neg hdisk] at hd
          cases hd
      · rintro (⟨hnot, -⟩ | ⟨hdisk, hcwd, hname⟩)
        · exact absurd hmem hnot
        · rw [hcwd, hnode, if_pos hdisk, hname, hdisk]
          rfl
    · rw [selected_of_error hrun]
      rw [hsplit] at hrun
      rw [show (vfsGetRoot env name).run s = .error e s from hrun, Outcome.post_error] at hroot
      rw [Option.map_eq_none_iff]
      constructor
      · exact fun hcwd => Or.inl ⟨hroot, hcwd⟩
      · rintro (⟨-, hcwd⟩ | ⟨hdisk, -, -⟩)
        · exact hcwd
        · rw [hdisk] at hroot
          exact absurd List.mem_cons_self hroot
  · have hother : ∀ name, (splitPath path).1 ≠ .device name := fun name hname => hdevice ⟨name, hname⟩
    have hleft : pathLeft path = path := by
      unfold pathLeft
      split
      · exact absurd ‹_› (hother _)
      · rfl
    have hparses : ParsesAgain env path := by
      unfold ParsesAgain
      split
      · exact absurd ‹_› (hother _)
      · trivial
    refine iff_of_true ?_ hparses
    have hagain := startNode_again hother hloaded hstart
    unfold vfsLookupParent getDevice
    rw [hleft, Prog.run_bind, Prog.run_bind, hagain]

/-- The root directory of an image, which is empty. -/
def emptyRoot : Sfs where
  blocks := 64
  unusedBlocks := 0
  superDirty := false
  freemap := .ofFree 64 []
  disk := fun _ => zeroBlock
  inos := [1]
  inode := fun _ => ⟨0, .dir, 0, fun _ => 0, 0, false⟩
  blocks_lt := Nat.lt_of_sub_eq_succ rfl

/-- The environment of a process in the root directory. -/
def rootEnv : VfsEnv := ⟨some 1, some 1, [1]⟩

/-- `a` -/
def nameA : CString := ⟨[97], by simp⟩

/-- `disk0:a` -/
def diskNameA : CString := ⟨[100, 105, 115, 107, 48, 58, 97], by simp⟩

theorem parse_again_relative : selected ((vfsLookupParent rootEnv (pathLeft nameA)).run emptyRoot) =
    selected ((vfsLookupParent rootEnv nameA).run emptyRoot) := by
  have hrun : (Prog.attempt (vfsLookup rootEnv nameA)).run emptyRoot = .ok (.error .noEnt) emptyRoot := rfl
  exact (parse_again (List.Subset.refl rootEnv.loaded) hrun).mpr trivial

/-- The name of the device is taken for the name of the file. -/
theorem parse_again_device : (Prog.attempt (vfsLookup rootEnv diskNameA)).run emptyRoot = .ok (.error .noEnt) emptyRoot ∧
    selected ((vfsLookupParent rootEnv diskNameA).run emptyRoot) = some (.sfs 1, nameA) ∧
    selected ((vfsLookupParent rootEnv (pathLeft diskNameA)).run emptyRoot) = some (.sfs 1, disk0) ∧ nameA ≠ disk0 :=
  ⟨rfl, rfl, rfl, by decide⟩

end Ucore.Fs
