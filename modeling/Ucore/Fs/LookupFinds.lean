import Ucore.Fs.OpenBalance

/-!
# Which node a lookup finds

When `vfs_lookup` succeeds, in terms of the state before it: the path names a node, and there is memory for the lookup.

* `resolve` is the node that a path names: where the path starts, and the first entry with the rest of the path for a
  name.
* `OpenState.lookupAllocs` counts the calls of `kmalloc`. Nodes that are in memory do not have to be loaded.
* `OpenState.Finds` puts the two together, and `vfsLookup_post` says that it is exact in a state that is `Ready`.
-/

namespace Ucore.Fs.Counted

open Ucore.Lib

/-! ### What a path names -/

/-- The inode number behind a name in a directory: that of the first entry with the name.
Source: `kern/fs/sfs/sfs_inode.c` `sfs_dirent_search_nolock` -/
def entryIno (s : Sfs) (d : ℕ) (name : CString) : Option ℕ :=
  ((List.range (min (s.inode d).blocks 1036)).find? (s.hasName d name)).map fun i => (s.dirent d i).ino

/-- Where a path starts, if there is such a node. -/
def startOf (env : KernelEnv) : PathStart → Option VNode
  | .curdir => env.cwd.map .sfs
  | .bootfs => env.bootfs.map .sfs
  | .curfs => env.cwd.map fun _ => .sfs 1
  | .device name => (vdevList.find? fun d => d.name = name).bind fun d =>
    if d.fs = true then some (.sfs 1) else if d.mountable = true then none else some (.device name)

/-- The node that a path names, if there is one. -/
def resolve (s : Sfs) (env : KernelEnv) (path : CString) : Option VNode :=
  (startOf env (splitPath path).1).bind fun start =>
    if (splitPath path).2.bytes = [] then some start
    else match start with
      | .sfs d => (entryIno s d (splitPath path).2).map .sfs
      | .device _ => none

/-! ### Memory for a lookup -/

/-- The next `n` calls of `kmalloc` succeed. -/
def Granted (kmallocs : List Bool) (n : ℕ) : Prop := ∀ there ∈ kmallocs.take n, there = true

theorem granted_zero (l : List Bool) : Granted l 0 := by
  intro b hb
  cases hb

theorem granted_add {l : List Bool} {a b : ℕ} : Granted l (a + b) ↔ Granted l a ∧ Granted (l.drop a) b := by
  unfold Granted
  rw [List.take_add]
  simp only [List.mem_append]
  constructor
  · exact fun h => ⟨fun c hc => h c (Or.inl hc), fun c hc => h c (Or.inr hc)⟩
  · rintro ⟨h, h'⟩ c (hc | hc)
    · exact h c hc
    · exact h' c hc

/-- The calls of `kmalloc` that bring an inode into memory: one for the inode on disk, and one for the inode. -/
def OpenState.loadAllocs (s : OpenState) (node : VNode) : ℕ := if (s.inode node).isSome then 0 else 2

/-- The calls of `kmalloc` on the way to the node that a lookup starts from: a root may have to be loaded. -/
def OpenState.startAllocs (s : OpenState) (env : KernelEnv) : PathStart → ℕ
  | .curdir => 0
  | .bootfs => 0
  | .curfs => s.loadAllocs (.sfs 1)
  | .device name => if startOf env (.device name) = some (.sfs 1) then s.loadAllocs (.sfs 1) else 0

/-- The calls of `kmalloc` in a lookup that finds `node`: for the start, for an entry, and for the node, unless that is
the start again. -/
def OpenState.lookupAllocs (s : OpenState) (env : KernelEnv) (path : CString) (node : VNode) : ℕ :=
  s.startAllocs env (splitPath path).1 +
    if (splitPath path).2.bytes = [] then 0
    else 1 + if startOf env (splitPath path).1 = some node then 0 else s.loadAllocs node

/-- **A lookup finds the node**: the path names it, and there is memory for the lookup. -/
def OpenState.Finds (s : OpenState) (env : KernelEnv) (path : CString) (node : VNode) : Prop :=
  resolve s.kernel.sfs env path = some node ∧ Granted s.kmallocs (s.lookupAllocs env path node)

/-- A state in which a process makes calls: the file system is in order, lookups start in directories, and the process
has a reference to its current directory. -/
structure OpenState.Ready (s : OpenState) (env : KernelEnv) : Prop where
  consistent : s.kernel.sfs.Consistent
  root : s.kernel.sfs.IsDir 1
  bootfs : ∀ d, env.bootfs = some d → s.kernel.sfs.IsDir d
  cwd : ∀ d, env.cwd = some d → s.kernel.sfs.IsDir d
  held : ∀ d, env.cwd = some d → ∃ i, s.inode (.sfs d) = some i ∧ 0 < i.refCount.toInt

theorem OpenState.Ready.isDir {s : OpenState} {env : KernelEnv} (h : s.Ready env) {start : PathStart} {d : ℕ}
    (hstart : startOf env start = some (.sfs d)) : s.kernel.sfs.IsDir d := by
  cases start with
  | curdir =>
    obtain ⟨c, hc, hd⟩ := Option.map_eq_some_iff.mp hstart
    cases hd
    exact h.cwd _ hc
  | bootfs =>
    obtain ⟨c, hc, hd⟩ := Option.map_eq_some_iff.mp hstart
    cases hd
    exact h.bootfs _ hc
  | curfs =>
    obtain ⟨c, hc, hd⟩ := Option.map_eq_some_iff.mp hstart
    cases hd
    exact h.root
  | device name =>
    obtain ⟨v, -, hv⟩ := Option.bind_eq_some_iff.mp hstart
    split_ifs at hv
    · cases hv
      exact h.root
    · cases hv

/-! ### Reading -/

section reading

/-- The program changes nothing and returns no error. -/
def Fetches {σ α : Type} (m : Prog SfsPanic FsError σ α) : Prop :=
  ∀ s, (m.run s).Post (fun _ s' => s' = s) (fun _ _ => False) fun _ => True

theorem Fetches.bind {σ α β : Type} {m : Prog SfsPanic FsError σ α} {k : α → Prog SfsPanic FsError σ β} (hm : Fetches m)
    (hk : ∀ a, Fetches (k a)) : Fetches (m >>= k) := by
  intro s
  refine (hm s).bind fun a s₁ h => ?_
  rw [h]
  exact hk a s

theorem Fetches.pure {σ α : Type} (a : α) : Fetches (Pure.pure a : Prog SfsPanic FsError σ α) := fun _ => rfl

theorem Fetches.assert {σ : Type} (c : Prop) [Decidable c] (p : SfsPanic) :
    Fetches (Prog.assert c p : Prog SfsPanic FsError σ Unit) := by
  intro s
  rw [Prog.run_assert]
  split_ifs
  · exact rfl
  · trivial

theorem sfsBlockInuse_fetches (ino : ℕ) : Fetches (sfsBlockInuse ino) := by
  intro s
  rw [sfsBlockInuse, Prog.bind_of_ok (Prog.run_get s), Prog.run_ite]
  split_ifs
  · rw [onFreemap, bitmapTest, Prog.run_bind, Prog.zoom]
    simp only [Prog.run_bind, Prog.run_get, Outcome.andThen_ok, Prog.run_assert]
    split_ifs
    · exact rfl
    · trivial
  · trivial

theorem sfsRbuf_fetches (len blkno offset : ℕ) : Fetches (sfsRbuf len blkno offset) := by
  refine (Fetches.assert _ _).bind fun _ => Fetches.bind (fun s => ?_) fun blk => .pure _
  rw [sfsRblock, Prog.bind_of_ok (Prog.run_get s), Prog.run_bind, Prog.run_assert]
  split_ifs
  · exact rfl
  · trivial

theorem sfsGetOps_fetches (type : SfsType) : Fetches (sfsGetOps type) := by
  intro s
  cases type <;> first | exact rfl | trivial

theorem readDiskType_fetches (ino : ℕ) : Fetches (readDiskType ino) :=
  (sfsBlockInuse_fetches ino).bind fun _ => (Fetches.assert _ _).bind fun _ => (sfsRbuf_fetches _ _ _).bind fun _ =>
    (Fetches.assert _ _).bind fun _ => .pure _

theorem onSfs_fetches {α : Type} {m : SfsProg α} (hm : Fetches m) (s : OpenState) :
    ((onSfs m).run s).Post (fun _ s' => s' = s) (fun _ _ => False) fun _ => True := by
  have h := hm s.kernel.sfs
  rw [onSfs, onKernel, onDisk, Prog.zoom]
  simp only [Prog.zoom]
  cases hrun : m.run s.kernel.sfs with
  | ok a t =>
    rw [hrun] at h
    rw [h]
    exact rfl
  | error e t =>
    rw [hrun] at h
    exact h
  | panic p => trivial

theorem direntSearch_post {s : Sfs} (h : s.Consistent) {d : ℕ} (hdir : s.IsDir d) (name : CString) :
    ((sfsDirentSearchNolock d name).run s).Post (fun found s' => s' = s ∧ entryIno s d name = some found.2)
      (fun _ _ => entryIno s d name = none) fun _ => True := by
  rw [sfsDirentSearchNolock_run h hdir]
  split_ifs
  · rw [Sfs.searchOutcome, entryIno]
    cases (List.range (min (s.inode d).blocks 1036)).find? (s.hasName d name) with
    | some i => exact ⟨rfl, rfl⟩
    | none =>
      dsimp only
      split_ifs
      · exact rfl
      · trivial
  · trivial

end reading

/-! ### Bringing inodes into memory -/

section loading

variable {s s' s'' : OpenState} {node : VNode} {n : ℕ} {env : KernelEnv}

/-- The node is in memory now, and `n` calls of `kmalloc` have succeeded; nothing else has come or gone. -/
structure Loaded (s s' : OpenState) (node : VNode) (n : ℕ) : Prop where
  kernel : s'.kernel = s.kernel
  kmallocs : s'.kmallocs = s.kmallocs.drop n
  granted : Granted s.kmallocs n
  there : (s'.inode node).isSome
  others : ∀ m, m ≠ node → (s'.inode m).isSome = (s.inode m).isSome

theorem Loaded.of_setInode (s : OpenState) (node : VNode) (i : MemInode) : Loaded s (s.setInode node (some i)) node 0 where
  kernel := rfl
  kmallocs := rfl
  granted := granted_zero _
  there := by rw [OpenState.inode_setInode_same, Option.isSome_some]
  others m hm := by rw [s.inode_setInode_ne hm]

theorem Loaded.trans {k : ℕ} (h : Loaded s s' node n) (h' : Loaded s' s'' node k) : Loaded s s'' node (n + k) where
  kernel := h'.kernel.trans h.kernel
  kmallocs := by rw [h'.kmallocs, h.kmallocs, List.drop_drop]
  granted := granted_add.mpr ⟨h.granted, h.kmallocs ▸ h'.granted⟩
  there := h'.there
  others m hm := (h'.others m hm).trans (h.others m hm)

theorem Loaded.loadAllocs_node (h : Loaded s s' node n) : s'.loadAllocs node = 0 := if_pos h.there

/-- A node that was in memory before is not loaded: the same inodes are in memory. -/
theorem Loaded.isSome (h : Loaded s s' node n) (hnode : (s.inode node).isSome) (m : VNode) :
    (s'.inode m).isSome = (s.inode m).isSome := by
  by_cases hm : m = node
  · rw [hm, hnode, h.there]
  · exact h.others m hm

theorem OpenState.loadAllocs_congr {m : VNode} (h : (s'.inode m).isSome = (s.inode m).isSome) :
    s'.loadAllocs m = s.loadAllocs m := by
  rw [OpenState.loadAllocs, h, OpenState.loadAllocs]

theorem kmalloc_post (s : OpenState) : ((kmalloc).run s).Post
    (fun _ s' => s' = { s with kmallocs := s.kmallocs.drop 1 } ∧ Granted s.kmallocs 1)
    (fun _ _ => ¬ Granted s.kmallocs 1) fun _ => True := by
  rw [kmalloc, Prog.bind_of_ok (Prog.run_get s)]
  cases h : s.kmallocs with
  | nil =>
    refine ⟨?_, fun c hc => by cases hc⟩
    rw [List.drop_nil, ← h]
  | cons there rest =>
    dsimp only
    rw [Prog.bind_of_ok (Prog.run_modify _ _), Prog.run_ite]
    by_cases hthere : there = true
    · rw [if_pos hthere]
      refine ⟨rfl, fun c hc => ?_⟩
      rw [List.mem_singleton.mp hc, hthere]
    · rw [if_neg hthere]
      exact fun hall => hthere (hall there List.mem_cons_self)

theorem inodeRefInc_post (s : OpenState) (node : VNode) : ((inodeRefInc node).run s).Post
    (fun _ s' => Loaded s s' node 0 ∧ (s.inode node).isSome) (fun _ _ => False) fun _ => True := by
  cases h : s.inode node with
  | none =>
    rw [inodeRefInc, Prog.bind_of_panic (useInode_none h)]
    trivial
  | some i =>
    rw [inodeRefInc_run h]
    exact ⟨.of_setInode _ _ _, rfl⟩

/-- **Loading an inode** takes the memory it needs, or fails for lack of it. -/
theorem sfsLoadInode_post (s : OpenState) (ino : ℕ) : ((sfsLoadInode ino).run s).Post
    (fun node s' => node = .sfs ino ∧ Loaded s s' (.sfs ino) (s.loadAllocs (.sfs ino)))
    (fun _ _ => ¬ Granted s.kmallocs (s.loadAllocs (.sfs ino))) fun _ => True := by
  rw [sfsLoadInode, Prog.bind_of_ok (Prog.run_get s)]
  cases h : s.inode (.sfs ino) with
  | some i =>
    rw [show s.loadAllocs (.sfs ino) = 0 by rw [OpenState.loadAllocs, h]; rfl]
    dsimp only
    rw [Prog.bind_of_ok (inodeRefInc_run h)]
    have hinc := Loaded.of_setInode s (.sfs ino) { i with refCount := i.refCount + 1 }
    split_ifs
    · exact ⟨rfl, hinc.trans (.of_setInode _ _ _)⟩
    · exact ⟨rfl, hinc⟩
  | none =>
    rw [show s.loadAllocs (.sfs ino) = 1 + 1 by rw [OpenState.loadAllocs, h]; rfl, granted_add]
    dsimp only
    refine ((kmalloc_post s).mono (fun _ _ hQ => hQ) (fun _ _ hE hboth => hE hboth.1) fun _ hP => hP).bind ?_
    rintro _ s₁ ⟨rfl, hone⟩
    refine ((onSfs_fetches (readDiskType_fetches ino) _).mono (fun _ _ hQ => hQ) (fun _ _ hE => hE.elim) fun _ hP => hP).bind ?_
    rintro type s₂ rfl
    rw [sfsCreateInode, Outcome.post_bind, Outcome.post_bind]
    refine (kmalloc_post _).mono ?_ (fun _ _ hE hboth => hE hboth.2) fun _ hP => hP
    rintro _ s₃ ⟨rfl, htwo⟩
    refine Outcome.post_bind.mpr ((onSfs_fetches (sfsGetOps_fetches type) _).mono ?_ (fun _ _ hE => hE.elim) fun _ hP => hP)
    rintro _ s₄ rfl
    refine ⟨rfl, rfl, ?_, granted_add.mpr ⟨hone, htwo⟩, ?_, fun m hm => ?_⟩
    · rw [← List.drop_drop]
      rfl
    · rw [OpenState.inode_setInode_same, Option.isSome_some]
    · rw [OpenState.inode_setInode_ne _ hm]

/-- A release never returns an error. -/
theorem inodeRefDec_noError (s : OpenState) (node : VNode) : ((inodeRefDec env node).run s).Post (fun _ _ => True)
    (fun _ _ => False) fun _ => True := by
  cases h : s.inode node with
  | none =>
    rw [inodeRefDec, Prog.bind_of_panic (useInode_none h)]
    trivial
  | some i =>
    rw [inodeRefDec, Prog.bind_of_ok (useInode_run h)]
    refine .assert_bind fun _ => ?_
    rw [Prog.bind_of_ok (Prog.run_modify _ _), Prog.run_ite]
    split_ifs
    · rw [Outcome.post_bind, Outcome.post_attempt]
      cases (vopReclaim env node).run _ <;> trivial
    · trivial

/-- A release of a reference that is not the last one. -/
theorem inodeRefDec_post (h : (s.counts node).1 - 1 ≠ 0) : ((inodeRefDec env node).run s).Post
    (fun _ s' => s'.kernel = s.kernel ∧ s'.kmallocs = s.kmallocs ∧ ∀ m, (s'.inode m).isSome = (s.inode m).isSome)
    (fun _ _ => False) fun _ => True := by
  cases hi : s.inode node with
  | none =>
    rw [inodeRefDec, Prog.bind_of_panic (useInode_none hi)]
    trivial
  | some i =>
    rw [OpenState.counts_of_some hi] at h
    rw [inodeRefDec, Prog.bind_of_ok (useInode_run hi)]
    refine .assert_bind fun _ => ?_
    rw [Prog.bind_of_ok (Prog.run_modify _ _), if_neg h]
    refine ⟨rfl, rfl, fun m => ?_⟩
    by_cases hm : m = node
    · rw [hm, OpenState.inode_setInode_same, hi]
      rfl
    · rw [OpenState.inode_setInode_ne _ hm]

theorem sfsGetRoot_post (s : OpenState) : ((sfsGetRoot).run s).Post
    (fun node s' => node = .sfs 1 ∧ Loaded s s' (.sfs 1) (s.loadAllocs (.sfs 1))) (fun _ _ => False) fun _ => True := by
  rw [sfsGetRoot, Outcome.post_bind, Outcome.post_attempt]
  refine (sfsLoadInode_post s 1).mono ?_ (fun _ _ _ => trivial) fun _ hP => hP
  exact fun _ _ h => h

theorem vfsGetCurdir_post (s : OpenState) : ((vfsGetCurdir env).run s).Post
    (fun node s' => ∃ d, env.cwd = some d ∧ node = .sfs d ∧ Loaded s s' (.sfs d) 0 ∧ (s.inode (.sfs d)).isSome)
    (fun _ _ => env.cwd = none) fun _ => True := by
  rw [vfsGetCurdir]
  split
  · next d hd =>
    refine ((inodeRefInc_post s (.sfs d)).mono (fun _ _ hQ => hQ) (fun _ _ hE => hE.elim) fun _ hP => hP).bind ?_
    exact fun _ s₁ h => ⟨d, hd, rfl, h⟩
  · next hd => exact hd

/-- The count of a held node does not fall to 0 when a reference is taken and given back. -/
theorem held_ne_zero {c : BitVec 32} (h : 0 < c.toInt) : c ≠ 0 ∧ c + 1 ≠ 0 := by
  constructor
  · rintro rfl
    simp at h
  · intro hzero
    rw [eq_neg_of_add_eq_zero_left hzero] at h
    exact absurd h (by decide)

/-- **The start of a lookup.** -/
theorem startNode_post (h : s.Ready env) (start : PathStart) : ((startNode env start).run s).Post
    (fun node s' => startOf env start = some node ∧ Loaded s s' node (s.startAllocs env start))
    (fun _ _ => startOf env start = none) fun _ => True := by
  cases start with
  | curdir =>
    refine (vfsGetCurdir_post s).mono ?_ (fun _ _ hnone => by rw [startOf, hnone, Option.map_none]) fun _ hP => hP
    rintro node s' ⟨d, hd, rfl, hload, -⟩
    exact ⟨by rw [startOf, hd, Option.map_some], hload⟩
  | bootfs =>
    rw [startNode, vfsGetBootfs]
    cases hd : env.bootfs with
    | none => exact congrArg (Option.map VNode.sfs) hd
    | some d =>
      refine ((inodeRefInc_post s (.sfs d)).mono (fun _ _ hQ => hQ) (fun _ _ hE => hE.elim) fun _ hP => hP).bind ?_
      exact fun _ s₁ h₁ => ⟨by rw [startOf, hd, Option.map_some], h₁.1⟩
  | curfs =>
    rw [startNode]
    refine (((vfsGetCurdir_post s).and (vfsGetCurdir_adds s)).mono (fun _ _ hQ => hQ)
      (fun _ _ hE => by rw [startOf, hE.1, Option.map_none]) fun _ _ => trivial).bind ?_
    rintro node s₁ ⟨⟨d, hd, rfl, hload, hthere⟩, hcounts₁⟩
    refine (((sfsGetRoot_post s₁).and (sfsGetRoot_adds (r := 0) s₁)).mono (fun _ _ hQ => hQ)
      (fun _ _ hE => hE.1.elim) fun _ _ => trivial).bind ?_
    rintro root s₂ ⟨⟨rfl, hroot⟩, hcounts₂⟩
    obtain ⟨i, hi, hpos⟩ := h.held d hd
    have hlive : (s₂.counts (.sfs d)).1 - 1 ≠ 0 := by
      rw [hcounts₂, hcounts₁, Pi.add_apply, Pi.add_apply, OpenState.counts_of_some hi, ref, Pi.single_eq_same, ref]
      obtain ⟨hne, hne'⟩ := held_ne_zero hpos
      by_cases hone : d = 1
      · subst hone
        rw [Pi.single_eq_same]
        simpa using hne'
      · rw [Pi.single_eq_of_ne (fun heq => hone (VNode.sfs.inj heq))]
        simpa using hne
    refine ((inodeRefDec_post hlive).mono (fun _ _ hQ => hQ) (fun _ _ hE => hE.elim) fun _ hP => hP).bind ?_
    rintro _ s₃ ⟨hkernel, hkmallocs, hsome⟩
    have hallocs : s₁.loadAllocs (.sfs 1) = s.loadAllocs (.sfs 1) := OpenState.loadAllocs_congr (hload.isSome hthere _)
    rw [hallocs] at hroot
    refine ⟨by rw [startOf, hd, Option.map_some], ?_, ?_, ?_, ?_, fun m hm => ?_⟩
    · rw [hkernel, hroot.kernel, hload.kernel]
    · rw [hkmallocs, hroot.kmallocs, hload.kmallocs]
      rfl
    · have := hroot.granted
      rwa [hload.kmallocs] at this
    · rw [hsome]
      exact hroot.there
    · rw [hsome, hroot.others m hm, hload.isSome hthere]
  | device name =>
    rw [startNode, vfsGetRoot, OpenState.startAllocs]
    cases hfind : vdevList.find? fun d => d.name = name with
    | none =>
      have hnone : startOf env (.device name) = none := by rw [startOf, hfind, Option.bind_none]
      exact hnone
    | some v =>
      have hstart : startOf env (.device name) =
          if v.fs = true then some (.sfs 1) else if v.mountable = true then none else some (.device name) := by
        rw [startOf, hfind, Option.bind_some]
      rw [hstart]
      dsimp only
      by_cases hfs : v.fs = true
      · rw [if_pos hfs, if_pos hfs, if_pos rfl]
        refine (sfsGetRoot_post s).mono ?_ (fun _ _ hE => hE.elim) fun _ hP => hP
        rintro _ s' ⟨rfl, hload⟩
        exact ⟨rfl, hload⟩
      · rw [if_neg hfs, if_neg hfs]
        by_cases hmount : v.mountable = true
        · rw [if_pos hmount, if_pos hmount]
          exact rfl
        · rw [if_neg hmount, if_neg hmount, if_neg (fun heq => VNode.noConfusion (Option.some.inj heq))]
          refine ((inodeRefInc_post s (.device name)).mono (fun _ _ hQ => hQ) (fun _ _ hE => hE.elim) fun _ hP => hP).bind ?_
          exact fun _ s₁ h₁ => ⟨rfl, h₁.1⟩

end loading

/-! ### Lookups -/

section lookup

variable {s s' : OpenState} {env : KernelEnv}

/-- The lookup in a directory, in terms of the entries of the directory. -/
theorem sfsLookupOnce_post (hcons : s.kernel.sfs.Consistent) {d : ℕ} (hdir : s.kernel.sfs.IsDir d) (name : CString) :
    ((sfsLookupOnce d name).run s).Post
      (fun node _ => (entryIno s.kernel.sfs d name).map .sfs = some node ∧ Granted s.kmallocs (1 + s.loadAllocs node))
      (fun _ _ => ∀ node, (entryIno s.kernel.sfs d name).map .sfs = some node →
        ¬ Granted s.kmallocs (1 + s.loadAllocs node)) fun _ => True := by
  refine .assert_bind fun _ => ?_
  refine ((kmalloc_post s).mono (fun _ _ hQ => hQ) ?_ fun _ hP => hP).bind ?_
  · exact fun _ _ hE node _ hgranted => hE (granted_add.mp hgranted).1
  rintro _ s₁ ⟨rfl, hone⟩
  have hsearch := direntSearch_post hcons hdir name
  rw [Outcome.post_bind, onSfs, onKernel, onDisk]
  simp only [Prog.zoom]
  cases hrun : (sfsDirentSearchNolock d name).run s.kernel.sfs with
  | ok found t =>
    rw [hrun] at hsearch
    obtain ⟨rfl, hentry⟩ := hsearch
    refine (sfsLoadInode_post _ found.2).mono ?_ ?_ fun _ hP => hP
    · rintro node s₂ ⟨rfl, hload⟩
      exact ⟨by rw [hentry, Option.map_some], granted_add.mpr ⟨hone, hload.granted⟩⟩
    · intro e s₂ hE node hnode hgranted
      rw [hentry, Option.map_some] at hnode
      cases hnode
      exact hE (granted_add.mp hgranted).2
  | error e t =>
    rw [hrun] at hsearch
    intro node hnode
    rw [show entryIno s.kernel.sfs d name = none from hsearch, Option.map_none] at hnode
    cases hnode
  | panic p => trivial

/-- What a release is followed by decides how it ends. -/
theorem inodeRefDec_bind {α : Type} {node : VNode} {k : Unit → OpenProg α} {Q : α → OpenState → Prop}
    {E : FsError → OpenState → Prop} (hk : ∀ s', ((k ()).run s').Post Q E fun _ => True) :
    ((inodeRefDec env node >>= k).run s).Post Q E fun _ => True :=
  Outcome.post_bind.mpr ((inodeRefDec_noError s node).mono (fun _ s' _ => hk s') (fun _ _ hE => hE.elim) fun _ hP => hP)

/-- An attempt, a release and the end of the attempt. -/
theorem attempt_release_post {node : VNode} {m : OpenProg VNode} {Q : VNode → Prop} {E : Prop}
    (hm : (m.run s).Post (fun n _ => Q n) (fun _ _ => E) fun _ => True) :
    ((Prog.attempt m >>= fun x => inodeRefDec env node >>= fun _ => Prog.ofExcept x).run s).Post (fun n _ => Q n)
      (fun _ _ => E) fun _ => True := by
  rw [Outcome.post_bind, Outcome.post_attempt]
  refine hm.mono ?_ ?_ fun _ hP => hP
  · exact fun n s₁ hQ => inodeRefDec_bind fun _ => hQ
  · exact fun e s₁ hE => inodeRefDec_bind fun _ => hE

theorem sfsLookup_post (hcons : s.kernel.sfs.Consistent) {d : ℕ} (hdir : s.kernel.sfs.IsDir d) (path : CString) :
    ((sfsLookup env d path).run s).Post
      (fun node _ => (entryIno s.kernel.sfs d path).map .sfs = some node ∧ Granted s.kmallocs (1 + s.loadAllocs node))
      (fun _ _ => ∀ node, (entryIno s.kernel.sfs d path).map .sfs = some node →
        ¬ Granted s.kmallocs (1 + s.loadAllocs node)) fun _ => True := by
  refine .assert_bind fun _ => ?_
  refine ((inodeRefInc_post s (.sfs d)).mono (fun _ _ hQ => hQ) (fun _ _ hE => hE.elim) fun _ hP => hP).bind ?_
  rintro _ s₁ ⟨hinc, hthere⟩
  have hmallocs : s₁.kmallocs = s.kmallocs := hinc.kmallocs
  have hallocs : ∀ node, s₁.loadAllocs node = s.loadAllocs node := fun node =>
    OpenState.loadAllocs_congr (hinc.isSome hthere node)
  rw [← hinc.kernel] at hcons hdir ⊢
  rw [Prog.bind_of_ok (Prog.run_get s₁), if_neg (fun hne => hne hdir.type)]
  have honce := sfsLookupOnce_post hcons hdir path
  simp only [hmallocs, hallocs] at honce
  exact attempt_release_post honce

/-- The checks of a call change nothing. -/
theorem vopOp_post {α : Type} {op : Vop} {node : VNode} {f : InodeOps → OpenProg α} {Q : α → OpenState → Prop}
    {E : FsError → OpenState → Prop} (hf : ∀ ops, ((f ops).run s).Post Q E fun _ => True) :
    ((vopOp op node f).run s).Post Q E fun _ => True := by
  cases hi : s.inode node with
  | none =>
    rw [vopOp, Prog.bind_of_panic (useInode_none hi)]
    trivial
  | some i =>
    rw [vopOp, Prog.bind_of_ok (useInode_run hi)]
    refine .assert_bind fun _ => ?_
    rw [Outcome.post_bind, inodeCheck, Prog.bind_of_ok (useInode_run hi)]
    refine .assert_bind fun _ => ?_
    rw [Prog.run_assert]
    split_ifs
    · exact hf i.ops
    · trivial

/-- Behind the start, a lookup finds what the search in the start directory finds. -/
theorem OpenState.finds_iff {path : CString} {d : ℕ} (hstart : startOf env (splitPath path).1 = some (.sfs d))
    (hload : Loaded s s' (.sfs d) (s.startAllocs env (splitPath path).1)) (hrest : (splitPath path).2.bytes ≠ [])
    (node : VNode) : s.Finds env path node ↔ (entryIno s'.kernel.sfs d (splitPath path).2).map .sfs = some node ∧
      Granted s'.kmallocs (1 + s'.loadAllocs node) := by
  have hresolve : resolve s.kernel.sfs env path = (entryIno s'.kernel.sfs d (splitPath path).2).map .sfs := by
    rw [resolve, hstart, Option.bind_some, if_neg hrest, hload.kernel]
  have hallocs : (if startOf env (splitPath path).1 = some node then 0 else s.loadAllocs node) = s'.loadAllocs node := by
    rw [hstart]
    by_cases heq : node = .sfs d
    · rw [heq, if_pos rfl, hload.loadAllocs_node]
    · rw [if_neg (fun h => heq (Option.some.inj h).symm)]
      exact (OpenState.loadAllocs_congr (hload.others node heq)).symm
  rw [OpenState.Finds, hresolve, OpenState.lookupAllocs, if_neg hrest, hallocs, granted_add, hload.kmallocs]
  exact and_congr_right fun _ => and_iff_right hload.granted

/-- **A lookup finds the node that the path names**, and fails if there is none or no memory. -/
theorem vfsLookup_post (h : s.Ready env) (path : CString) : ((vfsLookup env path).run s).Post
    (fun node _ => s.Finds env path node) (fun _ _ => ∀ node, ¬ s.Finds env path node) fun _ => True := by
  rw [vfsLookup, getDevice, Outcome.post_bind, Outcome.post_bind]
  refine (startNode_post h (splitPath path).1).mono ?_ ?_ fun _ hP => hP
  · rintro start s₁ ⟨hstart, hload⟩
    show Outcome.Post _ _ _ (Prog.run (if (splitPath path).2.bytes ≠ [] then _ else _) s₁)
    by_cases hrest : (splitPath path).2.bytes = []
    · rw [if_neg (fun hne => hne hrest)]
      refine ⟨?_, ?_⟩
      · rw [resolve, hstart, Option.bind_some, if_pos hrest]
      · rw [OpenState.lookupAllocs, if_pos hrest]
        exact hload.granted
    · rw [if_pos hrest]
      refine attempt_release_post (vopOp_post fun ops => ?_)
      cases start with
      | sfs d =>
        have hsub : ((sfsLookup env d (splitPath path).2).run s₁).Post _ _ _ :=
          sfsLookup_post (hload.kernel ▸ h.consistent) (hload.kernel ▸ h.isDir hstart) _
        refine hsub.mono ?_ ?_ fun _ hP => hP
        · exact fun node s₂ hfound => (OpenState.finds_iff hstart hload hrest node).mpr hfound
        · intro e s₂ hE node hfinds
          obtain ⟨hentry, hgranted⟩ := (OpenState.finds_iff hstart hload hrest node).mp hfinds
          exact hE node hentry hgranted
      | device name =>
        dsimp only
        rw [devLookup, if_pos hrest]
        intro node hfinds
        have hresolve := hfinds.1
        rw [resolve, hstart, Option.bind_some, if_neg hrest] at hresolve
        cases hresolve
  · intro e s₁ hnone node hfinds
    have hresolve := hfinds.1
    rw [resolve, hnone, Option.bind_none] at hresolve
    cases hresolve

end lookup

end Ucore.Fs.Counted
