import Ucore.Fs.LookupFinds
import Ucore.Fs.Namefile

/-!
# The path that is found

`sfs_namefile` in a directory tree.

* `DirAt` is a directory that can be taken and released: `OpenState.hold` is the state with one more reference to it, and
  to release that reference gives the state before.
* `DirPath env s d names` follows the tree from the root to the directory `d`, through the entries of the directories on
  the way.
* `namefileLoop_post` is the climb, by induction on the path. The buffer has the names that are already written behind the
  pointer.
* `namefile_computes_path`: the call succeeds if and only if the names fit, and then the buffer has the path.
-/

namespace Ucore.Fs.Counted

open Ucore.Lib

/-! ### Taking and releasing a directory -/

/-- The counts of a directory in memory. All references are below `n`. -/
structure MemInode.Sound (i : MemInode) (n : ℤ) : Prop where
  ops : i.ops = .dirops
  openCount : 0 ≤ i.openCount.toInt
  refCount : i.openCount.toInt ≤ i.refCount.toInt
  lt : i.refCount.toInt < n
  reclaimCount : 0 < i.reclaimCount.toInt
  reclaim_lt : i.refCount = 0 → i.reclaimCount.toInt < 2 ^ 31 - 1

/-- A directory as it is in memory when a reference has been taken to it, by `sfs_load_inode`. -/
def grab : Option MemInode → MemInode
  | none => ⟨.dirops, 1, 0, 1⟩
  | some i =>
    if i.refCount + 1 = 1 then { i with refCount := i.refCount + 1, reclaimCount := i.reclaimCount + 1 }
    else { i with refCount := i.refCount + 1 }

/-- A directory that can be loaded and that can leave memory: it is on the disk what it is in memory, since nothing in the
kernel writes to a directory. -/
structure DirAt (env : KernelEnv) (n : ℤ) (s : OpenState) (d : ℕ) : Prop where
  pos : d ≠ 0
  isDir : s.kernel.sfs.IsDir d
  onDisk : s.kernel.sfs.inode d = diskInode (s.kernel.sfs.disk d)
  nlinks : diskNlinks (s.kernel.sfs.disk d) ≠ 0
  const : env.const.nlinks d = diskNlinks (s.kernel.sfs.disk d)
  sound : ∀ i, s.inode (.sfs d) = some i → i.Sound n

/-- The state with one more reference to a directory. -/
def OpenState.hold (s : OpenState) (d : ℕ) : OpenState := s.setInode (.sfs d) (some (grab (s.inode (.sfs d))))

/-- The state when `n` more calls of `kmalloc` have been made. -/
def OpenState.alloc (s : OpenState) (n : ℕ) : OpenState := { s with kmallocs := s.kmallocs.drop n }

section directory

variable {env : KernelEnv} {n : ℤ} {s : OpenState} {d : ℕ}

theorem OpenState.setInode_setInode (s : OpenState) (node : VNode) (i i' : Option MemInode) :
    (s.setInode node i).setInode node i' = s.setInode node i' := by
  simp [OpenState.setInode]

theorem OpenState.setInode_self {node : VNode} {i : Option MemInode} (h : s.inode node = i) : s.setInode node i = s := by
  rw [← h, OpenState.setInode, Function.update_eq_self]

theorem OpenState.setInode_comm (s : OpenState) {m node : VNode} (h : m ≠ node) (i i' : Option MemInode) :
    (s.setInode m i).setInode node i' = (s.setInode node i').setInode m i := by
  have hcomm := Function.update_comm h.symm i' i s.inode
  simp only [OpenState.setInode, hcomm]

theorem OpenState.inode_hold (s : OpenState) (d : ℕ) : (s.hold d).inode (.sfs d) = some (grab (s.inode (.sfs d))) :=
  s.inode_setInode_same ..

theorem OpenState.inode_hold_ne (s : OpenState) {p d : ℕ} (h : p ≠ d) : (s.hold d).inode (.sfs p) = s.inode (.sfs p) :=
  s.inode_setInode_ne (fun heq => h (VNode.sfs.inj heq)) _

theorem OpenState.hold_alloc (s : OpenState) (d k : ℕ) : (s.hold d).alloc k = (s.alloc k).hold d := rfl

theorem OpenState.hold_comm (s : OpenState) {p d : ℕ} (h : p ≠ d) : (s.hold d).hold p = (s.hold p).hold d := by
  rw [OpenState.hold, s.inode_hold_ne h, OpenState.hold, OpenState.hold, s.inode_hold_ne h.symm, OpenState.hold,
    s.setInode_comm fun heq => h (VNode.sfs.inj heq).symm]

theorem onSfs_run_same {α : Type} {m : SfsProg α} {a : α} (h : m.run s.kernel.sfs = .ok a s.kernel.sfs) :
    (onSfs m).run s = .ok a s := by
  simp only [onSfs, onKernel, onDisk, Prog.zoom, h]

theorem DirAt.forget (h : DirAt env n s d) : s.kernel.sfs.forget d = s.kernel.sfs := by
  rw [Sfs.forget, ← h.onDisk, Sfs.setInode, Function.update_eq_self]

/-- **The last reference to a directory** is gone. -/
theorem vopReclaim_run (h : DirAt env n s d) {i : MemInode} (hops : i.ops = .dirops) (href : i.refCount = 0)
    (hopen : i.openCount = 0) (hreclaim : 0 < i.reclaimCount.toInt) :
    (vopReclaim env (.sfs d)).run (s.setInode (.sfs d) (some i)) =
      if i.reclaimCount - 1 = 0 then .ok () (s.setInode (.sfs d) none)
      else .error .busy (s.setInode (.sfs d) (some { i with reclaimCount := i.reclaimCount - 1 })) := by
  have huse := useInode_run (s.inode_setInode_same (.sfs d) (some i))
  have hhas : i.ops.has .vopReclaim = true := by rw [hops]; rfl
  have hcheck : (inodeCheck (.sfs d)).run (s.setInode (.sfs d) (some i)) = .ok () (s.setInode (.sfs d) (some i)) := by
    rw [inodeCheck, Prog.bind_of_ok huse, Prog.bind_of_ok (Prog.run_assert_of _ _ (by rw [href, hopen]; decide)),
      Prog.run_assert_of _ _ (by rw [href, hopen]; decide)]
  rw [vopReclaim, vopOp, Prog.bind_of_ok huse, Prog.bind_of_ok (Prog.run_assert_of _ _ hhas), Prog.bind_of_ok hcheck,
    sfsReclaim, Prog.bind_of_ok huse, Prog.bind_of_ok (Prog.run_assert_of _ _ hreclaim), Prog.bind_of_ok (Prog.run_modify ..),
    OpenState.setInode_setInode]
  by_cases hzero : i.reclaimCount - 1 = 0
  · have hlinks : env.const.nlinks d ≠ 0 := h.const ▸ h.nlinks
    have hclean : ∀ i', ((s.setInode (.sfs d) i').kernel.sfs.inode d).dirty ≠ true := fun _ => by
      show (s.kernel.sfs.inode d).dirty ≠ true
      rw [h.onDisk]
      exact Bool.false_ne_true
    have hblocks : ∀ i', (onSfs (reclaimBlocks env.const d)).run (s.setInode (.sfs d) i') = .ok () (s.setInode (.sfs d) i') :=
      fun i' => onSfs_run_same (by rw [reclaimBlocks, if_neg hlinks]; rfl)
    have hforget : ∀ i', (onSfs (Prog.modify fun sfs => sfs.forget d)).run (s.setInode (.sfs d) i') =
        .ok () (s.setInode (.sfs d) i') := fun i' => onSfs_run_same (congrArg (Outcome.ok ()) h.forget)
    have hkill : (inodeKill (.sfs d)).run (s.setInode (.sfs d) (some { i with reclaimCount := i.reclaimCount - 1 })) =
        .ok () (s.setInode (.sfs d) none) := by
      rw [inodeKill, Prog.bind_of_ok (useInode_run (s.inode_setInode_same _ _)),
        Prog.bind_of_ok (Prog.run_assert_of _ _ href), Prog.bind_of_ok (Prog.run_assert_of _ _ hopen), Prog.run_modify,
        OpenState.setInode_setInode]
    rw [if_pos hzero, if_neg (by rw [href, hzero]; simp), if_neg hlinks, Prog.bind_of_ok (Prog.run_pure ..),
      Prog.bind_of_ok (Prog.run_get _), if_neg (hclean _), Prog.bind_of_ok (Prog.run_pure ..),
      Prog.bind_of_ok (hblocks _), Prog.bind_of_ok (hforget _), hkill]
  · rw [if_neg hzero, if_pos (.inl hzero)]
    rfl

theorem toInt_succ {c : BitVec 32} (h : c.toInt < 2 ^ 31 - 1) : (c + 1).toInt = c.toInt + 1 := by
  have hle := BitVec.le_toInt c
  rw [BitVec.toInt_add, show (1 : BitVec 32).toInt = 1 from rfl, Int.bmod]
  omega

theorem lt_toInt_grab {i : MemInode} (h : i.Sound n) (hn : n < 2 ^ 31) : (grab (some i)).refCount.toInt > 0 := by
  have hlt := h.lt
  have hsucc := toInt_succ (c := i.refCount) (by omega)
  have hle := h.openCount.trans h.refCount
  rw [grab]
  split_ifs
  · show (i.refCount + 1).toInt > 0
    omega
  · show (i.refCount + 1).toInt > 0
    omega

/-- The reference that `grab` has taken is given back: the directory is in memory as it was, or it is not. -/
theorem inodeRefDec_grab (h : DirAt env n s d) (hn : n < 2 ^ 31) :
    (inodeRefDec env (.sfs d)).run (s.hold d) = .ok () s := by
  -- the count of references is at least 1 before
  have hdec : ∀ i : MemInode, i.refCount.toInt > 0 → (inodeRefDec env (.sfs d)).run (s.setInode (.sfs d) (some i)) =
      (if i.refCount - 1 = 0 then Prog.attempt (vopReclaim env (.sfs d)) >>= fun _ => pure () else pure ()).run
        (s.setInode (.sfs d) (some { i with refCount := i.refCount - 1 })) := fun i hpos => by
    rw [inodeRefDec, Prog.bind_of_ok (useInode_run (s.inode_setInode_same _ _)),
      Prog.bind_of_ok (Prog.run_assert_of _ _ hpos), Prog.bind_of_ok (Prog.run_modify ..), OpenState.setInode_setInode]
  rw [OpenState.hold]
  cases hi : s.inode (.sfs d) with
  | none =>
    have hreclaim := vopReclaim_run h (i := ⟨.dirops, 0, 0, 1⟩) rfl rfl rfl (by decide)
    rw [if_pos (by decide), OpenState.setInode_self hi] at hreclaim
    rw [hdec _ (by decide), grab, if_pos (by decide)]
    exact (Prog.bind_of_ok (Prog.attempt_of_ok hreclaim)).trans rfl
  | some i =>
    obtain ⟨hops, hopen, href, hlt, hreclaim, hroom⟩ := h.sound i hi
    rw [hdec _ (lt_toInt_grab (h.sound i hi) hn), grab]
    by_cases hzero : i.refCount = 0
    · -- a directory without references, which is still there: it was needed again while it was reclaimed
      have hopen₀ : i.openCount = 0 := by
        rw [hzero] at href
        exact BitVec.eq_of_toInt_eq (le_antisymm href hopen)
      have hreclaim₁ := toInt_succ (hroom hzero)
      have hreclaim₀ : i.reclaimCount ≠ 0 := fun heq => by
        rw [heq] at hreclaim
        exact absurd hreclaim (by decide)
      have hbusy := vopReclaim_run h (i := { i with reclaimCount := i.reclaimCount + 1 }) hops hzero hopen₀
        (by show 0 < (i.reclaimCount + 1).toInt; omega)
      dsimp only at hbusy
      rw [BitVec.add_sub_cancel, if_neg hreclaim₀, OpenState.setInode_self hi] at hbusy
      rw [if_pos (show i.refCount + 1 = 1 by rw [hzero]; rfl)]
      dsimp only
      rw [BitVec.add_sub_cancel, if_pos hzero]
      exact (Prog.bind_of_ok (Prog.attempt_of_error hbusy)).trans rfl
    · have hne : ¬ i.refCount + 1 = 1 := fun heq => hzero (by simpa using heq)
      rw [if_neg hne]
      dsimp only
      rw [BitVec.add_sub_cancel, if_neg hzero, OpenState.setInode_self hi]
      rfl

/-- A state in which the directory is as it was. -/
theorem DirAt.congr (h : DirAt env n s d) {s' : OpenState} (hkernel : s'.kernel = s.kernel)
    (hinode : s'.inode (.sfs d) = s.inode (.sfs d)) : DirAt env n s' d := by
  refine ⟨h.pos, hkernel ▸ h.isDir, hkernel ▸ h.onDisk, hkernel ▸ h.nlinks, hkernel ▸ h.const, fun i hi => ?_⟩
  exact h.sound i (hinode ▸ hi)

theorem MemInode.Sound.grab (h : ∀ i, s.inode (.sfs d) = some i → i.Sound n) (hn : 1 ≤ n) (hn' : n < 2 ^ 31) :
    (Counted.grab (s.inode (.sfs d))).Sound (n + 1) := by
  cases hi : s.inode (.sfs d) with
  | none => exact ⟨rfl, by decide, by decide, by show (1 : ℤ) < n + 1; omega, by decide, fun hzero => absurd hzero (by decide)⟩
  | some i =>
    obtain ⟨hops, hopen, href, hlt, hreclaim, hroom⟩ := h i hi
    have hsucc := toInt_succ (c := i.refCount) (by omega)
    have hne : i.refCount + 1 ≠ 0 := fun heq => by
      rw [heq] at hsucc
      simp at hsucc
      omega
    rw [Counted.grab]
    split_ifs with hone
    · have hreclaim₁ := toInt_succ (hroom (by simpa using hone))
      exact ⟨hops, hopen, by show i.openCount.toInt ≤ (i.refCount + 1).toInt; omega, by show (i.refCount + 1).toInt < _; omega,
        by show 0 < (i.reclaimCount + 1).toInt; omega, fun hzero => absurd hzero hne⟩
    · exact ⟨hops, hopen, by show i.openCount.toInt ≤ (i.refCount + 1).toInt; omega, by show (i.refCount + 1).toInt < _; omega,
        hreclaim, fun hzero => absurd hzero hne⟩

theorem OpenState.loadAllocs_hold (s : OpenState) (d : ℕ) : (s.hold d).loadAllocs (.sfs d) = 0 :=
  if_pos (by rw [OpenState.inode_hold]; rfl)

/-- The directory is taken twice. -/
theorem DirAt.again (h : DirAt env n s d) (hn : 1 ≤ n) (hn' : n < 2 ^ 31) :
    DirAt env (n + 1) (s.hold d) d := by
  refine ⟨h.pos, h.isDir, h.onDisk, h.nlinks, h.const, fun i hi => ?_⟩
  rw [OpenState.inode_hold] at hi
  cases hi
  exact .grab h.sound hn hn'

theorem OpenState.alloc_alloc (s : OpenState) (a b : ℕ) : (s.alloc a).alloc b = s.alloc (a + b) := by
  simp only [OpenState.alloc, List.drop_drop]

theorem kmalloc_ends (s : OpenState) : (kmalloc.run s).Post (fun _ s' => s' = s.alloc 1 ∧ Granted s.kmallocs 1)
    (fun _ s' => s' = s.alloc 1 ∧ ¬ Granted s.kmallocs 1) fun _ => False := by
  rw [kmalloc, Prog.bind_of_ok (Prog.run_get s)]
  cases h : s.kmallocs with
  | nil =>
    refine ⟨?_, fun c hc => by cases hc⟩
    rw [OpenState.alloc, h, List.drop_nil, ← h]
  | cons there rest =>
    dsimp only
    have hone : s.alloc 1 = { s with kmallocs := rest } := by rw [OpenState.alloc, h, List.drop_one, List.tail_cons]
    rw [Prog.bind_of_ok (Prog.run_modify _ _), Prog.run_ite, hone]
    by_cases hthere : there = true
    · rw [if_pos hthere]
      refine ⟨rfl, fun c hc => ?_⟩
      rw [List.mem_singleton.mp hc, hthere]
    · rw [if_neg hthere]
      exact ⟨rfl, fun hall => hthere (hall there List.mem_cons_self)⟩

theorem DirAt.readDiskType_run (h : DirAt env n s d) (hcons : s.kernel.sfs.Consistent) :
    (readDiskType d).run s.kernel.sfs = .ok .dir s.kernel.sfs := by
  have hblk : s.kernel.sfs.blk (.inode d) = d := if_pos h.isDir.mem
  have hused : s.kernel.sfs.InUse d := hblk ▸ hcons.used (.inode d) (hblk.symm ▸ h.pos)
  have hb : d ≠ 0 ∧ d < s.kernel.sfs.blocks := ⟨h.pos, hused.1⟩
  have htype : (diskInode (s.kernel.sfs.disk d)).type = .dir := by rw [← h.onDisk, h.isDir.type]
  rw [readDiskType, Prog.bind_of_ok (sfsBlockInuse_run (hcons.lt_nbits hused.1) hb), hused.2,
    Prog.bind_of_ok (Prog.run_assert_of _ _ (show (!false) = true from rfl)), Prog.bind_of_ok (sfsRbuf_run hb (by omega))]
  simp only [diskNlinks_read, diskType_read]
  rw [Prog.bind_of_ok (Prog.run_assert_of _ _ h.nlinks), htype, Prog.run_pure]

/-- **A directory is loaded.** -/
theorem sfsLoadInode_dir (h : DirAt env n s d) (hcons : s.kernel.sfs.Consistent) : ((sfsLoadInode d).run s).Post
    (fun node s' => node = .sfs d ∧ Granted s.kmallocs (s.loadAllocs (.sfs d)) ∧
      s' = (s.alloc (s.loadAllocs (.sfs d))).hold d)
    (fun _ s' => ¬ Granted s.kmallocs (s.loadAllocs (.sfs d)) ∧ ∃ k, s' = s.alloc k) fun _ => False := by
  rw [sfsLoadInode, Prog.bind_of_ok (Prog.run_get s)]
  cases hi : s.inode (.sfs d) with
  | some i =>
    rw [show s.loadAllocs (.sfs d) = 0 by rw [OpenState.loadAllocs, hi]; rfl]
    dsimp only
    rw [Prog.bind_of_ok (inodeRefInc_run hi), OpenState.hold, show (s.alloc 0).inode (.sfs d) = some i from hi, grab]
    by_cases hone : i.refCount + 1 = 1
    · rw [if_pos hone, if_pos hone]
      refine ⟨rfl, granted_zero _, ?_⟩
      exact OpenState.setInode_setInode ..
    · rw [if_neg hone, if_neg hone]
      exact ⟨rfl, granted_zero _, rfl⟩
  | none =>
    rw [show s.loadAllocs (.sfs d) = 1 + 1 by rw [OpenState.loadAllocs, hi]; rfl, granted_add]
    dsimp only
    refine ((kmalloc_ends s).mono (fun _ _ hQ => hQ) (fun _ s' hE => ⟨fun hboth => hE.2 hboth.1, 1, hE.1⟩) fun _ hP => hP).bind ?_
    rintro _ s₁ ⟨rfl, hone⟩
    rw [Prog.bind_of_ok (onSfs_run_same (s := s.alloc 1) (h.readDiskType_run hcons)), sfsCreateInode, Outcome.post_bind,
      Outcome.post_bind]
    refine (kmalloc_ends _).mono ?_ ?_ fun _ hP => hP
    · rintro _ s₂ ⟨rfl, htwo⟩
      rw [Prog.bind_of_ok (onSfs_run_same (a := ()) rfl)]
      refine ⟨rfl, ⟨hone, htwo⟩, ?_⟩
      rw [OpenState.alloc_alloc, OpenState.hold, show (s.alloc (1 + 1)).inode (.sfs d) = none from hi]
      rfl
    · rintro _ s₂ ⟨rfl, htwo⟩
      exact ⟨fun hboth => htwo hboth.2, 2, OpenState.alloc_alloc ..⟩

/-- **The lookup of `..`** finds the parent and loads it. -/
theorem sfsLookupOnce_parent {p : ℕ} (hp : DirAt env n s p) (hcons : s.kernel.sfs.Consistent) (hdir : s.kernel.sfs.IsDir d)
    (hentry : entryIno s.kernel.sfs d parentName = some p) : ((sfsLookupOnce d parentName).run s).Post
      (fun node s' => node = .sfs p ∧ Granted s.kmallocs (1 + s.loadAllocs (.sfs p)) ∧
        s' = (s.alloc (1 + s.loadAllocs (.sfs p))).hold p)
      (fun _ s' => ¬ Granted s.kmallocs (1 + s.loadAllocs (.sfs p)) ∧ ∃ k, s' = s.alloc k) fun _ => False := by
  have hsearch : ∃ i, (sfsDirentSearchNolock d parentName).run s.kernel.sfs = .ok (i, p) s.kernel.sfs := by
    obtain ⟨i, hi, hino⟩ := Option.map_eq_some_iff.mp hentry
    refine ⟨i, ?_⟩
    rw [sfsDirentSearchNolock_run hcons hdir, if_pos (by decide), Sfs.searchOutcome, hi]
    exact congrArg (fun ino => Outcome.ok (i, ino) s.kernel.sfs) hino
  obtain ⟨i, hsearch⟩ := hsearch
  rw [granted_add, sfsLookupOnce, Prog.bind_of_ok (Prog.run_assert_of _ _ (by decide)), Outcome.post_bind]
  refine (kmalloc_ends s).mono ?_ (fun _ s' hE => ⟨fun hboth => hE.2 hboth.1, 1, hE.1⟩) fun _ hP => hP
  rintro _ s₁ ⟨rfl, hone⟩
  rw [Prog.bind_of_ok (onSfs_run_same (s := s.alloc 1) hsearch)]
  refine (sfsLoadInode_dir (s := s.alloc 1) (hp.congr rfl rfl) hcons).mono ?_ ?_ fun _ hP => hP
  · rintro node s₂ ⟨rfl, hload, rfl⟩
    refine ⟨rfl, ⟨hone, hload⟩, ?_⟩
    rw [OpenState.alloc_alloc]
    rfl
  · rintro _ s₂ ⟨hload, k, rfl⟩
    exact ⟨fun hboth => hload hboth.2, 1 + k, OpenState.alloc_alloc ..⟩

/-! ### The tree -/

/-- The directory `p` has one name for the directory `d`, in a slot that can be reached. -/
structure NamedIn (s : Sfs) (p d : ℕ) (name : CString) : Prop where
  entry : ∃ i < (s.inode p).blocks, i < 1036 ∧ s.dirent p i = ⟨d, name⟩
  only : ∀ i < (s.inode p).blocks, i < 1036 → (s.dirent p i).ino = d → (s.dirent p i).name = name

/-- **The search for an inode number** finds the name. -/
theorem sfsDirentFindinoNolock_run {s : Sfs} {p d : ℕ} {name : CString} (hcons : s.Consistent) (hdir : s.IsDir p)
    (h : NamedIn s p d name) : (sfsDirentFindinoNolock p d).run s = .ok ⟨d, name⟩ s := by
  obtain ⟨k, hk, hk', hentry⟩ := h.entry
  have hloop : ∀ n i, i + n = (s.inode p).blocks → i ≤ k → (direntFindinoLoop p d n i).run s = .ok ⟨d, name⟩ s := by
    intro n
    induction n with
    | zero =>
      intro i hi hik
      omega
    | succ n ih =>
      intro i hi hik
      have hread := sfsDirentReadNolock_run hcons hdir (i := i) (by omega)
      rw [if_pos (by omega)] at hread
      rw [direntFindinoLoop, Prog.bind_of_ok hread]
      split_ifs with hino
      · have hname := h.only i (by omega) (by omega) hino
        rw [Prog.run_pure, ← hino, ← hname]
      · have hne : i ≠ k := fun heq => hino (by rw [heq, hentry])
        exact ih (i + 1) (by omega) (by omega)
  rw [sfsDirentFindinoNolock, Prog.bind_of_ok (Prog.run_get s)]
  exact hloop _ 0 (Nat.zero_add _) (Nat.zero_le _)

/-- The directory has the path, from the root on. `..` of a directory is the directory above it, and `..` of the root is the
root itself. -/
inductive DirPath (env : KernelEnv) (s : OpenState) : ℕ → List CString → Prop
  | root {r : ℕ} (dir : DirAt env maxInodeCount s r) (up : entryIno s.kernel.sfs r parentName = some r) : DirPath env s r []
  | child {p d : ℕ} {names : List CString} {name : CString} (parent : DirPath env s p names)
    (dir : DirAt env maxInodeCount s d) (ne : d ≠ p) (up : entryIno s.kernel.sfs d parentName = some p)
    (named : NamedIn s.kernel.sfs p d name) : DirPath env s d (names ++ [name])

theorem DirPath.dir {names : List CString} (h : DirPath env s d names) : DirAt env maxInodeCount s d := by
  cases h with
  | root dir => exact dir
  | child _ dir => exact dir

/-- The calls of `kmalloc` in a climb over `n` directories: one for each lookup, and those that load a directory. -/
def OpenState.climbAllocs (s : OpenState) : ℕ → ℕ → ℕ
  | 0, _ => 1
  | n + 1, d =>
    match entryIno s.kernel.sfs d parentName with
    | some p => 1 + s.loadAllocs (.sfs p) + s.climbAllocs n p
    | none => 1

/-- The names, with a slash behind each. -/
def nameBytes (names : List CString) : List UInt8 := names.flatMap fun name => name.bytes ++ [47]

theorem length_nameBytes (names : List CString) : (nameBytes names).length = (names.map fun name => name.strlen + 1).sum := by
  rw [nameBytes, List.length_flatMap]
  simp [CString.strlen]

theorem nameBytes_concat (names : List CString) (name : CString) :
    nameBytes (names ++ [name]) = nameBytes names ++ (name.bytes ++ [47]) := by
  simp [nameBytes]

end directory

/-! ### The buffer -/

theorem Block.read_add (m : Block) (start a b : ℕ) : m.read start (a + b) = m.read start a ++ m.read (start + a) b := by
  rw [Block.read, Block.read, Block.read, ← List.map_append, List.range'_append_1]

theorem writeName_of_not_mem (m : Block) {ptr k : ℕ} {name : CString} (h : ¬ (ptr ≤ k ∧ k < ptr + (name.strlen + 1))) :
    writeName ptr name m k = m k := by
  have hname : name.bytes.length = name.strlen := rfl
  rw [writeName, Block.splice_of_not_mem _ (by rw [List.length_singleton]; omega), Block.splice_of_not_mem _ (by omega)]

/-- A name and its slash are written in front of what is there. -/
theorem read_writeName (m : Block) (ptr : ℕ) (name : CString) {done : List UInt8}
    (hdone : m.read (ptr + (name.strlen + 1)) done.length = done) :
    (writeName ptr name m).read ptr ((name.strlen + 1) + done.length) = (name.bytes ++ [47]) ++ done := by
  have hname := Block.read_splice_same m ptr name.bytes
  have hslash := Block.read_splice_same (m.splice ptr name.bytes) (ptr + name.strlen) [47]
  rw [Block.read_add, Block.read_add]
  congr 1
  · congr 1
    refine (Block.read_congr fun k hk hk' => ?_).trans hname
    exact Block.splice_of_not_mem _ (by rw [List.length_singleton]; omega)
  · exact (Block.read_congr fun k hk hk' => writeName_of_not_mem m (by omega)).trans hdone

/-- What a call has done to its buffer: only bytes from `lo` on and below `hi` have been written. -/
structure Writes (iob iob' : Iobuf) (lo hi : ℕ) : Prop where
  offset : iob'.offset = iob.offset
  len : iob'.len = iob.len
  resid : iob'.resid = iob.resid
  data : ∀ k, k < lo ∨ hi ≤ k → iob'.data k = iob.data k

theorem Writes.refl (iob : Iobuf) (lo hi : ℕ) : Writes iob iob lo hi := ⟨rfl, rfl, rfl, fun _ _ => rfl⟩

theorem Writes.trans {iob iob' iob'' : Iobuf} {lo hi lo' hi' : ℕ} (h : Writes iob iob' lo hi)
    (h' : Writes iob' iob'' lo' hi') (hlo : lo ≤ lo') (hhi : hi' ≤ hi) : Writes iob iob'' lo hi :=
  ⟨h'.offset.trans h.offset, h'.len.trans h.len, h'.resid.trans h.resid, fun k hk =>
    (h'.data k (by omega)).trans (h.data k hk)⟩

/-! ### The climb -/

section climb

variable {env : KernelEnv} {n : ℤ} {s : OpenState} {d : ℕ} {iob : Iobuf} {α : Type}

theorem onOpen_post {m : OpenProg α} {Q : α → OpenState → Prop} {E : FsError → OpenState → Prop}
    (h : (m.run s).Post Q E fun _ => False) : ((onOpen m).run ⟨s, iob⟩).Post (fun a w => ∃ t, w = ⟨t, iob⟩ ∧ Q a t)
      (fun e w => ∃ t, w = ⟨t, iob⟩ ∧ E e t) fun _ => False := by
  rw [onOpen, Prog.zoom]
  dsimp only
  cases hrun : m.run s with
  | ok a t =>
    rw [hrun] at h
    exact ⟨t, rfl, h⟩
  | error e t =>
    rw [hrun] at h
    exact ⟨t, rfl, h⟩
  | panic p =>
    rw [hrun] at h
    exact h

theorem release_run (h : DirAt env n s d) (hn : n < 2 ^ 31) : (onOpen (inodeRefDec env (.sfs d))).run
    ⟨s.hold d, iob⟩ = .ok () ⟨s, iob⟩ := by
  simp only [onOpen, Prog.zoom, inodeRefDec_grab h hn]

theorem failed_run (h : DirAt env n s d) (hn : n < 2 ^ 31) (e : FsError) : (failed env d e : NameProg α).run
    ⟨s.hold d, iob⟩ = .error e ⟨s, iob⟩ := by
  rw [failed, Prog.bind_of_ok (release_run h hn), Prog.run_throw]

theorem onOpen_onSfs_run {m : SfsProg α} {a : α} (h : m.run s.kernel.sfs = .ok a s.kernel.sfs) :
    (onOpen (onSfs m)).run ⟨s, iob⟩ = .ok a ⟨s, iob⟩ := by
  simp only [onOpen, Prog.zoom, onSfs_run_same h]

/-- **The climb** fits all names into the buffer, or fails. -/
theorem namefileLoop_post (hcons : s.kernel.sfs.Consistent) {names : List CString} (hpath : DirPath env s d names)
    {k fuel : ℕ} {c : NameCursor} {done : List UInt8} (hfuel : names.length < fuel) (hptr : c.resid ≤ c.ptr)
    (hdone : Block.read iob.data c.ptr done.length = done) :
    ((namefileLoop env fuel d c).run ⟨(s.alloc k).hold d, iob⟩).Post
      (fun c' w' => (nameBytes names).length ≤ c.resid ∧ c'.ptr + (nameBytes names).length = c.ptr ∧
        c'.resid + (nameBytes names).length = c.resid ∧
        Block.read w'.iob.data c'.ptr ((nameBytes names).length + done.length) = nameBytes names ++ done ∧
        Writes iob w'.iob (c.ptr - c.resid) c.ptr)
      (fun _ w' => ¬ ((nameBytes names).length ≤ c.resid ∧ Granted (s.kmallocs.drop k) (s.climbAllocs names.length d)) ∧
        Writes iob w'.iob (c.ptr - c.resid) c.ptr)
      fun _ => False := by
  have hmax : maxInodeCount < 2 ^ 31 := by decide
  have hmax₁ : maxInodeCount + 1 < 2 ^ 31 := by decide
  induction hpath generalizing iob k fuel c done with
  | @root r dir up =>
    obtain ⟨fuel, rfl⟩ : ∃ m, fuel = m + 1 := ⟨fuel - 1, by omega⟩
    have hdir : ∀ j, DirAt env maxInodeCount (s.alloc j) r := fun j => dir.congr rfl rfl
    have hagain : ∀ j, DirAt env (maxInodeCount + 1) ((s.alloc j).hold r) r := fun j => (hdir j).again (by decide) hmax
    have hlook := sfsLookupOnce_parent (hagain k) hcons dir.isDir up
    rw [((s.alloc k).loadAllocs_hold r)] at hlook
    rw [namefileLoop, Outcome.post_bind, Outcome.post_attempt]
    refine (onOpen_post hlook).mono ?_ ?_ fun _ hP => hP
    · rintro _ _ ⟨t, rfl, rfl, -, hfs⟩
      rw [OpenState.hold_alloc, OpenState.alloc_alloc] at hfs
      subst hfs
      dsimp only
      rw [Prog.bind_of_ok (release_run (hagain _) hmax₁), if_pos rfl, Prog.bind_of_ok (release_run (hdir _) hmax)]
      exact ⟨Nat.zero_le _, rfl, rfl, by simpa [nameBytes] using hdone, .refl ..⟩
    · rintro e _ ⟨t, rfl, hgranted, j, hfs⟩
      rw [OpenState.hold_alloc, OpenState.alloc_alloc] at hfs
      subst hfs
      dsimp only
      rw [failed_run (hdir _) hmax]
      exact ⟨fun hboth => hgranted hboth.2, .refl ..⟩
  | @child p d names name parent dir ne up named ih =>
    obtain ⟨fuel, rfl⟩ : ∃ m, fuel = m + 1 := ⟨fuel - 1, by omega⟩
    rw [List.length_append, List.length_singleton] at hfuel
    have hdir : ∀ j, DirAt env maxInodeCount (s.alloc j) d := fun j => dir.congr rfl rfl
    have hparent : ∀ j, DirAt env maxInodeCount (s.alloc j) p := fun j => parent.dir.congr rfl rfl
    have hlook := sfsLookupOnce_parent (s := (s.alloc k).hold d)
      ((hparent k).congr rfl ((s.alloc k).inode_hold_ne ne.symm)) hcons dir.isDir up
    have hloads : ((s.alloc k).hold d).loadAllocs (.sfs p) = s.loadAllocs (.sfs p) :=
      OpenState.loadAllocs_congr (congrArg Option.isSome ((s.alloc k).inode_hold_ne ne.symm))
    rw [hloads] at hlook
    have hclimb : s.climbAllocs (names ++ [name]).length d = 1 + s.loadAllocs (.sfs p) + s.climbAllocs names.length p := by
      rw [List.length_append, List.length_singleton, OpenState.climbAllocs, up]
    rw [hclimb, granted_add, List.drop_drop]
    have hbytes : (nameBytes (names ++ [name])).length = (nameBytes names).length + (name.strlen + 1) := by
      rw [nameBytes_concat, List.length_append, List.length_append, CString.strlen, List.length_singleton]
    rw [hbytes]
    rw [namefileLoop, Outcome.post_bind, Outcome.post_attempt]
    refine (onOpen_post hlook).mono ?_ ?_ fun _ hP => hP
    · rintro _ _ ⟨t, rfl, rfl, hgranted, hfs⟩
      rw [OpenState.hold_alloc, OpenState.alloc_alloc, OpenState.hold_comm _ ne.symm] at hfs
      subst hfs
      have hheld : ∀ j, DirAt env maxInodeCount ((s.alloc j).hold p) d := fun j =>
        (hdir j).congr rfl ((s.alloc j).inode_hold_ne ne)
      have hfind : ∀ j, (onOpen (onSfs (sfsDirentFindinoNolock p d))).run ⟨(s.alloc j).hold p, iob⟩ =
          .ok ⟨d, name⟩ ⟨(s.alloc j).hold p, iob⟩ := fun j =>
        onOpen_onSfs_run (sfsDirentFindinoNolock_run hcons parent.dir.isDir named)
      dsimp only
      rw [Prog.bind_of_ok (release_run (hheld _) hmax), if_neg (fun heq => ne (VNode.sfs.inj heq).symm)]
      rw [Prog.bind_of_ok (Prog.run_get _), Prog.bind_of_ok (Prog.run_assert_of _ _ ⟨ne, parent.dir.isDir.type⟩),
        Prog.bind_of_ok (Prog.attempt_of_ok (hfind _))]
      dsimp only
      by_cases hfit : name.strlen + 1 > c.resid
      · rw [if_pos hfit, failed_run (hparent _) hmax]
        exact ⟨fun hboth => by omega, .refl ..⟩
      · rw [if_neg hfit, writeBuf, Prog.bind_of_ok (Prog.run_modify ..)]
        have hback : (c.back name).ptr + (name.strlen + 1) = c.ptr ∧ (c.back name).resid + (name.strlen + 1) = c.resid := by
          simp only [NameCursor.back]
          omega
        have hread := read_writeName iob.data (c.back name).ptr name (hback.1 ▸ hdone)
        have hlen : (name.bytes ++ [47] ++ done).length = name.strlen + 1 + done.length := by
          rw [List.length_append, List.length_append, CString.strlen, List.length_singleton]
        rw [← hlen] at hread
        have hwrites : Writes iob { iob with data := writeName (c.back name).ptr name iob.data } (c.ptr - c.resid) c.ptr :=
          ⟨rfl, rfl, rfl, fun x hx => writeName_of_not_mem iob.data (by omega)⟩
        refine (ih (c := c.back name) (by omega) (by omega) hread).mono ?_ ?_ fun _ hP => hP
        · rintro c' w' ⟨hle, hp, hr, hnames, hafter⟩
          refine ⟨by omega, by omega, by omega, ?_, hwrites.trans hafter (by omega) (by omega)⟩
          rw [hlen, ← Nat.add_assoc] at hnames
          rw [nameBytes_concat, hnames]
          simp only [List.append_assoc]
        · rintro e w' ⟨hnot, hafter⟩
          exact ⟨fun hboth => hnot ⟨by omega, hboth.2.2⟩, hwrites.trans hafter (by omega) (by omega)⟩
    · rintro e _ ⟨t, rfl, hgranted, j, hfs⟩
      rw [OpenState.hold_alloc, OpenState.alloc_alloc] at hfs
      subst hfs
      dsimp only
      rw [failed_run (hdir _) hmax]
      exact ⟨fun hboth => hgranted hboth.2.1, .refl ..⟩

end climb

/-! ### The whole call -/

theorem namefileMove_of_not_mem (m : Block) {start ptr alen k : ℕ} (h : k < start ∨ start + alen + 2 ≤ k) :
    namefileMove start ptr alen m k = m k := by
  have hlen : (Block.read m ptr alen).length = alen := by rw [Block.read, List.length_map, List.length_range']
  rw [namefileMove, Block.splice_of_not_mem _ (by rw [List.length_singleton]; omega),
    Block.splice_of_not_mem _ (by rw [List.length_singleton]; omega), Block.splice_of_not_mem _ (by omega)]

/-- The names come behind a slash, and a zero comes behind them. -/
theorem read_namefileMove (m : Block) (start ptr alen : ℕ) :
    (namefileMove start ptr alen m).read start (1 + (alen + 1)) = 47 :: (m.read ptr alen ++ [0]) := by
  have hlen : (Block.read m ptr alen).length = alen := by rw [Block.read, List.length_map, List.length_range']
  have hnames := Block.read_splice_same m (start + 1) (m.read ptr alen)
  have hslash := Block.read_splice_same (m.splice (start + 1) (m.read ptr alen)) start [47]
  have hzero := Block.read_splice_same ((m.splice (start + 1) (m.read ptr alen)).splice start [47]) (start + 1 + alen) [0]
  rw [hlen] at hnames
  rw [Block.read_add, Block.read_add, ← List.singleton_append]
  congr 1
  · refine (Block.read_congr fun k hk hk' => ?_).trans hslash
    exact Block.splice_of_not_mem _ (by rw [List.length_singleton] at *; omega)
  · congr 1
    refine (Block.read_congr fun k hk hk' => ?_).trans hnames
    rw [namefileMove, Block.splice_of_not_mem _ (by rw [List.length_singleton]; omega),
      Block.splice_of_not_mem _ (by rw [List.length_singleton]; omega)]

/-- The caller has a reference to the directory. -/
def Held (s : OpenState) (d : ℕ) : Prop := ∃ i, s.inode (.sfs d) = some i ∧ i.refCount ≠ 0

theorem Held.hold {s : OpenState} {d : ℕ} (h : Held s d) (iob : Iobuf) :
    ∃ refs, (onOpen (inodeRefInc (.sfs d))).run ⟨s, iob⟩ = .ok refs ⟨s.hold d, iob⟩ := by
  obtain ⟨i, hi, hne⟩ := h
  refine ⟨i.refCount + 1, ?_⟩
  have hgrab : grab (some i) = { i with refCount := i.refCount + 1 } := if_neg fun heq => hne (by simpa using heq)
  simp only [onOpen, Prog.zoom, inodeRefInc_run hi]
  rw [OpenState.hold, hi, hgrab]

/-- **The call in a directory tree.** It does not panic. -/
theorem sfsNamefile_post {env : KernelEnv} {d fuel : ℕ} {w : NameState} {names : List CString}
    (hcons : w.fs.kernel.sfs.Consistent) (hpath : DirPath env w.fs d names) (hheld : Held w.fs d)
    (hfuel : names.length < fuel) : ((sfsNamefile env fuel d).run w).Post
      (fun _ w' => (2 < w.iob.resid ∧ (nameBytes names).length ≤ w.iob.resid - 2) ∧
        Block.read w'.iob.data w.iob.used ((nameBytes names).length + 2) = 47 :: (nameBytes names ++ [0]) ∧
        ∀ k, k < w.iob.used ∨ w.iob.used + w.iob.resid ≤ k → w'.iob.data k = w.iob.data k)
      (fun _ _ => ¬ ((2 < w.iob.resid ∧ (nameBytes names).length ≤ w.iob.resid - 2) ∧
        Granted w.fs.kmallocs (1 + w.fs.climbAllocs names.length d)))
      fun _ => False := by
  obtain ⟨s, iob⟩ := w
  rw [sfsNamefile, Prog.bind_of_ok (Prog.run_get _)]
  dsimp only at *
  by_cases hsmall : iob.resid ≤ 2
  · rw [if_pos hsmall]
    exact fun hboth => absurd hboth.1.1 (not_lt.mpr hsmall)
  rw [if_neg hsmall, Outcome.post_bind, granted_add]
  refine (onOpen_post (kmalloc_ends s)).mono ?_ ?_ fun _ hP => hP
  · rintro _ _ ⟨_, rfl, rfl, hone⟩
    obtain ⟨refs, hinc⟩ := Held.hold (s := s.alloc 1) hheld iob
    rw [Prog.bind_of_ok hinc, Outcome.post_bind]
    have hnone : Block.read iob.data (iob.used + iob.resid) ([] : List UInt8).length = [] := rfl
    refine (namefileLoop_post hcons hpath (k := 1) hfuel (by dsimp only; omega) hnone).mono ?_ ?_ fun _ hP => hP
    · rintro c w' ⟨hle, hptr, hresid, hnames, hwrites⟩
      dsimp only at *
      have halen : iob.resid - c.resid - 2 = (nameBytes names).length := by omega
      rw [halen, writeBuf, Prog.bind_of_ok (Prog.run_modify ..), skipBuf, Prog.bind_of_ok (Prog.run_get _),
        dif_pos (show (nameBytes names).length ≤ w'.iob.resid by rw [hwrites.resid]; omega), Prog.run_modify]
      rw [List.length_nil, Nat.add_zero, List.append_nil] at hnames
      refine ⟨⟨not_le.mp hsmall, hle⟩, ?_, fun k hk => ?_⟩
      · have hread := read_namefileMove w'.iob.data iob.used c.ptr (nameBytes names).length
        rw [hnames, show 1 + ((nameBytes names).length + 1) = (nameBytes names).length + 2 by omega] at hread
        exact hread
      · exact (namefileMove_of_not_mem w'.iob.data (by omega)).trans (hwrites.data k (by omega))
    · rintro e w' ⟨hnot, -⟩
      exact fun hboth => hnot ⟨hboth.1.2, hboth.2.2⟩
  · rintro _ _ ⟨_, rfl, -, hone⟩
    exact fun hboth => hone hboth.2.1

/-- **`sfs_namefile` computes the path.** Every call leaves all counts of the inodes as they are. In a directory tree it does
not panic, and when there is memory for the climb it succeeds exactly when the names fit: then the buffer has the path, and
nothing is written outside of the buffer. -/
theorem namefile_computes_path (env : KernelEnv) (fuel d : ℕ) (w : NameState) :
    ((sfsNamefile env fuel d).run w).Post (fun _ w' => w'.fs.counts = w.fs.counts) (fun _ w' => w'.fs.counts = w.fs.counts)
      (fun _ => True) ∧
    ∀ names, w.fs.kernel.sfs.Consistent → DirPath env w.fs d names → Held w.fs d → names.length < fuel →
      (∀ p, (sfsNamefile env fuel d).run w ≠ .panic p) ∧
      (Granted w.fs.kmallocs (1 + w.fs.climbAllocs names.length d) →
        ((∃ w', (sfsNamefile env fuel d).run w = .ok () w') ↔
          2 < w.iob.resid ∧ (names.map fun name => name.strlen + 1).sum ≤ w.iob.resid - 2)) ∧
      ∀ w', (sfsNamefile env fuel d).run w = .ok () w' →
        Block.read w'.iob.data w.iob.used ((nameBytes names).length + 2) = 47 :: (nameBytes names ++ [0]) ∧
        ∀ k, k < w.iob.used ∨ w.iob.used + w.iob.resid ≤ k → w'.iob.data k = w.iob.data k := by
  refine ⟨?_, fun names hcons hpath hheld hfuel => ?_⟩
  · have hadds := @sfsNamefile_adds env fuel d w
    simpa only [add_zero, NameState.counts] using hadds
  · have hpost := sfsNamefile_post hcons hpath hheld hfuel
    rw [← length_nameBytes]
    cases hrun : (sfsNamefile env fuel d).run w with
    | panic p =>
      rw [hrun] at hpost
      exact hpost.elim
    | ok a w' =>
      rw [hrun] at hpost
      refine ⟨nofun, fun _ => iff_of_true ⟨w', rfl⟩ hpost.1, fun w'' heq => ?_⟩
      obtain ⟨-, rfl⟩ := (Outcome.ok.injEq ..).mp heq
      exact hpost.2
    | error e w' =>
      rw [hrun] at hpost
      exact ⟨nofun, fun hgranted => iff_of_false nofun fun hfits => hpost ⟨hfits, hgranted⟩, nofun⟩

/-! ### A directory below the root -/

section image

/-- The block of a directory inode with `n` slots in the blocks `a` and `b`, and one link. -/
def inodeBlock (n a b : ℕ) : Block :=
  wordsBlock fun j => if j = 1 then 2 + 65536 else if j = 2 then n else if j = 3 then a else if j = 4 then b else 0

/-- The block of an entry. -/
def entryBlock (ino : UInt8) (name : CString) : Block := fun k =>
  if k = 0 then ino else if 4 ≤ k then name.bytes.getD (k - 4) 0 else 0

/-- An image with the root directory 1, and in it the directory 5 with the name `a`. -/
def pathDisk : ℕ → Block
  | 1 => inodeBlock 2 6 7
  | 5 => inodeBlock 1 8 0
  | 6 => entryBlock 1 parentName
  | 7 => entryBlock 5 nameA
  | 8 => entryBlock 1 parentName
  | _ => zeroBlock

def pathImage : Sfs where
  blocks := 64
  unusedBlocks := 0
  superDirty := false
  freemap := .ofFree 32768 []
  disk := pathDisk
  inos := [1, 5]
  inode ino := diskInode (pathDisk ino)
  blocks_lt := blocks64_lt

theorem diskInode_inodeBlock {n a b : ℕ} (hn : n < 2 ^ 32) (ha : a < 2 ^ 32) (hb : b < 2 ^ 32) :
    diskInode (inodeBlock n a b) = ⟨0, .dir, n, fun i => if i = 0 then a else if i = 1 then b else 0, 0, false⟩ := by
  have hword : ∀ j, (inodeBlock n a b).word j =
      (if j = 1 then 2 + 65536 else if j = 2 then n else if j = 3 then a else if j = 4 then b else 0) % 2 ^ 32 := fun j =>
    word_wordsBlock _ j
  refine (SfsInode.mk.injEq ..).mpr ⟨hword 0, ?_, (hword 2).trans (Nat.mod_eq_of_lt hn), funext fun i => ?_, hword 15, rfl⟩
  · show SfsType.ofCode ((inodeBlock n a b).word 1 % 65536) = .dir
    rw [hword, if_pos rfl]
    rfl
  · show (inodeBlock n a b).word (i + 3) = _
    rw [hword]
    match i with
    | 0 => exact Nat.mod_eq_of_lt ha
    | 1 => exact Nat.mod_eq_of_lt hb
    | i + 2 => simp

theorem direntOf_entryBlock (ino : UInt8) {name : CString} (h : name.strlen < 255) :
    direntOf (entryBlock ino name) = ⟨ino.toNat, name⟩ := by
  refine (Dirent.mk.injEq ..).mpr ⟨?_, CString.ofBuffer_eq h.le (fun k hk => ?_) fun _ => ?_⟩
  · simp [Block.word_eq, entryBlock]
  · simp [entryBlock]
  · simp [entryBlock, CString.strlen]

theorem pathImage_root : pathImage.inode 1 = ⟨0, .dir, 2, fun i => if i = 0 then 6 else if i = 1 then 7 else 0, 0, false⟩ :=
  diskInode_inodeBlock (by decide) (by decide) (by decide)

theorem pathImage_child : pathImage.inode 5 = ⟨0, .dir, 1, fun i => if i = 0 then 8 else if i = 1 then 0 else 0, 0, false⟩ :=
  diskInode_inodeBlock (by decide) (by decide) (by decide)

theorem pathImage_slot {ino : ℕ} (h : ino ∈ pathImage.inos) (i : ℕ) : pathImage.slot ino i =
    if ino = 1 then if i = 0 then 6 else if i = 1 then 7 else 0 else if i = 0 then 8 else 0 := by
  rcases List.mem_pair.mp h with rfl | rfl
  · rw [Sfs.slot, pathImage_root]
    split_ifs <;> simp_all
  · rw [Sfs.slot, pathImage_child]
    split_ifs <;> simp_all

/-- The blocks in use, and what they are for. -/
theorem pathImage_blk (o : Owner) : pathImage.blk o = 0 ∨ (o = .inode 1 ∧ pathImage.blk o = 1) ∨
    (o = .inode 5 ∧ pathImage.blk o = 5) ∨ (o = .data 1 0 ∧ pathImage.blk o = 6) ∨
    (o = .data 1 1 ∧ pathImage.blk o = 7) ∨ (o = .data 5 0 ∧ pathImage.blk o = 8) := by
  cases o with
  | inode ino =>
    by_cases h : ino ∈ pathImage.inos
    · rcases List.mem_pair.mp h with rfl | rfl <;> simp [Sfs.blk, h]
    · exact .inl (if_neg h)
  | indirect ino =>
    by_cases h : ino ∈ pathImage.inos
    · rcases List.mem_pair.mp h with rfl | rfl <;> simp [Sfs.blk, pathImage_root, pathImage_child]
    · exact .inl (if_neg h)
  | data ino i =>
    by_cases h : ino ∈ pathImage.inos
    · have hblk : pathImage.blk (.data ino i) = pathImage.slot ino i := if_pos h
      rw [hblk, pathImage_slot h]
      rcases List.mem_pair.mp h with rfl | rfl
      · by_cases h₀ : i = 0
        · simp [h₀]
        · by_cases h₁ : i = 1 <;> simp [h₀, h₁]
      · by_cases h₀ : i = 0 <;> simp [h₀]
    · exact .inl (if_neg h)

theorem pathImage_consistent : pathImage.Consistent := by
  obtain ⟨hspec, hcount⟩ := Bitmap.ofFree_spec List.nodup_nil (show ∀ i ∈ [], i < 32768 by simp)
  refine ⟨?_, hcount.symm, fun o ho => ?_, fun o o' ho heq => ?_, fun ino hino i hi => ?_⟩
  · show (Bitmap.ofFree 32768 []).nbits = (64 + 32767) / 32768 * 32768
    rw [Bitmap.nbits_ofFree]
  · have hlt : pathImage.blk o < 64 := by
      rcases pathImage_blk o with h | ⟨-, h⟩ | ⟨-, h⟩ | ⟨-, h⟩ | ⟨-, h⟩ | ⟨-, h⟩ <;> omega
    exact ⟨hlt, (hspec _).trans (by simp)⟩
  · rcases pathImage_blk o with h | ⟨ho, h⟩ | ⟨ho, h⟩ | ⟨ho, h⟩ | ⟨ho, h⟩ | ⟨ho, h⟩ <;>
      rcases pathImage_blk o' with h' | ⟨ho', h'⟩ | ⟨ho', h'⟩ | ⟨ho', h'⟩ | ⟨ho', h'⟩ | ⟨ho', h'⟩ <;>
      first | omega | exact ho.trans ho'.symm
  · rw [pathImage_slot hino]
    rcases List.mem_pair.mp hino with rfl | rfl
    · rw [pathImage_root] at hi
      have hi : 2 ≤ i := hi
      rw [if_pos rfl, if_neg (by omega), if_neg (by omega)]
    · rw [pathImage_child] at hi
      have hi : 1 ≤ i := hi
      rw [if_neg (by omega), if_neg (by omega)]

theorem pathImage_dirent {ino : ℕ} (h : ino ∈ pathImage.inos) (i : ℕ) :
    pathImage.dirent ino i = direntOf (pathDisk (if ino = 1 then if i = 0 then 6 else if i = 1 then 7 else 0
      else if i = 0 then 8 else 0)) := by
  rw [Sfs.dirent, pathImage_slot h]
  rfl

/-- Both directories can be loaded, and the child is in memory. -/
def pathState : OpenState where
  kernel := ⟨pathImage, [], []⟩
  inode n := if n = .sfs 5 then some ⟨.dirops, 1, 0, 1⟩ else none
  kmallocs := []

def pathEnv : KernelEnv := ⟨⟨some 5, some 1, [5]⟩, ⟨fun _ => 1, []⟩, 64⟩

theorem pathState_dirAt {ino : ℕ} (h : ino ∈ pathImage.inos) : DirAt pathEnv maxInodeCount pathState ino := by
  have hlinks : ∀ n a b, diskNlinks (inodeBlock n a b) = 1 := fun n a b => by
    have hword := word_wordsBlock
      (fun j => if j = 1 then 2 + 65536 else if j = 2 then n else if j = 3 then a else if j = 4 then b else 0) 1
    rw [if_pos rfl] at hword
    exact (congrArg (· / 65536) hword).trans rfl
  rcases List.mem_pair.mp h with rfl | rfl
  · refine ⟨by decide, ⟨h, congrArg SfsInode.type pathImage_root, fun i hi _ => ?_⟩, rfl, ?_, (hlinks 2 6 7).symm, nofun⟩
    · have hi : i < (pathImage.inode 1).blocks := hi
      rw [pathImage_root] at hi
      have hi : i < 2 := hi
      show pathImage.slot 1 i ≠ 0
      rw [pathImage_slot h, if_pos rfl]
      split_ifs <;> omega
    · exact (hlinks 2 6 7).trans_ne (by decide)
  · refine ⟨by decide, ⟨h, congrArg SfsInode.type pathImage_child, fun i hi _ => ?_⟩, rfl, ?_, (hlinks 1 8 0).symm, ?_⟩
    · have hi : i < (pathImage.inode 5).blocks := hi
      rw [pathImage_child] at hi
      have hi : i < 1 := hi
      show pathImage.slot 5 i ≠ 0
      rw [pathImage_slot h, if_neg (by decide), if_pos (by omega)]
      decide
    · exact (hlinks 1 8 0).trans_ne (by decide)
    · rintro i ⟨⟩
      exact ⟨rfl, by decide, by decide, by decide, by decide, by decide⟩

theorem pathState_dirPath : DirPath pathEnv pathState 5 [nameA] := by
  have hroot : 1 ∈ pathImage.inos := List.mem_cons_self
  have hchild : 5 ∈ pathImage.inos := List.mem_cons_of_mem _ List.mem_cons_self
  have hup : pathImage.dirent 1 0 = ⟨1, parentName⟩ := (pathImage_dirent hroot 0).trans (direntOf_entryBlock 1 (by decide))
  have hdown : pathImage.dirent 1 1 = ⟨5, nameA⟩ := (pathImage_dirent hroot 1).trans (direntOf_entryBlock 5 (by decide))
  have hback : pathImage.dirent 5 0 = ⟨1, parentName⟩ := (pathImage_dirent hchild 0).trans (direntOf_entryBlock 1 (by decide))
  have hupIno : entryIno pathImage 1 parentName = some 1 := by
    rw [entryIno, pathImage_root]
    simp [List.range_succ, Sfs.hasName, hup]
  have hbackIno : entryIno pathImage 5 parentName = some 1 := by
    rw [entryIno, pathImage_child]
    simp [List.range_succ, Sfs.hasName, hback]
  have hpath : DirPath pathEnv pathState 1 [] := .root (pathState_dirAt hroot) hupIno
  refine hpath.child (pathState_dirAt hchild) (by decide) hbackIno ⟨?_, ?_⟩
  · refine ⟨1, ?_, by decide, hdown⟩
    show 1 < (pathImage.inode 1).blocks
    rw [pathImage_root]
    exact Nat.one_lt_two
  · intro i hi _ hino
    have hi : i < (pathImage.inode 1).blocks := hi
    rw [pathImage_root] at hi
    have hi : i < 2 := hi
    obtain rfl | rfl : i = 0 ∨ i = 1 := by omega
    · rw [show pathState.kernel.sfs.dirent 1 0 = _ from hup] at hino
      exact absurd hino (by decide)
    · exact congrArg Dirent.name hdown

end image

/-- A buffer of five bytes holds `/a/` and the zero. -/
theorem namefile_computes_path_child : ∃ w', (sfsNamefile pathEnv 2 5).run ⟨pathState, iobufInit (fun _ => 0) 5 0⟩ = .ok () w' ∧
    Block.read w'.iob.data 0 4 = [47, 97, 47, 0] := by
  obtain ⟨-, hruns, hreads⟩ := (namefile_computes_path pathEnv 2 5 ⟨pathState, iobufInit (fun _ => 0) 5 0⟩).2 [nameA]
    pathImage_consistent pathState_dirPath ⟨_, rfl, by decide⟩ (by decide)
  obtain ⟨w', hrun⟩ := (hruns nofun).mpr ⟨by decide, by decide⟩
  exact ⟨w', hrun, (hreads w' hrun).1⟩

end Ucore.Fs.Counted
