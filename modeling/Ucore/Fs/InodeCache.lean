import Ucore.Lib.Prog
import Mathlib.Data.List.Count
import Mathlib.Logic.Function.Basic

/-!
# The inode cache

The life of an inode in memory: `sfs_load_inode` finds it or makes it, references to it are taken and
dropped, and `sfs_reclaim` takes it away. A process that drops the last reference calls `vop_reclaim`,
which waits for the lock of the file system; by the time it has the lock, another process may have found
the inode again.

* `InodeCache` is the state: the nodes in memory, the list they are found by, the lock, and the calls of
  `sfs_reclaim` that wait for the lock. A node is a number that is never used again, so that a node that
  has been killed stays dead.
* The two critical sections, of `sfs_load_inode` and of `sfs_reclaim`, take two steps each: other
  processes run while they read or write the disk. Input and output in them succeeds.
* `CacheInv` is the invariant, and `inodeCache_protocol` says what it means for every interleaving.
-/

namespace Ucore.Fs

open Ucore.Lib

/-- An inode in memory.
Source: `kern/fs/vfs/inode.h` `struct inode`, `kern/fs/sfs/sfs.h` `struct sfs_inode` -/
structure CacheNode where
  /-- The number of the inode on disk. -/
  ino : ℕ
  /-- `ref_count` -/
  refCount : ℕ
  /-- `sin->reclaim_count` -/
  reclaimCount : ℕ
  deriving Repr, DecidableEq

/-- Who has the lock of the file system. -/
inductive FsLock where
  | free
  /-- `sfs_load_inode`, reading the inode from disk -/
  | loading (ino : ℕ)
  /-- `sfs_reclaim`, past its test -/
  | reclaiming (node : ℕ)
  deriving Repr, DecidableEq

/-- The inodes in memory and the calls that are under way. -/
structure InodeCache where
  /-- The nodes in memory. -/
  node : ℕ → Option CacheNode
  /-- The hash lists, as one list: the latest node first. -/
  hashList : List ℕ
  /-- The lock `fs_sem`. -/
  lock : FsLock
  /-- The nodes for which a call of `sfs_reclaim` waits for the lock, once for each call. -/
  pending : List ℕ
  /-- The next node that `alloc_inode` returns. -/
  fresh : ℕ
  /-- How often each node has been killed. -/
  kills : ℕ → ℕ

/-- The assertions on the way of an inode through memory. -/
inductive CachePanic where
  /-- `inode_ref_dec`: `ref_count > 0` -/
  | refDec
  /-- `sfs_reclaim`: `reclaim_count > 0` -/
  | reclaimCount
  /-- `inode_kill`: `ref_count == 0` -/
  | kill
  /-- A node that is not in memory is used. -/
  | dangling
  deriving Repr, DecidableEq

abbrev CacheProg := Prog CachePanic Empty InodeCache

/-- Change a node. -/
def InodeCache.setNode (s : InodeCache) (n : ℕ) (c : Option CacheNode) : InodeCache :=
  { s with node := Function.update s.node n c }

/-- A node that is used, and must be in memory. -/
def useNode (n : ℕ) : CacheProg CacheNode := do
  let s ← Prog.get
  match s.node n with
  | some c => pure c
  | none => Prog.stop .dangling

/-- The node of an inode number on the hash list, if there is one. -/
def InodeCache.find (s : InodeCache) (ino : ℕ) : Option ℕ :=
  s.hashList.find? fun n => (s.node n).any fun c => c.ino = ino

/-- Source: `kern/fs/sfs/sfs_inode.c` `lookup_sfs_nolock` -/
def lookupSfsNolock (ino : ℕ) : CacheProg (Option ℕ) := do
  let s ← Prog.get
  match s.find ino with
  | none => pure none
  | some n => do
    let c ← useNode n
    let refs := c.refCount + 1
    let reclaims := if refs = 1 then c.reclaimCount + 1 else c.reclaimCount
    Prog.modify fun s => s.setNode n (some { c with refCount := refs, reclaimCount := reclaims })
    pure (some n)

/-- `sfs_load_inode` up to the reading of the disk: the lock is kept if the inode is not in memory.
Source: `kern/fs/sfs/sfs_inode.c` `sfs_load_inode` -/
def sfsLoadInode (ino : ℕ) : CacheProg Unit := do
  match ← lookupSfsNolock ino with
  | some _ => pure ()
  | none => Prog.modify fun s => { s with lock := .loading ino }

/-- `sfs_load_inode` from `sfs_create_inode` on.
Source: `kern/fs/sfs/sfs_inode.c` `sfs_create_inode`, `sfs_set_links` -/
def sfsCreateInode (ino : ℕ) : CacheProg Unit :=
  Prog.modify fun s =>
    { s.setNode s.fresh (some ⟨ino, 1, 1⟩) with
      hashList := s.fresh :: s.hashList
      fresh := s.fresh + 1
      lock := .free }

/-- Another reference, taken by a process that has one. Source: `kern/fs/vfs/inode.c` `inode_ref_inc` -/
def inodeRefInc (n : ℕ) : CacheProg Unit := do
  let c ← useNode n
  Prog.modify fun s => s.setNode n (some { c with refCount := c.refCount + 1 })

/-- The call of `vop_reclaim` becomes pending. Source: `kern/fs/vfs/inode.c` `inode_ref_dec` -/
def inodeRefDec (n : ℕ) : CacheProg Unit := do
  let c ← useNode n
  Prog.assert (0 < c.refCount) .refDec
  Prog.modify fun s => s.setNode n (some { c with refCount := c.refCount - 1 })
  if c.refCount - 1 = 0 then
    Prog.modify fun s => { s with pending := n :: s.pending }

/-- `sfs_reclaim` from the taking of the lock to its test: `E_BUSY`, or the lock is kept.
Source: `kern/fs/sfs/sfs_inode.c` `sfs_reclaim` -/
def sfsReclaim (n : ℕ) : CacheProg Unit := do
  Prog.modify fun s => { s with pending := s.pending.erase n }
  let c ← useNode n
  Prog.assert (0 < c.reclaimCount) .reclaimCount
  Prog.modify fun s => s.setNode n (some { c with reclaimCount := c.reclaimCount - 1 })
  if c.reclaimCount - 1 ≠ 0 ∨ c.refCount ≠ 0 then
    pure ()
  else
    Prog.modify fun s => { s with lock := .reclaiming n }

/-- The end of `sfs_reclaim`: `sfs_remove_links`, the unlocking and `inode_kill`.
Source: `kern/fs/sfs/sfs_inode.c` `sfs_reclaim`, `kern/fs/vfs/inode.c` `inode_kill` -/
def sfsReclaimEnd (n : ℕ) : CacheProg Unit := do
  Prog.modify fun s => { s with hashList := s.hashList.erase n, lock := .free }
  let c ← useNode n
  Prog.assert (c.refCount = 0) .kill
  Prog.modify fun s =>
    { s.setNode n none with kills := Function.update s.kills n (s.kills n + 1) }

/-! ### Interleavings -/

/-- What a process does next. -/
inductive CacheOp where
  /-- A process takes the lock and looks for an inode. -/
  | load (ino : ℕ)
  /-- The inode that is being loaded has been read. -/
  | loaded (ino : ℕ)
  /-- A process that has a reference takes another one. -/
  | refInc (node : ℕ)
  /-- A process drops a reference. -/
  | refDec (node : ℕ)
  /-- A call of `sfs_reclaim` that has waited takes the lock. -/
  | reclaim (node : ℕ)
  /-- The inode that is being reclaimed has been written. -/
  | reclaimed (node : ℕ)
  deriving Repr, DecidableEq

namespace CacheOp

/-- The code of a step. -/
def code : CacheOp → CacheProg Unit
  | .load ino => sfsLoadInode ino
  | .loaded ino => sfsCreateInode ino
  | .refInc n => inodeRefInc n
  | .refDec n => inodeRefDec n
  | .reclaim n => sfsReclaim n
  | .reclaimed n => sfsReclaimEnd n

/-- When a process can take the step: a critical section is entered when the lock is free, a process
that takes or drops a reference has one, and a call of `sfs_reclaim` has been made. -/
def Enabled (s : InodeCache) : CacheOp → Prop
  | .load _ => s.lock = .free
  | .loaded ino => s.lock = .loading ino
  | .refInc n => ∃ c, s.node n = some c ∧ 0 < c.refCount
  | .refDec n => ∃ c, s.node n = some c ∧ 0 < c.refCount
  | .reclaim n => s.lock = .free ∧ n ∈ s.pending
  | .reclaimed n => s.lock = .reclaiming n

end CacheOp

/-- One step of some process. -/
def CacheStep (s s' : InodeCache) : Prop := ∃ op : CacheOp, op.Enabled s ∧ op.code.run s = .ok () s'

/-- No inode is in memory. -/
def cacheBoot : InodeCache where
  node _ := none
  hashList := []
  lock := .free
  pending := []
  fresh := 0
  kills _ := 0

/-- The states that interleavings of processes lead to. -/
def CacheReach (s : InodeCache) : Prop := Relation.ReflTransGen CacheStep cacheBoot s

/-! ### The invariant -/

/-- The calls of `sfs_reclaim` for a node that have not been executed. -/
def InodeCache.calls (s : InodeCache) (n : ℕ) : ℕ := s.pending.count n

/-- The invariant of the cache. -/
structure CacheInv (s : InodeCache) : Prop where
  /-- The hash list has the nodes in memory, each once. -/
  listed : ∀ n, n ∈ s.hashList ↔ (s.node n).isSome
  nodup : s.hashList.Nodup
  /-- No two of them are for one inode on disk, nor is an inode loaded that is in memory. -/
  unique : ∀ n n' c c', s.node n = some c → s.node n' = some c' → c.ino = c'.ino → n = n'
  loading : ∀ ino, s.lock = .loading ino → ∀ n c, s.node n = some c → c.ino ≠ ino
  /-- The count of reclaims. -/
  count : ∀ n c, s.node n = some c → c.reclaimCount = (if 0 < c.refCount then 1 else 0) + s.calls n
  /-- Calls that wait are for nodes in memory. -/
  pending : ∀ n ∈ s.pending, (s.node n).isSome
  /-- The count of reclaims is 0 just for the node that is being reclaimed. -/
  reclaiming : ∀ n, s.lock = .reclaiming n ↔ ∃ c, s.node n = some c ∧ c.reclaimCount = 0
  /-- A node in memory has not been killed, and one that was there has been killed once. -/
  fresh : ∀ n, s.fresh ≤ n → s.node n = none
  kills : ∀ n, s.kills n = if n < s.fresh ∧ s.node n = none then 1 else 0

namespace CacheInv

variable {s s' : InodeCache} {n ino : ℕ} {c : CacheNode}

theorem boot : CacheInv cacheBoot where
  listed := by simp [cacheBoot]
  nodup := List.nodup_nil
  unique := by simp [cacheBoot]
  loading := by simp [cacheBoot]
  count := by simp [cacheBoot]
  pending := by simp [cacheBoot]
  reclaiming := by simp [cacheBoot]
  fresh := by simp [cacheBoot]
  kills := by simp [cacheBoot]

theorem useNode_run (hc : s.node n = some c) : (useNode n).run s = .ok c s := by
  simp only [useNode, Prog.run_bind, Prog.run_get, Outcome.andThen_ok, hc, Prog.run_pure]

/-- The counts of one node change, and perhaps the calls that wait for it. -/
theorem update (h : CacheInv s) (hc : s.node n = some c) (c' : CacheNode) (pending : List ℕ)
    (lock : FsLock) (hino : c'.ino = c.ino) (hother : ∀ m, m ≠ n → pending.count m = s.pending.count m)
    (hcount : c'.reclaimCount = (if 0 < c'.refCount then 1 else 0) + pending.count n)
    (hlock : ∀ m, lock = .reclaiming m ↔ ∃ d, Function.update s.node n (some c') m = some d ∧
      d.reclaimCount = 0)
    (hloading : ∀ ino, lock = .loading ino → s.lock = .loading ino) :
    CacheInv { s.setNode n (some c') with pending := pending, lock := lock } := by
  have hsome : ∀ m, (Function.update s.node n (some c') m).isSome = (s.node m).isSome := by
    intro m
    by_cases hm : m = n
    · subst hm
      rw [Function.update_self, hc]
      rfl
    · rw [Function.update_of_ne hm]
  have hinoOf : ∀ m d, Function.update s.node n (some c') m = some d →
      ∃ d', s.node m = some d' ∧ d'.ino = d.ino := by
    intro m d hd
    by_cases hm : m = n
    · subst hm
      rw [Function.update_self] at hd
      cases hd
      exact ⟨c, hc, hino.symm⟩
    · rw [Function.update_of_ne hm] at hd
      exact ⟨d, hd, rfl⟩
  have hnone : ∀ m, Function.update s.node n (some c') m = none ↔ s.node m = none := by
    intro m
    rw [← Option.isNone_iff_eq_none, ← Option.isNone_iff_eq_none, ← Option.not_isSome,
      ← Option.not_isSome, hsome]
  refine ⟨fun m => ?_, h.nodup, ?_, ?_, ?_, ?_, hlock, fun m hm => (hnone m).mpr (h.fresh m hm), ?_⟩
  · show m ∈ s.hashList ↔ (Function.update s.node n (some c') m).isSome = true
    rw [hsome]
    exact h.listed m
  · intro m m' d d' hd hd' heq
    obtain ⟨e, he, heq₁⟩ := hinoOf m d hd
    obtain ⟨e', he', heq₂⟩ := hinoOf m' d' hd'
    exact h.unique m m' e e' he he' (by rw [heq₁, heq₂, heq])
  · intro ino hl m d hd
    obtain ⟨e, he, heq⟩ := hinoOf m d hd
    rw [← heq]
    exact h.loading ino (hloading ino hl) m e he
  · intro m d hd
    by_cases hm : m = n
    · subst hm
      have hd' : c' = d := by
        have : Function.update s.node m (some c') m = some d := hd
        rw [Function.update_self] at this
        exact Option.some.inj this
      subst hd'
      exact hcount
    · have hd' : s.node m = some d := by
        have : Function.update s.node n (some c') m = some d := hd
        rwa [Function.update_of_ne hm] at this
      show d.reclaimCount = _ + pending.count m
      rw [hother m hm]
      exact h.count m d hd'
  · intro m hm
    show (Function.update s.node n (some c') m).isSome = true
    rw [hsome]
    by_cases hmn : m = n
    · subst hmn
      rw [hc]
      rfl
    · refine h.pending m (List.count_pos_iff.mp ?_)
      rw [← hother m hmn]
      exact List.count_pos_iff.mpr hm
  · intro m
    show s.kills m = if m < s.fresh ∧ Function.update s.node n (some c') m = none then 1 else 0
    simp only [hnone]
    exact h.kills m

/-- While no node is being reclaimed, every count of reclaims is positive. -/
theorem reclaimCount_pos (h : CacheInv s) (hlock : s.lock ≠ .reclaiming n) (hc : s.node n = some c) :
    0 < c.reclaimCount := by
  rcases Nat.eq_zero_or_pos c.reclaimCount with h0 | hpos
  · exact absurd ((h.reclaiming n).mpr ⟨c, hc, h0⟩) hlock
  · exact hpos

/-- A change of one node that does not bring its count of reclaims to 0 or away from it. -/
theorem reclaiming_update (h : CacheInv s) (hc : s.node n = some c) {c' : CacheNode}
    (hzero : c'.reclaimCount = 0 ↔ c.reclaimCount = 0) (m : ℕ) :
    s.lock = .reclaiming m ↔ ∃ d, Function.update s.node n (some c') m = some d ∧
      d.reclaimCount = 0 := by
  rw [h.reclaiming m]
  by_cases hm : m = n
  · subst hm
    rw [Function.update_self, hc]
    simp only [Option.some.injEq, exists_eq_left', hzero]
  · rw [Function.update_of_ne hm]

theorem load (h : CacheInv s) (hlock : s.lock = .free) (ino : ℕ) :
    ∃ s', (sfsLoadInode ino).run s = .ok () s' ∧ CacheInv s' := by
  cases hfind : s.find ino with
  | none =>
    refine ⟨{ s with lock := .loading ino }, ?_, ?_⟩
    · simp only [sfsLoadInode, lookupSfsNolock, Prog.run_bind, Prog.run_get, Outcome.andThen_ok, hfind,
        Prog.run_pure, Prog.run_modify]
    · refine ⟨h.listed, h.nodup, h.unique, ?_, h.count, h.pending, fun m => ?_, h.fresh, h.kills⟩
      · intro ino' hino' m d hd heq
        obtain rfl : ino = ino' := FsLock.loading.inj hino'
        have hmem : m ∈ s.hashList := (h.listed m).mpr (by rw [hd]; rfl)
        have hno := List.find?_eq_none.mp hfind m hmem
        rw [hd] at hno
        simp [heq] at hno
      · have hnone := h.reclaiming m
        rw [hlock] at hnone
        rw [← hnone]
        simp
  | some n =>
    obtain ⟨hany, hmem⟩ := List.find?_eq_some_iff_append.mp hfind |>.imp_right fun ⟨as, bs, heq, _⟩ =>
      (show n ∈ s.hashList by rw [heq]; simp)
    obtain ⟨c, hc⟩ := Option.isSome_iff_exists.mp ((h.listed n).mp hmem)
    have hpos := h.reclaimCount_pos (by rw [hlock]; exact FsLock.noConfusion) hc
    have hcount := h.count n c hc
    have hinv := h.update hc
      { c with
        refCount := c.refCount + 1
        reclaimCount := if c.refCount + 1 = 1 then c.reclaimCount + 1 else c.reclaimCount }
      s.pending s.lock rfl (fun _ _ => rfl) ?_ (h.reclaiming_update hc ?_) fun _ hl => hl
    · refine ⟨_, ?_, hinv⟩
      simp only [sfsLoadInode, lookupSfsNolock, Prog.run_bind, Prog.run_get, Outcome.andThen_ok, hfind,
        useNode_run hc, Prog.run_modify, Prog.run_pure]
      rfl
    · rw [InodeCache.calls] at hcount
      simp only
      split_ifs at hcount ⊢ <;> omega
    · simp only
      split_ifs
      · exact ⟨False.elim, fun h0 => by omega⟩
      · exact Iff.rfl

theorem loaded (h : CacheInv s) (hlock : s.lock = .loading ino) :
    ∃ s', (sfsCreateInode ino).run s = .ok () s' ∧ CacheInv s' := by
  have hfresh : s.node s.fresh = none := h.fresh s.fresh (Nat.le_refl _)
  have hnotmem : s.fresh ∉ s.hashList := by
    rw [h.listed, hfresh]
    simp
  have hnopending : s.pending.count s.fresh = 0 := by
    rw [List.count_eq_zero]
    intro hmem
    have := h.pending _ hmem
    rw [hfresh] at this
    cases this
  have hnew : ∀ m d, Function.update s.node s.fresh (some ⟨ino, 1, 1⟩) m = some d →
      (m = s.fresh ∧ d = ⟨ino, 1, 1⟩) ∨ (m ≠ s.fresh ∧ s.node m = some d) := by
    intro m d hd
    by_cases hm : m = s.fresh
    · subst hm
      rw [Function.update_self] at hd
      exact Or.inl ⟨rfl, (Option.some.inj hd).symm⟩
    · rw [Function.update_of_ne hm] at hd
      exact Or.inr ⟨hm, hd⟩
  refine ⟨_, rfl, ?_, ?_, ?_, ?_, ?_, ?_, ?_, ?_, ?_⟩
  · intro m
    show m ∈ s.fresh :: s.hashList ↔ (Function.update s.node s.fresh _ m).isSome = true
    by_cases hm : m = s.fresh
    · subst hm
      simp
    · rw [Function.update_of_ne hm, List.mem_cons, h.listed]
      simp [hm]
  · exact List.nodup_cons.mpr ⟨hnotmem, h.nodup⟩
  · intro m m' d d' hd hd' heq
    rcases hnew m d hd with ⟨rfl, rfl⟩ | ⟨-, hd⟩ <;> rcases hnew m' d' hd' with ⟨rfl, rfl⟩ | ⟨-, hd'⟩
    · rfl
    · exact absurd heq.symm (h.loading ino hlock m' d' hd')
    · exact absurd heq (h.loading ino hlock m d hd)
    · exact h.unique m m' d d' hd hd' heq
  · intro ino' hl
    exact absurd hl FsLock.noConfusion
  · intro m d hd
    show d.reclaimCount = _ + s.pending.count m
    rcases hnew m d hd with ⟨rfl, rfl⟩ | ⟨-, hd⟩
    · rw [hnopending]
      rfl
    · exact h.count m d hd
  · intro m hm
    show (Function.update s.node s.fresh _ m).isSome = true
    have hne : m ≠ s.fresh := by
      rintro rfl
      have hpos : 0 < s.pending.count s.fresh := List.count_pos_iff.mpr hm
      omega
    rw [Function.update_of_ne hne]
    exact h.pending m hm
  · intro m
    constructor
    · intro hl
      exact absurd hl FsLock.noConfusion
    · rintro ⟨d, hd, h0⟩
      rcases hnew m d hd with ⟨rfl, rfl⟩ | ⟨-, hd⟩
      · cases h0
      · have := h.reclaimCount_pos (by rw [hlock]; exact FsLock.noConfusion) hd
        omega
  · intro m hm
    have hm' : s.fresh + 1 ≤ m := hm
    show Function.update s.node s.fresh _ m = none
    rw [Function.update_of_ne (by omega)]
    exact h.fresh m (by omega)
  · intro m
    show s.kills m = if m < s.fresh + 1 ∧ Function.update s.node s.fresh _ m = none then 1 else 0
    rw [h.kills m]
    by_cases hm : m = s.fresh
    · subst hm
      simp
    · rw [Function.update_of_ne hm]
      have : m < s.fresh + 1 ↔ m < s.fresh := by omega
      simp only [this]

theorem refInc (h : CacheInv s) (hc : s.node n = some c) (hpos : 0 < c.refCount) :
    ∃ s', (inodeRefInc n).run s = .ok () s' ∧ CacheInv s' := by
  have hcount := h.count n c hc
  have hinv := h.update hc { c with refCount := c.refCount + 1 } s.pending s.lock rfl
    (fun _ _ => rfl) ?_
    (h.reclaiming_update hc Iff.rfl) fun _ hl => hl
  · refine ⟨_, ?_, hinv⟩
    simp only [inodeRefInc, Prog.run_bind, useNode_run hc, Outcome.andThen_ok, Prog.run_modify]
    rfl
  · rw [InodeCache.calls] at hcount
    simp only
    split_ifs at hcount ⊢ <;> omega

theorem refDec (h : CacheInv s) (hc : s.node n = some c) (hpos : 0 < c.refCount) :
    ∃ s', (inodeRefDec n).run s = .ok () s' ∧ CacheInv s' := by
  have hcount := h.count n c hc
  rw [InodeCache.calls, if_pos hpos] at hcount
  have hrun : (inodeRefDec n).run s = .ok () (if c.refCount - 1 = 0 then
      { s.setNode n (some { c with refCount := c.refCount - 1 }) with pending := n :: s.pending }
      else s.setNode n (some { c with refCount := c.refCount - 1 })) := by
    simp only [inodeRefDec, Prog.run_bind, useNode_run hc, Outcome.andThen_ok,
      Prog.run_assert_of _ _ hpos, Prog.run_modify, Prog.run_ite]
    split_ifs <;> rfl
  refine ⟨_, hrun, ?_⟩
  by_cases h0 : c.refCount - 1 = 0
  · rw [if_pos h0]
    refine h.update hc { c with refCount := c.refCount - 1 } (n :: s.pending) s.lock rfl
      (fun m hm => ?_) ?_ (h.reclaiming_update hc Iff.rfl) fun _ hl => hl
    · exact List.count_cons_of_ne hm.symm
    · rw [List.count_cons_self]
      simp only
      rw [if_neg (by omega)]
      omega
  · rw [if_neg h0]
    refine h.update hc { c with refCount := c.refCount - 1 } s.pending s.lock rfl (fun _ _ => rfl) ?_
      (h.reclaiming_update hc Iff.rfl) fun _ hl => hl
    simp only
    rw [if_pos (by omega)]
    exact hcount

theorem reclaim (h : CacheInv s) (hlock : s.lock = .free) (hn : n ∈ s.pending) :
    ∃ s', (sfsReclaim n).run s = .ok () s' ∧ CacheInv s' := by
  obtain ⟨c, hc⟩ := Option.isSome_iff_exists.mp (h.pending n hn)
  have hcount := h.count n c hc
  rw [InodeCache.calls] at hcount
  have hcalls : 0 < s.pending.count n := List.count_pos_iff.mpr hn
  have hpos : 0 < c.reclaimCount := by omega
  have herase : (s.pending.erase n).count n = s.pending.count n - 1 := List.count_erase_self
  have hother : ∀ m, m ≠ n → (s.pending.erase n).count m = s.pending.count m := fun m hm =>
    List.count_erase_of_ne hm
  have hnode : ({ s with pending := s.pending.erase n } : InodeCache).node n = some c := hc
  have hrun : (sfsReclaim n).run s = .ok () (if c.reclaimCount - 1 ≠ 0 ∨ c.refCount ≠ 0 then
      { s.setNode n (some { c with reclaimCount := c.reclaimCount - 1 }) with
        pending := s.pending.erase n }
      else
        { s.setNode n (some { c with reclaimCount := c.reclaimCount - 1 }) with
          pending := s.pending.erase n
          lock := .reclaiming n }) := by
    simp only [sfsReclaim, Prog.run_bind, Prog.run_modify, Outcome.andThen_ok, useNode_run hnode,
      Prog.run_assert_of _ _ hpos, Prog.run_ite]
    split_ifs <;> rfl
  refine ⟨_, hrun, ?_⟩
  by_cases hbusy : c.reclaimCount - 1 ≠ 0 ∨ c.refCount ≠ 0
  · rw [if_pos hbusy]
    have hlater : c.reclaimCount - 1 ≠ 0 := by
      split_ifs at hcount with href <;> omega
    refine h.update hc { c with reclaimCount := c.reclaimCount - 1 } (s.pending.erase n) s.lock rfl
      hother ?_ ?_ fun _ hl => hl
    · rw [herase]
      simp only
      split_ifs at hcount ⊢ <;> omega
    · refine h.reclaiming_update hc ?_
      simp only
      omega
  · rw [if_neg hbusy]
    have hzero : c.reclaimCount - 1 = 0 ∧ c.refCount = 0 := by omega
    refine h.update hc { c with reclaimCount := c.reclaimCount - 1 } (s.pending.erase n)
      (.reclaiming n) rfl hother ?_ (fun m => ?_) fun _ hl => by cases hl
    · rw [herase]
      simp only
      rw [if_neg (by omega)] at hcount ⊢
      omega
    · constructor
      · intro hm
        obtain rfl : n = m := FsLock.reclaiming.inj hm
        exact ⟨_, Function.update_self .., hzero.1⟩
      · rintro ⟨d, hd, h0⟩
        by_cases hm : m = n
        · rw [hm]
        · rw [Function.update_of_ne hm] at hd
          have := h.reclaimCount_pos (by rw [hlock]; exact FsLock.noConfusion) hd
          omega

/-- The node that is being reclaimed has no reference and no other call waits for it. -/
theorem last_call (h : CacheInv s) (hlock : s.lock = .reclaiming n) :
    ∃ c, s.node n = some c ∧ c.refCount = 0 ∧ s.calls n = 0 := by
  obtain ⟨c, hc, h0⟩ := (h.reclaiming n).mp hlock
  have hcount := h.count n c hc
  refine ⟨c, hc, ?_, ?_⟩ <;> split_ifs at hcount <;> omega

theorem reclaimed (h : CacheInv s) (hlock : s.lock = .reclaiming n) :
    ∃ s', (sfsReclaimEnd n).run s = .ok () s' ∧ CacheInv s' := by
  obtain ⟨c, hc, href, hcalls⟩ := h.last_call hlock
  have hlt : n < s.fresh := by
    by_contra hge
    rw [h.fresh n (by omega)] at hc
    cases hc
  have hnode : ({ s with hashList := s.hashList.erase n, lock := .free } : InodeCache).node n = some c :=
    hc
  have hold : ∀ m d, Function.update s.node n none m = some d → m ≠ n ∧ s.node m = some d := by
    intro m d hd
    by_cases hm : m = n
    · subst hm
      rw [Function.update_self] at hd
      cases hd
    · rw [Function.update_of_ne hm] at hd
      exact ⟨hm, hd⟩
  refine ⟨_, by
    simp only [sfsReclaimEnd, Prog.run_bind, Prog.run_modify, Outcome.andThen_ok, useNode_run hnode,
      Prog.run_assert_of _ _ href]
    rfl, ?_, ?_, ?_, ?_, ?_, ?_, ?_, ?_, ?_⟩
  · intro m
    show m ∈ s.hashList.erase n ↔ (Function.update s.node n none m).isSome = true
    rw [h.nodup.mem_erase_iff, h.listed]
    by_cases hm : m = n
    · subst hm
      simp
    · rw [Function.update_of_ne hm]
      simp [hm]
  · exact h.nodup.erase n
  · intro m m' d d' hd hd'
    exact h.unique m m' d d' (hold m d hd).2 (hold m' d' hd').2
  · intro ino' hl
    exact absurd hl FsLock.noConfusion
  · intro m d hd
    exact h.count m d (hold m d hd).2
  · intro m hm
    show (Function.update s.node n none m).isSome = true
    have hne : m ≠ n := by
      rintro rfl
      have : 0 < s.pending.count m := List.count_pos_iff.mpr hm
      rw [InodeCache.calls] at hcalls
      omega
    rw [Function.update_of_ne hne]
    exact h.pending m hm
  · intro m
    constructor
    · intro hl
      exact absurd hl FsLock.noConfusion
    · rintro ⟨d, hd, h0⟩
      obtain ⟨hm, hd⟩ := hold m d hd
      have := (h.reclaiming m).mpr ⟨d, hd, h0⟩
      rw [hlock] at this
      exact absurd (FsLock.reclaiming.inj this).symm hm
  · intro m hm
    show Function.update s.node n none m = none
    by_cases hmn : m = n
    · subst hmn
      exact Function.update_self ..
    · rw [Function.update_of_ne hmn]
      exact h.fresh m hm
  · intro m
    show Function.update s.kills n (s.kills n + 1) m =
      if m < s.fresh ∧ Function.update s.node n none m = none then 1 else 0
    by_cases hm : m = n
    · subst hm
      rw [Function.update_self, Function.update_self, h.kills m, hc]
      simp [hlt]
    · rw [Function.update_of_ne hm, Function.update_of_ne hm]
      exact h.kills m

/-- **A step that a process can take runs without a failed assertion**, and keeps the invariant. -/
theorem step (h : CacheInv s) {op : CacheOp} (hop : op.Enabled s) :
    ∃ s', op.code.run s = .ok () s' ∧ CacheInv s' := by
  cases op with
  | load ino => exact h.load hop ino
  | loaded ino => exact h.loaded hop
  | refInc n =>
    obtain ⟨c, hc, hpos⟩ := hop
    exact h.refInc hc hpos
  | refDec n =>
    obtain ⟨c, hc, hpos⟩ := hop
    exact h.refDec hc hpos
  | reclaim n => exact h.reclaim hop.1 hop.2
  | reclaimed n => exact h.reclaimed hop

end CacheInv

theorem CacheReach.inv {s : InodeCache} (h : CacheReach s) : CacheInv s := by
  refine invariant_of_step CacheInv h CacheInv.boot ?_
  rintro a b hinv ⟨op, hop, hrun⟩
  obtain ⟨b', hrun', hinv'⟩ := hinv.step hop
  rw [hrun] at hrun'
  cases hrun'
  exact hinv'

/-- Only the end of `sfs_reclaim` kills a node. -/
theorem CacheOp.kills_of_run {s s' : InodeCache} {op : CacheOp} (hrun : op.code.run s = .ok () s') {n : ℕ}
    (hkill : s'.kills n ≠ s.kills n) : op = .reclaimed n := by
  cases op with
  | load ino =>
    simp only [code, sfsLoadInode, lookupSfsNolock, useNode, Prog.run_bind, Prog.run_get,
      Outcome.andThen_ok] at hrun
    cases hfind : s.find ino with
    | none =>
      simp only [hfind, Prog.run_pure, Outcome.andThen_ok, Prog.run_modify] at hrun
      cases hrun
      exact absurd rfl hkill
    | some m =>
      cases hm : s.node m with
      | none =>
        simp only [hfind, Prog.run_bind, Prog.run_get, Outcome.andThen_ok, hm, Prog.run_stop,
          Outcome.andThen_panic] at hrun
        cases hrun
      | some c =>
        simp only [hfind, Prog.run_bind, Prog.run_get, Outcome.andThen_ok, hm, Prog.run_pure,
          Prog.run_modify] at hrun
        cases hrun
        exact absurd rfl hkill
  | loaded ino =>
    cases hrun
    exact absurd rfl hkill
  | refInc m =>
    cases hm : s.node m with
    | none =>
      simp only [code, inodeRefInc, useNode, Prog.run_bind, Prog.run_get, Outcome.andThen_ok, hm,
        Prog.run_stop, Outcome.andThen_panic] at hrun
      cases hrun
    | some c =>
      rw [code, inodeRefInc, Prog.bind_of_ok (CacheInv.useNode_run hm)] at hrun
      cases hrun
      exact absurd rfl hkill
  | refDec m =>
    cases hm : s.node m with
    | none =>
      simp only [code, inodeRefDec, useNode, Prog.run_bind, Prog.run_get, Outcome.andThen_ok, hm,
        Prog.run_stop, Outcome.andThen_panic] at hrun
      cases hrun
    | some c =>
      rw [code, inodeRefDec, Prog.bind_of_ok (CacheInv.useNode_run hm), Prog.assert_bind_eq_ok] at hrun
      obtain ⟨-, hrun⟩ := hrun
      simp only [Prog.run_bind, Prog.run_modify, Outcome.andThen_ok, Prog.run_ite] at hrun
      split_ifs at hrun <;> cases hrun <;> exact absurd rfl hkill
  | reclaim m =>
    cases hm : s.node m with
    | none =>
      simp only [code, sfsReclaim, useNode, Prog.run_bind, Prog.run_modify, Prog.run_get,
        Outcome.andThen_ok, hm, Prog.run_stop, Outcome.andThen_panic] at hrun
      cases hrun
    | some c =>
      have hm' : ({ s with pending := s.pending.erase m } : InodeCache).node m = some c := hm
      rw [code, sfsReclaim, Prog.bind_of_ok (Prog.run_modify ..),
        Prog.bind_of_ok (CacheInv.useNode_run hm'), Prog.assert_bind_eq_ok] at hrun
      obtain ⟨-, hrun⟩ := hrun
      simp only [Prog.run_bind, Prog.run_modify, Outcome.andThen_ok, Prog.run_ite] at hrun
      split_ifs at hrun <;> cases hrun <;> exact absurd rfl hkill
  | reclaimed m =>
    cases hm : s.node m with
    | none =>
      simp only [code, sfsReclaimEnd, useNode, Prog.run_bind, Prog.run_modify, Prog.run_get,
        Outcome.andThen_ok, hm, Prog.run_stop, Outcome.andThen_panic] at hrun
      cases hrun
    | some c =>
      have hm' : ({ s with hashList := s.hashList.erase m, lock := .free } : InodeCache).node m =
          some c := hm
      rw [code, sfsReclaimEnd, Prog.bind_of_ok (Prog.run_modify ..),
        Prog.bind_of_ok (CacheInv.useNode_run hm'), Prog.assert_bind_eq_ok] at hrun
      obtain ⟨-, hrun⟩ := hrun
      cases hrun
      by_cases hmn : n = m
      · rw [hmn]
      · exact absurd (Function.update_of_ne hmn _ _) hkill

/-- **The protocol of the inode cache**, in every state that an interleaving leads to. -/
theorem inodeCache_protocol {s : InodeCache} (h : CacheReach s) :
    -- one inode in memory for each inode on disk
    (∀ n n' c c', s.node n = some c → s.node n' = some c' → c.ino = c'.ino → n = n') ∧
    -- the count of reclaims
    (∀ n c, s.node n = some c →
      c.reclaimCount = (if 0 < c.refCount then 1 else 0) + s.calls n) ∧
    -- no assertion fails, whatever a process does next
    (∀ op : CacheOp, op.Enabled s → ∃ s', op.code.run s = .ok () s') ∧
    (∀ n ∈ s.pending, ∃ c, s.node n = some c ∧ 0 < c.reclaimCount) ∧
    -- a node is killed when it has no reference and no call waits for it
    (∀ (op : CacheOp) s', op.Enabled s → op.code.run s = .ok () s' → ∀ n, s'.kills n ≠ s.kills n →
      ∃ c, s.node n = some c ∧ c.refCount = 0 ∧ s.calls n = 0) ∧
    -- it has been killed once if it has left memory, and it does leave memory
    (∀ n, s.kills n = if n < s.fresh ∧ s.node n = none then 1 else 0) ∧
    (∀ n c, s.node n = some c → c.refCount = 0 → s.calls n = 0 → s.lock = .reclaiming n) := by
  have hinv := h.inv
  refine ⟨hinv.unique, hinv.count, fun op hop => ?_, fun n hn => ?_, ?_, hinv.kills, ?_⟩
  · obtain ⟨s', hrun, -⟩ := hinv.step hop
    exact ⟨s', hrun⟩
  · obtain ⟨c, hc⟩ := Option.isSome_iff_exists.mp (hinv.pending n hn)
    have hcount := hinv.count n c hc
    have hcalls : 0 < s.calls n := List.count_pos_iff.mpr hn
    exact ⟨c, hc, by omega⟩
  · intro op s' hop hrun n hkill
    obtain rfl := op.kills_of_run hrun hkill
    exact hinv.last_call hop
  · intro n c hc href hcalls
    refine (hinv.reclaiming n).mpr ⟨c, hc, ?_⟩
    have hcount := hinv.count n c hc
    rw [if_neg (by omega)] at hcount
    omega

/-- An inode is loaded, dropped, found again while its reclaim waits, and dropped again: two calls
wait, and the first of them finds that it is not the last. -/
theorem inodeCache_protocol_resurrected :
    ∃ s, CacheReach s ∧ s.node 0 = some ⟨7, 0, 1⟩ ∧ s.pending = [0] ∧
      ∀ op : CacheOp, op.Enabled s → ∃ s', op.code.run s = .ok () s' := by
  have hreach : ∃ s, CacheReach s ∧ s.node 0 = some ⟨7, 0, 1⟩ ∧ s.pending = [0] := by
    refine ⟨_, Relation.ReflTransGen.tail (Relation.ReflTransGen.tail (Relation.ReflTransGen.tail
      (Relation.ReflTransGen.tail (Relation.ReflTransGen.tail (Relation.ReflTransGen.tail
        Relation.ReflTransGen.refl ⟨.load 7, rfl, rfl⟩) ⟨.loaded 7, rfl, rfl⟩)
        ⟨.refDec 0, ⟨_, rfl, by decide⟩, rfl⟩) ⟨.load 7, rfl, rfl⟩)
        ⟨.refDec 0, ⟨_, rfl, by decide⟩, rfl⟩) ⟨.reclaim 0, ⟨rfl, by decide⟩, rfl⟩, rfl, rfl⟩
  obtain ⟨s, hs, hnode, hpending⟩ := hreach
  exact ⟨s, hs, hnode, hpending, (inodeCache_protocol hs).2.2.1⟩

end Ucore.Fs
