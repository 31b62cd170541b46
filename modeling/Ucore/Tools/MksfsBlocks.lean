import Ucore.Tools.Mksfs
import Mathlib.Data.List.Nodup

/-!
# The blocks of an image that is being built

Every block that `sfs_alloc_ino` hands out is used for one thing, which is its role: it holds an inode, block numbers
for a file, or data of a file.

* `FileInv` is the invariant of one file: where its block numbers are, and that the blocks on the way to them have
  their roles. `FileInv.frame`: what is done to other blocks does not matter to it.
* `MkInv` is the invariant of the program. `appendBlock_words` proves it of `append_block`, for all three levels
  of block numbers, and says what becomes of the numbers; `appendBlock_post` leaves the numbers out.
-/

namespace Ucore.Tools

open Ucore.Lib Ucore.Fs Relation

/-- What a block is used for. -/
inductive Role where
  | free
  | inode
  /-- The block numbers of the file `f` from 12 on. -/
  | ind (f : ℕ)
  /-- The numbers of the blocks of block numbers from 1036 on, -/
  | dbl (f : ℕ)
  /-- and these blocks. -/
  | sub (f i : ℕ)
  /-- The block at index `k` of the file `f`. -/
  | data (f k : ℕ)
  deriving DecidableEq

/-- The block holds block numbers. -/
def Role.Cache : Role → Prop
  | .ind _ => True
  | .dbl _ => True
  | .sub _ _ => True
  | _ => False

/-- The invariant of a file. -/
structure FileInv (ρ : ℕ → Role) (cache : ℕ → ℕ → ℕ) (f : ℕ) (d : CacheInode) : Prop where
  nblks : d.nblks = d.appended.length
  blocks : d.blocks = d.appended.length
  length_le : d.appended.length ≤ 32768
  size_le : d.size ≤ 4096 * d.appended.length
  nlinks_lt : d.nlinks < 65536
  data : ∀ k < d.appended.length, ρ (d.appended.getD k 0) = .data f k
  direct : ∀ k < 12, d.direct k = d.appended.getD k 0
  ind_zero : d.appended.length ≤ 12 → d.indirect = 0
  ind : 12 < d.appended.length → ρ d.indirect = .ind f ∧
    ∀ k < 1024, cache d.indirect k = d.appended.getD (12 + k) 0
  l1 : 12 < d.appended.length → d.appended.length ≤ 1036 → d.l1 = some d.indirect
  /-- With 1036 blocks there may be a block for the next level, or not yet. -/
  dbl : d.dbIndirect = 0 ∧ d.appended.length ≤ 1036 ∨
    1036 ≤ d.appended.length ∧ ρ d.dbIndirect = .dbl f ∧ d.l2 = some d.dbIndirect ∧
      ∀ i, if 1036 + 1024 * i < d.appended.length then ρ (cache d.dbIndirect i) = .sub f i
        else cache d.dbIndirect i = 0
  l1_sub : 1036 < d.appended.length → d.l1 = some (cache d.dbIndirect ((d.appended.length - 1037) / 1024))

section fileInv

variable {ρ ρ' : ℕ → Role} {cache cache' : ℕ → ℕ → ℕ} {f : ℕ} {d : CacheInode}

/-- Only the blocks on the way to the block numbers of a file matter to it. -/
theorem FileInv.frame (h : FileInv ρ cache f d) (hρ : ∀ b, ρ b ≠ .free → ρ' b = ρ b)
    (hind : ∀ b, ρ b = .ind f → cache' b = cache b) (hdbl : ∀ b, ρ b = .dbl f → cache' b = cache b) :
    FileInv ρ' cache' f d := by
  have hrole : ∀ {b r}, ρ b = r → r ≠ .free → ρ' b = r := by
    intro b r hb hr
    rw [hρ b (by rw [hb]; exact hr), hb]
  refine { h with data := fun k hk => hrole (h.data k hk) Role.noConfusion, ind := fun hn => ?_,
                  dbl := ?_, l1_sub := fun hn => ?_ }
  · obtain ⟨hr, hwords⟩ := h.ind hn
    exact ⟨hrole hr Role.noConfusion, fun k hk => by rw [hind _ hr]; exact hwords k hk⟩
  · rcases h.dbl with hzero | ⟨hn, hr, hl2, hsub⟩
    · exact Or.inl hzero
    refine Or.inr ⟨hn, hrole hr Role.noConfusion, hl2, fun i => ?_⟩
    have hi := hsub i
    rw [hdbl _ hr]
    split_ifs at hi ⊢
    · exact hrole hi Role.noConfusion
    · exact hi
  · rcases h.dbl with hzero | ⟨-, hr, -⟩
    · omega
    · rw [hdbl _ hr]
      exact h.l1_sub hn

theorem FileInv.setNlinks (h : FileInv ρ cache f d) {n : ℕ} (hn : n < 65536) :
    FileInv ρ cache f { d with nlinks := n } :=
  { h with nlinks_lt := hn }

theorem FileInv.setEntries (h : FileInv ρ cache f d) (entries : List (ℕ × CString)) :
    FileInv ρ cache f { d with entries := entries } :=
  { h with }

/-- An inode without blocks. -/
theorem FileInv.empty (type : SfsType) (real : ℕ) :
    FileInv ρ cache f ⟨0, type, 0, 0, fun _ => 0, 0, 0, real, 0, none, none, [], []⟩ := by
  refine ⟨rfl, rfl, Nat.zero_le _, Nat.zero_le _, Nat.zero_lt_succ _, fun k hk => ?_, fun _ _ => rfl, fun _ => rfl,
    fun hn => ?_, fun hn => ?_, Or.inl ⟨rfl, Nat.zero_le _⟩, fun hn => ?_⟩
  all_goals exact absurd ‹_ < _› (Nat.not_lt_zero _)

end fileInv

/-- The first block behind the free map. -/
def Mksfs.start (m : Mksfs) : ℕ := 2 + freemapBlocks m.ninos

/-- The invariant of the program, for given roles of the blocks. -/
structure MkInv (ρ : ℕ → Role) (m : Mksfs) : Prop where
  ninos_le : m.ninos ≤ 524288
  next_le : m.nextIno ≤ m.ninos
  start_le : m.start ≤ m.nextIno
  unused : m.unusedBlocks = m.ninos - m.nextIno
  role : ∀ b, ρ b ≠ .free → b = 1 ∨ m.start ≤ b ∧ b < m.nextIno
  inos : ∀ f, f ∈ m.inos ↔ ρ f = .inode
  cached : ∀ b, b ∈ m.cached ↔ (ρ b).Cache
  bucket : ∀ b, m.bucket b < 1024
  files : ∀ f ∈ m.inos, FileInv ρ m.cache f (m.inode f)

section alloc

variable {ρ ρ' : ℕ → Role} {m m' : Mksfs} {f : ℕ}

theorem Mksfs.three_le_start (h : MkInv ρ m) : 3 ≤ m.start := by
  have h₁ := h.next_le
  have h₂ := h.start_le
  unfold Mksfs.start freemapBlocks at *
  omega

theorem MkInv.role_zero (h : MkInv ρ m) : ρ 0 = .free := by
  by_contra hne
  have := h.role 0 hne
  have := Mksfs.three_le_start h
  omega

theorem MkInv.role_next (h : MkInv ρ m) : ρ m.nextIno = .free := by
  by_contra hne
  have := h.role _ hne
  have := Mksfs.three_le_start h
  have := h.start_le
  omega

theorem MkInv.pos (h : MkInv ρ m) {b : ℕ} (hb : ρ b ≠ .free) : b ≠ 0 := by
  rintro rfl
  exact hb h.role_zero

theorem MkInv.lt_next (h : MkInv ρ m) {b : ℕ} (hb : ρ b ≠ .free) : b < m.nextIno := by
  have := h.role b hb
  have := Mksfs.three_le_start h
  have := h.start_le
  omega

/-- The roles of `ρ` are those of `ρ'`; there may be more. -/
def Extends (ρ ρ' : ℕ → Role) : Prop := ∀ b, ρ b ≠ .free → ρ' b = ρ b

theorem Extends.trans {ρ'' : ℕ → Role} (h : Extends ρ ρ') (h' : Extends ρ' ρ'') : Extends ρ ρ'' := by
  intro b hb
  rw [h' b (by rw [h b hb]; exact hb), h b hb]

theorem Extends.role (h : Extends ρ ρ') {b : ℕ} {r : Role} (hb : ρ b = r) (hr : r ≠ .free) : ρ' b = r := by
  rw [h b (by rw [hb]; exact hr), hb]

theorem MkInv.extends_next (h : MkInv ρ m) (r : Role) : Extends ρ (Function.update ρ m.nextIno r) := by
  intro b hb
  refine Function.update_of_ne ?_ _ _
  rintro rfl
  exact hb h.role_next

/-- The next block is handed out. -/
def Mksfs.alloc (m : Mksfs) : Mksfs := { m with unusedBlocks := m.unusedBlocks - 1, nextIno := m.nextIno + 1 }

theorem sfsAllocIno_run (m : Mksfs) :
    sfsAllocIno.run m = if m.nextIno < m.ninos then .ok m.nextIno m.alloc else .panic .outOfSpace := by
  simp only [sfsAllocIno, Prog.run_bind, Prog.run_get, Outcome.andThen_ok, Prog.run_ite, Prog.run_modify,
    Prog.run_pure, Prog.run_stop]
  rfl

/-- **The next block gets its role.** -/
theorem MkInv.grow (h : MkInv ρ m) (hlt : m.nextIno < m.ninos) {r : Role} (hninos : m'.ninos = m.ninos)
    (hnext : m'.nextIno = m.nextIno + 1) (hunused : m'.unusedBlocks = m.unusedBlocks - 1)
    (hinos : ∀ g, g ∈ m'.inos ↔ g ∈ m.inos ∨ g = m.nextIno ∧ r = .inode)
    (hcached : ∀ b, b ∈ m'.cached ↔ b ∈ m.cached ∨ b = m.nextIno ∧ r.Cache) (hbucket : ∀ b, m'.bucket b < 1024)
    (hfiles : ∀ g ∈ m'.inos, FileInv (Function.update ρ m.nextIno r) m'.cache g (m'.inode g)) :
    MkInv (Function.update ρ m.nextIno r) m' := by
  have hstart : m'.start = m.start := by rw [Mksfs.start, hninos, Mksfs.start]
  have h₁ := h.next_le
  have h₂ := h.start_le
  have h₃ := h.unused
  refine ⟨by rw [hninos]; exact h.ninos_le, by omega, by omega, by omega, fun b hb => ?_, fun g => ?_,
    fun b => ?_, hbucket, hfiles⟩
  · rw [hstart, hnext]
    by_cases heq : b = m.nextIno
    · omega
    · rw [Function.update_of_ne heq] at hb
      have := h.role b hb
      omega
  · rw [hinos, h.inos]
    by_cases heq : g = m.nextIno
    · subst heq
      rw [Function.update_self, h.role_next]
      simp
    · rw [Function.update_of_ne heq]
      simp [heq]
  · rw [hcached, h.cached]
    by_cases heq : b = m.nextIno
    · subst heq
      rw [Function.update_self, h.role_next]
      simp [Role.Cache]
    · rw [Function.update_of_ne heq]
      simp [heq]

/-- A block for data. -/
theorem MkInv.alloc (h : MkInv ρ m) (hlt : m.nextIno < m.ninos) (f k : ℕ) :
    MkInv (Function.update ρ m.nextIno (.data f k)) m.alloc := by
  refine h.grow hlt rfl rfl rfl (fun g => ?_) (fun b => ?_) h.bucket fun g hg => ?_
  · simp [Mksfs.alloc]
  · simp [Mksfs.alloc, Role.Cache]
  · exact (h.files g hg).frame (h.extends_next _) (fun _ _ => rfl) fun _ _ => rfl

/-- What is the same after `update_cache`. -/
structure Between (m m' : Mksfs) : Prop where
  ninos : m'.ninos = m.ninos
  img : m'.img = m.img
  inos : m'.inos = m.inos
  inode : m'.inode = m.inode
  entryName : m'.entryName = m.entryName
  le_next : m.nextIno ≤ m'.nextIno
  next_le : m'.nextIno ≤ m.nextIno + 1

theorem hash32_lt (val : ℕ) : hash32 val < 1024 := by
  unfold hash32
  omega

/-- **`update_cache`** returns the block of the pointer, or a new one if there is none. -/
theorem updateCache_post (h : MkInv ρ m) {cb : Option ℕ} {ino : ℕ} {r : Role} (hr : r.Cache)
    (hcase : ino = 0 ∨ ρ ino = r ∧ cb = some ino) :
    ((updateCache cb ino).run m).Post
      (fun b m₁ => ∃ ρ₁, MkInv ρ₁ m₁ ∧ Extends ρ ρ₁ ∧ ρ₁ b = r ∧ Between m m₁ ∧
        (ino = 0 → ρ b = .free ∧ m₁.cache b = fun _ => 0) ∧ (ino ≠ 0 → b = ino) ∧
        ∀ b', ρ b' ≠ .free → m₁.cache b' = m.cache b')
      (fun _ _ => False) (fun p => p = .outOfSpace ∧ m.ninos ≤ m.nextIno) := by
  have hfree : r ≠ .free := by
    rintro rfl
    exact hr
  by_cases hzero : ino = 0
  · subst hzero
    simp only [updateCache, if_true, allocCacheBlock, Prog.run_bind, ne_eq, not_true,
      if_false, sfsAllocIno_run]
    by_cases hlt : m.nextIno < m.ninos
    · rw [if_pos hlt]
      have hne : ∀ b', ρ b' ≠ .free → b' ≠ m.nextIno := by
        rintro b' hb' rfl
        exact hb' h.role_next
      refine ⟨Function.update ρ m.nextIno r, ?_, h.extends_next r, Function.update_self _ _ _,
        ⟨rfl, rfl, rfl, rfl, rfl, Nat.le_succ _, Nat.le_refl _⟩, fun _ => ⟨h.role_next, Function.update_self _ _ _⟩,
        fun hF => hF.elim, fun b' hb' => Function.update_of_ne (hne b' hb') _ _⟩
      refine h.grow hlt rfl rfl rfl (fun g => ?_) (fun b => ?_) (fun b => ?_) fun g hg => ?_
      · have : ¬ r = .inode := by
          rintro rfl
          exact hr
        simp [Mksfs.alloc, this]
      · simp only [Mksfs.alloc, List.mem_cons]
        tauto
      · simp only [Mksfs.alloc, Function.update_apply]
        split_ifs
        · exact hash32_lt 0
        · exact h.bucket b
      · refine (h.files g hg).frame (h.extends_next _) (fun b hb => ?_) fun b hb => ?_
        · exact Function.update_of_ne (hne b (by rw [hb]; exact Role.noConfusion)) _ _
        · exact Function.update_of_ne (hne b (by rw [hb]; exact Role.noConfusion)) _ _
    · rw [if_neg hlt]
      exact ⟨rfl, by omega⟩
  · obtain ⟨hrole, hcb⟩ := hcase.resolve_left hzero
    simp only [updateCache, if_neg hzero, if_pos hcb, Prog.run_pure]
    exact ⟨ρ, h, fun _ _ => rfl, hrole, ⟨rfl, rfl, rfl, rfl, rfl, Nat.le_refl _, Nat.le_succ _⟩,
      fun hz => absurd hz hzero, fun _ => rfl, fun _ _ => rfl⟩

end alloc

/-! ### `append_block` -/

/-- What is the same when a file gets a block. -/
structure SameShell (m m' : Mksfs) (f : ℕ) : Prop where
  ninos : m'.ninos = m.ninos
  nextIno : m'.nextIno = m.nextIno
  unused : m'.unusedBlocks = m.unusedBlocks
  img : m'.img = m.img
  inos : m'.inos = m.inos
  cached : m'.cached = m.cached
  bucket : m'.bucket = m.bucket
  entryName : m'.entryName = m.entryName
  other : ∀ g, g ≠ f → m'.inode g = m.inode g

/-- `append_block` has been called with `ino`. -/
structure AppendedTo (m m' : Mksfs) (f size ino : ℕ) : Prop where
  ninos : m'.ninos = m.ninos
  img : m'.img = m.img
  inos : m'.inos = m.inos
  entryName : m'.entryName = m.entryName
  le_next : m.nextIno ≤ m'.nextIno
  next_le : m'.nextIno ≤ m.nextIno + 2
  other : ∀ g, g ≠ f → m'.inode g = m.inode g
  type : (m'.inode f).type = (m.inode f).type
  real : (m'.inode f).real = (m.inode f).real
  nlinks : (m'.inode f).nlinks = (m.inode f).nlinks
  entries : (m'.inode f).entries = (m.inode f).entries
  size : (m'.inode f).size = (m.inode f).size + size
  appended : (m'.inode f).appended = (m.inode f).appended ++ [ino]

section append

variable {ρ ρ' : ℕ → Role} {m m' : Mksfs} {f : ℕ}

/-- A file is changed, and none of the blocks that matter to another one. -/
theorem MkInv.setFile (h : MkInv ρ m) (hsame : SameShell m m' f)
    (hcache : ∀ g, g ≠ f → ∀ b, ρ b = .ind g ∨ ρ b = .dbl g → m'.cache b = m.cache b)
    (hfile : FileInv ρ m'.cache f (m'.inode f)) : MkInv ρ m' := by
  have hstart : m'.start = m.start := by rw [Mksfs.start, hsame.ninos, Mksfs.start]
  refine ⟨by rw [hsame.ninos]; exact h.ninos_le, by rw [hsame.nextIno, hsame.ninos]; exact h.next_le,
    by rw [hstart, hsame.nextIno]; exact h.start_le, by rw [hsame.unused, hsame.ninos, hsame.nextIno]; exact h.unused,
    by rw [hstart, hsame.nextIno]; exact h.role, by rw [hsame.inos]; exact h.inos,
    by rw [hsame.cached]; exact h.cached, by rw [hsame.bucket]; exact h.bucket, fun g hg => ?_⟩
  rw [hsame.inos] at hg
  by_cases heq : g = f
  · rw [heq]
    exact hfile
  · rw [hsame.other g heq]
    exact (h.files g hg).frame (fun _ _ => rfl) (fun b hb => hcache g heq b (Or.inl hb))
      fun b hb => hcache g heq b (Or.inr hb)

theorem getD_concat (l : List ℕ) (x k : ℕ) :
    (l ++ [x]).getD k 0 = if k = l.length then x else l.getD k 0 := by
  by_cases hlt : k < l.length
  · rw [List.getD_append _ _ _ _ hlt, if_neg (by omega)]
  · rw [List.getD_append_right _ _ _ _ (by omega)]
    split_ifs with heq
    · rw [heq, Nat.sub_self]
      rfl
    · rw [List.getD_eq_default _ _ (by rw [List.length_singleton]; omega), List.getD_eq_default _ _ (by omega)]

/-- An inode with one more block. -/
def CacheInode.push (d : CacheInode) (size ino : ℕ) : CacheInode :=
  { d with
    nblks := d.nblks + 1
    size := d.size + size
    blocks := d.blocks + 1
    appended := d.appended ++ [ino] }

section push

variable {cache cache' : ℕ → ℕ → ℕ} {d d' : CacheInode} {size ino : ℕ}

/-- What all three levels of `append_block` do alike. -/
theorem FileInv.push (h : FileInv ρ cache f d) (hlen : d.appended.length < 32768) (hsize : size ≤ 4096)
    (hino : ρ ino = .data f d.appended.length) (hd : d'.nblks = d.nblks ∧ d'.blocks = d.blocks ∧ d'.size = d.size ∧
      d'.nlinks = d.nlinks ∧ d'.appended = d.appended)
    (hdirect : ∀ k < 12, d'.direct k = (d.appended ++ [ino]).getD k 0)
    (hzero : d.appended.length < 12 → d'.indirect = 0)
    (hind : 12 ≤ d.appended.length → ρ d'.indirect = .ind f ∧
      ∀ k < 1024, cache' d'.indirect k = (d.appended ++ [ino]).getD (12 + k) 0)
    (hl1 : 12 ≤ d.appended.length → d.appended.length < 1036 → d'.l1 = some d'.indirect)
    (hdbl : d.appended.length < 1036 → d'.dbIndirect = 0)
    (hsub : 1036 ≤ d.appended.length → ρ d'.dbIndirect = .dbl f ∧ d'.l2 = some d'.dbIndirect ∧
      (∀ i, if 1036 + 1024 * i < d.appended.length + 1 then ρ (cache' d'.dbIndirect i) = .sub f i
        else cache' d'.dbIndirect i = 0) ∧
      d'.l1 = some (cache' d'.dbIndirect ((d.appended.length - 1036) / 1024))) :
    FileInv ρ cache' f (d'.push size ino) := by
  obtain ⟨hnblks, hblocks, hsz, hlinks, happ⟩ := hd
  have hlen' : (d'.push size ino).appended.length = d.appended.length + 1 := by
    simp [CacheInode.push, happ]
  have happ' : (d'.push size ino).appended = d.appended ++ [ino] := by simp [CacheInode.push, happ]
  refine ⟨?_, ?_, ?_, ?_, ?_, fun k hk => ?_, fun k hk => ?_, fun hn => ?_, fun hn => ?_, fun hn hn' => ?_, ?_, fun hn => ?_⟩
  · rw [hlen', ← h.nblks, ← hnblks]
    rfl
  · rw [hlen', ← h.blocks, ← hblocks]
    rfl
  · rw [hlen']
    omega
  · rw [hlen']
    have hle := h.size_le
    show d'.size + size ≤ _
    omega
  · show d'.nlinks < 65536
    rw [hlinks]
    exact h.nlinks_lt
  · rw [hlen'] at hk
    rw [happ', getD_concat]
    split_ifs with heq
    · rw [hino, heq]
    · exact h.data k (by omega)
  · rw [happ']
    exact hdirect k hk
  · rw [hlen'] at hn
    exact hzero (by omega)
  · rw [hlen'] at hn
    rw [happ']
    exact hind (by omega)
  · rw [hlen'] at hn hn'
    exact hl1 (by omega) (by omega)
  · rw [hlen']
    rcases Nat.lt_or_ge d.appended.length 1036 with hlt | hge
    · exact Or.inl ⟨hdbl hlt, by omega⟩
    · obtain ⟨hr, hl2, hall, -⟩ := hsub hge
      exact Or.inr ⟨by omega, hr, hl2, hall⟩
  · rw [hlen'] at hn ⊢
    rw [show d.appended.length + 1 - 1037 = d.appended.length - 1036 by omega]
    exact (hsub (by omega)).2.2.2

end push

theorem Mksfs.setInode_same (m : Mksfs) (f : ℕ) (g : CacheInode → CacheInode) :
    (m.setInode f g).inode f = g (m.inode f) := Function.update_self _ _ _

theorem Mksfs.setInode_of_ne (m : Mksfs) {f f' : ℕ} (g : CacheInode → CacheInode) (h : f' ≠ f) :
    (m.setInode f g).inode f' = m.inode f' := Function.update_of_ne h _ _

@[simp] theorem Mksfs.setWord_inode (m : Mksfs) (b j ino : ℕ) : (m.setWord b j ino).inode = m.inode := rfl

@[simp] theorem Mksfs.setInode_cache (m : Mksfs) (f : ℕ) (g : CacheInode → CacheInode) :
    (m.setInode f g).cache = m.cache := rfl

theorem Mksfs.setWord_same (m : Mksfs) (b j ino : ℕ) :
    (m.setWord b j ino).cache b = Function.update (m.cache b) j ino := Function.update_self _ _ _

theorem Mksfs.setWord_of_ne (m : Mksfs) {b b' : ℕ} (j ino : ℕ) (h : b' ≠ b) :
    (m.setWord b j ino).cache b' = m.cache b' := Function.update_of_ne h _ _

/-- The words of the two blocks that get one each. -/
theorem Mksfs.setWord_two (m : Mksfs) (f : ℕ) (g g' : CacheInode → CacheInode) {b₁ b₂ : ℕ} (i j ino : ℕ) (hne : b₂ ≠ b₁) :
    (∀ x, ((((m.setInode f g).setWord b₂ i b₁).setWord b₁ j ino).setInode f g').cache b₂ x = if x = i then b₁ else m.cache b₂ x) ∧
      ∀ x, ((((m.setInode f g).setWord b₂ i b₁).setWord b₁ j ino).setInode f g').cache b₁ x = if x = j then ino else m.cache b₁ x := by
  refine ⟨fun x => ?_, fun x => ?_⟩
  · rw [Mksfs.setInode_cache, Mksfs.setWord_of_ne _ _ _ hne, Mksfs.setWord_same, Mksfs.setInode_cache, Function.update_apply]
  · rw [Mksfs.setInode_cache, Mksfs.setWord_same, Function.update_apply, Mksfs.setWord_of_ne _ _ _ hne.symm, Mksfs.setInode_cache]

/-- A number goes behind the `n` numbers of a file, into the block `b₁` that `b₂` has for it: the numbers from 1036 on are those of
before, with `ino` behind them. -/
theorem Mksfs.setWord_numbers (m : Mksfs) (f : ℕ) (g g' : CacheInode → CacheInode) {b₁ b₂ n i j : ℕ} (ino : ℕ) (hne : b₂ ≠ b₁)
    (hn : 1036 ≤ n) (hj : j < 1024) (hle : 1036 + 1024 * i + j ≤ n)
    (hlast : 1036 + 1024 * i + j < n → i = (n - 1036) / 1024 → m.cache b₂ i = b₁)
    (hother : i ≠ (n - 1036) / 1024 → m.cache b₂ i ≠ b₁ ∧ m.cache b₂ i ≠ b₂) {m' : Mksfs}
    (hm' : m' = (((m.setInode f g).setWord b₂ ((n - 1036) / 1024) b₁).setWord b₁ ((n - 1036) % 1024) ino).setInode f g') :
    m'.cache (m'.cache b₂ i) j = if 1036 + 1024 * i + j = n then ino else m.cache (m.cache b₂ i) j := by
  obtain ⟨hb₂, hb₁⟩ := m.setWord_two f g g' ((n - 1036) / 1024) ((n - 1036) % 1024) ino hne
  rw [← hm'] at hb₂ hb₁
  rw [hb₂]
  by_cases hi : i = (n - 1036) / 1024
  · rw [if_pos hi, hb₁]
    by_cases hend : 1036 + 1024 * i + j = n
    · rw [if_pos hend, if_pos (show j = (n - 1036) % 1024 by omega)]
    · rw [if_neg hend, if_neg (show j ≠ (n - 1036) % 1024 by omega), hlast (by omega) hi]
  · obtain ⟨hx₁, hx₂⟩ := hother hi
    rw [if_neg hi, if_neg (show ¬ 1036 + 1024 * i + j = n by omega), hm', Mksfs.setInode_cache, Mksfs.setWord_of_ne _ _ _ hx₁,
      Mksfs.setWord_of_ne _ _ _ hx₂, Mksfs.setInode_cache]

/-- Blocks with different roles are different. -/
theorem ne_of_role {b b' : ℕ} {r : Role} (hb : ρ b = r) (hb' : ρ b' ≠ r) : b' ≠ b := by
  rintro rfl
  exact hb' hb

section levels

variable {size ino : ℕ}

/-- A direct block. -/
theorem MkInv.appendDirect (h : MkInv ρ m) (hf : f ∈ m.inos) (hino : ρ ino = .data f (m.inode f).appended.length)
    (hsize : size ≤ 4096) (hn : (m.inode f).appended.length < 12) :
    MkInv ρ ((m.setInode f fun d => { d with direct := Function.update d.direct d.nblks ino }).setInode f
      fun d => d.push size ino) := by
  have hfile := h.files f hf
  refine h.setFile (f := f) ⟨rfl, rfl, rfl, rfl, rfl, rfl, rfl, rfl, fun g hg => ?_⟩ (fun _ _ _ _ => rfl) ?_
  · rw [Mksfs.setInode_of_ne _ _ hg, Mksfs.setInode_of_ne _ _ hg]
  rw [Mksfs.setInode_same, Mksfs.setInode_same]
  refine hfile.push (by omega) hsize hino ⟨rfl, rfl, rfl, rfl, rfl⟩ (fun k hk => ?_)
    (fun _ => hfile.ind_zero (by omega)) (fun hge => ?_) (fun hge => ?_) (fun _ => ?_) fun hge => ?_
  · show Function.update (m.inode f).direct (m.inode f).nblks ino k = _
    rw [getD_concat, hfile.nblks]
    split_ifs with heq
    · rw [heq, Function.update_self]
    · rw [Function.update_of_ne heq]
      exact hfile.direct k hk
  · omega
  · omega
  · rcases hfile.dbl with hzero | ⟨hge, -⟩
    · exact hzero.1
    · omega
  · omega

/-- A block whose number goes to the indirect block `b`. -/
theorem MkInv.appendIndirect (h : MkInv ρ m) (hf : f ∈ m.inos)
    (hino : ρ ino = .data f (m.inode f).appended.length) (hsize : size ≤ 4096)
    (hn : 12 ≤ (m.inode f).appended.length) (hn' : (m.inode f).appended.length < 1036) {b : ℕ} (hb : ρ b = .ind f)
    (hwords : ∀ k < 1024, m.cache b k = (m.inode f).appended.getD (12 + k) 0) :
    MkInv ρ (((m.setInode f fun d => { d with l1 := some b, indirect := b }).setWord b
      ((m.inode f).nblks - 12) ino).setInode f fun d => d.push size ino) := by
  have hfile := h.files f hf
  refine h.setFile (f := f) ⟨rfl, rfl, rfl, rfl, rfl, rfl, rfl, rfl, fun g hg => ?_⟩ (fun g hg b' hb' => ?_) ?_
  · rw [Mksfs.setInode_of_ne _ _ hg, Mksfs.setWord_inode, Mksfs.setInode_of_ne _ _ hg]
  · refine Mksfs.setWord_of_ne _ _ _ (ne_of_role hb ?_)
    rcases hb' with hb' | hb'
    · rw [hb']
      exact fun heq => hg (Role.ind.inj heq)
    · rw [hb']
      exact Role.noConfusion
  rw [Mksfs.setInode_same, Mksfs.setWord_inode, Mksfs.setInode_same, Mksfs.setInode_cache]
  refine hfile.push (by omega) hsize hino ⟨rfl, rfl, rfl, rfl, rfl⟩ (fun k hk => ?_) (fun _ => by omega)
    (fun _ => ⟨hb, fun k hk => ?_⟩) (fun _ _ => rfl) (fun _ => ?_) fun hge => by omega
  · rw [getD_concat, if_neg (by omega)]
    exact hfile.direct k hk
  · rw [Mksfs.setWord_same, Mksfs.setInode_cache, getD_concat, hfile.nblks]
    split_ifs with heq
    · rw [show (m.inode f).appended.length - 12 = k by omega, Function.update_self]
    · rw [Function.update_of_ne (by omega)]
      exact hwords k hk
  · rcases hfile.dbl with hzero | ⟨hge, -⟩
    · exact hzero.1
    · omega

/-- A block whose number goes to the block `b₁` of block numbers, whose number is in the block `b₂`. -/
theorem MkInv.appendSub (h : MkInv ρ m) (hf : f ∈ m.inos) (hino : ρ ino = .data f (m.inode f).appended.length)
    (hsize : size ≤ 4096) (hn : 1036 ≤ (m.inode f).appended.length) (hn' : (m.inode f).appended.length < 32768)
    {b₁ b₂ n : ℕ} (hnblks : n = (m.inode f).appended.length) (hdb : (m.inode f).dbIndirect = b₂)
    (hb₁ : ρ b₁ = .sub f ((n - 1036) / 1024)) (hb₂ : ρ b₂ = .dbl f) :
    MkInv ρ ((((m.setInode f fun d => { d with l1 := some b₁ }).setWord b₂ ((n - 1036) / 1024) b₁).setWord b₁
      ((n - 1036) % 1024) ino).setInode f fun d => d.push size ino) := by
  have hfile := h.files f hf
  subst hnblks
  set i := ((m.inode f).appended.length - 1036) / 1024 with hi
  have hother : ∀ {b' r}, ρ b' = r → r ≠ .dbl f → (∀ k, r ≠ .sub f k) →
      (((m.setInode f fun d => { d with l1 := some b₁ }).setWord b₂ i b₁).setWord b₁
        (((m.inode f).appended.length - 1036) % 1024) ino).cache b' = m.cache b' := by
    intro b' r hb' hr₂ hr₁
    rw [Mksfs.setWord_of_ne _ _ _ (ne_of_role hb₁ (by rw [hb']; exact hr₁ _)),
      Mksfs.setWord_of_ne _ _ _ (ne_of_role hb₂ (by rw [hb']; exact hr₂)), Mksfs.setInode_cache]
  refine h.setFile (f := f) ⟨rfl, rfl, rfl, rfl, rfl, rfl, rfl, rfl, fun g hg => ?_⟩ (fun g hg b' hb' => ?_) ?_
  · rw [Mksfs.setInode_of_ne _ _ hg, Mksfs.setWord_inode, Mksfs.setWord_inode, Mksfs.setInode_of_ne _ _ hg]
  · rw [Mksfs.setInode_cache]
    rcases hb' with hb' | hb'
    · exact hother hb' Role.noConfusion fun _ => Role.noConfusion
    · exact hother hb' (fun heq => hg (Role.dbl.inj heq)) fun _ => Role.noConfusion
  rw [Mksfs.setInode_same, Mksfs.setWord_inode, Mksfs.setWord_inode, Mksfs.setInode_same, Mksfs.setInode_cache]
  have hsub : ∀ j, (((m.setInode f fun d => { d with l1 := some b₁ }).setWord b₂ i b₁).setWord b₁
      (((m.inode f).appended.length - 1036) % 1024) ino).cache b₂ j = if j = i then b₁ else m.cache b₂ j := by
    intro j
    rw [Mksfs.setWord_of_ne _ _ _ (ne_of_role hb₁ (by rw [hb₂]; exact Role.noConfusion)), Mksfs.setWord_same,
      Mksfs.setInode_cache]
    split_ifs with heq
    · rw [heq, Function.update_self]
    · rw [Function.update_of_ne heq]
  refine hfile.push hn' hsize hino ⟨rfl, rfl, rfl, rfl, rfl⟩ (fun k hk => ?_) (fun _ => by omega) (fun _ => ?_)
    (fun _ _ => by omega) (fun _ => by omega) fun _ => ?_
  · rw [getD_concat, if_neg (by omega)]
    exact hfile.direct k hk
  · obtain ⟨hr, hwords⟩ := hfile.ind (by omega)
    refine ⟨hr, fun k hk => ?_⟩
    rw [getD_concat, if_neg (by omega)]
    show (Mksfs.cache _) (m.inode f).indirect k = _
    rw [hother hr Role.noConfusion fun _ => Role.noConfusion]
    exact hwords k hk
  · rcases hfile.dbl with ⟨hzero, -⟩ | ⟨-, -, hl2, hall⟩
    · rw [hdb] at hzero
      exact absurd hzero (h.pos (by rw [hb₂]; exact Role.noConfusion))
    rw [hdb] at hall hl2
    simp only [hdb]
    refine ⟨hb₂, hl2, fun j => ?_, by rw [hsub, if_pos rfl]⟩
    rw [hsub]
    have hj := hall j
    by_cases heq : j = i
    · rw [if_pos heq, if_pos (by omega), heq]
      exact hb₁
    · rw [if_neg heq]
      split_ifs at hj ⊢
      · exact hj
      · omega
      · omega
      · exact hj

end levels

/-- The pointers of an inode may differ. -/
def CacheInode.SameFile (d d' : CacheInode) : Prop :=
  d'.type = d.type ∧ d'.real = d.real ∧ d'.nlinks = d.nlinks ∧ d'.entries = d.entries ∧ d'.size = d.size ∧
    d'.appended = d.appended

theorem AppendedTo.push {m₂ : Mksfs} {size ino : ℕ} (hninos : m₂.ninos = m.ninos) (himg : m₂.img = m.img)
    (hinos : m₂.inos = m.inos) (hentry : m₂.entryName = m.entryName) (hle : m.nextIno ≤ m₂.nextIno)
    (hle' : m₂.nextIno ≤ m.nextIno + 2) (hother : ∀ g, g ≠ f → m₂.inode g = m.inode g)
    (hfile : (m.inode f).SameFile (m₂.inode f)) :
    AppendedTo m (m₂.setInode f fun d => d.push size ino) f size ino := by
  obtain ⟨htype, hreal, hlinks, hentries, hsize, happ⟩ := hfile
  refine ⟨hninos, himg, hinos, hentry, hle, hle', fun g hg => ?_, ?_, ?_, ?_, ?_, ?_, ?_⟩
  · rw [Mksfs.setInode_of_ne _ _ hg, hother g hg]
  all_goals rw [Mksfs.setInode_same]
  · exact htype
  · exact hreal
  · exact hlinks
  · exact hentries
  · rw [← hsize]
    rfl
  · rw [← happ]
    rfl

/-- What `append_block` does to the blocks of block numbers: those of other files stay, and the block numbers from 1036 on are those of
before, with `ino` behind them. -/
structure WordsAppended (ρ : ℕ → Role) (m m' : Mksfs) (f ino : ℕ) : Prop where
  other : ∀ b, ρ b ≠ .free → ρ b ≠ .ind f → ρ b ≠ .dbl f → (∀ i, ρ b ≠ .sub f i) → m'.cache b = m.cache b
  sub : ∀ i j, j < 1024 → 1036 + 1024 * i + j ≤ (m.inode f).appended.length →
    m'.cache (m'.cache (m'.inode f).dbIndirect i) j =
      if 1036 + 1024 * i + j = (m.inode f).appended.length then ino else m.cache (m.cache (m.inode f).dbIndirect i) j

/-- What a function that puts a block into a file does, to its blocks of block numbers, too. -/
def AppendWords (ρ : ℕ → Role) (m : Mksfs) (f size ino : ℕ) (r : Outcome MksfsBug Empty Mksfs Unit) : Prop :=
  r.Post (fun _ m' => ∃ ρ', MkInv ρ' m' ∧ Extends ρ ρ' ∧ AppendedTo m m' f size ino ∧ WordsAppended ρ m m' f ino)
    (fun _ _ => False)
    (fun p => p = .appendSize ∧ 4096 < size ∨ p = .tooBig ∧ 32768 ≤ (m.inode f).appended.length ∨
      p = .outOfSpace ∧ m.ninos < m.nextIno + 2)

/-- What a function that puts a block into a file does. -/
def AppendPost (ρ : ℕ → Role) (m : Mksfs) (f size ino : ℕ) (r : Outcome MksfsBug Empty Mksfs Unit) : Prop :=
  r.Post (fun _ m' => ∃ ρ', MkInv ρ' m' ∧ Extends ρ ρ' ∧ AppendedTo m m' f size ino) (fun _ _ => False)
    (fun p => p = .appendSize ∧ 4096 < size ∨ p = .tooBig ∧ 32768 ≤ (m.inode f).appended.length ∨
      p = .outOfSpace ∧ m.ninos < m.nextIno + 2)

section post

variable {size ino : ℕ} (h : MkInv ρ m) (hf : f ∈ m.inos) (hino : ρ ino = .data f (m.inode f).appended.length)
  (hsize : size ≤ 4096)

include h hf hino hsize

theorem appendL1_words (hn : 12 ≤ (m.inode f).appended.length) (hn' : (m.inode f).appended.length < 1036) :
    AppendWords ρ m f size ino ((appendL1 f size ino (m.inode f)).run m) := by
  have hfile := h.files f hf
  have hcache : (m.inode f).indirect = 0 ∨
      ρ (m.inode f).indirect = .ind f ∧ (m.inode f).l1 = some (m.inode f).indirect := by
    rcases Nat.lt_or_ge 12 (m.inode f).appended.length with hlt | hge
    · exact Or.inr ⟨(hfile.ind hlt).1, hfile.l1 hlt (by omega)⟩
    · exact Or.inl (hfile.ind_zero hge)
  rw [appendL1]
  refine ((updateCache_post h (r := .ind f) trivial hcache).mono (fun _ _ hQ => hQ) (fun _ _ hE => hE) ?_).bind ?_
  · rintro p ⟨rfl, hle⟩
    exact Or.inr (Or.inr ⟨rfl, by omega⟩)
  rintro b m₁ ⟨ρ₁, hinv, hext, hrole, hbet, hnew, hold, hsame⟩
  have hwords : ∀ k < 1024, m₁.cache b k = (m.inode f).appended.getD (12 + k) 0 := by
    intro k hk
    rcases Nat.lt_or_ge 12 (m.inode f).appended.length with hlt | hge
    · obtain ⟨hr, hwords⟩ := hfile.ind hlt
      have hne : ρ (m.inode f).indirect ≠ .free := by
        rw [hr]
        exact Role.noConfusion
      rw [hold (h.pos hne), hsame _ hne]
      exact hwords k hk
    · rw [(hnew (hfile.ind_zero hge)).2, List.getD_eq_default _ _ (by omega)]
  have hf₁ : f ∈ m₁.inos := by
    rw [hbet.inos]
    exact hf
  have hinode : m₁.inode f = m.inode f := by rw [hbet.inode]
  have hinv₁ := hinv.appendIndirect hf₁ (by rw [hinode]; exact hext.role hino Role.noConfusion) hsize
    (by rw [hinode]; exact hn) (by rw [hinode]; exact hn') hrole (by rw [hinode]; exact hwords)
  rw [hinode] at hinv₁
  have hle := hbet.next_le
  refine ⟨ρ₁, hinv₁, hext, .push hbet.ninos hbet.img hbet.inos hbet.entryName hbet.le_next ?_ (fun g hg => ?_) ?_,
    fun b' hb' hind _ _ => ?_, fun i j hj hle => by omega⟩
  · show m₁.nextIno ≤ _
    omega
  · rw [Mksfs.setWord_inode, Mksfs.setInode_of_ne _ _ hg, hbet.inode]
  · rw [Mksfs.setWord_inode, Mksfs.setInode_same, hbet.inode]
    exact ⟨rfl, rfl, rfl, rfl, rfl, rfl⟩
  · have hrole' : ρ₁ b' ≠ .ind f := by
      rw [hext b' hb']
      exact hind
    rw [Mksfs.setInode_cache, Mksfs.setWord_of_ne _ _ _ (ne_of_role hrole hrole'), Mksfs.setInode_cache, hsame b' hb']

theorem appendL2_words (hn : 1036 ≤ (m.inode f).appended.length) (hn' : (m.inode f).appended.length < 32768) :
    AppendWords ρ m f size ino ((appendL2 f size ino (m.inode f)).run m) := by
  have hfile := h.files f hf
  have hnblks := hfile.nblks
  have hcache : (m.inode f).dbIndirect = 0 ∨
      ρ (m.inode f).dbIndirect = .dbl f ∧ (m.inode f).l2 = some (m.inode f).dbIndirect := by
    rcases hfile.dbl with hzero | ⟨-, hr, hl2, -⟩
    · exact Or.inl hzero.1
    · exact Or.inr ⟨hr, hl2⟩
  -- the last block of the file is in the same block of block numbers, if there is one yet
  have hlast : 1036 + 1024 * (((m.inode f).nblks - 1036) / 1024) < (m.inode f).appended.length →
      ((m.inode f).appended.length - 1037) / 1024 = ((m.inode f).nblks - 1036) / 1024 := by
    rw [hnblks]
    omega
  rw [appendL2]
  refine ((updateCache_post h (r := .dbl f) trivial hcache).mono (fun _ _ hQ => hQ) (fun _ _ hE => hE) ?_).bind ?_
  · rintro p ⟨rfl, hle⟩
    exact Or.inr (Or.inr ⟨rfl, by omega⟩)
  rintro b₂ m₁ ⟨ρ₁, hinv, hext, hrole, hbet, hnew, hold, hsame⟩
  have hinode : m₁.inode f = m.inode f := by rw [hbet.inode]
  have hf₁ : f ∈ m₁.inos := by
    rw [hbet.inos]
    exact hf
  rw [Prog.run_bind, Prog.run_modify, Outcome.andThen_ok, Prog.run_bind, Prog.run_get, Outcome.andThen_ok]
  set m₂ := m₁.setInode f fun d => { d with l2 := some b₂, dbIndirect := b₂ } with hm₂
  set i := ((m.inode f).nblks - 1036) / 1024 with hi
  -- the words of the block of the second level, new or not
  have hwords : ∀ j, if 1036 + 1024 * j < (m.inode f).appended.length then ρ₁ (m₁.cache b₂ j) = .sub f j
      else m₁.cache b₂ j = 0 := by
    intro j
    rcases hfile.dbl with ⟨hzero, hle⟩ | ⟨-, hr, -, hall⟩
    · rw [if_neg (by omega), (hnew hzero).2]
    · have hne : ρ (m.inode f).dbIndirect ≠ .free := by
        rw [hr]
        exact Role.noConfusion
      have hj := hall j
      rw [hold (h.pos hne), hsame _ hne]
      split_ifs at hj ⊢
      · exact hext.role hj Role.noConfusion
      · exact hj
  have hl1 : 1036 < (m.inode f).appended.length →
      (m.inode f).l1 = some (m₁.cache b₂ (((m.inode f).appended.length - 1037) / 1024)) := by
    intro hlt
    rcases hfile.dbl with ⟨-, hle⟩ | ⟨-, hr, -, -⟩
    · omega
    · have hne : ρ (m.inode f).dbIndirect ≠ .free := by
        rw [hr]
        exact Role.noConfusion
      rw [hold (h.pos hne), hsame _ hne]
      exact hfile.l1_sub hlt
  have hinode₂ : m₂.inode f = { m.inode f with l2 := some b₂, dbIndirect := b₂ } := by
    rw [hm₂, Mksfs.setInode_same, hinode]
  have hinv₂ : MkInv ρ₁ m₂ := by
    refine hinv.setFile (f := f) ⟨rfl, rfl, rfl, rfl, rfl, rfl, rfl, rfl, fun g hg => Mksfs.setInode_of_ne _ _ hg⟩
      (fun _ _ _ _ => rfl) ?_
    have hfile₁ := hinv.files f hf₁
    rw [hinode] at hfile₁
    rw [hinode₂, hm₂, Mksfs.setInode_cache]
    exact { hfile₁ with dbl := Or.inr ⟨hn, hrole, rfl, hwords⟩, l1_sub := hl1 }
  -- the block that the number goes to
  have hcache₂ : m₂.cache b₂ i = 0 ∨ ρ₁ (m₂.cache b₂ i) = .sub f i ∧ (m.inode f).l1 = some (m₂.cache b₂ i) := by
    have hword := hwords i
    rw [hm₂, Mksfs.setInode_cache]
    split_ifs at hword with hlt
    · refine Or.inr ⟨hword, ?_⟩
      rw [hl1 (by omega), hlast (by omega)]
    · exact Or.inl hword
  have hle := hbet.next_le
  have hle₀ := hbet.le_next
  have hninos : m₂.ninos = m.ninos := hbet.ninos
  have hnext₂ : m₂.nextIno = m₁.nextIno := rfl
  refine ((updateCache_post hinv₂ (r := .sub f i) trivial hcache₂).mono (fun _ _ hQ => hQ) (fun _ _ hE => hE) ?_).bind ?_
  · rintro p ⟨rfl, hle'⟩
    exact Or.inr (Or.inr ⟨rfl, by omega⟩)
  rintro b₁ m₃ ⟨ρ₃, hinv₃, hext₃, hrole₃, hbet₃, -, hold₃, hsame₃⟩
  have hf₃ : f ∈ m₃.inos := by
    rw [hbet₃.inos]
    exact hf₁
  have hinode₃ : m₃.inode f = { m.inode f with l2 := some b₂, dbIndirect := b₂ } := by rw [hbet₃.inode, hinode₂]
  have hle₃ := hbet₃.next_le
  have hle₃' := hbet₃.le_next
  have happ₃ : (m₃.inode f).appended = (m.inode f).appended := by rw [hinode₃]
  have hdone := hinv₃.appendSub (n := (m.inode f).nblks) hf₃
    (by rw [happ₃]; exact (hext.trans hext₃).role hino Role.noConfusion) hsize (by rw [happ₃]; exact hn)
    (by rw [happ₃]; exact hn') (by rw [happ₃]; exact hnblks) (by rw [hinode₃]) hrole₃
    (hext₃.role hrole Role.noConfusion)
  -- the blocks of other files, and of other block numbers of this one
  have hother : ∀ {b'}, ρ b' ≠ .free → ρ b' ≠ .dbl f → (∀ i, ρ b' ≠ .sub f i) →
      ((((m₃.setInode f fun d => { d with l1 := some b₁ }).setWord b₂ i b₁).setWord b₁ (((m.inode f).nblks - 1036) % 1024) ino).setInode f
        fun d => d.push size ino).cache b' = m.cache b' := by
    intro b' hb' hdbl hsub
    have hb₁ : b' ≠ b₁ := ne_of_role hrole₃ (by rw [(hext.trans hext₃) b' hb']; exact hsub i)
    have hb₂ : b' ≠ b₂ := ne_of_role hrole (by rw [hext b' hb']; exact hdbl)
    rw [Mksfs.setInode_cache, Mksfs.setWord_of_ne _ _ _ hb₁, Mksfs.setWord_of_ne _ _ _ hb₂, Mksfs.setInode_cache,
      hsame₃ b' (by rw [hext b' hb']; exact hb'), hm₂, Mksfs.setInode_cache, hsame b' hb']
  set m' := (((m₃.setInode f fun d => { d with l1 := some b₁ }).setWord b₂ i b₁).setWord b₁ (((m.inode f).nblks - 1036) % 1024)
    ino).setInode f fun d => d.push size ino with hm'
  -- the blocks on the way to a number that has been there are those of before
  have hway : ∀ x, 1036 + 1024 * x < (m.inode f).appended.length →
      ρ (m.cache (m.inode f).dbIndirect x) = .sub f x ∧ m₃.cache b₂ x = m.cache (m.inode f).dbIndirect x ∧
        m₃.cache (m.cache (m.inode f).dbIndirect x) = m.cache (m.cache (m.inode f).dbIndirect x) ∧
        (x = i → b₁ = m.cache (m.inode f).dbIndirect x) := by
    intro x hx
    rcases hfile.dbl with ⟨-, hle''⟩ | ⟨-, hr, -, hall⟩
    · omega
    have hsub := hall x
    rw [if_pos hx] at hsub
    have hdbl_free : ρ (m.inode f).dbIndirect ≠ .free := by
      rw [hr]
      exact Role.noConfusion
    have hsub_free : ρ (m.cache (m.inode f).dbIndirect x) ≠ .free := by
      rw [hsub]
      exact Role.noConfusion
    have hfree₂ : ρ₁ b₂ ≠ .free := by
      rw [hrole]
      exact Role.noConfusion
    have hb₂_old : m₁.cache b₂ = m.cache (m.inode f).dbIndirect := by rw [hold (h.pos hdbl_free), hsame _ hdbl_free]
    have hb₂ : m₂.cache b₂ x = m.cache (m.inode f).dbIndirect x := by rw [hm₂, Mksfs.setInode_cache, hb₂_old]
    refine ⟨hsub, by rw [hsame₃ b₂ hfree₂, hb₂], ?_, ?_⟩
    · rw [hsame₃ _ (by rw [hext _ hsub_free]; exact hsub_free), hm₂, Mksfs.setInode_cache, hsame _ hsub_free]
    · rintro rfl
      rw [hold₃ (by rw [hb₂]; exact h.pos hsub_free), hb₂]
  refine ⟨ρ₃, hdone, hext.trans hext₃, .push (hbet₃.ninos.trans hbet.ninos) (hbet₃.img.trans hbet.img)
    (hbet₃.inos.trans hbet.inos) (hbet₃.entryName.trans hbet.entryName) ?_ ?_ (fun g hg => ?_) ?_,
    fun b' hb' _ hdbl hsub => ?_, fun i' j' hj' hle' => ?_⟩
  · show _ ≤ m₃.nextIno
    omega
  · show m₃.nextIno ≤ _
    omega
  · rw [Mksfs.setWord_inode, Mksfs.setWord_inode, Mksfs.setInode_of_ne _ _ hg, hbet₃.inode, hm₂,
      Mksfs.setInode_of_ne _ _ hg, hbet.inode]
  · rw [Mksfs.setWord_inode, Mksfs.setWord_inode, Mksfs.setInode_same, hinode₃]
    exact ⟨rfl, rfl, rfl, rfl, rfl, rfl⟩
  · exact hother hb' hdbl hsub
  · have hne : b₂ ≠ b₁ := ne_of_role hrole₃ (by rw [hext₃.role hrole Role.noConfusion]; exact Role.noConfusion)
    have hdb : (m'.inode f).dbIndirect = b₂ := by
      rw [hm', Mksfs.setInode_same, Mksfs.setWord_inode, Mksfs.setWord_inode, Mksfs.setInode_same, hinode₃]
      rfl
    have hthere : i' ≠ i → 1036 + 1024 * i' < (m.inode f).appended.length := by
      rw [hi, hnblks]
      omega
    show m'.cache (m'.cache (m'.inode f).dbIndirect i') j' = _
    rw [hdb, Mksfs.setWord_numbers m₃ f _ _ ino hne hn hj' hle' ?_ ?_ (by rw [hm', hi, hnblks])]
    · split_ifs with hend
      · rfl
      · obtain ⟨-, hb₂, hwords', -⟩ := hway i' (by omega)
        rw [hb₂, hwords']
    · intro hlt hlast'
      obtain ⟨-, hb₂, -, hb₁⟩ := hway i' (by omega)
      rw [hb₂, ← hb₁ (by rw [hlast', hi, hnblks])]
    · intro hne'
      obtain ⟨hsub', hb₂, -, -⟩ := hway i' (hthere (by rwa [hi, hnblks]))
      rw [hb₂]
      refine ⟨ne_of_role hrole₃ ?_, ne_of_role hrole ?_⟩
      · rw [(hext.trans hext₃).role hsub' Role.noConfusion]
        exact fun heq => hne' (by rw [(Role.sub.inj heq).2, hi, hnblks])
      · rw [hext.role hsub' Role.noConfusion]
        exact Role.noConfusion

omit hsize in
/-- **`append_block`**, whatever way it ends. -/
theorem appendBlock_words : AppendWords ρ m f size ino ((appendBlock f size ino).run m) := by
  have hnblks := (h.files f hf).nblks
  rw [appendBlock, Prog.run_bind, Prog.run_assert]
  by_cases hsize : size ≤ 4096
  swap
  · rw [if_neg hsize]
    exact Or.inl ⟨rfl, by omega⟩
  rw [if_pos hsize, Outcome.andThen_ok, Prog.run_bind, Prog.run_get, Outcome.andThen_ok]
  simp only [Prog.run_ite]
  by_cases hbig : (m.inode f).nblks ≥ sfsLnNblks
  · rw [if_pos hbig]
    unfold sfsLnNblks at hbig
    exact Or.inr (Or.inl ⟨rfl, by omega⟩)
  rw [if_neg hbig]
  unfold sfsLnNblks at hbig
  by_cases hdirect : (m.inode f).nblks < 12
  · rw [if_pos hdirect]
    refine ⟨ρ, h.appendDirect hf hino hsize (by omega), fun _ _ => rfl,
      .push rfl rfl rfl rfl (Nat.le_refl _) (Nat.le_add_right _ _) (fun g hg => Mksfs.setInode_of_ne _ _ hg) ?_,
      fun _ _ _ _ _ => rfl, fun i j hj hle => by omega⟩
    rw [Mksfs.setInode_same]
    exact ⟨rfl, rfl, rfl, rfl, rfl, rfl⟩
  rw [if_neg hdirect]
  by_cases hindirect : (m.inode f).nblks < 1036
  · rw [if_pos hindirect]
    exact appendL1_words h hf hino hsize (by omega) (by omega)
  · rw [if_neg hindirect]
    exact appendL2_words h hf hino hsize (by omega) (by omega)

omit hsize in
theorem appendBlock_post : AppendPost ρ m f size ino ((appendBlock f size ino).run m) :=
  (appendBlock_words h hf hino).mono (fun _ _ ⟨ρ', hinv, hext, happ, _⟩ => ⟨ρ', hinv, hext, happ⟩) (fun _ _ hE => hE) fun _ hP => hP

end post

end append

end Ucore.Tools
