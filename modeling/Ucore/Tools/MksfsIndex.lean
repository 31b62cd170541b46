import Ucore.Tools.MksfsImage

/-!
# The block numbers of a file

`append_block` puts the number of a block into the inode of a file, into its indirect block, or into a block whose number is in its
doubly indirect block. The last two are made when they are needed, and kept in memory until the end.

* `Mksfs.follow` is the way from an inode to the number of a block, in memory, and `followImage` the same way on the image.
* `AppendRun` are the runs: inodes are made, blocks handed out and written, and appended to any file in any order.
* `append_tree`: the way leads to the block that `append_block` has been called with, the blocks on the way are different from each other
  and from those of the files, and `update_cache` always has the block that it asks for.
-/

namespace Ucore.Tools

open Ucore.Lib Ucore.Fs

variable {ρ ρ' : ℕ → Role} {m m' : Mksfs} {f g b : ℕ} {pool : List ℕ} {calls : List (ℕ × ℕ)} {img : ℕ → Block} {nblocks : ℕ}

/-! ### From an inode to a block -/

/-- The number of the block at an index of a file. -/
def Mksfs.follow (m : Mksfs) (f k : ℕ) : ℕ :=
  if k < 12 then (m.inode f).direct k
  else if k < 1036 then m.cache (m.inode f).indirect (k - 12)
  else m.cache (m.cache (m.inode f).dbIndirect ((k - 1036) / 1024)) ((k - 1036) % 1024)

/-- The same on an image: the block numbers are the words of the inode from 3 on. -/
def followImage (img : ℕ → Block) (f k : ℕ) : ℕ :=
  if k < 12 then (img f).word (3 + k)
  else if k < 1036 then (img ((img f).word 15)).word (k - 12)
  else (img ((img ((img f).word 16)).word ((k - 1036) / 1024))).word ((k - 1036) % 1024)

/-- The blocks of block numbers that a file can have. -/
inductive IndexPos where
  | indirect
  | dbIndirect
  | sub (i : ℕ)
  deriving DecidableEq

/-- A block of block numbers of a file, if it has it. -/
def Mksfs.indexBlock (m : Mksfs) (f : ℕ) : IndexPos → Option ℕ
  | .indirect => if (m.inode f).indirect = 0 then none else some (m.inode f).indirect
  | .dbIndirect => if (m.inode f).dbIndirect = 0 then none else some (m.inode f).dbIndirect
  | .sub i =>
    if (m.inode f).dbIndirect = 0 ∨ m.cache (m.inode f).dbIndirect i = 0 then none else some (m.cache (m.inode f).dbIndirect i)

/-! ### Runs -/

/-- The runs: `pool` are the blocks that have been handed out and are in no file yet, and `calls` the calls of `append_block`, with the
file and the block. -/
inductive AppendRun (img : ℕ → Block) (nblocks : ℕ) : List ℕ → List (ℕ × ℕ) → Mksfs → Prop where
  | start {m : Mksfs} (h : createSfs.run (Mksfs.init img nblocks) = .ok () m) : AppendRun img nblocks [] [] m
  | inode {pool : List ℕ} {calls : List (ℕ × ℕ)} {m m' : Mksfs} (real f : ℕ) (type : SfsType) (h : AppendRun img nblocks pool calls m)
    (hrun : (allocCacheInode real 0 type).run m = .ok f m') : AppendRun img nblocks pool calls m'
  | alloc {pool : List ℕ} {calls : List (ℕ × ℕ)} {m m' : Mksfs} (b : ℕ) (h : AppendRun img nblocks pool calls m)
    (hrun : sfsAllocIno.run m = .ok b m') : AppendRun img nblocks (b :: pool) calls m'
  | write {pool : List ℕ} {calls : List (ℕ × ℕ)} {m m' : Mksfs} (data : ℕ → UInt8) (len b : ℕ) (h : AppendRun img nblocks pool calls m)
    (hrun : (writeBlock data len b).run m = .ok () m') : AppendRun img nblocks pool calls m'
  | append {pool : List ℕ} {calls : List (ℕ × ℕ)} {m m' : Mksfs} (f size b : ℕ) (h : AppendRun img nblocks pool calls m)
    (hf : f ∈ m.inos) (hb : b ∈ pool) (hrun : (appendBlock f size b).run m = .ok () m') :
    AppendRun img nblocks (pool.erase b) (calls ++ [(f, b)]) m'

/-- The blocks that `append_block` has been called with for a file. -/
def callsOf (calls : List (ℕ × ℕ)) (f : ℕ) : List ℕ := (calls.filter fun c => c.1 = f).map Prod.snd

theorem callsOf_concat (calls : List (ℕ × ℕ)) (f g b : ℕ) :
    callsOf (calls ++ [(f, b)]) g = if g = f then callsOf calls g ++ [b] else callsOf calls g := by
  unfold callsOf
  rw [List.filter_append, List.map_append, List.filter_singleton]
  by_cases h : g = f
  · simp [h]
  · simp [h, Ne.symm h]

/-! ### The third level -/

/-- The block numbers from 1036 on. -/
def SubWords (cache : ℕ → ℕ → ℕ) (d : CacheInode) : Prop :=
  ∀ i j, j < 1024 → 1036 + 1024 * i + j < d.appended.length →
    cache (cache d.dbIndirect i) j = d.appended.getD (1036 + 1024 * i + j) 0

/-- They are in blocks of the file. -/
theorem SubWords.frame {cache cache' : ℕ → ℕ → ℕ} {d : CacheInode} (h : SubWords cache d) (hfile : FileInv ρ cache f d)
    (hdbl : ∀ b, ρ b = .dbl f → cache' b = cache b) (hsub : ∀ b i, ρ b = .sub f i → cache' b = cache b) : SubWords cache' d := by
  intro i j hj hlt
  rcases hfile.dbl with ⟨-, hle⟩ | ⟨-, hr, -, hall⟩
  · omega
  · have hi := hall i
    rw [if_pos (by omega)] at hi
    rw [hdbl _ hr, hsub _ i hi]
    exact h i j hj hlt

/-- The block numbers from 1036 on, when a block has been appended to the file `f`. -/
theorem SubWords.appended (hfiles : ∀ g ∈ m.inos, SubWords m.cache (m.inode g)) (h : MkInv ρ m) {size : ℕ}
    (happ : AppendedTo m m' f size b) (hwords : WordsAppended ρ m m' f b) : ∀ g ∈ m'.inos, SubWords m'.cache (m'.inode g) := by
  intro g hg
  rw [happ.inos] at hg
  by_cases heq : g = f
  · intro i j hj hlt
    rw [heq, happ.appended, List.length_append, List.length_singleton] at hlt
    rw [heq, hwords.sub i j hj (Nat.le_of_lt_succ hlt), happ.appended, getD_concat]
    by_cases hlast : 1036 + 1024 * i + j = (m.inode f).appended.length
    · rw [if_pos hlast, if_pos hlast]
    · rw [if_neg hlast, if_neg hlast]
      exact hfiles f (heq ▸ hg) i j hj (by omega)
  · rw [happ.other g heq]
    refine (hfiles g hg).frame (h.files g hg) (fun b' hb' => ?_) fun b' i hb' => ?_
    · refine hwords.other b' ?_ ?_ ?_ fun i => ?_
      all_goals rw [hb']
      · exact Role.noConfusion
      · exact Role.noConfusion
      · exact fun hr => heq (Role.dbl.inj hr)
      · exact Role.noConfusion
    · refine hwords.other b' ?_ ?_ ?_ fun i' => ?_
      all_goals rw [hb']
      · exact Role.noConfusion
      · exact Role.noConfusion
      · exact Role.noConfusion
      · exact fun hr => heq (Role.sub.inj hr).1

/-! ### Blocks that are in no file yet -/

/-- A block gets another role, which no file has had a use for. -/
theorem FileInv.retag {cache : ℕ → ℕ → ℕ} {d : CacheInode} {r : Role} (h : FileInv ρ cache f d) (hf : f ≠ 0) (hb : ρ b = .data 0 b) :
    FileInv (Function.update ρ b r) cache f d := by
  have hrole : ∀ {x r'}, ρ x = r' → r' ≠ .data 0 b → Function.update ρ b r x = r' := by
    intro x r' hx hr'
    rw [Function.update_of_ne (ne_of_role hb (by rw [hx]; exact hr')), hx]
  refine { h with data := fun k hk => hrole (h.data k hk) fun heq => hf (Role.data.inj heq).1, ind := fun hn => ?_, dbl := ?_ }
  · obtain ⟨hr, hwords⟩ := h.ind hn
    exact ⟨hrole hr Role.noConfusion, hwords⟩
  · rcases h.dbl with hzero | ⟨hn, hr, hl2, hsub⟩
    · exact Or.inl hzero
    · refine Or.inr ⟨hn, hrole hr Role.noConfusion, hl2, fun i => ?_⟩
      have hi := hsub i
      split_ifs at hi ⊢
      · exact hrole hi Role.noConfusion
      · exact hi

/-- A block that has been handed out goes to a file. -/
theorem MkInv.retag (h : MkInv ρ m) (hb : ρ b = .data 0 b) (f k : ℕ) : MkInv (Function.update ρ b (.data f k)) m := by
  have hother : ∀ x, x ≠ b → Function.update ρ b (.data f k) x = ρ x := fun x hx => Function.update_of_ne hx _ _
  refine ⟨h.ninos_le, h.next_le, h.start_le, h.unused, fun x hx => ?_, fun x => ?_, fun x => ?_, h.bucket, fun g hg => ?_⟩
  · by_cases heq : x = b
    · refine h.role x ?_
      rw [heq, hb]
      exact Role.noConfusion
    · rw [hother x heq] at hx
      exact h.role x hx
  · by_cases heq : x = b
    · rw [h.inos, heq, hb, Function.update_self]
      simp
    · rw [h.inos, hother x heq]
  · by_cases heq : x = b
    · rw [h.cached, heq, hb, Function.update_self]
      rfl
    · rw [h.cached, hother x heq]
  · refine (h.files g hg).retag ?_ hb
    exact h.pos (h.role_ino hg)

/-- The invariant of the runs. -/
structure AppendInv (ρ : ℕ → Role) (pool : List ℕ) (calls : List (ℕ × ℕ)) (m : Mksfs) : Prop where
  inv : MkInv ρ m
  nodup : pool.Nodup
  pool : ∀ b ∈ pool, ρ b = .data 0 b
  called : ∀ c ∈ calls, c.1 ∈ m.inos
  log : ∀ f ∈ m.inos, (m.inode f).appended = callsOf calls f
  sub : ∀ f ∈ m.inos, SubWords m.cache (m.inode f)

theorem allocCacheInode_cache {real : ℕ} {type : SfsType} (h : (allocCacheInode real 0 type).run m = .ok f m') :
    m'.cache = m.cache := by
  simp only [allocCacheInode, Prog.run_bind, ne_eq, not_true, if_false, sfsAllocIno_run] at h
  by_cases hlt : m.nextIno < m.ninos
  · rw [if_pos hlt] at h
    cases h
    rfl
  · rw [if_neg hlt] at h
    cases h

theorem AppendInv.start (h : createSfs.run (Mksfs.init img nblocks) = .ok () m) : ∃ ρ, AppendInv ρ [] [] m := by
  rw [createSfs_run] at h
  split_ifs at h with hlt
  cases h
  obtain ⟨⟨ρ, hinv⟩, -⟩ := Mksfs.created_ok hlt
  have hempty : ∀ f ∈ (Mksfs.created img nblocks).inos, ((Mksfs.created img nblocks).inode f).appended = [] := by
    intro f hf
    rw [List.mem_singleton.mp hf, Mksfs.created_root]
  refine ⟨ρ, hinv, List.nodup_nil, fun b hb => absurd hb List.not_mem_nil, fun c hc => absurd hc List.not_mem_nil, hempty,
    fun f hf i j _ hlt' => ?_⟩
  rw [hempty f hf] at hlt'
  exact absurd hlt' (Nat.not_lt_zero _)

/-- An inode without blocks. -/
theorem AppendInv.inode (h : AppendInv ρ pool calls m) {real : ℕ} {type : SfsType}
    (hrun : (allocCacheInode real 0 type).run m = .ok f m') : ∃ ρ', AppendInv ρ' pool calls m' := by
  have hpost := allocCacheInode_post h.inv real type
  rw [hrun] at hpost
  obtain ⟨rfl, hinv', hnew⟩ := hpost
  have hcache := allocCacheInode_cache hrun
  have hfresh : m.nextIno ∉ m.inos := fun hmem => absurd (h.inv.ino_lt hmem) (Nat.lt_irrefl _)
  have hcalls : callsOf calls m.nextIno = [] := by
    unfold callsOf
    rw [List.filter_eq_nil_iff.mpr, List.map_nil]
    exact fun c hc heq => hfresh (of_decide_eq_true heq ▸ h.called c hc)
  refine ⟨_, hinv', h.nodup, fun b hb => ?_, fun c hc => ?_, fun f hf => ?_, fun f hf => ?_⟩
  · have hrole := h.pool b hb
    refine (h.inv.extends_next _).role hrole Role.noConfusion
  · rw [hnew.inos]
    exact List.mem_cons_of_mem _ (h.called c hc)
  · rw [hnew.inos] at hf
    rcases List.mem_cons.mp hf with rfl | hf
    · rw [hnew.new, hcalls]
    · rw [hnew.other f fun heq => hfresh (heq ▸ hf)]
      exact h.log f hf
  · rw [hcache]
    rw [hnew.inos] at hf
    rcases List.mem_cons.mp hf with rfl | hf
    · rw [hnew.new]
      exact fun i j _ hlt => absurd hlt (Nat.not_lt_zero _)
    · rw [hnew.other f fun heq => hfresh (heq ▸ hf)]
      exact h.sub f hf

/-- A block is handed out. -/
theorem AppendInv.alloc (h : AppendInv ρ pool calls m) (hrun : sfsAllocIno.run m = .ok b m') :
    ∃ ρ', AppendInv ρ' (b :: pool) calls m' := by
  rw [sfsAllocIno_run] at hrun
  split_ifs at hrun with hlt
  cases hrun
  have hfresh : m.nextIno ∉ pool := by
    intro hmem
    have hrole := h.pool _ hmem
    rw [h.inv.role_next] at hrole
    cases hrole
  refine ⟨_, h.inv.alloc hlt 0 m.nextIno, List.nodup_cons.mpr ⟨hfresh, h.nodup⟩, fun b hb => ?_, h.called, h.log, h.sub⟩
  rcases List.mem_cons.mp hb with rfl | hb
  · exact Function.update_self _ _ _
  · exact (h.inv.extends_next _).role (h.pool b hb) Role.noConfusion

/-- A block of the image is written. -/
theorem AppendInv.write (h : AppendInv ρ pool calls m) {data : ℕ → UInt8} {len : ℕ}
    (hrun : (writeBlock data len b).run m = .ok () m') : AppendInv ρ pool calls m' := by
  unfold writeBlock at hrun
  obtain ⟨s, s₁, hget, hrun⟩ := Prog.bind_eq_ok.mp hrun
  cases hget
  rw [Prog.assert_bind_eq_ok] at hrun
  obtain ⟨-, hrun⟩ := hrun
  cases hrun
  obtain ⟨h₁, h₂, h₃, h₄, h₅, h₆, h₇, h₈, h₉⟩ := h.inv
  exact ⟨⟨h₁, h₂, h₃, h₄, h₅, h₆, h₇, h₈, h₉⟩, h.nodup, h.pool, h.called, h.log, h.sub⟩

/-- **`append_block`** with a block that has been handed out. -/
theorem AppendInv.append (h : AppendInv ρ pool calls m) (hf : f ∈ m.inos) (hb : b ∈ pool) (size : ℕ) :
    ((appendBlock f size b).run m).Post (fun _ m' => ∃ ρ', AppendInv ρ' (pool.erase b) (calls ++ [(f, b)]) m') (fun _ _ => False)
      fun p => p = .appendSize ∧ 4096 < size ∨ p = .tooBig ∧ 32768 ≤ (m.inode f).appended.length ∨
        p = .outOfSpace ∧ m.ninos < m.nextIno + 2 := by
  have hinv := h.inv.retag (h.pool b hb) f (m.inode f).appended.length
  refine Outcome.Post.mono (appendBlock_words hinv hf (Function.update_self _ _ _)) ?_ (fun _ _ hE => hE) fun _ hP => hP
  rintro _ m' ⟨ρ', hinv', hext, happ, hwords⟩
  refine ⟨ρ', hinv', h.nodup.erase b, fun b' hb' => ?_, fun c hc => ?_, fun g hg => ?_, SubWords.appended h.sub hinv happ hwords⟩
  · obtain ⟨hne, hmem⟩ := (h.nodup.mem_erase_iff).mp hb'
    refine hext.role ?_ Role.noConfusion
    rw [Function.update_of_ne hne]
    exact h.pool b' hmem
  · rw [happ.inos]
    rcases List.mem_append.mp hc with hc | hc
    · exact h.called c hc
    · rw [List.mem_singleton.mp hc]
      exact hf
  · rw [happ.inos] at hg
    rw [callsOf_concat]
    by_cases heq : g = f
    · rw [if_pos heq, heq, happ.appended, h.log f hf]
    · rw [if_neg heq, happ.other g heq]
      exact h.log g hg

theorem AppendRun.inv (h : AppendRun img nblocks pool calls m) : ∃ ρ, AppendInv ρ pool calls m := by
  induction h with
  | start hrun => exact AppendInv.start hrun
  | inode real f type h hrun ih =>
    obtain ⟨ρ, hinv⟩ := ih
    exact hinv.inode hrun
  | alloc b h hrun ih =>
    obtain ⟨ρ, hinv⟩ := ih
    exact hinv.alloc hrun
  | write data len b h hrun ih =>
    obtain ⟨ρ, hinv⟩ := ih
    exact ⟨ρ, hinv.write hrun⟩
  | append f size b h hf hb hrun ih =>
    obtain ⟨ρ, hinv⟩ := ih
    have hpost := hinv.append hf hb size
    rw [hrun] at hpost
    exact hpost

/-! ### The way to a block -/

theorem AppendInv.follow (h : AppendInv ρ pool calls m) (hf : f ∈ m.inos) {k : ℕ} (hk : k < (m.inode f).appended.length) :
    m.follow f k = (m.inode f).appended.getD k 0 := by
  have hfile := h.inv.files f hf
  unfold Mksfs.follow
  split_ifs with hdirect hindirect
  · exact hfile.direct k hdirect
  · have hlt : k - 12 < 1024 := by omega
    rw [(hfile.ind (by omega)).2 (k - 12) hlt, Nat.add_sub_cancel' (Nat.le_of_not_lt hdirect)]
  · have hindex : 1036 + 1024 * ((k - 1036) / 1024) + (k - 1036) % 1024 = k := by omega
    rw [h.sub f hf _ _ (Nat.mod_lt _ (by omega)) (by rw [hindex]; exact hk), hindex]

/-- What a block of block numbers is used for. -/
def indexRole (f : ℕ) : IndexPos → Role
  | .indirect => .ind f
  | .dbIndirect => .dbl f
  | .sub i => .sub f i

theorem indexRole_inj {p q : IndexPos} (h : indexRole f p = indexRole g q) : f = g ∧ p = q := by
  cases p <;> cases q <;> cases h <;> exact ⟨rfl, rfl⟩

theorem indexRole_ne_data (f g k : ℕ) (p : IndexPos) : indexRole f p ≠ .data g k := by
  cases p <;> exact Role.noConfusion

theorem AppendInv.indexBlock (h : AppendInv ρ pool calls m) (hf : f ∈ m.inos) {p : IndexPos} (hb : m.indexBlock f p = some b) :
    ρ b = indexRole f p := by
  have hfile := h.inv.files f hf
  cases p with
  | indirect =>
    simp only [Mksfs.indexBlock] at hb
    split_ifs at hb with hzero
    cases hb
    refine (hfile.ind ?_).1
    by_contra hle
    exact hzero (hfile.ind_zero (Nat.le_of_not_lt hle))
  | dbIndirect =>
    simp only [Mksfs.indexBlock] at hb
    split_ifs at hb with hzero
    cases hb
    rcases hfile.dbl with ⟨hzero', -⟩ | ⟨-, hr, -⟩
    · exact absurd hzero' hzero
    · exact hr
  | sub i =>
    simp only [Mksfs.indexBlock] at hb
    split_ifs at hb with hzero
    cases hb
    obtain ⟨hdb, hword⟩ := not_or.mp hzero
    rcases hfile.dbl with ⟨hzero', -⟩ | ⟨-, -, -, hall⟩
    · exact absurd hzero' hdb
    · have hi := hall i
      split_ifs at hi with hlt
      · exact hi
      · exact absurd hi hword

/-- The blocks that have been appended are data. -/
theorem AppendInv.calls_data (h : AppendInv ρ pool calls m) (hb : b ∈ calls.map Prod.snd) : ∃ f k, ρ b = .data f k := by
  obtain ⟨⟨f, b'⟩, hc, rfl⟩ := List.mem_map.mp hb
  have hf := h.called _ hc
  have hmem : b' ∈ (m.inode f).appended := by
    rw [h.log f hf]
    exact List.mem_map.mpr ⟨(f, b'), List.mem_filter.mpr ⟨hc, decide_eq_true rfl⟩, rfl⟩
  obtain ⟨k, hk, hget⟩ := List.getElem_of_mem hmem
  refine ⟨f, k, ?_⟩
  rw [← hget, ← List.getD_eq_getElem _ 0 hk]
  exact (h.inv.files f hf).data k hk

/-! ### On the image -/

theorem MkInv.word_cached (h : MkInv ρ m) (hb : (ρ b).Cache) {j : ℕ} (hj : j < 1024) : (m.image b).word j = m.cache b j % 2 ^ 32 := by
  rw [h.image_cached hb, Block.word_cut _ (by omega), word_wordsBlock]

theorem MkInv.lt_word (h : MkInv ρ m) (hb : ρ b ≠ .free) : b % 2 ^ 32 = b := by
  have hnext := h.lt_next hb
  have hninos := h.ninos_le
  have hle := h.next_le
  exact Nat.mod_eq_of_lt (by omega)

/-- The way on the image is the way in memory. -/
theorem AppendInv.followImage (h : AppendInv ρ pool calls m) (hf : f ∈ m.inos) {k : ℕ} (hk : k < (m.inode f).appended.length) :
    Tools.followImage m.image f k = m.follow f k := by
  have hfile := h.inv.files f hf
  have hdata := h.follow hf hk
  have hword : m.follow f k % 2 ^ 32 = m.follow f k := by
    rw [hdata]
    refine h.inv.lt_word ?_
    rw [hfile.data k hk]
    exact Role.noConfusion
  unfold Tools.followImage
  unfold Mksfs.follow at hword ⊢
  split_ifs at hword ⊢ with hdirect hindirect
  · rw [h.inv.word_inode hf (by omega)]
    have hwords : (m.inode f).words (3 + k) = (m.inode f).direct k := by
      rw [Nat.add_comm]
      exact if_pos hdirect
    rw [hwords, hword]
  · obtain ⟨hr, -⟩ := hfile.ind (by omega)
    have hne : ρ (m.inode f).indirect ≠ .free := by
      rw [hr]
      exact Role.noConfusion
    have hcache : (ρ (m.inode f).indirect).Cache := by
      rw [hr]
      trivial
    have hptr : (m.image f).word 15 = (m.inode f).indirect := by
      rw [h.inv.word_inode hf (by omega)]
      exact h.inv.lt_word hne
    rw [hptr, h.inv.word_cached hcache (by omega), hword]
  · rcases hfile.dbl with ⟨-, hle⟩ | ⟨-, hr, -, hall⟩
    · omega
    have hi := hall ((k - 1036) / 1024)
    rw [if_pos (by omega)] at hi
    have hne : ρ (m.inode f).dbIndirect ≠ .free := by
      rw [hr]
      exact Role.noConfusion
    have hne' : ρ (m.cache (m.inode f).dbIndirect ((k - 1036) / 1024)) ≠ .free := by
      rw [hi]
      exact Role.noConfusion
    have hcache : (ρ (m.inode f).dbIndirect).Cache := by
      rw [hr]
      trivial
    have hcache' : (ρ (m.cache (m.inode f).dbIndirect ((k - 1036) / 1024))).Cache := by
      rw [hi]
      trivial
    have hptr : (m.image f).word 16 = (m.inode f).dbIndirect := by
      rw [h.inv.word_inode hf (by omega)]
      exact h.inv.lt_word hne
    have hlen := hfile.length_le
    rw [hptr, h.inv.word_cached hcache (by omega), h.inv.lt_word hne', h.inv.word_cached hcache' (Nat.mod_lt _ (by omega)), hword]

/-- **The trees of blocks**: in every run, the way from an inode leads to the blocks that `append_block` has been called with, in memory
and on the image that `close_sfs` leaves. The blocks of block numbers are different from each other and from all blocks of files. The
next call of `append_block` goes well if the file may have one more block and two more blocks can be handed out, and the assertion of
`update_cache` never fails. -/
theorem append_tree (h : AppendRun img nblocks pool calls m) :
    (∀ f ∈ m.inos, (m.inode f).nblks = (callsOf calls f).length ∧
      ∀ k < (m.inode f).nblks, m.follow f k = (callsOf calls f).getD k 0) ∧
    (∃ m', closeSfs.run m = .ok () m' ∧
      ∀ f ∈ m.inos, ∀ k < (m.inode f).nblks, followImage m'.img f k = (callsOf calls f).getD k 0) ∧
    (∀ f ∈ m.inos, ∀ p b, m.indexBlock f p = some b → b ∉ calls.map Prod.snd ∧ b ∉ pool ∧
      ∀ g ∈ m.inos, ∀ q, m.indexBlock g q = some b → f = g ∧ p = q) ∧
    ∀ f ∈ m.inos, ∀ b ∈ pool, ∀ size, (appendBlock f size b).run m ≠ .panic .updateCache ∧
      (size ≤ 4096 → (m.inode f).nblks < sfsLnNblks → m.nextIno + 2 ≤ m.ninos → ∃ m', (appendBlock f size b).run m = .ok () m') := by
  obtain ⟨ρ, hinv⟩ := h.inv
  refine ⟨fun f hf => ?_, ⟨_, closeSfs_run hinv.inv, fun f hf k hk => ?_⟩, fun f hf p b hb => ?_, fun f hf b hb size => ?_⟩
  · rw [(hinv.inv.files f hf).nblks, ← hinv.log f hf]
    exact ⟨rfl, fun k hk => hinv.follow hf hk⟩
  · rw [(hinv.inv.files f hf).nblks] at hk
    rw [← hinv.log f hf]
    exact (hinv.followImage hf hk).trans (hinv.follow hf hk)
  · have hrole := hinv.indexBlock hf hb
    refine ⟨fun hmem => ?_, fun hmem => ?_, fun g hg q hq => ?_⟩
    · obtain ⟨g, k, hdata⟩ := hinv.calls_data hmem
      rw [hrole] at hdata
      exact indexRole_ne_data f g k p hdata
    · have hdata := hinv.pool b hmem
      rw [hrole] at hdata
      exact indexRole_ne_data f 0 b p hdata
    · have hrole' := hinv.indexBlock hg hq
      rw [hrole] at hrole'
      exact indexRole_inj hrole'
  · have hpost := hinv.append hf hb size
    constructor
    · intro hpanic
      rw [hpanic] at hpost
      rcases hpost with ⟨hp, -⟩ | ⟨hp, -⟩ | ⟨hp, -⟩
      all_goals cases hp
    · intro hsize hlen hspace
      rw [(hinv.inv.files f hf).nblks] at hlen
      unfold sfsLnNblks at hlen
      cases hrun : (appendBlock f size b).run m with
      | ok r m' => exact ⟨m', rfl⟩
      | error e m' => exact e.elim
      | panic p =>
        rw [hrun] at hpost
        rcases hpost with ⟨-, hbad⟩ | ⟨-, hbad⟩ | ⟨-, hbad⟩
        all_goals omega

/-- The root directory gets its first block. -/
theorem append_tree_one : ∃ m, AppendRun (fun _ => zeroBlock) 64 [] [(1, 3)] m ∧ m.follow 1 0 = 3 := by
  have hstart : createSfs.run (Mksfs.init (fun _ => zeroBlock) 64) = .ok () (Mksfs.created (fun _ => zeroBlock) 64) := by
    rw [createSfs_run, if_pos (by decide)]
  have hrun : AppendRun (fun _ => zeroBlock) 64 [] [(1, 3)] _ :=
    ((AppendRun.start hstart).alloc 3 rfl).append 1 0 3 (List.mem_singleton_self 1) (List.mem_singleton_self 3) rfl
  obtain ⟨hnblks, hfollow⟩ := (append_tree hrun).1 1 (List.mem_singleton_self 1)
  refine ⟨_, hrun, hfollow 0 ?_⟩
  rw [hnblks]
  exact Nat.zero_lt_one

end Ucore.Tools
