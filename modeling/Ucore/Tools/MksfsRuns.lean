import Ucore.Fs.Dirent
import Ucore.Tools.MksfsBlocks

/-!
# Runs of the image builder

What the program has in its inodes and on the image while it walks over the tree.

* `storeBlock_post` and `addEntry_post` say what storing a block and adding an entry do.
* `MkDirs` is the invariant of directories: the blocks that have been appended to one hold its entries, of whose names
  the first 252 bytes are kept, and the number of links of an inode is the number of entries for it, modulo 65536.
* `MkStep` is one step of the program: a new inode, a block of a file, or an entry. `MkReach.ok` is the invariant of
  all runs.
-/

namespace Ucore.Tools

open Ucore.Lib Ucore.Fs Relation

variable {ρ ρ' : ℕ → Role} {m m' : Mksfs} {f : ℕ}

/-! ### Storing blocks -/

/-- A block `blk` has been stored at the end of the file `f`. -/
structure Stored (m m' : Mksfs) (f size : ℕ) (blk : Block) : Prop where
  ninos : m'.ninos = m.ninos
  img : m'.img = Function.update m.img m.nextIno blk
  inos : m'.inos = m.inos
  entryName : m'.entryName = m.entryName
  lt_next : m.nextIno < m'.nextIno
  next_le : m'.nextIno ≤ m.nextIno + 3
  other : ∀ g, g ≠ f → m'.inode g = m.inode g
  type : (m'.inode f).type = (m.inode f).type
  real : (m'.inode f).real = (m.inode f).real
  nlinks : (m'.inode f).nlinks = (m.inode f).nlinks
  entries : (m'.inode f).entries = (m.inode f).entries
  appended : (m'.inode f).appended = (m.inode f).appended ++ [m.nextIno]

theorem storeBlock_post (h : MkInv ρ m) (hf : f ∈ m.inos) (data : ℕ → UInt8) {len : ℕ} (hlen : len ≤ 4096) :
    ((storeBlock f data len).run m).Post
      (fun _ m' => ∃ ρ', MkInv ρ' m' ∧ Extends ρ ρ' ∧ Stored m m' f len fun k => if k < len then data k else 0)
      (fun _ _ => False)
      (fun p => p = .tooBig ∧ 32768 ≤ (m.inode f).appended.length ∨ p = .outOfSpace ∧ m.ninos < m.nextIno + 3) := by
  rw [storeBlock, Prog.run_bind, sfsAllocIno_run]
  by_cases hlt : m.nextIno < m.ninos
  swap
  · rw [if_neg hlt]
    exact Or.inr ⟨rfl, by omega⟩
  rw [if_pos hlt, Outcome.andThen_ok, writeBlock, Prog.run_bind]
  simp only [Prog.run_bind, Prog.run_get, Outcome.andThen_ok,
    Prog.run_assert_of _ _ (show len ≤ 4096 ∧ m.nextIno < m.alloc.ninos from ⟨hlen, hlt⟩), Prog.run_modify]
  have halloc := h.alloc hlt f (m.inode f).appended.length
  set m₁ : Mksfs := { m.alloc with img := Function.update m.alloc.img m.nextIno fun k => if k < len then data k else 0 }
    with hm₁
  have hinv₁ : MkInv (Function.update ρ m.nextIno (.data f (m.inode f).appended.length)) m₁ := by
    obtain ⟨h₁, h₂, h₃, h₄, h₅, h₆, h₇, h₈, h₉⟩ := halloc
    exact ⟨h₁, h₂, h₃, h₄, h₅, h₆, h₇, h₈, h₉⟩
  have hpost : AppendPost _ m₁ f len m.nextIno ((appendBlock f len m.nextIno).run m₁) :=
    appendBlock_post hinv₁ hf (Function.update_self _ _ _)
  refine Outcome.Post.mono hpost ?_ (fun _ _ hE => hE) ?_
  · rintro _ m' ⟨ρ', hinv', hext, happ⟩
    have h₁ := happ.le_next
    have h₂ := happ.next_le
    have hnext : m₁.nextIno = m.nextIno + 1 := rfl
    exact ⟨ρ', hinv', (h.extends_next _).trans hext, happ.ninos, happ.img, happ.inos, happ.entryName, by omega, by omega,
      happ.other, happ.type, happ.real, happ.nlinks, happ.entries, happ.appended⟩
  · rintro p (⟨-, hbad⟩ | ⟨rfl, hbig⟩ | ⟨rfl, hspace⟩)
    · omega
    · exact Or.inl ⟨rfl, hbig⟩
    · have hnext : m₁.nextIno = m.nextIno + 1 := rfl
      have hninos : m₁.ninos = m.ninos := rfl
      exact Or.inr ⟨rfl, by omega⟩

/-! ### Entries -/

/-- What the kernel reads from the block of an entry: of the name, 252 bytes are left. -/
theorem direntOf_entry {ino : ℕ} (hino : ino < 2 ^ 32) (buf : ℕ → UInt8) (name : CString) :
    direntOf (fun k => if k < 256 then entryBytes ino (strcpy buf name) k else 0) = ⟨ino, name.cut 252⟩ := by
  have hread : Block.read (fun k => if k < 256 then entryBytes ino (strcpy buf name) k else 0) 0 4 = putU32 ino := rfl
  have hname : CString.ofBuffer (fun k => if 4 + k < 256 then entryBytes ino (strcpy buf name) (4 + k) else 0) 255 =
      name.cut 252 := by
    refine CString.ofBuffer_of_strcpy (b := buf) (by omega) (fun k hk => ?_) fun k hk _ => if_neg (by omega)
    rw [if_pos (by omega), entryBytes, if_neg (by omega), Nat.add_sub_cancel_left]
  rw [direntOf, hname, Block.word]
  show Dirent.mk (getU32 (Block.read _ 0 4)) _ = _
  rw [hread, getU32_putU32 hino]

/-- The entry `name` for `f` has been added to the directory `c`. -/
structure Entered (m m' : Mksfs) (c f : ℕ) (name : CString) : Prop where
  dir : (m.inode c).type = .dir
  name_le : name.strlen ≤ 255
  ninos : m'.ninos = m.ninos
  inos : m'.inos = m.inos
  lt_next : m.nextIno < m'.nextIno
  next_le : m'.nextIno ≤ m.nextIno + 3
  img : ∃ blk, m'.img = Function.update m.img m.nextIno blk ∧ direntOf blk = ⟨f, name.cut 252⟩
  type : ∀ g, (m'.inode g).type = (m.inode g).type
  real : ∀ g, (m'.inode g).real = (m.inode g).real
  nlinks : ∀ g, (m'.inode g).nlinks = if g = f then ((m.inode g).nlinks + 1) % 65536 else (m.inode g).nlinks
  entries : ∀ g, (m'.inode g).entries = if g = c then (m.inode g).entries ++ [(f, name)] else (m.inode g).entries
  appended : ∀ g, (m'.inode g).appended =
    if g = c then (m.inode g).appended ++ [m.nextIno] else (m.inode g).appended

theorem MkInv.setNlinks (h : MkInv ρ m) (hf : f ∈ m.inos) {n : ℕ} (hn : n < 65536) :
    MkInv ρ (m.setInode f fun d => { d with nlinks := n }) := by
  refine h.setFile (f := f) ⟨rfl, rfl, rfl, rfl, rfl, rfl, rfl, rfl, fun g hg => Mksfs.setInode_of_ne _ _ hg⟩
    (fun _ _ _ _ => rfl) ?_
  rw [Mksfs.setInode_same, Mksfs.setInode_cache]
  exact (h.files f hf).setNlinks hn

theorem MkInv.setEntries (h : MkInv ρ m) (hf : f ∈ m.inos) (entries : List (ℕ × CString)) :
    MkInv ρ (m.setInode f fun d => { d with entries := entries }) := by
  refine h.setFile (f := f) ⟨rfl, rfl, rfl, rfl, rfl, rfl, rfl, rfl, fun g hg => Mksfs.setInode_of_ne _ _ hg⟩
    (fun _ _ _ _ => rfl) ?_
  rw [Mksfs.setInode_same, Mksfs.setInode_cache]
  exact (h.files f hf).setEntries entries

theorem MkInv.ino_lt (h : MkInv ρ m) (hf : f ∈ m.inos) : f < m.nextIno := by
  refine h.lt_next ?_
  rw [(h.inos f).mp hf]
  exact Role.noConfusion

/-- **`add_entry`**, whatever way it ends. -/
theorem addEntry_post (h : MkInv ρ m) {c : ℕ} (hc : c ∈ m.inos) (hf : f ∈ m.inos) (name : CString) :
    ((addEntry c f name).run m).Post (fun _ m' => ∃ ρ', MkInv ρ' m' ∧ Extends ρ ρ' ∧ Entered m m' c f name)
      (fun _ _ => False)
      (fun p => p = .entryType ∧ ¬ ((m.inode c).type = .dir ∧ name.strlen ≤ 255) ∨
        p = .tooBig ∧ 32768 ≤ (m.inode c).appended.length ∨ p = .outOfSpace ∧ m.ninos < m.nextIno + 3) := by
  rw [addEntry, Prog.run_bind, Prog.run_get, Outcome.andThen_ok, Prog.run_bind, Prog.run_assert]
  by_cases hok : (m.inode c).type = .dir ∧ name.strlen ≤ 255
  swap
  · rw [if_neg hok]
    exact Or.inl ⟨rfl, hok⟩
  rw [if_pos hok, Outcome.andThen_ok, Prog.run_bind, Prog.run_modify, Outcome.andThen_ok, Prog.run_bind, Prog.run_get,
    Outcome.andThen_ok]
  have hinv₀ : MkInv ρ { m with entryName := strcpy m.entryName name } := by
    obtain ⟨h₁, h₂, h₃, h₄, h₅, h₆, h₇, h₈, h₉⟩ := h
    exact ⟨h₁, h₂, h₃, h₄, h₅, h₆, h₇, h₈, h₉⟩
  refine ((storeBlock_post hinv₀ hc (entryBytes f (strcpy m.entryName name)) (by omega)).mono (fun _ _ hQ => hQ)
    (fun _ _ hE => hE) fun _ hP => Or.inr hP).bind ?_
  rintro _ m₁ ⟨ρ₁, hinv₁, hext, hstored⟩
  have hc₁ : c ∈ m₁.inos := by
    rw [hstored.inos]
    exact hc
  have hf₁ : f ∈ m₁.inos := by
    rw [hstored.inos]
    exact hf
  have hinv₂ := hinv₁.setEntries hc₁ ((m₁.inode c).entries ++ [(f, name)])
  have hmod : ∀ n, n % 65536 < 65536 := fun n => Nat.mod_lt _ (by omega)
  refine ⟨ρ₁, hinv₂.setNlinks hf₁ (hmod _), hext, ?_⟩
  have hlt : f < 2 ^ 32 := by
    have h₁ := h.ino_lt hf
    have h₂ := h.next_le
    have h₃ := h.ninos_le
    omega
  -- the inodes after the three changes
  have hinode : ∀ g, (((m₁.setInode c fun d => { d with entries := d.entries ++ [(f, name)] }).setInode f
      fun d => { d with nlinks := (d.nlinks + 1) % 65536 }).inode g) =
      { m₁.inode g with
        nlinks := if g = f then ((m₁.inode g).nlinks + 1) % 65536 else (m₁.inode g).nlinks
        entries := if g = c then (m₁.inode g).entries ++ [(f, name)] else (m₁.inode g).entries } := by
    intro g
    by_cases hgf : g = f
    · subst hgf
      rw [Mksfs.setInode_same, if_pos rfl]
      by_cases hgc : g = c
      · subst hgc
        rw [Mksfs.setInode_same, if_pos rfl]
      · rw [Mksfs.setInode_of_ne _ _ hgc, if_neg hgc]
    · rw [Mksfs.setInode_of_ne _ _ hgf, if_neg hgf]
      by_cases hgc : g = c
      · subst hgc
        rw [Mksfs.setInode_same, if_pos rfl]
      · rw [Mksfs.setInode_of_ne _ _ hgc, if_neg hgc]
  have hfields : ∀ g, (m₁.inode g).type = (m.inode g).type ∧ (m₁.inode g).real = (m.inode g).real ∧
      (m₁.inode g).nlinks = (m.inode g).nlinks ∧ (m₁.inode g).entries = (m.inode g).entries ∧
      (m₁.inode g).appended = if g = c then (m.inode g).appended ++ [m.nextIno] else (m.inode g).appended := by
    intro g
    by_cases hgc : g = c
    · subst hgc
      rw [if_pos rfl]
      exact ⟨hstored.type, hstored.real, hstored.nlinks, hstored.entries, hstored.appended⟩
    · rw [if_neg hgc, hstored.other g hgc]
      exact ⟨rfl, rfl, rfl, rfl, rfl⟩
  refine ⟨hok.1, hok.2, hstored.ninos, hstored.inos, hstored.lt_next, hstored.next_le,
    ⟨_, hstored.img, direntOf_entry hlt m.entryName name⟩, fun g => ?_, fun g => ?_, fun g => ?_, fun g => ?_, fun g => ?_⟩
  · rw [hinode]
    exact (hfields g).1
  · rw [hinode]
    exact (hfields g).2.1
  · rw [hinode]
    simp only
    rw [(hfields g).2.2.1]
  · rw [hinode]
    simp only
    rw [(hfields g).2.2.2.1]
  · rw [hinode]
    exact (hfields g).2.2.2.2

/-! ### New inodes -/

/-- The inode `m.nextIno` has been made. -/
structure NewInode (m m' : Mksfs) (real : ℕ) (type : SfsType) : Prop where
  ninos : m'.ninos = m.ninos
  img : m'.img = m.img
  inos : m'.inos = m.nextIno :: m.inos
  next : m'.nextIno = m.nextIno + 1
  other : ∀ g, g ≠ m.nextIno → m'.inode g = m.inode g
  new : m'.inode m.nextIno = ⟨0, type, 0, 0, fun _ => 0, 0, 0, real, 0, none, none, [], []⟩

theorem allocCacheInode_post (h : MkInv ρ m) (real : ℕ) (type : SfsType) :
    ((allocCacheInode real 0 type).run m).Post
      (fun f m' => f = m.nextIno ∧ MkInv (Function.update ρ m.nextIno .inode) m' ∧ NewInode m m' real type)
      (fun _ _ => False) (fun p => p = .outOfSpace ∧ m.ninos ≤ m.nextIno) := by
  simp only [allocCacheInode, Prog.run_bind, ne_eq, not_true, if_false, sfsAllocIno_run]
  by_cases hlt : m.nextIno < m.ninos
  swap
  · rw [if_neg hlt]
    exact ⟨rfl, by omega⟩
  rw [if_pos hlt]
  have hne : ∀ g ∈ m.inos, g ≠ m.nextIno := fun g hg => (h.ino_lt hg).ne
  refine ⟨rfl, h.grow hlt rfl rfl rfl (fun g => ?_) (fun b => ?_) h.bucket fun g hg => ?_, rfl, rfl, rfl, rfl,
    fun g hg => ?_, ?_⟩
  · simp only [Mksfs.alloc, List.mem_cons]
    tauto
  · simp [Mksfs.alloc, Role.Cache]
  · by_cases heq : g = m.nextIno
    · subst heq
      have hnew := Function.update_self m.nextIno
        (⟨0, type, 0, 0, fun _ => 0, 0, 0, real, 0, none, none, [], []⟩ : CacheInode) m.inode
      exact (congrArg (FileInv _ _ _) hnew).mpr (FileInv.empty type real)
    · have hg' : g ∈ m.inos := (List.mem_cons.mp hg).resolve_left heq
      have hold := Function.update_of_ne heq
        (⟨0, type, 0, 0, fun _ => 0, 0, 0, real, 0, none, none, [], []⟩ : CacheInode) m.inode
      exact (congrArg (FileInv _ _ _) hold).mpr
        ((h.files g hg').frame (h.extends_next _) (fun _ _ => rfl) fun _ _ => rfl)
  · exact Function.update_of_ne hg _ _
  · exact Function.update_self _ _ _

/-! ### Directories -/

/-- The number of entries for the inode `g`. -/
def Mksfs.links (m : Mksfs) (g : ℕ) : ℕ :=
  (m.inos.map fun d => (m.inode d).entries.countP fun e => e.1 = g).sum

/-- The invariant of directories. -/
structure MkDirs (m : Mksfs) : Prop where
  nodup : m.inos.Nodup
  root : 1 ∈ m.inos ∧ (m.inode 1).type = .dir
  type : ∀ g ∈ m.inos, (m.inode g).type ≠ .inval
  plain : ∀ g ∈ m.inos, (m.inode g).type ≠ .dir → (m.inode g).entries = []
  length : ∀ d ∈ m.inos, (m.inode d).type = .dir → (m.inode d).entries.length = (m.inode d).appended.length
  entry : ∀ d ∈ m.inos, (m.inode d).type = .dir → ∀ k e, (m.inode d).entries[k]? = some e →
    direntOf (m.img ((m.inode d).appended.getD k 0)) = ⟨e.1, e.2.cut 252⟩
  target : ∀ d ∈ m.inos, ∀ e ∈ (m.inode d).entries, e.1 ∈ m.inos ∧ e.2.strlen ≤ 255
  nlinks : ∀ g ∈ m.inos, (m.inode g).nlinks = m.links g % 65536

section dirs

/-- The blocks of files are older than the next one. -/
theorem MkInv.appended_lt (h : MkInv ρ m) (hf : f ∈ m.inos) {k : ℕ} (hk : k < (m.inode f).appended.length) :
    (m.inode f).appended.getD k 0 < m.nextIno := by
  refine h.lt_next ?_
  rw [(h.files f hf).data k hk]
  exact Role.noConfusion

/-- Entries of before are still there when the next block is written. -/
theorem MkDirs.entry_update (h : MkDirs m) (hinv : MkInv ρ m) {d : ℕ} (hd : d ∈ m.inos)
    (hdir : (m.inode d).type = .dir) (blk : Block) {k : ℕ} {e : ℕ × CString}
    (he : (m.inode d).entries[k]? = some e) :
    direntOf (Function.update m.img m.nextIno blk ((m.inode d).appended.getD k 0)) = ⟨e.1, e.2.cut 252⟩ := by
  have hk : k < (m.inode d).appended.length := by
    rw [← h.length d hd hdir]
    exact (List.getElem?_eq_some_iff.mp he).1
  rw [Function.update_of_ne (hinv.appended_lt hd hk).ne]
  exact h.entry d hd hdir k e he

theorem Mksfs.links_congr {g : ℕ} (hinos : m'.inos = m.inos)
    (hentries : ∀ d ∈ m.inos, (m'.inode d).entries = (m.inode d).entries) : m'.links g = m.links g := by
  rw [Mksfs.links, Mksfs.links, hinos]
  congr 1
  exact List.map_congr_left fun d hd => by rw [hentries d hd]

/-- Nobody has an entry for an inode that is not there. -/
theorem MkDirs.links_eq_zero (h : MkDirs m) {g : ℕ} (hg : g ∉ m.inos) : m.links g = 0 := by
  rw [Mksfs.links]
  refine List.sum_eq_zero_iff_forall_eq_nat.mpr fun n hn => ?_
  obtain ⟨d, hd, rfl⟩ := List.mem_map.mp hn
  rw [List.countP_eq_zero]
  intro e he heq
  have := (h.target d hd e he).1
  rw [of_decide_eq_true heq] at this
  exact hg this

/-- A block of a file that is no directory. -/
theorem MkDirs.stored (h : MkDirs m) (hinv : MkInv ρ m) (hplain : (m.inode f).type ≠ .dir) {len : ℕ} {blk : Block}
    (hstored : Stored m m' f len blk) : MkDirs m' := by
  have hfields : ∀ g, (m'.inode g).type = (m.inode g).type ∧ (m'.inode g).nlinks = (m.inode g).nlinks ∧
      (m'.inode g).entries = (m.inode g).entries ∧
      ((m.inode g).type = .dir → (m'.inode g).appended = (m.inode g).appended) := by
    intro g
    by_cases hgf : g = f
    · subst hgf
      exact ⟨hstored.type, hstored.nlinks, hstored.entries, fun hdir => absurd hdir hplain⟩
    · rw [hstored.other g hgf]
      exact ⟨rfl, rfl, rfl, fun _ => rfl⟩
  refine ⟨?_, ?_, ?_, ?_, ?_, ?_, ?_, ?_⟩
  · rw [hstored.inos]
    exact h.nodup
  · rw [hstored.inos, (hfields 1).1]
    exact h.root
  · intro g hg
    rw [hstored.inos] at hg
    rw [(hfields g).1]
    exact h.type g hg
  · intro g hg htype
    rw [hstored.inos] at hg
    rw [(hfields g).1] at htype
    rw [(hfields g).2.2.1]
    exact h.plain g hg htype
  · intro d hd hdir
    rw [hstored.inos] at hd
    rw [(hfields d).1] at hdir
    rw [(hfields d).2.2.1, (hfields d).2.2.2 hdir]
    exact h.length d hd hdir
  · intro d hd hdir k e he
    rw [hstored.inos] at hd
    rw [(hfields d).1] at hdir
    rw [(hfields d).2.2.1] at he
    rw [(hfields d).2.2.2 hdir, hstored.img]
    exact h.entry_update hinv hd hdir blk he
  · intro d hd e he
    rw [hstored.inos] at hd ⊢
    rw [(hfields d).2.2.1] at he
    exact h.target d hd e he
  · intro g hg
    rw [hstored.inos] at hg
    rw [(hfields g).2.1, Mksfs.links_congr hstored.inos fun d _ => (hfields d).2.2.1]
    exact h.nlinks g hg

theorem NewInode.links {real : ℕ} {type : SfsType} (hnew : NewInode m m' real type) (hinv : MkInv ρ m) (g : ℕ) :
    m'.links g = m.links g := by
  rw [Mksfs.links, hnew.inos, List.map_cons, List.sum_cons, hnew.new, Mksfs.links]
  simp only [List.countP_nil, Nat.zero_add]
  congr 1
  exact List.map_congr_left fun d hd => by rw [hnew.other d (hinv.ino_lt hd).ne]

theorem MkDirs.newInode (h : MkDirs m) (hinv : MkInv ρ m) {real : ℕ} {type : SfsType} (htype : type ≠ .inval)
    (hnew : NewInode m m' real type) : MkDirs m' := by
  have hne : ∀ g ∈ m.inos, g ≠ m.nextIno := fun g hg => (hinv.ino_lt hg).ne
  have hfresh : m.nextIno ∉ m.inos := fun hmem => hne _ hmem rfl
  have hold : ∀ g ∈ m.inos, m'.inode g = m.inode g := fun g hg => hnew.other g (hne g hg)
  have hlinks : ∀ g, m'.links g = m.links g := hnew.links hinv
  have hcases : ∀ g ∈ m'.inos, g = m.nextIno ∨ g ∈ m.inos := by
    intro g hg
    rw [hnew.inos] at hg
    exact List.mem_cons.mp hg
  refine ⟨?_, ?_, ?_, ?_, ?_, ?_, ?_, ?_⟩
  · rw [hnew.inos]
    exact List.nodup_cons.mpr ⟨hfresh, h.nodup⟩
  · refine ⟨by rw [hnew.inos]; exact List.mem_cons_of_mem _ h.root.1, ?_⟩
    rw [hold 1 h.root.1]
    exact h.root.2
  · intro g hg
    rcases hcases g hg with rfl | hg'
    · rw [hnew.new]
      exact htype
    · rw [hold g hg']
      exact h.type g hg'
  · intro g hg
    rcases hcases g hg with rfl | hg'
    · rw [hnew.new]
      exact fun _ => rfl
    · rw [hold g hg']
      exact h.plain g hg'
  · intro g hg
    rcases hcases g hg with rfl | hg'
    · rw [hnew.new]
      exact fun _ => rfl
    · rw [hold g hg']
      exact h.length g hg'
  · intro g hg
    rcases hcases g hg with rfl | hg'
    · rw [hnew.new]
      intro _ k e he
      cases he
    · rw [hold g hg', hnew.img]
      exact h.entry g hg'
  · intro g hg e he
    rw [hnew.inos]
    rcases hcases g hg with rfl | hg'
    · rw [hnew.new] at he
      cases he
    · rw [hold g hg'] at he
      obtain ⟨hmem, hlen⟩ := h.target g hg' e he
      exact ⟨List.mem_cons_of_mem _ hmem, hlen⟩
  · intro g hg
    rw [hlinks]
    rcases hcases g hg with rfl | hg'
    · rw [hnew.new, h.links_eq_zero hfresh]
    · rw [hold g hg']
      exact h.nlinks g hg'

/-- One summand of a list without repetitions has grown. -/
theorem sum_map_add {F F' : ℕ → ℕ} {c n : ℕ} {l : List ℕ} (hnodup : l.Nodup) (hc : c ∈ l) (hgrown : F' c = F c + n)
    (hother : ∀ d, d ≠ c → F' d = F d) : (l.map F').sum = (l.map F).sum + n := by
  induction l with
  | nil => exact absurd hc List.not_mem_nil
  | cons d l ih =>
    obtain ⟨hd, hl⟩ := List.nodup_cons.mp hnodup
    rw [List.map_cons, List.map_cons, List.sum_cons, List.sum_cons]
    rcases List.mem_cons.mp hc with rfl | hmem
    · have hrest : l.map F' = l.map F := List.map_congr_left fun e he => hother e fun heq => hd (heq ▸ he)
      rw [hrest, hgrown]
      omega
    · rw [ih hl hmem, hother d fun heq => hd (heq ▸ hmem)]
      omega

/-- An entry more for `f`. -/
theorem MkDirs.links_entered (h : MkDirs m) {c : ℕ} (hc : c ∈ m.inos) {name : CString}
    (hent : Entered m m' c f name) (g : ℕ) : m'.links g = m.links g + if g = f then 1 else 0 := by
  rw [Mksfs.links, hent.inos, Mksfs.links]
  refine sum_map_add h.nodup hc ?_ fun d hd => ?_
  · rw [hent.entries, if_pos rfl, List.countP_append, List.countP_singleton]
    congr 1
    by_cases heq : f = g
    · simp [heq]
    · simp [heq, Ne.symm heq]
  · rw [hent.entries, if_neg hd]

/-- An entry of a directory. -/
theorem MkDirs.entered (h : MkDirs m) (hinv : MkInv ρ m) {c : ℕ} (hc : c ∈ m.inos) (hf : f ∈ m.inos) {name : CString}
    (hent : Entered m m' c f name) : MkDirs m' := by
  refine ⟨?_, ?_, ?_, ?_, ?_, ?_, ?_, ?_⟩
  · rw [hent.inos]
    exact h.nodup
  · rw [hent.inos, hent.type]
    exact h.root
  · intro g hg
    rw [hent.inos] at hg
    rw [hent.type]
    exact h.type g hg
  · intro g hg htype
    rw [hent.inos] at hg
    rw [hent.type] at htype
    rw [hent.entries, if_neg ?_]
    · exact h.plain g hg htype
    · rintro rfl
      exact htype hent.dir
  · intro d hd hdir
    rw [hent.inos] at hd
    rw [hent.type] at hdir
    have hlen := h.length d hd hdir
    rw [hent.entries, hent.appended]
    split_ifs
    · rw [List.length_append, List.length_append, hlen]
      rfl
    · exact hlen
  · intro d hd hdir k e he
    rw [hent.inos] at hd
    rw [hent.type] at hdir
    obtain ⟨blk, himg, hblk⟩ := hent.img
    have hlen := h.length d hd hdir
    rw [hent.entries] at he
    rw [hent.appended, himg]
    by_cases hdc : d = c
    · rw [if_pos hdc] at he ⊢
      rw [getD_concat]
      by_cases hk : k = (m.inode d).appended.length
      · rw [if_pos hk, Function.update_self, hblk]
        rw [hk, ← hlen, List.getElem?_concat_length] at he
        rw [← Option.some.inj he]
      · rw [if_neg hk]
        refine h.entry_update hinv hd hdir blk ?_
        have hlt := (List.getElem?_eq_some_iff.mp he).1
        rw [List.length_append, List.length_singleton] at hlt
        rw [List.getElem?_append_left (by omega)] at he
        exact he
    · rw [if_neg hdc] at he ⊢
      exact h.entry_update hinv hd hdir blk he
  · intro d hd e he
    rw [hent.inos] at hd ⊢
    rw [hent.entries] at he
    split_ifs at he
    · rcases List.mem_append.mp he with hold | hnew
      · exact h.target d hd e hold
      · rw [List.mem_singleton.mp hnew]
        exact ⟨hf, hent.name_le⟩
    · exact h.target d hd e he
  · intro g hg
    rw [hent.inos] at hg
    have hlinks := h.nlinks g hg
    rw [hent.nlinks, h.links_entered hc hent]
    split_ifs
    · rw [hlinks, Nat.mod_add_mod]
    · rw [hlinks, Nat.add_zero]

end dirs

/-! ### Steps and runs -/

/-- One step of the program between `create_sfs` and `close_sfs`: the blocks of a directory are its entries. -/
inductive MkStep : Mksfs → Mksfs → Prop
  | inode {m m' : Mksfs} (real f : ℕ) (type : SfsType) (htype : type ≠ .inval)
      (hrun : (allocCacheInode real 0 type).run m = .ok f m') : MkStep m m'
  | block {m m' : Mksfs} (f len : ℕ) (data : ℕ → UInt8) (hf : f ∈ m.inos) (htype : (m.inode f).type ≠ .dir)
      (hlen : len ≤ 4096) (hrun : (storeBlock f data len).run m = .ok () m') : MkStep m m'
  | entry {m m' : Mksfs} (c f : ℕ) (name : CString) (hc : c ∈ m.inos) (hf : f ∈ m.inos)
      (hrun : (addEntry c f name).run m = .ok () m') : MkStep m m'

/-- What the program can have in memory and on an image file of `nblocks` blocks before `close_sfs`. -/
def MkReach (img : ℕ → Block) (nblocks : ℕ) (m : Mksfs) : Prop :=
  ∃ m₀, createSfs.run (Mksfs.init img nblocks) = .ok () m₀ ∧ ReflTransGen MkStep m₀ m

/-- The invariant of all runs. -/
def Mksfs.Ok (m : Mksfs) : Prop := (∃ ρ, MkInv ρ m) ∧ MkDirs m

theorem MkStep.ok (hstep : MkStep m m') (h : m.Ok) : m'.Ok := by
  obtain ⟨⟨ρ, hinv⟩, hdirs⟩ := h
  cases hstep with
  | inode real f type htype hrun =>
    have hpost := allocCacheInode_post hinv real type
    rw [hrun] at hpost
    obtain ⟨-, hinv', hnew⟩ := hpost
    exact ⟨⟨_, hinv'⟩, hdirs.newInode hinv htype hnew⟩
  | block f len data hf htype hlen hrun =>
    have hpost := storeBlock_post hinv hf data hlen
    rw [hrun] at hpost
    obtain ⟨ρ', hinv', -, hstored⟩ := hpost
    exact ⟨⟨ρ', hinv'⟩, hdirs.stored hinv htype hstored⟩
  | entry c f name hc hf hrun =>
    have hpost := addEntry_post hinv hc hf name
    rw [hrun] at hpost
    obtain ⟨ρ', hinv', -, hent⟩ := hpost
    exact ⟨⟨ρ', hinv'⟩, hdirs.entered hinv hc hf hent⟩

/-- The state after `create_sfs`: the root directory is there, with nothing in it. -/
def Mksfs.created (img : ℕ → Block) (nblocks : ℕ) : Mksfs :=
  { Mksfs.init img nblocks with
    inos := [1]
    inode := Function.update (Mksfs.init img nblocks).inode 1
      ⟨0, .dir, 0, 0, fun _ => 0, 0, 0, 0, 0, none, none, [], []⟩ }

theorem createSfs_run (img : ℕ → Block) (nblocks : ℕ) :
    createSfs.run (Mksfs.init img nblocks) =
      if (Mksfs.init img nblocks).nextIno < (Mksfs.init img nblocks).ninos then .ok () (Mksfs.created img nblocks)
      else .panic .tooSmall := by
  rw [createSfs, Prog.run_bind, Prog.run_get, Outcome.andThen_ok, Prog.run_ite]
  by_cases hlt : (Mksfs.init img nblocks).nextIno < (Mksfs.init img nblocks).ninos
  · rw [if_neg (by omega), if_pos hlt]
    rfl
  · rw [if_pos (by omega), if_neg hlt]
    rfl

theorem Mksfs.created_root (img : ℕ → Block) (nblocks : ℕ) :
    (Mksfs.created img nblocks).inode 1 = ⟨0, .dir, 0, 0, fun _ => 0, 0, 0, 0, 0, none, none, [], []⟩ := by
  rw [Mksfs.created]
  simp only
  rw [Function.update_self]

theorem Mksfs.created_ok {img : ℕ → Block} {nblocks : ℕ}
    (hlt : (Mksfs.init img nblocks).nextIno < (Mksfs.init img nblocks).ninos) : (Mksfs.created img nblocks).Ok := by
  set m := Mksfs.created img nblocks with hm
  have hroot : m.inode 1 = ⟨0, .dir, 0, 0, fun _ => 0, 0, 0, 0, 0, none, none, [], []⟩ :=
    Mksfs.created_root img nblocks
  have hone : ∀ g ∈ m.inos, g = 1 := fun g hg => List.mem_singleton.mp hg
  have hstart : m.start = (Mksfs.init img nblocks).nextIno := rfl
  constructor
  · refine ⟨Function.update (fun _ => .free) 1 .inode, Nat.min_le_right _ _, hlt.le, Nat.le_refl _, rfl, fun b hb => ?_,
      fun g => ?_, fun b => ?_, fun _ => Nat.zero_lt_succ _, fun g hg => ?_⟩
    · by_contra hne
      rw [Function.update_of_ne (fun heq => hne (Or.inl heq))] at hb
      exact hb rfl
    · by_cases heq : g = 1
      · subst heq
        simp [hm, Mksfs.created]
      · rw [Function.update_of_ne heq]
        simp [hm, Mksfs.created, heq]
    · by_cases heq : b = 1
      · subst heq
        simp [hm, Mksfs.created, Mksfs.init, Role.Cache]
      · rw [Function.update_of_ne heq]
        simp [hm, Mksfs.created, Mksfs.init, Role.Cache]
    · rw [hone g hg, hroot]
      exact FileInv.empty _ _
  · refine ⟨List.nodup_singleton _, ⟨List.mem_singleton_self _, by rw [hroot]⟩, fun g hg => ?_, fun g hg => ?_,
      fun g hg => ?_, fun g hg => ?_, fun g hg => ?_, fun g hg => ?_⟩
    all_goals rw [hone g hg, hroot]
    · exact SfsType.noConfusion
    · exact fun _ => rfl
    · exact fun _ => rfl
    · intro _ k e he
      cases he
    · intro e he
      cases he
    · rw [Mksfs.links, show m.inos = [1] from rfl, List.map_singleton, hroot]
      rfl

/-- **The invariant of all runs of the program.** -/
theorem MkReach.ok {img : ℕ → Block} {nblocks : ℕ} (h : MkReach img nblocks m) : m.Ok := by
  obtain ⟨m₀, hcreate, hrun⟩ := h
  rw [createSfs_run] at hcreate
  split_ifs at hcreate with hlt
  · have hm₀ : Mksfs.created img nblocks = m₀ := (Outcome.ok.inj hcreate).2
    refine invariant_of_step Mksfs.Ok hrun ?_ fun _ _ hok hstep => hstep.ok hok
    rw [← hm₀]
    exact Mksfs.created_ok hlt

end Ucore.Tools
