import Ucore.Tools.MksfsTree

/-!
# Trees that fit

The program succeeds on every tree that is small enough for the image.

* `HostDir.cost` bounds the blocks that a tree takes, and `HostDir.Accepted` is what the program asks of it besides:
  the length of names and links, the sizes of files and directories, and that directories have numbers of their own.
* `Advanced` is what a part of the walk uses up: blocks of the image, and slots of the directory it is in.
* `readEntries_accepts` is the induction over the tree, and `walked_of_accepted` the result.
-/

namespace Ucore.Tools

open Ucore.Lib Ucore.Fs Relation

/-! ### What a tree needs -/

/-- The number of blocks of a file. -/
def blocksOf (content : List UInt8) : ℕ := (content.length + 4095) / 4096

/-- A bound for the blocks that the program takes for a tree. -/
def HostDir.cost : HostDir → ℕ
  | .nil => 0
  | .file _ _ content rest => 4 + 3 * blocksOf content + rest.cost
  | .link _ _ _ rest => 7 + rest.cost
  | .dir _ _ sub rest => 10 + sub.cost + rest.cost
  | .other _ rest => rest.cost

/-- The numbers in a tree. -/
def HostDir.numbers : HostDir → List ℕ
  | .nil => []
  | .file _ real _ rest => real :: rest.numbers
  | .link _ real _ rest => real :: rest.numbers
  | .dir _ real sub rest => real :: (sub.numbers ++ rest.numbers)
  | .other _ rest => rest.numbers

/-- What the program asks of a tree, when it has seen the numbers `seen`. -/
def HostDir.Accepted : List ℕ → HostDir → Prop
  | _, .nil => True
  | seen, .file name real content rest =>
    name.strlen ≤ 255 ∧ blocksOf content ≤ 32768 ∧ rest.Accepted (real :: seen)
  | seen, .link name real target rest => name.strlen ≤ 255 ∧ target.length < 4096 ∧ rest.Accepted (real :: seen)
  | seen, .dir name real sub rest =>
    name.strlen ≤ 255 ∧ real ∉ seen ∧ 2 + sub.entries.length ≤ 32768 ∧ sub.Accepted (real :: seen) ∧
      rest.Accepted (real :: (sub.numbers ++ seen))
  | seen, .other name rest => name.strlen ≤ 255 ∧ rest.Accepted seen

section accepts

variable {ρ : ℕ → Role} {m m₁ m' : Mksfs} {c f k k' a b : ℕ} {N N' seen : List ℕ}

/-- What a part of the walk uses up: `a` blocks and `k` slots of `c`, when it has come to the numbers `N`. -/
structure Advanced (m m' : Mksfs) (c k a : ℕ) (N : List ℕ) : Prop where
  ok : m'.Ok
  ninos : m'.ninos = m.ninos
  next_le : m'.nextIno ≤ m.nextIno + a
  keeps : Keeps m m'
  length : (m'.inode c).appended.length = (m.inode c).appended.length + k
  other : ∀ g ∈ m.inos, g ≠ c → (m'.inode g).appended.length = (m.inode g).appended.length
  numbers : ∀ g ∈ m'.inos, (m'.inode g).real ∈ N ∨ ∃ g' ∈ m.inos, (m.inode g').real = (m'.inode g).real

theorem Advanced.refl (h : m.Ok) : Advanced m m c 0 0 [] :=
  ⟨h, rfl, Nat.le_refl _, fun _ _ _ his => his, rfl, fun _ _ _ => rfl, fun g hg => Or.inr ⟨g, hg, rfl⟩⟩

theorem Advanced.numbers_trans (h : Advanced m m₁ c k a N) (h' : Advanced m₁ m' f k' b N') :
    ∀ g ∈ m'.inos, (m'.inode g).real ∈ N ++ N' ∨ ∃ g' ∈ m.inos, (m.inode g').real = (m'.inode g).real := by
  intro g hg
  rcases h'.numbers g hg with hmem | ⟨g₁, hg₁, hreal⟩
  · exact Or.inl (List.mem_append_right _ hmem)
  · rcases h.numbers g₁ hg₁ with hmem | ⟨g₀, hg₀, hreal₀⟩
    · rw [hreal] at hmem
      exact Or.inl (List.mem_append_left _ hmem)
    · exact Or.inr ⟨g₀, hg₀, hreal₀.trans hreal⟩

theorem Advanced.mono (h : Advanced m m' c k a N) (ha : a ≤ b) (hN : N ⊆ N') : Advanced m m' c k b N' :=
  { h with
    next_le := Nat.le_trans h.next_le (Nat.add_le_add_left ha _)
    numbers := fun g hg => (h.numbers g hg).imp (fun hmem => hN hmem) id }

theorem Advanced.trans (h : Advanced m m₁ c k a N) (h' : Advanced m₁ m' c k' b N') :
    Advanced m m' c (k + k') (a + b) (N ++ N') where
  ok := h'.ok
  ninos := h'.ninos.trans h.ninos
  next_le := by
    have h₁ := h.next_le
    have h₂ := h'.next_le
    omega
  keeps := h.keeps.trans h'.keeps
  length := by rw [h'.length, h.length, Nat.add_assoc]
  other g hg hne := by rw [h'.other g (h.keeps.mem hg).1 hne, h.other g hg hne]
  numbers := h.numbers_trans h'

/-- What is used up for another directory, which is new. -/
theorem Advanced.sub (h : Advanced m m₁ c 0 a N) (hf : f ∉ m.inos) (hc : c ∈ m.inos)
    (h' : Advanced m₁ m' f k b N') : Advanced m m' c 0 (a + b) (N ++ N') where
  ok := h'.ok
  ninos := h'.ninos.trans h.ninos
  next_le := by
    have h₁ := h.next_le
    have h₂ := h'.next_le
    omega
  keeps := h.keeps.trans h'.keeps
  length := by
    rw [h'.other c (h.keeps.mem hc).1 fun heq => hf (heq ▸ hc), h.length]
  other g hg hne := by
    rw [h'.other g (h.keeps.mem hg).1 fun heq => hf (heq ▸ hg), h.other g hg hne]
  numbers := h.numbers_trans h'

/-- The numbers that have been seen, after a part of the walk. -/
theorem Advanced.all_seen (h : Advanced m m' c k a N) (hseen : ∀ g ∈ m.inos, (m.inode g).real ∈ seen) :
    ∀ g ∈ m'.inos, (m'.inode g).real ∈ N ++ seen := by
  intro g hg
  rcases h.numbers g hg with hmem | ⟨g', hg', hreal⟩
  · exact List.mem_append_left _ hmem
  · rw [← hreal]
    exact List.mem_append_right _ (hseen g' hg')

/-! ### The parts of the walk -/

theorem storeBlock_accepts (h : m.Ok) (hf : f ∈ m.inos) (hplain : (m.inode f).type ≠ .dir) (data : ℕ → UInt8)
    {len : ℕ} (hlen : len ≤ 4096) (hbig : (m.inode f).appended.length < 32768) (hspace : m.nextIno + 3 ≤ m.ninos) :
    ∃ m', (storeBlock f data len).run m = .ok () m' ∧ Advanced m m' f 1 3 [] := by
  obtain ⟨⟨ρ, hinv⟩, -⟩ := id h
  have hpost := (storeBlock_post hinv hf data hlen).mono (fun _ _ hQ => hQ) (fun _ _ hE => hE)
    (fun p hp => (by rcases hp with ⟨-, hp⟩ | ⟨-, hp⟩ <;> omega : False))
  obtain ⟨_, m', hrun, -, -, -, hstored⟩ := hpost.exists_ok
  have hsame := storeBlock_same h hf hplain hlen hrun
  refine ⟨m', hrun, hsame.ok, hstored.ninos, hstored.next_le, hsame.keeps, ?_, fun g _ hne => ?_, fun g hg => ?_⟩
  · rw [hstored.appended, List.length_append]
    rfl
  · rw [hstored.other g hne]
  · rw [hsame.inos] at hg
    exact Or.inr ⟨g, hg, (hsame.real g).symm⟩

theorem openFileLoop_accepts (fuel : ℕ) (content : List UInt8) (hfuel : content.length ≤ fuel) (h : m.Ok)
    (hf : f ∈ m.inos) (hplain : (m.inode f).type ≠ .dir)
    (hbig : (m.inode f).appended.length + blocksOf content ≤ 32768)
    (hspace : m.nextIno + 3 * blocksOf content ≤ m.ninos) :
    ∃ m', (openFileLoop f fuel content).run m = .ok () m' ∧
      Advanced m m' f (blocksOf content) (3 * blocksOf content) [] := by
  induction fuel generalizing m content with
  | zero =>
    have hnil : content = [] := List.length_eq_zero_iff.mp (by omega)
    subst hnil
    exact ⟨m, rfl, .refl h⟩
  | succ fuel ih =>
    rw [openFileLoop]
    by_cases hnil : content = []
    · rw [if_pos hnil]
      subst hnil
      exact ⟨m, rfl, .refl h⟩
    rw [if_neg hnil]
    have hpos : 0 < content.length := List.length_pos_iff.mpr hnil
    have hblocks : blocksOf content = 1 + blocksOf (content.drop 4096) := by
      unfold blocksOf
      rw [List.length_drop]
      omega
    obtain ⟨m₁, hrun₁, hadv₁⟩ := storeBlock_accepts h hf hplain (fun k => content.getD k 0)
      (Nat.min_le_left 4096 content.length) (by omega) (by omega)
    obtain ⟨hf₁, htype₁, -⟩ := hadv₁.keeps.mem hf
    have hnext := hadv₁.next_le
    have hlength := hadv₁.length
    have hninos := hadv₁.ninos
    obtain ⟨m', hrun', hadv'⟩ := ih (content.drop 4096) (by rw [List.length_drop]; omega) hadv₁.ok hf₁
      (by rw [htype₁]; exact hplain) (by omega) (by omega)
    refine ⟨m', ?_, ?_⟩
    · rw [Prog.bind_of_ok hrun₁, hrun']
    · have hall := hadv₁.trans hadv'
      rw [← hblocks, show 3 + 3 * blocksOf (content.drop 4096) = 3 * blocksOf content by omega] at hall
      exact hall

theorem openLink_accepts {target : List UInt8} (htarget : target.length < 4096) (h : m.Ok) (hf : f ∈ m.inos)
    (hplain : (m.inode f).type ≠ .dir) (hbig : (m.inode f).appended.length < 32768)
    (hspace : m.nextIno + 3 ≤ m.ninos) :
    ∃ m', (openLink f target).run m = .ok () m' ∧ Advanced m m' f 1 3 [] := by
  rw [openLink, if_neg (by omega)]
  exact storeBlock_accepts h hf hplain _ htarget.le hbig hspace

theorem addEntry_accepts (h : m.Ok) (hc : c ∈ m.inos) (hf : f ∈ m.inos) (hdir : (m.inode c).type = .dir)
    (name : CString) (hname : name.strlen ≤ 255) (hbig : (m.inode c).appended.length < 32768)
    (hspace : m.nextIno + 3 ≤ m.ninos) :
    ∃ m', (addEntry c f name).run m = .ok () m' ∧ Advanced m m' c 1 3 [] := by
  obtain ⟨⟨ρ, hinv⟩, -⟩ := id h
  have hpost := (addEntry_post hinv hc hf name).mono (fun _ _ hQ => hQ) (fun _ _ hE => hE) (fun p hp => (by
    rcases hp with ⟨-, hp⟩ | ⟨-, hp⟩ | ⟨-, hp⟩
    · exact hp ⟨hdir, hname⟩
    · omega
    · omega : False))
  obtain ⟨_, m', hrun, -, -, -, hent⟩ := hpost.exists_ok
  have hstep : MkStep m m' := .entry c f name hc hf hrun
  refine ⟨m', hrun, hstep.ok h, hent.ninos, hent.next_le, ?_, ?_, fun g _ hne => ?_, fun g hg => ?_⟩
  · rintro g type real ⟨hg, htype, hreal⟩
    exact ⟨by rw [hent.inos]; exact hg, by rw [hent.type]; exact htype, by rw [hent.real]; exact hreal⟩
  · rw [hent.appended, if_pos rfl, List.length_append]
    rfl
  · rw [hent.appended, if_neg hne]
  · rw [hent.inos] at hg
    exact Or.inr ⟨g, hg, (hent.real g).symm⟩

theorem allocCacheInode_accepts (h : m.Ok) (hc : c ∈ m.inos) (real : ℕ) (type : SfsType) (htype : type ≠ .inval)
    (hspace : m.nextIno + 1 ≤ m.ninos) :
    ∃ f m', (allocCacheInode real 0 type).run m = .ok f m' ∧ Advanced m m' c 0 1 [real] ∧ m'.Is f type real ∧
      f ∉ m.inos ∧ (m'.inode f).appended = [] := by
  obtain ⟨⟨ρ, hinv⟩, -⟩ := id h
  have hpost := (allocCacheInode_post hinv real type).mono (fun _ _ hQ => hQ) (fun _ _ hE => hE)
    (fun p hp => (by have := hp.2; omega : False))
  obtain ⟨f, m', hrun, rfl, -, hnew⟩ := hpost.exists_ok
  have hstep : MkStep m m' := .inode real m.nextIno type htype hrun
  have hold : ∀ g ∈ m.inos, m'.inode g = m.inode g := fun g hg => hnew.other g (hinv.ino_lt hg).ne
  refine ⟨m.nextIno, m', hrun, ⟨hstep.ok h, hnew.ninos, hnew.next.le, hnew.keeps hinv, by rw [hold c hc]; rfl,
    fun g hg _ => by rw [hold g hg], fun g hg => ?_⟩, ⟨by rw [hnew.inos]; exact List.mem_cons_self, ?_⟩,
    fun hmem => (hinv.ino_lt hmem).ne rfl, by rw [hnew.new]⟩
  · rw [hnew.inos] at hg
    rcases List.mem_cons.mp hg with rfl | hg'
    · rw [hnew.new]
      exact Or.inl List.mem_cons_self
    · exact Or.inr ⟨g, hg', by rw [hold g hg']⟩
  · rw [hnew.new]
    exact ⟨rfl, rfl⟩

theorem addFile_accepts (h : m.Ok) (hc : c ∈ m.inos) (hdir : (m.inode c).type = .dir) {name : CString}
    (hname : name.strlen ≤ 255) (real : ℕ) {content : List UInt8} (hcontent : blocksOf content ≤ 32768)
    (hbig : (m.inode c).appended.length < 32768) (hspace : m.nextIno + (4 + 3 * blocksOf content) ≤ m.ninos) :
    ∃ m', (addFile c name real content).run m = .ok () m' ∧
      Advanced m m' c 1 (4 + 3 * blocksOf content) [real] := by
  rw [addFile]
  cases hsearch : m.searchCacheInode real with
  | some f =>
    obtain ⟨m', hrun, hadv⟩ := addEntry_accepts h hc (searchCacheInode_some hsearch).1 hdir _ hname hbig (by omega)
    refine ⟨m', ?_, hadv.mono (by omega) (List.nil_subset _)⟩
    rw [Prog.run_bind, Prog.run_get, Outcome.andThen_ok, hsearch]
    exact hrun
  | none =>
    obtain ⟨f, m₁, hrun₁, hadv₁, his, hfresh, happ⟩ := allocCacheInode_accepts h hc real .file
      SfsType.noConfusion (by omega)
    have hnext₁ := hadv₁.next_le
    have hninos₁ := hadv₁.ninos
    obtain ⟨m₂, hrun₂, hadv₂⟩ := openFileLoop_accepts content.length content (Nat.le_refl _) hadv₁.ok his.1
      (by rw [his.2.1]; exact SfsType.noConfusion) (by rw [happ, List.length_nil]; omega) (by omega)
    have hall := hadv₁.sub hfresh hc hadv₂
    have hnext₂ := hall.next_le
    have hninos₂ := hall.ninos
    have hlength := hall.length
    obtain ⟨hc₂, hdir₂, -⟩ := hall.keeps.mem hc
    obtain ⟨m', hrun', hadv'⟩ := addEntry_accepts hall.ok hc₂ (hadv₂.keeps.mem his.1).1 (hdir₂.trans hdir) _ hname
      (by omega) (by omega)
    refine ⟨m', ?_, (hall.trans hadv').mono (by omega) (List.Subset.refl _)⟩
    rw [Prog.run_bind, Prog.run_get, Outcome.andThen_ok, hsearch]
    simp only
    rw [Prog.bind_of_ok hrun₁, openFile, Prog.bind_of_ok hrun₂, hrun']

theorem addLink_accepts (h : m.Ok) (hc : c ∈ m.inos) (hdir : (m.inode c).type = .dir) {name : CString}
    (hname : name.strlen ≤ 255) (real : ℕ) {target : List UInt8} (htarget : target.length < 4096)
    (hbig : (m.inode c).appended.length < 32768) (hspace : m.nextIno + 7 ≤ m.ninos) :
    ∃ m', (addLink c name real target).run m = .ok () m' ∧ Advanced m m' c 1 7 [real] := by
  obtain ⟨f, m₁, hrun₁, hadv₁, his, hfresh, happ⟩ := allocCacheInode_accepts h hc real .link
    SfsType.noConfusion (by omega)
  have hnext₁ := hadv₁.next_le
  have hninos₁ := hadv₁.ninos
  obtain ⟨m₂, hrun₂, hadv₂⟩ := openLink_accepts htarget hadv₁.ok his.1 (by rw [his.2.1]; exact SfsType.noConfusion)
    (by rw [happ, List.length_nil]; omega) (by omega)
  have hall := hadv₁.sub hfresh hc hadv₂
  have hnext₂ := hall.next_le
  have hninos₂ := hall.ninos
  have hlength := hall.length
  obtain ⟨hc₂, hdir₂, -⟩ := hall.keeps.mem hc
  obtain ⟨m', hrun', hadv'⟩ := addEntry_accepts hall.ok hc₂ (hadv₂.keeps.mem his.1).1 (hdir₂.trans hdir) _ hname
    (by omega) (by omega)
  refine ⟨m', ?_, (hall.trans hadv').mono (by omega) (List.Subset.refl _)⟩
  rw [addLink, Prog.bind_of_ok hrun₁, Prog.bind_of_ok hrun₂, hrun']

theorem addDots_accepts (h : m.Ok) (hf : f ∈ m.inos) (hc : c ∈ m.inos) (hdir : (m.inode f).type = .dir)
    (hbig : (m.inode f).appended.length + 2 ≤ 32768) (hspace : m.nextIno + 6 ≤ m.ninos) :
    ∃ m', (addDots f c).run m = .ok () m' ∧ Advanced m m' f 2 6 [] := by
  obtain ⟨m₁, hrun₁, hadv₁⟩ := addEntry_accepts h hf hf hdir dot (by decide) (by omega) (by omega)
  have hnext := hadv₁.next_le
  have hninos := hadv₁.ninos
  have hlength := hadv₁.length
  obtain ⟨hf₁, hdir₁, -⟩ := hadv₁.keeps.mem hf
  obtain ⟨m', hrun', hadv'⟩ := addEntry_accepts hadv₁.ok hf₁ (hadv₁.keeps.mem hc).1 (hdir₁.trans hdir)
    dotdot (by decide) (by omega) (by omega)
  refine ⟨m', ?_, hadv₁.trans hadv'⟩
  rw [addDots, Prog.bind_of_ok hrun₁, hrun']

/-! ### The tree -/

theorem HostEntry.length_before (name : HostName) (type : SfsType) (real : ℕ) (rest : List HostEntry) :
    (HostEntry.before ⟨name, type, real⟩ rest).length = (if name.hidden then 0 else 1) + rest.length := by
  unfold HostEntry.before
  split_ifs
  · rw [Nat.zero_add]
  · rw [List.length_cons, Nat.add_comm]

/-- One turn of the loop. -/
theorem visible_accepts {name : HostName} {p : MkProg Unit} (h : m.Ok) (hname : name.strlen ≤ 255)
    (hp : ¬ name.hidden → ∃ m₁, p.run m = .ok () m₁ ∧ Advanced m m₁ c 1 a N) :
    ∃ m₁, (visible name p).run m = .ok () m₁ ∧ Advanced m m₁ c (if name.hidden then 0 else 1) a N := by
  unfold visible
  by_cases hhidden : name.hidden
  · rw [if_pos hhidden, if_pos hhidden]
    exact ⟨m, rfl, (Advanced.refl h).mono (Nat.zero_le _) (List.nil_subset _)⟩
  · rw [if_neg hhidden, if_neg hhidden, if_neg (by omega)]
    exact hp hhidden

/-- **The walk succeeds** on a tree that fits. -/
theorem readEntries_accepts (t : HostDir) (h : m.Ok) (hc : c ∈ m.inos) (hdir : (m.inode c).type = .dir)
    (ht : t.Accepted seen) (hseen : ∀ g ∈ m.inos, (m.inode g).real ∈ seen)
    (hbig : (m.inode c).appended.length + t.entries.length ≤ 32768) (hspace : m.nextIno + t.cost ≤ m.ninos) :
    ∃ m', (readEntries c t).run m = .ok () m' ∧ Advanced m m' c t.entries.length t.cost t.numbers := by
  induction t generalizing m c seen with
  | nil => exact ⟨m, rfl, .refl h⟩
  | file name real content rest ih =>
    obtain ⟨hname, hcontent, hrest⟩ := ht
    rw [HostDir.entries, HostEntry.length_before] at hbig
    rw [HostDir.cost] at hspace
    obtain ⟨m₁, hrun₁, hadv₁⟩ := visible_accepts (c := c) h hname fun hvisible => by
      rw [if_neg hvisible] at hbig
      exact addFile_accepts h hc hdir hname real hcontent (by omega) (by omega)
    have hnext := hadv₁.next_le
    have hninos := hadv₁.ninos
    have hlength := hadv₁.length
    obtain ⟨hc₁, hdir₁, -⟩ := hadv₁.keeps.mem hc
    obtain ⟨m', hrun', hadv'⟩ := ih hadv₁.ok hc₁ (hdir₁.trans hdir) hrest (hadv₁.all_seen hseen) (by omega) (by omega)
    refine ⟨m', by rw [readEntries, Prog.bind_of_ok hrun₁, hrun'], ?_⟩
    rw [HostDir.entries, HostEntry.length_before]
    exact hadv₁.trans hadv'
  | link name real target rest ih =>
    obtain ⟨hname, htarget, hrest⟩ := ht
    rw [HostDir.entries, HostEntry.length_before] at hbig
    rw [HostDir.cost] at hspace
    obtain ⟨m₁, hrun₁, hadv₁⟩ := visible_accepts (c := c) h hname fun hvisible => by
      rw [if_neg hvisible] at hbig
      exact addLink_accepts h hc hdir hname real htarget (by omega) (by omega)
    have hnext := hadv₁.next_le
    have hninos := hadv₁.ninos
    have hlength := hadv₁.length
    obtain ⟨hc₁, hdir₁, -⟩ := hadv₁.keeps.mem hc
    obtain ⟨m', hrun', hadv'⟩ := ih hadv₁.ok hc₁ (hdir₁.trans hdir) hrest (hadv₁.all_seen hseen) (by omega) (by omega)
    refine ⟨m', by rw [readEntries, Prog.bind_of_ok hrun₁, hrun'], ?_⟩
    rw [HostDir.entries, HostEntry.length_before]
    exact hadv₁.trans hadv'
  | dir name real sub rest ihsub ih =>
    obtain ⟨hname, hfresh, hsize, hsub, hrest⟩ := ht
    rw [HostDir.entries, HostEntry.length_before] at hbig
    rw [HostDir.cost] at hspace
    obtain ⟨m₁, hrun₁, hadv₁⟩ := visible_accepts (c := c) (a := 10 + sub.cost) (N := real :: sub.numbers) h hname
      (p := do
        let m ← Prog.get
        Prog.assert (m.searchCacheInode real = none) .addDir
        let f ← allocCacheInode real 0 .dir
        addDots f c
        readEntries f sub
        addEntry c f name.toCString) fun hvisible => by
      rw [if_neg hvisible] at hbig
      have hsearch : m.searchCacheInode real = none := by
        rw [Mksfs.searchCacheInode, List.find?_eq_none]
        intro g hg heq
        rw [decide_eq_true_eq] at heq
        exact hfresh (heq ▸ hseen g hg)
      obtain ⟨f, m₂, hrun₂, hadv₂, his, hnew, happ⟩ := allocCacheInode_accepts h hc real .dir
        SfsType.noConfusion (by omega)
      have hnext₂ := hadv₂.next_le
      have hninos₂ := hadv₂.ninos
      obtain ⟨m₃, hrun₃, hadv₃⟩ := addDots_accepts hadv₂.ok his.1 (hadv₂.keeps.mem hc).1 his.2.1
        (by rw [happ, List.length_nil]; omega) (by omega)
      have hnext₃ := hadv₃.next_le
      have hninos₃ := hadv₃.ninos
      have hlength₃ := hadv₃.length
      rw [happ, List.length_nil] at hlength₃
      have his₃ := hadv₃.keeps _ _ _ his
      obtain ⟨m₄, hrun₄, hadv₄⟩ := ihsub hadv₃.ok his₃.1 his₃.2.1 hsub
        (hadv₃.all_seen (hadv₂.all_seen hseen)) (by omega) (by omega)
      have hall := hadv₂.sub hnew hc (hadv₃.trans hadv₄)
      have hnext₄ := hall.next_le
      have hninos₄ := hall.ninos
      have hlength₄ := hall.length
      obtain ⟨hc₄, hdir₄, -⟩ := hall.keeps.mem hc
      obtain ⟨m₅, hrun₅, hadv₅⟩ := addEntry_accepts hall.ok hc₄ (hadv₄.keeps.mem his₃.1).1 (hdir₄.trans hdir) _ hname
        (by omega) (by omega)
      refine ⟨m₅, ?_, (hall.trans hadv₅).mono (by omega) (by simp)⟩
      rw [Prog.run_bind, Prog.run_get, Outcome.andThen_ok, Prog.run_bind, Prog.run_assert_of _ _ hsearch,
        Outcome.andThen_ok, Prog.bind_of_ok hrun₂, Prog.bind_of_ok hrun₃, Prog.bind_of_ok hrun₄, hrun₅]
    have hnext := hadv₁.next_le
    have hninos := hadv₁.ninos
    have hlength := hadv₁.length
    obtain ⟨hc₁, hdir₁, -⟩ := hadv₁.keeps.mem hc
    obtain ⟨m', hrun', hadv'⟩ := ih hadv₁.ok hc₁ (hdir₁.trans hdir) hrest
      (by simpa using hadv₁.all_seen hseen) (by omega) (by omega)
    refine ⟨m', by rw [readEntries, Prog.bind_of_ok hrun₁, hrun'], ?_⟩
    rw [HostDir.entries, HostEntry.length_before]
    exact hadv₁.trans hadv'
  | other name rest ih =>
    obtain ⟨hname, hrest⟩ := ht
    obtain ⟨m', hrun', hadv'⟩ := ih h hc hdir hrest hseen hbig hspace
    refine ⟨m', ?_, hadv'⟩
    have hvisible : (visible name (pure ())).run m = .ok () m := by
      unfold visible
      split_ifs
      · rfl
      · omega
      · rfl
    rw [readEntries, Prog.bind_of_ok hvisible, hrun']

end accepts

/-- **The program accepts every tree that fits.** The walk has taken at most `t.cost + 6` blocks. -/
theorem walked_of_accepted {t : HostDir} (img : ℕ → Block) (nblocks : ℕ) (ht : t.Accepted [0])
    (hentries : t.entries.length + 2 ≤ 32768)
    (hspace : (Mksfs.init img nblocks).nextIno + 6 + t.cost ≤ (Mksfs.init img nblocks).ninos) :
    ∃ m, Walked img nblocks t m ∧ m.ninos = min nblocks sfsMaxNblks := by
  have hlt : (Mksfs.init img nblocks).nextIno < (Mksfs.init img nblocks).ninos := by omega
  have hcreate := createSfs_run img nblocks
  rw [if_pos hlt] at hcreate
  have hok := Mksfs.created_ok hlt
  have hmem := hok.2.root.1
  have hdir := hok.2.root.2
  have hroot := Mksfs.created_root img nblocks
  have happ : ((Mksfs.created img nblocks).inode 1).appended.length = 0 := by rw [hroot]; rfl
  have hnext : (Mksfs.created img nblocks).nextIno = (Mksfs.init img nblocks).nextIno := rfl
  have hninos : (Mksfs.created img nblocks).ninos = (Mksfs.init img nblocks).ninos := rfl
  obtain ⟨m₁, hrun₁, hadv₁⟩ := addDots_accepts hok hmem hmem hdir (by omega) (by omega)
  have hnext₁ := hadv₁.next_le
  have hninos₁ := hadv₁.ninos
  have hlength₁ := hadv₁.length
  obtain ⟨hmem₁, hdir₁, -⟩ := hadv₁.keeps.mem hmem
  have hseen : ∀ g ∈ (Mksfs.created img nblocks).inos, ((Mksfs.created img nblocks).inode g).real ∈ [0] := by
    intro g hg
    rw [List.mem_singleton.mp hg, hroot]
    exact List.mem_cons_self
  obtain ⟨m, hrun, hadv⟩ := readEntries_accepts t hadv₁.ok hmem₁ (hdir₁.trans hdir) ht (hadv₁.all_seen hseen)
    (by omega) (by omega)
  refine ⟨m, ?_, hadv.ninos.trans (hninos₁.trans hninos)⟩
  unfold Walked
  rw [Prog.bind_of_ok hcreate, openDir, Prog.bind_of_ok hrun₁, hrun]

end Ucore.Tools
