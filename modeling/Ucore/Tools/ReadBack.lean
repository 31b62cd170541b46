import Ucore.Tools.MksfsAccepts

/-!
# Reading an image back

What the kernel gets back of the files and directories that the program has written.

* `load_appended_iff`: the block map finds the blocks of a file if there are at most 1036 of them. The program accepts
  32768, and puts those from 1036 on under a doubly indirect block, which the kernel does not have.
* `dirents_read_back_iff`: the entries of a directory are read back if there are at most 1036, with different names of
  at most 252 bytes. The program accepts names of 255 bytes, but writes only 256 bytes of an entry of 260.
-/

namespace Ucore.Tools

open Ucore.Lib Ucore.Fs Relation

section blocks

variable {img : ℕ → Block} {nblocks dBlocks : ℕ} {m : Mksfs} {s : Sfs} {f : ℕ}

/-- **Blocks**: all that `append_block` has been called with are found, if and only if there are at most 1036. -/
theorem load_appended_iff (hreach : MkReach img nblocks m) (hmount : m.Mounts dBlocks s) (hf : f ∈ m.inos) :
    (∀ k < (m.inode f).appended.length,
        (sfsBmapLoadNolock f k).run s = .ok ((m.inode f).appended.getD k 0) s) ↔
      (m.inode f).appended.length ≤ 1036 := by
  have himage := hmount.mounted hreach.ok
  obtain ⟨⟨ρ, hinv⟩, -⟩ := hreach.ok
  constructor
  · intro hall
    by_contra hgt
    have hload := hall 1036 (by omega)
    rw [himage.load_run hinv hf (by omega), if_neg (Nat.lt_irrefl _)] at hload
    cases hload
  · intro hle k hk
    rw [himage.load_run hinv hf hk, if_pos (by omega)]

/-- A file of any number of blocks for which there is space can be built. -/
theorem exists_file (img : ℕ → Block) (n : ℕ) (hn : 3 * n ≤ 4000) :
    ∃ m f, MkReach img 4096 m ∧ m.ninos = 4096 ∧ m.nextIno ≤ 4 + 3 * n ∧ m.Is f .file 7 ∧
      (m.inode f).appended.length = n := by
  have hninos : (Mksfs.init img 4096).ninos = 4096 := rfl
  have hnext : (Mksfs.init img 4096).nextIno = 3 := rfl
  have hlt : (Mksfs.init img 4096).nextIno < (Mksfs.init img 4096).ninos := by omega
  have hcreate := createSfs_run img 4096
  rw [if_pos hlt] at hcreate
  have hninos' : (Mksfs.created img 4096).ninos = 4096 := rfl
  have hnext' : (Mksfs.created img 4096).nextIno = 3 := rfl
  induction n with
  | zero =>
    have hok := Mksfs.created_ok hlt
    obtain ⟨f, m, hrun, hadv, his, -, happ⟩ := allocCacheInode_accepts hok hok.2.root.1 7 .file
      SfsType.noConfusion (by omega)
    have hnext₁ := hadv.next_le
    refine ⟨m, f, ⟨_, hcreate, .single (.inode 7 f .file SfsType.noConfusion hrun)⟩, by rw [hadv.ninos, hninos'],
      by omega, his, ?_⟩
    rw [happ]
    rfl
  | succ n ih =>
    obtain ⟨m, f, hreach, hm, hmnext, his, hlen⟩ := ih (by omega)
    have hplain : (m.inode f).type ≠ .dir := by
      rw [his.2.1]
      exact SfsType.noConfusion
    obtain ⟨m', hrun, hadv⟩ := storeBlock_accepts hreach.ok his.1 hplain (fun _ => 0) (Nat.le_refl 4096)
      (by omega) (by omega)
    obtain ⟨m₀, hm₀, hsteps⟩ := hreach
    have hnext₁ := hadv.next_le
    have hlength := hadv.length
    exact ⟨m', f, ⟨m₀, hm₀, hsteps.tail (.block f 4096 _ his.1 hplain (Nat.le_refl _) hrun)⟩,
      by rw [hadv.ninos, hm], by omega, hadv.keeps _ _ _ his, by omega⟩

/-- A file that fills the indirect block. -/
theorem load_appended_full : ∃ m s f, MkReach (fun _ => zeroBlock) 4096 m ∧ m.Mounts 4096 s ∧ f ∈ m.inos ∧
    (m.inode f).appended.length = 1036 ∧
    ∀ k < 1036, (sfsBmapLoadNolock f k).run s = .ok ((m.inode f).appended.getD k 0) s := by
  obtain ⟨m, f, hreach, hninos, -, his, hlen⟩ := exists_file (fun _ => zeroBlock) 1036 (by omega)
  obtain ⟨s, hmount⟩ := hreach.ok.exists_mounts (d := 4096) (by omega)
  refine ⟨m, s, f, hreach, hmount, his.1, hlen, fun k hk => ?_⟩
  exact (load_appended_iff hreach hmount his.1).mpr (by omega) k (by omega)

/-- With one block more, reading the last block stops the kernel. -/
theorem load_doubly_indirect : ∃ m s f, MkReach (fun _ => zeroBlock) 4096 m ∧ m.Mounts 4096 s ∧ f ∈ m.inos ∧
    (m.inode f).appended.length = 1037 ∧ (sfsBmapLoadNolock f 1036).run s = .panic .getRange := by
  obtain ⟨m, f, hreach, hninos, -, his, hlen⟩ := exists_file (fun _ => zeroBlock) 1037 (by omega)
  obtain ⟨s, hmount⟩ := hreach.ok.exists_mounts (d := 4096) (by omega)
  refine ⟨m, s, f, hreach, hmount, his.1, hlen, ?_⟩
  have himage := hmount.mounted hreach.ok
  obtain ⟨⟨ρ, hinv⟩, -⟩ := hreach.ok
  rw [himage.load_run hinv his.1 (by omega), if_neg (Nat.lt_irrefl _)]

end blocks

/-! ### Entries -/

section entries

variable {img : ℕ → Block} {nblocks dBlocks : ℕ} {ρ : ℕ → Role} {m : Mksfs} {s : Sfs} {d : ℕ}

/-- The entry at a slot of a directory, as the kernel reads it. -/
theorem ImageOf.read_run (h : ImageOf m s) (hinv : MkInv ρ m) (hdirs : MkDirs m) (hd : d ∈ m.inos)
    (hdir : (m.inode d).type = .dir) {k : ℕ} {e : ℕ × CString} (he : (m.inode d).entries[k]? = some e) :
    (sfsDirentReadNolock d k).run s = if k < 1036 then .ok ⟨e.1, e.2.cut 252⟩ s else .panic .getRange := by
  have hlt : k < (m.inode d).appended.length := by
    rw [← hdirs.length d hd hdir]
    exact (List.getElem?_eq_some_iff.mp he).1
  rw [sfsDirentReadNolock_run (h.consistent hinv) (h.isDir hinv hd hdir) (by rw [h.blocks_eq hinv hd]; exact hlt)]
  by_cases hk : k < 1036
  · rw [if_pos hk, if_pos hk, h.dirent hinv hdirs hd hdir hk he]
  · rw [if_neg hk, if_neg hk]

/-- The kernel compares a name with the first 252 bytes of the name of an entry. -/
theorem ImageOf.hasName_iff (h : ImageOf m s) (hinv : MkInv ρ m) (hdirs : MkDirs m) (hd : d ∈ m.inos)
    (hdir : (m.inode d).type = .dir) {k : ℕ} (hk : k < 1036) {e : ℕ × CString}
    (he : (m.inode d).entries[k]? = some e) (name : CString) :
    s.hasName d name k = decide (e.2.cut 252 = name) := by
  have hmem := (hdirs.target d hd e (List.mem_of_getElem? he)).1
  have hne : e.1 ≠ 0 := hinv.pos (hinv.role_ino hmem)
  rw [Sfs.hasName, h.dirent hinv hdirs hd hdir hk he]
  refine decide_eq_decide.mpr ?_
  exact ⟨fun hand => hand.2.symm, fun heq => ⟨hne, heq.symm⟩⟩

/-- **Entries**: all that `add_entry` has been called with are read back and found at their slots, if and only if there
are at most 1036, with different names of at most 252 bytes. -/
theorem dirents_read_back_iff (hreach : MkReach img nblocks m) (hmount : m.Mounts dBlocks s) (hd : d ∈ m.inos)
    (hdir : (m.inode d).type = .dir) :
    (∀ k e, (m.inode d).entries[k]? = some e → (sfsDirentReadNolock d k).run s = .ok ⟨e.1, e.2⟩ s ∧
        (sfsDirentSearchNolock d e.2).run s = .ok (k, e.1) s) ↔
      (m.inode d).entries.length ≤ 1036 ∧ (∀ e ∈ (m.inode d).entries, e.2.strlen ≤ 252) ∧
        ((m.inode d).entries.map Prod.snd).Nodup := by
  have himage := hmount.mounted hreach.ok
  obtain ⟨⟨ρ, hinv⟩, hdirs⟩ := hreach.ok
  constructor
  · intro hall
    have hcount : (m.inode d).entries.length ≤ 1036 := by
      by_contra hgt
      have he := List.getElem?_eq_getElem (l := (m.inode d).entries) (i := 1036) (by omega)
      have hread := (hall 1036 _ he).1
      rw [himage.read_run hinv hdirs hd hdir he, if_neg (Nat.lt_irrefl _)] at hread
      cases hread
    refine ⟨hcount, fun e hmem => ?_, ?_⟩
    · obtain ⟨k, hk, he⟩ := List.mem_iff_getElem.mp hmem
      have he' : (m.inode d).entries[k]? = some e := List.getElem?_eq_some_iff.mpr ⟨hk, he⟩
      have hread := (hall k e he').1
      rw [himage.read_run hinv hdirs hd hdir he', if_pos (by omega)] at hread
      exact CString.cut_eq_self.mp (Dirent.mk.inj (Outcome.ok.inj hread).1).2
    · rw [List.nodup_iff_injective_getElem]
      rintro ⟨i, hi⟩ ⟨j, hj⟩ heq
      rw [List.length_map] at hi hj
      simp only [List.getElem_map] at heq
      have hi' := (hall i _ (List.getElem?_eq_getElem hi)).2
      have hj' := (hall j _ (List.getElem?_eq_getElem hj)).2
      rw [heq, hj'] at hi'
      exact Fin.ext (Prod.mk.inj (Outcome.ok.inj hi').1).1.symm
  · rintro ⟨hcount, hnames, hnodup⟩ k e he
    have hk := (List.getElem?_eq_some_iff.mp he).1
    have hcut : ∀ {e'}, e' ∈ (m.inode d).entries → e'.2.cut 252 = e'.2 := fun hmem =>
      CString.cut_eq_self.mpr (hnames _ hmem)
    have hlength := hdirs.length d hd hdir
    have hblocks := himage.blocks_eq hinv hd
    have hmem := List.mem_of_getElem? he
    refine ⟨?_, ?_⟩
    · rw [himage.read_run hinv hdirs hd hdir he, if_pos (by omega), hcut hmem]
    rw [sfsDirentSearchNolock_run (himage.consistent hinv) (himage.isDir hinv hd hdir),
      if_pos (hdirs.target d hd e hmem).2, Sfs.searchOutcome]
    have hfind : (List.range (min (s.inode d).blocks 1036)).find? (s.hasName d e.2) = some k := by
      rw [List.find?_range_eq_some, List.mem_range]
      refine ⟨?_, by omega, fun j hj => ?_⟩
      · rw [himage.hasName_iff hinv hdirs hd hdir (by omega) he, hcut hmem, decide_eq_true rfl]
      · have hj' := List.getElem?_eq_getElem (l := (m.inode d).entries) (i := j) (by omega)
        rw [himage.hasName_iff hinv hdirs hd hdir (by omega) hj', hcut (List.mem_of_getElem? hj')]
        simp only [Bool.not_eq_eq_eq_not, Bool.not_true, decide_eq_false_iff_not]
        intro heq
        have hindex : j = k := by
          have hj₁ : j < ((m.inode d).entries.map Prod.snd).length := by rw [List.length_map]; omega
          have hk₁ : k < ((m.inode d).entries.map Prod.snd).length := by rw [List.length_map]; omega
          have hsame : ((m.inode d).entries.map Prod.snd)[j] = ((m.inode d).entries.map Prod.snd)[k] := by
            rw [List.getElem_map, List.getElem_map, heq, (List.getElem?_eq_some_iff.mp he).2]
          exact hnodup.getElem_inj_iff.mp hsame
        omega
    rw [hfind]
    simp only
    rw [himage.dirent hinv hdirs hd hdir (by omega) he]

/-- A name of `n` letters. -/
def letters (n : ℕ) (hn : n ≠ 0) : HostName where
  bytes := List.replicate n 97
  nul_free b hb := by
    rw [List.eq_of_mem_replicate hb]
    decide
  ne_nil := by
    rw [ne_eq, List.replicate_eq_nil_iff]
    exact hn
  no_slash hmem := by
    have := List.eq_of_mem_replicate hmem
    revert this
    decide

theorem strlen_letters (n : ℕ) (hn : n ≠ 0) : (letters n hn).strlen = n := List.length_replicate

theorem letters_not_hidden (n : ℕ) (hn : n ≠ 0) : ¬ (letters n hn).hidden := by
  obtain ⟨k, rfl⟩ := Nat.exists_eq_succ_of_ne_zero hn
  unfold HostName.hidden letters
  simp only [List.replicate_succ, List.head?_cons]
  decide

/-- A tree with one file. -/
theorem exists_single (img : ℕ → Block) (n : ℕ) (hn : n ≠ 0) (hle : n ≤ 255) :
    ∃ m f, Walked img 64 (.file (letters n hn) 7 [] .nil) m ∧ MkReach img 64 m ∧ m.ninos = 64 ∧ m.Is f .file 7 ∧
      (m.inode 1).entries = [(1, dot), (1, dotdot), (f, (letters n hn).toCString)] ∧ m.links f = 1 := by
  have hhost : (HostDir.file (letters n hn) 7 [] .nil).entries = [⟨letters n hn, .file, 7⟩] :=
    if_neg (letters_not_hidden n hn)
  obtain ⟨m, hwalked, hninos⟩ := walked_of_accepted (t := .file (letters n hn) 7 [] .nil) img 64
    ⟨by rw [strlen_letters]; exact hle, Nat.zero_le _, trivial⟩ (by rw [hhost]; show 1 + 2 ≤ 32768; omega)
    (by show 3 + 6 + 4 ≤ 64; omega)
  obtain ⟨hreach, -, ⟨l, hentries, hlisted⟩, hlinks⟩ := hwalked.tree (F := fun r => r = 7) ⟨rfl, trivial⟩ (by decide)
  rw [Listed, hhost] at hlisted
  obtain ⟨⟨f, name⟩, l', ⟨rfl, his⟩, hnil, rfl⟩ := List.forall₂_cons_left_iff.mp hlisted
  refine ⟨m, f, hwalked, hreach, hninos, his, ?_, ?_⟩
  · rw [hentries, List.forall₂_nil_left_iff.mp hnil]
  · rw [hlinks f his.1 his.2.1, his.2.2, HostDir.links, if_neg (letters_not_hidden n hn)]
    rfl

/-- A name of 252 letters is read back. -/
theorem dirents_read_back_252 : ∃ m s f, MkReach (fun _ => zeroBlock) 64 m ∧ m.Mounts 64 s ∧
    (m.inode 1).entries[2]? = some (f, (letters 252 (by decide)).toCString) ∧
    (sfsDirentReadNolock 1 2).run s = .ok ⟨f, (letters 252 (by decide)).toCString⟩ s ∧
    (sfsDirentSearchNolock 1 (letters 252 (by decide)).toCString).run s = .ok (2, f) s := by
  obtain ⟨m, f, -, hreach, hninos, -, hentries, -⟩ := exists_single (fun _ => zeroBlock) 252 (by decide) (by omega)
  obtain ⟨s, hmount⟩ := hreach.ok.exists_mounts (d := 64) (by omega)
  have hat : (m.inode 1).entries[2]? = some (f, (letters 252 (by decide)).toCString) := by
    rw [hentries]
    rfl
  refine ⟨m, s, f, hreach, hmount, hat, ?_⟩
  have hlen : (letters 252 (by decide)).strlen = 252 := strlen_letters 252 (by decide)
  refine (dirents_read_back_iff hreach hmount hreach.ok.2.root.1 hreach.ok.2.root.2).mpr ⟨?_, ?_, ?_⟩ 2 _ hat
  · rw [hentries]
    show 3 ≤ 1036
    omega
  · rw [hentries]
    intro e he
    simp only [List.mem_cons, List.not_mem_nil, or_false] at he
    rcases he with rfl | rfl | rfl
    · decide
    · decide
    · exact hlen.le
  · rw [hentries]
    have hne : ∀ {t : CString}, t.strlen < 252 → t ≠ (letters 252 (by decide)).toCString := by
      rintro t hlt rfl
      omega
    simp only [List.map_cons, List.map_nil, List.nodup_cons, List.mem_cons, List.not_mem_nil, or_false, not_or,
      not_false_eq_true, List.nodup_nil, and_true]
    exact ⟨⟨by decide, hne (by decide)⟩, hne (by decide)⟩

/-- A name of 253 letters loses the last one, and is not found. -/
theorem dirent_loses_letter : ∃ m s f, MkReach (fun _ => zeroBlock) 64 m ∧ m.Mounts 64 s ∧
    (m.inode 1).entries[2]? = some (f, (letters 253 (by decide)).toCString) ∧
    (sfsDirentReadNolock 1 2).run s = .ok ⟨f, (letters 252 (by decide)).toCString⟩ s ∧
    (sfsDirentSearchNolock 1 (letters 253 (by decide)).toCString).run s = .error .noEnt s := by
  obtain ⟨m, f, -, hreach, hninos, -, hentries, -⟩ := exists_single (fun _ => zeroBlock) 253 (by decide) (by omega)
  obtain ⟨s, hmount⟩ := hreach.ok.exists_mounts (d := 64) (by omega)
  have hat : (m.inode 1).entries[2]? = some (f, (letters 253 (by decide)).toCString) := by
    rw [hentries]
    rfl
  have himage := hmount.mounted hreach.ok
  obtain ⟨⟨ρ, hinv⟩, hdirs⟩ := hreach.ok
  have hmem := hdirs.root.1
  have hdir := hdirs.root.2
  have hcut : (letters 253 (by decide)).toCString.cut 252 = (letters 252 (by decide)).toCString := by
    apply CString.ext
    show (List.replicate 253 97).take 252 = List.replicate 252 97
    rw [List.take_replicate]
    rfl
  refine ⟨m, s, f, hreach, hmount, hat, ?_, ?_⟩
  · rw [himage.read_run hinv hdirs hmem hdir hat, if_pos (by omega), hcut]
  · have hlen : (letters 253 (by decide)).strlen = 253 := strlen_letters 253 (by decide)
    have hne : ∀ {t : CString}, t.cut 252 ≠ (letters 253 (by decide)).toCString := by
      intro t heq
      have := t.strlen_cut 252
      rw [heq] at this
      have hlen' : (letters 253 (by decide)).toCString.strlen = 253 := hlen
      omega
    have hlength := hdirs.length 1 hmem hdir
    rw [hentries] at hlength
    have hblocks : (s.inode 1).blocks = 3 := (himage.blocks_eq hinv hmem).trans hlength.symm
    have hnone : (List.range 3).find? (s.hasName 1 (letters 253 (by decide)).toCString) = none := by
      rw [List.find?_eq_none]
      intro k hk
      rw [List.mem_range] at hk
      obtain ⟨e, he⟩ : ∃ e, (m.inode 1).entries[k]? = some e := by
        refine ⟨_, List.getElem?_eq_getElem ?_⟩
        rw [hentries]
        exact hk
      rw [himage.hasName_iff hinv hdirs hmem hdir (by omega) he]
      simp only [decide_eq_true_eq]
      exact hne
    rw [sfsDirentSearchNolock_run (himage.consistent hinv) (himage.isDir hinv hmem hdir), if_pos (by omega),
      Sfs.searchOutcome, hblocks, Nat.min_eq_left (by omega), hnone]
    simp only
    rw [if_pos (by omega)]

end entries

end Ucore.Tools
