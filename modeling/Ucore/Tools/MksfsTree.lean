import Ucore.Tools.MksfsImage

/-!
# The tree that is built

What the walk over a tree of the host leaves in the directories of the program.

* `HostDir.entries` are those that the program makes entries for, and `HostDir.links t r` is the number of names that
  the file with the number `r` has in the tree.
* `Listed m t l`: the entries `l` are those of the directory `t`, each for an inode of the right kind and number.
* `Read` is what a part of the walk does to the directory it is in: it adds entries, and links to files.
  `readEntries_read` proves it of the whole walk, by induction on the tree.
* `Walked.tree` puts it together, and `Walked` says that the walk is a run of the program from a new image.
-/

namespace Ucore.Tools

open Ucore.Lib Ucore.Fs Relation

/-! ### Names and numbers on the host -/

/-- An entry of a directory of the host. -/
structure HostEntry where
  name : HostName
  type : SfsType
  real : ℕ

/-- An entry, before those of `rest`. Hidden ones are left out. -/
def HostEntry.before (e : HostEntry) (rest : List HostEntry) : List HostEntry :=
  if e.name.hidden then rest else e :: rest

/-- The entries of a directory that the program looks at, in order. -/
def HostDir.entries : HostDir → List HostEntry
  | .nil => []
  | .file name real _ rest => HostEntry.before ⟨name, .file, real⟩ rest.entries
  | .link name real _ rest => HostEntry.before ⟨name, .link, real⟩ rest.entries
  | .dir name real _ rest => HostEntry.before ⟨name, .dir, real⟩ rest.entries
  | .other _ rest => rest.entries

theorem HostEntry.mem_before {e e' : HostEntry} {rest : List HostEntry} (h : e' ∈ e.before rest) :
    e' = e ∧ ¬ e.name.hidden ∨ e' ∈ rest := by
  unfold HostEntry.before at h
  split_ifs at h with hhidden
  · exact Or.inr h
  · exact (List.mem_cons.mp h).imp (fun heq => ⟨heq, hhidden⟩) id

theorem HostDir.not_hidden (t : HostDir) : ∀ e ∈ t.entries, ¬ e.name.hidden := by
  have hcons : ∀ {e : HostEntry} {rest : List HostEntry}, (∀ e' ∈ rest, ¬ e'.name.hidden) →
      ∀ e' ∈ e.before rest, ¬ e'.name.hidden := by
    intro e rest hrest e' he'
    rcases HostEntry.mem_before he' with ⟨rfl, hvisible⟩ | hmem
    · exact hvisible
    · exact hrest e' hmem
  induction t with
  | nil => exact fun e he => absurd he List.not_mem_nil
  | file name real content rest ih => exact hcons ih
  | link name real target rest ih => exact hcons ih
  | dir name real sub rest _ ih => exact hcons ih
  | other name rest ih => exact ih

/-- The number of names of the file with the number `r`. -/
def HostDir.links (r : ℕ) : HostDir → ℕ
  | .nil => 0
  | .file name real _ rest => (if name.hidden then 0 else if r = real then 1 else 0) + rest.links r
  | .link _ _ _ rest => rest.links r
  | .dir name _ sub rest => (if name.hidden then 0 else sub.links r) + rest.links r
  | .other _ rest => rest.links r

/-- The numbers of files are those of `F`, and links and directories have others. -/
def HostDir.Numbers (F : ℕ → Prop) : HostDir → Prop
  | .nil => True
  | .file _ real _ rest => F real ∧ rest.Numbers F
  | .link _ real _ rest => ¬ F real ∧ rest.Numbers F
  | .dir _ real sub rest => ¬ F real ∧ sub.Numbers F ∧ rest.Numbers F
  | .other _ rest => rest.Numbers F

/-- The inode of an entry is of the kind and has the number of the file on the host. -/
def Mksfs.Is (m : Mksfs) (f : ℕ) (type : SfsType) (real : ℕ) : Prop :=
  f ∈ m.inos ∧ (m.inode f).type = type ∧ (m.inode f).real = real

/-- The entries `l` are those of a directory of the host. -/
def Listed (m : Mksfs) (t : HostDir) (l : List (ℕ × CString)) : Prop :=
  List.Forall₂ (fun e x => x.2 = e.name.toCString ∧ m.Is x.1 e.type e.real) t.entries l

/-- Inodes stay what they are. -/
def Keeps (m m' : Mksfs) : Prop := ∀ f type real, m.Is f type real → m'.Is f type real

theorem Keeps.mem {m m' : Mksfs} (h : Keeps m m') {f : ℕ} (hf : f ∈ m.inos) :
    f ∈ m'.inos ∧ (m'.inode f).type = (m.inode f).type ∧ (m'.inode f).real = (m.inode f).real :=
  h f _ _ ⟨hf, rfl, rfl⟩

theorem Keeps.trans {m₁ m₂ m₃ : Mksfs} (h : Keeps m₁ m₂) (h' : Keeps m₂ m₃) : Keeps m₁ m₃ :=
  fun f type real his => h' f type real (h f type real his)

/-! ### Parts of the walk -/

section walk

variable {F : ℕ → Prop} {ρ : ℕ → Role} {m m₁ m₂ m' : Mksfs} {c f : ℕ} {l l' : List (ℕ × CString)} {n n' : ℕ → ℕ}

/-- Blocks of plain files may differ. -/
structure SameTree (m m' : Mksfs) : Prop where
  ok : m'.Ok
  reach : ReflTransGen MkStep m m'
  inos : m'.inos = m.inos
  type : ∀ g, (m'.inode g).type = (m.inode g).type
  real : ∀ g, (m'.inode g).real = (m.inode g).real
  entries : ∀ g, (m'.inode g).entries = (m.inode g).entries

theorem SameTree.refl (h : m.Ok) : SameTree m m := ⟨h, .refl, rfl, fun _ => rfl, fun _ => rfl, fun _ => rfl⟩

theorem SameTree.trans (h : SameTree m m₁) (h' : SameTree m₁ m') : SameTree m m' where
  ok := h'.ok
  reach := h.reach.trans h'.reach
  inos := h'.inos.trans h.inos
  type g := (h'.type g).trans (h.type g)
  real g := (h'.real g).trans (h.real g)
  entries g := (h'.entries g).trans (h.entries g)

theorem storeBlock_same (h : m.Ok) (hf : f ∈ m.inos) (hplain : (m.inode f).type ≠ .dir) {data : ℕ → UInt8} {len : ℕ}
    (hlen : len ≤ 4096) (hrun : (storeBlock f data len).run m = .ok () m') : SameTree m m' := by
  have hstep : MkStep m m' := .block f len data hf hplain hlen hrun
  obtain ⟨⟨ρ, hinv⟩, -⟩ := id h
  have hpost := storeBlock_post hinv hf data hlen
  rw [hrun] at hpost
  obtain ⟨-, -, -, hstored⟩ := hpost
  have hsame : ∀ g, (m'.inode g).type = (m.inode g).type ∧ (m'.inode g).real = (m.inode g).real ∧
      (m'.inode g).entries = (m.inode g).entries := by
    intro g
    by_cases hgf : g = f
    · subst hgf
      exact ⟨hstored.type, hstored.real, hstored.entries⟩
    · rw [hstored.other g hgf]
      exact ⟨rfl, rfl, rfl⟩
  exact ⟨hstep.ok h, .single hstep, hstored.inos, fun g => (hsame g).1, fun g => (hsame g).2.1, fun g => (hsame g).2.2⟩

theorem openFileLoop_same (fuel : ℕ) (content : List UInt8) (h : m.Ok) (hf : f ∈ m.inos)
    (hplain : (m.inode f).type ≠ .dir) (hrun : (openFileLoop f fuel content).run m = .ok () m') : SameTree m m' := by
  induction fuel generalizing m content with
  | zero =>
    rw [← (Outcome.ok.inj hrun).2]
    exact .refl h
  | succ fuel ih =>
    rw [openFileLoop] at hrun
    split_ifs at hrun
    · rw [← (Outcome.ok.inj hrun).2]
      exact .refl h
    · obtain ⟨_, m₁, hstore, hrest⟩ := Prog.bind_eq_ok.mp hrun
      have hsame := storeBlock_same h hf hplain (Nat.min_le_left _ _) hstore
      refine hsame.trans (ih _ hsame.ok ?_ ?_ hrest)
      · rw [hsame.inos]
        exact hf
      · rw [hsame.type]
        exact hplain

theorem openLink_same (target : List UInt8) (h : m.Ok) (hf : f ∈ m.inos) (hplain : (m.inode f).type ≠ .dir)
    (hrun : (openLink f target).run m = .ok () m') : SameTree m m' := by
  rw [openLink] at hrun
  split_ifs at hrun with hlen
  · obtain ⟨_, m₁, -, hstop⟩ := Prog.bind_eq_ok.mp hrun
    cases hstop
  · exact storeBlock_same h hf hplain (by omega) hrun

/-- The inodes of files are those with the numbers of files, and each file has one. -/
structure Numbered (F : ℕ → Prop) (m : Mksfs) : Prop where
  file : ∀ f ∈ m.inos, F (m.inode f).real → (m.inode f).type = .file
  num : ∀ f ∈ m.inos, (m.inode f).type = .file → F (m.inode f).real
  inj : ∀ f ∈ m.inos, ∀ g ∈ m.inos, (m.inode f).type = .file → (m.inode f).real = (m.inode g).real → f = g

/-- A part of the walk through the directory `c`: the entries `l` are added to it, and `n r` links to the file with
the number `r` in the tree. -/
structure Read (F : ℕ → Prop) (m m' : Mksfs) (c : ℕ) (l : List (ℕ × CString)) (n : ℕ → ℕ) : Prop where
  ok : m'.Ok
  numbered : Numbered F m'
  reach : ReflTransGen MkStep m m'
  keeps : Keeps m m'
  entries : (m'.inode c).entries = (m.inode c).entries ++ l
  other : ∀ g ∈ m.inos, g ≠ c → (m'.inode g).entries = (m.inode g).entries
  links : ∀ g ∈ m'.inos, (m'.inode g).type = .file → m'.links g = m.links g + n (m'.inode g).real
  seen : ∀ r, n r ≠ 0 → ∃ g, m'.Is g .file r

theorem Numbered.congr (h : Numbered F m) (hinos : m'.inos = m.inos)
    (htype : ∀ g, (m'.inode g).type = (m.inode g).type) (hreal : ∀ g, (m'.inode g).real = (m.inode g).real) :
    Numbered F m' := by
  refine ⟨fun f hf => ?_, fun f hf => ?_, fun f hf g hg => ?_⟩
  · rw [hinos] at hf
    rw [htype, hreal]
    exact h.file f hf
  · rw [hinos] at hf
    rw [htype, hreal]
    exact h.num f hf
  · rw [hinos] at hf hg
    rw [htype, hreal, hreal]
    exact h.inj f hf g hg

theorem NewInode.keeps (hinv : MkInv ρ m) {real : ℕ} {type : SfsType} (hnew : NewInode m m' real type) :
    Keeps m m' := by
  rintro g type' real' ⟨hg, htype, hreal⟩
  refine ⟨by rw [hnew.inos]; exact List.mem_cons_of_mem _ hg, ?_⟩
  rw [hnew.other g (hinv.ino_lt hg).ne]
  exact ⟨htype, hreal⟩

theorem Numbered.new (h : Numbered F m) (hinv : MkInv ρ m) {real : ℕ} {type : SfsType}
    (hnew : NewInode m m' real type)
    (hkind : type = .file ∧ F real ∧ (∀ g ∈ m.inos, (m.inode g).real ≠ real) ∨ type ≠ .file ∧ ¬ F real) :
    Numbered F m' := by
  have hold : ∀ g ∈ m.inos, m'.inode g = m.inode g := fun g hg => hnew.other g (hinv.ino_lt hg).ne
  have hcases : ∀ g ∈ m'.inos, g = m.nextIno ∨ g ∈ m.inos := by
    intro g hg
    rw [hnew.inos] at hg
    exact List.mem_cons.mp hg
  refine ⟨fun f hf hF => ?_, fun f hf htype => ?_, fun f hf g hg htype hreal => ?_⟩
  · rcases hcases f hf with rfl | hf'
    · rw [hnew.new] at hF ⊢
      rcases hkind with hfile | hplain
      · exact hfile.1
      · exact absurd hF hplain.2
    · rw [hold f hf'] at hF ⊢
      exact h.file f hf' hF
  · rcases hcases f hf with rfl | hf'
    · rw [hnew.new] at htype ⊢
      rcases hkind with hfile | hplain
      · exact hfile.2.1
      · exact absurd htype hplain.1
    · rw [hold f hf'] at htype ⊢
      exact h.num f hf' htype
  · rcases hcases f hf with rfl | hf' <;> rcases hcases g hg with rfl | hg'
    · rfl
    · rw [hnew.new] at htype hreal
      rw [hold g hg'] at hreal
      rcases hkind with hfile | hplain
      · exact absurd hreal.symm (hfile.2.2 g hg')
      · exact absurd htype hplain.1
    · rw [hold f hf'] at htype hreal
      rw [hnew.new] at hreal
      simp only at hreal
      rcases hkind with hfile | hplain
      · exact absurd hreal (hfile.2.2 f hf')
      · have hF := h.num f hf' htype
        rw [hreal] at hF
        exact absurd hF hplain.2
    · rw [hold f hf'] at htype hreal
      rw [hold g hg'] at hreal
      exact h.inj f hf' g hg' htype hreal

theorem SameTree.keeps (h : SameTree m m') : Keeps m m' := by
  rintro g type real ⟨hg, htype, hreal⟩
  exact ⟨by rw [h.inos]; exact hg, by rw [h.type]; exact htype, by rw [h.real]; exact hreal⟩

/-- Nothing is added to a directory. -/
theorem Read.of_same (h : SameTree m m') (hnum : Numbered F m) : Read F m m' c [] fun _ => 0 where
  ok := h.ok
  numbered := hnum.congr h.inos h.type h.real
  reach := h.reach
  keeps := h.keeps
  entries := by rw [h.entries, List.append_nil]
  other g _ _ := h.entries g
  links g _ _ := Mksfs.links_congr h.inos fun d _ => h.entries d
  seen r hr := absurd rfl hr

theorem Read.trans (h₀ : m.Ok) (h : Read F m m₁ c l n) (h' : Read F m₁ m' c l' n') :
    Read F m m' c (l ++ l') fun r => n r + n' r where
  ok := h'.ok
  numbered := h'.numbered
  reach := h.reach.trans h'.reach
  keeps := h.keeps.trans h'.keeps
  entries := by rw [h'.entries, h.entries, List.append_assoc]
  other g hg hne := by rw [h'.other g (h.keeps.mem hg).1 hne, h.other g hg hne]
  links := by
    intro g hg htype
    rw [h'.links g hg htype]
    by_cases hg₁ : g ∈ m₁.inos
    · obtain ⟨-, htype', hreal'⟩ := h'.keeps.mem hg₁
      rw [h.links g hg₁ (by rw [← htype']; exact htype), hreal']
      omega
    · -- a file that is new has had no names so far
      have hzero : n (m'.inode g).real = 0 := by
        by_contra hne
        obtain ⟨g', hg', htype', hreal'⟩ := h.seen _ hne
        obtain ⟨hmem, -, hreal''⟩ := h'.keeps.mem hg'
        have heq := h'.numbered.inj g hg g' hmem htype (by rw [hreal'', hreal'])
        exact hg₁ (heq ▸ hg')
      have hlinks₁ := h.ok.2.links_eq_zero hg₁
      have hlinks := h₀.2.links_eq_zero fun hg₀ => hg₁ (h.keeps.mem hg₀).1
      omega
  seen := by
    intro r hr
    by_cases hn : n r = 0
    · exact h'.seen r (by omega)
    · obtain ⟨g, hg⟩ := h.seen r hn
      exact ⟨g, h'.keeps _ _ _ hg⟩

/-- **An entry.** It counts as a name if it is for a file. -/
theorem Read.of_entry (h : m.Ok) (hnum : Numbered F m) (hc : c ∈ m.inos) (hf : f ∈ m.inos) {name : CString}
    (hrun : (addEntry c f name).run m = .ok () m')
    (hn : ∀ r, n r = if (m.inode f).type = .file ∧ r = (m.inode f).real then 1 else 0) :
    Read F m m' c [(f, name)] n := by
  have hstep : MkStep m m' := .entry c f name hc hf hrun
  obtain ⟨⟨ρ, hinv⟩, hdirs⟩ := id h
  have hpost := addEntry_post hinv hc hf name
  rw [hrun] at hpost
  obtain ⟨-, -, -, hent⟩ := hpost
  have hnum' := hnum.congr hent.inos hent.type hent.real
  refine ⟨hstep.ok h, hnum', .single hstep, ?_, ?_, ?_, ?_, ?_⟩
  · rintro g type real ⟨hg, htype, hreal⟩
    exact ⟨by rw [hent.inos]; exact hg, by rw [hent.type]; exact htype, by rw [hent.real]; exact hreal⟩
  · rw [hent.entries, if_pos rfl]
  · intro g hg hne
    rw [hent.entries, if_neg hne]
  · intro g hg htype
    rw [hent.inos] at hg
    rw [hent.type] at htype
    rw [hdirs.links_entered hc hent, hn, hent.real]
    congr 1
    by_cases hgf : g = f
    · subst hgf
      rw [if_pos rfl, if_pos ⟨htype, rfl⟩]
    · rw [if_neg hgf, if_neg ?_]
      rintro ⟨-, hreal⟩
      exact hgf (hnum.inj g hg f hf htype hreal)
  · intro r hr
    rw [hn] at hr
    simp only [ne_eq, ite_eq_right_iff, Nat.one_ne_zero, imp_false, not_not] at hr
    exact ⟨f, by rw [hent.inos]; exact hf, by rw [hent.type]; exact hr.1, by rw [hent.real]; exact hr.2.symm⟩

/-- A new inode, as seen from a directory that is there. -/
theorem Read.of_new (h : m.Ok) (hnum : Numbered F m) (hc : c ∈ m.inos) {real : ℕ} {type : SfsType}
    (htype : type ≠ .inval) (hrun : (allocCacheInode real 0 type).run m = .ok f m')
    (hkind : type = .file ∧ F real ∧ (∀ g ∈ m.inos, (m.inode g).real ≠ real) ∨ type ≠ .file ∧ ¬ F real) :
    Read F m m' c [] (fun _ => 0) ∧ m'.Is f type real ∧ f ∉ m.inos ∧ (m'.inode f).entries = [] := by
  have hstep : MkStep m m' := .inode real f type htype hrun
  obtain ⟨⟨ρ, hinv⟩, hdirs⟩ := id h
  have hpost := allocCacheInode_post hinv real type
  rw [hrun] at hpost
  obtain ⟨rfl, -, hnew⟩ := hpost
  have hold : ∀ g ∈ m.inos, m'.inode g = m.inode g := fun g hg => hnew.other g (hinv.ino_lt hg).ne
  refine ⟨⟨hstep.ok h, hnum.new hinv hnew hkind, .single hstep, hnew.keeps hinv, ?_, ?_, ?_, fun r hr => absurd rfl hr⟩,
    ⟨?_, ?_, ?_⟩, fun hmem => (hinv.ino_lt hmem).ne rfl, ?_⟩
  · rw [hold c hc, List.append_nil]
  · intro g hg _
    rw [hold g hg]
  · intro g _ _
    rw [hnew.links hinv]
    rfl
  · rw [hnew.inos]
    exact List.mem_cons_self
  all_goals rw [hnew.new]

/-- What is done in a directory that is new, as seen from one that is not. -/
theorem Read.sub (h₀ : m.Ok) (hnew : Read F m m₁ c [] fun _ => 0) (hf : f ∉ m.inos) (hc : c ∈ m.inos)
    (h : Read F m₁ m' f l n) : Read F m m' c [] n where
  ok := h.ok
  numbered := h.numbered
  reach := hnew.reach.trans h.reach
  keeps := hnew.keeps.trans h.keeps
  entries := by
    rw [h.other c (hnew.keeps.mem hc).1 fun heq => hf (heq ▸ hc), hnew.entries]
  other g hg hne := by
    rw [h.other g (hnew.keeps.mem hg).1 fun heq => hf (heq ▸ hg), hnew.other g hg hne]
  links := by
    intro g hg htype
    rw [h.links g hg htype]
    congr 1
    by_cases hg₁ : g ∈ m₁.inos
    · obtain ⟨-, htype', -⟩ := h.keeps.mem hg₁
      exact hnew.links g hg₁ (by rw [← htype']; exact htype)
    · rw [hnew.ok.2.links_eq_zero hg₁, h₀.2.links_eq_zero fun hg₀ => hg₁ (hnew.keeps.mem hg₀).1]
  seen := h.seen

/-! ### The walk -/

theorem searchCacheInode_some {real : ℕ} (hsearch : m.searchCacheInode real = some f) :
    f ∈ m.inos ∧ (m.inode f).real = real :=
  ⟨List.mem_of_find?_eq_some hsearch, by simpa using List.find?_some hsearch⟩

theorem searchCacheInode_none {real : ℕ} (hsearch : m.searchCacheInode real = none) :
    ∀ g ∈ m.inos, (m.inode g).real ≠ real := by
  intro g hg
  simpa using List.find?_eq_none.mp hsearch g hg

theorem addFile_read (h : m.Ok) (hnum : Numbered F m) (hc : c ∈ m.inos) {name : CString} {real : ℕ}
    {content : List UInt8} (hF : F real) (hrun : (addFile c name real content).run m = .ok () m') :
    ∃ f, m'.Is f .file real ∧ Read F m m' c [(f, name)] fun r => if r = real then 1 else 0 := by
  rw [addFile, Prog.get_bind_eq_ok] at hrun
  cases hsearch : m.searchCacheInode real with
  | some f =>
    rw [hsearch] at hrun
    obtain ⟨hf, hreal⟩ := searchCacheInode_some hsearch
    have htype := hnum.file f hf (by rw [hreal]; exact hF)
    have hread : Read F m m' c [(f, name)] fun r => if r = real then 1 else 0 :=
      .of_entry h hnum hc hf hrun fun r => by simp [htype, hreal]
    exact ⟨f, hread.keeps _ _ _ ⟨hf, htype, hreal⟩, hread⟩
  | none =>
    rw [hsearch] at hrun
    obtain ⟨f, m₁, halloc, hrest⟩ := Prog.bind_eq_ok.mp hrun
    obtain ⟨_, m₂, hopen, hentry⟩ := Prog.bind_eq_ok.mp hrest
    obtain ⟨hnew, his, -, -⟩ := Read.of_new h hnum hc SfsType.noConfusion halloc
      (Or.inl ⟨rfl, hF, searchCacheInode_none hsearch⟩)
    have hsame := openFileLoop_same _ _ hnew.ok his.1 (by rw [his.2.1]; exact SfsType.noConfusion) hopen
    have hread₂ : Read F m m₂ c [] fun _ => 0 := hnew.trans h (.of_same hsame hnew.numbered)
    obtain ⟨hf₂, htype₂, hreal₂⟩ := hsame.keeps _ _ _ his
    have hread : Read F m₂ m' c [(f, name)] fun r => if r = real then 1 else 0 :=
      .of_entry hread₂.ok hread₂.numbered (hread₂.keeps.mem hc).1 hf₂ hentry fun r => by simp [htype₂, hreal₂]
    have hall := hread₂.trans h hread
    simp only [List.nil_append, Nat.zero_add] at hall
    exact ⟨f, hread.keeps _ _ _ ⟨hf₂, htype₂, hreal₂⟩, hall⟩

theorem addLink_read (h : m.Ok) (hnum : Numbered F m) (hc : c ∈ m.inos) {name : CString} {real : ℕ}
    {target : List UInt8} (hF : ¬ F real) (hrun : (addLink c name real target).run m = .ok () m') :
    ∃ f, m'.Is f .link real ∧ Read F m m' c [(f, name)] fun _ => 0 := by
  rw [addLink] at hrun
  obtain ⟨f, m₁, halloc, hrest⟩ := Prog.bind_eq_ok.mp hrun
  obtain ⟨_, m₂, hopen, hentry⟩ := Prog.bind_eq_ok.mp hrest
  obtain ⟨hnew, his, -, -⟩ := Read.of_new h hnum hc SfsType.noConfusion halloc (Or.inr ⟨SfsType.noConfusion, hF⟩)
  have hsame := openLink_same _ hnew.ok his.1 (by rw [his.2.1]; exact SfsType.noConfusion) hopen
  have hread₂ : Read F m m₂ c [] fun _ => 0 := hnew.trans h (.of_same hsame hnew.numbered)
  have his₂ := hsame.keeps _ _ _ his
  have hread : Read F m₂ m' c [(f, name)] fun _ => 0 :=
    .of_entry hread₂.ok hread₂.numbered (hread₂.keeps.mem hc).1 his₂.1 hentry fun r => by simp [his₂.2.1]
  exact ⟨f, hread.keeps _ _ _ his₂, hread₂.trans h hread⟩

/-- The two entries that a directory has first. -/
theorem addDots_read (h : m.Ok) (hnum : Numbered F m) (hf : f ∈ m.inos) (hc : c ∈ m.inos)
    (hfdir : (m.inode f).type = .dir) (hcdir : (m.inode c).type = .dir)
    (hrun : (addDots f c).run m = .ok () m') : Read F m m' f [(f, dot), (c, dotdot)] fun _ => 0 := by
  rw [addDots] at hrun
  obtain ⟨_, m₁, hdot, hdotdot⟩ := Prog.bind_eq_ok.mp hrun
  have hread₁ : Read F m m₁ f [(f, dot)] fun _ => 0 := .of_entry h hnum hf hf hdot fun r => by simp [hfdir]
  obtain ⟨hc₁, hcdir₁, -⟩ := hread₁.keeps.mem hc
  have hread₂ : Read F m₁ m' f [(c, dotdot)] fun _ => 0 :=
    .of_entry hread₁.ok hread₁.numbered (hread₁.keeps.mem hf).1 hc₁ hdotdot fun r => by simp [hcdir₁, hcdir]
  exact hread₁.trans h hread₂

theorem visible_cases {name : HostName} {p : MkProg Unit} (hrun : (visible name p).run m = .ok () m') :
    name.hidden ∧ m' = m ∨ ¬ name.hidden ∧ p.run m = .ok () m' := by
  unfold visible at hrun
  by_cases hhidden : name.hidden
  · rw [if_pos hhidden] at hrun
    exact Or.inl ⟨hhidden, (Outcome.ok.inj hrun).2.symm⟩
  · rw [if_neg hhidden] at hrun
    split_ifs at hrun
    · cases hrun
    · exact Or.inr ⟨hhidden, hrun⟩

/-- One turn of the loop, and the turns after it. -/
theorem Read.entry_then (h : m.Ok) (hnum : Numbered F m) {e : HostEntry} {rest : List HostEntry} {k : ℕ → ℕ}
    (hfirst : e.name.hidden ∧ m₁ = m ∨ ¬ e.name.hidden ∧
      ∃ f, m₁.Is f e.type e.real ∧ Read F m m₁ c [(f, e.name.toCString)] k)
    (hrest : m₁.Ok → Numbered F m₁ → Keeps m m₁ → ∃ l,
      List.Forall₂ (fun e x => x.2 = e.name.toCString ∧ m'.Is x.1 e.type e.real) rest l ∧ Read F m₁ m' c l n) :
    ∃ l, List.Forall₂ (fun e x => x.2 = e.name.toCString ∧ m'.Is x.1 e.type e.real) (e.before rest) l ∧
      Read F m m' c l fun r => (if e.name.hidden then 0 else k r) + n r := by
  unfold HostEntry.before
  rcases hfirst with ⟨hhidden, rfl⟩ | ⟨hvisible, f, his, hread⟩
  · obtain ⟨l, hlisted, hread'⟩ := hrest h hnum fun _ _ _ his => his
    simp only [if_pos hhidden, Nat.zero_add]
    exact ⟨l, hlisted, hread'⟩
  · obtain ⟨l, hlisted, hread'⟩ := hrest hread.ok hread.numbered hread.keeps
    simp only [if_neg hvisible]
    exact ⟨(f, e.name.toCString) :: l, .cons ⟨rfl, hread'.keeps _ _ _ his⟩ hlisted, hread.trans h hread'⟩

/-- **The walk through a directory**: its entries are those of the host, and every name is a link. -/
theorem readEntries_read (t : HostDir) (h : m.Ok) (hnum : Numbered F m) (hc : c ∈ m.inos)
    (hdir : (m.inode c).type = .dir) (ht : t.Numbers F) (hrun : (readEntries c t).run m = .ok () m') :
    ∃ l, Listed m' t l ∧ Read F m m' c l fun r => t.links r := by
  induction t generalizing m c m' with
  | nil =>
    rw [← (Outcome.ok.inj hrun).2]
    exact ⟨[], .nil, .of_same (.refl h) hnum⟩
  | file name real content rest ih =>
    rw [readEntries] at hrun
    obtain ⟨_, m₁, hfirst, hrest⟩ := Prog.bind_eq_ok.mp hrun
    refine Read.entry_then (e := ⟨name, .file, real⟩) h hnum ((visible_cases hfirst).imp id fun ⟨hvisible, hadd⟩ =>
      ⟨hvisible, addFile_read h hnum hc ht.1 hadd⟩) fun h₁ hnum₁ hkeeps => ?_
    obtain ⟨hc₁, hdir₁, -⟩ := hkeeps.mem hc
    exact ih h₁ hnum₁ hc₁ (hdir₁.trans hdir) ht.2 hrest
  | link name real target rest ih =>
    rw [readEntries] at hrun
    obtain ⟨_, m₁, hfirst, hrest⟩ := Prog.bind_eq_ok.mp hrun
    obtain ⟨l, hlisted, hread⟩ := Read.entry_then (e := ⟨name, .link, real⟩) (k := fun _ => 0) h hnum
      ((visible_cases hfirst).imp id fun ⟨hvisible, hadd⟩ => ⟨hvisible, addLink_read h hnum hc ht.1 hadd⟩)
      fun h₁ hnum₁ hkeeps => by
        obtain ⟨hc₁, hdir₁, -⟩ := hkeeps.mem hc
        exact ih h₁ hnum₁ hc₁ (hdir₁.trans hdir) ht.2 hrest
    simp only [ite_self, Nat.zero_add] at hread
    exact ⟨l, hlisted, hread⟩
  | dir name real sub rest ihsub ih =>
    rw [readEntries] at hrun
    obtain ⟨_, m₁, hfirst, hrest⟩ := Prog.bind_eq_ok.mp hrun
    -- a new directory with the two entries, the walk through it, and the entry for it
    have hturn : name.hidden ∧ m₁ = m ∨ ¬ name.hidden ∧
        ∃ f, m₁.Is f .dir real ∧ Read F m m₁ c [(f, name.toCString)] fun r => sub.links r := by
      rcases visible_cases hfirst with hhidden | ⟨hvisible, hadd⟩
      · exact Or.inl hhidden
      refine Or.inr ⟨hvisible, ?_⟩
      rw [Prog.get_bind_eq_ok, Prog.assert_bind_eq_ok] at hadd
      obtain ⟨f, m₂, halloc, hadd⟩ := Prog.bind_eq_ok.mp hadd.2
      obtain ⟨_, m₃, hdots, hadd⟩ := Prog.bind_eq_ok.mp hadd
      obtain ⟨_, m₄, hsub, hentry⟩ := Prog.bind_eq_ok.mp hadd
      obtain ⟨hnew, his, hfresh, -⟩ := Read.of_new h hnum hc SfsType.noConfusion halloc
        (Or.inr ⟨SfsType.noConfusion, ht.1⟩)
      obtain ⟨hc₂, hdir₂, -⟩ := hnew.keeps.mem hc
      have hread₃ := addDots_read hnew.ok hnew.numbered his.1 hc₂ his.2.1 (hdir₂.trans hdir) hdots
      have his₃ := hread₃.keeps _ _ _ his
      obtain ⟨l, -, hread₄⟩ := ihsub hread₃.ok hread₃.numbered his₃.1 his₃.2.1 ht.2.1 hsub
      have hread : Read F m m₄ c [] fun r => sub.links r := by
        have hinner := hread₃.trans hnew.ok hread₄
        simp only [Nat.zero_add] at hinner
        exact hnew.sub h hfresh hc hinner
      have his₄ := hread₄.keeps _ _ _ his₃
      have hlast : Read F m₄ m₁ c [(f, name.toCString)] fun _ => 0 :=
        .of_entry hread.ok hread.numbered (hread.keeps.mem hc).1 his₄.1 hentry fun r => by simp [his₄.2.1]
      exact ⟨f, hlast.keeps _ _ _ his₄, hread.trans h hlast⟩
    refine Read.entry_then (e := ⟨name, .dir, real⟩) h hnum hturn fun h₁ hnum₁ hkeeps => ?_
    obtain ⟨hc₁, hdir₁, -⟩ := hkeeps.mem hc
    exact ih h₁ hnum₁ hc₁ (hdir₁.trans hdir) ht.2.2 hrest
  | other name rest ih =>
    rw [readEntries] at hrun
    obtain ⟨_, m₁, hfirst, hrest⟩ := Prog.bind_eq_ok.mp hrun
    have hm₁ : m₁ = m := by
      rcases visible_cases hfirst with ⟨-, heq⟩ | ⟨-, hpure⟩
      · exact heq
      · exact (Outcome.ok.inj hpure).2.symm
    subst hm₁
    exact ih h hnum hc hdir ht hrest

end walk

/-! ### The whole tree -/

section tree

variable {img : ℕ → Block} {nblocks : ℕ} {t : HostDir} {m : Mksfs} {F : ℕ → Prop}

/-- The program has gone over the tree, and closes the image next. -/
def Walked (img : ℕ → Block) (nblocks : ℕ) (t : HostDir) (m : Mksfs) : Prop :=
  (createSfs >>= fun _ => openDir 1 1 t).run (Mksfs.init img nblocks) = .ok () m

/-- The whole program is the walk and `close_sfs`. -/
theorem mksfs_run_ok {m' : Mksfs} : (mksfs t).run (Mksfs.init img nblocks) = .ok () m' ↔
    ∃ m, Walked img nblocks t m ∧ closeSfs.run m = .ok () m' := by
  unfold Walked
  rw [mksfs, Prog.bind_eq_ok]
  constructor
  · rintro ⟨_, m₀, hcreate, hrest⟩
    obtain ⟨_, m, hopen, hclose⟩ := Prog.bind_eq_ok.mp hrest
    exact ⟨m, Prog.bind_eq_ok.mpr ⟨(), m₀, hcreate, hopen⟩, hclose⟩
  · rintro ⟨m, hwalked, hclose⟩
    obtain ⟨_, m₀, hcreate, hopen⟩ := Prog.bind_eq_ok.mp hwalked
    exact ⟨(), m₀, hcreate, Prog.bind_eq_ok.mpr ⟨(), m, hopen, hclose⟩⟩

/-- **The tree on the image**, when files have numbers of their own. -/
theorem Walked.tree (h : Walked img nblocks t m) (ht : t.Numbers F) (hzero : ¬ F 0) :
    MkReach img nblocks m ∧ Numbered F m ∧
      (∃ l, (m.inode 1).entries = (1, dot) :: (1, dotdot) :: l ∧ Listed m t l) ∧
      ∀ f ∈ m.inos, (m.inode f).type = .file → m.links f = t.links (m.inode f).real := by
  obtain ⟨_, m₀, hcreate, hopen⟩ := Prog.bind_eq_ok.mp h
  obtain ⟨_, m₁, hdots, hentries⟩ := Prog.bind_eq_ok.mp hopen
  have hcreate' := hcreate
  rw [createSfs_run] at hcreate'
  split_ifs at hcreate' with hlt
  have hm₀ : m₀ = Mksfs.created img nblocks := (Outcome.ok.inj hcreate').2.symm
  subst hm₀
  have hok := Mksfs.created_ok hlt
  have hroot := Mksfs.created_root img nblocks
  have hone : ∀ g ∈ (Mksfs.created img nblocks).inos, g = 1 := fun g hg => List.mem_singleton.mp hg
  have hnum : Numbered F (Mksfs.created img nblocks) := by
    refine ⟨fun f hf hF => ?_, fun f hf htype => ?_, fun f hf g hg _ _ => ?_⟩
    · rw [hone f hf, hroot] at hF
      exact absurd hF hzero
    · rw [hone f hf, hroot] at htype
      exact SfsType.noConfusion htype
    · rw [hone f hf, hone g hg]
  have hmem := hok.2.root.1
  have hdir := hok.2.root.2
  have hread₁ := addDots_read hok hnum hmem hmem hdir hdir hdots
  obtain ⟨hmem₁, hdir₁, -⟩ := hread₁.keeps.mem hmem
  obtain ⟨l, hlisted, hread₂⟩ := readEntries_read t hread₁.ok hread₁.numbered hmem₁ (hdir₁.trans hdir) ht hentries
  have hread := hread₁.trans hok hread₂
  refine ⟨⟨_, hcreate, hread.reach⟩, hread.numbered, ⟨l, ?_, hlisted⟩, fun f hf htype => ?_⟩
  · rw [hread.entries, hroot]
    rfl
  · have hnone : (Mksfs.created img nblocks).links f = 0 := by
      rw [Mksfs.links, show (Mksfs.created img nblocks).inos = [1] from rfl, List.map_singleton, hroot]
      rfl
    rw [hread.links f hf htype, hnone, Nat.zero_add, Nat.zero_add]

end tree

end Ucore.Tools
