import Ucore.Mm.PageTables
import Mathlib.Tactic.Common

/-!
# The functions on one address

What `get_pte`, `page_insert`, `page_remove` and `pgdir_alloc_page` do to the page tables.

* `Layout.Frame` says that the pages outside the page tables are as before, and `Grown` that moreover no page has been
  freed.
* `getPte_post` finds or makes a page table, at which nothing changes at any slot. `pageInsert_post` sets one slot, and
  so does `pgdirAllocPage_post`, with a page that was free. `pageRemove_post` clears one.
-/

namespace Ucore.Vm

open Ucore.Lib

variable {s s₁ s' : VmState} {d i t p page la : ℕ} {x y : Slot} {e : Pte} {l : Layout}

theorem pageRef_setRef_self {n : ℤ} : (s.setRef page n).pageRef page = n := Function.update_self _ _ _

theorem pageRef_setRef_of_ne {n : ℤ} (h : p ≠ page) : (s.setRef page n).pageRef p = s.pageRef p :=
  Function.update_of_ne h _ _

/-- The kept pages are as before, up to the entries that a page directory has for itself. -/
structure Layout.Frame (l : Layout) (s s' : VmState) : Prop where
  entry : ∀ p, l.kept p → ∀ k, (p ∈ l.dirs → l.top ≤ k) → s'.entry p k = s.entry p k
  ref : ∀ p, l.kept p → s'.pageRef p = s.pageRef p
  byte : ∀ p, l.kept p → s'.byte p = s.byte p
  only : OnlyPages s s'

theorem Layout.Frame.refl (l : Layout) (s : VmState) : l.Frame s s :=
  ⟨fun _ _ _ _ => rfl, fun _ _ => rfl, fun _ _ => rfl, OnlyPages.refl s⟩

theorem Layout.Frame.trans (h : l.Frame s s₁) (h' : l.Frame s₁ s') : l.Frame s s' :=
  ⟨fun p hp k hk => (h'.entry p hp k hk).trans (h.entry p hp k hk), fun p hp => (h'.ref p hp).trans (h.ref p hp),
    fun p hp => (h'.byte p hp).trans (h.byte p hp), h.only.trans h'.only⟩

/-- Fewer pages are kept. -/
theorem Layout.Frame.release (h : l.Frame s s') (page : ℕ) : (l.release page).Frame s s' :=
  ⟨fun p hp => h.entry p hp.1, fun p hp => h.ref p hp.1, fun p hp => h.byte p hp.1, h.only⟩

/-- Pages have been taken from the free ones, and the others are as before. -/
structure Grown (s s' : VmState) : Prop where
  free : ∀ p ∈ s'.free, p ∈ s.free
  ref : ∀ p, p ∉ s.free → s'.pageRef p = s.pageRef p
  byte : ∀ p, p ∉ s.free → s'.byte p = s.byte p

theorem Grown.refl (s : VmState) : Grown s s := ⟨fun _ h => h, fun _ _ => rfl, fun _ _ => rfl⟩

theorem Grown.trans (h : Grown s s₁) (h' : Grown s₁ s') : Grown s s' :=
  ⟨fun p hp => h.free p (h'.free p hp),
    fun p hp => (h'.ref p fun hmem => hp (h.free p hmem)).trans (h.ref p hp),
    fun p hp => (h'.byte p fun hmem => hp (h.free p hmem)).trans (h.byte p hp)⟩

theorem grown_refused (s : VmState) : Grown s s.refused := ⟨fun _ h => h, fun _ _ => rfl, fun _ _ => rfl⟩

theorem frame_refused (l : Layout) (s : VmState) : l.Frame s s.refused :=
  ⟨fun _ _ _ _ => rfl, fun _ _ => rfl, fun _ _ => rfl, ⟨rfl, rfl, rfl, rfl, rfl, rfl, rfl, rfl⟩⟩

theorem frame_taken (l : Layout) (s : VmState) (page : ℕ) : l.Frame s (s.taken page) :=
  ⟨fun _ _ _ _ => rfl, fun _ _ => rfl, fun _ _ => rfl, ⟨rfl, rfl, rfl, rfl, rfl, rfl, rfl, rfl⟩⟩

/-! ### `get_pte` -/

/-- The page table for an entry is there, and nothing has changed at any slot. -/
structure Layout.Tabled (l : Layout) (d i t : ℕ) (s s' : VmState) : Prop where
  ok : l.Ok s'
  table : l.TableAt s' d i t
  pte : ∀ x ∈ l.slots, s'.pte x = s.pte x
  tables : ∀ p, l.IsTable s' p → l.IsTable s p ∨ p ∈ s.free
  /-- The other entries of the page directories are as before. -/
  pde : ∀ d' ∈ l.dirs, ∀ k, ¬ (d' = d ∧ k = i) → s'.entry d' k = s.entry d' k
  frame : l.Frame s s'
  grown : Grown s s'

theorem ptx_lt (la : ℕ) : ptx la < 1024 := Nat.mod_lt _ (Nat.succ_pos _)

/-- The address belongs to the page directory alone. -/
theorem slotOf_mem_slots (hd : d ∈ l.dirs) (hla : pdx la < l.top) : slotOf d la ∈ l.slots :=
  Layout.mem_slots.mpr ⟨hd, hla, ptx_lt la⟩

theorem getPte_false_run (al : Allocs) (d la : ℕ) (s : VmState) : (getPte al d la false).run s =
    .ok (if (s.entry d (pdx la)).present then some (s.entry d (pdx la)).ppn else none) s := by
  unfold getPte
  rw [Prog.run_bind, Prog.run_get, Outcome.andThen_ok, if_neg Bool.false_ne_true]
  split_ifs <;> rfl

/-- A free page becomes a page table. -/
theorem Layout.Ok.tabled (h : l.Ok s) (hd : d ∈ l.dirs) (hi : i < l.top) (hpage : page ∈ s.free)
    (habsent : (s.entry d i).present = false) : l.Tabled d i page s ((s.taken page).tabled d i page) := by
  have hkept : ¬ l.kept page := h.free_not_kept hpage
  have hdir : page ∉ l.dirs := h.free_not_dir hpage
  have htaken : (l.keep page).Ok (s.taken page) := h.take hpage
  have hok := htaken.makeTable (Or.inl rfl) hd hi hdir habsent
  rw [release_keep hkept] at hok
  have hother : ∀ p, p ∉ s.free → p ≠ page := fun p hp heq => hp (heq ▸ hpage)
  refine ⟨hok, ⟨hd, hi, ?_, ?_⟩, fun x hx => ?_, fun p hp => ?_, fun d' hd' k hne => ?_,
    ⟨fun p hp k hk => ?_, fun p hp => ?_, fun p hp => ?_, ?_⟩,
    ⟨fun p hp => (mem_free_taken.mp hp).1, fun p hp => ?_, fun p hp => ?_⟩⟩
  · rw [entry_tabled_self, Pte.present_table]
  · rw [entry_tabled_self]
  · exact htaken.pte_tabled (Or.inl rfl) hd hdir habsent hx
  · obtain ⟨d', i', ht⟩ := hp
    by_cases hself : d' = d ∧ i' = i
    · have hppn := ht.ppn
      rw [hself.1, hself.2, entry_tabled_self] at hppn
      rw [← hppn]
      exact Or.inr hpage
    · refine Or.inl ⟨d', i', ht.congr (entry_tabled_of_ne (s := s.taken page) (fun heq => ?_) hself).symm⟩
      exact hdir (heq ▸ ht.dir)
  · exact entry_tabled_of_ne (s := s.taken page) (fun heq => hdir (heq ▸ hd')) hne
  · refine entry_tabled_of_ne (s := s.taken page) (fun heq => hkept (heq ▸ hp)) ?_
    rintro ⟨rfl, rfl⟩
    exact absurd hi (Nat.not_lt.mpr (hk hd))
  · exact Function.update_of_ne (fun heq : p = page => hkept (heq ▸ hp)) _ _
  · exact Function.update_of_ne (fun heq : p = page => hkept (heq ▸ hp)) _ _
  · exact ⟨rfl, rfl, rfl, rfl, rfl, rfl, rfl, rfl⟩
  · exact Function.update_of_ne (hother p hp) _ _
  · exact Function.update_of_ne (hother p hp) _ _

/-- **`get_pte`** finds the page table, or makes it. -/
theorem getPte_post (al : Allocs) (h : l.Ok s) (hd : d ∈ l.dirs) (hla : pdx la < l.top) :
    ((getPte al d la true).run s).Post
      (fun r s' => (r = none ∧ s' = s.refused) ∨ ∃ t, r = some t ∧ l.Tabled d (pdx la) t s s')
      (fun _ _ => False) fun _ => False := by
  unfold getPte
  rw [Prog.run_bind, Prog.run_get, Outcome.andThen_ok, if_pos (c := true = true) rfl]
  split_ifs with hpresent
  · exact Or.inr ⟨_, rfl, h, ⟨hd, hla, hpresent, rfl⟩, fun _ _ => rfl, fun _ hp => Or.inl hp, fun _ _ _ _ => rfl,
      .refl l s, .refl s⟩
  · refine (allocPages_post al s).bind ?_
    rintro r s₁ (⟨rfl, rfl⟩ | ⟨page, hpage, rfl, rfl⟩)
    · exact Or.inl ⟨rfl, rfl⟩
    · exact Or.inr ⟨page, rfl, h.tabled hd hla hpage (Bool.eq_false_iff.mpr hpresent)⟩

/-! ### `page_insert` -/

/-- A slot has been set. -/
structure Layout.Inserted (l : Layout) (x : Slot) (page : ℕ) (e : Pte) (s s' : VmState) : Prop where
  ok : (l.release page).Ok s'
  pte : ∀ y ∈ l.slots, s'.pte y = if y = x then e else s.pte y
  pde : ∀ d ∈ l.dirs, ∀ k, ¬ (d = x.dir ∧ k = x.pde) → s'.entry d k = s.entry d k
  frame : (l.release page).Frame s s'
  /-- Nothing was there before, and nothing has been freed. -/
  grown : (s.pte x).page = none → Grown (s.setRef page (s.pageRef page + 1)) s'

/-- What `page_insert` does with the entry that it has found. -/
def setPte (table i page : ℕ) (perm : BitVec 12) : VmProg Unit := do
  setPageRef page fun n => n + 1
  let s ← Prog.get
  (if (s.entry table i).present then
    if (s.entry table i).ppn = page then setPageRef page fun n => n - 1 else pageRemovePte table i
  else pure () : VmProg Unit)
  setEntry table i ⟨page, pteP ||| perm⟩

theorem pageInsert_eq (al : Allocs) (d page la : ℕ) (perm : BitVec 12) : pageInsert al d page la perm = (do
    match ← getPte al d la true with
    | none => Prog.throw .noMem
    | some table => setPte table (ptx la) page perm) := rfl

theorem setPte_run_of_absent {k : ℕ} (perm : BitVec 12) (h : (s.entry t k).present = false) :
    (setPte t k page perm).run s = .ok () (s.mapped t k page ⟨page, pteP ||| perm⟩) := by
  unfold setPte
  have hinc : (setPageRef page fun n => n + 1).run s = .ok () (s.setRef page (s.pageRef page + 1)) := rfl
  rw [Prog.bind_of_ok hinc]
  rw [Prog.run_bind, Prog.run_get, Outcome.andThen_ok]
  have hentry : ((s.setRef page (s.pageRef page + 1)).entry t k).present = false := h
  rw [if_neg (Bool.eq_false_iff.mp hentry)]
  rfl

theorem setPte_run_of_same {k : ℕ} (perm : BitVec 12) (h : (s.entry t k).present = true) (hpage : (s.entry t k).ppn = page) :
    (setPte t k page perm).run s = .ok () (s.setEntry t k ⟨page, pteP ||| perm⟩) := by
  unfold setPte
  have hinc : (setPageRef page fun n => n + 1).run s = .ok () (s.setRef page (s.pageRef page + 1)) := rfl
  rw [Prog.bind_of_ok hinc]
  rw [Prog.run_bind, Prog.run_get, Outcome.andThen_ok]
  have hentry : ((s.setRef page (s.pageRef page + 1)).entry t k).present = true := h
  have hppn : ((s.setRef page (s.pageRef page + 1)).entry t k).ppn = page := hpage
  rw [if_pos hentry, if_pos hppn]
  have hback : (s.setRef page (s.pageRef page + 1)).setRef page
      ((s.setRef page (s.pageRef page + 1)).pageRef page - 1) = s := by
    unfold VmState.setRef
    simp only [Function.update_self, Function.update_idem, Int.add_sub_cancel, Function.update_eq_self]
  have hdec : (setPageRef page fun n => n - 1).run (s.setRef page (s.pageRef page + 1)) = .ok () s :=
    congrArg (Outcome.ok ()) hback
  exact Prog.bind_of_ok hdec

/-- Another page was there: it goes, and then the new one comes. -/
theorem setPte_run_of_other {k : ℕ} (perm : BitVec 12) (h : (s.entry t k).present = true) (hpage : (s.entry t k).ppn ≠ page) :
    (setPte t k page perm).run s =
      .ok () ((s.unmapped t k (s.entry t k).ppn).mapped t k page ⟨page, pteP ||| perm⟩) := by
  unfold setPte
  have hinc : (setPageRef page fun n => n + 1).run s = .ok () (s.setRef page (s.pageRef page + 1)) := rfl
  rw [Prog.bind_of_ok hinc]
  rw [Prog.run_bind, Prog.run_get, Outcome.andThen_ok]
  have hentry : ((s.setRef page (s.pageRef page + 1)).entry t k).present = true := h
  have hppn : ((s.setRef page (s.pageRef page + 1)).entry t k).ppn ≠ page := hpage
  rw [if_pos hentry, if_neg hppn, Prog.bind_of_ok (pageRemovePte_run_of_present hentry)]
  refine congrArg (Outcome.ok ()) ?_
  have hold : (s.setRef page (s.pageRef page + 1)).pageRef (s.entry t k).ppn = s.pageRef (s.entry t k).ppn :=
    Function.update_of_ne hpage _ _
  show ((s.setRef page (s.pageRef page + 1)).unmapped t k (s.entry t k).ppn).setEntry t k _ = _
  unfold VmState.mapped VmState.unmapped
  rw [hold]
  split_ifs with hzero
  · unfold VmState.freed VmState.setRef VmState.setEntry
    simp only [Function.update_idem, Function.update_self]
    rw [Function.update_of_ne hpage.symm, Function.update_comm hpage]
  · unfold VmState.setRef VmState.setEntry
    simp only [Function.update_idem, Function.update_self]
    rw [Function.update_of_ne hpage.symm, Function.update_comm hpage]

namespace Layout

variable {k : ℕ}

theorem Ok.frame_setEntry (h : l.Ok s) (ht : l.TableAt s d i t) : l.Frame s (s.setEntry t k e) := by
  refine ⟨fun p hp j _ => ?_, fun _ _ => rfl, fun _ _ => rfl, ⟨rfl, rfl, rfl, rfl, rfl, rfl, rfl, rfl⟩⟩
  rw [entry_setEntry, if_neg]
  rintro ⟨rfl, -⟩
  exact h.tableKept ht.isTable hp

/-- The entries of the page directories stay. -/
theorem Ok.entry_setEntry_dir (h : l.Ok s) (ht : l.TableAt s d i t) (hd : p ∈ l.dirs) (j : ℕ) :
    (s.setEntry t k e).entry p j = s.entry p j := by
  rw [entry_setEntry, if_neg fun hand => h.table_not_dir ht hd hand.1.symm]

theorem Ok.frame_mapped (h : l.Ok s) (ht : l.TableAt s d i t) : (l.release page).Frame s (s.mapped t k page e) := by
  have hset : l.Frame s (s.setEntry t k e) := h.frame_setEntry ht
  exact ⟨fun p hp => hset.entry p hp.1, fun p hp => Function.update_of_ne hp.2 _ _, fun _ _ => rfl,
    ⟨rfl, rfl, rfl, rfl, rfl, rfl, rfl, rfl⟩⟩

theorem onlyPages_unmapped : OnlyPages s (s.unmapped t k page) := by
  unfold VmState.unmapped
  split_ifs <;> exact ⟨rfl, rfl, rfl, rfl, rfl, rfl, rfl, rfl⟩

theorem byte_unmapped : (s.unmapped t k page).byte = s.byte := by
  unfold VmState.unmapped
  split_ifs <;> rfl

theorem Ok.frame_unmapped (h : l.Ok s) (ht : l.TableAt s d i t) (hpage : ¬ l.kept page) :
    l.Frame s (s.unmapped t k page) := by
  refine ⟨fun p hp j hj => ?_, fun p hp => ?_, fun p _ => by rw [byte_unmapped], onlyPages_unmapped⟩
  · rw [entry_unmapped]
    exact (h.frame_setEntry ht).entry p hp j hj
  · rw [pageRef_unmapped]
    exact Function.update_of_ne (fun heq : p = page => hpage (heq ▸ hp)) _ _

theorem Ok.pte_unmapped (h : l.Ok s) (ht : l.TableAt s x.dir x.pde t) (hy : y ∈ l.slots) :
    (s.unmapped t x.idx page).pte y = if y = x then .zero else s.pte y := by
  have hentry : (s.unmapped t x.idx page).entry = (s.setEntry t x.idx .zero).entry := entry_unmapped x.idx
  rw [← h.pte_setEntry ht hy]
  exact pte_congr (by rw [hentry]) fun _ => by rw [hentry]

/-- A page that `page_insert` can be called with: it is not free, and not in use for something else. -/
structure Insertable (l : Layout) (s : VmState) (page : ℕ) : Prop where
  free : page ∉ s.free
  table : ¬ l.IsTable s page
  dir : page ∉ l.dirs
  ref : l.kept page → s.pageRef page = 0

theorem Ok.setPte_post (h : l.Ok s) (ht : l.TableAt s x.dir x.pde t) (hx : x ∈ l.slots) (hpage : l.Insertable s page)
    (perm : BitVec 12) : ∃ s', (setPte t x.idx page perm).run s = .ok () s' ∧
      l.Inserted x page ⟨page, pteP ||| perm⟩ s s' := by
  have he : Pte.page ⟨page, pteP ||| perm⟩ = some page := Pte.page_of_present (Pte.present_insert perm)
  have hpte : s.pte x = s.entry t x.idx := ht.pte
  cases hold : (s.entry t x.idx).present with
  | false =>
    have hnone : (s.pte x).page = none := by rw [hpte, Pte.page_eq_none, hold]
    refine ⟨_, setPte_run_of_absent perm hold, ⟨?_, fun y hy => ?_, fun d' hd' k _ => ?_, h.frame_mapped ht, fun _ => ?_⟩⟩
    · exact h.map ht hx hnone hpage.free hpage.table hpage.dir hpage.ref he
    · exact h.pte_setEntry ht hy
    · exact h.entry_setEntry_dir ht hd' k
    · exact ⟨fun _ hp => hp, fun _ _ => rfl, fun _ _ => rfl⟩
  | true =>
    by_cases hsame : (s.entry t x.idx).ppn = page
    · have hnamed : (s.pte x).page = some page := by rw [hpte, Pte.page_eq_some]; exact ⟨hold, hsame⟩
      have hkept : ¬ l.kept page := (h.named hx hnamed).1
      refine ⟨_, setPte_run_of_same perm hold hsame, ⟨?_, fun y hy => h.pte_setEntry ht hy,
        fun d' hd' k _ => h.entry_setEntry_dir ht hd' k, ?_, fun hnone => ?_⟩⟩
      · rw [release_of_not_kept hkept]
        exact h.reflag ht hx hnamed he
      · exact (h.frame_setEntry ht).release page
      · rw [hnone] at hnamed
        cases hnamed
    · have hnamed : (s.pte x).page = some (s.entry t x.idx).ppn := by rw [hpte, Pte.page_of_present hold]
      obtain ⟨hkept, htable, -⟩ := h.named hx hnamed
      have hok := h.unmap ht hx hnamed
      have ht' : l.TableAt (s.unmapped t x.idx (s.entry t x.idx).ppn) x.dir x.pde t := by
        refine ht.congr ?_
        rw [entry_unmapped, entry_setEntry, if_neg fun hand => h.table_not_dir ht ht.dir hand.1.symm]
      have hnone : ((s.unmapped t x.idx (s.entry t x.idx).ppn).pte x).page = none := by
        rw [h.pte_unmapped ht hx, if_pos rfl]
        rfl
      refine ⟨_, setPte_run_of_other perm hold hsame, ⟨?_, fun y hy => ?_, fun d' hd' k _ => ?_, ?_, fun hnone => ?_⟩⟩
      · refine hok.map ht' hx hnone ?_ ?_ hpage.dir ?_ he
        · rw [free_unmapped]
          split_ifs
          · exact List.mem_cons.not.mpr (not_or.mpr ⟨fun heq => hsame heq.symm, hpage.free⟩)
          · exact hpage.free
        · rintro ⟨d', i', htpage⟩
          refine hpage.table ⟨d', i', (h.tableAt_setEntry ht (k := x.idx) (e := .zero)).mp (htpage.congr ?_)⟩
          rw [entry_unmapped]
        · intro hk
          rw [pageRef_unmapped, Function.update_of_ne fun heq => hsame heq.symm]
          exact hpage.ref hk
      · have hafter := hok.pte_setEntry (e := ⟨page, pteP ||| perm⟩) ht' hy
        rw [h.pte_unmapped ht hy] at hafter
        refine Eq.trans hafter ?_
        split_ifs <;> rfl
      · have hafter := hok.entry_setEntry_dir (k := x.idx) (e := ⟨page, pteP ||| perm⟩) ht' hd' k
        refine Eq.trans hafter ?_
        rw [entry_unmapped]
        exact h.entry_setEntry_dir ht hd' k
      · exact ((h.frame_unmapped ht hkept).release page).trans (hok.frame_mapped ht')
      · rw [hnone] at hnamed
        cases hnamed

end Layout

/-- **`page_insert`** sets the slot of the address. -/
theorem pageInsert_post (al : Allocs) (h : l.Ok s) (hx : slotOf d la ∈ l.slots) (hpage : l.Insertable s page)
    (perm : BitVec 12) : ((pageInsert al d page la perm).run s).Post
      (fun _ s' => l.Inserted (slotOf d la) page ⟨page, pteP ||| perm⟩ s s')
      (fun err s' => err = .noMem ∧ s' = s.refused) fun _ => False := by
  obtain ⟨hd, hla, -⟩ := Layout.mem_slots.mp hx
  rw [pageInsert_eq]
  refine Outcome.post_bind.mpr ((getPte_post al h hd hla).mono ?_ (fun _ _ hf => hf.elim) fun _ hf => hf.elim)
  rintro r s₁ (⟨rfl, rfl⟩ | ⟨t, rfl, htabled⟩)
  · exact ⟨rfl, rfl⟩
  · have hpage₁ : l.Insertable s₁ page := by
      refine ⟨fun hfree => hpage.free (htabled.grown.free page hfree), fun htable => ?_, hpage.dir, fun hk => ?_⟩
      · exact (htabled.tables page htable).elim hpage.table hpage.free
      · rw [htabled.grown.ref page hpage.free]
        exact hpage.ref hk
    obtain ⟨s', hrun, hins⟩ := htabled.ok.setPte_post (x := slotOf d la) htabled.table hx hpage₁ perm
    show Outcome.Post _ _ _ ((setPte t (ptx la) page perm).run s₁)
    have hrun' : (setPte t (ptx la) page perm).run s₁ = .ok () s' := hrun
    rw [hrun']
    refine ⟨hins.ok, fun y hy => ?_, fun d' hd' k hne => ?_, (htabled.frame.release page).trans hins.frame, fun hnone => ?_⟩
    · rw [hins.pte y hy, htabled.pte y hy]
    · rw [hins.pde d' hd' k hne, htabled.pde d' hd' k hne]
    · have hgrown := hins.grown (by rw [htabled.pte _ hx, hnone])
      rw [htabled.grown.ref page hpage.free] at hgrown
      refine ⟨fun p hp => htabled.grown.free p (hgrown.free p hp), fun p hp => ?_, fun p hp => ?_⟩
      · rw [hgrown.ref p fun hmem => hp (htabled.grown.free p hmem)]
        by_cases heq : p = page
        · rw [heq, pageRef_setRef_self, pageRef_setRef_self]
        · rw [pageRef_setRef_of_ne heq, pageRef_setRef_of_ne heq, htabled.grown.ref p hp]
      · rw [hgrown.byte p fun hmem => hp (htabled.grown.free p hmem)]
        exact htabled.grown.byte p hp

/-! ### `pgdir_alloc_page` and `page_remove` -/

/-- Nothing has changed at any slot. -/
structure Layout.Same (l : Layout) (s s' : VmState) : Prop where
  ok : l.Ok s'
  pte : ∀ x ∈ l.slots, s'.pte x = s.pte x
  pde : ∀ d ∈ l.dirs, ∀ k, s'.entry d k = s.entry d k
  frame : l.Frame s s'
  grown : Grown s s'

theorem Layout.Ok.same_refused (h : l.Ok s) : l.Same s s.refused :=
  ⟨h.refused, fun _ _ => rfl, fun _ _ _ => rfl, frame_refused l s, grown_refused s⟩

theorem Layout.Same.refl (h : l.Ok s) : l.Same s s := ⟨h, fun _ _ => rfl, fun _ _ _ => rfl, .refl l s, .refl s⟩

/-- A page that was free is at a slot now. -/
structure Layout.Added (l : Layout) (x : Slot) (page : ℕ) (e : Pte) (s s' : VmState) : Prop where
  wasFree : page ∈ s.free
  ok : l.Ok s'
  pte : ∀ y ∈ l.slots, s'.pte y = if y = x then e else s.pte y
  pde : ∀ d ∈ l.dirs, ∀ k, ¬ (d = x.dir ∧ k = x.pde) → s'.entry d k = s.entry d k
  frame : l.Frame s s'
  byte : (s.pte x).page = none → s'.byte page = s.byte page
  ref : (s.pte x).page = none → s'.pageRef page = 1
  grown : (s.pte x).page = none → Grown s s'

/-- A page that has just been allocated is there to be inserted. -/
theorem Layout.Ok.insertable_taken (h : l.Ok s) (hpage : page ∈ s.free) :
    (l.keep page).Insertable (s.taken page) page := by
  refine ⟨fun hfree => (mem_free_taken.mp hfree).2 rfl, ?_, h.free_not_dir hpage, fun _ => h.ref_of_free hpage⟩
  rintro ⟨d, i, ht⟩
  exact h.free_not_table hpage ⟨d, i, ht.1, ht.2, ht.3, ht.4⟩

/-- A page that has just been allocated is inserted. -/
theorem Layout.Ok.added (h : l.Ok s) (hpage : page ∈ s.free) (s₁ : VmState) (hfree : s₁.free = (s.taken page).free)
    (href : s₁.pageRef = s.pageRef) (hbyte : ∀ p, p ≠ page → s₁.byte p = s.byte p) (hentry : s₁.entry = s.entry)
    (honly : OnlyPages s s₁) (hins : (l.keep page).Inserted x page e s₁ s') :
    l.Ok s' ∧ (∀ y ∈ l.slots, s'.pte y = if y = x then e else s.pte y) ∧
      (∀ d ∈ l.dirs, ∀ k, ¬ (d = x.dir ∧ k = x.pde) → s'.entry d k = s.entry d k) ∧ l.Frame s s' ∧
      ((s.pte x).page = none → s'.byte page = s₁.byte page ∧ s'.pageRef page = 1 ∧ Grown s s') := by
  have hkept : ¬ l.kept page := h.free_not_kept hpage
  have hpte : ∀ y, s₁.pte y = s.pte y := fun y => pte_congr (by rw [hentry]) fun _ => by rw [hentry]
  have hok := hins.ok
  have hframe := hins.frame
  rw [Layout.release_keep hkept] at hok hframe
  have hfirst : l.Frame s s₁ := ⟨fun p _ k _ => by rw [hentry], fun p _ => by rw [href],
    fun p hp => hbyte p fun heq => hkept (heq ▸ hp), honly⟩
  refine ⟨hok, fun y hy => ?_, fun d hd k hne => ?_, hfirst.trans hframe, fun hnone => ?_⟩
  · rw [hins.pte y hy, hpte]
  · rw [hins.pde d hd k hne, hentry]
  · have hgrown := hins.grown (by rw [hpte, hnone])
    have hmem : ∀ q, q ∈ s₁.free → q ∈ s.free ∧ q ≠ page := fun q hq => mem_free_taken.mp (hfree ▸ hq)
    refine ⟨hgrown.byte page fun hmem' => (hmem page hmem').2 rfl, ?_, fun q hq => (hmem q (hgrown.free q hq)).1,
      fun q hq => ?_, fun q hq => ?_⟩
    · rw [hgrown.ref page fun hmem' => (hmem page hmem').2 rfl, pageRef_setRef_self, href, h.ref_of_free hpage]
      rfl
    · have hne : q ≠ page := fun heq => hq (heq ▸ hpage)
      rw [hgrown.ref q fun hmem' => hq (hmem q hmem').1, pageRef_setRef_of_ne hne, href]
    · have hne : q ≠ page := fun heq => hq (heq ▸ hpage)
      rw [hgrown.byte q fun hmem' => hq (hmem q hmem').1]
      exact hbyte q hne

/-- **`pgdir_alloc_page`** sets the slot of the address to a page that was free. -/
theorem pgdirAllocPage_post (al : Allocs) (h : l.Ok s) (hx : slotOf d la ∈ l.slots) (perm : BitVec 12) :
    ((pgdirAllocPage al d la perm).run s).Post
      (fun r s' => (r = none ∧ l.Same s s') ∨
        ∃ page, r = some page ∧ l.Added (slotOf d la) page ⟨page, pteP ||| perm⟩ s s')
      (fun _ _ => False) fun _ => False := by
  unfold pgdirAllocPage
  refine (allocPages_post al s).bind ?_
  rintro r s₁ (⟨rfl, rfl⟩ | ⟨page, hpage, rfl, rfl⟩)
  · exact Or.inl ⟨rfl, h.same_refused⟩
  · have hins := pageInsert_post al (h.take hpage) (hx : slotOf d la ∈ (l.keep page).slots) (h.insertable_taken hpage) perm
    refine Outcome.post_bind.mpr (Outcome.post_attempt.mpr (hins.mono (fun _ s' hs' => ?_) ?_ fun _ hf => hf))
    · obtain ⟨hok, hpte, hpde, hframe, hrest⟩ :=
        h.added hpage (s.taken page) rfl rfl (fun _ _ => rfl) rfl (frame_taken l s page).only hs'
      exact Or.inr ⟨page, rfl, hpage, hok, hpte, hpde, hframe, fun hnone => (hrest hnone).1, fun hnone => (hrest hnone).2.1,
        fun hnone => (hrest hnone).2.2⟩
    · rintro _ s' ⟨-, rfl⟩
      have hok := (h.take hpage).refused.give (Or.inl rfl) (h.free_not_dir hpage)
      rw [Layout.release_keep (h.free_not_kept hpage)] at hok
      have hother : ∀ p, p ∉ s.free → p ≠ page := fun p hp heq => hp (heq ▸ hpage)
      refine Or.inl ⟨rfl, hok, fun _ _ => rfl, fun _ _ _ => rfl, ⟨fun _ _ _ _ => rfl, fun p hp => ?_, fun _ _ => rfl, ?_⟩,
        fun p hp => ?_, fun p hp => ?_, fun _ _ => rfl⟩
      · exact Function.update_of_ne (fun heq : p = page => h.free_not_kept hpage (heq ▸ hp)) _ _
      · exact ⟨rfl, rfl, rfl, rfl, rfl, rfl, rfl, rfl⟩
      · rcases List.mem_cons.mp hp with rfl | hp
        · exact hpage
        · exact (mem_free_taken.mp hp).1
      · exact Function.update_of_ne (hother p hp) _ _

/-- The slots that a program clears. -/
structure Layout.Cleared (l : Layout) (gone : Slot → Prop) (s s' : VmState) : Prop where
  ok : l.Ok s'
  clear : ∀ x ∈ l.slots, gone x → (s.pte x).present = true → s'.pte x = .zero
  pte : ∀ x ∈ l.slots, (gone x → (s.pte x).present = false) → s'.pte x = s.pte x
  pde : ∀ d ∈ l.dirs, ∀ k, s'.entry d k = s.entry d k
  frame : l.Frame s s'
  bytes : s'.byte = s.byte

theorem Layout.Cleared.refl (h : l.Ok s) {gone : Slot → Prop} (hnone : ∀ x ∈ l.slots, gone x → (s.pte x).present = false) :
    l.Cleared gone s s :=
  ⟨h, fun x hx hgone hpresent => by (rw [hnone x hx hgone] at hpresent; cases hpresent), fun _ _ _ => rfl,
    fun _ _ _ => rfl, .refl l s, rfl⟩

/-- The entry of a slot is removed. -/
theorem pageRemovePte_post (h : l.Ok s) (ht : l.TableAt s x.dir x.pde t) (hx : x ∈ l.slots) :
    ∃ s', (pageRemovePte t x.idx).run s = .ok () s' ∧ l.Cleared (· = x) s s' := by
  have hpte : s.pte x = s.entry t x.idx := ht.pte
  cases hold : (s.entry t x.idx).present with
  | false =>
    refine ⟨s, pageRemovePte_run_of_absent hold, .refl h fun y _ hy => ?_⟩
    rw [hy, hpte, hold]
  | true =>
    have hnamed : (s.pte x).page = some (s.entry t x.idx).ppn := by rw [hpte, Pte.page_of_present hold]
    refine ⟨_, pageRemovePte_run_of_present hold, h.unmap ht hx hnamed, fun y hy heq _ => ?_, fun y hy hne => ?_,
      fun d hd k => ?_, h.frame_unmapped ht (h.named hx hnamed).1, Layout.byte_unmapped⟩
    · rw [h.pte_unmapped ht hy, if_pos heq]
    · rw [h.pte_unmapped ht hy]
      split_ifs with heq
      · have habsent := hne heq
        rw [heq, hpte, hold] at habsent
        cases habsent
      · rfl
    · rw [entry_unmapped, entry_setEntry, if_neg fun hand => h.table_not_dir ht hd hand.1.symm]

/-- **`page_remove`** clears the slot of the address. -/
theorem pageRemove_post (al : Allocs) (h : l.Ok s) (hx : slotOf d la ∈ l.slots) :
    ∃ s', (pageRemove al d la).run s = .ok () s' ∧ l.Cleared (· = slotOf d la) s s' := by
  unfold pageRemove
  obtain ⟨hd, hla, -⟩ := Layout.mem_slots.mp hx
  rw [Prog.bind_of_ok (getPte_false_run al d la s)]
  by_cases hpresent : (s.entry d (pdx la)).present = true
  · rw [if_pos hpresent]
    exact pageRemovePte_post (x := slotOf d la) h ⟨hd, hla, hpresent, rfl⟩ hx
  · rw [if_neg hpresent]
    refine ⟨s, rfl, .refl h fun y _ hy => ?_⟩
    rw [hy, pte_of_absent (x := slotOf d la) (Bool.eq_false_iff.mpr hpresent), Pte.present_zero]

end Ucore.Vm
