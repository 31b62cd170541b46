import Ucore.Mm.PageRanges
import Mathlib.Logic.Relation
import Mathlib.Tactic.Common

/-!
# Page reference counts

Any number of page directories, and any sequence of calls of `page_insert`, `page_remove`, `unmap_range`, `copy_range` and
`pgdir_alloc_page` on them.

* `PageStep` is such a call, or an `alloc_page` by somebody who is going to call `page_insert` with the page. `PageConfig` has
  the pages that have been allocated so and are not mapped yet.
* `Directories` is where the runs start, and `page_refs` is what holds after every run.
-/

namespace Ucore.Vm

open Ucore.Lib

/-- The pages that have been allocated for `page_insert`, and memory. -/
structure PageConfig where
  held : List ℕ
  state : VmState

/-- The program ends in the state, with a value or with an error code. -/
def EndsIn {α : Type} (m : VmProg α) (s s' : VmState) : Prop := (∃ a, m.run s = .ok a s') ∨ ∃ e, m.run s = .error e s'

theorem EndsIn.elim {α : Type} {m : VmProg α} {s s' : VmState} {R : VmState → Prop} {P : VmPanic → Prop}
    (h : EndsIn m s s') (hpost : (m.run s).Post (fun _ => R) (fun _ => R) P) : R s' := by
  rcases h with ⟨a, hrun⟩ | ⟨e, hrun⟩
  · rw [hrun] at hpost
    exact hpost
  · rw [hrun] at hpost
    exact hpost

/-- The layout of a run: the pages that were free at its start are its own. -/
def pageLayout (dirs : List ℕ) (top : ℕ) (s₀ : VmState) (held : List ℕ) : Layout :=
  { dirs := dirs, top := top, kept := fun p => p ∉ s₀.free ∨ p ∈ held }

section runs

variable (al : Allocs) (dirs : List ℕ) (top : ℕ) (s₀ : VmState)

/-- The number of present entries that name a page, over all page directories. -/
def mappings (s : VmState) (p : ℕ) : ℕ := (pageLayout dirs top s₀ []).users s p

/-- A call, with the slots that it is about. The addresses are those that each page directory has for itself, and the page
of a `page_insert` is one that the caller has, or one that is mapped somewhere. -/
inductive PageStep : PageConfig → (Slot → Prop) → PageConfig → Prop where
  | alloc {held s r s'} (hrun : (allocPages al 1).run s = .ok r s') :
      PageStep ⟨held, s⟩ (fun _ => False) ⟨r.toList ++ held, s'⟩
  | insert {held s d page la perm s'} (hd : d ∈ dirs) (hla : pdx la < top) (hpage : page ∈ held ∨ 0 < mappings dirs top s₀ s page)
      (hrun : (pageInsert al d page la perm).run s = .ok () s') :
      PageStep ⟨held, s⟩ (· = slotOf d la) ⟨held.filter (· ≠ page), s'⟩
  | insertFails {held s d page la perm e s'} (hd : d ∈ dirs) (hla : pdx la < top)
      (hpage : page ∈ held ∨ 0 < mappings dirs top s₀ s page) (hrun : (pageInsert al d page la perm).run s = .error e s') :
      PageStep ⟨held, s⟩ (· = slotOf d la) ⟨held, s'⟩
  | remove {held s d la s'} (hd : d ∈ dirs) (hla : pdx la < top) (hrun : EndsIn (pageRemove al d la) s s') :
      PageStep ⟨held, s⟩ (· = slotOf d la) ⟨held, s'⟩
  | unmap {held s d start stop s'} (hd : d ∈ dirs) (hstop : stop ≤ ptSize * top)
      (hrun : EndsIn (unmapRange al d start stop) s s') : PageStep ⟨held, s⟩ (Slot.In d start stop) ⟨held, s'⟩
  | copy {held s dst src start stop s'} (hdst : dst ∈ dirs) (hsrc : src ∈ dirs) (hstop : stop ≤ ptSize * top)
      (hrun : EndsIn (copyRange al dst src start stop) s s') : PageStep ⟨held, s⟩ (Slot.In dst start stop) ⟨held, s'⟩
  | allocPage {held s d la perm s'} (hd : d ∈ dirs) (hla : pdx la < top) (hrun : EndsIn (pgdirAllocPage al d la perm) s s') :
      PageStep ⟨held, s⟩ (· = slotOf d la) ⟨held, s'⟩

/-- Where a run starts: the page directories are not free, and have no entries of their own. -/
structure Directories : Prop where
  nodup : dirs.Nodup
  freeNodup : s₀.free.Nodup
  freeRef : ∀ p ∈ s₀.free, s₀.pageRef p = 0
  used : ∀ d ∈ dirs, d ∉ s₀.free
  empty : ∀ d ∈ dirs, ∀ i < top, (s₀.entry d i).present = false

/-- The states of a run. -/
def PageReach : PageConfig → Prop :=
  Relation.ReflTransGen (fun c c' => ∃ touched, PageStep al dirs top s₀ c touched c') ⟨[], s₀⟩

/-- The invariant of a run. -/
structure PageConfig.Ok (c : PageConfig) : Prop where
  ok : (pageLayout dirs top s₀ c.held).Ok c.state
  ref : ∀ p ∈ c.held, c.state.pageRef p = 0
  own : ∀ p ∈ c.held, p ∈ s₀.free
  used : ∀ d ∈ dirs, d ∉ s₀.free

variable {al dirs top s₀}

theorem Directories.ok (h : Directories dirs top s₀) : PageConfig.Ok dirs top s₀ ⟨[], s₀⟩ := by
  have htable : ∀ {p}, ¬ (pageLayout dirs top s₀ []).IsTable s₀ p := by
    rintro p ⟨d, i, ht⟩
    have habsent := h.empty d ht.dir i ht.own
    rw [ht.present] at habsent
    cases habsent
  have husers : ∀ p, (pageLayout dirs top s₀ []).users s₀ p = 0 := by
    intro p
    refine Layout.users_eq_zero.mpr fun x hx hnamed => ?_
    exact htable (Layout.tableAt_of_named hx hnamed).isTable
  have hnil : ∀ p, p ∉ ([] : List ℕ) := fun _ => List.not_mem_nil
  refine ⟨⟨h.nodup, fun d hd => Or.inl (h.used d hd), h.freeNodup, fun {d i d' i' t} ht => (htable ht.isTable).elim,
    fun {d i t} ht => (htable ht.isTable).elim, fun {p} hp => (htable hp).elim, fun {p} hp => ⟨?_, husers p⟩,
    fun {p} hkept _ => ?_⟩, fun p hp => (hnil p hp).elim, fun p hp => (hnil p hp).elim, h.used⟩
  · exact hp.elim (fun hkept => hkept.elim id fun hmem => (hnil p hmem).elim) fun ht => (htable ht).elim
  · have hmem : p ∈ s₀.free := not_not.mp fun hnot => hkept (Or.inl hnot)
    rw [husers, h.freeRef p hmem]
    exact ⟨rfl, fun _ => rfl, fun _ => hmem⟩

/-- A slot of a page directory. -/
theorem mem_slots_of {held : List ℕ} {d la : ℕ} (hd : d ∈ dirs) (hla : pdx la < top) :
    slotOf d la ∈ (pageLayout dirs top s₀ held).slots := slotOf_mem_slots hd hla

theorem keep_pageLayout (held : List ℕ) (page : ℕ) :
    (pageLayout dirs top s₀ held).keep page = pageLayout dirs top s₀ (page :: held) := by
  unfold Layout.keep pageLayout
  congr 1
  funext p
  rw [List.mem_cons]
  exact propext or_left_comm

theorem release_pageLayout {held : List ℕ} {page : ℕ} (hpage : page ∈ s₀.free) :
    (pageLayout dirs top s₀ held).release page = pageLayout dirs top s₀ (held.filter (· ≠ page)) := by
  unfold Layout.release pageLayout
  congr 1
  funext p
  simp only [List.mem_filter, decide_eq_true_iff]
  refine propext ⟨fun ⟨hor, hne⟩ => hor.imp_right fun hheld => ⟨hheld, hne⟩, ?_⟩
  rintro (hnot | ⟨hheld, hne⟩)
  · exact ⟨Or.inl hnot, fun heq => hnot (heq ▸ hpage)⟩
  · exact ⟨Or.inr hheld, hne⟩

namespace PageConfig.Ok

variable {c c' : PageConfig} {held : List ℕ} {s s' : VmState} {page : ℕ} {touched : Slot → Prop}

/-- The page of a `page_insert` is one of the run, and can be inserted. -/
theorem insertable (h : PageConfig.Ok dirs top s₀ ⟨held, s⟩) (hpage : page ∈ held ∨ 0 < mappings dirs top s₀ s page) :
    page ∈ s₀.free ∧ (pageLayout dirs top s₀ held).Insertable s page := by
  rcases hpage with hheld | hmapped
  · obtain ⟨hfree, -⟩ := h.ok.taken (Or.inl (Or.inr hheld))
    exact ⟨h.own page hheld, hfree, fun htable => h.ok.tableKept htable (Or.inr hheld),
      fun hd => h.used page hd (h.own page hheld), fun _ => h.ref page hheld⟩
  · obtain ⟨x, hx, hnamed⟩ := Layout.exists_named hmapped
    obtain ⟨hkept, htable, hfree⟩ := h.ok.named (l := pageLayout dirs top s₀ held) hx hnamed
    exact ⟨not_not.mp fun hnot => hkept (Or.inl hnot), hfree, htable, fun hd => hkept (h.ok.dirs page hd),
      fun hk => (hkept hk).elim⟩

/-- A call that leaves the held pages as they are. -/
theorem of_changed (h : PageConfig.Ok dirs top s₀ ⟨held, s⟩) (hchanged : (pageLayout dirs top s₀ held).Changed touched s s') :
    PageConfig.Ok dirs top s₀ ⟨held, s'⟩ := by
  refine ⟨hchanged.ok, fun p hp => ?_, h.own, h.used⟩
  rw [← h.ref p hp]
  exact hchanged.frame.ref p (Or.inr hp)

/-- **A step** keeps the invariant, and the slots that it is not about. -/
theorem step (h : c.Ok dirs top s₀) (hstep : PageStep al dirs top s₀ c touched c') : c'.Ok dirs top s₀ ∧
    ∀ x ∈ (pageLayout dirs top s₀ []).slots, ¬ touched x → c'.state.pte x = c.state.pte x := by
  cases hstep with
  | @alloc held s r s' hrun =>
    have hpost := allocPages_post al s
    rw [hrun] at hpost
    rcases hpost with ⟨rfl, rfl⟩ | ⟨page, hfree, rfl, rfl⟩
    · exact ⟨h.of_changed (h.ok.same_refused.changed fun _ => False), fun _ _ _ => rfl⟩
    · have hown : page ∈ s₀.free := not_not.mp fun hnot => h.ok.free_not_kept hfree (Or.inl hnot)
      refine ⟨⟨?_, fun p hp => ?_, fun p hp => ?_, h.used⟩, fun _ _ _ => rfl⟩
      · show (pageLayout dirs top s₀ (page :: held)).Ok _
        rw [← keep_pageLayout]
        exact h.ok.take hfree
      · rcases List.mem_cons.mp hp with rfl | hp
        · exact h.ok.ref_of_free hfree
        · exact h.ref p hp
      · rcases List.mem_cons.mp hp with rfl | hp
        · exact hown
        · exact h.own p hp
  | @insert held s d page la perm s' hd hla hpage hrun =>
    obtain ⟨hown, hins⟩ := h.insertable hpage
    have hpost := pageInsert_post al h.ok (mem_slots_of hd hla) hins perm
    rw [hrun] at hpost
    have hok := hpost.ok
    have hframe := hpost.frame
    rw [release_pageLayout hown] at hok hframe
    refine ⟨⟨hok, fun p hp => ?_, fun p hp => h.own p (List.mem_of_mem_filter hp), h.used⟩, fun x hx hnot => ?_⟩
    · rw [hframe.ref p (Or.inr hp)]
      exact h.ref p (List.mem_of_mem_filter hp)
    · exact (hpost.pte x hx).trans (if_neg hnot)
  | @insertFails held s d page la perm e s' hd hla hpage hrun =>
    have hpost := pageInsert_post al h.ok (mem_slots_of hd hla) (h.insertable hpage).2 perm
    rw [hrun] at hpost
    obtain ⟨-, rfl⟩ := hpost
    have hchanged := h.ok.same_refused.changed fun x => x = slotOf d la
    exact ⟨h.of_changed hchanged, hchanged.pte⟩
  | @remove held s d la s' hd hla hrun =>
    obtain ⟨s₁, hrun₁, hcleared⟩ := pageRemove_post al h.ok (mem_slots_of hd hla)
    have hchanged : (pageLayout dirs top s₀ held).Changed (· = slotOf d la) s s' :=
      hrun.elim (P := fun _ => False) (by rw [hrun₁]; exact hcleared.changed)
    exact ⟨h.of_changed hchanged, hchanged.pte⟩
  | @unmap held s d start stop s' hd hstop hrun =>
    have hchanged : (pageLayout dirs top s₀ held).Changed (Slot.In d start stop) s s' := by
      refine hrun.elim (P := fun _ => True) ?_
      by_cases hrange : UserRange start stop
      · obtain ⟨s₁, hrun₁, hcleared⟩ := unmapRange_post al h.ok (d := d) hd hrange hstop
        rw [hrun₁]
        exact hcleared.changed
      · unfold unmapRange
        refine Outcome.post_bind.mpr (checkRange_post.mono (fun _ _ hr => (hrange hr.2).elim) ?_ fun _ _ => trivial)
        exact fun _ _ hf => hf.elim
    exact ⟨h.of_changed hchanged, hchanged.pte⟩
  | @copy held s dst src start stop s' hdst hsrc hstop hrun =>
    have hchanged : (pageLayout dirs top s₀ held).Changed (Slot.In dst start stop) s s' := by
      refine hrun.elim ((copyRange_post al h.ok hdst hsrc hstop).mono ?_ ?_ fun _ hp => hp)
      · exact fun _ _ hc => hc
      · exact fun _ _ hc => hc.2
    exact ⟨h.of_changed hchanged, hchanged.pte⟩
  | @allocPage held s d la perm s' hd hla hrun =>
    have hchanged : (pageLayout dirs top s₀ held).Changed (· = slotOf d la) s s' := by
      refine hrun.elim ((pgdirAllocPage_post al h.ok (mem_slots_of hd hla) perm).mono ?_ (fun _ _ hf => hf.elim)
        fun _ hf => hf)
      rintro _ s₁ (⟨-, hsame⟩ | ⟨page, -, hadded⟩)
      · exact hsame.changed _
      · exact ⟨hadded.ok, fun x hx hnot => by rw [hadded.pte x hx, if_neg hnot], hadded.frame⟩
    exact ⟨h.of_changed hchanged, hchanged.pte⟩

theorem of_reach (h : Directories dirs top s₀) (hreach : PageReach al dirs top s₀ c) : c.Ok dirs top s₀ := by
  refine invariant_of_step (PageConfig.Ok dirs top s₀) hreach h.ok ?_
  rintro a b ha ⟨touched, hstep⟩
  exact (ha.step hstep).1

end PageConfig.Ok

/-- The page is a page table of a page directory. -/
def IsPageTable (dirs : List ℕ) (top : ℕ) (s : VmState) (p : ℕ) : Prop :=
  ∃ d ∈ dirs, ∃ i < top, (s.entry d i).present = true ∧ (s.entry d i).ppn = p

theorem isPageTable_iff {held : List ℕ} {s : VmState} {p : ℕ} :
    IsPageTable dirs top s p ↔ (pageLayout dirs top s₀ held).IsTable s p :=
  ⟨fun ⟨d, hd, i, hi, hpresent, hppn⟩ => ⟨d, i, hd, hi, hpresent, hppn⟩,
    fun ⟨d, i, ht⟩ => ⟨d, ht.dir, i, ht.own, ht.present, ht.ppn⟩⟩

/-- **Page reference counts.** In every state of a run, `ref` of a page that is no page table is the number of entries that
name it, the page is free exactly when there is none and nobody holds it, and it is in the list of free pages once at most.
A page that is mapped is neither free nor a page table. A step changes `get_page` only where it is called for. -/
theorem page_refs (h : Directories dirs top s₀) {c : PageConfig} (hreach : PageReach al dirs top s₀ c) :
    (∀ p ∈ s₀.free, ¬ IsPageTable dirs top c.state p → c.state.pageRef p = mappings dirs top s₀ c.state p ∧
      (p ∉ c.held → (p ∈ c.state.free ↔ mappings dirs top s₀ c.state p = 0))) ∧
    c.state.free.Nodup ∧
    (∀ p, 0 < mappings dirs top s₀ c.state p → p ∉ c.state.free ∧ ¬ IsPageTable dirs top c.state p) ∧
    ∀ touched c', PageStep al dirs top s₀ c touched c' → ∀ d ∈ dirs, ∀ la, pdx la < top → ¬ touched (slotOf d la) →
      c'.state.getPage d la = c.state.getPage d la := by
  have hok := PageConfig.Ok.of_reach h hreach
  refine ⟨fun p hp htable => ?_, hok.ok.freeNodup, fun p hpos => ?_, fun touched c' hstep d hd la hla hnot => ?_⟩
  · replace htable : ¬ (pageLayout dirs top s₀ c.held).IsTable c.state p := isPageTable_iff.not.mp htable
    by_cases hheld : p ∈ c.held
    · have hzero : mappings dirs top s₀ c.state p = 0 := (hok.ok.taken (Or.inl (Or.inr hheld))).2
      rw [hok.ref p hheld, hzero]
      exact ⟨rfl, fun hnot => (hnot hheld).elim⟩
    · have hkept : ¬ (pageLayout dirs top s₀ c.held).kept p := fun hor => hor.elim (fun hnot => hnot hp) hheld
      exact ⟨(hok.ok.data hkept htable).1, fun _ => (hok.ok.data hkept htable).2⟩
  · obtain ⟨x, hx, hnamed⟩ := Layout.exists_named hpos
    obtain ⟨-, htable, hfree⟩ := hok.ok.named (l := pageLayout dirs top s₀ c.held) hx hnamed
    exact ⟨hfree, fun ht => htable (isPageTable_iff.mp ht)⟩
  · rw [getPage_eq, getPage_eq, (hok.step hstep).2 _ (mem_slots_of hd hla) hnot]

end runs

theorem directories_start : Directories [0] 1024 (.start 0 [1, 2, 3]) :=
  ⟨by decide, by decide, fun _ _ => rfl, by decide, fun _ _ _ _ => Pte.present_zero⟩

/-- A page is allocated, and mapped for an address. -/
theorem page_refs_one : ∃ c, PageReach .firstFit [0] 1024 (.start 0 [1, 2, 3]) c ∧
    c.state.getPage 0 0x200000 = some 1 ∧ c.state.pageRef 1 = 1 ∧ 1 ∉ c.state.free ∧
    c.state.pageRef 1 = mappings [0] 1024 (.start 0 [1, 2, 3]) c.state 1 := by
  obtain ⟨s', hrun, hpage, href⟩ : ∃ s',
      (pageInsert .firstFit 0 1 0x200000 7).run ((VmState.start 0 [1, 2, 3]).taken 1) = .ok () s' ∧
        s'.getPage 0 0x200000 = some 1 ∧ s'.pageRef 1 = 1 := ⟨_, rfl, rfl, rfl⟩
  have hreach : PageReach .firstFit [0] 1024 (.start 0 [1, 2, 3]) ⟨[], s'⟩ := by
    have halloc : (allocPages .firstFit 1).run (VmState.start 0 [1, 2, 3]) =
      .ok (some 1) ((VmState.start 0 [1, 2, 3]).taken 1) := rfl
    refine .tail (.tail .refl ⟨_, .alloc halloc⟩)
      ⟨_, .insert (d := 0) (by decide) (by decide) (Or.inl (by decide)) hrun⟩
  have hrefs := page_refs directories_start hreach
  have hpos : 0 < mappings [0] 1024 (.start 0 [1, 2, 3]) s' 1 := by
    refine Layout.users_pos_of_named (x := slotOf 0 0x200000) (mem_slots_of (by decide) (by decide)) ?_
    rw [← getPage_eq, hpage]
  obtain ⟨hfree, htable⟩ := hrefs.2.2.1 1 hpos
  exact ⟨_, hreach, hpage, href, hfree, (hrefs.1 1 (by decide) htable).1⟩

end Ucore.Vm
