import Ucore.Mm.PageRanges
import Ucore.Mm.VmaList
import Mathlib.Tactic.Common

/-!
# The end of an address space

`exit_mmap` goes over the areas twice: `unmap_range` gives up the pages, and `exit_range` frees the page tables.

* `Layout.Ok.drop` is the change that is new here: a page table without entries is freed.
* `Layout.Exited` says which page tables have been freed. `exitRange_post` is the loop, whose turns go on by 4 MB.
* `Layout.Covered` is what `exit_mmap` needs of an address space, and `Layout.Released` is what it does (`exitMmap_post`).
-/

namespace Ucore.Vm

open Ucore.Lib

variable {s s₁ s' : VmState} {d i t p m a start stop : ℕ} {x : Slot} {l : Layout}

/-! ### A page table is freed -/

/-- The state in which the page table of an entry has been freed. -/
def VmState.dropped (s : VmState) (d i t : ℕ) : VmState := (s.freed t).setEntry d i .zero

theorem entry_dropped (q k : ℕ) : (s.dropped d i t).entry q k = if q = d ∧ k = i then .zero else s.entry q k :=
  entry_setEntry q k

namespace Layout

theorem Ok.pte_dropped (h : l.Ok s) (hd : d ∈ l.dirs) (hx : x ∈ l.slots) (hne : ¬ (x.dir = d ∧ x.pde = i)) :
    (s.dropped d i t).pte x = s.pte x := by
  refine pte_congr (by rw [entry_dropped, if_neg hne]) fun hpresent => ?_
  have htx : l.TableAt s x.dir x.pde (s.entry x.dir x.pde).ppn :=
    ⟨(mem_slots.mp hx).1, (mem_slots.mp hx).2.1, hpresent, rfl⟩
  rw [entry_dropped, if_neg fun hand => h.table_not_dir htx hd hand.1]

theorem pte_dropped_self (hdir : x.dir = d) (hpde : x.pde = i) : (s.dropped d i t).pte x = .zero := by
  apply pte_of_absent
  rw [entry_dropped, if_pos ⟨hdir, hpde⟩, Pte.present_zero]

theorem tableAt_dropped {d' i' t' : ℕ} :
    l.TableAt (s.dropped d i t) d' i' t' ↔ l.TableAt s d' i' t' ∧ ¬ (d' = d ∧ i' = i) := by
  constructor
  · intro ht
    have hne : ¬ (d' = d ∧ i' = i) := by
      intro hand
      have hpresent := ht.present
      rw [entry_dropped, if_pos hand] at hpresent
      cases hpresent
    exact ⟨ht.congr (by rw [entry_dropped, if_neg hne]), hne⟩
  · rintro ⟨ht, hne⟩
    exact ht.congr (by rw [entry_dropped, if_neg hne])

/-- **A page table that has no entries is freed.** -/
theorem Ok.drop (h : l.Ok s) (ht : l.TableAt s d i t)
    (hempty : ∀ x ∈ l.slots, x.dir = d → (s.pte x).present = false) : l.Ok (s.dropped d i t) := by
  have husers : ∀ p, l.users (s.dropped d i t) p = l.users s p := by
    refine users_congr fun x hx => ?_
    by_cases hself : x.dir = d ∧ x.pde = i
    · rw [pte_dropped_self hself.1 hself.2, Pte.page_eq_none.mpr (hempty x hx hself.1)]
      rfl
    · rw [h.pte_dropped ht.dir hx hself]
  have hisTable : ∀ {p}, l.IsTable (s.dropped d i t) p ↔ l.IsTable s p ∧ p ≠ t := by
    intro p
    constructor
    · rintro ⟨d', i', ht'⟩
      obtain ⟨hold, hne⟩ := tableAt_dropped.mp ht'
      exact ⟨hold.isTable, fun heq => hne (h.tableInj (heq ▸ hold) ht)⟩
    · rintro ⟨⟨d', i', ht'⟩, hne⟩
      refine ⟨d', i', tableAt_dropped.mpr ⟨ht', ?_⟩⟩
      rintro ⟨rfl, rfl⟩
      exact hne (ht'.ppn.symm.trans ht.ppn)
  have hfree : ∀ p, p ∈ (s.dropped d i t).free ↔ p = t ∨ p ∈ s.free := fun p => List.mem_cons
  have hzero := h.taken (Or.inr ht.isTable)
  refine ⟨h.nodup, h.dirs, List.nodup_cons.mpr ⟨hzero.1, h.freeNodup⟩, fun {d₁ i₁ d₂ i₂ t'} h₁ h₂ => ?_,
    fun {d' i' t'} ht' => ?_, fun {p} hp => h.tableKept (hisTable.mp hp).1, fun {p} hp => ?_, fun {p} hk hp => ?_⟩
  · exact h.tableInj (tableAt_dropped.mp h₁).1 (tableAt_dropped.mp h₂).1
  · obtain ⟨hold, hne⟩ := tableAt_dropped.mp ht'
    rw [entry_dropped, if_neg hne]
    exact h.tableFlags hold
  · have hne : p ≠ t := by
      rcases hp with hk | hp
      · exact fun heq => h.tableKept ht.isTable (heq ▸ hk)
      · exact (hisTable.mp hp).2
    rw [hfree, husers, or_iff_right hne]
    exact h.taken (hp.imp_right fun hp => (hisTable.mp hp).1)
  · rw [hfree, husers]
    show Function.update s.pageRef t 0 p = _ ∧ _
    by_cases heq : p = t
    · rw [heq, Function.update_self, hzero.2]
      exact ⟨rfl, fun _ => rfl, fun _ => Or.inl rfl⟩
    · obtain ⟨href, hiff⟩ := h.data hk fun ht' => hp (hisTable.mpr ⟨ht', heq⟩)
      rw [Function.update_of_ne heq, or_iff_right heq]
      exact ⟨href, hiff⟩

/-! ### `exit_range` -/

/-- The page tables of the entries `gone` of a page directory have been freed. -/
structure Exited (l : Layout) (d : ℕ) (gone : ℕ → Prop) (s s' : VmState) : Prop where
  ok : l.Ok s'
  clear : ∀ i < l.top, gone i → (s'.entry d i).present = false
  entry : ∀ p k, ¬ (p = d ∧ gone k) → s'.entry p k = s.entry p k
  free : ∀ p, p ∈ s'.free ↔ p ∈ s.free ∨ ∃ i, gone i ∧ l.TableAt s d i p
  ref : ∀ p, ¬ l.IsTable s p → s'.pageRef p = s.pageRef p
  pte : ∀ x ∈ l.slots, x.dir ≠ d → s'.pte x = s.pte x
  empty : ∀ x ∈ l.slots, x.dir = d → (s'.pte x).present = false
  byte : s'.byte = s.byte
  only : OnlyPages s s'

theorem Exited.refl (h : l.Ok s) (hempty : ∀ x ∈ l.slots, x.dir = d → (s.pte x).present = false) {gone : ℕ → Prop}
    (hnone : ∀ i < l.top, gone i → (s.entry d i).present = false) : l.Exited d gone s s := by
  refine ⟨h, hnone, fun _ _ _ => rfl, fun p => (or_iff_left ?_).symm, fun _ _ => rfl, fun _ _ _ => rfl, hempty, rfl, .refl s⟩
  rintro ⟨i, hgone, ht⟩
  have habsent := hnone i ht.own hgone
  rw [ht.present] at habsent
  cases habsent

theorem Exited.trans {gone gone' : ℕ → Prop} (h : l.Exited d gone s s₁) (h' : l.Exited d gone' s₁ s') :
    l.Exited d (fun i => gone i ∨ gone' i) s s' := by
  have hsame : ∀ {i t}, l.TableAt s₁ d i t ↔ l.TableAt s d i t ∧ ¬ gone i := by
    intro i t
    constructor
    · intro ht
      have hnot : ¬ gone i := by
        intro hgone
        have habsent := h.clear i ht.own hgone
        rw [ht.present] at habsent
        cases habsent
      exact ⟨ht.congr (h.entry d i fun hand => hnot hand.2).symm, hnot⟩
    · rintro ⟨ht, hnot⟩
      exact ht.congr (h.entry d i fun hand => hnot hand.2)
  have htable : ∀ {p}, l.IsTable s₁ p → l.IsTable s p := by
    rintro p ⟨d', i', ht⟩
    by_cases hd : d' = d
    · rw [hd] at ht
      exact (hsame.mp ht).1.isTable
    · exact (ht.congr (h.entry d' i' fun hand => hd hand.1).symm).isTable
  refine ⟨h'.ok, fun i hi hgone => ?_, fun p k hne => ?_, fun p => ?_, fun p hp => ?_, fun x hx hne => ?_, h'.empty,
    h'.byte.trans h.byte, h.only.trans h'.only⟩
  · by_cases hlast : gone' i
    · exact h'.clear i hi hlast
    · rw [h'.entry d i fun hand => hlast hand.2]
      exact h.clear i hi (hgone.resolve_right hlast)
  · rw [h'.entry p k fun hand => hne ⟨hand.1, Or.inr hand.2⟩, h.entry p k fun hand => hne ⟨hand.1, Or.inl hand.2⟩]
  · rw [h'.free, h.free]
    constructor
    · rintro ((hfree | ⟨i, hgone, ht⟩) | ⟨i, hgone, ht⟩)
      · exact Or.inl hfree
      · exact Or.inr ⟨i, Or.inl hgone, ht⟩
      · exact Or.inr ⟨i, Or.inr hgone, (hsame.mp ht).1⟩
    · rintro (hfree | ⟨i, hgone, ht⟩)
      · exact Or.inl (Or.inl hfree)
      · by_cases hfirst : gone i
        · exact Or.inl (Or.inr ⟨i, hfirst, ht⟩)
        · exact Or.inr ⟨i, hgone.resolve_left hfirst, hsame.mpr ⟨ht, hfirst⟩⟩
  · rw [h'.ref p fun ht => hp (htable ht), h.ref p hp]
  · rw [h'.pte x hx hne, h.pte x hx hne]

theorem Exited.congr {gone gone' : ℕ → Prop} (h : l.Exited d gone s s') (hiff : ∀ i, gone' i ↔ gone i) :
    l.Exited d gone' s s' := by
  have heq : gone' = gone := funext fun i => propext (hiff i)
  rw [heq]
  exact h

/-- One page table has been freed. -/
theorem Ok.exited (h : l.Ok s) (ht : l.TableAt s d i t)
    (hempty : ∀ x ∈ l.slots, x.dir = d → (s.pte x).present = false) : l.Exited d (· = i) s (s.dropped d i t) := by
  refine ⟨h.drop ht hempty, fun k _ hk => ?_, fun p k hne => ?_, fun p => ?_, fun p hp => ?_, fun x hx hne => ?_,
    fun x hx hdir => ?_, rfl, ⟨rfl, rfl, rfl, rfl, rfl, rfl, rfl, rfl⟩⟩
  · rw [entry_dropped, if_pos ⟨rfl, hk⟩, Pte.present_zero]
  · rw [entry_dropped, if_neg hne]
  · refine List.mem_cons.trans (or_comm.trans (or_congr_right ?_))
    constructor
    · rintro rfl
      exact ⟨i, rfl, ht⟩
    · rintro ⟨k, rfl, ht'⟩
      exact ht'.ppn.symm.trans ht.ppn
  · exact Function.update_of_ne (fun heq : p = t => hp (heq ▸ ht.isTable)) _ _
  · exact h.pte_dropped ht.dir hx fun hand => hne hand.1
  · by_cases hpde : x.pde = i
    · rw [pte_dropped_self hdir hpde, Pte.present_zero]
    · rw [h.pte_dropped ht.dir hx fun hand => hpde hand.2, hempty x hx hdir]

end Layout

/-- A turn of `exit_range`. -/
theorem exitTurn_post (h : l.Ok s) (hd : d ∈ l.dirs) (ha : pdx a < l.top)
    (hempty : ∀ x ∈ l.slots, x.dir = d → (s.pte x).present = false) :
    ∃ s', (exitTurn d a).run s = .ok (a + ptSize) s' ∧ l.Exited d (· = pdx a) s s' := by
  unfold exitTurn
  rw [Prog.run_bind, Prog.run_get, Outcome.andThen_ok]
  by_cases hpresent : (s.entry d (pdx a)).present = true
  · rw [if_pos hpresent]
    exact ⟨_, rfl, h.exited ⟨hd, ha, hpresent, rfl⟩ hempty⟩
  · rw [if_neg hpresent]
    refine ⟨s, rfl, .refl h hempty fun i _ hi => ?_⟩
    rw [hi]
    exact Bool.eq_false_iff.mpr hpresent

/-- The area has an address that the entry `i` of a page directory is for. -/
def Vma.Spans (v : Vma) (i : ℕ) : Prop := v.vmStart / ptSize ≤ i ∧ ptSize * i < v.vmEnd

/-- The loop of `exit_range` has enough turns. -/
theorem exitFuel_enough : stop ≤ start / ptSize * ptSize + ptSize * rangeFuel start stop := by
  unfold rangeFuel pageSize ptSize
  omega

/-- One turn more. -/
theorem exited_next_iff (halign : a % ptSize = 0) (hle : start / ptSize * ptSize ≤ a) (hlt : a < stop) (hword : a < 2 ^ 32) :
    (start / ptSize ≤ i ∧ ptSize * i < min (a + ptSize) stop) ↔
      (start / ptSize ≤ i ∧ ptSize * i < min a stop) ∨ i = pdx a := by
  obtain ⟨k, rfl⟩ := Nat.dvd_of_mod_eq_zero halign
  have hk : k < 1024 := by
    unfold ptSize at hword
    omega
  have hpdx : pdx (ptSize * k) = k := by
    have hpos : 0 < ptSize := Nat.succ_pos _
    unfold pdx
    rw [Nat.mul_div_cancel_left _ hpos, Nat.mod_eq_of_lt hk]
  rw [hpdx]
  unfold ptSize at *
  omega

/-- **`exit_range`** frees the page tables for the addresses of the range. -/
theorem exitRange_post (h : l.Ok s) (hd : d ∈ l.dirs) (hrange : UserRange start stop) (htop : stop ≤ ptSize * l.top)
    (hempty : ∀ x ∈ l.slots, x.dir = d → (s.pte x).present = false) : ∃ s', (exitRange d start stop).run s = .ok () s' ∧
      l.Exited d (fun i => start / ptSize ≤ i ∧ ptSize * i < stop) s s' := by
  have hstart : start / ptSize * ptSize < stop := Nat.lt_of_le_of_lt (Nat.div_mul_le_self _ _) hrange.access.2.1
  have hloop : ((walk (exitTurn d) stop (rangeFuel start stop) (start / ptSize * ptSize)).run s).Post
      (fun _ s' => ∃ a, stop ≤ a ∧ a % ptSize = 0 ∧
        start / ptSize * ptSize ≤ a ∧ l.Exited d (fun i => start / ptSize ≤ i ∧ ptSize * i < min a stop) s s')
      (fun _ _ => False) fun _ => False := by
    refine walk_post (Nat.succ_pos _) (fun a s₁ hlt hI => ?_) hstart exitFuel_enough
      ⟨Nat.mul_mod_left _ _, Nat.le_refl _, .refl h hempty fun i _ hi => ?_⟩
    · obtain ⟨halign, hfloor, hexited⟩ := hI
      obtain ⟨s₂, hrun, hturn⟩ := exitTurn_post hexited.ok hd (pdx_lt_top hlt htop) hexited.empty
      rw [hrun]
      have hword : a + ptSize < 2 ^ 32 := by
        have hstop := hrange.access.2.2
        unfold userTop at hstop
        unfold ptSize
        omega
      refine ⟨Nat.le_refl _, hword, ?_, Nat.le_trans hfloor (Nat.le_add_right _ _), (hexited.trans hturn).congr fun i => ?_⟩
      · rw [Nat.add_mod_right, halign]
      · exact exited_next_iff halign hfloor hlt (Nat.lt_of_le_of_lt (Nat.le_add_right _ _) hword)
    · have hlow := Nat.mul_le_mul_right ptSize hi.1
      rw [Nat.mul_comm i] at hlow
      exact (Nat.not_lt.mpr hlow (Nat.lt_of_lt_of_le hi.2 (Nat.min_le_left _ _))).elim
  obtain ⟨_, s', hrun, a, hstop, -, -, hexited⟩ := hloop.exists_ok
  rw [Nat.min_eq_right hstop] at hexited
  refine ⟨s', ?_, hexited⟩
  unfold exitRange
  rw [Prog.bind_of_ok (checkRange_run hrange.startAlign hrange.stopAlign hrange.access), hrun]

/-! ### The two loops of `exit_mmap` -/

section areas

variable {areas : List Vma}

theorem unmapAll_post (al : Allocs) (h : l.Ok s) (hd : d ∈ l.dirs) (hranges : ∀ v ∈ areas, UserRange v.vmStart v.vmEnd)
    (htop : userTop ≤ ptSize * l.top) : ∃ s', (unmapAll al d areas).run s = .ok () s' ∧
      l.Cleared (fun x => ∃ v ∈ areas, x.In d v.vmStart v.vmEnd) s s' := by
  induction areas generalizing s with
  | nil => exact ⟨s, rfl, .refl h fun x _ ⟨v, hv, _⟩ => (List.not_mem_nil hv).elim⟩
  | cons v areas ih =>
    have hv := hranges v List.mem_cons_self
    obtain ⟨s₁, hrun, hclear⟩ := unmapRange_post al h hd hv (Nat.le_trans hv.access.2.2 htop)
    obtain ⟨s', hrest, hclear'⟩ := ih hclear.ok fun w hw => hranges w (List.mem_cons_of_mem v hw)
    refine ⟨s', (Prog.bind_of_ok hrun).trans hrest, (hclear.trans hclear').congr fun x _ => ?_⟩
    rw [List.exists_mem_cons_iff]

theorem exitAll_post (h : l.Ok s) (hd : d ∈ l.dirs) (hranges : ∀ v ∈ areas, UserRange v.vmStart v.vmEnd)
    (htop : userTop ≤ ptSize * l.top) (hempty : ∀ x ∈ l.slots, x.dir = d → (s.pte x).present = false) :
    ∃ s', (exitAll d areas).run s = .ok () s' ∧ l.Exited d (fun i => ∃ v ∈ areas, v.Spans i) s s' := by
  induction areas generalizing s with
  | nil => exact ⟨s, rfl, .refl h hempty fun i _ ⟨v, hv, _⟩ => (List.not_mem_nil hv).elim⟩
  | cons v areas ih =>
    have hv := hranges v List.mem_cons_self
    obtain ⟨s₁, hrun, hexit⟩ := exitRange_post h hd hv (Nat.le_trans hv.access.2.2 htop) hempty
    obtain ⟨s', hrest, hexit'⟩ := ih hexit.ok (fun w hw => hranges w (List.mem_cons_of_mem v hw)) hexit.empty
    refine ⟨s', (Prog.bind_of_ok hrun).trans hrest, (hexit.trans hexit').congr fun i => ?_⟩
    rw [List.exists_mem_cons_iff]
    rfl

end areas

/-- An address space whose areas are of whole pages of user memory, and whose pages and page tables are all under some
area. -/
structure Layout.Covered (l : Layout) (s : VmState) (m : ℕ) : Prop where
  ok : l.Ok s
  dir : (s.mm m).pgdir ∈ l.dirs
  areas : Areas (s.mm m).mmapList
  ranges : ∀ v ∈ (s.mm m).mmapList, UserRange v.vmStart v.vmEnd
  pages : ∀ x ∈ l.slots, x.dir = (s.mm m).pgdir → (s.pte x).present = true → ∃ v ∈ (s.mm m).mmapList, v.Has x.addr
  tables : ∀ i < l.top, (s.entry (s.mm m).pgdir i).present = true → ∃ v ∈ (s.mm m).mmapList, ∃ a, v.Has a ∧ pdx a = i

/-- How often a page directory names a page. -/
def Layout.namedBy (l : Layout) (s : VmState) (d p : ℕ) : ℕ :=
  l.slots.countP fun x => x.dir = d ∧ (s.pte x).page = some p

/-- What is left when a page directory has been emptied. -/
theorem users_add_namedBy (hempty : ∀ x ∈ l.slots, x.dir = d → (s'.pte x).page = none)
    (hsame : ∀ x ∈ l.slots, x.dir ≠ d → (s'.pte x).page = (s.pte x).page) (p : ℕ) :
    l.users s' p + l.namedBy s d p = l.users s p := by
  unfold Layout.users Layout.namedBy Refs.users
  generalize l.slots = slots at *
  induction slots with
  | nil => rfl
  | cons x slots ih =>
    have hrest := ih (fun y hy => hempty y (List.mem_cons_of_mem x hy)) fun y hy => hsame y (List.mem_cons_of_mem x hy)
    have hx : (if decide (s'.refs.holds x = some p) = true then 1 else 0) +
        (if decide (x.dir = d ∧ (s.pte x).page = some p) = true then 1 else 0) =
        if decide (s.refs.holds x = some p) = true then 1 else 0 := by
      show (if decide ((s'.pte x).page = some p) = true then 1 else 0) + _ =
        if decide ((s.pte x).page = some p) = true then 1 else 0
      by_cases hdir : x.dir = d
      · rw [hempty x List.mem_cons_self hdir]
        simp [hdir]
      · rw [hsame x List.mem_cons_self hdir]
        simp [hdir]
    rw [List.countP_cons, List.countP_cons, List.countP_cons]
    omega

/-- What `exit_mmap` does to the pages of an address space with the page directory `d`. -/
structure Layout.Released (l : Layout) (d : ℕ) (s s' : VmState) : Prop where
  ok : l.Ok s'
  /-- Each mapping of a page has given up its reference, -/
  ref : ∀ p, ¬ l.kept p → ¬ l.IsTable s p → s'.pageRef p + l.namedBy s d p = s.pageRef p
  /-- and a page without references is free. -/
  pages : ∀ p, ¬ l.kept p → ¬ l.IsTable s p → (p ∈ s'.free ↔ p ∈ s.free ∨ (0 < l.namedBy s d p ∧ s'.pageRef p = 0))
  /-- A page table of the page directory has been freed once. -/
  tables : ∀ i < l.top, (s.entry d i).present = true →
    s.free.count (s.entry d i).ppn = 0 ∧ s'.free.count (s.entry d i).ppn = 1
  /-- No page is in the list of free pages twice. -/
  nodup : s'.free.Nodup
  /-- The page directory has no entries of its own, -/
  empty : ∀ i < l.top, (s'.entry d i).present = false
  /-- and those of the kernel are as before. -/
  kernel : ∀ i, l.top ≤ i → s'.entry d i = s.entry d i
  /-- So are the other page directories, with the slots in them. -/
  others : ∀ d' ∈ l.dirs, d' ≠ d → ∀ i, s'.entry d' i = s.entry d' i
  pte : ∀ x ∈ l.slots, x.dir ≠ d → s'.pte x = s.pte x
  /-- Other pages of the kernel are as before. -/
  kept : ∀ p, l.kept p → p ∉ l.dirs → ∀ k, s'.entry p k = s.entry p k
  byte : s'.byte = s.byte
  mm : s'.mm = s.mm
  boot : s'.bootPgdir = s.bootPgdir
  fresh : s'.freshBlock = s.freshBlock

/-- The page tables that are there are for addresses of areas. -/
theorem Layout.Covered.spans (h : l.Covered s m) (hi : i < l.top) (hpresent : (s.entry (s.mm m).pgdir i).present = true) :
    ∃ v ∈ (s.mm m).mmapList, v.Spans i := by
  obtain ⟨v, hv, a, hhas, rfl⟩ := h.tables i hi hpresent
  have hstop := (h.ranges v hv).access.2.2
  obtain ⟨hlow, hhigh⟩ := hhas
  refine ⟨v, hv, ?_⟩
  unfold Vma.Spans pdx
  unfold userTop at hstop
  unfold ptSize
  omega

/-- The pages have been unmapped first, and then the page tables have been freed. -/
theorem Layout.Covered.released (h : l.Covered s m) (htop : userTop ≤ ptSize * l.top) (hd : (s.mm m).pgdir = d)
    (hclear : l.Cleared (fun x => ∃ v ∈ (s.mm m).mmapList, x.In d v.vmStart v.vmEnd) s s₁)
    (hexited : l.Exited d (fun i => ∃ v ∈ (s.mm m).mmapList, v.Spans i) s₁ s') : l.Released d s s' := by
  have hspans : ∀ i < l.top, (s.entry d i).present = true → ∃ v ∈ (s.mm m).mmapList, v.Spans i :=
    fun i hi hpresent => h.spans hi (hd ▸ hpresent)
  have hbelow : ∀ i, (∃ v ∈ (s.mm m).mmapList, v.Spans i) → i < l.top := by
    rintro i ⟨v, hv, -, hhigh⟩
    have hstop : ptSize * i < ptSize * l.top := Nat.lt_of_lt_of_le hhigh (Nat.le_trans (h.ranges v hv).access.2.2 htop)
    exact Nat.lt_of_mul_lt_mul_left hstop
  have hdir : d ∈ l.dirs := hd ▸ h.dir
  have hother : ∀ x ∈ l.slots, x.dir ≠ d → s'.pte x = s.pte x := by
    intro x hx hne
    rw [hexited.pte x hx hne, hclear.pte x hx]
    rintro ⟨v, -, hxd, -⟩
    exact (hne hxd).elim
  have husers : ∀ p, l.users s' p + l.namedBy s d p = l.users s p :=
    users_add_namedBy (fun x hx hxd => Pte.page_eq_none.mpr (hexited.empty x hx hxd)) fun x hx hne => by
      rw [hother x hx hne]
  have hfirst : ∀ {d' i t}, l.TableAt s₁ d' i t ↔ l.TableAt s d' i t :=
    fun {d' i t} => ⟨fun ht => ht.congr (hclear.pde d' ht.dir i).symm, fun ht => ht.congr (hclear.pde d' ht.dir i)⟩
  have htable : ∀ {p}, l.IsTable s' p → l.IsTable s p := by
    rintro p ⟨d', i, ht⟩
    refine ⟨d', i, hfirst.mp (ht.congr (hexited.entry d' i ?_).symm)⟩
    rintro ⟨rfl, hgone⟩
    have habsent := hexited.clear i ht.own hgone
    rw [ht.present] at habsent
    cases habsent
  refine ⟨hexited.ok, fun p hk hp => ?_, fun p hk hp => ?_, fun i hi hpresent => ?_, hexited.ok.freeNodup,
    fun i hi => ?_, fun i hi => ?_, fun d' hd' hne i => ?_, hother, fun p hp hnot k => ?_, hexited.byte.trans hclear.bytes,
    hexited.only.mm.trans hclear.frame.only.mm, hexited.only.bootPgdir.trans hclear.frame.only.bootPgdir,
    hexited.only.freshBlock.trans hclear.frame.only.freshBlock⟩
  · rw [(hexited.ok.data hk fun ht => hp (htable ht)).1, (h.ok.data hk hp).1, ← husers p]
    rfl
  · obtain ⟨href, hfree⟩ := hexited.ok.data hk fun ht => hp (htable ht)
    have hsum := husers p
    rw [hfree, (h.ok.data hk hp).2, href]
    omega
  · have ht : l.TableAt s d i (s.entry d i).ppn := ⟨hdir, hi, hpresent, rfl⟩
    have hmem : (s.entry d i).ppn ∈ s'.free := (hexited.free _).mpr (Or.inr ⟨i, hspans i hi hpresent, hfirst.mpr ht⟩)
    exact ⟨List.count_eq_zero_of_not_mem (h.ok.table_not_free ht), List.count_eq_one_of_mem hexited.ok.freeNodup hmem⟩
  · by_cases hgone : ∃ v ∈ (s.mm m).mmapList, v.Spans i
    · exact hexited.clear i hi hgone
    · rw [hexited.entry d i fun hand => hgone hand.2, hclear.pde d hdir i]
      exact Bool.eq_false_iff.mpr fun hpresent => hgone (hspans i hi hpresent)
  · rw [hexited.entry d i fun hand => absurd (hbelow i hand.2) (Nat.not_lt.mpr hi), hclear.pde d hdir i]
  · rw [hexited.entry d' i fun hand => hne hand.1, hclear.pde d' hd' i]
  · rw [hexited.entry p k fun hand => hnot (hand.1 ▸ hdir), hclear.frame.entry p hp k fun hmem => (hnot hmem).elim]

/-- **`exit_mmap`** releases an address space. -/
theorem exitMmap_post (al : Allocs) (h : l.Covered s m) (hcount : (s.mm m).mmCount = 0) (htop : userTop ≤ ptSize * l.top) :
    ∃ s', (exitMmap al m).run s = .ok () s' ∧ l.Released (s.mm m).pgdir s s' := by
  obtain ⟨s₀, hs₀⟩ : ∃ s₀, s₀ = { s with exitMmaps := Function.update s.exitMmaps m (s.exitMmaps m + 1) } := ⟨_, rfl⟩
  have hmm : s₀.mm = s.mm := by rw [hs₀]
  have hpte : ∀ x, s₀.pte x = s.pte x := fun x => pte_congr (by rw [hs₀]) fun _ => by rw [hs₀]
  have hstart : l.Covered s₀ m := by
    refine ⟨h.ok.congr (by rw [hs₀]) (by rw [hs₀]) (by rw [hs₀]), ?_, ?_, ?_, ?_, ?_⟩ <;> rw [hmm]
    · exact h.dir
    · exact h.areas
    · exact h.ranges
    · exact fun x hx hxd hpresent => h.pages x hx hxd (by rwa [← hpte])
    · exact fun i hi hpresent => h.tables i hi (by rwa [hs₀] at hpresent)
  have hgone : ∀ s₁, l.Cleared (fun x => ∃ v ∈ (s₀.mm m).mmapList, x.In (s₀.mm m).pgdir v.vmStart v.vmEnd) s₀ s₁ →
      ∀ x ∈ l.slots, x.dir = (s₀.mm m).pgdir → (s₁.pte x).present = false := by
    intro s₁ hclear x hx hxd
    cases hpresent : (s₀.pte x).present with
    | false => rw [hclear.pte x hx fun _ => hpresent, hpresent]
    | true =>
      obtain ⟨v, hv, hhas⟩ := hstart.pages x hx hxd hpresent
      rw [hclear.clear x hx ⟨v, hv, hxd, hhas⟩ hpresent, Pte.present_zero]
  obtain ⟨s₁, hunmap, hclear⟩ := unmapAll_post al hstart.ok hstart.dir hstart.ranges htop
  obtain ⟨s', hexit, hexited⟩ := exitAll_post hclear.ok hstart.dir hstart.ranges htop (hgone s₁ hclear)
  have hreleased := hstart.released htop rfl hclear hexited
  refine ⟨s', ?_, ?_⟩
  · unfold exitMmap
    rw [Prog.run_bind, Prog.run_get, Outcome.andThen_ok, Prog.bind_of_ok (Prog.run_assert_of _ _ hcount), Prog.run_bind,
      Prog.run_modify, Outcome.andThen_ok, ← hs₀, ← hmm, Prog.bind_of_ok hunmap, hexit]
  · have htable : ∀ p, l.IsTable s₀ p ↔ l.IsTable s p := fun p => Layout.isTable_congr fun d' _ i _ => by rw [hs₀]
    rw [hmm] at hreleased
    refine ⟨hreleased.ok, fun p hk hp => ?_, fun p hk hp => ?_, fun i hi hpresent => ?_, hreleased.nodup,
      hreleased.empty, fun i hi => ?_, fun d' hd' hne i => ?_, fun x hx hne => ?_, fun p hp hnot k => ?_, ?_,
      hreleased.mm.trans hmm, ?_, ?_⟩
    · have href := hreleased.ref p hk ((htable p).not.mpr hp)
      rwa [hs₀] at href
    · have hfree := hreleased.pages p hk ((htable p).not.mpr hp)
      rwa [hs₀] at hfree
    · have hcounts := hreleased.tables i hi (by rw [hs₀]; exact hpresent)
      rwa [hs₀] at hcounts
    · rw [hreleased.kernel i hi, hs₀]
    · rw [hreleased.others d' hd' hne i, hs₀]
    · rw [hreleased.pte x hx hne, hpte]
    · rw [hreleased.kept p hp hnot, hs₀]
    · rw [hreleased.byte, hs₀]
    · rw [hreleased.boot, hs₀]
    · rw [hreleased.fresh, hs₀]

end Ucore.Vm
