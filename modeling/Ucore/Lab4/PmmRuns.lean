import Ucore.Lab4.DefaultPmm
import Ucore.Mm.PmmRuns

/-!
# The allocator of lab 4 over whole runs

The system is the one of `Mm.PmmRuns`, with the allocator of lab 4 in it.

* `BlockInv` is the invariant. With it, no call that a caller may make panics, but for `default_init_memmap` when there are free pages
  already.
* `free_list_ordered` is about order: the list is in order in every state, and a further range can be handed over if and only if the
  list is empty.
* `allocators_agree` compares the two allocators: what both keep is the same list of extents.
-/

namespace Ucore.Lab4

open Ucore.Lib Ucore.Mm Relation

/-- One call and its effect. The ranges are handed over in ascending order. -/
inductive PmmStep : PmmSys → PmmOp → PmmSys → Prop where
  | initMemmap {s : PmmSys} {base n : ℕ} {m : Pmm} (hn : 0 < n) (hadm : Ascending s.managed (base, n))
    (hrun : (defaultInitMemmap base n).run s.pmm = .ok () m) :
    PmmStep s (.initMemmap base n) ⟨m, s.managed ++ [(base, n)], s.live⟩
  | alloc {s : PmmSys} {n : ℕ} {r : Option ℕ} {m : Pmm} (hn : 0 < n) (hrun : (defaultAllocPages n).run s.pmm = .ok r m) :
    PmmStep s (.alloc n) ⟨m, s.managed, (r.map fun p => (p, n)).toList ++ s.live⟩
  | free {s : PmmSys} {base n : ℕ} {m : Pmm} (hlive : (base, n) ∈ s.live) (hrun : (defaultFreePages base n).run s.pmm = .ok () m) :
    PmmStep s (.free base n) ⟨m, s.managed, s.live.erase (base, n)⟩

/-- The states that are reached. -/
abbrev PmmReach : PmmSys → PmmSys → Prop := ReflTransGen fun s s' => ∃ op, PmmStep s op s'

/-! ### The invariant -/

/-- The free list has the blocks `rs`; free pages and live blocks are the managed pages, each once. -/
structure BlockInv (s : PmmSys) (rs : List Extent) : Prop where
  blocks : HasBlocks s.pmm rs
  count : s.pmm.nrFree = (flat rs).length
  perm : (flat rs ++ flat s.live).Perm (flat s.managed)
  nodup : (flat s.managed).Nodup
  livePos : ∀ r ∈ s.live, 0 < r.2
  /-- The pages of live blocks have no flags. -/
  plain : ∀ q ∈ flat s.live, (s.pmm.pages q).reserved = false ∧ (s.pmm.pages q).isProperty = false
  /-- The pages that have not been handed over are reserved. -/
  reserved : ∀ q, q ∉ flat s.managed → (s.pmm.pages q).reserved = true

namespace BlockInv

variable {s s' : PmmSys} {rs pre post : List Extent} {base a l n : ℕ}

theorem boot (h : IsBoot s) : BlockInv s [] := by
  obtain ⟨m, hres, rfl⟩ := h
  refine ⟨⟨rfl, .of_gap (fun r hr => absurd hr List.not_mem_nil) List.Pairwise.nil, ?_⟩, rfl, List.Perm.refl _, List.nodup_nil,
    fun r hr => absurd hr List.not_mem_nil, fun q hq => absurd hq List.not_mem_nil, fun q _ => hres q⟩
  exact ⟨fun r hr => absurd hr List.not_mem_nil, fun r hr => absurd hr List.not_mem_nil⟩

theorem disjoint (h : BlockInv s rs) {q : ℕ} (hq : q ∈ flat rs) : q ∉ flat s.live := fun hl =>
  (List.nodup_append.mp (h.perm.nodup_iff.mpr h.nodup)).2.2 q hq q hl rfl

theorem mem_managed (h : BlockInv s rs) {q : ℕ} : q ∈ flat s.managed ↔ q ∈ flat rs ∨ q ∈ flat s.live := by
  rw [← h.perm.mem_iff, List.mem_append]

/-- The pages of a range that lies above the others have not been handed over. -/
theorem not_managed (hadm : Ascending s.managed (base, n)) {q : ℕ} (hq : q ∈ Extent.pages (base, n)) : q ∉ flat s.managed := by
  intro hmem
  obtain ⟨r, hr, -, hlt⟩ := mem_flat.mp hmem
  have hle := hadm r hr
  have hge := (Extent.mem_pages.mp hq).1
  dsimp only at hle hge
  omega

/-- With an empty list, a range is handed over. -/
theorem initMemmap (h : BlockInv s rs) (hn : 0 < n) (hadm : Ascending s.managed (base, n)) (hempty : s.pmm.freeList = []) :
    ∃ m, (defaultInitMemmap base n).run s.pmm = .ok () m ∧
      BlockInv ⟨m, s.managed ++ [(base, n)], s.live⟩ [(base, n)] := by
  have hres : ∀ q ∈ Extent.pages (base, n), (s.pmm.pages q).reserved = true := fun q hq => h.reserved q (not_managed hadm hq)
  have hnil : rs = [] := by
    rw [h.blocks.list] at hempty
    exact List.map_eq_nil_iff.mp hempty
  subst hnil
  obtain ⟨m, hrun, hblocks, hcount, hout⟩ := defaultInitMemmap_run hn hres hempty
  have hflat : flat [(base, n)] = Extent.pages (base, n) := by
    rw [flat_cons, flat_nil, List.append_nil]
  refine ⟨m, hrun, hblocks, ?_, ?_, ?_, h.livePos, fun q hq => ?_, fun q hq => ?_⟩
  · rw [hcount, h.count, hflat, Extent.length_pages]
    exact Nat.zero_add n
  · rw [flat_append, hflat]
    exact List.perm_append_comm.trans (h.perm.append_right _)
  · rw [flat_append, hflat]
    refine List.nodup_append.mpr ⟨h.nodup, Extent.nodup_pages _, fun p hp q hq heq => ?_⟩
    exact not_managed hadm hq (heq ▸ hp)
  · have hmem : q ∈ flat s.managed := h.mem_managed.mpr (Or.inr hq)
    rw [hout q fun hq' => not_managed hadm hq' hmem]
    exact h.plain q hq
  · rw [flat_append, hflat, List.mem_append, not_or] at hq
    rw [hout q hq.2]
    exact h.reserved q hq.1

/-- A request that is served from the first block that is long enough. -/
theorem alloc_some (h : BlockInv s (pre ++ (a, l) :: post)) (hn : 0 < n) (hpre : ∀ r ∈ pre, r.2 < n) (hl : n ≤ l) :
    ∃ m, (defaultAllocPages n).run s.pmm = .ok (some a) m ∧
      BlockInv ⟨m, s.managed, (a, n) :: s.live⟩ (pre ++ (restRun a l n ++ post)) ∧ m.nrFree + n = s.pmm.nrFree := by
  have hsplit : flat (pre ++ (a, l) :: post) =
      flat pre ++ (Extent.pages (a, n) ++ (Extent.pages (a + n, l - n) ++ flat post)) := by
    rw [flat_append, flat_cons, Extent.pages_split a l n hl, List.append_assoc]
  have hrest : flat (pre ++ (restRun a l n ++ post)) = flat pre ++ (Extent.pages (a + n, l - n) ++ flat post) := by
    rw [flat_append, flat_append, flat_restRun hl]
  have hlen : (flat (pre ++ (a, l) :: post)).length = (flat (pre ++ (restRun a l n ++ post))).length + n := by
    rw [hsplit, hrest]
    simp only [List.length_append, Extent.length_pages]
    omega
  have hle : n ≤ s.pmm.nrFree := by
    rw [h.count, hlen]
    exact Nat.le_add_left _ _
  obtain ⟨m, hrun, hblocks, hcount, hplain, hout⟩ := defaultAllocPages_some h.blocks hle hn hpre hl
  have hperm : (flat (pre ++ (restRun a l n ++ post)) ++ Extent.pages (a, n)).Perm (flat (pre ++ (a, l) :: post)) := by
    rw [hsplit, hrest, List.perm_iff_count]
    intro q
    simp only [List.count_append]
    omega
  refine ⟨m, hrun, ⟨hblocks, ?_, ?_, h.nodup, fun r hr => ?_, fun q hq => ?_, fun q hq => ?_⟩, ?_⟩
  · rw [hcount, h.count, hlen]
    exact Nat.add_sub_cancel _ _
  · rw [flat_cons, ← List.append_assoc]
    exact (hperm.append_right _).trans h.perm
  · rcases List.mem_cons.mp hr with rfl | hr
    · exact hn
    · exact h.livePos r hr
  · rw [flat_cons] at hq
    rcases List.mem_append.mp hq with hq | hq
    · exact hplain q hq
    · rw [hout q fun hmem => h.disjoint (mem_flat.mpr ⟨(a, l), List.mem_append_right _ List.mem_cons_self, Extent.mem_pages.mp hmem⟩) hq]
      exact h.plain q hq
  · rw [hout q fun hmem => hq (h.mem_managed.mpr (Or.inl (mem_flat.mpr
      ⟨(a, l), List.mem_append_right _ List.mem_cons_self, Extent.mem_pages.mp hmem⟩)))]
    exact h.reserved q hq
  · rw [hcount]
    exact Nat.sub_add_cancel hle

/-- Giving a live block back. -/
theorem free (h : BlockInv s rs) (hlive : (base, n) ∈ s.live) :
    ∃ m rs', (defaultFreePages base n).run s.pmm = .ok () m ∧ BlockInv ⟨m, s.managed, s.live.erase (base, n)⟩ rs' ∧
      m.nrFree = s.pmm.nrFree + n ∧ (flat rs').Perm (flat rs ++ Extent.pages (base, n)) := by
  have hn : 0 < n := h.livePos _ hlive
  have hmem : ∀ q ∈ Extent.pages (base, n), q ∈ flat s.live := fun q hq =>
    mem_flat.mpr ⟨_, hlive, Extent.mem_pages.mp hq⟩
  have hlperm : (flat s.live).Perm (Extent.pages (base, n) ++ flat (s.live.erase (base, n))) := by
    have := (List.perm_cons_erase hlive).flatMap_right Extent.pages
    simpa [flat] using this
  obtain ⟨lo, hi, rfl, hlo, hhi⟩ := h.blocks.coalesced.toSep.split_at hn fun q hle hlt hq =>
    h.disjoint hq (hmem q (Extent.mem_pages.mpr ⟨hle, hlt⟩))
  obtain ⟨m, rs', hrun, hblocks, hflat, hcount, hout⟩ := defaultFreePages_run h.blocks hn hlo hhi
    fun q hq => h.plain q (hmem q hq)
  have hperm : (flat rs').Perm (flat (lo ++ hi) ++ Extent.pages (base, n)) := by
    rw [hflat, flat_append, List.perm_iff_count]
    intro q
    simp only [List.count_append]
    omega
  have hnodup := (List.nodup_append.mp (h.perm.nodup_iff.mpr h.nodup)).2.1
  have hnodup' := List.nodup_append.mp (hlperm.nodup_iff.mp hnodup)
  refine ⟨m, rs', hrun, ⟨hblocks, ?_, ?_, h.nodup, fun r hr => h.livePos r (List.mem_of_mem_erase hr), fun q hq => ?_, fun q hq => ?_⟩,
    hcount, hperm⟩
  · rw [hcount, h.count, hperm.length_eq, List.length_append, Extent.length_pages]
  · refine (hperm.append_right _).trans ?_
    rw [List.append_assoc]
    exact (hlperm.symm.append_left _).trans h.perm
  · have hql : q ∈ flat s.live := hlperm.mem_iff.mpr (List.mem_append_right _ hq)
    rw [hout q fun hq' => ?_]
    · exact h.plain q hql
    · rcases List.mem_append.mp (hperm.mem_iff.mp hq') with hq' | hq'
      · exact h.disjoint hq' hql
      · exact hnodup'.2.2 q hq' q hq rfl
  · rw [hout q fun hq' => ?_]
    · exact h.reserved q hq
    · rcases List.mem_append.mp (hperm.mem_iff.mp hq') with hq' | hq'
      · exact hq (h.mem_managed.mpr (Or.inl hq'))
      · exact hq (h.mem_managed.mpr (Or.inr (hmem q hq')))

/-- A request is refused because every block is too short, or served from the first one that is long enough. -/
theorem alloc (h : BlockInv s rs) (hn : 0 < n) :
    ((defaultAllocPages n).run s.pmm = .ok none s.pmm ∧ ∀ r ∈ rs, r.2 < n) ∨
      ∃ pre a l post m, rs = pre ++ (a, l) :: post ∧ (∀ r ∈ pre, r.2 < n) ∧ n ≤ l ∧
        (defaultAllocPages n).run s.pmm = .ok (some a) m ∧
        BlockInv ⟨m, s.managed, (a, n) :: s.live⟩ (pre ++ (restRun a l n ++ post)) ∧ m.nrFree + n = s.pmm.nrFree := by
  by_cases hex : ∃ r ∈ rs, n ≤ r.2
  · obtain ⟨pre, ⟨a, l⟩, post, rfl, hpre, hl⟩ := exists_first hex
    have hlt : ∀ r ∈ pre, r.2 < n := fun r hr => Nat.lt_of_not_le (hpre r hr)
    obtain ⟨m, hrun, hinv, hcount⟩ := h.alloc_some hn hlt hl
    exact Or.inr ⟨pre, a, l, post, m, rfl, hlt, hl, hrun, hinv, hcount⟩
  · have hlt : ∀ r ∈ rs, r.2 < n := fun r hr => Nat.lt_of_not_le fun hle => hex ⟨r, hr, hle⟩
    exact Or.inl ⟨defaultAllocPages_none h.blocks hn hlt, hlt⟩

theorem start_lt (h : BlockInv s rs) (hadm : Ascending s.managed (base, n)) : ∀ r ∈ rs, r.1 < base := by
  intro r hr
  have hmem : r.1 ∈ flat s.managed := h.mem_managed.mpr (Or.inl (mem_flat.mpr
    ⟨r, hr, Nat.le_refl _, Nat.lt_add_of_pos_right (h.blocks.coalesced.pos r hr)⟩))
  obtain ⟨r', hr', -, hlt⟩ := mem_flat.mp hmem
  exact Nat.lt_of_lt_of_le hlt (hadm r' hr')

/-- A range that lies above the others can be handed over if and only if the list is empty. -/
theorem initMemmap_iff (h : BlockInv s rs) (hn : 0 < n) (hadm : Ascending s.managed (base, n)) :
    (∃ m, (defaultInitMemmap base n).run s.pmm = .ok () m) ↔ s.pmm.freeList = [] := by
  constructor
  · rintro ⟨m, hrun⟩
    by_contra hne
    have hpanic := defaultInitMemmap_disordered h.blocks hn (fun q hq => h.reserved q (not_managed hadm hq)) (h.start_lt hadm) hne
    rw [hrun] at hpanic
    cases hpanic
  · intro hempty
    obtain ⟨m, hrun, -⟩ := h.initMemmap hn hadm hempty
    exact ⟨m, hrun⟩

theorem step {op : PmmOp} (h : BlockInv s rs) (hstep : PmmStep s op s') : ∃ rs', BlockInv s' rs' := by
  cases hstep with
  | initMemmap hn hadm hrun =>
    obtain ⟨m, hrun', hinv⟩ := h.initMemmap hn hadm ((h.initMemmap_iff hn hadm).mp ⟨_, hrun⟩)
    rw [hrun] at hrun'
    cases hrun'
    exact ⟨_, hinv⟩
  | alloc hn hrun =>
    rcases h.alloc hn with ⟨hrun', -⟩ | ⟨pre, a, l, post, m, -, -, -, hrun', hinv, -⟩
    · rw [hrun] at hrun'
      cases hrun'
      exact ⟨rs, h⟩
    · rw [hrun] at hrun'
      cases hrun'
      exact ⟨_, hinv⟩
  | free hlive hrun =>
    obtain ⟨m, rs', hrun', hinv, -⟩ := h.free hlive
    rw [hrun] at hrun'
    cases hrun'
    exact ⟨rs', hinv⟩

theorem of_reach {s₀ : PmmSys} (h₀ : IsBoot s₀) (h : PmmReach s₀ s) : ∃ rs, BlockInv s rs := by
  refine invariant_of_step (fun s => ∃ rs, BlockInv s rs) h ⟨[], boot h₀⟩ ?_
  rintro s₁ s₂ ⟨rs, hinv⟩ ⟨op, hstep⟩
  exact hinv.step hstep

end BlockInv

/-! ### Order -/

/-- **The free list is in order in every state that is reached**: no block is empty, and each one ends before the later ones start.
Requests and blocks that are given back never make `check_order` panic; a further range does, unless the list is empty. -/
theorem free_list_ordered {s₀ s : PmmSys} (h₀ : IsBoot s₀) (h : PmmReach s₀ s) :
    (∀ p ∈ s.pmm.freeList, 0 < (s.pmm.pages p).property) ∧
      s.pmm.freeList.Pairwise (fun p q => p + (s.pmm.pages p).property ≤ q) ∧
      (∀ base n, 0 < n → Ascending s.managed (base, n) →
        ((∃ m, (defaultInitMemmap base n).run s.pmm = .ok () m) ↔ s.pmm.freeList = [])) ∧
      (∀ n, 0 < n → ∃ r m, (defaultAllocPages n).run s.pmm = .ok r m) ∧
      ∀ b ∈ s.live, ∃ m, (defaultFreePages b.1 b.2).run s.pmm = .ok () m := by
  obtain ⟨rs, hinv⟩ := BlockInv.of_reach h₀ h
  have hblocks := hinv.blocks
  refine ⟨fun p hp => ?_, ?_, fun base n hn hadm => hinv.initMemmap_iff hn hadm, fun n hn => ?_, fun b hb => ?_⟩
  · rw [hblocks.list] at hp
    obtain ⟨r, hr, rfl⟩ := List.mem_map.mp hp
    rw [hblocks.blocks.head r hr]
    exact hblocks.coalesced.pos r hr
  · rw [hblocks.list]
    refine List.pairwise_map.mpr (hblocks.coalesced.asc.imp_of_mem fun {r r'} hr _ hle => ?_)
    rwa [hblocks.blocks.head r hr]
  · rcases hinv.alloc hn with ⟨hrun, -⟩ | ⟨_, _, _, _, m, -, -, -, hrun, -⟩
    · exact ⟨none, s.pmm, hrun⟩
    · exact ⟨_, m, hrun⟩
  · obtain ⟨m, -, hrun, -⟩ := hinv.free hb
    exact ⟨m, hrun⟩

/-- One range, two requests, and the first block given back. -/
theorem free_list_ordered_one_range : ∃ s, PmmReach pmmBoot s ∧ s.pmm.freeList = [2, 4] ∧
    s.pmm.freeList.Pairwise (fun p q => p + (s.pmm.pages p).property ≤ q) := by
  have hreach : PmmReach pmmBoot _ := (((ReflTransGen.refl.tail
    ⟨.initMemmap 2 3, .initMemmap (by decide) (by decide) rfl⟩).tail
    ⟨.alloc 1, .alloc (by decide) rfl⟩).tail
    ⟨.alloc 1, .alloc (by decide) rfl⟩).tail
    ⟨.free 2 1, .free (by decide) rfl⟩
  exact ⟨_, hreach, rfl, (free_list_ordered pmmBoot_isBoot hreach).2.1⟩

/-- A second range, above the first one, makes `check_order` panic. -/
theorem free_list_disordered : ∃ s, PmmReach pmmBoot s ∧ Ascending s.managed (9, 4) ∧
    (defaultInitMemmap 9 4).run s.pmm = .panic .disordered :=
  ⟨_, ReflTransGen.refl.tail ⟨.initMemmap 2 3, .initMemmap (by decide) (by decide) rfl⟩, by decide, rfl⟩

/-! ### The two allocators -/

/-- Both allocators, and the blocks that each has returned and not got back. -/
structure Both where
  lab4 : Pmm
  lab8 : Pmm
  live4 : List Extent
  live8 : List Extent

/-- The allocator of lab 8. -/
abbrev alloc8 (n : ℕ) : Prog Mm.PmmPanic Empty Pmm (Option ℕ) := Mm.defaultAllocPages n

abbrev free8 (base n : ℕ) : Prog Mm.PmmPanic Empty Pmm Unit := Mm.defaultFreePages base n

/-- The same call to both. -/
inductive BothStep : Both → Both → Prop where
  | alloc {c : Both} {n : ℕ} {r4 r8 : Option ℕ} {m4 m8 : Pmm} (hn : 0 < n) (hrun4 : (defaultAllocPages n).run c.lab4 = .ok r4 m4)
    (hrun8 : (alloc8 n).run c.lab8 = .ok r8 m8) :
    BothStep c ⟨m4, m8, (r4.map fun p => (p, n)).toList ++ c.live4, (r8.map fun p => (p, n)).toList ++ c.live8⟩
  | free {c : Both} {base n : ℕ} {m4 m8 : Pmm} (hlive4 : (base, n) ∈ c.live4) (hlive8 : (base, n) ∈ c.live8)
    (hrun4 : (defaultFreePages base n).run c.lab4 = .ok () m4) (hrun8 : (free8 base n).run c.lab8 = .ok () m8) :
    BothStep c ⟨m4, m8, c.live4.erase (base, n), c.live8.erase (base, n)⟩

/-- What callers see is the same. -/
structure Agree (c : Both) : Prop where
  nrFree : c.lab4.nrFree = c.lab8.nrFree
  live : c.live4 = c.live8
  alloc : ∀ n, 0 < n → ∃ r m4 m8, (defaultAllocPages n).run c.lab4 = .ok r m4 ∧ (alloc8 n).run c.lab8 = .ok r m8
  free : ∀ b ∈ c.live4, ∃ m4 m8, (defaultFreePages b.1 b.2).run c.lab4 = .ok () m4 ∧ (free8 b.1 b.2).run c.lab8 = .ok () m8

/-- The relation that every call keeps: the blocks of the one are the runs of pages of the other. -/
structure Simulates (managed : List Extent) (c : Both) (rs : List Extent) : Prop where
  inv4 : BlockInv ⟨c.lab4, managed, c.live4⟩ rs
  inv8 : PmmInv ⟨c.lab8, managed, c.live8⟩ rs
  live : c.live4 = c.live8

namespace Simulates

variable {managed rs : List Extent} {c c' : Both} {base n : ℕ}

theorem nrFree (h : Simulates managed c rs) : c.lab4.nrFree = c.lab8.nrFree := by
  have hcount := h.inv8.count
  rw [h.inv8.runs.list] at hcount
  exact h.inv4.count.trans hcount.symm

theorem alloc (h : Simulates managed c rs) (hn : 0 < n) :
    ∃ r m4 m8 rs', (defaultAllocPages n).run c.lab4 = .ok r m4 ∧ (alloc8 n).run c.lab8 = .ok r m8 ∧
      Simulates managed ⟨m4, m8, (r.map fun p => (p, n)).toList ++ c.live4, (r.map fun p => (p, n)).toList ++ c.live8⟩ rs' := by
  by_cases hex : ∃ r ∈ rs, n ≤ r.2
  · obtain ⟨pre, ⟨a, l⟩, post, rfl, hpre, hl⟩ := exists_first hex
    have hlt : ∀ r ∈ pre, r.2 < n := fun r hr => Nat.lt_of_not_le (hpre r hr)
    obtain ⟨m4, hrun4, hinv4, -⟩ := h.inv4.alloc_some hn hlt hl
    obtain ⟨m8, hrun8, hinv8, -⟩ := h.inv8.alloc_some hn hlt hl
    exact ⟨some a, m4, m8, _, hrun4, hrun8, hinv4, hinv8, congrArg _ h.live⟩
  · have hlt : ∀ r ∈ rs, r.2 < n := fun r hr => Nat.lt_of_not_le fun hle => hex ⟨r, hr, hle⟩
    exact ⟨none, c.lab4, c.lab8, rs, defaultAllocPages_none h.inv4.blocks hn hlt, Mm.defaultAllocPages_none h.inv8.runs hn hlt, h⟩

theorem free (h : Simulates managed c rs) (hlive : (base, n) ∈ c.live4) :
    ∃ m4 m8 rs', (defaultFreePages base n).run c.lab4 = .ok () m4 ∧ (free8 base n).run c.lab8 = .ok () m8 ∧
      Simulates managed ⟨m4, m8, c.live4.erase (base, n), c.live8.erase (base, n)⟩ rs' := by
  have hlive8 : (base, n) ∈ c.live8 := h.live ▸ hlive
  obtain ⟨m4, rs4, hrun4, hinv4, -⟩ := h.inv4.free hlive
  obtain ⟨m8, rs8, hrun8, hinv8, -, hco⟩ := h.inv8.free hlive8
  -- both lists have the pages that are in no live block, and none of their extents touch
  have heq : rs4 = rs8 := by
    apply hinv4.blocks.coalesced.eq_of_mem_iff (hco h.inv4.blocks.coalesced)
    intro p
    have hperm := hinv8.perm
    rw [hinv8.runs.list] at hperm
    have hperm' := hinv4.perm.trans hperm.symm
    dsimp only at hperm'
    rw [h.live, List.perm_append_right_iff] at hperm'
    exact hperm'.mem_iff
  subst heq
  refine ⟨m4, m8, rs4, hrun4, hrun8, hinv4, hinv8, ?_⟩
  dsimp only
  rw [h.live]

theorem agree (h : Simulates managed c rs) : Agree c := by
  refine ⟨h.nrFree, h.live, fun n hn => ?_, fun b hb => ?_⟩
  · obtain ⟨r, m4, m8, -, hrun4, hrun8, -⟩ := h.alloc hn
    exact ⟨r, m4, m8, hrun4, hrun8⟩
  · obtain ⟨m4, m8, -, hrun4, hrun8, -⟩ := h.free hb
    exact ⟨m4, m8, hrun4, hrun8⟩

theorem step (h : Simulates managed c rs) (hstep : BothStep c c') : ∃ rs', Simulates managed c' rs' := by
  cases hstep with
  | alloc hn hrun4 hrun8 =>
    obtain ⟨r, m4, m8, rs', hrun4', hrun8', hsim⟩ := h.alloc hn
    rw [hrun4] at hrun4'
    rw [hrun8] at hrun8'
    cases hrun4'
    cases hrun8'
    exact ⟨rs', hsim⟩
  | free hlive4 hlive8 hrun4 hrun8 =>
    obtain ⟨m4, m8, rs', hrun4', hrun8', hsim⟩ := h.free hlive4
    rw [hrun4] at hrun4'
    rw [hrun8] at hrun8'
    cases hrun4'
    cases hrun8'
    exact ⟨rs', hsim⟩

end Simulates

/-- **The two allocators agree**: after `default_init_memmap` of one range, every request has the same answer from both, the number of
free pages is the same, and neither panics. -/
theorem allocators_agree {m4 m8 : Pmm} {base n : ℕ} (h4 : ∀ p, (m4.pages p).reserved = true)
    (h8 : ∀ p, (m8.pages p).reserved = true) (hn : 0 < n) :
    ∃ s4 s8, (defaultInitMemmap base n).run (defaultInit m4) = .ok () s4 ∧
      (Mm.defaultInitMemmap base n : Prog Mm.PmmPanic Empty Pmm Unit).run (defaultInit m8) = .ok () s8 ∧
      ∀ c, ReflTransGen BothStep ⟨s4, s8, [], []⟩ c → Agree c := by
  have hasc : Ascending [] (base, n) := fun r hr => absurd hr List.not_mem_nil
  obtain ⟨s4, hrun4, hinv4⟩ := (BlockInv.boot ⟨m4, h4, rfl⟩).initMemmap hn hasc rfl
  obtain ⟨s8, hrun8, hinv8, -⟩ := (PmmInv.boot ⟨m8, h8, rfl⟩).initMemmap hn hasc
  refine ⟨s4, s8, hrun4, hrun8, fun c hreach => ?_⟩
  have hsim : ∃ rs, Simulates [(base, n)] c rs := by
    refine invariant_of_step (fun c => ∃ rs, Simulates [(base, n)] c rs) hreach ⟨_, hinv4, hinv8, rfl⟩ ?_
    rintro c₁ c₂ ⟨rs, hsim⟩ hstep
    exact hsim.step hstep
  obtain ⟨rs, hsim⟩ := hsim
  exact hsim.agree

/-- Three pages: both give the first two to a request. -/
theorem allocators_agree_three_pages : ∃ c : Both, Agree c ∧ c.live4 = [(2, 2)] := by
  obtain ⟨s4, s8, h4, h8, hall⟩ := @allocators_agree pmmBoot.pmm pmmBoot.pmm 2 3 (fun _ => rfl) (fun _ => rfl) (by decide)
  cases h4
  cases h8
  exact ⟨_, hall _ (ReflTransGen.refl.tail (@BothStep.alloc _ 2 (some 2) (some 2) _ _ (by decide) rfl rfl)), rfl⟩

end Ucore.Lab4
