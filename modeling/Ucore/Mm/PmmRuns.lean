import Ucore.Mm.DefaultPmm

/-!
# The page allocator over whole runs

The system is the allocator together with what its callers know: the page ranges that were handed
to it (`managed`) and the blocks it has returned and not got back (`live`). A step is one call;
a caller frees only a live block. `Ascending`, `Apart` and `Fresh` are the three ways in which the
ranges of `default_init_memmap` may be restricted.

* `PmmInv` is the invariant: the free list represents some extents, and free pages and live
  blocks together are the managed pages, each once. `PmmInv.step` shows that every step keeps it.
* `freeList_represents_free_pages` is the representation theorem of the free list.
* `firstFit_exact` is first fit: which page a request gets, and that giving it back restores the
  list.
* `pageFlags_agree_of_single_frees`: the page flags agree with the list as long as only single
  pages are freed. `default_free_pages` clears the flags of the first page of a block only, so a
  block of several pages leaves reserved pages on the list (`pageFlags_disagree_after_block_free`).
-/

namespace Ucore.Mm

open Ucore.Lib Relation

/-- The allocator with the ranges it manages and the blocks its callers hold. -/
structure PmmSys where
  /-- The allocator. -/
  pmm : Pmm
  /-- The ranges given to `default_init_memmap`. -/
  managed : List Extent
  /-- The blocks returned by `default_alloc_pages` and not freed. -/
  live : List Extent

/-- One call of the allocator. -/
inductive PmmOp where
  | initMemmap (base n : ℕ)
  | alloc (n : ℕ)
  | free (base n : ℕ)
  deriving Repr, DecidableEq

/-- A range that lies above all ranges so far. -/
def Ascending (managed : List Extent) (r : Extent) : Prop := ∀ r' ∈ managed, r'.1 + r'.2 ≤ r.1

/-- A range that lies above all ranges so far and touches none of them. -/
def Apart (managed : List Extent) (r : Extent) : Prop := ∀ r' ∈ managed, r'.1 + r'.2 < r.1

/-- A range that overlaps none of the ranges so far. -/
def Fresh (managed : List Extent) (r : Extent) : Prop := ∀ p ∈ r.pages, p ∉ flat managed

instance (managed : List Extent) (r : Extent) : Decidable (Ascending managed r) :=
  inferInstanceAs (Decidable (∀ r' ∈ managed, r'.1 + r'.2 ≤ r.1))

instance (managed : List Extent) (r : Extent) : Decidable (Apart managed r) :=
  inferInstanceAs (Decidable (∀ r' ∈ managed, r'.1 + r'.2 < r.1))

instance (managed : List Extent) (r : Extent) : Decidable (Fresh managed r) :=
  inferInstanceAs (Decidable (∀ p ∈ r.pages, p ∉ flat managed))

/-- One call and its effect. `Adm` says which ranges may be handed over. -/
inductive PmmStep (Adm : List Extent → Extent → Prop) : PmmSys → PmmOp → PmmSys → Prop where
  | initMemmap {s : PmmSys} {base n : ℕ} {m : Pmm} (hn : 0 < n) (hadm : Adm s.managed (base, n))
      (hrun : (defaultInitMemmap base n : Prog PmmPanic Empty Pmm Unit).run s.pmm = .ok () m) :
      PmmStep Adm s (.initMemmap base n) ⟨m, s.managed ++ [(base, n)], s.live⟩
  | alloc {s : PmmSys} {n p : ℕ} {m : Pmm} (hn : 0 < n)
      (hrun : (defaultAllocPages n : Prog PmmPanic Empty Pmm (Option ℕ)).run s.pmm =
        .ok (some p) m) :
      PmmStep Adm s (.alloc n) ⟨m, s.managed, (p, n) :: s.live⟩
  | allocNull {s : PmmSys} {n : ℕ} {m : Pmm} (hn : 0 < n)
      (hrun : (defaultAllocPages n : Prog PmmPanic Empty Pmm (Option ℕ)).run s.pmm = .ok none m) :
      PmmStep Adm s (.alloc n) ⟨m, s.managed, s.live⟩
  | free {s : PmmSys} {base n : ℕ} {m : Pmm} (hlive : (base, n) ∈ s.live)
      (hrun : (defaultFreePages base n : Prog PmmPanic Empty Pmm Unit).run s.pmm = .ok () m) :
      PmmStep Adm s (.free base n) ⟨m, s.managed, s.live.erase (base, n)⟩

/-- The state after `default_init`: nothing managed, and every page reserved, as `page_init`
leaves them. -/
def IsBoot (s : PmmSys) : Prop :=
  ∃ m : Pmm, (∀ p, (m.pages p).reserved = true) ∧ s = ⟨defaultInit m, [], []⟩

/-- The states reached by calls that satisfy `C`. -/
def PmmReach (Adm : List Extent → Extent → Prop) (C : PmmOp → Prop) : PmmSys → PmmSys → Prop :=
  ReflTransGen fun s s' => ∃ op, C op ∧ PmmStep Adm s op s'

/-- A page is free when it is managed and in no live block. -/
def PmmSys.IsFree (s : PmmSys) (p : ℕ) : Prop := p ∈ flat s.managed ∧ p ∉ flat s.live

/-! ### The invariant -/

/-- The free list represents the extents `rs`, and free pages and live blocks are the managed
pages, each once. -/
structure PmmInv (s : PmmSys) (rs : List Extent) : Prop where
  /-- The free list and the counts on it. -/
  runs : HasRuns s.pmm rs
  /-- `nr_free` is the length of the list. -/
  count : s.pmm.nrFree = s.pmm.freeList.length
  /-- No managed page is lost and none is there twice. -/
  perm : (s.pmm.freeList ++ flat s.live).Perm (flat s.managed)
  /-- The managed ranges do not overlap. -/
  nodup : (flat s.managed).Nodup
  /-- No live block is empty. -/
  livePos : ∀ r ∈ s.live, 0 < r.2
  /-- Behind its first page a live block carries no counts. -/
  liveZero : ∀ r ∈ s.live, ∀ k, 0 < k → k < r.2 → (s.pmm.pages (r.1 + k)).property = 0
  /-- A page that is not free is reserved. -/
  reserved : ∀ p, p ∉ s.pmm.freeList → (s.pmm.pages p).reserved = true

namespace PmmInv

variable {s s' : PmmSys} {rs : List Extent}

theorem mem_freeList (h : PmmInv s rs) {p : ℕ} : p ∈ s.pmm.freeList ↔ s.IsFree p := by
  have hnd : (s.pmm.freeList ++ flat s.live).Nodup := h.perm.nodup_iff.mpr h.nodup
  have hmem := h.perm.mem_iff (a := p)
  rw [List.mem_append] at hmem
  refine ⟨fun hp => ⟨hmem.mp (Or.inl hp), fun hl => ?_⟩, fun ⟨hm, hl⟩ =>
    (hmem.mpr hm).resolve_right hl⟩
  exact (List.nodup_append.mp hnd).2.2 p hp p hl rfl

theorem boot (h : IsBoot s) : PmmInv s [] := by
  obtain ⟨m, hres, rfl⟩ := h
  exact ⟨⟨rfl, ⟨by simp, by simp⟩, by simp, by simp⟩, rfl, by simp [defaultInit], by simp, by simp,
    by simp, fun p _ => hres p⟩

/-- Giving the allocator a further range, above the ones it has. -/
theorem initMemmap (h : PmmInv s rs) {base n : ℕ} (hn : 0 < n)
    (hadm : Ascending s.managed (base, n)) :
    ∃ m, (defaultInitMemmap base n : Prog PmmPanic Empty Pmm Unit).run s.pmm = .ok () m ∧
      PmmInv ⟨m, s.managed ++ [(base, n)], s.live⟩ (rs ++ [(base, n)]) ∧
      (Apart s.managed (base, n) → Coalesced rs → Coalesced (rs ++ [(base, n)])) := by
  have hbelow : ∀ p ∈ flat s.managed, p < base := by
    intro p hp
    obtain ⟨r, hr, -, hlt⟩ := mem_flat.mp hp
    have := hadm r hr
    simp only at this
    omega
  have hfree : ∀ p ∈ s.pmm.freeList, p ∈ flat s.managed := fun p hp =>
    h.perm.mem_iff.mp (List.mem_append_left _ hp)
  have hlive : ∀ p ∈ flat s.live, p ∈ flat s.managed := fun p hp =>
    h.perm.mem_iff.mp (List.mem_append_right _ hp)
  have hnew : ∀ p, p ∈ Extent.pages (base, n) → p ∉ flat s.managed := by
    intro p hp hp'
    have := hbelow p hp'
    rw [Extent.mem_pages] at hp
    simp only at hp
    omega
  have hlast : ∀ r ∈ rs, r.1 + (r.2 - 1) ∈ flat s.managed := by
    intro r hr
    have := h.runs.sep.pos r hr
    apply hfree
    rw [h.runs.list]
    exact mem_flat.mpr ⟨r, hr, by omega, by omega⟩
  obtain ⟨m, hrun, hruns, hcount, hout⟩ := defaultInitMemmap_run (ε := Empty) h.runs hn
    (fun r hr => by
      have := hbelow _ (hlast r hr)
      have := h.runs.sep.pos r hr
      omega)
    (fun k hk => h.reserved _ fun hmem => hnew (base + k)
      (by rw [Extent.mem_pages]; simp only; omega) (hfree _ hmem))
  have hlist : m.freeList = s.pmm.freeList ++ Extent.pages (base, n) := by
    rw [hruns.list, h.runs.list]
    simp
  refine ⟨m, hrun, ⟨hruns, ?_, ?_, ?_, h.livePos, fun r hr k h0 hk => ?_, fun p hp => ?_⟩,
    fun hap hco => ?_⟩
  · rw [hcount, hlist, h.count]
    simp
  · rw [hlist, flat_append, flat_cons, flat_nil, List.append_nil, List.append_assoc]
    refine (List.perm_append_comm.append_left _).trans ?_
    rw [← List.append_assoc]
    exact h.perm.append_right _
  · rw [flat_append, flat_cons, flat_nil, List.append_nil]
    exact List.nodup_append.mpr ⟨h.nodup, Extent.nodup_pages _, fun p hp q hq heq =>
      hnew q hq (heq ▸ hp)⟩
  · have hmem : r.1 + k ∈ flat s.live := mem_flat.mpr ⟨r, hr, by omega, by omega⟩
    rw [hout _ fun hp => hnew _ hp (hlive _ hmem)]
    exact h.liveZero r hr k h0 hk
  · rw [hlist, List.mem_append, not_or] at hp
    rw [hout p hp.2]
    exact h.reserved p hp.1
  · refine hco.append (.of_gap (by simpa using hn) (by simp)) fun r hr r' hr' => ?_
    obtain rfl := List.mem_singleton.mp hr'
    obtain ⟨x, hx, -, hlt⟩ := mem_flat.mp (hlast r hr)
    have := hap x hx
    have := h.runs.sep.pos r hr
    simp only at this ⊢
    omega

/-- A request that is served: the block is the start of the first extent that is long enough. -/
theorem alloc_some {pre post : List Extent} {a l n : ℕ} (h : PmmInv s (pre ++ (a, l) :: post))
    (hn : 0 < n) (hpre : ∀ r ∈ pre, r.2 < n) (hl : n ≤ l) :
    ∃ m, (defaultAllocPages n : Prog PmmPanic Empty Pmm (Option ℕ)).run s.pmm = .ok (some a) m ∧
      PmmInv ⟨m, s.managed, (a, n) :: s.live⟩ (pre ++ (restRun a l n ++ post)) ∧
      m.nrFree + n = s.pmm.nrFree ∧
      (Coalesced (pre ++ (a, l) :: post) → Coalesced (pre ++ (restRun a l n ++ post))) := by
  obtain ⟨m, hrun, hruns, hcount, hin, hout⟩ := defaultAllocPages_some (ε := Empty) h.runs h.count hn
    hpre hl
  have hold : s.pmm.freeList =
      flat pre ++ (Extent.pages (a, n) ++ (Extent.pages (a + n, l - n) ++ flat post)) := by
    rw [h.runs.list, flat_append, flat_cons, Extent.pages_split a l n hl, List.append_assoc]
  have hnew : m.freeList = flat pre ++ (Extent.pages (a + n, l - n) ++ flat post) := by
    rw [hruns.list, flat_append, flat_append, flat_restRun hl]
  have hmem : ∀ p, p ∈ s.pmm.freeList ↔ p ∈ m.freeList ∨ p ∈ Extent.pages (a, n) := by
    intro p
    rw [hold, hnew]
    simp only [List.mem_append]
    tauto
  have hlen : s.pmm.nrFree = m.freeList.length + n := by
    rw [h.count, hold, hnew]
    simp only [List.length_append, Extent.length_pages]
    omega
  have hlive : ∀ p ∈ flat s.live, p ∉ s.pmm.freeList := fun p hp hf =>
    (h.mem_freeList.mp hf).2 hp
  refine ⟨m, hrun, ⟨hruns, ?_, ?_, h.nodup, ?_, ?_, fun p hp => ?_⟩, by omega, fun hco => ?_⟩
  · simp only
    omega
  · refine List.Perm.trans ?_ h.perm
    rw [hold, hnew, flat_cons, List.perm_iff_count]
    intro p
    simp only [List.count_append]
    omega
  · intro r hr
    rcases List.mem_cons.mp hr with rfl | hr
    · exact hn
    · exact h.livePos r hr
  · intro r hr k h0 hk
    rcases List.mem_cons.mp hr with rfl | hr
    · simp only at hk ⊢
      rw [hin _ (by rw [Extent.mem_pages]; simp only; omega)]
      exact h.runs.tail (a, l) (by simp) k h0 (by simp only; omega)
    · have hfl : r.1 + k ∈ flat s.live := mem_flat.mpr ⟨r, hr, by omega, by omega⟩
      obtain ⟨c, hc, hkeep⟩ := hout (r.1 + k) fun hp => hlive _ hfl ((hmem _).mpr (Or.inr hp))
      rw [hc, hkeep (hlive _ hfl)]
      exact h.liveZero r hr k h0 hk
  · by_cases hp' : p ∈ Extent.pages (a, n)
    · rw [hin p hp']
      rfl
    · obtain ⟨c, hc, -⟩ := hout p hp'
      rw [hc]
      exact h.reserved p fun hf => ((hmem p).mp hf).elim hp hp'
  · exact coalesced_restRun hco n

/-- Giving a live block back. -/
theorem free (h : PmmInv s rs) {base n : ℕ} (hlive : (base, n) ∈ s.live) :
    ∃ m rs', (defaultFreePages base n : Prog PmmPanic Empty Pmm Unit).run s.pmm = .ok () m ∧
      PmmInv ⟨m, s.managed, s.live.erase (base, n)⟩ rs' ∧ m.nrFree = s.pmm.nrFree + n ∧
      (Coalesced rs → Coalesced rs') := by
  have hn : 0 < n := h.livePos _ hlive
  have hperm : (flat s.live).Perm (Extent.pages (base, n) ++ flat (s.live.erase (base, n))) := by
    have := (List.perm_cons_erase hlive).flatMap_right Extent.pages
    simpa [flat] using this
  have hblock : ∀ q, base ≤ q → q < base + n → q ∉ s.pmm.freeList := fun q h1 h2 hf =>
    (h.mem_freeList.mp hf).2 (mem_flat.mpr ⟨_, hlive, h1, h2⟩)
  obtain ⟨lo, hi, rfl, hlo, hhi⟩ := h.runs.sep.split_at hn
    (fun q h1 h2 hf => hblock q h1 h2 (by rwa [h.runs.list]))
  obtain ⟨m, rs', hrun, hruns, hco, hlist, hcount, hbase, hout⟩ := defaultFreePages_run (ε := Empty)
    h.runs hn hlo hhi (h.reserved _ (hblock base le_rfl (by omega))) (h.liveZero _ hlive)
  have hold : s.pmm.freeList = flat lo ++ flat hi := by rw [h.runs.list, flat_append]
  have hmem : ∀ p, p ∈ m.freeList ↔ p ∈ s.pmm.freeList ∨ p ∈ Extent.pages (base, n) := by
    intro p
    rw [hold, hlist]
    simp only [List.mem_append]
    tauto
  have hnd : (Extent.pages (base, n) ++ flat (s.live.erase (base, n))).Nodup :=
    hperm.nodup_iff.mp (List.nodup_append.mp (h.perm.nodup_iff.mpr h.nodup)).2.1
  refine ⟨m, rs', hrun, ⟨hruns, ?_, ?_, h.nodup, fun r hr => h.livePos r (List.mem_of_mem_erase hr),
    fun r hr k h0 hk => ?_, fun p hp => ?_⟩, hcount, hco⟩
  · rw [hcount, h.count, hold, hlist]
    simp only [List.length_append, Extent.length_pages]
    omega
  · refine List.Perm.trans ?_ h.perm
    refine List.Perm.trans ?_ (hperm.symm.append_left _)
    rw [hold, hlist, List.perm_iff_count]
    intro p
    simp only [List.count_append]
    omega
  · have hr' := List.mem_of_mem_erase hr
    have hfl : r.1 + k ∈ flat (s.live.erase (base, n)) := mem_flat.mpr ⟨r, hr, by omega, by omega⟩
    have hnot : r.1 + k ∉ Extent.pages (base, n) := fun hp =>
      (List.nodup_append.mp hnd).2.2 _ hp _ hfl rfl
    have hnf : r.1 + k ∉ m.freeList := by
      rw [hmem]
      rintro (hf | hp)
      · exact (h.mem_freeList.mp hf).2 (mem_flat.mpr ⟨r, hr', by omega, by omega⟩)
      · exact hnot hp
    obtain ⟨c, hc, hkeep⟩ := hout (r.1 + k) (by
      rintro heq
      exact hnot (by rw [heq, Extent.mem_pages]; exact ⟨le_rfl, by simpa using hn⟩))
    rw [hc, hkeep hnf]
    exact h.liveZero r hr' k h0 hk
  · have hp' := (not_congr (hmem p)).mp hp
    rw [not_or] at hp'
    obtain ⟨c, hc, -⟩ := hout p (by
      rintro rfl
      exact hp'.2 (by rw [Extent.mem_pages]; exact ⟨le_rfl, by simpa using hn⟩))
    rw [hc]
    exact h.reserved p hp'.1

/-- A request is refused because every extent is too short, or served from the first extent that
is long enough. -/
theorem alloc (h : PmmInv s rs) {n : ℕ} (hn : 0 < n) :
    ((defaultAllocPages n : Prog PmmPanic Empty Pmm (Option ℕ)).run s.pmm = .ok none s.pmm ∧
      ∀ r ∈ rs, r.2 < n) ∨
    ∃ pre a l post m, rs = pre ++ (a, l) :: post ∧ (∀ r ∈ pre, r.2 < n) ∧ n ≤ l ∧
      (defaultAllocPages n : Prog PmmPanic Empty Pmm (Option ℕ)).run s.pmm = .ok (some a) m ∧
      PmmInv ⟨m, s.managed, (a, n) :: s.live⟩ (pre ++ (restRun a l n ++ post)) ∧
      m.nrFree + n = s.pmm.nrFree ∧ (Coalesced rs → Coalesced (pre ++ (restRun a l n ++ post))) := by
  by_cases hex : ∃ r ∈ rs, n ≤ r.2
  · obtain ⟨pre, ⟨a, l⟩, post, rfl, hpre, hl⟩ := exists_first hex
    have hlt : ∀ r ∈ pre, r.2 < n := fun r hr => not_le.mp (hpre r hr)
    obtain ⟨m, hrun, hinv, hcount, hco⟩ := h.alloc_some hn hlt hl
    exact Or.inr ⟨pre, a, l, post, m, rfl, hlt, hl, hrun, hinv, hcount, hco⟩
  · have hlt : ∀ r ∈ rs, r.2 < n := fun r hr => not_le.mp fun hle => hex ⟨r, hr, hle⟩
    exact Or.inl ⟨defaultAllocPages_none h.runs hn hlt, hlt⟩

/-- Every step keeps the invariant; when ranges are handed over with gaps between them, touching
extents never stay unmerged. -/
theorem step {Adm : List Extent → Extent → Prop} (hadm : ∀ m r, Adm m r → Ascending m r) {op : PmmOp}
    (h : PmmInv s rs) (hstep : PmmStep Adm s op s') :
    ∃ rs', PmmInv s' rs' ∧ ((∀ m r, Adm m r → Apart m r) → Coalesced rs → Coalesced rs') := by
  cases hstep with
  | initMemmap hn ha hrun =>
    obtain ⟨m, hrun', hinv, hco⟩ := h.initMemmap hn (hadm _ _ ha)
    obtain ⟨-, rfl⟩ := Outcome.ok.inj (hrun.symm.trans hrun')
    exact ⟨_, hinv, fun hap => hco (hap _ _ ha)⟩
  | alloc hn hrun =>
    rcases h.alloc hn with ⟨hrun', -⟩ | ⟨pre, a, l, post, m, rfl, -, -, hrun', hinv, -, hco⟩
    · exact absurd (Outcome.ok.inj (hrun.symm.trans hrun')).1 (by simp)
    · obtain ⟨hp, rfl⟩ := Outcome.ok.inj (hrun.symm.trans hrun')
      obtain rfl := Option.some.inj hp
      exact ⟨_, hinv, fun _ => hco⟩
  | allocNull hn hrun =>
    rcases h.alloc hn with ⟨hrun', -⟩ | ⟨pre, a, l, post, m, rfl, -, -, hrun', -⟩
    · obtain ⟨-, rfl⟩ := Outcome.ok.inj (hrun.symm.trans hrun')
      exact ⟨rs, h, fun _ hco => hco⟩
    · exact absurd (Outcome.ok.inj (hrun.symm.trans hrun')).1 (by simp)
  | free hlive hrun =>
    obtain ⟨m, rs', hrun', hinv, -, hco⟩ := h.free hlive
    obtain ⟨-, rfl⟩ := Outcome.ok.inj (hrun.symm.trans hrun')
    exact ⟨rs', hinv, fun _ => hco⟩

theorem of_reach {C : PmmOp → Prop} {s₀ : PmmSys} (h₀ : IsBoot s₀)
    (h : PmmReach Ascending C s₀ s) : ∃ rs, PmmInv s rs := by
  refine invariant_of_step (fun s => ∃ rs, PmmInv s rs) h ⟨[], boot h₀⟩ ?_
  rintro a b ⟨rs, ha⟩ ⟨op, -, hstep⟩
  obtain ⟨rs', hb, -⟩ := ha.step (fun _ _ => id) hstep
  exact ⟨rs', hb⟩

theorem of_reach_apart {C : PmmOp → Prop} {s₀ : PmmSys} (h₀ : IsBoot s₀)
    (h : PmmReach Apart C s₀ s) : ∃ rs, PmmInv s rs ∧ Coalesced rs := by
  refine invariant_of_step (fun s => ∃ rs, PmmInv s rs ∧ Coalesced rs) h
    ⟨[], boot h₀, .of_gap (by simp) (by simp)⟩ ?_
  rintro a b ⟨rs, ha, hco⟩ ⟨op, -, hstep⟩
  obtain ⟨rs', hb, hco'⟩ := ha.step (fun _ _ hap r hr => le_of_lt (hap r hr)) hstep
  exact ⟨rs', hb, hco' (fun _ _ => id) hco⟩

end PmmInv

/-! ### The free list is the set of free pages -/

/-- **The representation theorem of the free list.** In every reachable state the list is strictly
ascending, has exactly the free pages, splits into runs whose first page carries the length and
whose other pages carry 0, and `nr_free` is the sum of the counts and the length of the list. No
call that a caller may make fails an assertion. -/
theorem freeList_represents_free_pages {s₀ s : PmmSys} (h₀ : IsBoot s₀)
    (h : PmmReach Ascending (fun _ => True) s₀ s) :
    s.pmm.freeList.Pairwise (· < ·) ∧
    (∀ p, p ∈ s.pmm.freeList ↔ s.IsFree p) ∧
    (∃ rs : List Extent, s.pmm.freeList = flat rs ∧ (∀ r ∈ rs, 0 < r.2) ∧
      (∀ r ∈ rs, (s.pmm.pages r.1).property = r.2) ∧
      ∀ r ∈ rs, ∀ k, 0 < k → k < r.2 → (s.pmm.pages (r.1 + k)).property = 0) ∧
    (s.pmm.freeList.map fun p => (s.pmm.pages p).property).sum = s.pmm.nrFree ∧
    s.pmm.nrFree = s.pmm.freeList.length ∧
    (∀ base n, 0 < n → Ascending s.managed (base, n) →
      ∃ m, (defaultInitMemmap base n : Prog PmmPanic Empty Pmm Unit).run s.pmm = .ok () m) ∧
    (∀ n, 0 < n →
      ∃ o m, (defaultAllocPages n : Prog PmmPanic Empty Pmm (Option ℕ)).run s.pmm = .ok o m) ∧
    ∀ r ∈ s.live,
      ∃ m, (defaultFreePages r.1 r.2 : Prog PmmPanic Empty Pmm Unit).run s.pmm = .ok () m := by
  obtain ⟨rs, hinv⟩ := PmmInv.of_reach h₀ h
  have hruns := hinv.runs
  refine ⟨?_, fun p => hinv.mem_freeList, ⟨rs, hruns.list, hruns.sep.pos, hruns.head, hruns.tail⟩,
    ?_, hinv.count, fun base n hn hadm => ?_, fun n hn => ?_, fun r hr => ?_⟩
  · rw [hruns.list]
    exact hruns.sep.sorted
  · rw [hruns.sum_property, hinv.count]
  · obtain ⟨m, hrun, -⟩ := hinv.initMemmap hn hadm
    exact ⟨m, hrun⟩
  · rcases hinv.alloc hn with ⟨hrun, -⟩ | ⟨_, _, _, _, m, -, -, -, hrun, -⟩
    · exact ⟨none, s.pmm, hrun⟩
    · exact ⟨_, m, hrun⟩
  · obtain ⟨m, -, hrun, -⟩ := hinv.free hr
    exact ⟨m, hrun⟩

/-- The state after `default_init` when every descriptor is clear but for `PG_reserved`. -/
def pmmBoot : PmmSys :=
  ⟨defaultInit ⟨fun _ => ⟨0, true, false, 0, 0⟩, [], 0⟩, [], []⟩

theorem pmmBoot_isBoot : IsBoot pmmBoot := ⟨_, fun _ => rfl, rfl⟩

/-- Two ranges with a gap, two requests, and the first block given back. -/
theorem pmmBoot_reach (Adm : List Extent → Extent → Prop) (C : PmmOp → Prop) (h₁ : Adm [] (2, 3))
    (h₂ : Adm [(2, 3)] (9, 4)) (hinit : ∀ b n, C (.initMemmap b n)) (halloc : ∀ n, C (.alloc n))
    (hfree : C (.free 2 1)) :
    ∃ s, PmmReach Adm C pmmBoot s ∧ s.pmm.freeList = [2, 4, 9, 10, 11, 12] := by
  refine ⟨_, ((((ReflTransGen.refl.tail
    ⟨.initMemmap 2 3, hinit _ _, .initMemmap (by decide) h₁ rfl⟩).tail
    ⟨.initMemmap 9 4, hinit _ _, .initMemmap (by decide) h₂ rfl⟩).tail
    ⟨.alloc 1, halloc _, .alloc (by decide) rfl⟩).tail
    ⟨.alloc 1, halloc _, .alloc (by decide) rfl⟩).tail
    ⟨.free 2 1, hfree, .free (by decide) rfl⟩, ?_⟩
  rfl

theorem freeList_represents_free_pages_two_ranges :
    ∃ s, PmmReach Ascending (fun _ => True) pmmBoot s ∧ s.pmm.freeList = [2, 4, 9, 10, 11, 12] ∧
      s.pmm.freeList.Pairwise (· < ·) ∧ s.pmm.nrFree = s.pmm.freeList.length := by
  obtain ⟨s, hs, hlist⟩ := pmmBoot_reach Ascending (fun _ => True) (by decide) (by decide)
    (fun _ _ => trivial) (fun _ => trivial) trivial
  obtain ⟨hsort, -, -, -, hcount, -⟩ := freeList_represents_free_pages pmmBoot_isBoot hs
  exact ⟨s, hs, hlist, hsort, hcount⟩

/-! ### First fit -/

section firstFit

variable {s s' : PmmSys} {rs rs' : List Extent}

/-- In a state with merged runs the extents are the maximal runs of free pages. -/
theorem PmmInv.mem_iff_maxRun (h : PmmInv s rs) (hco : Coalesced rs) {p l : ℕ} :
    (p, l) ∈ rs ↔ MaxRun s.IsFree p l := by
  have hset : (· ∈ flat rs) = s.IsFree := by
    funext p
    rw [← h.runs.list]
    exact propext h.mem_freeList
  rw [hco.mem_iff_maxRun, hset]

/-- Two states with merged runs and the same free pages have the same list and the same counts
on it. -/
theorem PmmInv.eq_of_isFree (h : PmmInv s rs) (hco : Coalesced rs) (h' : PmmInv s' rs')
    (hco' : Coalesced rs') (hfree : s'.IsFree = s.IsFree) :
    s'.pmm.freeList = s.pmm.freeList ∧ s'.pmm.nrFree = s.pmm.nrFree ∧
    ∀ q ∈ s.pmm.freeList, (s'.pmm.pages q).property = (s.pmm.pages q).property := by
  have hmem : ∀ q, q ∈ s'.pmm.freeList ↔ q ∈ s.pmm.freeList := fun q => by
    rw [h'.mem_freeList, h.mem_freeList, hfree]
  have hlist : s'.pmm.freeList = s.pmm.freeList := by
    have hsort : s.pmm.freeList.Pairwise (· < ·) := h.runs.list ▸ h.runs.sep.sorted
    have hsort' : s'.pmm.freeList.Pairwise (· < ·) := h'.runs.list ▸ h'.runs.sep.sorted
    refine List.Perm.eq_of_pairwise (fun a b _ _ hab hba => absurd hab (not_lt.mpr hba.le)) hsort'
      hsort ?_
    exact (List.perm_ext_iff_of_nodup (hsort'.imp ne_of_lt) (hsort.imp ne_of_lt)).mpr hmem
  refine ⟨hlist, by rw [h'.count, h.count, hlist], fun q hq => ?_⟩
  rw [h.runs.list] at hq
  obtain ⟨⟨a, l⟩, hr, hq⟩ := mem_flat.mp hq
  have hr' : (a, l) ∈ rs' := by
    rw [h'.mem_iff_maxRun hco', hfree, ← h.mem_iff_maxRun hco]
    exact hr
  rw [h.runs.property_eq hr hq, h'.runs.property_eq hr' hq]

end firstFit

/-- **First fit is complete and exact.** When the ranges handed over do not touch, a request for
`n` pages is refused exactly if there are no `n` consecutive free pages. Otherwise it gets the
start of the lowest maximal run of free pages that is long enough, exactly these `n` pages leave
the free list, and giving them back restores the list, the counts on it and `nr_free`. -/
theorem firstFit_exact {s₀ s : PmmSys} (h₀ : IsBoot s₀)
    (h : PmmReach Apart (fun _ => True) s₀ s) {n : ℕ} (hn : 0 < n) :
    ∃ o m, (defaultAllocPages n : Prog PmmPanic Empty Pmm (Option ℕ)).run s.pmm = .ok o m ∧
      (o = none ↔ ¬ ∃ q, ∀ k < n, s.IsFree (q + k)) ∧
      (o = none → m = s.pmm) ∧
      ∀ p, o = some p →
        (∃ l, n ≤ l ∧ MaxRun s.IsFree p l) ∧
        (∀ q l, n ≤ l → MaxRun s.IsFree q l → p ≤ q) ∧
        (∀ k < n, p + k ∈ s.pmm.freeList) ∧
        (∀ q, q ∈ m.freeList ↔ q ∈ s.pmm.freeList ∧ ¬ (p ≤ q ∧ q < p + n)) ∧
        m.nrFree + n = s.pmm.nrFree ∧
        ∃ m', (defaultFreePages p n : Prog PmmPanic Empty Pmm Unit).run m = .ok () m' ∧
          m'.freeList = s.pmm.freeList ∧ m'.nrFree = s.pmm.nrFree ∧
          ∀ q ∈ s.pmm.freeList, (m'.pages q).property = (s.pmm.pages q).property := by
  obtain ⟨rs, hinv, hco⟩ := PmmInv.of_reach_apart h₀ h
  have hfree : ∀ q, q ∈ flat rs ↔ s.IsFree q := fun q => by rw [← hinv.runs.list, hinv.mem_freeList]
  rcases hinv.alloc hn with
    ⟨hrun, hlt⟩ | ⟨pre, a, l, post, m, rfl, hpre, hl, hrun, hinv', hcount, hco'⟩
  · refine ⟨none, s.pmm, hrun, iff_of_true rfl ?_, fun _ => rfl, by simp⟩
    rintro ⟨q, hq⟩
    obtain ⟨r, hr, hle, hend⟩ := hco.exists_extent hn fun k hk => (hfree _).mpr (hq k hk)
    have := hlt r hr
    omega
  · have hmem : (a, l) ∈ pre ++ (a, l) :: post := by simp
    have hrunal : MaxRun s.IsFree a l := (hinv.mem_iff_maxRun hco).mp hmem
    obtain ⟨m', rs', hrunf, hinvf, hcountf, hcof⟩ := hinv'.free List.mem_cons_self
    refine ⟨some a, m, hrun, iff_of_false (by simp) ?_, by simp, ?_⟩
    · rw [not_not]
      exact ⟨a, fun k hk => hrunal.mem k (by omega)⟩
    · rintro p hp
      obtain rfl := Option.some.inj hp
      refine ⟨⟨l, hl, hrunal⟩, fun q k hk hq => ?_, fun k hk => ?_, fun q => ?_, hcount, m', hrunf, ?_⟩
      · -- an extent that is long enough is not before `(a, l)`
        have hq' := (hinv.mem_iff_maxRun hco).mpr hq
        rcases List.mem_append.mp hq' with hq' | hq'
        · have := hpre _ hq'
          simp only at this
          omega
        · rcases List.mem_cons.mp hq' with heq | hq'
          · exact (congrArg Prod.fst heq).ge
          · have := (List.pairwise_cons.mp hco.of_append.2.1.asc).1 _ hq'
            simp only at this
            omega
      · exact hinv.mem_freeList.mpr (hrunal.mem k (by omega))
      · rw [hinv'.mem_freeList, hinv.mem_freeList]
        simp only [PmmSys.IsFree, flat_cons, List.mem_append, Extent.mem_pages]
        tauto
      · refine PmmInv.eq_of_isFree hinv hco hinvf (hcof (hco' hco)) ?_
        simp only [List.erase_cons_head]
        rfl

theorem firstFit_exact_two_pages :
    ∃ s, PmmReach Apart (fun _ => True) pmmBoot s ∧ s.pmm.freeList = [2, 4, 9, 10, 11, 12] ∧ 0 < 2 ∧
      ∃ o m, (defaultAllocPages 2 : Prog PmmPanic Empty Pmm (Option ℕ)).run s.pmm = .ok o m ∧
        (o = none ↔ ¬ ∃ q, ∀ k < 2, s.IsFree (q + k)) := by
  obtain ⟨s, hs, hlist⟩ := pmmBoot_reach Apart (fun _ => True) (by decide) (by decide)
    (fun _ _ => trivial) (fun _ => trivial) trivial
  obtain ⟨o, m, hrun, hnone, -⟩ := firstFit_exact pmmBoot_isBoot hs (n := 2) (by decide)
  exact ⟨s, hs, hlist, by decide, o, m, hrun, hnone⟩

/-! ### The page flags -/

/-- The flags and the reference count of every page on the free list are those of a free page. -/
def FlagsAgree (s : Pmm) : Prop :=
  ∀ p ∈ s.freeList, (s.pages p).isProperty = true ∧ (s.pages p).reserved = false ∧
    (s.pages p).ref = 0

/-- A call of `default_free_pages` on a page of the list is stopped by `assert(PageReserved(base))`. -/
def DoubleFreeStopped (s : Pmm) : Prop :=
  ∀ p ∈ s.freeList, ∀ n, 0 < n →
    (defaultFreePages p n : Prog PmmPanic Empty Pmm Unit).run s = .panic .freeReserved

/-- The calls that free at most one page. -/
def PmmOp.FreesOne : PmmOp → Prop
  | .free _ n => n = 1
  | _ => True

theorem FlagsAgree.doubleFreeStopped {s : Pmm} (h : FlagsAgree s) : DoubleFreeStopped s := by
  intro p hp n hn
  have hres : ¬ (s.pages p).reserved = true := by simp [(h p hp).2.1]
  simp only [defaultFreePages, Prog.run_bind, Prog.run_assert_of _ _ hn, Outcome.andThen_ok,
    Prog.run_get, Prog.run_assert_of_not _ _ hres, Outcome.andThen_panic]

/-- The invariant behind the flags: the list has no page twice, and the first page of a live block
is not on it. No order of the list is needed. -/
structure FlagsInv (s : PmmSys) : Prop where
  /-- The pages of the list have the flags of free pages. -/
  flags : FlagsAgree s.pmm
  /-- No page is on the list twice. -/
  nodup : s.pmm.freeList.Nodup
  /-- The list and the first pages of live blocks do not meet. -/
  start : ∀ r ∈ s.live, r.1 ∉ s.pmm.freeList
  /-- No two live blocks start at the same page. -/
  starts : (s.live.map Prod.fst).Nodup
  /-- Free pages are managed. -/
  freeManaged : ∀ p ∈ s.pmm.freeList, p ∈ flat s.managed
  /-- Live blocks start in managed pages. -/
  liveManaged : ∀ r ∈ s.live, r.1 ∈ flat s.managed

namespace FlagsInv

variable {s s' : PmmSys}

theorem boot (h : IsBoot s) : FlagsInv s := by
  obtain ⟨m, -, rfl⟩ := h
  refine ⟨fun p hp => ?_, List.nodup_nil, by simp, List.nodup_nil, fun p hp => ?_, by simp⟩ <;>
    simp [defaultInit] at hp

theorem initMemmap (h : FlagsInv s) {base n : ℕ} {m : Pmm} (hn : 0 < n)
    (hadm : Fresh s.managed (base, n))
    (hrun : (defaultInitMemmap base n : Prog PmmPanic Empty Pmm Unit).run s.pmm = .ok () m) :
    FlagsInv ⟨m, s.managed ++ [(base, n)], s.live⟩ := by
  obtain ⟨m', hrun', hlist, -, hout, hin⟩ := defaultInitMemmap_code (ε := Empty) hn
    (defaultInitMemmap_eq_ok hrun)
  obtain ⟨-, rfl⟩ := Outcome.ok.inj (hrun.symm.trans hrun')
  have hmem : ∀ p, p ∈ m.freeList ↔ p ∈ s.pmm.freeList ∨ p ∈ Extent.pages (base, n) := by
    intro p
    rw [hlist, List.mem_append]
  refine ⟨fun p hp => ?_, ?_, fun r hr => ?_, h.starts, fun p hp => ?_, fun r hr => ?_⟩
  · by_cases hnew : p ∈ Extent.pages (base, n)
    · simp only [hin p hnew, Page.initFree, and_self]
    · simp only [hout p hnew]
      exact h.flags p (((hmem p).mp hp).resolve_right hnew)
  · simp only [hlist]
    exact List.nodup_append.mpr ⟨h.nodup, Extent.nodup_pages _, fun p hp q hq heq =>
      hadm q hq (h.freeManaged q (heq ▸ hp))⟩
  · simp only [hmem, not_or]
    exact ⟨h.start r hr, fun hp => hadm _ hp (h.liveManaged r hr)⟩
  · rw [flat_append, List.mem_append]
    rcases (hmem p).mp hp with hp | hp
    · exact Or.inl (h.freeManaged p hp)
    · exact Or.inr (by simpa using hp)
  · rw [flat_append, List.mem_append]
    exact Or.inl (h.liveManaged r hr)

theorem alloc (h : FlagsInv s) {n p : ℕ} {m : Pmm}
    (hrun : (defaultAllocPages n : Prog PmmPanic Empty Pmm (Option ℕ)).run s.pmm =
      .ok (some p) m) :
    FlagsInv ⟨m, s.managed, (p, n) :: s.live⟩ := by
  rcases defaultAllocPages_eq_ok hrun with
    ⟨hnone, -⟩ | ⟨before, taken, le, p', hp', hold, -, hhead, hnew, hpages⟩
  · cases hnone
  obtain rfl := Option.some.inj hp'
  have hnd := h.nodup
  rw [hold, List.nodup_append, List.nodup_append] at hnd
  obtain ⟨hin, hout⟩ := hpages fun q hq hq' => hnd.2.1.2.2 q hq q hq' rfl
  have hpt : p ∈ taken := List.mem_of_head? hhead
  have hkeep : ∀ q ∈ m.freeList, q ∈ s.pmm.freeList ∧ q ∉ taken := by
    intro q hq
    rw [hnew, List.mem_append] at hq
    rw [hold]
    rcases hq with hq | hq
    · exact ⟨by simp [hq], fun ht => hnd.2.2 q hq q (by simp [ht]) rfl⟩
    · exact ⟨by simp [hq], fun ht => hnd.2.1.2.2 q ht q hq rfl⟩
  have hpold : p ∈ s.pmm.freeList := by
    rw [hold]
    simp [hpt]
  refine ⟨fun q hq => ?_, ?_, fun r hr => ?_, ?_, fun q hq => ?_, fun r hr => ?_⟩
  · obtain ⟨hq, hnot⟩ := hkeep q hq
    obtain ⟨c, hc⟩ := hout q hnot
    simp only [hc]
    exact h.flags q hq
  · simp only [hnew]
    exact List.nodup_append.mpr ⟨hnd.1, hnd.2.1.2.1, fun a ha b hb => hnd.2.2 a ha b (by simp [hb])⟩
  · rcases List.mem_cons.mp hr with rfl | hr
    · exact fun hq => (hkeep _ hq).2 hpt
    · exact fun hq => h.start r hr (hkeep _ hq).1
  · rw [List.map_cons, List.nodup_cons]
    refine ⟨fun hmem => ?_, h.starts⟩
    obtain ⟨r, hr, heq⟩ := List.mem_map.mp hmem
    exact h.start r hr (heq ▸ hpold)
  · exact h.freeManaged q (hkeep q hq).1
  · rcases List.mem_cons.mp hr with rfl | hr
    · exact h.freeManaged _ hpold
    · exact h.liveManaged r hr

/-- Giving a single page back. -/
theorem free (h : FlagsInv s) {base : ℕ} {m : Pmm} (hlive : (base, 1) ∈ s.live)
    (hrun : (defaultFreePages base 1 : Prog PmmPanic Empty Pmm Unit).run s.pmm = .ok () m) :
    FlagsInv ⟨m, s.managed, s.live.erase (base, 1)⟩ := by
  obtain ⟨⟨lo, hi, hold, hnew⟩, ⟨c, hbase⟩, hother⟩ := defaultFreePages_eq_ok hrun
  have hsingle : Extent.pages (base, 1) = [base] := rfl
  rw [hsingle] at hnew
  have hmem : ∀ q, q ∈ m.freeList ↔ q ∈ s.pmm.freeList ∨ q = base := by
    intro q
    rw [hold, hnew]
    simp only [List.mem_append, List.mem_singleton]
    tauto
  refine ⟨fun q hq => ?_, ?_, fun r hr hq => ?_, ?_, fun q hq => ?_, fun r hr => ?_⟩
  · by_cases heq : q = base
    · simp only [heq, hbase, and_self]
    · obtain ⟨c, hc⟩ := hother q heq
      simp only [hc]
      exact h.flags q (((hmem q).mp hq).resolve_right heq)
  · simp only [hnew]
    have hperm : (lo ++ ([base] ++ hi)).Perm (base :: s.pmm.freeList) := by
      rw [hold]
      exact List.perm_middle
    exact hperm.nodup_iff.mpr (List.nodup_cons.mpr ⟨h.start _ hlive, h.nodup⟩)
  · rcases (hmem _).mp hq with hq | heq
    · exact h.start r (List.mem_of_mem_erase hr) hq
    · -- another live block with the same first page
      have hnd := ((List.perm_cons_erase hlive).map Prod.fst).nodup_iff.mp h.starts
      rw [List.map_cons, List.nodup_cons] at hnd
      exact hnd.1 (List.mem_map.mpr ⟨r, hr, heq⟩)
  · exact h.starts.sublist (List.erase_sublist.map _)
  · rcases (hmem q).mp hq with hq | rfl
    · exact h.freeManaged q hq
    · exact h.liveManaged _ hlive
  · exact h.liveManaged r (List.mem_of_mem_erase hr)

theorem step {op : PmmOp} (h : FlagsInv s) (hop : op.FreesOne) (hstep : PmmStep Fresh s op s') :
    FlagsInv s' := by
  cases hstep with
  | initMemmap hn hadm hrun => exact h.initMemmap hn hadm hrun
  | alloc hn hrun => exact h.alloc hrun
  | allocNull hn hrun =>
    rcases defaultAllocPages_eq_ok hrun with ⟨-, rfl⟩ | ⟨_, _, _, _, hsome, -⟩
    · exact h
    · cases hsome
  | free hlive hrun =>
    obtain rfl : _ = 1 := hop
    exact h.free hlive hrun

end FlagsInv

/-- **The flags agree with the list while single pages are freed.** In every run from
`default_init` in which each call of `default_free_pages` frees a block of one page, every page on
the free list has `PG_property` set, `PG_reserved` clear and no references, and a call of
`default_free_pages` on a free page is stopped. -/
theorem pageFlags_agree_of_single_frees {s₀ s : PmmSys} (h₀ : IsBoot s₀)
    (h : PmmReach Fresh PmmOp.FreesOne s₀ s) : FlagsAgree s.pmm ∧ DoubleFreeStopped s.pmm := by
  have hinv : FlagsInv s := by
    refine invariant_of_step FlagsInv h (.boot h₀) ?_
    rintro a b ha ⟨op, hop, hstep⟩
    exact ha.step hop hstep
  exact ⟨hinv.flags, hinv.flags.doubleFreeStopped⟩

/-- A run in which a single page is freed: the flags of the three free pages are in order. -/
theorem pageFlags_agree_one_page :
    ∃ s, PmmReach Fresh PmmOp.FreesOne pmmBoot s ∧ s.pmm.freeList = [2, 4, 9, 10, 11, 12] ∧
      FlagsAgree s.pmm ∧ DoubleFreeStopped s.pmm := by
  obtain ⟨s, hs, hlist⟩ := pmmBoot_reach Fresh PmmOp.FreesOne (by decide) (by decide)
    (fun _ _ => trivial) (fun _ => trivial) rfl
  obtain ⟨hflags, hstop⟩ := pageFlags_agree_of_single_frees pmmBoot_isBoot hs
  exact ⟨s, hs, hlist, hflags, hstop⟩

/-- Two pages are handed over, taken as one block and given back: page 1 is on the list with
`PG_reserved` set, and `default_free_pages` accepts it a second time. -/
theorem pageFlags_disagree_two_pages :
    ¬ ∀ s₀ s, IsBoot s₀ → PmmReach Fresh (fun _ => True) s₀ s →
      FlagsAgree s.pmm ∧ DoubleFreeStopped s.pmm := by
  intro hall
  obtain ⟨hflags, -⟩ := hall pmmBoot _ pmmBoot_isBoot (((ReflTransGen.refl.tail
    ⟨.initMemmap 0 2, trivial, .initMemmap (by decide) (by decide) rfl⟩).tail
    ⟨.alloc 2, trivial, .alloc (by decide) rfl⟩).tail
    ⟨.free 0 2, trivial, .free (by decide) rfl⟩)
  exact absurd (hflags 1 (by decide)).2.1 (by decide)

/-- Freeing a block of several pages always breaks the agreement: `default_free_pages` clears the
flags of `base` only, and the second page of the block goes on the list reserved. -/
theorem pageFlags_disagree_after_block_free {s₀ s : PmmSys} (h₀ : IsBoot s₀)
    (h : PmmReach Ascending (fun _ => True) s₀ s) {base n : ℕ} (hlive : (base, n) ∈ s.live)
    (hn : 1 < n) :
    ∃ m, (defaultFreePages base n : Prog PmmPanic Empty Pmm Unit).run s.pmm = .ok () m ∧
      ¬ FlagsAgree m := by
  obtain ⟨rs, hinv⟩ := PmmInv.of_reach h₀ h
  obtain ⟨m, rs', hrun, -⟩ := hinv.free hlive
  refine ⟨m, hrun, fun hflags => ?_⟩
  obtain ⟨⟨lo, hi, -, hnew⟩, -, hother⟩ := defaultFreePages_eq_ok hrun
  have hnotfree : base + 1 ∉ s.pmm.freeList := fun hf =>
    (hinv.mem_freeList.mp hf).2 (mem_flat.mpr ⟨_, hlive, by simp, by simpa using hn⟩)
  obtain ⟨c, hc⟩ := hother (base + 1) (by omega)
  have hfree := (hflags (base + 1) (by rw [hnew]; simp; omega)).2.1
  rw [hc] at hfree
  exact absurd (hinv.reserved _ hnotfree) (by simp [show (s.pmm.pages (base + 1)).reserved = false from hfree])

end Ucore.Mm
