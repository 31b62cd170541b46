import Ucore.Mm.Swap

/-!
# Asking for a page when swapping is on

* `Pmm.Sound` is what a request for one page needs of the allocator. `Pmm.Sound.take` and `Pmm.Sound.give` say what happens to the
  free list when one page goes and comes back, without the extents it is made of.
* `AllocEnds disk n s` says that `alloc_pages(n)` returns: a page, or `NULL`.
* After boot `check_mm_struct` is `NULL`, and `alloc_pages` hands it to `swap_out`. `allocEnds_one_iff` is the consequence: a
  request for one page returns exactly as long as there is a free page.
-/

namespace Ucore.Mm

open Ucore.Lib

/-- The free list and the count of free pages describe the same pages. -/
structure Pmm.Sound (s : Pmm) : Prop where
  runs : ∃ rs, HasRuns s rs
  count : s.nrFree = s.freeList.length

namespace Pmm.Sound

variable {ε : Type} {s : Pmm} {p : ℕ} {l : List ℕ}

theorem nodup (h : s.Sound) : s.freeList.Nodup := by
  obtain ⟨rs, hruns⟩ := h.runs
  rw [hruns.list]
  exact hruns.sep.nodup

/-- A change that the free list and its counts do not see. -/
theorem setPage (h : s.Sound) {f : Page → Page} (hf : (f (s.pages p)).property = (s.pages p).property) :
    (s.setPage p f).Sound := by
  obtain ⟨rs, hruns⟩ := h.runs
  refine ⟨⟨rs, hruns.congr rfl fun q _ => ?_⟩, h.count⟩
  by_cases hq : q = p
  · rw [hq, Pmm.setPage_same, hf]
  · rw [Pmm.setPage_of_ne _ _ _ hq]

/-- The first page of the list is taken. -/
theorem take (h : s.Sound) (hl : s.freeList = p :: l) :
    ∃ s', (defaultAllocPages 1 : Prog PmmPanic ε Pmm (Option ℕ)).run s = .ok (some p) s' ∧ s'.Sound ∧ s'.freeList = l ∧
      s'.pages p = (s.pages p).take ∧ ∀ q, q ≠ p → ∃ c, s'.pages q = { s.pages q with property := c } := by
  obtain ⟨rs, hruns⟩ := h.runs
  have hlist := hruns.list
  rw [hl] at hlist
  cases rs with
  | nil => cases hlist
  | cons r post =>
    obtain ⟨a, m⟩ := r
    obtain ⟨m, rfl⟩ := Nat.exists_eq_succ_of_ne_zero (hruns.sep.pos (a, m) (by simp)).ne'
    rw [flat_cons, Extent.pages_succ, List.cons_append] at hlist
    obtain ⟨rfl, htail⟩ := List.cons.inj hlist
    have hfirst : HasRuns s ([] ++ (p, m + 1) :: post) := hruns
    obtain ⟨s', hrun, hruns', hcount, hin, hout⟩ := defaultAllocPages_some (ε := ε) hfirst h.count one_pos
      (fun r hr => absurd hr List.not_mem_nil) (Nat.succ_le_succ m.zero_le)
    have hlist' : s'.freeList = l := by
      have hrest : flat (restRun p (m + 1) 1) = Extent.pages (p + 1, m) := flat_restRun (Nat.succ_le_succ m.zero_le)
      rw [hruns'.list, List.nil_append, flat_append, hrest, htail]
    refine ⟨s', hrun, ⟨⟨_, hruns'⟩, ?_⟩, hlist', hin p (by simp), fun q hq => ?_⟩
    · rw [hcount, h.count, hl, hlist']
      rfl
    · obtain ⟨c, hc, -⟩ := hout q (by simp; omega)
      exact ⟨c, hc⟩

/-- A page comes back. -/
theorem give (h : s.Sound) (hp : p ∉ s.freeList) (hres : (s.pages p).reserved = true) :
    ∃ s', (defaultFreePages p 1 : Prog PmmPanic ε Pmm Unit).run s = .ok () s' ∧ s'.Sound ∧
      s'.freeList.Perm (p :: s.freeList) ∧
      (∃ c, s'.pages p = { s.pages p with reserved := false, isProperty := true, ref := 0, property := c }) ∧
      ∀ q, q ≠ p → ∃ c, s'.pages q = { s.pages q with property := c } := by
  obtain ⟨rs, hruns⟩ := h.runs
  have hpage : ∀ q, p ≤ q → q < p + 1 → q ∉ flat rs := by
    intro q hle hlt
    rwa [← hruns.list, Nat.le_antisymm (Nat.le_of_lt_succ hlt) hle]
  obtain ⟨lo, hi, rfl, hlo, hhi⟩ := hruns.sep.split_at one_pos hpage
  obtain ⟨s', rs', hrun, hruns', -, hlist, hcount, hbase, hout⟩ := defaultFreePages_run (ε := ε) hruns one_pos hlo hhi hres
    fun k h0 hk => absurd hk (Nat.not_lt.mpr h0)
  have hperm : s'.freeList.Perm (p :: s.freeList) := by
    rw [hlist, hruns.list, flat_append]
    exact List.perm_middle
  refine ⟨s', hrun, ⟨⟨rs', hruns'⟩, ?_⟩, hperm, hbase, fun q hq => ?_⟩
  · rw [hcount, h.count, hperm.length_eq]
    rfl
  · obtain ⟨c, hc, -⟩ := hout q hq
    exact ⟨c, hc⟩

end Pmm.Sound

/-- `default_alloc_pages` returns `NULL` when it has not as many pages. -/
theorem defaultAllocPages_of_lt {ε : Type} {s : Pmm} {n : ℕ} (h : s.nrFree < n) :
    (defaultAllocPages n : Prog PmmPanic ε Pmm (Option ℕ)).run s = .ok none s := by
  have hn : 0 < n := by omega
  simp [defaultAllocPages, Prog.run_assert_of _ _ hn, h]

end Ucore.Mm

namespace Ucore.Swap

open Ucore.Lib Ucore.Mm
open Ucore.Vm (VmError)

variable {β : Type} {s : SwapState β} {n : ℕ}

/-! ### Programs of the page allocator -/

section onPmm

variable {α : Type} {m : Prog PmmPanic VmError Pmm α}

theorem onPmm_of_ok {a : α} {t : Pmm} (h : m.run s.pmm = .ok a t) : (onPmm m).run s = .ok a { s with pmm := t } := by
  rw [onPmm, Prog.zoom]
  dsimp only
  rw [h]

end onPmm

/-! ### The loop of `alloc_pages` -/

section allocPages

variable (disk : ℕ → Bool)

/-- The loop ends when the allocator has an answer that it does not ask `swap_out` about. -/
theorem allocPages_of_answer {page : Option ℕ} {t : Pmm} (h : (defaultAllocPages n : Prog PmmPanic VmError Pmm _).run s.pmm = .ok page t)
    (hend : page ≠ none ∨ n > 1 ∨ s.swapInitOk = false) (fuel : ℕ) :
    (allocPages disk n (fuel + 1)).run s = .ok page { s with pmm := t } := by
  rw [allocPages, Prog.bind_of_ok (onPmm_of_ok h), Prog.bind_of_ok (Prog.run_get _), if_pos hend]
  rfl

/-- The loop goes on after `swap_out`. -/
theorem allocPages_of_none (h : s.pmm.nrFree < 1) (hswap : s.swapInitOk = true) (fuel : ℕ) :
    (allocPages disk 1 (fuel + 1)).run s = ((swapOut disk s.checkMm 1 0).run s).andThen fun _ => allocPages disk 1 fuel := by
  rw [allocPages, Prog.bind_of_ok (onPmm_of_ok (defaultAllocPages_of_lt h)), Prog.bind_of_ok (Prog.run_get _), if_neg]
  · rfl
  · rw [hswap]
    simp

/-- `swap_out` follows the pointer that it is given before it does anything else. -/
theorem swapOut_null (k inTick : ℕ) : (swapOut disk none (k + 1) inTick).run s = .panic .nullMm := rfl

/-- While there is a free page, the first answer of the allocator is the page. -/
theorem allocPages_of_free (h : s.pmm.Sound) {p : ℕ} {l : List ℕ} (hl : s.pmm.freeList = p :: l) (fuel : ℕ) :
    ∃ t, (allocPages disk 1 (fuel + 1)).run s = .ok (some p) { s with pmm := t } ∧ t.Sound ∧ t.freeList = l ∧
      t.pages p = (s.pmm.pages p).take ∧ ∀ q, q ≠ p → ∃ c, t.pages q = { s.pmm.pages q with property := c } := by
  obtain ⟨t, hrun, ht⟩ := h.take (ε := VmError) hl
  exact ⟨t, allocPages_of_answer disk hrun (Or.inl (Option.some_ne_none p)) fuel, ht⟩

/-- `alloc_pages` returns a page or `NULL`. -/
def AllocEnds (n : ℕ) (s : SwapState β) : Prop := ∃ fuel page s', (allocPages disk n fuel).run s = .ok page s'

variable {disk}

theorem allocPages_exhausted (hswap : s.swapInitOk = true) (hmm : s.checkMm = none) (hfree : s.pmm.nrFree = 0) (fuel : ℕ) :
    (allocPages disk 1 (fuel + 1)).run s = .panic .nullMm := by
  rw [allocPages_of_none disk (by omega) hswap, hmm, swapOut_null]
  rfl

theorem not_allocEnds_of_exhausted (hswap : s.swapInitOk = true) (hmm : s.checkMm = none) (hfree : s.pmm.nrFree = 0) :
    ¬ AllocEnds disk 1 s := by
  rintro ⟨fuel, page, s', hrun⟩
  cases fuel with
  | zero => cases hrun
  | succ fuel =>
    rw [allocPages_exhausted hswap hmm hfree] at hrun
    cases hrun

/-- Between boot and the first address space that is checked, a request for one page returns if and only if there is one. -/
theorem allocEnds_one_iff (hswap : s.swapInitOk = true) (hmm : s.checkMm = none) (h : s.pmm.Sound) :
    AllocEnds disk 1 s ↔ s.pmm.freeList ≠ [] := by
  constructor
  · intro hends hnil
    refine not_allocEnds_of_exhausted hswap hmm ?_ hends
    rw [h.count, hnil]
    rfl
  · intro hne
    obtain ⟨p, l, hl⟩ := List.exists_cons_of_ne_nil hne
    obtain ⟨t, hrun, -⟩ := allocPages_of_free disk h hl 0
    exact ⟨1, some p, _, hrun⟩

/-- When the last page is gone, `alloc_pages` takes the null pointer `check_mm_struct` for an address space. -/
theorem alloc_without_pages_follows_null (hswap : s.swapInitOk = true) (hmm : s.checkMm = none) (hfree : s.pmm.nrFree = 0) :
    ¬ AllocEnds disk 1 s ∧ ∀ fuel, (allocPages disk 1 (fuel + 1)).run s = .panic .nullMm :=
  ⟨not_allocEnds_of_exhausted hswap hmm hfree, allocPages_exhausted hswap hmm hfree⟩

/-- After boot, with one free page. -/
def oneFreePage : SwapState ℕ where
  pmm := ⟨fun p => if p = 7 then ⟨0, false, true, 1, 0⟩ else ⟨0, true, false, 0, 0⟩, [7], 1⟩
  swapInitOk := true
  checkMm := none
  mm := fun _ => ⟨[], none, 0, false⟩
  praList := []
  entry := fun _ _ => .zero
  content := fun _ => 0
  slot := fun _ => 0
  maxSwapOffset := 1024
  requests := 0

theorem oneFreePage_alloc : ∃ s, (allocPages (fun _ => false) 1 1).run oneFreePage = .ok (some 7) s ∧ s.swapInitOk = true ∧
    s.checkMm = none ∧ s.pmm.nrFree = 0 := ⟨_, rfl, rfl, rfl, rfl⟩

theorem oneFreePage_alloc_follows_null : ∃ s, (allocPages (fun _ => false) 1 1).run oneFreePage = .ok (some 7) s ∧
    ¬ AllocEnds (fun _ => false) 1 s := by
  obtain ⟨s, hrun, hswap, hmm, hfree⟩ := oneFreePage_alloc
  exact ⟨s, hrun, (alloc_without_pages_follows_null hswap hmm hfree).1⟩

/-- The second of two requests does not return. -/
theorem second_request_stops : ∃ s, (allocPages (fun _ => false) 1 1).run oneFreePage = .ok (some 7) s ∧
    s.swapInitOk = true ∧ s.checkMm = none ∧ s.pmm.nrFree = 0 ∧ ¬ AllocEnds (fun _ => false) 1 s := by
  obtain ⟨s, hrun, hswap, hmm, hfree⟩ := oneFreePage_alloc
  exact ⟨s, hrun, hswap, hmm, hfree, not_allocEnds_of_exhausted hswap hmm hfree⟩

end allocPages

end Ucore.Swap
