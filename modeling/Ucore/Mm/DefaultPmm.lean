import Ucore.Lib.Prog
import Ucore.Lib.Extents
import Mathlib.Logic.Function.Basic
import Mathlib.Data.List.TakeWhile

/-!
# The first-fit page allocator

The allocator of `kern/mm/default_pmm.c`. Every free page is a node of `free_list` of its own,
in address order; the first page of a run of free pages carries the length of the run in
`property`, the other pages carry 0.

* `Pmm` is the allocator's state: the `pages` array, the free list and `nr_free`. A page is its
  index in `pages`, so `base + n` of the source is `base + n` here.
* `defaultInit`, `defaultInitMemmap`, `defaultAllocPages`, `defaultFreePages` are the four
  operations of the source.
* `HasRuns s rs` is the representation invariant: the free list is the list of the extents `rs`,
  and `property` describes them. `defaultInitMemmap_run`, `defaultAllocPages_some`,
  `defaultAllocPages_none` and `defaultFreePages_run` say what each operation does to the extents, and are the only lemmas
  about these functions that the rest of the development uses.
-/

namespace Ucore.Mm

open Ucore.Lib

/-- `struct Page`, without `zone_num` and the two list links: the lists are lists of page
numbers. The two bits of `flags` that the kernel uses are separate fields.
Source: `kern/mm/memlayout.h` `struct Page` -/
structure Page where
  /-- The page frame's reference counter. -/
  ref : ℤ
  /-- The bit `PG_reserved` of `flags`. -/
  reserved : Bool
  /-- The bit `PG_property` of `flags`. -/
  isProperty : Bool
  /-- The length of the run of free pages that starts here. -/
  property : ℕ
  /-- The address the page replacement code has recorded for the page. -/
  praVaddr : ℕ
  deriving Repr, DecidableEq

/-- The allocator's variables: the array `pages`, `free_list` and `nr_free`.
Source: `kern/mm/memlayout.h` `free_area_t`, `kern/mm/pmm.c` `pages` -/
structure Pmm where
  /-- The page descriptors, by page number. -/
  pages : ℕ → Page
  /-- `free_list`, from its first node to its last. -/
  freeList : List ℕ
  /-- The number of free pages. -/
  nrFree : ℕ

/-- Where the allocator can stop. `listHead` stands for the accesses that would take the head
of `free_list` for a page: the source has no check there. -/
inductive PmmPanic where
  | initCount | initReserved | allocCount | freeCount | freeReserved | listHead
  deriving Repr, DecidableEq

variable {ε : Type}

/-- Change one page descriptor. -/
def Pmm.setPage (s : Pmm) (p : ℕ) (f : Page → Page) : Pmm :=
  { s with pages := Function.update s.pages p (f (s.pages p)) }

section setPage

variable (s : Pmm) (p : ℕ) (f : Page → Page)

@[simp] theorem Pmm.setPage_freeList : (s.setPage p f).freeList = s.freeList := rfl

@[simp] theorem Pmm.setPage_nrFree : (s.setPage p f).nrFree = s.nrFree := rfl

@[simp] theorem Pmm.setPage_same : (s.setPage p f).pages p = f (s.pages p) := by
  simp [Pmm.setPage]

theorem Pmm.setPage_of_ne {q : ℕ} (h : q ≠ p) : (s.setPage p f).pages q = s.pages q := by
  simp [Pmm.setPage, Function.update_of_ne h]

end setPage

/-! ### The operations -/

/-- A page as the loop of `default_init_memmap` leaves it: `flags` cleared but for
`PG_property`, no count, no reference. -/
def Page.initFree (pg : Page) : Page :=
  { pg with reserved := false, isProperty := true, property := 0, ref := 0 }

/-- A page as the inner loop of `default_alloc_pages` leaves it. -/
def Page.take (pg : Page) : Page := { pg with reserved := true, isProperty := false }

/-- Source: `kern/mm/default_pmm.c` `default_init` -/
def defaultInit (s : Pmm) : Pmm := { s with freeList := [], nrFree := 0 }

/-- The loop of `default_init_memmap`: `n` pages from `p` on are checked, cleared and linked in
at the end of the list. -/
def initPages : ℕ → ℕ → Prog PmmPanic ε Pmm Unit
  | _, 0 => pure ()
  | p, n + 1 => do
    let s ← Prog.get
    Prog.assert ((s.pages p).reserved = true) .initReserved
    Prog.modify fun s => s.setPage p Page.initFree
    Prog.modify fun s => { s with freeList := s.freeList ++ [p] }
    initPages (p + 1) n

/-- Source: `kern/mm/default_pmm.c` `default_init_memmap` -/
def defaultInitMemmap (base n : ℕ) : Prog PmmPanic ε Pmm Unit := do
  Prog.assert (0 < n) .initCount
  initPages base n
  Prog.modify fun s => { s with nrFree := s.nrFree + n }
  Prog.modify fun s => s.setPage base fun pg => { pg with property := n }

/-- The inner loop of `default_alloc_pages`: unlink `n` nodes from `le` on, marking each page as
taken. Returns the node `le` has moved on to. -/
def unlinkPages : ℕ → List ℕ → (ℕ → Page) → Option (List ℕ × (ℕ → Page))
  | 0, le, pages => some (le, pages)
  | _ + 1, [], _ => none
  | n + 1, q :: le, pages => unlinkPages n le (Function.update pages q (pages q).take)

/-- Source: `kern/mm/default_pmm.c` `default_alloc_pages` -/
def defaultAllocPages (n : ℕ) : Prog PmmPanic ε Pmm (Option ℕ) := do
  Prog.assert (0 < n) .allocCount
  let s ← Prog.get
  if n > s.nrFree then
    pure none
  else
    -- the while loop stops at the first page with `property >= n`
    match s.freeList.dropWhile fun p => (s.pages p).property < n with
    | [] => pure none
    | p :: rest =>
      match unlinkPages n (p :: rest) s.pages with
      | none => Prog.stop .listHead
      | some (le, pages) => do
        let before := s.freeList.takeWhile fun p => (s.pages p).property < n
        Prog.modify fun s => { s with pages := pages, freeList := before ++ le }
        if (pages p).property > n then
          match le with
          | [] => Prog.stop .listHead
          | q :: _ => Prog.modify fun s =>
              s.setPage q fun pg => { pg with property := (pages p).property - n }
        else
          pure ()
        Prog.modify fun s => s.setPage p Page.take
        Prog.modify fun s => { s with nrFree := s.nrFree - n }
        pure (some p)

/-- `dst->property += src->property; src->property = 0;` -/
def Pmm.moveCount (dst src : ℕ) (s : Pmm) : Pmm :=
  (s.setPage dst fun pg => { pg with property := pg.property + (s.pages src).property }).setPage
    src fun pg => { pg with property := 0 }

/-- The loop that walks back from the freed block to the head of the run before it and moves
the count of `base` there; `le` lists the nodes in the order of the walk. -/
def mergeBack (base : ℕ) : List ℕ → Pmm → Pmm
  | [], s => s
  | p :: le, s =>
    if (s.pages p).property ≠ 0 then s.moveCount p base else mergeBack base le s

/-- The merge with the run that starts right after the freed block. `hi` are the nodes from `le`
on; `le2page(le)` is a page only when `le` is not the list head, which lies below `pages`. -/
def mergeNext (base n : ℕ) (hi : List ℕ) (s : Pmm) : Pmm :=
  match hi with
  | [] => s
  | p :: _ => if base + n = p then s.moveCount base p else s

/-- The merge with the run that ends right before the freed block; `lo` are the nodes before
it. -/
def mergePrev (base : ℕ) (lo : List ℕ) (s : Pmm) : Pmm :=
  match lo.reverse with
  | [] => s
  | p :: le => if p + 1 = base then mergeBack base (p :: le) s else s

/-- Source: `kern/mm/default_pmm.c` `default_free_pages` -/
def defaultFreePages (base n : ℕ) : Prog PmmPanic ε Pmm Unit := do
  Prog.assert (0 < n) .freeCount
  let s ← Prog.get
  Prog.assert ((s.pages base).reserved = true) .freeReserved
  -- the search loop stops at the first page above `base`
  let lo := s.freeList.takeWhile fun p => p ≤ base
  let hi := s.freeList.dropWhile fun p => p ≤ base
  Prog.modify fun s => { s with freeList := lo ++ (List.range' base n ++ hi) }
  -- the fields of `base` only; the other pages of the block keep theirs
  Prog.modify fun s => s.setPage base fun pg =>
    { pg with reserved := false, isProperty := true, ref := 0, property := n }
  Prog.modify (mergeNext base n hi)
  Prog.modify (mergePrev base lo)
  Prog.modify fun s => { s with nrFree := s.nrFree + n }

/-! ### The representation invariant -/

/-- The free list lists the extents `rs` in order, the first page of each carries its length and
the others carry 0. -/
structure HasRuns (s : Pmm) (rs : List Extent) : Prop where
  /-- The nodes of the list. -/
  list : s.freeList = flat rs
  /-- The extents are in address order and do not overlap. -/
  sep : Sep rs
  /-- The first page of an extent has its length. -/
  head : ∀ r ∈ rs, (s.pages r.1).property = r.2
  /-- The other pages of an extent have 0. -/
  tail : ∀ r ∈ rs, ∀ k, 0 < k → k < r.2 → (s.pages (r.1 + k)).property = 0

namespace HasRuns

variable {s s' : Pmm} {rs lo hi : List Extent}

/-- Only the list and the `property` fields of its pages matter. -/
theorem congr (h : HasRuns s rs) (hl : s'.freeList = s.freeList)
    (hp : ∀ q ∈ flat rs, (s'.pages q).property = (s.pages q).property) : HasRuns s' rs where
  list := hl.trans h.list
  sep := h.sep
  head r hr := by
    rw [hp _ (mem_flat.mpr ⟨r, hr, le_rfl, by have := h.sep.pos r hr; omega⟩), h.head r hr]
  tail r hr k h0 hk := by
    rw [hp _ (mem_flat.mpr ⟨r, hr, by omega, by omega⟩), h.tail r hr k h0 hk]

/-- The `property` field of a listed page. -/
theorem property_eq (h : HasRuns s rs) {r : Extent} (hr : r ∈ rs) {q : ℕ}
    (hq : r.1 ≤ q ∧ q < r.1 + r.2) :
    (s.pages q).property = if q = r.1 then r.2 else 0 := by
  split_ifs with heq
  · rw [heq, h.head r hr]
  · have := h.tail r hr (q - r.1) (by omega) (by omega)
    rwa [show r.1 + (q - r.1) = q by omega] at this

/-- The counts of the list add up to its length. -/
theorem sum_property (h : HasRuns s rs) :
    (s.freeList.map fun p => (s.pages p).property).sum = s.freeList.length := by
  rw [h.list, length_flat]
  have hrun : ∀ r ∈ rs, (r.pages.map fun p => (s.pages p).property).sum = r.2 := by
    rintro ⟨a, m⟩ hr
    obtain ⟨m, rfl⟩ := Nat.exists_eq_succ_of_ne_zero (h.sep.pos _ hr).ne'
    have hzero : (Extent.pages (a + 1, m)).map (fun p => (s.pages p).property) =
        List.replicate m 0 := by
      rw [List.eq_replicate_iff]
      refine ⟨by simp, fun x hx => ?_⟩
      obtain ⟨q, hq, rfl⟩ := List.mem_map.mp hx
      rw [Extent.mem_pages] at hq
      rw [h.property_eq hr (by simp only at hq ⊢; omega), if_neg (by simp only at hq ⊢; omega)]
    rw [Extent.pages_succ, List.map_cons, List.sum_cons, hzero, h.head _ hr]
    simp
  clear h
  induction rs with
  | nil => rfl
  | cons r rs ih =>
    rw [flat_cons, List.map_append, List.sum_append, hrun r List.mem_cons_self,
      ih fun x hx => hrun x (List.mem_cons_of_mem _ hx), List.map_cons, List.sum_cons]

/-- A new extent between the ones below and the ones above it. -/
theorem insert (h : HasRuns s (lo ++ hi)) {b n : ℕ} (hn : 0 < n)
    (hlo : ∀ r ∈ lo, r.1 + r.2 ≤ b) (hhi : ∀ r ∈ hi, b + n ≤ r.1)
    (hl : s'.freeList = flat lo ++ Extent.pages (b, n) ++ flat hi)
    (hp : ∀ q ∈ flat (lo ++ hi), (s'.pages q).property = (s.pages q).property)
    (hb : (s'.pages b).property = n) (ht : ∀ k, 0 < k → k < n → (s'.pages (b + k)).property = 0) :
    HasRuns s' (lo ++ (b, n) :: hi) := by
  have hcut : ∀ r ∈ lo ++ (b, n) :: hi, r = (b, n) ∨ r ∈ lo ++ hi := by
    intro r hr
    simp only [List.mem_append, List.mem_cons] at hr ⊢
    tauto
  obtain ⟨hslo, hshi, hbetween⟩ := h.sep.of_append
  refine ⟨by simpa using hl, ?_, fun r hr => ?_, fun r hr k h0 hk => ?_⟩
  · refine hslo.append ⟨?_, List.pairwise_cons.mpr ⟨hhi, hshi.asc⟩⟩ ?_
    · intro r hr
      rcases List.mem_cons.mp hr with rfl | hr
      · exact hn
      · exact hshi.pos r hr
    · intro r hr r' hr'
      rcases List.mem_cons.mp hr' with rfl | hr'
      · exact hlo r hr
      · exact hbetween r hr r' hr'
  · rcases hcut r hr with rfl | hr
    · exact hb
    · rw [hp _ (mem_flat.mpr ⟨r, hr, le_rfl, by have := h.sep.pos r hr; omega⟩), h.head r hr]
  · rcases hcut r hr with rfl | hr
    · exact ht k h0 hk
    · rw [hp _ (mem_flat.mpr ⟨r, hr, by omega, by omega⟩), h.tail r hr k h0 hk]

/-- Two touching extents become one when the count of the second moves to the first. -/
theorem merge {a l m : ℕ} (h : HasRuns s (lo ++ (a, l) :: (a + l, m) :: hi)) :
    HasRuns (s.moveCount a (a + l)) (lo ++ (a, l + m) :: hi) := by
  have hpos := h.sep.pos
  have hl : 0 < l := hpos (a, l) (by simp)
  have hm : 0 < m := hpos (a + l, m) (by simp)
  obtain ⟨hslo, hsab, hbetween⟩ := h.sep.of_append
  have hsb := hsab.cons
  have hahi : ∀ r ∈ hi, a + l + m ≤ r.1 := fun r hr => (List.pairwise_cons.mp hsb.asc).1 r hr
  have hfirst : ((s.moveCount a (a + l)).pages a).property = l + m := by
    have hne : a ≠ a + l := by omega
    rw [Pmm.moveCount, Pmm.setPage_of_ne _ _ _ hne, Pmm.setPage_same]
    simp only
    rw [h.head (a, l) (by simp), h.head (a + l, m) (by simp)]
  have hsecond : ((s.moveCount a (a + l)).pages (a + l)).property = 0 := by
    rw [Pmm.moveCount, Pmm.setPage_same]
  have hother : ∀ q, q ≠ a → q ≠ a + l → (s.moveCount a (a + l)).pages q = s.pages q := by
    intro q h1 h2
    rw [Pmm.moveCount, Pmm.setPage_of_ne _ _ _ h2, Pmm.setPage_of_ne _ _ _ h1]
  -- the other extents do not contain the two pages whose counts changed
  have hout : ∀ r ∈ lo ++ hi, r ∈ lo ++ (a, l) :: (a + l, m) :: hi ∧
      (r.1 + r.2 ≤ a ∨ a + l + m ≤ r.1) := by
    intro r hr
    rcases List.mem_append.mp hr with hr | hr
    · exact ⟨by simp [hr], Or.inl (hbetween r hr (a, l) (by simp))⟩
    · exact ⟨by simp [hr], Or.inr (hahi r hr)⟩
  have hcut : ∀ r ∈ lo ++ (a, l + m) :: hi, r = (a, l + m) ∨ r ∈ lo ++ hi := by
    intro r hr
    simp only [List.mem_append, List.mem_cons] at hr ⊢
    tauto
  refine ⟨?_, ?_, fun r hr => ?_, fun r hr k h0 hk => ?_⟩
  · show s.freeList = _
    rw [h.list]
    simp only [flat_append, flat_cons]
    rw [Extent.pages_split a (l + m) l (by omega), Nat.add_sub_cancel_left]
    simp
  · refine hslo.append ⟨?_, List.pairwise_cons.mpr ⟨?_, hsb.cons.asc⟩⟩ ?_
    · intro r hr
      rcases List.mem_cons.mp hr with rfl | hr
      · simp only; omega
      · exact hpos r (by simp [hr])
    · intro r hr
      have := hahi r hr
      simp only; omega
    · intro r hr r' hr'
      rcases List.mem_cons.mp hr' with rfl | hr'
      · exact hbetween r hr (a, l) (by simp)
      · exact hbetween r hr r' (by simp [hr'])
  · rcases hcut r hr with rfl | hr
    · exact hfirst
    · obtain ⟨hr', hside⟩ := hout r hr
      have := hpos r hr'
      rw [hother _ (by omega) (by omega), h.head r hr']
  · rcases hcut r hr with rfl | hr
    · simp only at hk ⊢
      rcases lt_trichotomy k l with hkl | rfl | hkl
      · rw [hother _ (by omega) (by omega)]
        exact h.tail (a, l) (by simp) k h0 hkl
      · exact hsecond
      · rw [hother _ (by omega) (by omega)]
        have := h.tail (a + l, m) (by simp) (k - l) (by omega) (by simp only; omega)
        rwa [show a + l + (k - l) = a + k by omega] at this
    · obtain ⟨hr', hside⟩ := hout r hr
      rw [hother _ (by omega) (by omega), h.tail r hr' k h0 hk]

end HasRuns

/-! ### What the operations do to the extents -/

/-- The pages from `p` on, `n` of them, changed by `f`. -/
def onPages (f : Page → Page) (p n : ℕ) (pages : ℕ → Page) (q : ℕ) : Page :=
  if q ∈ Extent.pages (p, n) then f (pages q) else pages q

theorem initPages_run (p n : ℕ) (s : Pmm) (h : ∀ k < n, (s.pages (p + k)).reserved = true) :
    (initPages p n : Prog PmmPanic ε Pmm Unit).run s = .ok ()
      { s with
        pages := onPages Page.initFree p n s.pages
        freeList := s.freeList ++ Extent.pages (p, n) } := by
  induction n generalizing p s with
  | zero =>
    have hid : onPages Page.initFree p 0 s.pages = s.pages := by
      funext q
      simp [onPages]
    simp [initPages, hid]
  | succ n ih =>
    have h0 : (s.pages p).reserved = true := by simpa using h 0 (by omega)
    have hrest : ∀ k < n, ((s.setPage p Page.initFree).pages (p + 1 + k)).reserved = true := by
      intro k hk
      rw [Pmm.setPage_of_ne _ _ _ (by omega), Nat.add_right_comm]
      exact h (k + 1) (by omega)
    simp only [initPages, Prog.run_bind, Prog.run_get, Outcome.andThen_ok, Prog.run_assert_of _ _ h0,
      Prog.run_modify, Pmm.setPage_freeList, Pmm.setPage_nrFree]
    rw [ih (p + 1) ⟨(s.setPage p Page.initFree).pages, s.freeList ++ [p], s.nrFree⟩ hrest]
    congr 1
    simp only [Extent.pages_succ, List.append_assoc, List.cons_append,
      List.nil_append, Pmm.mk.injEq, and_true]
    funext q
    simp only [onPages, Extent.mem_pages]
    by_cases hq : q = p
    · subst hq
      rw [if_neg (by omega), if_pos (by omega), Pmm.setPage_same]
    · rw [Pmm.setPage_of_ne _ _ _ hq]
      exact if_congr (by omega) rfl rfl

/-- What the code of `default_init_memmap` does to the list, the counter and the descriptors when
the pages it is given are reserved. -/
theorem defaultInitMemmap_code {s : Pmm} {base n : ℕ} (hn : 0 < n)
    (hres : ∀ k < n, (s.pages (base + k)).reserved = true) :
    ∃ s', (defaultInitMemmap base n : Prog PmmPanic ε Pmm Unit).run s = .ok () s' ∧
      s'.freeList = s.freeList ++ Extent.pages (base, n) ∧ s'.nrFree = s.nrFree + n ∧
      (∀ q ∉ Extent.pages (base, n), s'.pages q = s.pages q) ∧
      ∀ q ∈ Extent.pages (base, n),
        s'.pages q = { (s.pages q).initFree with property := if q = base then n else 0 } := by
  set s₁ : Pmm :=
    { pages := onPages Page.initFree base n s.pages
      freeList := s.freeList ++ Extent.pages (base, n)
      nrFree := s.nrFree + n } with hs₁
  refine ⟨s₁.setPage base fun pg => { pg with property := n }, ?_, rfl, rfl, fun q hq => ?_,
    fun q hq => ?_⟩
  · simp only [defaultInitMemmap, Prog.run_bind, Prog.run_assert_of _ _ hn, Outcome.andThen_ok,
      initPages_run base n s hres, Prog.run_modify, hs₁]
  · have hne : q ≠ base := by
      rintro rfl
      exact hq (by rw [Extent.mem_pages]; exact ⟨le_rfl, by simpa using hn⟩)
    rw [Pmm.setPage_of_ne _ _ _ hne]
    simp only [hs₁, onPages, if_neg hq]
  · by_cases heq : q = base
    · subst heq
      rw [Pmm.setPage_same, if_pos rfl]
      simp only [hs₁, onPages, if_pos hq]
    · rw [Pmm.setPage_of_ne _ _ _ heq, if_neg heq]
      simp only [hs₁, onPages, if_pos hq]
      rfl

/-- `default_init_memmap` appends the extent `(base, n)`. -/
theorem defaultInitMemmap_run {s : Pmm} {rs : List Extent} {base n : ℕ} (h : HasRuns s rs)
    (hn : 0 < n) (hb : ∀ r ∈ rs, r.1 + r.2 ≤ base)
    (hres : ∀ k < n, (s.pages (base + k)).reserved = true) :
    ∃ s', (defaultInitMemmap base n : Prog PmmPanic ε Pmm Unit).run s = .ok () s' ∧
      HasRuns s' (rs ++ [(base, n)]) ∧ s'.nrFree = s.nrFree + n ∧
      ∀ q, q ∉ Extent.pages (base, n) → s'.pages q = s.pages q := by
  obtain ⟨s', hrun, hlist, hcount, hout, hin⟩ := defaultInitMemmap_code (ε := ε) hn hres
  refine ⟨s', hrun, ?_, hcount, hout⟩
  have h' : HasRuns s (rs ++ []) := by simpa using h
  refine h'.insert hn hb (by simp) ?_ (fun q hq => ?_) ?_ fun k h0 hk => ?_
  · simp [hlist, h.list]
  · obtain ⟨r, hr, -, hlt⟩ := mem_flat.mp hq
    have := hb r (by simpa using hr)
    rw [hout q (by rw [Extent.mem_pages]; simp only; omega)]
  · rw [hin _ (by rw [Extent.mem_pages]; exact ⟨le_rfl, by simpa using hn⟩), if_pos rfl]
  · rw [hin _ (by rw [Extent.mem_pages]; simp only; omega), if_neg (by omega)]

/-- The inner loop takes the pages of the nodes it passes. -/
theorem unlinkPages_append (l le : List ℕ) (pages : ℕ → Page) :
    unlinkPages l.length (l ++ le) pages =
      some (le, fun q => if q ∈ l then (pages q).take else pages q) := by
  induction l generalizing pages with
  | nil => simp [unlinkPages]
  | cons p l ih =>
    rw [List.length_cons, List.cons_append, unlinkPages, ih]
    congr 2
    funext q
    by_cases hq : q = p
    · subst hq
      simp [Page.take]
    · simp [hq]

/-- A list that satisfies `p` up to a point and not from there on is cut at that point. -/
theorem takeWhile_dropWhile_append {α : Type} (p : α → Bool) (l l' : List α)
    (hl : ∀ a ∈ l, p a = true) (hl' : ∀ a, l'.head? = some a → p a = false) :
    (l ++ l').takeWhile p = l ∧ (l ++ l').dropWhile p = l' := by
  rw [List.takeWhile_append_of_pos hl, List.dropWhile_append_of_pos hl]
  cases l' with
  | nil => simp
  | cons b l' =>
    have hb : ¬ p b = true := by simp [hl' b rfl]
    rw [List.takeWhile_cons_of_neg hb, List.dropWhile_cons_of_neg hb]
    simp

/-- What is left of the extent `(a, m)` when its first `n` pages are taken. -/
def restRun (a m n : ℕ) : List Extent := if n < m then [(a + n, m - n)] else []

theorem flat_restRun {a m n : ℕ} (h : n ≤ m) : flat (restRun a m n) = Extent.pages (a + n, m - n) := by
  unfold restRun
  split_ifs with hlt
  · simp
  · simp [show m - n = 0 by omega]

/-- Taking pages from an extent leaves no two extents that touch. -/
theorem coalesced_restRun {pre post : List Extent} {a m : ℕ} (h : Coalesced (pre ++ (a, m) :: post)) (n : ℕ) :
    Coalesced (pre ++ (Mm.restRun a m n ++ post)) := by
  obtain ⟨hpre, hrest, hgap⟩ := h.of_append
  obtain ⟨hafter, hpost⟩ := List.pairwise_cons.mp hrest.gap
  have hpost' : Coalesced post := .of_gap (fun r hr => hrest.pos r (List.mem_cons_of_mem _ hr)) hpost
  unfold Mm.restRun
  split_ifs with hlt
  · refine hpre.append (hpost'.cons (Nat.sub_pos_of_lt hlt) fun r hr => ?_) fun r hr r' hr' => ?_
    · have := hafter r hr
      dsimp only at this ⊢
      omega
    · have := hgap r hr (a, m) List.mem_cons_self
      rcases List.mem_cons.mp hr' with rfl | hr'
      · dsimp only at this ⊢
        omega
      · exact hgap r hr r' (List.mem_cons_of_mem _ hr')
  · exact hpre.append hpost' fun r hr r' hr' => hgap r hr r' (List.mem_cons_of_mem _ hr')

theorem property_lt_of_runs {s : Pmm} {rs : List Extent} (h : HasRuns s rs) {pre : List Extent}
    (hpre : ∀ r ∈ pre, r ∈ rs) {n : ℕ} (hn : 0 < n) (hlt : ∀ r ∈ pre, r.2 < n) {q : ℕ}
    (hq : q ∈ flat pre) : (s.pages q).property < n := by
  obtain ⟨r, hr, hq⟩ := mem_flat.mp hq
  rw [h.property_eq (hpre r hr) hq]
  split_ifs
  · exact hlt r hr
  · exact hn

/-- `default_alloc_pages` returns NULL when no extent is long enough. -/
theorem defaultAllocPages_none {s : Pmm} {rs : List Extent} {n : ℕ} (h : HasRuns s rs) (hn : 0 < n)
    (hlt : ∀ r ∈ rs, r.2 < n) :
    (defaultAllocPages n : Prog PmmPanic ε Pmm (Option ℕ)).run s = .ok none s := by
  have hdrop := (takeWhile_dropWhile_append (fun p => decide ((s.pages p).property < n))
    s.freeList []
    (fun q hq => by
      rw [h.list] at hq
      simpa using property_lt_of_runs h (fun r hr => hr) hn hlt hq)
    (by simp)).2
  rw [List.append_nil] at hdrop
  simp [defaultAllocPages, Prog.run_assert_of _ _ hn, hdrop]

/-- What the code of `default_alloc_pages` does when the pages before `a` have a count below `n`
and `a` has at least `n`: the next `n` nodes leave the list and are marked, and the node after
them gets what is left of the count. -/
theorem defaultAllocPages_code {s : Pmm} {before taken le : List ℕ} {a m n : ℕ} (hn : 0 < n)
    (hle : n ≤ s.nrFree) (hlist : s.freeList = before ++ (taken ++ le)) (htaken : taken.length = n)
    (hhead : taken.head? = some a) (hbefore : ∀ q ∈ before, (s.pages q).property < n)
    (ha : (s.pages a).property = m) (hm : n ≤ m) (hrest : n < m → le ≠ []) :
    ∃ s', (defaultAllocPages n : Prog PmmPanic ε Pmm (Option ℕ)).run s = .ok (some a) s' ∧
      s'.freeList = before ++ le ∧ s'.nrFree = s.nrFree - n ∧
      (taken.Disjoint le → (∀ q ∈ taken, s'.pages q = (s.pages q).take) ∧
        ∀ q ∉ taken, s'.pages q =
          if n < m ∧ le.head? = some q then { s.pages q with property := m - n } else s.pages q) := by
  obtain ⟨taken', rfl⟩ : ∃ taken', taken = a :: taken' := by
    cases taken with
    | nil => simp at hhead
    | cons b l => exact ⟨l, by simpa using hhead⟩
  have hcut := takeWhile_dropWhile_append (fun p => decide ((s.pages p).property < n))
    before (a :: taken' ++ le) (fun q hq => by simpa using hbefore q hq)
    (fun q hq => by
      simp only [List.cons_append, List.head?_cons, Option.some.injEq] at hq
      subst hq
      simpa [ha] using hm)
  rw [← hlist] at hcut
  have hunlink := unlinkPages_append (a :: taken') le s.pages
  rw [htaken, List.cons_append] at hunlink
  set P : ℕ → Page := fun q => if q ∈ a :: taken' then (s.pages q).take else s.pages q with hP
  have hPin : ∀ q ∈ a :: taken', P q = (s.pages q).take := fun q hq => if_pos hq
  have hPout : ∀ q, q ∉ a :: taken' → P q = s.pages q := fun q hq => if_neg hq
  have hpa : (P a).property = m := by rw [hPin a (by simp)]; exact ha
  have htake : ∀ pg : Page, pg.take.take = pg.take := fun _ => rfl
  by_cases hlt : n < m
  · obtain ⟨p, le', rfl⟩ := List.exists_cons_of_ne_nil (hrest hlt)
    refine ⟨{ ((⟨P, before ++ p :: le', s.nrFree⟩ : Pmm).setPage p fun pg =>
      { pg with property := m - n }).setPage a Page.take with nrFree := s.nrFree - n }, ?_,
      rfl, rfl, fun hdisj => ⟨fun q hq => ?_, fun q hq => ?_⟩⟩
    · simp only [defaultAllocPages, Prog.run_bind, Prog.run_assert_of _ _ hn, Outcome.andThen_ok,
        Prog.run_get, if_neg (not_lt.mpr hle), hcut.1, hcut.2, List.cons_append,
        hunlink, Prog.run_modify, gt_iff_lt, hpa, if_pos hlt, Prog.run_pure, Pmm.setPage_nrFree]
    · have hqp : q ≠ p := fun heq => hdisj hq (by simp [heq])
      by_cases hqa : q = a
      · subst hqa
        simp only [Pmm.setPage_same, Pmm.setPage_of_ne _ _ _ hqp, hPin q hq, htake]
      · simp only [Pmm.setPage_of_ne _ _ _ hqa, Pmm.setPage_of_ne _ _ _ hqp, hPin q hq]
    · have hqa : q ≠ a := fun heq => hq (by simp [heq])
      rw [Pmm.setPage_of_ne _ _ _ hqa]
      by_cases hqp : q = p
      · subst hqp
        simp only [Pmm.setPage_same, hPout q hq, hlt, List.head?_cons, and_self, if_true]
      · rw [if_neg (by simp [Ne.symm hqp])]
        simp only [Pmm.setPage_of_ne _ _ _ hqp, hPout q hq]
  · refine ⟨{ (⟨P, before ++ le, s.nrFree⟩ : Pmm).setPage a Page.take with nrFree := s.nrFree - n },
      ?_, rfl, rfl, fun hdisj => ⟨fun q hq => ?_, fun q hq => ?_⟩⟩
    · simp only [defaultAllocPages, Prog.run_bind, Prog.run_assert_of _ _ hn, Outcome.andThen_ok,
        Prog.run_get, if_neg (not_lt.mpr hle), hcut.1, hcut.2, List.cons_append,
        hunlink, Prog.run_modify, gt_iff_lt, hpa, if_neg hlt, Prog.run_pure, Pmm.setPage_nrFree]
    · by_cases hqa : q = a
      · subst hqa
        simp only [Pmm.setPage_same, hPin q hq, htake]
      · simp only [Pmm.setPage_of_ne _ _ _ hqa, hPin q hq]
    · have hqa : q ≠ a := fun heq => hq (by simp [heq])
      rw [if_neg fun hc => hlt hc.1]
      simp only [Pmm.setPage_of_ne _ _ _ hqa, hPout q hq]

/-- `default_alloc_pages` takes the first `n` pages of the first extent that is long enough. -/
theorem defaultAllocPages_some {s : Pmm} {pre post : List Extent} {a m n : ℕ}
    (h : HasRuns s (pre ++ (a, m) :: post)) (hc : s.nrFree = s.freeList.length) (hn : 0 < n)
    (hpre : ∀ r ∈ pre, r.2 < n) (hm : n ≤ m) :
    ∃ s', (defaultAllocPages n : Prog PmmPanic ε Pmm (Option ℕ)).run s = .ok (some a) s' ∧
      HasRuns s' (pre ++ (restRun a m n ++ post)) ∧ s'.nrFree = s.nrFree - n ∧
      (∀ q ∈ Extent.pages (a, n), s'.pages q = (s.pages q).take) ∧
      (∀ q, q ∉ Extent.pages (a, n) →
        ∃ c, s'.pages q = { s.pages q with property := c } ∧
          (q ∉ s.freeList → c = (s.pages q).property)) := by
  have hrun : (a, m) ∈ pre ++ (a, m) :: post := by simp
  have hlist : s.freeList = flat pre ++
      (Extent.pages (a, n) ++ (Extent.pages (a + n, m - n) ++ flat post)) := by
    rw [h.list, flat_append, flat_cons, Extent.pages_split a m n hm, List.append_assoc]
  have hnodup := h.sep.nodup
  rw [← h.list, hlist, List.nodup_append, List.nodup_append] at hnodup
  have hdisj : (Extent.pages (a, n)).Disjoint (Extent.pages (a + n, m - n) ++ flat post) :=
    fun x hx hx' => hnodup.2.1.2.2 x hx x hx' rfl
  obtain ⟨s', hcode, hfree, hcount, hpages⟩ := defaultAllocPages_code (ε := ε) hn
    (by rw [hc, hlist]; simp; omega) hlist (Extent.length_pages _)
    (by obtain ⟨k, rfl⟩ := Nat.exists_eq_succ_of_ne_zero hn.ne'; simp [Extent.pages_succ])
    (fun q hq => property_lt_of_runs h (fun r hr => by simp [hr]) hn hpre hq) (h.head _ hrun) hm
    (fun hlt hnil => by
      have := congrArg List.length hnil
      simp at this
      omega)
  obtain ⟨hin, hout⟩ := hpages hdisj
  have hnext : ∀ q, n < m ∧ (Extent.pages (a + n, m - n) ++ flat post).head? = some q ↔
      n < m ∧ q = a + n := by
    intro q
    refine and_congr_right fun hlt => ?_
    obtain ⟨d, hd⟩ := Nat.exists_eq_succ_of_ne_zero (Nat.sub_pos_of_lt hlt).ne'
    simp [hd, Extent.pages_succ, eq_comm]
  simp only [hnext] at hout
  refine ⟨s', hcode, ?_, hcount, hin, fun q hq => ?_⟩
  · obtain ⟨hspre, hsam, hbetween⟩ := h.sep.of_append
    have hrest : ∀ r ∈ restRun a m n, r = (a + n, m - n) ∧ n < m := by
      intro r hr
      unfold restRun at hr
      split_ifs at hr with hlt
      · exact ⟨by simpa using hr, hlt⟩
      · simp at hr
    have hafter : ∀ r ∈ post, a + m ≤ r.1 := fun r hr => (List.pairwise_cons.mp hsam.asc).1 r hr
    -- an extent other than the one that is cut keeps its counts
    have hkeep : ∀ r ∈ pre ++ post, ∀ k < r.2, s'.pages (r.1 + k) = s.pages (r.1 + k) := by
      intro r hr k hk
      have hside : r.1 + r.2 ≤ a ∨ a + m ≤ r.1 :=
        (List.mem_append.mp hr).elim (fun hr => Or.inl (hbetween r hr (a, m) (by simp)))
          fun hr => Or.inr (hafter r hr)
      rw [hout _ (by rw [Extent.mem_pages]; simp only; omega), if_neg (by omega)]
    have hcases : ∀ r ∈ pre ++ (restRun a m n ++ post),
        r ∈ pre ++ post ∧ r ∈ pre ++ (a, m) :: post ∨ r = (a + n, m - n) ∧ n < m := by
      intro r hr
      simp only [List.mem_append] at hr
      rcases hr with hr | hr | hr
      · exact Or.inl ⟨by simp [hr], by simp [hr]⟩
      · exact Or.inr (hrest r hr)
      · exact Or.inl ⟨by simp [hr], by simp [hr]⟩
    refine ⟨?_, ?_, fun r hr => ?_, fun r hr k h0 hk => ?_⟩
    · rw [hfree, flat_append, flat_append, flat_restRun hm]
    · refine hspre.append (Sep.append ⟨fun r hr => ?_, ?_⟩ hsam.cons ?_) ?_
      · obtain ⟨rfl, hlt⟩ := hrest r hr
        exact Nat.sub_pos_of_lt hlt
      · unfold restRun
        split_ifs <;> simp
      · intro r hr r' hr'
        obtain ⟨rfl, hlt⟩ := hrest r hr
        have := hafter r' hr'
        simp only
        omega
      · intro r hr r' hr'
        have := hbetween r hr (a, m) (by simp)
        rcases List.mem_append.mp hr' with hr' | hr'
        · obtain ⟨rfl, hlt⟩ := hrest r' hr'
          simp only at this ⊢
          omega
        · exact hbetween r hr r' (by simp [hr'])
    · rcases hcases r hr with ⟨hr, hr'⟩ | ⟨rfl, hlt⟩
      · have := hkeep r hr 0 (h.sep.pos r hr')
        rw [add_zero] at this
        rw [this, h.head r hr']
      · rw [hout _ (by simp), if_pos ⟨hlt, rfl⟩]
    · rcases hcases r hr with ⟨hr, hr'⟩ | ⟨rfl, hlt⟩
      · rw [hkeep r hr k hk, h.tail r hr' k h0 hk]
      · simp only at hk ⊢
        rw [hout _ (by simp), if_neg (by omega), Nat.add_assoc]
        exact h.tail (a, m) hrun (n + k) (by omega) (by simp only; omega)
  · rw [hout q hq]
    split_ifs with hcond
    · obtain ⟨hlt, rfl⟩ := hcond
      refine ⟨m - n, rfl, fun hnot => absurd ?_ hnot⟩
      rw [h.list]
      exact mem_flat.mpr ⟨(a, m), hrun, by simp, by simpa using hlt⟩
    · exact ⟨_, rfl, fun _ => rfl⟩

/-- Nothing but counts of pages of `l` has changed from `s` to `s'`. -/
structure CountsOnly (l : List ℕ) (s s' : Pmm) : Prop where
  /-- The list is the same. -/
  list : s'.freeList = s.freeList
  /-- The number of free pages is the same. -/
  count : s'.nrFree = s.nrFree
  /-- Each page has at most a new count, and only if it is in `l`. -/
  page : ∀ q, ∃ c, s'.pages q = { s.pages q with property := c } ∧
    (q ∉ l → c = (s.pages q).property)

theorem CountsOnly.refl (l : List ℕ) (s : Pmm) : CountsOnly l s s :=
  ⟨rfl, rfl, fun _ => ⟨_, rfl, fun _ => rfl⟩⟩

theorem CountsOnly.trans {l : List ℕ} {s₁ s₂ s₃ : Pmm} (h : CountsOnly l s₁ s₂)
    (h' : CountsOnly l s₂ s₃) : CountsOnly l s₁ s₃ := by
  refine ⟨h'.list.trans h.list, h'.count.trans h.count, fun q => ?_⟩
  obtain ⟨c, hc, hl⟩ := h.page q
  obtain ⟨c', hc', hl'⟩ := h'.page q
  refine ⟨c', by rw [hc', hc], fun hq => ?_⟩
  rw [hl' hq, hc, hl hq]

theorem CountsOnly.moveCount {l : List ℕ} (s : Pmm) {dst src : ℕ} (hd : dst ∈ l) (hs : src ∈ l) :
    CountsOnly l s (s.moveCount dst src) := by
  refine ⟨rfl, rfl, fun q => ?_⟩
  by_cases hqs : q = src
  · subst hqs
    refine ⟨0, ?_, fun hq => absurd hs hq⟩
    by_cases hqd : q = dst
    · subst hqd
      simp [Pmm.moveCount]
    · rw [Pmm.moveCount, Pmm.setPage_same, Pmm.setPage_of_ne _ _ _ hqd]
  · rw [Pmm.moveCount, Pmm.setPage_of_ne _ _ _ hqs]
    by_cases hqd : q = dst
    · subst hqd
      exact ⟨_, Pmm.setPage_same _ _ _, fun hq => absurd hd hq⟩
    · exact ⟨_, Pmm.setPage_of_ne _ _ _ hqd, fun _ => rfl⟩

theorem head?_flat_cons {r : Extent} (rs : List Extent) (h : 0 < r.2) :
    ∃ l, flat (r :: rs) = r.1 :: l := by
  obtain ⟨a, m⟩ := r
  obtain ⟨m, rfl⟩ := Nat.exists_eq_succ_of_ne_zero h.ne'
  exact ⟨_, by rw [flat_cons, Extent.pages_succ, List.cons_append]⟩

/-- The forward merge leaves the freed block, possibly longer, clear of the run after it. -/
theorem mergeNext_run {s : Pmm} {lo hi : List Extent} {b n : ℕ}
    (h : HasRuns s (lo ++ (b, n) :: hi)) :
    ∃ m hi', HasRuns (mergeNext b n (flat hi) s) (lo ++ (b, m) :: hi') ∧
      CountsOnly s.freeList s (mergeNext b n (flat hi) s) ∧
      (Coalesced hi → Coalesced ((b, m) :: hi')) := by
  obtain ⟨-, hs, -⟩ := h.sep.of_append
  have hn : 0 < n := hs.pos (b, n) (by simp)
  cases hi with
  | nil => exact ⟨n, [], h, .refl _ _, fun _ => .of_gap (by simpa using hn) (by simp)⟩
  | cons r hi =>
    obtain ⟨c, l⟩ := r
    have hl : 0 < l := hs.cons.pos (c, l) (by simp)
    have hbc : b + n ≤ c := (List.pairwise_cons.mp hs.asc).1 (c, l) (by simp)
    obtain ⟨x, hx⟩ := head?_flat_cons (r := (c, l)) hi hl
    rw [hx]
    by_cases heq : b + n = c
    · subst heq
      refine ⟨n + l, hi, ?_, ?_, fun hco => ?_⟩
      · simpa [mergeNext] using h.merge
      · simp only [mergeNext, if_true]
        refine .moveCount s ?_ ?_ <;> rw [h.list, mem_flat]
        · exact ⟨(b, n), by simp, le_rfl, by simpa using hn⟩
        · exact ⟨(b + n, l), by simp, le_rfl, by simpa using hl⟩
      · have := List.pairwise_cons.mp hco.gap
        refine Coalesced.cons (Coalesced.of_gap (fun r hr => hco.pos r (by simp [hr])) this.2)
          (by simp only; omega) fun r hr => ?_
        have := this.1 r hr
        simp only at this ⊢
        omega
    · refine ⟨n, (c, l) :: hi, ?_, ?_, fun hco => hco.cons hn fun r hr => ?_⟩
      · simpa [mergeNext, heq] using h
      · simpa [mergeNext, heq] using CountsOnly.refl _ s
      · rcases List.mem_cons.mp hr with rfl | hr
        · exact lt_of_le_of_ne hbc heq
        · have := (List.pairwise_cons.mp hco.gap).1 r hr
          simp only at this ⊢
          omega

theorem mergeBack_skip (b : ℕ) (l le : List ℕ) (s : Pmm) (h : ∀ q ∈ l, (s.pages q).property = 0) :
    mergeBack b (l ++ le) s = mergeBack b le s := by
  induction l with
  | nil => rfl
  | cons p l ih =>
    rw [List.cons_append, mergeBack, if_neg (by simp [h p (by simp)]),
      ih fun q hq => h q (by simp [hq])]

/-- The walk back goes over the pages of one run and stops at its head. -/
theorem mergeBack_run {s : Pmm} {rs : List Extent} (h : HasRuns s rs) {a l : ℕ} (hr : (a, l) ∈ rs)
    (b : ℕ) (le : List ℕ) :
    mergeBack b ((Extent.pages (a, l)).reverse ++ le) s = s.moveCount a b := by
  obtain ⟨l, rfl⟩ := Nat.exists_eq_succ_of_ne_zero (h.sep.pos _ hr).ne'
  rw [Extent.pages_succ, List.reverse_cons, List.append_assoc, mergeBack_skip, List.singleton_append,
    mergeBack, if_pos]
  · rw [h.head _ hr]
    exact Nat.succ_ne_zero l
  · intro q hq
    rw [List.mem_reverse, Extent.mem_pages] at hq
    simp only at hq
    rw [h.property_eq hr (by simp only; omega), if_neg (by simp only; omega)]

/-- The backward merge leaves the freed block clear of, or part of, the run before it. -/
theorem mergePrev_run {s : Pmm} {lo hi : List Extent} {b m : ℕ}
    (h : HasRuns s (lo ++ (b, m) :: hi)) :
    ∃ rs, HasRuns (mergePrev b (flat lo) s) rs ∧
      CountsOnly s.freeList s (mergePrev b (flat lo) s) ∧
      (Coalesced lo → Coalesced ((b, m) :: hi) → Coalesced rs) := by
  rcases List.eq_nil_or_concat lo with rfl | ⟨lo, ⟨a, l⟩, rfl⟩
  · exact ⟨(b, m) :: hi, h, .refl _ _, fun _ hco => hco⟩
  · rw [List.concat_eq_append] at h ⊢
    have hrun : (a, l) ∈ lo ++ [(a, l)] ++ (b, m) :: hi := by simp
    have hl : 0 < l := h.sep.pos _ hrun
    have hab : a + l ≤ b := h.sep.of_append.2.2 (a, l) (by simp) (b, m) (by simp)
    have hlast : (flat (lo ++ [(a, l)])).reverse = (a + l - 1) ::
        ((Extent.pages (a, l - 1)).reverse ++ (flat lo).reverse) := by
      rw [flat_append, flat_cons, flat_nil, List.append_nil, List.reverse_append,
        Extent.pages_split a l (l - 1) (Nat.sub_le l 1), Nat.sub_sub_self hl]
      simp [Extent.pages, Nat.add_sub_assoc hl]
    have hwalk : (a + l - 1) :: ((Extent.pages (a, l - 1)).reverse ++ (flat lo).reverse) =
        (Extent.pages (a, l)).reverse ++ (flat lo).reverse := by
      rw [← hlast]
      simp
    by_cases heq : a + l = b
    · subst heq
      have hstep : mergePrev (a + l) (flat (lo ++ [(a, l)])) s = s.moveCount a (a + l) := by
        rw [mergePrev, hlast]
        simp only
        rw [if_pos (by omega), hwalk, mergeBack_run h hrun]
      rw [List.append_assoc, List.singleton_append] at h
      refine ⟨lo ++ (a, l + m) :: hi, ?_, ?_, fun hlo hhi => ?_⟩
      · rw [hstep]
        exact h.merge
      · rw [hstep]
        refine .moveCount s ?_ ?_ <;> rw [h.list, mem_flat]
        · exact ⟨(a, l), by simp, le_rfl, by simpa using hl⟩
        · exact ⟨(a + l, m), by simp, le_rfl, by simpa using h.sep.pos (a + l, m) (by simp)⟩
      · obtain ⟨hlo', -, hgap⟩ := hlo.of_append
        have hb := List.pairwise_cons.mp hhi.gap
        have htail : Coalesced ((a, l + m) :: hi) :=
          Coalesced.cons (.of_gap (fun r hr => hhi.pos r (by simp [hr])) hb.2) (by simp only; omega)
            fun r hr => by
              have := hb.1 r hr
              simp only at this ⊢
              omega
        refine hlo'.append htail fun r hr r' hr' => ?_
        have hra := hgap r hr (a, l) (by simp)
        rcases List.mem_cons.mp hr' with rfl | hr'
        · exact hra
        · have := hb.1 r' hr'
          simp only at this hra
          omega
    · have hstep : mergePrev b (flat (lo ++ [(a, l)])) s = s := by
        rw [mergePrev, hlast]
        simp only
        rw [if_neg (by omega)]
      rw [hstep]
      refine ⟨_, h, .refl _ _, fun hlo hhi => hlo.append hhi fun r hr r' hr' => ?_⟩
      have hrb : r.1 + r.2 < b := by
        rcases List.mem_append.mp hr with hr | hr
        · have := hlo.of_append.2.2 r hr (a, l) (by simp)
          simp only at this
          omega
        · obtain rfl := List.mem_singleton.mp hr
          exact lt_of_le_of_ne hab heq
      rcases List.mem_cons.mp hr' with rfl | hr'
      · exact hrb
      · have := (List.pairwise_cons.mp hhi.gap).1 r' hr'
        simp only at this
        omega

/-- `default_free_pages` puts the block `(base, n)` back between the runs below and above it and
merges it with the ones it touches. -/
theorem defaultFreePages_run {s : Pmm} {lo hi : List Extent} {base n : ℕ}
    (h : HasRuns s (lo ++ hi)) (hn : 0 < n) (hlo : ∀ r ∈ lo, r.1 + r.2 ≤ base)
    (hhi : ∀ r ∈ hi, base + n ≤ r.1) (hres : (s.pages base).reserved = true)
    (hzero : ∀ k, 0 < k → k < n → (s.pages (base + k)).property = 0) :
    ∃ s' rs, (defaultFreePages base n : Prog PmmPanic ε Pmm Unit).run s = .ok () s' ∧
      HasRuns s' rs ∧ (Coalesced (lo ++ hi) → Coalesced rs) ∧
      s'.freeList = flat lo ++ (Extent.pages (base, n) ++ flat hi) ∧ s'.nrFree = s.nrFree + n ∧
      (∃ c, s'.pages base = { s.pages base with
        reserved := false, isProperty := true, ref := 0, property := c }) ∧
      ∀ q, q ≠ base → ∃ c, s'.pages q = { s.pages q with property := c } ∧
        (q ∉ s'.freeList → c = (s.pages q).property) := by
  obtain ⟨hslo, hshi, -⟩ := h.sep.of_append
  have hcut := takeWhile_dropWhile_append (fun p => decide (p ≤ base)) (flat lo) (flat hi)
    (fun q hq => by
      obtain ⟨r, hr, -, hlt⟩ := mem_flat.mp hq
      have := hlo r hr
      simp only [decide_eq_true_eq]
      omega)
    (fun q hq => by
      obtain ⟨r, hr, hle, -⟩ := mem_flat.mp (List.mem_of_head? hq)
      have := hhi r hr
      simp only [decide_eq_false_iff_not]
      omega)
  rw [← flat_append, ← h.list] at hcut
  set s₁ : Pmm := ({ s with freeList := flat lo ++ (List.range' base n ++ flat hi) } : Pmm).setPage
    base fun pg => { pg with reserved := false, isProperty := true, ref := 0, property := n } with hs₁
  have hne : ∀ q, q ≠ base → s₁.pages q = s.pages q := fun q hq => Pmm.setPage_of_ne _ _ _ hq
  have h₁ : HasRuns s₁ (lo ++ (base, n) :: hi) := by
    refine h.insert hn hlo hhi (by simp [hs₁, Extent.pages]) (fun q hq => ?_) ?_ fun k h0 hk => ?_
    · rw [hne]
      rintro rfl
      obtain ⟨r, hr, hle, hlt⟩ := mem_flat.mp hq
      rcases List.mem_append.mp hr with hr | hr
      · have := hlo r hr
        omega
      · have := hhi r hr
        omega
    · simp [hs₁]
    · rw [hne _ (by omega), hzero k h0 hk]
  obtain ⟨m, hi', h₂, hc₂, hco₂⟩ := mergeNext_run h₁
  obtain ⟨rs, h₃, hc₃, hco₃⟩ := mergePrev_run h₂
  set s₃ := mergePrev base (flat lo) (mergeNext base n (flat hi) s₁) with hs₃
  have hc : CountsOnly s₁.freeList s₁ s₃ := by
    rw [hc₂.list] at hc₃
    exact hc₂.trans hc₃
  refine ⟨{ s₃ with nrFree := s₃.nrFree + n }, rs, ?_, h₃.congr rfl fun _ _ => rfl, fun hco => ?_,
    hc.list, ?_, ?_, fun q hq => ?_⟩
  · simp only [defaultFreePages, Prog.run_bind, Prog.run_assert_of _ _ hn, Outcome.andThen_ok,
      Prog.run_get, Prog.run_assert_of _ _ hres, hcut.1, hcut.2, Prog.run_modify, ← hs₁, ← hs₃]
  · obtain ⟨h1, h2, -⟩ := hco.of_append
    exact hco₃ h1 (hco₂ h2)
  · show s₃.nrFree + n = s.nrFree + n
    rw [hc.count]
    rfl
  · obtain ⟨c, hpage, -⟩ := hc.page base
    refine ⟨c, ?_⟩
    rw [hpage, hs₁, Pmm.setPage_same]
  · obtain ⟨c, hpage, hkeep⟩ := hc.page q
    rw [hne q hq] at hpage hkeep
    exact ⟨c, hpage, fun hnot => hkeep (by rwa [← hc.list])⟩

/-! ### Calls that have returned

What a call that returned has done, without any assumption on the order of the list. -/

theorem initPages_eq_ok {p n : ℕ} {s s' : Pmm} {u : Unit}
    (h : (initPages p n : Prog PmmPanic ε Pmm Unit).run s = .ok u s') :
    ∀ k < n, (s.pages (p + k)).reserved = true := by
  induction n generalizing p s with
  | zero => simp
  | succ n ih =>
    obtain ⟨hres, h⟩ := Prog.assert_bind_eq_ok.mp (Prog.get_bind_eq_ok.mp h)
    have hrest := ih h
    intro k hk
    cases k with
    | zero => exact hres
    | succ k =>
      have := hrest k (by omega)
      simp only at this
      rwa [Pmm.setPage_of_ne _ _ _ (by omega), Nat.add_right_comm] at this

/-- `default_init_memmap` returns only if all pages it is given are reserved. -/
theorem defaultInitMemmap_eq_ok {base n : ℕ} {s s' : Pmm} {u : Unit}
    (h : (defaultInitMemmap base n : Prog PmmPanic ε Pmm Unit).run s = .ok u s') :
    ∀ k < n, (s.pages (base + k)).reserved = true := by
  obtain ⟨-, h⟩ := Prog.assert_bind_eq_ok.mp h
  obtain ⟨_, s₁, hinit, -⟩ := Prog.bind_eq_ok.mp h
  exact initPages_eq_ok hinit

/-- The inner loop comes to an end only if there are enough nodes. -/
theorem unlinkPages_eq_some {n : ℕ} {l le : List ℕ} {pages pages' : ℕ → Page}
    (h : unlinkPages n l pages = some (le, pages')) :
    ∃ taken, l = taken ++ le ∧ taken.length = n := by
  induction n generalizing l pages with
  | zero =>
    simp only [unlinkPages, Option.some.injEq, Prod.mk.injEq] at h
    exact ⟨[], by simp [h.1], rfl⟩
  | succ n ih =>
    cases l with
    | nil => simp [unlinkPages] at h
    | cons q l =>
      obtain ⟨taken, rfl, hlen⟩ := ih h
      exact ⟨q :: taken, rfl, by simp [hlen]⟩

/-- A request that returned has refused and changed nothing, or has taken `n` nodes in a row from
the list, the first of which it returns. -/
theorem defaultAllocPages_eq_ok {n : ℕ} {s s' : Pmm} {o : Option ℕ}
    (h : (defaultAllocPages n : Prog PmmPanic ε Pmm (Option ℕ)).run s = .ok o s') :
    o = none ∧ s' = s ∨
    ∃ before taken le p, o = some p ∧ s.freeList = before ++ (taken ++ le) ∧ taken.length = n ∧
      taken.head? = some p ∧ s'.freeList = before ++ le ∧
      (taken.Disjoint le → (∀ q ∈ taken, s'.pages q = (s.pages q).take) ∧
        ∀ q ∉ taken, ∃ c, s'.pages q = { s.pages q with property := c }) := by
  have h₀ := h
  obtain ⟨hn, h⟩ := Prog.assert_bind_eq_ok.mp h
  rw [Prog.get_bind_eq_ok, Prog.run_ite] at h
  split_ifs at h with hfree
  · obtain ⟨rfl, rfl⟩ := Outcome.ok.inj h
    exact Or.inl ⟨rfl, rfl⟩
  split at h
  · obtain ⟨rfl, rfl⟩ := Outcome.ok.inj h
    exact Or.inl ⟨rfl, rfl⟩
  · rename_i p rest hdrop
    split at h
    · cases h
    · rename_i le pages hunlink
      obtain ⟨taken, hcut, hlen⟩ := unlinkPages_eq_some hunlink
      have hlist := List.takeWhile_append_dropWhile
        (p := fun q => decide ((s.pages q).property < n)) (l := s.freeList)
      rw [hdrop, hcut] at hlist
      have hhead : taken.head? = some p := by
        cases taken with
        | nil => exact absurd hlen (by simp; omega)
        | cons b l => simp only [List.cons_append, List.cons.injEq] at hcut; simp [hcut.1]
      have hp : n ≤ (s.pages p).property := by
        have := List.head?_dropWhile_not (fun q => decide ((s.pages q).property < n)) s.freeList
        rw [hdrop] at this
        simpa using this
      have hpages : (pages p).property = (s.pages p).property := by
        have := unlinkPages_append taken le s.pages
        rw [hlen, ← hcut, hunlink] at this
        simp only [Option.some.injEq, Prod.mk.injEq, true_and] at this
        rw [this]
        simp only
        split_ifs <;> rfl
      have hrest : n < (s.pages p).property → le ≠ [] := by
        rintro hlt rfl
        simp only [hpages, gt_iff_lt, if_pos hlt] at h
        cases h
      obtain ⟨s', hrun, hfree', -, hpage⟩ := defaultAllocPages_code (ε := ε) hn (by omega) hlist.symm
        hlen hhead (fun q hq => by simpa using List.mem_takeWhile_imp hq) rfl hp hrest
      obtain ⟨rfl, rfl⟩ := Outcome.ok.inj (h₀.symm.trans hrun)
      refine Or.inr ⟨_, taken, le, p, rfl, hlist.symm, hlen, hhead, hfree', fun hdisj => ?_⟩
      obtain ⟨hin, hout⟩ := hpage hdisj
      refine ⟨hin, fun q hq => ?_⟩
      rw [hout q hq]
      split_ifs
      · exact ⟨_, rfl⟩
      · exact ⟨_, rfl⟩

theorem mergeNext_counts (b n : ℕ) (hi : List ℕ) (s : Pmm) :
    ∃ l, CountsOnly l s (mergeNext b n hi s) := by
  cases hi with
  | nil => exact ⟨[], .refl _ _⟩
  | cons p hi =>
    rw [mergeNext]
    split_ifs
    · exact ⟨[b, p], .moveCount s (by simp) (by simp)⟩
    · exact ⟨[], .refl _ _⟩

theorem mergeBack_counts (b : ℕ) (le : List ℕ) (s : Pmm) :
    ∃ l, CountsOnly l s (mergeBack b le s) := by
  induction le with
  | nil => exact ⟨[], .refl _ _⟩
  | cons p le ih =>
    rw [mergeBack]
    split_ifs
    · exact ⟨[p, b], .moveCount s (by simp) (by simp)⟩
    · exact ih

theorem mergePrev_counts (b : ℕ) (lo : List ℕ) (s : Pmm) :
    ∃ l, CountsOnly l s (mergePrev b lo s) := by
  unfold mergePrev
  split
  · exact ⟨[], .refl _ _⟩
  · split_ifs
    · exact mergeBack_counts _ _ _
    · exact ⟨[], .refl _ _⟩

/-- A call of `default_free_pages` that returned has linked the block into the list, has cleared
the flags and the reference count of its first page, and has changed nothing but counts
elsewhere. -/
theorem defaultFreePages_eq_ok {base n : ℕ} {s s' : Pmm} {u : Unit}
    (h : (defaultFreePages base n : Prog PmmPanic ε Pmm Unit).run s = .ok u s') :
    (∃ lo hi, s.freeList = lo ++ hi ∧ s'.freeList = lo ++ (Extent.pages (base, n) ++ hi)) ∧
    (∃ c, s'.pages base = { s.pages base with
      reserved := false, isProperty := true, ref := 0, property := c }) ∧
    ∀ q, q ≠ base → ∃ c, s'.pages q = { s.pages q with property := c } := by
  obtain ⟨-, h⟩ := Prog.assert_bind_eq_ok.mp h
  obtain ⟨-, h⟩ := Prog.assert_bind_eq_ok.mp (Prog.get_bind_eq_ok.mp h)
  simp only [Prog.run_bind, Prog.run_modify, Outcome.andThen_ok] at h
  obtain ⟨-, rfl⟩ := Outcome.ok.inj h
  set lo := s.freeList.takeWhile fun p => decide (p ≤ base)
  set hi := s.freeList.dropWhile fun p => decide (p ≤ base)
  set s₂ : Pmm := ({ s with freeList := lo ++ (List.range' base n ++ hi) } : Pmm).setPage
    base fun pg => { pg with reserved := false, isProperty := true, ref := 0, property := n } with hs₂
  obtain ⟨l, hc⟩ := mergeNext_counts base n hi s₂
  obtain ⟨l', hc'⟩ := mergePrev_counts base lo (mergeNext base n hi s₂)
  have hpage : ∀ q, ∃ c, (mergePrev base lo (mergeNext base n hi s₂)).pages q =
      { s₂.pages q with property := c } := by
    intro q
    obtain ⟨c, h, -⟩ := hc.page q
    obtain ⟨c', h', -⟩ := hc'.page q
    exact ⟨c', by rw [h', h]⟩
  refine ⟨⟨lo, hi, List.takeWhile_append_dropWhile.symm, ?_⟩, ?_, fun q hq => ?_⟩
  · exact hc'.list.trans hc.list
  · obtain ⟨c, hc⟩ := hpage base
    exact ⟨c, by rw [hc, hs₂, Pmm.setPage_same]⟩
  · obtain ⟨c, hc⟩ := hpage q
    exact ⟨c, by rw [hc, hs₂, Pmm.setPage_of_ne _ _ _ hq]⟩

end Ucore.Mm
