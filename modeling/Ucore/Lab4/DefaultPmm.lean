import Ucore.Mm.DefaultPmm

/-!
# The first-fit allocator of lab 4

Here a node of `free_list` is a whole block of free pages: the first page of the block, with its length in `property`. A block that
is given back is merged with its neighbours in one pass over the list and then put back where it belongs.

* `defaultInitMemmap`, `defaultAllocPages`, `defaultFreePages` are the operations; each ends with `checkOrder`, which panics when the
  list is not in order.
* `Blocks` says that the extents of a list are blocks of free pages. `Blocks.join` is what merging does.
* `defaultAllocPages_some`, `defaultAllocPages_none` and `defaultFreePages_run` say what the operations do to the extents.
-/

namespace Ucore.Lab4

open Ucore.Lib Ucore.Mm

/-- The assertions and panics. -/
inductive PmmPanic where
  | initCount | initReserved | allocCount | freeCount | freeFlags | disordered | failedToAdd
  deriving Repr, DecidableEq

abbrev PmmProg := Prog PmmPanic Empty Pmm

/-- No block reaches past the start of the next one. -/
def Ordered (pages : ℕ → Page) : List ℕ → Prop
  | before :: p :: le => before + (pages before).property ≤ p ∧ Ordered pages (p :: le)
  | _ => True

instance Ordered.decidable (pages : ℕ → Page) : (l : List ℕ) → Decidable (Ordered pages l)
  | [] => .isTrue trivial
  | [_] => .isTrue trivial
  | before :: p :: le =>
    have := Ordered.decidable pages (p :: le)
    inferInstanceAs (Decidable (before + (pages before).property ≤ p ∧ Ordered pages (p :: le)))

/-- Source: `kern/mm/default_pmm.c` `check_order` -/
def checkOrder : PmmProg Unit := do
  let s ← Prog.get
  Prog.assert (Ordered s.pages s.freeList) .disordered

/-- `SetPageProperty`, and the length of the block. -/
def Page.block (n : ℕ) (pg : Page) : Page := { pg with isProperty := true, property := n }

/-- A page as the loop of `default_init_memmap` leaves it. -/
def Page.init (pg : Page) : Page := { pg with reserved := false, isProperty := false, property := 0, ref := 0 }

/-- A page as the first loop of `default_free_pages` leaves it. -/
def Page.clear (pg : Page) : Page := { pg with reserved := false, isProperty := false, ref := 0 }

/-- The loop of `default_init_memmap`. -/
def initPages : ℕ → ℕ → PmmProg Unit
  | _, 0 => pure ()
  | p, n + 1 => do
    let s ← Prog.get
    Prog.assert ((s.pages p).reserved = true) .initReserved
    Prog.modify fun s => s.setPage p Page.init
    initPages (p + 1) n

/-- Source: `kern/mm/default_pmm.c` `default_init_memmap` -/
def defaultInitMemmap (base n : ℕ) : PmmProg Unit := do
  Prog.assert (0 < n) .initCount
  initPages base n
  Prog.modify fun s => s.setPage base (Page.block n)
  Prog.modify fun s => { s with nrFree := s.nrFree + n, freeList := base :: s.freeList }
  checkOrder

/-- The block that has been found, with the nodes before and after it: it leaves the list, and what is left of it goes to its
place. -/
def takeBlock (n : ℕ) (before : List ℕ) (page : ℕ) (le : List ℕ) (s : Pmm) : Pmm :=
  if (s.pages page).property > n then
    { s.setPage (page + n) (Page.block ((s.pages page).property - n)) with freeList := before ++ (page + n) :: le }
  else { s with freeList := before ++ le }

/-- Source: `kern/mm/default_pmm.c` `default_alloc_pages` -/
def defaultAllocPages (n : ℕ) : PmmProg (Option ℕ) := do
  Prog.assert (0 < n) .allocCount
  let s ← Prog.get
  if n > s.nrFree then pure none
  else
    -- the while loop stops at the first block with `property >= n`
    match s.freeList.dropWhile fun p => (s.pages p).property < n with
    | [] => do
      checkOrder
      pure none
    | page :: le => do
      Prog.modify (takeBlock n (s.freeList.takeWhile fun p => (s.pages p).property < n) page le)
      Prog.modify fun s => { s with nrFree := s.nrFree - n }
      Prog.modify fun s => s.setPage page fun pg => { pg with isProperty := false }
      checkOrder
      pure (some page)

/-- The first loop of `default_free_pages`. -/
def clearPages : ℕ → ℕ → PmmProg Unit
  | _, 0 => pure ()
  | p, n + 1 => do
    let s ← Prog.get
    Prog.assert ((s.pages p).reserved = false ∧ (s.pages p).isProperty = false) .freeFlags
    Prog.modify fun s => s.setPage p Page.clear
    clearPages (p + 1) n

/-- `dst->property += src->property; ClearPageProperty(src);` and the node `p`, which is one of the two, leaves the list. -/
def joinBlocks (dst src p : ℕ) (s : Pmm) : Pmm :=
  { (s.setPage dst fun pg => { pg with property := pg.property + (s.pages src).property }).setPage src
      fun pg => { pg with isProperty := false } with freeList := s.freeList.erase p }

/-- The second loop of `default_free_pages`: it goes over the nodes that were on the list, and merges `base` with those that touch
it. -/
def mergeLoop : List ℕ → ℕ → PmmProg ℕ
  | [], base => pure base
  | p :: le, base => do
    let s ← Prog.get
    if base + (s.pages base).property = p then do
      Prog.modify (joinBlocks base p p)
      mergeLoop le base
    else if p + (s.pages p).property = base then do
      Prog.modify (joinBlocks p base p)
      mergeLoop le p
    else mergeLoop le base

/-- `base` is put back on the list. -/
def insertBlock (base : ℕ) : PmmProg Unit := do
  let s ← Prog.get
  match s.freeList with
  | [] => Prog.modify fun s => { s with freeList := [base] }
  | first :: le =>
    if base < first then Prog.modify fun s => { s with freeList := base :: first :: le }
    else if base > (first :: le).getLast (List.cons_ne_nil first le) then
      Prog.modify fun s => { s with freeList := first :: le ++ [base] }
    else
      match (first :: le).dropWhile fun p => p ≤ base with
      | [] => Prog.stop .failedToAdd
      | p :: after =>
        Prog.modify fun s => { s with freeList := ((first :: le).takeWhile fun p => p ≤ base) ++ base :: p :: after }

/-- Source: `kern/mm/default_pmm.c` `default_free_pages` -/
def defaultFreePages (base n : ℕ) : PmmProg Unit := do
  Prog.assert (0 < n) .freeCount
  clearPages base n
  Prog.modify fun s => s.setPage base (Page.block n)
  let s ← Prog.get
  let base ← mergeLoop s.freeList base
  insertBlock base
  Prog.modify fun s => { s with nrFree := s.nrFree + n }
  checkOrder

/-! ### Blocks -/

/-- The extents are blocks: the first page has the length, and no page has flags, but for `PG_property` of the first one. -/
structure Blocks (pages : ℕ → Page) (rs : List Extent) : Prop where
  head : ∀ r ∈ rs, (pages r.1).property = r.2
  plain : ∀ r ∈ rs, ∀ q ∈ r.pages, (pages q).reserved = false ∧ (q ≠ r.1 → (pages q).isProperty = false)

/-- The free list has these blocks, none of which touches another. -/
structure HasBlocks (s : Pmm) (rs : List Extent) : Prop where
  list : s.freeList = rs.map Prod.fst
  coalesced : Coalesced rs
  blocks : Blocks s.pages rs

variable {s s' : Pmm} {rs lo hi : List Extent} {pages pages' : ℕ → Page} {a b c l m n base : ℕ}

theorem Blocks.mono {rs' : List Extent} (h : Blocks pages rs) (hsub : ∀ r ∈ rs', r ∈ rs) : Blocks pages rs' :=
  ⟨fun r hr => h.head r (hsub r hr), fun r hr => h.plain r (hsub r hr)⟩

theorem Blocks.congr (h : Blocks pages rs) (hpos : ∀ r ∈ rs, 0 < r.2) (heq : ∀ q ∈ flat rs, pages' q = pages q) :
    Blocks pages' rs := by
  constructor
  · intro r hr
    rw [heq _ (mem_flat.mpr ⟨r, hr, Nat.le_refl _, Nat.lt_add_of_pos_right (hpos r hr)⟩)]
    exact h.head r hr
  · intro r hr q hq
    rw [heq q (mem_flat.mpr ⟨r, hr, Extent.mem_pages.mp hq⟩)]
    exact h.plain r hr q hq

theorem Blocks.append {rs' : List Extent} (h : Blocks pages rs) (h' : Blocks pages rs') : Blocks pages (rs ++ rs') := by
  constructor
  · intro r hr
    rcases List.mem_append.mp hr with hr | hr
    · exact h.head r hr
    · exact h'.head r hr
  · intro r hr
    rcases List.mem_append.mp hr with hr | hr
    · exact h.plain r hr
    · exact h'.plain r hr

theorem blocks_singleton (hb : (pages b).property = m) (hplain : ∀ q ∈ Extent.pages (b, m), (pages q).reserved = false ∧
    (q ≠ b → (pages q).isProperty = false)) : Blocks pages [(b, m)] := by
  constructor
  · intro r hr
    obtain rfl := List.mem_singleton.mp hr
    exact hb
  · intro r hr
    obtain rfl := List.mem_singleton.mp hr
    exact hplain

/-- What merging does to the pages. -/
theorem joinBlocks_pages (p q : ℕ) (hne : a ≠ c) : (joinBlocks a c p s).pages q =
    if q = c then { s.pages c with isProperty := false }
    else if q = a then { s.pages a with property := (s.pages a).property + (s.pages c).property } else s.pages q := by
  unfold joinBlocks
  dsimp only
  split_ifs with hc ha
  · rw [hc, Pmm.setPage_same, Pmm.setPage_of_ne _ _ _ hne.symm]
  · rw [ha, Pmm.setPage_of_ne _ _ _ hne, Pmm.setPage_same]
  · rw [Pmm.setPage_of_ne _ _ _ hc, Pmm.setPage_of_ne _ _ _ ha]

/-- Two blocks that touch become one. -/
theorem Blocks.join (h : Blocks s.pages (lo ++ (a, l) :: (a + l, m) :: hi)) (hsep : Sep (lo ++ (a, l) :: (a + l, m) :: hi)) (p : ℕ) :
    Blocks (joinBlocks a (a + l) p s).pages (lo ++ (a, l + m) :: hi) := by
  obtain ⟨-, hsab, hbetween⟩ := hsep.of_append
  have hl : 0 < l := hsab.pos (a, l) List.mem_cons_self
  have hm : 0 < m := hsab.cons.pos (a + l, m) List.mem_cons_self
  have hne : a ≠ a + l := Nat.ne_of_lt (Nat.lt_add_of_pos_right hl)
  have hafter : ∀ r ∈ hi, a + l + m ≤ r.1 := fun r hr => (List.pairwise_cons.mp hsab.cons.asc).1 r hr
  have hother : Blocks (joinBlocks a (a + l) p s).pages (lo ++ hi) := by
    refine (h.mono fun r hr => ?_).congr (fun r hr => hsep.pos r ?_) fun q hq => ?_
    · simp only [List.mem_append, List.mem_cons] at hr ⊢
      tauto
    · simp only [List.mem_append, List.mem_cons] at hr ⊢
      tauto
    · have hout : q < a ∨ a + l + m ≤ q := by
        obtain ⟨r, hr, hle, hlt⟩ := mem_flat.mp hq
        rcases List.mem_append.mp hr with hr | hr
        · left
          exact Nat.lt_of_lt_of_le hlt (hbetween r hr (a, l) List.mem_cons_self)
        · right
          exact Nat.le_trans (hafter r hr) hle
      rw [joinBlocks_pages _ _ hne, if_neg (by omega), if_neg (by omega)]
  have hfirst := h.head (a, l) (List.mem_append_right _ List.mem_cons_self)
  have hsecond := h.head (a + l, m) (List.mem_append_right _ (List.mem_cons_of_mem _ List.mem_cons_self))
  have hjoined : Blocks (joinBlocks a (a + l) p s).pages [(a, l + m)] := by
    apply blocks_singleton
    · rw [joinBlocks_pages _ _ hne, if_neg hne, if_pos rfl]
      dsimp only
      rw [hfirst, hsecond]
    · intro q hq
      have hplain := h.plain (a, l) (List.mem_append_right _ List.mem_cons_self) q
      have hplain' := h.plain (a + l, m) (List.mem_append_right _ (List.mem_cons_of_mem _ List.mem_cons_self)) q
      rw [Extent.mem_pages] at hq hplain hplain'
      dsimp only at hq hplain hplain'
      rw [joinBlocks_pages _ _ hne]
      split_ifs with hc ha
      · obtain ⟨hres, -⟩ := hplain' (by omega)
        rw [hc] at hres
        exact ⟨hres, fun _ => rfl⟩
      · obtain ⟨hres, -⟩ := hplain (by omega)
        rw [ha] at hres
        exact ⟨hres, fun hna => absurd ha hna⟩
      · by_cases hside : q < a + l
        · exact ⟨(hplain (by omega)).1, fun _ => (hplain (by omega)).2 ha⟩
        · exact ⟨(hplain' (by omega)).1, fun _ => (hplain' (by omega)).2 hc⟩
  refine (hother.append hjoined).mono fun r hr => ?_
  simp only [List.mem_append, List.mem_cons, List.not_mem_nil, or_false] at hr ⊢
  tauto

/-! ### The order of the list -/

theorem ordered_of_blocks (hsep : Sep rs) (h : Blocks pages rs) : Ordered pages (rs.map Prod.fst) := by
  induction rs with
  | nil => trivial
  | cons r rs ih =>
    cases rs with
    | nil => trivial
    | cons r' rs =>
      refine ⟨?_, ih hsep.cons (h.mono fun x hx => List.mem_cons_of_mem _ hx)⟩
      rw [h.head r List.mem_cons_self]
      exact (List.pairwise_cons.mp hsep.asc).1 r' List.mem_cons_self

theorem checkOrder_run (hlist : s.freeList = rs.map Prod.fst) (hsep : Sep rs) (h : Blocks s.pages rs) :
    checkOrder.run s = .ok () s := by
  unfold checkOrder
  rw [Prog.run_bind, Prog.run_get, Outcome.andThen_ok]
  refine Prog.run_assert_of _ _ ?_
  rw [hlist]
  exact ordered_of_blocks hsep h

/-! ### Merging -/

/-- The block `(b, m)` is not on the list; its place is between `lo` and `hi`. -/
structure Detached (s : Pmm) (lo : List Extent) (b m : ℕ) (hi : List Extent) : Prop where
  list : s.freeList = (lo ++ hi).map Prod.fst
  sep : Sep (lo ++ (b, m) :: hi)
  blocks : Blocks s.pages (lo ++ (b, m) :: hi)

/-- The counter and the pages outside of `l` are the same. -/
structure Kept (l : List ℕ) (s s' : Pmm) : Prop where
  count : s'.nrFree = s.nrFree
  pages : ∀ q, q ∉ l → s'.pages q = s.pages q

theorem Kept.refl (l : List ℕ) (s : Pmm) : Kept l s s := ⟨rfl, fun _ _ => rfl⟩

theorem joinBlocks_kept {l : List ℕ} {p : ℕ} (hne : a ≠ c) (ha : a ∈ l) (hc : c ∈ l) : Kept l s (joinBlocks a c p s) := by
  refine ⟨rfl, fun q hq => ?_⟩
  have hqc : q ≠ c := fun heq => hq (by rwa [heq])
  have hqa : q ≠ a := fun heq => hq (by rwa [heq])
  rw [joinBlocks_pages _ _ hne, if_neg hqc, if_neg hqa]

theorem mergeLoop_append (l₁ l₂ : List ℕ) (base : ℕ) (s : Pmm) :
    (mergeLoop (l₁ ++ l₂) base).run s = ((mergeLoop l₁ base).run s).andThen (mergeLoop l₂) := by
  induction l₁ generalizing base s with
  | nil => rfl
  | cons p l₁ ih =>
    rw [List.cons_append, mergeLoop, mergeLoop, Prog.run_bind, Prog.run_bind, Prog.run_get, Outcome.andThen_ok, Outcome.andThen_ok]
    split_ifs
    · rw [Prog.bind_of_ok (Prog.run_modify ..), Prog.bind_of_ok (Prog.run_modify ..), ih]
    · rw [Prog.bind_of_ok (Prog.run_modify ..), Prog.bind_of_ok (Prog.run_modify ..), ih]
    · rw [ih]

/-- Blocks that do not touch `base` are passed. -/
theorem mergeLoop_skip (hhead : ∀ r ∈ rs, (s.pages r.1).property = r.2)
    (hfar : ∀ r ∈ rs, base + (s.pages base).property ≠ r.1 ∧ r.1 + r.2 ≠ base) :
    (mergeLoop (rs.map Prod.fst) base).run s = .ok base s := by
  induction rs with
  | nil => rfl
  | cons r rs ih =>
    obtain ⟨hup, hdown⟩ := hfar r List.mem_cons_self
    rw [← hhead r List.mem_cons_self] at hdown
    rw [List.map_cons, mergeLoop, Prog.run_bind, Prog.run_get, Outcome.andThen_ok, if_neg hup, if_neg hdown]
    exact ih (fun x hx => hhead x (List.mem_cons_of_mem _ hx)) fun x hx => hfar x (List.mem_cons_of_mem _ hx)

theorem erase_start (h : Sep (lo ++ (b, m) :: hi)) : ((lo ++ (b, m) :: hi).map Prod.fst).erase b = (lo ++ hi).map Prod.fst := by
  obtain ⟨hslo, hs, hbetween⟩ := h.of_append
  have hnot : b ∉ lo.map Prod.fst := by
    intro hmem
    obtain ⟨r, hr, heq⟩ := List.mem_map.mp hmem
    have hpos := hslo.pos r hr
    have hle := hbetween r hr (b, m) List.mem_cons_self
    omega
  rw [List.map_append, List.erase_append_right _ hnot, List.map_cons, List.erase_cons_head, List.map_append]

/-- The blocks below: the last of them may end where the block starts. -/
theorem Detached.mergeLower (h : Detached s lo b m hi) (hco : Coalesced lo) :
    ∃ s' lo' b' m', (mergeLoop (lo.map Prod.fst) b).run s = .ok b' s' ∧ Detached s' lo' b' m' hi ∧
      Coalesced (lo' ++ [(b', m')]) ∧ flat lo' ++ Extent.pages (b', m') = flat lo ++ Extent.pages (b, m) ∧
      Kept (flat (lo ++ (b, m) :: hi)) s s' := by
  obtain ⟨hslo, hsb, hbetween⟩ := h.sep.of_append
  have hm : 0 < m := hsb.pos (b, m) List.mem_cons_self
  have hprop : (s.pages b).property = m := h.blocks.head (b, m) (List.mem_append_right _ List.mem_cons_self)
  have hhead : ∀ r ∈ lo, (s.pages r.1).property = r.2 := fun r hr => h.blocks.head r (List.mem_append_left _ hr)
  by_cases htouch : ∃ r ∈ lo, r.1 + r.2 = b
  · obtain ⟨⟨a, l⟩, hr, hend⟩ := htouch
    obtain ⟨lo', rest, rfl⟩ := List.append_of_mem hr
    -- nothing is between the block below and this one
    obtain ⟨hco', hcoa, hgap⟩ := hco.of_append
    have hrest : rest = [] := by
      cases rest with
      | nil => rfl
      | cons x rest =>
        have hgt := (List.pairwise_cons.mp hcoa.gap).1 x List.mem_cons_self
        have hpos := hslo.pos x (List.mem_append_right _ (List.mem_cons_of_mem _ List.mem_cons_self))
        have hle := hbetween x (List.mem_append_right _ (List.mem_cons_of_mem _ List.mem_cons_self)) (b, m) List.mem_cons_self
        dsimp only at hgt hend hle
        omega
    subst hrest
    dsimp only at hend
    subst hend
    have hsep := h.sep
    have hblocks := h.blocks
    rw [List.append_assoc, List.singleton_append] at hsep hblocks
    have hl : 0 < l := hslo.pos (a, l) (List.mem_append_right _ List.mem_cons_self)
    have hprop' : (s.pages a).property = l := hhead (a, l) (List.mem_append_right _ List.mem_cons_self)
    have hskip : (mergeLoop (lo'.map Prod.fst) (a + l)).run s = .ok (a + l) s := by
      refine mergeLoop_skip (fun r hr => hhead r (List.mem_append_left _ hr)) fun r hr => ?_
      have hgt := hgap r hr (a, l) List.mem_cons_self
      have hpos := hco'.pos r hr
      dsimp only at hgt
      rw [hprop]
      omega
    have hrun : (mergeLoop [a] (a + l)).run s = .ok a (joinBlocks a (a + l) a s) := by
      have hnot : ¬ a + l + (s.pages (a + l)).property = a := by omega
      have hyes : a + (s.pages a).property = a + l := by rw [hprop']
      rw [mergeLoop, Prog.run_bind, Prog.run_get, Outcome.andThen_ok, if_neg hnot, if_pos hyes, Prog.bind_of_ok (Prog.run_modify ..)]
      rfl
    have hsep' : Sep (lo' ++ (a, l) :: hi) := by
      refine hsep.sublist (List.Sublist.append_left ?_ lo')
      exact List.Sublist.cons_cons _ (List.sublist_cons_self _ _)
    refine ⟨joinBlocks a (a + l) a s, lo', a, l + m, ?_, ⟨?_, hsep.join, hblocks.join hsep a⟩, ?_, ?_, ?_⟩
    · rw [List.map_append, mergeLoop_append, hskip, Outcome.andThen_ok]
      exact hrun
    · have hlist := h.list
      rw [List.append_assoc, List.singleton_append] at hlist
      show s.freeList.erase a = _
      rw [hlist, erase_start hsep']
    · refine hco'.append (.of_gap (fun r hr => ?_) (List.pairwise_singleton ..)) fun r hr r' hr' => ?_
      · obtain rfl := List.mem_singleton.mp hr
        exact Nat.add_pos_left hl m
      · obtain rfl := List.mem_singleton.mp hr'
        exact hgap r hr (a, l) List.mem_cons_self
    · rw [Extent.pages_split a (l + m) l (Nat.le_add_right l m), Nat.add_sub_cancel_left, flat_append, flat_cons, flat_nil,
        List.append_nil, List.append_assoc]
    · refine joinBlocks_kept (Nat.ne_of_lt (Nat.lt_add_of_pos_right hl)) ?_ ?_
      · refine mem_flat.mpr ⟨(a, l), ?_, Nat.le_refl _, Nat.lt_add_of_pos_right hl⟩
        exact List.mem_append_left _ (List.mem_append_right _ List.mem_cons_self)
      · refine mem_flat.mpr ⟨(a + l, m), ?_, Nat.le_refl _, Nat.lt_add_of_pos_right hm⟩
        exact List.mem_append_right _ List.mem_cons_self
  · refine ⟨s, lo, b, m, mergeLoop_skip hhead fun r hr => ⟨?_, fun heq => htouch ⟨r, hr, heq⟩⟩, h, ?_, rfl, Kept.refl _ _⟩
    · have hle := hbetween r hr (b, m) List.mem_cons_self
      have hpos := hslo.pos r hr
      rw [hprop]
      omega
    · refine hco.append (.of_gap (fun r hr => ?_) (List.pairwise_singleton ..)) fun r hr r' hr' => ?_
      · obtain rfl := List.mem_singleton.mp hr
        exact hm
      · obtain rfl := List.mem_singleton.mp hr'
        exact Nat.lt_of_le_of_ne (hbetween r hr (b, m) List.mem_cons_self) fun heq => htouch ⟨r, hr, heq⟩

/-- The blocks above: the first of them may start where the block ends. -/
theorem Detached.mergeUpper (h : Detached s lo b m hi) (hco : Coalesced hi) :
    ∃ s' m' hi', (mergeLoop (hi.map Prod.fst) b).run s = .ok b s' ∧ Detached s' lo b m' hi' ∧ Coalesced ((b, m') :: hi') ∧
      Extent.pages (b, m') ++ flat hi' = Extent.pages (b, m) ++ flat hi ∧ Kept (flat (lo ++ (b, m) :: hi)) s s' := by
  obtain ⟨-, hsb, -⟩ := h.sep.of_append
  have hm : 0 < m := hsb.pos (b, m) List.mem_cons_self
  have hprop : (s.pages b).property = m := h.blocks.head (b, m) (List.mem_append_right _ List.mem_cons_self)
  have hhead : ∀ r ∈ hi, (s.pages r.1).property = r.2 := fun r hr =>
    h.blocks.head r (List.mem_append_right _ (List.mem_cons_of_mem _ hr))
  have hafter : ∀ r ∈ hi, b + m ≤ r.1 := fun r hr => (List.pairwise_cons.mp hsb.asc).1 r hr
  by_cases htouch : ∃ k hi', hi = (b + m, k) :: hi'
  · obtain ⟨k, hi', rfl⟩ := htouch
    have hk : 0 < k := hco.pos (b + m, k) List.mem_cons_self
    have hgap := (List.pairwise_cons.mp hco.gap).1
    have hne : b ≠ b + m := Nat.ne_of_lt (Nat.lt_add_of_pos_right hm)
    have hblocks := h.blocks.join h.sep (b + m)
    have hlist : (joinBlocks b (b + m) (b + m) s).freeList = (lo ++ hi').map Prod.fst := by
      show s.freeList.erase (b + m) = _
      rw [h.list, erase_start]
      exact h.sep.sublist (List.Sublist.append_left (List.sublist_cons_self _ _) lo)
    have hskip : (mergeLoop (hi'.map Prod.fst) b).run (joinBlocks b (b + m) (b + m) s) = .ok b (joinBlocks b (b + m) (b + m) s) := by
      refine mergeLoop_skip (fun r hr => ?_) fun r hr => ?_
      · exact hblocks.head r (List.mem_append_right _ (List.mem_cons_of_mem _ hr))
      · have hgt := hgap r hr
        have hjoined := hblocks.head (b, m + k) (List.mem_append_right _ List.mem_cons_self)
        dsimp only at hgt hjoined
        rw [hjoined]
        omega
    refine ⟨joinBlocks b (b + m) (b + m) s, m + k, hi', ?_, ⟨hlist, h.sep.join, hblocks⟩, ?_, ?_, ?_⟩
    · have hyes : b + (s.pages b).property = b + m := by rw [hprop]
      rw [List.map_cons, mergeLoop, Prog.run_bind, Prog.run_get, Outcome.andThen_ok, if_pos hyes, Prog.bind_of_ok (Prog.run_modify ..)]
      exact hskip
    · refine Coalesced.cons (.of_gap (fun r hr => hco.pos r (List.mem_cons_of_mem _ hr)) (List.pairwise_cons.mp hco.gap).2)
        (Nat.add_pos_left hm k) fun r hr => ?_
      have hgt := hgap r hr
      dsimp only at hgt ⊢
      omega
    · rw [Extent.pages_split b (m + k) m (Nat.le_add_right m k), Nat.add_sub_cancel_left, flat_cons, List.append_assoc]
    · refine joinBlocks_kept hne ?_ ?_
      · exact mem_flat.mpr ⟨(b, m), List.mem_append_right _ List.mem_cons_self, Nat.le_refl _, Nat.lt_add_of_pos_right hm⟩
      · refine mem_flat.mpr ⟨(b + m, k), ?_, Nat.le_refl _, Nat.lt_add_of_pos_right hk⟩
        exact List.mem_append_right _ (List.mem_cons_of_mem _ List.mem_cons_self)
  · -- the first block above does not touch, and the others are further away
    have hfar : ∀ r ∈ hi, b + m < r.1 := by
      intro r hr
      refine Nat.lt_of_le_of_ne (hafter r hr) fun heq => ?_
      cases hi with
      | nil => cases hr
      | cons x hi =>
        rcases List.mem_cons.mp hr with rfl | hr
        · exact htouch ⟨r.2, hi, by rw [heq]⟩
        · have hgt := (List.pairwise_cons.mp hco.gap).1 r hr
          have hle := hafter x List.mem_cons_self
          omega
    refine ⟨s, m, hi, mergeLoop_skip hhead fun r hr => ?_, h, hco.cons hm hfar, rfl, Kept.refl _ _⟩
    have hgt := hfar r hr
    rw [hprop]
    omega

/-- A node goes back between those below and those above it. -/
theorem insertBlock_run {L H : List ℕ} (hlist : s.freeList = L ++ H) (hbelow : ∀ p ∈ L, p < b) (habove : ∀ p ∈ H, b < p) :
    (insertBlock b).run s = .ok () { s with freeList := L ++ b :: H } := by
  unfold insertBlock
  rw [Prog.run_bind, Prog.run_get, Outcome.andThen_ok, hlist]
  cases L with
  | nil =>
    cases H with
    | nil => rfl
    | cons p H =>
      dsimp only [List.nil_append]
      rw [if_pos (habove p List.mem_cons_self)]
      rfl
  | cons first L =>
    have hfirst : ¬ b < first := Nat.not_lt.mpr (hbelow first List.mem_cons_self).le
    dsimp only [List.cons_append]
    rw [if_neg hfirst]
    cases H with
    | nil =>
      have hlast : b > (first :: (L ++ [])).getLast (List.cons_ne_nil _ _) := by
        apply hbelow
        have hmem := List.getLast_mem (List.cons_ne_nil first (L ++ []))
        have hnil : first :: (L ++ []) = first :: L := by rw [List.append_nil]
        exact hnil ▸ hmem
      rw [if_pos hlast, List.append_nil]
      rfl
    | cons p H =>
      have hlast : ¬ b > (first :: (L ++ p :: H)).getLast (List.cons_ne_nil _ _) := by
        have heq : ((first :: L) ++ p :: H).getLast (List.cons_ne_nil _ _) = (p :: H).getLast (List.cons_ne_nil p H) :=
          List.getLast_append_of_ne_nil _ _
        have hgt : b < ((first :: L) ++ p :: H).getLast (List.cons_ne_nil _ _) := by
          rw [heq]
          exact habove _ (List.getLast_mem (List.cons_ne_nil p H))
        exact Nat.not_lt.mpr hgt.le
      obtain ⟨htake, hdrop⟩ := takeWhile_dropWhile_append (fun q => decide (q ≤ b)) (first :: L) (p :: H)
        (fun q hq => decide_eq_true (hbelow q hq).le)
        (fun q hq => decide_eq_false (Nat.not_le.mpr (habove q (List.mem_of_head? hq))))
      rw [List.cons_append] at htake hdrop
      rw [if_neg hlast, hdrop, htake]
      rfl

/-- The block goes back to its place. -/
theorem Detached.insertBlock (h : Detached s lo b m hi) :
    (insertBlock b).run s = .ok () { s with freeList := (lo ++ (b, m) :: hi).map Prod.fst } := by
  obtain ⟨hslo, hsb, hbetween⟩ := h.sep.of_append
  have hm : 0 < m := hsb.pos (b, m) List.mem_cons_self
  have hbelow : ∀ p ∈ lo.map Prod.fst, p < b := by
    intro p hp
    obtain ⟨r, hr, rfl⟩ := List.mem_map.mp hp
    have hpos := hslo.pos r hr
    have hle := hbetween r hr (b, m) List.mem_cons_self
    omega
  have habove : ∀ p ∈ hi.map Prod.fst, b < p := by
    intro p hp
    obtain ⟨r, hr, rfl⟩ := List.mem_map.mp hp
    have hle := (List.pairwise_cons.mp hsb.asc).1 r hr
    dsimp only at hle
    omega
  have hlist : s.freeList = lo.map Prod.fst ++ hi.map Prod.fst := by rw [h.list, List.map_append]
  rw [List.map_append, List.map_cons]
  exact insertBlock_run hlist hbelow habove

/-! ### What the operations do to the blocks -/

/-- The first page, and then the others. -/
theorem onPages_setPage (f : Page → Page) (p n : ℕ) (s : Pmm) :
    onPages f (p + 1) n (s.setPage p f).pages = onPages f p (n + 1) s.pages := by
  funext q
  have hmem : q ∈ Extent.pages (p, n + 1) ↔ q = p ∨ q ∈ Extent.pages (p + 1, n) := by rw [Extent.pages_succ, List.mem_cons]
  unfold onPages
  by_cases hq : q = p
  · have hnot : q ∉ Extent.pages (p + 1, n) := by
      rw [Extent.mem_pages]
      dsimp only
      omega
    rw [if_neg hnot, if_pos (hmem.mpr (Or.inl hq)), hq, Pmm.setPage_same]
  · rw [Pmm.setPage_of_ne _ _ _ hq]
    exact if_congr (hmem.trans (or_iff_right hq)).symm rfl rfl

theorem onPages_zero (f : Page → Page) (p : ℕ) (s : Pmm) : onPages f p 0 s.pages = s.pages :=
  funext fun _ => if_neg List.not_mem_nil

theorem clearPages_run (h : ∀ q ∈ Extent.pages (base, n), (s.pages q).reserved = false ∧ (s.pages q).isProperty = false) :
    (clearPages base n).run s = .ok () { s with pages := onPages Page.clear base n s.pages } := by
  induction n generalizing base s with
  | zero =>
    rw [onPages_zero]
    rfl
  | succ n ih =>
    rw [Extent.pages_succ] at h
    have hfirst := h base List.mem_cons_self
    have hrest : ∀ q ∈ Extent.pages (base + 1, n), ((s.setPage base Page.clear).pages q).reserved = false ∧
        ((s.setPage base Page.clear).pages q).isProperty = false := by
      intro q hq
      have hne : q ≠ base := Nat.ne_of_gt (Extent.mem_pages.mp hq).1
      rw [Pmm.setPage_of_ne _ _ _ hne]
      exact h q (List.mem_cons_of_mem _ hq)
    rw [clearPages, Prog.run_bind, Prog.run_get, Outcome.andThen_ok, Prog.bind_of_ok (Prog.run_assert_of _ _ hfirst),
      Prog.bind_of_ok (Prog.run_modify ..), ih hrest, onPages_setPage]
    rfl

theorem initPages_run (h : ∀ q ∈ Extent.pages (base, n), (s.pages q).reserved = true) :
    (initPages base n).run s = .ok () { s with pages := onPages Page.init base n s.pages } := by
  induction n generalizing base s with
  | zero =>
    rw [onPages_zero]
    rfl
  | succ n ih =>
    rw [Extent.pages_succ] at h
    have hfirst := h base List.mem_cons_self
    have hrest : ∀ q ∈ Extent.pages (base + 1, n), ((s.setPage base Page.init).pages q).reserved = true := by
      intro q hq
      have hne : q ≠ base := Nat.ne_of_gt (Extent.mem_pages.mp hq).1
      rw [Pmm.setPage_of_ne _ _ _ hne]
      exact h q (List.mem_cons_of_mem _ hq)
    rw [initPages, Prog.run_bind, Prog.run_get, Outcome.andThen_ok, Prog.bind_of_ok (Prog.run_assert_of _ _ hfirst),
      Prog.bind_of_ok (Prog.run_modify ..), ih hrest, onPages_setPage]
    rfl

/-- `default_free_pages` of a block between `lo` and `hi`. -/
theorem defaultFreePages_run (h : HasBlocks s (lo ++ hi)) (hn : 0 < n) (hlo : ∀ r ∈ lo, r.1 + r.2 ≤ base)
    (hhi : ∀ r ∈ hi, base + n ≤ r.1)
    (hflags : ∀ q ∈ Extent.pages (base, n), (s.pages q).reserved = false ∧ (s.pages q).isProperty = false) :
    ∃ s' rs, (defaultFreePages base n).run s = .ok () s' ∧ HasBlocks s' rs ∧
      flat rs = flat lo ++ (Extent.pages (base, n) ++ flat hi) ∧ s'.nrFree = s.nrFree + n ∧
      ∀ q, q ∉ flat rs → s'.pages q = s.pages q := by
  obtain ⟨hcolo, hcohi, hbetween⟩ := h.coalesced.of_append
  have hsep : Sep (lo ++ (base, n) :: hi) := by
    refine hcolo.toSep.append ⟨fun r hr => ?_, List.pairwise_cons.mpr ⟨hhi, hcohi.asc⟩⟩ fun r hr r' hr' => ?_
    · rcases List.mem_cons.mp hr with rfl | hr
      · exact hn
      · exact hcohi.pos r hr
    · rcases List.mem_cons.mp hr' with rfl | hr'
      · exact hlo r hr
      · exact (hbetween r hr r' hr').le
  set s₁ : Pmm := { s with pages := onPages Page.clear base n s.pages } with hs₁
  set s₂ : Pmm := s₁.setPage base (Page.block n) with hs₂
  have hout : ∀ q, q ∉ Extent.pages (base, n) → s₂.pages q = s.pages q := by
    intro q hq
    have hne : q ≠ base := fun heq => hq (heq ▸ Extent.mem_pages.mpr ⟨Nat.le_refl _, Nat.lt_add_of_pos_right hn⟩)
    rw [hs₂, Pmm.setPage_of_ne _ _ _ hne]
    exact if_neg hq
  have hblock : Blocks s₂.pages [(base, n)] := by
    apply blocks_singleton
    · rw [hs₂, Pmm.setPage_same]
      rfl
    · intro q hq
      by_cases heq : q = base
      · rw [heq, hs₂, Pmm.setPage_same]
        refine ⟨?_, fun hne => absurd rfl hne⟩
        show (onPages Page.clear base n s.pages base).reserved = false
        unfold onPages
        rw [if_pos (heq ▸ hq)]
        rfl
      · rw [hs₂, Pmm.setPage_of_ne _ _ _ heq]
        show (onPages Page.clear base n s.pages q).reserved = false ∧ (_ → (onPages Page.clear base n s.pages q).isProperty = false)
        unfold onPages
        rw [if_pos hq]
        exact ⟨rfl, fun _ => rfl⟩
  have hothers : Blocks s₂.pages (lo ++ hi) := by
    refine h.blocks.congr h.coalesced.pos fun q hq => hout q fun hmem => ?_
    rw [Extent.mem_pages] at hmem
    dsimp only at hmem
    obtain ⟨r, hr, hle, hlt⟩ := mem_flat.mp hq
    rcases List.mem_append.mp hr with hr | hr
    · have := hlo r hr
      omega
    · have := hhi r hr
      omega
  have hdetached : Detached s₂ lo base n hi := by
    refine ⟨h.list, hsep, (hothers.append hblock).mono fun r hr => ?_⟩
    simp only [List.mem_append, List.mem_cons, List.not_mem_nil, or_false] at hr ⊢
    tauto
  -- first the blocks below, then those above
  obtain ⟨s₃, lo', b', m', hrun₃, hdet₃, hco₃, hflat₃, hkept₃⟩ := hdetached.mergeLower hcolo
  obtain ⟨s₄, m'', hi', hrun₄, hdet₄, hco₄, hflat₄, hkept₄⟩ := hdet₃.mergeUpper hcohi
  have hflat : flat (lo' ++ (b', m'') :: hi') = flat lo ++ (Extent.pages (base, n) ++ flat hi) := by
    rw [flat_append, flat_cons, hflat₄, ← List.append_assoc, hflat₃, List.append_assoc]
  have hflat' : flat (lo' ++ (b', m') :: hi) = flat lo ++ (Extent.pages (base, n) ++ flat hi) := by
    rw [flat_append, flat_cons, ← List.append_assoc, hflat₃, List.append_assoc]
  have hco : Coalesced (lo' ++ (b', m'') :: hi') := by
    obtain ⟨hco', -, hgap⟩ := hco₃.of_append
    refine hco'.append hco₄ fun r hr r' hr' => ?_
    have hlt := hgap r hr (b', m') List.mem_cons_self
    rcases List.mem_cons.mp hr' with rfl | hr'
    · exact hlt
    · have hgt := (List.pairwise_cons.mp hco₄.gap).1 r' hr'
      dsimp only at hlt hgt
      omega
  set s₅ : Pmm := { s₄ with freeList := (lo' ++ (b', m'') :: hi').map Prod.fst, nrFree := s₄.nrFree + n } with hs₅
  have hblocks₅ : HasBlocks s₅ (lo' ++ (b', m'') :: hi') := ⟨rfl, hco, hdet₄.blocks⟩
  refine ⟨s₅, lo' ++ (b', m'') :: hi', ?_, hblocks₅, hflat, ?_, fun q hq => ?_⟩
  · have hmerge : (mergeLoop s₂.freeList base).run s₂ = .ok b' s₄ := by
      rw [hdetached.list, List.map_append, mergeLoop_append, hrun₃]
      exact hrun₄
    unfold defaultFreePages
    rw [Prog.bind_of_ok (Prog.run_assert_of _ _ hn), Prog.bind_of_ok (clearPages_run hflags), Prog.bind_of_ok (Prog.run_modify ..),
      Prog.run_bind, Prog.run_get, Outcome.andThen_ok, Prog.bind_of_ok hmerge, Prog.bind_of_ok hdet₄.insertBlock,
      Prog.bind_of_ok (Prog.run_modify ..)]
    exact checkOrder_run hblocks₅.list hco.toSep hblocks₅.blocks
  · show s₄.nrFree + n = _
    rw [hkept₄.count, hkept₃.count]
    rfl
  · rw [hflat] at hq
    have hbase : q ∉ Extent.pages (base, n) := fun hmem => hq (List.mem_append_right _ (List.mem_append_left _ hmem))
    show s₄.pages q = _
    rw [hkept₄.pages q (by rwa [hflat']), hkept₃.pages q (by rwa [flat_append, flat_cons]), hout q hbase]

/-- `default_alloc_pages` returns NULL when no block is long enough. -/
theorem defaultAllocPages_none (h : HasBlocks s rs) (hn : 0 < n) (hlt : ∀ r ∈ rs, r.2 < n) :
    (defaultAllocPages n).run s = .ok none s := by
  have hdrop : (s.freeList.dropWhile fun p => (s.pages p).property < n) = [] := by
    rw [List.dropWhile_eq_nil_iff, h.list]
    intro p hp
    obtain ⟨r, hr, rfl⟩ := List.mem_map.mp hp
    rw [decide_eq_true_iff, h.blocks.head r hr]
    exact hlt r hr
  unfold defaultAllocPages
  rw [Prog.bind_of_ok (Prog.run_assert_of _ _ hn), Prog.run_bind, Prog.run_get, Outcome.andThen_ok]
  split_ifs
  · rfl
  · rw [hdrop]
    dsimp only
    rw [Prog.bind_of_ok (checkOrder_run h.list h.coalesced.toSep h.blocks)]
    rfl

/-- The pages after a block has been taken from the start of the block `a`, of length `m`. -/
def takenPages (a m n : ℕ) (pages : ℕ → Page) (q : ℕ) : Page :=
  if q = a then { pages a with isProperty := false }
  else if n < m ∧ q = a + n then Page.block (m - n) (pages q) else pages q

theorem takenPages_of_ne {q : ℕ} (hqa : q ≠ a) (hqn : q ≠ a + n) : takenPages a m n pages q = pages q := by
  unfold takenPages
  rw [if_neg hqa, if_neg fun hand => hqn hand.2]

/-- The allocator after a block has been taken. -/
def takenState (a m n : ℕ) (before le : List ℕ) (s : Pmm) : Pmm where
  pages := takenPages a m n s.pages
  freeList := before ++ if n < m then (a + n) :: le else le
  nrFree := s.nrFree - n

theorem takeBlock_eq {before le : List ℕ} (hn : 0 < n) (ha : (s.pages a).property = m) :
    ({ takeBlock n before a le s with nrFree := (takeBlock n before a le s).nrFree - n } : Pmm).setPage a
      (fun pg => { pg with isProperty := false }) = takenState a m n before le s := by
  have hne : a + n ≠ a := Nat.ne_of_gt (Nat.lt_add_of_pos_right hn)
  unfold takeBlock takenState Pmm.setPage
  rw [ha]
  by_cases hlt : n < m
  · rw [if_pos hlt, if_pos hlt]
    dsimp only
    congr 1
    funext q
    unfold takenPages
    by_cases hqa : q = a
    · rw [hqa, if_pos rfl, Function.update_self, Function.update_of_ne hne.symm]
    · rw [if_neg hqa, Function.update_of_ne hqa]
      by_cases hqn : q = a + n
      · rw [if_pos ⟨hlt, hqn⟩, hqn, Function.update_self]
      · rw [if_neg fun hand => hqn hand.2, Function.update_of_ne hqn]
  · rw [if_neg hlt, if_neg hlt]
    dsimp only
    congr 1
    funext q
    unfold takenPages
    by_cases hqa : q = a
    · rw [hqa, if_pos rfl, Function.update_self]
    · rw [if_neg hqa, Function.update_of_ne hqa, if_neg fun hand => hlt hand.1]

/-- What the code does with a block that is long enough. -/
theorem defaultAllocPages_found {before le : List ℕ} (hn : 0 < n) (hle : n ≤ s.nrFree) (hlist : s.freeList = before ++ a :: le)
    (hbefore : ∀ p ∈ before, (s.pages p).property < n) (ha : (s.pages a).property = m) (hm : n ≤ m) :
    (defaultAllocPages n).run s =
      ((checkOrder.run (takenState a m n before le s)).andThen fun _ => pure (some a)) := by
  obtain ⟨htake, hdrop⟩ := takeWhile_dropWhile_append (fun p => decide ((s.pages p).property < n)) before (a :: le)
    (fun p hp => decide_eq_true (hbefore p hp)) (fun p hp => by
      obtain rfl := Option.some.inj hp
      rw [decide_eq_false_iff_not, ha]
      exact Nat.not_lt.mpr hm)
  rw [← hlist] at htake hdrop
  unfold defaultAllocPages
  rw [Prog.bind_of_ok (Prog.run_assert_of _ _ hn), Prog.run_bind, Prog.run_get, Outcome.andThen_ok, if_neg (Nat.not_lt.mpr hle),
    hdrop, htake]
  dsimp only
  rw [Prog.bind_of_ok (Prog.run_modify ..), Prog.bind_of_ok (Prog.run_modify ..), Prog.bind_of_ok (Prog.run_modify ..),
    takeBlock_eq hn ha]
  rfl

/-- The blocks after a block has been taken. -/
theorem takenState_blocks {pre post : List Extent} (h : HasBlocks s (pre ++ (a, m) :: post)) (hn : 0 < n) (hm : n ≤ m) :
    HasBlocks (takenState a m n (pre.map Prod.fst) (post.map Prod.fst) s) (pre ++ (restRun a m n ++ post)) := by
  have hco := coalesced_restRun h.coalesced n
  have hfirst := h.blocks.head (a, m) (List.mem_append_right _ List.mem_cons_self)
  have hplain := h.blocks.plain (a, m) (List.mem_append_right _ List.mem_cons_self)
  obtain ⟨-, hrest, hgap⟩ := h.coalesced.of_append
  have hafter := (List.pairwise_cons.mp hrest.gap).1
  refine ⟨?_, hco, ?_⟩
  · unfold takenState restRun
    dsimp only
    split_ifs with hlt
    · rw [List.map_append, List.map_append]
      rfl
    · rw [List.map_append, List.map_append]
      rfl
  · have hother : Blocks (takenPages a m n s.pages) (pre ++ post) := by
      refine (h.blocks.mono fun r hr => ?_).congr (fun r hr => h.coalesced.pos r ?_) fun q hq => ?_
      · simp only [List.mem_append, List.mem_cons] at hr ⊢
        tauto
      · simp only [List.mem_append, List.mem_cons] at hr ⊢
        tauto
      · obtain ⟨r, hr, hle, hlt⟩ := mem_flat.mp hq
        rcases List.mem_append.mp hr with hr | hr
        · have := hgap r hr (a, m) List.mem_cons_self
          exact takenPages_of_ne (by omega) (by omega)
        · have := hafter r hr
          exact takenPages_of_ne (by omega) (by omega)
    have hleft : Blocks (takenPages a m n s.pages) (restRun a m n) := by
      unfold restRun
      split_ifs with hlt
      · have hne : a + n ≠ a := Nat.ne_of_gt (Nat.lt_add_of_pos_right hn)
        have hnew : takenPages a m n s.pages (a + n) = Page.block (m - n) (s.pages (a + n)) := by
          unfold takenPages
          rw [if_neg hne, if_pos ⟨hlt, rfl⟩]
        apply blocks_singleton
        · rw [hnew]
          rfl
        · intro q hq
          rw [Extent.mem_pages] at hq
          dsimp only at hq
          obtain ⟨hres, hprop⟩ := hplain q (Extent.mem_pages.mpr ⟨by omega, by omega⟩)
          by_cases hqn : q = a + n
          · rw [hqn] at hres ⊢
            rw [hnew]
            exact ⟨hres, fun hno => absurd rfl hno⟩
          · rw [takenPages_of_ne (by omega) hqn]
            exact ⟨hres, fun _ => hprop (by omega)⟩
      · exact ⟨fun r hr => absurd hr List.not_mem_nil, fun r hr => absurd hr List.not_mem_nil⟩
    refine (hother.append hleft).mono fun r hr => ?_
    simp only [List.mem_append] at hr ⊢
    tauto

/-- `default_alloc_pages` takes the first `n` pages of the first block that is long enough. -/
theorem defaultAllocPages_some {pre post : List Extent} (h : HasBlocks s (pre ++ (a, m) :: post)) (hle : n ≤ s.nrFree) (hn : 0 < n)
    (hpre : ∀ r ∈ pre, r.2 < n) (hm : n ≤ m) :
    ∃ s', (defaultAllocPages n).run s = .ok (some a) s' ∧ HasBlocks s' (pre ++ (restRun a m n ++ post)) ∧
      s'.nrFree = s.nrFree - n ∧
      (∀ q ∈ Extent.pages (a, n), (s'.pages q).reserved = false ∧ (s'.pages q).isProperty = false) ∧
      ∀ q, q ∉ Extent.pages (a, m) → s'.pages q = s.pages q := by
  have hblocks := takenState_blocks h hn hm
  have hlist : s.freeList = pre.map Prod.fst ++ a :: post.map Prod.fst := by
    rw [h.list, List.map_append, List.map_cons]
  refine ⟨takenState a m n (pre.map Prod.fst) (post.map Prod.fst) s, ?_, hblocks, rfl, fun q hq => ?_, fun q hq => ?_⟩
  · rw [defaultAllocPages_found hn hle hlist (fun p hp => ?_) (h.blocks.head (a, m) (List.mem_append_right _ List.mem_cons_self)) hm,
      checkOrder_run hblocks.list hblocks.coalesced.toSep hblocks.blocks]
    · rfl
    · obtain ⟨r, hr, rfl⟩ := List.mem_map.mp hp
      rw [h.blocks.head r (List.mem_append_left _ hr)]
      exact hpre r hr
  · rw [Extent.mem_pages] at hq
    dsimp only at hq
    have hplain := h.blocks.plain (a, m) (List.mem_append_right _ List.mem_cons_self) q (Extent.mem_pages.mpr ⟨hq.1, by omega⟩)
    show (takenPages a m n s.pages q).reserved = false ∧ (takenPages a m n s.pages q).isProperty = false
    by_cases hqa : q = a
    · rw [hqa] at hplain ⊢
      unfold takenPages
      rw [if_pos rfl]
      exact ⟨hplain.1, rfl⟩
    · rw [takenPages_of_ne hqa (by omega)]
      exact ⟨hplain.1, hplain.2 hqa⟩
  · rw [Extent.mem_pages] at hq
    dsimp only at hq
    have hqa : q ≠ a := by omega
    show takenPages a m n s.pages q = s.pages q
    unfold takenPages
    rw [if_neg hqa, if_neg fun hand => by omega]

/-- `default_init_memmap` puts the block at the front of the list, which is where it belongs only if the list is empty. -/
theorem defaultInitMemmap_run (hn : 0 < n) (hres : ∀ q ∈ Extent.pages (base, n), (s.pages q).reserved = true)
    (hempty : s.freeList = []) :
    ∃ s', (defaultInitMemmap base n).run s = .ok () s' ∧ HasBlocks s' [(base, n)] ∧ s'.nrFree = s.nrFree + n ∧
      ∀ q, q ∉ Extent.pages (base, n) → s'.pages q = s.pages q := by
  set s' : Pmm := { (({ s with pages := onPages Page.init base n s.pages } : Pmm).setPage base (Page.block n)) with
    nrFree := s.nrFree + n, freeList := base :: s.freeList } with hs'
  have hpage : ∀ q, s'.pages q = if q = base then Page.block n (onPages Page.init base n s.pages base)
      else onPages Page.init base n s.pages q := fun q => Function.update_apply ..
  have hmem : base ∈ Extent.pages (base, n) := Extent.mem_pages.mpr ⟨Nat.le_refl _, Nat.lt_add_of_pos_right hn⟩
  have hblocks : HasBlocks s' [(base, n)] := by
    refine ⟨?_, .of_gap (fun r hr => ?_) (List.pairwise_singleton ..), blocks_singleton ?_ fun q hq => ?_⟩
    · show base :: s.freeList = _
      rw [hempty]
      rfl
    · obtain rfl := List.mem_singleton.mp hr
      exact hn
    · rw [hpage, if_pos rfl]
      rfl
    · rw [hpage]
      unfold onPages
      rw [if_pos hq, if_pos hmem]
      split_ifs with heq
      · exact ⟨rfl, fun hne => absurd heq hne⟩
      · exact ⟨rfl, fun _ => rfl⟩
  refine ⟨s', ?_, hblocks, rfl, fun q hq => ?_⟩
  · unfold defaultInitMemmap
    rw [Prog.bind_of_ok (Prog.run_assert_of _ _ hn), Prog.bind_of_ok (initPages_run hres), Prog.bind_of_ok (Prog.run_modify ..),
      Prog.bind_of_ok (Prog.run_modify ..)]
    exact checkOrder_run hblocks.list hblocks.coalesced.toSep hblocks.blocks
  · have hne : q ≠ base := fun heq => hq (heq ▸ hmem)
    rw [hpage, if_neg hne]
    exact if_neg hq

/-- With a block before it on the list, a range that lies above makes `check_order` panic. -/
theorem defaultInitMemmap_disordered (h : HasBlocks s rs) (hn : 0 < n)
    (hres : ∀ q ∈ Extent.pages (base, n), (s.pages q).reserved = true) (habove : ∀ r ∈ rs, r.1 < base) (hne : s.freeList ≠ []) :
    (defaultInitMemmap base n).run s = .panic .disordered := by
  obtain ⟨p, le, hlist⟩ := List.exists_cons_of_ne_nil hne
  have hp : p < base := by
    have hmem : p ∈ rs.map Prod.fst := by
      rw [← h.list, hlist]
      exact List.mem_cons_self
    obtain ⟨r, hr, rfl⟩ := List.mem_map.mp hmem
    exact habove r hr
  unfold defaultInitMemmap checkOrder
  rw [Prog.bind_of_ok (Prog.run_assert_of _ _ hn), Prog.bind_of_ok (initPages_run hres), Prog.bind_of_ok (Prog.run_modify ..),
    Prog.bind_of_ok (Prog.run_modify ..), Prog.run_bind, Prog.run_get, Outcome.andThen_ok]
  refine Prog.run_assert_of_not _ _ fun hordered => ?_
  have hlist' : ∀ f : Page → Page, (({ s with pages := onPages Page.init base n s.pages } : Pmm).setPage base f).freeList = p :: le :=
    fun _ => hlist
  dsimp only at hordered
  rw [hlist'] at hordered
  have hle := hordered.1
  omega

end Ucore.Lab4
