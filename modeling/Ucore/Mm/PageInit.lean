import Ucore.Mm.DefaultPmm
import Mathlib.Data.List.Nodup
import Mathlib.Tactic.Common

/-!
# Finding the physical memory

`page_init` of `kern/mm/pmm.c`, which gives the page frames that the BIOS has reported to the page allocator.

* `maxpaLoop` is the first loop over the map, `freeEntries` the second one. Addresses of the map are numbers of 64 bits,
  while `ROUNDUP` and `ROUNDDOWN` work with 32 bits.
* `E820Entry.frames` is what an entry comes to: the frames between its rounded ends, after both have been clipped.
  `freeEntry_run` says that the code gives these frames to `default_init_memmap`.
* `page_init_exact` is about the whole map. The first loop has seen the end of each entry that the second one frees, so
  `npage` covers them; a frame is reserved until its one entry comes.
-/

namespace Ucore.Mm

open Ucore.Lib

/-! ### The code -/

/-- An entry of the map. Source: `kern/mm/memlayout.h` `struct e820map` -/
structure E820Entry where
  addr : ℕ
  size : ℕ
  type : ℕ
  deriving Repr, DecidableEq

/-- `E820_ARM`: memory that can be used. -/
def e820Arm : ℕ := 1

/-- `KERNBASE` -/
def kernBase : ℕ := 0xC0000000

/-- `KMEMSIZE` -/
def kmemsize : ℕ := 0x38000000

/-- `PGSIZE` -/
def pgsize : ℕ := 4096

/-- `sizeof(struct Page)` -/
def pageStructSize : ℕ := 36

/-- `ROUNDDOWN(a, PGSIZE)` -/
def roundDown (a : ℕ) : ℕ := a % 2 ^ 32 - a % 2 ^ 32 % pgsize

/-- `ROUNDUP(a, PGSIZE)` -/
def roundUp (a : ℕ) : ℕ := roundDown (a % 2 ^ 32 + pgsize - 1)

/-- `begin + memmap->map[i].size` -/
def E820Entry.stop (e : E820Entry) : ℕ := (e.addr + e.size) % 2 ^ 64

/-- Where `page_init` can stop. -/
inductive InitPanic where
  | paddr | pa2page
  | pmm (p : PmmPanic)
  deriving Repr, DecidableEq

abbrev InitProg := Prog InitPanic Empty Pmm

/-- The first loop over the map. -/
def maxpaLoop : ℕ → List E820Entry → ℕ
  | maxpa, [] => maxpa
  | maxpa, e :: l =>
    if e.type = e820Arm then
      if maxpa < e.stop ∧ e.addr < kmemsize then maxpaLoop e.stop l else maxpaLoop maxpa l
    else maxpaLoop maxpa l

/-- `maxpa` after the first loop, and clipped. -/
def maxpa (map : List E820Entry) : ℕ := if maxpaLoop 0 map > kmemsize then kmemsize else maxpaLoop 0 map

/-- `npage` -/
def npage (map : List E820Entry) : ℕ := maxpa map / pgsize

/-- `pages`, when the image of the kernel ends at `kernEnd`. -/
def pagesVa (kernEnd : ℕ) : ℕ := roundUp kernEnd

/-- `(uintptr_t)pages + sizeof(struct Page) * npage` -/
def pagesEnd (kernEnd : ℕ) (map : List E820Entry) : ℕ := (pagesVa kernEnd + pageStructSize * npage map) % 2 ^ 32

/-- `freemem` -/
def freemem (kernEnd : ℕ) (map : List E820Entry) : ℕ := pagesEnd kernEnd map - kernBase

/-- The loop with `SetPageReserved`. -/
def reservePages (npage : ℕ) : InitProg Unit :=
  Prog.modify fun s => { s with pages := fun p => if p < npage then { s.pages p with reserved := true } else s.pages p }

/-- Source: `kern/mm/pmm.h` `pa2page` -/
def pa2page (npage pa : ℕ) : InitProg ℕ := do
  Prog.assert (pa / pgsize < npage) .pa2page
  pure (pa / pgsize)

/-- What the second loop does for an entry. -/
def freeEntry (npage freemem : ℕ) (e : E820Entry) : InitProg Unit :=
  if e.type = e820Arm then
    let start := if e.addr < freemem then freemem else e.addr
    let stop := if e.stop > kmemsize then kmemsize else e.stop
    if start < stop then
      if roundUp start < roundDown stop then do
        let page ← pa2page npage (roundUp start)
        Prog.zoom id (fun s _ => s) InitPanic.pmm (defaultInitMemmap page ((roundDown stop - roundUp start) / pgsize))
      else pure ()
    else pure ()
  else pure ()

/-- The second loop over the map. -/
def freeEntries (npage freemem : ℕ) : List E820Entry → InitProg Unit
  | [] => pure ()
  | e :: l => do
    freeEntry npage freemem e
    freeEntries npage freemem l

/-- Source: `kern/mm/pmm.c` `page_init` -/
def pageInit (kernEnd : ℕ) (map : List E820Entry) : InitProg Unit := do
  reservePages (npage map)
  Prog.assert (kernBase ≤ pagesEnd kernEnd map) .paddr
  freeEntries (npage map) (freemem kernEnd map) map

variable {map l : List E820Entry} {e e' : E820Entry} {start stop free p kernEnd : ℕ} {s : Pmm}

/-! ### The frames of an entry -/

/-- The first frame that starts in the entry and from `free` on, and the first one that does not end in it. -/
def E820Entry.first (free : ℕ) (e : E820Entry) : ℕ := (max e.addr free + (pgsize - 1)) / pgsize

def E820Entry.last (e : E820Entry) : ℕ := min e.stop kmemsize / pgsize

/-- The frames that `page_init` takes from an entry. -/
def E820Entry.frames (free : ℕ) (e : E820Entry) : List ℕ :=
  if e.type = e820Arm then Extent.pages (e.first free, e.last - e.first free) else []

/-- The byte is one of the entry. -/
def E820Entry.Has (e : E820Entry) (a : ℕ) : Prop := e.addr ≤ a ∧ a < e.addr + e.size

/-- The frame is in the entry with all its bytes, and between `free` and `KMEMSIZE`. -/
structure E820Entry.HasFrame (e : E820Entry) (free p : ℕ) : Prop where
  arm : e.type = e820Arm
  low : e.addr ≤ p * pgsize
  high : (p + 1) * pgsize ≤ e.addr + e.size
  free : free ≤ p * pgsize
  top : (p + 1) * pgsize ≤ kmemsize

theorem E820Entry.mem_frames (hwrap : e.type = e820Arm → e.addr + e.size < 2 ^ 64) : p ∈ e.frames free ↔ e.HasFrame free p := by
  unfold frames
  by_cases harm : e.type = e820Arm
  · have hstop : e.stop = e.addr + e.size := Nat.mod_eq_of_lt (hwrap harm)
    rw [if_pos harm, Extent.mem_pages]
    unfold first last pgsize
    rw [hstop]
    constructor
    · rintro ⟨hfirst, hlast⟩
      refine ⟨harm, ?_, ?_, ?_, ?_⟩ <;> unfold pgsize <;> omega
    · rintro ⟨-, hlow, hhigh, hfree, htop⟩
      unfold pgsize at *
      omega
  · rw [if_neg harm]
    exact ⟨fun hmem => (List.not_mem_nil hmem).elim, fun hframe => (harm hframe.arm).elim⟩

/-- Entries without a common byte have no common frame. -/
theorem E820Entry.HasFrame.unique (h : e.HasFrame free p) (hdisj : ∀ a, ¬ (e.Has a ∧ e'.Has a)) : ¬ e'.HasFrame free p := by
  intro h'
  have hbyte : p * pgsize < (p + 1) * pgsize := Nat.mul_lt_mul_of_pos_right (Nat.lt_succ_self p) (by decide)
  exact hdisj (p * pgsize) ⟨⟨h.low, Nat.lt_of_lt_of_le hbyte h.high⟩, h'.low, Nat.lt_of_lt_of_le hbyte h'.high⟩

theorem E820Entry.nodup_frames (free : ℕ) (e : E820Entry) : (e.frames free).Nodup := by
  unfold frames
  split_ifs
  · exact Extent.nodup_pages _
  · exact List.nodup_nil

/-! ### The first loop -/

theorem maxpaLoop_le (m : ℕ) (l : List E820Entry) : m ≤ maxpaLoop m l := by
  induction l generalizing m with
  | nil => exact Nat.le_refl m
  | cons e l ih =>
    unfold maxpaLoop
    split_ifs with harm hnew
    · exact Nat.le_trans (Nat.le_of_lt hnew.1) (ih e.stop)
    · exact ih m
    · exact ih m

/-- The first loop has seen the end of each entry that starts below `KMEMSIZE`. -/
theorem stop_le_maxpaLoop (m : ℕ) (he : e ∈ l) (harm : e.type = e820Arm) (hlow : e.addr < kmemsize) : e.stop ≤ maxpaLoop m l := by
  induction l generalizing m with
  | nil => exact (List.not_mem_nil he).elim
  | cons e' l ih =>
    unfold maxpaLoop
    rcases List.mem_cons.mp he with rfl | he
    · rw [if_pos harm]
      split_ifs with hnew
      · exact maxpaLoop_le _ l
      · exact Nat.le_trans (Nat.le_of_not_lt fun hlt => hnew ⟨hlt, hlow⟩) (maxpaLoop_le m l)
    · split_ifs
      · exact ih _ he
      · exact ih _ he
      · exact ih _ he

theorem maxpa_eq (map : List E820Entry) : maxpa map = min (maxpaLoop 0 map) kmemsize := by
  unfold maxpa
  split_ifs <;> omega

/-- `npage` covers the frames that the second loop frees. -/
theorem E820Entry.HasFrame.lt_npage (h : e.HasFrame free p) (he : e ∈ map) (hwrap : e.addr + e.size < 2 ^ 64) : p < npage map := by
  have hstop : e.stop = e.addr + e.size := Nat.mod_eq_of_lt hwrap
  obtain ⟨harm, hlow, hhigh, -, htop⟩ := h
  have hle := stop_le_maxpaLoop 0 he harm (by unfold kmemsize pgsize at *; omega)
  have hmax : (p + 1) * pgsize ≤ maxpa map := by
    rw [maxpa_eq]
    omega
  exact (Nat.le_div_iff_mul_le (by decide)).mpr hmax

/-! ### The second loop -/

theorem roundDown_of_le (h : stop ≤ kmemsize) : roundDown stop = stop / pgsize * pgsize := by
  unfold roundDown pgsize kmemsize at *
  omega

theorem roundUp_of_le (h : start ≤ kmemsize) : roundUp start = (start + (pgsize - 1)) / pgsize * pgsize := by
  unfold roundUp roundDown pgsize kmemsize at *
  omega

/-- The pages of an entry go to the end of the free list. -/
structure Freed (frames : List ℕ) (s s' : Pmm) : Prop where
  list : s'.freeList = s.freeList ++ frames
  count : s'.nrFree = s.nrFree + frames.length
  pages : ∀ q ∉ frames, s'.pages q = s.pages q

/-- **What the second loop does for an entry**, when its frames are reserved pages. -/
theorem freeEntry_run {npage : ℕ} (hcover : ∀ p ∈ e.frames free, p < npage)
    (hreserved : ∀ p ∈ e.frames free, (s.pages p).reserved = true) :
    ∃ s', (freeEntry npage free e).run s = .ok () s' ∧ Freed (e.frames free) s s' := by
  have hnone : e.frames free = [] → Freed (e.frames free) s s := fun hnil => by
    rw [hnil]
    exact ⟨(List.append_nil _).symm, rfl, fun _ _ => rfl⟩
  unfold freeEntry
  by_cases harm : e.type = e820Arm
  · have hframes : e.frames free = Extent.pages (e.first free, e.last - e.first free) := if_pos harm
    have hstart : (if e.addr < free then free else e.addr) = max e.addr free := by
      split_ifs <;> omega
    have hstop : (if e.stop > kmemsize then kmemsize else e.stop) = min e.stop kmemsize := by
      split_ifs <;> omega
    rw [if_pos harm, hstart, hstop]
    dsimp only
    by_cases hlt : max e.addr free < min e.stop kmemsize
    · have htop : min e.stop kmemsize ≤ kmemsize := Nat.min_le_right _ _
      have hup : roundUp (max e.addr free) = e.first free * pgsize :=
        roundUp_of_le (Nat.le_of_lt (Nat.lt_of_lt_of_le hlt htop))
      have hdown : roundDown (min e.stop kmemsize) = e.last * pgsize := roundDown_of_le htop
      rw [if_pos hlt, hup, hdown]
      by_cases hmore : e.first free < e.last
      · have hdiv : (e.last * pgsize - e.first free * pgsize) / pgsize = e.last - e.first free := by
          rw [← Nat.sub_mul]
          exact Nat.mul_div_cancel _ (by decide)
        have hpage : e.first free * pgsize / pgsize = e.first free := Nat.mul_div_cancel _ (by decide)
        have hmem : ∀ k < e.last - e.first free, e.first free + k ∈ e.frames free := by
          intro k hk
          rw [hframes, Extent.mem_pages]
          exact ⟨Nat.le_add_right _ _, Nat.add_lt_add_left hk _⟩
        have hfirst := hcover _ (hmem 0 (Nat.sub_pos_of_lt hmore))
        rw [Nat.add_zero] at hfirst
        obtain ⟨s', hrun, hlist, hcount, hout, -⟩ := defaultInitMemmap_code (ε := Empty) (Nat.sub_pos_of_lt hmore)
          fun k hk => hreserved _ (hmem k hk)
        refine ⟨s', ?_, ?_, ?_, ?_⟩
        · rw [if_pos (Nat.mul_lt_mul_of_pos_right hmore (by decide)), hdiv]
          unfold pa2page
          rw [hpage, Prog.run_bind, Prog.bind_of_ok (Prog.run_assert_of _ _ hfirst)]
          show (Prog.zoom _ _ _ _).run s = _
          unfold Prog.zoom
          dsimp only [id]
          rw [hrun]
        · rw [hlist, hframes]
        · rw [hcount, hframes, Extent.length_pages]
        · rw [hframes]
          exact hout
      · have hle := Nat.le_of_not_lt hmore
        rw [if_neg (Nat.not_lt.mpr (Nat.mul_le_mul_right pgsize hle))]
        refine ⟨s, rfl, hnone ?_⟩
        rw [hframes, Nat.sub_eq_zero_of_le hle, Extent.pages_zero]
    · have hle : e.last ≤ e.first free := by
        unfold E820Entry.last E820Entry.first
        exact Nat.div_le_div_right (Nat.le_trans (Nat.le_of_not_lt hlt) (Nat.le_add_right _ _))
      rw [if_neg hlt]
      refine ⟨s, rfl, hnone ?_⟩
      rw [hframes, Nat.sub_eq_zero_of_le hle, Extent.pages_zero]
  · rw [if_neg harm]
    exact ⟨s, rfl, hnone (if_neg harm)⟩

theorem Freed.trans {s₁ s' : Pmm} {frames frames' : List ℕ} (h : Freed frames s s₁) (h' : Freed frames' s₁ s') :
    Freed (frames ++ frames') s s' := by
  refine ⟨?_, ?_, fun q hq => ?_⟩
  · rw [h'.list, h.list, List.append_assoc]
  · rw [h'.count, h.count, List.length_append, Nat.add_assoc]
  · rw [List.mem_append, not_or] at hq
    rw [h'.pages q hq.2, h.pages q hq.1]

/-- **The second loop** frees the frames of all entries, when no frame is one of two entries. -/
theorem freeEntries_run {npage : ℕ} (hcover : ∀ e ∈ l, ∀ p ∈ e.frames free, p < npage)
    (hreserved : ∀ e ∈ l, ∀ p ∈ e.frames free, (s.pages p).reserved = true)
    (honce : l.Pairwise fun e e' => ∀ p ∈ e.frames free, p ∉ e'.frames free) :
    ∃ s', (freeEntries npage free l).run s = .ok () s' ∧ Freed (l.flatMap (E820Entry.frames free)) s s' := by
  induction l generalizing s with
  | nil => exact ⟨s, rfl, (List.append_nil _).symm, rfl, fun _ _ => rfl⟩
  | cons e l ih =>
    obtain ⟨hother, hrest⟩ := List.pairwise_cons.mp honce
    obtain ⟨s₁, hrun, hfreed⟩ := freeEntry_run (hcover e List.mem_cons_self) (hreserved e List.mem_cons_self)
    obtain ⟨s', hrun', hfreed'⟩ := ih (s := s₁) (fun e' he' => hcover e' (List.mem_cons_of_mem e he')) (fun e' he' p hp => by
      rw [hfreed.pages p fun hmem => hother e' he' p hmem hp]
      exact hreserved e' (List.mem_cons_of_mem e he') p hp) hrest
    refine ⟨s', ?_, ?_⟩
    · unfold freeEntries
      rw [Prog.bind_of_ok hrun]
      exact hrun'
    · rw [List.flatMap_cons]
      exact hfreed.trans hfreed'

/-! ### The whole map -/

/-- The map of a BIOS: the entries with memory do not wrap, and no byte is in two of them. -/
structure E820Map (map : List E820Entry) : Prop where
  wrap : ∀ e ∈ map, e.type = e820Arm → e.addr + e.size < 2 ^ 64
  disjoint : (map.filter fun e => e.type = e820Arm).Pairwise fun e e' => ∀ a, ¬ (e.Has a ∧ e'.Has a)

/-- No frame is one of two entries. -/
theorem E820Map.once (h : E820Map map) (free : ℕ) : map.Pairwise fun e e' => ∀ p ∈ e.frames free, p ∉ e'.frames free := by
  have hpairwise := List.pairwise_filter.mp h.disjoint
  refine hpairwise.imp_of_mem fun {e e'} he he' hdisj p hp hp' => ?_
  have hframe := (E820Entry.mem_frames (h.wrap e he)).mp hp
  have hframe' := (E820Entry.mem_frames (h.wrap e' he')).mp hp'
  exact hframe.unique (hdisj (decide_eq_true hframe.arm) (decide_eq_true hframe'.arm)) hframe'

/-- The array `pages` is in the memory of the kernel. -/
theorem kernBase_le_pagesEnd (hbase : kernBase ≤ kernEnd) (htop : kernEnd ≤ kernBase + kmemsize) (map : List E820Entry) :
    kernBase ≤ pagesEnd kernEnd map := by
  have hmax : npage map ≤ kmemsize / pgsize := by
    apply Nat.div_le_div_right
    rw [maxpa_eq]
    exact Nat.min_le_right _ _
  have hpages : kernBase ≤ pagesVa kernEnd ∧ pagesVa kernEnd ≤ kernEnd + pgsize := by
    unfold pagesVa roundUp roundDown pgsize kernBase kmemsize at *
    omega
  have hword : pagesVa kernEnd + pageStructSize * npage map < 2 ^ 32 := by
    unfold pageStructSize pgsize kernBase kmemsize at *
    omega
  unfold pagesEnd
  rw [Nat.mod_eq_of_lt hword]
  exact Nat.le_trans hpages.1 (Nat.le_add_right _ _)

/-- **`page_init` finds the physical memory exactly.** No assertion and no panic is reached. Afterwards `free_list` has the
frames that `init_memmap` has been called for: each frame that is in one entry with memory and between `freemem` and
`KMEMSIZE`, once. -/
theorem page_init_exact (hbase : kernBase ≤ kernEnd) (htop : kernEnd ≤ kernBase + kmemsize) (h : E820Map map) (s : Pmm) :
    ∃ s', (pageInit kernEnd map).run (defaultInit s) = .ok () s' ∧ s'.freeList.Nodup ∧ s'.nrFree = s'.freeList.length ∧
      ∀ p, p ∈ s'.freeList ↔ ∃ e ∈ map, e.HasFrame (freemem kernEnd map) p := by
  have hframes : ∀ e ∈ map, ∀ p, p ∈ e.frames (freemem kernEnd map) ↔ e.HasFrame (freemem kernEnd map) p := fun e he p =>
    E820Entry.mem_frames (h.wrap e he)
  have hcover : ∀ e ∈ map, ∀ p ∈ e.frames (freemem kernEnd map), p < npage map := fun e he p hp =>
    ((hframes e he p).mp hp).lt_npage he (h.wrap e he ((hframes e he p).mp hp).arm)
  obtain ⟨s', hrun, hlist, hcount, -⟩ := freeEntries_run (s := { defaultInit s with
      pages := fun p => if p < npage map then { s.pages p with reserved := true } else s.pages p }) hcover
    (fun e he p hp => by
      show (if p < npage map then { s.pages p with reserved := true } else s.pages p).reserved = true
      rw [if_pos (hcover e he p hp)]) (h.once _)
  have hlist : s'.freeList = map.flatMap (E820Entry.frames (freemem kernEnd map)) := hlist
  refine ⟨s', ?_, ?_, ?_, fun p => ?_⟩
  · unfold pageInit reservePages
    rw [Prog.run_bind, Prog.run_modify, Outcome.andThen_ok,
      Prog.bind_of_ok (Prog.run_assert_of _ _ (kernBase_le_pagesEnd hbase htop map))]
    exact hrun
  · rw [hlist, List.nodup_flatMap]
    refine ⟨fun e _ => e.nodup_frames _, List.Pairwise.imp (fun {e e'} honce => ?_) (h.once (freemem kernEnd map))⟩
    exact List.disjoint_left.mpr fun p hp => honce p hp
  · rw [hcount, hlist]
    exact Nat.zero_add _
  · rw [hlist, List.mem_flatMap]
    exact exists_congr fun e => and_congr_right fun he => hframes e he p

/-- An entry that starts in the middle of a page and goes beyond `KMEMSIZE`, one that cannot be used, and one below the
kernel: two of the frames. -/
theorem page_init_exact_three : ∃ s', (pageInit 0xC0120000 [⟨0x37FFD800, 0x10000, 1⟩, ⟨0x9FC00, 0x400, 2⟩, ⟨0, 0x9FC00, 1⟩]).run
      (defaultInit ⟨fun _ => ⟨0, false, false, 0, 0⟩, [], 0⟩) = .ok () s' ∧ 0x37FFE ∈ s'.freeList ∧ 0x37FFF ∈ s'.freeList ∧
    0x37FFD ∉ s'.freeList ∧ 0 ∉ s'.freeList := by
  have hmap : E820Map [⟨0x37FFD800, 0x10000, 1⟩, ⟨0x9FC00, 0x400, 2⟩, ⟨0, 0x9FC00, 1⟩] := by
    refine ⟨by decide, ?_⟩
    rw [show ([⟨0x37FFD800, 0x10000, 1⟩, ⟨0x9FC00, 0x400, 2⟩, ⟨0, 0x9FC00, 1⟩] : List E820Entry).filter
      (fun e => e.type = e820Arm) = [⟨0x37FFD800, 0x10000, 1⟩, ⟨0, 0x9FC00, 1⟩] by decide]
    refine List.pairwise_pair.mpr fun a => ?_
    rintro ⟨⟨hlow, -⟩, -, hhigh⟩
    exact absurd (Nat.lt_of_le_of_lt hlow hhigh) (by decide)
  obtain ⟨s', hrun, -, -, hmem⟩ := page_init_exact (show kernBase ≤ 0xC0120000 by decide) (by decide) hmap
    ⟨fun _ => ⟨0, false, false, 0, 0⟩, [], 0⟩
  refine ⟨s', hrun, (hmem _).mpr ?_, (hmem _).mpr ?_, fun hp => ?_, fun hp => ?_⟩
  · exact ⟨_, List.mem_cons_self, by decide, by decide, by decide, by decide, by decide⟩
  · exact ⟨_, List.mem_cons_self, by decide, by decide, by decide, by decide, by decide⟩
  · obtain ⟨e, he, hframe⟩ := (hmem _).mp hp
    simp only [List.mem_cons, List.not_mem_nil, or_false] at he
    rcases he with rfl | rfl | rfl
    · exact absurd hframe.low (by decide)
    · exact absurd hframe.arm (by decide)
    · exact absurd hframe.high (by decide)
  · obtain ⟨e, he, hframe⟩ := (hmem _).mp hp
    exact absurd hframe.free (by decide)

end Ucore.Mm
