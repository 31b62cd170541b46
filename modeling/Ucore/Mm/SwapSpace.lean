import Ucore.Mm.SwapEntries

/-!
# An address space whose pages come and go

* `Paged m d v mem queue s` is the invariant of an area `v` under paging: `queue` has the numbers of its pages in memory, from the
  one on that came last, and `mem` what was last written to its pages. Each of them is where its entry says: in the page of memory
  that it points to, or in the slot that it names.
* `swap_out` takes the address of the victim from `pra_vaddr`. `Own d v s p` says that it is the address that `p` is mapped at,
  and `Spare d v s n` that `n` pages can be had by evicting such pages only.
* Each function of the page fault path has its lemma `Paged.…`: as long as the pages that it takes can be had, it returns, and what
  it evicts is a last part of `queue`. A page that comes in is put at its front (`Paged.map`).
-/

namespace Ucore.Swap

open Ucore.Lib
open Ucore.Mm (Pmm Page defaultFreePages)
open Ucore.Vm (pageSize ptSize pdx ptx Pte pteP pteW pteU Vma VmError)

variable {β : Type} {s : SwapState β} {m d t q p n la : ℕ} {v : Vma} {mem : ℕ → Option β} {queue : List ℕ}

/-! ### The invariant -/

/-- The area that `find_vma` returns. -/
def MmStruct.found (mm : MmStruct) (la : ℕ) : Option Vma :=
  (mm.mmapCache.filter fun w => w.Has la).or (mm.mmapList.find? fun w => w.Has la)

/-- The address space `m` with the page directory `d` is the one that pages are evicted from, and `v` an area of it with a slot
for each page. -/
structure Swapping (m d : ℕ) (v : Vma) (s : SwapState β) : Prop where
  area : Writable v
  swapInitOk : s.swapInitOk = true
  checkMm : s.checkMm = some m
  smPriv : (s.mm m).smPriv = true
  pgdir : (s.mm m).pgdir = d
  found : ∀ la, v.Has la → (s.mm m).found la = some v
  slots : ∀ q, InArea v q → q + 1 < s.maxSwapOffset

theorem Swapping.congr {s s' : SwapState β} (h : Swapping m d v s) (hswap : s'.swapInitOk = s.swapInitOk)
    (hmm : s'.checkMm = s.checkMm) (hmms : s'.mm = s.mm) (hmax : s'.maxSwapOffset = s.maxSwapOffset) : Swapping m d v s' where
  area := h.area
  swapInitOk := hswap.trans h.swapInitOk
  checkMm := hmm.trans h.checkMm
  smPriv := hmms ▸ h.smPriv
  pgdir := hmms ▸ h.pgdir
  found := hmms ▸ h.found
  slots := hmax ▸ h.slots

/-- The page that an entry of the area points to. -/
def SwapState.frame (s : SwapState β) (d q : ℕ) : ℕ := (s.pte d (addr q)).ppn

/-- The page with the number `q` is not in memory: it has never been used, or it is on the disk. -/
def Away (d : ℕ) (mem : ℕ → Option β) (s : SwapState β) (q : ℕ) : Prop :=
  (s.pte d (addr q) = .zero ∧ mem q = none) ∨
    (s.pte d (addr q) = swapEntry (q + 1) ∧ ∀ x, mem q = some x → s.slot (q + 1) = x)

/-- The page directory, or a page table of the area. -/
def Kernel (d : ℕ) (v : Vma) (s : SwapState β) (p : ℕ) : Prop := p = d ∨ ∃ q, InArea v q ∧ s.findPte d (addr q) = some p

/-- The area `v` of the address space `m`, with the page directory `d`. `mem` has what was last written to its pages, and
`queue` the numbers of the pages in memory, from the one on that came last. -/
structure Paged (m d : ℕ) (v : Vma) (mem : ℕ → Option β) (queue : List ℕ) (s : SwapState β) : Prop
    extends Swapping m d v s where
  sound : s.pmm.Sound
  freeRef : ∀ p ∈ s.pmm.freeList, (s.pmm.pages p).ref = 0
  tabled : Tabled v d s
  kernel : ∀ p, Kernel d v s p → p ∉ s.pmm.freeList ∧ p ∉ s.praList
  list : s.praList = queue.map (s.frame d)
  nodup : s.praList.Nodup
  frames : ∀ p ∈ s.praList, p ∉ s.pmm.freeList ∧ (s.pmm.pages p).reserved = true
  resident : ∀ q ∈ queue, InArea v q ∧ s.pte d (addr q) = ⟨s.frame d q, pteP ||| v.perm⟩ ∧
    ∀ x, mem q = some x → s.content (s.frame d q) = x
  away : ∀ q, InArea v q → q ∉ queue → Away d mem s q

/-- `pra_vaddr` of the page is the address that the page is mapped at. -/
def Own (d : ℕ) (v : Vma) (s : SwapState β) (p : ℕ) : Prop :=
  ∃ la, v.Has la ∧ (s.pmm.pages p).praVaddr = la / pageSize * pageSize ∧ (s.pte d la).present = true ∧ (s.pte d la).ppn = p

/-- `n` pages can be had: there are so many, and those that have to be evicted for it have their own address in
`pra_vaddr`. -/
def Spare (d : ℕ) (v : Vma) (s : SwapState β) (n : ℕ) : Prop :=
  n ≤ s.pmm.nrFree + s.praList.length ∧ ∀ p ∈ s.praList.reverse.take (n - s.pmm.nrFree), Own d v s p

theorem Away.not_present (h : Away d mem s q) : (s.pte d (addr q)).present = false := by
  rcases h with ⟨h, -⟩ | ⟨h, -⟩
  · rw [h]
    rfl
  · rw [h, present_swapEntry]

theorem Kernel.congr {s s' : SwapState β} (hf : ∀ la, s'.findPte d la = s.findPte d la) (h : Kernel d v s' p) :
    Kernel d v s p :=
  h.imp_right fun ⟨q, hq, hfind⟩ => ⟨q, hq, (hf _).symm.trans hfind⟩

theorem Paged.mem_queue (h : Paged m d v mem queue s) (hq : InArea v q) (hp : (s.pte d (addr q)).present = true) :
    q ∈ queue := by
  by_contra hnot
  rw [(h.away q hq hnot).not_present] at hp
  cases hp

theorem Paged.mem_praList (h : Paged m d v mem queue s) (hq : q ∈ queue) : s.frame d q ∈ s.praList :=
  h.list ▸ List.mem_map_of_mem hq

/-- Pages of the area in one page of memory are one page. -/
theorem Paged.frame_inj {q' : ℕ} (h : Paged m d v mem queue s) (hq : q ∈ queue) (hq' : q' ∈ queue)
    (heq : s.frame d q = s.frame d q') : q = q' :=
  List.inj_on_of_nodup_map (h.list ▸ h.nodup) hq hq' heq

theorem Paged.praVaddr (h : Paged m d v mem queue s) (hq : q ∈ queue) (hown : Own d v s (s.frame d q)) :
    (s.pmm.pages (s.frame d q)).praVaddr = addr q := by
  obtain ⟨la, hla, haddr, hpresent, hppn⟩ := hown
  rw [← pte_addr] at hpresent hppn
  have hmem := h.mem_queue ⟨la, hla, rfl⟩ hpresent
  rw [haddr, h.frame_inj hq hmem hppn.symm]
  rfl

theorem Own.congr {s s' : SwapState β} (h : Own d v s p)
    (hpra : (s'.pmm.pages p).praVaddr = (s.pmm.pages p).praVaddr)
    (hpte : ∀ q, InArea v q → s.frame d q = p → s'.pte d (addr q) = s.pte d (addr q)) : Own d v s' p := by
  obtain ⟨la, hla, haddr, hpresent, hppn⟩ := h
  rw [← pte_addr] at hpresent hppn
  have heq := hpte _ ⟨la, hla, rfl⟩ hppn
  exact ⟨la, hla, hpra.trans haddr, by rw [← pte_addr, heq, hpresent], by rw [← pte_addr, heq, hppn]⟩

theorem Spare.congr {s s' : SwapState β} (h : Spare d v s n) (hfree : s'.pmm.nrFree = s.pmm.nrFree)
    (hlist : s'.praList = s.praList) (hpra : ∀ p ∈ s.praList, (s'.pmm.pages p).praVaddr = (s.pmm.pages p).praVaddr)
    (hpte : ∀ q, InArea v q → s'.pte d (addr q) = s.pte d (addr q)) : Spare d v s' n := by
  obtain ⟨hle, hown⟩ := h
  rw [Spare, hfree, hlist]
  refine ⟨hle, fun p hp => (hown p hp).congr (hpra p ?_) fun q hq _ => hpte q hq⟩
  exact List.mem_reverse.mp (List.mem_of_mem_take hp)

theorem exists_findPte (h : (s.pte d la).present = true) :
    ∃ t, s.findPte d la = some t ∧ s.entry t (ptx la) = s.pte d la := by
  unfold SwapState.pte at h ⊢
  cases hf : s.findPte d la with
  | none =>
    rw [hf] at h
    change Pte.zero.present = true at h
    exact absurd h (by decide)
  | some t => exact ⟨t, rfl, rfl⟩

/-! ### Evicting a page -/

theorem swapOffset_run (hslot : q + 1 < s.maxSwapOffset) : (swapOffset (swapEntry (q + 1))).run s = .ok (q + 1) s := by
  rw [swapOffset, Prog.bind_of_ok (Prog.run_get s), entryOffset_swapEntry,
    Prog.bind_of_ok (Prog.run_assert_of _ _ ⟨Nat.succ_pos q, hslot⟩)]
  rfl

theorem fifoSwapOutVictim_run {l : List ℕ} (hpriv : (s.mm m).smPriv = true) (hlist : s.praList = l ++ [p]) :
    (fifoSwapOutVictim (some m) 0).run s = .ok p { s with praList := l } := by
  rw [fifoSwapOutVictim, Prog.bind_of_ok (show (deref (some m)).run s = .ok m s from rfl), Prog.bind_of_ok (Prog.run_get s),
    Prog.bind_of_ok (Prog.run_assert_of _ _ hpriv), Prog.bind_of_ok (Prog.run_assert_of _ _ rfl), hlist, List.getLast?_concat]
  dsimp only
  rw [Prog.bind_of_ok (Prog.run_modify ..), Prog.run_pure, hlist, List.dropLast_concat]

/-- The page with the number `q` has left the page `p` of memory, and `pmm` is the allocator then. -/
def SwapState.evicted (s : SwapState β) (t q p : ℕ) (l : List ℕ) (pmm : Pmm) : SwapState β :=
  { s.setEntry t (ptx (addr q)) (swapEntry (q + 1)) with
    pmm := pmm
    praList := l
    requests := s.requests + 1
    slot := Function.update s.slot (q + 1) (s.content p) }

section disk

variable {disk : ℕ → Bool} (hdisk : ∀ k, disk k = false)

include hdisk

theorem request_run : (request disk).run s = .ok false { s with requests := s.requests + 1 } := by
  rw [request, Prog.bind_of_ok (Prog.run_get s), Prog.bind_of_ok (Prog.run_modify ..), hdisk]
  rfl

theorem swapfsWrite_run (p : ℕ) (hslot : q + 1 < s.maxSwapOffset) : (swapfsWrite disk (swapEntry (q + 1)) p).run s =
    .ok false { s with requests := s.requests + 1, slot := Function.update s.slot (q + 1) (s.content p) } := by
  rw [swapfsWrite, Prog.bind_of_ok (swapOffset_run hslot), Prog.bind_of_ok (request_run hdisk)]
  rfl

theorem swapfsRead_run (p : ℕ) (hslot : q + 1 < s.maxSwapOffset) : (swapfsRead disk (swapEntry (q + 1)) p).run s =
    .ok false { s with requests := s.requests + 1, content := Function.update s.content p (s.slot (q + 1)) } := by
  rw [swapfsRead, Prog.bind_of_ok (swapOffset_run hslot), Prog.bind_of_ok (request_run hdisk)]
  rfl

/-- A turn of `swap_out`, when `pra_vaddr` is the address of a page that is present. -/
theorem swapOutTurn_run {l : List ℕ} {pmm : Pmm} (h : Swapping m d v s) (hq : InArea v q) (hlist : s.praList = l ++ [p])
    (hpra : (s.pmm.pages p).praVaddr = addr q) (hfind : s.findPte d (addr q) = some t)
    (hpresent : (s.entry t (ptx (addr q))).present = true)
    (hgive : (defaultFreePages p 1).run s.pmm = (.ok () pmm : Outcome _ VmError _ _)) :
    (swapOutTurn disk (some m) 0).run s = .ok () (s.evicted t q p l pmm) := by
  have hwrite := swapfsWrite_run (s := { s with praList := l }) hdisk p (h.slots q hq)
  rw [swapOutTurn, Prog.bind_of_ok (fifoSwapOutVictim_run h.smPriv hlist), Prog.bind_of_ok (Prog.run_get _)]
  dsimp only
  rw [hpra, Prog.bind_of_ok (show (deref (some m)).run _ = .ok m _ from rfl), h.pgdir,
    show SwapState.findPte { s with praList := l } d (addr q) = some t from hfind]
  dsimp only
  rw [Prog.bind_of_ok (Prog.run_assert_of _ _ hpresent), slotEntry_addr, Prog.bind_of_ok hwrite, if_neg Bool.false_ne_true,
    Prog.bind_of_ok (Prog.run_modify ..), freePages]
  exact onPmm_of_ok hgive

end disk

/-- `p` is the only free page of `pmm`, and it was not free before. -/
structure OnlyFree (before pmm : Pmm) (p : ℕ) : Prop where
  sound : pmm.Sound
  list : pmm.freeList = [p]
  ref : (pmm.pages p).ref = 0
  others : ∀ x, x ≠ p → ∃ c, pmm.pages x = { before.pages x with property := c }

section evicted

variable {kept : List ℕ} {pmm : Pmm}

theorem findPte_evicted (h : Tabled v d s) (hq : InArea v q) (hfind : s.findPte d (addr q) = some t) (p : ℕ) (l : List ℕ)
    (la : ℕ) : (s.evicted t q p l pmm).findPte d la = s.findPte d la := findPte_setEntry s (h.ne hq hfind) ..

theorem pte_evicted {q' : ℕ} (h : Tabled v d s) (hq : InArea v q) (hfind : s.findPte d (addr q) = some t) (hq' : InArea v q')
    (p : ℕ) (l : List ℕ) :
    (s.evicted t q p l pmm).pte d (addr q') = if q' = q then swapEntry (q + 1) else s.pte d (addr q') :=
  h.pte_setEntry hq hfind hq' _

theorem Paged.praList_concat (h : Paged m d v mem (kept ++ [q]) s) : s.praList = kept.map (s.frame d) ++ [s.frame d q] := by
  rw [h.list, List.map_append]
  rfl

theorem Paged.not_last (h : Paged m d v mem (kept ++ [q]) s) (hp : p ∈ kept.map (s.frame d)) : p ≠ s.frame d q := by
  have hnodup := h.nodup
  rw [h.praList_concat] at hnodup
  exact (List.nodup_append.mp hnodup).2.2 p hp _ List.mem_cons_self

/-- The page that came first is evicted. -/
theorem Paged.evicted (h : Paged m d v mem (kept ++ [q]) s) (hfind : s.findPte d (addr q) = some t)
    (hfree : OnlyFree s.pmm pmm (s.frame d q)) :
    Paged m d v mem kept (s.evicted t q (s.frame d q) (kept.map (s.frame d)) pmm) := by
  obtain ⟨hq, -, hcontent⟩ := h.resident q (List.mem_append_right _ List.mem_cons_self)
  have hfindPte : ∀ la, (s.evicted t q (s.frame d q) (kept.map (s.frame d)) pmm).findPte d la = s.findPte d la :=
    findPte_evicted h.tabled hq hfind _ _
  have hpte : ∀ {q'}, InArea v q' → (s.evicted t q (s.frame d q) (kept.map (s.frame d)) pmm).pte d (addr q') =
      if q' = q then swapEntry (q + 1) else s.pte d (addr q') := fun hq' => pte_evicted h.tabled hq hfind hq' _ _
  have hold : ∀ p ∈ kept.map (s.frame d), p ∈ s.praList := fun p hp => h.praList_concat ▸ List.mem_append_left _ hp
  have hlast : s.frame d q ∈ s.praList := h.mem_praList (List.mem_append_right _ List.mem_cons_self)
  have hkeep : ∀ q' ∈ kept, (s.evicted t q (s.frame d q) (kept.map (s.frame d)) pmm).pte d (addr q') = s.pte d (addr q') := by
    intro q' hq'
    rw [hpte (h.resident q' (List.mem_append_left _ hq')).1, if_neg]
    rintro rfl
    exact h.not_last (List.mem_map_of_mem hq') rfl
  have hframe : ∀ q' ∈ kept, (s.evicted t q (s.frame d q) (kept.map (s.frame d)) pmm).frame d q' = s.frame d q' :=
    fun q' hq' => congrArg Pte.ppn (hkeep q' hq')
  have hmem : ∀ p, p ∈ pmm.freeList → p = s.frame d q := fun p hp => by
    rw [hfree.list] at hp
    exact List.mem_singleton.mp hp
  refine ⟨h.toSwapping.congr rfl rfl rfl rfl, hfree.sound, fun p hp => ?_, h.tabled.congr hfindPte, fun p hp => ?_, ?_, ?_,
    fun p hp => ⟨fun hin => h.not_last hp (hmem p hin), ?_⟩, fun q' hq' => ?_, fun q' hq' hnot => ?_⟩
  · rw [hmem p hp]
    exact hfree.ref
  · obtain ⟨-, hlist⟩ := h.kernel p (hp.congr hfindPte)
    exact ⟨fun hin => hlist (hmem p hin ▸ hlast), fun hin => hlist (hold p hin)⟩
  · exact (List.map_congr_left hframe).symm
  · have hnodup := h.nodup
    rw [h.praList_concat] at hnodup
    exact (List.nodup_append.mp hnodup).1
  · obtain ⟨c, hc⟩ := hfree.others p (h.not_last hp)
    exact (congrArg Page.reserved hc).trans (h.frames p (hold p hp)).2
  · obtain ⟨harea, hent, hheld⟩ := h.resident q' (List.mem_append_left _ hq')
    rw [hkeep q' hq', hframe q' hq']
    exact ⟨harea, hent, hheld⟩
  · by_cases heq : q' = q
    · subst heq
      exact .inr ⟨(hpte hq').trans (if_pos rfl), fun x hx => (Function.update_self ..).trans (hcontent x hx)⟩
    · have haway := h.away q' hq' fun hin => hnot ((List.mem_append.mp hin).resolve_right (by simpa using heq))
      rw [Away, hpte hq', if_neg heq]
      refine haway.imp id fun haway => ⟨haway.1, fun x hx => ?_⟩
      exact (Function.update_of_ne (by omega) ..).trans (haway.2 x hx)

/-- The pages that can be had are as many as before. -/
theorem Spare.evicted (hspare : Spare d v s (n + 1)) (h : Paged m d v mem (kept ++ [q]) s) (hnr : s.pmm.nrFree = 0)
    (hfind : s.findPte d (addr q) = some t) (hfree : OnlyFree s.pmm pmm (s.frame d q)) :
    Spare d v (s.evicted t q (s.frame d q) (kept.map (s.frame d)) pmm) (n + 1) := by
  obtain ⟨hle, hown⟩ := hspare
  rw [hnr, h.praList_concat] at hle hown
  have hone : pmm.nrFree = 1 := by
    rw [hfree.sound.count, hfree.list]
    rfl
  rw [List.length_append, List.length_singleton] at hle
  rw [List.reverse_concat, Nat.sub_zero, List.take_succ_cons] at hown
  refine ⟨?_, fun p hp => ?_⟩
  · show n + 1 ≤ pmm.nrFree + (kept.map (s.frame d)).length
    omega
  · have hp : p ∈ (kept.map (s.frame d)).reverse.take (n + 1 - pmm.nrFree) := hp
    rw [hone, Nat.add_sub_cancel] at hp
    have hin : p ∈ kept.map (s.frame d) := List.mem_reverse.mp (List.mem_of_mem_take hp)
    obtain ⟨c, hc⟩ := hfree.others p (h.not_last hin)
    have hpra : (pmm.pages p).praVaddr = (s.pmm.pages p).praVaddr := by rw [hc]
    refine (hown p (List.mem_cons_of_mem _ hp)).congr hpra fun q' hq' hp' => ?_
    rw [pte_evicted h.tabled (h.resident q (List.mem_append_right _ List.mem_cons_self)).1 hfind hq', if_neg]
    rintro rfl
    exact h.not_last hin hp'.symm

end evicted

/-- What an eviction leaves of the entries of the area: those of the pages that are not in memory. -/
structure Keeps (d : ℕ) (v : Vma) (queue : List ℕ) (s s' : SwapState β) : Prop where
  findPte : ∀ la, s'.findPte d la = s.findPte d la
  pte : ∀ q, InArea v q → q ∉ queue → s'.pte d (addr q) = s.pte d (addr q)

/-- **An eviction** takes the page that came first. -/
theorem Paged.evict {disk : ℕ → Bool} (hdisk : ∀ k, disk k = false) (h : Paged m d v mem queue s) (hnil : s.pmm.freeList = [])
    (hspare : Spare d v s (n + 1)) : ∃ kept q s', queue = kept ++ [q] ∧ (swapOut disk (some m) 1 0).run s = .ok 1 s' ∧
      Paged m d v mem kept s' ∧ s'.pmm.freeList = [s.frame d q] ∧ Spare d v s' (n + 1) ∧ Keeps d v queue s s' := by
  have hnr : s.pmm.nrFree = 0 := by
    rw [h.sound.count, hnil]
    rfl
  rcases List.eq_nil_or_concat' queue with rfl | ⟨kept, q, rfl⟩
  · have hle := hspare.1
    rw [hnr, h.list] at hle
    cases hle
  have hmem : q ∈ kept ++ [q] := List.mem_append_right _ List.mem_cons_self
  obtain ⟨hq, hpte, -⟩ := h.resident q hmem
  have hpresent : (s.pte d (addr q)).present = true := by
    rw [hpte]
    exact Ucore.Vm.Pte.present_insert _
  obtain ⟨t, hfind, hentry⟩ := exists_findPte hpresent
  have hown : Own d v s (s.frame d q) := by
    refine hspare.2 _ ?_
    rw [hnr, h.praList_concat, List.reverse_concat]
    exact List.mem_cons_self
  obtain ⟨hpfree, hpres⟩ := h.frames _ (h.mem_praList hmem)
  obtain ⟨pmm, hgive, hsound, hperm, ⟨c, hpage⟩, hpages⟩ := h.sound.give (ε := VmError) hpfree hpres
  rw [hnil] at hperm
  have hfree : OnlyFree s.pmm pmm (s.frame d q) :=
    ⟨hsound, List.perm_singleton.mp hperm, congrArg Page.ref hpage, hpages⟩
  have hturn := swapOutTurn_run hdisk h.toSwapping hq h.praList_concat (h.praVaddr hmem hown) hfind (hentry ▸ hpresent) hgive
  refine ⟨kept, q, _, rfl, ?_, h.evicted hfind hfree, hfree.list, hspare.evicted h hnr hfind hfree,
    findPte_evicted h.tabled hq hfind _ _, fun q' hq' hnot => ?_⟩
  · rw [swapOut, swapOutLoop, Prog.bind_of_ok hturn]
    rfl
  · rw [pte_evicted h.tabled hq hfind hq', if_neg]
    rintro rfl
    exact hnot hmem


/-! ### Taking a page -/

/-- A page that has been allocated and that is not in use yet. -/
structure InHand (d : ℕ) (v : Vma) (s : SwapState β) (p : ℕ) : Prop where
  free : p ∉ s.pmm.freeList
  frame : p ∉ s.praList
  dir : p ≠ d
  table : ∀ q, InArea v q → s.findPte d (addr q) ≠ some p
  reserved : (s.pmm.pages p).reserved = true

theorem InHand.setPage (h : InHand d v s p) {f : Page → Page} (hf : (f (s.pmm.pages p)).reserved = (s.pmm.pages p).reserved) :
    InHand d v (s.setPage p f) p where
  free := h.free
  frame := h.frame
  dir := h.dir
  table := h.table
  reserved := (congrArg Page.reserved (Pmm.setPage_same ..)).trans (hf.trans h.reserved)

theorem Paged.take (h : Paged m d v mem queue s) {l : List ℕ} (hl : s.pmm.freeList = p :: l) (hspare : Spare d v s (n + 1))
    (disk : ℕ → Bool) (fuel : ℕ) : ∃ t, (allocPages disk 1 (fuel + 1)).run s = .ok (some p) { s with pmm := t } ∧
      Paged m d v mem queue { s with pmm := t } ∧ InHand d v { s with pmm := t } p ∧ (t.pages p).ref = 0 ∧
      Spare d v { s with pmm := t } n := by
  obtain ⟨t, hrun, hsound, hlist, hpage, hpages⟩ := allocPages_of_free disk h.sound hl fuel
  have hmem : p ∈ s.pmm.freeList := hl ▸ List.mem_cons_self
  have hsub : ∀ x ∈ t.freeList, x ∈ s.pmm.freeList := fun x hx => hl ▸ List.mem_cons_of_mem _ (hlist ▸ hx)
  have hpnot : p ∉ t.freeList := by
    have hnodup := h.sound.nodup
    rw [hl] at hnodup
    exact hlist ▸ (List.nodup_cons.mp hnodup).1
  have hsame : ∀ x, x ≠ p → (t.pages x).ref = (s.pmm.pages x).ref ∧ (t.pages x).reserved = (s.pmm.pages x).reserved ∧
      (t.pages x).praVaddr = (s.pmm.pages x).praVaddr := fun x hx => by
    obtain ⟨c, hc⟩ := hpages x hx
    rw [hc]
    exact ⟨rfl, rfl, rfl⟩
  have hframe : p ∉ s.praList := fun hin => (h.frames p hin).1 hmem
  have hne : ∀ x ∈ s.praList, x ≠ p := fun x hx heq => hframe (heq ▸ hx)
  have hcount : s.pmm.nrFree = t.nrFree + 1 := by
    rw [h.sound.count, hsound.count, hl, hlist]
    rfl
  refine ⟨t, hrun, ⟨h.toSwapping.congr rfl rfl rfl rfl, hsound, ?_, h.tabled.congr fun _ => rfl, ?_, h.list, h.nodup, ?_,
    h.resident, h.away⟩, ?_, ?_, ?_⟩
  · intro x hx
    rw [(hsame x fun heq => hpnot (heq ▸ hx)).1]
    exact h.freeRef x (hsub x hx)
  · intro x hx
    obtain ⟨hfree, hpra⟩ := h.kernel x hx
    exact ⟨fun hin => hfree (hsub x hin), hpra⟩
  · intro x hx
    obtain ⟨hfree, hres⟩ := h.frames x hx
    exact ⟨fun hin => hfree (hsub x hin), (hsame x (hne x hx)).2.1.trans hres⟩
  · have hkernel : ¬ Kernel d v s p := fun hin => (h.kernel p hin).1 hmem
    exact ⟨hpnot, hframe, fun heq => hkernel (.inl heq), fun q hq hf => hkernel (.inr ⟨q, hq, hf⟩), congrArg Page.reserved hpage⟩
  · exact (congrArg Page.ref hpage).trans (h.freeRef p hmem)
  · obtain ⟨hle, hown⟩ := hspare
    rw [hcount] at hle hown
    refine ⟨?_, fun x hx => ?_⟩
    · show n ≤ t.nrFree + s.praList.length
      omega
    · have hx : x ∈ s.praList.reverse.take (n - t.nrFree) := hx
      have hin := List.mem_reverse.mp (List.mem_of_mem_take hx)
      rw [Nat.add_sub_add_right] at hown
      exact (hown x hx).congr (hsame x (hne x hin)).2.2 fun _ _ _ => rfl

/-- **A request for a page** is granted as long as a page can be had. -/
theorem Paged.alloc {disk : ℕ → Bool} (hdisk : ∀ k, disk k = false) (h : Paged m d v mem queue s)
    (hspare : Spare d v s (n + 1)) (fuel : ℕ) : ∃ p kept out s', (allocPages disk 1 (fuel + 2)).run s = .ok (some p) s' ∧
      queue = kept ++ out ∧ Paged m d v mem kept s' ∧ InHand d v s' p ∧ (s'.pmm.pages p).ref = 0 ∧ Spare d v s' n ∧
      Keeps d v queue s s' := by
  cases hl : s.pmm.freeList with
  | nil =>
    obtain ⟨kept, q, s₁, hqueue, hrun, h₁, hfree, hspare₁, hkeeps⟩ := h.evict hdisk hl hspare
    obtain ⟨t, hrun₁, h₂, hin, href, hspare₂⟩ := h₁.take hfree hspare₁ disk fuel
    refine ⟨s.frame d q, kept, [q], { s₁ with pmm := t }, ?_, hqueue, h₂, hin, href, hspare₂, hkeeps.findPte, hkeeps.pte⟩
    have hnr : s.pmm.nrFree < 1 := by
      rw [h.sound.count, hl]
      exact Nat.one_pos
    rw [allocPages_of_none disk hnr h.swapInitOk, h.checkMm, hrun, Outcome.andThen_ok, hrun₁]
  | cons p l =>
    obtain ⟨t, hrun, h₁, hin, href, hspare₁⟩ := h.take hl hspare disk (fuel + 1)
    exact ⟨p, queue, [], _, hrun, (List.append_nil _).symm, h₁, hin, href, hspare₁, ⟨fun _ => rfl, fun _ _ _ => rfl⟩⟩

end Ucore.Swap
