import Ucore.Mm.SwapSpace

/-!
# Page faults when pages come and go

* `Paged.getPte` is the page table for the address of a fault, `Paged.pgdirAllocPage` a page that is used for the first time, and
  `Paged.pgfaultSwapIn` one that comes back from its slot. `Paged.map` is what the last two have in common.
* `Paged.doPgfault`: a fault that the area allows is served, as long as the pages that it takes (`faultPages`) can be had. The page
  is in memory then, and a last part of `queue` is not.
-/

namespace Ucore.Swap

open Ucore.Lib
open Ucore.Mm (Pmm Page)
open Ucore.Vm (pageSize ptSize pdx ptx Pte pteP pteW pteU Vma VmError)

variable {β : Type} {s : SwapState β} {m d t q p n la : ℕ} {v : Vma} {mem : ℕ → Option β} {queue : List ℕ}

/-! ### Page tables that are made -/

theorem SwapState.setPage_of_ne (s : SwapState β) (f : Page → Page) {p' : ℕ} (h : p' ≠ p) :
    (s.setPage p f).pmm.pages p' = s.pmm.pages p' := Pmm.setPage_of_ne _ _ _ h

theorem SwapState.setPage_same (s : SwapState β) (f : Page → Page) : (s.setPage p f).pmm.pages p = f (s.pmm.pages p) :=
  Pmm.setPage_same ..

/-- A change of a page in use that the allocator does not see. -/
theorem Paged.setPage (h : Paged m d v mem queue s) (hp : p ∉ s.pmm.freeList) {f : Page → Page}
    (hprop : (f (s.pmm.pages p)).property = (s.pmm.pages p).property)
    (hres : (f (s.pmm.pages p)).reserved = (s.pmm.pages p).reserved) : Paged m d v mem queue (s.setPage p f) := by
  refine ⟨h.toSwapping.congr rfl rfl rfl rfl, h.sound.setPage hprop, fun x hx => ?_, h.tabled.congr fun _ => rfl, h.kernel,
    h.list, h.nodup, fun x hx => ⟨(h.frames x hx).1, ?_⟩, h.resident, h.away⟩
  · have hne : x ≠ p := fun heq => hp (heq ▸ hx)
    exact (congrArg Page.ref (s.setPage_of_ne f hne)).trans (h.freeRef x hx)
  · by_cases heq : x = p
    · rw [heq]
      exact (congrArg Page.reserved (s.setPage_same f)).trans (hres.trans (h.frames p (heq ▸ hx)).2)
    · exact (congrArg Page.reserved (s.setPage_of_ne f heq)).trans (h.frames x hx).2

theorem Paged.withTable (h : Paged m d v mem queue s) (hin : InHand d v s t) (hq : InArea v q)
    (hnone : s.findPte d (addr q) = none) : Paged m d v mem queue (s.withTable d (pdx (addr q)) t) := by
  have hpte : ∀ q', InArea v q' → (s.withTable d (pdx (addr q)) t).pte d (addr q') = s.pte d (addr q') := fun q' hq' =>
    h.tabled.pte_withTable h.area hq hq' hin.dir (hin.table q' hq') hnone
  refine ⟨h.toSwapping.congr rfl rfl rfl rfl, h.sound, h.freeRef, h.tabled.withTable h.area hq hin.dir hin.table, ?_, ?_,
    h.nodup, h.frames, fun q' hq' => ?_, fun q' hq' hnot => ?_⟩
  · rintro x (rfl | ⟨q', hq', hf⟩)
    · exact h.kernel x (.inl rfl)
    · rw [findPte_withTable h.area hq hq' hin.dir] at hf
      split_ifs at hf
      · rw [← Option.some.inj hf]
        exact ⟨hin.free, hin.frame⟩
      · exact h.kernel x (.inr ⟨q', hq', hf⟩)
  · refine h.list.trans (List.map_congr_left fun q' hq' => ?_)
    exact (congrArg Pte.ppn (hpte q' (h.resident q' hq').1)).symm
  · obtain ⟨hqarea, hent, hheld⟩ := h.resident q' hq'
    rw [SwapState.frame, hpte q' hqarea]
    exact ⟨hqarea, hent, hheld⟩
  · rw [Away, hpte q' hq']
    exact h.away q' hq' hnot

/-- **The page table** for an address of the area. -/
theorem Paged.getPte {disk : ℕ → Bool} (hdisk : ∀ k, disk k = false) (h : Paged m d v mem queue s) (hq : InArea v q)
    (hspare : Spare d v s (if s.findPte d (addr q) = none then n + 1 else n)) (fuel : ℕ) :
    ∃ t kept out s', (getPte disk (fuel + 2) d (addr q)).run s = .ok (some t) s' ∧ queue = kept ++ out ∧
      Paged m d v mem kept s' ∧ s'.findPte d (addr q) = some t ∧ Spare d v s' n ∧
      ∀ q', InArea v q' → q' ∉ queue → s'.pte d (addr q') = s.pte d (addr q') := by
  rw [Swap.getPte, Prog.bind_of_ok (Prog.run_get s)]
  cases hf : s.findPte d (addr q) with
  | some t =>
    rw [hf, if_neg (Option.some_ne_none t)] at hspare
    exact ⟨t, queue, [], s, rfl, (List.append_nil _).symm, h, hf, hspare, fun _ _ _ => rfl⟩
  | none =>
    rw [hf, if_pos rfl] at hspare
    obtain ⟨t, kept, out, s₁, hrun, hqueue, h₁, hin, -, hspare₁, hkeeps⟩ := h.alloc hdisk hspare fuel
    have hnone : s₁.findPte d (addr q) = none := (hkeeps.findPte _).trans hf
    have h₂ : Paged m d v mem kept (s₁.setPage t fun pg => { pg with ref := 1 }) := h₁.setPage hin.free rfl rfl
    have hin₂ : InHand d v (s₁.setPage t fun pg => { pg with ref := 1 }) t := hin.setPage rfl
    have hpte : ∀ q', InArea v q' →
        ((s₁.setPage t fun pg => { pg with ref := 1 }).withTable d (pdx (addr q)) t).pte d (addr q') = s₁.pte d (addr q') :=
      fun q' hq' => h₂.tabled.pte_withTable h₂.area hq hq' hin.dir (hin₂.table q' hq') hnone
    refine ⟨t, kept, out, (s₁.setPage t fun pg => { pg with ref := 1 }).withTable d (pdx (addr q)) t, ?_, hqueue,
      h₂.withTable hin₂ hq hnone, ?_, hspare₁.congr rfl rfl (fun p hp => ?_) hpte, fun q' hq' hnot => ?_⟩
    · dsimp only
      rw [Prog.bind_of_ok hrun]
      rfl
    · rw [findPte_withTable h.area hq hq hin.dir, if_pos rfl]
    · have hne : p ≠ t := fun heq => hin.frame (heq ▸ hp)
      exact congrArg Page.praVaddr (s₁.setPage_of_ne (fun pg => { pg with ref := 1 }) hne)
    · rw [hpte q' hq', hkeeps.pte q' hq' hnot]

/-! ### Pages that come into memory -/

/-- **A page comes in.** -/
theorem Paged.map (h : Paged m d v mem queue s) (hin : InHand d v s p) (hq : InArea v q) (hnot : q ∉ queue)
    (hf : s.findPte d (addr q) = some t) (hheld : ∀ x, mem q = some x → s.content p = x) :
    Paged m d v mem (q :: queue)
      { s.setEntry t (ptx (addr q)) ⟨p, pteP ||| v.perm⟩ with praList := p :: s.praList } := by
  let s' : SwapState β := { s.setEntry t (ptx (addr q)) ⟨p, pteP ||| v.perm⟩ with praList := p :: s.praList }
  have hfindPte : ∀ la, s'.findPte d la = s.findPte d la := findPte_setEntry s (h.tabled.ne hq hf) _ _
  have hpte : ∀ {q'}, InArea v q' → s'.pte d (addr q') = if q' = q then ⟨p, pteP ||| v.perm⟩ else s.pte d (addr q') :=
    fun hq' => h.tabled.pte_setEntry hq hf hq' _
  have hkeep : ∀ q' ∈ queue, s'.pte d (addr q') = s.pte d (addr q') := fun q' hq' => by
    rw [hpte (h.resident q' hq').1, if_neg]
    rintro rfl
    exact hnot hq'
  have hnew : s'.pte d (addr q) = ⟨p, pteP ||| v.perm⟩ := (hpte hq).trans (if_pos rfl)
  have hframe : s'.frame d q = p := congrArg Pte.ppn hnew
  refine ⟨h.toSwapping.congr rfl rfl rfl rfl, h.sound, h.freeRef, h.tabled.congr hfindPte, fun x hx => ?_, ?_,
    List.nodup_cons.mpr ⟨hin.frame, h.nodup⟩, fun x hx => ?_, fun q' hq' => ?_, fun q' hq' hnotin => ?_⟩
  · have hold : Kernel d v s x := hx.congr hfindPte
    obtain ⟨hfree, hlist⟩ := h.kernel x hold
    refine ⟨hfree, fun hmem => ?_⟩
    rcases List.mem_cons.mp hmem with rfl | hmem
    · rcases hold with rfl | ⟨q', hq', hf'⟩
      · exact hin.dir rfl
      · exact hin.table q' hq' hf'
    · exact hlist hmem
  · show p :: s.praList = s'.frame d q :: queue.map (s'.frame d)
    rw [hframe, h.list]
    exact congrArg _ (List.map_congr_left fun q' hq' => (congrArg Pte.ppn (hkeep q' hq')).symm)
  · rcases List.mem_cons.mp hx with rfl | hx
    · exact ⟨hin.free, hin.reserved⟩
    · exact h.frames x hx
  · rcases List.mem_cons.mp hq' with rfl | hq'
    · refine ⟨hq, ?_, fun x hx => ?_⟩
      · exact hnew.trans (congrArg (Pte.mk · _) hframe.symm)
      · exact (congrArg s.content hframe).trans (hheld x hx)
    · obtain ⟨harea, hent, hkept⟩ := h.resident q' hq'
      have hsame : s'.frame d q' = s.frame d q' := congrArg Pte.ppn (hkeep q' hq')
      refine ⟨harea, ?_, fun x hx => ?_⟩
      · exact (hkeep q' hq').trans (hent.trans (congrArg (Pte.mk · _) hsame.symm))
      · exact (congrArg s.content hsame).trans (hkept x hx)
  · rw [List.mem_cons, not_or] at hnotin
    have haway := h.away q' hq' hnotin.2
    rw [Away, show SwapState.pte _ d (addr q') = _ from hpte hq', if_neg hnotin.1]
    exact haway

/-- The state when the page `p` has been mapped at an entry that was not present. -/
def SwapState.inserted (s : SwapState β) (t i p : ℕ) (perm : BitVec 12) : SwapState β :=
  (s.setPage p fun pg => { pg with ref := pg.ref + 1 }).setEntry t i ⟨p, pteP ||| perm⟩

theorem Paged.inserted (h : Paged m d v mem queue s) (hin : InHand d v s p) (hq : InArea v q) (hnot : q ∉ queue)
    (hf : s.findPte d (addr q) = some t) (hheld : ∀ x, mem q = some x → s.content p = x) :
    Paged m d v mem (q :: queue) { s.inserted t (ptx (addr q)) p v.perm with praList := p :: s.praList } :=
  (h.setPage hin.free (f := fun pg => { pg with ref := pg.ref + 1 }) rfl rfl).map (hin.setPage rfl) hq hnot hf hheld

theorem pageInsert_run (disk : ℕ → Bool) (fuel : ℕ) (hf : s.findPte d la = some t) (habsent : (s.pte d la).present = false)
    (perm : BitVec 12) : (pageInsert disk fuel d p la perm).run s = .ok () (s.inserted t (ptx la) p perm) := by
  have hentry : s.entry t (ptx la) = s.pte d la := by rw [SwapState.pte, hf]
  have hgetPte : (Swap.getPte disk fuel d la).run s = .ok (some t) s := by
    rw [Swap.getPte, Prog.bind_of_ok (Prog.run_get s), hf]
    rfl
  rw [pageInsert, Prog.bind_of_ok hgetPte]
  dsimp only
  rw [Prog.bind_of_ok (Prog.run_modify ..), Prog.bind_of_ok (Prog.run_get _),
    show ((s.setPage p fun pg => { pg with ref := pg.ref + 1 }).entry t (ptx la)) = s.pte d la from hentry, habsent,
    if_neg Bool.false_ne_true, Prog.bind_of_ok (Prog.run_pure ..), Prog.run_modify]
  rfl

theorem fifoMapSwappable_run (hpriv : (s.mm m).smPriv = true) (p : ℕ) :
    (fifoMapSwappable m p).run s = .ok () { s with praList := p :: s.praList } := by
  rw [fifoMapSwappable, Prog.bind_of_ok (Prog.run_get s), Prog.bind_of_ok (Prog.run_assert_of _ _ hpriv), Prog.run_modify]

theorem recordPage_run (hswap : s.swapInitOk = true) (hmm : s.checkMm = some m) (hpriv : (s.mm m).smPriv = true)
    (href : (s.pmm.pages p).ref = 1) (la : ℕ) : (recordPage la p).run s =
      .ok () ({ s with praList := p :: s.praList }.setPage p fun pg => { pg with praVaddr := la }) := by
  have hone : (({ s with praList := p :: s.praList }.setPage p fun pg => { pg with praVaddr := la }).pmm.pages p).ref = 1 :=
    (congrArg Page.ref (SwapState.setPage_same ..)).trans href
  rw [recordPage, Prog.bind_of_ok (Prog.run_get s), if_pos hswap]
  split
  · next hnone =>
      rw [hmm] at hnone
      cases hnone
  · next m' hsome =>
      obtain rfl : m = m' := Option.some.inj (hmm.symm.trans hsome)
      rw [Prog.bind_of_ok (fifoMapSwappable_run hpriv p), Prog.bind_of_ok (Prog.run_modify ..),
        Prog.bind_of_ok (Prog.run_get _), Prog.run_assert_of _ _ hone]

/-- **A page that is used for the first time.** -/
theorem Paged.pgdirAllocPage {disk : ℕ → Bool} (hdisk : ∀ k, disk k = false) (h : Paged m d v mem queue s) (hq : InArea v q)
    (hnot : q ∉ queue) (hf : s.findPte d (addr q) = some t) (hzero : s.pte d (addr q) = .zero) (hspare : Spare d v s 1)
    (fuel : ℕ) : ∃ p kept out s', (pgdirAllocPage disk (fuel + 2) d (addr q) v.perm).run s = .ok (some p) s' ∧
      queue = kept ++ out ∧ Paged m d v mem (q :: kept) s' := by
  obtain ⟨p, kept, out, s₁, hrun, rfl, h₁, hin, href, -, hkeeps⟩ := h.alloc hdisk hspare fuel
  have hf₁ : s₁.findPte d (addr q) = some t := (hkeeps.findPte _).trans hf
  have hzero₁ : s₁.pte d (addr q) = .zero := (hkeeps.pte q hq hnot).trans hzero
  have habsent : (s₁.pte d (addr q)).present = false := by rw [hzero₁]; rfl
  have hnone : mem q = none := by
    rcases h.away q hq hnot with ⟨-, hnone⟩ | ⟨hswap, -⟩
    · exact hnone
    · exact absurd (hswap.symm.trans hzero) (swapEntry_ne_zero (Nat.succ_pos q))
  have hmap := h₁.inserted hin hq (fun hmem => hnot (List.mem_append_left _ hmem)) hf₁ fun x hx => by
    rw [hnone] at hx
    cases hx
  have href₂ : ((s₁.inserted t (ptx (addr q)) p v.perm).pmm.pages p).ref = 1 := by
    have hinc := congrArg Page.ref (s₁.setPage_same (p := p) fun pg => { pg with ref := pg.ref + 1 })
    exact hinc.trans (by rw [href]; rfl)
  have hinsert := pageInsert_run disk (p := p) (fuel + 2) hf₁ habsent v.perm
  have hrecord := recordPage_run (s := s₁.inserted t (ptx (addr q)) p v.perm) h₁.swapInitOk h₁.checkMm h₁.smPriv href₂
    (addr q)
  refine ⟨p, kept, out, _, ?_, rfl, hmap.setPage (f := fun pg => { pg with praVaddr := addr q }) hin.free rfl rfl⟩
  rw [Swap.pgdirAllocPage, Prog.bind_of_ok hrun]
  dsimp only
  rw [Prog.bind_of_ok (Prog.attempt_of_ok hinsert)]
  dsimp only
  rw [Prog.bind_of_ok hrecord]
  rfl

/-- A page that is not in use yet is filled. -/
theorem Paged.filled (h : Paged m d v mem queue s) (hp : p ∉ s.praList) (x : β) (r : ℕ) :
    Paged m d v mem queue { s with requests := r, content := Function.update s.content p x } := by
  refine ⟨h.toSwapping.congr rfl rfl rfl rfl, h.sound, h.freeRef, h.tabled.congr fun _ => rfl,
    h.kernel, h.list, h.nodup, h.frames, fun q hq => ?_, h.away⟩
  obtain ⟨harea, hent, hheld⟩ := h.resident q hq
  have hne : s.frame d q ≠ p := fun heq => hp (heq ▸ h.mem_praList hq)
  exact ⟨harea, hent, fun y hy => (Function.update_of_ne hne ..).trans (hheld y hy)⟩

/-- **A page that comes back** from the disk. -/
theorem Paged.pgfaultSwapIn {disk : ℕ → Bool} (hdisk : ∀ k, disk k = false) (h : Paged m d v mem queue s) (hq : InArea v q)
    (hnot : q ∉ queue) (hf : s.findPte d (addr q) = some t) (hswap : s.pte d (addr q) = swapEntry (q + 1))
    (hspare : Spare d v s 1) (fuel : ℕ) : ∃ kept out s', (pgfaultSwapIn disk (fuel + 2) m (addr q) v.perm).run s = .ok () s' ∧
      queue = kept ++ out ∧ Paged m d v mem (q :: kept) s' := by
  obtain ⟨p, kept, out, s₁, hrun, rfl, h₁, hin, -, -, hkeeps⟩ := h.alloc hdisk hspare fuel
  have hnot₁ : q ∉ kept := fun hmem => hnot (List.mem_append_left _ hmem)
  have hf₁ : s₁.findPte d (addr q) = some t := (hkeeps.findPte _).trans hf
  have hswap₁ : s₁.pte d (addr q) = swapEntry (q + 1) := (hkeeps.pte q hq hnot).trans hswap
  have hentry : s₁.entry t (ptx (addr q)) = swapEntry (q + 1) := by rw [← hswap₁, SwapState.pte, hf₁]
  have hheld : ∀ x, mem q = some x → s₁.slot (q + 1) = x := by
    rcases h₁.away q hq hnot₁ with ⟨hzero, -⟩ | ⟨-, hheld⟩
    · exact absurd (hswap₁.symm.trans hzero) (swapEntry_ne_zero (Nat.succ_pos q))
    · exact hheld
  let s₂ : SwapState β := { s₁ with
    requests := s₁.requests + 1
    content := Function.update s₁.content p (s₁.slot (q + 1)) }
  have h₂ : Paged m d v mem kept s₂ := h₁.filled hin.frame _ _
  have hin₂ : InHand d v s₂ p := ⟨hin.free, hin.frame, hin.dir, hin.table, hin.reserved⟩
  have hswapIn : (swapIn disk (fuel + 2) m (addr q)).run s = .ok p s₂ := by
    rw [swapIn, Prog.bind_of_ok hrun]
    dsimp only
    rw [Prog.bind_of_ok (Prog.run_get s₁), h₁.pgdir, hf₁]
    dsimp only
    rw [hentry, Prog.bind_of_ok (swapfsRead_run hdisk p (h₁.slots q hq)), Prog.run_pure]
  have habsent : (s₂.pte d (addr q)).present = false := (congrArg Pte.present hswap₁).trans (present_swapEntry _)
  have hinsert := pageInsert_run disk (p := p) (fuel + 2) (show s₂.findPte d (addr q) = some t from hf₁) habsent v.perm
  refine ⟨kept, out, _, ?_, rfl, h₂.inserted hin₂ hq hnot₁ hf₁ fun x hx => ?_⟩
  · rw [Swap.pgfaultSwapIn, Prog.bind_of_ok hswapIn, Prog.bind_of_ok (Prog.run_get s₂), h₂.pgdir,
      Prog.bind_of_ok (Prog.attempt_of_ok hinsert)]
    exact fifoMapSwappable_run (s := s₂.inserted t (ptx (addr q)) p v.perm) h₁.smPriv p
  · exact (Function.update_self ..).trans (hheld x hx)

/-! ### Page faults -/

/-- `find_vma` finds the area, and remembers it. -/
theorem Paged.findVma (h : Paged m d v mem queue s) (hla : v.Has la) : ∃ s', (findVma m la).run s = .ok (some v) s' ∧
    Paged m d v mem queue s' ∧ s'.pmm = s.pmm ∧ s'.praList = s.praList ∧ s'.entry = s.entry := by
  let s' : SwapState β := { s with mm := Function.update s.mm m { s.mm m with mmapCache := some v } }
  have hmm : s'.mm m = { s.mm m with mmapCache := some v } := Function.update_self ..
  refine ⟨s', ?_, ⟨⟨h.area, h.swapInitOk, h.checkMm, ?_, ?_, fun la' hla' => ?_, h.slots⟩, h.sound, h.freeRef,
    h.tabled.congr fun _ => rfl, h.kernel, h.list, h.nodup, h.frames, h.resident, h.away⟩, rfl, rfl, rfl⟩
  · have hfound := h.found la hla
    rw [MmStruct.found] at hfound
    rw [Swap.findVma, Prog.bind_of_ok (Prog.run_get s)]
    dsimp only
    rw [hfound]
    rfl
  · rw [hmm]
    exact h.smPriv
  · rw [hmm]
    exact h.pgdir
  · rw [hmm, MmStruct.found, Option.filter_some_pos (by simpa using hla')]
    rfl

/-- The pages that a fault at an address takes. -/
def faultPages (d la : ℕ) (s : SwapState β) : ℕ := if s.findPte d la = none then 2 else 1

/-- **A page fault.** -/
theorem Paged.doPgfault {disk : ℕ → Bool} (hdisk : ∀ k, disk k = false) (h : Paged m d v mem queue s) (hla : v.Has la)
    (hnot : la / pageSize ∉ queue) {code : ℕ} (hcode : v.Allows code) (hspare : Spare d v s (faultPages d la s)) (fuel : ℕ) :
    ∃ kept out s', (doPgfault disk (fuel + 2) m code la).run s = .ok () s' ∧ queue = kept ++ out ∧
      Paged m d v mem (la / pageSize :: kept) s' := by
  have hq : InArea v (la / pageSize) := ⟨la, hla, rfl⟩
  obtain ⟨s₀, hfind, h₀, hpmm, hlist, hent⟩ := h.findVma hla
  have hfindPte₀ : s₀.findPte d (addr (la / pageSize)) = s.findPte d la := by
    rw [findPte_addr, SwapState.findPte, hent]
    rfl
  have hspare₀ : Spare d v s₀ (if s₀.findPte d (addr (la / pageSize)) = none then 1 + 1 else 1) := by
    rw [hfindPte₀]
    refine Spare.congr hspare (by rw [hpmm]) hlist (fun p _ => by rw [hpmm]) fun q _ => ?_
    rw [SwapState.pte, SwapState.findPte, hent]
    rfl
  obtain ⟨t, kept, out, s₁, hgetPte, rfl, h₁, hf₁, hspare₁, hpte₁⟩ := h₀.getPte hdisk hq hspare₀ fuel
  have hnot₁ : la / pageSize ∉ kept := fun hmem => hnot (List.mem_append_left _ hmem)
  have hentry : s₁.entry t (ptx (addr (la / pageSize))) = s₁.pte d (addr (la / pageSize)) := by rw [SwapState.pte, hf₁]
  rw [Swap.doPgfault, Prog.bind_of_ok hfind]
  dsimp only
  rw [if_neg (not_or.mpr ⟨not_lt.mpr hla.1, not_not.mpr hcode⟩), Prog.bind_of_ok (Prog.run_get s₀), h₀.pgdir,
    show la / pageSize * pageSize = addr (la / pageSize) from rfl, Prog.bind_of_ok hgetPte]
  dsimp only
  rw [Prog.bind_of_ok (Prog.run_get s₁), hentry, h₁.pgdir]
  rcases h₁.away _ hq hnot₁ with ⟨hzero, -⟩ | ⟨hswap, -⟩
  · obtain ⟨p, kept₂, out₂, s₂, hrun, rfl, h₂⟩ := h₁.pgdirAllocPage hdisk hq hnot₁ hf₁ hzero hspare₁ fuel
    refine ⟨kept₂, out₂ ++ out, s₂, ?_, List.append_assoc .., h₂⟩
    rw [if_pos hzero, Prog.bind_of_ok hrun]
    rfl
  · obtain ⟨kept₂, out₂, s₂, hrun, rfl, h₂⟩ := h₁.pgfaultSwapIn hdisk hq hnot₁ hf₁ hswap hspare₁ fuel
    refine ⟨kept₂, out₂ ++ out, s₂, ?_, List.append_assoc .., h₂⟩
    have hne : s₁.pte d (addr (la / pageSize)) ≠ .zero := hswap ▸ swapEntry_ne_zero (Nat.succ_pos _)
    rw [if_neg hne, hswap, present_swapEntry, if_neg Bool.false_ne_true, if_pos h₁.swapInitOk, hrun]

end Ucore.Swap
