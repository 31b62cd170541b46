import Ucore.Mm.SwapFaults

/-!
# Runs of accesses under paging

* `Transparent disk fuel m d v l mem queue s` says that paging cannot be seen in the accesses `l` that start in `s`: each of them
  returns, a read with what was last written to its page, and the page that leaves memory is the one that has been there longest
  (`FifoStep`).
* A page that `do_pgfault` reads back from its slot goes to the swap manager without an address: `pgdir_alloc_page` sets
  `pra_vaddr`, and this path does not. When such a page is evicted again, `swap_out` looks for it at the address that the page of
  memory had been used for before. `backAndForth` is a program that this stops.
* `Ready` is the condition on a state under which an access is served: the area allows it, its pages can be had, and those that have
  to be evicted have their own address in `pra_vaddr`. `paging_transparent` is for the runs in which it holds before each access.
-/

namespace Ucore.Swap

open Ucore.Lib
open Ucore.Mm (Pmm Page)
open Ucore.Vm (pageSize ptSize pdx ptx Pte pteP pteW pteU Vma VmError vmWrite vmRead)

variable {β : Type} {s : SwapState β} {m d q la fuel : ℕ} {v : Vma} {mem : ℕ → Option β} {queue : List ℕ} {disk : ℕ → Bool}

/-! ### Accesses -/

/-- A first-in-first-out step: a page that is not in the queue comes in at the front, when pages have left at the end. -/
inductive FifoStep : List ℕ → ℕ → List ℕ → Prop
  | hit {queue : List ℕ} {q : ℕ} (h : q ∈ queue) : FifoStep queue q queue
  | miss {kept out : List ℕ} {q : ℕ} (h : q ∉ kept ++ out) : FifoStep (kept ++ out) q (q :: kept)

theorem FifoStep.mem_after {queue' : List ℕ} (h : FifoStep queue q queue') : q ∈ queue' := by
  cases h with
  | hit h => exact h
  | miss h => exact List.mem_cons_self

/-- The page of the address is in memory, or the area allows the access and the pages for a fault can be had. -/
def Ready (d : ℕ) (v : Vma) (la : ℕ) (write : Bool) (s : SwapState β) : Prop :=
  (s.pte d la).present = true ∨ (v.Allows (s.faultCode d la write) ∧ Spare d v s (faultPages d la s))

/-- The address of a page in memory can be used. -/
theorem Paged.touch_hit (h : Paged m d v mem queue s) (hmem : la / pageSize ∈ queue) (disk : ℕ → Bool) (write : Bool)
    (fuel tries : ℕ) : (touch disk fuel m la write (tries + 1)).run s = .ok (s.frame d (la / pageSize)) s := by
  obtain ⟨-, hent, -⟩ := h.resident _ hmem
  rw [pte_addr] at hent
  rw [touch, Prog.bind_of_ok (Prog.run_get s), h.pgdir, hent]
  dsimp only
  rw [if_pos ⟨Ucore.Vm.Pte.present_insert _, fun _ => h.area.writable _⟩, Prog.run_pure]

/-- **An address is used.** -/
theorem Paged.touch (hdisk : ∀ k, disk k = false) (h : Paged m d v mem queue s) (hla : v.Has la) {write : Bool}
    (hready : Ready d v la write s) (fuel : ℕ) : ∃ queue' s',
      (touch disk (fuel + 2) m la write (fuel + 2)).run s = .ok (s'.frame d (la / pageSize)) s' ∧
        FifoStep queue (la / pageSize) queue' ∧ Paged m d v mem queue' s' := by
  by_cases hmem : la / pageSize ∈ queue
  · exact ⟨queue, s, h.touch_hit hmem disk write _ _, .hit hmem, h⟩
  · have habsent : (s.pte d la).present = false := by
      rw [← pte_addr]
      exact (h.away _ ⟨la, hla, rfl⟩ hmem).not_present
    obtain ⟨hcode, hspare⟩ := hready.resolve_left (by rw [habsent]; exact Bool.false_ne_true)
    obtain ⟨kept, out, s', hrun, rfl, h'⟩ := h.doPgfault hdisk hla hmem hcode hspare fuel
    refine ⟨_, s', ?_, .miss hmem, h'⟩
    rw [Swap.touch, Prog.bind_of_ok (Prog.run_get s), h.pgdir]
    dsimp only
    rw [habsent, if_neg fun hboth => Bool.false_ne_true hboth.1, Prog.bind_of_ok hrun]
    exact h'.touch_hit List.mem_cons_self disk write _ _

theorem frame_content (s : SwapState β) (f : ℕ → β) (d q : ℕ) :
    SwapState.frame { s with content := f } d q = s.frame d q := rfl

/-- A page in memory is written. -/
theorem Paged.store (h : Paged m d v mem queue s) (hq : q ∈ queue) (x : β) :
    Paged m d v (Function.update mem q (some x)) queue
      { s with content := Function.update s.content (s.frame d q) x } := by
  refine ⟨h.toSwapping.congr rfl rfl rfl rfl, h.sound, h.freeRef, h.tabled.congr fun _ => rfl, h.kernel, h.list, h.nodup,
    h.frames, fun q' hq' => ?_, fun q' hq' hnot => ?_⟩
  · obtain ⟨harea, hent, hheld⟩ := h.resident q' hq'
    refine ⟨harea, hent, fun y hy => ?_⟩
    rw [frame_content s (Function.update s.content (s.frame d q) x)]
    dsimp only
    by_cases heq : q' = q
    · subst heq
      rw [Function.update_self] at hy
      rw [Function.update_self]
      exact Option.some.inj hy
    · have hne : s.frame d q' ≠ s.frame d q := fun hframe => heq (h.frame_inj hq' hq hframe)
      rw [Function.update_of_ne heq] at hy
      rw [Function.update_of_ne hne]
      exact hheld y hy
  · have hne : q' ≠ q := fun heq => hnot (heq ▸ hq)
    rw [Away, Function.update_of_ne hne]
    exact h.away q' hq' hnot

/-- The address of an access. -/
def Access.addr : Access β → ℕ
  | .read la => la
  | .write la _ => la

/-- The access is a write. -/
def Access.writes : Access β → Bool
  | .read _ => false
  | .write .. => true

/-- A read returns what was last written to the page. -/
def Access.Returns (mem : ℕ → Option β) (x : β) : Access β → Prop
  | .read la => ∀ y, mem (la / pageSize) = some y → x = y
  | .write .. => True

/-- What was last written to the pages, after the access. -/
def Access.after (mem : ℕ → Option β) : Access β → ℕ → Option β
  | .read _ => mem
  | .write la x => Function.update mem (la / pageSize) (some x)

/-- **An access.** -/
theorem Paged.access (hdisk : ∀ k, disk k = false) (hfuel : 2 ≤ fuel) (h : Paged m d v mem queue s) {a : Access β}
    (ha : v.Has a.addr) (hready : Ready d v a.addr a.writes s) : ∃ x queue' s', (access disk fuel m a).run s = .ok x s' ∧
      a.Returns mem x ∧ FifoStep queue (a.addr / pageSize) queue' ∧ Paged m d v (a.after mem) queue' s' := by
  obtain ⟨fuel, rfl⟩ := Nat.exists_eq_add_of_le' hfuel
  cases a with
  | read la =>
    have hla : v.Has la := ha
    have hready : Ready d v la false s := hready
    obtain ⟨queue', s', hrun, hstep, h'⟩ := h.touch hdisk hla hready fuel
    obtain ⟨-, -, hheld⟩ := h'.resident _ hstep.mem_after
    refine ⟨_, queue', s', ?_, hheld, hstep, h'⟩
    rw [Swap.access, Prog.bind_of_ok hrun, Prog.bind_of_ok (Prog.run_get s')]
    rfl
  | write la x =>
    have hla : v.Has la := ha
    have hready : Ready d v la true s := hready
    obtain ⟨queue', s', hrun, hstep, h'⟩ := h.touch hdisk hla hready fuel
    refine ⟨x, queue', _, ?_, trivial, hstep, h'.store hstep.mem_after x⟩
    rw [Swap.access, Prog.bind_of_ok hrun, Prog.bind_of_ok (Prog.run_modify ..)]
    rfl

theorem Paged.present_iff (h : Paged m d v mem queue s) (hla : v.Has la) :
    (s.pte d la).present = true ↔ la / pageSize ∈ queue := by
  rw [← pte_addr]
  refine ⟨h.mem_queue ⟨la, hla, rfl⟩, fun hmem => ?_⟩
  rw [(h.resident _ hmem).2.1]
  exact Ucore.Vm.Pte.present_insert _

/-! ### Runs -/

section runs

variable (disk : ℕ → Bool) (fuel m : ℕ)

/-- The accesses, one after the other. Returns what they return. -/
def serve : List (Access β) → SwapProg β (List β)
  | [] => pure []
  | a :: l => do
    let x ← access disk fuel m a
    let xs ← serve l
    pure (x :: xs)

variable (d : ℕ) (v : Vma)

/-- Paging cannot be seen in the accesses: each returns, a read with what was last written, and a page that leaves memory has been
there longest. `queue` has the pages in memory, from the one on that came last. -/
def Transparent : List (Access β) → (ℕ → Option β) → List ℕ → SwapState β → Prop
  | [], _, _, _ => True
  | a :: l, mem, queue, s => ∃ x queue' s', (access disk fuel m a).run s = .ok x s' ∧ a.Returns mem x ∧
      FifoStep queue (a.addr / pageSize) queue' ∧
      (∀ la, v.Has la → ((s'.pte d la).present = true ↔ la / pageSize ∈ queue')) ∧
      Transparent l (a.after mem) queue' s'

/-- Every access finds what it takes. -/
def EachReady : List (Access β) → SwapState β → Prop
  | [], _ => True
  | a :: l, s => Ready d v a.addr a.writes s ∧ ∀ x s', (access disk fuel m a).run s = .ok x s' → EachReady l s'

end runs

theorem Transparent.serve {l : List (Access β)} (h : Transparent disk fuel m d v l mem queue s) :
    ∃ xs s', (serve disk fuel m l).run s = .ok xs s' := by
  induction l generalizing mem queue s with
  | nil => exact ⟨[], s, rfl⟩
  | cons a l ih =>
    obtain ⟨x, queue', s₁, hrun, -, -, -, hrest⟩ := h
    obtain ⟨xs, s₂, hrun₂⟩ := ih hrest
    refine ⟨x :: xs, s₂, ?_⟩
    rw [Swap.serve, Prog.bind_of_ok hrun, Prog.bind_of_ok hrun₂]
    rfl

/-- **A run of accesses.** -/
theorem Paged.transparent (hdisk : ∀ k, disk k = false) (hfuel : 2 ≤ fuel) {l : List (Access β)}
    (h : Paged m d v mem queue s) (hl : ∀ a ∈ l, v.Has a.addr) (hready : EachReady disk fuel m d v l s) :
    Transparent disk fuel m d v l mem queue s := by
  induction l generalizing s mem queue with
  | nil => trivial
  | cons a l ih =>
    obtain ⟨hfirst, hrest⟩ := hready
    obtain ⟨x, queue', s', hrun, hreturns, hstep, h'⟩ := h.access hdisk hfuel (hl a List.mem_cons_self) hfirst
    exact ⟨x, queue', s', hrun, hreturns, hstep, fun la hla => h'.present_iff hla,
      ih h' (fun b hb => hl b (List.mem_cons_of_mem a hb)) (hrest x s' hrun)⟩

/-- No page of the area has been used yet. -/
structure Start (m d : ℕ) (v : Vma) (s : SwapState β) : Prop extends Swapping m d v s where
  sound : s.pmm.Sound
  freeRef : ∀ p ∈ s.pmm.freeList, (s.pmm.pages p).ref = 0
  tabled : Tabled v d s
  kernel : ∀ p, Kernel d v s p → p ∉ s.pmm.freeList
  list : s.praList = []
  unused : ∀ q, InArea v q → s.pte d (addr q) = .zero

theorem Start.paged (h : Start m d v s) : Paged m d v (fun _ => none) [] s := by
  refine ⟨h.toSwapping, h.sound, h.freeRef, h.tabled, fun p hp => ⟨h.kernel p hp, ?_⟩, h.list, ?_, ?_, ?_, fun q hq _ => ?_⟩
  · rw [h.list]
    exact List.not_mem_nil
  · rw [h.list]
    exact List.nodup_nil
  · intro p hp
    rw [h.list] at hp
    cases hp
  · intro q hq
    cases hq
  · exact .inl ⟨h.unused q hq, rfl⟩

/-- Paging is transparent as long as each access finds what it takes. -/
theorem paging_transparent (hdisk : ∀ k, disk k = false) (hfuel : 2 ≤ fuel) (h : Start m d v s) {l : List (Access β)}
    (hl : ∀ a ∈ l, v.Has a.addr) (hready : EachReady disk fuel m d v l s) :
    Transparent disk fuel m d v l (fun _ => none) [] s :=
  h.paged.transparent hdisk hfuel hl hready


/-- Two pages that may be read and written. -/
def twoPages : Vma := ⟨0, 4096, 12288, vmRead ||| vmWrite⟩

/-- There are two free pages of memory. -/
def twoFrames : SwapState ℕ where
  pmm := ⟨fun p => if p = 7 then ⟨0, false, true, 2, 0⟩ else ⟨0, p ≠ 8, false, 0, 0⟩, [7, 8], 2⟩
  swapInitOk := true
  checkMm := some 0
  mm := fun _ => ⟨[twoPages], none, 1, true⟩
  praList := []
  entry := fun _ _ => .zero
  content := fun _ => 0
  slot := fun _ => 0
  maxSwapOffset := 1024
  requests := 0

theorem twoFrames_start : Start 0 1 twoPages twoFrames := by
  have hnone : ∀ la, twoFrames.findPte 1 la = none := fun la => by
    rw [SwapState.findPte, show twoFrames.entry 1 (pdx la) = .zero from rfl]
    exact if_neg (by decide)
  refine ⟨⟨⟨by decide, by decide⟩, rfl, rfl, rfl, rfl, fun la hla => ?_, fun q hq => ?_⟩, ⟨⟨[(7, 2)], ?_⟩, rfl⟩, by decide, ?_,
    fun p hp => ?_, rfl, fun q _ => ?_⟩
  · rw [MmStruct.found, show (twoFrames.mm 0).mmapList = [twoPages] from rfl, List.find?_cons_of_pos (by simpa using hla)]
    rfl
  · obtain ⟨la, hla, rfl⟩ := hq
    have hlt : la < 12288 := hla.2
    show la / 4096 + 1 < 1024
    omega
  · refine ⟨rfl, ⟨by decide, List.pairwise_singleton ..⟩, by decide, fun r hr k h0 hk => ?_⟩
    rw [List.mem_singleton.mp hr] at hk ⊢
    obtain rfl : k = 1 := by
      have hk : k < 2 := hk
      omega
    rfl
  · constructor
    · intro q t _ hf
      cases (hnone _).symm.trans hf
    · intro q q' t _ _ hf
      cases (hnone _).symm.trans hf
  · rcases hp with rfl | ⟨q, -, hf⟩
    · decide
    · cases (hnone _).symm.trans hf
  · rw [SwapState.pte, hnone]

theorem twoFrames_ready (write : Bool) : Ready 1 twoPages 4096 write twoFrames := by
  refine .inr ⟨?_, by decide, fun p hp => ?_⟩
  · cases write <;> decide
  · cases hp

/-- What is written to a page can be read. -/
theorem paging_transparent_twoFrames :
    Transparent (fun _ => false) 2 0 1 twoPages [.write 4096 5, .read 4096] (fun _ => none) [] twoFrames := by
  have hla : twoPages.Has 4096 := by decide
  refine paging_transparent (fun _ => rfl) le_rfl twoFrames_start (by simpa [Access.addr] using hla)
    ⟨twoFrames_ready true, fun x s' hrun => ⟨.inl ?_, fun _ _ _ => trivial⟩⟩
  have hdisk : ∀ k, (fun _ => false : ℕ → Bool) k = false := fun _ => rfl
  obtain ⟨x', queue', s'', hrun', -, hstep, h'⟩ := twoFrames_start.paged.access hdisk le_rfl (a := .write 4096 5) hla
    (twoFrames_ready true)
  obtain ⟨rfl, rfl⟩ := Outcome.ok.inj (hrun.symm.trans hrun')
  exact (h'.present_iff hla).mpr hstep.mem_after

/-- Two pages are written and read again. -/
def backAndForth : List (Access ℕ) := [.write 4096 1, .write 8192 2, .read 4096, .read 8192]

/-- The first page comes back to the page of memory of the second one, and keeps its `pra_vaddr`. -/
theorem backAndForth_stops : (serve (fun _ => false) 2 0 backAndForth).run twoFrames = .panic .notPresent :=
  Outcome.of_site (by decide +kernel)

/-- Paging is not transparent for every sequence of accesses. -/
theorem not_paging_transparent : ¬ ∀ (fuel m d : ℕ) (v : Vma) (s : SwapState ℕ) (l : List (Access ℕ)), 2 ≤ fuel → Start m d v s →
    s.pmm.freeList ≠ [] → (∀ a ∈ l, v.Has a.addr) → Transparent (fun _ => false) fuel m d v l (fun _ => none) [] s := by
  intro h
  obtain ⟨xs, s', hrun⟩ := (h 2 0 1 twoPages twoFrames backAndForth le_rfl twoFrames_start (by decide) (by decide)).serve
  rw [backAndForth_stops] at hrun
  cases hrun

end Ucore.Swap
