import Ucore.Lib.Prog
import Ucore.Lib.FreeRing

/-!
# The SLOB heap

The allocator behind `kmalloc` and `kfree`, `kern/mm/kmalloc.c`: a circular list of free blocks in
address order whose entry `slobfree` moves around, and a list of descriptors for the blocks that take
whole pages.

* `Slob` is the state: memory word by word, the two list heads, and the runs of pages the allocator
  holds. A free block starts with its length in units of eight bytes and the link to the next one; a
  live small block starts with its length; a descriptor has three words.
* `alloc_pages` is not part of the heap: it is the parameter `pick`, which answers a request with an
  address or with nothing, and may look at the runs that are out. `PickOk` is what is known of it.
* `slobAlloc`, `slobFree`, `kmalloc`, `kfree` are the functions of the source. The searches are
  `walk`s that give up at `Slob.bound` (the site `looped`), a number the free list never reaches.
* `SlobList A s F`: the blocks `F` are the free list. `SlobList.free_run` and `SlobList.take` say what
  putting a block back and taking one do to it, whatever else is in use.
* `Tiling A s F H` is the representation invariant: the blocks `F` are the free list, the regions `H`
  are in use, and together they are the arena and the pages of the heap. `slobFree_run` and
  `slobAlloc_run` say what the two functions do to it.
-/

namespace Ucore.Mm

open Ucore.Lib

/-- The bytes of a page. Source: `kern/mm/mmu.h` `PGSIZE` -/
def pageSize : ℕ := 4096

/-- The bytes of a unit. Source: `kern/mm/kmalloc.c` `SLOB_UNIT` -/
def slobUnit : ℕ := 8

/-- Source: `kern/mm/kmalloc.c` `SLOB_UNITS` -/
def slobUnits (size : ℕ) : ℕ := (size + slobUnit - 1) / slobUnit

/-- `sizeof(bigblock_t)`: three words. -/
def sizeofBigblock : ℕ := 12

/-- The heap: memory, the variables of the source, and the pages it holds. -/
structure Slob where
  /-- The words of memory, by byte address. -/
  mem : ℕ → ℕ
  /-- The block the next search starts from. -/
  slobfree : ℕ
  /-- The first descriptor, or 0. -/
  bigblocks : ℕ
  /-- The runs of pages obtained from `alloc_pages` and not given back: address and bytes. -/
  used : List Extent
  /-- The pages that have been added to the free list, for the count only. -/
  pages : List ℕ

/-- Where the heap can stop: at the assertion of `slob_alloc`, or in a search that does not end. -/
inductive SlobPanic where
  | allocSize | looped
  deriving Repr, DecidableEq

abbrev SlobM := Prog SlobPanic Empty Slob

namespace Slob

variable (s : Slob)

/-- `b->units` -/
def units (b : ℕ) : ℕ := s.mem b

/-- `b->next` of a `slob_t` -/
def next (b : ℕ) : ℕ := s.mem (b + 4)

/-- `bb->order` -/
def order (bb : ℕ) : ℕ := s.mem bb

/-- `bb->pages` -/
def bigPages (bb : ℕ) : ℕ := s.mem (bb + 4)

/-- `bb->next` of a `bigblock_t` -/
def bigNext (bb : ℕ) : ℕ := s.mem (bb + 8)

/-- Write a word. -/
def store (a v : ℕ) : Slob := { s with mem := Function.update s.mem a v }

/-- `b->units = v` -/
def setUnits (b v : ℕ) : Slob := s.store b v

/-- `b->next = v` -/
def setNext (b v : ℕ) : Slob := s.store (b + 4) v

/-- The number of steps after which a search gives up: the units of the heap are one for the arena and
512 for each page, and every block has one. -/
def bound : ℕ := 512 * s.pages.length + 2

end Slob

/-- The answer of `alloc_pages` to a request for `n` pages, as an address, when the runs `used` are
out. -/
abbrev PagePick := List Extent → ℕ → Option ℕ

/-- What the heap relies on: `alloc_pages` answers with the address of page-aligned memory that is not
in use and neither meets nor touches the arena, which is at address `A`. -/
structure PickOk (A : ℕ) (pick : PagePick) : Prop where
  nonzero : ∀ used n b, pick used n = some b → b ≠ 0
  aligned : ∀ used n b, pick used n = some b → pageSize ∣ b
  fresh : ∀ used n b, pick used n = some b → ∀ r ∈ used, Extent.Apart (b, pageSize * n) r
  arena : ∀ used n b, pick used n = some b → A + slobUnit < b ∨ b + pageSize * n < A

/-! ### The functions of the source -/

/-- Source: `kern/mm/kmalloc.c` `__slob_get_free_pages` -/
def slobGetFreePages (pick : PagePick) (order : ℕ) : SlobM ℕ := do
  let s ← Prog.get
  match pick s.used (2 ^ order) with
  | none => pure 0
  | some b => do
    Prog.modify fun s => { s with used := (b, pageSize * 2 ^ order) :: s.used }
    pure b

/-- Source: `kern/mm/kmalloc.c` `__slob_free_pages` -/
def slobFreePages (kva order : ℕ) : SlobM Unit :=
  Prog.modify fun s => { s with used := s.used.erase (kva, pageSize * 2 ^ order) }

/-- The insertion point of `b`: the loop of `slob_free`. -/
def insertionPoint (b : ℕ) : SlobM ℕ := do
  let s ← Prog.get
  match walk s.next (FreeRing.IsPlace s.next b) s.bound s.slobfree with
  | none => Prog.stop .looped
  | some cur => pure cur

/-- `slob_free` behind its search: the block is joined to the one after it, or linked to it. -/
def Slob.joinAfter (s : Slob) (b cur : ℕ) : Slob :=
  if b + slobUnit * s.units b = s.next cur then
    let s := s.setUnits b (s.units b + s.units (s.next cur))
    s.setNext b (s.next (s.next cur))
  else s.setNext b (s.next cur)

/-- The end of `slob_free`: the block before `b` is joined to it, or linked to it. -/
def Slob.joinBefore (s : Slob) (b cur : ℕ) : Slob :=
  if cur + slobUnit * s.units cur = b then
    let s := s.setUnits cur (s.units cur + s.units b)
    s.setNext cur (s.next b)
  else s.setNext cur b

/-- Source: `kern/mm/kmalloc.c` `slob_free` -/
def slobFree (block size : ℕ) : SlobM Unit :=
  if block = 0 then pure ()
  else do
    Prog.modify fun s => if size ≠ 0 then s.setUnits block (slobUnits size) else s
    let cur ← insertionPoint block
    Prog.modify fun s => s.joinAfter block cur
    Prog.modify fun s => s.joinBefore block cur
    Prog.modify fun s => { s with slobfree := cur }

/-- The search of `slob_alloc`: the first `prev` whose successor has room, or whose successor is where
the search started. -/
def roomPoint (units : ℕ) : SlobM ℕ := do
  let s ← Prog.get
  match walk s.next (fun prev => units ≤ s.units (s.next prev) ∨ s.next prev = s.slobfree) s.bound
      s.slobfree with
  | none => Prog.stop .looped
  | some prev => pure prev

/-- `slob_alloc` once `cur` has room: the block is unlinked, or cut in two. -/
def Slob.take (s : Slob) (prev cur units : ℕ) : Slob :=
  let s :=
    if s.units cur = units then s.setNext prev (s.next cur)
    else
      let s := s.setNext prev (cur + slobUnit * units)
      let s := s.setUnits (s.next prev) (s.units cur - units)
      let s := s.setNext (s.next prev) (s.next cur)
      s.setUnits cur units
  { s with slobfree := prev }

/-- The loop of `slob_alloc`, one round for each time the search starts anew. The parameter `align` is
0 in every call, so that `delta` is 0 throughout. -/
def slobAllocLoop (pick : PagePick) (size units : ℕ) : ℕ → SlobM ℕ
  | 0 => Prog.stop .looped
  | rounds + 1 => do
    let prev ← roomPoint units
    let s ← Prog.get
    let cur := s.next prev
    if units ≤ s.units cur then do
      Prog.modify fun s => s.take prev cur units
      pure cur
    else if size = pageSize then pure 0
    else do
      let page ← slobGetFreePages pick 0
      if page = 0 then pure 0
      else do
        Prog.modify fun s => { s with pages := page :: s.pages }
        slobFree page pageSize
        slobAllocLoop pick size units rounds

/-- Source: `kern/mm/kmalloc.c` `slob_alloc` -/
def slobAlloc (pick : PagePick) (size : ℕ) : SlobM ℕ := do
  Prog.assert (size + slobUnit < pageSize) .allocSize
  let s ← Prog.get
  slobAllocLoop pick size (slobUnits size) s.bound

/-- The loop of `find_order`. -/
def findOrderLoop (size : ℕ) : ℕ :=
  if 4096 < size then findOrderLoop (size / 2) + 1 else 0
termination_by size
decreasing_by omega

/-- The parameter is an `int`: a size from `2 ^ 31` on is negative, and the loop ends at once.
Source: `kern/mm/kmalloc.c` `find_order` -/
def findOrder (size : ℕ) : ℕ := if size < 2 ^ 31 then findOrderLoop size else 0

/-- A descriptor is filled in and put on the list. -/
def Slob.pushBig (s : Slob) (bb : ℕ) : Slob :=
  { s.store (bb + 8) s.bigblocks with bigblocks := bb }

/-- Source: `kern/mm/kmalloc.c` `__kmalloc`, `kmalloc` -/
def kmalloc (pick : PagePick) (size : ℕ) : SlobM ℕ :=
  if size < pageSize - slobUnit then do
    let m ← slobAlloc pick (size + slobUnit)
    pure (if m ≠ 0 then m + slobUnit else 0)
  else do
    let bb ← slobAlloc pick sizeofBigblock
    if bb = 0 then pure 0
    else do
      Prog.modify fun s => s.store bb (findOrder size)
      let s ← Prog.get
      let pages ← slobGetFreePages pick (s.order bb)
      Prog.modify fun s => s.store (bb + 4) pages
      if pages ≠ 0 then do
        Prog.modify fun s => s.pushBig bb
        pure pages
      else do
        slobFree bb sizeofBigblock
        pure 0

/-- The loop of `kfree`: the descriptor of `block` and the place of the link to it, which is in another
descriptor or in `bigblocks`. -/
def findBig (s : Slob) (block : ℕ) : ℕ → Option ℕ → ℕ → Option (Option (Option ℕ × ℕ))
  | 0, _, _ => none
  | n + 1, last, bb =>
    if bb = 0 then some none
    else if s.bigPages bb = block then some (some (last, bb))
    else findBig s block n (some bb) (s.bigNext bb)

/-- `*last = bb->next` -/
def Slob.unlinkBig (s : Slob) (last : Option ℕ) (bb : ℕ) : Slob :=
  match last with
  | none => { s with bigblocks := s.bigNext bb }
  | some l => s.store (l + 8) (s.bigNext bb)

/-- The descriptor of `block`, taken off the list. -/
def takeBig (block : ℕ) : SlobM (Option ℕ) := do
  let s ← Prog.get
  if block % pageSize = 0 then
    match findBig s block s.bound none s.bigblocks with
    | none => Prog.stop .looped
    | some none => pure none
    | some (some (last, bb)) => do
      Prog.modify fun s => s.unlinkBig last bb
      pure (some bb)
  else pure none

/-- Source: `kern/mm/kmalloc.c` `kfree` -/
def kfree (block : ℕ) : SlobM Unit :=
  if block = 0 then pure ()
  else do
    match ← takeBig block with
    | some bb => do
      let s ← Prog.get
      slobFreePages block (s.order bb)
      slobFree bb sizeofBigblock
    | none => slobFree (block - slobUnit) 0

/-! ### Reading and writing block headers -/

/-- The length of a block in bytes. -/
def Slob.bytes (s : Slob) (b : ℕ) : ℕ := slobUnit * s.units b

/-- Addresses with room for a header between them. -/
def Spaced (S : List ℕ) : Prop := ∀ x ∈ S, ∀ y ∈ S, x = y ∨ x + 8 ≤ y ∨ y + 8 ≤ x

/-- One header more. -/
theorem Spaced.cons {S : List ℕ} {b : ℕ} (h : Spaced S) (hb : ∀ x ∈ S, x + 8 ≤ b ∨ b + 8 ≤ x) : Spaced (b :: S) := by
  intro x hx y hy
  rcases List.mem_cons.mp hx with rfl | hx' <;> rcases List.mem_cons.mp hy with rfl | hy'
  · exact Or.inl rfl
  · have := hb y hy'
    omega
  · have := hb x hx'
    omega
  · exact h x hx' y hy'

/-- The headers at the addresses `S`: the lengths are `size` and the links `next`. -/
def View (S : List ℕ) (s : Slob) (size next : ℕ → ℕ) : Prop :=
  ∀ a ∈ S, s.bytes a = size a ∧ s.next a = next a

section view

variable {S : List ℕ} {s : Slob} {size next : ℕ → ℕ} {b c v : ℕ}

theorem View.self : View S s s.bytes s.next := fun _ _ => ⟨rfl, rfl⟩

theorem View.setUnits (h : View S s size next) (hS : Spaced S) (hb : b ∈ S) :
    View S (s.setUnits b v) (Function.update size b (slobUnit * v)) next := by
  intro a ha
  obtain ⟨hsize, hnext⟩ := h a ha
  have hspace := hS a ha b hb
  constructor
  · by_cases hab : a = b
    · subst hab
      simp only [Slob.bytes, Slob.units, Slob.setUnits, Slob.store, Function.update_self]
    · rw [Function.update_of_ne hab, ← hsize]
      simp only [Slob.bytes, Slob.units, Slob.setUnits, Slob.store, Function.update_of_ne hab]
  · rw [← hnext]
    exact Function.update_of_ne (by omega) _ _

theorem View.setNext (h : View S s size next) (hS : Spaced S) (hb : b ∈ S) :
    View S (s.setNext b v) size (Function.update next b v) := by
  intro a ha
  obtain ⟨hsize, hnext⟩ := h a ha
  have hspace := hS a ha b hb
  constructor
  · rw [← hsize]
    exact congrArg (slobUnit * ·) (Function.update_of_ne (by omega) _ _)
  · by_cases hab : a = b
    · subst hab
      simp only [Slob.next, Slob.setNext, Slob.store, Function.update_self]
    · rw [Function.update_of_ne hab, ← hnext]
      exact Function.update_of_ne (by omega) _ _

theorem View.joinAfter (hS : Spaced S) (hb : b ∈ S) (hc : c ∈ S) (hnext : s.next c ∈ S) :
    View S (s.joinAfter b c) (joinSize s.bytes s.next b c) (joinNext s.bytes s.next b c) := by
  have hcond : (b + slobUnit * s.units b = s.next c) ↔ (b + s.bytes b = s.next c) := Iff.rfl
  rw [Slob.joinAfter, joinSize, joinNext]
  by_cases hj : b + s.bytes b = s.next c
  · rw [if_pos (hcond.mpr hj), if_pos hj, if_pos hj]
    have h₁ := (View.self (s := s)).setUnits (v := s.units b + s.units (s.next c)) hS hb
    have h₂ := h₁.setNext (v := s.next (s.next c)) hS hb
    rw [Nat.mul_add] at h₂
    have hn₁ := (h₁ c hc).2
    have hn₂ := (h₁ _ hnext).2
    simp only [hn₁, hn₂]
    exact h₂
  · rw [if_neg (hcond.not.mpr hj), if_neg hj, if_neg hj]
    exact View.self.setNext hS hb

theorem View.joinBefore (h : View S s size next) (hS : Spaced S) (hb : b ∈ S) (hc : c ∈ S) :
    View S (s.joinBefore b c)
      (if c + size c = b then Function.update size c (size c + size b) else size)
      (Function.update next c (if c + size c = b then next b else b)) := by
  have hcond : (c + slobUnit * s.units c = b) ↔ (c + size c = b) := by
    rw [← (h c hc).1]
    rfl
  rw [Slob.joinBefore]
  by_cases hj : c + size c = b
  · rw [if_pos (hcond.mpr hj), if_pos hj, if_pos hj]
    have h₁ := h.setUnits (v := s.units c + s.units b) hS hc
    have h₂ := h₁.setNext (v := next b) hS hc
    have hsum : slobUnit * (s.units c + s.units b) = size c + size b := by
      rw [Nat.mul_add, ← (h c hc).1, ← (h b hb).1]
      rfl
    rw [hsum] at h₂
    have hn := (h₁ b hb).2
    simp only [hn]
    exact h₂
  · rw [if_neg (hcond.not.mpr hj), if_neg hj, if_neg hj]
    exact h.setNext hS hc

/-- The two parts of `slob_free` are the library's `linkSize` and `linkNext`. -/
theorem View.link (hS : Spaced S) (hb : b ∈ S) (hc : c ∈ S) (hnext : s.next c ∈ S) :
    View S ((s.joinAfter b c).joinBefore b c) (linkSize s.bytes s.next b c)
      (linkNext s.bytes s.next b c) :=
  (View.joinAfter hS hb hc hnext).joinBefore hS hb hc

end view

/-! ### The free list -/

/-- The free list: the blocks `F`, no two of which touch. The arena at `A` is one of them, and it is one unit long. -/
structure SlobList (A : ℕ) (s : Slob) (F : List Extent) : Prop where
  coalesced : Coalesced F
  ring : FreeRing s.bytes s.next F
  entry : s.slobfree ∈ starts F
  arena : (A, slobUnit) ∈ F

section freeList

variable {A b n u prev : ℕ} {s : Slob} {F : List Extent} {r : Extent}

theorem insertionPoint_run {c : ℕ} (hring : FreeRing s.bytes s.next F) (hentry : s.slobfree ∈ starts F)
    (hlen : F.length ≤ s.bound) (hc : c ∈ starts F)
    (hplace : ∀ a ∈ starts F, FreeRing.IsPlace s.next b a ↔ a = c) :
    (insertionPoint b).run s = .ok c s := by
  obtain ⟨x, hx, hwalk, hpx⟩ :=
    hring.walk_exists hentry ⟨c, hc, (hplace c hc).mpr rfl⟩ hlen
  obtain rfl := (hplace x hx).mp hpx
  rw [insertionPoint, Prog.run_bind, Prog.run_get, Outcome.andThen_ok, hwalk]
  rfl

theorem Slob.joinAfter_frame {c a : ℕ} (ha : a ≠ b) (ha' : a ≠ b + 4) :
    (s.joinAfter b c).mem a = s.mem a := by
  rw [Slob.joinAfter]
  split
  · simp only [Slob.setNext, Slob.setUnits, Slob.store, Function.update_of_ne ha,
      Function.update_of_ne ha']
  · exact Function.update_of_ne ha' _ _

theorem Slob.joinBefore_frame {c a : ℕ} (ha : a ≠ c) (ha' : a ≠ c + 4) :
    (s.joinBefore b c).mem a = s.mem a := by
  rw [Slob.joinBefore]
  split
  · simp only [Slob.setNext, Slob.setUnits, Slob.store, Function.update_of_ne ha,
      Function.update_of_ne ha']
  · exact Function.update_of_ne ha' _ _

/-- The two parts of `slob_free` change memory only. -/
theorem Slob.join_same {c : ℕ} :
    ((s.joinAfter b c).joinBefore b c).used = s.used ∧
      ((s.joinAfter b c).joinBefore b c).pages = s.pages ∧
      ((s.joinAfter b c).joinBefore b c).bigblocks = s.bigblocks := by
  have hbefore : ∀ t : Slob, (t.joinBefore b c).used = t.used ∧ (t.joinBefore b c).pages = t.pages ∧
      (t.joinBefore b c).bigblocks = t.bigblocks := by
    intro t
    rw [Slob.joinBefore]
    split <;> exact ⟨rfl, rfl, rfl⟩
  have hafter : (s.joinAfter b c).used = s.used ∧ (s.joinAfter b c).pages = s.pages ∧
      (s.joinAfter b c).bigblocks = s.bigblocks := by
    rw [Slob.joinAfter]
    split <;> exact ⟨rfl, rfl, rfl⟩
  obtain ⟨h₁, h₂, h₃⟩ := hbefore (s.joinAfter b c)
  exact ⟨h₁.trans hafter.1, h₂.trans hafter.2.1, h₃.trans hafter.2.2⟩

namespace SlobList

theorem unit_le (h : SlobList A s F) (hr : r ∈ F) : slobUnit ≤ r.2 := by
  have hpos := h.coalesced.pos r hr
  rw [← h.ring.size r hr, Slob.bytes] at hpos ⊢
  exact Nat.le_mul_of_pos_right _ (Nat.pos_of_mul_pos_left hpos)

/-- The words of a header are in its block. -/
theorem header_mem (h : SlobList A s F) {a : ℕ} (ha : a ∈ starts F) {k : ℕ} (hk : k < slobUnit) :
    a + k ∈ flat F := by
  obtain ⟨r, hr, rfl⟩ := mem_starts.mp ha
  have := h.unit_le hr
  exact mem_flat.mpr ⟨r, hr, by omega, by omega⟩

/-- Two headers are a unit apart. -/
theorem spaced (h : SlobList A s F) : Spaced (starts F) := by
  intro x hx y hy
  obtain ⟨r, hr, rfl⟩ := mem_starts.mp hx
  obtain ⟨r', hr', rfl⟩ := mem_starts.mp hy
  have hur := h.unit_le hr
  have hur' := h.unit_le hr'
  simp only [slobUnit] at hur hur'
  rcases pairwise_trichotomy h.coalesced.gap hr hr' with heq | hlt | hlt
  · exact Or.inl (by rw [heq])
  · omega
  · omega

/-- Only the words in the free blocks and the entry matter. -/
theorem congr {s' : Slob} (h : SlobList A s F) (hmem : ∀ a ∈ flat F, s'.mem a = s.mem a) (hfree : s'.slobfree = s.slobfree) :
    SlobList A s' F where
  coalesced := h.coalesced
  ring := h.ring.congr
    (fun a ha => congrArg (slobUnit * ·) (hmem a (h.header_mem (k := 0) ha (by decide))))
    (fun a ha => hmem (a + 4) (h.header_mem ha (by decide)))
  entry := hfree ▸ h.entry
  arena := h.arena

/-- Headers stay a unit apart when a block outside of the list gets one. -/
theorem spaced_cons (h : SlobList A s F) (hn : slobUnit ≤ n) (hout : ∀ q, b ≤ q → q < b + n → q ∉ flat F) :
    Spaced (b :: starts F) := by
  simp only [slobUnit] at hn
  -- the header of `b` and that of a free block have no byte in common
  have hb : ∀ x ∈ starts F, x + 8 ≤ b ∨ b + 8 ≤ x := by
    intro x hx
    by_contra hno
    rcases le_total x b with hle | hle
    · have := h.header_mem hx (k := b - x) (by simp only [slobUnit]; omega)
      exact hout b le_rfl (by omega) (by rwa [Nat.add_sub_cancel' hle] at this)
    · have := h.header_mem hx (k := 0) (by decide)
      exact hout x hle (by omega) this
  exact h.spaced.cons hb

/-- **`slob_free`** makes the region of the block free, and writes only in free blocks. -/
theorem free_run (h : SlobList A s F) (hlen : F.length ≤ s.bound) (hb0 : b ≠ 0) (hn : slobUnit ≤ n)
    (hout : ∀ q, b ≤ q → q < b + n → q ∉ flat F) (hfar : b + n ≠ A ∧ A + slobUnit ≠ b) (size : ℕ)
    (hsize : size ≠ 0 → slobUnit * slobUnits size = n) (hheader : size = 0 → s.bytes b = n) :
    ∃ s' F', (slobFree b size).run s = .ok () s' ∧ SlobList A s' F' ∧ s'.used = s.used ∧ s'.pages = s.pages ∧
      s'.bigblocks = s.bigblocks ∧ starts F' ⊆ b :: starts F ∧ total F' = total F + n ∧
      (∀ q, q ∈ flat F' ↔ q ∈ flat F ∨ (b ≤ q ∧ q < b + n)) ∧ ∀ a, a ∉ flat F' → s'.mem a = s.mem a := by
  have hpos : 0 < n := lt_of_lt_of_le (by decide) hn
  -- the header is written, or it is there
  obtain ⟨s₁, hs₁, hframe₁, hbytes, hsame⟩ : ∃ s₁ : Slob,
      (if size ≠ 0 then s.setUnits b (slobUnits size) else s) = s₁ ∧
      (∀ a, a ≠ b → s₁.mem a = s.mem a) ∧ s₁.bytes b = n ∧ s₁.slobfree = s.slobfree ∧
      s₁.used = s.used ∧ s₁.pages = s.pages ∧ s₁.bigblocks = s.bigblocks := by
    by_cases h0 : size = 0
    · exact ⟨s, if_neg (not_not.mpr h0), fun _ _ => rfl, hheader h0, rfl, rfl, rfl, rfl⟩
    · refine ⟨s.setUnits b (slobUnits size), if_pos h0, fun a ha => Function.update_of_ne ha _ _, ?_,
        rfl, rfl, rfl, rfl⟩
      rw [← hsize h0]
      exact congrArg (slobUnit * ·) (Function.update_self ..)
  obtain ⟨hfree₁, hused₁, hpages₁, hbig₁⟩ := hsame
  have h₁ : SlobList A s₁ F :=
    h.congr (fun a ha => hframe₁ a fun heq => hout b le_rfl (by omega) (heq ▸ ha)) hfree₁
  have hlen₁ : F.length ≤ s₁.bound := by rwa [Slob.bound, hpages₁]
  obtain ⟨c, hc, hplace, F', hring, hco, hcF, hA, hsub, htot, hflat⟩ :=
    h₁.ring.link h₁.coalesced (b := b) (hbytes.symm ▸ hpos) (hbytes.symm ▸ hout) h₁.arena
      (hbytes.symm ▸ hfar.1) hfar.2
  rw [hbytes] at htot hflat
  have hview := View.link (s := s₁) (h₁.spaced_cons hn hout) List.mem_cons_self (List.mem_cons_of_mem _ hc)
    (List.mem_cons_of_mem _ (h₁.ring.cyc.next_mem hc))
  set s₂ := (s₁.joinAfter b c).joinBefore b c with hs₂
  obtain ⟨hused₂, hpages₂, hbig₂⟩ := Slob.join_same (s := s₁) (b := b) (c := c)
  rw [← hs₂] at hused₂ hpages₂ hbig₂
  refine ⟨{ s₂ with slobfree := c }, F', ?_, ⟨hco, ?_, hcF, hA⟩, hused₂.trans hused₁, hpages₂.trans hpages₁,
    hbig₂.trans hbig₁, hsub, htot, hflat, ?_⟩
  · rw [slobFree, if_neg hb0]
    simp only [Prog.run_bind, Prog.run_modify, Outcome.andThen_ok, hs₁,
      insertionPoint_run h₁.ring h₁.entry hlen₁ hc hplace]
    rfl
  · exact hring.congr (fun a ha => (hview a (hsub ha)).1) fun a ha => (hview a (hsub ha)).2
  · intro a ha
    have hblock : ∀ k < slobUnit, b + k ∈ flat F' := fun k hk =>
      (hflat _).mpr (Or.inr ⟨by omega, by omega⟩)
    have hprev : ∀ k < slobUnit, c + k ∈ flat F' := fun k hk =>
      (hflat _).mpr (Or.inl (h.header_mem hc hk))
    have hne : ∀ x, x ∈ flat F' → a ≠ x := fun x hx heq => ha (heq ▸ hx)
    show s₂.mem a = s.mem a
    rw [hs₂, Slob.joinBefore_frame (hne c (hprev 0 (by decide))) (hne _ (hprev 4 (by decide))),
      Slob.joinAfter_frame (hne b (hblock 0 (by decide))) (hne _ (hblock 4 (by decide)))]
    exact hframe₁ a (hne b (hblock 0 (by decide)))

/-- The block behind `prev` has room for `u` units. It is not the arena, so it is not the only one. -/
theorem prev_ne (h : SlobList A s F) (hprev : prev ∈ starts F) (hu : 2 ≤ u)
    (hroom : u ≤ s.units (s.next prev)) : s.next prev ≠ A ∧ prev ≠ s.next prev := by
  have hcur : s.next prev ≠ A := by
    intro heq
    have hA := h.ring.size _ h.arena
    rw [heq] at hroom
    simp only [Slob.bytes, slobUnit] at hA
    omega
  refine ⟨hcur, fun hself => ?_⟩
  have hAmem : A ∈ starts F := mem_starts.mpr ⟨_, h.arena, rfl⟩
  have := h.ring.cyc.eq_of_next_self h.ring.sep.starts_nodup hprev hself.symm hAmem
  rw [this] at hcur
  exact hcur hself.symm

/-- The headers once a block is cut in two. -/
theorem cut_view (h : SlobList A s F) (hprev : prev ∈ starts F) (hu : 2 ≤ u)
    (hlt : u < s.units (s.next prev)) :
    ∃ s', s.take prev (s.next prev) u = { s' with slobfree := prev } ∧ s'.units (s.next prev) = u ∧
      (∀ a, a ∉ flat F → s'.mem a = s.mem a) ∧
      View ((s.next prev + slobUnit * u) :: starts F) s'
        (Function.update (Function.update s.bytes (s.next prev + slobUnit * u)
          (s.bytes (s.next prev) - slobUnit * u)) (s.next prev) (slobUnit * u))
        (Function.update (Function.update s.next prev (s.next prev + slobUnit * u))
          (s.next prev + slobUnit * u) (s.next (s.next prev))) := by
  obtain ⟨-, hne⟩ := h.prev_ne hprev hu hlt.le
  have hcurmem : s.next prev ∈ starts F := h.ring.cyc.next_mem hprev
  set cur := s.next prev with hcur
  set rest := cur + slobUnit * u with hrest
  have hcurF := h.ring.size_of_mem hcurmem
  have hbytes : slobUnit * u + slobUnit ≤ s.bytes cur := by
    rw [Slob.bytes, ← Nat.mul_succ]
    exact Nat.mul_le_mul_left _ hlt
  have hun : slobUnit ≤ slobUnit * u := Nat.le_mul_of_pos_right _ (by omega)
  -- the new header is inside the block
  have hrestspace : ∀ x ∈ starts F, x + 8 ≤ rest ∨ rest + 8 ≤ x := by
    intro x hx
    obtain ⟨r, hr, rfl⟩ := mem_starts.mp hx
    have hur := h.unit_le hr
    simp only [slobUnit] at hur hbytes hun hrest
    rcases pairwise_trichotomy h.coalesced.gap hcurF hr with heq | hgap | hgap
    · rw [← heq]
      simp only
      omega
    · simp only at hgap
      omega
    · simp only at hgap
      omega
  have hS : Spaced (rest :: starts F) := h.spaced.cons hrestspace
  have hprevS : prev ∈ rest :: starts F := List.mem_cons_of_mem _ hprev
  have hcurS : cur ∈ rest :: starts F := List.mem_cons_of_mem _ hcurmem
  have hrestS : rest ∈ rest :: starts F := List.mem_cons_self
  have hspace := h.spaced prev hprev _ hcurmem
  have hprevrest : prev ≠ rest := by
    have := hrestspace prev hprev
    omega
  -- the four writes, one after the other
  set s₁ := s.setNext prev rest with hs₁
  have hv₁ : View _ s₁ _ _ := (View.self (s := s)).setNext (v := rest) hS hprevS
  have hn₁ : s₁.next prev = rest := Function.update_self ..
  have hu₁ : s₁.units cur = s.units cur := Function.update_of_ne (by omega) _ _
  set s₂ := s₁.setUnits rest (s.units cur - u) with hs₂
  have hv₂ : View _ s₂ _ _ := hv₁.setUnits (v := s.units cur - u) hS hrestS
  have hn₂ : s₂.next prev = rest := (hv₂ prev hprevS).2.trans (Function.update_self ..)
  have hc₂ : s₂.next cur = s.next cur := (hv₂ cur hcurS).2.trans (Function.update_of_ne hne.symm _ _)
  set s₃ := s₂.setNext rest (s.next cur) with hs₃
  have hv₃ : View _ s₃ _ _ := hv₂.setNext (v := s.next cur) hS hrestS
  have hv₄ := hv₃.setUnits (v := u) hS hcurS
  have hsub : slobUnit * (s.units cur - u) = s.bytes cur - slobUnit * u := Nat.mul_sub ..
  rw [hsub] at hv₄
  refine ⟨s₃.setUnits cur u, ?_, Function.update_self .., fun a ha => ?_, hv₄⟩
  · rw [Slob.take, if_neg (by omega)]
    simp only [← hrest, ← hs₁, hn₁, hu₁, ← hs₂, hn₂, hc₂, ← hs₃]
  · have hhead : ∀ x ∈ starts F, ∀ k < slobUnit, a ≠ x + k := by
      rintro x hx k hk rfl
      exact ha (h.header_mem hx hk)
    have hin : ∀ k < slobUnit, a ≠ rest + k := by
      rintro k hk rfl
      exact ha (mem_flat.mpr ⟨_, hcurF, by omega, by simp only; omega⟩)
    have h₁ := hhead prev hprev 4 (by decide)
    have h₂ : a ≠ cur := hhead cur hcurmem 0 (by decide)
    have h₃ : a ≠ rest := hin 0 (by decide)
    have h₄ := hin 4 (by decide)
    simp only [hs₃, hs₂, hs₁, Slob.setUnits, Slob.setNext, Slob.store]
    rw [Function.update_of_ne h₂, Function.update_of_ne h₄, Function.update_of_ne h₃,
      Function.update_of_ne h₁]

/-- **`slob_alloc` takes a block** once it has found one. -/
theorem take (h : SlobList A s F) (hprev : prev ∈ starts F) (hu : 2 ≤ u) (hroom : u ≤ s.units (s.next prev)) :
    ∃ F', SlobList A (s.take prev (s.next prev) u) F' ∧ (s.take prev (s.next prev) u).units (s.next prev) = u ∧
      slobUnit * u + total F' = total F ∧ (∀ r ∈ F', Extent.Apart (s.next prev, slobUnit * u) r) ∧
      (∀ q, q ∈ flat F ↔ q ∈ flat F' ∨ (s.next prev ≤ q ∧ q < s.next prev + slobUnit * u)) ∧
      ∀ a, a ∉ flat F → (s.take prev (s.next prev) u).mem a = s.mem a := by
  obtain ⟨hcurA, hne⟩ := h.prev_ne hprev hu hroom
  have hcurmem : s.next prev ∈ starts F := h.ring.cyc.next_mem hprev
  have hspace := h.spaced prev hprev _ hcurmem
  set cur := s.next prev with hcur
  have hn : slobUnit ≤ slobUnit * u := Nat.le_mul_of_pos_right _ (by omega)
  by_cases hexact : s.units cur = u
  · obtain ⟨F', hring, hco, hcF, hkeep, hsub, htot, hflat⟩ :=
      h.ring.takeAll h.coalesced hprev hcur.symm hne
    have hsize : s.bytes cur = slobUnit * u := congrArg (slobUnit * ·) hexact
    rw [hsize] at htot hflat
    have hview := (View.self (s := s)).setNext (v := s.next cur) h.spaced hprev
    have htake : s.take prev cur u = { s.setNext prev (s.next cur) with slobfree := prev } := by
      rw [Slob.take, if_pos hexact]
    rw [htake]
    refine ⟨F', ⟨hco, ?_, hcF, hkeep _ h.arena hcurA.symm⟩, ?_, htot, fun r hr => hsize ▸ (hsub r hr).2, hflat, fun a ha => ?_⟩
    · have hmem : ∀ a ∈ starts F', a ∈ starts F := by
        intro a ha
        obtain ⟨r, hr, rfl⟩ := mem_starts.mp ha
        exact mem_starts.mpr ⟨r, (hsub r hr).1, rfl⟩
      exact hring.congr (fun a ha => (hview a (hmem a ha)).1) fun a ha => (hview a (hmem a ha)).2
    · rw [← hexact]
      exact Function.update_of_ne (by omega) _ _
    · have ha4 : a ≠ prev + 4 := by
        rintro rfl
        exact ha (h.header_mem hprev (by decide))
      exact Function.update_of_ne ha4 _ _
  · have hlt : slobUnit * u < s.bytes cur :=
      Nat.mul_lt_mul_of_pos_left (lt_of_le_of_ne hroom (Ne.symm hexact)) (by decide)
    obtain ⟨F', hring, hco, hcF, hkeep, hsub, htot, hflat⟩ :=
      h.ring.takeFront h.coalesced hprev hcur.symm hne (lt_of_lt_of_le (by decide) hn) hlt
    obtain ⟨s', htake, hunits, hframe, hview⟩ :=
      h.cut_view hprev hu (lt_of_le_of_ne hroom (Ne.symm hexact))
    rw [htake]
    refine ⟨F', ⟨hco, ?_, hcF, hkeep _ h.arena hcurA.symm⟩, hunits, htot, fun r hr => (hsub r hr).2, hflat, hframe⟩
    have hmem : ∀ a ∈ starts F', a ≠ cur ∧ a ∈ (cur + slobUnit * u) :: starts F := by
      intro a ha
      obtain ⟨r, hr, rfl⟩ := mem_starts.mp ha
      obtain ⟨hr', hap⟩ := hsub r hr
      have hrpos := hco.pos r hr
      have hupos : 0 < slobUnit := by decide
      constructor
      · rcases hap with hap | hap
        · simp only at hap
          omega
        · simp only at hap
          omega
      · rcases hr' with hr' | rfl
        · exact List.mem_cons_of_mem _ (mem_starts.mpr ⟨r, hr', rfl⟩)
        · exact List.mem_cons_self
    refine hring.congr (fun a ha => ?_) fun a ha => (hview a (hmem a ha).2).2
    exact ((hview a (hmem a ha).2).1).trans (Function.update_of_ne (hmem a ha).1 _ _)

/-- A free page is room enough, whatever it has been joined to. -/
theorem exists_room (h : SlobList A s F) {p : ℕ} (hp : ∀ k < pageSize, p + k ∈ flat F) (hu : u ≤ 512) :
    ∃ a ∈ starts F, u ≤ s.units a := by
  obtain ⟨r, hr, hle, hend⟩ := h.coalesced.exists_extent (q := p) (n := pageSize) (by decide) hp
  refine ⟨r.1, mem_starts.mpr ⟨r, hr, rfl⟩, ?_⟩
  have hsize := h.ring.size r hr
  simp only [Slob.bytes, slobUnit, pageSize] at hsize hend
  omega

/-- The search of `slob_alloc` ends at a block with room behind it, or having seen that there is none. -/
theorem roomPoint_run (h : SlobList A s F) (hlen : F.length ≤ s.bound) (u : ℕ) :
    ∃ prev ∈ starts F, (roomPoint u).run s = .ok prev s ∧
      (¬ u ≤ s.units (s.next prev) → ∀ y ∈ starts F, ¬ u ≤ s.units y) := by
  obtain ⟨prev, hprev, hwalk, hnone⟩ := h.ring.walk_next (fun a => u ≤ s.units a) h.entry hlen
  refine ⟨prev, hprev, ?_, hnone⟩
  rw [roomPoint, Prog.run_bind, Prog.run_get, Outcome.andThen_ok, hwalk]
  rfl

/-- A round of the loop of `slob_alloc` in which there is room takes a block, whatever the page allocator would answer. -/
theorem round_run (h : SlobList A s F) (hlen : F.length ≤ s.bound) (hroom : ∃ a ∈ starts F, u ≤ s.units a) :
    ∃ prev ∈ starts F, u ≤ s.units (s.next prev) ∧ ∀ (pick : PagePick) (size k : ℕ),
      (slobAllocLoop pick size u (k + 1)).run s = .ok (s.next prev) (s.take prev (s.next prev) u) := by
  obtain ⟨prev, hprev, hrun, hnone⟩ := h.roomPoint_run hlen u
  have hfound : u ≤ s.units (s.next prev) := by
    by_contra hno
    obtain ⟨a, ha, hua⟩ := hroom
    exact hnone hno a ha hua
  refine ⟨prev, hprev, hfound, fun pick size k => ?_⟩
  rw [slobAllocLoop, Prog.bind_of_ok hrun]
  simp only [Prog.run_bind, Prog.run_get, Outcome.andThen_ok, if_pos hfound, Prog.run_modify, Prog.run_pure]

end SlobList

end freeList

/-! ### The representation invariant -/

/-- The byte `q` lies in a page that has been added to the heap. -/
def Slob.InPages (s : Slob) (q : ℕ) : Prop := ∃ p ∈ s.pages, p ≤ q ∧ q < p + pageSize

/-- The free blocks `F` and the regions in use `H`, in a heap with the arena at `A`. -/
structure Tiling (A : ℕ) (s : Slob) (F H : List Extent) : Prop where
  /-- No two free blocks touch. -/
  coalesced : Coalesced F
  /-- The blocks are the free list. -/
  ring : FreeRing s.bytes s.next F
  /-- `slobfree` is one of them. -/
  entry : s.slobfree ∈ starts F
  /-- The arena is one of them, and it is one unit long. -/
  arena : (A, slobUnit) ∈ F
  /-- Every region in use has room for a header. -/
  unit : ∀ r ∈ H, slobUnit ≤ r.2
  /-- The regions in use do not overlap. -/
  apart : H.Pairwise Extent.Apart
  /-- They do not overlap the free blocks. -/
  free : ∀ r ∈ H, ∀ q, r.1 ≤ q → q < r.1 + r.2 → q ∉ flat F
  /-- The regions in use are in the pages of the heap. -/
  inside : ∀ r ∈ H, ∀ q, r.1 ≤ q → q < r.1 + r.2 → s.InPages q
  /-- So are the free blocks other than the arena. -/
  freeInside : ∀ q ∈ flat F, q ∉ Extent.pages (A, slobUnit) → s.InPages q
  /-- The pages of the heap are out of the page allocator. -/
  held : ∀ p ∈ s.pages, p ≠ 0 ∧ (p, pageSize) ∈ s.used
  /-- The runs of pages that are out do not overlap. -/
  usedApart : s.used.Pairwise Extent.Apart
  /-- They do not touch the arena. -/
  usedFar : ∀ r ∈ s.used, A + slobUnit < r.1 ∨ r.1 + r.2 < A
  /-- Every unit of the heap is free or in use. -/
  count : total F + total H = slobUnit * (512 * s.pages.length + 1)

namespace Tiling

variable {A b n m : ℕ} {s s' : Slob} {F H H' : List Extent} {r : Extent}

/-- The free list. -/
theorem list (h : Tiling A s F H) : SlobList A s F := ⟨h.coalesced, h.ring, h.entry, h.arena⟩

theorem length_le_bound (h : Tiling A s F H) : F.length ≤ s.bound := by
  have hle : slobUnit * F.length ≤ total F := by
    have hunit : ∀ r ∈ F, slobUnit ≤ r.2 := fun r hr => h.list.unit_le hr
    clear h
    induction F with
    | nil => simp
    | cons r F ih =>
      have := ih fun x hx => hunit x (List.mem_cons_of_mem _ hx)
      have := hunit r List.mem_cons_self
      rw [List.length_cons, total_cons, Nat.mul_add]
      omega
  have hcount := h.count
  rw [Slob.bound]
  simp only [slobUnit] at hle hcount
  omega

/-- Only the words in the free blocks, the entry and the pages matter. -/
theorem congr (h : Tiling A s F H) (hmem : ∀ a ∈ flat F, s'.mem a = s.mem a)
    (hfree : s'.slobfree = s.slobfree) (hused : s'.used = s.used) (hpages : s'.pages = s.pages) :
    Tiling A s' F H where
  coalesced := h.coalesced
  ring := (h.list.congr hmem hfree).ring
  entry := hfree ▸ h.entry
  arena := h.arena
  unit := h.unit
  apart := h.apart
  free := h.free
  inside := by
    unfold Slob.InPages
    rw [hpages]
    exact h.inside
  freeInside := by
    unfold Slob.InPages
    rw [hpages]
    exact h.freeInside
  held := by rw [hpages, hused]; exact h.held
  usedApart := hused ▸ h.usedApart
  usedFar := hused ▸ h.usedFar
  count := hpages ▸ h.count

/-- The order of the regions in use is of no account. -/
theorem perm (h : Tiling A s F H) (hp : H.Perm H') : Tiling A s F H' where
  coalesced := h.coalesced
  ring := h.ring
  entry := h.entry
  arena := h.arena
  unit r hr := h.unit r (hp.mem_iff.mpr hr)
  apart := hp.pairwise h.apart Extent.Apart.symm
  free r hr := h.free r (hp.mem_iff.mpr hr)
  inside r hr := h.inside r (hp.mem_iff.mpr hr)
  freeInside := h.freeInside
  held := h.held
  usedApart := h.usedApart
  usedFar := h.usedFar
  count := by
    have : total H = total H' := (hp.map Prod.snd).sum_eq
    rw [← this]
    exact h.count

/-- A region in the pages of the heap does not touch the arena. -/
theorem not_touching (h : Tiling A s F H) (hpos : 0 < n)
    (hin : ∀ q, b ≤ q → q < b + n → s.InPages q) : b + n ≠ A ∧ A + slobUnit ≠ b := by
  obtain ⟨p, hp, hle, hlt⟩ := hin b le_rfl (by omega)
  obtain ⟨p', hp', hle', hlt'⟩ := hin (b + n - 1) (by omega) (by omega)
  have hfar := h.usedFar _ (h.held p hp).2
  have hfar' := h.usedFar _ (h.held p' hp').2
  simp only at hfar hfar'
  omega

/-- The pages of the heap are above 0. -/
theorem ne_zero (h : Tiling A s F H) {q : ℕ} (hq : s.InPages q) : q ≠ 0 := by
  obtain ⟨p, hp, hle, -⟩ := hq
  have := (h.held p hp).1
  omega

/-- The region of a block that is put back joins the free blocks. -/
theorem release (h : Tiling A s F ((b, n) :: H)) {F' : List Extent} (hco : Coalesced F')
    (hring : FreeRing s'.bytes s'.next F') (hentry : s'.slobfree ∈ starts F')
    (harena : (A, slobUnit) ∈ F') (htot : total F' = total F + n)
    (hflat : ∀ q, q ∈ flat F' ↔ q ∈ flat F ∨ (b ≤ q ∧ q < b + n)) (hused : s'.used = s.used)
    (hpages : s'.pages = s.pages) : Tiling A s' F' H where
  coalesced := hco
  ring := hring
  entry := hentry
  arena := harena
  unit r hr := h.unit r (List.mem_cons_of_mem _ hr)
  apart := (List.pairwise_cons.mp h.apart).2
  free := by
    intro r hr q hle hlt hq
    rcases (hflat q).mp hq with hq | hq
    · exact h.free r (List.mem_cons_of_mem _ hr) q hle hlt hq
    · rcases (List.pairwise_cons.mp h.apart).1 r hr with hap | hap
      · simp only at hap
        omega
      · simp only at hap
        omega
  inside r hr q hle hlt := by
    rw [Slob.InPages, hpages]
    exact h.inside r (List.mem_cons_of_mem _ hr) q hle hlt
  freeInside := by
    intro q hq hqA
    rw [Slob.InPages, hpages]
    rcases (hflat q).mp hq with hq | hq
    · exact h.freeInside q hq hqA
    · exact h.inside (b, n) List.mem_cons_self q hq.1 hq.2
  held := by rw [hpages, hused]; exact h.held
  usedApart := hused ▸ h.usedApart
  usedFar := hused ▸ h.usedFar
  count := by
    have := h.count
    rw [total_cons] at this
    rw [hpages, htot, ← this]
    simp only
    omega

end Tiling

section free

variable {A b n : ℕ} {s : Slob} {F H : List Extent}

/-- **`slob_free`** makes the region of the block free, and writes only in free blocks. -/
theorem slobFree_run (h : Tiling A s F ((b, n) :: H)) (size : ℕ)
    (hsize : size ≠ 0 → slobUnit * slobUnits size = n) (hheader : size = 0 → s.bytes b = n) :
    ∃ s' F', (slobFree b size).run s = .ok () s' ∧ Tiling A s' F' H ∧ s'.used = s.used ∧
      s'.pages = s.pages ∧ s'.bigblocks = s.bigblocks ∧
      (∀ q, q ∈ flat F' ↔ q ∈ flat F ∨ (b ≤ q ∧ q < b + n)) ∧
      ∀ a, a ∉ flat F' → s'.mem a = s.mem a := by
  have hunit := h.unit (b, n) List.mem_cons_self
  have hin := h.inside (b, n) List.mem_cons_self
  simp only at hunit hin
  have hpos : 0 < n := lt_of_lt_of_le (by decide) hunit
  have hb0 : b ≠ 0 := h.ne_zero (hin b le_rfl (by omega))
  obtain ⟨s', F', hrun, hlist, hused, hpages, hbig, -, htot, hflat, hframe⟩ := h.list.free_run h.length_le_bound hb0 hunit
    (h.free (b, n) List.mem_cons_self) (h.not_touching hpos hin) size hsize hheader
  exact ⟨s', F', hrun, h.release hlist.coalesced hlist.ring hlist.entry hlist.arena htot hflat hused hpages, hused, hpages, hbig,
    hflat, hframe⟩

end free

section alloc

variable {A n u prev : ℕ} {s s' : Slob} {F F' H : List Extent}

/-- A part of the free blocks comes into use. -/
theorem Tiling.acquire (h : Tiling A s F H) {b : ℕ} (hn : slobUnit ≤ n) (hco : Coalesced F')
    (hring : FreeRing s'.bytes s'.next F') (hentry : s'.slobfree ∈ starts F')
    (harena : (A, slobUnit) ∈ F') (htot : n + total F' = total F)
    (hflat : ∀ q, q ∈ flat F ↔ q ∈ flat F' ∨ (b ≤ q ∧ q < b + n))
    (hout : ∀ r ∈ F', Extent.Apart (b, n) r) (hused : s'.used = s.used)
    (hpages : s'.pages = s.pages) : Tiling A s' F' ((b, n) :: H) where
  coalesced := hco
  ring := hring
  entry := hentry
  arena := harena
  unit := by
    intro r hr
    rcases List.mem_cons.mp hr with rfl | hr
    · exact hn
    · exact h.unit r hr
  apart := by
    refine List.pairwise_cons.mpr ⟨fun r hr => ?_, h.apart⟩
    have hpos := h.unit r hr
    have hn' : 0 < n := lt_of_lt_of_le (by decide) hn
    have hr0 : 0 < r.2 := lt_of_lt_of_le (by decide) hpos
    -- regions with a common byte have the start of one of them in common
    by_contra hno
    have hblock : ∀ q, b ≤ q → q < b + n → q ∈ flat F := fun q h₁ h₂ =>
      (hflat q).mpr (Or.inr ⟨h₁, h₂⟩)
    rw [Extent.Apart, not_or] at hno
    simp only at hno
    rcases le_total b r.1 with hle | hle
    · exact h.free r hr r.1 le_rfl (by omega) (hblock r.1 hle (by omega))
    · exact h.free r hr b hle (by omega) (hblock b le_rfl (by omega))
  free := by
    intro r hr q hle hlt hq
    rcases List.mem_cons.mp hr with rfl | hr
    · obtain ⟨r', hr', hle', hlt'⟩ := mem_flat.mp hq
      rcases hout r' hr' with hap | hap
      · simp only at hap hle hlt
        omega
      · simp only at hap hle hlt
        omega
    · exact h.free r hr q hle hlt ((hflat q).mpr (Or.inl hq))
  inside := by
    intro r hr q hle hlt
    rw [Slob.InPages, hpages]
    rcases List.mem_cons.mp hr with rfl | hr
    · refine h.freeInside q ((hflat q).mpr (Or.inr ⟨hle, hlt⟩)) fun hqA => ?_
      -- the arena is still free
      rw [Extent.mem_pages] at hqA
      rcases hout _ harena with hap | hap
      · simp only at hap hle hlt hqA
        omega
      · simp only at hap hle hlt hqA
        omega
    · exact h.inside r hr q hle hlt
  freeInside q hq hqA := by
    rw [Slob.InPages, hpages]
    exact h.freeInside q ((hflat q).mpr (Or.inl hq)) hqA
  held := by rw [hpages, hused]; exact h.held
  usedApart := hused ▸ h.usedApart
  usedFar := hused ▸ h.usedFar
  count := by
    have := h.count
    rw [total_cons, hpages, ← this, ← htot]
    simp only
    omega

theorem Slob.take_same (cur : ℕ) : (s.take prev cur u).used = s.used ∧
    (s.take prev cur u).pages = s.pages ∧ (s.take prev cur u).bigblocks = s.bigblocks := by
  rw [Slob.take]
  split <;> exact ⟨rfl, rfl, rfl⟩

/-- **`slob_alloc` takes a block** once it has found one. -/
theorem Slob.take_tiling (h : Tiling A s F H) (hprev : prev ∈ starts F) (hu : 2 ≤ u)
    (hroom : u ≤ s.units (s.next prev)) :
    ∃ F', Tiling A (s.take prev (s.next prev) u) F' ((s.next prev, slobUnit * u) :: H) ∧
      (s.take prev (s.next prev) u).units (s.next prev) = u ∧
      (∀ q, q ∈ flat F ↔ q ∈ flat F' ∨ (s.next prev ≤ q ∧ q < s.next prev + slobUnit * u)) ∧
      ∀ a, a ∉ flat F → (s.take prev (s.next prev) u).mem a = s.mem a := by
  obtain ⟨F', hlist, hunits, htot, hout, hflat, hframe⟩ := h.list.take hprev hu hroom
  obtain ⟨hused, hpages, -⟩ : (s.take prev (s.next prev) u).used = s.used ∧
      (s.take prev (s.next prev) u).pages = s.pages ∧ (s.take prev (s.next prev) u).bigblocks = s.bigblocks :=
    Slob.take_same (s.next prev)
  exact ⟨F', h.acquire (Nat.le_mul_of_pos_right _ (by omega)) hlist.coalesced hlist.ring hlist.entry hlist.arena htot hflat hout
    hused hpages, hunits, hflat, hframe⟩

theorem roomPoint_run (h : Tiling A s F H) (u : ℕ) :
    ∃ prev ∈ starts F, (roomPoint u).run s = .ok prev s ∧
      (¬ u ≤ s.units (s.next prev) → ∀ y ∈ starts F, ¬ u ≤ s.units y) := h.list.roomPoint_run h.length_le_bound u

/-! ### Pages from the page allocator -/

variable {pick : PagePick} {p : ℕ}

/-- A run of pages is obtained, for whatever use. -/
theorem Tiling.getPages (h : Tiling A s F H) {r : Extent} (hfresh : ∀ r' ∈ s.used, Extent.Apart r r')
    (hfar : A + slobUnit < r.1 ∨ r.1 + r.2 < A) :
    Tiling A { s with used := r :: s.used } F H where
  coalesced := h.coalesced
  ring := h.ring
  entry := h.entry
  arena := h.arena
  unit := h.unit
  apart := h.apart
  free := h.free
  inside := h.inside
  freeInside := h.freeInside
  held p hp := ⟨(h.held p hp).1, List.mem_cons_of_mem _ (h.held p hp).2⟩
  usedApart := List.pairwise_cons.mpr ⟨hfresh, h.usedApart⟩
  usedFar r' hr' := by
    rcases List.mem_cons.mp hr' with rfl | hr'
    · exact hfar
    · exact h.usedFar r' hr'
  count := h.count

/-- A fresh run of pages is outside the heap. -/
theorem Tiling.not_inPages (h : Tiling A s F H) {r : Extent}
    (hfresh : ∀ r' ∈ s.used, Extent.Apart r r') {q : ℕ} (hle : r.1 ≤ q) (hlt : q < r.1 + r.2) :
    ¬ s.InPages q := by
  rintro ⟨p, hp, hle', hlt'⟩
  rcases hfresh _ (h.held p hp).2 with hap | hap
  · simp only at hap
    omega
  · simp only at hap
    omega

/-- A page that has been obtained is added to the heap, as a region in use. -/
theorem Tiling.addPage (h : Tiling A s F H) (hp : p ≠ 0)
    (hfresh : ∀ r' ∈ s.used, Extent.Apart (p, pageSize) r')
    (hfar : A + slobUnit < p ∨ p + pageSize < A) :
    Tiling A { s with used := (p, pageSize) :: s.used, pages := p :: s.pages } F
      ((p, pageSize) :: H) := by
  have hout : ∀ q, p ≤ q → q < p + pageSize → ¬ s.InPages q := fun q hle hlt =>
    h.not_inPages hfresh hle hlt
  have hgrow : ∀ q, s.InPages q →
      Slob.InPages { s with used := (p, pageSize) :: s.used, pages := p :: s.pages } q := by
    rintro q ⟨p', hp', hq⟩
    exact ⟨p', List.mem_cons_of_mem _ hp', hq⟩
  have hnew := h.getPages hfresh hfar
  refine ⟨h.coalesced, h.ring, h.entry, h.arena, ?_, ?_, ?_, ?_, ?_, ?_, hnew.usedApart, hnew.usedFar, ?_⟩
  · intro r hr
    rcases List.mem_cons.mp hr with rfl | hr
    · show 8 ≤ 4096
      omega
    · exact h.unit r hr
  · refine List.pairwise_cons.mpr ⟨fun r hr => ?_, h.apart⟩
    have hunit := h.unit r hr
    simp only [slobUnit] at hunit
    by_contra hno
    rw [Extent.Apart, not_or] at hno
    simp only [pageSize] at hno hout
    rcases le_total p r.1 with hle | hle
    · exact hout r.1 hle (by omega) (h.inside r hr r.1 le_rfl (by omega))
    · exact hout p le_rfl (by omega) (h.inside r hr p hle (by omega))
  · intro r hr q hle hlt hq
    rcases List.mem_cons.mp hr with rfl | hr
    · refine hout q hle hlt (h.freeInside q hq fun hqA => ?_)
      rw [Extent.mem_pages] at hqA
      simp only at hqA hle hlt
      omega
    · exact h.free r hr q hle hlt hq
  · intro r hr q hle hlt
    rcases List.mem_cons.mp hr with rfl | hr
    · exact ⟨p, List.mem_cons_self, hle, hlt⟩
    · exact hgrow q (h.inside r hr q hle hlt)
  · exact fun q hq hqA => hgrow q (h.freeInside q hq hqA)
  · intro p' hp'
    rcases List.mem_cons.mp hp' with rfl | hp'
    · exact ⟨hp, List.mem_cons_self⟩
    · exact ⟨(h.held p' hp').1, List.mem_cons_of_mem _ (h.held p' hp').2⟩
  · have hcount := h.count
    rw [total_cons]
    simp only [slobUnit, pageSize, List.length_cons] at hcount ⊢
    omega

theorem slobGetFreePages_run (hpick : PickOk A pick) (s : Slob) (order : ℕ) :
    (slobGetFreePages pick order).run s = .ok 0 s ∨
      ∃ b, (slobGetFreePages pick order).run s =
          .ok b { s with used := (b, pageSize * 2 ^ order) :: s.used } ∧ b ≠ 0 ∧ pageSize ∣ b ∧
        (∀ r ∈ s.used, Extent.Apart (b, pageSize * 2 ^ order) r) ∧
        (A + slobUnit < b ∨ b + pageSize * 2 ^ order < A) := by
  rw [slobGetFreePages, Prog.run_bind, Prog.run_get, Outcome.andThen_ok]
  cases hb : pick s.used (2 ^ order) with
  | none => exact Or.inl rfl
  | some b =>
    exact Or.inr ⟨b, rfl, hpick.nonzero _ _ _ hb, hpick.aligned _ _ _ hb, hpick.fresh _ _ _ hb,
      hpick.arena _ _ _ hb⟩

/-! ### `slob_alloc` -/

/-- What holds once `slob_alloc` has returned the block `m` of `u` units. -/
structure Allocated (A : ℕ) (s : Slob) (F H : List Extent) (u m : ℕ) (s' : Slob) : Prop where
  nonzero : m ≠ 0
  units : s'.units m = u
  big : s'.bigblocks = s.bigblocks
  /-- The pages that have been added come from the page allocator. -/
  grown : ∃ new : List ℕ, s'.pages = new ++ s.pages ∧
    s'.used = new.map (fun p => (p, pageSize)) ++ s.used
  /-- The block is in use now; the other words that have changed are in free blocks. -/
  tiling : ∃ F', Tiling A s' F' ((m, slobUnit * u) :: H) ∧
    (∀ q ∈ flat F, q ∈ flat F' ∨ (m ≤ q ∧ q < m + slobUnit * u)) ∧
    ∀ a, a ∉ flat F' → (a < m ∨ m + slobUnit * u ≤ a) → s'.mem a = s.mem a

/-- A round of the loop in which there is room. -/
theorem slobAllocLoop_room (h : Tiling A s F H) (hu : 2 ≤ u) (pick : PagePick) (size k : ℕ)
    (hroom : ∃ a ∈ starts F, u ≤ s.units a) :
    ∃ m s', (slobAllocLoop pick size u (k + 1)).run s = .ok m s' ∧ Allocated A s F H u m s' := by
  obtain ⟨prev, hprev, hfound, hrun⟩ := h.list.round_run h.length_le_bound hroom
  obtain ⟨F', htile, hunits, hflat, hframe⟩ := Slob.take_tiling h hprev hu hfound
  obtain ⟨hused, hpages, hbig⟩ : (s.take prev (s.next prev) u).used = s.used ∧
      (s.take prev (s.next prev) u).pages = s.pages ∧ (s.take prev (s.next prev) u).bigblocks = s.bigblocks :=
    Slob.take_same (s.next prev)
  refine ⟨s.next prev, s.take prev (s.next prev) u, hrun pick size k, ?_, hunits, hbig, ⟨[], ?_, ?_⟩, F', htile,
    fun q hq => (hflat q).mp hq, fun a ha hout => hframe a fun hmem => ?_⟩
  · have hin := htile.inside _ List.mem_cons_self (s.next prev) le_rfl
      (by simp only [slobUnit]; omega)
    exact htile.ne_zero hin
  · simpa using hpages
  · simpa using hused
  · rcases (hflat a).mp hmem with hmem | hmem
    · exact ha hmem
    · omega

/-- **The loop of `slob_alloc`**: a block, or nothing if there is no page left. -/
theorem slobAllocLoop_run (hpick : PickOk A pick) (h : Tiling A s F H) (hu : 2 ≤ u) (hmax : u ≤ 512)
    (size k : ℕ) :
    ∃ m s', (slobAllocLoop pick size u (k + 2)).run s = .ok m s' ∧
      ((m = 0 ∧ s' = s) ∨ Allocated A s F H u m s') := by
  by_cases hroom : ∃ a ∈ starts F, u ≤ s.units a
  · obtain ⟨m, s', hrun, hpost⟩ := slobAllocLoop_room h hu pick size (k + 1) hroom
    exact ⟨m, s', hrun, Or.inr hpost⟩
  obtain ⟨prev, hprev, hrun, -⟩ := roomPoint_run h u
  have hfull : ¬ u ≤ s.units (s.next prev) := fun hle => hroom ⟨_, h.ring.cyc.next_mem hprev, hle⟩
  rw [slobAllocLoop, Prog.bind_of_ok hrun]
  simp only [Prog.run_bind, Prog.run_get, Outcome.andThen_ok, Prog.run_ite, if_neg hfull,
    Prog.run_pure]
  by_cases hpage : size = pageSize
  · rw [if_pos hpage]
    exact ⟨0, s, rfl, Or.inl ⟨rfl, rfl⟩⟩
  rw [if_neg hpage]
  rcases slobGetFreePages_run hpick s 0 with hget | ⟨p, hget, hp0, -, hfresh, hfar⟩
  · rw [hget]
    exact ⟨0, s, rfl, Or.inl ⟨rfl, rfl⟩⟩
  rw [hget]
  simp only [pow_zero, mul_one] at hfresh hfar ⊢
  simp only [Outcome.andThen_ok, if_neg hp0, Prog.run_bind, Prog.run_modify]
  have hadd := h.addPage hp0 hfresh hfar
  obtain ⟨s₁, F₁, hfree, htile₁, hused₁, hpages₁, hbig₁, hflat₁, hframe₁⟩ :=
    slobFree_run hadd pageSize (fun _ => rfl) (fun h0 => absurd h0 (by decide))
  rw [hfree, Outcome.andThen_ok]
  -- the block with the new page in it is room enough
  have hroom₁ : ∃ a ∈ starts F₁, u ≤ s₁.units a :=
    htile₁.list.exists_room (fun k hk => (hflat₁ _).mpr (Or.inr ⟨Nat.le_add_right _ _, Nat.add_lt_add_left hk _⟩)) hmax
  obtain ⟨m, s', hloop, hpost⟩ := slobAllocLoop_room htile₁ hu pick size k hroom₁
  refine ⟨m, s', hloop, Or.inr ⟨hpost.nonzero, hpost.units, hpost.big.trans hbig₁, ?_, ?_⟩⟩
  · obtain ⟨new, hnew, hnew'⟩ := hpost.grown
    refine ⟨new ++ [p], ?_, ?_⟩
    · rw [hnew, hpages₁]
      simp
    · rw [hnew', hused₁]
      simp
  · obtain ⟨F', htile', hkept, hframe'⟩ := hpost.tiling
    refine ⟨F', htile', fun q hq => hkept q ((hflat₁ q).mpr (Or.inl hq)), fun a ha hout => ?_⟩
    have ha₁ : a ∉ flat F₁ := by
      intro hmem
      rcases hkept a hmem with hmem | hmem
      · exact ha hmem
      · omega
    exact (hframe' a ha hout).trans (hframe₁ a ha₁)

/-- **`slob_alloc`** of a size that passes its assertion. -/
theorem slobAlloc_run (hpick : PickOk A pick) (h : Tiling A s F H) (size : ℕ) (hsize : 8 < size)
    (hmax : size + slobUnit < pageSize) :
    ∃ m s', (slobAlloc pick size).run s = .ok m s' ∧
      ((m = 0 ∧ s' = s) ∨ Allocated A s F H (slobUnits size) m s') := by
  have hu : 2 ≤ slobUnits size ∧ slobUnits size ≤ 512 := by
    simp only [slobUnits, slobUnit, pageSize] at hmax ⊢
    omega
  obtain ⟨m, s', hrun, hpost⟩ :=
    slobAllocLoop_run hpick h hu.1 hu.2 size (512 * s.pages.length)
  refine ⟨m, s', ?_, hpost⟩
  rw [slobAlloc, Prog.bind_of_ok (Prog.run_assert_of s _ hmax)]
  exact hrun

end alloc

end Ucore.Mm
