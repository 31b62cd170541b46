import Ucore.Mm.Slob
import Mathlib.Algebra.BigOperators.Ring.List

/-!
# Runs of the SLOB heap

What holds of the heap in every state that calls of `kmalloc` and `kfree` lead to. The callers free
only what they hold (`SlobWorld` keeps the blocks they hold, small ones and whole runs of pages apart)
and write only to memory that is theirs or outside the heap (`ClientWord`). Each call may meet another
page allocator, of which only `PickOk` is known.

* `SlobInv` is the invariant: `Tiling` with the small blocks and the descriptors as the regions in use,
  the headers of the small blocks, and the descriptor list.
* `HeapSafe` is what a reader wants to know: the regions do not overlap, the free list is one cycle
  through the arena with one descent and no two blocks of it touch, and no unit is lost.
* `heap_safe` has it for all reachable states, together with the fact that no search of the heap
  fails to end.
-/

namespace Ucore.Mm

open Ucore.Lib

/-- The heap and the blocks its callers hold: for each one, the pointer and the size asked for. -/
structure SlobWorld where
  /-- The heap. -/
  heap : Slob
  /-- Blocks cut from the free list. -/
  small : List (ℕ × ℕ)
  /-- Blocks of whole pages. -/
  big : List (ℕ × ℕ)

/-- The region of a small block, header included. -/
def smallRegion (b : ℕ × ℕ) : Extent := (b.1 - slobUnit, slobUnit * slobUnits (b.2 + slobUnit))

/-- The region of a block of whole pages. -/
def bigRegion (b : ℕ × ℕ) : Extent := (b.1, pageSize * 2 ^ findOrder b.2)

/-- The region of a descriptor. -/
def descriptorRegion (bb : ℕ) : Extent := (bb, slobUnit * slobUnits sizeofBigblock)

/-- The start: the arena is the only free block. -/
def slobBoot (A : ℕ) (mem : ℕ → ℕ) : SlobWorld where
  heap :=
    { mem := Function.update (Function.update mem A 1) (A + 4) A
      slobfree := A
      bigblocks := 0
      used := []
      pages := [] }
  small := []
  big := []

/-- The callers hold what `kmalloc` has returned, if it was not 0. -/
def SlobWorld.allocated (w : SlobWorld) (p size : ℕ) (s' : Slob) : SlobWorld :=
  if p = 0 then { w with heap := s' }
  else if size < pageSize - slobUnit then { w with heap := s', small := (p, size) :: w.small }
  else { w with heap := s', big := (p, size) :: w.big }

/-- The callers no longer hold `p`. -/
def SlobWorld.freed (w : SlobWorld) (p : ℕ) (s' : Slob) : SlobWorld where
  heap := s'
  small := w.small.eraseP (·.1 = p)
  big := w.big.eraseP (·.1 = p)

/-- A word that callers may write: in a block they hold, behind its header, or outside the arena and
the pages of the heap. -/
def ClientWord (A : ℕ) (w : SlobWorld) (a : ℕ) : Prop :=
  (∃ b ∈ w.small, b.1 ≤ a ∧ a + 4 ≤ (smallRegion b).1 + (smallRegion b).2) ∨
    ((a + 4 ≤ A ∨ A + slobUnit ≤ a) ∧ ∀ p ∈ w.heap.pages, a + 4 ≤ p ∨ p + pageSize ≤ a)

/-- One step of the callers. -/
inductive SlobStep (A : ℕ) : SlobWorld → SlobWorld → Prop
  | kmalloc {w : SlobWorld} {pick : PagePick} {size p : ℕ} {s' : Slob} (hpick : PickOk A pick)
      (hsize : 0 < size) (hrun : (kmalloc pick size).run w.heap = .ok p s') :
      SlobStep A w (w.allocated p size s')
  | kfree {w : SlobWorld} {p : ℕ} {s' : Slob} (hp : ∃ b ∈ w.small ++ w.big, b.1 = p)
      (hrun : (kfree p).run w.heap = .ok () s') : SlobStep A w (w.freed p s')
  | write {w : SlobWorld} {a : ℕ} (v : ℕ) (ha : ClientWord A w a) :
      SlobStep A w { w with heap := w.heap.store a v }

/-- The states that are reached from the start. -/
def SlobReach (A : ℕ) (w₀ w : SlobWorld) : Prop := Relation.ReflTransGen (SlobStep A) w₀ w

/-! ### The descriptor list -/

/-- The descriptors `E`, each with the block it describes, are the list from `head` on. -/
def BigList (s : Slob) : ℕ → List (ℕ × ℕ × ℕ) → Prop
  | head, [] => head = 0
  | head, e :: E => head = e.1 ∧ e.1 ≠ 0 ∧ s.order e.1 = findOrder e.2.2 ∧ s.bigPages e.1 = e.2.1 ∧
      BigList s (s.bigNext e.1) E

section bigList

variable {s s' : Slob} {head block : ℕ} {E : List (ℕ × ℕ × ℕ)}

theorem BigList.congr (h : BigList s head E)
    (hmem : ∀ e ∈ E, ∀ k < 16, s'.mem (e.1 + k) = s.mem (e.1 + k)) : BigList s' head E := by
  induction E generalizing head with
  | nil => exact h
  | cons e E ih =>
    obtain ⟨hhead, h0, horder, hpages, hrest⟩ := h
    have hword := hmem e List.mem_cons_self
    refine ⟨hhead, h0, (hword 0 (by decide)).trans horder, (hword 4 (by decide)).trans hpages, ?_⟩
    have hnext : s'.bigNext e.1 = s.bigNext e.1 := hword 8 (by decide)
    rw [hnext]
    exact ih hrest fun e' he' => hmem e' (List.mem_cons_of_mem _ he')

/-- The search fails if no descriptor has the block. -/
theorem BigList.findBig_none (h : BigList s head E) (hno : ∀ e ∈ E, e.2.1 ≠ block) {n : ℕ}
    (hn : E.length < n) (last : Option ℕ) : findBig s block n last head = some none := by
  induction E generalizing head n last with
  | nil =>
    obtain ⟨n, rfl⟩ : ∃ k, n = k + 1 := ⟨n - 1, by simp at hn; omega⟩
    rw [findBig, if_pos (show head = 0 from h)]
  | cons e E ih =>
    obtain ⟨n, rfl⟩ : ∃ k, n = k + 1 := ⟨n - 1, by simp at hn; omega⟩
    obtain ⟨rfl, h0, -, hpages, hrest⟩ := h
    have hne : s.bigPages e.1 ≠ block := hpages ▸ hno e List.mem_cons_self
    rw [findBig, if_neg h0, if_neg hne]
    exact ih hrest (fun e' he' => hno e' (List.mem_cons_of_mem _ he')) (by simpa using hn) _

/-- What the search of `kfree` returns in `last`: the descriptor before the one that is found. -/
def lastOf (last : Option ℕ) (E : List (ℕ × ℕ × ℕ)) : Option ℕ :=
  E.foldl (fun _ e => some e.1) last

/-- The search finds the first descriptor that has the block. -/
theorem BigList.findBig_some {E₁ E₂ : List (ℕ × ℕ × ℕ)} {e : ℕ × ℕ × ℕ}
    (h : BigList s head (E₁ ++ e :: E₂)) (hno : ∀ e' ∈ E₁, e'.2.1 ≠ block) (he : e.2.1 = block) {n : ℕ}
    (hn : (E₁ ++ e :: E₂).length < n) (last : Option ℕ) :
    findBig s block n last head = some (some (lastOf last E₁, e.1)) := by
  induction E₁ generalizing head n last with
  | nil =>
    obtain ⟨n, rfl⟩ : ∃ k, n = k + 1 := ⟨n - 1, by simp at hn; omega⟩
    obtain ⟨rfl, h0, -, hpages, -⟩ := h
    rw [findBig, if_neg h0, if_pos (hpages.trans he)]
    rfl
  | cons e' E₁ ih =>
    obtain ⟨n, rfl⟩ : ∃ k, n = k + 1 := ⟨n - 1, by simp at hn; omega⟩
    obtain ⟨rfl, h0, -, hpages, hrest⟩ := h
    have hne : s.bigPages e'.1 ≠ block := hpages ▸ hno e' List.mem_cons_self
    rw [findBig, if_neg h0, if_neg hne]
    exact ih hrest (fun x hx => hno x (List.mem_cons_of_mem _ hx)) (by simpa using hn) _

theorem lastOf_append (last : Option ℕ) (E : List (ℕ × ℕ × ℕ)) (d : ℕ × ℕ × ℕ) :
    lastOf last (E ++ [d]) = some d.1 := by
  simp [lastOf]

/-- A descriptor is taken out behind the descriptor `d`. -/
theorem BigList.unlink_behind {E₁ E₂ : List (ℕ × ℕ × ℕ)} {d e : ℕ × ℕ × ℕ}
    (h : BigList s head (E₁ ++ d :: e :: E₂))
    (hfar : ∀ e' ∈ E₁ ++ E₂, ∀ k < 16, e'.1 + k ≠ d.1 + 8) :
    BigList (s.store (d.1 + 8) (s.bigNext e.1)) head (E₁ ++ d :: E₂) := by
  induction E₁ generalizing head with
  | nil =>
    obtain ⟨hhead, h0, horder, hpages, -, -, -, -, hrest⟩ := h
    refine ⟨hhead, h0, ?_, ?_, ?_⟩
    · rw [← horder]
      exact Function.update_of_ne (by omega) _ _
    · rw [← hpages]
      exact Function.update_of_ne (by omega) _ _
    · have hnext : (s.store (d.1 + 8) (s.bigNext e.1)).bigNext d.1 = s.bigNext e.1 :=
        Function.update_self ..
      rw [hnext]
      exact hrest.congr fun e' he' k hk => Function.update_of_ne (hfar e' he' k hk) _ _
  | cons e' E₁ ih =>
    obtain ⟨hhead, h0, horder, hpages, hrest⟩ := h
    have hword : ∀ k < 16, (s.store (d.1 + 8) (s.bigNext e.1)).mem (e'.1 + k) = s.mem (e'.1 + k) :=
      fun k hk => Function.update_of_ne (hfar e' (by simp) k hk) _ _
    refine ⟨hhead, h0, (hword 0 (by decide)).trans horder, (hword 4 (by decide)).trans hpages, ?_⟩
    have hnext : (s.store (d.1 + 8) (s.bigNext e.1)).bigNext e'.1 = s.bigNext e'.1 :=
      hword 8 (by decide)
    rw [hnext]
    exact ih hrest fun x hx => hfar x (List.mem_cons_of_mem _ hx)

/-- The words of a heap from which a descriptor has been taken out: only descriptors have changed. -/
theorem Slob.unlinkBig_spec {E₁ E₂ : List (ℕ × ℕ × ℕ)} {e : ℕ × ℕ × ℕ}
    (h : BigList s s.bigblocks (E₁ ++ e :: E₂))
    (hfar : (E₁ ++ e :: E₂).Pairwise fun x y => x.1 + 16 ≤ y.1 ∨ y.1 + 16 ≤ x.1) :
    ∃ s', s.unlinkBig (lastOf none E₁) e.1 = s' ∧ BigList s' s'.bigblocks (E₁ ++ E₂) ∧
      s'.slobfree = s.slobfree ∧ s'.used = s.used ∧ s'.pages = s.pages ∧ s'.order e.1 = s.order e.1 ∧
      ∀ a, (∀ d ∈ E₁, a ≠ d.1 + 8) → s'.mem a = s.mem a := by
  rcases List.eq_nil_or_concat E₁ with rfl | ⟨E₀, d, rfl⟩
  · obtain ⟨-, -, -, -, hrest⟩ := h
    refine ⟨{ s with bigblocks := s.bigNext e.1 }, rfl, ?_, rfl, rfl, rfl, rfl, fun _ _ => rfl⟩
    exact hrest.congr fun _ _ _ _ => rfl
  · rw [List.concat_eq_append] at h hfar ⊢
    have hlast : lastOf none (E₀ ++ [d]) = some d.1 := lastOf_append none E₀ d
    obtain ⟨hbefore, htail, hacross⟩ := List.pairwise_append.mp hfar
    refine ⟨s.store (d.1 + 8) (s.bigNext e.1), by rw [hlast]; rfl, ?_, rfl, rfl, rfl, ?_, fun a ha => ?_⟩
    · rw [List.append_assoc, List.singleton_append] at h ⊢
      refine h.unlink_behind fun e' he' k hk => ?_
      rcases List.mem_append.mp he' with he' | he'
      · have := (List.pairwise_append.mp hbefore).2.2 e' he' d List.mem_cons_self
        omega
      · have := hacross d (by simp) e' (List.mem_cons_of_mem _ he')
        omega
    · have := hacross d (by simp) e List.mem_cons_self
      exact Function.update_of_ne (by omega) _ _
    · exact Function.update_of_ne (ha d (by simp)) _ _

end bigList

/-! ### The invariant -/

/-- The regions in use: the small blocks and the descriptors. -/
def inUse (small : List (ℕ × ℕ)) (E : List (ℕ × ℕ × ℕ)) : List Extent :=
  small.map smallRegion ++ E.map fun e => descriptorRegion e.1

/-- The pointer of a small block is behind its header, which has the length. -/
def Headers (s : Slob) (small : List (ℕ × ℕ)) : Prop :=
  ∀ b ∈ small, slobUnit < b.1 ∧ 0 < b.2 ∧ s.units (b.1 - slobUnit) = slobUnits (b.2 + slobUnit)

/-- The invariant of the heap, with its free blocks `F` and its descriptors `E`. -/
structure SlobInv (A : ℕ) (w : SlobWorld) (F : List Extent) (E : List (ℕ × ℕ × ℕ)) : Prop where
  tiling : Tiling A w.heap F (inUse w.small E)
  /-- The headers of the small blocks are in place. -/
  header : Headers w.heap w.small
  /-- The descriptors are on the list, and they are those of the blocks of whole pages. -/
  list : BigList w.heap w.heap.bigblocks E
  big : w.big = E.map Prod.snd
  aligned : ∀ b ∈ w.big, pageSize ∣ b.1 ∧ b.1 ≠ 0
  /-- The pages that are out are those of the heap and those of the blocks of whole pages. -/
  used : w.heap.used.Perm (w.heap.pages.map (fun p => (p, pageSize)) ++ w.big.map bigRegion)

section inv

variable {A : ℕ} {w : SlobWorld} {F F' H : List Extent} {E : List (ℕ × ℕ × ℕ)} {s s' : Slob}
  {pick : PagePick}

theorem mem_inUse_small {small : List (ℕ × ℕ)} {b : ℕ × ℕ} (hb : b ∈ small) :
    smallRegion b ∈ inUse small E := List.mem_append_left _ (List.mem_map_of_mem hb)

theorem mem_inUse_descriptor {l : List (ℕ × ℕ)} {e : ℕ × ℕ × ℕ} (he : e ∈ E) :
    descriptorRegion e.1 ∈ inUse l E :=
  List.mem_append_right _ (List.mem_map_of_mem (f := fun e => descriptorRegion e.1) he)

/-- The words of the regions in use are the same in `s'` as in `s`. -/
def SameWords (R : List Extent) (s s' : Slob) : Prop :=
  ∀ r ∈ R, ∀ a, r.1 ≤ a → a < r.1 + r.2 → s'.mem a = s.mem a

theorem Headers.congr {small : List (ℕ × ℕ)} (h : Headers s small)
    (hmem : SameWords (inUse small E) s s') : Headers s' small := by
  intro b hb
  obtain ⟨hlt, hpos, hunits⟩ := h b hb
  refine ⟨hlt, hpos, ?_⟩
  rw [← hunits]
  refine hmem _ (mem_inUse_small hb) _ le_rfl ?_
  simp only [smallRegion, slobUnits, slobUnit]
  omega

theorem BigList.kept {small : List (ℕ × ℕ)} {head : ℕ} (h : BigList s head E)
    (hmem : SameWords (inUse small E) s s') : BigList s' head E := by
  refine h.congr fun e he k hk => ?_
  exact hmem _ (mem_inUse_descriptor he) _ (Nat.le_add_right ..) (Nat.add_lt_add_left hk e.1)

/-- The words of the other regions are as they were when a block has been allocated. -/
theorem Allocated.exists_tiling {u m : ℕ} (h : Allocated A s F H u m s') :
    ∃ F', Tiling A s' F' ((m, slobUnit * u) :: H) ∧ SameWords H s s' := by
  obtain ⟨F', htile, -, hframe⟩ := h.tiling
  refine ⟨F', htile, fun r hr a hle hlt => hframe a ?_ ?_⟩
  · exact htile.free r (List.mem_cons_of_mem _ hr) a hle hlt
  · rcases (List.pairwise_cons.mp htile.apart).1 r hr with hap | hap
    · simp only at hap
      omega
    · simp only at hap
      omega

/-- The runs of pages that are out, when the heap has grown. -/
theorem Allocated.used_perm {u m : ℕ} (h : Allocated A s F H u m s') {R : List Extent}
    (hused : s.used.Perm (s.pages.map (fun p => (p, pageSize)) ++ R)) :
    s'.used.Perm (s'.pages.map (fun p => (p, pageSize)) ++ R) := by
  obtain ⟨new, hpages, hused'⟩ := h.grown
  rw [hpages, hused', List.map_append, List.append_assoc]
  exact hused.append_left _

/-- `kmalloc` of a small block: the assertion of `slob_alloc` stops it, or it returns. -/
theorem SlobInv.kmalloc_small (h : SlobInv A w F E) (hpick : PickOk A pick) {size : ℕ}
    (hpos : 0 < size) (hsmall : size < pageSize - slobUnit) :
    (kmalloc pick size).run w.heap = .panic .allocSize ∨
      ∃ p s', (kmalloc pick size).run w.heap = .ok p s' ∧
        ∃ F' E', SlobInv A (w.allocated p size s') F' E' := by
  rw [kmalloc, if_pos hsmall]
  by_cases hmax : size + slobUnit + slobUnit < pageSize
  case neg =>
    left
    rw [slobAlloc]
    exact Prog.bind_of_panic (Prog.bind_of_panic (Prog.run_assert_of_not _ _ hmax))
  right
  obtain ⟨m, s', halloc, hpost⟩ :=
    slobAlloc_run hpick h.tiling (size + slobUnit) (by simp only [slobUnit]; omega) hmax
  rw [Prog.bind_of_ok halloc]
  refine ⟨_, s', rfl, ?_⟩
  rcases hpost with ⟨rfl, rfl⟩ | hpost
  · have h0 : (if (0 : ℕ) ≠ 0 then 0 + slobUnit else 0) = 0 := if_neg (by simp)
    rw [h0, SlobWorld.allocated, if_pos rfl]
    exact ⟨F, E, h⟩
  · have hm := hpost.nonzero
    have h0 : m + slobUnit ≠ 0 := by simp only [slobUnit]; omega
    rw [if_pos hm, SlobWorld.allocated, if_neg h0, if_pos hsmall]
    obtain ⟨F', htile, hkeep⟩ := hpost.exists_tiling
    have hheader := h.header.congr hkeep
    have hlist : BigList s' s'.bigblocks E := hpost.big ▸ h.list.kept hkeep
    have hregion : smallRegion (m + slobUnit, size) =
        (m, slobUnit * slobUnits (size + slobUnit)) := by
      rw [smallRegion, Nat.add_sub_cancel]
    refine ⟨F', E, ?_, ?_, hlist, h.big, h.aligned, hpost.used_perm h.used⟩
    · show Tiling A s' F' (smallRegion (m + slobUnit, size) :: inUse w.small E)
      rw [hregion]
      exact htile
    · intro b hb
      rcases List.mem_cons.mp hb with rfl | hb
      · refine ⟨by simp only; omega, hpos, ?_⟩
        simp only [Nat.add_sub_cancel]
        exact hpost.units
      · exact hheader b hb

/-- A region in use comes to the front. -/
theorem inUse_descriptor_perm {small : List (ℕ × ℕ)} (E₁ : List (ℕ × ℕ × ℕ)) {E₂ : List (ℕ × ℕ × ℕ)} {e : ℕ × ℕ × ℕ} :
    (inUse small (E₁ ++ e :: E₂)).Perm (descriptorRegion e.1 :: inUse small (E₁ ++ E₂)) := by
  rw [inUse, inUse, List.map_append, List.map_append, List.map_cons, ← List.append_assoc,
    ← List.append_assoc]
  exact List.perm_middle

theorem inUse_small_perm {l₁ l₂ : List (ℕ × ℕ)} {b : ℕ × ℕ} :
    (inUse (l₁ ++ b :: l₂) E).Perm (smallRegion b :: inUse (l₁ ++ l₂) E) := by
  rw [inUse, inUse, List.map_append, List.map_append, List.map_cons, List.append_assoc,
    List.append_assoc, List.cons_append]
  exact List.perm_middle

/-- The words of a new descriptor are written. -/
theorem Tiling.store {m n a v : ℕ} (h : Tiling A s F ((m, n) :: H)) (hle : m ≤ a) (hlt : a < m + n) :
    Tiling A (s.store a v) F ((m, n) :: H) := by
  refine h.congr (fun x hx => ?_) rfl rfl rfl
  have hne : x ≠ a := by
    rintro rfl
    exact h.free (m, n) List.mem_cons_self x hle hlt hx
  exact Function.update_of_ne hne _ _

/-- A write to one region in use does not reach the others. -/
theorem Tiling.store_keeps {m n a v : ℕ} (h : Tiling A s F ((m, n) :: H)) (hle : m ≤ a)
    (hlt : a < m + n) : SameWords H s (s.store a v) := by
  intro r hr x hxle hxlt
  have hne : x ≠ a := by
    rintro rfl
    rcases (List.pairwise_cons.mp h.apart).1 r hr with hap | hap
    · simp only at hap
      omega
    · simp only at hap
      omega
  exact Function.update_of_ne hne _ _

/-- `slob_free` leaves the other regions in use as they are. -/
theorem slobFree_keeps {b n : ℕ} (h : Tiling A s F ((b, n) :: H)) (size : ℕ)
    (hsize : size ≠ 0 → slobUnit * slobUnits size = n) (hheader : size = 0 → s.bytes b = n) :
    ∃ s' F', (slobFree b size).run s = .ok () s' ∧ Tiling A s' F' H ∧ s'.used = s.used ∧
      s'.pages = s.pages ∧ s'.bigblocks = s.bigblocks ∧ SameWords H s s' := by
  obtain ⟨s', F', hrun, htile, hused, hpages, hbig, -, hframe⟩ := slobFree_run h size hsize hheader
  exact ⟨s', F', hrun, htile, hused, hpages, hbig,
    fun r hr a hle hlt => hframe a (htile.free r hr a hle hlt)⟩

/-- A new descriptor, filled in, is the first of the list. -/
theorem BigList.push {bb b size : ℕ} (h : BigList s s.bigblocks E) (hbb : bb ≠ 0)
    (hkeep : ∀ e ∈ E, ∀ k < 16, e.1 + k < bb ∨ bb + 16 ≤ e.1 + k) {used : List Extent} :
    BigList (Slob.pushBig (Slob.store { s.store bb (findOrder size) with used := used } (bb + 4) b) bb)
      bb ((bb, b, size) :: E) := by
  refine ⟨rfl, hbb, ?_, ?_, ?_⟩
  · simp only [Slob.order, Slob.pushBig, Slob.store]
    rw [Function.update_of_ne (by omega), Function.update_of_ne (by omega), Function.update_self]
  · simp only [Slob.bigPages, Slob.pushBig, Slob.store]
    rw [Function.update_of_ne (by omega), Function.update_self]
  · have hnext : Slob.bigNext (Slob.pushBig (Slob.store
        { s.store bb (findOrder size) with used := used } (bb + 4) b) bb) bb = s.bigblocks :=
      Function.update_self ..
    rw [hnext]
    refine h.congr fun e he k hk => ?_
    have hfar := hkeep e he k hk
    simp only [Slob.pushBig, Slob.store]
    rw [Function.update_of_ne (by omega), Function.update_of_ne (by omega),
      Function.update_of_ne (by omega)]

/-- `kmalloc` of whole pages. -/
theorem SlobInv.kmalloc_big (h : SlobInv A w F E) (hpick : PickOk A pick) {size : ℕ}
    (hbig : ¬ size < pageSize - slobUnit) :
    ∃ p s', (kmalloc pick size).run w.heap = .ok p s' ∧
      ∃ F' E', SlobInv A (w.allocated p size s') F' E' := by
  obtain ⟨bb, s₁, halloc, hpost⟩ :=
    slobAlloc_run hpick h.tiling sizeofBigblock (by decide) (by decide)
  rw [kmalloc, if_neg hbig, Prog.bind_of_ok halloc]
  rcases hpost with ⟨rfl, rfl⟩ | hpost
  · refine ⟨0, w.heap, rfl, F, E, ?_⟩
    rw [SlobWorld.allocated, if_pos rfl]
    exact h
  have hbb := hpost.nonzero
  obtain ⟨F', htile, hkeep⟩ := hpost.exists_tiling
  have hroom : ∀ k < 16, bb ≤ bb + k ∧ bb + k < bb + slobUnit * slobUnits sizeofBigblock := by
    intro k hk
    exact ⟨Nat.le_add_right .., Nat.add_lt_add_left hk bb⟩
  simp only [if_neg hbb, Prog.run_bind, Prog.run_modify, Prog.run_get, Outcome.andThen_ok]
  have horder : (s₁.store bb (findOrder size)).order bb = findOrder size := Function.update_self ..
  rw [horder]
  have hfirst : bb < bb + slobUnit * slobUnits sizeofBigblock := (hroom 0 (by decide)).2
  have hstore := htile.store (v := findOrder size) le_rfl hfirst
  have hkeep₁ := htile.store_keeps (v := findOrder size) le_rfl hfirst
  rcases slobGetFreePages_run hpick (s₁.store bb (findOrder size)) (findOrder size) with
    hget | ⟨b, hget, hb0, hbal, hfresh, hfar⟩
  · -- no pages: the descriptor is given back
    rw [hget]
    simp only [Outcome.andThen_ok, ne_eq, not_true_eq_false, if_false, Prog.run_bind,
      Prog.run_modify]
    have hstore₂ := hstore.store (v := 0) (hroom 4 (by decide)).1 (hroom 4 (by decide)).2
    have hkeep₂ := hstore.store_keeps (v := 0) (hroom 4 (by decide)).1 (hroom 4 (by decide)).2
    obtain ⟨s', F'', hfree, htile', hused', hpages', hbig', hkeep'⟩ :=
      slobFree_keeps hstore₂ sizeofBigblock (fun _ => rfl) (fun h0 => absurd h0 (by decide))
    rw [hfree]
    refine ⟨0, s', rfl, F'', E, ?_⟩
    rw [SlobWorld.allocated, if_pos rfl]
    have hwords : SameWords (inUse w.small E) w.heap s' :=
      fun r hr a hle hlt => (hkeep' r hr a hle hlt).trans ((hkeep₂ r hr a hle hlt).trans
        ((hkeep₁ r hr a hle hlt).trans (hkeep r hr a hle hlt)))
    have hlist : BigList s' s'.bigblocks E :=
      (hbig'.trans hpost.big : s'.bigblocks = w.heap.bigblocks) ▸ h.list.kept hwords
    refine ⟨htile', h.header.congr hwords, hlist, h.big, h.aligned, ?_⟩
    simp only [hused', hpages']
    exact hpost.used_perm h.used
  · rw [hget]
    simp only [Outcome.andThen_ok, ne_eq, hb0, not_false_eq_true, if_true, Prog.run_bind,
      Prog.run_modify, Prog.run_pure]
    refine ⟨b, _, rfl, F', (bb, b, size) :: E, ?_⟩
    rw [SlobWorld.allocated, if_neg hb0, if_neg hbig]
    have hpages := hstore.getPages hfresh hfar
    have hstore₂ := hpages.store (v := b) (hroom 4 (by decide)).1 (hroom 4 (by decide)).2
    have hstore₃ := hstore₂.store (v := s₁.bigblocks) (hroom 8 (by decide)).1 (hroom 8 (by decide)).2
    have hlist : BigList s₁ s₁.bigblocks E := hpost.big ▸ h.list.kept hkeep
    have hapart : ∀ r ∈ inUse w.small E, ∀ a, r.1 ≤ a → a < r.1 + r.2 → a < bb ∨ bb + 16 ≤ a := by
      intro r hr a hle hlt
      rcases (List.pairwise_cons.mp htile.apart).1 r hr with hap | hap
      · have : bb + 16 ≤ r.1 := hap
        omega
      · simp only at hap
        omega
    refine ⟨?_, ?_, ?_, ?_, ?_, ?_⟩
    · refine Tiling.perm ?_ (inUse_descriptor_perm []).symm
      exact hstore₃.congr (fun _ _ => rfl) rfl rfl rfl
    · refine Headers.congr (E := E) h.header fun r hr a hle hlt => ?_
      have hfar' := hapart r hr a hle hlt
      rw [← hkeep r hr a hle hlt]
      simp only [Slob.pushBig, Slob.store]
      rw [Function.update_of_ne (by omega), Function.update_of_ne (by omega),
        Function.update_of_ne (by omega)]
    · refine BigList.push hlist hbb fun e he k hk => ?_
      exact hapart _ (mem_inUse_descriptor he) _ (Nat.le_add_right ..) (Nat.add_lt_add_left hk e.1)
    · show (b, size) :: w.big = _
      rw [h.big]
      rfl
    · intro b' hb'
      rcases List.mem_cons.mp hb' with rfl | hb'
      · exact ⟨hbal, hb0⟩
      · exact h.aligned b' hb'
    · show List.Perm ((b, pageSize * 2 ^ findOrder size) :: s₁.used) _
      refine List.Perm.trans ?_ List.perm_middle.symm
      exact (hpost.used_perm h.used).cons _

/-! ### Freeing -/

/-- The runs of pages that are out do not overlap, by what they are used for. -/
theorem SlobInv.runs_apart (h : SlobInv A w F E) :
    (∀ p ∈ w.heap.pages, ∀ b ∈ w.big, Extent.Apart (p, pageSize) (bigRegion b)) ∧
      (w.big.map bigRegion).Pairwise Extent.Apart := by
  have hpair := h.used.pairwise h.tiling.usedApart Extent.Apart.symm
  obtain ⟨-, hbig, hacross⟩ := List.pairwise_append.mp hpair
  exact ⟨fun p hp b hb => hacross _ (List.mem_map_of_mem hp) _ (List.mem_map_of_mem hb), hbig⟩

theorem bigRegion_pos (b : ℕ × ℕ) : 0 < (bigRegion b).2 :=
  Nat.mul_pos (by decide) (Nat.pow_pos (by decide))

/-- A byte of the heap is in no block of whole pages. -/
theorem SlobInv.not_inPages (h : SlobInv A w F E) {b : ℕ × ℕ} (hb : b ∈ w.big) {q : ℕ}
    (hle : b.1 ≤ q) (hlt : q < b.1 + (bigRegion b).2) : ¬ w.heap.InPages q := by
  rintro ⟨p, hp, hple, hplt⟩
  rcases h.runs_apart.1 p hp b hb with hap | hap
  · simp only [bigRegion] at hap hlt
    omega
  · simp only [bigRegion] at hap hlt
    omega

/-- The pointer of a small block is in the heap. -/
theorem SlobInv.small_inPages (h : SlobInv A w F E) {b : ℕ × ℕ} (hb : b ∈ w.small) :
    w.heap.InPages b.1 := by
  obtain ⟨hlt, hpos, -⟩ := h.header b hb
  refine h.tiling.inside _ (mem_inUse_small hb) b.1 ?_ ?_
  · exact Nat.sub_le ..
  · simp only [smallRegion, slobUnits, slobUnit] at hlt ⊢
    omega

/-- A small block and a block of whole pages have different pointers. -/
theorem SlobInv.pointer_ne (h : SlobInv A w F E) {b b' : ℕ × ℕ} (hb : b ∈ w.small) (hb' : b' ∈ w.big) :
    b.1 ≠ b'.1 := by
  intro heq
  have hpos := bigRegion_pos b'
  exact h.not_inPages hb' le_rfl (by omega) (heq ▸ h.small_inPages hb)

theorem SlobInv.descriptors_lt_bound (h : SlobInv A w F E) : E.length < w.heap.bound := by
  have hcount := h.tiling.count
  have htotal : total (E.map fun e => descriptorRegion e.1) = 16 * E.length := by
    clear h hcount
    induction E with
    | nil => rfl
    | cons e E ih =>
      have : (descriptorRegion e.1).2 = 16 := rfl
      rw [List.map_cons, total_cons, ih, this, List.length_cons]
      omega
  rw [inUse, total_append, htotal] at hcount
  simp only [slobUnit, Slob.bound] at hcount ⊢
  omega

/-- `kfree` of a small block. It is told from a block of whole pages even if its pointer is the address
of a page. -/
theorem SlobInv.kfree_small (h : SlobInv A w F E) {p : ℕ} (hp : ∃ b ∈ w.small, b.1 = p) :
    ∃ s' F' E', (kfree p).run w.heap = .ok () s' ∧ SlobInv A (w.freed p s') F' E' := by
  obtain ⟨b₀, hb₀, hb₀p⟩ := hp
  have hnobig : ∀ b ∈ w.big, b.1 ≠ p := fun b hb => hb₀p ▸ (h.pointer_ne hb₀ hb).symm
  obtain ⟨b, l₁, l₂, -, hbp, hsmall, herase⟩ :=
    List.exists_of_eraseP (p := fun b : ℕ × ℕ => decide (b.1 = p)) hb₀ (by simpa using hb₀p)
  have hbp' : b.1 = p := by simpa using hbp
  have hb : b ∈ w.small := by rw [hsmall]; simp
  obtain ⟨hlt, hpos, hunits⟩ := h.header b hb
  have hp0 : p ≠ 0 := by omega
  have htake : (takeBig p).run w.heap = .ok none w.heap := by
    rw [takeBig]
    simp only [Prog.run_bind, Prog.run_get, Outcome.andThen_ok]
    by_cases halign : p % pageSize = 0
    · rw [if_pos halign, h.list.findBig_none ?_ h.descriptors_lt_bound]
      · rfl
      · intro e he
        exact hnobig e.2 (by rw [h.big]; exact List.mem_map_of_mem he)
    · rw [if_neg halign]
      rfl
  have hbytes : w.heap.bytes (p - slobUnit) = (smallRegion b).2 := by
    rw [Slob.bytes, ← hbp', hunits]
    rfl
  have hperm : (inUse w.small E).Perm
      ((p - slobUnit, (smallRegion b).2) :: inUse (l₁ ++ l₂) E) := by
    rw [hsmall, ← hbp']
    exact inUse_small_perm
  obtain ⟨s', F', hfree, htile, hused, hpages, hbig, hkeep⟩ :=
    slobFree_keeps (h.tiling.perm hperm) 0 (fun h0 => absurd rfl h0) fun _ => hbytes
  have hsub : ∀ b' ∈ l₁ ++ l₂, b' ∈ w.small := by
    intro b' hb'
    rw [hsmall]
    rcases List.mem_append.mp hb' with hb' | hb'
    · exact List.mem_append_left _ hb'
    · exact List.mem_append_right _ (List.mem_cons_of_mem _ hb')
  have hbigsame : w.big.eraseP (fun b => decide (b.1 = p)) = w.big :=
    List.eraseP_of_forall_not fun b hb => by simpa using hnobig b hb
  refine ⟨s', F', E, ?_, ?_⟩
  · rw [kfree, if_neg hp0, Prog.bind_of_ok htake]
    exact hfree
  · have hfreed : w.freed p s' = { heap := s', small := l₁ ++ l₂, big := w.big } := by
      rw [SlobWorld.freed, herase, hbigsame]
    rw [hfreed]
    have hlist : BigList s' s'.bigblocks E := hbig ▸ h.list.kept hkeep
    refine ⟨htile, ?_, hlist, h.big, h.aligned, ?_⟩
    · exact Headers.congr (fun b' hb' => h.header b' (hsub b' hb')) hkeep
    · simp only [hused, hpages]
      exact h.used

/-- A run of pages that is not part of the heap is given back. -/
theorem Tiling.freePages (h : Tiling A s F H) {r : Extent} (hr : ∀ p ∈ s.pages, (p, pageSize) ≠ r) :
    Tiling A { s with used := s.used.erase r } F H where
  coalesced := h.coalesced
  ring := h.ring
  entry := h.entry
  arena := h.arena
  unit := h.unit
  apart := h.apart
  free := h.free
  inside := h.inside
  freeInside := h.freeInside
  held p hp := ⟨(h.held p hp).1, (List.mem_erase_of_ne (hr p hp)).mpr (h.held p hp).2⟩
  usedApart := h.usedApart.sublist List.erase_sublist
  usedFar r' hr' := h.usedFar r' (List.mem_of_mem_erase hr')
  count := h.count

/-- Descriptors are two units long and do not overlap. -/
theorem SlobInv.descriptors_apart (h : SlobInv A w F E) :
    E.Pairwise fun x y => x.1 + 16 ≤ y.1 ∨ y.1 + 16 ≤ x.1 := by
  have hpair := (List.pairwise_append.mp h.tiling.apart).2.1
  exact List.pairwise_map.mp hpair

/-- `kfree` of a block of whole pages. -/
theorem SlobInv.kfree_big (h : SlobInv A w F E) {p : ℕ} (hp : ∃ b ∈ w.big, b.1 = p) :
    ∃ s' F' E', (kfree p).run w.heap = .ok () s' ∧ SlobInv A (w.freed p s') F' E' := by
  obtain ⟨b₀, hb₀, hb₀p⟩ := hp
  have hnosmall : ∀ b ∈ w.small, b.1 ≠ p := fun b hb => hb₀p ▸ h.pointer_ne hb hb₀
  obtain ⟨e₀, he₀, rfl⟩ := List.mem_map.mp (h.big ▸ hb₀)
  obtain ⟨e, E₁, E₂, hno, hep, hE, herase⟩ :=
    List.exists_of_eraseP (p := (fun b : ℕ × ℕ => decide (b.1 = p)) ∘ Prod.snd) he₀
      (by simpa using hb₀p)
  have hep' : e.2.1 = p := by simpa using hep
  have hno' : ∀ e' ∈ E₁, e'.2.1 ≠ p := fun e' he' => by simpa using hno e' he'
  subst hE
  have hemem : e ∈ E₁ ++ e :: E₂ := by simp
  have hebig : e.2 ∈ w.big := by
    rw [h.big]
    exact List.mem_map_of_mem hemem
  obtain ⟨halign, hp0⟩ := h.aligned e.2 hebig
  rw [hep'] at halign hp0
  have hfar := h.descriptors_apart
  obtain ⟨s₁, hunlink, hlist₁, hfree₁, hused₁, hpages₁, horder₁, hframe₁⟩ :=
    Slob.unlinkBig_spec h.list hfar
  have htake : (takeBig p).run w.heap = .ok (some e.1) s₁ := by
    rw [takeBig]
    simp only [Prog.run_bind, Prog.run_get, Outcome.andThen_ok]
    rw [if_pos (Nat.mod_eq_zero_of_dvd halign),
      h.list.findBig_some hno' hep' h.descriptors_lt_bound]
    simp only [Prog.run_bind, Prog.run_modify, Outcome.andThen_ok, hunlink, Prog.run_pure]
  -- the words that have changed are in other descriptors
  have hlinks : ∀ a, (∀ d ∈ E₁, a ≠ d.1 + 8) → s₁.mem a = w.heap.mem a := hframe₁
  have htile₁ : Tiling A s₁ F (inUse w.small (E₁ ++ e :: E₂)) := by
    refine h.tiling.congr (fun a ha => hlinks a fun d hd heq => ?_) hfree₁ hused₁ hpages₁
    have hd' : d ∈ E₁ ++ e :: E₂ := List.mem_append_left _ hd
    refine h.tiling.free _ (mem_inUse_descriptor hd') a ?_ ?_ ha
    · rw [heq]
      exact Nat.le_add_right ..
    · rw [heq]
      exact Nat.add_lt_add_left (show 8 < 16 by decide) d.1
  have hnotpage : ∀ q ∈ s₁.pages, (q, pageSize) ≠ bigRegion e.2 := by
    intro q hq heq
    rw [hpages₁] at hq
    have hpos := bigRegion_pos e.2
    have hap := h.runs_apart.1 q hq e.2 hebig
    rw [heq, Extent.Apart] at hap
    omega
  have horder : s₁.order e.1 = findOrder e.2.2 := by
    rw [horder₁]
    have hl := h.list
    clear * - hl
    generalize w.heap.bigblocks = head at hl
    induction E₁ generalizing head with
    | nil => exact hl.2.2.1
    | cons e' E₁ ih => exact ih _ hl.2.2.2.2
  have htile₂ := (htile₁.freePages hnotpage).perm (inUse_descriptor_perm _)
  obtain ⟨s', F', hfree, htile', hused', hpages', hbig', hkeep'⟩ :=
    slobFree_keeps htile₂ sizeofBigblock (fun _ => rfl) (fun h0 => absurd h0 (by decide))
  refine ⟨s', F', E₁ ++ E₂, ?_, ?_⟩
  · rw [kfree, if_neg hp0, Prog.bind_of_ok htake]
    simp only [Prog.run_bind, Prog.run_get, Outcome.andThen_ok, slobFreePages, Prog.run_modify, horder]
    rw [← hep']
    exact hfree
  · have hsmallsame : w.small.eraseP (fun b => decide (b.1 = p)) = w.small :=
      List.eraseP_of_forall_not fun b hb => by simpa using hnosmall b hb
    have hbigerase : w.big.eraseP (fun b => decide (b.1 = p)) = (E₁ ++ E₂).map Prod.snd := by
      rw [h.big, List.eraseP_map, herase]
    have hfreed : w.freed p s' = { heap := s', small := w.small, big := (E₁ ++ E₂).map Prod.snd } := by
      rw [SlobWorld.freed, hsmallsame, hbigerase]
    rw [hfreed]
    refine ⟨htile', ?_, ?_, rfl, ?_, ?_⟩
    · -- small blocks have not been written
      have hheader₁ : Headers s₁ w.small := by
        intro b hb
        obtain ⟨hlt, hpos, hunits⟩ := h.header b hb
        refine ⟨hlt, hpos, ?_⟩
        rw [← hunits]
        refine hlinks _ fun d hd heq => ?_
        have hacross := (List.pairwise_append.mp h.tiling.apart).2.2 _ (List.mem_map_of_mem hb) _
          (List.mem_map_of_mem (f := fun e => descriptorRegion e.1)
            (List.mem_append_left (e :: E₂) hd))
        have hregion : (descriptorRegion d.1).1 + 16 = (descriptorRegion d.1).1 +
            (descriptorRegion d.1).2 := rfl
        have hd1 : (descriptorRegion d.1).1 = d.1 := rfl
        have hb1 : (smallRegion b).1 = b.1 - slobUnit := rfl
        have hun := h.tiling.unit _ (mem_inUse_small hb)
        simp only [slobUnit] at hun heq hb1
        rcases hacross with hap | hap
        · omega
        · omega
      exact Headers.congr hheader₁ hkeep'
    · rw [hbig']
      exact BigList.kept (hlist₁.congr fun _ _ _ _ => rfl) hkeep'
    · intro b hb
      refine h.aligned b ?_
      rw [h.big]
      simp only [List.map_append, List.map_cons, List.mem_append, List.mem_cons] at hb ⊢
      tauto
    · simp only [hused', hpages', hused₁, hpages₁]
      have hperm := h.used
      rw [h.big, List.map_append, List.map_cons, List.map_append, List.map_cons,
        ← List.append_assoc] at hperm
      have hmiddle := (hperm.trans List.perm_middle).erase (bigRegion e.2)
      rw [List.erase_cons_head] at hmiddle
      rw [List.map_append, List.map_append, ← List.append_assoc]
      exact hmiddle

/-- A word that callers may write is neither in a free block nor a header or part of a descriptor. -/
theorem SlobInv.write (h : SlobInv A w F E) {a : ℕ} (v : ℕ) (ha : ClientWord A w a) :
    SlobInv A { w with heap := w.heap.store a v } F E := by
  -- the word is in one region in use, behind a header, or in none
  have hout : a ∉ flat F := by
    intro hmem
    rcases ha with ⟨b, hb, hle, hend⟩ | ⟨harena, hpages⟩
    · refine h.tiling.free _ (mem_inUse_small hb) a ?_ (by omega) hmem
      exact (Nat.sub_le ..).trans hle
    · obtain ⟨p, hp, hple, hplt⟩ := h.tiling.freeInside a hmem (by
        rw [Extent.mem_pages]
        simp only
        omega)
      have := hpages p hp
      omega
  have hother : ∀ r ∈ inUse w.small E, r.1 ≤ a → a < r.1 + r.2 →
      ∃ b ∈ w.small, smallRegion b = r ∧ b.1 ≤ a := by
    intro r hr hle hlt
    rcases ha with ⟨b, hb, hble, hbend⟩ | ⟨-, hpages⟩
    · have hstart : (smallRegion b).1 ≤ a := (Nat.sub_le ..).trans hble
      rcases pairwise_trichotomy h.tiling.apart (mem_inUse_small hb) hr with heq | hap | hap
      · exact ⟨b, hb, heq, hble⟩
      · rcases hap with hap | hap <;> omega
      · rcases hap with hap | hap <;> omega
    · obtain ⟨p, hp, hple, hplt⟩ := h.tiling.inside r hr a hle hlt
      have := hpages p hp
      omega
  refine ⟨?_, ?_, ?_, h.big, h.aligned, h.used⟩
  · refine h.tiling.congr (fun x hx => ?_) rfl rfl rfl
    have hxa : x ≠ a := by
      rintro rfl
      exact hout hx
    exact Function.update_of_ne hxa _ _
  · intro b hb
    obtain ⟨hlt, hpos, hunits⟩ := h.header b hb
    refine ⟨hlt, hpos, ?_⟩
    rw [← hunits]
    refine Function.update_of_ne (fun heq => ?_) _ _
    have hun := h.tiling.unit _ (mem_inUse_small (E := E) hb)
    have h8 : 0 < slobUnit := by decide
    obtain ⟨b', hb', hreg, hle'⟩ := hother _ (mem_inUse_small hb) (by rw [← heq]; exact le_rfl)
      (by rw [← heq]; exact Nat.lt_add_of_pos_right (by omega))
    have hfst := congrArg Prod.fst hreg
    have hlt' := (h.header b' hb').1
    simp only [smallRegion] at hfst
    omega
  · refine h.list.congr fun e he k hk => Function.update_of_ne (fun heq => ?_) _ _
    have hr := mem_inUse_descriptor (l := w.small) he
    obtain ⟨b', hb', hreg, -⟩ := hother _ hr
      (by rw [← heq]; exact Nat.le_add_right ..) (by rw [← heq]; exact Nat.add_lt_add_left hk e.1)
    -- a small block and a descriptor are different regions
    have hap := (List.pairwise_append.mp h.tiling.apart).2.2 _ (List.mem_map_of_mem hb') _
      (List.mem_map_of_mem (f := fun e => descriptorRegion e.1) he)
    rw [hreg] at hap
    have hpos : 0 < (descriptorRegion e.1).2 := by
      show 0 < 16
      decide
    rcases hap with hap | hap <;> omega

/-- `kmalloc` ends at the assertion of `slob_alloc` or returns. -/
theorem SlobInv.kmalloc (h : SlobInv A w F E) (hpick : PickOk A pick) {size : ℕ} (hpos : 0 < size) :
    (kmalloc pick size).run w.heap = .panic .allocSize ∨
      ∃ p s', (Mm.kmalloc pick size).run w.heap = .ok p s' ∧
        ∃ F' E', SlobInv A (w.allocated p size s') F' E' := by
  by_cases hsmall : size < pageSize - slobUnit
  · exact h.kmalloc_small hpick hpos hsmall
  · exact Or.inr (h.kmalloc_big hpick hsmall)

/-- `kfree` of a block that is held returns. -/
theorem SlobInv.kfree (h : SlobInv A w F E) {p : ℕ} (hp : ∃ b ∈ w.small ++ w.big, b.1 = p) :
    ∃ s' F' E', (kfree p).run w.heap = .ok () s' ∧ SlobInv A (w.freed p s') F' E' := by
  obtain ⟨b, hb, hbp⟩ := hp
  rcases List.mem_append.mp hb with hb | hb
  · exact h.kfree_small ⟨b, hb, hbp⟩
  · exact h.kfree_big ⟨b, hb, hbp⟩

theorem SlobInv.boot (A : ℕ) (mem : ℕ → ℕ) : SlobInv A (slobBoot A mem) [(A, slobUnit)] [] where
  tiling :=
    { coalesced := .of_gap (by simp [slobUnit]) (List.pairwise_singleton ..)
      ring := by
        refine ⟨⟨by simp [slobUnit], List.pairwise_singleton ..⟩, ?_, ?_, trivial⟩
        · intro r hr
          obtain rfl := List.mem_singleton.mp hr
          show slobUnit * Function.update (Function.update mem A 1) (A + 4) A A = slobUnit
          rw [Function.update_of_ne (by omega), Function.update_self, mul_one]
        · exact Function.update_self ..
      entry := List.mem_singleton.mpr rfl
      arena := List.mem_singleton.mpr rfl
      unit := by simp [inUse, slobBoot]
      apart := List.Pairwise.nil
      free := by simp [inUse, slobBoot]
      inside := by simp [inUse, slobBoot]
      freeInside := by
        intro q hq hqA
        exact absurd (by simpa using hq) hqA
      held := by simp [slobBoot]
      usedApart := List.Pairwise.nil
      usedFar := by simp [slobBoot]
      count := by simp [inUse, slobBoot] }
  header := by simp [Headers, slobBoot]
  list := rfl
  big := rfl
  aligned := by simp [slobBoot]
  used := List.Perm.refl _

/-- The invariant holds in every reachable state. -/
theorem SlobReach.inv {mem : ℕ → ℕ} (h : SlobReach A (slobBoot A mem) w) :
    ∃ F E, SlobInv A w F E := by
  refine invariant_of_step (fun w => ∃ F E, SlobInv A w F E) h ⟨_, _, SlobInv.boot A mem⟩ ?_
  rintro w₁ w₂ ⟨F, E, hinv⟩ hstep
  cases hstep with
  | kmalloc hpick hsize hrun =>
    rcases hinv.kmalloc hpick hsize with hpanic | ⟨p', s'', hrun', hex⟩
    · rw [hrun] at hpanic
      cases hpanic
    · rw [hrun] at hrun'
      cases hrun'
      exact hex
  | kfree hp hrun =>
    obtain ⟨s'', F', E', hrun', hinv'⟩ := hinv.kfree hp
    rw [hrun] at hrun'
    cases hrun'
    exact ⟨F', E', hinv'⟩
  | write v ha => exact ⟨F, E, hinv.write v ha⟩

end inv

/-! ### What the invariant says -/

/-- The descriptors are the list from `head` on. -/
def DescriptorList (s : Slob) : ℕ → List ℕ → Prop
  | head, [] => head = 0
  | head, bb :: bbs => head = bb ∧ bb ≠ 0 ∧ DescriptorList s (s.bigNext bb) bbs

/-- A safe heap, with the free list `free` from `slobfree` on and the descriptors `bbs`. -/
structure HeapSafe (A : ℕ) (w : SlobWorld) (free bbs : List ℕ) : Prop where
  /-- The free list starts at `slobfree` and comes back there without passing a block twice. -/
  entry : free.head? = some w.heap.slobfree
  cycle : Cyc w.heap.next free
  nodup : free.Nodup
  arena : A ∈ free
  /-- There is one block from which the link leads down or stays. -/
  descent : (free.filter fun a => w.heap.next a ≤ a).length = 1
  /-- No block ends where a block starts. -/
  gap : ∀ a ∈ free, ∀ a' ∈ free, a + slobUnit * w.heap.units a ≠ a'
  /-- The descriptors are those on the list `bigblocks`. -/
  descriptors : DescriptorList w.heap w.heap.bigblocks bbs
  /-- The blocks in use, the descriptors and the free blocks do not overlap. -/
  apart : (w.small.map smallRegion ++ w.big.map bigRegion ++ bbs.map descriptorRegion ++
    free.map fun a => (a, slobUnit * w.heap.units a)).Pairwise Extent.Apart
  /-- Every unit is in a free block, a small block or a descriptor. -/
  units : (free.map w.heap.units).sum + (w.small.map fun b => slobUnits (b.2 + slobUnit)).sum +
    (bbs.map fun _ => slobUnits sizeofBigblock).sum = 512 * w.heap.pages.length + 1

section safe

variable {A : ℕ} {w : SlobWorld} {F : List Extent} {E : List (ℕ × ℕ × ℕ)}

theorem BigList.descriptorList {s : Slob} {head : ℕ} (h : BigList s head E) :
    DescriptorList s head (E.map Prod.fst) := by
  induction E generalizing head with
  | nil => exact h
  | cons e E ih => exact ⟨h.1, h.2.1, ih h.2.2.2.2⟩

/-- The free blocks, counted in units. -/
theorem SlobInv.units_eq (h : SlobInv A w F E) :
    ((starts F).map w.heap.units).sum + (w.small.map fun b => slobUnits (b.2 + slobUnit)).sum +
      ((E.map Prod.fst).map fun _ => slobUnits sizeofBigblock).sum =
        512 * w.heap.pages.length + 1 := by
  have hfree : total F = slobUnit * ((starts F).map w.heap.units).sum := by
    have hmap := h.tiling.ring.map_starts
    rw [← List.sum_map_mul_left, total]
    conv_lhs => rw [← hmap]
    rw [List.map_map]
    rfl
  have hsmall : total (w.small.map smallRegion) =
      slobUnit * (w.small.map fun b => slobUnits (b.2 + slobUnit)).sum := by
    rw [← List.sum_map_mul_left, total, List.map_map]
    rfl
  have hdesc : total (E.map fun e => descriptorRegion e.1) =
      slobUnit * ((E.map Prod.fst).map fun _ => slobUnits sizeofBigblock).sum := by
    rw [← List.sum_map_mul_left, total, List.map_map, List.map_map]
    rfl
  have hcount := h.tiling.count
  rw [inUse, total_append, hfree, hsmall, hdesc, ← Nat.mul_add, ← Nat.mul_add, ← add_assoc] at hcount
  exact Nat.eq_of_mul_eq_mul_left (by decide) hcount

/-- The regions of the heap and the blocks of whole pages do not overlap. -/
theorem SlobInv.regions_apart (h : SlobInv A w F E) :
    (w.small.map smallRegion ++ w.big.map bigRegion ++ (E.map Prod.fst).map descriptorRegion ++
      F).Pairwise Extent.Apart := by
  have hdesc : (E.map Prod.fst).map descriptorRegion = E.map fun e => descriptorRegion e.1 := by
    rw [List.map_map]
    rfl
  rw [hdesc]
  obtain ⟨hsmall, hdescs, hacross⟩ := List.pairwise_append.mp h.tiling.apart
  have hinside : ∀ r ∈ inUse w.small E, ∀ r' ∈ w.big.map bigRegion, Extent.Apart r r' := by
    intro r hr r' hr'
    obtain ⟨b, hb, rfl⟩ := List.mem_map.mp hr'
    have hunit := h.tiling.unit r hr
    refine Extent.apart_of_disjoint (lt_of_lt_of_le (by decide) hunit) (bigRegion_pos b) ?_
    intro q hle hlt hle' hlt'
    exact h.not_inPages hb hle' hlt' (h.tiling.inside r hr q hle hlt)
  have hfree : ∀ r ∈ inUse w.small E, ∀ r' ∈ F, Extent.Apart r r' := by
    intro r hr r' hr'
    have hunit := h.tiling.unit r hr
    refine Extent.apart_of_disjoint (lt_of_lt_of_le (by decide) hunit) (h.tiling.coalesced.pos r' hr') ?_
    intro q hle hlt hle' hlt'
    exact h.tiling.free r hr q hle hlt (mem_flat.mpr ⟨r', hr', hle', hlt'⟩)
  have hbigfree : ∀ r ∈ w.big.map bigRegion, ∀ r' ∈ F, Extent.Apart r r' := by
    intro r hr r' hr'
    obtain ⟨b, hb, rfl⟩ := List.mem_map.mp hr
    refine Extent.apart_of_disjoint (bigRegion_pos b) (h.tiling.coalesced.pos r' hr') ?_
    intro q hle hlt hle' hlt'
    refine h.not_inPages hb hle hlt (h.tiling.freeInside q (mem_flat.mpr ⟨r', hr', hle', hlt'⟩) ?_)
    -- runs of pages keep away from the arena
    intro hqA
    rw [Extent.mem_pages] at hqA
    have hused : bigRegion b ∈ w.heap.used :=
      h.used.mem_iff.mpr (List.mem_append_right _ (List.mem_map_of_mem hb))
    have hfar := h.tiling.usedFar _ hused
    simp only at hqA
    omega
  have hF : F.Pairwise Extent.Apart := h.tiling.coalesced.asc.imp Or.inl
  refine List.pairwise_append.mpr ⟨List.pairwise_append.mpr ⟨List.pairwise_append.mpr ⟨hsmall,
    h.runs_apart.2, fun r hr => hinside r (List.mem_append_left _ hr)⟩, hdescs, ?_⟩, hF, ?_⟩
  · intro r hr r' hr'
    rcases List.mem_append.mp hr with hr | hr
    · exact hacross r hr r' hr'
    · exact (hinside r' (List.mem_append_right _ hr') r hr).symm
  · intro r hr r' hr'
    rcases List.mem_append.mp hr with hr | hr
    · rcases List.mem_append.mp hr with hr | hr
      · exact hfree r (List.mem_append_left _ hr) r' hr'
      · exact hbigfree r hr r' hr'
    · exact hfree r (List.mem_append_right _ hr) r' hr'

theorem SlobInv.safe (h : SlobInv A w F E) : ∃ free bbs, HeapSafe A w free bbs := by
  have hring := h.tiling.ring
  obtain ⟨l, hcyc, hperm⟩ := hring.cut_at h.tiling.entry
  refine ⟨w.heap.slobfree :: l, E.map Prod.fst, rfl, hcyc, hperm.nodup_iff.mpr hring.sep.starts_nodup,
    hperm.mem_iff.mpr (mem_starts.mpr ⟨_, h.tiling.arena, rfl⟩), ?_, ?_, h.list.descriptorList, ?_, ?_⟩
  · rw [(hperm.filter _).length_eq]
    exact hring.descent
  · intro a ha a' ha'
    have hr := hring.size_of_mem (hperm.mem_iff.mp ha)
    have hr' := hring.size_of_mem (hperm.mem_iff.mp ha')
    have hpos := h.tiling.coalesced.pos _ hr
    rcases pairwise_trichotomy h.tiling.coalesced.gap hr hr' with heq | hgap | hgap
    · have := congrArg Prod.fst heq
      simp only [Slob.bytes] at this hpos ⊢
      omega
    · simp only [Slob.bytes] at hgap
      omega
    · simp only [Slob.bytes] at hgap hpos
      omega
  · have hmap : ((w.heap.slobfree :: l).map fun a => (a, slobUnit * w.heap.units a)).Perm F := by
      have := hperm.map fun a => (a, w.heap.bytes a)
      rwa [hring.map_starts] at this
    refine (List.Perm.append_left _ hmap.symm).pairwise h.regions_apart Extent.Apart.symm
  · rw [(hperm.map w.heap.units).sum_eq]
    exact h.units_eq

/-- **The heap is safe in every reachable state**, and no call made there goes on for ever: `kmalloc`
ends at the assertion of `slob_alloc` or returns, and `kfree` of a block that is held returns. -/
theorem heap_safe {mem : ℕ → ℕ} (h : SlobReach A (slobBoot A mem) w) :
    (∃ free bbs, HeapSafe A w free bbs) ∧
      (∀ pick size, PickOk A pick → 0 < size →
        (kmalloc pick size).run w.heap = .panic .allocSize ∨
          ∃ p s', (kmalloc pick size).run w.heap = .ok p s') ∧
      ∀ p, (∃ b ∈ w.small ++ w.big, b.1 = p) → ∃ s', (kfree p).run w.heap = .ok () s' := by
  obtain ⟨F, E, hinv⟩ := h.inv
  refine ⟨hinv.safe, fun pick size hpick hpos => ?_, fun p hp => ?_⟩
  · rcases hinv.kmalloc hpick hpos with hpanic | ⟨p, s', hrun, -⟩
    · exact Or.inl hpanic
    · exact Or.inr ⟨p, s', hrun⟩
  · obtain ⟨s', -, -, hrun, -⟩ := hinv.kfree hp
    exact ⟨s', hrun⟩

/-- A page allocator with one page, at 4096. -/
def onePage : PagePick := fun used _ => if used = [] then some 4096 else none

theorem onePage_ok : PickOk 8 onePage := by
  have hpick : ∀ used n b, onePage used n = some b → used = [] ∧ b = 4096 := by
    intro used n b h
    rw [onePage] at h
    split_ifs at h with hused
    · cases h
      exact ⟨hused, rfl⟩
  constructor
  · intro used n b h
    obtain ⟨-, rfl⟩ := hpick used n b h
    omega
  · intro used n b h
    obtain ⟨-, rfl⟩ := hpick used n b h
    exact dvd_rfl
  · intro used n b h r hr
    obtain ⟨rfl, -⟩ := hpick used n b h
    cases hr
  · intro used n b h
    obtain ⟨-, rfl⟩ := hpick used n b h
    exact Or.inl (by decide)

/-- A block is allocated from the first page. -/
theorem heap_safe_one_block :
    ∃ w, SlobReach 8 (slobBoot 8 fun _ => 0) w ∧ w.small = [(4104, 20)] ∧ w.heap.pages = [4096] ∧
      ∃ free bbs, HeapSafe 8 w free bbs := by
  obtain ⟨s', hrun, hpages⟩ : ∃ s', (kmalloc onePage 20).run (slobBoot 8 fun _ => 0).heap =
      .ok 4104 s' ∧ s'.pages = [4096] := ⟨_, rfl, rfl⟩
  have hreach : SlobReach 8 (slobBoot 8 fun _ => 0)
      ((slobBoot 8 fun _ => 0).allocated 4104 20 s') :=
    Relation.ReflTransGen.single (.kmalloc onePage_ok (by decide) hrun)
  exact ⟨_, hreach, rfl, hpages, (heap_safe hreach).1⟩

end safe

end Ucore.Mm
