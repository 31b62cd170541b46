import Ucore.Mm.SlobRuns

/-!
# Sizes of blocks

How much `kmalloc` reserves for a request, what `ksize` says of it, and for which sizes `kmalloc` comes back at all.

* `findOrderLoop_spec` is about the loop of `find_order`: its shifts truncate, so the order may be one too small.
* `kmalloc_capacity_iff` compares the request and `ksize` with what is reserved. `ksize` of a small block counts its header.
* `kmalloc_returns_iff`: for sizes of almost a page, the assertion of `slob_alloc` fails.
-/

namespace Ucore.Mm

open Ucore.Lib

variable {A : ℕ} {mem : ℕ → ℕ} {w : SlobWorld} {F H : List Extent} {E : List (ℕ × ℕ × ℕ)} {s s' : Slob} {pick : PagePick}
  {p size prev : ℕ}

/-- The order of a descriptor is less than 20, so that the shift stays within 32 bits.
Source: `kern/mm/kmalloc.c` `ksize` -/
def ksize (block : ℕ) : SlobM ℕ :=
  if block = 0 then pure 0
  else do
    let s ← Prog.get
    match if block % pageSize = 0 then findBig s block s.bound none s.bigblocks else some none with
    | none => Prog.stop .looped
    | some (some (_, bb)) => pure (pageSize * 2 ^ s.order bb)
    | some none => pure (s.units (block - slobUnit) * slobUnit)

/-- What is reserved for a block: the units of a small block with its header, or the pages. -/
def blockRegion (p size : ℕ) : Extent := if size < pageSize - slobUnit then smallRegion (p, size) else bigRegion (p, size)

/-- The bytes that are reserved from the pointer on. -/
def reservedFrom (p size : ℕ) : ℕ := (blockRegion p size).1 + (blockRegion p size).2 - p

/-! ### `find_order` -/

/-- The loop ends at the first order that brings the size to a page at most. -/
theorem findOrderLoop_spec (size : ℕ) : size / 2 ^ findOrderLoop size ≤ 4096 ∧ ∀ k < findOrderLoop size, 4096 < size / 2 ^ k := by
  induction size using findOrderLoop.induct with
  | case1 size hlt ih =>
    rw [findOrderLoop, if_pos hlt]
    have hhalf : ∀ k, size / 2 ^ (k + 1) = size / 2 / 2 ^ k := fun k => by rw [Nat.pow_succ', Nat.div_div_eq_div_mul]
    refine ⟨?_, fun k hk => ?_⟩
    · rw [hhalf]
      exact ih.1
    · cases k with
      | zero => rwa [Nat.pow_zero, Nat.div_one]
      | succ k =>
        rw [hhalf]
        exact ih.2 k (Nat.lt_of_succ_lt_succ hk)
  | case2 size hle =>
    rw [findOrderLoop, if_neg hle, Nat.pow_zero, Nat.div_one]
    exact ⟨Nat.le_of_not_lt hle, fun k hk => (Nat.not_lt_zero k hk).elim⟩

/-- The sizes that the order of `find_order` is too small for: the shifts have lost the bits by which the size is more than a
power of two. -/
def ShortOrder (size : ℕ) : Prop := ∃ k, 1 ≤ k ∧ 4096 * 2 ^ k < size ∧ size < 4097 * 2 ^ k

theorem le_order_iff (size : ℕ) : size ≤ 4096 * 2 ^ findOrderLoop size ↔ ¬ ShortOrder size := by
  obtain ⟨hle, hbefore⟩ := findOrderLoop_spec size
  constructor
  · rintro hfit ⟨k, -, hlow, hhigh⟩
    have hpow : 2 ^ k < 2 ^ findOrderLoop size := Nat.lt_of_mul_lt_mul_left (Nat.lt_of_lt_of_le hlow hfit)
    have hlt : k < findOrderLoop size := (Nat.pow_lt_pow_iff_right (Nat.lt_succ_self 1)).mp hpow
    have hdiv : size / 2 ^ k < 4097 := (Nat.div_lt_iff_lt_mul (Nat.two_pow_pos k)).mpr hhigh
    exact absurd (hbefore k hlt) (Nat.not_lt.mpr (Nat.le_of_lt_succ hdiv))
  · intro hshort
    refine Nat.le_of_not_lt fun hlow => hshort ⟨findOrderLoop size, ?_, hlow, ?_⟩
    · refine Nat.pos_of_ne_zero fun hzero => ?_
      rw [hzero, Nat.pow_zero, Nat.div_one] at hle
      rw [hzero, Nat.pow_zero, Nat.mul_one] at hlow
      exact absurd hle (Nat.not_le.mpr hlow)
    · exact (Nat.div_lt_iff_lt_mul (Nat.two_pow_pos _)).mp (Nat.lt_succ_of_le hle)

/-- The pages are enough for the request. -/
theorem le_pages_iff : size ≤ pageSize * 2 ^ findOrder size ↔
    size < 2 ^ 31 ∧ ¬ ShortOrder size := by
  unfold findOrder
  split_ifs with hint
  · rw [← le_order_iff]
    exact (and_iff_right hint).symm
  · refine iff_of_false (fun hle => ?_) fun hand => hint hand.1
    unfold pageSize at hle
    omega

/-! ### `ksize` -/

theorem reservedFrom_small (hsmall : size < pageSize - slobUnit) (hp : slobUnit ≤ p) :
    reservedFrom p size = slobUnit * slobUnits (size + slobUnit) - slobUnit := by
  unfold reservedFrom blockRegion
  rw [if_pos hsmall]
  show p - slobUnit + slobUnit * slobUnits (size + slobUnit) - p = _
  omega

theorem reservedFrom_big (hbig : ¬ size < pageSize - slobUnit) : reservedFrom p size = pageSize * 2 ^ findOrder size := by
  unfold reservedFrom blockRegion
  rw [if_neg hbig]
  exact Nat.add_sub_cancel_left _ _

/-- `ksize` of a pointer that no descriptor has. -/
theorem ksize_run_small (hp : p ≠ 0) (hnone : p % pageSize = 0 → findBig s p s.bound none s.bigblocks = some none) :
    (ksize p).run s = .ok (s.units (p - slobUnit) * slobUnit) s := by
  unfold ksize
  rw [if_neg hp, Prog.run_bind, Prog.run_get, Outcome.andThen_ok]
  by_cases halign : p % pageSize = 0
  · rw [if_pos halign, hnone halign]
    rfl
  · rw [if_neg halign]
    rfl

theorem BigList.order_of_mem {head : ℕ} (h : BigList s head E) {e : ℕ × ℕ × ℕ} (he : e ∈ E) : s.order e.1 = findOrder e.2.2 := by
  induction E generalizing head with
  | nil => cases he
  | cons e' E ih =>
    obtain ⟨-, -, horder, -, hrest⟩ := h
    rcases List.mem_cons.mp he with rfl | he
    · exact horder
    · exact ih hrest he

/-- `ksize` of a small block counts the unit of the header. -/
theorem SlobInv.ksize_small (h : SlobInv A w F E) (hb : (p, size) ∈ w.small) :
    (ksize p).run w.heap = .ok (slobUnits (size + slobUnit) * slobUnit) w.heap := by
  obtain ⟨hlt, -, hunits⟩ := h.header _ hb
  have hp : p ≠ 0 := Nat.ne_of_gt (Nat.lt_trans (by decide) hlt)
  have hrun : (ksize p).run w.heap = .ok (w.heap.units (p - slobUnit) * slobUnit) w.heap := by
    refine ksize_run_small hp fun _ => h.list.findBig_none (fun e he => ?_) h.descriptors_lt_bound none
    have hbig : e.2 ∈ w.big := by
      rw [h.big]
      exact List.mem_map_of_mem he
    exact (h.pointer_ne hb hbig).symm
  rw [hrun]
  exact congrArg (fun n => Outcome.ok (n * slobUnit) w.heap) hunits

/-- Two blocks of whole pages have different pointers. -/
theorem SlobInv.big_eq (h : SlobInv A w F E) {b b' : ℕ × ℕ} (hb : b ∈ w.big) (hb' : b' ∈ w.big) (heq : b.1 = b'.1) : b = b' := by
  have hpair := List.pairwise_map.mp h.runs_apart.2
  have hpos := bigRegion_pos b
  have hpos' := bigRegion_pos b'
  have hfst : (bigRegion b).1 = (bigRegion b').1 := heq
  rcases pairwise_trichotomy hpair hb hb' with hsame | hap | hap
  · exact hsame
  · rcases hap with hap | hap <;> omega
  · rcases hap with hap | hap <;> omega

/-- `ksize` of a block of whole pages is what has been reserved. -/
theorem SlobInv.ksize_big (h : SlobInv A w F E) (hb : (p, size) ∈ w.big) :
    (ksize p).run w.heap = .ok (pageSize * 2 ^ findOrder size) w.heap := by
  have hmem := hb
  rw [h.big] at hmem
  obtain ⟨e₀, he₀, hsnd⟩ := List.mem_map.mp hmem
  have hfound : decide (e₀.2.1 = p) = true := decide_eq_true (by rw [hsnd])
  obtain ⟨e, E₁, E₂, hno, hep, hE, -⟩ := List.exists_of_eraseP (p := fun e : ℕ × ℕ × ℕ => decide (e.2.1 = p)) he₀ hfound
  have hep' : e.2.1 = p := of_decide_eq_true hep
  have hno' : ∀ e' ∈ E₁, e'.2.1 ≠ p := fun e' he' => of_decide_eq_false (Bool.eq_false_iff.mpr (hno e' he'))
  have hemem : e ∈ E := by
    rw [hE]
    exact List.mem_append_right _ List.mem_cons_self
  have hebig : e.2 ∈ w.big := by
    rw [h.big]
    exact List.mem_map_of_mem hemem
  have hblock : e.2 = (p, size) := h.big_eq hebig hb hep'
  obtain ⟨halign, hp⟩ := h.aligned _ hb
  have hfind : findBig w.heap p w.heap.bound none w.heap.bigblocks = some (some (lastOf none E₁, e.1)) := by
    have hlist := h.list
    have hlt := h.descriptors_lt_bound
    rw [hE] at hlist hlt
    exact hlist.findBig_some hno' hep' hlt none
  have horder : w.heap.order e.1 = findOrder size := by
    rw [h.list.order_of_mem hemem, hblock]
  unfold ksize
  rw [if_neg hp, Prog.run_bind, Prog.run_get, Outcome.andThen_ok, if_pos (Nat.mod_eq_zero_of_dvd halign), hfind]
  show (Prog.run (pure (pageSize * 2 ^ w.heap.order e.1)) _ : Outcome SlobPanic Empty Slob ℕ) = _
  rw [horder]
  rfl

/-! ### A block of no bytes -/

/-- `ksize` of a block with a unit is not 0, whichever branch it takes. -/
theorem ksize_pos {n : ℕ} (hp : p ≠ 0) (hunits : s.units (p - slobUnit) = 1) (hrun : (ksize p).run s = .ok n s) : 0 < n := by
  unfold ksize at hrun
  rw [if_neg hp, Prog.run_bind, Prog.run_get, Outcome.andThen_ok] at hrun
  generalize (if p % pageSize = 0 then findBig s p s.bound none s.bigblocks else some none) = found at hrun
  rcases found with _ | _ | ⟨last, bb⟩
  · cases hrun
  · have heq : s.units (p - slobUnit) * slobUnit = n := (Outcome.ok.inj hrun).1
    rw [hunits] at heq
    exact heq ▸ Nat.mul_pos Nat.one_pos (by decide)
  · have heq : pageSize * 2 ^ s.order bb = n := (Outcome.ok.inj hrun).1
    exact heq ▸ Nat.mul_pos (by decide) (Nat.two_pow_pos _)

theorem Slob.take_units (h : Tiling A s F H) (hprev : prev ∈ starts F) {u : ℕ} :
    (s.take prev (s.next prev) u).units (s.next prev) = u := by
  have hspace := h.list.spaced prev hprev _ (h.ring.cyc.next_mem hprev)
  rw [Slob.take]
  split_ifs with hexact
  · rw [← hexact]
    exact Function.update_of_ne (by omega) _ _
  · exact Function.update_self _ _ _

/-- A request for one unit is served by the first block, which may be the arena. -/
theorem slobAlloc_unit (h : Tiling A s F H) (pick : PagePick) : ∃ m s', (slobAlloc pick slobUnit).run s = .ok m s' ∧ s'.units m = 1 := by
  obtain ⟨prev, hprev, hroom, hnone⟩ := roomPoint_run h 1
  have harena : 1 ≤ s.units A := by
    have hsize : slobUnit * s.units A = slobUnit * 1 := h.ring.size _ h.arena
    exact Nat.le_of_eq (Nat.eq_of_mul_eq_mul_left (by decide) hsize).symm
  have hfound : 1 ≤ s.units (s.next prev) := by
    by_contra hno
    exact hnone hno A (mem_starts.mpr ⟨_, h.arena, rfl⟩) harena
  refine ⟨s.next prev, s.take prev (s.next prev) 1, ?_, Slob.take_units h hprev⟩
  have hunits : slobUnits slobUnit = 1 := by decide
  have hassert : slobUnit + slobUnit < pageSize := by decide
  rw [slobAlloc, Prog.bind_of_ok (Prog.run_assert_of s _ hassert), Prog.run_bind, Prog.run_get, Outcome.andThen_ok, hunits,
    Slob.bound, slobAllocLoop, Prog.bind_of_ok hroom, Prog.run_bind, Prog.run_get, Outcome.andThen_ok, if_pos hfound]
  rfl

theorem kmalloc_zero (h : Tiling A s F H) (pick : PagePick) : ∃ p s', (kmalloc pick 0).run s = .ok p s' ∧
    (p ≠ 0 → slobUnit < p ∧ s'.units (p - slobUnit) = 1) := by
  obtain ⟨m, s', hrun, hunits⟩ := slobAlloc_unit h pick
  have hsmall : 0 < pageSize - slobUnit := by decide
  rw [kmalloc, if_pos hsmall, Nat.zero_add, Prog.bind_of_ok hrun]
  refine ⟨_, s', rfl, fun hp => ?_⟩
  split_ifs at hp ⊢ with hm
  · refine ⟨Nat.lt_add_of_pos_left (Nat.pos_of_ne_zero hm), ?_⟩
    rw [Nat.add_sub_cancel, hunits]
  · exact (hp rfl).elim

/-- `kmalloc` of at least one byte that comes back keeps the invariant. -/
theorem SlobInv.allocated (h : SlobInv A w F E) (hpick : PickOk A pick) (hpos : 0 < size)
    (hrun : (Mm.kmalloc pick size).run w.heap = .ok p s') : ∃ F' E', SlobInv A (w.allocated p size s') F' E' := by
  rcases h.kmalloc hpick hpos with hpanic | ⟨p', s'', hrun', hinv⟩
  · rw [hrun] at hpanic
    cases hpanic
  · rw [hrun] at hrun'
    cases hrun'
    exact hinv

theorem SlobWorld.allocated_heap : (w.allocated p size s').heap = s' := by
  unfold SlobWorld.allocated
  split_ifs
  · rfl
  · rfl
  · rfl

/-! ### Capacity -/

/-- The block has room for the request, nothing else is in its region, and `ksize` does not promise more than there is. -/
structure Capacity (A : ℕ) (w : SlobWorld) (p size : ℕ) : Prop where
  room : size ≤ reservedFrom p size
  alone : ∃ free bbs, HeapSafe A w free bbs
  ksize : ∃ n, (ksize p).run w.heap = .ok n w.heap ∧ n ≤ reservedFrom p size

/-- `ksize` of a small block promises the unit of the header too. -/
theorem not_capacity_small (h : SlobInv A w F E) (hpick : PickOk A pick) (hsmall : size < pageSize - slobUnit)
    (hrun : (kmalloc pick size).run w.heap = .ok p s') (hp : p ≠ 0) : ¬ Capacity A (w.allocated p size s') p size := by
  rintro ⟨-, -, n, hksize, hle⟩
  rw [SlobWorld.allocated_heap] at hksize
  rcases Nat.eq_zero_or_pos size with rfl | hpos
  · obtain ⟨p', s'', hzero, hunit⟩ := kmalloc_zero h.tiling pick
    rw [hrun] at hzero
    cases hzero
    obtain ⟨hlt, hone⟩ := hunit hp
    have hnone : reservedFrom p 0 = 0 := reservedFrom_small hsmall hlt.le
    have hn := ksize_pos hp hone hksize
    rw [hnone] at hle
    exact absurd hle (Nat.not_le.mpr hn)
  · obtain ⟨F', E', hinv⟩ := h.allocated hpick hpos hrun
    have hmem : (p, size) ∈ (w.allocated p size s').small := by
      unfold SlobWorld.allocated
      rw [if_neg hp, if_pos hsmall]
      exact List.mem_cons_self
    obtain ⟨hlt, -, -⟩ := hinv.header _ hmem
    have hrun' := hinv.ksize_small hmem
    rw [SlobWorld.allocated_heap, hksize] at hrun'
    cases hrun'
    rw [reservedFrom_small hsmall hlt.le] at hle
    unfold slobUnits slobUnit at hle
    omega

/-- **The capacity of a block**: it is right for whole pages unless the request is one of those for which `find_order` is wrong. -/
theorem kmalloc_capacity_iff (h : SlobReach A (slobBoot A mem) w) (hpick : PickOk A pick)
    (hrun : (kmalloc pick size).run w.heap = .ok p s') (hp : p ≠ 0) :
    Capacity A (w.allocated p size s') p size ↔ pageSize - slobUnit ≤ size ∧ size < 2 ^ 31 ∧ ¬ ShortOrder size := by
  obtain ⟨F, E, hinv⟩ := h.inv
  by_cases hsmall : size < pageSize - slobUnit
  · exact iff_of_false (not_capacity_small hinv hpick hsmall hrun hp) fun hand => absurd hsmall (Nat.not_lt.mpr hand.1)
  · have hle : pageSize - slobUnit ≤ size := Nat.le_of_not_lt hsmall
    have hpos : 0 < size := Nat.lt_of_lt_of_le (by decide) hle
    obtain ⟨F', E', hinv'⟩ := hinv.allocated hpick hpos hrun
    have hmem : (p, size) ∈ (w.allocated p size s').big := by
      unfold SlobWorld.allocated
      rw [if_neg hp, if_neg hsmall]
      exact List.mem_cons_self
    rw [and_iff_right hle, ← le_pages_iff, ← reservedFrom_big hsmall (p := p)]
    constructor
    · intro hcap
      exact hcap.room
    · intro hroom
      exact ⟨hroom, hinv'.safe, _, hinv'.ksize_big hmem, (reservedFrom_big hsmall).ge⟩

/-- A page allocator with two pages, at 4096 and at 8192. -/
def twoPages : PagePick := fun used n =>
  if n = 1 then (if used = [] then some 4096 else if used = [(4096, 4096)] then some 8192 else none) else none

theorem twoPages_ok : PickOk 8 twoPages := by
  have hpick : ∀ used n b, twoPages used n = some b → n = 1 ∧ ((used = [] ∧ b = 4096) ∨ (used = [(4096, 4096)] ∧ b = 8192)) := by
    intro used n b h
    unfold twoPages at h
    split_ifs at h with hone hnil hpage
    · cases h
      exact ⟨hone, Or.inl ⟨hnil, rfl⟩⟩
    · cases h
      exact ⟨hone, Or.inr ⟨hpage, rfl⟩⟩
  constructor
  · intro used n b h
    rcases (hpick used n b h).2 with ⟨-, rfl⟩ | ⟨-, rfl⟩ <;> decide
  · intro used n b h
    rcases (hpick used n b h).2 with ⟨-, rfl⟩ | ⟨-, rfl⟩ <;> decide
  · intro used n b h r hr
    rcases hpick used n b h with ⟨-, ⟨rfl, -⟩ | ⟨rfl, rfl⟩⟩
    · cases hr
    · rw [List.mem_singleton.mp hr]
      exact Or.inr (Nat.le_refl 8192)
  · intro used n b h
    rcases (hpick used n b h).2 with ⟨-, rfl⟩ | ⟨-, rfl⟩
    · exact Or.inl (by decide)
    · exact Or.inl (by decide)

/-- A block of one page has its capacity. -/
theorem kmalloc_capacity_page : ∃ s', (kmalloc twoPages 4096).run (slobBoot 8 fun _ => 0).heap = .ok 8192 s' ∧
    Capacity 8 ((slobBoot 8 fun _ => 0).allocated 8192 4096 s') 8192 4096 := by
  obtain ⟨s', hrun⟩ : ∃ s', (kmalloc twoPages 4096).run (slobBoot 8 fun _ => 0).heap = .ok 8192 s' := by
    have horder : findOrder 4096 = 0 := by
      rw [findOrder, if_pos (by decide), findOrderLoop, if_neg (by decide)]
    rw [kmalloc, horder]
    exact ⟨_, rfl⟩
  have hshort : ¬ ShortOrder 4096 := (le_order_iff 4096).mp (Nat.le_mul_of_pos_right _ (Nat.two_pow_pos _))
  refine ⟨s', hrun, ?_⟩
  exact (kmalloc_capacity_iff Relation.ReflTransGen.refl twoPages_ok hrun (by decide)).mpr ⟨by decide, by decide, hshort⟩

/-- After a request for 20 bytes, 24 bytes are reserved from the pointer on, and `ksize` says 32. -/
theorem ksize_counts_header : ∃ s', (kmalloc onePage 20).run (slobBoot 8 fun _ => 0).heap = .ok 4104 s' ∧
    reservedFrom 4104 20 = 24 ∧ (ksize 4104).run s' = .ok 32 s' := ⟨_, rfl, rfl, rfl⟩

/-! ### The assertion of `slob_alloc` -/

/-- **`kmalloc` comes back for all sizes but those of 4080 to 4087 bytes**: there the block with its header is less than a page,
and the assertion of `slob_alloc` wants it to be less by one more unit. -/
theorem kmalloc_returns_iff (h : SlobReach A (slobBoot A mem) w) (hpick : PickOk A pick) (size : ℕ) :
    (∃ p s', (kmalloc pick size).run w.heap = .ok p s') ↔ size + slobUnit + slobUnit < pageSize ∨ pageSize ≤ size + slobUnit := by
  obtain ⟨F, E, hinv⟩ := h.inv
  by_cases hsmall : size < pageSize - slobUnit
  · have hless : ¬ pageSize ≤ size + slobUnit := Nat.not_le.mpr (Nat.add_lt_of_lt_sub hsmall)
    rw [or_iff_left hless]
    by_cases hassert : size + slobUnit + slobUnit < pageSize
    · refine iff_of_true ?_ hassert
      rcases Nat.eq_zero_or_pos size with rfl | hpos
      · obtain ⟨p, s', hrun, -⟩ := kmalloc_zero hinv.tiling pick
        exact ⟨p, s', hrun⟩
      · have hsize : 8 < size + slobUnit := Nat.lt_add_of_pos_left hpos
        obtain ⟨m, s', hrun, -⟩ := slobAlloc_run hpick hinv.tiling (size + slobUnit) hsize hassert
        rw [kmalloc, if_pos hsmall, Prog.bind_of_ok hrun]
        exact ⟨_, s', rfl⟩
    · refine iff_of_false ?_ hassert
      rintro ⟨p, s', hrun⟩
      rw [kmalloc, if_pos hsmall, slobAlloc, Prog.bind_of_panic (Prog.bind_of_panic (Prog.run_assert_of_not _ _ hassert))] at hrun
      cases hrun
  · have hle : pageSize ≤ size + slobUnit := Nat.le_add_of_sub_le (Nat.le_of_not_lt hsmall)
    refine iff_of_true ?_ (Or.inr hle)
    obtain ⟨p, s', hrun, -⟩ := hinv.kmalloc_big hpick hsmall
    exact ⟨p, s', hrun⟩

/-- From the start on, a request for 4080 bytes ends at the assertion. -/
theorem kmalloc_stops_4080 : (kmalloc onePage 4080).run (slobBoot 8 fun _ => 0).heap = .panic .allocSize := rfl

/-- A request for a page comes back. -/
theorem kmalloc_returns_page : ∃ p s', (kmalloc onePage 4096).run (slobBoot 8 fun _ => 0).heap = .ok p s' :=
  (kmalloc_returns_iff Relation.ReflTransGen.refl onePage_ok 4096).mpr (Or.inr (by decide))

end Ucore.Mm
