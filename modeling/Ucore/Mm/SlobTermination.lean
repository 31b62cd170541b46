import Ucore.Mm.Slob

/-!
# The search for a block ends

`slob_alloc` on any well-formed free list, whatever is in use.

* `SlobCycle A s F`: the blocks `F` are a single cycle in address order with the arena and `slobfree` on it. `SlobList` says besides
  that the arena is one unit long, as it is from the start: then it is never the block that is handed out.
* `AllocResult` is what is claimed: a block or `NULL`, with at most one page. It does not depend on what the page allocator would answer
  to a second request.
* `slobAlloc_result`: a page that touches the arena is joined to it, so it has to be apart from it. `not_slobAlloc_result` has a list for
  each of the two conditions.
* `Slob.bound` only counts: the search gives up there, and the list has to be shorter.
-/

namespace Ucore.Mm

open Ucore.Lib

variable {A u p : ℕ} {s : Slob} {F : List Extent} {pick : PagePick} {size : ℕ}

/-- The free list is a single cycle in address order, of blocks that do not touch, with the arena and the entry on it. -/
structure SlobCycle (A : ℕ) (s : Slob) (F : List Extent) : Prop where
  coalesced : Coalesced F
  ring : FreeRing s.bytes s.next F
  entry : s.slobfree ∈ starts F
  arena : A ∈ starts F

theorem SlobList.cycle (h : SlobList A s F) : SlobCycle A s F := ⟨h.coalesced, h.ring, h.entry, mem_starts.mpr ⟨_, h.arena, rfl⟩⟩

/-- What `slob_alloc` returns and leaves: at most one page has been asked for, the result is `NULL` when no block is large enough and there
is no page, and a block that is returned is off the list, which is a cycle again. -/
def AllocResult (A : ℕ) (s : Slob) (F : List Extent) (pick : PagePick) (size : ℕ) : Prop :=
  ∃ m s', (∀ pick' : PagePick, pick' s.used 1 = pick s.used 1 → (slobAlloc pick' size).run s = .ok m s') ∧
    (s'.used = s.used ∨ ∃ p, pick s.used 1 = some p ∧ s'.used = (p, pageSize) :: s.used) ∧
    (m = 0 ↔ (∀ b ∈ starts F, s.units b < slobUnits size) ∧ (pick s.used 1).getD 0 = 0) ∧
    (m ≠ 0 → s'.units m = slobUnits size ∧
      ∃ F', SlobCycle A s' F' ∧ m ∉ starts F' ∧ ∀ r ∈ F', Extent.Apart (m, slobUnit * slobUnits size) r)

/-- A round of the loop in which there is room, whatever the page allocator would answer. -/
theorem SlobList.round_room (h : SlobList A s F) (hlen : F.length ≤ s.bound) (hu : 2 ≤ u) (hroom : ∃ a ∈ starts F, u ≤ s.units a) :
    ∃ m s' F', (∀ (pick : PagePick) (size k : ℕ), (slobAllocLoop pick size u (k + 1)).run s = .ok m s') ∧ s'.used = s.used ∧
      m ∈ starts F ∧ s'.units m = u ∧ SlobList A s' F' ∧ ∀ r ∈ F', Extent.Apart (m, slobUnit * u) r := by
  obtain ⟨prev, hprev, hfound, hrun⟩ := h.round_run hlen hroom
  obtain ⟨F', hlist, hunits, -, hout, -, -⟩ := h.take hprev hu hfound
  exact ⟨s.next prev, s.take prev (s.next prev) u, F', hrun, (Slob.take_same _).1, h.ring.cyc.next_mem hprev, hunits, hlist, hout⟩

/-- A block that is apart from all blocks of a list is not one of them. -/
theorem SlobList.not_mem_of_apart (h : SlobList A s F) {m n : ℕ} (hn : 0 < n) (hout : ∀ r ∈ F, Extent.Apart (m, n) r) :
    m ∉ starts F := fun hm => by
  obtain ⟨r, hr, rfl⟩ := mem_starts.mp hm
  have hpos := h.coalesced.pos r hr
  rcases hout r hr with hap | hap
  · simp only at hap
    omega
  · simp only at hap
    omega

/-- A round of the loop without room asks for a page, and adds it to the list. -/
theorem SlobList.round_page (h : SlobList A s F) (hlen : F.length ≤ s.bound) (hfull : ∀ a ∈ starts F, ¬ u ≤ s.units a)
    (hsize : size ≠ pageSize) (pick : PagePick) (k : ℕ) :
    (pick s.used 1 = none → (slobAllocLoop pick size u (k + 1)).run s = .ok 0 s) ∧
      ∀ p, pick s.used 1 = some p → (slobAllocLoop pick size u (k + 1)).run s =
        if p = 0 then .ok 0 { s with used := (p, pageSize) :: s.used }
        else (slobFree p pageSize >>= fun _ => slobAllocLoop pick size u k).run
          { s with used := (p, pageSize) :: s.used, pages := p :: s.pages } := by
  obtain ⟨prev, hprev, hrun, -⟩ := h.roomPoint_run hlen u
  have hno : ¬ u ≤ s.units (s.next prev) := hfull _ (h.ring.cyc.next_mem hprev)
  constructor
  · intro hpick
    have hget : (slobGetFreePages pick 0).run s = .ok 0 s := by
      rw [slobGetFreePages, Prog.bind_of_ok (Prog.run_get s), pow_zero, hpick]
      rfl
    rw [slobAllocLoop, Prog.bind_of_ok hrun, Prog.bind_of_ok (Prog.run_get s), if_neg hno, if_neg hsize, Prog.bind_of_ok hget]
    rfl
  · intro p hpick
    have hget : (slobGetFreePages pick 0).run s = .ok p { s with used := (p, pageSize) :: s.used } := by
      rw [slobGetFreePages, Prog.bind_of_ok (Prog.run_get s), pow_zero, hpick]
      rfl
    rw [slobAllocLoop, Prog.bind_of_ok hrun, Prog.bind_of_ok (Prog.run_get s), if_neg hno, if_neg hsize, Prog.bind_of_ok hget]
    split_ifs with hp
    · rfl
    · rw [Prog.bind_of_ok (Prog.run_modify ..)]

/-- **`slob_alloc` ends**, on every list whose arena is one unit long, and with at most one page that is fresh and does not touch the
arena. -/
theorem slobAlloc_result (h : SlobList A s F) (hnonzero : 0 ∉ starts F) (hlen : F.length ≤ s.bound)
    (hfresh : ∀ p, pick s.used 1 = some p → ∀ q, p ≤ q → q < p + pageSize → q ∉ flat F)
    (hfar : ∀ p, pick s.used 1 = some p → p + pageSize ≠ A ∧ A + slobUnit ≠ p) (hsize : slobUnit < size)
    (hmax : size + slobUnit < pageSize) : AllocResult A s F pick size := by
  have hu : 2 ≤ slobUnits size ∧ slobUnits size ≤ 512 := by
    simp only [slobUnits, slobUnit, pageSize] at hsize hmax ⊢
    omega
  have hpage : size ≠ pageSize := by omega
  have hrun : ∀ pick' : PagePick, (slobAlloc pick' size).run s =
      (slobAllocLoop pick' size (slobUnits size) (512 * s.pages.length + 1 + 1)).run s := fun pick' => by
    rw [slobAlloc, Prog.bind_of_ok (Prog.run_assert_of s _ hmax)]
    rfl
  have hpos : 0 < slobUnit * slobUnits size := Nat.mul_pos (by decide) (by omega)
  by_cases hroom : ∃ a ∈ starts F, slobUnits size ≤ s.units a
  · -- There is a block, and no page is asked for.
    obtain ⟨m, s', F', hround, hused, hm, hunits, hlist, hout⟩ := h.round_room hlen hu.1 hroom
    have hm0 : m ≠ 0 := fun h0 => hnonzero (h0 ▸ hm)
    obtain ⟨a, ha, hua⟩ := hroom
    refine ⟨m, s', fun pick' _ => (hrun pick').trans (hround ..), .inl hused, iff_of_false hm0 fun hnone => ?_, fun _ =>
      ⟨hunits, F', hlist.cycle, hlist.not_mem_of_apart hpos hout, hout⟩⟩
    exact absurd hua (not_le.mpr (hnone.1 a ha))
  have hfull : ∀ a ∈ starts F, ¬ slobUnits size ≤ s.units a := fun a ha hua => hroom ⟨a, ha, hua⟩
  have hsmall : ∀ b ∈ starts F, s.units b < slobUnits size := fun b hb => not_le.mp (hfull b hb)
  have hround := fun pick' => h.round_page hlen hfull hpage pick' (512 * s.pages.length + 1)
  cases hpick : pick s.used 1 with
  | none =>
    refine ⟨0, s, fun pick' hpick' => (hrun pick').trans ((hround pick').1 (hpick'.trans hpick)), .inl rfl, ?_,
      fun h0 => absurd rfl h0⟩
    exact iff_of_true rfl ⟨hsmall, by rw [hpick]; rfl⟩
  | some p =>
    have hget : (pick s.used 1).getD 0 = p := by rw [hpick]; rfl
    by_cases hp : p = 0
    · refine ⟨0, _, fun pick' hpick' => (hrun pick').trans (((hround pick').2 p (hpick'.trans hpick)).trans (if_pos hp)),
        .inr ⟨p, hpick, rfl⟩, ?_, fun h0 => absurd rfl h0⟩
      exact iff_of_true rfl ⟨hsmall, hget.trans hp⟩
    · -- The page is added to the list, and then there is room.
      have hadd : SlobList A { s with used := (p, pageSize) :: s.used, pages := p :: s.pages } F := h.congr (fun _ _ => rfl) rfl
      have hbound : F.length + 512 ≤ Slob.bound { s with used := (p, pageSize) :: s.used, pages := p :: s.pages } := by
        rw [Slob.bound] at hlen ⊢
        rw [List.length_cons]
        omega
      obtain ⟨s₁, F₁, hfree, hlist₁, hused₁, hpages₁, -, hsub, -, hflat, -⟩ := hadd.free_run (by omega) hp (by decide)
        (hfresh p hpick) (hfar p hpick) pageSize (fun _ => rfl) (fun h0 => absurd h0 (by decide))
      have hlen₁ : F₁.length ≤ s₁.bound := by
        have hle := (List.subperm_of_subset hlist₁.ring.sep.starts_nodup hsub).length_le
        rw [List.length_cons, starts, List.length_map, starts, List.length_map] at hle
        rw [Slob.bound, hpages₁] at *
        omega
      have hroom₁ : ∃ a ∈ starts F₁, slobUnits size ≤ s₁.units a :=
        hlist₁.exists_room (fun k hk => (hflat _).mpr (Or.inr ⟨Nat.le_add_right _ _, Nat.add_lt_add_left hk _⟩)) hu.2
      obtain ⟨m, s', F', hround', hused', hm, hunits, hlist, hout⟩ := hlist₁.round_room hlen₁ hu.1 hroom₁
      have hm0 : m ≠ 0 := fun h0 => by
        rcases List.mem_cons.mp (hsub hm) with heq | hmem
        · exact hp (heq ▸ h0)
        · exact hnonzero (h0 ▸ hmem)
      refine ⟨m, s', fun pick' hpick' => ?_, .inr ⟨p, hpick, hused'.trans hused₁⟩, iff_of_false hm0 fun hnone => hp (hget.symm.trans hnone.2),
        fun _ => ⟨hunits, F', hlist.cycle, hlist.not_mem_of_apart hpos hout, hout⟩⟩
      rw [hrun, (hround pick').2 p (hpick'.trans hpick), if_neg hp, Prog.bind_of_ok hfree]
      exact hround' ..

/-! ### Lists of one block -/

/-- The arena is the only block, with a number of units. -/
def onlyArena (A units : ℕ) : Slob where
  mem := Function.update (fun _ => units) (A + 4) A
  slobfree := A
  bigblocks := 0
  used := []
  pages := []

theorem onlyArena_cycle {units : ℕ} (hunits : 0 < units) : SlobCycle A (onlyArena A units) [(A, slobUnit * units)] := by
  have hpos : 0 < slobUnit * units := Nat.mul_pos (by decide) hunits
  have hmem : (onlyArena A units).units A = units := by
    simp only [Slob.units, onlyArena]
    rw [Function.update_of_ne (by omega)]
  have hnext : (onlyArena A units).next A = A := by
    simp only [Slob.next, onlyArena, Function.update_self]
  have hsep : Sep [(A, slobUnit * units)] := ⟨fun r hr => List.mem_singleton.mp hr ▸ hpos, List.pairwise_singleton _ _⟩
  refine ⟨⟨hsep, List.pairwise_singleton _ _⟩, ⟨hsep, fun r hr => ?_, ⟨hnext, trivial⟩⟩, List.mem_cons_self,
    List.mem_cons_self⟩
  rw [List.mem_singleton.mp hr]
  exact congrArg (slobUnit * ·) hmem

theorem onlyArena_list : SlobList A (onlyArena A 1) [(A, slobUnit)] :=
  ⟨(onlyArena_cycle one_pos).coalesced, (onlyArena_cycle one_pos).ring, (onlyArena_cycle one_pos).entry, List.mem_cons_self⟩

theorem not_mem_onlyArena {n q : ℕ} (h : q < A ∨ A + n ≤ q) : q ∉ flat [(A, n)] := fun hq => by
  obtain ⟨r, hr, hle, hlt⟩ := mem_flat.mp hq
  rw [List.mem_singleton.mp hr] at hle hlt
  simp only at hle hlt
  omega

/-- The first request. -/
theorem slobAlloc_result_first : AllocResult 4088 (onlyArena 4088 1) [(4088, slobUnit)] (fun _ _ => some 8192) 20 := by
  refine slobAlloc_result onlyArena_list (by decide) (by decide) (fun p hp q hle hlt => ?_) (fun p hp => ?_) (by decide) (by decide)
  · obtain rfl := Option.some.inj hp
    exact not_mem_onlyArena (.inr (by simp only [slobUnit]; omega))
  · obtain rfl := Option.some.inj hp
    decide

/-- A block that is the arena is not on a list that has the arena. -/
theorem AllocResult.not_arena {m : ℕ} (h : AllocResult A s F pick size) (hm : m ≠ 0)
    (hrun : ((slobAlloc pick size).run s).observe (fun _ => ()) = some (m, ())) : m ≠ A := by
  obtain ⟨m', s', hruns, -, -, hlist⟩ := h
  rw [hruns pick rfl] at hrun
  obtain rfl : m' = m := (Prod.mk.inj (Option.some.inj hrun)).1
  obtain ⟨-, F', hcycle, hnot, -⟩ := hlist hm
  exact fun heq => hnot (heq ▸ hcycle.arena)

/-- The arena is handed out when a page that touches it has been joined to it, and when it is longer than a unit. -/
theorem not_slobAlloc_result :
    (¬ ∀ (A : ℕ) (s : Slob) (F : List Extent) (pick : PagePick) (size : ℕ), SlobList A s F → 0 ∉ starts F → F.length ≤ s.bound →
      (∀ p, pick s.used 1 = some p → ∀ q, p ≤ q → q < p + pageSize → q ∉ flat F) → slobUnit < size → size + slobUnit < pageSize →
      AllocResult A s F pick size) ∧
    ¬ ∀ (A : ℕ) (s : Slob) (F : List Extent) (pick : PagePick) (size : ℕ), SlobCycle A s F → 0 ∉ starts F → F.length ≤ s.bound →
      (∀ p, pick s.used 1 = some p → ∀ q, p ≤ q → q < p + pageSize → q ∉ flat F) →
      (∀ p, pick s.used 1 = some p → p + pageSize ≠ A ∧ A + slobUnit ≠ p) → slobUnit < size → size + slobUnit < pageSize →
      AllocResult A s F pick size := by
  constructor
  · intro h
    have hresult := h 4088 (onlyArena 4088 1) [(4088, slobUnit)] (fun _ _ => some 4096) 16 onlyArena_list (by decide) (by decide)
      (fun p hp q hle hlt => by
        obtain rfl := Option.some.inj hp
        exact not_mem_onlyArena (.inr (by simp only [slobUnit]; omega))) (by decide) (by decide)
    exact hresult.not_arena (m := 4088) (by decide) (by decide +kernel) rfl
  · intro h
    have hresult := h 4088 (onlyArena 4088 3) [(4088, slobUnit * 3)] (fun _ _ => none) 16 (onlyArena_cycle (by decide)) (by decide)
      (by decide) (fun p hp => by cases hp) (fun p hp => by cases hp) (by decide) (by decide)
    exact hresult.not_arena (m := 4088) (by decide) (by decide +kernel) rfl

end Ucore.Mm
