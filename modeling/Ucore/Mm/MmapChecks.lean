import Ucore.Mm.Spaces
import Mathlib.Tactic.Common

/-!
# What `mm_map` accepts

* `MmStruct.ByMmMap` is an `mm_struct` that only `mm_map` and `find_vma` have worked on, whatever else happens in between.
  `MmStruct.ByMmMap.ok` is the invariant for it.
* `mmMap_ends` is what `mm_map` does then. It only looks for the area that has the first address, while
  `insert_vma_struct` asserts that the new area is apart from both neighbours.
* `mm_map_rejects`: a range that meets an area is rejected if and only if its first address is in one.
* `mm_map_covers`: the new area is as asked if and only if the sum of address and length is a word. `USER_ACCESS` also
  wants the start to be before the end, but the start has been rounded down by then.
-/

namespace Ucore.Vm

open Ucore.Lib

variable {s s' : VmState} {m addr len start stop : ℕ} {flags : BitVec 32} {v w : Vma}

/-- The area and the addresses from `start` up to `stop` have an address in common. -/
def Vma.Meets (v : Vma) (start stop : ℕ) : Prop := v.vmStart < stop ∧ start < v.vmEnd

instance (v : Vma) (start stop : ℕ) : Decidable (v.Meets start stop) := inferInstanceAs (Decidable (_ ∧ _))

/-- An area that meets the range is not apart from the area with that range. -/
theorem Vma.Meets.not_apart (h : w.Meets start stop) (harea : v.area = (start, stop, flags)) : ¬ Vma.Apart v w := by
  have hstart : v.vmStart = start := congrArg Prod.fst harea
  have hstop : v.vmEnd = stop := congrArg (fun a => a.2.1) harea
  obtain ⟨hlow, hhigh⟩ := h
  rintro (hbefore | hafter)
  · rw [hstop] at hbefore
    exact Nat.not_le_of_lt hlow hbefore
  · rw [hstart] at hafter
    exact Nat.not_le_of_lt hhigh hafter

/-! ### The steps of `mm_map` -/

/-- `insert_vma_struct` puts the area in its place, or an assertion fails. -/
theorem insertVmaStruct_ends : ((insertVmaStruct m v).run s).Post (fun _ s' => s' = s.insertArea m v) (fun _ _ => False)
    fun p => p = .vmaEmpty ∨ p = .vmaOrder := by
  rw [insertVmaStruct_eq]
  by_cases hv : v.vmStart < v.vmEnd
  · rw [Prog.bind_of_ok (Prog.run_assert_of _ _ hv), Prog.run_bind, Prog.run_get, Outcome.andThen_ok]
    apply (checkNeighbour_post fun w => checkVmaOverlap_post).bind
    rintro _ s₁ ⟨rfl, -⟩
    apply (checkNeighbour_post fun w => checkVmaOverlap_post).bind
    rintro _ s₂ ⟨rfl, -⟩
    exact rfl
  · rw [Prog.bind_of_panic (Prog.run_assert_of_not _ _ hv)]
    exact Or.inl rfl

/-- The end of `mm_map` adds an area, if there is memory for it and no assertion fails. -/
theorem mmMapNew_ends (al : Allocs) : ((mmMapNew al m start stop flags).run s).Post
    (fun _ s' => ∃ (v : Vma) (s₁ : VmState), s₁.mm = s.mm ∧ v.area = (start, stop, flags) ∧ s' = s₁.insertArea m v ∧
      (Areas (s.mm m).mmapList → Areas (placeArea (s.mm m).mmapList v)))
    (fun e s' => e = .noMem ∧ s'.mm = s.mm) fun p => p = .vmaEmpty ∨ p = .vmaOrder := by
  unfold mmMapNew
  refine Outcome.post_bind.mpr ((vmaCreate_post al start stop flags).mono ?_ (fun _ _ hf => hf.elim) fun _ hf => hf.elim)
  rintro r s₁ ⟨hmm, -, hr⟩
  cases r with
  | none => exact ⟨rfl, hmm⟩
  | some v =>
    have hends := insertVmaStruct_ends (s := s₁) (m := m) (v := v)
    cases hrun : (insertVmaStruct m v).run s₁ with
    | ok u s' =>
      rw [hrun] at hends
      refine ⟨v, s₁, hmm, hr v rfl, hends, fun hareas => ?_⟩
      rw [← hmm] at hareas ⊢
      have hplaced := insertVmaStruct_post (v := v) hareas
      rw [hrun] at hplaced
      exact hplaced.2.2
    | error e s' =>
      rw [hrun] at hends
      exact hends.elim
    | panic p =>
      rw [hrun] at hends
      exact hends

/-- `find_vma` leaves the list as it is, in any `mm_struct`. -/
theorem findVma_keeps (m addr : ℕ) (s : VmState) : ((findVma m addr).run s).Post
    (fun _ s' => (s'.mm m).mmapList = (s.mm m).mmapList) (fun _ _ => False) fun _ => False := by
  unfold findVma
  rw [Prog.run_bind, Prog.run_get, Outcome.andThen_ok]
  dsimp only
  cases ((s.mm m).mmapCache.filter fun v => v.Has addr).or ((s.mm m).mmapList.find? fun v => v.Has addr) with
  | none => exact rfl
  | some v => exact mmapList_foundArea (some v) m

/-- **What `mm_map` has done when it returns 0**, whatever the `mm_struct` was. -/
theorem mmMap_adds (al : Allocs) (h : (mmMap al m addr len flags).run s = .ok () s') :
    UserAccess (areaStart addr) (areaEnd addr len) ∧ ∃ v, v.area = (areaStart addr, areaEnd addr len, flags) ∧
      (s'.mm m).mmapList = placeArea (s.mm m).mmapList v := by
  have hnew : ∀ {s₁ : VmState}, (s₁.mm m).mmapList = (s.mm m).mmapList →
      (mmMapNew al m (areaStart addr) (areaEnd addr len) flags).run s₁ = .ok () s' →
      ∃ v, v.area = (areaStart addr, areaEnd addr len, flags) ∧ (s'.mm m).mmapList = placeArea (s.mm m).mmapList v := by
    intro s₁ hlist hrun
    have hends := (mmMapNew_ends al : ((mmMapNew al m (areaStart addr) (areaEnd addr len) flags).run s₁).Post _ _ _)
    rw [hrun] at hends
    obtain ⟨v, s₂, hmm, harea, rfl, -⟩ := hends
    refine ⟨v, harea, ?_⟩
    rw [insertArea_mm, hmm, hlist]
  rw [mmMap_eq, Prog.run_ite] at h
  split_ifs at h with haccess
  · refine ⟨haccess, ?_⟩
    obtain ⟨r, s₁, hfind, hrest⟩ := Prog.bind_eq_ok.mp h
    have hkeeps := findVma_keeps m (areaStart addr) s
    rw [hfind] at hkeeps
    cases r with
    | none => exact hnew hkeeps hrest
    | some w =>
      dsimp only at hrest
      rw [Prog.run_ite] at hrest
      split_ifs at hrest with hend
      · cases hrest
      · exact hnew hkeeps hrest
  · cases h

/-- **What `mm_map` does** with the areas of an `mm_struct`. It returns `-E_INVAL` when the range is not one of user space, or
when an area has its first address. -/
theorem mmMap_ends (al : Allocs) (h : (s.mm m).Ok) (addr len : ℕ) (flags : BitVec 32) : ((mmMap al m addr len flags).run s).Post
    (fun _ s' => (s'.mm m).Ok ∧ ∃ v, v.area = (areaStart addr, areaEnd addr len, flags) ∧
      (s'.mm m).mmapList = placeArea (s.mm m).mmapList v)
    (fun e s' => (s'.mm m).Ok ∧ (s'.mm m).mmapList = (s.mm m).mmapList ∧ (s'.mm m).mapCount = (s.mm m).mapCount ∧
      (e = .inval ↔ ¬ UserAccess (areaStart addr) (areaEnd addr len) ∨ ∃ v ∈ (s.mm m).mmapList, v.Has (areaStart addr)))
    fun _ => UserAccess (areaStart addr) (areaEnd addr len) ∧ ∀ v ∈ (s.mm m).mmapList, ¬ v.Has (areaStart addr) := by
  rw [mmMap_eq, Prog.run_ite]
  split_ifs with haccess
  · rw [Prog.bind_of_ok (findVma_run h)]
    cases hat : areaAt (s.mm m).mmapList (areaStart addr) with
    | none =>
      have hnone := areaAt_eq_none_iff.mp hat
      refine (mmMapNew_ends al).mono ?_ ?_ fun _ _ => ⟨haccess, hnone⟩
      · rintro _ s' ⟨v, s₁, hmm, harea, rfl, hplaced⟩
        have hok : (s₁.mm m).Ok := by rwa [hmm]
        refine ⟨hok.insert ?_, v, harea, ?_⟩
        · rw [hmm]
          exact hplaced h.areas
        · rw [insertArea_mm, hmm]
          rfl
      · rintro e s' ⟨rfl, hmm⟩
        have hsame : s'.mm = s.mm := hmm
        rw [hsame]
        refine ⟨h, rfl, rfl, ⟨fun he => (nomatch he), ?_⟩⟩
        rintro (hno | ⟨v, hv, hhas⟩)
        · exact (hno haccess).elim
        · exact (hnone v hv hhas).elim
    | some w =>
      obtain ⟨hw, hhas⟩ := (areaAt_eq_some_iff h.areas).mp hat
      have hend : areaEnd addr len > w.vmStart := Nat.lt_of_le_of_lt hhas.1 haccess.2.1
      have hfound : ((s.foundArea m (areaAt (s.mm m).mmapList (areaStart addr))).mm m).Ok := h.find
      rw [hat] at hfound
      show Outcome.Post _ _ _ (Prog.run (if _ > _ then _ else _) _)
      rw [if_pos hend]
      have hmm : (s.foundArea m (some w)).mm m = { s.mm m with mmapCache := some w } := Function.update_self _ _ _
      refine ⟨hfound, ?_, ?_, ⟨fun _ => Or.inr ⟨w, hw, hhas⟩, fun _ => rfl⟩⟩
      · rw [hmm]
      · rw [hmm]
  · exact ⟨h, rfl, rfl, ⟨fun _ => Or.inl haccess, fun _ => rfl⟩⟩

/-! ### The areas of `mm_map` -/

/-- Nothing but `mm_map` and `find_vma` has changed this `mm_struct` since `mm_create`. -/
inductive MmStruct.ByMmMap : MmStruct → Prop
  | new {d : MmStruct} (h : d.New) : ByMmMap d
  | mapped {al : Allocs} {s s' : VmState} {m addr len : ℕ} {flags : BitVec 32} (h : ByMmMap (s.mm m))
      (hrun : (mmMap al m addr len flags).run s = .ok () s') : ByMmMap (s'.mm m)
  | failed {al : Allocs} {s s' : VmState} {m addr len : ℕ} {flags : BitVec 32} {e : VmError} (h : ByMmMap (s.mm m))
      (hrun : (mmMap al m addr len flags).run s = .error e s') : ByMmMap (s'.mm m)
  | looked {s s' : VmState} {m addr : ℕ} {r : Option Vma} (h : ByMmMap (s.mm m)) (hrun : (findVma m addr).run s = .ok r s') :
      ByMmMap (s'.mm m)

theorem MmStruct.ByMmMap.ok {d : MmStruct} (h : d.ByMmMap) : d.Ok := by
  induction h with
  | new h => exact h.ok
  | @mapped al s s' m addr len flags h hrun ih =>
    have hends := mmMap_ends al ih addr len flags
    rw [hrun] at hends
    exact hends.1
  | @failed al s s' m addr len flags e h hrun ih =>
    have hends := mmMap_ends al ih addr len flags
    rw [hrun] at hends
    exact hends.1
  | looked h hrun ih =>
    rw [findVma_run ih] at hrun
    cases hrun
    exact ih.find

/-! ### A range that meets an area -/

/-- `mm_map` returns `-E_INVAL`, and the areas and their number are as they were. -/
def Rejects (al : Allocs) (m addr len : ℕ) (flags : BitVec 32) (s : VmState) : Prop :=
  ∃ s', (mmMap al m addr len flags).run s = .error .inval s' ∧ (s'.mm m).mmapList = (s.mm m).mmapList ∧
    (s'.mm m).mapCount = (s.mm m).mapCount

/-- **A range of user space that meets an area is rejected if and only if its first address is in an area.** Else an
assertion fails, or there is no memory for the new area. -/
theorem mm_map_rejects (al : Allocs) (h : (s.mm m).ByMmMap) (addr len : ℕ) (flags : BitVec 32)
    (haccess : UserAccess (areaStart addr) (areaEnd addr len))
    (hmeets : ∃ v ∈ (s.mm m).mmapList, v.Meets (areaStart addr) (areaEnd addr len)) :
    Rejects al m addr len flags s ↔ ∃ v ∈ (s.mm m).mmapList, v.Has (areaStart addr) := by
  have hends := mmMap_ends al h.ok addr len flags
  constructor
  · rintro ⟨s', hrun, -⟩
    rw [hrun] at hends
    exact (hends.2.2.2.mp rfl).resolve_left (not_not.mpr haccess)
  · intro hhas
    unfold Rejects
    cases hrun : (mmMap al m addr len flags).run s with
    | ok u s' =>
      rw [hrun] at hends
      obtain ⟨hok, v, harea, hlist⟩ := hends
      obtain ⟨w, hw, hwmeets⟩ := hmeets
      -- the list would have two areas that are not apart
      have hnot : v ∉ (s.mm m).mmapList := not_mem_of_placeArea (hlist ▸ hok.areas)
      have hmem : ∀ u, u ∈ (s'.mm m).mmapList ↔ u = v ∨ u ∈ (s.mm m).mmapList := by
        intro u
        rw [hlist]
        exact (placeArea_perm _ _).mem_iff.trans List.mem_cons
      have heq := hok.areas.eq_of_not_apart ((hmem v).mpr (Or.inl rfl)) ((hmem w).mpr (Or.inr hw)) (hwmeets.not_apart harea)
      exact (hnot (heq ▸ hw)).elim
    | error e s' =>
      rw [hrun] at hends
      obtain ⟨-, hlist, hcount, he⟩ := hends
      have heq : e = .inval := he.mpr (Or.inr hhas)
      subst heq
      exact ⟨s', rfl, hlist, hcount⟩
    | panic p =>
      rw [hrun] at hends
      obtain ⟨v, hv, hvhas⟩ := hhas
      exact (hends.2 v hv hvhas).elim

/-- An area of `mm_map` from 0x400000 up to 0x402000 is there, and the second range starts in it. -/
theorem mm_map_rejects_inside : ∃ s, (mmMap .firstFit 0 0x400000 0x2000 vmRead).run (.start 0 []) = .ok () s ∧
    Rejects .firstFit 0 0x401800 0x4000 vmRead s := by
  obtain ⟨s, hrun, hlist⟩ := Outcome.of_observe (f := fun s : VmState => (s.mm 0).mmapList)
    (show ((mmMap .firstFit 0 0x400000 0x2000 vmRead).run (.start 0 [])).observe (fun s : VmState => (s.mm 0).mmapList) =
      some ((), [⟨1, 0x400000, 0x402000, vmRead⟩]) by decide +kernel)
  have hmade : (s.mm 0).ByMmMap := .mapped (.new ⟨rfl, rfl, rfl⟩) hrun
  refine ⟨s, hrun, (mm_map_rejects .firstFit hmade 0x401800 0x4000 vmRead (by decide) ?_).mpr ?_⟩
  · rw [hlist]
    exact ⟨_, List.mem_singleton_self _, by decide⟩
  · rw [hlist]
    exact ⟨_, List.mem_singleton_self _, by decide⟩

/-- The same area, and a range that starts before it and goes into it: an assertion fails. -/
theorem mm_map_overlap_panics : ∃ s, (mmMap .firstFit 0 0x400000 0x2000 vmRead).run (.start 0 []) = .ok () s ∧
    (s.mm 0).ByMmMap ∧ UserAccess (areaStart 0x3ff000) (areaEnd 0x3ff000 0x2000) ∧
    (∃ v ∈ (s.mm 0).mmapList, v.Meets (areaStart 0x3ff000) (areaEnd 0x3ff000 0x2000)) ∧
    (mmMap .firstFit 0 0x3ff000 0x2000 vmRead).run s = .panic .vmaOrder ∧
    ¬ Rejects .firstFit 0 0x3ff000 0x2000 vmRead s := by
  have hmade {s : VmState} (hrun : (mmMap .firstFit 0 0x400000 0x2000 vmRead).run (.start 0 []) = .ok () s) :
      (s.mm 0).ByMmMap := .mapped (.new ⟨rfl, rfl, rfl⟩) hrun
  refine ⟨_, rfl, hmade rfl, by decide, ?_, rfl, ?_⟩
  · exact ⟨⟨1, 0x400000, 0x402000, vmRead⟩, List.mem_singleton_self _, by decide⟩
  · rintro ⟨s', hrun, -⟩
    cases hrun

/-! ### The area is as asked -/

/-- The area has the addresses from `addr` up to `addr + len`, goes less than a page beyond on each side, and is in user
space. -/
structure Vma.Covers (v : Vma) (addr len : ℕ) : Prop where
  has : ∀ a, addr ≤ a → a < addr + len → v.Has a
  start : addr < v.vmStart + pageSize
  stop : v.vmEnd < addr + len + pageSize
  base : userBase ≤ v.vmStart
  top : v.vmEnd ≤ userTop

theorem areaStart_spec (addr : ℕ) : areaStart addr ≤ addr ∧ addr < areaStart addr + pageSize := by
  unfold areaStart pageSize
  omega

/-- The end is the sum rounded up, or the last page of 32 bits is passed and it is 0. -/
theorem areaEnd_spec (addr len : ℕ) : areaEnd addr len = 0 ∨
    (addr + len) % 2 ^ 32 ≤ areaEnd addr len ∧ areaEnd addr len < (addr + len) % 2 ^ 32 + pageSize := by
  unfold areaEnd pageSize
  omega

/-- **The new area is as asked if and only if the sum of address and length is a word.** -/
theorem mm_map_covers (al : Allocs) (haddr : addr < 2 ^ 32)
    (h : (mmMap al m addr len flags).run s = .ok () s') :
    ∃ v, (s'.mm m).mmapList.Perm (v :: (s.mm m).mmapList) ∧ v.vmFlags = flags ∧ (v.Covers addr len ↔ addr + len < 2 ^ 32) := by
  obtain ⟨⟨hbase, hlt, htop⟩, v, harea, hlist⟩ := mmMap_adds al h
  have hstart : v.vmStart = areaStart addr := congrArg Prod.fst harea
  have hstop : v.vmEnd = areaEnd addr len := congrArg (fun a => a.2.1) harea
  have hflags : v.vmFlags = flags := congrArg (fun a => a.2.2) harea
  refine ⟨v, hlist ▸ placeArea_perm _ _, hflags, fun hcovers => ?_, fun hword => ?_⟩
  · -- the last address asked for would be in user space
    by_contra hnot
    have hlast : addr + len - 1 < areaEnd addr len := hstop ▸ (hcovers.has (addr + len - 1) (by omega) (by omega)).2
    have htop' : areaEnd addr len ≤ 0xB0000000 := htop
    omega
  · obtain ⟨hlow, hhigh⟩ := areaStart_spec addr
    have hmod : (addr + len) % 2 ^ 32 = addr + len := Nat.mod_eq_of_lt hword
    have hend := areaEnd_spec addr len
    rw [hmod] at hend
    have hpos : areaEnd addr len ≠ 0 := Nat.ne_of_gt (Nat.lt_of_le_of_lt (Nat.zero_le _) hlt)
    obtain ⟨hle, hless⟩ := hend.resolve_left hpos
    refine ⟨fun a ha ha' => ?_, ?_, ?_, ?_, ?_⟩
    · unfold Vma.Has
      rw [hstart, hstop]
      exact ⟨Nat.le_trans hlow ha, Nat.lt_of_lt_of_le ha' hle⟩
    · rw [hstart]
      exact hhigh
    · rw [hstop]
      exact hless
    · rw [hstart]
      exact hbase
    · rw [hstop]
      exact htop

/-- The two pages around 0x800fff. -/
theorem mm_map_covers_two : ∃ s v, (mmMap .firstFit 0 0x800fff 2 vmRead).run (.start 0 []) = .ok () s ∧
    (s.mm 0).mmapList.Perm [v] ∧ v.Covers 0x800fff 2 := by
  obtain ⟨s, hrun⟩ : ∃ s, (mmMap .firstFit 0 0x800fff 2 vmRead).run (.start 0 []) = .ok () s := ⟨_, rfl⟩
  obtain ⟨v, hperm, -, hcovers⟩ := mm_map_covers .firstFit (by decide) hrun
  exact ⟨s, v, hrun, hperm, hcovers.mpr (by decide)⟩

/-- A length of almost 4 GB from the middle of a page: the sum is in the same page, and there is an area of one page. -/
theorem mm_map_wraps : ∃ s, (mmMap .firstFit 0 0x200800 0xffffffff vmRead).run (.start 0 []) = .ok () s ∧
    (s.mm 0).mmapList = [⟨1, 0x200000, 0x201000, vmRead⟩] ∧
    ¬ (⟨1, 0x200000, 0x201000, vmRead⟩ : Vma).Covers 0x200800 0xffffffff := by
  refine ⟨_, rfl, rfl, fun hcovers => ?_⟩
  have hhas := (hcovers.has 0x201000 (by decide) (by decide)).2
  exact absurd hhas (by decide)

end Ucore.Vm
