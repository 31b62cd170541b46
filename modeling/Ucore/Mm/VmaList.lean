import Ucore.Lib.Ranges
import Ucore.Mm.PageFrame
import Mathlib.Data.List.TakeWhile
import Mathlib.Tactic.Common

/-!
# The areas of an address space

* `MmStruct.Ok` is the invariant of an `mm_struct`: the areas of `mmap_list` ascend and do not overlap, `map_count` is
  their number, and `mmap_cache` is one of them.
* `insertVmaStruct_run` and `findVma_run` are the two operations: an area that is apart from the others gets its place,
  and `find_vma` finds the area that has the address, whatever the cache is.
* `vma_list` is about any sequence of them, and about the copy that `dup_mmap` makes of the list.
-/

namespace Ucore.Vm

open Ucore.Lib

/-- The areas are not empty, ascend and do not overlap. -/
abbrev Areas (l : List Vma) : Prop := Ranges Vma.vmStart Vma.vmEnd l

/-- Two areas without a common address. -/
abbrev Vma.Apart (v w : Vma) : Prop := Ranges.Apart Vma.vmStart Vma.vmEnd v w

/-- What `vma_create` is called with. -/
def Vma.area (v : Vma) : ℕ × ℕ × BitVec 32 := (v.vmStart, v.vmEnd, v.vmFlags)

/-- The invariant of an `mm_struct`. -/
structure MmStruct.Ok (d : MmStruct) : Prop where
  areas : Areas d.mmapList
  count : d.mapCount = d.mmapList.length
  cache : ∀ v, d.mmapCache = some v → v ∈ d.mmapList

/-- The areas up to where `insert_vma_struct` puts `v`, and those behind. -/
def areasUpTo (l : List Vma) (v : Vma) : List Vma := l.takeWhile fun w => w.vmStart ≤ v.vmStart

def areasBehind (l : List Vma) (v : Vma) : List Vma := l.dropWhile fun w => w.vmStart ≤ v.vmStart

theorem areasUpTo_append_areasBehind (l : List Vma) (v : Vma) : areasUpTo l v ++ areasBehind l v = l :=
  List.takeWhile_append_dropWhile

theorem areasUpTo_le {l : List Vma} {v w : Vma} (h : w ∈ areasUpTo l v) : w.vmStart ≤ v.vmStart :=
  of_decide_eq_true (List.mem_takeWhile_imp (p := fun w : Vma => decide (w.vmStart ≤ v.vmStart)) h)

theorem areasBehind_head {l : List Vma} {v w : Vma} (h : (areasBehind l v).head? = some w) : v.vmStart < w.vmStart := by
  have hnot := List.head?_dropWhile_not (fun w : Vma => decide (w.vmStart ≤ v.vmStart)) l
  unfold areasBehind at h
  rw [h] at hnot
  exact Nat.lt_of_not_le (of_decide_eq_false hnot)

/-- The list with one more area. -/
def placeArea (l : List Vma) (v : Vma) : List Vma := areasUpTo l v ++ v :: areasBehind l v

theorem placeArea_perm (l : List Vma) (v : Vma) : (placeArea l v).Perm (v :: l) := by
  unfold placeArea
  refine List.perm_middle.trans ?_
  rw [areasUpTo_append_areasBehind]

theorem not_mem_of_placeArea {l : List Vma} {v : Vma} (h : Areas (placeArea l v)) : v ∉ l :=
  (List.nodup_cons.mp ((placeArea_perm l v).nodup_iff.mp h.nodup)).1

/-- An area before all others goes to the front. -/
theorem placeArea_front {l : List Vma} {v : Vma} (h : ∀ w ∈ l, v.vmStart < w.vmStart) : placeArea l v = v :: l := by
  unfold placeArea areasUpTo areasBehind
  cases l with
  | nil => rfl
  | cons w l =>
    have hw : ¬ (decide (w.vmStart ≤ v.vmStart) = true) := fun hle =>
      Nat.not_le_of_lt (h w List.mem_cons_self) (of_decide_eq_true hle)
    rw [List.takeWhile_cons, List.dropWhile_cons, if_neg hw, if_neg hw, List.nil_append]

variable {s : VmState} {m addr : ℕ} {v vma : Vma}

/-! ### `insert_vma_struct` -/

/-- The state with one more area. -/
def VmState.insertArea (s : VmState) (m : ℕ) (v : Vma) : VmState :=
  s.setMm m fun d => { d with mmapList := placeArea d.mmapList v, mapCount := d.mapCount + 1 }

theorem insertArea_mm (s : VmState) (m : ℕ) (v : Vma) : (s.insertArea m v).mm m =
    { s.mm m with mmapList := placeArea (s.mm m).mmapList v, mapCount := (s.mm m).mapCount + 1 } :=
  Function.update_self _ _ _

theorem checkVmaOverlap_run (hv : v.vmStart < v.vmEnd) (hvma : vma.vmStart < vma.vmEnd) (h : v.vmEnd ≤ vma.vmStart) :
    (checkVmaOverlap v vma).run s = .ok () s := by
  unfold checkVmaOverlap
  rw [Prog.bind_of_ok (Prog.run_assert_of _ _ hv), Prog.bind_of_ok (Prog.run_assert_of _ _ h),
    Prog.run_assert_of _ _ hvma]

/-- `check_vma_overlap` passes when both areas are not empty and in order. -/
theorem checkVmaOverlap_post : ((checkVmaOverlap v vma).run s).Post (fun _ s' => s' = s ∧ v.vmEnd ≤ vma.vmStart)
    (fun _ _ => False) fun p => p = .vmaEmpty ∨ p = .vmaOrder := by
  unfold checkVmaOverlap
  by_cases hv : v.vmStart < v.vmEnd
  · rw [Prog.bind_of_ok (Prog.run_assert_of _ _ hv)]
    by_cases h : v.vmEnd ≤ vma.vmStart
    · rw [Prog.bind_of_ok (Prog.run_assert_of _ _ h)]
      by_cases hvma : vma.vmStart < vma.vmEnd
      · rw [Prog.run_assert_of _ _ hvma]
        exact ⟨rfl, h⟩
      · rw [Prog.run_assert_of_not _ _ hvma]
        exact Or.inl rfl
    · rw [Prog.bind_of_panic (Prog.run_assert_of_not _ _ h)]
      exact Or.inr rfl
  · rw [Prog.bind_of_panic (Prog.run_assert_of_not _ _ hv)]
    exact Or.inl rfl

/-- The check of a neighbour, if there is one. -/
def checkNeighbour (r : Option Vma) (check : Vma → VmProg Unit) : VmProg Unit :=
  match r with
  | some w => check w
  | none => pure ()

/-- The two checks of `insert_vma_struct`. -/
theorem insertVmaStruct_eq (m : ℕ) (v : Vma) : insertVmaStruct m v = (do
    Prog.assert (v.vmStart < v.vmEnd) .vmaEmpty
    let s ← Prog.get
    checkNeighbour (areasUpTo (s.mm m).mmapList v).getLast? fun w => checkVmaOverlap w v
    checkNeighbour (areasBehind (s.mm m).mmapList v).head? fun w => checkVmaOverlap v w
    setMm m fun d => { d with
      mmapList := areasUpTo (s.mm m).mmapList v ++ v :: areasBehind (s.mm m).mmapList v, mapCount := d.mapCount + 1 }) := rfl

variable {r : Option Vma} {check : Vma → VmProg Unit}

theorem checkNeighbour_run (h : ∀ w, r = some w → (check w).run s = .ok () s) :
    (checkNeighbour r check).run s = .ok () s := by
  cases r with
  | none => rfl
  | some w => exact h w rfl

theorem checkNeighbour_post {Q : Vma → Prop} {P : VmPanic → Prop}
    (h : ∀ w, ((check w).run s).Post (fun _ s' => s' = s ∧ Q w) (fun _ _ => False) P) :
    ((checkNeighbour r check).run s).Post (fun _ s' => s' = s ∧ ∀ w ∈ r, Q w) (fun _ _ => False) P := by
  cases r with
  | none => exact ⟨rfl, fun w hw => by (cases hw)⟩
  | some w =>
    refine (h w).mono (fun _ s' hs => ⟨hs.1, fun w' hw => ?_⟩) (fun _ _ h => h) fun _ h => h
    rw [← Option.some.inj hw]
    exact hs.2

/-- **An area that is apart from the others gets its place.** -/
theorem insertVmaStruct_run (h : Areas (s.mm m).mmapList) (hv : v.vmStart < v.vmEnd)
    (hapart : ∀ w ∈ (s.mm m).mmapList, Vma.Apart v w) : (insertVmaStruct m v).run s = .ok () (s.insertArea m v) := by
  have hmem : ∀ w, w ∈ areasUpTo (s.mm m).mmapList v ∨ w ∈ areasBehind (s.mm m).mmapList v →
      w ∈ (s.mm m).mmapList := by
    intro w hw
    rw [← areasUpTo_append_areasBehind (s.mm m).mmapList v]
    exact List.mem_append.mpr hw
  have hprev : ∀ w, (areasUpTo (s.mm m).mmapList v).getLast? = some w → (checkVmaOverlap w v).run s = .ok () s := by
    intro w hw
    have hin := List.mem_of_getLast? hw
    have hl := hmem w (Or.inl hin)
    exact checkVmaOverlap_run (h.nonempty w hl) hv (Ranges.prev_of_apart hv (hapart w hl) (areasUpTo_le hin))
  have hnext : ∀ w, (areasBehind (s.mm m).mmapList v).head? = some w → (checkVmaOverlap v w).run s = .ok () s := by
    intro w hw
    have hl := hmem w (Or.inr (List.mem_of_head? hw))
    exact checkVmaOverlap_run hv (h.nonempty w hl)
      (Ranges.next_of_apart (h.nonempty w hl) (hapart w hl) (areasBehind_head hw))
  rw [insertVmaStruct_eq, Prog.bind_of_ok (Prog.run_assert_of _ _ hv), Prog.run_bind, Prog.run_get, Outcome.andThen_ok,
    Prog.bind_of_ok (checkNeighbour_run hprev), Prog.bind_of_ok (checkNeighbour_run hnext)]
  rfl

/-- Either an assertion fails, or the area has got its place. -/
theorem insertVmaStruct_post (h : Areas (s.mm m).mmapList) : ((insertVmaStruct m v).run s).Post
    (fun _ s' => s' = s.insertArea m v ∧ v.vmStart < v.vmEnd ∧ Areas (placeArea (s.mm m).mmapList v))
    (fun _ _ => False) fun p => p = .vmaEmpty ∨ p = .vmaOrder := by
  rw [insertVmaStruct_eq]
  by_cases hv : v.vmStart < v.vmEnd
  · rw [Prog.bind_of_ok (Prog.run_assert_of _ _ hv), Prog.run_bind, Prog.run_get, Outcome.andThen_ok]
    apply (checkNeighbour_post fun w => checkVmaOverlap_post).bind
    rintro _ s₁ ⟨rfl, hprev⟩
    apply (checkNeighbour_post fun w => checkVmaOverlap_post).bind
    rintro _ s₂ ⟨rfl, hnext⟩
    rw [← areasUpTo_append_areasBehind (s₂.mm m).mmapList v] at h
    exact ⟨rfl, hv, h.place hv hprev hnext⟩
  · rw [Prog.bind_of_panic (Prog.run_assert_of_not _ _ hv)]
    exact Or.inl rfl

theorem MmStruct.Ok.insert (h : (s.mm m).Ok) (hareas : Areas (placeArea (s.mm m).mmapList v)) :
    ((s.insertArea m v).mm m).Ok := by
  rw [insertArea_mm]
  refine ⟨hareas, ?_, fun w hw => ?_⟩
  · show (s.mm m).mapCount + 1 = (placeArea (s.mm m).mmapList v).length
    rw [(placeArea_perm _ _).length_eq, List.length_cons, h.count]
  · exact (placeArea_perm _ _).mem_iff.mpr (List.mem_cons_of_mem _ (h.cache w hw))

/-! ### `find_vma` -/

/-- `mmap_cache` is the area that was found last. -/
def VmState.foundArea (s : VmState) (m : ℕ) : Option Vma → VmState
  | some v => s.setMm m fun d => { d with mmapCache := some v }
  | none => s

/-- The area that has the address. -/
def areaAt (l : List Vma) (addr : ℕ) : Option Vma := l.find? fun v => v.Has addr

theorem areaAt_eq_some_iff {l : List Vma} (h : Areas l) : areaAt l addr = some v ↔ v ∈ l ∧ v.Has addr :=
  h.find_eq_some_iff fun _ => decide_eq_true_iff

theorem areaAt_eq_none_iff {l : List Vma} : areaAt l addr = none ↔ ∀ v ∈ l, ¬ v.Has addr := by
  unfold areaAt
  simp only [List.find?_eq_none, decide_eq_true_iff]

/-- **`find_vma` finds the area that has the address**, whatever was looked up before. -/
theorem findVma_run (h : (s.mm m).Ok) :
    (findVma m addr).run s = .ok (areaAt (s.mm m).mmapList addr) (s.foundArea m (areaAt (s.mm m).mmapList addr)) := by
  have hfound : ((s.mm m).mmapCache.filter fun v => v.Has addr).or ((s.mm m).mmapList.find? fun v => v.Has addr) =
      areaAt (s.mm m).mmapList addr := by
    cases hcache : (s.mm m).mmapCache with
    | none => rfl
    | some v =>
      by_cases hhas : v.Has addr
      · rw [Option.filter_some, if_pos (decide_eq_true hhas)]
        exact ((areaAt_eq_some_iff h.areas).mpr ⟨h.cache v hcache, hhas⟩).symm
      · rw [Option.filter_some, if_neg (by rwa [decide_eq_true_iff])]
        rfl
  unfold findVma
  rw [Prog.run_bind, Prog.run_get, Outcome.andThen_ok]
  simp only [hfound]
  cases areaAt (s.mm m).mmapList addr with
  | none => rfl
  | some v => rfl

@[simp] theorem mmapList_foundArea (r : Option Vma) (m' : ℕ) :
    ((s.foundArea m r).mm m').mmapList = (s.mm m').mmapList := by
  cases r with
  | none => rfl
  | some v =>
    show (Function.update s.mm m _ m').mmapList = _
    rw [Function.update_apply]
    split_ifs with heq
    · rw [heq]
    · rfl

theorem MmStruct.Ok.find (h : (s.mm m).Ok) : ((s.foundArea m (areaAt (s.mm m).mmapList addr)).mm m).Ok := by
  cases hfound : areaAt (s.mm m).mmapList addr with
  | none => exact h
  | some v =>
    have hmm : (s.foundArea m (some v)).mm m = { s.mm m with mmapCache := some v } := Function.update_self _ _ _
    rw [hmm]
    refine ⟨h.areas, h.count, fun w hw => ?_⟩
    rw [← Option.some.inj hw]
    exact ((areaAt_eq_some_iff h.areas).mp hfound).1

/-! ### Sequences of calls -/

/-- A call of `insert_vma_struct` or of `find_vma`. -/
inductive VmaCall where
  | insert (v : Vma)
  | find (addr : ℕ)

/-- The area that a call inserts. -/
def VmaCall.inserted : VmaCall → Option Vma
  | .insert v => some v
  | .find _ => none

/-- The areas that the calls insert. -/
def insertedAreas (calls : List VmaCall) : List Vma := calls.filterMap VmaCall.inserted

/-- The call, on the address space `m`. -/
def VmaCall.prog (m : ℕ) : VmaCall → VmProg Unit
  | .insert v => insertVmaStruct m v
  | .find addr => do
    let _ ← findVma m addr
    pure ()

/-- The calls, one after the other. -/
def vmaCalls (m : ℕ) : List VmaCall → VmProg Unit
  | [] => pure ()
  | c :: calls => do
    c.prog m
    vmaCalls m calls

theorem foundArea_of_ne {r : Option Vma} {m' : ℕ} (hne : m' ≠ m) : (s.foundArea m r).mm m' = s.mm m' := by
  cases r with
  | none => rfl
  | some v => exact Function.update_of_ne hne _ _

/-- Areas that are apart from each other and from those that are there all get their places. -/
theorem vmaCalls_run {calls : List VmaCall} (h : (s.mm m).Ok) (hne : ∀ v ∈ insertedAreas calls, v.vmStart < v.vmEnd)
    (hapart : (insertedAreas calls).Pairwise Vma.Apart)
    (hold : ∀ v ∈ insertedAreas calls, ∀ w ∈ (s.mm m).mmapList, Vma.Apart v w) :
    ∃ s', (vmaCalls m calls).run s = .ok () s' ∧ (s'.mm m).Ok ∧
      (s'.mm m).mmapList.Perm (insertedAreas calls ++ (s.mm m).mmapList) ∧ ∀ m' ≠ m, s'.mm m' = s.mm m' := by
  induction calls generalizing s with
  | nil => exact ⟨s, rfl, h, List.Perm.refl _, fun _ _ => rfl⟩
  | cons c calls ih =>
    unfold vmaCalls
    cases c with
    | insert v =>
      have hcons : insertedAreas (.insert v :: calls) = v :: insertedAreas calls := rfl
      rw [hcons] at hne hapart hold
      obtain ⟨hv, hrest⟩ := List.pairwise_cons.mp hapart
      have hvne := hne v List.mem_cons_self
      have hrun := insertVmaStruct_run h.areas hvne (hold v List.mem_cons_self)
      have hareas : Areas (placeArea (s.mm m).mmapList v) := by
        have hpost := insertVmaStruct_post (v := v) h.areas
        rw [hrun] at hpost
        exact hpost.2.2
      have hperm : ((s.insertArea m v).mm m).mmapList.Perm (v :: (s.mm m).mmapList) := by
        rw [insertArea_mm]
        exact placeArea_perm _ _
      obtain ⟨s', hcalls, hok, hperm', hother⟩ := ih (h.insert hareas)
        (fun w hw => hne w (List.mem_cons_of_mem v hw)) hrest fun w hw u hu => by
          rcases List.mem_cons.mp (hperm.mem_iff.mp hu) with rfl | hu
          · exact (hv w hw).symm
          · exact hold w (List.mem_cons_of_mem v hw) u hu
      refine ⟨s', (Prog.bind_of_ok hrun).trans hcalls, hok, ?_, fun m' hm' => ?_⟩
      · rw [hcons]
        exact hperm'.trans ((hperm.append_left _).trans List.perm_middle)
      · rw [hother m' hm']
        exact Function.update_of_ne hm' _ _
    | find addr =>
      have hrun : (VmaCall.prog m (.find addr)).run s =
          .ok () (s.foundArea m (areaAt (s.mm m).mmapList addr)) := Prog.bind_of_ok (findVma_run h)
      obtain ⟨s', hcalls, hok, hperm, hother⟩ := ih h.find hne hapart (by rwa [mmapList_foundArea])
      rw [mmapList_foundArea] at hperm
      refine ⟨s', (Prog.bind_of_ok hrun).trans hcalls, hok, hperm, fun m' hm' => ?_⟩
      rw [hother m' hm', foundArea_of_ne hm']

/-! ### The copy of `dup_mmap` -/

section dup

variable (al : Allocs)

theorem vmaCreate_post (start stop : ℕ) (flags : BitVec 32) : ((vmaCreate al start stop flags).run s).Post
    (fun r s' => s'.mm = s.mm ∧ SamePages s s' ∧ ∀ v, r = some v → v.area = (start, stop, flags)) (fun _ _ => False)
    fun _ => False := by
  unfold vmaCreate kmalloc
  simp only [Prog.run_bind, Prog.run_get, Prog.run_modify, Outcome.andThen_ok, Prog.run_ite]
  split_ifs
  · exact ⟨rfl, ⟨rfl, rfl, rfl, rfl⟩, fun v hv => by (cases hv)⟩
  · refine ⟨rfl, ⟨rfl, rfl, rfl, rfl⟩, fun v hv => ?_⟩
    rw [← Option.some.inj hv]
    rfl

/-- The address space `m` has the areas `l`, and nothing else has changed in it or in another one. -/
def AreasSet (s s' : VmState) (m : ℕ) (l : List Vma) : Prop :=
  s'.mm = Function.update s.mm m { s.mm m with mmapList := l, mapCount := l.length }

theorem AreasSet.trans {s₁ s' : VmState} {l l' : List Vma} (h : AreasSet s s₁ m l) (h' : AreasSet s₁ s' m l') :
    AreasSet s s' m l' := by
  unfold AreasSet at h h' ⊢
  rw [h', h, Function.update_idem, Function.update_self]

/-- The loop of `dup_mmap` has done the areas `rest` of the list, and goes on with `l`. If it fails, it has done a part
from the end. -/
theorem dupLoop_post {dst src : ℕ} {l rest : List Vma} (hareas : Areas (l.reverse ++ rest))
    (hdst : (s.mm dst).mmapList.map Vma.area = rest.map Vma.area)
    (hcount : (s.mm dst).mapCount = (s.mm dst).mmapList.length) : ((dupLoop al dst src l).run s).Post
    (fun _ s' => ∃ l', AreasSet s s' dst l' ∧ l'.map Vma.area = (l.reverse ++ rest).map Vma.area)
    (fun _ s' => ∃ l' l₁ l₂, AreasSet s s' dst l' ∧ l.reverse ++ rest = l₁ ++ l₂ ∧ l'.map Vma.area = l₂.map Vma.area)
    PageSite := by
  have hself : ∀ {s₁ : VmState}, s₁.mm = s.mm → AreasSet s s₁ dst (s.mm dst).mmapList := by
    intro s₁ hmm
    unfold AreasSet
    rw [hmm, ← hcount, Function.update_eq_self]
  induction l generalizing s rest with
  | nil => exact ⟨_, hself rfl, hdst⟩
  | cons vma l ih =>
    have hsplit : (vma :: l).reverse ++ rest = l.reverse ++ vma :: rest := by
      rw [List.reverse_cons, List.append_assoc]
      rfl
    rw [hsplit] at hareas ⊢
    obtain ⟨-, hfrom, -⟩ := hareas.of_append
    unfold dupLoop
    have hcreate := vmaCreate_post (s := s) al vma.vmStart vma.vmEnd vma.vmFlags
    refine Outcome.post_bind.mpr (hcreate.mono ?_ (fun _ _ h => h.elim) fun _ h => h.elim)
    rintro r s₁ ⟨hmm, -, hr⟩
    cases r with
    | none => exact ⟨_, l.reverse ++ [vma], rest, hself hmm, by simp, hdst⟩
    | some nvma =>
      have harea : nvma.area = vma.area := hr nvma rfl
      have hstart : nvma.vmStart = vma.vmStart := congrArg Prod.fst harea
      have hstop : nvma.vmEnd = vma.vmEnd := congrArg (fun a => a.2.1) harea
      have hdst₁ : (s₁.mm dst).mmapList.map Vma.area = rest.map Vma.area := by rw [hmm, hdst]
      have hcopied : Areas (s₁.mm dst).mmapList := by
        refine hfrom.of_cons.congr ?_
        have hends := congrArg (List.map fun a : ℕ × ℕ × BitVec 32 => (a.1, a.2.1)) hdst₁
        rwa [List.map_map, List.map_map] at hends
      have hbehind : ∀ w ∈ (s₁.mm dst).mmapList, nvma.vmEnd ≤ w.vmStart := by
        intro w hw
        have hwarea : w.area ∈ rest.map Vma.area := hdst₁ ▸ List.mem_map_of_mem hw
        obtain ⟨u, hu, huw⟩ := List.mem_map.mp hwarea
        rw [hstop, ← show u.vmStart = w.vmStart from congrArg Prod.fst huw]
        exact (List.pairwise_cons.mp hfrom.sorted).1 u hu
      have hne : nvma.vmStart < nvma.vmEnd := by
        rw [hstart, hstop]
        exact hfrom.nonempty vma List.mem_cons_self
      have hrun := insertVmaStruct_run hcopied hne fun w hw => Or.inl (hbehind w hw)
      have hfront : placeArea (s₁.mm dst).mmapList nvma = nvma :: (s₁.mm dst).mmapList :=
        placeArea_front fun w hw => Nat.lt_of_lt_of_le hne (hbehind w hw)
      have hset : AreasSet s (s₁.insertArea dst nvma) dst (nvma :: (s₁.mm dst).mmapList) := by
        show Function.update s₁.mm dst
          { s₁.mm dst with mmapList := placeArea (s₁.mm dst).mmapList nvma, mapCount := (s₁.mm dst).mapCount + 1 } = _
        rw [hfront, hmm, hcount, List.length_cons]
      show Outcome.Post _ _ _ ((do
        insertVmaStruct dst nvma
        let s ← Prog.get
        copyRange al (s.mm dst).pgdir (s.mm src).pgdir vma.vmStart vma.vmEnd
        dupLoop al dst src l : VmProg Unit).run s₁)
      rw [Prog.bind_of_ok hrun, Prog.run_bind, Prog.run_get, Outcome.andThen_ok]
      refine (onPages_copyRange al _ _ _ _).post_bind (fun _ s₂ hpages => ?_) (fun _ s₂ hpages => ?_) fun _ h => h
      · have hset₂ : AreasSet s s₂ dst (nvma :: (s₁.mm dst).mmapList) := hpages.mm.trans hset
        have hdst₂ : (s₂.mm dst).mmapList = nvma :: (s₁.mm dst).mmapList := by rw [hset₂, Function.update_self]
        have hcount₂ : (s₂.mm dst).mapCount = (s₂.mm dst).mmapList.length := by rw [hset₂, Function.update_self]
        have hmap : (s₂.mm dst).mmapList.map Vma.area = (vma :: rest).map Vma.area := by
          rw [hdst₂, List.map_cons, List.map_cons, harea, hdst₁]
        refine (ih hareas hmap hcount₂ fun {s₃} hmm₃ => ?_).mono ?_ ?_ fun _ h => h
        · unfold AreasSet
          rw [hmm₃, ← hcount₂, Function.update_eq_self]
        · rintro _ s' ⟨l', hl', hmap'⟩
          exact ⟨l', hset₂.trans hl', hmap'⟩
        · rintro _ s' ⟨l', l₁, l₂, hl', hsplit', hmap'⟩
          exact ⟨l', l₁, l₂, hset₂.trans hl', hsplit', hmap'⟩
      · refine ⟨_, l.reverse, vma :: rest, hpages.mm.trans hset, rfl, ?_⟩
        rw [List.map_cons, List.map_cons, harea, hdst₁]

/-- `dup_mmap` copies the areas in their order, or, if it fails, some from the end. -/
theorem dupMmap_areas {dst src : ℕ} (hsrc : Areas (s.mm src).mmapList) (hnil : (s.mm dst).mmapList = [])
    (hcount : (s.mm dst).mapCount = 0) : ((dupMmap al dst src).run s).Post
    (fun _ s' => ∃ l', AreasSet s s' dst l' ∧ l'.map Vma.area = (s.mm src).mmapList.map Vma.area)
    (fun _ s' => ∃ l' l₁ l₂, AreasSet s s' dst l' ∧ (s.mm src).mmapList = l₁ ++ l₂ ∧ l'.map Vma.area = l₂.map Vma.area)
    PageSite := by
  unfold dupMmap
  rw [Prog.run_bind, Prog.run_get, Outcome.andThen_ok]
  have hreverse : (s.mm src).mmapList.reverse.reverse ++ [] = (s.mm src).mmapList := by
    rw [List.reverse_reverse, List.append_nil]
  have hloop := @dupLoop_post s al dst src (s.mm src).mmapList.reverse []
  rw [hreverse, hnil] at hloop
  exact hloop hsrc rfl hcount

/-- `mm_create` leaves an `mm_struct` without areas. -/
def MmStruct.New (d : MmStruct) : Prop := d.mmapList = [] ∧ d.mmapCache = none ∧ d.mapCount = 0

theorem MmStruct.New.ok {d : MmStruct} (h : d.New) : d.Ok := by
  obtain ⟨hnil, hcache, hcount⟩ := h
  refine ⟨?_, ?_, fun v hv => ?_⟩
  · rw [hnil]
    exact Ranges.nil
  · rw [hnil, hcount]
    rfl
  · rw [hcache] at hv
    cases hv

/-- **The list of areas and the cache of `find_vma`.** Insert areas that are apart, in any order, with calls of `find_vma`
in between: the list ascends, its length is `map_count`, and `find_vma` finds the one area that has the address. A copy by
`dup_mmap` has the same areas in the same order. -/
theorem vma_list (m dst : ℕ) (calls : List VmaCall) (hm : (s.mm m).New) (hdst : (s.mm dst).New) (hne : dst ≠ m)
    (hpos : ∀ v ∈ insertedAreas calls, v.vmStart < v.vmEnd) (hapart : (insertedAreas calls).Pairwise Vma.Apart) :
    ∃ s', (vmaCalls m calls).run s = .ok () s' ∧
      (s'.mm m).mmapList.Pairwise (fun v w => v.vmStart < w.vmStart ∧ v.vmEnd ≤ w.vmStart) ∧
      (s'.mm m).mmapList.Perm (insertedAreas calls) ∧ (s'.mm m).mapCount = (s'.mm m).mmapList.length ∧
      (∀ addr, ∃ r s'', (findVma m addr).run s' = .ok r s'' ∧
        ∀ v, r = some v ↔ v ∈ insertedAreas calls ∧ v.Has addr) ∧
      ((dupMmap al dst m).run s').Post
        (fun _ s'' => (s''.mm dst).mmapList.map Vma.area = (s'.mm m).mmapList.map Vma.area ∧
          (s''.mm dst).mapCount = (s'.mm m).mapCount)
        (fun _ _ => True) PageSite := by
  obtain ⟨s', hrun, hok, hperm, hother⟩ := vmaCalls_run hm.ok hpos hapart fun v _ w hw => by
    rw [hm.1] at hw
    cases hw
  rw [hm.1, List.append_nil] at hperm
  refine ⟨s', hrun, ?_, hperm, hok.count, fun addr => ⟨_, _, findVma_run hok, fun v => ?_⟩, ?_⟩
  · refine hok.areas.sorted.imp_of_mem fun {v w} hv _ hvw => ⟨?_, hvw⟩
    exact Nat.lt_of_lt_of_le (hok.areas.nonempty v hv) hvw
  · rw [areaAt_eq_some_iff hok.areas, hperm.mem_iff]
  · have hdst' : (s'.mm dst).New := by rwa [hother dst hne]
    refine (dupMmap_areas al hok.areas hdst'.1 hdst'.2.2).mono ?_ (fun _ _ _ => trivial) fun _ h => h
    rintro _ s'' ⟨l', hset, hmap⟩
    have hlength := congrArg List.length hmap
    rw [List.length_map, List.length_map] at hlength
    rw [hset, Function.update_self, hok.count]
    exact ⟨hmap, hlength⟩

end dup

/-- Two areas, the later one first. -/
theorem vma_list_two : ∃ s', (vmaCalls 0 [.insert ⟨2, 0x400000, 0x402000, 5⟩, .find 0x200000,
      .insert ⟨1, 0x200000, 0x201000, 3⟩]).run (.start 0 []) = .ok () s' ∧
    (s'.mm 0).mmapList.Pairwise (fun v w => v.vmStart < w.vmStart ∧ v.vmEnd ≤ w.vmStart) ∧
    (s'.mm 0).mmapList.Perm [⟨2, 0x400000, 0x402000, 5⟩, ⟨1, 0x200000, 0x201000, 3⟩] := by
  obtain ⟨s', hrun, hsorted, hperm, -⟩ := vma_list .firstFit (s := .start 0 []) 0 1
    [.insert ⟨2, 0x400000, 0x402000, 5⟩, .find 0x200000, .insert ⟨1, 0x200000, 0x201000, 3⟩]
    ⟨rfl, rfl, rfl⟩ ⟨rfl, rfl, rfl⟩ (by decide) (by decide) (by decide)
  exact ⟨s', hrun, hsorted, hperm⟩

end Ucore.Vm
