import Ucore.Mm.DupMmap
import Ucore.Mm.ExitMmap
import Ucore.Mm.PageDirs
import Mathlib.Tactic.Common

/-!
# Address spaces whose page tables agree with their areas

* `Layout.Space` is the invariant of an address space: each page is under an area, with the permissions of the area, and
  nobody else has the page.
* `Layout.Beside` says what a program that works on one address space leaves alone; with `Layout.On` its number of users
  stays too, and with `Layout.Grows` no page has been unmapped or written to.
* `mm_map`, `pgdir_alloc_page` for an address of an area, and `do_pgfault` keep the invariant.
-/

namespace Ucore.Vm

open Ucore.Lib

variable {s s₁ s' : VmState} {m m' d t la addr page : ℕ} {x : Slot} {l : Layout} {v : Vma}

/-! ### The invariant -/

/-- The address space `m` has its pages under areas, with their permissions. -/
structure Layout.Space (l : Layout) (s : VmState) (m : ℕ) : Prop extends l.Covered s m where
  mm : (s.mm m).Ok
  flags : ∀ x ∈ l.slots, x.dir = (s.mm m).pgdir → (s.pte x).present = true → ∀ v ∈ (s.mm m).mmapList, v.Has x.addr →
    (s.pte x).flags = pteP ||| v.perm
  refs : ∀ x ∈ l.slots, x.dir = (s.mm m).pgdir → (s.pte x).present = true → s.pageRef (s.pte x).ppn = 1

/-- What is beside the address space `m` is as before. -/
structure Layout.Beside (l : Layout) (m : ℕ) (s s' : VmState) : Prop where
  pte : ∀ x ∈ l.slots, x.dir ≠ (s.mm m).pgdir → s'.pte x = s.pte x
  pde : ∀ d ∈ l.dirs, d ≠ (s.mm m).pgdir → ∀ i, s'.entry d i = s.entry d i
  /-- Kept pages are page directories and what the kernel uses. -/
  kept : ∀ p, l.kept p → ∀ k, (p ∈ l.dirs → l.top ≤ k) → s'.entry p k = s.entry p k
  free : ∀ p ∈ s'.free, p ∈ s.free
  ref : ∀ p ∉ s.free, s'.pageRef p = s.pageRef p
  mm : ∀ m' ≠ m, s'.mm m' = s.mm m'
  pgdir : (s'.mm m).pgdir = (s.mm m).pgdir
  boot : s'.bootPgdir = s.bootPgdir
  fresh : s.freshBlock ≤ s'.freshBlock

/-- A program on the address space `m` leaves this alone. -/
structure Layout.On (l : Layout) (m : ℕ) (s s' : VmState) : Prop extends l.Beside m s s' where
  count : (s'.mm m).mmCount = (s.mm m).mmCount

theorem Layout.Beside.trans (h : l.Beside m s s₁) (h' : l.Beside m s₁ s') : l.Beside m s s' := by
  have hpgdir := h.pgdir
  refine ⟨fun x hx hne => ?_, fun d hd hne i => ?_, fun p hp k hk => (h'.kept p hp k hk).trans (h.kept p hp k hk),
    fun p hp => h.free p (h'.free p hp), fun p hp => ?_, fun m' hm' => (h'.mm m' hm').trans (h.mm m' hm'),
    h'.pgdir.trans h.pgdir, h'.boot.trans h.boot, Nat.le_trans h.fresh h'.fresh⟩
  · rw [h'.pte x hx (by rwa [hpgdir]), h.pte x hx hne]
  · rw [h'.pde d hd (by rwa [hpgdir]) i, h.pde d hd hne i]
  · rw [h'.ref p fun hmem => hp (h.free p hmem), h.ref p hp]

theorem Layout.On.refl (l : Layout) (m : ℕ) (s : VmState) : l.On m s s :=
  ⟨⟨fun _ _ _ => rfl, fun _ _ _ _ => rfl, fun _ _ _ _ => rfl, fun _ h => h, fun _ _ => rfl, fun _ _ => rfl, rfl, rfl,
    Nat.le_refl _⟩, rfl⟩

theorem Layout.On.trans (h : l.On m s s₁) (h' : l.On m s₁ s') : l.On m s s' :=
  ⟨h.toBeside.trans h'.toBeside, h'.count.trans h.count⟩

/-- Pages have been added, and no other page has changed. -/
structure Layout.Grows (l : Layout) (m : ℕ) (s s' : VmState) : Prop extends l.On m s s' where
  stays : ∀ x ∈ l.slots, (s.pte x).present = true → s'.pte x = s.pte x
  byte : ∀ p ∉ s.free, s'.byte p = s.byte p

theorem Layout.Grows.refl (l : Layout) (m : ℕ) (s : VmState) : l.Grows m s s := ⟨.refl l m s, fun _ _ _ => rfl, fun _ _ => rfl⟩

theorem Layout.Grows.trans (h : l.Grows m s s₁) (h' : l.Grows m s₁ s') : l.Grows m s s' := by
  refine ⟨h.toOn.trans h'.toOn, fun x hx hpresent => ?_, fun p hp => ?_⟩
  · have hsame := h.stays x hx hpresent
    rw [h'.stays x hx (by rwa [hsame]), hsame]
  · rw [h'.byte p fun hmem => hp (h.free p hmem), h.byte p hp]

namespace Layout.Space

/-- The other address spaces keep the invariant. -/
theorem other (h : l.Space s m') (hon : l.Beside m s s') (hok : l.Ok s') (hne : m' ≠ m) (hdir : (s.mm m').pgdir ≠ (s.mm m).pgdir) :
    l.Space s' m' := by
  have hmm : s'.mm m' = s.mm m' := hon.mm m' hne
  have hpte : ∀ x ∈ l.slots, x.dir = (s.mm m').pgdir → s'.pte x = s.pte x := fun x hx hxd =>
    hon.pte x hx fun heq => hdir (hxd.symm.trans heq)
  refine ⟨⟨hok, ?_, ?_, ?_, ?_, ?_⟩, ?_, ?_, ?_⟩ <;> rw [hmm]
  · exact h.dir
  · exact h.areas
  · exact h.ranges
  · exact fun x hx hxd hpresent => h.pages x hx hxd (by rwa [hpte x hx hxd] at hpresent)
  · intro i hi hpresent
    rw [hon.pde _ h.dir hdir] at hpresent
    exact h.tables i hi hpresent
  · exact h.mm
  · intro x hx hxd hpresent
    rw [hpte x hx hxd] at hpresent ⊢
    exact h.flags x hx hxd hpresent
  · intro x hx hxd hpresent
    rw [hpte x hx hxd] at hpresent ⊢
    rw [hon.ref _ (h.ok.named hx (Pte.page_of_present hpresent)).2.2]
    exact h.refs x hx hxd hpresent

/-- Other fields of the state, and the bytes of pages, do not matter. -/
theorem congr (h : l.Space s m) (hfree : s'.free = s.free) (href : s'.pageRef = s.pageRef) (hentry : s'.entry = s.entry)
    (hmm : s'.mm m = s.mm m) : l.Space s' m := by
  have hpte : ∀ x, s'.pte x = s.pte x := fun x => pte_congr (by rw [hentry]) fun _ => by rw [hentry]
  refine ⟨⟨h.ok.congr hfree href hentry, ?_, ?_, ?_, ?_, ?_⟩, ?_, ?_, ?_⟩ <;> rw [hmm]
  · exact h.dir
  · exact h.areas
  · exact h.ranges
  · exact fun x hx hxd hpresent => h.pages x hx hxd (by rwa [hpte] at hpresent)
  · exact fun i hi hpresent => h.tables i hi (by rwa [hentry] at hpresent)
  · exact h.mm
  · exact fun x hx hxd hpresent => by (rw [hpte] at hpresent ⊢; exact h.flags x hx hxd hpresent)
  · exact fun x hx hxd hpresent => by (rw [hpte] at hpresent ⊢; rw [href]; exact h.refs x hx hxd hpresent)

/-- A slot of an area that is present is under that area. -/
theorem flags_of_has (h : l.Space s m) (hx : x ∈ l.slots) (hxd : x.dir = (s.mm m).pgdir) (hpresent : (s.pte x).present = true) :
    ∃ v ∈ (s.mm m).mmapList, v.Has x.addr ∧ (s.pte x).flags = pteP ||| v.perm := by
  obtain ⟨v, hv, hhas⟩ := h.pages x hx hxd hpresent
  exact ⟨v, hv, hhas, h.flags x hx hxd hpresent v hv hhas⟩

end Layout.Space

/-! ### The areas change -/

/-- Only the areas of the address space `m` have changed, and blocks have come. -/
structure OnlyAreas (m : ℕ) (s s' : VmState) : Prop where
  pages : SamePages s s'
  mm : ∀ m' ≠ m, s'.mm m' = s.mm m'
  pgdir : (s'.mm m).pgdir = (s.mm m).pgdir
  count : (s'.mm m).mmCount = (s.mm m).mmCount
  boot : s'.bootPgdir = s.bootPgdir
  fresh : s.freshBlock ≤ s'.freshBlock

theorem OnlyAreas.trans (h : OnlyAreas m s s₁) (h' : OnlyAreas m s₁ s') : OnlyAreas m s s' :=
  ⟨h.pages.trans h'.pages, fun m' hm' => (h'.mm m' hm').trans (h.mm m' hm'), h'.pgdir.trans h.pgdir,
    h'.count.trans h.count, h'.boot.trans h.boot, Nat.le_trans h.fresh h'.fresh⟩

instance : Std.Refl (OnlyAreas m) := ⟨fun _ => ⟨⟨rfl, rfl, rfl, rfl⟩, fun _ _ => rfl, rfl, rfl, rfl, Nat.le_refl _⟩⟩

instance : IsTrans VmState (OnlyAreas m) := ⟨fun _ _ _ => OnlyAreas.trans⟩

theorem OnlyAreas.setMm {f : MmStruct → MmStruct} (hf : ∀ d, (f d).pgdir = d.pgdir ∧ (f d).mmCount = d.mmCount) (s : VmState) :
    OnlyAreas m s (s.setMm m f) := by
  have hself : (s.setMm m f).mm m = f (s.mm m) := Function.update_self _ _ _
  refine ⟨⟨rfl, rfl, rfl, rfl⟩, fun m' hm' => Function.update_of_ne hm' _ _, ?_, ?_, rfl, Nat.le_refl _⟩
  · rw [hself]
    exact (hf _).1
  · rw [hself]
    exact (hf _).2

theorem onlyAreas_kmalloc (al : Allocs) : Within (OnlyAreas m) (fun _ => True) (kmalloc al) := by
  intro s
  unfold kmalloc
  rw [Prog.run_bind, Prog.run_get, Outcome.andThen_ok, Prog.run_bind, Prog.run_modify, Outcome.andThen_ok, Prog.run_ite]
  split_ifs
  · exact ⟨⟨rfl, rfl, rfl, rfl⟩, fun _ _ => rfl, rfl, rfl, rfl, Nat.le_refl _⟩
  · exact ⟨⟨rfl, rfl, rfl, rfl⟩, fun _ _ => rfl, rfl, rfl, rfl, Nat.le_succ _⟩

theorem onlyAreas_findVma (addr : ℕ) : Within (OnlyAreas m) (fun _ => True) (findVma m addr) := by
  unfold findVma
  refine Within.bind Within.get fun s => Within.bind ?_ fun _ => Within.pure _
  split
  · refine Within.modify fun s => ?_
    apply OnlyAreas.setMm
    exact fun _ => ⟨rfl, rfl⟩
  · exact Within.pure _

theorem onlyAreas_insertVmaStruct (v : Vma) : Within (OnlyAreas m) (fun _ => True) (insertVmaStruct m v) := by
  have hcheck : ∀ r check, (∀ w, Within (OnlyAreas m) (fun _ => True) (check w)) →
      Within (OnlyAreas m) (fun _ => True) (checkNeighbour r check) := by
    intro r check h
    cases r with
    | none => exact Within.pure _
    | some w => exact h w
  have hoverlap : ∀ w w', Within (OnlyAreas m) (fun _ => True) (checkVmaOverlap w w') := fun w w' =>
    Within.bind (Within.assert _ trivial) fun _ => Within.bind (Within.assert _ trivial) fun _ => Within.assert _ trivial
  rw [insertVmaStruct_eq]
  refine Within.bind (Within.assert _ trivial) fun _ => Within.bind Within.get fun s => ?_
  refine Within.bind (hcheck _ _ fun w => hoverlap w v) fun _ => Within.bind (hcheck _ _ fun w => hoverlap v w) fun _ => ?_
  refine Within.modify fun s => ?_
  apply OnlyAreas.setMm
  exact fun _ => ⟨rfl, rfl⟩

theorem onlyAreas_vmaCreate (al : Allocs) (start stop : ℕ) (flags : BitVec 32) :
    Within (OnlyAreas m) (fun _ => True) (vmaCreate al start stop flags) := by
  refine Within.bind (onlyAreas_kmalloc al) fun r => ?_
  cases r with
  | none => exact Within.pure _
  | some a => exact Within.pure _

theorem onlyAreas_mmMapNew (al : Allocs) (start stop : ℕ) (flags : BitVec 32) :
    Within (OnlyAreas m) (fun _ => True) (mmMapNew al m start stop flags) := by
  refine Within.bind (onlyAreas_vmaCreate al start stop flags) fun r => ?_
  cases r with
  | none => exact Within.throw _
  | some v => exact onlyAreas_insertVmaStruct v

theorem onlyAreas_mmMap (al : Allocs) (addr len : ℕ) (flags : BitVec 32) :
    Within (OnlyAreas m) (fun _ => True) (mmMap al m addr len flags) := by
  refine Within.ite (Within.throw _) (Within.bind (onlyAreas_findVma _) fun r => ?_)
  cases r with
  | none => exact onlyAreas_mmMapNew al _ _ _
  | some v => exact Within.ite (Within.throw _) (onlyAreas_mmMapNew al _ _ _)

theorem OnlyAreas.grows (h : OnlyAreas m s s') (l : Layout) : l.Grows m s s' := by
  obtain ⟨hfree, href, hentry, hbyte⟩ := h.pages
  have hpte : ∀ x, s'.pte x = s.pte x := fun x => pte_congr (by rw [hentry]) fun _ => by rw [hentry]
  exact ⟨⟨⟨fun x _ _ => hpte x, fun d _ _ i => by rw [hentry], fun p _ k _ => by rw [hentry], fun p hp => hfree ▸ hp,
    fun p _ => by rw [href], h.mm, h.pgdir, h.boot, h.fresh⟩, h.count⟩, fun x _ _ => hpte x, fun p _ => by rw [hbyte]⟩

namespace Layout.Space

/-- The areas are the old ones, and perhaps one more. -/
theorem ofAreas (h : l.Space s m) (hareas : OnlyAreas m s s') (hmm : (s'.mm m).Ok)
    (hold : ∀ v ∈ (s.mm m).mmapList, v ∈ (s'.mm m).mmapList) (hranges : ∀ v ∈ (s'.mm m).mmapList, UserRange v.vmStart v.vmEnd) :
    l.Space s' m := by
  obtain ⟨hfree, href, hentry, hbyte⟩ := hareas.pages
  have hpte : ∀ x, s'.pte x = s.pte x := fun x => pte_congr (by rw [hentry]) fun _ => by rw [hentry]
  refine ⟨⟨h.ok.congr hfree href hentry, ?_, hmm.areas, hranges, ?_, ?_⟩, hmm, ?_, ?_⟩ <;> try rw [hareas.pgdir]
  · exact h.dir
  · intro x hx hxd hpresent
    rw [hpte] at hpresent
    obtain ⟨v, hv, hhas⟩ := h.pages x hx hxd hpresent
    exact ⟨v, hold v hv, hhas⟩
  · intro i hi hpresent
    rw [hentry] at hpresent
    obtain ⟨v, hv, hspans⟩ := h.tables i hi hpresent
    exact ⟨v, hold v hv, hspans⟩
  · intro x hx hxd hpresent v hv hhas
    rw [hpte] at hpresent ⊢
    obtain ⟨w, hw, hhas', hflags⟩ := h.flags_of_has hx hxd hpresent
    rw [hmm.areas.eq_of_mem hv (hold w hw) hhas hhas', hflags]
  · intro x hx hxd hpresent
    rw [hpte] at hpresent ⊢
    rw [href]
    exact h.refs x hx hxd hpresent

/-- No page is under an area that has just been added. -/
theorem absent_of_not_mem (h : l.Space s m) (hareas : OnlyAreas m s s') (hmm : (s'.mm m).Ok)
    (hold : ∀ v ∈ (s.mm m).mmapList, v ∈ (s'.mm m).mmapList) (hv : v ∈ (s'.mm m).mmapList) (hnew : v ∉ (s.mm m).mmapList)
    (hx : x ∈ l.slots) (hxd : x.dir = (s.mm m).pgdir) (hhas : v.Has x.addr) : (s'.pte x).present = false := by
  obtain ⟨-, -, hentry, -⟩ := hareas.pages
  have hpte : s'.pte x = s.pte x := pte_congr (by rw [hentry]) fun _ => by rw [hentry]
  rw [hpte]
  refine Bool.eq_false_iff.mpr fun hpresent => ?_
  obtain ⟨w, hw, hhas'⟩ := h.pages x hx hxd hpresent
  exact hnew (hmm.areas.eq_of_mem hv (hold w hw) hhas hhas' ▸ hw)

end Layout.Space

/-! ### `mm_map` -/

/-- Where the area of `mm_map` starts and ends: whole pages, with sums of 32 bits. -/
def areaStart (addr : ℕ) : ℕ := addr / pageSize * pageSize

def areaEnd (addr len : ℕ) : ℕ := ((addr + len) % 2 ^ 32 + (pageSize - 1)) % 2 ^ 32 / pageSize * pageSize

/-- The area `v` has been added to the address space, where there were no pages. -/
structure Layout.Mapped (l : Layout) (m : ℕ) (v : Vma) (s s' : VmState) : Prop where
  space : l.Space s' m
  grows : l.Grows m s s'
  areas : ∀ w, w ∈ (s'.mm m).mmapList ↔ w = v ∨ w ∈ (s.mm m).mmapList
  range : UserRange v.vmStart v.vmEnd
  absent : ∀ x ∈ l.slots, x.dir = (s.mm m).pgdir → v.Has x.addr → (s'.pte x).present = false

theorem mmMapNew_post (al : Allocs) (h : l.Space s m) {start stop : ℕ} (hrange : UserRange start stop) (flags : BitVec 32) :
    ((mmMapNew al m start stop flags).run s).Post
      (fun _ s' => ∃ v, v.area = (start, stop, flags) ∧ l.Mapped m v s s')
      (fun _ s' => l.Space s' m ∧ l.Grows m s s') fun _ => True := by
  unfold mmMapNew
  have hcreate := (vmaCreate_post (s := s) al start stop flags).and (onlyAreas_vmaCreate (m := m) al start stop flags s)
  refine Outcome.post_bind.mpr (hcreate.mono ?_ (fun _ _ hf => hf.1.elim) fun _ hf => hf.1.elim)
  rintro r s₁ ⟨⟨hmm, -, hr⟩, hareas⟩
  have hspace : l.Space s₁ m := by
    obtain ⟨hfree, href, hentry, -⟩ := hareas.pages
    exact h.congr hfree href hentry (by rw [hmm])
  cases r with
  | none => exact ⟨hspace, hareas.grows l⟩
  | some v =>
    have harea : v.area = (start, stop, flags) := hr v rfl
    have hstart : v.vmStart = start := congrArg Prod.fst harea
    have hstop : v.vmEnd = stop := congrArg (fun a => a.2.1) harea
    have hinsert := (insertVmaStruct_post (v := v) hspace.areas).and (onlyAreas_insertVmaStruct (m := m) v s₁)
    refine hinsert.mono ?_ (fun _ _ hf => hf.1.elim) fun _ _ => trivial
    rintro _ s' ⟨⟨rfl, -, hplaced⟩, hareas'⟩
    have hok : ((s₁.insertArea m v).mm m).Ok := hspace.mm.insert hplaced
    have hmem : ∀ w, w ∈ ((s₁.insertArea m v).mm m).mmapList ↔ w = v ∨ w ∈ (s₁.mm m).mmapList := by
      intro w
      rw [insertArea_mm]
      exact (placeArea_perm _ _).mem_iff.trans List.mem_cons
    have hranges : ∀ w ∈ ((s₁.insertArea m v).mm m).mmapList, UserRange w.vmStart w.vmEnd := by
      intro w hw
      rcases (hmem w).mp hw with rfl | hw
      · rw [hstart, hstop]
        exact hrange
      · exact hspace.ranges w hw
    have hold : ∀ w ∈ (s₁.mm m).mmapList, w ∈ ((s₁.insertArea m v).mm m).mmapList := fun w hw => (hmem w).mpr (Or.inr hw)
    refine ⟨v, harea, hspace.ofAreas hareas' hok hold hranges, (hareas.trans hareas').grows l, fun w => ?_, ?_,
      fun x hx hxd hhas => ?_⟩
    · rw [hmem, hmm]
    · exact hranges v ((hmem v).mpr (Or.inl rfl))
    · refine hspace.absent_of_not_mem hareas' hok hold ((hmem v).mpr (Or.inl rfl)) (not_mem_of_placeArea hplaced) hx ?_ hhas
      rw [hmm, hxd]

theorem mmMap_eq (al : Allocs) (m addr len : ℕ) (flags : BitVec 32) : mmMap al m addr len flags =
    (if ¬ UserAccess (areaStart addr) (areaEnd addr len) then
      Prog.throw .inval
    else do
      match ← findVma m (areaStart addr) with
      | some v => if areaEnd addr len > v.vmStart then Prog.throw .inval else mmMapNew al m (areaStart addr) (areaEnd addr len) flags
      | none => mmMapNew al m (areaStart addr) (areaEnd addr len) flags) := rfl

theorem Layout.Mapped.after (h : l.Mapped m v s₁ s') (hareas : OnlyAreas m s s₁)
    (hlist : (s₁.mm m).mmapList = (s.mm m).mmapList) : l.Mapped m v s s' :=
  ⟨h.space, (hareas.grows l).trans h.grows, fun w => by rw [h.areas, hlist], h.range,
    fun x hx hxd => h.absent x hx (by rw [hareas.pgdir, hxd])⟩

/-- `find_vma` keeps the invariant. -/
theorem Layout.Space.find (h : l.Space s m) (addr : ℕ) : l.Space (s.foundArea m (areaAt (s.mm m).mmapList addr)) m ∧
    OnlyAreas m s (s.foundArea m (areaAt (s.mm m).mmapList addr)) := by
  have hfound : OnlyAreas m s (s.foundArea m (areaAt (s.mm m).mmapList addr)) := by
    have hpost := onlyAreas_findVma (m := m) addr s
    rwa [findVma_run h.mm] at hpost
  refine ⟨h.ofAreas hfound h.mm.find (fun v hv => ?_) fun v hv => ?_, hfound⟩
  · rwa [mmapList_foundArea]
  · rw [mmapList_foundArea] at hv
    exact h.ranges v hv

/-- **`mm_map`** adds an area, or it returns an error code. -/
theorem mmMap_post (al : Allocs) (h : l.Space s m) (addr len : ℕ) (flags : BitVec 32) :
    ((mmMap al m addr len flags).run s).Post
      (fun _ s' => ∃ v, v.area = (areaStart addr, areaEnd addr len, flags) ∧ l.Mapped m v s s')
      (fun _ s' => l.Space s' m ∧ l.Grows m s s') fun _ => True := by
  rw [mmMap_eq, Prog.run_ite]
  split_ifs with haccess
  · have hrange : UserRange (areaStart addr) (areaEnd addr len) :=
      ⟨Nat.mul_mod_left _ _, Nat.mul_mod_left _ _, haccess⟩
    obtain ⟨hspace, hfound⟩ := h.find (areaStart addr)
    have hnew : ((mmMapNew al m (areaStart addr) (areaEnd addr len) flags).run
        (s.foundArea m (areaAt (s.mm m).mmapList (areaStart addr)))).Post
        (fun _ s' => ∃ v, v.area = (areaStart addr, areaEnd addr len, flags) ∧ l.Mapped m v s s')
        (fun _ s' => l.Space s' m ∧ l.Grows m s s') fun _ => True := by
      refine (mmMapNew_post al hspace hrange flags).mono ?_ (fun _ _ h' => ⟨h'.1, (hfound.grows l).trans h'.2⟩) fun _ h' => h'
      rintro _ s' ⟨v, harea, hmapped⟩
      exact ⟨v, harea, hmapped.after hfound (mmapList_foundArea _ _)⟩
    rw [Prog.bind_of_ok (findVma_run h.mm)]
    cases hat : areaAt (s.mm m).mmapList (areaStart addr) with
    | none =>
      rw [hat] at hnew
      exact hnew
    | some w =>
      rw [hat] at hnew hspace hfound
      show Outcome.Post _ _ _ (Prog.run (if _ > _ then _ else _) _)
      rw [Prog.run_ite]
      split_ifs
      · exact ⟨hspace, hfound.grows l⟩
      · exact hnew
  · exact ⟨h, .refl l m s⟩

/-! ### Pages are added -/

theorem Layout.Frame.grows (hframe : l.Frame s s') (hgrown : Grown s s')
    (hpte : ∀ x ∈ l.slots, x.dir ≠ (s.mm m).pgdir ∨ (s.pte x).present = true → s'.pte x = s.pte x)
    (hpde : ∀ d ∈ l.dirs, d ≠ (s.mm m).pgdir → ∀ i, s'.entry d i = s.entry d i) : l.Grows m s s' := by
  have honly := hframe.only
  exact ⟨⟨⟨fun x hx hne => hpte x hx (Or.inl hne), hpde, hframe.entry, hgrown.free, hgrown.ref,
    fun m' _ => by rw [honly.mm], by rw [honly.mm], honly.bootPgdir, Nat.le_of_eq honly.freshBlock.symm⟩, by rw [honly.mm]⟩,
    fun x hx hpresent => hpte x hx (Or.inr hpresent), hgrown.byte⟩

namespace Layout.Space

/-- Pages of the address space are as they were, or they are new and under an area. -/
theorem ofPages (h : l.Space s m) (hok : l.Ok s') (hmm : s'.mm = s.mm) (hgrown : Grown s s')
    (hpages : ∀ x ∈ l.slots, x.dir = (s.mm m).pgdir → s'.pte x = s.pte x ∨ (s'.pageRef (s'.pte x).ppn = 1 ∧
      ∃ v ∈ (s.mm m).mmapList, v.Has x.addr ∧ (s'.pte x).flags = pteP ||| v.perm))
    (htables : ∀ i < l.top, s'.entry (s.mm m).pgdir i = s.entry (s.mm m).pgdir i ∨
      ∃ v ∈ (s.mm m).mmapList, ∃ a, v.Has a ∧ pdx a = i) : l.Space s' m := by
  refine ⟨⟨hok, ?_, ?_, ?_, fun x hx hxd hpresent => ?_, fun i hi hpresent => ?_⟩, ?_, fun x hx hxd hpresent v hv hhas => ?_,
    fun x hx hxd hpresent => ?_⟩ <;> rw [hmm] at *
  · exact h.dir
  · exact h.areas
  · exact h.ranges
  · rcases hpages x hx hxd with hsame | ⟨-, v, hv, hhas, -⟩
    · rw [hsame] at hpresent
      exact h.pages x hx hxd hpresent
    · exact ⟨v, hv, hhas⟩
  · rcases htables i hi with hsame | hnew
    · rw [hsame] at hpresent
      exact h.tables i hi hpresent
    · exact hnew
  · exact h.mm
  · rcases hpages x hx hxd with hsame | ⟨-, w, hw, hhas', hflags⟩
    · rw [hsame] at hpresent ⊢
      exact h.flags x hx hxd hpresent v hv hhas
    · rw [h.areas.eq_of_mem hv hw hhas hhas', hflags]
  · rcases hpages x hx hxd with hsame | ⟨href, -⟩
    · rw [hsame] at hpresent ⊢
      rw [hgrown.ref _ (h.ok.named hx (Pte.page_of_present hpresent)).2.2]
      exact h.refs x hx hxd hpresent
    · exact href

theorem same (h : l.Space s m) (hsame : l.Same s s') : l.Space s' m ∧ l.Grows m s s' :=
  ⟨h.ofPages hsame.ok hsame.frame.only.mm hsame.grown (fun x hx _ => Or.inl (hsame.pte x hx))
    fun i _ => Or.inl (hsame.pde _ h.dir i),
    hsame.frame.grows hsame.grown (fun x hx _ => hsame.pte x hx) fun d hd _ => hsame.pde d hd⟩

/-- A page table has been made for an address of an area. -/
theorem tabled (h : l.Space s m) (hv : v ∈ (s.mm m).mmapList) (hhas : v.Has la)
    (htabled : l.Tabled (s.mm m).pgdir (pdx la) t s s') : l.Space s' m ∧ l.Grows m s s' := by
  refine ⟨h.ofPages htabled.ok htabled.frame.only.mm htabled.grown (fun x hx _ => Or.inl (htabled.pte x hx)) fun i _ => ?_,
    htabled.frame.grows htabled.grown (fun x hx _ => htabled.pte x hx) fun d hd hne i => ?_⟩
  · by_cases hi : i = pdx la
    · exact Or.inr ⟨v, hv, la, hhas, hi.symm⟩
    · exact Or.inl (htabled.pde _ h.dir i fun hand => hi hand.2)
  · exact htabled.pde d hd i fun hand => hne hand.1

/-- A page has been mapped at an address of an area. -/
theorem added {perm : BitVec 12} (h : l.Space s m) (hv : v ∈ (s.mm m).mmapList) (hhas : v.Has la) (halign : la % pageSize = 0)
    (hflags : pteP ||| perm = pteP ||| v.perm) (habsent : (s.pte (slotOf (s.mm m).pgdir la)).present = false)
    (hadded : l.Added (slotOf (s.mm m).pgdir la) page ⟨page, pteP ||| perm⟩ s s') :
    l.Space s' m ∧ l.Grows m s s' := by
  have hnone : (s.pte (slotOf (s.mm m).pgdir la)).page = none := Pte.page_eq_none.mpr habsent
  have hgrown := hadded.grown hnone
  have hword : la < 2 ^ 32 := by
    have hstop := (h.ranges v hv).access.2.2
    have hlt := hhas.2
    unfold userTop at hstop
    omega
  refine ⟨h.ofPages hadded.ok hadded.frame.only.mm hgrown (fun x hx _ => ?_) fun i _ => ?_,
    hadded.frame.grows hgrown (fun x hx hor => ?_) fun d hd hne i => ?_⟩
  · by_cases heq : x = slotOf (s.mm m).pgdir la
    · have hpte : s'.pte x = ⟨page, pteP ||| perm⟩ := by rw [hadded.pte x hx, if_pos heq]
      have haddr : x.addr = la := by rw [heq, addr_slotOf halign hword]
      rw [hpte]
      exact Or.inr ⟨hadded.ref hnone, v, hv, by rwa [haddr], hflags⟩
    · exact Or.inl (by rw [hadded.pte x hx, if_neg heq])
  · by_cases hi : i = pdx la
    · exact Or.inr ⟨v, hv, la, hhas, hi.symm⟩
    · exact Or.inl (hadded.pde _ h.dir i fun hand => hi hand.2)
  · rw [hadded.pte x hx, if_neg]
    rintro rfl
    rcases hor with hne | hpresent
    · exact hne rfl
    · rw [habsent] at hpresent
      cases hpresent
  · exact hadded.pde d hd i fun hand => hne hand.1

end Layout.Space

/-! ### `do_pgfault` -/

/-- The page of an address of an area is in the area. -/
theorem Vma.Has.floor (h : v.Has addr) (hrange : UserRange v.vmStart v.vmEnd) : v.Has (addr / pageSize * pageSize) := by
  have hpage := (has_page_iff hrange addr).mpr h
  rwa [Nat.mul_comm] at hpage

theorem slotOf_floor (d la : ℕ) : slotOf d (la / pageSize * pageSize) = slotOf d la := by
  unfold slotOf pdx ptx pageSize ptSize
  congr 1 <;> omega

/-- **`do_pgfault`** keeps the invariant. It panics when it is called for an address that is mapped, unless the area does not
allow what has been tried. -/
theorem doPgfault_post (al : Allocs) (h : l.Space s m) (htop : userTop ≤ ptSize * l.top) (code addr : ℕ) :
    ((doPgfault al m code addr).run s).Post (fun _ s' => l.Space s' m ∧ l.Grows m s s')
      (fun _ s' => l.Space s' m ∧ l.Grows m s s')
      fun p => p = .pgfaultPresent ∧ (∃ v ∈ (s.mm m).mmapList, v.Has addr ∧ v.Allows code) ∧
        (s.pte (slotOf (s.mm m).pgdir addr)).present = true := by
  obtain ⟨hspace, hareas⟩ := h.find addr
  have hgrows := hareas.grows l
  unfold doPgfault
  rw [Prog.bind_of_ok (findVma_run h.mm)]
  cases hat : areaAt (s.mm m).mmapList addr with
  | none =>
    rw [hat] at hspace hgrows
    exact ⟨hspace, hgrows⟩
  | some v =>
    rw [hat] at hspace hgrows
    obtain ⟨hv, hhas⟩ := (areaAt_eq_some_iff h.areas).mp hat
    have hv₁ : v ∈ ((s.foundArea m (some v)).mm m).mmapList := by rwa [mmapList_foundArea]
    have hla : v.Has (addr / pageSize * pageSize) := hhas.floor (h.ranges v hv)
    have hlt : addr / pageSize * pageSize < userTop := Nat.lt_of_lt_of_le hla.2 (h.ranges v hv).access.2.2
    have hslot : slotOf (s.mm m).pgdir (addr / pageSize * pageSize) = slotOf (s.mm m).pgdir addr := slotOf_floor _ _
    obtain ⟨s₁, hs₁⟩ : ∃ s₁, s.foundArea m (some v) = s₁ := ⟨_, rfl⟩
    rw [hs₁] at hspace hgrows hv₁ ⊢
    show Outcome.Post _ _ _ (Prog.run (if _ ∨ _ then _ else _) _)
    rw [Prog.run_ite]
    split_ifs with hbad
    · exact ⟨hspace, hgrows⟩
    · obtain ⟨-, hallows⟩ := not_or.mp hbad
      rw [Prog.run_bind, Prog.run_get, Outcome.andThen_ok]
      refine Outcome.post_bind.mpr ((getPte_post al hspace.ok hspace.dir (pdx_lt_top hlt htop)).mono ?_ (fun _ _ hf => hf.elim)
        fun _ hf => hf.elim)
      rintro r s₂ (⟨rfl, rfl⟩ | ⟨t, rfl, htabled⟩)
      · obtain ⟨hspace₂, hgrows₂⟩ := hspace.same hspace.ok.same_refused
        exact ⟨hspace₂, hgrows.trans hgrows₂⟩
      · obtain ⟨hspace₂, hgrows₂⟩ := hspace.tabled hv₁ hla htabled
        have hx : slotOf (s₁.mm m).pgdir (addr / pageSize * pageSize) ∈ l.slots :=
          slotOf_mem_slots hspace.dir (pdx_lt_top hlt htop)
        have hentry : s₂.entry t (ptx (addr / pageSize * pageSize)) =
            s₂.pte (slotOf (s₁.mm m).pgdir (addr / pageSize * pageSize)) :=
          (Layout.TableAt.pte (x := slotOf (s₁.mm m).pgdir (addr / pageSize * pageSize)) htabled.table).symm
        show Outcome.Post _ _ _ (Prog.run (Prog.get >>= _) s₂)
        rw [Prog.run_bind, Prog.run_get, Outcome.andThen_ok, hentry, Prog.run_ite]
        have hpgdir : (s₂.mm m).pgdir = (s₁.mm m).pgdir := hgrows₂.pgdir
        split_ifs with hzero hpresent
        · have hv₂ : v ∈ (s₂.mm m).mmapList := by rwa [htabled.frame.only.mm]
          have habsent : (s₂.pte (slotOf (s₂.mm m).pgdir (addr / pageSize * pageSize))).present = false := by
            rw [hpgdir, hzero, Pte.present_zero]
          have halloc := pgdirAllocPage_post al hspace₂.ok (d := (s₂.mm m).pgdir) (by rwa [hpgdir]) v.perm
          refine Outcome.post_bind.mpr (halloc.mono ?_ (fun _ _ hf => hf.elim) fun _ hf => hf.elim)
          rintro r s₃ (⟨rfl, hsame⟩ | ⟨page, rfl, hadded⟩)
          · obtain ⟨hspace₃, hgrows₃⟩ := hspace₂.same hsame
            exact ⟨hspace₃, (hgrows.trans hgrows₂).trans hgrows₃⟩
          · obtain ⟨hspace₃, hgrows₃⟩ := hspace₂.added hv₂ hla (Nat.mul_mod_left _ _) rfl habsent hadded
            exact ⟨hspace₃, (hgrows.trans hgrows₂).trans hgrows₃⟩
        · refine ⟨rfl, ⟨v, hv, hhas, not_not.mp hallows⟩, ?_⟩
          have hpte : s₁.pte (slotOf (s₁.mm m).pgdir (addr / pageSize * pageSize)) = s.pte (slotOf (s.mm m).pgdir addr) := by
            obtain ⟨-, -, hsame, -⟩ := hareas.pages
            rw [hat, hs₁] at hsame
            rw [hgrows.pgdir, hslot]
            exact pte_congr (by rw [hsame]) fun _ => by rw [hsame]
          rw [htabled.pte _ hx, hpte] at hpresent
          exact hpresent
        · exact ⟨hspace₂, hgrows.trans hgrows₂⟩

end Ucore.Vm
