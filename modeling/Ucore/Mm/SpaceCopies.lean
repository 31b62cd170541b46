import Ucore.Mm.Spaces
import Mathlib.Tactic.Common

/-!
# The copy of an address space keeps the invariant

* `Beyond` is what a program on an address space does not touch because it is no page: the other address spaces, and
  `boot_pgdir`.
* `dupMmap_space` says that `dup_mmap` leaves an address space whose pages are under areas, with their permissions; also when
  it fails and has copied a part.
-/

namespace Ucore.Vm

open Ucore.Lib

variable {s s₁ s' : VmState} {m dst src : ℕ} {l : Layout} {R : ℕ → Prop}

/-! ### What is no page -/

/-- The areas of the address space `m`, pages, and blocks may have changed. -/
structure Beyond (m : ℕ) (s s' : VmState) : Prop where
  mm : ∀ m' ≠ m, s'.mm m' = s.mm m'
  pgdir : (s'.mm m).pgdir = (s.mm m).pgdir
  count : (s'.mm m).mmCount = (s.mm m).mmCount
  boot : s'.bootPgdir = s.bootPgdir
  fresh : s.freshBlock ≤ s'.freshBlock

instance : Std.Refl (Beyond m) := ⟨fun _ => ⟨fun _ _ => rfl, rfl, rfl, rfl, Nat.le_refl _⟩⟩

instance : IsTrans VmState (Beyond m) := ⟨fun _ _ _ h h' =>
  ⟨fun m' hm' => (h'.mm m' hm').trans (h.mm m' hm'), h'.pgdir.trans h.pgdir, h'.count.trans h.count, h'.boot.trans h.boot,
    Nat.le_trans h.fresh h'.fresh⟩⟩

theorem OnlyAreas.beyond (h : OnlyAreas m s s') : Beyond m s s' := ⟨h.mm, h.pgdir, h.count, h.boot, h.fresh⟩

theorem OnlyPages.beyond (h : OnlyPages s s') : Beyond m s s' :=
  ⟨fun m' _ => by rw [h.mm], by rw [h.mm], by rw [h.mm], h.bootPgdir, Nat.le_of_eq h.freshBlock.symm⟩

theorem beyond_dupLoop (al : Allocs) (dst src : ℕ) (areas : List Vma) :
    Within (Beyond dst) (fun _ => True) (dupLoop al dst src areas) := by
  induction areas with
  | nil => exact Within.pure _
  | cons vma areas ih =>
    have hcreate : Within (Beyond dst) (fun _ => True) (vmaCreate al vma.vmStart vma.vmEnd vma.vmFlags) := fun s =>
      (onlyAreas_vmaCreate al _ _ _ s).mono (fun _ _ h => h.beyond) (fun _ _ h => h.beyond) fun _ h => h
    have hinsert : ∀ v, Within (Beyond dst) (fun _ => True) (insertVmaStruct dst v) := fun v s =>
      (onlyAreas_insertVmaStruct v s).mono (fun _ _ h => h.beyond) (fun _ _ h => h.beyond) fun _ h => h
    have hcopy : ∀ d d' start stop, Within (Beyond dst) (fun _ => True) (copyRange al d d' start stop) := fun d d' start stop s =>
      (onPages_copyRange al d d' start stop s).mono (fun _ _ h => h.beyond) (fun _ _ h => h.beyond) fun _ _ => trivial
    unfold dupLoop
    refine Within.bind hcreate fun r => ?_
    cases r with
    | none => exact Within.throw _
    | some nvma => exact Within.bind (hinsert nvma) fun _ => Within.bind Within.get fun s => Within.bind (hcopy _ _ _ _) fun _ => ih

/-! ### `dup_mmap` -/

/-- The flags of an area, as the hardware reads them, are those of its copy. -/
theorem flags_copy (v : Vma) : pteP ||| ((pteP ||| v.perm) &&& pteUser) = pteP ||| v.perm := by
  unfold Vma.perm
  split_ifs
  · decide
  · decide

/-- The beginning of the list of areas may be missing in the copy. -/
theorem exists_copied {l' l₁ l₂ : List Vma} (hsplit : (s.mm src).mmapList = l₁ ++ l₂) (hmap : l'.map Vma.area = l₂.map Vma.area)
    {w : Vma} (hw : w ∈ l') : ∃ v ∈ (s.mm src).mmapList, v.area = w.area := by
  have hmem : w.area ∈ l₂.map Vma.area := hmap ▸ List.mem_map_of_mem hw
  obtain ⟨v, hv, harea⟩ := List.mem_map.mp hmem
  exact ⟨v, hsplit ▸ List.mem_append_right l₁ hv, harea⟩

theorem Vma.has_of_area {v w : Vma} (h : v.area = w.area) {a : ℕ} (hhas : w.Has a) : v.Has a := by
  have hstart : v.vmStart = w.vmStart := congrArg Prod.fst h
  have hstop : v.vmEnd = w.vmEnd := congrArg (fun a => a.2.1) h
  unfold Vma.Has at *
  rwa [hstart, hstop]

theorem Vma.perm_of_area {v w : Vma} (h : v.area = w.area) : v.perm = w.perm := by
  have hflags : v.vmFlags = w.vmFlags := congrArg (fun a => a.2.2) h
  unfold Vma.perm
  rw [hflags]

/-- **A copy, or a part of one, is an address space.** -/
theorem Layout.Dup.space {l' l₁ l₂ : List Vma} (hdup : l.Dup (s.mm dst).pgdir (s.mm src).pgdir R s s')
    (hparent : l.Space s src) (hchild : (s.mm dst).pgdir ∈ l.dirs) (hnew : (s.mm dst).New)
    (hset : AreasSet s s' dst l') (hsplit : (s.mm src).mmapList = l₁ ++ l₂)
    (hmap : l'.map Vma.area = l₂.map Vma.area) (hR : ∀ a, R a → ∃ w ∈ l', w.Has a) : l.Space s' dst := by
  have hmm : s'.mm dst = { s.mm dst with mmapList := l', mapCount := l'.length } := by
    rw [hset, Function.update_self]
  have hareas : Areas l' := by
    have hall := hparent.areas
    rw [hsplit] at hall
    refine hall.of_append.2.1.congr ?_
    have hends := congrArg (List.map fun a : ℕ × ℕ × BitVec 32 => (a.1, a.2.1)) hmap
    rwa [List.map_map, List.map_map] at hends
  have hin : ∀ x ∈ l.slots, x.dir = (s.mm dst).pgdir → (s'.pte x).present = true → R x.addr := by
    intro x hx hxd hpresent
    by_contra hnot
    rw [hdup.rest x hx hxd hnot] at hpresent
    cases hpresent
  have hcopy : ∀ x ∈ l.slots, x.dir = (s.mm dst).pgdir → (s'.pte x).present = true → ∃ page,
      (s.pte (x.inDir (s.mm src).pgdir)).present = true ∧
      s'.pte x = ⟨page, pteP ||| ((s.pte (x.inDir (s.mm src).pgdir)).flags &&& pteUser)⟩ ∧ s'.pageRef page = 1 := by
    intro x hx hxd hpresent
    have hat := hdup.done x hx hxd (hin x hx hxd hpresent)
    unfold CopyAt at hat
    split_ifs at hat with hthere
    · obtain ⟨page, -, hpte, -, href⟩ := hat
      exact ⟨page, hthere, hpte, href⟩
    · rw [hat] at hpresent
      cases hpresent
  refine ⟨⟨hdup.ok, ?_, ?_, ?_, ?_, ?_⟩, ?_, ?_, ?_⟩ <;> rw [hmm]
  · exact hchild
  · exact hareas
  · intro w hw
    obtain ⟨v, hv, harea⟩ := exists_copied hsplit hmap hw
    have hrange := hparent.ranges v hv
    rwa [show v.vmStart = w.vmStart from congrArg Prod.fst harea,
      show v.vmEnd = w.vmEnd from congrArg (fun a => a.2.1) harea] at hrange
  · exact fun x hx hxd hpresent => hR _ (hin x hx hxd hpresent)
  · intro i hi hpresent
    obtain ⟨a, ha, -, hpdx⟩ := hdup.tables i hi hpresent
    obtain ⟨w, hw, hhas⟩ := hR a ha
    exact ⟨w, hw, a, hhas, hpdx⟩
  · refine ⟨hareas, rfl, fun v hv => ?_⟩
    have hnone : (s.mm dst).mmapCache = some v := hv
    rw [hnew.2.1] at hnone
    cases hnone
  · intro x hx hxd hpresent w hw hhas
    obtain ⟨page, hthere, hpte, -⟩ := hcopy x hx hxd hpresent
    obtain ⟨v, hv, harea⟩ := exists_copied hsplit hmap hw
    have hflags := hparent.flags (x.inDir (s.mm src).pgdir) (Slot.inDir_mem hx hparent.dir) rfl hthere v hv
      (Vma.has_of_area harea hhas)
    rw [hpte, hflags, Vma.perm_of_area harea]
    show pteP ||| ((pteP ||| w.perm) &&& pteUser) = _
    rw [flags_copy]
  · intro x hx hxd hpresent
    obtain ⟨page, -, hpte, href⟩ := hcopy x hx hxd hpresent
    rw [hpte, href]

/-- **`dup_mmap`** makes an address space, and if it fails, it leaves one. -/
theorem dupMmap_space (al : Allocs) (hparent : l.Space s src) (hchild : (s.mm dst).pgdir ∈ l.dirs)
    (hdirs : (s.mm src).pgdir ≠ (s.mm dst).pgdir) (hne : src ≠ dst) (htop : userTop ≤ ptSize * l.top) (hnew : (s.mm dst).New)
    (hempty : ∀ i < l.top, (s.entry (s.mm dst).pgdir i).present = false) : ((dupMmap al dst src).run s).Post
      (fun _ s' => l.Space s' dst ∧ l.On dst s s') (fun _ s' => l.Space s' dst ∧ l.On dst s s') fun _ => True := by
  have hf : l.Forks (s.mm dst).pgdir (s.mm src).pgdir s := ⟨hparent.ok, hchild, hparent.dir, hdirs, htop⟩
  have hreverse : (s.mm src).mmapList.reverse.reverse ++ [] = (s.mm src).mmapList := by
    rw [List.reverse_reverse, List.append_nil]
  have hpages : ((dupMmap al dst src).run s).Post _ _ _ :=
    dupLoop_pages al hf (by rw [hreverse]; exact hparent.areas : Areas ((s.mm src).mmapList.reverse.reverse ++ []))
      ((hparent.ok.dup hempty).iff fun a => by simp) rfl rfl hne fun a ⟨v, hv, _⟩ => (List.not_mem_nil hv).elim
  have hbeyond : ((dupMmap al dst src).run s).Post _ _ _ := beyond_dupLoop al dst src (s.mm src).mmapList.reverse s
  have hon : ∀ {R s'}, l.Dup (s.mm dst).pgdir (s.mm src).pgdir R s s' → Beyond dst s s' → l.On dst s s' := fun hdup hbeyond =>
    ⟨⟨hdup.other, hdup.pde, hdup.entry, hdup.grown.free, hdup.grown.ref, hbeyond.mm, hbeyond.pgdir, hbeyond.boot,
      hbeyond.fresh⟩, hbeyond.count⟩
  refine ((hpages.and (dupMmap_areas al hparent.areas hnew.1 hnew.2.2)).and hbeyond).mono ?_ ?_ fun _ _ => trivial
  · rintro _ s' ⟨⟨⟨hdup, -⟩, l', hset, hmap⟩, hbeyond⟩
    rw [hreverse] at hdup
    refine ⟨hdup.space hparent hchild hnew hset (List.nil_append _).symm hmap fun a hR => ?_, hon hdup hbeyond⟩
    obtain ⟨v, hv, hhas⟩ := hR
    have hmem : v.area ∈ l'.map Vma.area := hmap ▸ List.mem_map_of_mem hv
    obtain ⟨w, hw, harea⟩ := List.mem_map.mp hmem
    exact ⟨w, hw, Vma.has_of_area harea hhas⟩
  · rintro _ s' ⟨⟨⟨R, hdup, hR⟩, l', l₁, l₂, hset, hsplit, hmap⟩, hbeyond⟩
    refine ⟨hdup.space hparent hchild hnew hset hsplit hmap fun a ha => ?_, hon hdup hbeyond⟩
    obtain ⟨w, hw, hhas⟩ := hR a ha
    rw [hset, Function.update_self] at hw
    exact ⟨w, hw, hhas⟩

end Ucore.Vm
