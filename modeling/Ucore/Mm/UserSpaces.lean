import Ucore.Mm.SpaceCopies
import Ucore.Mm.LoadProgram
import Mathlib.Tactic.Common

/-!
# The address spaces of a machine

* `Layout.Machine` is the invariant of a machine with the address spaces `live`: each of them is as `Layout.Space` says, and
  no two have a page directory in common.
* `mm_create`, `setup_pgdir`, `exit_mmap` with `put_pgdir` and `mm_destroy`, `load_icode`, `copy_mm` and `do_pgfault` keep it.
-/

namespace Ucore.Vm

open Ucore.Lib

variable {s s₁ s' : VmState} {m m' d page : ℕ} {l l' : Layout} {live : List ℕ} {file : ExecFile}

/-- `KERNBASE` -/
def kernBase : ℕ := 0xC0000000

/-- The address spaces `live` are in use. -/
structure Layout.Machine (l : Layout) (live : List ℕ) (s : VmState) : Prop where
  ok : l.Ok s
  boots : l.Boots s
  top : ptSize * l.top = kernBase
  spaces : ∀ m ∈ live, l.Space s m
  inj : ∀ m ∈ live, ∀ m' ∈ live, (s.mm m).pgdir = (s.mm m').pgdir → m = m'
  fresh : ∀ m ∈ live, m < s.freshBlock

theorem tops_of_top (h : ptSize * l.top = kernBase) : l.Tops := by
  refine ⟨?_, ?_⟩ <;> unfold kernBase ptSize at h
  · unfold userTop ptSize
    omega
  · unfold pdxVpt
    omega

/-- An address space under another layout, or in another state, when its own slots have not changed. -/
theorem Layout.Space.transfer (h : l.Space s m) (hok : l'.Ok s') (htop : l'.top = l.top) (hdir : (s.mm m).pgdir ∈ l'.dirs)
    (hmm : s'.mm m = s.mm m) (hpde : ∀ i, s'.entry (s.mm m).pgdir i = s.entry (s.mm m).pgdir i)
    (hpte : ∀ x ∈ l.slots, x.dir = (s.mm m).pgdir → s'.pte x = s.pte x)
    (href : ∀ x ∈ l.slots, x.dir = (s.mm m).pgdir → (s.pte x).present = true →
      s'.pageRef (s.pte x).ppn = s.pageRef (s.pte x).ppn) : l'.Space s' m := by
  have hold : ∀ x ∈ l'.slots, x.dir = (s.mm m).pgdir → x ∈ l.slots := fun x hx hxd =>
    Layout.mem_slots.mpr ⟨hxd ▸ h.dir, htop ▸ (Layout.mem_slots.mp hx).2.1, (Layout.mem_slots.mp hx).2.2⟩
  refine ⟨⟨hok, ?_, ?_, ?_, ?_, ?_⟩, ?_, ?_, ?_⟩ <;> rw [hmm]
  · exact hdir
  · exact h.areas
  · exact h.ranges
  · intro x hx hxd hpresent
    rw [hpte x (hold x hx hxd) hxd] at hpresent
    exact h.pages x (hold x hx hxd) hxd hpresent
  · intro i hi hpresent
    rw [hpde] at hpresent
    exact h.tables i (htop ▸ hi) hpresent
  · exact h.mm
  · intro x hx hxd hpresent
    rw [hpte x (hold x hx hxd) hxd] at hpresent ⊢
    exact h.flags x (hold x hx hxd) hxd hpresent
  · intro x hx hxd hpresent
    rw [hpte x (hold x hx hxd) hxd] at hpresent ⊢
    rw [href x (hold x hx hxd) hxd hpresent]
    exact h.refs x (hold x hx hxd) hxd hpresent

namespace Layout.Machine

theorem tops (h : l.Machine live s) : l.Tops := tops_of_top h.top

/-- Only blocks have changed, and address spaces that are not in use. -/
theorem congr (h : l.Machine live s) (hfree : s'.free = s.free) (href : s'.pageRef = s.pageRef) (hentry : s'.entry = s.entry)
    (hmm : ∀ m ∈ live, s'.mm m = s.mm m) (hboot : s'.bootPgdir = s.bootPgdir) (hfresh : s.freshBlock ≤ s'.freshBlock) :
    l.Machine live s' := by
  refine ⟨h.ok.congr hfree href hentry, ⟨?_, ?_, fun i hi => ?_, h.boots.top⟩, h.top,
    fun m hm => (h.spaces m hm).congr hfree href hentry (hmm m hm), fun m hm m' hm' heq => ?_,
    fun m hm => Nat.lt_of_lt_of_le (h.fresh m hm) hfresh⟩
  · rw [hboot]
    exact h.boots.kept
  · rw [hboot]
    exact h.boots.dir
  · rw [hboot, hentry]
    exact h.boots.empty i hi
  · rw [hmm m hm, hmm m' hm'] at heq
    exact h.inj m hm m' hm' heq

/-- One of the address spaces has changed. -/
theorem beside (h : l.Machine live s) (hm : m ∈ live) (hspace : l.Space s' m) (hbeside : l.Beside m s s') :
    l.Machine live s' := by
  have hpgdir : ∀ k, (s'.mm k).pgdir = (s.mm k).pgdir := by
    intro k
    by_cases hk : k = m
    · rw [hk, hbeside.pgdir]
    · rw [hbeside.mm k hk]
  refine ⟨hspace.ok, ⟨?_, ?_, fun i hi => ?_, h.boots.top⟩, h.top, fun k hk => ?_, fun k hk k' hk' heq => ?_,
    fun k hk => Nat.lt_of_lt_of_le (h.fresh k hk) hbeside.fresh⟩
  · rw [hbeside.boot]
    exact h.boots.kept
  · rw [hbeside.boot]
    exact h.boots.dir
  · rw [hbeside.boot, hbeside.kept _ h.boots.kept i fun hmem => (h.boots.dir hmem).elim]
    exact h.boots.empty i hi
  · by_cases heq : k = m
    · exact heq ▸ hspace
    · exact (h.spaces k hk).other hbeside hspace.ok heq fun hdir => heq (h.inj k hk m hm hdir)
  · rw [hpgdir, hpgdir] at heq
    exact h.inj k hk k' hk' heq

/-- `setup_pgdir` has made a page directory for a new address space. -/
theorem addDir (h : l.Machine live s) (hm : m ∉ live) (hfresh : m < s.freshBlock) (hnew : (s.mm m).New) (hpage : page ∈ s.free)
    (hs' : s' = (s.withDir page).setMm m fun d => { d with pgdir := page }) : (l.addDir page).Machine (m :: live) s' := by
  have htaken := h.ok.take hpage
  have hdir : page ∉ l.dirs := h.ok.free_not_dir hpage
  have hkept : ¬ l.kept page := fun hk => (h.ok.taken (Or.inl hk)).1 hpage
  have hok : (l.addDir page).Ok s' := (h.ok.addDir h.boots hpage).congr (by rw [hs']; rfl) (by rw [hs']; rfl) (by rw [hs']; rfl)
  have hentry : ∀ p, p ≠ page → s'.entry p = s.entry p := fun p hp => by
    rw [hs']
    exact entry_withDir_of_ne hp
  have hself : s'.mm m = { s.mm m with pgdir := page } := by
    rw [hs']
    exact Function.update_self _ _ _
  have hother : ∀ k, k ≠ m → s'.mm k = s.mm k := fun k hk => by
    rw [hs']
    exact Function.update_of_ne hk _ _
  have hempty : ∀ i < l.top, (s'.entry page i).present = false := fun i hi => by
    rw [hs']
    exact h.boots.empty_withDir hi
  have hlive : ∀ k ∈ live, k ≠ m := fun k hk heq => hm (heq ▸ hk)
  have hpgdir : ∀ k ∈ live, (s.mm k).pgdir ≠ page := fun k hk heq => hdir (heq ▸ (h.spaces k hk).dir)
  have hboot : s'.bootPgdir = s.bootPgdir := by
    rw [hs']
    rfl
  refine ⟨hok, ⟨?_, ?_, fun i hi => ?_, h.boots.top⟩, h.top, fun k hk => ?_, fun k hk k' hk' heq => ?_, fun k hk => ?_⟩
  · rw [hboot]
    exact Or.inr h.boots.kept
  · rw [hboot]
    refine fun hmem => (List.mem_cons.mp hmem).elim (fun heq => hkept (heq ▸ h.boots.kept)) h.boots.dir
  · rw [hboot, hentry _ fun heq => hkept (heq ▸ h.boots.kept)]
    exact h.boots.empty i hi
  · rcases List.mem_cons.mp hk with rfl | hk
    · have hnone : ∀ x ∈ (l.addDir page).slots, x.dir = page → (s'.pte x).present = false := fun x hx hxd => by
        rw [pte_of_absent (by rw [hxd]; exact hempty x.pde (Layout.mem_slots.mp hx).2.1), Pte.present_zero]
      obtain ⟨hnil, hcache, hcount⟩ := hnew
      refine ⟨⟨hok, ?_, ?_, ?_, ?_, ?_⟩, ?_, ?_, ?_⟩ <;> rw [hself]
      · exact List.mem_cons_self
      · show Areas (s.mm k).mmapList
        rw [hnil]
        exact Ranges.nil
      · show ∀ v ∈ (s.mm k).mmapList, _
        rw [hnil]
        exact fun v hv => (List.not_mem_nil hv).elim
      · exact fun x hx hxd hpresent => absurd hpresent (Bool.eq_false_iff.mp (hnone x hx hxd))
      · exact fun i hi hpresent => absurd hpresent (Bool.eq_false_iff.mp (hempty i hi))
      · exact MmStruct.New.ok ⟨hnil, hcache, hcount⟩
      · exact fun x hx hxd hpresent => absurd hpresent (Bool.eq_false_iff.mp (hnone x hx hxd))
      · exact fun x hx hxd hpresent => absurd hpresent (Bool.eq_false_iff.mp (hnone x hx hxd))
    · refine (h.spaces k hk).transfer hok rfl (List.mem_cons_of_mem page (h.spaces k hk).dir) (hother k (hlive k hk))
        (fun i => by rw [hentry _ (hpgdir k hk)]) (fun x hx hxd => ?_) fun _ _ _ _ => by rw [hs']; rfl
      exact htaken.pte_kept (s := s.taken page) (Or.inl rfl) hdir hentry hx
  · rcases List.mem_cons.mp hk with hk | hk <;> rcases List.mem_cons.mp hk' with hk' | hk'
    · rw [hk, hk']
    · rw [hk, hself, hother k' (hlive k' hk')] at heq
      exact (hpgdir k' hk' heq.symm).elim
    · rw [hk', hself, hother k (hlive k hk)] at heq
      exact (hpgdir k hk heq).elim
    · rw [hother k (hlive k hk), hother k' (hlive k' hk')] at heq
      exact h.inj k hk k' hk' heq
  · have hblock : s'.freshBlock = s.freshBlock := by
      rw [hs']
      rfl
    rw [hblock]
    rcases List.mem_cons.mp hk with rfl | hk
    · exact hfresh
    · exact h.fresh k hk

/-- The page directory of an address space without pages is freed. -/
theorem dropDir (h : l.Machine (m :: live) s) (hm : m ∉ live)
    (hempty : ∀ i < l.top, (s.entry (s.mm m).pgdir i).present = false) :
    (l.dropDir (s.mm m).pgdir).Machine live (s.freed (s.mm m).pgdir) := by
  have hdir : (s.mm m).pgdir ∈ l.dirs := (h.spaces m List.mem_cons_self).dir
  have hok := h.ok.dropDir hdir hempty
  have hmem : ∀ k ∈ live, k ∈ m :: live := fun k hk => List.mem_cons_of_mem m hk
  refine ⟨hok, ⟨⟨h.boots.kept, fun heq => h.boots.dir (heq ▸ hdir)⟩, fun hb => h.boots.dir (List.mem_of_mem_erase hb),
    h.boots.empty, h.boots.top⟩, h.top, fun k hk => ?_, fun k hk k' hk' => h.inj k (hmem k hk) k' (hmem k' hk'),
    fun k hk => h.fresh k (hmem k hk)⟩
  have hspace := h.spaces k (hmem k hk)
  have hne : (s.mm k).pgdir ≠ (s.mm m).pgdir := fun heq =>
    hm (h.inj k (hmem k hk) m List.mem_cons_self heq ▸ hk)
  refine hspace.transfer hok rfl ((List.mem_erase_of_ne hne).mpr hspace.dir) rfl (fun _ => rfl) (fun _ _ _ => rfl)
    fun x hx _ hpresent => ?_
  refine Function.update_of_ne (fun heq => ?_) _ _
  exact (h.ok.named hx (Pte.page_of_present hpresent)).1 (heq ▸ h.ok.dirs _ hdir)

end Layout.Machine

/-! ### The parts of `load_icode` and `copy_mm` -/

/-- An `mm_struct` that nobody uses yet. -/
structure Newborn (live : List ℕ) (s : VmState) (m : ℕ) : Prop where
  other : m ∉ live
  fresh : m < s.freshBlock
  new : (s.mm m).New
  count : (s.mm m).mmCount = 0

theorem mmCreate_machine (al : Allocs) (h : l.Machine live s) : ((mmCreate al).run s).Post
    (fun r s' => l.Machine live s' ∧ ∀ m, r = some m → Newborn live s' m) (fun _ _ => False) fun _ => False := by
  unfold mmCreate kmalloc
  rw [Prog.run_bind, Prog.run_bind, Prog.run_get, Outcome.andThen_ok, Prog.run_bind, Prog.run_modify, Outcome.andThen_ok,
    Prog.run_ite]
  split_ifs
  · exact ⟨h.congr rfl rfl rfl (fun _ _ => rfl) rfl (Nat.le_refl _), fun _ heq => by cases heq⟩
  · have hother : s.freshBlock ∉ live := fun hmem => Nat.lt_irrefl _ (h.fresh _ hmem)
    refine ⟨h.congr rfl rfl rfl (fun m hm => Function.update_of_ne (fun heq : m = s.freshBlock =>
      hother (heq ▸ hm)) _ _) rfl (Nat.le_succ _), ?_⟩
    rintro _ ⟨⟩
    refine ⟨hother, Nat.lt_succ_self _, ?_, ?_⟩
    · show MmStruct.New (Function.update s.mm s.freshBlock _ s.freshBlock)
      rw [Function.update_self]
      exact ⟨rfl, rfl, rfl⟩
    · show (Function.update s.mm s.freshBlock _ s.freshBlock).mmCount = 0
      rw [Function.update_self]

theorem setupPgdir_machine (al : Allocs) (h : l.Machine live s) (hm : Newborn live s m) : ((setupPgdir al m).run s).Post
    (fun _ s' => ∃ l' : Layout, l'.Machine (m :: live) s' ∧ (s'.mm m).New ∧ (s'.mm m).mmCount = 0 ∧
      ∀ i < l'.top, (s'.entry (s'.mm m).pgdir i).present = false)
    (fun _ s' => l.Machine live s' ∧ (s'.mm m).mmCount = 0) fun _ => False := by
  refine (setupPgdir_post al s m).mono ?_ ?_ fun _ hf => hf
  · rintro _ s' ⟨page, hpage, hs'⟩
    have hself : s'.mm m = { s.mm m with pgdir := page } := by
      rw [hs']
      exact Function.update_self _ _ _
    refine ⟨_, h.addDir hm.other hm.fresh hm.new hpage hs', ?_, ?_, ?_⟩ <;> rw [hself]
    · exact hm.new
    · exact hm.count
    · intro i hi
      rw [hs']
      exact h.boots.empty_withDir hi
  · rintro e s' ⟨-, rfl⟩
    exact ⟨h.congr rfl rfl rfl (fun _ _ => rfl) rfl (Nat.le_refl _), hm.count⟩

theorem kfreeAll_run (s : VmState) (areas : List Vma) :
    ∃ blocks, (kfreeAll areas).run s = .ok () { s with blocks := blocks } := by
  induction areas generalizing s with
  | nil => exact ⟨s.blocks, rfl⟩
  | cons v areas ih => exact ih { s with blocks := s.blocks.erase v.addr }

theorem mmDestroy_machine (h : l.Machine live s) (hm : m ∉ live) (hcount : (s.mm m).mmCount = 0) :
    ∃ s', (mmDestroy m).run s = .ok () s' ∧ l.Machine live s' := by
  obtain ⟨blocks, hfree⟩ := kfreeAll_run s (s.mm m).mmapList
  unfold mmDestroy
  rw [Prog.run_bind, Prog.run_get, Outcome.andThen_ok, Prog.bind_of_ok (Prog.run_assert_of _ _ hcount), Prog.bind_of_ok hfree]
  refine ⟨_, rfl, h.congr rfl rfl rfl (fun k hk => ?_) rfl (Nat.le_refl _)⟩
  exact Function.update_of_ne (fun heq : k = m => hm (heq ▸ hk)) _ _

theorem putPgdir_machine (h : l.Machine (m :: live) s) (hm : m ∉ live)
    (hempty : ∀ i < l.top, (s.entry (s.mm m).pgdir i).present = false) :
    ∃ s', (putPgdir m).run s = .ok () s' ∧ s'.mm = s.mm ∧ (l.dropDir (s.mm m).pgdir).Machine live s' :=
  ⟨_, rfl, rfl, (h.dropDir hm hempty).congr rfl rfl rfl (fun _ _ => rfl) rfl (Nat.le_refl _)⟩

/-- `exit_mmap` leaves an address space without pages. -/
theorem Layout.Machine.released (h : l.Machine (m :: live) s) (hm : m ∉ live) (hreleased : l.Released (s.mm m).pgdir s s') :
    l.Machine (m :: live) s' := by
  have hmm := hreleased.mm
  have hdir : (s.mm m).pgdir ∈ l.dirs := (h.spaces m List.mem_cons_self).dir
  have hself := h.spaces m List.mem_cons_self
  have hgone : ∀ x ∈ l.slots, x.dir = (s.mm m).pgdir → (s'.pte x).present = false := fun x hx hxd => by
    rw [pte_of_absent (by rw [hxd]; exact hreleased.empty x.pde (Layout.mem_slots.mp hx).2.1), Pte.present_zero]
  refine ⟨hreleased.ok, ⟨?_, ?_, fun i hi => ?_, h.boots.top⟩, h.top, fun k hk => ?_, ?_, ?_⟩
  · rw [hreleased.boot]
    exact h.boots.kept
  · rw [hreleased.boot]
    exact h.boots.dir
  · rw [hreleased.boot, hreleased.kept _ h.boots.kept h.boots.dir]
    exact h.boots.empty i hi
  · have hspace := h.spaces k hk
    by_cases heq : k = m
    · subst heq
      refine ⟨⟨hreleased.ok, ?_, ?_, ?_, ?_, ?_⟩, ?_, ?_, ?_⟩ <;> rw [hmm]
      · exact hself.dir
      · exact hself.areas
      · exact hself.ranges
      · exact fun x hx hxd hpresent => absurd hpresent (Bool.eq_false_iff.mp (hgone x hx hxd))
      · exact fun i hi hpresent => absurd hpresent (Bool.eq_false_iff.mp (hreleased.empty i hi))
      · exact hself.mm
      · exact fun x hx hxd hpresent => absurd hpresent (Bool.eq_false_iff.mp (hgone x hx hxd))
      · exact fun x hx hxd hpresent => absurd hpresent (Bool.eq_false_iff.mp (hgone x hx hxd))
    · have hne : (s.mm k).pgdir ≠ (s.mm m).pgdir := fun hdir => heq (h.inj k hk m List.mem_cons_self hdir)
      have hpte : ∀ x ∈ l.slots, x.dir = (s.mm k).pgdir → s'.pte x = s.pte x := fun x hx hxd =>
        hreleased.pte x hx fun hxd' => hne (hxd.symm.trans hxd')
      refine hspace.transfer hreleased.ok rfl hspace.dir (by rw [hmm]) (hreleased.others _ hspace.dir hne) hpte
        fun x hx hxd hpresent => ?_
      -- The page is still named once, so it has lost no reference.
      obtain ⟨hkept, htable, -⟩ := h.ok.named hx (Pte.page_of_present hpresent)
      have hpage : (s'.pte x).page = some (s.pte x).ppn := by rw [hpte x hx hxd, Pte.page_of_present hpresent]
      obtain ⟨hkept', htable', -⟩ := hreleased.ok.named hx hpage
      have hone := hspace.refs x hx hxd hpresent
      have hsum := hreleased.ref _ hkept htable
      have husers := (hreleased.ok.data hkept' htable').1
      have hpos := Layout.users_pos_of_named hx hpage
      omega
  · rw [hmm]
    exact h.inj
  · rw [hreleased.fresh]
    exact h.fresh

/-- **An address space is cleaned up.** -/
theorem cleanupMm_machine (al : Allocs) (h : l.Machine (m :: live) s) (hm : m ∉ live) (hcount : (s.mm m).mmCount = 0) :
    ∃ s', (cleanupMm al m).run s = .ok () s' ∧ ∃ l' : Layout, l'.Machine live s' := by
  obtain ⟨s₁, hexit, hreleased⟩ := exitMmap_post al (h.spaces m List.mem_cons_self).toCovered hcount h.tops.user
  have hmm := hreleased.mm
  obtain ⟨s₂, hput, hmm₂, hmachine⟩ := putPgdir_machine (h.released hm hreleased) hm (by rw [hmm]; exact hreleased.empty)
  obtain ⟨s', hdestroy, hmachine'⟩ := mmDestroy_machine hmachine hm (by rw [hmm₂, hmm, hcount])
  refine ⟨s', ?_, _, hmachine'⟩
  unfold cleanupMm
  rw [Prog.bind_of_ok hexit, Prog.bind_of_ok hput, hdestroy]

/-- The start of `load_icode` and of `copy_mm`: a new address space. -/
theorem newSpace_post (al : Allocs) (h : l.Machine live s) {α : Type} {k : ℕ → VmProg α} {Q : α → VmState → Prop}
    (hk : ∀ m l₁ s₁, m ∉ live → Layout.Machine l₁ (m :: live) s₁ → (s₁.mm m).New → (s₁.mm m).mmCount = 0 →
      (∀ i < l₁.top, (s₁.entry (s₁.mm m).pgdir i).present = false) →
      ((k m).run s₁).Post Q (fun _ s' => ∃ l' : Layout, l'.Machine live s') fun _ => True) :
    ((do
      match ← mmCreate al with
      | none => Prog.throw .noMem
      | some m =>
        match ← Prog.attempt (setupPgdir al m) with
        | .error _ => do
          mmDestroy m
          Prog.throw .noMem
        | .ok () => k m : VmProg α).run s).Post Q (fun _ s' => ∃ l' : Layout, l'.Machine live s') fun _ => True := by
  refine Outcome.post_bind.mpr ((mmCreate_machine al h).mono ?_ (fun _ _ hf => hf.elim) fun _ hf => hf.elim)
  rintro r s₁ ⟨hmachine, hnew⟩
  cases r with
  | none => exact ⟨l, hmachine⟩
  | some m =>
    have hborn := hnew m rfl
    refine Outcome.post_bind.mpr (Outcome.post_attempt.mpr ((setupPgdir_machine al hmachine hborn).mono ?_ ?_ fun _ hf => hf.elim))
    · rintro _ s₂ ⟨l₂, hmachine₂, hnew₂, hcount, hempty⟩
      exact hk m l₂ s₂ hborn.other hmachine₂ hnew₂ hcount hempty
    · rintro e s₂ ⟨hmachine₂, hcount⟩
      obtain ⟨s₃, hdestroy, hmachine₃⟩ := mmDestroy_machine hmachine₂ hborn.other hcount
      show Outcome.Post _ _ _ (Prog.run (mmDestroy m >>= fun _ => Prog.throw .noMem) s₂)
      rw [Prog.bind_of_ok hdestroy]
      exact ⟨l, hmachine₃⟩

/-! ### The programs -/

theorem readElfHdr_post (al : Allocs) (file : ExecFile) : ((readElfHdr al file).run s).Post
    (fun r s' => r = file.elfHdr ∧ Wrote 0 0 [] s s') (fun _ s' => Wrote 0 0 [] s s') fun _ => False := by
  unfold readElfHdr
  refine Outcome.post_bind.mpr ((loadIcodeRead_header al file _ _).mono ?_ (fun _ _ hwrote => hwrote) fun _ hf => hf)
  rintro _ s₁ ⟨rfl, hwrote⟩
  show Outcome.Post _ _ _ (Prog.run (if _ then _ else _) _)
  rw [Prog.run_ite]
  split_ifs
  · exact hwrote
  · exact ⟨rfl, hwrote⟩

/-- Reading a header changes nothing that counts. -/
theorem Layout.Machine.wrote (h : l.Machine live s) (hwrote : Wrote 0 0 [] s s') : l.Machine live s' :=
  h.congr hwrote.free hwrote.ref hwrote.entry (fun _ _ => by rw [hwrote.mm]) hwrote.boot hwrote.fresh

/-- **`load_icode`** makes an address space with the segments of the file and no other areas, and when it fails, it leaves none. -/
theorem loadIcode_post (al : Allocs) (h : l.Machine live s) (hsound : file.Sound file.elfHdr) {args : List (List UInt8)}
    (hargs : ArgsOk args) : ((loadIcode al file args).run s).Post
      (fun r s' => r.mm ∉ live ∧ (∃ l' : Layout, l'.Machine (r.mm :: live) s') ∧
        (∀ phnum < file.elfHdr.ePhnum, s'.Loads (s'.mm r.mm).pgdir file (file.progHdr file.elfHdr phnum)) ∧
        ∀ w ∈ (s'.mm r.mm).mmapList, w.area = stackArea ∨
          ∃ phnum < file.elfHdr.ePhnum, (file.progHdr file.elfHdr phnum).AreaIs w)
      (fun _ s' => ∃ l' : Layout, l'.Machine live s') fun _ => True := by
  unfold loadIcode
  refine newSpace_post al h fun m l₁ s₁ hm hmachine hnew hcount hempty => ?_
  refine Outcome.post_bind.mpr (Outcome.post_attempt.mpr ((readElfHdr_post al file).mono ?_ ?_ fun _ hf => hf.elim))
  · rintro _ s₂ ⟨rfl, hwrote⟩
    have hmachine₂ := hmachine.wrote hwrote
    have hcount₂ : (s₂.mm m).mmCount = 0 := by rw [hwrote.mm, hcount]
    have hspace₂ := hmachine₂.spaces m List.mem_cons_self
    refine Outcome.post_bind.mpr (Outcome.post_attempt.mpr ((loadAreas_post al file hmachine.tops hspace₂ hsound).mono ?_ ?_
      fun _ _ => trivial))
    · intro _ s₃ hprepared
      have hmachine₃ := hmachine₂.beside List.mem_cons_self hprepared.space hprepared.writes.toBeside
      refine ((finishLoad_post al hmachine.tops hprepared hargs).and (sameAreas_finishLoad al m _ args s₃)).mono ?_
        (fun _ _ hf => hf.1.elim) fun _ hf => hf.1
      rintro r s₄ ⟨⟨rfl, hfinished⟩, hareas⟩
      refine ⟨hm, ⟨l₁, hmachine₃.beside List.mem_cons_self hfinished.space hfinished.beside⟩, hfinished.segments, fun w hw => ?_⟩
      have hold : (s₂.mm r.mm).mmapList = [] := by
        rw [hwrote.mm]
        exact hnew.1
      rcases hprepared.areas w (hareas ▸ hw) with hw | hw
      · rw [hold] at hw
        cases hw
      · exact hw
    · rintro e s₃ ⟨hspace₃, hon⟩
      have hmachine₃ := hmachine₂.beside List.mem_cons_self hspace₃ hon.toBeside
      obtain ⟨s₄, hclean, l', hmachine₄⟩ := cleanupMm_machine al hmachine₃ hm (by rw [hon.count, hcount₂])
      show Outcome.Post _ _ _ (Prog.run (cleanupMm al m >>= fun _ => Prog.throw e) s₃)
      rw [Prog.bind_of_ok hclean]
      exact ⟨l', hmachine₄⟩
  · intro e s₂ hwrote
    have hmachine₂ := hmachine.wrote hwrote
    obtain ⟨s₃, hput, hmm, hmachine₃⟩ := putPgdir_machine hmachine₂ hm (by rw [hwrote.entry, hwrote.mm]; exact hempty)
    obtain ⟨s₄, hdestroy, hmachine₄⟩ := mmDestroy_machine hmachine₃ hm (by rw [hmm, hwrote.mm, hcount])
    show Outcome.Post _ _ _ (Prog.run (putPgdir m >>= fun _ => mmDestroy m >>= fun _ => Prog.throw e) s₂)
    rw [Prog.bind_of_ok hput, Prog.bind_of_ok hdestroy]
    exact ⟨_, hmachine₄⟩

/-- **`copy_mm`** makes a copy, and when it fails, it leaves none. -/
theorem copyMm_post (al : Allocs) (h : l.Machine live s) {src : ℕ} (hsrc : src ∈ live) : ((copyMm al src).run s).Post
    (fun m s' => m ∉ live ∧ ∃ l' : Layout, l'.Machine (m :: live) s') (fun _ s' => ∃ l' : Layout, l'.Machine live s')
    fun _ => True := by
  unfold copyMm
  refine newSpace_post al h fun m l₁ s₁ hm hmachine hnew hcount hempty => ?_
  have hmem : src ∈ m :: live := List.mem_cons_of_mem m hsrc
  have hne : src ≠ m := fun heq => hm (heq ▸ hsrc)
  have hchild := hmachine.spaces m List.mem_cons_self
  have hparent := hmachine.spaces src hmem
  have hdirs : (s₁.mm src).pgdir ≠ (s₁.mm m).pgdir := fun heq => hne (hmachine.inj src hmem m List.mem_cons_self heq)
  have hdup := dupMmap_space al hparent hchild.dir hdirs hne hmachine.tops.user hnew hempty
  refine Outcome.post_bind.mpr (Outcome.post_attempt.mpr (hdup.mono ?_ ?_ fun _ _ => trivial))
  · rintro _ s₂ ⟨hspace₂, hon⟩
    have hmachine₂ := hmachine.beside List.mem_cons_self hspace₂ hon.toBeside
    exact ⟨hm, l₁, hmachine₂.beside List.mem_cons_self (hspace₂.counted (· + 1)) (.counted l₁ m s₂ (· + 1))⟩
  · rintro e s₂ ⟨hspace₂, hon⟩
    have hmachine₂ := hmachine.beside List.mem_cons_self hspace₂ hon.toBeside
    obtain ⟨s₃, hclean, l', hmachine₃⟩ := cleanupMm_machine al hmachine₂ hm (by rw [hon.count, hcount])
    show Outcome.Post _ _ _ (Prog.run (cleanupMm al m >>= fun _ => Prog.throw e) s₂)
    rw [Prog.bind_of_ok hclean]
    exact ⟨l', hmachine₃⟩

/-! ### Page faults that the hardware can raise -/

/-- The error code of the page fault that an access raises, if it raises one: bit 0 when the page is there and the access is not
allowed, bit 1 for a write, bit 2 for user code. The kernel does not write to pages without `PTE_W` either. -/
def VmState.faultCode (s : VmState) (d la : ℕ) (write user : Bool) : Option ℕ :=
  let pde := s.entry d (pdx la)
  let pte := s.entry pde.ppn (ptx la)
  let bits := (if write then 2 else 0) + if user then 4 else 0
  if pde.present ∧ pte.present then
    if (write ∧ ¬ (pde.writable ∧ pte.writable)) ∨ (user ∧ ¬ (pde.user ∧ pte.user)) then some (1 + bits) else none
  else some bits

theorem Vma.user_perm (v : Vma) : (⟨page, pteP ||| v.perm⟩ : Pte).user = true := by
  show (pteP ||| v.perm).getLsbD 2 = true
  unfold Vma.perm
  split_ifs
  · decide
  · decide

theorem Vma.writable_perm (v : Vma) : (⟨page, pteP ||| v.perm⟩ : Pte).writable = true ↔ v.vmFlags &&& vmWrite ≠ 0 := by
  show (pteP ||| v.perm).getLsbD 1 = true ↔ _
  unfold Vma.perm
  split_ifs with h
  · exact ⟨fun _ => h, fun _ => by decide⟩
  · exact ⟨fun hbit => absurd hbit (by decide), fun hw => absurd hw h⟩

/-- **The pages agree with the areas**: each present entry for a user address is under one area, it is for user code, and it can be
written exactly when the area can. -/
structure VmState.Agrees (s : VmState) (m : ℕ) : Prop where
  area : ∀ la < kernBase, (s.pte (slotOf (s.mm m).pgdir la)).present = true → ∃ v ∈ (s.mm m).mmapList, v.Has la ∧
    (∀ w ∈ (s.mm m).mmapList, w.Has la → w = v) ∧ (s.pte (slotOf (s.mm m).pgdir la)).user = true ∧
    ((s.pte (slotOf (s.mm m).pgdir la)).writable = true ↔ v.vmFlags &&& vmWrite ≠ 0)

theorem Layout.Machine.agrees (h : l.Machine live s) (hm : m ∈ live) : s.Agrees m := by
  refine ⟨fun la hla hpresent => ?_⟩
  have hspace := h.spaces m hm
  have hx : slotOf (s.mm m).pgdir la ∈ l.slots := slotOf_mem_slots hspace.dir (pdx_lt_top hla (Nat.le_of_eq h.top.symm))
  obtain ⟨v, hv, hhas, hflags⟩ := hspace.flags_of_has hx rfl hpresent
  have hword : la < 2 ^ 32 := Nat.lt_trans hla (by decide)
  rw [addr_slotOf_floor hword] at hhas
  have hla' : v.Has la := (has_page_iff (hspace.ranges v hv) la).mp hhas
  refine ⟨v, hv, hla', fun w hw hwhas => hspace.areas.eq_of_mem hw hv hwhas hla', ?_, ?_⟩
  · rw [show s.pte (slotOf (s.mm m).pgdir la) = ⟨(s.pte (slotOf (s.mm m).pgdir la)).ppn, pteP ||| v.perm⟩ by rw [← hflags]]
    exact v.user_perm
  · rw [show s.pte (slotOf (s.mm m).pgdir la) = ⟨(s.pte (slotOf (s.mm m).pgdir la)).ppn, pteP ||| v.perm⟩ by rw [← hflags]]
    exact v.writable_perm

/-- **No page fault that the hardware raises makes `do_pgfault` panic.** -/
theorem Layout.Machine.fault_no_panic (al : Allocs) (h : l.Machine live s) (hm : m ∈ live) {la code : ℕ} {write user : Bool}
    (hcode : s.faultCode (s.mm m).pgdir la write user = some code) :
    ((doPgfault al m code la).run s).Post (fun _ s' => l.Machine live s') (fun _ s' => l.Machine live s') fun _ => False := by
  have hspace := h.spaces m hm
  refine (doPgfault_post al hspace h.tops.user code la).mono ?_ ?_ ?_
  · rintro _ s' ⟨hspace', hgrows⟩
    exact h.beside hm hspace' hgrows.toBeside
  · rintro _ s' ⟨hspace', hgrows⟩
    exact h.beside hm hspace' hgrows.toBeside
  · rintro p ⟨-, ⟨v, hv, hhas, hallows⟩, hpresent⟩
    have hla : la < kernBase :=
      Nat.lt_of_lt_of_le hhas.2 (Nat.le_trans (hspace.ranges v hv).access.2.2 (by decide))
    obtain ⟨w, -, -, honly, huser, hwrite⟩ := (h.agrees hm).area la hla hpresent
    rw [← honly v hv hhas] at hwrite
    have hown : pdx la < l.top := pdx_lt_top hla (Nat.le_of_eq h.top.symm)
    have hpde : (s.entry (s.mm m).pgdir (pdx la)).present = true := by
      refine Bool.eq_true_of_not_eq_false fun habsent => ?_
      have hzero : s.pte (slotOf (s.mm m).pgdir la) = .zero := pte_of_absent habsent
      rw [hzero, Pte.present_zero] at hpresent
      cases hpresent
    have hpte : s.pte (slotOf (s.mm m).pgdir la) = s.entry (s.entry (s.mm m).pgdir (pdx la)).ppn (ptx la) := pte_of_present hpde
    have hflags := hspace.ok.tableFlags ⟨hspace.dir, hown, hpde, rfl⟩
    have hpdeWritable : (s.entry (s.mm m).pgdir (pdx la)).writable = true := by
      unfold Pte.writable
      rw [hflags]
      decide
    have hpdeUser : (s.entry (s.mm m).pgdir (pdx la)).user = true := by
      unfold Pte.user
      rw [hflags]
      decide
    rw [hpte] at hpresent huser hwrite
    unfold VmState.faultCode at hcode
    dsimp only at hcode
    rw [if_pos ⟨hpde, hpresent⟩, hpdeWritable, hpdeUser, huser] at hcode
    -- The access is a write, and the page cannot be written.
    obtain ⟨rfl, hnot⟩ : write = true ∧ ¬ (s.entry (s.entry (s.mm m).pgdir (pdx la)).ppn (ptx la)).writable = true := by
      by_contra hallowed
      rw [if_neg] at hcode
      · cases hcode
      · rintro (⟨hw, hbad⟩ | ⟨-, hbad⟩)
        · exact hallowed ⟨hw, fun hpte => hbad ⟨rfl, hpte⟩⟩
        · exact hbad ⟨rfl, rfl⟩
    rw [if_pos (Or.inl ⟨rfl, fun hand => hnot hand.2⟩)] at hcode
    have hbits : code % 4 = 3 := by
      cases user <;> cases hcode <;> rfl
    have hvma : v.vmFlags &&& vmWrite ≠ 0 := by
      unfold Vma.Allows at hallows
      rwa [hbits, if_neg (by decide), if_neg (by decide)] at hallows
    exact hnot (hwrite.mpr hvma)

/-! ### Runs -/

/-- The address spaces that are in use, and memory. -/
structure SpaceConfig where
  live : List ℕ
  mem : VmState

/-- What happens to the address spaces: a program is loaded, a page fault is served, and an address space is copied. Each of
them may fail. -/
inductive SpaceStep (al : Allocs) : SpaceConfig → SpaceConfig → Prop
  | load {c : SpaceConfig} {file : ExecFile} {args : List (List UInt8)} {r : Loaded} {s' : VmState}
      (sound : file.Sound file.elfHdr) (argsOk : ArgsOk args) (run : (loadIcode al file args).run c.mem = .ok r s') :
      SpaceStep al c ⟨r.mm :: c.live, s'⟩
  | loadFails {c : SpaceConfig} {file : ExecFile} {args : List (List UInt8)} {e : VmError} {s' : VmState}
      (sound : file.Sound file.elfHdr) (argsOk : ArgsOk args) (run : (loadIcode al file args).run c.mem = .error e s') :
      SpaceStep al c ⟨c.live, s'⟩
  | fault {c : SpaceConfig} {m code la : ℕ} {s' : VmState} (mem : m ∈ c.live) (run : (doPgfault al m code la).run c.mem = .ok () s') :
      SpaceStep al c ⟨c.live, s'⟩
  | faultFails {c : SpaceConfig} {m code la : ℕ} {e : VmError} {s' : VmState} (mem : m ∈ c.live)
      (run : (doPgfault al m code la).run c.mem = .error e s') : SpaceStep al c ⟨c.live, s'⟩
  | copy {c : SpaceConfig} {src m : ℕ} {s' : VmState} (mem : src ∈ c.live) (run : (copyMm al src).run c.mem = .ok m s') :
      SpaceStep al c ⟨m :: c.live, s'⟩
  | copyFails {c : SpaceConfig} {src : ℕ} {e : VmError} {s' : VmState} (mem : src ∈ c.live)
      (run : (copyMm al src).run c.mem = .error e s') : SpaceStep al c ⟨c.live, s'⟩

/-- The invariant, for some layout. -/
def SpaceConfig.Ok (c : SpaceConfig) : Prop := ∃ l : Layout, l.Machine c.live c.mem

theorem SpaceStep.ok {al : Allocs} {c c' : SpaceConfig} (h : SpaceStep al c c') (hok : c.Ok) : c'.Ok := by
  obtain ⟨l, hmachine⟩ := hok
  cases h with
  | load sound argsOk run =>
    have hpost := loadIcode_post al hmachine sound argsOk
    rw [run] at hpost
    exact hpost.2.1
  | loadFails sound argsOk run =>
    have hpost := loadIcode_post al hmachine sound argsOk
    rw [run] at hpost
    exact hpost
  | @fault m code la s' mem run =>
    have hpost := doPgfault_post al (hmachine.spaces m mem) hmachine.tops.user code la
    rw [run] at hpost
    exact ⟨l, hmachine.beside mem hpost.1 hpost.2.toBeside⟩
  | @faultFails m code la e s' mem run =>
    have hpost := doPgfault_post al (hmachine.spaces m mem) hmachine.tops.user code la
    rw [run] at hpost
    exact ⟨l, hmachine.beside mem hpost.1 hpost.2.toBeside⟩
  | copy mem run =>
    have hpost := copyMm_post al hmachine mem
    rw [run] at hpost
    exact hpost.2
  | copyFails mem run =>
    have hpost := copyMm_post al hmachine mem
    rw [run] at hpost
    exact hpost

/-- **Page tables agree with areas.** In each state that loading, page faults and copies lead to, each page of an address space is
under one area, for user code, and writable exactly when the area is. So no page fault that the hardware raises there makes
`do_pgfault` panic. -/
theorem page_tables_agree (al : Allocs) {s₀ : VmState} {c : SpaceConfig} (h₀ : ∃ l : Layout, l.Machine [] s₀)
    (hrun : Relation.ReflTransGen (SpaceStep al) ⟨[], s₀⟩ c) {m : ℕ} (hm : m ∈ c.live) : c.mem.Agrees m ∧
    ∀ la code write user, c.mem.faultCode (c.mem.mm m).pgdir la write user = some code →
      ∀ p, (doPgfault al m code la).run c.mem ≠ .panic p := by
  obtain ⟨l, hmachine⟩ : c.Ok := invariant_of_step SpaceConfig.Ok hrun h₀ fun _ _ hok hstep => hstep.ok hok
  refine ⟨hmachine.agrees hm, fun la code write user hcode p hpanic => ?_⟩
  have hpost := hmachine.fault_no_panic al hm hcode
  rw [hpanic] at hpost
  exact hpost

/-- A memory without address spaces. -/
theorem start_machine {bootPgdir : ℕ} {free : List ℕ} (hnodup : free.Nodup) (hboot : bootPgdir ∉ free) :
    ∃ l : Layout, l.Machine [] (.start bootPgdir free) := by
  have h : Directories [] (kernBase / ptSize) (.start bootPgdir free) :=
    ⟨List.nodup_nil, hnodup, fun _ _ => rfl, fun _ hd => (List.not_mem_nil hd).elim, fun _ hd => (List.not_mem_nil hd).elim⟩
  have htop : kernBase / ptSize ≤ pdxVpt := by decide
  exact ⟨_, h.ok.ok, ⟨Or.inl hboot, List.not_mem_nil, fun _ _ => Pte.present_zero, htop⟩, rfl,
    fun _ hm => (List.not_mem_nil hm).elim, fun _ hm => (List.not_mem_nil hm).elim, fun _ hm => (List.not_mem_nil hm).elim⟩

/-- A file with an ELF header, and without program headers. -/
def emptyProgram : ExecFile := ⟨[0x7F, 0x45, 0x4C, 0x46] ++ List.replicate 48 0, fun _ => none⟩

/-- A program is loaded, and it uses a page of its stack more. -/
theorem page_tables_agree_fault : ∃ s₁ s₂,
    (loadIcode .firstFit emptyProgram []).run (.start 0 [1, 2, 3, 4, 5, 6, 7]) = .ok ⟨1, 0, userTop - 8⟩ s₁ ∧
    (doPgfault .firstFit 1 6 (userTop - 0x5000)).run s₁ = .ok () s₂ ∧ s₂.Agrees 1 := by
  obtain ⟨s₁, s₂, hload, hfault⟩ : ∃ s₁ s₂,
      (loadIcode .firstFit emptyProgram []).run (.start 0 [1, 2, 3, 4, 5, 6, 7]) = .ok ⟨1, 0, userTop - 8⟩ s₁ ∧
      (doPgfault .firstFit 1 6 (userTop - 0x5000)).run s₁ = .ok () s₂ := ⟨_, _, rfl, rfl⟩
  have hsound : emptyProgram.Sound emptyProgram.elfHdr := fun phnum hlt => absurd hlt (Nat.not_lt_zero phnum)
  have hargs : ArgsOk [] := ⟨Nat.zero_le _, fun _ h => (List.not_mem_nil h).elim⟩
  have hrun : Relation.ReflTransGen (SpaceStep .firstFit) ⟨[], .start 0 [1, 2, 3, 4, 5, 6, 7]⟩ ⟨[1], s₂⟩ :=
    (Relation.ReflTransGen.single (.load (c := ⟨[], _⟩) hsound hargs hload)).tail
      (.fault (c := ⟨[1], s₁⟩) List.mem_cons_self hfault)
  exact ⟨s₁, s₂, hload, hfault, (page_tables_agree .firstFit (start_machine (by decide) (by decide)) hrun List.mem_cons_self).1⟩

/-! ### The end of an address space, once more -/

/-- **`exit_mmap` releases an address space once.** An address space whose areas are of whole pages of user memory, without
overlaps, and whose pages and page tables are under areas, is released by `exit_mmap`. What a failed `dup_mmap` or a failed
`load_icode` leaves is such an address space. -/
theorem exit_mmap_releases (al : Allocs) :
    (∀ (l : Layout) (s : VmState) (m : ℕ), l.Covered s m → (s.mm m).mmCount = 0 → userTop ≤ ptSize * l.top →
      ∃ s', (exitMmap al m).run s = .ok () s' ∧ l.Released (s.mm m).pgdir s s') ∧
    (∀ (l : Layout) (live : List ℕ) (s s' : VmState) (src dst : ℕ) (e : VmError), l.Machine live s → src ∈ live → dst ∈ live →
      src ≠ dst → (s.mm dst).New → (s.mm dst).mmCount = 0 → (∀ i < l.top, (s.entry (s.mm dst).pgdir i).present = false) →
      (dupMmap al dst src).run s = .error e s' → l.Covered s' dst ∧ (s'.mm dst).mmCount = 0) ∧
    (∀ (l : Layout) (live : List ℕ) (s s' : VmState) (m : ℕ) (file : ExecFile) (elf : ElfHdr) (e : VmError), l.Machine live s → m ∈ live →
      (s.mm m).mmCount = 0 → file.Sound elf → (loadAreas al file m elf).run s = .error e s' →
      l.Covered s' m ∧ (s'.mm m).mmCount = 0) := by
  refine ⟨fun l s m hcovered hcount htop => exitMmap_post al hcovered hcount htop, ?_, ?_⟩
  · intro l live s s' src dst e h hsrc hdst hne hnew hcount hempty hrun
    have hdirs : (s.mm src).pgdir ≠ (s.mm dst).pgdir := fun heq => hne (h.inj src hsrc dst hdst heq)
    have hpost := dupMmap_space al (h.spaces src hsrc) (h.spaces dst hdst).dir hdirs hne h.tops.user hnew hempty
    rw [hrun] at hpost
    exact ⟨hpost.1.toCovered, by rw [hpost.2.count, hcount]⟩
  · intro l live s s' m file elf e h hm hcount hsound hrun
    have hpost := loadAreas_post al file h.tops (h.spaces m hm) hsound
    rw [hrun] at hpost
    exact ⟨hpost.1.toCovered, by rw [hpost.2.count, hcount]⟩

/-- The first of two address spaces, whose area has no pages yet. -/
theorem twoSpaces_space : (pageLayout [100, 101] 704 twoSpaces []).Space twoSpaces 1 := by
  have hnone : ∀ x, (twoSpaces.pte x).present = false := fun x => by
    rw [pte_of_absent (Pte.present_zero : (twoSpaces.entry x.dir x.pde).present = false), Pte.present_zero]
  have hmm : twoSpaces.mm 1 = ⟨[⟨9, 0x200000, 0x201000, 3⟩], none, 100, 1, 0⟩ := rfl
  have hareas : Areas (twoSpaces.mm 1).mmapList := ⟨by decide, by decide⟩
  refine ⟨⟨twoSpaces_ok, ?_, hareas, fun v hv => ?_, fun x _ _ hpresent => ?_, fun i _ hpresent => ?_⟩, ⟨hareas, rfl, fun v hv => ?_⟩,
    fun x _ _ hpresent => ?_, fun x _ _ hpresent => ?_⟩
  · rw [hmm]
    exact List.mem_cons_self
  · rw [hmm] at hv
    obtain rfl := List.mem_singleton.mp hv
    exact ⟨rfl, rfl, by decide⟩
  · exact absurd hpresent (Bool.eq_false_iff.mp (hnone x))
  · exact absurd hpresent (Bool.eq_false_iff.mp Pte.present_zero)
  · rw [hmm] at hv
    cases hv
  · exact absurd hpresent (Bool.eq_false_iff.mp (hnone x))
  · exact absurd hpresent (Bool.eq_false_iff.mp (hnone x))

/-- A page is mapped in an address space, and released again with it. -/
theorem exit_mmap_releases_one : ∃ s s', (pgdirAllocPage .firstFit 100 0x200000 7).run twoSpaces = .ok (some 1) s ∧
    (exitMmap .firstFit 1).run s = .ok () s' ∧ (pageLayout [100, 101] 704 twoSpaces []).Released (s.mm 1).pgdir s s' := by
  obtain ⟨s, hadd⟩ : ∃ s, (pgdirAllocPage .firstFit 100 0x200000 7).run twoSpaces = .ok (some 1) s := ⟨_, rfl⟩
  have hspace := twoSpaces_space
  have hx : slotOf 100 0x200000 ∈ (pageLayout [100, 101] 704 twoSpaces []).slots := mem_slots_of (by decide) (by decide)
  have hpost := pgdirAllocPage_post .firstFit twoSpaces_ok hx 7
  rw [hadd] at hpost
  obtain ⟨page, -, hadded⟩ := hpost.resolve_left fun hnone => by (cases hnone.1)
  have hmm : s.mm = twoSpaces.mm := hadded.frame.only.mm
  have hnone : (twoSpaces.pte (slotOf (twoSpaces.mm 1).pgdir 0x200000)).present = false := by
    rw [pte_of_absent (Pte.present_zero : (twoSpaces.entry _ _).present = false), Pte.present_zero]
  have hv : (⟨9, 0x200000, 0x201000, 3⟩ : Vma) ∈ (twoSpaces.mm 1).mmapList := List.mem_cons_self
  obtain ⟨hspace', -⟩ := hspace.added hv ⟨by decide, by decide⟩ (by decide) (by decide) hnone hadded
  obtain ⟨s', hrun, hreleased⟩ := (exit_mmap_releases .firstFit).1 _ s 1 hspace'.toCovered (by rw [hmm]; rfl) (by decide)
  exact ⟨s, s', hadd, hrun, hreleased⟩

end Ucore.Vm
