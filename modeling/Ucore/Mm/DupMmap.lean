import Ucore.Mm.PageRefs
import Ucore.Mm.VmaList
import Mathlib.Tactic.Common

/-!
# The copy of an address space

* `CopyAt` is what `copy_range` makes of one slot: a page of its own, with the bytes and the user flags of the page that
  is copied, or nothing where there was nothing.
* `Layout.Dup` is the invariant of the loops of `dup_mmap` and `copy_range`: the addresses that they have done are copied,
  the rest of the new page directory is empty, and nothing else has changed.
* `dup_mmap_copies` is the result.
-/

namespace Ucore.Vm

open Ucore.Lib

variable {s₀ s s₁ s' : VmState} {child parent a start stop : ℕ} {x y : Slot} {l : Layout} {R : ℕ → Prop}

/-- The slot for the same address in another page directory. -/
def Slot.inDir (x : Slot) (d : ℕ) : Slot := ⟨d, x.pde, x.idx⟩

theorem Slot.inDir_mem {d : ℕ} (hx : x ∈ l.slots) (hd : d ∈ l.dirs) : x.inDir d ∈ l.slots :=
  Layout.mem_slots.mpr ⟨hd, (Layout.mem_slots.mp hx).2⟩

/-- The slot `x` has a copy of what was at the slot `y`. -/
def CopyAt (s₀ s' : VmState) (x y : Slot) : Prop :=
  if (s₀.pte y).present = true then
    ∃ page ∈ s₀.free, s'.pte x = ⟨page, pteP ||| ((s₀.pte y).flags &&& pteUser)⟩ ∧
      s'.byte page = s₀.byte (s₀.pte y).ppn ∧ s'.pageRef page = 1
  else (s'.pte x).present = false

/-- A copy stays when only free pages are used. -/
theorem CopyAt.grown (h : CopyAt s₀ s x y) (hok : l.Ok s) (hx : x ∈ l.slots) (hpte : s'.pte x = s.pte x)
    (hgrown : Grown s s') : CopyAt s₀ s' x y := by
  unfold CopyAt at *
  rw [hpte]
  split_ifs at * with hpresent
  · obtain ⟨page, hfree, hx', hbyte, href⟩ := h
    have hnot : page ∉ s.free := by
      refine (hok.named hx ?_).2.2
      rw [hx', Pte.page_of_present (Pte.present_insert _)]
    exact ⟨page, hfree, hx', by rw [hgrown.byte page hnot, hbyte], by rw [hgrown.ref page hnot, href]⟩
  · exact h

/-- The addresses of `R` have been copied from the page directory `parent` to `child`. -/
structure Layout.Dup (l : Layout) (child parent : ℕ) (R : ℕ → Prop) (s₀ s' : VmState) : Prop where
  ok : l.Ok s'
  other : ∀ x ∈ l.slots, x.dir ≠ child → s'.pte x = s₀.pte x
  pde : ∀ d ∈ l.dirs, d ≠ child → ∀ i, s'.entry d i = s₀.entry d i
  done : ∀ x ∈ l.slots, x.dir = child → R x.addr → CopyAt s₀ s' x (x.inDir parent)
  rest : ∀ x ∈ l.slots, x.dir = child → ¬ R x.addr → (s'.pte x).present = false
  /-- A page table is there for one of the addresses. -/
  tables : ∀ i < l.top, (s'.entry child i).present = true → ∃ a, R a ∧ a < userTop ∧ pdx a = i
  entry : ∀ p, l.kept p → ∀ k, (p ∈ l.dirs → l.top ≤ k) → s'.entry p k = s₀.entry p k
  grown : Grown s₀ s'

theorem Layout.Dup.congr (h : l.Dup child parent R s₀ s) (hsame : SamePages s s') : l.Dup child parent R s₀ s' := by
  obtain ⟨hfree, href, hentry, hbyte⟩ := hsame
  have hpte : ∀ x, s'.pte x = s.pte x := fun x => pte_congr (by rw [hentry]) fun _ => by rw [hentry]
  have hgrown : Grown s s' := ⟨fun p hp => hfree ▸ hp, fun p _ => by rw [href], fun p _ => by rw [hbyte]⟩
  refine ⟨h.ok.congr hfree href hentry, fun x hx hne => ?_, fun d hd hne i => ?_, fun x hx hd hR => ?_, fun x hx hd hR => ?_,
    ?_, ?_, h.grown.trans hgrown⟩
  · rw [hpte, h.other x hx hne]
  · rw [hentry, h.pde d hd hne]
  · exact (h.done x hx hd hR).grown h.ok hx (hpte x) hgrown
  · rw [hpte, h.rest x hx hd hR]
  · rw [hentry]
    exact h.tables
  · rw [hentry]
    exact h.entry

/-- The new page directory is empty at the start. -/
theorem Layout.Ok.dup (h : l.Ok s₀) (hempty : ∀ i < l.top, (s₀.entry child i).present = false) :
    l.Dup child parent (fun _ => False) s₀ s₀ := by
  refine ⟨h, fun _ _ _ => rfl, fun _ _ _ _ => rfl, fun _ _ _ hR => hR.elim, fun x hx hd _ => ?_, fun i hi hpresent => ?_,
    fun _ _ _ _ => rfl, .refl s₀⟩
  · have habsent := hempty x.pde (Layout.mem_slots.mp hx).2.1
    rw [← hd] at habsent
    rw [pte_of_absent habsent, Pte.present_zero]
  · rw [hempty i hi] at hpresent
    cases hpresent

/-- There is nothing to copy at the addresses that are added. -/
theorem Layout.Dup.skip {R' : ℕ → Prop} (h : l.Dup child parent R s₀ s) (hne : parent ≠ child) (hparent : parent ∈ l.dirs)
    (hsub : ∀ a, R a → R' a) (hnone : ∀ x ∈ l.slots, x.dir = parent → R' x.addr → ¬ R x.addr → (s.pte x).present = false) :
    l.Dup child parent R' s₀ s := by
  refine ⟨h.ok, h.other, h.pde, fun x hx hd hR' => ?_, fun x hx hd hR' => h.rest x hx hd fun hR => hR' (hsub _ hR),
    fun i hi hpresent => ?_, h.entry, h.grown⟩
  · by_cases hR : R x.addr
    · exact h.done x hx hd hR
    · have hy : x.inDir parent ∈ l.slots := Slot.inDir_mem hx hparent
      have habsent := hnone _ hy rfl hR' hR
      rw [h.other _ hy hne] at habsent
      unfold CopyAt
      rw [if_neg (Bool.eq_false_iff.mp habsent)]
      exact h.rest x hx hd hR
  · obtain ⟨a, ha, hrest⟩ := h.tables i hi hpresent
    exact ⟨a, hsub a ha, hrest⟩

/-- One page has been copied. -/
theorem Layout.Dup.copied {page : ℕ} (h : l.Dup child parent R s₀ s) (h₀ : l.Ok s₀) (hne : parent ≠ child) (hx : slotOf child a ∈ l.slots)
    (hparent : parent ∈ l.dirs) (hR : ¬ R a) (haddr : (slotOf child a).addr = a) (htop : a < userTop)
    (hpresent : (s.pte (slotOf parent a)).present = true)
    (hcopied : l.Copied (slotOf child a) (s.pte (slotOf parent a)) page s s') :
    l.Dup child parent (fun b => R b ∨ b = a) s₀ s' := by
  have hy : slotOf parent a ∈ l.slots := Slot.inDir_mem hx hparent
  have hempty : (s.pte (slotOf child a)).page = none := by
    rw [Pte.page_eq_none]
    exact h.rest _ hx rfl (by rwa [haddr])
  have hgrown := hcopied.grown hempty
  have hold : s.pte (slotOf parent a) = s₀.pte (slotOf parent a) := h.other _ hy hne
  have hself : ∀ x ∈ l.slots, x.dir = child → x.addr = a → x = slotOf child a := by
    intro x hx' hd hxa
    refine eq_slotOf (Layout.mem_slots.mp hx').2.2 hd hxa ?_
    unfold userTop at htop
    omega
  refine ⟨hcopied.ok, fun x hx' hd => ?_, fun d hd hne' i => ?_, fun x hx' hd hR' => ?_, fun x hx' hd hR' => ?_,
    fun i hi hi' => ?_, fun p hp k hk => (hcopied.frame.entry p hp k hk).trans (h.entry p hp k hk), h.grown.trans hgrown⟩
  · rw [hcopied.pte x hx', if_neg fun heq : x = slotOf child a => hd (congrArg Slot.dir heq), h.other x hx' hd]
  · rw [hcopied.pde d hd i fun hand => hne' hand.1, h.pde d hd hne']
  · by_cases hxa : x.addr = a
    · rw [hself x hx' hd hxa]
      have hpage : (s₀.pte (slotOf parent a)).page = some (s.pte (slotOf parent a)).ppn := by
        rw [← hold, Pte.page_of_present hpresent]
      have hnot : (s.pte (slotOf parent a)).ppn ∉ s₀.free := (h₀.named hy hpage).2.2
      show CopyAt s₀ s' (slotOf child a) (slotOf parent a)
      unfold CopyAt
      rw [if_pos (by rw [← hold, hpresent])]
      refine ⟨page, h.grown.free page hcopied.wasFree, ?_, ?_, hcopied.ref hempty⟩
      · rw [hcopied.pte _ hx, if_pos rfl, hold]
      · rw [hcopied.byte hempty, h.grown.byte _ hnot, hold]
    · have hR₀ := hR'.resolve_right hxa
      refine (h.done x hx' hd hR₀).grown h.ok hx' ?_ hgrown
      rw [hcopied.pte x hx', if_neg fun heq : x = slotOf child a => hxa (by rw [heq, haddr])]
  · obtain ⟨hR₀, hxa⟩ := not_or.mp hR'
    rw [hcopied.pte x hx', if_neg fun heq : x = slotOf child a => hxa (by rw [heq, haddr])]
    exact h.rest x hx' hd hR₀
  · by_cases hia : i = pdx a
    · exact ⟨a, Or.inr rfl, htop, hia.symm⟩
    · have hsame := hcopied.pde child (Layout.mem_slots.mp hx).1 i fun hand => hia hand.2
      rw [hsame] at hi'
      obtain ⟨b, hb, hrest⟩ := h.tables i hi hi'
      exact ⟨b, Or.inl hb, hrest⟩

/-- An allocation that has failed changes nothing. -/
theorem Layout.Dup.same (h : l.Dup child parent R s₀ s) (hchild : child ∈ l.dirs) (hsame : l.Same s s') :
    l.Dup child parent R s₀ s' := by
  refine ⟨hsame.ok, fun x hx hd => ?_, fun d hd hne i => ?_, fun x hx hd hR => ?_, fun x hx hd hR => ?_,
    fun i hi hpresent => ?_, fun p hp k hk => (hsame.frame.entry p hp k hk).trans (h.entry p hp k hk), h.grown.trans hsame.grown⟩
  · rw [hsame.pte x hx, h.other x hx hd]
  · rw [hsame.pde d hd, h.pde d hd hne]
  · exact (h.done x hx hd hR).grown h.ok hx (hsame.pte x hx) hsame.grown
  · rw [hsame.pte x hx, h.rest x hx hd hR]
  · rw [hsame.pde child hchild] at hpresent
    exact h.tables i hi hpresent

theorem Layout.Dup.iff {R' : ℕ → Prop} (h : l.Dup child parent R s₀ s) (hiff : ∀ a, R' a ↔ R a) :
    l.Dup child parent R' s₀ s := by
  have heq : R' = R := funext fun a => propext (hiff a)
  rw [heq]
  exact h

/-- What the whole of `dup_mmap` needs of the two page directories. -/
structure Layout.Forks (l : Layout) (child parent : ℕ) (s₀ : VmState) : Prop where
  ok : l.Ok s₀
  childMem : child ∈ l.dirs
  parentMem : parent ∈ l.dirs
  ne : parent ≠ child
  top : userTop ≤ ptSize * l.top

/-- There is one slot in a page. -/
theorem addr_eq_of_lt (hle : a ≤ x.addr) (hlt : x.addr < a + pageSize) (ha : a % pageSize = 0) : x.addr = a := by
  unfold Slot.addr at *
  unfold pageSize ptSize at *
  omega

/-- **`copy_range`** copies the pages of the range, and up to some address if it fails. -/
theorem copyRange_dup (al : Allocs) (hf : l.Forks child parent s₀) (h : l.Dup child parent R s₀ s)
    (hdisj : ∀ a, start ≤ a → a < stop → ¬ R a) : ((copyRange al child parent start stop).run s).Post
      (fun _ s' => UserRange start stop ∧ l.Dup child parent (fun a => R a ∨ (start ≤ a ∧ a < stop)) s₀ s')
      (fun _ s' => UserRange start stop ∧ ∃ b, l.Dup child parent (fun a => R a ∨ (start ≤ a ∧ a < min b stop)) s₀ s')
      PageSite := by
  unfold copyRange
  refine Outcome.post_bind.mpr (checkRange_post.mono ?_ (fun _ _ hf => hf.elim) ?_)
  · rintro _ s ⟨rfl, hrange⟩
    have htop : stop ≤ ptSize * l.top := Nat.le_trans hrange.access.2.2 hf.top
    have hloop : ((walk (copyTurn al child parent) stop (rangeFuel start stop) start).run s).Post
        (fun _ s' => ∃ a, stop ≤ a ∧ Reached start stop a ∧
          l.Dup child parent (fun b => R b ∨ (start ≤ b ∧ b < min a stop)) s₀ s')
        (fun _ s' => ∃ a, l.Dup child parent (fun b => R b ∨ (start ≤ b ∧ b < min a stop)) s₀ s') PageSite := by
      refine walk_post (Nat.succ_pos _) (fun a s₁ hlt hI => ?_) hrange.access.2.1 fuel_enough
        ⟨⟨hrange.startAlign, Nat.le_refl _⟩, h.iff fun b => or_iff_left fun hand => ?_⟩
      · obtain ⟨hreached, hdup⟩ := hI
        have ha := hreached.inRange hlt
        obtain ⟨-, hnextStop, hword⟩ := ha.next hrange
        rw [Nat.min_eq_left (Nat.le_of_lt hlt)] at hdup
        refine (copyTurn_post al hdup.ok hf.childMem hf.parentMem hrange ha htop).mono ?_ ?_ ?_
        · rintro next s' ⟨hnext, hlt32, hmod, hcase⟩
          have hle : a ≤ next := Nat.le_trans (Nat.le_add_right _ _) hnext
          refine ⟨hnext, hlt32, ⟨hmod, Nat.le_trans ha.le hle⟩, ?_⟩
          rcases hcase with ⟨rfl, hnone⟩ | ⟨rfl, hpresent, page, hcopied⟩
          · refine hdup.skip hf.ne hf.parentMem (fun b hb => hb.imp_right fun hand => ⟨hand.1, ?_⟩) fun x hx hd hin hnot => ?_
            · exact Nat.lt_min.mpr ⟨Nat.lt_of_lt_of_le hand.2 hle, Nat.lt_trans hand.2 hlt⟩
            · obtain ⟨hR, hbefore⟩ := not_or.mp hnot
              have hbound := hin.resolve_left hR
              exact hnone x hx ⟨hd, Nat.le_of_not_lt fun hxa => hbefore ⟨hbound.1, hxa⟩, hbound.2⟩
          · have hown := pdx_lt_top (l := l) hlt htop
            have haddr : (slotOf child a).addr = a :=
              addr_slotOf ha.align (Nat.lt_of_le_of_lt (Nat.le_add_right _ _) hword)
            have hx : slotOf child a ∈ l.slots := slotOf_mem_slots hf.childMem hown
            have hnot : ¬ (R a ∨ (start ≤ a ∧ a < a)) := fun hor =>
              hor.elim (hdisj a ha.le hlt) fun hand => Nat.lt_irrefl _ hand.2
            have hpage := hdup.copied hf.ok hf.ne hx hf.parentMem hnot haddr (Nat.lt_of_lt_of_le hlt hrange.access.2.2)
              hpresent hcopied
            rw [Nat.min_eq_left hnextStop]
            refine hpage.skip hf.ne hf.parentMem ?_ fun x hx' _ hin hnot => ?_
            · rintro b ((hb | hb) | rfl)
              · exact Or.inl hb
              · exact Or.inr ⟨hb.1, Nat.lt_of_lt_of_le hb.2 hle⟩
              · exact Or.inr ⟨ha.le, Nat.lt_add_of_pos_right (by decide)⟩
            · obtain ⟨hbefore, hxa⟩ := not_or.mp hnot
              obtain ⟨hR, hout⟩ := not_or.mp hbefore
              have hbound := hin.resolve_left hR
              exact (hxa (addr_eq_of_lt (Nat.le_of_not_lt fun hlt' => hout ⟨hbound.1, hlt'⟩) hbound.2 ha.align)).elim
        · rintro err s' ⟨-, hsame⟩
          refine ⟨a, ?_⟩
          rw [Nat.min_eq_left (Nat.le_of_lt hlt)]
          exact hdup.same hf.childMem hsame
        · rintro p rfl
          exact .copyPage
      · exact Nat.not_lt.mpr hand.1 (Nat.lt_of_lt_of_le hand.2 (Nat.min_le_left _ _))
    refine hloop.mono ?_ (fun _ s' h => ⟨hrange, h⟩) fun _ hp => hp
    rintro _ s' ⟨a, hstop, -, hdup⟩
    rw [Nat.min_eq_right hstop] at hdup
    exact ⟨hrange, hdup⟩
  · rintro p (rfl | rfl)
    · exact .rangeAlign
    · exact .rangeAccess

/-! ### `dup_mmap` -/

/-- An area is inserted, or an assertion fails. -/
theorem insertVmaStruct_ok {m : ℕ} {v : Vma} : ((insertVmaStruct m v).run s).Post (fun _ s' => s' = s.insertArea m v)
    (fun _ _ => False) fun _ => True := by
  rw [insertVmaStruct_eq]
  by_cases hv : v.vmStart < v.vmEnd
  · rw [Prog.bind_of_ok (Prog.run_assert_of _ _ hv), Prog.run_bind, Prog.run_get, Outcome.andThen_ok]
    refine Outcome.post_bind.mpr ((checkNeighbour_post fun w => checkVmaOverlap_post).mono ?_ (fun _ _ h => h) fun _ _ => trivial)
    rintro _ s₁ ⟨rfl, -⟩
    refine Outcome.post_bind.mpr ((checkNeighbour_post fun w => checkVmaOverlap_post).mono ?_ (fun _ _ h => h) fun _ _ => trivial)
    rintro _ s₂ ⟨rfl, -⟩
    exact rfl
  · rw [Prog.bind_of_panic (Prog.run_assert_of_not _ _ hv)]
    trivial

/-- The areas `rest` of the list are copied, and `dup_mmap` goes on with `areas`. -/
theorem dupLoop_pages (al : Allocs) (hf : l.Forks child parent s₀) {dst src : ℕ} {areas rest : List Vma}
    (hareas : Areas (areas.reverse ++ rest)) (hdup : l.Dup child parent (fun a => ∃ v ∈ rest, v.Has a) s₀ s)
    (hchild : (s.mm dst).pgdir = child) (hparent : (s.mm src).pgdir = parent) (hne : src ≠ dst)
    (hlist : ∀ a, (∃ v ∈ rest, v.Has a) → ∃ v ∈ (s.mm dst).mmapList, v.Has a) :
    ((dupLoop al dst src areas).run s).Post
      (fun _ s' => l.Dup child parent (fun a => ∃ v ∈ areas.reverse ++ rest, v.Has a) s₀ s' ∧
        ∀ v ∈ areas, UserRange v.vmStart v.vmEnd)
      (fun _ s' => ∃ R, l.Dup child parent R s₀ s' ∧ ∀ a, R a → ∃ v ∈ (s'.mm dst).mmapList, v.Has a)
      fun _ => True := by
  induction areas generalizing s rest with
  | nil => exact ⟨hdup, fun v hv => (List.not_mem_nil hv).elim⟩
  | cons vma areas ih =>
    have hsplit : (vma :: areas).reverse ++ rest = areas.reverse ++ vma :: rest := by
      rw [List.reverse_cons, List.append_assoc]
      rfl
    rw [hsplit] at hareas ⊢
    obtain ⟨-, hfrom, -⟩ := hareas.of_append
    unfold dupLoop
    have hcreate := vmaCreate_post (s := s) al vma.vmStart vma.vmEnd vma.vmFlags
    refine Outcome.post_bind.mpr (hcreate.mono ?_ (fun _ _ h => h.elim) fun _ h => h.elim)
    rintro r s₁ ⟨hmm, hsame, hr⟩
    cases r with
    | none => exact ⟨_, hdup.congr hsame, by rwa [hmm]⟩
    | some nvma =>
      have harea : nvma.area = vma.area := hr nvma rfl
      have hhas : ∀ a, nvma.Has a ↔ vma.Has a := by
        intro a
        unfold Vma.Has
        rw [show nvma.vmStart = vma.vmStart from congrArg Prod.fst harea,
          show nvma.vmEnd = vma.vmEnd from congrArg (fun a => a.2.1) harea]
      refine Outcome.post_bind.mpr (insertVmaStruct_ok.mono ?_ (fun _ _ h => h.elim) fun _ _ => trivial)
      rintro _ s₂ rfl
      have hdup₂ : l.Dup child parent (fun a => ∃ v ∈ rest, v.Has a) s₀ (s₁.insertArea dst nvma) :=
        hdup.congr (hsame.trans ⟨rfl, rfl, rfl, rfl⟩)
      have hchild₂ : ((s₁.insertArea dst nvma).mm dst).pgdir = child := by rw [insertArea_mm, hmm, hchild]
      have hparent₂ : ((s₁.insertArea dst nvma).mm src).pgdir = parent := by
        have hother : (s₁.insertArea dst nvma).mm src = s₁.mm src := Function.update_of_ne hne _ _
        rw [hother, hmm, hparent]
      have hmem : ∀ a, (∃ v ∈ vma :: rest, v.Has a) → ∃ v ∈ ((s₁.insertArea dst nvma).mm dst).mmapList, v.Has a := by
        rintro a ⟨v, hv, hva⟩
        rw [insertArea_mm]
        rcases List.mem_cons.mp hv with rfl | hv
        · exact ⟨nvma, (placeArea_perm _ _).mem_iff.mpr List.mem_cons_self, (hhas a).mpr hva⟩
        · obtain ⟨w, hw, hwa⟩ := hlist a ⟨v, hv, hva⟩
          rw [hmm]
          exact ⟨w, (placeArea_perm _ _).mem_iff.mpr (List.mem_cons_of_mem _ hw), hwa⟩
      rw [Prog.run_bind, Prog.run_get, Outcome.andThen_ok, hchild₂, hparent₂]
      have hdisj : ∀ a, vma.vmStart ≤ a → a < vma.vmEnd → ¬ ∃ v ∈ rest, v.Has a := by
        rintro a - hlt ⟨v, hv, hva⟩
        exact Nat.not_lt.mpr (Nat.le_trans ((List.pairwise_cons.mp hfrom.sorted).1 v hv) hva.1) hlt
      have hcopy := (copyRange_dup al hf hdup₂ hdisj).and (onPages_copyRange al child parent vma.vmStart vma.vmEnd _)
      refine Outcome.post_bind.mpr (hcopy.mono ?_ ?_ fun _ _ => trivial)
      · rintro _ s₃ ⟨⟨hrange, hdup₃⟩, honly⟩
        have hiff : ∀ a, (∃ v ∈ vma :: rest, v.Has a) ↔ (∃ v ∈ rest, v.Has a) ∨ (vma.vmStart ≤ a ∧ a < vma.vmEnd) := by
          intro a
          rw [List.exists_mem_cons_iff, or_comm]
          rfl
        refine (ih hareas (hdup₃.iff hiff) ?_ ?_ ?_).mono ?_ (fun _ _ h => h) fun _ h => h
        · rw [honly.mm, hchild₂]
        · rw [honly.mm, hparent₂]
        · rw [honly.mm]
          exact hmem
        · rintro _ s' ⟨hdup', hranges⟩
          refine ⟨hdup', fun v hv => ?_⟩
          rcases List.mem_cons.mp hv with rfl | hv
          · exact hrange
          · exact hranges v hv
      · rintro _ s₃ ⟨⟨-, b, hdup₃⟩, honly⟩
        refine ⟨_, hdup₃, fun a ha => ?_⟩
        rw [honly.mm]
        refine hmem a ?_
        rcases ha with ⟨v, hv, hva⟩ | ⟨hle, hlt⟩
        · exact ⟨v, List.mem_cons_of_mem _ hv, hva⟩
        · exact ⟨vma, List.mem_cons_self, hle, Nat.lt_of_lt_of_le hlt (Nat.min_le_right _ _)⟩

theorem addr_slotOf_floor {d la : ℕ} (hword : la < 2 ^ 32) : (slotOf d la).addr = pageSize * (la / pageSize) := by
  unfold Slot.addr slotOf pdx ptx pageSize ptSize
  simp only
  omega

/-- An area of whole pages has an address when it has its page. -/
theorem has_page_iff {v : Vma} (h : UserRange v.vmStart v.vmEnd) (la : ℕ) : v.Has (pageSize * (la / pageSize)) ↔ v.Has la := by
  have hstart := h.startAlign
  have hstop := h.stopAlign
  unfold Vma.Has pageSize at *
  omega

/-- The user flags of a present entry are those of its copy. -/
theorem user_flags_copy {e : Pte} (h : e.present = true) {page : ℕ} :
    (⟨page, pteP ||| (e.flags &&& pteUser)⟩ : Pte).flags &&& pteUser = e.flags &&& pteUser := by
  have hone : pteP ||| (e.flags &&& pteUser) = e.flags &&& pteUser := by
    refine BitVec.eq_of_getLsbD_eq fun i hi => ?_
    have hbit : pteP.getLsbD i = decide (i = 0) := by
      unfold pteP
      rw [show (1 : BitVec 12) = 1#12 from rfl, BitVec.getLsbD_one]
      simp
    rw [BitVec.getLsbD_or, hbit]
    by_cases hzero : i = 0
    · subst hzero
      have hflag : e.flags.getLsbD 0 = true := h
      rw [BitVec.getLsbD_and, hflag]
      rfl
    · rw [decide_eq_false hzero, Bool.false_or]
  show (pteP ||| (e.flags &&& pteUser)) &&& pteUser = _
  rw [hone, BitVec.and_assoc, BitVec.and_self]

/-- The child has at `la` what the parent has: a page of its own with the same bytes and user flags. -/
structure CopiedPage (l : Layout) (s' : VmState) (child parent la : ℕ) : Prop where
  flags : (s'.pte (slotOf child la)).flags &&& pteUser = (s'.pte (slotOf parent la)).flags &&& pteUser
  byte : s'.byte (s'.pte (slotOf child la)).ppn = s'.byte (s'.pte (slotOf parent la)).ppn
  ref : s'.pageRef (s'.pte (slotOf child la)).ppn = 1
  /-- No other mapping has the page. -/
  own : ∀ y ∈ l.slots, (s'.pte y).page = some (s'.pte (slotOf child la)).ppn → y = slotOf child la

/-- **`dup_mmap` copies memory.** Where it returns 0, the new address space has the same areas. An address is present there
when it is present in the parent and in an area of it, with a page of its own that has the same bytes and the same user
flags. The page tables of the other page directories, and the pages that were in use, are as before. -/
theorem dup_mmap_copies (al : Allocs) {dst src : ℕ} {s s' : VmState} (hok : l.Ok s) (hchild : (s.mm dst).pgdir ∈ l.dirs)
    (hparent : (s.mm src).pgdir ∈ l.dirs) (hdirs : (s.mm src).pgdir ≠ (s.mm dst).pgdir) (hne : src ≠ dst)
    (htop : userTop ≤ ptSize * l.top) (hnew : (s.mm dst).New)
    (hempty : ∀ i < l.top, (s.entry (s.mm dst).pgdir i).present = false) (hareas : Areas (s.mm src).mmapList)
    (hrun : (dupMmap al dst src).run s = .ok () s') :
    ((s'.mm dst).mmapList.map Vma.area = (s.mm src).mmapList.map Vma.area ∧ s'.mm src = s.mm src) ∧
    (∀ la < userTop, ((s'.pte (slotOf (s.mm dst).pgdir la)).present = true ↔
      (s.pte (slotOf (s.mm src).pgdir la)).present = true ∧ ∃ v ∈ (s.mm src).mmapList, v.Has la)) ∧
    ((∀ la < userTop, (s.pte (slotOf (s.mm src).pgdir la)).present = true → ∃ v ∈ (s.mm src).mmapList, v.Has la) →
      ∀ la < userTop, (s'.pte (slotOf (s.mm dst).pgdir la)).present = (s.pte (slotOf (s.mm src).pgdir la)).present) ∧
    (∀ la < userTop, (s'.pte (slotOf (s.mm dst).pgdir la)).present = true →
      CopiedPage l s' (s.mm dst).pgdir (s.mm src).pgdir la) ∧
    (∀ x ∈ l.slots, x.dir ≠ (s.mm dst).pgdir → s'.pte x = s.pte x) ∧
    ∀ p ∉ s.free, s'.byte p = s.byte p ∧ s'.pageRef p = s.pageRef p := by
  have hf : l.Forks (s.mm dst).pgdir (s.mm src).pgdir s := ⟨hok, hchild, hparent, hdirs, htop⟩
  have hlists : ((dupMmap al dst src).run s).Post _ _ _ := dupMmap_areas al hareas hnew.1 hnew.2.2
  rw [hrun] at hlists
  obtain ⟨l', hset, hmap⟩ := hlists
  have hreverse : (s.mm src).mmapList.reverse.reverse ++ [] = (s.mm src).mmapList := by
    rw [List.reverse_reverse, List.append_nil]
  have hpages : ((dupLoop al dst src (s.mm src).mmapList.reverse).run s).Post _ _ _ :=
    dupLoop_pages al hf (by rwa [hreverse] : Areas ((s.mm src).mmapList.reverse.reverse ++ []))
      ((hok.dup hempty).iff fun a => by simp) rfl rfl hne fun a ⟨v, hv, _⟩ => (List.not_mem_nil hv).elim
  have hloop : (dupLoop al dst src (s.mm src).mmapList.reverse).run s = .ok () s' := hrun
  rw [hloop] at hpages
  obtain ⟨hdup, hranges⟩ := hpages
  rw [hreverse] at hdup
  have hrange : ∀ v ∈ (s.mm src).mmapList, UserRange v.vmStart v.vmEnd := fun v hv => hranges v (List.mem_reverse.mpr hv)
  have hchildSlot : ∀ la < userTop, slotOf (s.mm dst).pgdir la ∈ l.slots := fun la hla =>
    slotOf_mem_slots hchild (pdx_lt_top hla htop)
  have hparentSlot : ∀ la < userTop, slotOf (s.mm src).pgdir la ∈ l.slots := fun la hla =>
    slotOf_mem_slots hparent (pdx_lt_top hla htop)
  have hcovered : ∀ la < userTop, (∃ v ∈ (s.mm src).mmapList, v.Has (slotOf (s.mm dst).pgdir la).addr) ↔
      ∃ v ∈ (s.mm src).mmapList, v.Has la := by
    intro la hla
    have hword : la < 2 ^ 32 := Nat.lt_trans hla (by decide)
    rw [addr_slotOf_floor hword]
    exact exists_congr fun v => and_congr_right fun hv => has_page_iff (hrange v hv) la
  have hcopy : ∀ la < userTop, (∃ v ∈ (s.mm src).mmapList, v.Has la) →
      CopyAt s s' (slotOf (s.mm dst).pgdir la) (slotOf (s.mm src).pgdir la) := fun la hla hin =>
    hdup.done _ (hchildSlot la hla) rfl ((hcovered la hla).mpr hin)
  have hpresent : ∀ la < userTop, (s'.pte (slotOf (s.mm dst).pgdir la)).present = true ↔
      (s.pte (slotOf (s.mm src).pgdir la)).present = true ∧ ∃ v ∈ (s.mm src).mmapList, v.Has la := by
    intro la hla
    by_cases hin : ∃ v ∈ (s.mm src).mmapList, v.Has la
    · have hat := hcopy la hla hin
      unfold CopyAt at hat
      split_ifs at hat with hparent'
      · obtain ⟨page, -, hpte, -⟩ := hat
        rw [hpte]
        exact ⟨fun _ => ⟨hparent', hin⟩, fun _ => Pte.present_insert _⟩
      · exact ⟨fun h => by (rw [hat] at h; cases h), fun h => (hparent' h.1).elim⟩
    · have habsent := hdup.rest _ (hchildSlot la hla) rfl ((hcovered la hla).not.mpr hin)
      exact ⟨fun h => by (rw [habsent] at h; cases h), fun h => (hin h.2).elim⟩
  refine ⟨⟨?_, ?_⟩, hpresent, fun hin la hla => ?_, fun la hla hthere => ?_, hdup.other, fun p hp =>
    ⟨hdup.grown.byte p hp, hdup.grown.ref p hp⟩⟩
  · rw [hset, Function.update_self]
    exact hmap
  · rw [hset, Function.update_of_ne hne]
  · rw [Bool.eq_iff_iff, hpresent la hla]
    exact ⟨fun h => h.1, fun h => ⟨h, hin la hla h⟩⟩
  · obtain ⟨hparent', hin⟩ := (hpresent la hla).mp hthere
    have hat := hcopy la hla hin
    unfold CopyAt at hat
    rw [if_pos hparent'] at hat
    obtain ⟨page, hfree, hpte, hbyte, href⟩ := hat
    have hsame : s'.pte (slotOf (s.mm src).pgdir la) = s.pte (slotOf (s.mm src).pgdir la) :=
      hdup.other _ (hparentSlot la hla) hdirs
    have hnamed : (s'.pte (slotOf (s.mm dst).pgdir la)).page = some page := by
      rw [hpte, Pte.page_of_present (Pte.present_insert _)]
    have hppn : (s'.pte (slotOf (s.mm dst).pgdir la)).ppn = page := by rw [hpte]
    have hsource : (s.pte (slotOf (s.mm src).pgdir la)).ppn ∉ s.free :=
      (hok.named (hparentSlot la hla) (Pte.page_of_present hparent')).2.2
    refine ⟨?_, ?_, ?_, fun y hy hyp => ?_⟩
    · rw [hsame, hpte]
      exact user_flags_copy hparent'
    · rw [hppn, hsame, hbyte, hdup.grown.byte _ hsource]
    · rw [hppn, href]
    · rw [hppn] at hyp
      obtain ⟨hkept, htable, -⟩ := hdup.ok.named (hchildSlot la hla) hnamed
      refine Layout.eq_of_users_eq_one hok.nodup (hchildSlot la hla) hy hnamed hyp ?_
      have hdata := (hdup.ok.data hkept htable).1
      rw [href] at hdata
      omega

/-- Two address spaces, the first one with an area. -/
def twoSpaces : VmState :=
  { VmState.start 0 [1, 2, 3, 4] with
    mm := fun m => if m = 1 then ⟨[⟨9, 0x200000, 0x201000, 3⟩], none, 100, 1, 0⟩ else ⟨[], none, 101, 0, 0⟩ }

theorem twoSpaces_ok : (pageLayout [100, 101] 704 twoSpaces []).Ok twoSpaces := by
  have h : Directories [100, 101] 704 twoSpaces :=
    ⟨by decide, by decide, fun _ _ => rfl, by decide, fun _ _ _ _ => Pte.present_zero⟩
  exact h.ok.ok

/-- A page is mapped in the first address space, and copied to the second one. -/
theorem dup_mmap_copies_one : ∃ s s', (pgdirAllocPage .firstFit 100 0x200000 7).run twoSpaces = .ok (some 1) s ∧
    (dupMmap .firstFit 2 1).run s = .ok () s' ∧
    CopiedPage (pageLayout [100, 101] 704 twoSpaces []) s' 101 100 0x200000 := by
  obtain ⟨s, s', hadd, hrun⟩ : ∃ s s', (pgdirAllocPage .firstFit 100 0x200000 7).run twoSpaces = .ok (some 1) s ∧
    (dupMmap .firstFit 2 1).run s = .ok () s' := ⟨_, _, rfl, rfl⟩
  have hx : slotOf 100 0x200000 ∈ (pageLayout [100, 101] 704 twoSpaces []).slots := mem_slots_of (by decide) (by decide)
  have hpost := pgdirAllocPage_post .firstFit twoSpaces_ok hx 7
  rw [hadd] at hpost
  obtain ⟨page, -, hadded⟩ := hpost.resolve_left fun hnone => by (cases hnone.1)
  have hmm : s.mm = twoSpaces.mm := hadded.frame.only.mm
  have hpresent : (s.pte (slotOf 100 0x200000)).present = true := by
    rw [hadded.pte _ hx, if_pos rfl, Pte.present_insert]
  have hone : (s.mm 1) = ⟨[⟨9, 0x200000, 0x201000, 3⟩], none, 100, 1, 0⟩ := by rw [hmm]; rfl
  have htwo : (s.mm 2) = ⟨[], none, 101, 0, 0⟩ := by rw [hmm]; rfl
  have hcopy := dup_mmap_copies (l := pageLayout [100, 101] 704 twoSpaces []) .firstFit hadded.ok (by rw [htwo]; decide)
    (by rw [hone]; decide) (by rw [hone, htwo]; decide) (by decide) (by decide) (by rw [htwo]; exact ⟨rfl, rfl, rfl⟩)
    (fun i _ => by
      rw [htwo, hadded.pde 101 (by decide) i fun hand => by (cases hand.1)]
      exact Pte.present_zero)
    (by rw [hone]; exact ⟨by decide, by decide⟩) hrun
  rw [hone, htwo] at hcopy
  refine ⟨s, s', hadd, hrun, hcopy.2.2.2.1 0x200000 (by decide) ?_⟩
  exact (hcopy.2.1 0x200000 (by decide)).mpr ⟨hpresent, _, List.mem_singleton_self _, by decide⟩

end Ucore.Vm
