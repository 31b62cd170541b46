import Ucore.Mm.PageMaps
import Mathlib.Tactic.Common

/-!
# The functions on ranges of addresses

* `walk_post` is the rule of the loops: what holds up to an address before a turn holds up to the next one after it, and
  the fuel is enough when every turn goes on by a page at least.
* `Slot.In` are the slots of a page directory in a range. `unmapRange_post` clears them, and `copyTurn_post` is a turn of
  `copy_range`.
-/

namespace Ucore.Vm

open Ucore.Lib

variable {s s₁ s' : VmState} {d src dst a b start stop : ℕ} {x y : Slot} {l : Layout}

/-! ### Loops -/

/-- The rule of the loops over addresses, which go on by `stride` at least in each turn. -/
theorem walk_post {turn : ℕ → VmProg ℕ} {I : ℕ → VmState → Prop} {E : VmError → VmState → Prop} {P : VmPanic → Prop}
    {stride : ℕ} (hstride : 0 < stride) (hturn : ∀ a s, a < stop → I a s →
      ((turn a).run s).Post (fun next s' => a + stride ≤ next ∧ next < 2 ^ 32 ∧ I next s') E P)
    {fuel : ℕ} (hstart : start < stop) (hfuel : stop ≤ start + stride * fuel) (h : I start s) :
    ((walk turn stop fuel start).run s).Post (fun _ s' => ∃ a, stop ≤ a ∧ I a s') E P := by
  induction fuel generalizing start s with
  | zero =>
    rw [Nat.mul_zero, Nat.add_zero] at hfuel
    exact absurd hstart (Nat.not_lt.mpr hfuel)
  | succ fuel ih =>
    unfold walk
    apply (hturn start s hstart h).bind
    rintro next s₁ ⟨hnext, hword, h₁⟩
    have hmod : next % 2 ^ 32 = next := Nat.mod_eq_of_lt hword
    have hpos : next ≠ 0 := Nat.ne_of_gt (Nat.lt_of_lt_of_le (Nat.add_pos_right _ hstride) hnext)
    simp only [hmod]
    rw [Prog.run_ite]
    split_ifs with hmore
    · refine ih hmore.2 (Nat.le_trans hfuel ?_) h₁
      rw [Nat.mul_succ, Nat.add_comm (stride * fuel), ← Nat.add_assoc]
      exact Nat.add_le_add_right hnext _
    · exact ⟨next, Nat.le_of_not_lt fun hlt => hmore ⟨hpos, hlt⟩, h₁⟩

theorem fuel_enough : stop ≤ start + pageSize * rangeFuel start stop := by
  unfold rangeFuel pageSize
  omega

theorem checkRange_run (hstart : start % pageSize = 0) (hstop : stop % pageSize = 0) (h : UserAccess start stop) :
    (checkRange start stop).run s = .ok () s := by
  unfold checkRange
  rw [Prog.bind_of_ok (Prog.run_assert_of _ _ ⟨hstart, hstop⟩), Prog.run_assert_of _ _ h]

/-- The arguments of the loops over a range of user addresses. -/
structure UserRange (start stop : ℕ) : Prop where
  startAlign : start % pageSize = 0
  stopAlign : stop % pageSize = 0
  access : UserAccess start stop

/-- Either an assertion fails, or the range is one of user addresses. -/
theorem checkRange_post : ((checkRange start stop).run s).Post (fun _ s' => s' = s ∧ UserRange start stop)
    (fun _ _ => False) fun p => p = .rangeAlign ∨ p = .rangeAccess := by
  unfold checkRange
  by_cases halign : start % pageSize = 0 ∧ stop % pageSize = 0
  · rw [Prog.bind_of_ok (Prog.run_assert_of _ _ halign)]
    by_cases haccess : UserAccess start stop
    · rw [Prog.run_assert_of _ _ haccess]
      exact ⟨rfl, halign.1, halign.2, haccess⟩
    · rw [Prog.run_assert_of_not _ _ haccess]
      exact Or.inr rfl
  · rw [Prog.bind_of_panic (Prog.run_assert_of_not _ _ halign)]
    exact Or.inl rfl

/-! ### Slots and addresses -/

/-- The slot is one of the page directory, in the range. -/
def Slot.In (d start stop : ℕ) (x : Slot) : Prop := x.dir = d ∧ start ≤ x.addr ∧ x.addr < stop

theorem addr_slotOf (ha : a % pageSize = 0) (hword : a < 2 ^ 32) : (slotOf d a).addr = a := by
  unfold Slot.addr slotOf pdx ptx
  unfold pageSize ptSize at *
  simp only
  omega

/-- The slot of an address is the one with the address. -/
theorem eq_slotOf (hx : x.idx < 1024) (hd : x.dir = d) (haddr : x.addr = a) (hword : a < 2 ^ 32) : x = slotOf d a := by
  obtain ⟨dir, pde, idx⟩ := x
  unfold Slot.addr at haddr
  unfold slotOf pdx ptx
  unfold pageSize ptSize at *
  simp only at hx hd haddr ⊢
  congr 1 <;> omega

/-- A slot within a page of an address is that of the address. -/
theorem eq_slotOf_of_lt (hx : x.idx < 1024) (hd : x.dir = d) (ha : a % pageSize = 0) (hle : a ≤ x.addr)
    (hlt : x.addr < a + pageSize) (hword : a < 2 ^ 32) : x = slotOf d a := by
  refine eq_slotOf hx hd ?_ hword
  unfold Slot.addr at *
  unfold pageSize ptSize at *
  omega

/-- A slot up to the next boundary of a page table is in the same page table. -/
theorem pde_eq_of_lt (hx : x.idx < 1024) (hle : a ≤ x.addr) (hlt : x.addr < (a + ptSize) / ptSize * ptSize)
    (hword : a < 2 ^ 32) : x.pde = pdx a := by
  unfold Slot.addr at *
  unfold pdx
  unfold pageSize ptSize at *
  omega

/-- The address is one of the page directory alone. -/
theorem pdx_lt_top (h : a < stop) (htop : stop ≤ ptSize * l.top) : pdx a < l.top := by
  unfold pdx
  unfold ptSize at *
  omega

/-- The next boundary of a page table. -/
theorem boundary_spec (haccess : UserAccess start stop) (h : a < stop) (ha : a % pageSize = 0) :
    a + pageSize ≤ (a + ptSize) / ptSize * ptSize ∧ (a + ptSize) / ptSize * ptSize < 2 ^ 32 ∧
      (a + ptSize) / ptSize * ptSize % pageSize = 0 := by
  have hstop := haccess.2.2
  unfold userTop at hstop
  unfold pageSize ptSize at *
  omega

/-- The range goes on. -/
theorem Slot.in_iff_of_le (hab : a ≤ b) (hstart : start ≤ a) : x.In d start b ↔ x.In d start a ∨ x.In d a b := by
  unfold Slot.In
  constructor
  · rintro ⟨hd, hle, hlt⟩
    by_cases hxa : x.addr < a
    · exact Or.inl ⟨hd, hle, hxa⟩
    · exact Or.inr ⟨hd, Nat.le_of_not_lt hxa, hlt⟩
  · rintro (⟨hd, hle, hlt⟩ | ⟨hd, hle, hlt⟩)
    · exact ⟨hd, hle, Nat.lt_of_lt_of_le hlt hab⟩
    · exact ⟨hd, Nat.le_trans hstart hle, hlt⟩

/-! ### `unmap_range` -/

theorem Layout.Cleared.trans {gone gone' : Slot → Prop} (h : l.Cleared gone s s₁) (h' : l.Cleared gone' s₁ s') :
    l.Cleared (fun x => gone x ∨ gone' x) s s' := by
  have hzero : ∀ x ∈ l.slots, s₁.pte x = .zero → s'.pte x = .zero := fun x hx hz => by
    rw [h'.pte x hx fun _ => by rw [hz, Pte.present_zero], hz]
  have hfirst : ∀ x ∈ l.slots, s₁.pte x = s.pte x ∨ s₁.pte x = .zero := by
    intro x hx
    by_cases hclear : gone x ∧ (s.pte x).present = true
    · exact Or.inr (h.clear x hx hclear.1 hclear.2)
    · exact Or.inl (h.pte x hx fun hg => Bool.eq_false_iff.mpr fun hp => hclear ⟨hg, hp⟩)
  refine ⟨h'.ok, fun x hx hgone hpresent => ?_, fun x hx hnot => ?_, fun d hd k => (h'.pde d hd k).trans (h.pde d hd k),
    h.frame.trans h'.frame, h'.bytes.trans h.bytes⟩
  · rcases hgone with hgone | hgone
    · exact hzero x hx (h.clear x hx hgone hpresent)
    · rcases hfirst x hx with hsame | hz
      · exact h'.clear x hx hgone (by rw [hsame, hpresent])
      · exact hzero x hx hz
  · have hsame := h.pte x hx fun hg => hnot (Or.inl hg)
    rw [h'.pte x hx fun hg => by rw [hsame]; exact hnot (Or.inr hg), hsame]

/-- The same slots, described in another way. -/
theorem Layout.Cleared.congr {gone gone' : Slot → Prop} (h : l.Cleared gone s s') (hiff : ∀ x ∈ l.slots, gone' x ↔ gone x) :
    l.Cleared gone' s s' :=
  ⟨h.ok, fun x hx hg => h.clear x hx ((hiff x hx).mp hg), fun x hx hg => h.pte x hx fun hg' => hg ((hiff x hx).mpr hg'),
    h.pde, h.frame, h.bytes⟩

/-- A page of the range is the slot of its address. -/
theorem Slot.in_page_iff (hx : x ∈ l.slots) (ha : a % pageSize = 0) (hword : a + pageSize < 2 ^ 32) :
    x.In d a (a + pageSize) ↔ x = slotOf d a := by
  have hlt : a < 2 ^ 32 := Nat.lt_of_le_of_lt (Nat.le_add_right _ _) hword
  refine ⟨fun ⟨hxd, hle, hlt'⟩ => eq_slotOf_of_lt (Layout.mem_slots.mp hx).2.2 hxd ha hle hlt' hlt, ?_⟩
  rintro rfl
  have haddr : (slotOf d a).addr = a := addr_slotOf ha hlt
  refine ⟨rfl, Nat.le_of_eq haddr.symm, ?_⟩
  rw [haddr]
  exact Nat.lt_add_of_pos_right (by decide)

/-- What is known of an address within a range, and of the one after a page. -/
structure InRange (start stop a : ℕ) : Prop where
  align : a % pageSize = 0
  le : start ≤ a
  lt : a < stop

theorem InRange.next (h : InRange start stop a) (hrange : UserRange start stop) :
    (a + pageSize) % pageSize = 0 ∧ a + pageSize ≤ stop ∧ a + pageSize < 2 ^ 32 := by
  have hstop := hrange.access.2.2
  have hlt := h.lt
  have halign := h.align
  have hend := hrange.stopAlign
  unfold userTop at hstop
  unfold pageSize at *
  omega

/-- A turn of `unmap_range`. -/
theorem unmapTurn_post (al : Allocs) (h : l.Ok s) (hd : d ∈ l.dirs) (hrange : UserRange start stop)
    (ha : InRange start stop a) (htop : stop ≤ ptSize * l.top) : ∃ next s', (unmapTurn al d a).run s = .ok next s' ∧
      a + pageSize ≤ next ∧ next < 2 ^ 32 ∧ next % pageSize = 0 ∧ l.Cleared (Slot.In d a (min next stop)) s s' := by
  obtain ⟨halign, hnextStop, hword⟩ := ha.next hrange
  have hlt : a < 2 ^ 32 := Nat.lt_of_le_of_lt (Nat.le_add_right _ _) hword
  unfold unmapTurn
  rw [Prog.bind_of_ok (getPte_false_run al d a s)]
  by_cases hpresent : (s.entry d (pdx a)).present = true
  · rw [if_pos hpresent]
    have hx : slotOf d a ∈ l.slots := slotOf_mem_slots hd (pdx_lt_top ha.lt htop)
    have ht : l.TableAt s (slotOf d a).dir (slotOf d a).pde (s.entry d (pdx a)).ppn :=
      ⟨hd, pdx_lt_top ha.lt htop, hpresent, rfl⟩
    have hself : ∀ x ∈ l.slots, x.In d a (min (a + pageSize) stop) ↔ x = slotOf d a := by
      rw [Nat.min_eq_left hnextStop]
      exact fun x hx => Slot.in_page_iff hx ha.align hword
    show ∃ next s', (do
      let s₁ ← Prog.get
      (if s₁.entry (s.entry d (pdx a)).ppn (ptx a) ≠ .zero then pageRemovePte (s.entry d (pdx a)).ppn (ptx a) else pure ()
        : VmProg Unit)
      pure (a + pageSize) : VmProg ℕ).run s = .ok next s' ∧ _
    rw [Prog.run_bind, Prog.run_get, Outcome.andThen_ok]
    by_cases hzero : s.entry (s.entry d (pdx a)).ppn (ptx a) = .zero
    · rw [if_neg (not_not.mpr hzero)]
      refine ⟨_, s, rfl, Nat.le_refl _, hword, halign, .refl h fun x hx' hin => ?_⟩
      rw [(hself x hx').mp hin, ht.pte]
      exact congrArg Pte.present hzero
    · rw [if_pos hzero]
      obtain ⟨s', hrun, hclear⟩ := pageRemovePte_post h ht hx
      exact ⟨_, s', Prog.bind_of_ok hrun, Nat.le_refl _, hword, halign, hclear.congr hself⟩
  · rw [if_neg hpresent]
    obtain ⟨hle, hnext, hmod⟩ := boundary_spec hrange.access ha.lt ha.align
    refine ⟨_, s, rfl, hle, hnext, hmod, .refl h fun x hx hin => ?_⟩
    have hpde := pde_eq_of_lt (Layout.mem_slots.mp hx).2.2 hin.2.1 (Nat.lt_of_lt_of_le hin.2.2 (Nat.min_le_left _ _)) hlt
    rw [pte_of_absent (by rw [hin.1, hpde]; exact Bool.eq_false_iff.mpr hpresent), Pte.present_zero]

/-- The part of the range that a loop has done, at an address where it goes on or ends. -/
structure Reached (start stop a : ℕ) : Prop where
  align : a % pageSize = 0
  le : start ≤ a

theorem Reached.inRange (h : Reached start stop a) (hlt : a < stop) : InRange start stop a := ⟨h.align, h.le, hlt⟩

theorem Slot.in_reached_iff (h : Reached start stop a) (hlt : a < stop) {next : ℕ} (hnext : a + pageSize ≤ next) :
    x.In d start (min next stop) ↔ x.In d start (min a stop) ∨ x.In d a (min next stop) := by
  rw [Nat.min_eq_left (Nat.le_of_lt hlt)]
  exact Slot.in_iff_of_le (Nat.le_min.mpr ⟨Nat.le_trans (Nat.le_add_right _ _) hnext, Nat.le_of_lt hlt⟩) h.le

/-- **`unmap_range`** clears the slots of the range. -/
theorem unmapRange_post (al : Allocs) (h : l.Ok s) (hd : d ∈ l.dirs) (hrange : UserRange start stop)
    (htop : stop ≤ ptSize * l.top) :
    ∃ s', (unmapRange al d start stop).run s = .ok () s' ∧ l.Cleared (Slot.In d start stop) s s' := by
  have hnone : ∀ x : Slot, ¬ x.In d start (min start stop) := fun x hin =>
    Nat.not_lt.mpr hin.2.1 (Nat.lt_of_lt_of_le hin.2.2 (Nat.min_le_left _ _))
  have hloop : ((walk (unmapTurn al d) stop (rangeFuel start stop) start).run s).Post
      (fun _ s' => ∃ a, stop ≤ a ∧ Reached start stop a ∧ l.Cleared (Slot.In d start (min a stop)) s s')
      (fun _ _ => False) fun _ => False := by
    refine walk_post (Nat.succ_pos _) (fun a s₁ hlt hI => ?_) hrange.access.2.1 fuel_enough
      ⟨⟨hrange.startAlign, Nat.le_refl _⟩, .refl h fun x _ hin => (hnone x hin).elim⟩
    obtain ⟨hreached, hclear⟩ := hI
    obtain ⟨next, s₂, hrun, hnext, hword, hmod, hclear'⟩ :=
      unmapTurn_post al hclear.ok hd hrange (hreached.inRange hlt) htop
    rw [hrun]
    refine ⟨hnext, hword, ⟨hmod, ?_⟩, ?_⟩
    · exact Nat.le_trans hreached.le (Nat.le_trans (Nat.le_add_right _ _) hnext)
    · exact (hclear.trans hclear').congr fun x _ => Slot.in_reached_iff hreached hlt hnext
  obtain ⟨_, s', hrun, a, hstop, -, hclear⟩ := hloop.exists_ok
  rw [Nat.min_eq_right hstop] at hclear
  refine ⟨s', ?_, hclear⟩
  unfold unmapRange
  rw [Prog.bind_of_ok (checkRange_run hrange.startAlign hrange.stopAlign hrange.access), hrun]

/-! ### `copy_range` -/

/-- A slot has a copy of the page that the entry names, with its user flags. -/
structure Layout.Copied (l : Layout) (x : Slot) (e : Pte) (page : ℕ) (s s' : VmState) : Prop where
  wasFree : page ∈ s.free
  ok : l.Ok s'
  pte : ∀ y ∈ l.slots, s'.pte y = if y = x then ⟨page, pteP ||| (e.flags &&& pteUser)⟩ else s.pte y
  pde : ∀ d ∈ l.dirs, ∀ k, ¬ (d = x.dir ∧ k = x.pde) → s'.entry d k = s.entry d k
  frame : l.Frame s s'
  byte : (s.pte x).page = none → s'.byte page = s.byte e.ppn
  ref : (s.pte x).page = none → s'.pageRef page = 1
  grown : (s.pte x).page = none → Grown s s'

theorem getPte_run_of_present (al : Allocs) {la t : ℕ} (ht : l.TableAt s d (pdx la) t) (create : Bool) :
    (getPte al d la create).run s = .ok (some t) s := by
  unfold getPte
  rw [Prog.run_bind, Prog.run_get, Outcome.andThen_ok, if_pos ht.present, ht.ppn, Prog.run_pure]

/-- `page_insert` does not fail when there is a page table. -/
theorem pageInsert_post_of_present (al : Allocs) (h : l.Ok s) {la page t : ℕ} (ht : l.TableAt s d (pdx la) t)
    (hpage : l.Insertable s page) (perm : BitVec 12) : ∃ s', (pageInsert al d page la perm).run s = .ok () s' ∧
      l.Inserted (slotOf d la) page ⟨page, pteP ||| perm⟩ s s' := by
  rw [pageInsert_eq, Prog.bind_of_ok (getPte_run_of_present al ht true)]
  exact h.setPte_post (x := slotOf d la) ht (slotOf_mem_slots ht.dir ht.own) hpage perm

/-- The page at a slot of the source is copied. -/
theorem copyPage_post (al : Allocs) (h : l.Ok s) {e : Pte} {la : ℕ} (hx : slotOf dst la ∈ l.slots)
    (hnamed : ∃ z ∈ l.slots, (s.pte z).page = some e.ppn) {next : ℕ} : ((do
      match ← getPte al dst la true with
      | none => Prog.throw .noMem
      | some _ =>
        match ← allocPages al 1 with
        | none => Prog.stop .copyPage
        | some npage => do
          Prog.modify fun s => { s with byte := Function.update s.byte npage (s.byte e.ppn) }
          match ← Prog.attempt (pageInsert al dst npage la (e.flags &&& pteUser)) with
          | .error _ => Prog.stop .copyInsert
          | .ok () => pure next : VmProg ℕ).run s).Post
      (fun r s' => r = next ∧ ∃ page, l.Copied (slotOf dst la) e page s s')
      (fun err s' => err = .noMem ∧ l.Same s s') fun p => p = .copyPage := by
  obtain ⟨hd, hla, -⟩ := Layout.mem_slots.mp hx
  obtain ⟨z, hz, hzpage⟩ := hnamed
  have hsrc : e.ppn ∉ s.free := (h.named hz hzpage).2.2
  refine Outcome.post_bind.mpr ((getPte_post al h hd hla).mono ?_ (fun _ _ hf => hf.elim) fun _ hf => hf.elim)
  rintro r s₁ (⟨rfl, rfl⟩ | ⟨t, rfl, htabled⟩)
  · exact ⟨rfl, h.same_refused⟩
  · refine Outcome.post_bind.mpr ((allocPages_post al s₁).mono ?_ (fun _ _ hf => hf.elim) fun _ hf => hf.elim)
    rintro r s₂ (⟨rfl, rfl⟩ | ⟨page, hpage, rfl, rfl⟩)
    · exact rfl
    · have hfree : page ∈ s.free := htabled.grown.free page hpage
      have hne : e.ppn ≠ page := fun heq => hsrc (heq ▸ hfree)
      have hok₃ : (l.keep page).Ok ({ s₁.taken page with byte := Function.update s₁.byte page (s₁.byte e.ppn) }) :=
        (htabled.ok.take hpage).congr rfl rfl rfl
      have hins₃ := htabled.ok.insertable_taken hpage
      have ht₃ : (l.keep page).TableAt ({ s₁.taken page with byte := Function.update s₁.byte page (s₁.byte e.ppn) })
          dst (pdx la) t := ⟨htabled.table.1, htabled.table.2, htabled.table.3, htabled.table.4⟩
      obtain ⟨s', hrun, hins⟩ := pageInsert_post_of_present al hok₃ ht₃
        ⟨hins₃.free, fun ⟨d', i', ht'⟩ => hins₃.table ⟨d', i', ht'.1, ht'.2, ht'.3, ht'.4⟩, hins₃.dir, hins₃.ref⟩
        (e.flags &&& pteUser)
      have hattempt : (Prog.attempt (pageInsert al dst page la (e.flags &&& pteUser))).run
          { s₁.taken page with byte := Function.update s₁.byte page (s₁.byte e.ppn) } = .ok (.ok ()) s' := by
        unfold Prog.attempt
        simp only [hrun]
      refine Outcome.post_bind.mpr ?_
      show Outcome.Post _ _ _ ((do
        match ← Prog.attempt (pageInsert al dst page la (e.flags &&& pteUser)) with
        | .error _ => Prog.stop .copyInsert
        | .ok () => pure next : VmProg ℕ).run
          { s₁.taken page with byte := Function.update s₁.byte page (s₁.byte e.ppn) })
      rw [Prog.bind_of_ok hattempt]
      obtain ⟨hok, hpte, hpde, hframe, hrest⟩ := htabled.ok.added hpage
        { s₁.taken page with byte := Function.update s₁.byte page (s₁.byte e.ppn) } rfl rfl
        (fun p hp => Function.update_of_ne hp _ _) rfl ⟨rfl, rfl, rfl, rfl, rfl, rfl, rfl, rfl⟩ hins
      have hpage₁ : (s₁.pte (slotOf dst la)).page = (s.pte (slotOf dst la)).page := by rw [htabled.pte _ hx]
      refine ⟨rfl, page, hfree, hok, fun y hy => ?_, fun d' hd' k hne => ?_, htabled.frame.trans hframe, fun hnone => ?_, fun hnone => ?_,
        fun hnone => ?_⟩
      · rw [hpte y hy, htabled.pte y hy]
      · rw [hpde d' hd' k hne, htabled.pde d' hd' k hne]
      · rw [(hrest (hpage₁.trans hnone)).1]
        refine (Function.update_self _ _ _).trans ?_
        exact htabled.grown.byte _ hsrc
      · exact (hrest (hpage₁.trans hnone)).2.1
      · exact htabled.grown.trans (hrest (hpage₁.trans hnone)).2.2

/-- A turn of `copy_range`: either there is nothing to copy up to the next address, or the page of one slot is copied. -/
theorem copyTurn_post (al : Allocs) (h : l.Ok s) (hdst : dst ∈ l.dirs) (hsrc : src ∈ l.dirs)
    (hrange : UserRange start stop) (ha : InRange start stop a) (htop : stop ≤ ptSize * l.top) :
    ((copyTurn al dst src a).run s).Post
      (fun next s' => a + pageSize ≤ next ∧ next < 2 ^ 32 ∧ next % pageSize = 0 ∧
        ((s' = s ∧ ∀ x ∈ l.slots, x.In src a (min next stop) → (s.pte x).present = false) ∨
          (next = a + pageSize ∧ (s.pte (slotOf src a)).present = true ∧
            ∃ page, l.Copied (slotOf dst a) (s.pte (slotOf src a)) page s s')))
      (fun err s' => err = .noMem ∧ l.Same s s') fun p => p = .copyPage := by
  obtain ⟨halign, hnextStop, hword⟩ := ha.next hrange
  have hlt : a < 2 ^ 32 := Nat.lt_of_le_of_lt (Nat.le_add_right _ _) hword
  have hown := pdx_lt_top (l := l) ha.lt htop
  have hx : slotOf dst a ∈ l.slots := slotOf_mem_slots hdst hown
  have hy : slotOf src a ∈ l.slots := slotOf_mem_slots hsrc hown
  unfold copyTurn
  rw [Prog.bind_of_ok (getPte_false_run al src a s)]
  by_cases hpresent : (s.entry src (pdx a)).present = true
  · rw [if_pos hpresent]
    have hpte : s.pte (slotOf src a) = s.entry (s.entry src (pdx a)).ppn (ptx a) := pte_of_present (x := slotOf src a) hpresent
    rw [hpte]
    show Outcome.Post _ _ _ ((do
      let s₁ ← Prog.get
      let e := s₁.entry (s.entry src (pdx a)).ppn (ptx a)
      if e.present then do
        match ← getPte al dst a true with
        | none => Prog.throw .noMem
        | some _ =>
          match ← allocPages al 1 with
          | none => Prog.stop .copyPage
          | some npage => do
            Prog.modify fun s => { s with byte := Function.update s.byte npage (s.byte e.ppn) }
            match ← Prog.attempt (pageInsert al dst npage a (e.flags &&& pteUser)) with
            | .error _ => Prog.stop .copyInsert
            | .ok () => pure (a + pageSize)
      else pure (a + pageSize) : VmProg ℕ).run s)
    rw [Prog.run_bind, Prog.run_get, Outcome.andThen_ok]
    by_cases he : (s.entry (s.entry src (pdx a)).ppn (ptx a)).present = true
    · rw [if_pos he]
      have hnamed : ∃ z ∈ l.slots, (s.pte z).page = some (s.entry (s.entry src (pdx a)).ppn (ptx a)).ppn :=
        ⟨_, hy, by rw [hpte, Pte.page_of_present he]⟩
      refine (copyPage_post al h hx hnamed).mono ?_ (fun _ _ h => h) fun _ h => h
      rintro _ s' ⟨rfl, page, hcopied⟩
      exact ⟨Nat.le_refl _, hword, halign, Or.inr ⟨rfl, he, page, hcopied⟩⟩
    · rw [if_neg he]
      refine ⟨Nat.le_refl _, hword, halign, Or.inl ⟨rfl, fun x hx' hin => ?_⟩⟩
      rw [Nat.min_eq_left hnextStop, Slot.in_page_iff hx' ha.align hword] at hin
      rw [hin, hpte]
      exact Bool.eq_false_iff.mpr he
  · rw [if_neg hpresent]
    obtain ⟨hle, hnext, hmod⟩ := boundary_spec hrange.access ha.lt ha.align
    refine ⟨hle, hnext, hmod, Or.inl ⟨rfl, fun x hx' hin => ?_⟩⟩
    have hpde := pde_eq_of_lt (Layout.mem_slots.mp hx').2.2 hin.2.1 (Nat.lt_of_lt_of_le hin.2.2 (Nat.min_le_left _ _)) hlt
    rw [pte_of_absent (by rw [hin.1, hpde]; exact Bool.eq_false_iff.mpr hpresent), Pte.present_zero]

/-- Nothing has changed but at some slots. -/
structure Layout.Changed (l : Layout) (touched : Slot → Prop) (s s' : VmState) : Prop where
  ok : l.Ok s'
  pte : ∀ x ∈ l.slots, ¬ touched x → s'.pte x = s.pte x
  frame : l.Frame s s'

theorem Layout.Changed.trans {touched : Slot → Prop} (h : l.Changed touched s s₁) (h' : l.Changed touched s₁ s') :
    l.Changed touched s s' :=
  ⟨h'.ok, fun x hx hnot => (h'.pte x hx hnot).trans (h.pte x hx hnot), h.frame.trans h'.frame⟩

theorem Layout.Same.changed (h : l.Same s s') (touched : Slot → Prop) : l.Changed touched s s' :=
  ⟨h.ok, fun x hx _ => h.pte x hx, h.frame⟩

theorem Layout.Cleared.changed {gone : Slot → Prop} (h : l.Cleared gone s s') : l.Changed gone s s' :=
  ⟨h.ok, fun x hx hnot => h.pte x hx fun hg => (hnot hg).elim, h.frame⟩

/-- **`copy_range`** changes slots of the range only. -/
theorem copyRange_post (al : Allocs) (h : l.Ok s) (hdst : dst ∈ l.dirs) (hsrc : src ∈ l.dirs)
    (htop : stop ≤ ptSize * l.top) : ((copyRange al dst src start stop).run s).Post
      (fun _ s' => l.Changed (Slot.In dst start stop) s s')
      (fun err s' => err = .noMem ∧ l.Changed (Slot.In dst start stop) s s')
      fun p => p = .rangeAlign ∨ p = .rangeAccess ∨ p = .copyPage := by
  unfold copyRange
  refine Outcome.post_bind.mpr (checkRange_post.mono ?_ (fun _ _ hf => hf.elim) fun p hp => hp.imp_right Or.inl)
  rintro _ s₀ ⟨rfl, hrange⟩
  have hloop : ((walk (copyTurn al dst src) stop (rangeFuel start stop) start).run s₀).Post
      (fun _ s' => ∃ a, stop ≤ a ∧ Reached start stop a ∧ l.Changed (Slot.In dst start stop) s₀ s')
      (fun err s' => err = .noMem ∧ l.Changed (Slot.In dst start stop) s₀ s') fun p => p = .copyPage := by
    refine walk_post (Nat.succ_pos _) (fun a s₁ hlt hI => ?_) hrange.access.2.1 fuel_enough
      ⟨⟨hrange.startAlign, Nat.le_refl _⟩, (Layout.Same.refl h).changed _⟩
    obtain ⟨hreached, hchanged⟩ := hI
    have ha := hreached.inRange hlt
    obtain ⟨-, hnextStop, hword⟩ := ha.next hrange
    have hself : (slotOf dst a).In dst start stop := by
      have haddr : (slotOf dst a).addr = a := addr_slotOf ha.align (Nat.lt_of_le_of_lt (Nat.le_add_right _ _) hword)
      exact ⟨rfl, haddr.symm ▸ ha.le, haddr.symm ▸ ha.lt⟩
    refine (copyTurn_post al hchanged.ok hdst hsrc hrange ha htop).mono ?_ ?_ fun _ h => h
    · rintro next s' ⟨hnext, hlt32, hmod, hcase⟩
      have hreached' : Reached start stop next := ⟨hmod, Nat.le_trans ha.le (Nat.le_trans (Nat.le_add_right _ _) hnext)⟩
      refine ⟨hnext, hlt32, hreached', ?_⟩
      rcases hcase with ⟨rfl, -⟩ | ⟨-, -, page, hcopied⟩
      · exact hchanged
      · refine hchanged.trans ⟨hcopied.ok, fun x hx hnot => ?_, hcopied.frame⟩
        rw [hcopied.pte x hx, if_neg fun heq : x = slotOf dst a => hnot (heq ▸ hself)]
    · rintro err s' ⟨rfl, hsame⟩
      exact ⟨rfl, hchanged.trans (hsame.changed _)⟩
  refine hloop.mono ?_ (fun _ _ h => h) fun p hp => Or.inr (Or.inr hp)
  rintro _ s' ⟨a, -, -, hchanged⟩
  exact hchanged

end Ucore.Vm
