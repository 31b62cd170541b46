import Ucore.Lib.RefCount
import Ucore.Mm.PageFrame
import Mathlib.Data.List.ProdSigma
import Mathlib.Tactic.Common

/-!
# Page tables over the pages of a machine

* A `Slot` is a place for the entry of an address, and `VmState.pte` is what stands there. `VmState.users` counts the slots
  that name a page.
* A `Layout` says which page directories there are, how many entries of each are its own, and which pages are `kept`: they
  are neither free nor page tables nor mapped.
* `Layout.Ok` is the invariant: every other page is free, or a page table in one place, or a data page whose `ref` is the
  number of slots that name it.
* The rest are the changes that the code is made of: a page is taken and given back, it becomes a page table and stops
  being one, it is mapped and unmapped. Each has a lemma that the invariant holds after it.
-/

namespace Ucore.Vm

open Ucore.Lib

/-! ### Slots -/

/-- A page directory, one of its entries, and an entry of the page table that is there. -/
structure Slot where
  dir : ℕ
  pde : ℕ
  idx : ℕ
  deriving DecidableEq

/-- The slot for an address. -/
def slotOf (d la : ℕ) : Slot := ⟨d, pdx la, ptx la⟩

/-- The address of a slot. -/
def Slot.addr (x : Slot) : ℕ := ptSize * x.pde + pageSize * x.idx

/-- What stands at a slot. -/
def VmState.pte (s : VmState) (x : Slot) : Pte :=
  if (s.entry x.dir x.pde).present then s.entry (s.entry x.dir x.pde).ppn x.idx else .zero

/-- The page that an entry names. -/
def Pte.page (e : Pte) : Option ℕ := if e.present then some e.ppn else none

/-- The slots as users of pages. -/
def VmState.refs (s : VmState) : Refs Slot ℕ where
  holds := fun x => (s.pte x).page
  count := s.pageRef
  made := fun _ => True
  drops := fun _ => 0

variable {s s' : VmState} {d i t p page : ℕ} {x y : Slot} {e : Pte}

@[simp] theorem Pte.present_zero : Pte.zero.present = false := rfl

@[simp] theorem Pte.present_table : Pte.present ⟨page, pteU ||| pteW ||| pteP⟩ = true := by
  show (pteU ||| pteW ||| pteP).getLsbD 0 = true
  decide

@[simp] theorem Pte.present_insert (perm : BitVec 12) : Pte.present ⟨page, pteP ||| perm⟩ = true := by
  show (pteP ||| perm).getLsbD 0 = true
  rw [BitVec.getLsbD_or]
  rfl

theorem Pte.page_of_present {e : Pte} (h : e.present = true) : e.page = some e.ppn := if_pos h

theorem Pte.page_eq_none {e : Pte} : e.page = none ↔ e.present = false := by
  unfold page
  cases e.present <;> simp

theorem Pte.page_eq_some {e : Pte} {p : ℕ} : e.page = some p ↔ e.present = true ∧ e.ppn = p := by
  unfold page
  cases e.present <;> simp

/-- `get_page` is about the slot of the address. -/
theorem getPage_eq (s : VmState) (d la : ℕ) : s.getPage d la = (s.pte (slotOf d la)).page := by
  unfold VmState.getPage VmState.pte Pte.page slotOf
  cases hpresent : (s.entry d (pdx la)).present with
  | true => rfl
  | false => simp only [Bool.false_eq_true, if_false, Pte.present_zero]

theorem pte_of_present {x : Slot} (h : (s.entry x.dir x.pde).present = true) :
    s.pte x = s.entry (s.entry x.dir x.pde).ppn x.idx := if_pos h

theorem pte_of_absent (h : (s.entry x.dir x.pde).present = false) : s.pte x = .zero := by
  unfold VmState.pte
  rw [h]
  rfl

/-- Nothing has changed at the slot. -/
theorem pte_congr (hpde : s'.entry x.dir x.pde = s.entry x.dir x.pde)
    (htable : (s.entry x.dir x.pde).present = true →
      s'.entry (s.entry x.dir x.pde).ppn x.idx = s.entry (s.entry x.dir x.pde).ppn x.idx) : s'.pte x = s.pte x := by
  unfold VmState.pte
  rw [hpde]
  split_ifs with h
  · exact htable h
  · rfl

/-! ### Layouts -/

/-- What the pages of the machine are for. -/
structure Layout where
  /-- The page directories. -/
  dirs : List ℕ
  /-- How many entries a page directory has that it shares with no other. -/
  top : ℕ
  /-- The pages that are neither free nor page tables nor mapped. -/
  kept : ℕ → Prop

namespace Layout

variable (l : Layout)

/-- The slots of the page directories. -/
def slots : List Slot :=
  (l.dirs ×ˢ (List.range l.top ×ˢ List.range 1024)).map fun x => ⟨x.1, x.2.1, x.2.2⟩

variable {l}

theorem mem_slots : x ∈ l.slots ↔ x.dir ∈ l.dirs ∧ x.pde < l.top ∧ x.idx < 1024 := by
  unfold slots
  rw [List.mem_map]
  refine ⟨?_, fun h => ⟨(x.dir, x.pde, x.idx), ?_, rfl⟩⟩
  · rintro ⟨⟨d, i, j⟩, h, rfl⟩
    rw [List.mem_product, List.mem_product, List.mem_range, List.mem_range] at h
    exact h
  · rw [List.mem_product, List.mem_product, List.mem_range, List.mem_range]
    exact h

theorem nodup_slots (h : l.dirs.Nodup) : l.slots.Nodup := by
  unfold slots
  refine List.Nodup.map ?_ (h.product (List.nodup_range.product List.nodup_range))
  rintro ⟨d, i, j⟩ ⟨d', i', j'⟩ heq
  cases heq
  rfl

variable (l)

/-- The page `t` is the page table for the entry `i` of the page directory `d`. -/
structure TableAt (s : VmState) (d i t : ℕ) : Prop where
  dir : d ∈ l.dirs
  own : i < l.top
  present : (s.entry d i).present = true
  ppn : (s.entry d i).ppn = t

/-- The page is a page table. -/
def IsTable (s : VmState) (p : ℕ) : Prop := ∃ d i, l.TableAt s d i p

/-- The number of slots that name a page. -/
def users (s : VmState) (p : ℕ) : ℕ := s.refs.users l.slots p

/-- The invariant of the page tables. -/
structure Ok (s : VmState) : Prop where
  nodup : l.dirs.Nodup
  dirs : ∀ d ∈ l.dirs, l.kept d
  freeNodup : s.free.Nodup
  /-- A page table is in one place. -/
  tableInj : ∀ {d i d' i' t}, l.TableAt s d i t → l.TableAt s d' i' t → d = d' ∧ i = i'
  tableFlags : ∀ {d i t}, l.TableAt s d i t → (s.entry d i).flags = pteU ||| pteW ||| pteP
  tableKept : ∀ {p}, l.IsTable s p → ¬ l.kept p
  taken : ∀ {p}, l.kept p ∨ l.IsTable s p → p ∉ s.free ∧ l.users s p = 0
  /-- A data page is free when no slot names it. -/
  data : ∀ {p}, ¬ l.kept p → ¬ l.IsTable s p → s.pageRef p = l.users s p ∧ (p ∈ s.free ↔ l.users s p = 0)

variable {l}

theorem users_eq_zero : l.users s p = 0 ↔ ∀ x ∈ l.slots, (s.pte x).page ≠ some p := by
  unfold users Refs.users
  rw [List.countP_eq_zero]
  exact forall₂_congr fun x _ => decide_eq_true_iff.not

theorem users_pos_of_named (hx : x ∈ l.slots) (h : (s.pte x).page = some p) : 0 < l.users s p :=
  Refs.users_pos (r := s.refs) hx h

theorem exists_named (h : 0 < l.users s p) : ∃ x ∈ l.slots, (s.pte x).page = some p := by
  by_contra hnone
  push Not at hnone
  exact absurd (users_eq_zero.mpr hnone) (Nat.ne_of_gt h)

/-- The users of a page are those of the slots. -/
theorem users_congr (h : ∀ x ∈ l.slots, (s'.pte x).page = (s.pte x).page) (p : ℕ) : l.users s' p = l.users s p :=
  @Refs.users_congr _ _ _ s.refs s'.refs _ p h

/-- One slot has changed. -/
theorem users_update (hnodup : l.dirs.Nodup) (hx : x ∈ l.slots)
    (h : ∀ y ∈ l.slots, y ≠ x → (s'.pte y).page = (s.pte y).page) (p : ℕ) :
    l.users s' p + (if (s.pte x).page = some p then 1 else 0) =
      l.users s p + if (s'.pte x).page = some p then 1 else 0 := by
  have herase : s'.refs.users (l.slots.erase x) p = s.refs.users (l.slots.erase x) p := by
    refine Refs.users_congr fun y hy => h y (List.mem_of_mem_erase hy) fun heq => ?_
    exact (nodup_slots hnodup).not_mem_erase (heq ▸ hy)
  have h' : l.users s' p = s'.refs.users (l.slots.erase x) p + if (s'.pte x).page = some p then 1 else 0 :=
    Refs.users_erase (r := s'.refs) hx
  have h₀ : l.users s p = s.refs.users (l.slots.erase x) p + if (s.pte x).page = some p then 1 else 0 :=
    Refs.users_erase (r := s.refs) hx
  omega

/-- A page with one user is named by one slot. -/
theorem eq_of_users_eq_one (hnodup : l.dirs.Nodup) (hx : x ∈ l.slots) (hy : y ∈ l.slots) (hxp : (s.pte x).page = some p)
    (hyp : (s.pte y).page = some p) (hone : l.users s p = 1) : y = x := by
  by_contra hne
  have hsplit : l.users s p = s.refs.users (l.slots.erase x) p + if (s.pte x).page = some p then 1 else 0 :=
    Refs.users_erase (r := s.refs) hx
  rw [hone, if_pos hxp] at hsplit
  have hpos : 0 < s.refs.users (l.slots.erase x) p :=
    Refs.users_pos (r := s.refs) ((nodup_slots hnodup).mem_erase_iff.mpr ⟨hne, hy⟩) hyp
  omega

theorem TableAt.isTable (h : l.TableAt s d i t) : l.IsTable s t := ⟨d, i, h⟩

/-- The slot of a page table. -/
theorem TableAt.pte (h : l.TableAt s x.dir x.pde t) : s.pte x = s.entry t x.idx := by
  rw [pte_of_present h.present, h.ppn]

/-- A slot that names a page is in a page table. -/
theorem tableAt_of_named (hx : x ∈ l.slots) (h : (s.pte x).page = some p) :
    l.TableAt s x.dir x.pde (s.entry x.dir x.pde).ppn := by
  obtain ⟨hdir, hown, -⟩ := mem_slots.mp hx
  refine ⟨hdir, hown, ?_, rfl⟩
  by_contra habsent
  rw [pte_of_absent (Bool.eq_false_iff.mpr habsent)] at h
  cases h

theorem TableAt.congr (h : l.TableAt s d i t) (hentry : s'.entry d i = s.entry d i) : l.TableAt s' d i t :=
  ⟨h.dir, h.own, by rw [hentry, h.present], by rw [hentry, h.ppn]⟩

/-- The page tables are those of the entries. -/
theorem isTable_congr (h : ∀ d ∈ l.dirs, ∀ i < l.top, s'.entry d i = s.entry d i) : l.IsTable s' p ↔ l.IsTable s p :=
  ⟨fun ⟨d, i, ht⟩ => ⟨d, i, ht.congr (h d ht.dir i ht.own).symm⟩,
    fun ⟨d, i, ht⟩ => ⟨d, i, ht.congr (h d ht.dir i ht.own)⟩⟩

namespace Ok

variable (h : l.Ok s)

include h

theorem table_not_free (ht : l.TableAt s d i t) : t ∉ s.free := (h.taken (Or.inr ht.isTable)).1

theorem table_not_dir (ht : l.TableAt s d i t) (hd : p ∈ l.dirs) : t ≠ p := fun heq =>
  h.tableKept ht.isTable (heq ▸ h.dirs p hd)

theorem free_not_kept (hp : p ∈ s.free) : ¬ l.kept p := fun hkept => (h.taken (Or.inl hkept)).1 hp

theorem free_not_table (hp : p ∈ s.free) : ¬ l.IsTable s p := fun htable => (h.taken (Or.inr htable)).1 hp

theorem free_not_dir (hp : p ∈ s.free) : p ∉ l.dirs := fun hd => h.free_not_kept hp (h.dirs p hd)

theorem ref_of_free (hp : p ∈ s.free) : s.pageRef p = 0 := by
  obtain ⟨href, hfree⟩ := h.data (h.free_not_kept hp) (h.free_not_table hp)
  rw [href, hfree.mp hp]
  rfl

/-- A page that a slot names is a data page. -/
theorem named (hx : x ∈ l.slots) (hp : (s.pte x).page = some p) : ¬ l.kept p ∧ ¬ l.IsTable s p ∧ p ∉ s.free := by
  have hpos := users_pos_of_named hx hp
  have hnot : ¬ (l.kept p ∨ l.IsTable s p) := fun hor => absurd (h.taken hor).2 (Nat.ne_of_gt hpos)
  obtain ⟨hkept, htable⟩ := not_or.mp hnot
  exact ⟨hkept, htable, fun hfree => absurd ((h.data hkept htable).2.mp hfree) (Nat.ne_of_gt hpos)⟩

/-- What free pages hold does not matter, nor do other fields of the state. -/
theorem congr_taken (hfree : s'.free = s.free) (href : s'.pageRef = s.pageRef) (hentry : ∀ p ∉ s.free, s'.entry p = s.entry p) :
    l.Ok s' := by
  have hdir : ∀ d ∈ l.dirs, s'.entry d = s.entry d := fun d hd => hentry d (h.taken (Or.inl (h.dirs d hd))).1
  have hpte : ∀ x ∈ l.slots, s'.pte x = s.pte x := by
    intro x hx
    obtain ⟨hd, hown, -⟩ := mem_slots.mp hx
    exact pte_congr (by rw [hdir x.dir hd]) fun hpresent => by rw [hentry _ (h.table_not_free ⟨hd, hown, hpresent, rfl⟩)]
  have husers : ∀ p, l.users s' p = l.users s p := users_congr fun x hx => congrArg Pte.page (hpte x hx)
  have htable : ∀ p, l.IsTable s' p ↔ l.IsTable s p := fun p => isTable_congr fun d hd i _ => by rw [hdir d hd]
  have hat : ∀ {d i t}, l.TableAt s' d i t → l.TableAt s d i t := fun {d i t} ht => ht.congr (by rw [hdir d ht.dir])
  refine ⟨h.nodup, h.dirs, hfree ▸ h.freeNodup, fun {d i d' i' t} ht ht' => ?_, fun {d i t} ht => ?_, fun {p} hp => ?_,
    fun {p} hp => ?_, fun {p} hkept hp => ?_⟩
  · exact h.tableInj (hat ht) (hat ht')
  · rw [hdir d ht.dir]
    exact h.tableFlags (hat ht)
  · exact h.tableKept ((htable p).mp hp)
  · rw [hfree, husers]
    exact h.taken (hp.imp_right (htable p).mp)
  · rw [hfree, href, husers]
    exact h.data hkept ((htable p).not.mp hp)

theorem congr (hfree : s'.free = s.free) (href : s'.pageRef = s.pageRef) (hentry : s'.entry = s.entry) : l.Ok s' :=
  h.congr_taken hfree href fun p _ => by rw [hentry]

end Ok

/-! ### A page is taken and given back -/

/-- The page is no longer free, or a directory, or mapped. -/
def keep (l : Layout) (page : ℕ) : Layout := { l with kept := fun p => p = page ∨ l.kept p }

/-- The page is free, or a page table, or mapped. -/
def release (l : Layout) (page : ℕ) : Layout := { l with kept := fun p => l.kept p ∧ p ≠ page }

theorem release_of_not_kept (hpage : ¬ l.kept page) : l.release page = l := by
  unfold release
  have hkept : (fun p => l.kept p ∧ p ≠ page) = l.kept :=
    funext fun p => propext ⟨fun h => h.1, fun h => ⟨h, fun heq => hpage (heq ▸ h)⟩⟩
  rw [hkept]

theorem release_keep (hpage : ¬ l.kept page) : (l.keep page).release page = l := by
  unfold release keep
  have hkept : (fun p => (p = page ∨ l.kept p) ∧ p ≠ page) = l.kept :=
    funext fun p => propext ⟨fun h => h.1.resolve_left h.2, fun h => ⟨Or.inr h, fun heq => hpage (heq ▸ h)⟩⟩
  simp only [hkept]

end Layout

/-- The state in which a page has been allocated. -/
def VmState.taken (s : VmState) (page : ℕ) : VmState :=
  { s with asked := s.asked + 1, free := s.free.filter fun p => ¬ (page ≤ p ∧ p < page + 1) }

theorem mem_free_taken : p ∈ (s.taken page).free ↔ p ∈ s.free ∧ p ≠ page := by
  unfold VmState.taken
  simp only [List.mem_filter, decide_eq_true_iff]
  exact and_congr_right fun _ => by omega

/-- The state in which an allocation has failed. -/
def VmState.refused (s : VmState) : VmState := { s with asked := s.asked + 1 }

theorem allocPages_post (al : Allocs) (s : VmState) : ((allocPages al 1).run s).Post
    (fun r s' => (r = none ∧ s' = s.refused) ∨ ∃ page ∈ s.free, r = some page ∧ s' = s.taken page)
    (fun _ _ => False) fun _ => False := by
  unfold allocPages
  rw [Prog.run_bind, Prog.run_get, Outcome.andThen_ok, Prog.run_bind, Prog.run_modify, Outcome.andThen_ok]
  cases hpick : al.pick s.asked 1 s.free with
  | none => exact Or.inl ⟨rfl, rfl⟩
  | some page => exact Or.inr ⟨page, al.pick_free _ _ _ _ hpick 0 Nat.one_pos, rfl, rfl⟩

namespace Layout

namespace Ok

variable {l : Layout} (h : l.Ok s)

include h

theorem refused : l.Ok s.refused := h.congr rfl rfl rfl

theorem take (hpage : page ∈ s.free) : (l.keep page).Ok (s.taken page) := by
  have hkept : ∀ {p}, (l.keep page).kept p ↔ p = page ∨ l.kept p := Iff.rfl
  have husers : ∀ p, (l.keep page).users (s.taken page) p = l.users s p := fun _ => rfl
  have htable : ∀ p, (l.keep page).IsTable (s.taken page) p ↔ l.IsTable s p :=
    fun p => ⟨fun ⟨d, i, ht⟩ => ⟨d, i, ht.1, ht.2, ht.3, ht.4⟩, fun ⟨d, i, ht⟩ => ⟨d, i, ht.1, ht.2, ht.3, ht.4⟩⟩
  refine ⟨h.nodup, fun d hd => Or.inr (h.dirs d hd), h.freeNodup.filter _, fun {d i d' i' t} ht ht' => ?_,
    fun {d i t} ht => h.tableFlags ⟨ht.1, ht.2, ht.3, ht.4⟩, fun {p} hp => ?_, fun {p} hp => ?_,
    fun {p} hnot hp => ?_⟩
  · exact h.tableInj ⟨ht.1, ht.2, ht.3, ht.4⟩ ⟨ht'.1, ht'.2, ht'.3, ht'.4⟩
  · rw [htable] at hp
    rw [hkept, not_or]
    exact ⟨fun heq => h.free_not_table (heq ▸ hpage) hp, h.tableKept hp⟩
  · rw [hkept, htable] at hp
    rw [mem_free_taken, husers]
    by_cases heq : p = page
    · rw [heq]
      exact ⟨fun hmem => hmem.2 rfl, (h.data (h.free_not_kept hpage) (h.free_not_table hpage)).2.mp hpage⟩
    · obtain ⟨hfree, hzero⟩ := h.taken (hp.imp_left fun hor => hor.resolve_left heq)
      exact ⟨fun hmem => hfree hmem.1, hzero⟩
  · rw [hkept, not_or] at hnot
    rw [htable] at hp
    rw [mem_free_taken, husers]
    obtain ⟨href, hfree⟩ := h.data hnot.2 hp
    exact ⟨href, ⟨fun hmem => hfree.mp hmem.1, fun hzero => ⟨hfree.mpr hzero, hnot.1⟩⟩⟩

end Ok

end Layout

/-- The state in which a page has been freed. -/
def VmState.freed (s : VmState) (page : ℕ) : VmState :=
  { s with free := page :: s.free, pageRef := Function.update s.pageRef page 0 }

namespace Layout

variable {l : Layout}

/-- A page that is not in use otherwise is freed. -/
theorem Ok.give (h : l.Ok s) (hpage : l.kept page) (hdir : page ∉ l.dirs) : (l.release page).Ok (s.freed page) := by
  have hkept : ∀ {p}, (l.release page).kept p ↔ l.kept p ∧ p ≠ page := Iff.rfl
  have husers : ∀ p, (l.release page).users (s.freed page) p = l.users s p := fun _ => rfl
  have hfree : ∀ p, p ∈ (s.freed page).free ↔ p = page ∨ p ∈ s.free := fun p => List.mem_cons
  have htable : ∀ p, (l.release page).IsTable (s.freed page) p ↔ l.IsTable s p :=
    fun p => ⟨fun ⟨d, i, ht⟩ => ⟨d, i, ht.1, ht.2, ht.3, ht.4⟩, fun ⟨d, i, ht⟩ => ⟨d, i, ht.1, ht.2, ht.3, ht.4⟩⟩
  have hzero := h.taken (Or.inl hpage)
  refine ⟨h.nodup, fun d hd => ⟨h.dirs d hd, fun heq => hdir (heq ▸ hd)⟩, List.nodup_cons.mpr ⟨hzero.1, h.freeNodup⟩,
    fun {d i d' i' t} ht ht' => ?_, fun {d i t} ht => h.tableFlags ⟨ht.1, ht.2, ht.3, ht.4⟩, fun {p} hp hnot => ?_,
    fun {p} hp => ?_, fun {p} hnot hp => ?_⟩
  · exact h.tableInj ⟨ht.1, ht.2, ht.3, ht.4⟩ ⟨ht'.1, ht'.2, ht'.3, ht'.4⟩
  · exact h.tableKept ((htable p).mp hp) hnot.1
  · rw [hkept, htable] at hp
    rw [hfree, husers]
    obtain ⟨hnot, hnone⟩ := h.taken (hp.imp_left And.left)
    refine ⟨?_, hnone⟩
    rintro (rfl | hmem)
    · exact hp.elim (fun hand => hand.2 rfl) fun ht => h.tableKept ht hpage
    · exact hnot hmem
  · rw [hkept, not_and_or, not_not] at hnot
    rw [htable] at hp
    rw [hfree, husers]
    show Function.update s.pageRef page 0 p = _ ∧ _
    by_cases heq : p = page
    · rw [heq, Function.update_self, hzero.2]
      exact ⟨rfl, fun _ => rfl, fun _ => Or.inl rfl⟩
    · obtain ⟨href, hiff⟩ := h.data (hnot.resolve_right heq) hp
      rw [Function.update_of_ne heq, or_iff_right heq]
      exact ⟨href, hiff⟩

end Layout

/-! ### Page tables come and go -/

/-- The state in which a page has become the page table for an entry. -/
def VmState.tabled (s : VmState) (d i page : ℕ) : VmState :=
  { s with
    pageRef := Function.update s.pageRef page 1
    byte := Function.update s.byte page fun _ => 0
    entry := Function.update (Function.update s.entry page fun _ => .zero) d
      (Function.update ((Function.update s.entry page fun _ => .zero) d) i ⟨page, pteU ||| pteW ||| pteP⟩) }

theorem entry_tabled_self : (s.tabled d i page).entry d i = ⟨page, pteU ||| pteW ||| pteP⟩ := by
  unfold VmState.tabled
  simp only [Function.update_self]

theorem entry_tabled_page (hne : page ≠ d) (k : ℕ) : (s.tabled d i page).entry page k = .zero := by
  unfold VmState.tabled
  simp only
  rw [Function.update_of_ne hne, Function.update_self]

theorem entry_tabled_of_ne {q k : ℕ} (hq : q ≠ page) (hne : ¬ (q = d ∧ k = i)) :
    (s.tabled d i page).entry q k = s.entry q k := by
  unfold VmState.tabled
  simp only
  by_cases hqd : q = d
  · subst hqd
    rw [Function.update_self, Function.update_of_ne fun hk => hne ⟨rfl, hk⟩, Function.update_of_ne hq]
  · rw [Function.update_of_ne hqd, Function.update_of_ne hq]

/-- The state in which an entry of a page has been set. -/
theorem entry_setEntry (q k : ℕ) :
    (s.setEntry page i e).entry q k = if q = page ∧ k = i then e else s.entry q k := by
  show Function.update s.entry page (Function.update (s.entry page) i e) q k = _
  by_cases hq : q = page
  · subst hq
    rw [Function.update_self, Function.update_apply]
    simp only [true_and]
  · rw [Function.update_of_ne hq, if_neg fun hand => hq hand.1]

namespace Layout

variable {l : Layout}

namespace Ok

/-- A new page table is empty, so that nothing changes at any slot. -/
theorem pte_tabled (h : l.Ok s) (hpage : l.kept page) (hd : d ∈ l.dirs) (hdir : page ∉ l.dirs)
    (habsent : (s.entry d i).present = false) (hx : x ∈ l.slots) : (s.tabled d i page).pte x = s.pte x := by
  have hxd := (mem_slots.mp hx).1
  have hnepage : ∀ {q}, q ∈ l.dirs → q ≠ page := fun hq heq => hdir (heq ▸ hq)
  by_cases hself : x.dir = d ∧ x.pde = i
  · have hnew : (s.tabled d i page).entry x.dir x.pde = ⟨page, pteU ||| pteW ||| pteP⟩ := by
      rw [hself.1, hself.2, entry_tabled_self]
    have habs : (s.entry x.dir x.pde).present = false := by rw [hself.1, hself.2, habsent]
    have hpresent : ((s.tabled d i page).entry x.dir x.pde).present = true := by rw [hnew, Pte.present_table]
    rw [pte_of_absent habs, pte_of_present hpresent, hnew]
    exact entry_tabled_page (hnepage hd).symm _
  · refine pte_congr (entry_tabled_of_ne (hnepage hxd) hself) fun hpresent => ?_
    have ht : l.TableAt s x.dir x.pde (s.entry x.dir x.pde).ppn := ⟨hxd, (mem_slots.mp hx).2.1, hpresent, rfl⟩
    refine entry_tabled_of_ne (fun heq => h.tableKept ht.isTable (heq ▸ hpage)) fun hand => ?_
    exact h.table_not_dir ht hd hand.1

/-- A page becomes a page table. -/
theorem makeTable (h : l.Ok s) (hpage : l.kept page) (hd : d ∈ l.dirs) (hi : i < l.top) (hdir : page ∉ l.dirs)
    (habsent : (s.entry d i).present = false) : (l.release page).Ok (s.tabled d i page) := by
  have hnepage : ∀ {q}, q ∈ l.dirs → q ≠ page := fun hq heq => hdir (heq ▸ hq)
  have husers : ∀ p, (l.release page).users (s.tabled d i page) p = l.users s p :=
    users_congr (l := l) fun x hx => congrArg Pte.page (h.pte_tabled hpage hd hdir habsent hx)
  have htableAt : ∀ {d' i' t}, (l.release page).TableAt (s.tabled d i page) d' i' t ↔
      (d' = d ∧ i' = i ∧ t = page) ∨ l.TableAt s d' i' t := by
    intro d' i' t
    constructor
    · rintro ⟨hd', hi', hpresent, hppn⟩
      by_cases hself : d' = d ∧ i' = i
      · rw [hself.1, hself.2, entry_tabled_self] at hppn
        exact Or.inl ⟨hself.1, hself.2, hppn.symm⟩
      · have hsame : (s.tabled d i page).entry d' i' = s.entry d' i' := entry_tabled_of_ne (hnepage hd') hself
        rw [hsame] at hpresent hppn
        exact Or.inr ⟨hd', hi', hpresent, hppn⟩
    · rintro (⟨rfl, rfl, rfl⟩ | ht)
      · exact ⟨hd, hi, by rw [entry_tabled_self, Pte.present_table], by rw [entry_tabled_self]⟩
      · have hself : ¬ (d' = d ∧ i' = i) := by
          rintro ⟨rfl, rfl⟩
          rw [ht.present] at habsent
          cases habsent
        have hsame : (s.tabled d i page).entry d' i' = s.entry d' i' := entry_tabled_of_ne (hnepage ht.dir) hself
        exact ⟨ht.dir, ht.own, by rw [hsame, ht.present], by rw [hsame, ht.ppn]⟩
  have htable : ∀ {p}, (l.release page).IsTable (s.tabled d i page) p ↔ p = page ∨ l.IsTable s p := by
    intro p
    constructor
    · rintro ⟨d', i', ht⟩
      exact (htableAt.mp ht).imp (fun hand => hand.2.2) TableAt.isTable
    · rintro (rfl | ⟨d', i', ht⟩)
      · exact ⟨d, i, htableAt.mpr (Or.inl ⟨rfl, rfl, rfl⟩)⟩
      · exact ⟨d', i', htableAt.mpr (Or.inr ht)⟩
  have hnotTable : ∀ {d' i'}, ¬ l.TableAt s d' i' page := fun ht => h.tableKept ht.isTable hpage
  refine ⟨h.nodup, fun d hd => ⟨h.dirs d hd, hnepage hd⟩, h.freeNodup, fun {d₁ i₁ d₂ i₂ t} h₁ h₂ => ?_,
    fun {d' i' t} ht => ?_, fun {p} hp hnot => ?_, fun {p} hp => ?_, fun {p} hnot hp => ?_⟩
  · rcases htableAt.mp h₁ with ⟨hd₁, hi₁, ht₁⟩ | hold₁ <;> rcases htableAt.mp h₂ with ⟨hd₂, hi₂, ht₂⟩ | hold₂
    · exact ⟨hd₁.trans hd₂.symm, hi₁.trans hi₂.symm⟩
    · exact (hnotTable (ht₁ ▸ hold₂)).elim
    · exact (hnotTable (ht₂ ▸ hold₁)).elim
    · exact h.tableInj hold₁ hold₂
  · by_cases hself : d' = d ∧ i' = i
    · rw [hself.1, hself.2, entry_tabled_self]
    · rw [entry_tabled_of_ne (hnepage ht.dir) hself]
      exact h.tableFlags ((htableAt.mp ht).resolve_left fun hand => hself ⟨hand.1, hand.2.1⟩)
  · exact (htable.mp hp).elim hnot.2 fun ht => h.tableKept ht hnot.1
  · rw [htable] at hp
    rw [husers]
    show p ∉ s.free ∧ _
    refine h.taken ?_
    rcases hp with hkept | rfl | ht
    · exact Or.inl hkept.1
    · exact Or.inl hpage
    · exact Or.inr ht
  · rw [htable, not_or] at hp
    rw [husers]
    show Function.update s.pageRef page 1 p = _ ∧ (p ∈ s.free ↔ _)
    rw [Function.update_of_ne hp.1]
    exact h.data (fun hkept => hnot ⟨hkept, hp.1⟩) hp.2

/-- An entry of a page table is set. -/
theorem pte_setEntry (h : l.Ok s) (ht : l.TableAt s x.dir x.pde t) (hy : y ∈ l.slots) :
    (s.setEntry t x.idx e).pte y = if y = x then e else s.pte y := by
  have hpde : (s.setEntry t x.idx e).entry y.dir y.pde = s.entry y.dir y.pde := by
    rw [entry_setEntry, if_neg fun hand => h.table_not_dir ht (mem_slots.mp hy).1 hand.1.symm]
  by_cases heq : y = x
  · subst heq
    have hpresent : ((s.setEntry t y.idx e).entry y.dir y.pde).present = true := by rw [hpde, ht.present]
    rw [if_pos rfl, pte_of_present hpresent, hpde, ht.ppn, entry_setEntry, if_pos ⟨rfl, rfl⟩]
  · rw [if_neg heq]
    refine pte_congr hpde fun hpresent => ?_
    have hty : l.TableAt s y.dir y.pde (s.entry y.dir y.pde).ppn :=
      ⟨(mem_slots.mp hy).1, (mem_slots.mp hy).2.1, hpresent, rfl⟩
    rw [entry_setEntry, if_neg]
    rintro ⟨hppn, hidx⟩
    rw [hppn] at hty
    obtain ⟨hdir, hpde⟩ := h.tableInj hty ht
    cases x
    cases y
    cases hdir
    cases hpde
    cases hidx
    exact heq rfl

theorem tableAt_setEntry (h : l.Ok s) (ht : l.TableAt s d i t) {k d' i' t' : ℕ} :
    l.TableAt (s.setEntry t k e) d' i' t' ↔ l.TableAt s d' i' t' := by
  have hsame : ∀ {d'}, d' ∈ l.dirs → (s.setEntry t k e).entry d' i' = s.entry d' i' := by
    intro d' hd'
    rw [entry_setEntry, if_neg fun hand => h.table_not_dir ht hd' hand.1.symm]
  exact ⟨fun ht' => ht'.congr (hsame ht'.dir).symm, fun ht' => ht'.congr (hsame ht'.dir)⟩

theorem tableFlags_setEntry (h : l.Ok s) (ht : l.TableAt s d i t) {k d' i' t' : ℕ} (ht' : l.TableAt s d' i' t') :
    ((s.setEntry t k e).entry d' i').flags = pteU ||| pteW ||| pteP := by
  rw [entry_setEntry, if_neg fun hand => h.table_not_dir ht ht'.dir hand.1.symm]
  exact h.tableFlags ht'

/-- The slot names another page now, or none. -/
theorem users_setEntry (h : l.Ok s) (ht : l.TableAt s x.dir x.pde t) (hx : x ∈ l.slots) (p : ℕ) :
    l.users (s.setEntry t x.idx e) p + (if (s.pte x).page = some p then 1 else 0) =
      l.users s p + if e.page = some p then 1 else 0 := by
  have hself : (s.setEntry t x.idx e).pte x = e := by rw [h.pte_setEntry ht hx, if_pos rfl]
  have hupdate := users_update h.nodup hx (fun y hy hne => show ((s.setEntry t x.idx e).pte y).page = (s.pte y).page by
    rw [h.pte_setEntry ht hy, if_neg hne]) p
  rwa [hself] at hupdate

end Ok

end Layout

/-! ### Pages are mapped and unmapped -/

/-- The state in which an entry names one page more. -/
def VmState.mapped (s : VmState) (t k page : ℕ) (e : Pte) : VmState :=
  (s.setRef page (s.pageRef page + 1)).setEntry t k e

/-- The state in which the entry of a page has been removed. -/
def VmState.unmapped (s : VmState) (t k page : ℕ) : VmState :=
  (if s.pageRef page - 1 = 0 then (s.setRef page (s.pageRef page - 1)).freed page
    else s.setRef page (s.pageRef page - 1)).setEntry t k .zero

theorem pageRef_unmapped (k : ℕ) :
    (s.unmapped t k page).pageRef = Function.update s.pageRef page (s.pageRef page - 1) := by
  unfold VmState.unmapped
  split_ifs with hzero
  · show Function.update (Function.update s.pageRef page (s.pageRef page - 1)) page 0 = _
    rw [Function.update_idem, hzero]
  · rfl

theorem free_unmapped (k : ℕ) :
    (s.unmapped t k page).free = if s.pageRef page - 1 = 0 then page :: s.free else s.free := by
  unfold VmState.unmapped
  split_ifs <;> rfl

theorem entry_unmapped (k : ℕ) : (s.unmapped t k page).entry = (s.setEntry t k .zero).entry := by
  unfold VmState.unmapped
  split_ifs <;> rfl

theorem pageRemovePte_run_of_present {k : ℕ} (h : (s.entry t k).present = true) :
    (pageRemovePte t k).run s = .ok () (s.unmapped t k (s.entry t k).ppn) := by
  unfold pageRemovePte VmState.unmapped
  rw [Prog.run_bind, Prog.run_get, Outcome.andThen_ok, if_pos h]
  have href : (s.setRef (s.entry t k).ppn (s.pageRef (s.entry t k).ppn - 1)).pageRef (s.entry t k).ppn =
      s.pageRef (s.entry t k).ppn - 1 := Function.update_self _ _ _
  have hdec : (setPageRef (s.entry t k).ppn fun n => n - 1).run s =
    .ok () (s.setRef (s.entry t k).ppn (s.pageRef (s.entry t k).ppn - 1)) := rfl
  rw [Prog.bind_of_ok hdec]
  rw [Prog.run_bind, Prog.run_get, Outcome.andThen_ok, href]
  split_ifs <;> rfl

theorem pageRemovePte_run_of_absent {k : ℕ} (h : (s.entry t k).present = false) :
    (pageRemovePte t k).run s = .ok () s := by
  unfold pageRemovePte
  rw [Prog.run_bind, Prog.run_get, Outcome.andThen_ok, if_neg (Bool.eq_false_iff.mp h)]
  rfl

namespace Layout

variable {l : Layout}

namespace Ok

/-- A slot that named nothing names a page: one that is mapped already, or one that was kept for it. -/
theorem map (h : l.Ok s) (ht : l.TableAt s x.dir x.pde t) (hx : x ∈ l.slots) (hnone : (s.pte x).page = none)
    (hfree : page ∉ s.free) (htable : ¬ l.IsTable s page) (hdir : page ∉ l.dirs)
    (href : l.kept page → s.pageRef page = 0) (he : e.page = some page) :
    (l.release page).Ok (s.mapped t x.idx page e) := by
  have husers : ∀ p, (l.release page).users (s.mapped t x.idx page e) p = l.users s p + if p = page then 1 else 0 := by
    intro p
    have hset : l.users (s.setEntry t x.idx e) p + (if (s.pte x).page = some p then 1 else 0) =
      l.users s p + if e.page = some p then 1 else 0 := h.users_setEntry ht hx p
    rw [hnone, he, if_neg (Option.some_ne_none p).symm, Nat.add_zero, if_congr (Option.some_inj.trans eq_comm) rfl rfl] at hset
    exact hset
  have htables : ∀ {d i t'}, (l.release page).TableAt (s.mapped t x.idx page e) d i t' → l.TableAt s d i t' :=
    fun ht' => (h.tableAt_setEntry ht (k := x.idx) (e := e)).mp ⟨ht'.1, ht'.2, ht'.3, ht'.4⟩
  have hisTable : ∀ {p}, (l.release page).IsTable (s.mapped t x.idx page e) p ↔ l.IsTable s p := by
    refine fun {p} => ⟨fun ⟨d, i, ht'⟩ => ⟨d, i, htables ht'⟩, fun ⟨d, i, ht'⟩ => ⟨d, i, ?_⟩⟩
    have hafter := (h.tableAt_setEntry ht (k := x.idx) (e := e)).mpr ht'
    exact ⟨hafter.1, hafter.2, hafter.3, hafter.4⟩
  have hnotFree : l.users s page = 0 → l.kept page := by
    intro hzero
    by_contra hkept
    exact hfree ((h.data hkept htable).2.mpr hzero)
  refine ⟨h.nodup, fun d hd => ⟨h.dirs d hd, fun heq => hdir (heq ▸ hd)⟩, h.freeNodup,
    fun {d i d' i' t'} h₁ h₂ => h.tableInj (htables h₁) (htables h₂),
    fun {d i t'} h₁ => h.tableFlags_setEntry ht (htables h₁),
    fun {p} hp hkept => h.tableKept (hisTable.mp hp) hkept.1, fun {p} hp => ?_, fun {p} hkept hp => ?_⟩
  · rw [hisTable] at hp
    have hne : p ≠ page := fun heq => hp.elim (fun hkept => hkept.2 heq) fun ht' => htable (heq ▸ ht')
    rw [husers, if_neg hne]
    exact h.taken (hp.imp_left And.left)
  · rw [hisTable] at hp
    rw [husers]
    show Function.update s.pageRef page (s.pageRef page + 1) p = _ ∧ (p ∈ s.free ↔ _)
    by_cases heq : p = page
    · subst heq
      rw [Function.update_self, if_pos rfl]
      refine ⟨?_, fun hmem => (hfree hmem).elim, fun hzero => (Nat.succ_ne_zero _ hzero).elim⟩
      by_cases hk : l.kept p
      · rw [href hk, (h.taken (Or.inl hk)).2]
        rfl
      · rw [(h.data hk hp).1]
        rfl
    · rw [Function.update_of_ne heq, if_neg heq, Nat.add_zero]
      exact h.data (fun hk => hkept ⟨hk, heq⟩) hp

/-- A slot that named a page names nothing, and a page that no slot names is freed. -/
theorem unmap (h : l.Ok s) (ht : l.TableAt s x.dir x.pde t) (hx : x ∈ l.slots) (hpage : (s.pte x).page = some page) :
    l.Ok (s.unmapped t x.idx page) := by
  obtain ⟨hkept, htable, hfree⟩ := h.named hx hpage
  have hdata := h.data hkept htable
  have hpos := users_pos_of_named hx hpage
  have hentry : (s.unmapped t x.idx page).entry = (s.setEntry t x.idx .zero).entry := entry_unmapped x.idx
  have husers : ∀ p, l.users (s.unmapped t x.idx page) p + (if p = page then 1 else 0) = l.users s p := by
    intro p
    have hset := h.users_setEntry (e := .zero) ht hx p
    have hsame : l.users (s.unmapped t x.idx page) p = l.users (s.setEntry t x.idx .zero) p :=
      users_congr (fun y _ => congrArg Pte.page (pte_congr (by rw [hentry]) fun _ => by rw [hentry])) p
    have hzero : Pte.zero.page = none := rfl
    rw [hpage, hzero, if_neg (Option.some_ne_none p).symm, Nat.add_zero,
      if_congr (Option.some_inj.trans eq_comm) rfl rfl] at hset
    rw [hsame, hset]
  have htables : ∀ {d i t'}, l.TableAt (s.unmapped t x.idx page) d i t' ↔ l.TableAt s d i t' := by
    intro d i t'
    rw [← h.tableAt_setEntry ht (k := x.idx) (e := .zero)]
    exact ⟨fun ht' => ht'.congr (by rw [hentry]), fun ht' => ht'.congr (by rw [hentry])⟩
  have hisTable : ∀ {p}, l.IsTable (s.unmapped t x.idx page) p ↔ l.IsTable s p :=
    ⟨fun ⟨d, i, ht'⟩ => ⟨d, i, htables.mp ht'⟩, fun ⟨d, i, ht'⟩ => ⟨d, i, htables.mpr ht'⟩⟩
  have hlast : s.pageRef page - 1 = 0 ↔ l.users s page = 1 := by
    rw [hdata.1]
    omega
  have hmem : ∀ p, p ∈ (s.unmapped t x.idx page).free ↔ p ∈ s.free ∨ (p = page ∧ l.users s page = 1) := by
    intro p
    rw [free_unmapped, ← hlast]
    split_ifs with hzero
    · rw [List.mem_cons]
      exact ⟨fun hor => hor.symm.imp_right fun heq => ⟨heq, hzero⟩, fun hor => (hor.imp_right And.left).symm⟩
    · exact ⟨Or.inl, fun hor => hor.resolve_right fun hand => hzero hand.2⟩
  refine ⟨h.nodup, h.dirs, ?_, fun {d i d' i' t'} h₁ h₂ => h.tableInj (htables.mp h₁) (htables.mp h₂),
    fun {d i t'} h₁ => hentry ▸ h.tableFlags_setEntry ht (htables.mp h₁), fun {p} hp => h.tableKept (hisTable.mp hp), fun {p} hp => ?_, fun {p} hk hp => ?_⟩
  · rw [free_unmapped]
    split_ifs
    · exact List.nodup_cons.mpr ⟨hfree, h.freeNodup⟩
    · exact h.freeNodup
  · rw [hisTable] at hp
    have hne : p ≠ page := fun heq => hp.elim (fun hk => hkept (heq ▸ hk)) fun ht' => htable (heq ▸ ht')
    have hu := husers p
    rw [if_neg hne, Nat.add_zero] at hu
    rw [hmem, hu]
    obtain ⟨hnot, hzero⟩ := h.taken hp
    exact ⟨fun hor => hor.elim hnot fun hand => hne hand.1, hzero⟩
  · rw [hisTable] at hp
    rw [pageRef_unmapped, hmem]
    have hu := husers p
    by_cases heq : p = page
    · subst heq
      rw [if_pos rfl] at hu
      rw [Function.update_self, hdata.1]
      refine ⟨by omega, ⟨fun hor => ?_, fun hzero => Or.inr ⟨rfl, by omega⟩⟩⟩
      have hone := (hor.resolve_left hfree).2
      omega
    · rw [if_neg heq, Nat.add_zero] at hu
      rw [Function.update_of_ne heq, hu, or_iff_left fun hand => heq hand.1]
      exact h.data hk hp

/-- A slot goes on naming its page, with other flags. -/
theorem reflag (h : l.Ok s) (ht : l.TableAt s x.dir x.pde t) (hx : x ∈ l.slots) (hpage : (s.pte x).page = some page)
    (he : e.page = some page) : l.Ok (s.setEntry t x.idx e) := by
  have husers : ∀ p, l.users (s.setEntry t x.idx e) p = l.users s p := by
    intro p
    have hset := h.users_setEntry (e := e) ht hx p
    rw [hpage, he] at hset
    exact Nat.add_right_cancel hset
  have hisTable : ∀ {p}, l.IsTable (s.setEntry t x.idx e) p ↔ l.IsTable s p :=
    ⟨fun ⟨d, i, ht'⟩ => ⟨d, i, (h.tableAt_setEntry ht).mp ht'⟩, fun ⟨d, i, ht'⟩ => ⟨d, i, (h.tableAt_setEntry ht).mpr ht'⟩⟩
  refine ⟨h.nodup, h.dirs, h.freeNodup,
    fun {d i d' i' t'} h₁ h₂ => h.tableInj ((h.tableAt_setEntry ht).mp h₁) ((h.tableAt_setEntry ht).mp h₂),
    fun {d i t'} h₁ => h.tableFlags_setEntry ht ((h.tableAt_setEntry ht).mp h₁),
    fun {p} hp => h.tableKept (hisTable.mp hp), fun {p} hp => ?_, fun {p} hk hp => ?_⟩
  · rw [husers]
    exact h.taken (hp.imp_right hisTable.mp)
  · rw [husers]
    exact h.data hk (hisTable.not.mp hp)

end Ok

end Layout

end Ucore.Vm
