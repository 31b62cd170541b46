import Ucore.Mm.PageMaps
import Mathlib.Tactic.Common

/-!
# Page directories come and go

* `Layout.Ok.addDir` is for a page that has become a page directory without entries of its own, as `setup_pgdir` makes
  it, and `Layout.Ok.dropDir` for a page directory that has no entries any more.
* `Layout.Boots` is what `setup_pgdir` needs of `boot_pgdir`, which it copies.
-/

namespace Ucore.Vm

open Ucore.Lib

variable {s s₁ s' : VmState} {d m p page : ℕ} {x : Slot} {l : Layout}

namespace Layout

/-- The page is a page directory. -/
def addDir (l : Layout) (page : ℕ) : Layout := { l.keep page with dirs := page :: l.dirs }

/-- The page is no page directory any more. -/
def dropDir (l : Layout) (page : ℕ) : Layout := { l.release page with dirs := l.dirs.erase page }

/-- The slots of a page directory that names nothing do not count. -/
theorem users_erase_dir (hd : d ∈ l.dirs) (hnone : ∀ x ∈ l.slots, x.dir = d → (s.pte x).page = none) (p : ℕ) :
    ({ l with dirs := l.dirs.erase d } : Layout).users s p = l.users s p := by
  have hperm : l.slots.Perm ((({ l with dirs := [d] } : Layout).slots) ++ ({ l with dirs := l.dirs.erase d } : Layout).slots) := by
    unfold slots
    rw [← List.map_append]
    refine List.Perm.map _ ?_
    have hdirs : l.dirs.Perm ([d] ++ l.dirs.erase d) := List.perm_cons_erase hd
    refine (List.Perm.product hdirs (List.Perm.refl _)).trans ?_
    simp only [List.cons_append, List.nil_append, List.product_cons, List.nil_product, List.append_nil]
    exact List.Perm.refl _
  have hzero : (({ l with dirs := [d] } : Layout).slots).countP (fun x => decide (s.refs.holds x = some p)) = 0 := by
    rw [List.countP_eq_zero]
    intro x hx
    obtain ⟨hdir, hbounds⟩ := mem_slots.mp hx
    have hdir' : x.dir = d := List.mem_singleton.mp hdir
    have hx' : x ∈ l.slots := mem_slots.mpr ⟨hdir' ▸ hd, hbounds⟩
    rw [decide_eq_true_iff]
    exact fun hnamed => Option.some_ne_none p (hnamed.symm.trans (hnone x hx' hdir'))
  unfold users Refs.users
  rw [hperm.countP_eq, List.countP_append, hzero, Nat.zero_add]

/-- **A page directory that has no entries is no page directory any more**; its page is kept. -/
theorem Ok.eraseDir (h : l.Ok s) (hd : d ∈ l.dirs) (hempty : ∀ i < l.top, (s.entry d i).present = false) :
    ({ l with dirs := l.dirs.erase d } : Layout).Ok s := by
  have hnone : ∀ x ∈ l.slots, x.dir = d → (s.pte x).page = none := by
    intro x hx hdir
    rw [pte_of_absent (by rw [hdir]; exact hempty x.pde (mem_slots.mp hx).2.1)]
    rfl
  have husers := fun p => users_erase_dir (p := p) hd hnone
  have htableAt : ∀ {d' i t}, ({ l with dirs := l.dirs.erase d } : Layout).TableAt s d' i t ↔ l.TableAt s d' i t := by
    intro d' i t
    refine ⟨fun ht => ⟨List.mem_of_mem_erase ht.dir, ht.own, ht.present, ht.ppn⟩, fun ht => ⟨?_, ht.own, ht.present, ht.ppn⟩⟩
    refine (List.mem_erase_of_ne fun heq : d' = d => ?_).mpr ht.dir
    have hpresent := ht.present
    rw [heq, hempty i ht.own] at hpresent
    cases hpresent
  have htable : ∀ {p}, ({ l with dirs := l.dirs.erase d } : Layout).IsTable s p ↔ l.IsTable s p :=
    ⟨fun ⟨d', i, ht⟩ => ⟨d', i, htableAt.mp ht⟩, fun ⟨d', i, ht⟩ => ⟨d', i, htableAt.mpr ht⟩⟩
  refine ⟨h.nodup.erase d, fun d' hd' => h.dirs d' (List.mem_of_mem_erase hd'), h.freeNodup,
    fun {d₁ i₁ d₂ i₂ t} h₁ h₂ => h.tableInj (htableAt.mp h₁) (htableAt.mp h₂),
    fun {d' i t} ht => h.tableFlags (htableAt.mp ht), fun {p} hp => h.tableKept (htable.mp hp), fun {p} hp => ?_,
    fun {p} hk hp => ?_⟩
  · rw [husers]
    exact h.taken (hp.imp_right htable.mp)
  · rw [husers]
    exact h.data hk (htable.not.mp hp)

/-- A page directory that has no entries is freed. -/
theorem Ok.dropDir (h : l.Ok s) (hd : d ∈ l.dirs) (hempty : ∀ i < l.top, (s.entry d i).present = false) :
    (l.dropDir d).Ok (s.freed d) := by
  have herase := h.eraseDir hd hempty
  exact herase.give (h.dirs d hd) h.nodup.not_mem_erase

/-- What is written to a kept page does not matter, if it is no page directory. -/
theorem Ok.pte_kept (h : l.Ok s) (hkept : l.kept page) (hdir : page ∉ l.dirs)
    (hentry : ∀ p, p ≠ page → s'.entry p = s.entry p) (hx : x ∈ l.slots) : s'.pte x = s.pte x := by
  have hne : x.dir ≠ page := fun heq => hdir (heq ▸ (mem_slots.mp hx).1)
  refine pte_congr (by rw [hentry _ hne]) fun hpresent => ?_
  have ht : l.TableAt s x.dir x.pde (s.entry x.dir x.pde).ppn := ⟨(mem_slots.mp hx).1, (mem_slots.mp hx).2.1, hpresent, rfl⟩
  have hother : (s.entry x.dir x.pde).ppn ≠ page := fun heq => h.tableKept ht.isTable (heq ▸ hkept)
  rw [hentry _ hother]

theorem Ok.writeKept (h : l.Ok s) (hkept : l.kept page) (hdir : page ∉ l.dirs)
    (hentry : ∀ p, p ≠ page → s'.entry p = s.entry p) (hfree : s'.free = s.free) (href : s'.pageRef = s.pageRef) : l.Ok s' := by
  have hdirEntry : ∀ d ∈ l.dirs, s'.entry d = s.entry d := fun d hd => hentry d fun heq => hdir (heq ▸ hd)
  have husers : ∀ p, l.users s' p = l.users s p :=
    users_congr fun x hx => congrArg Pte.page (h.pte_kept hkept hdir hentry hx)
  have htable : ∀ p, l.IsTable s' p ↔ l.IsTable s p := fun p => isTable_congr fun d hd i _ => by rw [hdirEntry d hd]
  have hold : ∀ {d i t}, l.TableAt s' d i t → l.TableAt s d i t := fun ht => ht.congr (by rw [hdirEntry _ ht.dir])
  refine ⟨h.nodup, h.dirs, hfree ▸ h.freeNodup, fun {d i d' i' t} ht ht' => h.tableInj (hold ht) (hold ht'),
    fun {d i t} ht => ?_, fun {p} hp => h.tableKept ((htable p).mp hp), fun {p} hp => ?_, fun {p} hk hp => ?_⟩
  · rw [hdirEntry d ht.dir]
    exact h.tableFlags (hold ht)
  · rw [hfree, husers]
    exact h.taken (hp.imp_right (htable p).mp)
  · rw [hfree, href, husers]
    exact h.data hk ((htable p).not.mp hp)

/-- **A kept page that has no entries becomes a page directory.** -/
theorem Ok.insertDir (h : l.Ok s) (hkept : l.kept d) (hd : d ∉ l.dirs) (hempty : ∀ i < l.top, (s.entry d i).present = false) :
    ({ l with dirs := d :: l.dirs } : Layout).Ok s := by
  have hnone : ∀ x ∈ ({ l with dirs := d :: l.dirs } : Layout).slots, x.dir = d → (s.pte x).page = none := by
    intro x hx hdir
    rw [pte_of_absent (by rw [hdir]; exact hempty x.pde (mem_slots.mp hx).2.1)]
    rfl
  have husers : ∀ p, ({ l with dirs := d :: l.dirs } : Layout).users s p = l.users s p := by
    intro p
    have hback : ({ l with dirs := (d :: l.dirs).erase d } : Layout) = l := by rw [List.erase_cons_head]
    rw [← users_erase_dir (l := { l with dirs := d :: l.dirs }) List.mem_cons_self hnone p]
    exact congrArg (fun l' : Layout => l'.users s p) hback
  have htableAt : ∀ {d' i t}, ({ l with dirs := d :: l.dirs } : Layout).TableAt s d' i t ↔ l.TableAt s d' i t := by
    intro d' i t
    refine ⟨fun ht => ⟨?_, ht.own, ht.present, ht.ppn⟩, fun ht => ⟨List.mem_cons_of_mem d ht.dir, ht.own, ht.present, ht.ppn⟩⟩
    refine (List.mem_cons.mp ht.dir).resolve_left fun heq => ?_
    have hpresent := ht.present
    rw [heq, hempty i ht.own] at hpresent
    cases hpresent
  have htable : ∀ {p}, ({ l with dirs := d :: l.dirs } : Layout).IsTable s p ↔ l.IsTable s p :=
    ⟨fun ⟨d', i, ht⟩ => ⟨d', i, htableAt.mp ht⟩, fun ⟨d', i, ht⟩ => ⟨d', i, htableAt.mpr ht⟩⟩
  refine ⟨List.nodup_cons.mpr ⟨hd, h.nodup⟩, fun d' hd' => ?_, h.freeNodup,
    fun {d₁ i₁ d₂ i₂ t} h₁ h₂ => h.tableInj (htableAt.mp h₁) (htableAt.mp h₂),
    fun {d' i t} ht => h.tableFlags (htableAt.mp ht), fun {p} hp => h.tableKept (htable.mp hp), fun {p} hp => ?_,
    fun {p} hk hp => ?_⟩
  · rcases List.mem_cons.mp hd' with rfl | hd'
    · exact hkept
    · exact h.dirs d' hd'
  · rw [husers]
    exact h.taken (hp.imp_right htable.mp)
  · rw [husers]
    exact h.data hk (htable.not.mp hp)

end Layout

/-! ### `setup_pgdir` -/

/-- The state in which a page has become a copy of `boot_pgdir` that has itself at `PDX(VPT)`. -/
def VmState.withDir (s : VmState) (page : ℕ) : VmState :=
  { s.taken page with entry := Function.update s.entry page (s.entry s.bootPgdir) }.setEntry page pdxVpt ⟨page, pteP ||| pteW⟩

theorem entry_withDir_of_ne (h : p ≠ page) : (s.withDir page).entry p = s.entry p := by
  show Function.update (Function.update s.entry page _) page _ p = _
  rw [Function.update_of_ne h, Function.update_of_ne h]

theorem entry_withDir_self {i : ℕ} (h : i ≠ pdxVpt) : (s.withDir page).entry page i = s.entry s.bootPgdir i := by
  show Function.update (Function.update s.entry page _) page (Function.update (Function.update s.entry page _ page) _ _) page i = _
  rw [Function.update_self, Function.update_of_ne h, Function.update_self]

/-- The page of `boot_pgdir` is in use, and has no entries below `top`. -/
structure Layout.Boots (l : Layout) (s : VmState) : Prop where
  kept : l.kept s.bootPgdir
  dir : s.bootPgdir ∉ l.dirs
  empty : ∀ i < l.top, (s.entry s.bootPgdir i).present = false
  top : l.top ≤ pdxVpt

theorem Layout.Boots.empty_withDir (h : l.Boots s) {i : ℕ} (hi : i < l.top) : ((s.withDir page).entry page i).present = false := by
  rw [entry_withDir_self (Nat.ne_of_lt (Nat.lt_of_lt_of_le hi h.top))]
  exact h.empty i hi

/-- **`setup_pgdir`** makes a page directory without entries of its own. -/
theorem Layout.Ok.addDir (h : l.Ok s) (hboot : l.Boots s) (hpage : page ∈ s.free) : (l.addDir page).Ok (s.withDir page) := by
  have htaken := h.take hpage
  have hdir : page ∉ l.dirs := h.free_not_dir hpage
  have hwritten : (l.keep page).Ok (s.withDir page) :=
    htaken.writeKept (Or.inl rfl) hdir (fun p hp => entry_withDir_of_ne hp) rfl rfl
  exact hwritten.insertDir (Or.inl rfl) hdir fun i hi => hboot.empty_withDir hi

theorem setupPgdir_post (al : Allocs) (s : VmState) (m : ℕ) : ((setupPgdir al m).run s).Post
    (fun _ s' => ∃ page ∈ s.free, s' = (s.withDir page).setMm m fun d => { d with pgdir := page })
    (fun e s' => e = .noMem ∧ s' = s.refused) fun _ => False := by
  unfold setupPgdir
  refine Outcome.post_bind.mpr ((allocPages_post al s).mono ?_ (fun _ _ hf => hf.elim) fun _ hf => hf.elim)
  rintro r s₁ (⟨rfl, rfl⟩ | ⟨page, hpage, rfl, rfl⟩)
  · exact ⟨rfl, rfl⟩
  · exact ⟨page, hpage, rfl⟩

end Ucore.Vm
