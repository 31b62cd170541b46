import Ucore.Mm.AddressSpace
import Mathlib.Tactic.Common

/-!
# What the functions on pages leave alone

The functions of `kern/mm/pmm.c` change pages and page tables. The address spaces and the blocks of `kmalloc` stay.

* `OnlyPages` is this relation between states, and `OnPages` says it of a program. The functions behind
  `copy_range` and `pgdir_alloc_page` have a lemma each.
* `SamePages` is the opposite: no page has changed.
* `PageSite` are the panics of these functions, all but one of them assertions.
-/

namespace Ucore.Vm

open Ucore.Lib

/-- The panics of the functions on pages. -/
inductive PageSite : VmPanic → Prop where
  | loop : PageSite .loop
  | rangeAlign : PageSite .rangeAlign
  | rangeAccess : PageSite .rangeAccess
  | copyPage : PageSite .copyPage
  | copyInsert : PageSite .copyInsert

/-- Only pages and page tables have changed. -/
structure OnlyPages (s s' : VmState) : Prop where
  blocks : s'.blocks = s.blocks
  freshBlock : s'.freshBlock = s.freshBlock
  mm : s'.mm = s.mm
  bootPgdir : s'.bootPgdir = s.bootPgdir
  mms : s'.mms = s.mms
  exitMmaps : s'.exitMmaps = s.exitMmaps
  putPgdirs : s'.putPgdirs = s.putPgdirs
  mmDestroys : s'.mmDestroys = s.mmDestroys

/-- No page has changed. -/
structure SamePages (s s' : VmState) : Prop where
  free : s'.free = s.free
  ref : s'.pageRef = s.pageRef
  entry : s'.entry = s.entry
  byte : s'.byte = s.byte

theorem SamePages.trans {s s₁ s' : VmState} (h : SamePages s s₁) (h' : SamePages s₁ s') : SamePages s s' :=
  ⟨h'.free.trans h.free, h'.ref.trans h.ref, h'.entry.trans h.entry, h'.byte.trans h.byte⟩

theorem OnlyPages.refl (s : VmState) : OnlyPages s s := ⟨rfl, rfl, rfl, rfl, rfl, rfl, rfl, rfl⟩

theorem OnlyPages.trans {s s₁ s' : VmState} (h : OnlyPages s s₁) (h' : OnlyPages s₁ s') : OnlyPages s s' :=
  ⟨h'.blocks.trans h.blocks, h'.freshBlock.trans h.freshBlock, h'.mm.trans h.mm, h'.bootPgdir.trans h.bootPgdir,
    h'.mms.trans h.mms, h'.exitMmaps.trans h.exitMmaps, h'.putPgdirs.trans h.putPgdirs,
    h'.mmDestroys.trans h.mmDestroys⟩

instance : Std.Refl OnlyPages := ⟨OnlyPages.refl⟩

instance : IsTrans VmState OnlyPages := ⟨fun _ _ _ => OnlyPages.trans⟩

variable {α : Type}

/-- The program changes pages and page tables, and can only stop where such programs do. -/
abbrev OnPages (x : VmProg α) : Prop := Within OnlyPages PageSite x

theorem onPages_modify {f : VmState → VmState} (h : ∀ s, OnlyPages s (f s)) : OnPages (Prog.modify f) := Within.modify h

theorem onPages_setPageRef (page : ℕ) (f : ℤ → ℤ) : OnPages (setPageRef page f) :=
  onPages_modify fun _ => ⟨rfl, rfl, rfl, rfl, rfl, rfl, rfl, rfl⟩

theorem onPages_setEntry (page i : ℕ) (e : Pte) : OnPages (setEntry page i e) :=
  onPages_modify fun _ => ⟨rfl, rfl, rfl, rfl, rfl, rfl, rfl, rfl⟩

theorem onPages_freePages (page n : ℕ) : OnPages (freePages page n) :=
  Within.bind (onPages_setPageRef page _) fun _ => onPages_modify fun _ => ⟨rfl, rfl, rfl, rfl, rfl, rfl, rfl, rfl⟩

theorem onPages_pageRemovePte (table i : ℕ) : OnPages (pageRemovePte table i) := by
  unfold pageRemovePte
  refine Within.bind Within.get fun s => Within.ite ?_ (Within.pure _)
  refine Within.bind (onPages_setPageRef _ _) fun _ => Within.bind Within.get fun _ => ?_
  exact Within.bind (Within.ite (onPages_freePages _ 1) (Within.pure _)) fun _ => onPages_setEntry table i _

theorem onPages_walk {turn : ℕ → VmProg ℕ} (hturn : ∀ start, OnPages (turn start)) (stop fuel start : ℕ) :
    OnPages (walk turn stop fuel start) := by
  induction fuel generalizing start with
  | zero => exact Within.stop .loop
  | succ fuel ih => exact Within.bind (hturn start) fun _ => Within.ite (ih _) (Within.pure _)

theorem onPages_checkRange (start stop : ℕ) : OnPages (checkRange start stop) :=
  Within.bind (Within.assert _ .rangeAlign) fun _ => Within.assert _ .rangeAccess

section functions

variable (al : Allocs) (d : ℕ)

theorem onPages_allocPages (n : ℕ) : OnPages (allocPages al n) := by
  unfold allocPages
  refine Within.bind Within.get fun s => Within.bind (onPages_modify fun _ => ?_) fun _ => ?_
  · exact ⟨rfl, rfl, rfl, rfl, rfl, rfl, rfl, rfl⟩
  · cases al.pick s.asked n s.free with
    | none => exact Within.pure _
    | some page => exact Within.bind (onPages_modify fun _ => ⟨rfl, rfl, rfl, rfl, rfl, rfl, rfl, rfl⟩) fun _ => Within.pure _

theorem onPages_getPte (la : ℕ) (create : Bool) : OnPages (getPte al d la create) := by
  unfold getPte
  refine Within.bind Within.get fun s => Within.ite (Within.pure _) (Within.ite ?_ (Within.pure _))
  refine Within.bind (onPages_allocPages al 1) fun r => ?_
  cases r with
  | none => exact Within.pure _
  | some page =>
    refine Within.bind (onPages_setPageRef page _) fun _ => Within.bind (onPages_modify fun _ => ?_) fun _ => ?_
    · exact ⟨rfl, rfl, rfl, rfl, rfl, rfl, rfl, rfl⟩
    · exact Within.bind (onPages_setEntry d _ _) fun _ => Within.pure _

theorem onPages_pageInsert (page la : ℕ) (perm : BitVec 12) : OnPages (pageInsert al d page la perm) := by
  unfold pageInsert
  refine Within.bind (onPages_getPte al d la true) fun r => ?_
  cases r with
  | none => exact Within.throw _
  | some table =>
    refine Within.bind (onPages_setPageRef page _) fun _ => Within.bind Within.get fun s => ?_
    refine Within.bind (Within.ite ?_ (Within.pure _)) fun _ => onPages_setEntry table _ _
    exact Within.ite (onPages_setPageRef page _) (onPages_pageRemovePte table _)

theorem onPages_copyTurn (src start : ℕ) : OnPages (copyTurn al d src start) := by
  unfold copyTurn
  refine Within.bind (onPages_getPte al src start false) fun r => ?_
  cases r with
  | none => exact Within.pure _
  | some table =>
    refine Within.bind Within.get fun s => Within.ite ?_ (Within.pure _)
    refine Within.bind (onPages_getPte al d start true) fun r => ?_
    cases r with
    | none => exact Within.throw _
    | some _ =>
      refine Within.bind (onPages_allocPages al 1) fun r => ?_
      cases r with
      | none => exact Within.stop .copyPage
      | some npage =>
        refine Within.bind (onPages_modify fun _ => ⟨rfl, rfl, rfl, rfl, rfl, rfl, rfl, rfl⟩) fun _ => ?_
        refine Within.bind (Within.attempt (onPages_pageInsert al d npage start _)) fun r => ?_
        cases r with
        | error e => exact Within.stop .copyInsert
        | ok _ => exact Within.pure _

theorem onPages_copyRange (src start stop : ℕ) : OnPages (copyRange al d src start stop) :=
  Within.bind (onPages_checkRange start stop) fun _ => onPages_walk (onPages_copyTurn al d src) _ _ _

theorem onPages_pgdirAllocPage (la : ℕ) (perm : BitVec 12) : OnPages (pgdirAllocPage al d la perm) := by
  unfold pgdirAllocPage
  refine Within.bind (onPages_allocPages al 1) fun r => ?_
  cases r with
  | none => exact Within.pure _
  | some page =>
    refine Within.bind (Within.attempt (onPages_pageInsert al d page la perm)) fun r => ?_
    cases r with
    | error e => exact Within.bind (onPages_freePages page 1) fun _ => Within.pure _
    | ok _ => exact Within.pure _

end functions

end Ucore.Vm
