import Ucore.Mm.ProgramArgs
import Mathlib.Tactic.Common

/-!
# Who changes the number of users

`mm_count` is changed by `mm_count_inc` and `mm_count_dec` only, and address spaces come with `mm_create` and go with `mm_destroy`.

* `SameCounts` is that no count has changed, and that no address space has come or gone. `KeepsCounts` says it of a program, with one
  lemma for each function of `vmm.c`, `pmm.c` and `load_icode`.
* `Made` is that there is one address space more. `copyMm_made`: a copy has one user. `finishLoad_same`: a new program has one user more
  than before.
* `Cleaned` is that an address space has gone. `cleanupMm_cleaned`: all three functions of the clean-up have run once, and no assertion
  on `mm_count` fails.
-/

namespace Ucore.Vm

open Ucore.Lib

variable {s s₁ s' : VmState} {m : ℕ} {n : ℤ} {α : Type}

/-! ### The counts stay -/

/-- `mm_count` of every address space. -/
def VmState.counts (s : VmState) : ℕ → ℤ := fun m => (s.mm m).mmCount

/-- No count has changed, and the address spaces are the same. -/
structure SameCounts (s s' : VmState) : Prop where
  counts : s'.counts = s.counts
  mms : s'.mms = s.mms
  exitMmaps : s'.exitMmaps = s.exitMmaps
  putPgdirs : s'.putPgdirs = s.putPgdirs
  mmDestroys : s'.mmDestroys = s.mmDestroys
  fresh : s.freshBlock ≤ s'.freshBlock

instance : Std.Refl SameCounts := ⟨fun _ => ⟨rfl, rfl, rfl, rfl, rfl, Nat.le_refl _⟩⟩

theorem SameCounts.trans (h : SameCounts s s₁) (h' : SameCounts s₁ s') : SameCounts s s' :=
  ⟨h'.counts.trans h.counts, h'.mms.trans h.mms, h'.exitMmaps.trans h.exitMmaps, h'.putPgdirs.trans h.putPgdirs,
    h'.mmDestroys.trans h.mmDestroys, Nat.le_trans h.fresh h'.fresh⟩

instance : IsTrans VmState SameCounts := ⟨fun _ _ _ => SameCounts.trans⟩

/-- The three functions of the clean-up have run equally often for each address space. -/
def VmState.Balanced (s : VmState) : Prop := s.exitMmaps = s.mmDestroys ∧ s.putPgdirs = s.mmDestroys

theorem SameCounts.balanced (h : SameCounts s s') (hs : s.Balanced) : s'.Balanced := by
  unfold VmState.Balanced
  rw [h.exitMmaps, h.putPgdirs, h.mmDestroys]
  exact hs

/-- Not one of the two assertions on `mm_count`. -/
def CountSafe (p : VmPanic) : Prop := p ≠ .exitMmapCount ∧ p ≠ .mmDestroyCount

/-- The program changes no count, and fails at no assertion on one. -/
abbrev KeepsCounts (x : VmProg α) : Prop := Within SameCounts CountSafe x

theorem OnPages.keepsCounts {x : VmProg α} (h : OnPages x) : KeepsCounts x := by
  have hsame : ∀ {s s'}, OnlyPages s s' → SameCounts s s' := fun h =>
    ⟨funext fun m => by rw [VmState.counts, h.mm, VmState.counts], h.mms, h.exitMmaps, h.putPgdirs, h.mmDestroys,
      Nat.le_of_eq h.freshBlock.symm⟩
  intro s
  refine (h s).mono (fun _ _ => hsame) (fun _ _ => hsame) fun p hp => ?_
  cases hp <;> exact ⟨nofun, nofun⟩

theorem keepsCounts_kmalloc (al : Allocs) : KeepsCounts (kmalloc al) := by
  unfold kmalloc
  refine Within.bind Within.get fun s => Within.bind (Within.modify fun _ => ?_) fun _ => Within.ite (Within.pure _) ?_
  · exact ⟨rfl, rfl, rfl, rfl, rfl, Nat.le_refl _⟩
  · exact Within.bind (Within.modify fun _ => ⟨rfl, rfl, rfl, rfl, rfl, Nat.le_succ _⟩) fun _ => Within.pure _

theorem keepsCounts_kfree (b : ℕ) : KeepsCounts (kfree b) := Within.modify fun _ => ⟨rfl, rfl, rfl, rfl, rfl, Nat.le_refl _⟩

theorem keepsCounts_kfreeAll (l : List Vma) : KeepsCounts (kfreeAll l) := by
  induction l with
  | nil => exact Within.pure _
  | cons v l ih => exact Within.bind (keepsCounts_kfree _) fun _ => ih

/-- A change to an address space that is not one of the count. -/
theorem keepsCounts_setMm (m : ℕ) {f : MmStruct → MmStruct} (h : ∀ d, (f d).mmCount = d.mmCount) : KeepsCounts (setMm m f) := by
  refine Within.modify fun s => ⟨funext fun m' => ?_, rfl, rfl, rfl, rfl, Nat.le_refl _⟩
  show (Function.update s.mm m _ m').mmCount = (s.mm m').mmCount
  rw [Function.update_apply]
  split_ifs with heq
  · rw [h, heq]
  · rfl

theorem keepsCounts_findVma (m addr : ℕ) : KeepsCounts (findVma m addr) := by
  unfold findVma
  refine Within.bind Within.get fun s => Within.bind ?_ fun _ => Within.pure _
  split
  · exact keepsCounts_setMm m fun _ => rfl
  · exact Within.pure _

theorem keepsCounts_checkVmaOverlap (v w : Vma) : KeepsCounts (checkVmaOverlap v w) :=
  Within.bind (Within.assert _ ⟨nofun, nofun⟩) fun _ => Within.bind (Within.assert _ ⟨nofun, nofun⟩) fun _ =>
    Within.assert _ ⟨nofun, nofun⟩

theorem keepsCounts_insertVmaStruct (m : ℕ) (v : Vma) : KeepsCounts (insertVmaStruct m v) := by
  unfold insertVmaStruct
  refine Within.bind (Within.assert _ ⟨nofun, nofun⟩) fun _ => Within.bind Within.get fun s => Within.bind ?_ fun _ =>
    Within.bind ?_ fun _ => keepsCounts_setMm m fun _ => rfl
  · split
    · exact keepsCounts_checkVmaOverlap _ _
    · exact Within.pure _
  · split
    · exact keepsCounts_checkVmaOverlap _ _
    · exact Within.pure _

section areas

variable (al : Allocs)

theorem keepsCounts_setupPgdir (m : ℕ) : KeepsCounts (setupPgdir al m) := by
  unfold setupPgdir
  refine Within.bind (onPages_allocPages al 1).keepsCounts fun r => ?_
  cases r with
  | none => exact Within.throw _
  | some page =>
    refine Within.bind (Within.modify fun _ => ?_) fun _ => Within.bind (onPages_setEntry page _ _).keepsCounts fun _ => ?_
    · exact ⟨rfl, rfl, rfl, rfl, rfl, Nat.le_refl _⟩
    · exact keepsCounts_setMm m fun _ => rfl

theorem keepsCounts_vmaCreate (start stop : ℕ) (flags : BitVec 32) : KeepsCounts (vmaCreate al start stop flags) := by
  refine Within.bind (keepsCounts_kmalloc al) fun r => ?_
  cases r with
  | none => exact Within.pure _
  | some a => exact Within.pure _

theorem keepsCounts_mmMapNew (m start stop : ℕ) (flags : BitVec 32) : KeepsCounts (mmMapNew al m start stop flags) := by
  refine Within.bind (keepsCounts_vmaCreate al start stop flags) fun r => ?_
  cases r with
  | none => exact Within.throw _
  | some v => exact keepsCounts_insertVmaStruct m v

theorem keepsCounts_mmMap (m addr len : ℕ) (flags : BitVec 32) : KeepsCounts (mmMap al m addr len flags) := by
  refine Within.ite (Within.throw _) (Within.bind (keepsCounts_findVma _ _) fun r => ?_)
  cases r with
  | none => exact keepsCounts_mmMapNew al _ _ _ _
  | some v => exact Within.ite (Within.throw _) (keepsCounts_mmMapNew al _ _ _ _)

theorem keepsCounts_dupLoop (dst src : ℕ) (l : List Vma) : KeepsCounts (dupLoop al dst src l) := by
  induction l with
  | nil => exact Within.pure _
  | cons v l ih =>
    refine Within.bind (keepsCounts_vmaCreate al _ _ _) fun r => ?_
    cases r with
    | none => exact Within.throw _
    | some nvma =>
      refine Within.bind (keepsCounts_insertVmaStruct dst nvma) fun _ => Within.bind Within.get fun s => ?_
      exact Within.bind (onPages_copyRange al _ _ _ _).keepsCounts fun _ => ih

theorem keepsCounts_dupMmap (dst src : ℕ) : KeepsCounts (dupMmap al dst src) :=
  Within.bind Within.get fun _ => keepsCounts_dupLoop al dst src _

theorem onPages_unmapRange (d start stop : ℕ) : OnPages (unmapRange al d start stop) := by
  refine Within.bind (onPages_checkRange start stop) fun _ => onPages_walk (fun start => ?_) _ _ _
  refine Within.bind (onPages_getPte al d start false) fun r => ?_
  cases r with
  | none => exact Within.pure _
  | some table =>
    refine Within.bind Within.get fun s => Within.bind (Within.ite ?_ (Within.pure _)) fun _ => Within.pure _
    exact onPages_pageRemovePte table _

theorem onPages_exitRange (d start stop : ℕ) : OnPages (exitRange d start stop) := by
  refine Within.bind (onPages_checkRange start stop) fun _ => onPages_walk (fun start => ?_) _ _ _
  refine Within.bind Within.get fun s => Within.bind (Within.ite ?_ (Within.pure _)) fun _ => Within.pure _
  exact Within.bind (onPages_freePages _ 1) fun _ => onPages_setEntry d _ _

theorem keepsCounts_unmapAll (d : ℕ) (l : List Vma) : KeepsCounts (unmapAll al d l) := by
  induction l with
  | nil => exact Within.pure _
  | cons v l ih => exact Within.bind (onPages_unmapRange al d _ _).keepsCounts fun _ => ih

theorem keepsCounts_exitAll (d : ℕ) (l : List Vma) : KeepsCounts (exitAll d l) := by
  induction l with
  | nil => exact Within.pure _
  | cons v l ih => exact Within.bind (onPages_exitRange d _ _).keepsCounts fun _ => ih

theorem keepsCounts_doPgfault (m code addr : ℕ) : KeepsCounts (doPgfault al m code addr) := by
  unfold doPgfault
  refine Within.bind (keepsCounts_findVma m addr) fun r => ?_
  cases r with
  | none => exact Within.throw _
  | some vma =>
    refine Within.ite (Within.throw _) (Within.bind Within.get fun s => ?_)
    refine Within.bind (onPages_getPte al _ _ true).keepsCounts fun r => ?_
    cases r with
    | none => exact Within.throw _
    | some table =>
      refine Within.bind Within.get fun s => Within.ite ?_ (Within.ite (Within.stop ⟨nofun, nofun⟩) (Within.throw _))
      refine Within.bind (onPages_pgdirAllocPage al _ _ _).keepsCounts fun r => ?_
      cases r with
      | none => exact Within.throw _
      | some page => exact Within.pure _

end areas

/-! ### The counts stay: `load_icode` -/

section loading

variable (al : Allocs) (file : ExecFile)

theorem keepsCounts_loadIcodeRead {store : List UInt8 → VmState → VmState} (hstore : ∀ l s, SameCounts s (store l s)) (len offset : ℕ) :
    KeepsCounts (loadIcodeRead al file store len offset) := by
  unfold loadIcodeRead
  refine Within.ite (Within.throw _) (Within.bind ?_ fun _ => Within.bind (keepsCounts_kmalloc al) fun r => ?_)
  · refine Within.ite ?_ (Within.pure _)
    cases file.grows offset with
    | none => exact Within.pure _
    | some e => exact Within.throw e
  · cases r with
    | none => exact Within.throw _
    | some buffer =>
      refine Within.bind (Within.modify fun s => hstore _ s) fun _ => Within.bind (keepsCounts_kfree buffer) fun _ => ?_
      exact Within.ite (Within.pure _) (Within.throw _)

theorem keepsCounts_readElfHdr : KeepsCounts (readElfHdr al file) :=
  Within.bind (keepsCounts_loadIcodeRead al file (fun _ s => Std.Refl.refl s) _ _) fun _ => Within.ite (Within.throw _) (Within.pure _)

theorem sameCounts_writeBytes (page off : ℕ) (bytes : List UInt8) (s : VmState) : SameCounts s (s.writeBytes page off bytes) :=
  ⟨rfl, rfl, rfl, rfl, rfl, Nat.le_refl _⟩

theorem keepsCounts_fileLoop (d : ℕ) (perm : BitVec 12) (stop fuel start la offset page : ℕ) :
    KeepsCounts (fileLoop al file d perm stop fuel start la offset page) := by
  induction fuel generalizing start la offset page with
  | zero => exact Within.stop ⟨nofun, nofun⟩
  | succ fuel ih =>
    refine Within.ite (Within.bind (onPages_pgdirAllocPage al d la perm).keepsCounts fun r => ?_) (Within.pure _)
    cases r with
    | none => exact Within.throw _
    | some page =>
      exact Within.bind (keepsCounts_loadIcodeRead al file (fun _ => sameCounts_writeBytes page _ _) _ _) fun _ => ih _ _ _ _

theorem keepsCounts_clearBytes (page off size : ℕ) : KeepsCounts (clearBytes page off size) :=
  Within.ite (Within.modify fun s => sameCounts_writeBytes page off _ s) (Within.stop ⟨nofun, nofun⟩)

theorem keepsCounts_bssLoop (d : ℕ) (perm : BitVec 12) (stop fuel start la : ℕ) :
    KeepsCounts (bssLoop al d perm stop fuel start la) := by
  induction fuel generalizing start la with
  | zero => exact Within.stop ⟨nofun, nofun⟩
  | succ fuel ih =>
    unfold bssLoop
    refine Within.ite (Within.bind (onPages_pgdirAllocPage al d la perm).keepsCounts fun r => ?_) (Within.pure _)
    cases r with
    | none => exact Within.throw _
    | some page =>
      dsimp only
      generalize chunkSize (sub32 start la) (add32 la pageSize) stop = size
      exact Within.bind (keepsCounts_clearBytes page _ size) fun _ => ih _ _

theorem keepsCounts_bssRest (d : ℕ) (ph : ProgHdr) (start la page : ℕ) : KeepsCounts (bssRest al d ph start la page) := by
  refine Within.ite (Within.ite (Within.pure _) (Within.bind ?_ fun _ => keepsCounts_bssLoop al _ _ _ _ _ _))
    (keepsCounts_bssLoop al _ _ _ _ _ _)
  exact Within.bind (keepsCounts_clearBytes page _ _) fun _ => Within.bind (Within.assert _ ⟨nofun, nofun⟩) fun _ => Within.pure _

theorem keepsCounts_loadSegment (m : ℕ) (ph : ProgHdr) : KeepsCounts (loadSegment al file m ph) := by
  unfold loadSegment
  refine Within.ite (Within.pure _) (Within.ite (Within.throw _) (Within.ite (Within.pure _) ?_))
  refine Within.bind (keepsCounts_mmMap al m _ _ _) fun _ => Within.bind Within.get fun s => ?_
  exact Within.bind (keepsCounts_fileLoop al file _ _ _ _ _ _ _ _) fun _ => keepsCounts_bssRest al _ ph _ _ _

theorem keepsCounts_loadSegments (m : ℕ) (elf : ElfHdr) (l : List ℕ) : KeepsCounts (loadSegments al file m elf l) := by
  induction l with
  | nil => exact Within.pure _
  | cons phnum l ih =>
    refine Within.bind (keepsCounts_loadIcodeRead al file (fun _ s => Std.Refl.refl s) _ _) fun _ => ?_
    exact Within.bind (keepsCounts_loadSegment al file m _) fun _ => ih

theorem keepsCounts_stackPages (d : ℕ) (ks : List ℕ) : KeepsCounts (stackPages al d ks) := by
  induction ks with
  | nil => exact Within.pure _
  | cons k ks ih =>
    refine Within.bind (onPages_pgdirAllocPage al d _ _).keepsCounts fun r => ?_
    cases r with
    | none => exact Within.stop ⟨nofun, nofun⟩
    | some page => exact ih

theorem keepsCounts_storeByte (m la : ℕ) (b : UInt8) : KeepsCounts (storeByte al m la b) := by
  unfold storeByte
  refine Within.bind Within.get fun s => ?_
  dsimp only
  split
  · exact Within.modify fun s => sameCounts_writeBytes _ _ _ s
  · refine Within.bind (Within.attempt (keepsCounts_doPgfault al m _ la)) fun r => ?_
    cases r with
    | error e => exact Within.stop ⟨nofun, nofun⟩
    | ok u =>
      refine Within.bind Within.get fun s => ?_
      split
      · exact Within.modify fun s => sameCounts_writeBytes _ _ _ s
      · exact Within.stop ⟨nofun, nofun⟩

theorem keepsCounts_storeBytes (m la : ℕ) (bytes : List UInt8) : KeepsCounts (storeBytes al m la bytes) := by
  induction bytes generalizing la with
  | nil => exact Within.pure _
  | cons b bytes ih => exact Within.bind (keepsCounts_storeByte al m la b) fun _ => ih _

theorem keepsCounts_storeArguments (m : ℕ) (args : List (List UInt8)) : KeepsCounts (storeArguments al m args) := by
  have hargs : ∀ dst uargv args, KeepsCounts (storeArgs al m dst uargv args) := by
    intro dst uargv args
    induction args generalizing dst uargv with
    | nil => exact Within.pure _
    | cons arg args ih =>
      exact Within.bind (keepsCounts_storeBytes al m _ _) fun _ => Within.bind (keepsCounts_storeBytes al m _ _) fun _ => ih _ _
  exact Within.bind (hargs _ _ _) fun _ => keepsCounts_storeBytes al m _ _

end loading

/-! ### The counts stay: `copy_kargv` -/

theorem keepsCounts_userMemCheck (mm : Option ℕ) (addr len : ℕ) (write : Bool) : KeepsCounts (userMemCheck mm addr len write) := by
  have hloop : ∀ m fuel start, KeepsCounts (userMemLoop m write (add32 addr len) fuel start) := by
    intro m fuel start
    induction fuel generalizing start with
    | zero => exact Within.stop ⟨nofun, nofun⟩
    | succ fuel ih =>
      refine Within.ite (Within.bind (keepsCounts_findVma m start) fun r => ?_) (Within.pure _)
      cases r with
      | none => exact Within.pure _
      | some v => exact Within.ite (Within.pure _) (Within.ite (Within.pure _) (Within.ite (Within.pure _) (ih _)))
  cases mm with
  | none => exact Within.pure _
  | some m => exact Within.ite (Within.pure _) (hloop m _ _)

theorem keepsCounts_copyString (mm : Option ℕ) (mem dst : ℕ → UInt8) (src maxn : ℕ) : KeepsCounts (copyString mm mem dst src maxn) := by
  have hloop : ∀ fuel dst off src maxn part, KeepsCounts (copyLoop mm mem fuel dst off src maxn part) := by
    intro fuel
    induction fuel with
    | zero => exact fun _ _ _ _ _ => Within.stop ⟨nofun, nofun⟩
    | succ fuel ih =>
      intro dst off src maxn part
      refine Within.bind (keepsCounts_userMemCheck mm src _ false) fun _ => Within.ite (Within.pure _) ?_
      exact Within.ite (Within.pure _) (Within.ite (Within.pure _) (ih _ _ _ _ _))
  exact hloop _ _ _ _ _ _

theorem keepsCounts_putKargv (kargv : List Kbuf) : KeepsCounts (putKargv kargv) := by
  induction kargv with
  | nil => exact Within.pure _
  | cons buf kargv ih => exact Within.bind (keepsCounts_kfree buf.1) fun _ => ih

theorem keepsCounts_copyKargv (al : Allocs) (mm : Option ℕ) (mem : ℕ → UInt8) (junk : ℕ → ℕ → UInt8) (argc argv : ℕ) :
    KeepsCounts (copyKargv al mm mem junk argc argv) := by
  have hloop : ∀ n i kargv, KeepsCounts (kargvLoop al mm mem junk argv n i kargv) := by
    intro n
    induction n with
    | zero => exact fun _ _ => Within.pure _
    | succ n ih =>
      intro i kargv
      refine Within.bind (keepsCounts_kmalloc al) fun r => ?_
      cases r with
      | none => exact Within.bind (keepsCounts_putKargv kargv) fun _ => Within.throw _
      | some buffer =>
        refine Within.bind (keepsCounts_copyString mm mem (junk buffer) _ _) fun r => Within.ite (ih _ _) ?_
        exact Within.bind (keepsCounts_kfree buffer) fun _ => Within.bind (keepsCounts_putKargv kargv) fun _ => Within.throw _
  exact Within.bind (keepsCounts_userMemCheck mm argv _ false) fun _ => Within.ite (Within.throw _) (hloop _ _ _)

/-! ### An address space comes -/

/-- There is one address space more, with `n` users. -/
structure Made (m : ℕ) (n : ℤ) (s s' : VmState) : Prop where
  old : s.freshBlock ≤ m
  fresh : m < s'.freshBlock
  counts : s'.counts = Function.update s.counts m n
  mms : s'.mms = m :: s.mms
  exitMmaps : s'.exitMmaps = s.exitMmaps
  putPgdirs : s'.putPgdirs = s.putPgdirs
  mmDestroys : s'.mmDestroys = s.mmDestroys

theorem Made.same (h : Made m n s s₁) (h' : SameCounts s₁ s') : Made m n s s' :=
  ⟨h.old, Nat.lt_of_lt_of_le h.fresh h'.fresh, h'.counts.trans h.counts, h'.mms.trans h.mms, h'.exitMmaps.trans h.exitMmaps,
    h'.putPgdirs.trans h.putPgdirs, h'.mmDestroys.trans h.mmDestroys⟩

theorem Made.balanced (h : Made m n s s') (hs : s.Balanced) : s'.Balanced := by
  unfold VmState.Balanced
  rw [h.exitMmaps, h.putPgdirs, h.mmDestroys]
  exact hs

theorem Made.count (h : Made m n s s') : s'.counts m = n := by
  rw [h.counts, Function.update_self]

theorem counts_setMm (s : VmState) (m : ℕ) (f : MmStruct → MmStruct) :
    (s.setMm m f).counts = Function.update s.counts m (f (s.mm m)).mmCount := by
  funext m'
  show (Function.update s.mm m _ m').mmCount = _
  rw [Function.update_apply, Function.update_apply]
  split_ifs <;> rfl

/-- The address space has one user more. -/
theorem Made.inc (h : Made m n s s') : Made m (n + 1) s (s'.setMm m fun d => { d with mmCount := d.mmCount + 1 }) := by
  refine ⟨h.old, h.fresh, ?_, h.mms, h.exitMmaps, h.putPgdirs, h.mmDestroys⟩
  have hcount : (s'.mm m).mmCount = n := h.count
  rw [counts_setMm, h.counts, Function.update_idem, hcount]

/-- The block that `kmalloc` returns. -/
theorem kmalloc_fresh (al : Allocs) (s : VmState) : ((kmalloc al).run s).Post
    (fun r s' => SameCounts s s' ∧ ∀ b, r = some b → b = s.freshBlock ∧ s'.freshBlock = b + 1) (fun _ _ => False) fun _ => False := by
  unfold kmalloc
  rw [Prog.run_bind, Prog.run_get, Outcome.andThen_ok, Prog.run_bind, Prog.run_modify, Outcome.andThen_ok, Prog.run_ite]
  split_ifs
  · exact ⟨⟨rfl, rfl, rfl, rfl, rfl, Nat.le_refl _⟩, nofun⟩
  · exact ⟨⟨rfl, rfl, rfl, rfl, rfl, Nat.le_succ _⟩, fun b hb => Option.some.inj hb ▸ ⟨rfl, rfl⟩⟩

/-- **`mm_create`** makes an address space without users. -/
theorem mmCreate_made (al : Allocs) (s : VmState) : ((mmCreate al).run s).Post
    (fun r s' => ∀ m, r = some m → Made m 0 s s') (fun _ _ => False) fun _ => False := by
  refine (kmalloc_fresh al s).bind ?_
  rintro r s₁ ⟨hsame, hr⟩
  cases r with
  | none => exact nofun
  | some m =>
    obtain ⟨hm, hfresh⟩ := hr m rfl
    rintro _ ⟨rfl⟩
    refine ⟨Nat.le_of_eq hm.symm, hfresh ▸ Nat.lt_succ_self m, ?_, congrArg (m :: ·) hsame.mms, hsame.exitMmaps, hsame.putPgdirs,
      hsame.mmDestroys⟩
    rw [← hsame.counts]
    exact counts_setMm s₁ m fun _ => ⟨[], none, 0, 0, 0⟩

/-! ### An address space goes -/

/-- The address space has gone: each of the three functions has run for it. -/
structure Cleaned (m : ℕ) (s s' : VmState) : Prop where
  counts : s'.counts = s.counts
  mms : s'.mms = s.mms
  exitMmaps : s'.exitMmaps = Function.update s.exitMmaps m (s.exitMmaps m + 1)
  putPgdirs : s'.putPgdirs = Function.update s.putPgdirs m (s.putPgdirs m + 1)
  mmDestroys : s'.mmDestroys = Function.update s.mmDestroys m (s.mmDestroys m + 1)
  fresh : s.freshBlock ≤ s'.freshBlock

theorem Cleaned.balanced (h : Cleaned m s s') (hs : s.Balanced) : s'.Balanced := by
  unfold VmState.Balanced
  rw [h.exitMmaps, h.putPgdirs, h.mmDestroys, hs.1, hs.2]
  exact ⟨rfl, rfl⟩

theorem exitMmap_same (al : Allocs) (h : s.counts m = 0) : ((exitMmap al m).run s).Post
    (fun _ s' => SameCounts { s with exitMmaps := Function.update s.exitMmaps m (s.exitMmaps m + 1) } s') (fun _ _ => True) CountSafe := by
  have hcount : (s.mm m).mmCount = 0 := h
  unfold exitMmap
  rw [Prog.run_bind, Prog.run_get, Outcome.andThen_ok, Prog.run_bind, Prog.run_assert_of _ _ hcount, Outcome.andThen_ok, Prog.run_bind,
    Prog.run_modify, Outcome.andThen_ok]
  have hrest : KeepsCounts (do unmapAll al (s.mm m).pgdir (s.mm m).mmapList; exitAll (s.mm m).pgdir (s.mm m).mmapList) :=
    Within.bind (keepsCounts_unmapAll al _ _) fun _ => keepsCounts_exitAll _ _
  exact (hrest _).mono (fun _ _ h' => h') (fun _ _ _ => trivial) fun _ h' => h'

theorem putPgdir_same (m : ℕ) (s : VmState) : ((putPgdir m).run s).Post
    (fun _ s' => SameCounts { s with putPgdirs := Function.update s.putPgdirs m (s.putPgdirs m + 1) } s') (fun _ _ => True)
    CountSafe := by
  unfold putPgdir
  rw [Prog.run_bind, Prog.run_get, Outcome.andThen_ok]
  refine (onPages_freePages (s.mm m).pgdir 1).keepsCounts.then_post ?_
  intro _ s₁ h
  refine ⟨h.counts, h.mms, h.exitMmaps, ?_, h.mmDestroys, h.fresh⟩
  show Function.update s₁.putPgdirs m (s₁.putPgdirs m + 1) = _
  rw [h.putPgdirs]

theorem mmDestroy_same (h : s.counts m = 0) : ((mmDestroy m).run s).Post
    (fun _ s' => SameCounts { s with mmDestroys := Function.update s.mmDestroys m (s.mmDestroys m + 1) } s') (fun _ _ => True)
    CountSafe := by
  have hcount : (s.mm m).mmCount = 0 := h
  unfold mmDestroy
  rw [Prog.run_bind, Prog.run_get, Outcome.andThen_ok, Prog.run_bind, Prog.run_assert_of _ _ hcount, Outcome.andThen_ok]
  refine (keepsCounts_kfreeAll (s.mm m).mmapList).then_post ?_
  intro _ s₁ h₁
  have hempty : KeepsCounts (setMm m fun d => { d with mmapList := [] }) := keepsCounts_setMm m fun _ => rfl
  refine hempty.then_post ?_
  intro _ s₂ h₂
  refine (keepsCounts_kfree m).then_post ?_
  intro _ s₃ h₃
  obtain ⟨hcounts, hmms, hexits, hputs, hdestroys, hfresh⟩ := (h₁.trans h₂).trans h₃
  refine ⟨hcounts, hmms, hexits, hputs, ?_, hfresh⟩
  show Function.update s₃.mmDestroys m (s₃.mmDestroys m + 1) = _
  rw [hdestroys]

/-- **The clean-up of an address space without users** fails at no assertion on the count, and runs each function once. -/
theorem cleanupMm_cleaned (al : Allocs) (h : s.counts m = 0) :
    ((cleanupMm al m).run s).Post (fun _ s' => Cleaned m s s') (fun _ _ => True) CountSafe := by
  refine (exitMmap_same al h).bind fun _ s₁ h₁ => (putPgdir_same m s₁).bind fun _ s₂ h₂ => ?_
  have hcount : s₂.counts m = 0 := by
    rw [h₂.counts]
    show s₁.counts m = 0
    rw [h₁.counts]
    exact h
  refine (mmDestroy_same hcount).mono (fun _ s' h₃ => ?_) (fun _ _ _ => trivial) fun _ h' => h'
  refine ⟨h₃.counts.trans (h₂.counts.trans h₁.counts), h₃.mms.trans (h₂.mms.trans h₁.mms),
    h₃.exitMmaps.trans (h₂.exitMmaps.trans h₁.exitMmaps), h₃.putPgdirs.trans (h₂.putPgdirs.trans ?_), h₃.mmDestroys.trans ?_,
    Nat.le_trans h₁.fresh (Nat.le_trans h₂.fresh h₃.fresh)⟩
  · show Function.update s₁.putPgdirs m (s₁.putPgdirs m + 1) = _
    rw [h₁.putPgdirs]
  · show Function.update s₂.mmDestroys m (s₂.mmDestroys m + 1) = _
    rw [h₂.mmDestroys]
    show Function.update s₁.mmDestroys m (s₁.mmDestroys m + 1) = _
    rw [h₁.mmDestroys]

/-! ### Copies and programs -/

/-- **A copy of an address space** has one user. -/
theorem copyMm_made (al : Allocs) (src : ℕ) (s : VmState) :
    ((copyMm al src).run s).Post (fun m s' => Made m 1 s s') (fun _ _ => True) CountSafe := by
  unfold copyMm
  refine Outcome.post_bind.mpr ((mmCreate_made al s).mono (fun r s₁ h₁ => ?_) (fun _ _ hf => hf.elim) fun _ hf => hf.elim)
  cases r with
  | none => exact trivial
  | some m =>
    have hmade := h₁ m rfl
    refine (keepsCounts_setupPgdir al m).attempt.then_post ?_
    intro r s₂ h₂
    cases r with
    | error e => exact (mmDestroy_same (hmade.same h₂).count).bind fun _ _ _ => trivial
    | ok u =>
      refine (keepsCounts_dupMmap al m src).attempt.then_post ?_
      intro r s₃ h₃
      have hmade₃ := (hmade.same h₂).same h₃
      cases r with
      | error e => exact (cleanupMm_cleaned al hmade₃.count).bind fun _ _ _ => trivial
      | ok u => exact hmade₃.inc

/-- **The end of `load_icode`**: the address space has one user more. -/
theorem finishLoad_same (al : Allocs) (m : ℕ) (elf : ElfHdr) (args : List (List UInt8)) (s : VmState) :
    ((finishLoad al m elf args).run s).Post
      (fun _ s' => SameCounts (s.setMm m fun d => { d with mmCount := d.mmCount + 1 }) s') (fun _ _ => True) CountSafe := by
  unfold finishLoad
  rw [Prog.run_bind, Prog.run_get, Outcome.andThen_ok]
  refine (keepsCounts_stackPages al _ _).then_post ?_
  intro _ s₁ h₁
  have hinc : (mmCountInc m).run s₁ = .ok () (s₁.setMm m fun d => { d with mmCount := d.mmCount + 1 }) := rfl
  have hcount : (s₁.mm m).mmCount = (s.mm m).mmCount := congrFun h₁.counts m
  rw [Prog.bind_of_ok hinc]
  refine (keepsCounts_storeArguments al m args).then_post ?_
  intro _ s₂ h₂
  have hcounts : (s₁.setMm m fun d => { d with mmCount := d.mmCount + 1 }).counts =
      (s.setMm m fun d => { d with mmCount := d.mmCount + 1 }).counts := by
    rw [counts_setMm, counts_setMm, h₁.counts, hcount]
  exact ⟨h₂.counts.trans hcounts, h₂.mms.trans h₁.mms, h₂.exitMmaps.trans h₁.exitMmaps, h₂.putPgdirs.trans h₁.putPgdirs,
    h₂.mmDestroys.trans h₁.mmDestroys, Nat.le_trans h₁.fresh h₂.fresh⟩

end Ucore.Vm
