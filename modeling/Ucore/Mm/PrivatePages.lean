import Ucore.Mm.MmapChecks
import Ucore.Mm.TwinLoads
import Mathlib.Tactic.Common

/-!
# The pages of a program are its own

What `load_icode` keeps for every file. When a segment goes beyond 32 bits, `mm_map` may accept it with an area that does
not cover its pages, and then `Layout.Space` does not hold.

* `Layout.Private`: each page of the address space is at one address only, and user code may read it.
* `Layout.Stores`: a program keeps this, and of the bytes that are there it changes those of `W` at most. `Layout.Keeps` is
  for programs that may change any of them.
* `keeps_loadAreas`: the areas and segments of any file are loaded in this way.
* `stores_doPgfault`: a page fault changes no byte.
-/

namespace Ucore.Vm

open Ucore.Lib

variable {s s₁ s' : VmState} {m d la a va start stop offset page off : ℕ} {perm : BitVec 12} {bytes : List UInt8} {l : Layout}
  {W W' : ℕ → Prop} {file : ExecFile} {elf : ElfHdr} {ph : ProgHdr} {α β : Type}

/-! ### The invariant -/

/-- Each page of the address space `m` is at one address, for user code. -/
structure Layout.Private (l : Layout) (m d : ℕ) (s : VmState) : Prop where
  ok : l.Ok s
  top : ptSize * l.top = kernBase
  dir : d ∈ l.dirs
  pgdir : (s.mm m).pgdir = d
  mm : (s.mm m).Ok
  ends : ∀ v ∈ (s.mm m).mmapList, v.vmEnd ≤ userTop
  user : ∀ x ∈ l.slots, x.dir = d → (s.pte x).present = true → (s.pte x).user = true
  alone : ∀ x ∈ l.slots, x.dir = d → ∀ y ∈ l.slots, ∀ p, (s.pte x).page = some p → (s.pte y).page = some p → y = x

/-- The bytes that are there, but those of `W`, are there afterwards. -/
def VmState.BytesStay (d : ℕ) (W : ℕ → Prop) (s s' : VmState) : Prop :=
  ∀ a < kernBase, ¬ W a → ∀ b, s.byteAt d a = some b → s'.byteAt d a = some b

/-- The pages are kept apart, and nothing but `W` is written to. -/
def Layout.Stores (l : Layout) (m d : ℕ) (W : ℕ → Prop) (s s' : VmState) : Prop :=
  l.Private m d s → l.Private m d s' ∧ VmState.BytesStay d W s s'

theorem VmState.BytesStay.mono (h : VmState.BytesStay d W s s') (hW : ∀ a, W a → W' a) : VmState.BytesStay d W' s s' :=
  fun a ha hnot => h a ha fun hw => hnot (hW a hw)

theorem VmState.BytesStay.trans (h : VmState.BytesStay d W s s₁) (h' : VmState.BytesStay d W s₁ s') : VmState.BytesStay d W s s' :=
  fun a ha hnot b hb => h' a ha hnot b (h a ha hnot b hb)

instance : Std.Refl (l.Stores m d W) := ⟨fun _ h => ⟨h, fun _ _ _ _ hb => hb⟩⟩

instance : IsTrans VmState (l.Stores m d W) := ⟨fun _ _ _ h h' hs => by
  obtain ⟨hs₁, hbytes⟩ := h hs
  obtain ⟨hs', hbytes'⟩ := h' hs₁
  exact ⟨hs', hbytes.trans hbytes'⟩⟩

/-- A program that keeps the pages apart. -/
abbrev Layout.Keeps (l : Layout) (m d : ℕ) (x : VmProg α) : Prop := Within (l.Stores m d fun _ => True) (fun _ => True) x

/-- It is enough to look at states where the pages are apart. -/
theorem Layout.stores_of {x : VmProg α} (h : ∀ s, l.Private m d s → (x.run s).Post
    (fun _ s' => l.Private m d s' ∧ VmState.BytesStay d W s s') (fun _ s' => l.Private m d s' ∧ VmState.BytesStay d W s s')
    fun _ => True) : Within (l.Stores m d W) (fun _ => True) x := by
  intro s
  by_cases hs : l.Private m d s
  · exact (h s hs).mono (fun _ _ h' _ => h') (fun _ _ h' _ => h') fun _ _ => trivial
  · cases hrun : x.run s with
    | ok a s' => exact fun hs' => (hs hs').elim
    | error e s' => exact fun hs' => (hs hs').elim
    | panic p => exact trivial

theorem Layout.stores_get_bind {k : VmState → VmProg α}
    (h : ∀ s, l.Private m d s → Within (l.Stores m d W) (fun _ => True) (k s)) :
    Within (l.Stores m d W) (fun _ => True) (Prog.get >>= k) := by
  apply Layout.stores_of
  intro s hs
  exact (h s hs s).mono (fun _ _ h' => h' hs) (fun _ _ h' => h' hs) fun _ _ => trivial

namespace Layout.Private

variable (h : l.Private m d s)

include h

theorem slot_mem (ha : a < kernBase) : slotOf d a ∈ l.slots := slotOf_mem_slots h.dir (pdx_lt_top ha (Nat.le_of_eq h.top.symm))

/-- A byte stays with its page. -/
theorem byteAt_kept (ha : a < kernBase) {b : UInt8} (hb : s.byteAt d a = some b) (hpte : s'.pte (slotOf d a) = s.pte (slotOf d a))
    (hbyte : ∀ p ∉ s.free, s'.byte p = s.byte p) : s'.byteAt d a = some b := by
  have hpresent : (s.pte (slotOf d a)).present = true := by
    rw [← isSome_byteAt, hb]
    rfl
  rw [byteAt_of_present hpresent] at hb
  rw [byteAt_of_present (by rwa [hpte]), hpte, hbyte _ (h.ok.named (h.slot_mem ha) (Pte.page_of_present hpresent)).2.2, hb]

/-- What stands at the slots is as before. -/
theorem sameSlots (hok : l.Ok s') (hmm : s'.mm = s.mm) (hpte : ∀ x ∈ l.slots, s'.pte x = s.pte x) : l.Private m d s' := by
  refine ⟨hok, h.top, h.dir, ?_, ?_, ?_, fun x hx hxd hpresent => ?_, fun x hx hxd y hy p hxp hyp => ?_⟩
  · rw [hmm, h.pgdir]
  · rw [hmm]
    exact h.mm
  · rw [hmm]
    exact h.ends
  · rw [hpte x hx] at hpresent ⊢
    exact h.user x hx hxd hpresent
  · rw [hpte x hx] at hxp
    rw [hpte y hy] at hyp
    exact h.alone x hx hxd y hy p hxp hyp

/-- Only the areas have changed. -/
theorem sameEntries (hfree : s'.free = s.free) (href : s'.pageRef = s.pageRef) (hentry : s'.entry = s.entry)
    (hpgdir : (s'.mm m).pgdir = (s.mm m).pgdir) (hmm : (s'.mm m).Ok) (hends : ∀ v ∈ (s'.mm m).mmapList, v.vmEnd ≤ userTop) :
    l.Private m d s' := by
  have hpte : ∀ x, s'.pte x = s.pte x := fun x => pte_congr (by rw [hentry]) fun _ => by rw [hentry]
  refine ⟨h.ok.congr hfree href hentry, h.top, h.dir, hpgdir.trans h.pgdir, hmm, hends, fun x hx => ?_, fun x hx hxd y hy p => ?_⟩
  · rw [hpte]
    exact h.user x hx
  · rw [hpte, hpte]
    exact h.alone x hx hxd y hy p

theorem writeBytes (page off : ℕ) (bytes : List UInt8) : l.Private m d (s.writeBytes page off bytes) :=
  h.sameEntries rfl rfl rfl rfl h.mm h.ends

/-- A page that was free is at a slot. Whatever was there before is gone. -/
theorem added {x : Slot} (hx : x ∈ l.slots) (hperm : (⟨page, pteP ||| perm⟩ : Pte).user = true)
    (hadded : l.Added x page ⟨page, pteP ||| perm⟩ s s') : l.Private m d s' := by
  have hmm : s'.mm = s.mm := hadded.frame.only.mm
  have hold : ∀ y ∈ l.slots, y ≠ x → s'.pte y = s.pte y := fun y hy hne => by rw [hadded.pte y hy, if_neg hne]
  have hnew : s'.pte x = ⟨page, pteP ||| perm⟩ := by rw [hadded.pte x hx, if_pos rfl]
  have hpage : (s'.pte x).page = some page := by rw [hnew, Pte.page_of_present (Pte.present_insert perm)]
  have hfree : ∀ y ∈ l.slots, (s.pte y).page ≠ some page := fun y hy hy' => (h.ok.named hy hy').2.2 hadded.wasFree
  refine ⟨hadded.ok, h.top, h.dir, by rw [hmm, h.pgdir], by rw [hmm]; exact h.mm, by rw [hmm]; exact h.ends,
    fun y hy hyd hpresent => ?_, fun y hy hyd z hz p hyp hzp => ?_⟩
  · by_cases heq : y = x
    · rw [heq, hnew, hperm]
    · rw [hold y hy heq] at hpresent ⊢
      exact h.user y hy hyd hpresent
  -- no other slot can name the new page, as it was free
  · by_cases hyx : y = x <;> by_cases hzx : z = x
    · rw [hyx, hzx]
    · rw [hyx, hpage] at hyp
      rw [hold z hz hzx, ← hyp] at hzp
      exact (hfree z hz hzp).elim
    · rw [hzx, hpage] at hzp
      rw [hold y hy hyx, ← hzp] at hyp
      exact (hfree y hy hyp).elim
    · rw [hold y hy hyx] at hyp
      rw [hold z hz hzx] at hzp
      exact h.alone y hy hyd z hz p hyp hzp

/-- **`pgdir_alloc_page`** changes no byte, if there was no page. -/
theorem allocPage (al : Allocs) (hla : la < kernBase) (hperm : ∀ page, (⟨page, pteP ||| perm⟩ : Pte).user = true) :
    ((pgdirAllocPage al d la perm).run s).Post (fun _ s' => l.Private m d s' ∧
      ((s.pte (slotOf d la)).present = false → VmState.BytesStay d (fun _ => False) s s')) (fun _ _ => False) fun _ => False := by
  refine (pgdirAllocPage_post al h.ok (h.slot_mem hla) perm).mono ?_ (fun _ _ hf => hf) fun _ hf => hf
  rintro r s' (⟨-, hsame⟩ | ⟨page, -, hadded⟩)
  · refine ⟨h.sameSlots hsame.ok hsame.frame.only.mm hsame.pte, fun _ a ha _ b hb => ?_⟩
    exact h.byteAt_kept ha hb (hsame.pte _ (h.slot_mem ha)) hsame.grown.byte
  · refine ⟨h.added (h.slot_mem hla) (hperm page) hadded, fun habsent a ha _ b hb => ?_⟩
    have hne : slotOf d a ≠ slotOf d la := fun heq => by
      rw [← heq, ← isSome_byteAt, hb] at habsent
      cases habsent
    refine h.byteAt_kept ha hb ?_ (hadded.grown (Pte.page_eq_none.mpr habsent)).byte
    rw [hadded.pte _ (h.slot_mem ha), if_neg hne]

end Layout.Private

theorem SamePages.bytesStay (h : SamePages s s') : VmState.BytesStay d W s s' := by
  obtain ⟨-, -, hentry, hbyte⟩ := h
  intro a _ _ b hb
  have hpte : s'.pte (slotOf d a) = s.pte (slotOf d a) := pte_congr (by rw [hentry]) fun _ => by rw [hentry]
  unfold VmState.byteAt at hb ⊢
  rwa [hpte, hbyte]

/-- The pages and the areas are as before. -/
theorem Layout.Stores.of_same (hpages : SamePages s s') (hmm : s'.mm = s.mm) : l.Stores m d W s s' := by
  intro hs
  refine ⟨hs.sameEntries hpages.free hpages.ref hpages.entry ?_ ?_ ?_, hpages.bytesStay⟩ <;> rw [hmm]
  · exact hs.mm
  · exact hs.ends

/-! ### Parts of `load_icode` -/

/-- All pages of `load_icode` are for user code. -/
theorem ProgHdr.user_perm (ph : ProgHdr) (page : ℕ) : (⟨page, pteP ||| ph.perm⟩ : Pte).user = true := by
  show (pteP ||| ph.perm).getLsbD 2 = true
  unfold ProgHdr.perm
  split_ifs
  · decide
  · decide

theorem stores_kmalloc (al : Allocs) : Within (l.Stores m d W) (fun _ => True) (kmalloc al) := by
  intro s
  unfold kmalloc
  rw [Prog.run_bind, Prog.run_get, Outcome.andThen_ok, Prog.run_bind, Prog.run_modify, Outcome.andThen_ok, Prog.run_ite]
  split_ifs
  · exact Layout.Stores.of_same ⟨rfl, rfl, rfl, rfl⟩ rfl
  · exact Layout.Stores.of_same ⟨rfl, rfl, rfl, rfl⟩ rfl

theorem keeps_pgdirAllocPage (al : Allocs) (hla : la < kernBase) (hperm : ∀ page, (⟨page, pteP ||| perm⟩ : Pte).user = true) :
    l.Keeps m d (pgdirAllocPage al d la perm) := by
  apply Layout.stores_of
  intro s hs
  refine (hs.allocPage al hla hperm).mono (fun _ _ h' => ⟨h'.1, fun _ _ hnot => (hnot trivial).elim⟩) (fun _ _ hf => hf.elim)
    fun _ _ => trivial

theorem keeps_writeBytes (page off : ℕ) (bytes : List UInt8) : l.Keeps m d (Prog.modify fun s => s.writeBytes page off bytes) :=
  Within.modify fun _ hs => ⟨hs.writeBytes page off bytes, fun _ _ hnot => (hnot trivial).elim⟩

theorem keeps_clearBytes (page off size : ℕ) : l.Keeps m d (clearBytes page off size) :=
  Within.ite (keeps_writeBytes _ _ _) (Within.stop trivial)

/-- What is read is not far behind the start of the file. -/
theorem keeps_loadIcodeRead_bind (al : Allocs) (file : ExecFile) {store : List UInt8 → VmState → VmState}
    (hstore : ∀ bytes, l.Keeps m d (Prog.modify (store bytes))) {len offset : ℕ} {k : List UInt8 → VmProg β}
    (hk : offset < sfsMaxFileSize → ∀ bytes, l.Keeps m d (k bytes)) : l.Keeps m d (loadIcodeRead al file store len offset >>= k) := by
  unfold loadIcodeRead
  by_cases hoffset : sfsMaxFileSize ≤ offset
  · rw [if_pos hoffset]
    exact Within.throw_bind _ _
  · rw [if_neg hoffset]
    have hseek : l.Keeps m d (file.seek offset) := by
      intro s
      refine (seek_post file offset).mono ?_ ?_ fun _ _ => trivial <;> rintro _ _ rfl
      · exact Std.Refl.refl _
      · exact Std.Refl.refl _
    refine Within.bind (Within.bind hseek fun _ => Within.bind (stores_kmalloc al) fun r => ?_) (hk (Nat.not_le.mp hoffset))
    cases r with
    | none => exact Within.throw _
    | some buffer =>
      refine Within.bind (hstore _) fun _ => Within.bind (Within.modify fun _ => ?_) fun _ => Within.ite (Within.pure _) (Within.throw _)
      exact Layout.Stores.of_same ⟨rfl, rfl, rfl, rfl⟩ rfl

theorem keeps_fileLoop (al : Allocs) (file : ExecFile) (hva : va < userTop) (hstop : stop < 2 ^ 32)
    (hperm : ∀ page, (⟨page, pteP ||| perm⟩ : Pte).user = true) {fuel : ℕ} (hplace : FilePlace va stop start la offset) :
    l.Keeps m d (fileLoop al file d perm stop fuel start la offset page) := by
  induction fuel generalizing start la offset page with
  | zero => exact Within.stop trivial
  | succ fuel ih =>
    unfold fileLoop
    by_cases hlt : start < stop
    · rw [if_pos hlt]
      refine Within.bind (keeps_pgdirAllocPage al (hplace.la_lt hlt hva) hperm) fun r => ?_
      cases r with
      | none => exact Within.throw _
      | some page =>
        apply keeps_loadIcodeRead_bind al file (fun bytes => keeps_writeBytes _ _ bytes)
        intro hoffset _
        exact ih (hplace.turn hlt hva hstop hoffset)
    · rw [if_neg hlt]
      exact Within.pure _

theorem keeps_bssLoop (al : Allocs) (hstop : stop ≤ userTop) (hperm : ∀ page, (⟨page, pteP ||| perm⟩ : Pte).user = true) {fuel : ℕ}
    (hplace : la ≤ start ∨ stop ≤ start) : l.Keeps m d (bssLoop al d perm stop fuel start la) := by
  induction fuel generalizing start la with
  | zero => exact Within.stop trivial
  | succ fuel ih =>
    unfold bssLoop
    by_cases hlt : start < stop
    · have hla : la < kernBase :=
        Nat.lt_of_le_of_lt (hplace.resolve_right (Nat.not_le.mpr hlt)) (Nat.lt_of_lt_of_le hlt (Nat.le_trans hstop (by decide)))
      rw [if_pos hlt]
      refine Within.bind (keeps_pgdirAllocPage al hla hperm) fun r => ?_
      cases r with
      | none => exact Within.throw _
      | some page =>
        have hnext := bssPlace_turn hplace hlt hstop
        dsimp only
        generalize chunkSize (sub32 start la) (add32 la pageSize) stop = size at hnext ⊢
        exact Within.bind (keeps_clearBytes page _ size) fun _ => ih hnext
    · rw [if_neg hlt]
      exact Within.pure _

theorem keeps_bssRest (al : Allocs) (hstop : add32 ph.pVa ph.pMemsz ≤ userTop) : l.Keeps m d (bssRest al d ph start la page) := by
  unfold bssRest bssFirst
  dsimp only
  by_cases hlt : start < la
  · rw [if_pos hlt]
    refine Within.ite (Within.pure _) ?_
    rw [Prog.bind_assoc]
    refine Within.bind (keeps_clearBytes _ _ _) fun _ => ?_
    rw [Prog.bind_assoc]
    intro s
    refine Outcome.Post.assert_bind fun hend => ?_
    refine keeps_bssLoop al hstop ph.user_perm ?_ s
    rcases hend with ⟨-, heq⟩ | ⟨-, heq⟩
    · exact Or.inr (Nat.le_of_eq heq.symm)
    · exact Or.inl (Nat.le_of_eq heq.symm)
  · rw [if_neg hlt]
    exact keeps_bssLoop al hstop ph.user_perm (Or.inl (Nat.not_lt.mp hlt))

/-! ### Areas -/

theorem stores_findVma_bind {addr : ℕ} {k : Option Vma → VmProg β} (hnone : Within (l.Stores m d W) (fun _ => True) (k none))
    (hsome : ∀ v : Vma, v.vmEnd ≤ userTop → v.Has addr → Within (l.Stores m d W) (fun _ => True) (k (some v))) :
    Within (l.Stores m d W) (fun _ => True) (findVma m addr >>= k) := by
  apply Layout.stores_of
  intro s hs
  have hareas : OnlyAreas m s (s.foundArea m (areaAt (s.mm m).mmapList addr)) := by
    have hpost := onlyAreas_findVma (m := m) addr s
    rwa [findVma_run hs.mm] at hpost
  obtain ⟨hfree, href, hentry, -⟩ := hareas.pages
  have hs₁ := hs.sameEntries hfree href hentry hareas.pgdir hs.mm.find (by rw [mmapList_foundArea]; exact hs.ends)
  have hrest : ∀ {x : VmProg β}, Within (l.Stores m d W) (fun _ => True) x →
      (x.run (s.foundArea m (areaAt (s.mm m).mmapList addr))).Post
        (fun _ s' => l.Private m d s' ∧ VmState.BytesStay d W s s') (fun _ s' => l.Private m d s' ∧ VmState.BytesStay d W s s')
        fun _ => True := fun hx => (hx _).mono (fun _ _ h' => ⟨(h' hs₁).1, hareas.pages.bytesStay.trans (h' hs₁).2⟩)
          (fun _ _ h' => ⟨(h' hs₁).1, hareas.pages.bytesStay.trans (h' hs₁).2⟩) fun _ _ => trivial
  rw [Prog.bind_of_ok (findVma_run hs.mm)]
  cases hat : areaAt (s.mm m).mmapList addr with
  | none =>
    rw [hat] at hrest
    exact hrest hnone
  | some v =>
    rw [hat] at hrest
    obtain ⟨hv, hhas⟩ := (areaAt_eq_some_iff hs.mm.areas).mp hat
    exact hrest (hsome v (hs.ends v hv) hhas)

theorem keeps_mmMap (al : Allocs) (addr len : ℕ) (flags : BitVec 32) : l.Keeps m d (mmMap al m addr len flags) := by
  by_cases haccess : UserAccess (areaStart addr) (areaEnd addr len)
  · apply Layout.stores_of
    intro s hs
    refine ((onlyAreas_mmMap (m := m) al addr len flags s).and (mmMap_ends al hs.mm addr len flags)).mono ?_ ?_ fun _ _ => trivial
    · rintro _ s' ⟨hareas, hok, v, harea, hlist⟩
      obtain ⟨hfree, href, hentry, -⟩ := hareas.pages
      refine ⟨hs.sameEntries hfree href hentry hareas.pgdir hok fun w hw => ?_, hareas.pages.bytesStay⟩
      rw [hlist] at hw
      rcases List.mem_cons.mp ((placeArea_perm _ _).mem_iff.mp hw) with rfl | hw
      · rw [show w.vmEnd = areaEnd addr len from congrArg (fun a => a.2.1) harea]
        exact haccess.2.2
      · exact hs.ends w hw
    · rintro _ s' ⟨hareas, hok, hlist, -⟩
      obtain ⟨hfree, href, hentry, -⟩ := hareas.pages
      exact ⟨hs.sameEntries hfree href hentry hareas.pgdir hok (by rw [hlist]; exact hs.ends), hareas.pages.bytesStay⟩
  · rw [mmMap_eq, if_pos haccess]
    exact Within.throw _

/-- What follows `mm_map` may use that the area is one of user space. -/
theorem keeps_mmMap_bind (al : Allocs) {addr len : ℕ} {flags : BitVec 32} {k : Unit → VmProg β}
    (hk : UserAccess (areaStart addr) (areaEnd addr len) → l.Keeps m d (k ())) :
    l.Keeps m d (mmMap al m addr len flags >>= k) := by
  by_cases haccess : UserAccess (areaStart addr) (areaEnd addr len)
  · exact Within.bind (keeps_mmMap al addr len flags) fun _ => hk haccess
  · rw [mmMap_eq, if_pos haccess]
    exact Within.throw_bind _ _

/-- **A page fault** changes no byte. -/
theorem stores_doPgfault (al : Allocs) (code addr : ℕ) : Within (l.Stores m d W) (fun _ => True) (doPgfault al m code addr) := by
  unfold doPgfault
  refine stores_findVma_bind (Within.throw _) fun v hend hhas => Within.ite (Within.throw _) ?_
  have hla : addr / pageSize * pageSize < kernBase := Nat.lt_of_le_of_lt (Nat.div_mul_le_self _ _)
    (Nat.lt_of_lt_of_le hhas.2 (Nat.le_trans hend (by decide)))
  apply Layout.stores_get_bind
  intro s₀ hs₀
  rw [hs₀.pgdir]
  apply Layout.stores_of
  intro s hs
  have hx := hs.slot_mem hla
  refine Outcome.post_bind.mpr ((getPte_post al hs.ok hs.dir (Layout.mem_slots.mp hx).2.1).mono ?_ (fun _ _ hf => hf.elim)
    fun _ hf => hf.elim)
  rintro r s₁ (⟨rfl, rfl⟩ | ⟨t, rfl, htabled⟩)
  · exact ⟨hs.sameSlots hs.ok.refused rfl fun _ _ => rfl, fun _ _ _ _ hb => hb⟩
  · have hs₁ : l.Private m d s₁ := hs.sameSlots htabled.ok htabled.frame.only.mm htabled.pte
    have hstay : VmState.BytesStay d W s s₁ := fun a ha _ b hb =>
      hs.byteAt_kept ha hb (htabled.pte _ (hs.slot_mem ha)) htabled.grown.byte
    have hentry : s₁.entry t (ptx (addr / pageSize * pageSize)) = s₁.pte (slotOf d (addr / pageSize * pageSize)) :=
      (Layout.TableAt.pte (x := slotOf d (addr / pageSize * pageSize)) htabled.table).symm
    show Outcome.Post _ _ _ (Prog.run (Prog.get >>= _) s₁)
    rw [Prog.run_bind, Prog.run_get, Outcome.andThen_ok, hentry, hs₁.pgdir, Prog.run_ite]
    split_ifs with hzero hpresent
    · refine Outcome.post_bind.mpr ((hs₁.allocPage al hla fun _ => v.user_perm).mono ?_ (fun _ _ hf => hf.elim) fun _ hf => hf.elim)
      rintro r s₂ ⟨hs₂, hbytes⟩
      have hlater : VmState.BytesStay d W s₁ s₂ := (hbytes (by rw [hzero, Pte.present_zero])).mono fun _ hf => hf.elim
      cases r with
      | none => exact ⟨hs₂, hstay.trans hlater⟩
      | some page => exact ⟨hs₂, hstay.trans hlater⟩
    · exact trivial
    · exact ⟨hs₁, hstay⟩

/-! ### The areas and segments -/

theorem keeps_loadSegment (al : Allocs) (file : ExecFile) (ph : ProgHdr) : l.Keeps m d (loadSegment al file m ph) := by
  unfold loadSegment
  refine Within.ite (Within.pure _) (Within.ite (Within.throw _) (Within.ite (Within.pure _) (keeps_mmMap_bind al fun haccess => ?_)))
  obtain ⟨hva, hstop⟩ := user_of_access haccess
  apply Layout.stores_get_bind
  intro s hs
  rw [hs.pgdir]
  have hplace : FilePlace ph.pVa (add32 ph.pVa ph.pFilesz) ph.pVa (ph.pVa / pageSize * pageSize) ph.pOffset := by
    refine Or.inr ⟨Nat.div_mul_le_self _ _, ?_, Nat.le_add_right _ _, by omega⟩
    unfold pageSize
    omega
  refine Within.bind (keeps_fileLoop al file hva (Nat.mod_lt _ (Nat.succ_pos _)) ph.user_perm hplace) ?_
  rintro ⟨start, la, page⟩
  exact keeps_bssRest al hstop

theorem keeps_loadSegments (al : Allocs) (file : ExecFile) (elf : ElfHdr) (phnums : List ℕ) :
    l.Keeps m d (loadSegments al file m elf phnums) := by
  induction phnums with
  | nil => exact Within.pure _
  | cons phnum phnums ih =>
    apply keeps_loadIcodeRead_bind al file fun _ => Within.modify fun s => Std.Refl.refl s
    intro _ bytes
    exact Within.bind (keeps_loadSegment al file _) fun _ => ih

/-- **The areas and segments of any file** leave each page at one address. -/
theorem keeps_loadAreas (al : Allocs) (file : ExecFile) (elf : ElfHdr) : l.Keeps m d (loadAreas al file m elf) :=
  Within.bind (keeps_loadSegments al file elf _) fun _ => keeps_mmMap al _ _ _

end Ucore.Vm
