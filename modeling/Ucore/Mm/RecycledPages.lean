import Ucore.Mm.TwinLoads
import Ucore.Mm.ProgramBytes
import Mathlib.Tactic.Common

/-!
# What a new program reads of old pages

The pages of a new address space were free before, and hold what their last users have left in them.

* `loadAndFault` loads a program and serves page faults of it.
* In two runs that start with the same memory but for what free pages hold, the page tables of the program are the same, and so
  is each byte that it can read, but for those that nothing has been written to since (`load_icode_reads_same`). The segments
  are among the bytes that are the same.
-/

namespace Ucore.Vm

open Ucore.Lib

variable {s₀ t₀ s t s' : VmState} {l : Layout} {live : List ℕ} {file : ExecFile} {K : (ℕ → MmStruct) → Prop} {T : ℕ → Prop} {m d a : ℕ}

/-- Page faults of a process, one after the other. Each of them may fail. -/
def serveFaults (al : Allocs) (m : ℕ) : List (ℕ × ℕ) → VmProg (List (Except VmError Unit))
  | [] => pure []
  | (code, la) :: faults => do
    let r ← Prog.attempt (doPgfault al m code la)
    let rs ← serveFaults al m faults
    pure (r :: rs)

/-- A program is loaded, and has page faults. -/
def loadAndFault (al : Allocs) (file : ExecFile) (args : List (List UInt8)) (faults : List (ℕ × ℕ)) :
    VmProg (Loaded × List (Except VmError Unit)) := do
  let r ← loadIcode al file args
  let rs ← serveFaults al r.mm faults
  pure (r, rs)

/-- The byte at an address is in a page that was free, and is what was there. -/
def Recycled (s s' : VmState) (d a : ℕ) : Prop :=
  ∃ p ∈ s.free, (s'.pte (slotOf d a)).page = some p ∧ s'.byteAt d a = some (s.byte p (a % pageSize))

/-! ### The two memories -/

theorem Layout.Machine.booted (h : l.Machine live s) : s.Booted := by
  have htop : l.top = userPdes := by
    have heq := h.top
    unfold ptSize kernBase at heq
    unfold userPdes
    omega
  exact ⟨fun hfree => h.ok.free_not_kept hfree h.boots.kept, fun i hi => h.boots.empty i (htop ▸ hi)⟩

/-- What free pages hold does not matter for the invariant. -/
theorem SameButFree.machine (hsame : SameButFree s t) (h : l.Machine live s) : l.Machine live t := by
  obtain ⟨b, e, rfl⟩ := hsame.rest
  have hentry : ∀ p ∉ s.free, (s.withPages b e).entry p = s.entry p := hsame.entry
  have hok : l.Ok (s.withPages b e) := h.ok.congr_taken rfl rfl hentry
  have hdir : ∀ d ∈ l.dirs, (s.withPages b e).entry d = s.entry d := fun d hd => hentry d fun hfree => h.ok.free_not_dir hfree hd
  have hboot : (s.withPages b e).entry s.bootPgdir = s.entry s.bootPgdir := hentry _ h.booted.taken
  refine ⟨hok, ⟨h.boots.kept, h.boots.dir, fun i hi => ?_, h.boots.top⟩, h.top, fun m hm => ?_, h.inj, h.fresh⟩
  · show ((s.withPages b e).entry s.bootPgdir i).present = false
    rw [hboot]
    exact h.boots.empty i hi
  · have hspace := h.spaces m hm
    refine hspace.transfer hok rfl hspace.dir rfl (fun i => by rw [hdir _ hspace.dir]) (fun x hx _ => ?_) fun _ _ _ _ => rfl
    obtain ⟨hd, hown, -⟩ := Layout.mem_slots.mp hx
    exact pte_congr (by rw [hdir x.dir hd]) fun hpresent => by rw [hentry _ (h.ok.table_not_free ⟨hd, hown, hpresent, rfl⟩)]

/-- A page table entry for a user address is the same in both runs. -/
theorem Twins.pte (h : Twins s₀ t₀ K T d s t) (ha : a < kernBase) : t.pte (slotOf d a) = s.pte (slotOf d a) := by
  refine pte_congr (by rw [show (slotOf d a).dir = d from rfl, h.dir]) fun hpresent => ?_
  have htable := h.tables _ (pdx_lt_userPdes ha) hpresent
  rw [show (slotOf d a).dir = d from rfl, show (slotOf d a).pde = pdx a from rfl, htable.entry]

/-- A byte is the same in both runs, or nothing has been written to it. -/
theorem Twins.byteAt (h : Twins s₀ t₀ K T d s t) (hfree : t₀.free = s₀.free) (ha : a < kernBase) :
    t.byteAt d a = s.byteAt d a ∨ Recycled s₀ s d a ∧ Recycled t₀ t d a := by
  have hpte := h.pte ha
  by_cases hpresent : (s.pte (slotOf d a)).present = true
  · have ht : (t.pte (slotOf d a)).present = true := by rw [hpte, hpresent]
    have hpage : (s.pte (slotOf d a)).page = some (s.pte (slotOf d a)).ppn := Pte.page_of_present hpresent
    rw [byteAt_of_present hpresent, byteAt_of_present ht, hpte]
    rcases h.byte (s.pte (slotOf d a)).ppn (a % pageSize) with hsame | ⟨hmem, hs, ht'⟩
    · exact Or.inl (by rw [hsame])
    · refine Or.inr ⟨⟨_, hmem, hpage, by rw [byteAt_of_present hpresent, hs]⟩,
        _, by rw [hfree]; exact hmem, by rw [hpte, hpage], by rw [byteAt_of_present ht, hpte, ht']⟩
  · refine Or.inl ?_
    unfold VmState.byteAt Pte.page
    rw [hpte, if_neg hpresent]
    rfl

theorem lockstep_serveFaults (al : Allocs) (faults : List (ℕ × ℕ)) : Together (Twins s₀ t₀ (UserMm m d) T d) (serveFaults al m faults) := by
  induction faults with
  | nil => exact Lockstep.pure fun _ _ h => h
  | cons fault faults ih =>
    refine Lockstep.seq (Lockstep.attempt (lockstep_doPgfault al _ _) (fun _ _ _ h => h) fun _ _ _ h => h) fun r => ?_
    exact Lockstep.seq ih fun rs => Lockstep.pure fun _ _ h => h

/-! ### The segments -/

/-- Page faults do not change what is there. -/
theorem serveFaults_post (al : Allocs) (htops : l.Tops) (h : l.Space s m) (faults : List (ℕ × ℕ)) :
    ((serveFaults al m faults).run s).Post (fun _ s' => l.Space s' m ∧ l.Writes m (fun _ => False) s s') (fun _ _ => False)
      fun _ => True := by
  induction faults generalizing s with
  | nil => exact ⟨h, (Layout.Grows.refl l m s).writes h⟩
  | cons fault faults ih =>
    have hrest : ∀ {r : Except VmError Unit} {s₁}, l.Space s₁ m ∧ l.Grows m s s₁ →
        (Prog.run (serveFaults al m faults >>= fun rs => pure (r :: rs)) s₁).Post
          (fun _ s' => l.Space s' m ∧ l.Writes m (fun _ => False) s s') (fun _ _ => False) fun _ => True := by
      rintro r s₁ ⟨hspace, hgrows⟩
      refine (ih hspace).bind ?_
      rintro rs s' ⟨hspace', hwrites⟩
      exact ⟨hspace', (hgrows.writes h).trans h.dir hwrites⟩
    refine Outcome.post_bind.mpr (Outcome.post_attempt.mpr ((doPgfault_post al h htops.user _ _).mono ?_ ?_ fun _ _ => trivial))
    · exact fun _ _ h' => hrest h'
    · exact fun _ _ h' => hrest h'

theorem loadAndFault_segments (al : Allocs) (h : l.Machine live s) (hsound : file.Sound file.elfHdr) {args : List (List UInt8)}
    (hargs : ArgsOk args) (faults : List (ℕ × ℕ)) : ((loadAndFault al file args faults).run s).Post
      (fun r s' => ∀ phnum < file.elfHdr.ePhnum, s'.Loads (s'.mm r.1.mm).pgdir file (file.progHdr file.elfHdr phnum))
      (fun _ _ => True) fun _ => True := by
  unfold loadAndFault
  refine Outcome.post_bind.mpr ((loadIcode_post al h hsound hargs).mono ?_ (fun _ _ _ => trivial) fun _ _ => trivial)
  rintro r s₁ ⟨-, ⟨l', hmachine⟩, hloads, -⟩
  refine Outcome.post_bind.mpr ((serveFaults_post al hmachine.tops (hmachine.spaces r.mm List.mem_cons_self) faults).mono ?_
    (fun _ _ _ => trivial) fun _ _ => trivial)
  rintro rs s' ⟨-, hwrites⟩ phnum hphnum
  have hkept := (hloads phnum hphnum).kept hmachine.tops hwrites
  rwa [← hwrites.pgdir] at hkept

/-- **What a program reads of recycled pages.** In two runs of `load_icode`, and of page faults after it, in memories that differ only
in what free pages hold, everything ends in the same way, with the same page tables. Each byte that user code can read is the
same in both, or it is what a page that was free has held before. The bytes of the segments are the same. -/
theorem load_icode_reads_same (al : Allocs) (h : l.Machine live s) (hsame : SameButFree s t) {args : List (List UInt8)}
    (hargs : ArgsOk args) (faults : List (ℕ × ℕ)) {r : Loaded} {rs : List (Except VmError Unit)}
    (hrun : (loadAndFault al file args faults).run s = .ok (r, rs) s') :
    ∃ t', (loadAndFault al file args faults).run t = .ok (r, rs) t' ∧ SameRest s' t' ∧
      (∀ a < userTop, t'.pte (slotOf (s'.mm r.mm).pgdir a) = s'.pte (slotOf (s'.mm r.mm).pgdir a) ∧
        (t'.byteAt (s'.mm r.mm).pgdir a = s'.byteAt (s'.mm r.mm).pgdir a ∨
          Recycled s s' (s'.mm r.mm).pgdir a ∧ Recycled t t' (s'.mm r.mm).pgdir a)) ∧
      (file.Sound file.elfHdr → ∀ phnum < file.elfHdr.ePhnum, (file.progHdr file.elfHdr phnum).pType = elfPtLoad →
        (file.progHdr file.elfHdr phnum).pFilesz ≠ 0 → ∀ i < (file.progHdr file.elfHdr phnum).pMemsz,
          t'.byteAt (s'.mm r.mm).pgdir ((file.progHdr file.elfHdr phnum).pVa + i) =
            s'.byteAt (s'.mm r.mm).pgdir ((file.progHdr file.elfHdr phnum).pVa + i)) := by
  have hfree : t.free = s.free := by
    obtain ⟨b, e, rfl⟩ := hsame.rest
    rfl
  have hboth : Lockstep (Begun s t) (fun r s' t' => ∃ d, Twins s t (UserMm r.1.mm d) (fun _ => False) d s' t') (fun _ _ _ => True)
      (loadAndFault al file args faults) := by
    refine Lockstep.bind (lockstep_loadIcode al file hsame h.booted hargs) fun r => ?_
    rintro s₁ t₁ ⟨d, htwins⟩
    refine Lockstep.bind ((lockstep_serveFaults al faults).mono (fun _ _ _ h' => h') fun _ _ _ _ => trivial) (fun rs => ?_) s₁ t₁ htwins
    exact Lockstep.pure fun _ _ h' => ⟨d, h'⟩
  have houtcome := hboth s t ⟨hsame.rest, ⟨rfl, rfl⟩, ⟨rfl, rfl⟩, rfl, rfl⟩
  rw [hrun] at houtcome
  obtain ⟨t', hrun', d, htwins⟩ := houtcome.of_ok
  obtain rfl : (s'.mm r.mm).pgdir = d := htwins.mm.pgdir
  refine ⟨t', hrun', htwins.rest, fun a ha => ?_, fun hsound phnum hphnum htype hfilesz i hi => ?_⟩
  · have huser : a < kernBase := Nat.lt_trans ha (by decide)
    exact ⟨htwins.pte huser, htwins.byteAt hfree huser⟩
  · have hs := loadAndFault_segments al h hsound hargs faults
    rw [hrun] at hs
    have ht := loadAndFault_segments al (hsame.machine h) hsound hargs faults
    rw [hrun'] at ht
    have hdir : (t'.mm r.mm).pgdir = (s'.mm r.mm).pgdir := by
      obtain ⟨b, e, rfl⟩ := htwins.rest
      rfl
    obtain ⟨b, hb, hbyte⟩ := (hs phnum hphnum htype hfilesz).bytes i hi
    obtain ⟨b', hb', hbyte'⟩ := (ht phnum hphnum htype hfilesz).bytes i hi
    rw [hdir] at hb'
    rw [hb, hb', ← hbyte, ← hbyte']

/-- A memory to start with, in which the free pages are full of 1. -/
def usedMemory : VmState :=
  { VmState.start 0 [1, 2, 3, 4, 5, 6, 7, 8] with byte := fun p _ => if p ∈ [1, 2, 3, 4, 5, 6, 7, 8] then 1 else 0 }

theorem usedMemory_same : SameButFree (.start 0 [1, 2, 3, 4, 5, 6, 7, 8]) usedMemory :=
  ⟨⟨_, _, rfl⟩, fun _ hp => funext fun _ => if_neg hp, fun _ _ => rfl⟩

/-- What user code of the first process reads on its stack, and in a page behind, if it may read there. -/
def stackBytes (s : VmState) : List (Option UInt8) :=
  [userTop - 0x2000, userTop - 0x5000].map fun a =>
    if (s.pte (slotOf (s.mm 1).pgdir a)).user then s.byteAt (s.mm 1).pgdir a else none

/-- A program is loaded and uses a page of its stack more, in two memories. -/
theorem load_icode_reads_same_fault : ∃ s' t',
    (loadAndFault .firstFit emptyProgram [] [(6, userTop - 0x5000)]).run (.start 0 [1, 2, 3, 4, 5, 6, 7, 8]) =
      .ok (⟨1, 0, userTop - 8⟩, [.ok ()]) s' ∧
    (loadAndFault .firstFit emptyProgram [] [(6, userTop - 0x5000)]).run usedMemory = .ok (⟨1, 0, userTop - 8⟩, [.ok ()]) t' ∧
    SameRest s' t' := by
  obtain ⟨s', hrun, -⟩ : ∃ s', (loadAndFault .firstFit emptyProgram [] [(6, userTop - 0x5000)]).run (.start 0 [1, 2, 3, 4, 5, 6, 7, 8]) =
      .ok (⟨1, 0, userTop - 8⟩, [.ok ()]) s' ∧ stackBytes s' = [some 0, some 0] := Outcome.of_observe (by decide +kernel)
  obtain ⟨l, hmachine⟩ : ∃ l : Layout, l.Machine [] (.start 0 [1, 2, 3, 4, 5, 6, 7, 8]) := start_machine (by decide) (by decide)
  have hargs : ArgsOk [] := ⟨Nat.zero_le _, fun _ h => (List.not_mem_nil h).elim⟩
  obtain ⟨t', hrun', hrest, -⟩ := load_icode_reads_same .firstFit hmachine usedMemory_same hargs _ hrun
  exact ⟨s', t', hrun, hrun', hrest⟩

/-- **A program can read what was in its pages before.** With other bytes in the free pages, user code reads other bytes on its stack
and in the page that a page fault has added. -/
theorem load_icode_leaks : SameButFree (.start 0 [1, 2, 3, 4, 5, 6, 7, 8]) usedMemory ∧ ∃ s' t',
    (loadAndFault .firstFit emptyProgram [] [(6, userTop - 0x5000)]).run (.start 0 [1, 2, 3, 4, 5, 6, 7, 8]) =
      .ok (⟨1, 0, userTop - 8⟩, [.ok ()]) s' ∧
    (loadAndFault .firstFit emptyProgram [] [(6, userTop - 0x5000)]).run usedMemory = .ok (⟨1, 0, userTop - 8⟩, [.ok ()]) t' ∧
    stackBytes s' = [some 0, some 0] ∧ stackBytes t' = [some 1, some 1] := by
  obtain ⟨s', hrun, hs⟩ : ∃ s', (loadAndFault .firstFit emptyProgram [] [(6, userTop - 0x5000)]).run (.start 0 [1, 2, 3, 4, 5, 6, 7, 8]) =
      .ok (⟨1, 0, userTop - 8⟩, [.ok ()]) s' ∧ stackBytes s' = [some 0, some 0] := Outcome.of_observe (by decide +kernel)
  obtain ⟨t', hrun', ht⟩ : ∃ t', (loadAndFault .firstFit emptyProgram [] [(6, userTop - 0x5000)]).run usedMemory =
      .ok (⟨1, 0, userTop - 8⟩, [.ok ()]) t' ∧ stackBytes t' = [some 1, some 1] := Outcome.of_observe (by decide +kernel)
  exact ⟨usedMemory_same, s', t', hrun, hrun', hs, ht⟩

end Ucore.Vm
