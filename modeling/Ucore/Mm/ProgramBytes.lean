import Ucore.Mm.UserSpaces
import Mathlib.Tactic.Common

/-!
# The bytes of a program

What user code sees of a program when `load_icode` has returned.

* `LoadsAll` says that each byte of each segment is there: it is from the file, or 0.
* `ExecFile.Whole` is for a file whose segments have something from the file each, and do not go beyond 32 bits. The whole of
  such a file is loaded; a segment that has nothing from the file is passed over (`load_icode_loads_all`).
-/

namespace Ucore.Vm

open Ucore.Lib

variable {s s' : VmState} {l : Layout} {live : List ℕ} {file : ExecFile} {elf : ElfHdr} {d a : ℕ}

/-- The byte that user code sees at an address. -/
def VmState.userByte (s : VmState) (d a : ℕ) : Option UInt8 := if a < userTop then s.byteAt d a else none

theorem userByte_eq_some {b : UInt8} : s.userByte d a = some b ↔ a < userTop ∧ s.byteAt d a = some b := by
  unfold VmState.userByte
  split_ifs with h
  · exact ⟨fun hb => ⟨h, hb⟩, fun hand => hand.2⟩
  · exact ⟨fun hb => hb.elim, fun hand => absurd hand.1 h⟩

/-- Each byte of each segment is in memory. -/
def VmState.LoadsAll (s : VmState) (d : ℕ) (file : ExecFile) (elf : ElfHdr) : Prop :=
  ∀ phnum < elf.ePhnum, (file.progHdr elf phnum).pType = elfPtLoad → ∀ i < (file.progHdr elf phnum).pMemsz,
    ∃ b, s.userByte d ((file.progHdr elf phnum).pVa + i) = some b ∧ (file.progHdr elf phnum).byteOf file i = some b

/-- Each segment has something from the file, and none goes beyond 32 bits. -/
def ExecFile.Whole (file : ExecFile) (elf : ElfHdr) : Prop :=
  ∀ phnum < elf.ePhnum, (file.progHdr elf phnum).pType = elfPtLoad → (file.progHdr elf phnum).pMemsz ≠ 0 →
    (file.progHdr elf phnum).pFilesz ≠ 0 ∧ (file.progHdr elf phnum).pVa + (file.progHdr elf phnum).pMemsz < 2 ^ 32

/-- An address is in the pages of a segment that has something from the file, or in the stack. -/
def ExecFile.Covers (file : ExecFile) (elf : ElfHdr) (a : ℕ) : Prop :=
  (ustackTop - ustackSize ≤ a ∧ a < ustackTop) ∨ ∃ k < elf.ePhnum, (file.progHdr elf k).pType = elfPtLoad ∧
    (file.progHdr elf k).pFilesz ≠ 0 ∧ areaStart (file.progHdr elf k).pVa ≤ a ∧
    a < areaEnd (file.progHdr elf k).pVa (file.progHdr elf k).pMemsz

/-- A segment that has nothing from the file is not all in the pages of others. -/
def ExecFile.Apart (file : ExecFile) (elf : ElfHdr) : Prop :=
  ∀ phnum < elf.ePhnum, (file.progHdr elf phnum).pType = elfPtLoad → (file.progHdr elf phnum).pFilesz = 0 →
    (file.progHdr elf phnum).pMemsz ≠ 0 → ∃ i < (file.progHdr elf phnum).pMemsz, ¬ file.Covers elf ((file.progHdr elf phnum).pVa + i)

theorem le32_lt (bytes : List UInt8) (i : ℕ) : le32 bytes i < 2 ^ 32 := by
  have h₀ := (bytes.getD i 0).toNat_lt
  have h₁ := (bytes.getD (i + 1) 0).toNat_lt
  have h₂ := (bytes.getD (i + 2) 0).toNat_lt
  have h₃ := (bytes.getD (i + 3) 0).toNat_lt
  unfold le32
  omega

theorem pVa_lt (file : ExecFile) (elf : ElfHdr) (phnum : ℕ) : (file.progHdr elf phnum).pVa < 2 ^ 32 := le32_lt _ 8

theorem ExecFile.Whole.sound (h : file.Whole elf) : file.Sound elf := by
  intro phnum hphnum htype
  by_cases hzero : (file.progHdr elf phnum).pMemsz = 0
  · rw [hzero]
    exact pVa_lt file elf phnum
  · exact (h phnum hphnum htype hzero).2

/-- There is no user byte at the last address. -/
theorem VmState.LoadsAll.sound (h : s.LoadsAll d file elf) : file.Sound elf := by
  intro phnum hphnum htype
  by_contra hwrap
  have hva := pVa_lt file elf phnum
  obtain ⟨b, hb, -⟩ := h phnum hphnum htype (2 ^ 32 - 1 - (file.progHdr elf phnum).pVa) (by omega)
  have hlast := (userByte_eq_some.mp hb).1
  unfold userTop at hlast
  omega

/-- **Loading is complete for whole files.** When `load_icode` has returned for a file whose segments have something from the file
each, the bytes of all segments are in memory. With a segment that has nothing from the file, some byte is missing, unless other
segments or the stack happen to have pages for all of it. -/
theorem load_icode_loads_all (al : Allocs) (h : l.Machine live s) {args : List (List UInt8)} (hargs : ArgsOk args) {r : Loaded}
    (hrun : (loadIcode al file args).run s = .ok r s') :
    (file.Whole file.elfHdr → s'.LoadsAll (s'.mm r.mm).pgdir file file.elfHdr) ∧
    (file.Apart file.elfHdr → s'.LoadsAll (s'.mm r.mm).pgdir file file.elfHdr → file.Whole file.elfHdr) := by
  refine ⟨fun hwhole phnum hphnum htype i hi => ?_, fun hapart hall phnum hphnum htype hmemsz => ?_⟩
  · have hpost := loadIcode_post al h hwhole.sound hargs
    rw [hrun] at hpost
    have hfilesz := (hwhole phnum hphnum htype (Nat.ne_zero_of_lt hi)).1
    obtain ⟨hle, hbytes⟩ := hpost.2.2.1 phnum hphnum htype hfilesz
    obtain ⟨b, hb, hbyte⟩ := hbytes i hi
    exact ⟨b, userByte_eq_some.mpr ⟨Nat.lt_of_lt_of_le (Nat.add_lt_add_left hi _) hle, hb⟩, hbyte⟩
  · refine ⟨fun hfilesz => ?_, hall.sound phnum hphnum htype⟩
    have hpost := loadIcode_post al h hall.sound hargs
    rw [hrun] at hpost
    obtain ⟨-, ⟨l', hmachine⟩, -, hareas⟩ := hpost
    obtain ⟨i, hi, hnot⟩ := hapart phnum hphnum htype hfilesz hmemsz
    obtain ⟨b, hb, -⟩ := hall phnum hphnum htype i hi
    obtain ⟨hlt, hsome⟩ := userByte_eq_some.mp hb
    have hpresent : (s'.pte (slotOf (s'.mm r.mm).pgdir ((file.progHdr file.elfHdr phnum).pVa + i))).present = true := by
      rw [← isSome_byteAt, hsome]
      rfl
    -- The page is under an area, and each area is for the stack or for a segment with something from the file.
    obtain ⟨v, hv, hhas, -⟩ := (hmachine.agrees List.mem_cons_self).area _ (Nat.lt_of_lt_of_le hlt (by decide)) hpresent
    refine hnot ?_
    rcases hareas v hv with harea | ⟨k, hk, hload, hfile, hstart, hend⟩
    · exact Or.inl ((has_stackArea harea).mp hhas)
    · exact Or.inr ⟨k, hk, hload, hfile, hstart ▸ hhas.1, hend ▸ hhas.2⟩

/-- A file with one segment of 8 bytes at the address 0x800000, of which `filesz` are from the file. -/
def oneSegment (filesz : UInt8) : ExecFile :=
  ⟨[0x7F, 0x45, 0x4C, 0x46] ++ List.replicate 20 0 ++ [0, 0, 0x80, 0, 52, 0, 0, 0] ++ List.replicate 12 0 ++ [1, 0] ++
    List.replicate 6 0 ++ [1, 0, 0, 0, 84, 0, 0, 0, 0, 0, 0x80, 0, 0, 0, 0, 0, filesz, 0, 0, 0, 8, 0, 0, 0, 6, 0, 0, 0, 0, 0, 0, 0] ++
    [1, 2, 3, 4], fun _ => none⟩

/-- A segment of 4 bytes of the file, and 4 bytes of 0. -/
theorem load_icode_loads_all_four : ∃ s',
    (loadIcode .firstFit (oneSegment 4) []).run (.start 0 [1, 2, 3, 4, 5, 6, 7, 8, 9]) = .ok ⟨1, 0x800000, userTop - 8⟩ s' ∧
    s'.LoadsAll (s'.mm 1).pgdir (oneSegment 4) (oneSegment 4).elfHdr := by
  obtain ⟨s', hrun, -⟩ : ∃ s', (loadIcode .firstFit (oneSegment 4) []).run (.start 0 [1, 2, 3, 4, 5, 6, 7, 8, 9]) =
      .ok ⟨1, 0x800000, userTop - 8⟩ s' ∧ s'.userByte (s'.mm 1).pgdir 0x800003 = some 4 :=
    Outcome.of_observe (f := fun s : VmState => s.userByte (s.mm 1).pgdir 0x800003) (by decide +kernel)
  obtain ⟨l, hmachine⟩ : ∃ l : Layout, l.Machine [] (.start 0 [1, 2, 3, 4, 5, 6, 7, 8, 9]) := start_machine (by decide) (by decide)
  have hargs : ArgsOk [] := ⟨Nat.zero_le _, fun _ h => (List.not_mem_nil h).elim⟩
  have hwhole : (oneSegment 4).Whole (oneSegment 4).elfHdr := by
    intro phnum hlt _ _
    obtain rfl : phnum = 0 := Nat.lt_one_iff.mp hlt
    exact ⟨by decide, by decide⟩
  exact ⟨s', hrun, (load_icode_loads_all .firstFit hmachine hargs hrun).1 hwhole⟩

/-- A segment of 8 bytes that has nothing from the file. `load_icode` returns, and no byte of the segment is in memory. -/
theorem load_icode_skips_bss : ∃ s',
    (loadIcode .firstFit (oneSegment 0) []).run (.start 0 [1, 2, 3, 4, 5, 6, 7, 8, 9]) = .ok ⟨1, 0x800000, userTop - 8⟩ s' ∧
    ((oneSegment 0).progHdr (oneSegment 0).elfHdr 0).pVa = 0x800000 ∧ s'.userByte (s'.mm 1).pgdir 0x800000 = none ∧
    ¬ s'.LoadsAll (s'.mm 1).pgdir (oneSegment 0) (oneSegment 0).elfHdr := by
  obtain ⟨s', hrun, hnone⟩ : ∃ s', (loadIcode .firstFit (oneSegment 0) []).run (.start 0 [1, 2, 3, 4, 5, 6, 7, 8, 9]) =
      .ok ⟨1, 0x800000, userTop - 8⟩ s' ∧ s'.userByte (s'.mm 1).pgdir 0x800000 = none :=
    Outcome.of_observe (f := fun s : VmState => s.userByte (s.mm 1).pgdir 0x800000) (by decide +kernel)
  refine ⟨s', hrun, rfl, hnone, fun hall => ?_⟩
  obtain ⟨b, hb, -⟩ := hall 0 (by decide) rfl 0 (by decide)
  rw [show ((oneSegment 0).progHdr (oneSegment 0).elfHdr 0).pVa + 0 = 0x800000 from rfl, hnone] at hb
  cases hb

end Ucore.Vm
