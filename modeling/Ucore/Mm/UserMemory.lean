import Ucore.Mm.LoadIcode
import Ucore.Mm.VmaList
import Ucore.Mm.PageRanges
import Mathlib.Tactic.Common

/-!
# User memory in the kernel

`user_mem_check` and `copy_string` of `kern/mm/vmm.c`, which stand between the pointers of a program and the kernel.

* `userMemLoop` goes from area to area. `MmStruct.Accessible` is what it has to find out of one byte, and
  `userMemLoop_run` says that it does so for all bytes of a range.
* `user_mem_check_exact`: the check allows exactly what the areas allow. The lowest page of a stack is tested where the
  loop comes to an area only, and that is enough, as it goes upwards.
* `copyLoop` checks and copies a string in pieces that end at page boundaries. `mem` is what a load from an address gives;
  the page fault of a page that is not there is served before.
* `copy_string_exact`: a string is copied if and only if it can be read up to its end and is short enough.
-/

namespace Ucore.Vm

open Ucore.Lib

/-! ### The code -/

/-- Source: `kern/mm/memlayout.h` `KERN_ACCESS` -/
def KernAccess (start stop : ℕ) : Prop := 0xC0000000 ≤ start ∧ start < stop ∧ stop ≤ 0xF8000000

instance (start stop : ℕ) : Decidable (KernAccess start stop) := inferInstanceAs (Decidable (_ ∧ _ ∧ _))

/-- The loop of `user_mem_check`, with `fuel` turns at most. -/
def userMemLoop (m : ℕ) (write : Bool) (stop : ℕ) : ℕ → ℕ → VmProg Bool
  | 0, _ => Prog.stop .loop
  | fuel + 1, start =>
    if start < stop then do
      match ← findVma m start with
      | none => pure false
      | some v =>
        if start < v.vmStart then pure false
        else if v.vmFlags &&& (if write then vmWrite else vmRead) = 0 then pure false
        else if (write = true ∧ v.vmFlags &&& vmStack ≠ 0) ∧ start < add32 v.vmStart pageSize then pure false
        else userMemLoop m write stop fuel v.vmEnd
    else pure true

/-- Source: `kern/mm/vmm.c` `user_mem_check` -/
def userMemCheck (mm : Option ℕ) (addr len : ℕ) (write : Bool) : VmProg Bool :=
  match mm with
  | some m =>
    if ¬ UserAccess addr (add32 addr len) then pure false
    else userMemLoop m write (add32 addr len) (add32 addr len + 1) addr
  | none => pure (decide (KernAccess addr (add32 addr len)))

section copy

variable (mm : Option ℕ) (mem : ℕ → UInt8)

/-- `strnlen` of a string in memory. -/
def strnlenAt : ℕ → ℕ → ℕ
  | _, 0 => 0
  | src, len + 1 => if mem src = 0 then 0 else strnlenAt (src + 1) len + 1

/-- `memcpy` of `n` bytes to the place `off` of a buffer. -/
def memcpyAt (dst : ℕ → UInt8) (off src n : ℕ) : ℕ → UInt8 := fun i =>
  if off ≤ i ∧ i < off + n then mem (src + (i - off)) else dst i

/-- The loop of `copy_string`, with `fuel` turns at most: what it returns, and the buffer, where it has come to `off`. -/
def copyLoop : ℕ → (ℕ → UInt8) → ℕ → ℕ → ℕ → ℕ → VmProg (Bool × (ℕ → UInt8))
  | 0, _, _, _, _, _ => Prog.stop .loop
  | fuel + 1, dst, off, src, maxn, part => do
    let part := if part > maxn then maxn else part
    if ¬ (← userMemCheck mm src part false) then
      pure (false, dst)
    else if strnlenAt mem src part < part then
      pure (true, memcpyAt mem dst off src (strnlenAt mem src part + 1))
    else if part = maxn then
      pure (false, dst)
    else
      copyLoop fuel (memcpyAt mem dst off src part) (off + part) (add32 src part) (maxn - part) pageSize

/-- Source: `kern/mm/vmm.c` `copy_string` -/
def copyString (dst : ℕ → UInt8) (src maxn : ℕ) : VmProg (Bool × (ℕ → UInt8)) :=
  copyLoop mm mem (maxn + 1) dst 0 src maxn (sub32 (add32 src pageSize / pageSize * pageSize) src)

end copy

variable {s s₁ s' : VmState} {m addr len start stop fuel a src maxn part off n k : ℕ} {write : Bool} {v : Vma} {d : MmStruct}
  {mem dst : ℕ → UInt8}

/-! ### `user_mem_check` -/

/-- The area allows a write, or a read. -/
def Vma.Grants (v : Vma) (write : Bool) : Prop := v.vmFlags &&& (if write then vmWrite else vmRead) ≠ 0

/-- The address is in the lowest page of a stack. -/
def Vma.Guards (v : Vma) (a : ℕ) : Prop := v.vmFlags &&& vmStack ≠ 0 ∧ v.vmStart ≤ a ∧ a < v.vmStart + pageSize

instance (v : Vma) (write : Bool) : Decidable (v.Grants write) := inferInstanceAs (Decidable (_ ≠ _))

instance (v : Vma) (a : ℕ) : Decidable (v.Guards a) := inferInstanceAs (Decidable (_ ∧ _ ∧ _))

/-- The byte is in an area that allows the access, and not in the lowest page of a stack when it is a write. -/
def MmStruct.Accessible (d : MmStruct) (write : Bool) (a : ℕ) : Prop :=
  ∃ v ∈ d.mmapList, v.Has a ∧ v.Grants write ∧ (write = true → ¬ v.Guards a)

/-- The areas have been looked at only. -/
def Looked (m : ℕ) (s s' : VmState) : Prop := (s'.mm m).Ok ∧ (s'.mm m).mmapList = (s.mm m).mmapList

theorem Looked.trans (h : Looked m s s₁) (h' : Looked m s₁ s') : Looked m s s' := ⟨h'.1, h'.2.trans h.2⟩

theorem Looked.found (h : (s.mm m).Ok) (addr : ℕ) : Looked m s (s.foundArea m (areaAt (s.mm m).mmapList addr)) :=
  ⟨h.find, mmapList_foundArea _ _⟩

theorem Looked.accessible (h : Looked m s s') : (s'.mm m).Accessible write a ↔ (s.mm m).Accessible write a := by
  unfold MmStruct.Accessible
  rw [h.2]

/-- What is accessible at the first byte of a range in an area is accessible up to the end of the area. -/
theorem MmStruct.Accessible.next (h : d.Accessible write start) (hareas : Areas d.mmapList) (hv : v ∈ d.mmapList)
    (hhas : v.Has start) (hle : start ≤ a) (hlt : a < v.vmEnd) : d.Accessible write a := by
  obtain ⟨w, hw, hwhas, hgrants, hguard⟩ := h
  have heq : w = v := hareas.eq_of_mem hw hv hwhas hhas
  subst heq
  refine ⟨w, hw, ⟨Nat.le_trans hwhas.1 hle, hlt⟩, hgrants, fun hwrite => ?_⟩
  rintro ⟨hstack, -, hpage⟩
  exact hguard hwrite ⟨hstack, hwhas.1, Nat.lt_of_le_of_lt hle hpage⟩

/-- The three tests at an area are about the first byte. -/
theorem userMemLoop_step (h : (s.mm m).Ok) (hlt : start < stop) (hstop : stop ≤ userTop) :
    (userMemLoop m write stop (fuel + 1) start).run s =
      match areaAt (s.mm m).mmapList start with
      | none => .ok false (s.foundArea m none)
      | some v => if v.Grants write ∧ (write = true → ¬ v.Guards start) then
          (userMemLoop m write stop fuel v.vmEnd).run (s.foundArea m (some v))
        else .ok false (s.foundArea m (some v)) := by
  rw [userMemLoop, if_pos hlt, Prog.bind_of_ok (findVma_run h)]
  cases hat : areaAt (s.mm m).mmapList start with
  | none => rfl
  | some v =>
    obtain ⟨-, hhas⟩ := (areaAt_eq_some_iff h.areas).mp hat
    have hadd : add32 v.vmStart pageSize = v.vmStart + pageSize := by
      apply Nat.mod_eq_of_lt
      have hle := Nat.le_trans hhas.1 (Nat.le_of_lt (Nat.lt_of_lt_of_le hlt hstop))
      unfold userTop pageSize at *
      omega
    dsimp only
    rw [if_neg (Nat.not_lt.mpr hhas.1), hadd]
    by_cases hgrants : v.vmFlags &&& (if write then vmWrite else vmRead) = 0
    · rw [if_pos hgrants, if_neg fun hand => hand.1 hgrants]
      rfl
    · rw [if_neg hgrants]
      by_cases hguard : (write = true ∧ v.vmFlags &&& vmStack ≠ 0) ∧ start < v.vmStart + pageSize
      · rw [if_pos hguard, if_neg fun hand => hand.2 hguard.1.1 ⟨hguard.1.2, hhas.1, hguard.2⟩]
        rfl
      · have hboth : v.Grants write ∧ (write = true → ¬ v.Guards start) := ⟨hgrants, fun hwrite hguards => hguard ⟨⟨hwrite, hguards.1⟩, hguards.2.2⟩⟩
        rw [if_neg hguard, if_pos hboth]

/-- **The loop finds out whether all bytes of a range are accessible.** -/
theorem userMemLoop_run (write : Bool) (h : (s.mm m).Ok) (hstop : stop ≤ userTop) (hfuel : stop - start < fuel) :
    ∃ b s', (userMemLoop m write stop fuel start).run s = .ok b s' ∧ Looked m s s' ∧
      (b = true ↔ ∀ a, start ≤ a → a < stop → (s.mm m).Accessible write a) := by
  induction fuel generalizing s start with
  | zero => exact absurd hfuel (Nat.not_lt_zero _)
  | succ fuel ih =>
    by_cases hlt : start < stop
    · have hfound := Looked.found h start
      rw [userMemLoop_step h hlt hstop]
      cases hat : areaAt (s.mm m).mmapList start with
      | none =>
        rw [hat] at hfound
        refine ⟨false, _, rfl, hfound, ⟨fun hb => (nomatch hb), fun hall => ?_⟩⟩
        obtain ⟨v, hv, hhas, -⟩ := hall start (Nat.le_refl _) hlt
        exact (areaAt_eq_none_iff.mp hat v hv hhas).elim
      | some v =>
        obtain ⟨hv, hhas⟩ := (areaAt_eq_some_iff h.areas).mp hat
        rw [hat] at hfound
        dsimp only
        by_cases hok : v.Grants write ∧ (write = true → ¬ v.Guards start)
        · rw [if_pos hok]
          have hnow : (s.mm m).Accessible write start := ⟨v, hv, hhas, hok.1, hok.2⟩
          obtain ⟨b, s', hrun, hlooked, hb⟩ := ih hfound.1 (show stop - v.vmEnd < fuel by have := hhas.2; omega)
          refine ⟨b, s', hrun, hfound.trans hlooked, hb.trans ⟨fun hrest a hle ha => ?_, fun hall a hle ha => ?_⟩⟩
          · by_cases hin : a < v.vmEnd
            · exact hnow.next h.areas hv hhas hle hin
            · exact hfound.accessible.mp (hrest a (Nat.le_of_not_lt hin) ha)
          · exact hfound.accessible.mpr (hall a (Nat.le_trans (Nat.le_of_lt hhas.2) hle) ha)
        · rw [if_neg hok]
          refine ⟨false, _, rfl, hfound, ⟨fun hb => (nomatch hb), fun hall => ?_⟩⟩
          obtain ⟨w, hw, hwhas, hgrants, hguard⟩ := hall start (Nat.le_refl _) hlt
          have heq : w = v := h.areas.eq_of_mem hw hv hwhas hhas
          subst heq
          exact (hok ⟨hgrants, hguard⟩).elim
    · have hrun : (userMemLoop m write stop (fuel + 1) start).run s = .ok true s := by
        unfold userMemLoop
        rw [if_neg hlt]
        rfl
      exact ⟨true, s, hrun, ⟨h, rfl⟩, ⟨fun _ a hle ha => (hlt (Nat.lt_of_le_of_lt hle ha)).elim, fun _ => rfl⟩⟩

/-- The range is one of user space, and all its bytes are accessible. -/
structure VmState.Checked (s : VmState) (m : ℕ) (write : Bool) (addr len : ℕ) : Prop where
  pos : 0 < len
  base : userBase ≤ addr
  top : addr + len ≤ userTop
  bytes : ∀ a, addr ≤ a → a < addr + len → (s.mm m).Accessible write a

/-- A sum that wraps is before its first part, so `USER_ACCESS` is about the exact sum. -/
theorem userAccess_add32 (haddr : addr < 2 ^ 32) (hlen : len < 2 ^ 32) :
    UserAccess addr (add32 addr len) ↔ 0 < len ∧ userBase ≤ addr ∧ addr + len ≤ userTop := by
  unfold UserAccess add32 userBase userTop
  omega

theorem userMemCheck_run (write : Bool) (h : (s.mm m).Ok) (haddr : addr < 2 ^ 32) (hlen : len < 2 ^ 32) :
    ∃ b s', (userMemCheck (some m) addr len write).run s = .ok b s' ∧ Looked m s s' ∧
      (b = true ↔ s.Checked m write addr len) := by
  unfold userMemCheck
  have haccess := userAccess_add32 haddr hlen
  dsimp only
  by_cases hin : UserAccess addr (add32 addr len)
  · obtain ⟨hpos, hbase, htop⟩ := haccess.mp hin
    have hadd : add32 addr len = addr + len := Nat.mod_eq_of_lt (by unfold userTop at htop; omega)
    rw [if_neg (not_not.mpr hin), hadd]
    obtain ⟨b, s', hrun, hlooked, hb⟩ := userMemLoop_run write h htop
      (show addr + len - addr < addr + len + 1 by omega)
    exact ⟨b, s', hrun, hlooked, hb.trans ⟨fun hall => ⟨hpos, hbase, htop, hall⟩, fun hchecked => hchecked.bytes⟩⟩
  · rw [if_pos hin]
    refine ⟨false, s, rfl, ⟨h, rfl⟩, ⟨fun hb => (nomatch hb), fun hchecked => ?_⟩⟩
    exact (hin (haccess.mpr ⟨hchecked.pos, hchecked.base, hchecked.top⟩)).elim

/-- An area that has the byte is the one with a stack's lowest page around it, as areas are whole pages. -/
theorem guards_has (hrange : UserRange v.vmStart v.vmEnd) (h : v.Guards a) : v.Has a := by
  obtain ⟨hstart, hstop, -, hlt, -⟩ := hrange
  refine ⟨h.2.1, Nat.lt_of_lt_of_le h.2.2 ?_⟩
  unfold pageSize at *
  omega

/-- **`user_mem_check` is exact.** -/
theorem user_mem_check_exact (h : (s.mm m).Ok) (hranges : ∀ v ∈ (s.mm m).mmapList, UserRange v.vmStart v.vmEnd)
    (haddr : addr < 2 ^ 32) (hlen : len < 2 ^ 32) (write : Bool) :
    ∃ b s', (userMemCheck (some m) addr len write).run s = .ok b s' ∧
      (b = true ↔ 0 < len ∧ userBase ≤ addr ∧ addr + len ≤ userTop ∧
        (∀ a, addr ≤ a → a < addr + len → ∃ v ∈ (s.mm m).mmapList, v.Has a ∧ v.Grants write) ∧
        (write = true → ∀ a, addr ≤ a → a < addr + len → ∀ v ∈ (s.mm m).mmapList, ¬ v.Guards a)) := by
  obtain ⟨b, s', hrun, -, hb⟩ := userMemCheck_run write h haddr hlen
  refine ⟨b, s', hrun, hb.trans ⟨?_, ?_⟩⟩
  · rintro ⟨hpos, hbase, htop, hbytes⟩
    refine ⟨hpos, hbase, htop, fun a hle ha => ?_, fun hwrite a hle ha w hw hguards => ?_⟩
    · obtain ⟨v, hv, hhas, hgrants, -⟩ := hbytes a hle ha
      exact ⟨v, hv, hhas, hgrants⟩
    · obtain ⟨v, hv, hhas, -, hguard⟩ := hbytes a hle ha
      have heq : v = w := h.areas.eq_of_mem hv hw hhas (guards_has (hranges w hw) hguards)
      subst heq
      exact hguard hwrite hguards
  · rintro ⟨hpos, hbase, htop, hareas, hguard⟩
    refine ⟨hpos, hbase, htop, fun a hle ha => ?_⟩
    obtain ⟨v, hv, hhas, hgrants⟩ := hareas a hle ha
    exact ⟨v, hv, hhas, hgrants, fun hwrite => hguard hwrite a hle ha v hv⟩

/-- An area that can be written, with a stack behind it. -/
def areaAndStack : VmState :=
  { VmState.start 0 [] with
    mm := fun _ => ⟨[⟨1, 0x400000, 0x402000, 3⟩, ⟨2, 0x402000, 0x404000, 11⟩], none, 0, 2, 1⟩ }

theorem areaAndStack_ok : (areaAndStack.mm 0).Ok ∧ ∀ v ∈ (areaAndStack.mm 0).mmapList, UserRange v.vmStart v.vmEnd := by
  refine ⟨⟨⟨by decide, by decide⟩, rfl, fun v hv => (nomatch hv)⟩, fun v hv => ?_⟩
  rcases List.mem_cons.mp hv with rfl | hv
  · exact ⟨rfl, rfl, by decide⟩
  · rw [List.mem_singleton.mp hv]
    exact ⟨rfl, rfl, by decide⟩

/-- A range that goes on into the stack can be read; the lowest page of the stack cannot be written. -/
theorem user_mem_check_exact_stack : (∃ s', (userMemCheck (some 0) 0x401ff0 0x20 false).run areaAndStack = .ok true s') ∧
    ∃ s', (userMemCheck (some 0) 0x401ff0 0x20 true).run areaAndStack = .ok false s' := by
  have hcheck := user_mem_check_exact areaAndStack_ok.1 areaAndStack_ok.2 (show 0x401ff0 < 2 ^ 32 by decide)
    (show 0x20 < 2 ^ 32 by decide)
  have hhas : ∀ a, 0x401ff0 ≤ a → a < 0x401ff0 + 0x20 → ∃ v ∈ (areaAndStack.mm 0).mmapList, v.Has a ∧ v.Grants false := by
    intro a hle ha
    by_cases hlow : a < 0x402000
    · exact ⟨⟨1, 0x400000, 0x402000, 3⟩, List.mem_cons_self, ⟨Nat.le_trans (by decide) hle, hlow⟩, by decide⟩
    · exact ⟨⟨2, 0x402000, 0x404000, 11⟩, List.mem_cons_of_mem _ List.mem_cons_self,
        ⟨Nat.le_of_not_lt hlow, Nat.lt_trans ha (by decide)⟩, by decide⟩
  constructor
  · obtain ⟨b, s', hrun, hb⟩ := hcheck false
    have htrue : b = true := hb.mpr ⟨by decide, by decide, by decide, hhas, fun hwrite => (nomatch hwrite)⟩
    exact ⟨s', htrue ▸ hrun⟩
  · obtain ⟨b, s', hrun, hb⟩ := hcheck true
    have hfalse : b = false := by
      refine Bool.eq_false_iff.mpr fun htrue => ?_
      obtain ⟨-, -, -, -, hguard⟩ := hb.mp htrue
      exact hguard rfl 0x402000 (by decide) (by decide) ⟨2, 0x402000, 0x404000, 11⟩
        (List.mem_cons_of_mem _ List.mem_cons_self) ⟨by decide, by decide, by decide⟩
    exact ⟨s', hfalse ▸ hrun⟩

/-! ### `copy_string` -/

/-- A byte that the program may read. -/
def VmState.Readable (s : VmState) (m a : ℕ) : Prop := userBase ≤ a ∧ a < userTop ∧ ∃ v ∈ (s.mm m).mmapList, v.Has a ∧ v.Grants false

/-- The string at `src` has `k` bytes and a zero, and all of them may be read. -/
structure VmState.Copyable (s : VmState) (m : ℕ) (mem : ℕ → UInt8) (src k : ℕ) : Prop where
  bytes : ∀ i < k, mem (src + i) ≠ 0
  zero : mem (src + k) = 0
  readable : ∀ i ≤ k, s.Readable m (src + i)

theorem accessible_false : d.Accessible false a ↔ ∃ v ∈ d.mmapList, v.Has a ∧ v.Grants false := by
  unfold MmStruct.Accessible
  simp

theorem checked_false : s.Checked m false src n ↔ 0 < n ∧ ∀ i < n, s.Readable m (src + i) := by
  constructor
  · rintro ⟨hpos, hbase, htop, hbytes⟩
    refine ⟨hpos, fun i hi => ⟨by omega, by omega, ?_⟩⟩
    exact accessible_false.mp (hbytes (src + i) (by omega) (by omega))
  · rintro ⟨hpos, hall⟩
    have hlast := (hall (n - 1) (by omega)).2.1
    refine ⟨hpos, (hall 0 hpos).1, by omega, fun a hle ha => ?_⟩
    have hbyte := hall (a - src) (by omega)
    rw [Nat.add_sub_cancel' hle] at hbyte
    exact accessible_false.mpr hbyte.2.2

/-- The bytes of a page may be read together. -/
theorem VmState.Readable.page (h : s.Readable m a) (haligned : ∀ v ∈ (s.mm m).mmapList, v.vmStart % pageSize = 0 ∧ v.vmEnd % pageSize = 0)
    {b : ℕ} (hpage : b / pageSize = a / pageSize) : s.Readable m b := by
  obtain ⟨hbase, htop, v, hv, hhas, hgrants⟩ := h
  obtain ⟨hstart, hstop⟩ := haligned v hv
  obtain ⟨hlow, hhigh⟩ := hhas
  refine ⟨?_, ?_, v, hv, ⟨?_, ?_⟩, hgrants⟩ <;> unfold userBase userTop pageSize at * <;> omega

theorem strnlenAt_spec (mem : ℕ → UInt8) (src n : ℕ) : strnlenAt mem src n ≤ n ∧
    (∀ i < strnlenAt mem src n, mem (src + i) ≠ 0) ∧ (strnlenAt mem src n < n → mem (src + strnlenAt mem src n) = 0) := by
  induction n generalizing src with
  | zero => exact ⟨Nat.le_refl _, fun i hi => absurd hi (Nat.not_lt_zero _), fun hlt => absurd hlt (Nat.lt_irrefl _)⟩
  | succ n ih =>
    unfold strnlenAt
    split_ifs with hzero
    · exact ⟨Nat.zero_le _, fun i hi => absurd hi (Nat.not_lt_zero _), fun _ => hzero⟩
    · obtain ⟨hle, hbytes, hend⟩ := ih (src + 1)
      refine ⟨Nat.succ_le_succ hle, fun i hi => ?_, fun hlt => ?_⟩
      · cases i with
        | zero => exact hzero
        | succ i =>
          have hbyte := hbytes i (Nat.lt_of_succ_lt_succ hi)
          rwa [Nat.add_right_comm] at hbyte
      · have hbyte := hend (Nat.lt_of_succ_lt_succ hlt)
        rwa [Nat.add_right_comm] at hbyte

/-- Two copies, one behind the other. -/
theorem memcpyAt_memcpyAt : memcpyAt mem (memcpyAt mem dst off src n) (off + n) (src + n) k = memcpyAt mem dst off src (n + k) := by
  funext i
  unfold memcpyAt
  by_cases hsecond : off + n ≤ i ∧ i < off + n + k
  · rw [if_pos hsecond, if_pos (by omega)]
    congr 1
    omega
  · rw [if_neg hsecond]
    by_cases hfirst : off ≤ i ∧ i < off + n
    · rw [if_pos hfirst, if_pos (by omega)]
    · rw [if_neg hfirst, if_neg (by omega)]

theorem memcpyAt_of_not {i : ℕ} (h : i < off ∨ off + n ≤ i) : memcpyAt mem dst off src n i = dst i :=
  if_neg (by omega)

theorem Looked.readable (h : Looked m s s') : s'.Readable m a ↔ s.Readable m a := by
  unfold VmState.Readable
  rw [h.2]

theorem Looked.copyable (h : Looked m s s') (hcopy : s'.Copyable m mem src k) : s.Copyable m mem src k :=
  ⟨hcopy.bytes, hcopy.zero, fun i hi => h.readable.mp (hcopy.readable i hi)⟩

theorem Looked.symm (h : Looked m s s') (hok : (s.mm m).Ok) : Looked m s' s := ⟨hok, h.2.symm⟩

/-- The string goes on behind a piece without a zero. -/
theorem VmState.Copyable.append (h : s.Copyable m mem (src + n) k) (hbytes : ∀ i < n, mem (src + i) ≠ 0)
    (hreadable : ∀ i < n, s.Readable m (src + i)) : s.Copyable m mem src (n + k) := by
  have hshift : ∀ i, n ≤ i → src + i = src + n + (i - n) := fun i hi => by omega
  refine ⟨fun i hi => ?_, ?_, fun i hi => ?_⟩
  · by_cases hin : i < n
    · exact hbytes i hin
    · rw [hshift i (Nat.le_of_not_lt hin)]
      exact h.bytes _ (by omega)
  · rw [← Nat.add_assoc]
    exact h.zero
  · by_cases hin : i < n
    · exact hreadable i hin
    · rw [hshift i (Nat.le_of_not_lt hin)]
      exact h.readable _ (by omega)

/-- What is left of a string behind a piece without a zero. -/
theorem VmState.Copyable.rest (h : s.Copyable m mem src k) (hbytes : ∀ i < n, mem (src + i) ≠ 0) :
    n ≤ k ∧ s.Copyable m mem (src + n) (k - n) := by
  have hle : n ≤ k := Nat.le_of_not_lt fun hlt => hbytes k hlt h.zero
  refine ⟨hle, fun i hi => ?_, ?_, fun i hi => ?_⟩
  · rw [Nat.add_assoc]
    exact h.bytes _ (by omega)
  · rw [Nat.add_assoc, Nat.add_sub_cancel' hle]
    exact h.zero
  · rw [Nat.add_assoc]
    exact h.readable _ (by omega)

/-- What `copy_string` has done at its end. -/
structure CopyEnd (s : VmState) (m : ℕ) (mem dst : ℕ → UInt8) (off src maxn : ℕ) (b : Bool) (dst' : ℕ → UInt8) : Prop where
  copied : b = true → ∃ k < maxn, s.Copyable m mem src k ∧ dst' = memcpyAt mem dst off src (k + 1)
  missing : b = false → ∀ k < maxn, ¬ s.Copyable m mem src k
  outside : ∀ i, i < off ∨ off + maxn ≤ i → dst' i = dst i

/-- **The loop of `copy_string`**, when the piece ends with the page of `src`. -/
theorem copyLoop_run (h : (s.mm m).Ok) (haligned : ∀ v ∈ (s.mm m).mmapList, v.vmStart % pageSize = 0 ∧ v.vmEnd % pageSize = 0)
    (mem dst : ℕ → UInt8) (off : ℕ) (hsrc : src < 2 ^ 32) (hmaxn : maxn < 2 ^ 32) (hfuel : maxn < fuel) :
    ∃ b dst' s', (copyLoop (some m) mem fuel dst off src maxn (pageSize - src % pageSize)).run s = .ok (b, dst') s' ∧
      CopyEnd s m mem dst off src maxn b dst' := by
  induction fuel generalizing s dst off src maxn with
  | zero => exact absurd hfuel (Nat.not_lt_zero _)
  | succ fuel ih =>
    obtain ⟨part, hpart⟩ : ∃ part, part = if pageSize - src % pageSize > maxn then maxn else pageSize - src % pageSize := ⟨_, rfl⟩
    have hle : part ≤ maxn ∧ part ≤ pageSize - src % pageSize ∧ (part ≠ maxn → part = pageSize - src % pageSize) := by
      rw [hpart]
      split_ifs <;> omega
    obtain ⟨hmax, hpage, hwhole⟩ := hle
    obtain ⟨c, s₁, hrun, hlooked, hc⟩ := userMemCheck_run false h hsrc (Nat.lt_of_le_of_lt hmax hmaxn)
    rw [checked_false] at hc
    obtain ⟨hlen, hbytes, hzero⟩ := strnlenAt_spec mem src part
    rw [copyLoop, ← hpart, Prog.bind_of_ok hrun]
    cases c with
    | false =>
      refine ⟨false, dst, s₁, rfl, fun hb => (nomatch hb), fun _ k hk hcopy => ?_, fun i _ => rfl⟩
      -- the page of the first byte may be read
      have hall : ∀ i < part, s.Readable m (src + i) := fun i hi => (hcopy.readable 0 (Nat.zero_le k)).page haligned (by
        unfold pageSize at *
        omega)
      have hpos : 0 < part := by
        rw [hpart]
        unfold pageSize
        split_ifs <;> omega
      exact nomatch hc.mpr ⟨hpos, hall⟩
    | true =>
      obtain ⟨hpos, hreadable⟩ := hc.mp rfl
      rw [if_neg (not_not.mpr rfl)]
      by_cases hend : strnlenAt mem src part < part
      · rw [if_pos hend]
        refine ⟨true, _, s₁, rfl, fun _ => ⟨_, Nat.lt_of_lt_of_le hend hmax, ⟨hbytes, hzero hend, fun i hi => ?_⟩, rfl⟩,
          fun hb => (nomatch hb), fun i hi => memcpyAt_of_not (by omega)⟩
        exact hreadable i (Nat.lt_of_le_of_lt hi hend)
      · have hnone : ∀ i < part, mem (src + i) ≠ 0 := fun i hi => hbytes i (Nat.lt_of_lt_of_le hi (Nat.le_of_not_lt hend))
        rw [if_neg hend]
        by_cases hlast : part = maxn
        · rw [if_pos hlast]
          refine ⟨false, dst, s₁, rfl, fun hb => (nomatch hb), fun _ k hk hcopy => ?_, fun i _ => rfl⟩
          exact hnone k (hlast ▸ hk) hcopy.zero
        · have hnext : add32 src part = src + part := by
            have htop := (hreadable (part - 1) (by omega)).2.1
            apply Nat.mod_eq_of_lt
            unfold userTop at htop
            omega
          have hstart : pageSize - (src + part) % pageSize = pageSize := by
            have hwhole := hwhole hlast
            unfold pageSize at *
            omega
          have hsrc' : src + part < 2 ^ 32 := hnext ▸ Nat.mod_lt _ (by decide)
          rw [if_neg hlast, hnext]
          obtain ⟨b, dst', s', hrest, hends⟩ := ih (s := s₁) hlooked.1 (by rwa [hlooked.2])
            (memcpyAt mem dst off src part) (off + part) hsrc' (Nat.lt_of_le_of_lt (Nat.sub_le maxn part) hmaxn) (by omega)
          rw [hstart] at hrest
          refine ⟨b, dst', s', hrest, fun hb => ?_, fun hb k hk hcopy => ?_, fun i hi => ?_⟩
          · obtain ⟨k, hk, hcopy, rfl⟩ := hends.copied hb
            refine ⟨part + k, by omega, (hlooked.copyable hcopy).append hnone hreadable, ?_⟩
            rw [memcpyAt_memcpyAt, Nat.add_assoc]
          · obtain ⟨hle, hcopy'⟩ := hcopy.rest hnone
            exact hends.missing hb (k - part) (by omega) ((hlooked.symm h).copyable hcopy')
          · rw [hends.outside i (by omega)]
            exact memcpyAt_of_not (by omega)

/-- **`copy_string` is exact.** It returns 1 if and only if a string ends within `maxn` bytes that the program may read; then
this string, with its zero, is at the start of `dst`, and nothing else of `dst` has changed. -/
theorem copy_string_exact (h : (s.mm m).Ok)
    (haligned : ∀ v ∈ (s.mm m).mmapList, v.vmStart % pageSize = 0 ∧ v.vmEnd % pageSize = 0) (mem dst : ℕ → UInt8)
    (hsrc : src < 2 ^ 32) (hmaxn : maxn < 2 ^ 32) :
    ∃ b dst' s', (copyString (some m) mem dst src maxn).run s = .ok (b, dst') s' ∧
      (b = true ↔ ∃ k < maxn, s.Copyable m mem src k) ∧
      (∀ k < maxn, s.Copyable m mem src k → ∀ i, dst' i = if i ≤ k then mem (src + i) else dst i) ∧
      ∀ i, maxn ≤ i → dst' i = dst i := by
  have hfirst : sub32 (add32 src pageSize / pageSize * pageSize) src = pageSize - src % pageSize := by
    unfold sub32 add32 pageSize
    omega
  obtain ⟨b, dst', s', hrun, hcopied, hmissing, houtside⟩ := copyLoop_run h haligned mem dst 0 hsrc hmaxn (Nat.lt_succ_self maxn)
  have hiff : b = true ↔ ∃ k < maxn, s.Copyable m mem src k := by
    refine ⟨fun hb => ?_, fun hcopy => ?_⟩
    · obtain ⟨k, hk, hcopy, -⟩ := hcopied hb
      exact ⟨k, hk, hcopy⟩
    · obtain ⟨k, hk, hcopy⟩ := hcopy
      cases b with
      | false => exact (hmissing rfl k hk hcopy).elim
      | true => rfl
  refine ⟨b, dst', s', ?_, hiff, fun k hk hcopy i => ?_, fun i hi => houtside i (Or.inr (by omega))⟩
  · unfold copyString
    rwa [hfirst]
  · obtain ⟨k', -, hcopy', rfl⟩ := hcopied (hiff.mpr ⟨k, hk, hcopy⟩)
    -- there is one end only
    have heq : k' = k := by
      rcases Nat.lt_trichotomy k' k with hlt | heq | hlt
      · exact (hcopy.bytes k' hlt hcopy'.zero).elim
      · exact heq
      · exact (hcopy'.bytes k hlt hcopy.zero).elim
    subst heq
    unfold memcpyAt
    by_cases hi : i ≤ k'
    · rw [if_pos hi, if_pos (by omega), Nat.sub_zero]
    · rw [if_neg hi, if_neg (by omega)]

/-- Three bytes and a zero around a page boundary, with room for exactly them. -/
theorem copy_string_exact_three : ∃ dst' s',
    (copyString (some 0) (fun a => if a < 0x401001 then 65 else 0) (fun _ => 7) 0x400ffe 4).run areaAndStack =
      .ok (true, dst') s' ∧ dst' 0 = 65 ∧ dst' 3 = 0 ∧ dst' 4 = 7 := by
  obtain ⟨b, dst', s', hrun, hb, hcopied, -⟩ := copy_string_exact areaAndStack_ok.1
    (fun v hv => ⟨(areaAndStack_ok.2 v hv).startAlign, (areaAndStack_ok.2 v hv).stopAlign⟩)
    (fun a => if a < 0x401001 then 65 else 0) (fun _ => 7) (show 0x400ffe < 2 ^ 32 by decide) (show 4 < 2 ^ 32 by decide)
  have hcopy : areaAndStack.Copyable 0 (fun a => if a < 0x401001 then 65 else 0) 0x400ffe 3 := by
    refine ⟨by decide, by decide, fun i hi => ⟨Nat.le_trans (by decide) (Nat.le_add_right _ i), ?_, ?_⟩⟩
    · exact Nat.lt_of_le_of_lt (Nat.add_le_add_left hi _) (by decide)
    · exact ⟨⟨1, 0x400000, 0x402000, 3⟩, List.mem_cons_self, ⟨Nat.le_trans (by decide) (Nat.le_add_right _ i),
        Nat.lt_of_le_of_lt (Nat.add_le_add_left hi _) (by decide)⟩, by decide⟩
  have htrue : b = true := hb.mpr ⟨3, by decide, hcopy⟩
  have hdst := hcopied 3 (by decide) hcopy
  exact ⟨dst', s', htrue ▸ hrun, hdst 0, hdst 3, hdst 4⟩

end Ucore.Vm
