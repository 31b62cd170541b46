import Ucore.Mm.PageTables
import Ucore.Mm.SwapAlloc

/-!
# Entries of a page that may be on the swap disk

* `addr q` is the address of the page with the number `q`. The entry of such a page is zero, points to a page of memory, or is
  `swapEntry (q + 1)`: it names the slot of the disk that belongs to the page. `entryOffset_swapEntry` reads the slot back.
* `Tabled v d s` says that the page tables for the area `v` can be told apart, so that a change of one entry is a change for one
  page of the area (`Tabled.pte_setEntry`), and a new page table maps nothing (`Tabled.pte_withTable`).
-/

namespace Ucore.Swap

open Ucore.Vm (pageSize ptSize pdx ptx Pte pteP pteW pteU Vma)

variable {β : Type} {s : SwapState β} {d t q q' la : ℕ} {v : Vma}

/-! ### Entries -/

/-- The address of the page with the number `q`. -/
def addr (q : ℕ) : ℕ := q * pageSize

theorem pdx_addr (q : ℕ) : pdx (addr q) = q / 1024 % 1024 := by
  unfold pdx addr pageSize ptSize
  omega

theorem ptx_addr (q : ℕ) : ptx (addr q) = q % 1024 := by
  unfold ptx addr pageSize
  omega

theorem addr_div (q : ℕ) : addr q / pageSize = q := Nat.mul_div_cancel q (by decide)

theorem findPte_addr (s : SwapState β) (d la : ℕ) : s.findPte d (addr (la / pageSize)) = s.findPte d la := by
  have hpdx : pdx (addr (la / pageSize)) = pdx la := by
    unfold pdx addr pageSize ptSize
    omega
  rw [SwapState.findPte, SwapState.findPte, hpdx]

/-- An address has the entry of its page. -/
theorem pte_addr (s : SwapState β) (d la : ℕ) : s.pte d (addr (la / pageSize)) = s.pte d la := by
  have hptx : ptx (addr (la / pageSize)) = ptx la := by
    unfold ptx addr pageSize
    omega
  rw [SwapState.pte, SwapState.pte, findPte_addr, hptx]

theorem entryOffset_swapEntry (o : ℕ) : entryOffset (swapEntry o) = o := by
  have hlt : o % 16 * 256 < 2 ^ 12 := by omega
  have hflags : (swapEntry o).flags.toNat = o % 16 * 256 := (BitVec.toNat_ofNat ..).trans (Nat.mod_eq_of_lt hlt)
  have hppn : (swapEntry o).ppn = o / 16 := rfl
  rw [entryOffset, hflags, hppn]
  omega

theorem present_swapEntry (o : ℕ) : (swapEntry o).present = false := by
  have heven : (o % 16 * 256).testBit 0 = false := by
    rw [Nat.testBit_zero]
    exact decide_eq_false (by omega)
  show (BitVec.ofNat 12 (o % 16 * 256)).getLsbD 0 = false
  rw [BitVec.getLsbD_ofNat, heven]
  rfl

theorem swapEntry_ne_zero {o : ℕ} (h : 0 < o) : swapEntry o ≠ .zero := fun heq => by
  have hoff := entryOffset_swapEntry o
  rw [heq] at hoff
  exact absurd hoff.symm h.ne'

theorem slotEntry_addr (q : ℕ) : slotEntry (addr q) = swapEntry (q + 1) := by rw [slotEntry, addr_div]

/-- An area that may be written, of 32-bit addresses. -/
structure Writable (v : Vma) : Prop where
  write : v.Allows 2
  lt : v.vmEnd ≤ 2 ^ 32

theorem Writable.perm (h : Writable v) : v.perm = pteU ||| pteW := if_pos h.write

theorem Writable.writable (h : Writable v) (p : ℕ) : (⟨p, pteP ||| v.perm⟩ : Pte).writable = true := by
  show (pteP ||| v.perm).getLsbD 1 = true
  rw [h.perm]
  decide

/-- The page with the number `q` is one of the area. -/
def InArea (v : Vma) (q : ℕ) : Prop := ∃ la, v.Has la ∧ la / pageSize = q

theorem Writable.page_lt (h : Writable v) (hq : InArea v q) : q < 2 ^ 20 := by
  obtain ⟨la, hla, rfl⟩ := hq
  have hlt := h.lt
  have hend := hla.2
  unfold pageSize
  omega

/-! ### Page tables -/

/-- The page tables of an area are not the page directory, and one page table is not used for two entries of it. -/
structure Tabled (v : Vma) (d : ℕ) (s : SwapState β) : Prop where
  ne : ∀ {q t}, InArea v q → s.findPte d (addr q) = some t → t ≠ d
  inj : ∀ {q q' t}, InArea v q → InArea v q' → s.findPte d (addr q) = some t → s.findPte d (addr q') = some t →
    q / 1024 = q' / 1024

theorem findPte_setEntry (s : SwapState β) (ht : t ≠ d) (i : ℕ) (e : Pte) (la : ℕ) :
    (s.setEntry t i e).findPte d la = s.findPte d la := by
  have hdir : (s.setEntry t i e).entry d = s.entry d := Function.update_of_ne ht.symm ..
  rw [SwapState.findPte, SwapState.findPte, hdir]

theorem Tabled.congr {s s' : SwapState β} (h : Tabled v d s) (hf : ∀ la, s'.findPte d la = s.findPte d la) : Tabled v d s' where
  ne hq ht := h.ne hq (hf _ ▸ ht)
  inj hq hq' ht ht' := h.inj hq hq' (hf _ ▸ ht) (hf _ ▸ ht')

/-- A change of one entry of a page table. -/
theorem Tabled.pte_setEntry (h : Tabled v d s) (hq : InArea v q) (hf : s.findPte d (addr q) = some t) (hq' : InArea v q')
    (e : Pte) : (s.setEntry t (ptx (addr q)) e).pte d (addr q') = if q' = q then e else s.pte d (addr q') := by
  have ht := h.ne hq hf
  unfold SwapState.pte
  rw [findPte_setEntry s ht]
  cases hf' : s.findPte d (addr q') with
  | none =>
    rw [if_neg]
    rintro rfl
    rw [hf] at hf'
    cases hf'
  | some t' =>
    show Function.update s.entry t (Function.update (s.entry t) (ptx (addr q)) e) t' (ptx (addr q')) = _
    by_cases htt : t' = t
    · subst htt
      have hdiv := h.inj hq hq' hf hf'
      rw [Function.update_self]
      by_cases hqq : q' = q
      · subst hqq
        rw [if_pos rfl, Function.update_self]
      · rw [if_neg hqq, Function.update_of_ne]
        rw [ptx_addr, ptx_addr]
        omega
    · rw [Function.update_of_ne htt, if_neg]
      rintro rfl
      rw [hf] at hf'
      exact htt (Option.some.inj hf').symm

/-- Pages behind one entry of the page directory have one page table. -/
theorem findPte_congr (s : SwapState β) (d : ℕ) (h : q / 1024 = q' / 1024) : s.findPte d (addr q) = s.findPte d (addr q') := by
  unfold SwapState.findPte
  rw [pdx_addr, pdx_addr, h]

/-- The state with a new page table, in which nothing is mapped. -/
def SwapState.withTable (s : SwapState β) (d i t : ℕ) : SwapState β :=
  { s with entry := Function.update s.entry t fun _ => .zero }.setEntry d i ⟨t, pteU ||| pteW ||| pteP⟩

theorem entry_withTable (s : SwapState β) (ht : t ≠ d) (i p : ℕ) : (s.withTable d i t).entry p =
    if p = d then Function.update (s.entry d) i ⟨t, pteU ||| pteW ||| pteP⟩ else if p = t then fun _ => .zero
    else s.entry p := by
  simp [SwapState.withTable, SwapState.setEntry, Function.update_apply, ht.symm]

section withTable

variable (harea : Writable v) (hq : InArea v q) (hq' : InArea v q') (ht : t ≠ d)

include harea hq hq' ht

theorem findPte_withTable : (s.withTable d (pdx (addr q)) t).findPte d (addr q') =
    if q' / 1024 = q / 1024 then some t else s.findPte d (addr q') := by
  have hdir := entry_withTable s ht (pdx (addr q)) d
  rw [if_pos rfl] at hdir
  have hlt := harea.page_lt hq
  have hlt' := harea.page_lt hq'
  rw [SwapState.findPte, hdir]
  by_cases hdiv : q' / 1024 = q / 1024
  · have hpdx : pdx (addr q') = pdx (addr q) := by rw [pdx_addr, pdx_addr, hdiv]
    rw [hpdx, Function.update_self, if_pos Ucore.Vm.Pte.present_table, if_pos hdiv]
  · have hpdx : pdx (addr q') ≠ pdx (addr q) := by
      rw [pdx_addr, pdx_addr]
      omega
    rw [Function.update_of_ne hpdx, if_neg hdiv]
    rfl

theorem Tabled.pte_withTable (h : Tabled v d s) (hnew : s.findPte d (addr q') ≠ some t)
    (hnone : s.findPte d (addr q) = none) :
    (s.withTable d (pdx (addr q)) t).pte d (addr q') = s.pte d (addr q') := by
  unfold SwapState.pte
  rw [findPte_withTable harea hq hq' ht]
  by_cases hdiv : q' / 1024 = q / 1024
  · rw [if_pos hdiv, findPte_congr s d hdiv, hnone]
    dsimp only
    rw [entry_withTable s ht, if_neg ht, if_pos rfl]
  · rw [if_neg hdiv]
    cases hf : s.findPte d (addr q') with
    | none => rfl
    | some t' =>
      have ht' : t' ≠ t := fun heq => hnew (hf.trans (congrArg some heq))
      dsimp only
      rw [entry_withTable s ht, if_neg (h.ne hq' hf), if_neg ht']

end withTable

theorem Tabled.withTable (h : Tabled v d s) (harea : Writable v) (hq : InArea v q) (ht : t ≠ d)
    (hnew : ∀ q', InArea v q' → s.findPte d (addr q') ≠ some t) : Tabled v d (s.withTable d (pdx (addr q)) t) where
  ne hq' hf := by
    rw [findPte_withTable harea hq hq' ht] at hf
    split_ifs at hf
    · exact Option.some.inj hf ▸ ht
    · exact h.ne hq' hf
  inj hq₁ hq₂ hf₁ hf₂ := by
    rw [findPte_withTable harea hq hq₁ ht] at hf₁
    rw [findPte_withTable harea hq hq₂ ht] at hf₂
    split_ifs at hf₁ hf₂ with h₁ h₂ h₂
    · exact h₁.trans h₂.symm
    · exact absurd (hf₂.trans hf₁.symm) (Option.some.inj hf₁ ▸ hnew _ hq₂)
    · exact absurd (hf₁.trans hf₂.symm) (Option.some.inj hf₂ ▸ hnew _ hq₁)
    · exact h.inj hq₁ hq₂ hf₁ hf₂

end Ucore.Swap
