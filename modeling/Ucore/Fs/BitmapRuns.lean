import Ucore.Fs.Bitmap
import Mathlib.Data.Finset.Max

/-!
# Runs of the bitmap allocator

A bitmap, from `bitmap_create` on, is a finite set of free indices.

* `bitmapCreate` is the function of the source. `bitmapCreate_run` says when it returns a bitmap, and that all indices below
  `nbits` are free then: the bits of the last word from `nbits` on are toggled one by one, and all of them are set before.
* `FreeSet` is the set, with an operation for each call. `Represents` relates it to the bitmap.
* `bitmap_refines`: for any sequence of calls the code returns what the set returns. No assertion fails, the one behind the
  inner loop of `bitmap_alloc` included.
-/

namespace Ucore.Fs

open Ucore.Lib

/-! ### Creation -/

/-- The assertions of `bitmap_create`. -/
inductive BitmapCreatePanic where
  | nbits | lastWord | overbits
  deriving Repr, DecidableEq

/-- Source: `libs/defs.h` `ROUNDUP_DIV` -/
def roundupDiv (a n : BitVec 32) : BitVec 32 := (a + n - 1) / n

/-- The loop that marks the leftover bits as in use: `n` bits of the word `ix`, from `overbits` on. -/
def markLeftover (ix : ℕ) : ℕ → ℕ → Bitmap → Bitmap
  | 0, _, b => b
  | n + 1, overbits, b =>
    markLeftover ix n (overbits + 1) (b.setWord ix (b.map.getD ix 0 ^^^ bitMask overbits))

theorem roundupDiv_toNat {nbits : BitVec 32} (h : nbits ≠ 0 ∧ nbits + 32 > nbits) :
    (roundupDiv nbits 32).toNat = (nbits.toNat + 31) / 32 := by
  obtain ⟨-, hlt⟩ := h
  have hadd : (nbits + 32 - 1).toNat = nbits.toNat + 31 := by bv_omega
  rw [roundupDiv, BitVec.toNat_udiv, hadd]
  rfl

/-- The two flags say whether `kmalloc` finds memory for the structure and for the words.
Source: `kern/fs/sfs/bitmap.c` `bitmap_create` -/
def bitmapCreate (nbits : BitVec 32) (structMem mapMem : Bool) : Except BitmapCreatePanic (Option Bitmap) :=
  if h : nbits ≠ 0 ∧ nbits + 32 > nbits then
    if structMem = false ∨ mapMem = false then
      .ok none
    else
      let nwords := roundupDiv nbits 32
      let bitmap : Bitmap :=
        { nbits := nbits.toNat
          map := List.replicate nwords.toNat (BitVec.allOnes 32)
          length_eq := by rw [List.length_replicate, roundupDiv_toNat h] }
      if nbits ≠ nwords * 32 then
        let ix := nwords - 1
        let overbits := nbits - ix * 32
        if ¬ nbits / 32 = ix then .error .lastWord
        else if ¬ (overbits > 0 ∧ overbits < 32) then .error .overbits
        else .ok (some (markLeftover ix.toNat (32 - overbits.toNat) overbits.toNat bitmap))
      else
        .ok (some bitmap)
  else
    .error .nbits

/-- Marking flips the indices that belong to the bits, each once. -/
theorem markLeftover_spec (ix n overbits : ℕ) (b : Bitmap) (hn : overbits + n = 32) (hix : ix < b.map.length) :
    (markLeftover ix n overbits b).nbits = b.nbits ∧
      ∀ i, (markLeftover ix n overbits b).isFree i =
        if ix * 32 + overbits ≤ i ∧ i < ix * 32 + 32 then !b.isFree i else b.isFree i := by
  induction n generalizing overbits b with
  | zero =>
    refine ⟨rfl, fun i => ?_⟩
    rw [if_neg (by omega)]
    rfl
  | succ n ih =>
    have hdiv : (ix * 32 + overbits) / 32 = ix := by omega
    have hmod : (ix * 32 + overbits) % 32 = overbits := by omega
    have hflip : b.setWord ix (b.map.getD ix 0 ^^^ bitMask overbits) = b.flip (ix * 32 + overbits) := by
      rw [Bitmap.flip, hdiv, hmod]
    obtain ⟨hnbits, hfree⟩ := ih (overbits + 1) (b.flip (ix * 32 + overbits)) (by omega)
      (by rw [Bitmap.length_flip]; exact hix)
    rw [markLeftover, hflip]
    refine ⟨hnbits, fun i => ?_⟩
    rw [hfree, Bitmap.isFree_flip (by omega)]
    by_cases hi : i = ix * 32 + overbits
    · subst hi
      rw [Function.update_self, if_neg (by omega), if_pos (by omega)]
    · rw [Function.update_of_ne hi]
      by_cases hin : ix * 32 + overbits ≤ i ∧ i < ix * 32 + 32
      · rw [if_pos hin, if_pos (by omega)]
      · rw [if_neg hin, if_neg (by omega)]

/-- In the words that `memset` has written, every index is free. -/
theorem isFree_replicate {b : Bitmap} {n i : ℕ} (hmap : b.map = List.replicate n (BitVec.allOnes 32)) :
    b.isFree i = decide (i < 32 * n) := by
  rw [Bitmap.isFree, hmap, List.getD_eq_getElem?_getD, List.getElem?_replicate]
  by_cases hi : i < 32 * n
  · have hmod : i % 32 < 32 := Nat.mod_lt _ (by decide)
    rw [if_pos (by omega), Option.getD_some, BitVec.getLsbD_allOnes, decide_eq_true hmod, decide_eq_true hi]
  · rw [if_neg (by omega), Option.getD_none, decide_eq_false hi]
    exact BitVec.getLsbD_zero

/-- **`bitmap_create`**: it accepts all numbers of indices that leave room for a word, and the two assertions about the
last word hold. -/
theorem bitmapCreate_run (nbits : BitVec 32) (structMem mapMem : Bool) :
    if 0 < nbits.toNat ∧ nbits.toNat + 32 < 2 ^ 32 then
      if structMem = true ∧ mapMem = true then
        ∃ b, bitmapCreate nbits structMem mapMem = .ok (some b) ∧ b.nbits = nbits.toNat ∧
          ∀ i, b.isFree i = decide (i < nbits.toNat)
      else bitmapCreate nbits structMem mapMem = .ok none
    else bitmapCreate nbits structMem mapMem = .error .nbits := by
  have haccept : nbits ≠ 0 ∧ nbits + 32 > nbits ↔ 0 < nbits.toNat ∧ nbits.toNat + 32 < 2 ^ 32 := by
    have := nbits.isLt
    constructor <;> rintro ⟨h, h'⟩ <;> constructor <;> bv_omega
  unfold bitmapCreate
  by_cases h : nbits ≠ 0 ∧ nbits + 32 > nbits
  swap
  · rw [if_neg (mt haccept.mpr h), dif_neg h]
  obtain ⟨hpos, hlt⟩ := haccept.mp h
  rw [if_pos ⟨hpos, hlt⟩, dif_pos h]
  by_cases hmem : structMem = true ∧ mapMem = true
  swap
  · rw [if_neg hmem, if_pos]
    cases structMem <;> cases mapMem <;> simp_all
  rw [if_pos hmem, if_neg (by simp [hmem])]
  have hwords := roundupDiv_toNat h
  dsimp only
  by_cases hround : nbits ≠ roundupDiv nbits 32 * 32
  · have hover : nbits.toNat ≠ (nbits.toNat + 31) / 32 * 32 := by
      intro heq
      apply hround
      apply BitVec.eq_of_toNat_eq
      rw [BitVec.toNat_mul, hwords, show (32 : BitVec 32).toNat = 32 from rfl]
      omega
    have hix : (roundupDiv nbits 32 - 1).toNat = nbits.toNat / 32 := by bv_omega
    have hlast : nbits / 32 = roundupDiv nbits 32 - 1 := by
      apply BitVec.eq_of_toNat_eq
      rw [BitVec.toNat_udiv, hix]
      rfl
    have hbits : (nbits - (roundupDiv nbits 32 - 1) * 32).toNat = nbits.toNat % 32 := by
      rw [← hlast]
      have : (nbits / 32 * 32).toNat = nbits.toNat / 32 * 32 := by
        rw [BitVec.toNat_mul, BitVec.toNat_udiv, show (32 : BitVec 32).toNat = 32 from rfl]
        omega
      rw [BitVec.toNat_sub_of_le (by rw [BitVec.le_def, this]; omega), this]
      omega
    have hrange : nbits - (roundupDiv nbits 32 - 1) * 32 > 0 ∧ nbits - (roundupDiv nbits 32 - 1) * 32 < 32 := by
      constructor
      · show (0 : BitVec 32).toNat < _
        rw [hbits, show (0 : BitVec 32).toNat = 0 from rfl]
        omega
      · rw [BitVec.lt_def, hbits, show (32 : BitVec 32).toNat = 32 from rfl]
        omega
    rw [if_pos hround, if_neg (not_not.mpr hlast), if_neg (not_not.mpr hrange)]
    refine ⟨_, rfl, ?_⟩
    obtain ⟨hnbits, hfree⟩ := markLeftover_spec (roundupDiv nbits 32 - 1).toNat
      (32 - (nbits - (roundupDiv nbits 32 - 1) * 32).toNat) (nbits - (roundupDiv nbits 32 - 1) * 32).toNat
      ⟨nbits.toNat, List.replicate (roundupDiv nbits 32).toNat (BitVec.allOnes 32),
        by rw [List.length_replicate, hwords]⟩
      (by omega) (by rw [List.length_replicate]; omega)
    refine ⟨hnbits, fun i => ?_⟩
    rw [hfree, isFree_replicate rfl, hix, hbits, hwords]
    split_ifs with hin
    · rw [decide_eq_true (by omega), decide_eq_false (by omega)]
      rfl
    · exact decide_eq_decide.mpr (by omega)
  · rw [if_neg hround]
    refine ⟨_, rfl, rfl, fun i => ?_⟩
    have heq := congrArg BitVec.toNat (not_not.mp hround)
    rw [BitVec.toNat_mul, hwords, show (32 : BitVec 32).toNat = 32 from rfl] at heq
    rw [isFree_replicate rfl, hwords]
    exact decide_eq_decide.mpr (by omega)

/-! ### The set of free indices -/

/-- A call. -/
inductive BitmapCall where
  | alloc
  | free (index : ℕ)
  | test (index : ℕ)
  deriving Repr, DecidableEq

/-- What a call returns. -/
inductive BitmapReply where
  | index (i : ℕ)
  | error (e : FsError)
  | done
  | bit (set : Bool)
  deriving Repr, DecidableEq

/-- The code of a call. -/
def BitmapCall.code : BitmapCall → Prog BitmapPanic FsError Bitmap BitmapReply
  | .alloc => do
    match ← Prog.attempt bitmapAlloc with
    | .ok i => pure (.index i)
    | .error e => pure (.error e)
  | .free i => do
    bitmapFree i
    pure .done
  | .test i => do
    let set ← bitmapTest i
    pure (.bit set)

/-- One call after the other. -/
def bitmapCalls : List BitmapCall → Prog BitmapPanic FsError Bitmap (List BitmapReply)
  | [] => pure []
  | c :: cs => do
    let r ← c.code
    let rs ← bitmapCalls cs
    pure (r :: rs)

/-- The free indices of an allocator with `nbits` indices. -/
structure FreeSet (nbits : ℕ) where
  free : Finset ℕ
  lt : ∀ i ∈ free, i < nbits

namespace FreeSet

variable {nbits : ℕ}

/-- All indices are free. -/
def full (nbits : ℕ) : FreeSet nbits := ⟨Finset.range nbits, fun _ => Finset.mem_range.mp⟩

/-- The index is given to a caller. -/
def take (F : FreeSet nbits) (i : ℕ) : FreeSet nbits := ⟨F.free.erase i, fun j hj => F.lt j (Finset.mem_of_mem_erase hj)⟩

/-- The index comes back. -/
def give (F : FreeSet nbits) (i : ℕ) (hi : i < nbits) : FreeSet nbits :=
  ⟨insert i F.free, fun j hj => (Finset.mem_insert.mp hj).elim (fun h => h ▸ hi) (F.lt j)⟩

/-- Callers give back what has been allocated, and ask for indices that there are. -/
def Allowed (F : FreeSet nbits) : BitmapCall → Prop
  | .alloc => True
  | .free i => i < nbits ∧ i ∉ F.free
  | .test i => i < nbits

/-- What a call returns: the least free index, if there is one. -/
def reply (F : FreeSet nbits) : BitmapCall → BitmapReply
  | .alloc => if h : F.free.Nonempty then .index (F.free.min' h) else .error .noMem
  | .free _ => .done
  | .test i => .bit (decide (i ∈ F.free))

/-- What is free after a call. -/
def after (F : FreeSet nbits) : BitmapCall → FreeSet nbits
  | .alloc => if h : F.free.Nonempty then F.take (F.free.min' h) else F
  | .free i => if hi : i < nbits then F.give i hi else F
  | .test _ => F

/-- A sequence of calls that callers make. -/
def AllowedAll : FreeSet nbits → List BitmapCall → Prop
  | _, [] => True
  | F, c :: cs => F.Allowed c ∧ (F.after c).AllowedAll cs

/-- What the calls of a sequence return. -/
def replies : FreeSet nbits → List BitmapCall → List BitmapReply
  | _, [] => []
  | F, c :: cs => F.reply c :: (F.after c).replies cs

/-- What is free after the calls of a sequence. -/
def afterAll : FreeSet nbits → List BitmapCall → FreeSet nbits
  | F, [] => F
  | F, c :: cs => (F.after c).afterAll cs

end FreeSet

/-- The set bits are the free indices. -/
structure Represents {nbits : ℕ} (b : Bitmap) (F : FreeSet nbits) : Prop where
  nbits : b.nbits = nbits
  isFree : ∀ i, b.isFree i = decide (i ∈ F.free)

section refinement

variable {nbits : ℕ} {b : Bitmap} {F : FreeSet nbits}

/-- An index that is free comes out of the set, and one that is not free goes into it. -/
theorem Represents.flip (h : Represents b F) {i : ℕ} (hi : i < nbits) {F' : FreeSet nbits}
    (hF' : ∀ j, j ∈ F'.free ↔ if j = i then i ∉ F.free else j ∈ F.free) : Represents (b.flip i) F' := by
  have hin : i < 32 * b.map.length := by
    rw [b.length_eq, h.nbits]
    omega
  refine ⟨h.nbits, fun j => ?_⟩
  rw [Bitmap.isFree_flip hin]
  by_cases hj : j = i
  · subst hj
    rw [Function.update_self, h.isFree, ← decide_not]
    exact decide_eq_decide.mpr (by rw [hF', if_pos rfl])
  · rw [Function.update_of_ne hj, h.isFree]
    exact decide_eq_decide.mpr (by rw [hF', if_neg hj])

/-- **One call** does to the set what the set says. -/
theorem Represents.call (h : Represents b F) {c : BitmapCall} (hc : F.Allowed c) :
    ∃ b', c.code.run b = .ok (F.reply c) b' ∧ Represents b' (F.after c) := by
  cases c with
  | alloc =>
    have hfree : ∀ i, b.isFree i = true ↔ i ∈ F.free := fun i => by rw [h.isFree, decide_eq_true_eq]
    rcases bitmapAlloc_run b with ⟨hnone, hrun⟩ | ⟨i, hi, hleast, hrun⟩
    · have hempty : ¬ F.free.Nonempty := by
        rintro ⟨i, hi⟩
        rw [← hfree, hnone] at hi
        cases hi
      refine ⟨b, ?_, ?_⟩
      · rw [FreeSet.reply, dif_neg hempty]
        simp only [BitmapCall.code, Prog.attempt, Prog.run_bind, hrun, Outcome.andThen_ok, Prog.run_pure]
      · rw [FreeSet.after, dif_neg hempty]
        exact h
    · have hmem := (hfree i).mp hi
      have hmin : F.free.min' ⟨i, hmem⟩ = i := by
        refine le_antisymm (Finset.min'_le _ _ hmem) (Finset.le_min' _ _ _ fun j hj => ?_)
        by_contra hlt
        have := hleast j (by omega)
        rw [(hfree j).mpr hj] at this
        cases this
      refine ⟨b.flip i, ?_, ?_⟩
      · rw [FreeSet.reply, dif_pos ⟨i, hmem⟩, hmin]
        simp only [BitmapCall.code, Prog.attempt, Prog.run_bind, hrun, Outcome.andThen_ok, Prog.run_pure]
      · rw [FreeSet.after, dif_pos ⟨i, hmem⟩, hmin]
        refine h.flip (F.lt i hmem) fun j => ?_
        rw [FreeSet.take, Finset.mem_erase]
        split_ifs with hj
        · exact iff_of_false (fun hne => hne.1 hj) (not_not.mpr hmem)
        · exact and_iff_right hj
  | free i =>
    obtain ⟨hi, hused⟩ := hc
    have hrun := bitmapFree_run (b := b) (i := i) (by rw [h.nbits]; exact hi)
      (by rw [h.isFree, decide_eq_false hused])
    refine ⟨b.flip i, ?_, ?_⟩
    · rw [BitmapCall.code, Prog.bind_of_ok hrun]
      rfl
    · rw [FreeSet.after, dif_pos hi]
      refine h.flip hi fun j => ?_
      rw [FreeSet.give, Finset.mem_insert]
      split_ifs with hj
      · exact iff_of_true (Or.inl hj) hused
      · exact or_iff_right hj
  | test i =>
    have hrun := bitmapTest_run (b := b) (i := i) (by rw [h.nbits]; exact hc)
    refine ⟨b, ?_, h⟩
    rw [BitmapCall.code, Prog.bind_of_ok hrun, h.isFree]
    rfl

/-- A sequence of calls. -/
theorem Represents.calls (h : Represents b F) {cs : List BitmapCall} (hcs : F.AllowedAll cs) :
    ∃ b', (bitmapCalls cs).run b = .ok (F.replies cs) b' ∧ Represents b' (F.afterAll cs) := by
  induction cs generalizing b F with
  | nil => exact ⟨b, rfl, h⟩
  | cons c cs ih =>
    obtain ⟨hc, hcs⟩ := hcs
    obtain ⟨b₁, hrun₁, h₁⟩ := h.call hc
    obtain ⟨b₂, hrun₂, h₂⟩ := ih h₁ hcs
    refine ⟨b₂, ?_, h₂⟩
    rw [bitmapCalls, Prog.bind_of_ok hrun₁, Prog.bind_of_ok hrun₂]
    rfl

end refinement

/-- **The bitmap allocator is a finite set.** A bitmap that `bitmap_create` has returned starts with all indices below
`nbits`, and any sequence of calls returns what the set of the free indices returns: an allocation the least one, or
`E_NO_MEM` if there is none; a test whether an index is in the set. No assertion fails. The set bits are the free
indices, so none is set from `nbits` on. -/
theorem bitmap_refines {nbits : BitVec 32} {structMem mapMem : Bool} {b : Bitmap}
    (hcreate : bitmapCreate nbits structMem mapMem = .ok (some b)) {calls : List BitmapCall}
    (hcalls : (FreeSet.full nbits.toNat).AllowedAll calls) :
    ∃ b', (bitmapCalls calls).run b = .ok ((FreeSet.full nbits.toNat).replies calls) b' ∧
      (∀ i, b'.isFree i = true ↔ i ∈ ((FreeSet.full nbits.toNat).afterAll calls).free) ∧
      ∀ i, nbits.toNat ≤ i → b'.isFree i = false := by
  have hstart : Represents b (FreeSet.full nbits.toNat) := by
    have hrun := bitmapCreate_run nbits structMem mapMem
    split_ifs at hrun
    · obtain ⟨b₀, hrun, hnbits, hfree⟩ := hrun
      rw [hcreate] at hrun
      cases hrun
      refine ⟨hnbits, fun i => ?_⟩
      rw [hfree]
      exact decide_eq_decide.mpr Finset.mem_range.symm
    · rw [hcreate] at hrun
      cases hrun
    · rw [hcreate] at hrun
      cases hrun
  obtain ⟨b', hrun, h'⟩ := hstart.calls hcalls
  refine ⟨b', hrun, fun i => ?_, fun i hi => ?_⟩
  · rw [h'.isFree, decide_eq_true_eq]
  · rw [h'.isFree, decide_eq_false_iff_not]
    exact fun hmem => absurd (((FreeSet.full nbits.toNat).afterAll calls).lt i hmem) (Nat.not_lt.mpr hi)

/-- With three indices, of which the first two are allocated and the first comes back: it is allocated again. -/
theorem bitmap_refines_three : ∃ b b', bitmapCreate 3 true true = .ok (some b) ∧
    (bitmapCalls [.alloc, .alloc, .free 0, .test 0, .alloc, .alloc, .alloc]).run b =
      .ok [.index 0, .index 1, .done, .bit true, .index 0, .index 2, .error .noMem] b' ∧ b'.isFree 3 = false := by
  obtain ⟨b, hcreate, -⟩ := bitmapCreate_run 3 true true
  have hallowed : (FreeSet.full (3 : BitVec 32).toNat).AllowedAll
      [.alloc, .alloc, .free 0, .test 0, .alloc, .alloc, .alloc] := by
    refine ⟨trivial, trivial, ⟨by decide, by decide⟩, ?_, trivial, trivial, trivial, trivial⟩
    show 0 < 3
    decide
  obtain ⟨b', hrun, -, hbeyond⟩ := bitmap_refines hcreate hallowed
  refine ⟨b, b', hcreate, ?_, hbeyond 3 (by decide)⟩
  rw [hrun]
  rfl

end Ucore.Fs
