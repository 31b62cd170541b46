import Ucore.Lib.Prog
import Mathlib.Data.Finset.Card
import Mathlib.Data.Finset.Range
import Mathlib.Data.List.GetD
import Mathlib.Logic.Function.Basic

/-!
# Bitmaps

The bitmap of `kern/fs/sfs/bitmap.c`: an array of 32-bit words in which a set bit is a free
index. `Bitmap.isFree` is the set it represents, and each operation has one lemma that says what it
does to that set: `bitmapAlloc_run`, `bitmapTest_run`, `bitmapFree_run`. `Bitmap.count` is the
number of free indices.
-/

namespace Ucore.Fs

open Ucore.Lib

/-- The error codes that the file system code returns, without their sign.
Source: `libs/error.h` -/
inductive FsError where
  | inval | noMem | maxOpen | fileExists | busy | noEnt | isDir | notDir | noDev | naDev | unimp
  deriving Repr, DecidableEq

/-- `struct bitmap`; `nwords` is the length of `map`.
Source: `kern/fs/sfs/bitmap.c` `struct bitmap` -/
structure Bitmap where
  /-- The number of indices. -/
  nbits : ℕ
  /-- The words; bit `i % 32` of word `i / 32` belongs to index `i`. -/
  map : List (BitVec 32)
  /-- `nwords` is `ROUNDUP_DIV(nbits, WORD_BITS)`. -/
  length_eq : map.length = (nbits + 31) / 32

/-- The assertions of `bitmap.c`: no set bit in a word that is not 0, an index out of bounds, a
free index freed. -/
inductive BitmapPanic where
  | noBit | index | notInUse
  deriving Repr, DecidableEq

/-- `1 << offset` -/
def bitMask (offset : ℕ) : BitVec 32 := BitVec.twoPow 32 offset

/-- The index `i` is free. -/
def Bitmap.isFree (b : Bitmap) (i : ℕ) : Bool := (b.map.getD (i / 32) 0).getLsbD (i % 32)

/-- Change one word. -/
def Bitmap.setWord (b : Bitmap) (ix : ℕ) (w : BitVec 32) : Bitmap :=
  { b with map := b.map.set ix w, length_eq := by rw [List.length_set, b.length_eq] }

/-- The bitmap with the bit of index `i` flipped. -/
def Bitmap.flip (b : Bitmap) (i : ℕ) : Bitmap :=
  b.setWord (i / 32) (b.map.getD (i / 32) 0 ^^^ bitMask (i % 32))

/-- The inner loop of `bitmap_alloc`: the first set bit of a word. -/
def firstOffset (w : BitVec 32) : Option ℕ := (List.range 32).find? fun o => w &&& bitMask o ≠ 0

/-- Source: `kern/fs/sfs/bitmap.c` `bitmap_alloc` -/
def bitmapAlloc : Prog BitmapPanic FsError Bitmap ℕ := do
  let b ← Prog.get
  -- the outer loop stops at the first word that is not 0
  match b.map.findIdx? fun w => w ≠ 0 with
  | none => Prog.throw .noMem
  | some ix =>
    match firstOffset (b.map.getD ix 0) with
    | none => Prog.stop .noBit
    | some offset => do
      Prog.modify fun b => b.setWord ix (b.map.getD ix 0 ^^^ bitMask offset)
      pure (ix * 32 + offset)

/-- Source: `kern/fs/sfs/bitmap.c` `bitmap_test` -/
def bitmapTest (index : ℕ) : Prog BitmapPanic FsError Bitmap Bool := do
  let b ← Prog.get
  Prog.assert (index < b.nbits) .index
  pure (b.map.getD (index / 32) 0 &&& bitMask (index % 32) ≠ 0)

/-- Source: `kern/fs/sfs/bitmap.c` `bitmap_free` -/
def bitmapFree (index : ℕ) : Prog BitmapPanic FsError Bitmap Unit := do
  let b ← Prog.get
  Prog.assert (index < b.nbits) .index
  Prog.assert (b.map.getD (index / 32) 0 &&& bitMask (index % 32) = 0) .notInUse
  Prog.modify fun b => b.setWord (index / 32) (b.map.getD (index / 32) 0 ||| bitMask (index % 32))

/-! ### Words -/

theorem getLsbD_bitMask {o j : ℕ} (ho : o < 32) : (bitMask o).getLsbD j = decide (o = j) := by
  rw [bitMask, BitVec.getLsbD_twoPow]
  simp [ho]

theorem and_bitMask_ne_zero {w : BitVec 32} {o : ℕ} (ho : o < 32) :
    w &&& bitMask o ≠ 0 ↔ w.getLsbD o = true := by
  constructor
  · intro hne
    by_contra hbit
    apply hne
    apply BitVec.eq_of_getLsbD_eq
    intro j hj
    rw [BitVec.getLsbD_and, getLsbD_bitMask ho]
    by_cases hoj : o = j
    · subst hoj
      rw [Bool.not_eq_true] at hbit
      simpa using hbit
    · simp [hoj]
  · intro hbit heq
    have := congrArg (fun v => BitVec.getLsbD v o) heq
    simp [getLsbD_bitMask ho, hbit] at this

theorem exists_bit {w : BitVec 32} (h : w ≠ 0) : ∃ o < 32, w.getLsbD o = true := by
  by_contra hno
  push Not at hno
  apply h
  apply BitVec.eq_of_getLsbD_eq
  intro j hj
  simpa using hno j hj

/-- The inner loop finds the lowest set bit. -/
theorem firstOffset_spec {w : BitVec 32} (h : w ≠ 0) :
    ∃ o < 32, firstOffset w = some o ∧ w.getLsbD o = true ∧ ∀ j < o, w.getLsbD j = false := by
  obtain ⟨k, hk, hbit⟩ := exists_bit h
  cases hfind : firstOffset w with
  | none =>
    rw [firstOffset, List.find?_eq_none] at hfind
    have := hfind k (List.mem_range.mpr hk)
    simp only [decide_eq_true_eq] at this
    exact absurd ((and_bitMask_ne_zero hk).mpr hbit) this
  | some o =>
    rw [firstOffset, List.find?_range_eq_some] at hfind
    obtain ⟨hset, ho, hleast⟩ := hfind
    rw [List.mem_range] at ho
    rw [decide_eq_true_eq, and_bitMask_ne_zero ho] at hset
    refine ⟨o, ho, rfl, hset, fun j hj => ?_⟩
    have := hleast j hj
    rw [Bool.not_eq_eq_eq_not, Bool.not_true, decide_eq_false_iff_not,
      and_bitMask_ne_zero (by omega)] at this
    simpa using this

namespace Bitmap

variable {b : Bitmap} {i j : ℕ}

/-! ### The set of free indices -/

theorem isFree_lt (h : b.isFree i = true) : i < 32 * b.map.length := by
  by_contra hge
  have : b.map.length ≤ i / 32 := by omega
  rw [isFree, List.getD_eq_default _ _ this] at h
  simp at h

theorem getD_flip (hi : i < 32 * b.map.length) : (b.flip i).map.getD (j / 32) 0 =
    if i / 32 = j / 32 then b.map.getD (j / 32) 0 ^^^ bitMask (i % 32) else b.map.getD (j / 32) 0 := by
  have hw : i / 32 < b.map.length := by omega
  rw [flip, setWord, List.getD_eq_getElem?_getD, List.getD_eq_getElem?_getD, List.getElem?_set]
  split_ifs with hword
  · rw [hword, Option.getD_some, List.getD_eq_getElem?_getD]
  · rfl

theorem isFree_flip (hi : i < 32 * b.map.length) :
    (b.flip i).isFree = Function.update b.isFree i (!b.isFree i) := by
  funext j
  have hmask := getLsbD_bitMask (j := j % 32) (Nat.mod_lt i (by decide : 0 < 32))
  rw [isFree, getD_flip hi]
  split_ifs with hword
  · rw [BitVec.getLsbD_xor, hmask]
    by_cases hij : j = i
    · subst hij
      rw [Function.update_self, isFree, decide_eq_true rfl, Bool.xor_true]
    · have hoff : ¬ i % 32 = j % 32 := by omega
      rw [Function.update_of_ne hij, decide_eq_false hoff, Bool.xor_false, isFree]
  · have hij : j ≠ i := by
      rintro rfl
      exact hword rfl
    rw [Function.update_of_ne hij, isFree]

/-- Flipping an index twice changes nothing that is observed. -/
theorem isFree_flip_flip (hi : i < 32 * b.map.length) : ((b.flip i).flip i).isFree = b.isFree := by
  have hi' : i < 32 * (b.flip i).map.length := by simpa [flip, setWord] using hi
  rw [isFree_flip hi', isFree_flip hi, Function.update_self, Function.update_idem, Bool.not_not,
    Function.update_eq_self]

@[simp] theorem length_flip : (b.flip i).map.length = b.map.length := by simp [flip, setWord]

@[simp] theorem nbits_flip : (b.flip i).nbits = b.nbits := rfl

/-- The number of free indices: the set bits. -/
def count (b : Bitmap) : ℕ := ((Finset.range (32 * b.map.length)).filter fun i => b.isFree i).card

theorem count_take (h : b.isFree i = true) : (b.flip i).count + 1 = b.count := by
  have hi := isFree_lt h
  have hset : ((Finset.range (32 * b.map.length)).filter fun j => (b.flip i).isFree j) =
      ((Finset.range (32 * b.map.length)).filter fun j => b.isFree j).erase i := by
    ext j
    rw [isFree_flip hi]
    by_cases hij : j = i
    · subst hij
      simp [h]
    · simp [hij]
  rw [count, length_flip, hset, count]
  exact Finset.card_erase_add_one (by simp [h, hi])

theorem count_give (h : b.isFree i = false) (hi : i < 32 * b.map.length) :
    (b.flip i).count = b.count + 1 := by
  have hfree : (b.flip i).isFree i = true := by
    rw [isFree_flip hi, Function.update_self, h]
    rfl
  have := count_take hfree
  rw [← this]
  unfold count
  rw [isFree_flip_flip hi, length_flip, length_flip]

theorem count_eq_zero : b.count = 0 ↔ ∀ i, b.isFree i = false := by
  rw [count, Finset.card_eq_zero, Finset.filter_eq_empty_iff]
  refine ⟨fun h i => ?_, fun h i _ => by simp [h i]⟩
  by_contra hfree
  rw [Bool.not_eq_false] at hfree
  exact h (Finset.mem_range.mpr (isFree_lt hfree)) hfree

theorem count_pos (h : b.isFree i = true) : 0 < b.count := by
  have := count_take h
  omega

/-! ### A bitmap with given free indices -/

/-- The bitmap in which the indices of `free` are free and no others. -/
def ofFree (nbits : ℕ) : List ℕ → Bitmap
  | [] => ⟨nbits, List.replicate ((nbits + 31) / 32) 0, List.length_replicate⟩
  | i :: free => (ofFree nbits free).flip i

@[simp] theorem nbits_ofFree (nbits : ℕ) (free : List ℕ) : (ofFree nbits free).nbits = nbits := by
  induction free with
  | nil => rfl
  | cons i free ih => rw [ofFree, nbits_flip, ih]

theorem ofFree_spec {nbits : ℕ} {free : List ℕ} (hfree : free.Nodup) (hlt : ∀ i ∈ free, i < nbits) :
    (∀ i, (ofFree nbits free).isFree i = decide (i ∈ free)) ∧
      (ofFree nbits free).count = free.length := by
  induction free with
  | nil =>
    have hnone : ∀ i, (ofFree nbits []).isFree i = false := by
      intro i
      rw [ofFree, isFree, List.getD_eq_getElem?_getD, List.getElem?_replicate]
      split_ifs <;> simp
    refine ⟨fun i => ?_, count_eq_zero.mpr hnone⟩
    rw [hnone]
    simp
  | cons k free ih =>
    obtain ⟨hk, hnodup⟩ := List.nodup_cons.mp hfree
    obtain ⟨hfree', hcount⟩ := ih hnodup fun i hi => hlt i (List.mem_cons_of_mem _ hi)
    have hin : k < 32 * (ofFree nbits free).map.length := by
      have := hlt k List.mem_cons_self
      rw [(ofFree nbits free).length_eq, nbits_ofFree]
      omega
    have hused : (ofFree nbits free).isFree k = false := by
      rw [hfree', decide_eq_false hk]
    refine ⟨fun i => ?_, ?_⟩
    · rw [ofFree, isFree_flip hin]
      by_cases hik : i = k
      · subst hik
        simp [hused]
      · rw [Function.update_of_ne hik, hfree']
        simp [hik]
    · rw [ofFree, count_give hused hin, hcount, List.length_cons]

end Bitmap

/-! ### The operations -/

/-- `bitmap_alloc` takes the lowest free index, or fails when there is none. -/
theorem bitmapAlloc_run (b : Bitmap) :
    ((∀ i, b.isFree i = false) ∧ bitmapAlloc.run b = .error .noMem b) ∨
    ∃ i, b.isFree i = true ∧ (∀ j < i, b.isFree j = false) ∧ bitmapAlloc.run b = .ok i (b.flip i) := by
  cases hword : b.map.findIdx? fun w => w ≠ 0 with
  | none =>
    left
    refine ⟨fun i => ?_, by
      simp only [bitmapAlloc, Prog.run_bind, Prog.run_get, Outcome.andThen_ok, hword,
        Prog.run_throw]⟩
    rw [List.findIdx?_eq_none_iff] at hword
    rw [Bitmap.isFree, List.getD_eq_getElem?_getD]
    cases hget : b.map[i / 32]? with
    | none => simp
    | some w =>
      have := hword w (List.mem_of_getElem? hget)
      simp only [decide_eq_false_iff_not, not_not] at this
      simp [this]
  | some ix =>
    right
    have hfind := List.findIdx?_eq_some_iff_getElem.mp hword
    obtain ⟨hlt, hne, hbefore⟩ := hfind
    have hgetD : b.map.getD ix 0 = b.map[ix] := List.getD_eq_getElem _ _ hlt
    have hne' : b.map.getD ix 0 ≠ 0 := by
      rw [hgetD]
      simpa using hne
    obtain ⟨o, ho, hoff, hbit, hleast⟩ := firstOffset_spec hne'
    have hdiv : (ix * 32 + o) / 32 = ix := by omega
    have hmod : (ix * 32 + o) % 32 = o := by omega
    refine ⟨ix * 32 + o, ?_, fun j hj => ?_, ?_⟩
    · rw [Bitmap.isFree, hdiv, hmod, hbit]
    · rw [Bitmap.isFree]
      by_cases hsame : j / 32 = ix
      · rw [hsame]
        exact hleast _ (by omega)
      · have hlt' : j / 32 < ix := by omega
        have hz := hbefore (j / 32) hlt'
        rw [List.getD_eq_getElem _ _ (by omega)]
        simp only [decide_not, decide_eq_true_eq, Bool.not_eq_true, Bool.not_eq_false'] at hz
        simp [hz]
    · simp only [bitmapAlloc, Prog.run_bind, Prog.run_get, Outcome.andThen_ok, hword, hoff,
        Prog.run_modify, Prog.run_pure]
      rw [Bitmap.flip, hdiv, hmod]

theorem bitmapTest_run {b : Bitmap} {i : ℕ} (hi : i < b.nbits) :
    (bitmapTest i).run b = .ok (b.isFree i) b := by
  simp only [bitmapTest, Prog.run_bind, Prog.run_get, Outcome.andThen_ok, Prog.run_assert_of _ _ hi,
    Prog.run_pure]
  congr 1
  rw [Bitmap.isFree]
  by_cases hbit : (b.map.getD (i / 32) 0).getLsbD (i % 32) = true
  · rw [hbit, decide_eq_true_eq]
    exact (and_bitMask_ne_zero (Nat.mod_lt _ (by decide))).mpr hbit
  · rw [Bool.not_eq_true] at hbit
    rw [hbit, decide_eq_false_iff_not, and_bitMask_ne_zero (Nat.mod_lt _ (by decide)), hbit]
    simp

/-- `bitmap_free` gives an index back that is in use. -/
theorem bitmapFree_run {b : Bitmap} {i : ℕ} (hi : i < b.nbits) (hused : b.isFree i = false) :
    (bitmapFree i).run b = .ok () (b.flip i) := by
  have ho : i % 32 < 32 := Nat.mod_lt _ (by decide)
  have hzero : b.map.getD (i / 32) 0 &&& bitMask (i % 32) = 0 := by
    by_contra hne
    rw [Bitmap.isFree, (and_bitMask_ne_zero ho).mp hne] at hused
    cases hused
  have hor : b.map.getD (i / 32) 0 ||| bitMask (i % 32) =
      b.map.getD (i / 32) 0 ^^^ bitMask (i % 32) := by
    apply BitVec.eq_of_getLsbD_eq
    intro j hj
    rw [BitVec.getLsbD_or, BitVec.getLsbD_xor, getLsbD_bitMask ho]
    by_cases hij : i % 32 = j
    · rw [Bitmap.isFree, hij] at hused
      simp only [hused, hij]
      rfl
    · simp [hij]
  simp only [bitmapFree, Prog.run_bind, Prog.run_get, Outcome.andThen_ok, Prog.run_assert_of _ _ hi,
    Prog.run_assert_of _ _ hzero, Prog.run_modify, hor]
  rfl

end Ucore.Fs
