import Ucore.Debug.Kdebug
import Mathlib.Order.Interval.Finset.Defs
import Mathlib.Data.Int.Interval

/-!
# What the search finds

The contract of `stab_binsearch`, as the comment above it has it, and the tables and addresses for which the code meets it.

* `Brackets`: the two integers are the last entry of the type that is not above the address and the place before the next entry,
  or the left one is larger and there is no such entry.
* When all entries of the type are above the address, the search ends with two integers of which the left one is not larger:
  `Split.brackets_iff`.
* After an exact match the search goes on with the next address, so an entry at that address is an exact match too. `Hits` follows
  the bisection to the first entry that has the address, and `Overshoots` says that the next address is the address of an entry
  that is still in reach, or 0. There is one such case in which the result is right: the next address is the last one, the search for
  it sets both integers to the place before its entry, and that is an entry that is not above the address.
* `stab_binsearch_iff` puts this together. `Split` is the invariant of the runs that find the entry, and `Past` that of those that
  run past it.
-/

namespace Ucore.Debug

open Ucore.Lib

section contract

variable (stabs : ℤ → Stab) (type : ℤ)

/-- The address of an entry. -/
def val (i : ℤ) : ℕ := (stabs i).nValue.toNat

/-- The entries of the type are in increasing order. -/
def Ascending (left right : ℤ) : Prop :=
  ∀ i j, left ≤ i → i ≤ j → j ≤ right → (stabs i).Of type → (stabs j).Of type → val stabs i ≤ val stabs j

/-- No entry of the type in the range is at or below the address. -/
def NoneBelow (left right : ℤ) (a : ℕ) : Prop := ∀ i, left ≤ i → i ≤ right → (stabs i).Of type → a < val stabs i

/-- The contract for the range `[left, right]` and the address `a`. -/
def Brackets (left right : ℤ) (a : ℕ) (l r : ℤ) : Prop :=
  (l ≤ r ∧ left ≤ l ∧ r ≤ right ∧ (stabs l).Of type ∧ val stabs l ≤ a ∧ NoneBelow stabs type (l + 1) right a ∧
    (∀ i, l < i → i ≤ r → ¬ (stabs i).Of type) ∧ (r = right ∨ (stabs (r + 1)).Of type)) ∨
  (r < l ∧ NoneBelow stabs type left right a)

/-- Bisecting `[l, r]` for the address `a`, the first entry of the type with this address that is looked at is `m`, and the right
bound is `r'` then. -/
inductive Hits (a : ℕ) : ℤ → ℤ → ℤ → ℤ → Prop
  | here {l r m : ℤ} (hle : l ≤ r) (h : LastOf stabs type l ((l + r) / 2) m) (ha : val stabs m = a) : Hits a l r m r
  | skip {l r m r' : ℤ} (hle : l ≤ r) (h : ∀ i, l ≤ i → i ≤ (l + r) / 2 → ¬ (stabs i).Of type)
    (hrest : Hits a ((l + r) / 2 + 1) r m r') : Hits a l r m r'
  | less {l r k m r' : ℤ} (hle : l ≤ r) (h : LastOf stabs type l ((l + r) / 2) k) (hlt : val stabs k < a)
    (hrest : Hits a ((l + r) / 2 + 1) r m r') : Hits a l r m r'
  | greater {l r k m r' : ℤ} (hle : l ≤ r) (h : LastOf stabs type l ((l + r) / 2) k) (hlt : a < val stabs k)
    (hrest : Hits a l (k - 1) m r') : Hits a l r m r'

/-- The search for the last address from `[l, r]` stops behind an entry that is not above `a`. -/
def Returns (left l r : ℤ) (a : ℕ) : Prop :=
  a + 1 = 2 ^ 32 - 1 ∧ ∃ j r', Hits stabs type (a + 1) l r j r' ∧ left < j ∧ (stabs (j - 1)).Of type ∧ val stabs (j - 1) ≤ a

/-- An exact match at `m`, with the right bound `r`, makes the search look for an address that it should not. -/
def Misled (left m r : ℤ) (a : ℕ) : Prop :=
  a + 1 = 2 ^ 32 ∨ (∃ j, m < j ∧ j ≤ r ∧ (stabs j).Of type ∧ val stabs j = a + 1) ∧ ¬ Returns stabs type left m r a

/-- The search for the address `a` in the part `[l, r]` of the range runs past the entry. -/
def Overshoots (left l r : ℤ) (a : ℕ) : Prop := ∃ m r', Hits stabs type a l r m r' ∧ Misled stabs type left m r' a

end contract

variable {stabs : ℤ → Stab} {type left right l r k m m' r' r'' : ℤ} {a b : ℕ} {s s' : Search}

/-! ### Bisections -/

theorem LastOf.unique {t : ℤ} (h : LastOf stabs type l t m) (h' : LastOf stabs type l t m') : m = m' := by
  by_contra hne
  rcases lt_or_gt_of_ne hne with hlt | hlt
  · exact h.none m' hlt h'.le' h'.of
  · exact h'.none m hlt h.le' h.of

theorem LastOf.not_none {t : ℤ} (h : LastOf stabs type l t m) : ¬ ∀ i, l ≤ i → i ≤ t → ¬ (stabs i).Of type :=
  fun hnone => hnone m h.le h.le' h.of

theorem Hits.of_skip (hnone : ∀ i, l ≤ i → i ≤ (l + r) / 2 → ¬ (stabs i).Of type) (h : Hits stabs type a l r m r') :
    Hits stabs type a ((l + r) / 2 + 1) r m r' := by
  cases h with
  | here _ h => exact absurd hnone h.not_none
  | skip _ _ hrest => exact hrest
  | less _ h => exact absurd hnone h.not_none
  | greater _ h => exact absurd hnone h.not_none

theorem Hits.of_less (hk : LastOf stabs type l ((l + r) / 2) k) (hlt : val stabs k < a) (h : Hits stabs type a l r m r') :
    Hits stabs type a ((l + r) / 2 + 1) r m r' := by
  cases h with
  | here _ h ha =>
    rw [h.unique hk] at ha
    omega
  | skip _ hnone => exact absurd hnone hk.not_none
  | less _ _ _ hrest => exact hrest
  | greater _ h hgt =>
    rw [h.unique hk] at hgt
    omega

theorem Hits.of_greater (hk : LastOf stabs type l ((l + r) / 2) k) (hlt : a < val stabs k) (h : Hits stabs type a l r m r') :
    Hits stabs type a l (k - 1) m r' := by
  cases h with
  | here _ h ha =>
    rw [h.unique hk] at ha
    omega
  | skip _ hnone => exact absurd hnone hk.not_none
  | less _ h hgt =>
    rw [h.unique hk] at hgt
    omega
  | greater _ h _ hrest =>
    rw [h.unique hk] at hrest
    exact hrest

theorem Hits.of_exact (hk : LastOf stabs type l ((l + r) / 2) k) (ha : val stabs k = a) (h : Hits stabs type a l r m r') :
    m = k ∧ r' = r := by
  cases h with
  | here _ h => exact ⟨h.unique hk, rfl⟩
  | skip _ hnone => exact absurd hnone hk.not_none
  | less _ h hlt =>
    rw [h.unique hk] at hlt
    omega
  | greater _ h hlt =>
    rw [h.unique hk] at hlt
    omega

theorem Hits.le (h : Hits stabs type a l r m r') : l ≤ r := by
  cases h <;> assumption

theorem Search.trueM_eq (h0 : 0 ≤ s.l) (hle : s.l ≤ s.r) : s.trueM = (s.l + s.r) / 2 := Int.tdiv_eq_ediv_of_nonneg (by omega)

/-- A turn that is no exact match keeps what the bisection arrives at. -/
theorem Turn.hits {reads : List ℤ} (h0 : 0 ≤ s.l) (hle : s.l ≤ s.r) (hb : s.addr.toNat = b) (hturn : Turn stabs type s reads s') :
    (s'.addr = s.addr ∧ (∀ m, LastOf stabs type s.l s.trueM m → val stabs m ≠ s.addr.toNat) ∧
      ∀ m r', Hits stabs type b s.l s.r m r' ↔ Hits stabs type b s'.l s'.r m r') ∨
      ∃ m, LastOf stabs type s.l s.trueM m ∧ val stabs m = b ∧ Hits stabs type b s.l s.r m s.r ∧
        s' = { s with anyMatches := true, regionLeft := m, l := m, addr := s.addr + 1, reads := reads } := by
  have hmid := Search.trueM_eq h0 hle
  cases hturn with
  | skip h =>
    rw [hmid] at h ⊢
    exact .inl ⟨rfl, fun m hm => absurd h hm.not_none, fun m r' => ⟨Hits.of_skip h, .skip hle h⟩⟩
  | @less m h hlt =>
    rw [hmid] at h ⊢
    have hlt : val stabs m < s.addr.toNat := hlt
    rw [hb] at hlt
    exact .inl ⟨rfl, fun k hk => by rw [hk.unique h, hb]; exact hlt.ne, fun m r' => ⟨Hits.of_less h hlt, .less hle h hlt⟩⟩
  | @greater m h hlt =>
    rw [hmid] at h
    have hlt : s.addr.toNat < val stabs m := hlt
    rw [hb] at hlt
    refine .inl ⟨rfl, fun k hk => ?_, fun m r' => ⟨Hits.of_greater h hlt, .greater hle h hlt⟩⟩
    rw [hmid] at hk
    rw [hk.unique h, hb]
    exact hlt.ne'
  | exact h heq =>
    have hval : val stabs _ = b := (congrArg BitVec.toNat heq).trans hb
    exact .inr ⟨_, h, hval, .here hle (hmid ▸ h) hval, rfl⟩

/-! ### The runs that find the entry -/

/-- The entries before `l` are not above the address, and those behind `r` are. -/
structure Split (stabs : ℤ → Stab) (type left right : ℤ) (a : ℕ) (s : Search) : Prop where
  low : ∀ i, left ≤ i → i < s.l → (stabs i).Of type → val stabs i ≤ a
  high : ∀ i, s.r < i → i ≤ right → (stabs i).Of type → a < val stabs i
  next : s.r = right ∨ (stabs (s.r + 1)).Of type
  regionLeft : s.regionLeft = left ∨ ((stabs s.regionLeft).Of type ∧ val stabs s.regionLeft ≤ a ∧ s.regionLeft ≤ s.r)
  none : s.anyMatches = false → s.r = right ∧ ∀ i, left ≤ i → i < s.l → ¬ (stabs i).Of type
  any : s.anyMatches = true → ∃ i, left ≤ i ∧ i ≤ right ∧ (stabs i).Of type

theorem Split.start (left right : ℤ) (addr : BitVec 32) : Split stabs type left right a (Search.start left right addr) where
  low i hi hi' := absurd hi (not_le.mpr hi')
  high i hi hi' := absurd hi' (not_le.mpr hi)
  next := .inl rfl
  regionLeft := .inl rfl
  none _ := ⟨rfl, fun i hi hi' => absurd hi (not_le.mpr hi')⟩
  any h := by cases h

theorem Split.turn {reads : List ℤ} (h : Split stabs type left right a s) (hsorted : Ascending stabs type left right)
    (hwithin : Within left right s) (h0 : 0 ≤ left) (hle : s.l ≤ s.r) (ha : a ≤ s.addr.toNat) (ha' : s.addr.toNat ≤ a + 1)
    (hexact : ∀ m, LastOf stabs type s.l s.trueM m → val stabs m = s.addr.toNat → s.addr.toNat = a)
    (hturn : Turn stabs type s reads s') : Split stabs type left right a s' := by
  have hl := hwithin.le_l
  have hr := hwithin.r_le
  obtain ⟨hmid, hmid'⟩ := s.trueM_bounds (h0.trans hl) hle
  -- An entry up to the middle is not above the last one.
  have hlow : ∀ m t, LastOf stabs type s.l t m → t ≤ right → val stabs m ≤ a → ∀ i, left ≤ i → i ≤ t → (stabs i).Of type →
      val stabs i ≤ a := fun m t hlast ht hm i hi hi' hof => by
    by_cases him : i ≤ m
    · exact (hsorted i m hi him (hlast.le'.trans ht) hof hlast.of).trans hm
    · exact absurd hof (hlast.none i (not_le.mp him) hi')
  cases hturn with
  | skip hnone =>
    refine ⟨fun i hi hi' hof => ?_, h.high, h.next, h.regionLeft, fun hany => ⟨(h.none hany).1, fun i hi hi' => ?_⟩, h.any⟩
    · by_cases hil : i < s.l
      · exact h.low i hi hil hof
      · exact absurd hof (hnone i (not_lt.mp hil) (Int.lt_add_one_iff.mp hi'))
    · by_cases hil : i < s.l
      · exact (h.none hany).2 i hi hil
      · exact hnone i (not_lt.mp hil) (Int.lt_add_one_iff.mp hi')
  | @less m hlast hlt =>
    have hm : val stabs m ≤ a := by
      have hlt : val stabs m < s.addr.toNat := hlt
      omega
    have hml := hlast.le
    have hmt := hlast.le'
    refine ⟨fun i hi hi' hof => ?_, h.high, h.next, .inr ⟨hlast.of, hm, hmt.trans hmid'⟩, fun hany => ?_,
      fun _ => ⟨m, by omega, by omega, hlast.of⟩⟩
    · exact hlow m s.trueM hlast (hmid'.trans hr) hm i hi (Int.lt_add_one_iff.mp hi') hof
    · cases hany
  | @greater m hlast hlt =>
    have hm : a < val stabs m := lt_of_le_of_lt ha hlt
    have hml := hlast.le
    have hmt := hlast.le'
    refine ⟨h.low, fun i hi hi' hof => ?_, .inr ?_, h.regionLeft.imp_right fun hleft => ⟨hleft.1, hleft.2.1, ?_⟩, fun hany => ?_,
      fun _ => ⟨m, by omega, by omega, hlast.of⟩⟩
    · exact hm.trans_le (hsorted m i (by omega) (by dsimp only at hi; omega) hi' hlast.of hof)
    · dsimp only
      rw [Int.sub_add_cancel]
      exact hlast.of
    · by_contra hnot
      have hle := hsorted m s.regionLeft (by omega) (by dsimp only at hnot; omega) (hleft.2.2.trans hr) hlast.of hleft.1
      omega
    · cases hany
  | @exact m hlast heq =>
    have hval : val stabs m = s.addr.toNat := congrArg BitVec.toNat heq
    have hm : val stabs m = a := hval.trans (hexact m hlast hval)
    have hml := hlast.le
    have hmt := hlast.le'
    refine ⟨fun i hi hi' hof => ?_, h.high, h.next, .inr ⟨hlast.of, hm.le, hmt.trans hmid'⟩, fun hany => ?_,
      fun _ => ⟨m, by omega, by omega, hlast.of⟩⟩
    · exact (hsorted i m hi hi'.le (by omega) hof hlast.of).trans hm.le
    · cases hany

/-- The search for the last address has found its entry, and `addr` is 0. -/
structure Behind (stabs : ℤ → Stab) (type left right : ℤ) (s : Search) : Prop where
  addr : s.addr.toNat = 0
  any : s.anyMatches = true
  regionLeft : s.regionLeft = s.l
  of : (stabs s.l).Of type
  last : val stabs s.l = 2 ^ 32 - 1
  le_right : s.l ≤ right
  le_r : s.l ≤ s.r + 1
  next : s.r = right ∨ (stabs (s.r + 1)).Of type

theorem Behind.turn {reads : List ℤ} (h : Behind stabs type left right s) (hsorted : Ascending stabs type left right)
    (hwithin : Within left right s) (h0 : 0 ≤ left) (hle : s.l ≤ s.r) (hturn : Turn stabs type s reads s') :
    Behind stabs type left right s' ∧ s'.l = s.l := by
  have hl := hwithin.le_l
  have hr := hwithin.r_le
  obtain ⟨hmid, hmid'⟩ := s.trueM_bounds (h0.trans hl) hle
  have hlarge : ∀ m, LastOf stabs type s.l s.trueM m → 0 < val stabs m := fun m hlast => by
    have hval := hsorted s.l m hl hlast.le ((hlast.le'.trans hmid').trans hr) h.of hlast.of
    rw [h.last] at hval
    omega
  cases hturn with
  | skip hnone => exact absurd h.of (hnone s.l le_rfl hmid)
  | @less m hlast hlt =>
    have hlt : val stabs m < s.addr.toNat := hlt
    rw [h.addr] at hlt
    cases hlt
  | @greater m hlast =>
    have hml := hlast.le
    refine ⟨⟨h.addr, rfl, h.regionLeft, h.of, h.last, h.le_right, by dsimp only; omega, .inr ?_⟩, rfl⟩
    dsimp only
    rw [Int.sub_add_cancel]
    exact hlast.of
  | @exact m hlast heq =>
    have hval : val stabs m = s.addr.toNat := congrArg BitVec.toNat heq
    have hpos := hlarge m hlast
    rw [hval, h.addr] at hpos
    cases hpos

/-- An exact match with the last address takes the search behind its entry. -/
theorem Behind.of_exact {reads : List ℤ} (hwithin : Within left right s) (hnext : s.r = right ∨ (stabs (s.r + 1)).Of type)
    (hm : LastOf stabs type s.l s.trueM m) (hmr : m ≤ s.r) (haddr : s.addr.toNat = 2 ^ 32 - 1) (hval : val stabs m = 2 ^ 32 - 1) :
    Behind stabs type left right
      { s with anyMatches := true, regionLeft := m, l := m, addr := s.addr + 1, reads := reads } where
  addr := by
    dsimp only
    rw [BitVec.toNat_add, haddr]
    rfl
  any := rfl
  regionLeft := rfl
  of := hm.of
  last := hval
  le_right := hmr.trans hwithin.r_le
  le_r := hmr.trans (Int.le_add_one le_rfl)
  next := hnext

/-- What holds in the runs that end with the entry for `a`: the address has not been found yet, or it has been and the next one is not
that of an entry, or the next one is the last one and leads back. -/
def Finds (stabs : ℤ → Stab) (type left right : ℤ) (a : ℕ) (s : Search) : Prop :=
  (Split stabs type left right a s ∧
    ((s.addr.toNat = a ∧ ¬ Overshoots stabs type left s.l s.r a) ∨
      (s.addr.toNat = a + 1 ∧ ∀ i, s.l ≤ i → i ≤ s.r → (stabs i).Of type → val stabs i ≠ a + 1) ∨
      (s.addr.toNat = a + 1 ∧ Returns stabs type left s.l s.r a))) ∨
  (Behind stabs type left right s ∧ a + 1 = 2 ^ 32 - 1 ∧ left < s.l ∧ (stabs (s.l - 1)).Of type ∧ val stabs (s.l - 1) ≤ a)

theorem toNat_succ {x : BitVec 32} {n : ℕ} (h : x.toNat = n) (hne : n + 1 ≠ 2 ^ 32) : (x + 1).toNat = n + 1 := by
  bv_omega

theorem Finds.turn {reads : List ℤ} (h : Finds stabs type left right a s) (hsorted : Ascending stabs type left right)
    (hwithin : Within left right s) (h0 : 0 ≤ left) (hle : s.l ≤ s.r) (hturn : Turn stabs type s reads s') :
    Finds stabs type left right a s' := by
  have hl0 := h0.trans hwithin.le_l
  obtain ⟨hmid, hmid'⟩ := s.trueM_bounds hl0 hle
  rcases h with ⟨hsplit, ⟨haddr, hnot⟩ | ⟨haddr, hnone⟩ | ⟨haddr, hmax, hret⟩⟩ | ⟨hbehind, hmax, hlt, hof, hval⟩
  · refine .inl ⟨hsplit.turn hsorted hwithin h0 hle haddr.ge (by omega) (fun m _ _ => haddr) hturn, ?_⟩
    rcases hturn.hits hl0 hle haddr with ⟨haddr', -, hhits⟩ | ⟨m, hlast, hval, hhit, rfl⟩
    · refine .inl ⟨by rw [haddr', haddr], fun ⟨m, r', hhit, hmis⟩ => hnot ⟨m, r', (hhits m r').mpr hhit, hmis⟩⟩
    · -- The first exact match.
      have hmis : ¬ Misled stabs type left m s.r a := fun hmis => hnot ⟨m, s.r, hhit, hmis⟩
      rw [Misled, not_or, not_and_not_right] at hmis
      have haddr' := toNat_succ haddr hmis.1
      by_cases hex : ∃ j, m < j ∧ j ≤ s.r ∧ (stabs j).Of type ∧ val stabs j = a + 1
      · exact .inr (.inr ⟨haddr', hmis.2 hex⟩)
      · refine .inr (.inl ⟨haddr', fun i hi hi' hof heq => ?_⟩)
        rcases eq_or_lt_of_le hi with rfl | hlt
        · have hval : val stabs m = a + 1 := heq
          omega
        · exact hex ⟨i, hlt, hi', hof, heq⟩
  · have hexact : ∀ m, LastOf stabs type s.l s.trueM m → val stabs m ≠ s.addr.toNat := fun m hlast hval =>
      hnone m hlast.le (hlast.le'.trans hmid') hlast.of (hval.trans haddr)
    refine .inl ⟨hsplit.turn hsorted hwithin h0 hle (by omega) haddr.le (fun m hlast hval => absurd hval (hexact m hlast)) hturn,
      .inr (.inl ?_)⟩
    cases hturn with
    | skip => exact ⟨haddr, fun i hi => hnone i (by dsimp only at hi; omega)⟩
    | less => exact ⟨haddr, fun i hi => hnone i (by dsimp only at hi; omega)⟩
    | greater hlast =>
      have hle' := hlast.le'
      exact ⟨haddr, fun i hi hi' => hnone i hi (by dsimp only at hi'; omega)⟩
    | exact hlast heq => exact absurd (congrArg BitVec.toNat heq) (hexact _ hlast)
  · obtain ⟨j, r', hhit, hlt, hof, hval⟩ := hret
    rcases hturn.hits hl0 hle haddr with ⟨haddr', hexact, hhits⟩ | ⟨m, hlast, hvalm, -, rfl⟩
    · refine .inl ⟨hsplit.turn hsorted hwithin h0 hle (by omega) haddr.le (fun m hlast hval => absurd hval (hexact m hlast)) hturn,
        .inr (.inr ⟨by rw [haddr', haddr], hmax, j, r', (hhits j r').mp hhit, hlt, hof, hval⟩)⟩
    · -- The exact match with the last address.
      rw [Search.trueM_eq hl0 hle] at hlast hmid'
      obtain ⟨rfl, -⟩ := hhit.of_exact hlast hvalm
      rw [← Search.trueM_eq hl0 hle] at hlast hmid'
      exact .inr ⟨.of_exact hwithin hsplit.next hlast (hlast.le'.trans hmid') (by omega) (by omega), hmax, hlt, hof, hval⟩
  · obtain ⟨hbehind', hsame⟩ := hbehind.turn hsorted hwithin h0 hle hturn
    rw [← hsame] at hlt hof hval
    exact .inr ⟨hbehind', hmax, hlt, hof, hval⟩

/-! ### The runs that run past it -/

/-- What holds in the runs that run past the entry for `a`: the next address is that of an entry in reach, or the entry at the left
bound is above `a`, or the last address has been looked for and there is nothing to return to. -/
inductive Past (stabs : ℤ → Stab) (type left right : ℤ) (a : ℕ) (s : Search) : Prop
  | before (hsplit : Split stabs type left right a s) (haddr : s.addr.toNat = a) (hover : Overshoots stabs type left s.l s.r a)
  | next {j : ℤ} (haddr : s.addr.toNat = a + 1) (hany : s.anyMatches = true) (hl : s.l ≤ j) (hr : j ≤ s.r)
    (hof : (stabs j).Of type) (hj : val stabs j = a + 1) (hnext : s.r = right ∨ (stabs (s.r + 1)).Of type)
    (hret : ¬ Returns stabs type left s.l s.r a)
  | above (hany : s.anyMatches = true) (hof : (stabs s.regionLeft).Of type) (ha : a < val stabs s.regionLeft)
    (haddr : val stabs s.regionLeft < s.addr.toNat) (hl : s.regionLeft ≤ s.l) (hr : s.regionLeft ≤ s.r)
    (hnext : s.r = right ∨ (stabs (s.r + 1)).Of type)
  | behind (hbehind : Behind stabs type left right s)
    (h : a = 2 ^ 32 - 1 ∨ ¬ (left < s.l ∧ (stabs (s.l - 1)).Of type ∧ val stabs (s.l - 1) ≤ a))

theorem Turn.next {reads : List ℤ} (hturn : Turn stabs type s reads s') (h : s.r = right ∨ (stabs (s.r + 1)).Of type) :
    s'.r = right ∨ (stabs (s'.r + 1)).Of type := by
  cases hturn with
  | skip => exact h
  | less => exact h
  | greater hlast =>
    right
    dsimp only
    rw [Int.sub_add_cancel]
    exact hlast.of
  | exact => exact h

/-- A turn that is no exact match keeps an entry that has the address between the bounds. -/
theorem Turn.in_reach {reads : List ℤ} {j : ℤ} (hturn : Turn stabs type s reads s') (hsorted : Ascending stabs type left right)
    (hwithin : Within left right s) (h0 : 0 ≤ left) (hle : s.l ≤ s.r) (hl : s.l ≤ j) (hr : j ≤ s.r) (hof : (stabs j).Of type)
    (hj : val stabs j = s.addr.toNat) (hexact : ∀ m, LastOf stabs type s.l s.trueM m → val stabs m ≠ s.addr.toNat) :
    s'.l ≤ j ∧ j ≤ s'.r := by
  have hleft := hwithin.le_l
  have hright := hwithin.r_le
  obtain ⟨hmid, hmid'⟩ := s.trueM_bounds (h0.trans hleft) hle
  cases hturn with
  | skip hnone => exact ⟨not_lt.mp fun hlt => hnone j hl (Int.lt_add_one_iff.mp hlt) hof, hr⟩
  | @less m hlast hlt =>
    have hlt : val stabs m < s.addr.toNat := hlt
    refine ⟨not_lt.mp fun hjt => ?_, hr⟩
    have hjm : j ≤ m := not_lt.mp fun hmj => hlast.none j hmj (Int.lt_add_one_iff.mp hjt) hof
    have := hsorted j m (by omega) hjm (by have := hlast.le'; omega) hof hlast.of
    omega
  | @greater m hlast hlt =>
    have hlt : s.addr.toNat < val stabs m := hlt
    have hml := hlast.le
    refine ⟨hl, Int.le_sub_one_iff.mpr (not_le.mp fun hmj => ?_)⟩
    have := hsorted m j (by omega) hmj (by omega) hlast.of hof
    omega
  | exact hlast heq => exact absurd (congrArg BitVec.toNat heq) (hexact _ hlast)

theorem Past.turn {reads : List ℤ} (h : Past stabs type left right a s) (hsorted : Ascending stabs type left right)
    (hwithin : Within left right s) (h0 : 0 ≤ left) (hle : s.l ≤ s.r) (hturn : Turn stabs type s reads s') :
    Past stabs type left right a s' := by
  have hleft := hwithin.le_l
  have hright := hwithin.r_le
  have hl0 := h0.trans hleft
  obtain ⟨hmid, hmid'⟩ := s.trueM_bounds hl0 hle
  cases h with
  | before hsplit haddr hover =>
    have hsplit' := hsplit.turn hsorted hwithin h0 hle haddr.ge (by omega) (fun m _ _ => haddr) hturn
    obtain ⟨m, r', hhit, hmis⟩ := hover
    rcases hturn.hits hl0 hle haddr with ⟨haddr', -, hhits⟩ | ⟨k, hlast, hval, -, rfl⟩
    · exact .before hsplit' (by rw [haddr', haddr]) ⟨m, r', (hhits m r').mp hhit, hmis⟩
    · rw [Search.trueM_eq hl0 hle] at hlast hmid'
      obtain ⟨rfl, rfl⟩ := hhit.of_exact hlast hval
      rw [← Search.trueM_eq hl0 hle] at hlast hmid'
      rcases hmis with hwrap | ⟨⟨j, hlt, hj, hof, hvalj⟩, hret⟩
      · exact .behind (.of_exact hwithin hsplit.next hlast (hlast.le'.trans hmid') (by omega) (by omega)) (.inl (by omega))
      · have hbound : val stabs j < 2 ^ 32 := (stabs j).nValue.isLt
        exact .next (toNat_succ haddr (by omega)) rfl hlt.le hj hof hvalj hsplit.next hret
  | @next j haddr hany hl hr hof hj hnext hret =>
    rcases hturn.hits hl0 hle haddr with ⟨haddr', hexact, hhits⟩ | ⟨m, hlast, hval, hhit, rfl⟩
    · obtain ⟨hl', hr'⟩ := hturn.in_reach hsorted hwithin h0 hle hl hr hof (hj.trans haddr.symm) hexact
      have hany' : s'.anyMatches = true := by
        cases hturn with
        | skip => exact hany
        | less => rfl
        | greater => rfl
        | exact => rfl
      refine .next (by rw [haddr', haddr]) hany' hl' hr' hof hj (hturn.next hnext) fun hret' => hret ?_
      obtain ⟨hmax, k, r', hhit, hback⟩ := hret'
      exact ⟨hmax, k, r', (hhits k r').mpr hhit, hback⟩
    · have hmr := hlast.le'.trans hmid'
      have hml := hlast.le
      by_cases hmax : a + 2 = 2 ^ 32
      · exact .behind (.of_exact hwithin hnext hlast hmr (by omega) (by omega))
          (.inr fun hback => hret ⟨by omega, m, s.r, hhit, hback⟩)
      · have haddr' := toNat_succ haddr (by omega)
        exact .above rfl hlast.of (by dsimp only; omega) (by dsimp only; omega) le_rfl hmr hnext
  | above hany hof ha haddr hl hr hnext =>
    have hrl := hwithin.regionLeft
    have hge : ∀ m, LastOf stabs type s.l s.trueM m → val stabs s.regionLeft ≤ val stabs m := fun m hlast =>
      hsorted _ _ hrl (hl.trans hlast.le) ((hlast.le'.trans hmid').trans hright) hof hlast.of
    have hnext' := hturn.next hnext
    cases hturn with
    | skip => exact .above hany hof ha haddr (by dsimp only; omega) hr hnext
    | @less m hlast hlt =>
      have hlt : val stabs m < s.addr.toNat := hlt
      have hml := hlast.le'
      exact .above rfl hlast.of (ha.trans_le (hge m hlast)) hlt (by dsimp only; omega) (hml.trans hmid') hnext
    | @greater m hlast hlt =>
      have hlt : s.addr.toNat < val stabs m := hlt
      have hml := hlast.le
      have hne : s.regionLeft ≠ m := fun heq => by
        rw [← heq] at hlt
        omega
      exact .above rfl hof ha haddr hl (by dsimp only; omega) hnext'
    | @exact m hlast heq =>
      have hval : val stabs m = s.addr.toNat := congrArg BitVec.toNat heq
      have hml := hlast.le
      have hmt := hlast.le'
      by_cases hmax : s.addr.toNat + 1 = 2 ^ 32
      · refine .behind (.of_exact hwithin hnext hlast (hmt.trans hmid') (by omega) (by omega)) (.inr fun ⟨_, hof', hval'⟩ => ?_)
        -- The entry before it is not before the one at the left bound.
        have hne : s.regionLeft ≠ m := fun heq => by
          rw [heq] at haddr
          omega
        have := hsorted s.regionLeft (m - 1) hrl (by omega) (by omega) hof hof'
        dsimp only at hval'
        omega
      · have haddr' := toNat_succ (n := s.addr.toNat) rfl hmax
        exact .above rfl hlast.of (by dsimp only; omega) (by dsimp only; omega) le_rfl (hmt.trans hmid') hnext
  | behind hbehind hback =>
    obtain ⟨hbehind', hsame⟩ := hbehind.turn hsorted hwithin h0 hle hturn
    rw [← hsame] at hback
    exact .behind hbehind' hback

/-! ### The end -/

/-- What the end of the function leaves in the two integers, when the loop has ended in `s`. -/
inductive Ending (stabs : ℤ → Stab) (type : ℤ) (s : Search) : ℤ → ℤ → Prop
  | none (h : s.anyMatches = false) : Ending stabs type s s.regionLeft (s.regionLeft - 1)
  | some {l : ℤ} (h : s.anyMatches = true) (hle : l ≤ s.r) (heq : s.r ≤ s.regionLeft → l = s.r)
    (hge : s.regionLeft ≤ s.r → s.regionLeft ≤ l) (hof : s.regionLeft < l → (stabs l).Of type)
    (hnone : ∀ i, l < i → i ≤ s.r → ¬ (stabs i).Of type) : Ending stabs type s l s.r

/-- **The function returns** and reads no entry outside of the range. What every turn keeps holds when the loop has ended. -/
theorem stabBinsearch_run {I : Search → Prop} {addr : BitVec 32} (h0 : 0 ≤ left)
    (hI : ∀ {s s' : Search} {reads : List ℤ}, Within left right s → I s → s.l ≤ s.r → Turn stabs type s reads s' → I s')
    (hstart : I (Search.start left right addr)) :
    ∃ s s', (stabBinsearch stabs type).run (Search.start left right addr) = .ok () s' ∧ (∀ i ∈ s'.reads, left ≤ i ∧ i ≤ right) ∧
      Within left right s ∧ I s ∧ s.r < s.l ∧ Ending stabs type s s'.regionLeft s'.regionRight := by
  have hwithin : Within left right (Search.start left right addr) := ⟨le_rfl, le_rfl, le_rfl, rfl, fun i hi => by cases hi⟩
  have hfuel : (Search.start left right addr).turns stabs type <
      2 * ((Search.start left right addr).r + 1 - (Search.start left right addr).l).toNat + 2 :=
    Nat.lt_succ_of_le (Search.turns_le ..)
  obtain ⟨s, hrun, hwithin, hs, hlt⟩ := searchLoop_run h0 hI hwithin hstart hfuel
  rw [stabBinsearch, Prog.bind_of_ok (Prog.run_get _), Prog.bind_of_ok hrun, Prog.bind_of_ok (Prog.run_get s)]
  by_cases hany : s.anyMatches = false
  · rw [if_pos hany]
    exact ⟨s, _, rfl, hwithin.reads, hwithin, hs, hlt, .none hany⟩
  · have hfuel : s.regionRight - s.regionLeft < (s.regionRight + 1 - s.regionLeft).toNat.succ := by omega
    obtain ⟨l, s', hlast, ⟨reads, rfl, hreads⟩, hle, heq, hge, hof, hnone⟩ := lastOf_run stabs type hfuel (Nat.succ_pos _)
    rw [if_neg hany, Prog.bind_of_ok hlast]
    have hr := hwithin.regionRight
    rw [hr] at hle heq hge hnone hreads
    refine ⟨s, _, rfl, fun i hi => ?_, hwithin, hs, hlt, ?_⟩
    · rcases hreads i hi with hi | hi
      · exact hwithin.reads i hi
      · have := hwithin.regionLeft
        have := hwithin.r_le
        omega
    · dsimp only
      rw [hr]
      exact .some (Bool.eq_true_of_not_eq_false hany) hle heq hge hof hnone

/-- The runs that find the entry end with it, if there is one, or if there is no entry of the type at all. -/
theorem Split.brackets_iff (h : Split stabs type left right a s) (hwithin : Within left right s) (hlt : s.r < s.l)
    {l r : ℤ} (hend : Ending stabs type s l r) :
    Brackets stabs type left right a l r ↔ (∀ i, left ≤ i → i ≤ right → ¬ (stabs i).Of type) ∨
      ∃ i, left ≤ i ∧ i ≤ right ∧ (stabs i).Of type ∧ val stabs i ≤ a := by
  have hleft := hwithin.regionLeft
  have hright := hwithin.r_le
  cases hend with
  | none hany =>
    obtain ⟨hr, hnone⟩ := h.none hany
    have hnone : ∀ i, left ≤ i → i ≤ right → ¬ (stabs i).Of type := fun i hi hi' => hnone i hi (by omega)
    exact iff_of_true (.inr ⟨by omega, fun i hi hi' hof => absurd hof (hnone i hi hi')⟩) (.inl hnone)
  | @some l hany hlr heq hge hof hnone =>
    constructor
    · rintro (⟨-, hl, hr, hofl, hval, -⟩ | ⟨hlt', -⟩)
      · exact .inr ⟨l, hl, by omega, hofl, hval⟩
      · omega
    · intro hex
      obtain ⟨k, hk, hk', hofk, hvalk⟩ : ∃ i, left ≤ i ∧ i ≤ right ∧ (stabs i).Of type ∧ val stabs i ≤ a := by
        rcases hex with hno | hex
        · obtain ⟨i, hi, hi', hofi⟩ := h.any hany
          exact absurd hofi (hno i hi hi')
        · exact hex
      -- The entry is not behind the right bound, so the last one up to there is the one that is found.
      have hkr : k ≤ s.r := not_lt.mp fun hrk => by
        have := h.high k hrk hk' hofk
        omega
      have hkl : k ≤ l := not_lt.mp fun hlk => hnone k hlk hkr hofk
      have hofl : (stabs l).Of type := by
        by_cases hreg : s.regionLeft < l
        · exact hof hreg
        · rcases h.regionLeft with heq' | hreg'
          · obtain rfl : k = l := by omega
            exact hofk
          · obtain rfl : s.regionLeft = l := le_antisymm (hge hreg'.2.2) (not_lt.mp hreg)
            exact hreg'.1
      have hleftl : left ≤ l := hk.trans hkl
      refine .inl ⟨hlr, hleftl, hright, hofl, h.low l hleftl (by omega) hofl, fun i hi hi' hofi => ?_, hnone, h.next⟩
      by_cases hir : i ≤ s.r
      · exact absurd hofi (hnone i (by omega) hir)
      · exact h.high i (not_le.mp hir) hi' hofi

/-- Behind the last entry both integers are the place before it. -/
theorem Behind.brackets_iff (h : Behind stabs type left right s) (hsorted : Ascending stabs type left right)
    (hwithin : Within left right s) (hlt : s.r < s.l) {l r : ℤ} (hend : Ending stabs type s l r) :
    Brackets stabs type left right a l r ↔
      a < 2 ^ 32 - 1 ∧ left < s.l ∧ (stabs (s.l - 1)).Of type ∧ val stabs (s.l - 1) ≤ a := by
  have hr := h.le_r
  cases hend with
  | none hany =>
    rw [h.any] at hany
    cases hany
  | @some l hany hlr heq =>
    have hregion := h.regionLeft
    obtain rfl : l = s.r := heq (by omega)
    have hsr : s.r = s.l - 1 := by omega
    rw [← hsr]
    constructor
    · rintro (⟨-, hl, -, hof, hval, habove, -⟩ | ⟨hlt, -⟩)
      · have hlast := habove s.l (by omega) h.le_right h.of
        rw [h.last] at hlast
        exact ⟨hlast, by omega, hof, hval⟩
      · omega
    · rintro ⟨ha, hl, hof, hval⟩
      refine .inl ⟨le_rfl, by omega, hwithin.r_le, hof, hval, fun i hi hi' hofi => ?_, fun i hi hi' => absurd hi (not_lt.mpr hi'), h.next⟩
      have := hsorted s.l i hwithin.le_l (by omega) hi' h.of hofi
      rw [h.last] at this
      omega

theorem Hits.of (h : Hits stabs type a l r m r') : l ≤ m ∧ m ≤ r ∧ (stabs m).Of type ∧ val stabs m = a := by
  induction h with
  | here hle h ha =>
    have := h.le'
    exact ⟨h.le, by omega, h.of, ha⟩
  | skip hle _ _ ih => exact ⟨by omega, ih.2⟩
  | less hle _ _ _ ih => exact ⟨by omega, ih.2⟩
  | greater hle h _ _ ih =>
    have := h.le'
    exact ⟨ih.1, by omega, ih.2.2⟩

/-- The runs that find the entry. -/
theorem Finds.brackets_iff (h : Finds stabs type left right a s) (hsorted : Ascending stabs type left right)
    (hwithin : Within left right s) (hlt : s.r < s.l) {l r : ℤ} (hend : Ending stabs type s l r) :
    Brackets stabs type left right a l r ↔ (∀ i, left ≤ i → i ≤ right → ¬ (stabs i).Of type) ∨
      ∃ i, left ≤ i ∧ i ≤ right ∧ (stabs i).Of type ∧ val stabs i ≤ a := by
  rcases h with ⟨hsplit, -⟩ | ⟨hbehind, hmax, hl, hof, hval⟩
  · exact hsplit.brackets_iff hwithin hlt hend
  · have hright := hbehind.le_right
    exact iff_of_true ((hbehind.brackets_iff hsorted hwithin hlt hend).mpr ⟨by omega, hl, hof, hval⟩)
      (.inr ⟨s.l - 1, by omega, by omega, hof, hval⟩)

/-- The runs that run past it. -/
theorem Past.not_brackets (h : Past stabs type left right a s) (hsorted : Ascending stabs type left right)
    (hwithin : Within left right s) (hlt : s.r < s.l) {l r : ℤ} (hend : Ending stabs type s l r) :
    ¬ Brackets stabs type left right a l r := by
  cases h with
  | before _ _ hover =>
    obtain ⟨m, r', hhit, -⟩ := hover
    exact absurd hhit.le (not_le.mpr hlt)
  | next _ _ hl hr => omega
  | above hany hof ha _ _ hr =>
    cases hend with
    | none hany' =>
      rw [hany] at hany'
      cases hany'
    | @some l _ hlr _ hge =>
      rintro (⟨-, -, hr', hofl, hval, -⟩ | ⟨hlt, -⟩)
      · have := hsorted s.regionLeft l hwithin.regionLeft (hge hr) (hlr.trans hr') hof hofl
        omega
      · omega
  | behind hbehind hback =>
    rw [hbehind.brackets_iff hsorted hwithin hlt hend]
    rintro ⟨ha, hback'⟩
    rcases hback with rfl | hback
    · cases lt_irrefl _ ha
    · exact hback hback'

/-- **When the search meets its contract.** It returns without reading outside of the range. It finds the entry exactly when there is
no entry of the type at all, or there is one that is not above the address and the search does not run past it. -/
theorem stab_binsearch_iff (stabs : ℤ → Stab) (type left right : ℤ) (addr : BitVec 32) (h0 : 0 ≤ left)
    (hsorted : Ascending stabs type left right) :
    ∃ s, (stabBinsearch stabs type).run (Search.start left right addr) = .ok () s ∧ (∀ i ∈ s.reads, left ≤ i ∧ i ≤ right) ∧
      (Brackets stabs type left right addr.toNat s.regionLeft s.regionRight ↔
        (∀ i, left ≤ i → i ≤ right → ¬ (stabs i).Of type) ∨
          ((∃ i, left ≤ i ∧ i ≤ right ∧ (stabs i).Of type ∧ val stabs i ≤ addr.toNat) ∧
            ¬ Overshoots stabs type left left right addr.toNat)) := by
  by_cases hover : Overshoots stabs type left left right addr.toNat
  · obtain ⟨s, s', hrun, hreads, hwithin, hpast, hlt, hend⟩ := stabBinsearch_run (I := Past stabs type left right addr.toNat) h0
      (fun hwithin h hle hturn => h.turn hsorted hwithin h0 hle hturn) (.before (Split.start left right addr) rfl hover)
    have ⟨m, r', hhit, _⟩ := hover
    obtain ⟨hm, hm', hof, -⟩ := hhit.of
    refine ⟨s', hrun, hreads, iff_of_false (hpast.not_brackets hsorted hwithin hlt hend) ?_⟩
    rintro (hnone | ⟨-, hnot⟩)
    · exact hnone m hm hm' hof
    · exact hnot hover
  · obtain ⟨s, s', hrun, hreads, hwithin, hfinds, hlt, hend⟩ := stabBinsearch_run (I := Finds stabs type left right addr.toNat) h0
      (fun hwithin h hle hturn => h.turn hsorted hwithin h0 hle hturn) (.inl ⟨Split.start left right addr, .inl ⟨rfl, hover⟩⟩)
    refine ⟨s', hrun, hreads, (hfinds.brackets_iff hsorted hwithin hlt hend).trans ?_⟩
    simp only [hover, not_false_eq_true, and_true]

/-- Source files and the lines in them. -/
def sources (i : ℤ) : Stab :=
  [⟨0x64, 0xf0100000⟩, ⟨0x44, 0xf0100010⟩, ⟨0x64, 0xf0100040⟩, ⟨0x44, 0xf0100048⟩, ⟨0x64, 0xf0100176⟩].getD i.toNat ⟨0, 0⟩

theorem sources_ascending : Ascending sources 0x64 0 4 := by
  have h : ∀ i ∈ Finset.Icc (0 : ℤ) 4, ∀ j ∈ Finset.Icc (0 : ℤ) 4, i ≤ j → (sources i).Of 0x64 → (sources j).Of 0x64 →
      (sources i).nValue.toNat ≤ (sources j).nValue.toNat := by decide
  exact fun i j hi hij hj => h i (Finset.mem_Icc.mpr ⟨hi, hij.trans hj⟩) j (Finset.mem_Icc.mpr ⟨hi.trans hij, hj⟩) hij

theorem stab_binsearch_iff_sources :
    ∃ s, (stabBinsearch sources 0x64).run (Search.start 0 4 0xf0100184) = .ok () s ∧ (∀ i ∈ s.reads, 0 ≤ i ∧ i ≤ 4) ∧
      (Brackets sources 0x64 0 4 0xf0100184 s.regionLeft s.regionRight ↔
        (∀ i, 0 ≤ i → i ≤ 4 → ¬ (sources i).Of 0x64) ∨
          ((∃ i, 0 ≤ i ∧ i ≤ 4 ∧ (sources i).Of 0x64 ∧ val sources i ≤ 0xf0100184) ∧
            ¬ Overshoots sources 0x64 0 0 4 0xf0100184)) :=
  stab_binsearch_iff sources 0x64 0 4 0xf0100184 le_rfl sources_ascending

/-- The place before the next source file. -/
example : ((stabBinsearch sources 0x64).run (Search.start 0 4 0xf0100050)).observe (fun s => (s.regionLeft, s.regionRight)) =
    some ((), 2, 3) := by decide

/-- Two functions at neighbouring addresses: for the first one, the search finds the second one. -/
example : ((stabBinsearch (fun i => if i = 0 then ⟨0x24, 0x100⟩ else ⟨0x24, 0x101⟩) 0x24).run (Search.start 0 1 0x100)).observe
    (fun s => (s.regionLeft, s.regionRight)) = some ((), 1, 1) := by decide

/-- An address before the only function is reported to be in it. -/
theorem not_stab_binsearch_brackets : ¬ ∀ (stabs : ℤ → Stab) (type left right : ℤ) (addr : BitVec 32), 0 ≤ left → left ≤ right →
    Ascending stabs type left right → ∃ s, (stabBinsearch stabs type).run (Search.start left right addr) = .ok () s ∧
      (∀ i ∈ s.reads, left ≤ i ∧ i ≤ right) ∧ Brackets stabs type left right addr.toNat s.regionLeft s.regionRight := by
  intro h
  have hsorted : Ascending (fun _ => ⟨0x24, 0x100⟩) 0x24 0 0 := fun i j _ _ _ _ _ => le_rfl
  obtain ⟨s, hrun, -, hbrackets⟩ := h (fun _ => ⟨0x24, 0x100⟩) 0x24 0 0 0x50 le_rfl le_rfl hsorted
  have hobs : ((stabBinsearch (fun _ => ⟨0x24, 0x100⟩) 0x24).run (Search.start 0 0 0x50)).observe
      (fun s => (s.regionLeft, s.regionRight)) = some ((), -1, -1) := by decide
  rw [hrun] at hobs
  obtain ⟨hl, hr⟩ := Prod.mk.inj (Prod.mk.inj (Option.some.inj hobs)).2
  rw [hl, hr] at hbrackets
  rcases hbrackets with ⟨-, hleft, -⟩ | ⟨hlt, -⟩
  · cases hleft
  · cases hlt

end Ucore.Debug
