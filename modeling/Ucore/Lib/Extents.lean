import Mathlib.Data.List.Perm.Basic
import Mathlib.Algebra.BigOperators.Group.List.Basic
import Mathlib.Tactic.Ring

/-!
# Extents: ascending runs of consecutive numbers

A set of numbers kept as a list of extents `(start, length)`. `flat rs` lists the numbers in
order. `Sep` says that the extents are non-empty and ascending and do not overlap, `Coalesced`
that moreover no two of them touch. The one fact with content is `mem_iff_maxRun`: in a coalesced
list the extents are exactly the maximal runs of the set, so the list is determined by the set.
-/

namespace Ucore.Lib

/-- A run of consecutive numbers: its first member and its length. -/
abbrev Extent := ℕ × ℕ

namespace Extent

/-- The members of an extent, in order. -/
def pages (r : Extent) : List ℕ := List.range' r.1 r.2

@[simp] theorem mem_pages {r : Extent} {p : ℕ} : p ∈ r.pages ↔ r.1 ≤ p ∧ p < r.1 + r.2 := by
  simp [pages, List.mem_range'_1]

@[simp] theorem length_pages (r : Extent) : r.pages.length = r.2 := by simp [pages]

@[simp] theorem nodup_pages (r : Extent) : r.pages.Nodup := List.nodup_range'

theorem pages_split (a m n : ℕ) (h : n ≤ m) :
    pages (a, m) = pages (a, n) ++ pages (a + n, m - n) := by
  simp only [pages]
  rw [List.range'_append_1, Nat.add_sub_cancel' h]

@[simp] theorem pages_zero (a : ℕ) : pages (a, 0) = [] := rfl

theorem pages_succ (a m : ℕ) : pages (a, m + 1) = a :: pages (a + 1, m) := List.range'_succ

/-- Two extents without a common member, one before the other. -/
def Apart (r r' : Extent) : Prop := r.1 + r.2 ≤ r'.1 ∨ r'.1 + r'.2 ≤ r.1

instance (r r' : Extent) : Decidable (Apart r r') := inferInstanceAs (Decidable (_ ∨ _))

theorem Apart.symm {r r' : Extent} (h : Apart r r') : Apart r' r := Or.symm h

/-- Extents with members, but none in common, are apart. -/
theorem apart_of_disjoint {r r' : Extent} (hr : 0 < r.2) (hr' : 0 < r'.2)
    (h : ∀ q, r.1 ≤ q → q < r.1 + r.2 → r'.1 ≤ q → ¬ q < r'.1 + r'.2) : Apart r r' := by
  by_contra hno
  rw [Apart, not_or] at hno
  rcases le_total r.1 r'.1 with hle | hle
  · exact h r'.1 hle (by omega) le_rfl (by omega)
  · exact h r.1 le_rfl (by omega) hle (by omega)

end Extent

/-- The numbers of a list of extents, extent by extent. -/
def flat (rs : List Extent) : List ℕ := rs.flatMap Extent.pages

@[simp] theorem flat_nil : flat [] = [] := rfl

@[simp] theorem flat_cons (r : Extent) (rs : List Extent) : flat (r :: rs) = r.pages ++ flat rs :=
  rfl

@[simp] theorem flat_append (rs rs' : List Extent) : flat (rs ++ rs') = flat rs ++ flat rs' := by
  simp [flat]

theorem mem_flat {rs : List Extent} {p : ℕ} :
    p ∈ flat rs ↔ ∃ r ∈ rs, r.1 ≤ p ∧ p < r.1 + r.2 := by
  simp [flat]

theorem length_flat (rs : List Extent) : (flat rs).length = (rs.map Prod.snd).sum := by
  induction rs with
  | nil => rfl
  | cons r rs ih => simp [ih]

/-- Non-empty extents in ascending order without overlap. -/
structure Sep (rs : List Extent) : Prop where
  /-- No extent is empty. -/
  pos : ∀ r ∈ rs, 0 < r.2
  /-- Each extent ends before the later ones start. -/
  asc : rs.Pairwise fun r r' => r.1 + r.2 ≤ r'.1

/-- Extents that are separated by at least one number. -/
structure Coalesced (rs : List Extent) : Prop extends Sep rs where
  /-- No extent touches a later one. -/
  gap : rs.Pairwise fun r r' => r.1 + r.2 < r'.1

/-- Two members of a list with pairwise related members are equal or related one way round. -/
theorem pairwise_trichotomy {α : Type} {R : α → α → Prop} {l : List α} (h : l.Pairwise R) {a b : α}
    (ha : a ∈ l) (hb : b ∈ l) : a = b ∨ R a b ∨ R b a := by
  induction l with
  | nil => cases ha
  | cons c l ih =>
    obtain ⟨hc, hl⟩ := List.pairwise_cons.mp h
    rcases List.mem_cons.mp ha with rfl | ha' <;> rcases List.mem_cons.mp hb with rfl | hb'
    · exact Or.inl rfl
    · exact Or.inr (Or.inl (hc b hb'))
    · exact Or.inr (Or.inr (hc a ha'))
    · exact ih hl ha' hb'

section sep

variable {rs rs' : List Extent} {r : Extent}

theorem Sep.cons (h : Sep (r :: rs)) : Sep rs :=
  ⟨fun x hx => h.pos x (List.mem_cons_of_mem _ hx), (List.pairwise_cons.mp h.asc).2⟩

theorem Sep.below (h : Sep (r :: rs)) {p : ℕ} (hp : p ∈ flat rs) : r.1 + r.2 ≤ p := by
  obtain ⟨x, hx, hle, -⟩ := mem_flat.mp hp
  exact ((List.pairwise_cons.mp h.asc).1 x hx).trans hle

/-- The numbers of separated extents come in strictly ascending order. -/
theorem Sep.sorted (h : Sep rs) : (flat rs).Pairwise (· < ·) := by
  induction rs with
  | nil => exact List.Pairwise.nil
  | cons r rs ih =>
    rw [flat_cons, List.pairwise_append]
    refine ⟨List.pairwise_lt_range', ih h.cons, fun p hp q hq => ?_⟩
    have := h.below hq
    have := (Extent.mem_pages.mp hp).2
    omega

theorem Sep.nodup (h : Sep rs) : (flat rs).Nodup := h.sorted.imp ne_of_lt

/-- A part that keeps the order and the separation. -/
theorem Sep.append (h : Sep rs) (h' : Sep rs') (hb : ∀ r ∈ rs, ∀ r' ∈ rs', r.1 + r.2 ≤ r'.1) :
    Sep (rs ++ rs') :=
  ⟨fun r hr => (List.mem_append.mp hr).elim (h.pos r) (h'.pos r),
    List.pairwise_append.mpr ⟨h.asc, h'.asc, hb⟩⟩

theorem Sep.of_append (h : Sep (rs ++ rs')) : Sep rs ∧ Sep rs' ∧
    ∀ r ∈ rs, ∀ r' ∈ rs', r.1 + r.2 ≤ r'.1 := by
  obtain ⟨h₁, h₂, h₃⟩ := List.pairwise_append.mp h.asc
  exact ⟨⟨fun r hr => h.pos r (List.mem_append_left _ hr), h₁⟩,
    ⟨fun r hr => h.pos r (List.mem_append_right _ hr), h₂⟩, h₃⟩

theorem Sep.sublist (h : Sep rs) (hsub : List.Sublist rs' rs) : Sep rs' :=
  ⟨fun r hr => h.pos r (hsub.subset hr), h.asc.sublist hsub⟩

/-- Two extents that touch become one. -/
theorem Sep.join {lo hi : List Extent} {a l m : ℕ} (h : Sep (lo ++ (a, l) :: (a + l, m) :: hi)) : Sep (lo ++ (a, l + m) :: hi) := by
  obtain ⟨hlo, hsab, hbetween⟩ := h.of_append
  refine hlo.append ⟨fun r hr => ?_, List.pairwise_cons.mpr ⟨fun r hr => ?_, hsab.cons.cons.asc⟩⟩ fun r hr r' hr' => ?_
  · rcases List.mem_cons.mp hr with rfl | hr
    · exact Nat.add_pos_left (hsab.pos (a, l) List.mem_cons_self) m
    · exact hsab.cons.cons.pos r hr
  · have hle := (List.pairwise_cons.mp hsab.cons.asc).1 r hr
    rwa [← Nat.add_assoc]
  · rcases List.mem_cons.mp hr' with rfl | hr'
    · exact hbetween r hr (a, l) List.mem_cons_self
    · exact hbetween r hr r' (List.mem_cons_of_mem _ (List.mem_cons_of_mem _ hr'))

/-- A block of numbers outside a separated list has the extents of the list on its two sides. -/
theorem Sep.split_at (h : Sep rs) {b n : ℕ} (hn : 0 < n)
    (hb : ∀ q, b ≤ q → q < b + n → q ∉ flat rs) :
    ∃ lo hi, rs = lo ++ hi ∧ (∀ r ∈ lo, r.1 + r.2 ≤ b) ∧ ∀ r ∈ hi, b + n ≤ r.1 := by
  induction rs with
  | nil => exact ⟨[], [], rfl, by simp, by simp⟩
  | cons r rs ih =>
    have hpos := h.pos r (by simp)
    have hmem : ∀ q, r.1 ≤ q → q < r.1 + r.2 → q ∈ flat (r :: rs) := fun q h1 h2 =>
      mem_flat.mpr ⟨r, by simp, h1, h2⟩
    by_cases hr : r.1 < b
    · obtain ⟨lo, hi, rfl, hlo, hhi⟩ := ih h.cons fun q h1 h2 hq => hb q h1 h2 (by simp [hq])
      refine ⟨r :: lo, hi, rfl, fun x hx => ?_, hhi⟩
      rcases List.mem_cons.mp hx with rfl | hx
      · by_contra hgt
        exact hb b le_rfl (by omega) (hmem b (by omega) (by omega))
      · exact hlo x hx
    · have hr' : b + n ≤ r.1 := by
        by_contra hgt
        exact hb r.1 (by omega) (by omega) (hmem r.1 le_rfl (by omega))
      refine ⟨[], r :: rs, rfl, by simp, fun x hx => ?_⟩
      rcases List.mem_cons.mp hx with rfl | hx
      · exact hr'
      · have := (List.pairwise_cons.mp h.asc).1 x hx
        omega

end sep

/-- The first member of a list that satisfies `p`, with what comes before and after it. -/
theorem exists_first {α : Type} {p : α → Prop} {l : List α} (h : ∃ a ∈ l, p a) :
    ∃ pre a post, l = pre ++ a :: post ∧ (∀ b ∈ pre, ¬ p b) ∧ p a := by
  induction l with
  | nil => obtain ⟨a, ha, -⟩ := h; cases ha
  | cons b l ih =>
    by_cases hb : p b
    · exact ⟨[], b, l, rfl, by simp, hb⟩
    · obtain ⟨a, ha, hpa⟩ := h
      rcases List.mem_cons.mp ha with rfl | ha
      · exact absurd hpa hb
      · obtain ⟨pre, c, post, rfl, hpre, hc⟩ := ih ⟨a, ha, hpa⟩
        refine ⟨b :: pre, c, post, rfl, fun x hx => ?_, hc⟩
        rcases List.mem_cons.mp hx with rfl | hx
        · exact hb
        · exact hpre x hx

section coalesced

variable {rs rs' : List Extent} {r : Extent}

theorem Coalesced.of_gap (hpos : ∀ r ∈ rs, 0 < r.2)
    (hgap : rs.Pairwise fun r r' => r.1 + r.2 < r'.1) : Coalesced rs :=
  ⟨⟨hpos, hgap.imp le_of_lt⟩, hgap⟩

theorem Coalesced.of_append (h : Coalesced (rs ++ rs')) : Coalesced rs ∧ Coalesced rs' ∧
    ∀ r ∈ rs, ∀ r' ∈ rs', r.1 + r.2 < r'.1 := by
  obtain ⟨h₁, h₂, h₃⟩ := List.pairwise_append.mp h.gap
  exact ⟨.of_gap (fun r hr => h.pos r (List.mem_append_left _ hr)) h₁,
    .of_gap (fun r hr => h.pos r (List.mem_append_right _ hr)) h₂, h₃⟩

theorem Coalesced.append (h : Coalesced rs) (h' : Coalesced rs')
    (hb : ∀ r ∈ rs, ∀ r' ∈ rs', r.1 + r.2 < r'.1) : Coalesced (rs ++ rs') :=
  .of_gap (fun r hr => (List.mem_append.mp hr).elim (h.pos r) (h'.pos r))
    (List.pairwise_append.mpr ⟨h.gap, h'.gap, hb⟩)

theorem Coalesced.cons (h : Coalesced rs) (hr : 0 < r.2) (hb : ∀ r' ∈ rs, r.1 + r.2 < r'.1) :
    Coalesced (r :: rs) :=
  .of_gap (fun x hx => (List.mem_cons.mp hx).elim (fun heq => heq ▸ hr) (h.pos x))
    (List.pairwise_cons.mpr ⟨hb, h.gap⟩)

end coalesced

/-! ### Maximal runs -/

/-- `p` starts a maximal run of length `m` of the set `F`. -/
structure MaxRun (F : ℕ → Prop) (p m : ℕ) : Prop where
  /-- The run is not empty. -/
  pos : 0 < m
  /-- Its members are in the set. -/
  mem : ∀ k < m, F (p + k)
  /-- The number after it is not. -/
  stop : ¬ F (p + m)
  /-- Nor is the number before it. -/
  start : ∀ q, q + 1 = p → ¬ F q

/-- The members of an extent of a coalesced list are a maximal run of the whole set. -/
theorem Coalesced.maxRun {rs : List Extent} (h : Coalesced rs) {r : Extent} (hr : r ∈ rs) :
    MaxRun (· ∈ flat rs) r.1 r.2 := by
  refine ⟨h.pos r hr, fun k hk => mem_flat.mpr ⟨r, hr, by omega, by omega⟩, fun hmem => ?_,
    fun q hq hmem => ?_⟩
  · obtain ⟨r', hr', hle, hlt⟩ := mem_flat.mp hmem
    rcases pairwise_trichotomy h.gap hr hr' with rfl | h1 | h1 <;> omega
  · obtain ⟨r', hr', hle, hlt⟩ := mem_flat.mp hmem
    rcases pairwise_trichotomy h.gap hr hr' with rfl | h1 | h1 <;> omega

/-- Consecutive numbers of a coalesced list lie in one extent. -/
theorem Coalesced.exists_extent {rs : List Extent} (h : Coalesced rs) {q n : ℕ} (hn : 0 < n)
    (hq : ∀ k < n, q + k ∈ flat rs) : ∃ r ∈ rs, r.1 ≤ q ∧ q + n ≤ r.1 + r.2 := by
  induction n with
  | zero => omega
  | succ n ih =>
    rcases Nat.eq_zero_or_pos n with rfl | hpos
    · obtain ⟨r, hr, hle, hlt⟩ := mem_flat.mp (hq 0 hn)
      exact ⟨r, hr, by omega, by omega⟩
    · obtain ⟨r, hr, hle, hlt⟩ := ih hpos fun k hk => hq k (by omega)
      refine ⟨r, hr, hle, ?_⟩
      by_contra hgt
      -- the run would go on past the end of `r`, where a coalesced list has a gap
      have hend : q + n = r.1 + r.2 := by omega
      exact (h.maxRun hr).stop (hend ▸ hq n (by omega))

/-- **The extents of a coalesced list are the maximal runs of its numbers.** -/
theorem Coalesced.mem_iff_maxRun {rs : List Extent} (h : Coalesced rs) {p m : ℕ} :
    (p, m) ∈ rs ↔ MaxRun (· ∈ flat rs) p m := by
  refine ⟨fun hr => h.maxRun hr, fun hrun => ?_⟩
  obtain ⟨⟨a, l⟩, hr, hle, hend⟩ := h.exists_extent hrun.pos hrun.mem
  have hr' := h.maxRun hr
  have ha : a = p := by
    rcases hle.lt_or_eq with hlt | heq
    · exact absurd (hr'.mem (p - 1 - a) (by simp only at hlt hend ⊢; omega))
        (by
          simp only at hlt
          rw [show a + (p - 1 - a) = p - 1 by omega]
          exact hrun.start (p - 1) (by omega))
    · exact heq
  subst ha
  have hm : l = m := by
    by_contra hne
    simp only at hend
    exact hrun.stop (hr'.mem m (by simp only; omega))
  rwa [hm] at hr

/-- A coalesced list is determined by its numbers. -/
theorem Coalesced.eq_of_mem_iff {rs rs' : List Extent} (h : Coalesced rs) (h' : Coalesced rs')
    (hmem : ∀ p, p ∈ flat rs ↔ p ∈ flat rs') : rs = rs' := by
  have hset : (· ∈ flat rs) = (· ∈ flat rs') := funext fun p => propext (hmem p)
  have hnodup : ∀ {l : List Extent}, Coalesced l → l.Nodup := fun hl => hl.gap.imp fun hlt heq => by
    subst heq
    omega
  have hperm : rs.Perm rs' := (List.perm_ext_iff_of_nodup (hnodup h) (hnodup h')).mpr fun r => by
    rw [show r = (r.1, r.2) from rfl, h.mem_iff_maxRun, h'.mem_iff_maxRun, hset]
  refine List.Perm.eq_of_pairwise (fun a b ha hb hab hba => ?_) h.gap h'.gap hperm
  omega

end Ucore.Lib
