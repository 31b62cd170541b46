import Mathlib.Data.List.Perm.Basic
import Mathlib.Order.Lattice
import Mathlib.Tactic.Common

/-!
# Sorted lists of ranges

Things with a half-open range each, from `lo a` up to `hi a`, in a list.

* `Ranges lo hi l` says that the ranges of `l` are not empty, ascend and do not overlap.
* `Ranges.place` puts one more in between, where only its two neighbours are looked at. `prev_of_apart` and
  `next_of_apart` say that these checks pass when the new range is apart from all the others.
* `Ranges.eq_of_mem` is uniqueness: at most one range has a point, so that looking for it finds it (`find_eq_some_iff`).
-/

namespace Ucore.Lib

variable {α β : Type} [LinearOrder β] {lo hi : α → β} {l l₁ l₂ : List α} {a b : α} {x : β}

/-- The ranges are not empty, and each one ends before the next one starts. -/
structure Ranges (lo hi : α → β) (l : List α) : Prop where
  nonempty : ∀ a ∈ l, lo a < hi a
  sorted : l.Pairwise fun a b => hi a ≤ lo b

namespace Ranges

/-- Two ranges without a common point, one before the other. -/
def Apart (lo hi : α → β) (a b : α) : Prop := hi a ≤ lo b ∨ hi b ≤ lo a

instance (a b : α) : Decidable (Apart lo hi a b) := inferInstanceAs (Decidable (_ ∨ _))

theorem Apart.symm (h : Apart lo hi a b) : Apart lo hi b a := Or.symm h

theorem nil : Ranges lo hi [] := ⟨fun _ ha => (List.not_mem_nil ha).elim, List.Pairwise.nil⟩

theorem cons (h : Ranges lo hi l) (ha : lo a < hi a) (hbefore : ∀ b ∈ l, hi a ≤ lo b) : Ranges lo hi (a :: l) := by
  refine ⟨fun b hb => ?_, List.pairwise_cons.mpr ⟨hbefore, h.sorted⟩⟩
  rcases List.mem_cons.mp hb with rfl | hb
  · exact ha
  · exact h.nonempty b hb

theorem of_cons (h : Ranges lo hi (a :: l)) : Ranges lo hi l :=
  ⟨fun b hb => h.nonempty b (List.mem_cons_of_mem a hb), (List.pairwise_cons.mp h.sorted).2⟩

theorem of_append (h : Ranges lo hi (l₁ ++ l₂)) :
    Ranges lo hi l₁ ∧ Ranges lo hi l₂ ∧ ∀ a ∈ l₁, ∀ b ∈ l₂, hi a ≤ lo b := by
  obtain ⟨h₁, h₂, hcross⟩ := List.pairwise_append.mp h.sorted
  exact ⟨⟨fun a ha => h.nonempty a (List.mem_append_left l₂ ha), h₁⟩,
    ⟨fun a ha => h.nonempty a (List.mem_append_right l₁ ha), h₂⟩, hcross⟩

theorem append (h₁ : Ranges lo hi l₁) (h₂ : Ranges lo hi l₂) (hcross : ∀ a ∈ l₁, ∀ b ∈ l₂, hi a ≤ lo b) :
    Ranges lo hi (l₁ ++ l₂) := by
  refine ⟨fun a ha => ?_, List.pairwise_append.mpr ⟨h₁.sorted, h₂.sorted, hcross⟩⟩
  rcases List.mem_append.mp ha with ha | ha
  · exact h₁.nonempty a ha
  · exact h₂.nonempty a ha

/-- Another list of things with the same ranges. -/
theorem congr {γ : Type} {lo' hi' : γ → β} {l' : List γ} (h : Ranges lo hi l)
    (heq : l'.map (fun c => (lo' c, hi' c)) = l.map fun a => (lo a, hi a)) : Ranges lo' hi' l' := by
  have hmap : ∀ {δ : Type} {f g : δ → β} {m : List δ}, Ranges f g m ↔
      Ranges Prod.fst Prod.snd (m.map fun d => (f d, g d)) := by
    intro δ f g m
    refine ⟨fun h => ⟨fun p hp => ?_, List.pairwise_map.mpr h.sorted⟩,
      fun h => ⟨fun d hd => h.nonempty _ (List.mem_map.mpr ⟨d, hd, rfl⟩), List.pairwise_map.mp h.sorted⟩⟩
    obtain ⟨d, hd, rfl⟩ := List.mem_map.mp hp
    exact h.nonempty d hd
  rw [hmap, heq, ← hmap]
  exact h

/-- Two ranges of the list that are not apart are one. -/
theorem eq_of_not_apart (h : Ranges lo hi l) (ha : a ∈ l) (hb : b ∈ l) (hapart : ¬ Apart lo hi a b) : a = b := by
  induction l with
  | nil => exact (List.not_mem_nil ha).elim
  | cons c l ih =>
    have hc := (List.pairwise_cons.mp h.sorted).1
    rcases List.mem_cons.mp ha with rfl | hal
    · rcases List.mem_cons.mp hb with rfl | hbl
      · rfl
      · exact (hapart (Or.inl (hc b hbl))).elim
    · rcases List.mem_cons.mp hb with rfl | hbl
      · exact (hapart (Or.inr (hc a hal))).elim
      · exact ih h.of_cons hal hbl

/-- No range is in the list twice. -/
theorem nodup (h : Ranges lo hi l) : l.Nodup := by
  refine h.sorted.imp_of_mem fun {a b} ha _ hab heq => ?_
  subst heq
  exact absurd (h.nonempty a ha) (not_lt.mpr hab)

/-- At most one range has a point. -/
theorem eq_of_mem (h : Ranges lo hi l) (ha : a ∈ l) (hb : b ∈ l) (hxa : lo a ≤ x ∧ x < hi a) (hxb : lo b ≤ x ∧ x < hi b) :
    a = b := by
  refine h.eq_of_not_apart ha hb ?_
  rintro (hab | hba)
  · exact absurd (hxa.2.trans_le (hab.trans hxb.1)) (lt_irrefl x)
  · exact absurd (hxb.2.trans_le (hba.trans hxa.1)) (lt_irrefl x)

/-- Looking for a point finds the range that has it. -/
theorem find_eq_some_iff (h : Ranges lo hi l) {p : α → Bool} (hp : ∀ a, p a = true ↔ lo a ≤ x ∧ x < hi a) :
    l.find? p = some a ↔ a ∈ l ∧ lo a ≤ x ∧ x < hi a := by
  refine ⟨fun hfind => ⟨List.mem_of_find?_eq_some hfind, (hp a).mp (List.find?_some hfind)⟩, fun ⟨ha, hx⟩ => ?_⟩
  obtain ⟨b, hfind⟩ := Option.isSome_iff_exists.mp (List.find?_isSome.mpr ⟨a, ha, (hp a).mpr hx⟩)
  have hb := (hp b).mp (List.find?_some hfind)
  rw [hfind, h.eq_of_mem (List.mem_of_find?_eq_some hfind) ha hb hx]

/-! ### One more range -/

/-- A range fits between its neighbours. -/
theorem place (h : Ranges lo hi (l₁ ++ l₂)) (ha : lo a < hi a) (hprev : ∀ b ∈ l₁.getLast?, hi b ≤ lo a)
    (hnext : ∀ b ∈ l₂.head?, hi a ≤ lo b) : Ranges lo hi (l₁ ++ a :: l₂) := by
  obtain ⟨h₁, h₂, hcross⟩ := h.of_append
  have hafter : ∀ b ∈ l₂, hi a ≤ lo b := by
    cases l₂ with
    | nil => exact fun _ hb => (List.not_mem_nil hb).elim
    | cons c l₂ =>
      have hc : hi a ≤ lo c := hnext c rfl
      intro b hb
      rcases List.mem_cons.mp hb with rfl | hb
      · exact hc
      · have hcb : hi c ≤ lo b := (List.pairwise_cons.mp h₂.sorted).1 b hb
        exact hc.trans ((h₂.nonempty c List.mem_cons_self).le.trans hcb)
  have hbefore : ∀ b ∈ l₁, hi b ≤ lo a := by
    intro b hb
    obtain ⟨l, c, rfl⟩ := (List.eq_nil_or_concat l₁).resolve_left (List.ne_nil_of_mem hb)
    have hc : hi c ≤ lo a := hprev c (by rw [List.concat_eq_append, List.getLast?_concat]; rfl)
    rw [List.concat_eq_append] at hb h₁
    rcases List.mem_append.mp hb with hb | hb
    · have hbc : hi b ≤ lo c := h₁.of_append.2.2 b hb c (List.mem_singleton_self c)
      have hlast : lo c < hi c := h₁.nonempty c (List.mem_append_right l (List.mem_singleton_self c))
      exact hbc.trans (hlast.le.trans hc)
    · rw [List.mem_singleton.mp hb]
      exact hc
  refine h₁.append (h₂.cons ha hafter) fun b hb c hc => ?_
  rcases List.mem_cons.mp hc with rfl | hc
  · exact hbefore b hb
  · exact hcross b hb c hc

/-- What starts no later and is apart ends before. -/
theorem prev_of_apart (ha : lo a < hi a) (hapart : Apart lo hi a b) (hle : lo b ≤ lo a) :
    hi b ≤ lo a := by
  rcases hapart with hab | hba
  · exact absurd (ha.trans_le (hab.trans hle)) (lt_irrefl _)
  · exact hba

/-- What starts later and is apart starts after the end. -/
theorem next_of_apart (hb : lo b < hi b) (hapart : Apart lo hi a b) (hlt : lo a < lo b) : hi a ≤ lo b := by
  rcases hapart with hab | hba
  · exact hab
  · exact absurd (hlt.trans (hb.trans_le hba)) (lt_irrefl _)

end Ranges

end Ucore.Lib
