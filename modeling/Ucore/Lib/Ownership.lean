import Mathlib.Logic.Function.Basic
import Mathlib.Tactic.Common

/-!
# Ownership of numbered resources

Owners `o : ω` hold resources `blk o : ℕ`, with 0 for "none", out of a pool `free`. `Owned` says
that nobody holds a free resource and no resource is held twice. `Owned.take` and `Owned.give` are
the two moves between pool and owner, and `Stray`, the resources that are neither free nor held, is
the same before and after each of them: nothing gets lost.
-/

namespace Ucore.Lib

variable {ω : Type} {free : ℕ → Bool} {blk : ω → ℕ}

/-- Held resources are not free, and no resource is held twice. -/
structure Owned (free : ℕ → Bool) (blk : ω → ℕ) : Prop where
  /-- A held resource is not free. -/
  used : ∀ o, blk o ≠ 0 → free (blk o) = false
  /-- A resource has one owner. -/
  inj : ∀ o o', blk o ≠ 0 → blk o = blk o' → o = o'

/-- A resource that is neither free nor held. -/
def Stray (free : ℕ → Bool) (blk : ω → ℕ) (b : ℕ) : Prop :=
  b ≠ 0 ∧ free b = false ∧ ∀ o, blk o ≠ b

theorem Owned.not_free (h : Owned free blk) {b : ℕ} (hb : b ≠ 0) (hfree : free b = true) (o : ω) :
    blk o ≠ b := by
  rintro rfl
  rw [h.used o hb] at hfree
  cases hfree

section moves

variable [DecidableEq ω]

/-- A free resource goes to an owner that has none. -/
theorem Owned.take (h : Owned free blk) {o : ω} {b : ℕ} (hb : b ≠ 0) (hfree : free b = true) :
    Owned (Function.update free b false) (Function.update blk o b) := by
  have hnew : ∀ o', o' ≠ o → Function.update blk o b o' = blk o' := fun o' ho' =>
    Function.update_of_ne ho' _ _
  refine ⟨fun o' ho' => ?_, fun o₁ o₂ h₁ heq => ?_⟩
  · by_cases hoo : o' = o
    · rw [hoo, Function.update_self, Function.update_self]
    · rw [hnew o' hoo] at ho' ⊢
      rw [Function.update_of_ne (h.not_free hb hfree o'), h.used o' ho']
  · by_cases h₁o : o₁ = o <;> by_cases h₂o : o₂ = o
    · rw [h₁o, h₂o]
    · rw [h₁o, Function.update_self, hnew o₂ h₂o] at heq
      exact absurd heq.symm (h.not_free hb hfree o₂)
    · rw [h₂o, Function.update_self, hnew o₁ h₁o] at heq
      exact absurd heq (h.not_free hb hfree o₁)
    · rw [hnew o₁ h₁o] at h₁ heq
      rw [hnew o₂ h₂o] at heq
      exact h.inj o₁ o₂ h₁ heq

/-- An owner gives its resource back. -/
theorem Owned.give (h : Owned free blk) {o : ω} (ho : blk o ≠ 0) :
    Owned (Function.update free (blk o) true) (Function.update blk o 0) := by
  refine ⟨fun o' ho' => ?_, fun o₁ o₂ h₁ heq => ?_⟩
  · have hoo : o' ≠ o := by
      rintro rfl
      exact ho' (Function.update_self _ _ _)
    rw [Function.update_of_ne hoo] at ho' ⊢
    have hne : blk o' ≠ blk o := fun heq => hoo (h.inj o' o ho' heq)
    rw [Function.update_of_ne hne, h.used o' ho']
  · have h₁o : o₁ ≠ o := by
      rintro rfl
      exact h₁ (Function.update_self _ _ _)
    rw [Function.update_of_ne h₁o] at h₁ heq
    have h₂o : o₂ ≠ o := by
      rintro rfl
      rw [Function.update_self] at heq
      exact h₁ heq
    rw [Function.update_of_ne h₂o] at heq
    exact h.inj o₁ o₂ h₁ heq

theorem stray_take {o : ω} {b : ℕ} (ho : blk o = 0) (hfree : free b = true) :
    Stray (Function.update free b false) (Function.update blk o b) = Stray free blk := by
  funext c
  rw [eq_iff_iff]
  constructor
  · rintro ⟨hc, hused, hno⟩
    have hcb : c ≠ b := fun heq => hno o (by rw [Function.update_self, heq])
    rw [Function.update_of_ne hcb] at hused
    refine ⟨hc, hused, fun o' heq => ?_⟩
    have hoo : o' ≠ o := by
      rintro rfl
      exact hc (by rw [← heq, ho])
    exact hno o' (by rw [Function.update_of_ne hoo, heq])
  · rintro ⟨hc, hused, hno⟩
    have hcb : c ≠ b := by
      rintro rfl
      rw [hused] at hfree
      cases hfree
    refine ⟨hc, by rw [Function.update_of_ne hcb, hused], fun o' heq => ?_⟩
    by_cases hoo : o' = o
    · rw [hoo, Function.update_self] at heq
      exact hcb heq.symm
    · rw [Function.update_of_ne hoo] at heq
      exact hno o' heq

theorem stray_give {o : ω} (ho : blk o ≠ 0) :
    Stray (Function.update free (blk o) true) (Function.update blk o 0) = Stray free blk := by
  funext c
  rw [eq_iff_iff]
  constructor
  · rintro ⟨hc, hused, hno⟩
    have hcb : c ≠ blk o := by
      rintro rfl
      rw [Function.update_self] at hused
      cases hused
    rw [Function.update_of_ne hcb] at hused
    refine ⟨hc, hused, fun o' heq => ?_⟩
    have hoo : o' ≠ o := by
      rintro rfl
      exact hcb heq.symm
    exact hno o' (by rw [Function.update_of_ne hoo, heq])
  · rintro ⟨hc, hused, hno⟩
    have hcb : c ≠ blk o := fun heq => hno o heq.symm
    refine ⟨hc, by rw [Function.update_of_ne hcb, hused], fun o' heq => ?_⟩
    by_cases hoo : o' = o
    · rw [hoo, Function.update_self] at heq
      exact hc heq.symm
    · rw [Function.update_of_ne hoo] at heq
      exact hno o' heq

end moves

end Ucore.Lib
