import Mathlib.Data.List.Basic
import Mathlib.Logic.Function.Basic
import Mathlib.Tactic.Common

/-!
# Circular linked lists

A singly linked list is a function `next` on its nodes; `Cyc next l` says that following `next`
leads through the nodes of `l` and back to the first one. The list may be cut open anywhere
(`Cyc.rotate`), so a node and its successor can always be brought to the place where
`Cyc.insert` and `Cyc.remove` apply.

* `walk next p` follows the links up to the first node that satisfies `p`, with a bound on the number
  of steps; `Cyc.walk` says that the length of the list is bound enough if there is such a node.
-/

namespace Ucore.Lib

variable {α : Type} {next next' : α → α} {a b c z : α} {l l₁ l₂ : List α}

/-- The nodes of `l` are linked one to the next, and the last one to `z`. -/
def Linked (next : α → α) : List α → α → Prop
  | [], _ => True
  | a :: l, z => next a = l.headD z ∧ Linked next l z

theorem linked_append :
    Linked next (l₁ ++ l₂) z ↔ Linked next l₁ (l₂.headD z) ∧ Linked next l₂ z := by
  induction l₁ with
  | nil => simp [Linked]
  | cons a l₁ ih =>
    have hhead : (l₁ ++ l₂).headD z = l₁.headD (l₂.headD z) := by cases l₁ <;> rfl
    simp only [List.cons_append, Linked, ih, hhead, and_assoc]

theorem Linked.congr (h : Linked next l z) (heq : ∀ a ∈ l, next' a = next a) : Linked next' l z := by
  induction l with
  | nil => trivial
  | cons a l ih =>
    refine ⟨(heq a List.mem_cons_self).trans h.1, ih h.2 fun x hx => heq x (List.mem_cons_of_mem _ hx)⟩

/-- The nodes of `l` are linked in a circle. -/
def Cyc (next : α → α) : List α → Prop
  | [] => False
  | a :: l => Linked next (a :: l) a

theorem Cyc.ne_nil (h : Cyc next l) : l ≠ [] := by
  rintro rfl
  exact h

theorem Cyc.congr (h : Cyc next l) (heq : ∀ a ∈ l, next' a = next a) : Cyc next' l := by
  cases l with
  | nil => exact h
  | cons a l => exact Linked.congr h heq

/-- A circle can be cut open anywhere. -/
theorem Cyc.rotate (h : Cyc next (l₁ ++ l₂)) : Cyc next (l₂ ++ l₁) := by
  cases l₁ with
  | nil => simpa using h
  | cons a l₁ =>
    cases l₂ with
    | nil => simpa using h
    | cons b l₂ =>
      obtain ⟨h₁, h₂⟩ := linked_append.mp (show Linked next ((a :: l₁) ++ (b :: l₂)) a from h)
      exact linked_append.mpr ⟨h₂, h₁⟩

/-- The link of the last node leads to the first one. -/
theorem Cyc.next_last (h : Cyc next (l ++ [c])) : next c = l.headD c := by
  cases l with
  | nil => exact h.1
  | cons a l => exact (linked_append.mp (show Linked next ((a :: l) ++ [c]) a from h)).2.1

theorem Cyc.next_cons (h : Cyc next (a :: b :: l)) : next a = b := h.1

/-- The link of a node leads to the node behind it. -/
theorem Cyc.next_append (h : Cyc next (l₁ ++ a :: b :: l₂)) : next a = b :=
  h.rotate.next_cons

theorem Cyc.next_mem (h : Cyc next l) (ha : a ∈ l) : next a ∈ l := by
  obtain ⟨l₁, l₂, rfl⟩ := List.append_of_mem ha
  cases l₂ with
  | nil =>
    rw [h.next_last]
    cases l₁ <;> simp
  | cons b l₂ =>
    rw [h.next_append]
    simp

theorem Cyc.exists_prev (h : Cyc next l) (ha : a ∈ l) : ∃ x ∈ l, next x = a := by
  obtain ⟨l₁, l₂, rfl⟩ := List.append_of_mem ha
  have hcyc := h.rotate
  rw [List.cons_append] at hcyc
  obtain ⟨l, c, hl⟩ : ∃ l c, a :: (l₂ ++ l₁) = l ++ [c] :=
    ⟨_, _, (List.dropLast_append_getLast (List.cons_ne_nil _ _)).symm⟩
  have hc : c ∈ a :: (l₂ ++ l₁) := by
    rw [hl]
    simp
  refine ⟨c, ?_, ?_⟩
  · simp only [List.mem_cons, List.mem_append] at hc ⊢
    tauto
  · rw [hl] at hcyc
    rw [hcyc.next_last]
    cases l with
    | nil => exact (List.cons.inj hl).1.symm
    | cons y l => exact (List.cons.inj hl).1.symm

/-- Only the last node is linked to the first one. -/
theorem Cyc.eq_last (h : Cyc next (b :: l)) (hnodup : (b :: l).Nodup) (hl : b :: l = l₁ ++ [c])
    (ha : a ∈ b :: l) (hnext : next a = b) : a = c := by
  rw [hl] at ha
  by_contra hne
  have hmem : a ∈ l₁ := by
    rcases List.mem_append.mp ha with ha | ha
    · exact ha
    · exact absurd (List.mem_singleton.mp ha) hne
  obtain ⟨l₂, l₃, rfl⟩ := List.append_of_mem hmem
  -- the node behind `a` is not the first one
  obtain ⟨y, l₄, htail⟩ : ∃ y l₄, l₃ ++ [c] = y :: l₄ := by
    cases l₃ with
    | nil => exact ⟨c, [], rfl⟩
    | cons y l₃ => exact ⟨y, l₃ ++ [c], rfl⟩
  rw [List.append_assoc, List.cons_append, htail] at hl
  rw [hl] at h hnodup
  have hay := h.next_append
  rw [hnext] at hay
  subst hay
  cases l₂ with
  | nil =>
    obtain ⟨rfl, -⟩ := List.cons.inj hl
    simp at hnodup
  | cons x l₂ =>
    obtain ⟨rfl, -⟩ := List.cons.inj hl
    simp at hnodup

/-- A node that is linked to itself is alone. -/
theorem Cyc.eq_of_next_self (h : Cyc next l) (hnodup : l.Nodup) (ha : a ∈ l) (hself : next a = a)
    (hb : b ∈ l) : b = a := by
  obtain ⟨l₁, l₂, rfl⟩ := List.append_of_mem ha
  have hcyc := h.rotate
  have hnodup' := List.perm_append_comm.nodup hnodup
  have hb' : b ∈ (a :: l₂) ++ l₁ := List.perm_append_comm.mem_iff.mp hb
  rw [List.cons_append] at hcyc hnodup' hb'
  cases hl : l₂ ++ l₁ with
  | nil =>
    rw [hl] at hb'
    exact List.mem_singleton.mp hb'
  | cons y l =>
    rw [hl] at hcyc hnodup'
    rw [hcyc.next_cons] at hself
    subst hself
    simp at hnodup'

section update

variable [DecidableEq α]

/-- A node is put between the last node and the first one. -/
theorem Cyc.insert (h : Cyc next (l ++ [c])) (hb : b ∉ l ++ [c]) (hc : c ∉ l) :
    Cyc (Function.update (Function.update next b (next c)) c b) (b :: (l ++ [c])) := by
  have hbc : b ≠ c := fun heq => hb (by simp [heq])
  have hnext := h.next_last
  have hlast : Function.update (Function.update next b (next c)) c b c = b := Function.update_self ..
  have hfirst : Function.update (Function.update next b (next c)) c b b = next c := by
    rw [Function.update_of_ne hbc, Function.update_self]
  have hrest : ∀ x ∈ l, Function.update (Function.update next b (next c)) c b x = next x := by
    intro x hx
    have hxc : x ≠ c := fun heq => hc (heq ▸ hx)
    have hxb : x ≠ b := fun heq => hb (heq ▸ List.mem_append_left _ hx)
    rw [Function.update_of_ne hxc, Function.update_of_ne hxb]
  cases l with
  | nil => exact ⟨hfirst.trans hnext, hlast, trivial⟩
  | cons a l =>
    have hl := (linked_append.mp (show Linked next ((a :: l) ++ [c]) a from h)).1
    exact ⟨hfirst.trans hnext, linked_append.mpr ⟨hl.congr hrest, hlast, trivial⟩⟩

/-- The first node is taken out. -/
theorem Cyc.remove (h : Cyc next (b :: (l ++ [c]))) (hc : c ∉ l) :
    Cyc (Function.update next c (next b)) (l ++ [c]) := by
  have hb : next b = (l ++ [c]).headD b := h.1
  have hlast : Function.update next c (next b) c = l.headD c := by
    rw [Function.update_self, hb]
    cases l <;> rfl
  cases l with
  | nil => exact ⟨hlast, trivial⟩
  | cons a l =>
    have hl := (linked_append.mp (show Linked next ((a :: l) ++ [c]) b from h.2)).1
    show Linked _ ((a :: l) ++ [c]) a
    refine linked_append.mpr ⟨hl.congr fun x hx => ?_, hlast, trivial⟩
    have hxc : x ≠ c := fun heq => hc (heq ▸ hx)
    exact Function.update_of_ne hxc _ _

end update

/-! ### Walking along the links -/

/-- The first node from `a` on that satisfies `p`, among the next `n` nodes. -/
def walk (next : α → α) (p : α → Prop) [DecidablePred p] : ℕ → α → Option α
  | 0, _ => none
  | n + 1, a => if p a then some a else walk next p n (next a)

variable {p : α → Prop} [DecidablePred p] {n : ℕ}

/-- A walk along the nodes of a linked list ends at the first one that satisfies `p`. -/
theorem Linked.walk (h : Linked next l z) (hex : ∃ a ∈ l, p a) (hn : l.length ≤ n) :
    ∃ l₁ a l₂, l = l₁ ++ a :: l₂ ∧ Lib.walk next p n (l.headD z) = some a ∧ p a ∧ ∀ x ∈ l₁, ¬ p x := by
  induction l generalizing n with
  | nil => obtain ⟨a, ha, -⟩ := hex; cases ha
  | cons c l ih =>
    obtain ⟨n, rfl⟩ := Nat.exists_eq_succ_of_ne_zero (n := n) (by simp at hn; omega)
    by_cases hc : p c
    · exact ⟨[], c, l, rfl, by simp [Lib.walk, hc], hc, by simp⟩
    · have hex' : ∃ a ∈ l, p a := by
        obtain ⟨a, ha, hpa⟩ := hex
        rcases List.mem_cons.mp ha with rfl | ha
        · exact absurd hpa hc
        · exact ⟨a, ha, hpa⟩
      obtain ⟨l₁, a, l₂, rfl, hwalk, hpa, hno⟩ := ih h.2 hex' (by simpa using hn)
      refine ⟨c :: l₁, a, l₂, rfl, ?_, hpa, fun x hx => ?_⟩
      · rw [List.headD_cons, Lib.walk, if_neg hc, h.1, ← hwalk]
      · rcases List.mem_cons.mp hx with rfl | hx
        · exact hc
        · exact hno x hx

end Ucore.Lib
