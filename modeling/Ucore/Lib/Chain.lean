import Mathlib.Data.List.Nodup
import Mathlib.Tactic.Common

/-!
# Chains that end with a null pointer

`Chain next l z` says that following `next` leads through the nodes of `l` and then to `z`. A list that is linked in
both directions is a chain along the one link, and its reverse is a chain along the other one: `Chained`.

* `Chain.remove` takes a node out and `Chain.concat` puts one at the end, whichever of the two directions it is.
* `Chained.push` and `Chained.remove` are the two together.
-/

namespace Ucore.Lib

variable {α : Type} {next next' prev prev' : α → Option α} {a : α} {l l₁ l₂ : List α} {z : Option α}

/-- The nodes of `l` are linked one to the next, and the last one to `z`. -/
def Chain (next : α → Option α) : List α → Option α → Prop
  | [], _ => True
  | a :: l, z => next a = l.head?.or z ∧ Chain next l z

theorem chain_append : Chain next (l₁ ++ l₂) z ↔ Chain next l₁ (l₂.head?.or z) ∧ Chain next l₂ z := by
  induction l₁ with
  | nil => simp [Chain]
  | cons a l₁ ih =>
    have hhead : (l₁ ++ l₂).head?.or z = l₁.head?.or (l₂.head?.or z) := by cases l₁ <;> rfl
    simp only [List.cons_append, Chain, ih, hhead, and_assoc]

theorem Chain.congr (h : Chain next l z) (heq : ∀ a ∈ l, next' a = next a) : Chain next' l z := by
  induction l with
  | nil => trivial
  | cons a l ih =>
    exact ⟨(heq a List.mem_cons_self).trans h.1, ih h.2 fun x hx => heq x (List.mem_cons_of_mem _ hx)⟩

/-- The first node of a chain is followed by the second one. -/
theorem Chain.next_cons (h : Chain next (a :: l) z) : next a = l.head?.or z := h.1

theorem Chain.tail (h : Chain next (a :: l) z) : Chain next l z := h.2

/-- The chain ends somewhere else. -/
theorem Chain.last {y : Option α} (h : Chain next l z) (hnodup : l.Nodup)
    (hlast : ∀ b, l.getLast? = some b → next' b = y)
    (hother : ∀ b ∈ l, l.getLast? ≠ some b → next' b = next b) : Chain next' l y := by
  induction l with
  | nil => trivial
  | cons a l ih =>
    obtain ⟨ha, hl⟩ := List.nodup_cons.mp hnodup
    cases l with
    | nil => exact ⟨hlast a rfl, trivial⟩
    | cons b l =>
      have hgetLast : (a :: b :: l).getLast? = (b :: l).getLast? := List.getLast?_cons_cons
      have hne : (b :: l).getLast? ≠ some a := fun heq => ha (List.mem_of_getLast? heq)
      refine ⟨?_, ih h.2 hl (fun x hx => hlast x (hgetLast.trans hx)) fun x hx hxl =>
        hother x (List.mem_cons_of_mem _ hx) (by rw [hgetLast]; exact hxl)⟩
      rw [hother a List.mem_cons_self (by rw [hgetLast]; exact hne)]
      exact h.1

/-- A node is taken out: the one in front of it gets its link. -/
theorem Chain.remove (h : Chain next (l₁ ++ a :: l₂) z) (hnodup : (l₁ ++ a :: l₂).Nodup)
    (hlast : ∀ b, l₁.getLast? = some b → next' b = next a)
    (hother : ∀ b ∈ l₁ ++ l₂, l₁.getLast? ≠ some b → next' b = next b) : Chain next' (l₁ ++ l₂) z := by
  obtain ⟨h₁, h₂⟩ := chain_append.mp h
  have hnodup₁ : l₁.Nodup := (List.nodup_append.mp hnodup).1
  have hdisj : ∀ b ∈ l₂, b ∉ l₁ := fun b hb hb₁ =>
    (List.nodup_append.mp hnodup).2.2 b hb₁ b (List.mem_cons_of_mem _ hb) rfl
  refine chain_append.mpr ⟨h₁.last hnodup₁ (fun b hb => ?_) fun b hb hne => ?_, h₂.tail.congr fun b hb => ?_⟩
  · rw [hlast b hb, h₂.next_cons]
  · exact hother b (List.mem_append_left _ hb) hne
  · refine hother b (List.mem_append_right _ hb) fun heq => ?_
    exact hdisj b hb (List.mem_of_getLast? heq)

/-- A node is put at the end. -/
theorem Chain.concat (h : Chain next l z) (hnodup : (l ++ [a]).Nodup) (ha : next' a = z)
    (hlast : ∀ b, l.getLast? = some b → next' b = some a)
    (hother : ∀ b ∈ l, l.getLast? ≠ some b → next' b = next b) : Chain next' (l ++ [a]) z := by
  refine chain_append.mpr ⟨?_, ha, trivial⟩
  exact h.last (List.nodup_append.mp hnodup).1 hlast hother

/-- A list that is linked in both directions, with a null pointer at both ends. -/
structure Chained (next prev : α → Option α) (l : List α) : Prop where
  nodup : l.Nodup
  fwd : Chain next l none
  bwd : Chain prev l.reverse none

theorem Chained.nil : Chained next prev [] := ⟨List.nodup_nil, trivial, trivial⟩

theorem Chained.congr (h : Chained next prev l) (hnext : ∀ a ∈ l, next' a = next a)
    (hprev : ∀ a ∈ l, prev' a = prev a) : Chained next' prev' l :=
  ⟨h.nodup, h.fwd.congr hnext, h.bwd.congr fun a ha => hprev a (List.mem_reverse.mp ha)⟩

/-- The links of a node lead to its neighbours. -/
theorem Chained.links (h : Chained next prev (l₁ ++ a :: l₂)) : next a = l₂.head? ∧ prev a = l₁.getLast? := by
  have hfwd := (chain_append.mp h.fwd).2.next_cons
  have hbwd := h.bwd
  rw [List.reverse_append, List.reverse_cons, List.append_assoc] at hbwd
  have hbwd := (chain_append.mp hbwd).2.next_cons
  rw [Option.or_none] at hfwd hbwd
  exact ⟨hfwd, hbwd.trans List.head?_reverse⟩

/-- A node is put in front. -/
theorem Chained.push (h : Chained next prev l) (ha : a ∉ l) (hnext : next' a = l.head?) (hprev : prev' a = none)
    (hhead : ∀ b, l.head? = some b → prev' b = some a) (hnext' : ∀ b ∈ l, next' b = next b)
    (hprev' : ∀ b ∈ l, l.head? ≠ some b → prev' b = prev b) : Chained next' prev' (a :: l) := by
  have hnodup : (a :: l).Nodup := List.nodup_cons.mpr ⟨ha, h.nodup⟩
  refine ⟨hnodup, ⟨by rw [hnext, Option.or_none], h.fwd.congr hnext'⟩, ?_⟩
  rw [List.reverse_cons]
  refine h.bwd.concat ?_ hprev (fun b hb => ?_) fun b hb hne => ?_
  · rw [← List.reverse_cons]
    exact List.nodup_reverse.2 hnodup
  · rw [List.getLast?_reverse] at hb
    exact hhead b hb
  · rw [List.getLast?_reverse] at hne
    exact hprev' b (List.mem_reverse.mp hb) hne

/-- A node is taken out. -/
theorem Chained.remove (h : Chained next prev (l₁ ++ a :: l₂))
    (hlast : ∀ b, l₁.getLast? = some b → next' b = next a)
    (hhead : ∀ b, l₂.head? = some b → prev' b = prev a)
    (hnext' : ∀ b ∈ l₁ ++ l₂, l₁.getLast? ≠ some b → next' b = next b)
    (hprev' : ∀ b ∈ l₁ ++ l₂, l₂.head? ≠ some b → prev' b = prev b) : Chained next' prev' (l₁ ++ l₂) := by
  have hbwd := h.bwd
  have hrev : (l₁ ++ a :: l₂).reverse.Nodup := List.nodup_reverse.2 h.nodup
  rw [List.reverse_append, List.reverse_cons, List.append_assoc] at hbwd hrev
  refine ⟨h.nodup.sublist (List.Sublist.append_left (List.sublist_cons_self _ _) _),
    h.fwd.remove h.nodup hlast hnext', ?_⟩
  rw [List.reverse_append]
  refine hbwd.remove hrev (fun b hb => ?_) fun b hb hne => ?_
  · rw [List.getLast?_reverse] at hb
    exact hhead b hb
  · rw [List.getLast?_reverse] at hne
    have hmem : b ∈ (l₁ ++ l₂).reverse := by
      rw [List.reverse_append]
      exact hb
    exact hprev' b (List.mem_reverse.mp hmem) hne

end Ucore.Lib
