import Mathlib.Data.List.Nodup
import Mathlib.Data.List.Perm.Basic
import Mathlib.Logic.Function.Basic
import Mathlib.Tactic.Common

/-!
# Skew heaps

Binary trees with the skew merge, and how they are represented by nodes that point to one another.

* `BinTree.merge lt` merges two trees along their right spines and swaps the children on the way. It keeps the nodes
  (`nodes_merge`) and the order of the heap (`Ordered.merge`); the latter asks only that `lt` is asymmetric on them.
* `BinTree.remove` puts the merge of the two children of a node in its place. For this to keep the order, `lt` has to be
  a `WeakOrder`; then the root is a minimum (`Ordered.root_le`).
* `Rep M t` says that the memory `M` holds the tree `t`: each node points to its children, and the children point back.
  Nothing is said of the parent of the root. `Rep.replace` puts another tree in the place of a subtree.
-/

namespace Ucore.Lib

variable {α : Type}

/-- Binary trees. -/
inductive BinTree (α : Type) where
  | nil
  | node (l : BinTree α) (a : α) (r : BinTree α)
  deriving Repr, DecidableEq

/-- A strict order in which all elements that are not comparable are equal. -/
structure WeakOrder (lt : α → α → Prop) : Prop where
  asymm : ∀ a b, lt a b → ¬ lt b a
  trans : ∀ a b c, ¬ lt b a → ¬ lt c b → ¬ lt c a

theorem WeakOrder.of_total {le : α → α → Prop} (htotal : ∀ a b, le a b ∨ le b a)
    (htrans : ∀ a b c, le a b → le b c → le a c) : WeakOrder fun a b => ¬ le b a where
  asymm a b hba hab := (htotal a b).elim hab hba
  trans a b c hab hbc hac := hac (htrans a b c (not_not.mp hab) (not_not.mp hbc))

namespace BinTree

/-- The root of a tree that is not empty. -/
def root : BinTree α → Option α
  | nil => none
  | node _ a _ => some a

/-- The nodes, each of them before its subtrees. -/
def nodes : BinTree α → List α
  | nil => []
  | node l a r => a :: (l.nodes ++ r.nodes)

/-- The number of nodes. -/
def size : BinTree α → ℕ
  | nil => 0
  | node l _ r => l.size + r.size + 1

/-- The two subtrees at the root. -/
def left : BinTree α → BinTree α
  | nil => nil
  | node l _ _ => l

@[inherit_doc left] def right : BinTree α → BinTree α
  | nil => nil
  | node _ _ r => r

variable {t t₁ t₂ s l r : BinTree α} {a b x : α}

@[simp] theorem root_node : (node l a r).root = some a := rfl

@[simp] theorem root_nil : (nil : BinTree α).root = none := rfl

theorem length_nodes (t : BinTree α) : t.nodes.length = t.size := by
  induction t with
  | nil => rfl
  | node l a r ihl ihr => rw [nodes, List.length_cons, List.length_append, ihl, ihr, size]

theorem mem_nodes_node : x ∈ (node l a r).nodes ↔ x = a ∨ x ∈ l.nodes ∨ x ∈ r.nodes := by
  rw [nodes, List.mem_cons, List.mem_append]

theorem mem_of_root (h : t.root = some x) : x ∈ t.nodes := by
  cases t with
  | nil => cases h
  | node l a r => exact mem_nodes_node.mpr (Or.inl (Option.some.inj h).symm)

theorem root_eq_none : t.root = none ↔ t = nil := by
  cases t with
  | nil => exact iff_of_true rfl rfl
  | node l a r => exact iff_of_false nofun nofun

theorem nodup_node : (node l a r).nodes.Nodup ↔
    (a ∉ l.nodes ∧ a ∉ r.nodes) ∧ l.nodes.Nodup ∧ r.nodes.Nodup ∧ ∀ x ∈ l.nodes, x ∉ r.nodes := by
  rw [nodes, List.nodup_cons, List.mem_append, not_or, List.nodup_append']
  rfl

/-! ### Merging -/

section merge

variable (lt : α → α → Prop) [DecidableRel lt]

/-- The skew merge. -/
def merge (t₁ t₂ : BinTree α) : BinTree α :=
  match t₁, t₂ with
  | nil, t₂ => t₂
  | node l a r, nil => node l a r
  | node l a r, node l' b r' =>
    if lt a b then node (merge r (node l' b r')) a l else node (merge (node l a r) r') b l'
termination_by t₁.size + t₂.size
decreasing_by all_goals simp only [size]; omega

@[simp] theorem merge_nil_left (t : BinTree α) : merge lt nil t = t := by rw [merge]

@[simp] theorem merge_nil_right (t : BinTree α) : merge lt t nil = t := by
  cases t with
  | nil => rw [merge]
  | node l a r => rw [merge]

theorem merge_node (l r l' r' : BinTree α) (a b : α) : merge lt (node l a r) (node l' b r') =
    if lt a b then node (merge lt r (node l' b r')) a l else node (merge lt (node l a r) r') b l' := by
  rw [merge]

/-- The nodes of a merge are those of the two trees. -/
theorem nodes_merge (t₁ t₂ : BinTree α) : (merge lt t₁ t₂).nodes.Perm (t₁.nodes ++ t₂.nodes) := by
  induction t₁, t₂ using merge.induct lt with
  | case1 t₂ => rw [merge_nil_left, nodes, List.nil_append]
  | case2 l a r => rw [merge_nil_right, nodes.eq_1, List.append_nil]
  | case3 l a r l' b r' hlt ih =>
    rw [merge_node, if_pos hlt, nodes, nodes, List.cons_append]
    refine List.Perm.cons a ((ih.append_right l.nodes).trans ?_)
    exact List.perm_append_comm.trans (by rw [List.append_assoc])
  | case4 l a r l' b r' hlt ih =>
    rw [merge_node, if_neg hlt, nodes]
    refine (List.Perm.cons b (ih.append_right l'.nodes)).trans ?_
    rw [show (node l' b r').nodes = b :: (l'.nodes ++ r'.nodes) from rfl]
    refine List.Perm.trans ?_ List.perm_middle.symm
    refine List.Perm.cons b ?_
    rw [List.append_assoc]
    exact List.Perm.append_left _ List.perm_append_comm

theorem mem_nodes_merge : x ∈ (merge lt t₁ t₂).nodes ↔ x ∈ t₁.nodes ∨ x ∈ t₂.nodes := by
  rw [(nodes_merge lt t₁ t₂).mem_iff, List.mem_append]

/-- The root of a merge is one of the two roots. -/
theorem root_merge (t₁ t₂ : BinTree α) : (merge lt t₁ t₂).root = t₁.root ∨ (merge lt t₁ t₂).root = t₂.root := by
  cases t₁ with
  | nil => exact Or.inr (by rw [merge_nil_left])
  | node l a r =>
    cases t₂ with
    | nil => exact Or.inl (by rw [merge_nil_right])
    | node l' b r' =>
      rw [merge_node]
      split_ifs
      · exact Or.inl rfl
      · exact Or.inr rfl

end merge

/-! ### The order of a heap -/

section order

variable {lt : α → α → Prop}

/-- No node is less than its parent. -/
def Ordered (lt : α → α → Prop) : BinTree α → Prop
  | nil => True
  | node l a r => (∀ x, l.root = some x → ¬ lt x a) ∧ (∀ x, r.root = some x → ¬ lt x a) ∧ l.Ordered lt ∧ r.Ordered lt

theorem ordered_singleton (a : α) : (node nil a nil).Ordered lt :=
  ⟨fun _ h => absurd h.symm (Option.some_ne_none _), fun _ h => absurd h.symm (Option.some_ne_none _), trivial, trivial⟩

/-- The root is a minimum. -/
theorem Ordered.root_le (hlt : WeakOrder lt) (h : t.Ordered lt) (hroot : t.root = some a) (hx : x ∈ t.nodes) :
    ¬ lt x a := by
  induction t generalizing a with
  | nil => cases hroot
  | node l b r ihl ihr =>
    cases hroot
    obtain ⟨hl, hr, hol, hor⟩ := h
    rcases mem_nodes_node.mp hx with rfl | hx | hx
    · exact fun hself => hlt.asymm x x hself hself
    · cases hroot : l.root with
      | none =>
        rw [root_eq_none] at hroot
        rw [hroot] at hx
        exact absurd hx List.not_mem_nil
      | some c => exact hlt.trans b c x (hl c hroot) (ihl hol hroot hx)
    · cases hroot : r.root with
      | none =>
        rw [root_eq_none] at hroot
        rw [hroot] at hx
        exact absurd hx List.not_mem_nil
      | some c => exact hlt.trans b c x (hr c hroot) (ihr hor hroot hx)

/-- The order of a tree depends on how its nodes compare. -/
theorem Ordered.congr {lt' : α → α → Prop} (h : t.Ordered lt) (hlt : ∀ a ∈ t.nodes, ∀ b ∈ t.nodes, lt' a b → lt a b) :
    t.Ordered lt' := by
  induction t with
  | nil => trivial
  | node l a r ihl ihr =>
    obtain ⟨hl, hr, hol, hor⟩ := h
    have ha : a ∈ (node l a r).nodes := mem_nodes_node.mpr (Or.inl rfl)
    have hinl : ∀ x ∈ l.nodes, x ∈ (node l a r).nodes := fun x hx => mem_nodes_node.mpr (Or.inr (Or.inl hx))
    have hinr : ∀ x ∈ r.nodes, x ∈ (node l a r).nodes := fun x hx => mem_nodes_node.mpr (Or.inr (Or.inr hx))
    refine ⟨fun x hx hlt' => hl x hx (hlt x (hinl x (mem_of_root hx)) a ha hlt'),
      fun x hx hlt' => hr x hx (hlt x (hinr x (mem_of_root hx)) a ha hlt'), ?_, ?_⟩
    · exact ihl hol fun x hx y hy => hlt x (hinl x hx) y (hinl y hy)
    · exact ihr hor fun x hx y hy => hlt x (hinr x hx) y (hinr y hy)

theorem Ordered.of_not_lt (h : ∀ a ∈ t.nodes, ∀ b ∈ t.nodes, ¬ lt a b) : t.Ordered lt := by
  have htriv : t.Ordered fun _ _ => False := by
    induction t with
    | nil => trivial
    | node l a r ihl ihr =>
      refine ⟨fun _ _ => id, fun _ _ => id, ihl fun x hx y hy => ?_, ihr fun x hx y hy => ?_⟩
      · exact h x (mem_nodes_node.mpr (Or.inr (Or.inl hx))) y (mem_nodes_node.mpr (Or.inr (Or.inl hy)))
      · exact h x (mem_nodes_node.mpr (Or.inr (Or.inr hx))) y (mem_nodes_node.mpr (Or.inr (Or.inr hy)))
  exact htriv.congr h

/-- **Merging keeps the order**, when `lt` is asymmetric between the nodes of the two trees. -/
theorem Ordered.merge [DecidableRel lt] (t₁ t₂ : BinTree α) (h₁ : t₁.Ordered lt) (h₂ : t₂.Ordered lt)
    (hasymm : ∀ a ∈ t₁.nodes, ∀ b ∈ t₂.nodes, lt a b → ¬ lt b a) : (BinTree.merge lt t₁ t₂).Ordered lt := by
  induction t₁, t₂ using BinTree.merge.induct lt with
  | case1 t₂ =>
    rw [merge_nil_left]
    exact h₂
  | case2 l a r =>
    rw [merge_nil_right]
    exact h₁
  | case3 l a r l' b r' hab ih =>
    rw [merge_node, if_pos hab]
    obtain ⟨hl, hr, hol, hor⟩ := h₁
    refine ⟨fun x hx => ?_, hl, ih hor h₂ fun x hx => hasymm x (mem_nodes_node.mpr (Or.inr (Or.inr hx))), hol⟩
    rcases root_merge lt r (node l' b r') with hroot | hroot <;> rw [hroot] at hx
    · exact hr x hx
    · cases hx
      exact hasymm _ (mem_nodes_node.mpr (Or.inl rfl)) _ (mem_nodes_node.mpr (Or.inl rfl)) hab
  | case4 l a r l' b r' hab ih =>
    rw [merge_node, if_neg hab]
    obtain ⟨hl, hr, hol, hor⟩ := h₂
    refine ⟨fun x hx => ?_, hl, ih h₁ hor fun x hx y hy => hasymm x hx y (mem_nodes_node.mpr (Or.inr (Or.inr hy))), hol⟩
    rcases root_merge lt (node l a r) r' with hroot | hroot <;> rw [hroot] at hx
    · cases hx
      exact hab
    · exact hr x hx

end order

/-! ### Subtrees -/

section replace

variable [DecidableEq α]

/-- The subtree with the root `b`. -/
def sub (b : α) : BinTree α → BinTree α
  | nil => nil
  | node l a r => if a = b then node l a r else if b ∈ l.nodes then l.sub b else r.sub b

/-- The tree with `s` in the place of the subtree with the root `b`. -/
def replace : BinTree α → α → BinTree α → BinTree α
  | nil, _, _ => nil
  | node l a r, b, s => if a = b then s else node (l.replace b s) a (r.replace b s)

theorem sub_left (ha : a ≠ b) (hb : b ∈ l.nodes) : (node l a r).sub b = l.sub b := by
  rw [sub, if_neg ha, if_pos hb]

theorem sub_right (ha : a ≠ b) (hb : b ∉ l.nodes) : (node l a r).sub b = r.sub b := by
  rw [sub, if_neg ha, if_neg hb]

theorem sub_of_root (h : t.root = some b) : t.sub b = t := by
  cases t with
  | nil => cases h
  | node l a r => rw [sub, if_pos (Option.some.inj h)]

theorem replace_of_root (h : t.root = some b) (s : BinTree α) : t.replace b s = s := by
  cases t with
  | nil => cases h
  | node l a r => rw [replace, if_pos (Option.some.inj h)]

theorem replace_of_not_mem (hb : b ∉ t.nodes) (s : BinTree α) : t.replace b s = t := by
  induction t with
  | nil => rfl
  | node l a r ihl ihr =>
    rw [mem_nodes_node, not_or, not_or] at hb
    rw [replace, if_neg (Ne.symm hb.1), ihl hb.2.1, ihr hb.2.2]

theorem root_replace (h : t.root ≠ some b) (s : BinTree α) : (t.replace b s).root = t.root := by
  cases t with
  | nil => rfl
  | node l a r =>
    rw [replace, if_neg]
    · rfl
    · rintro rfl
      exact h rfl

theorem root_sub (hb : b ∈ t.nodes) : (t.sub b).root = some b := by
  induction t with
  | nil => exact absurd hb List.not_mem_nil
  | node l a r ihl ihr =>
    by_cases ha : a = b
    · rw [sub_of_root (by rw [ha]; rfl), ha]
      rfl
    by_cases hl : b ∈ l.nodes
    · rw [sub_left ha hl, ihl hl]
    · rw [sub_right ha hl]
      exact ihr (((mem_nodes_node.mp hb).resolve_left (Ne.symm ha)).resolve_left hl)

/-- The subtree is a tree with the root `b`. -/
theorem exists_sub (hb : b ∈ t.nodes) : ∃ l r, t.sub b = node l b r := by
  have hroot := root_sub hb
  cases hsub : t.sub b with
  | nil =>
    rw [hsub] at hroot
    cases hroot
  | node l a r =>
    rw [hsub] at hroot
    cases hroot
    exact ⟨l, r, rfl⟩

theorem sublist_sub (t : BinTree α) (b : α) : (t.sub b).nodes.Sublist t.nodes := by
  induction t with
  | nil => exact List.Sublist.refl _
  | node l a r ihl ihr =>
    rw [sub]
    split_ifs
    · exact List.Sublist.refl _
    · exact (ihl.trans (List.sublist_append_left _ _)).trans (List.sublist_cons_self _ _)
    · exact (ihr.trans (List.sublist_append_right _ _)).trans (List.sublist_cons_self _ _)

/-- The root is in no other subtree. -/
theorem root_not_mem_sub (hnodup : t.nodes.Nodup) (hroot : t.root = some a) (hab : a ≠ b) : a ∉ (t.sub b).nodes := by
  cases t with
  | nil => cases hroot
  | node l c r =>
    cases hroot
    obtain ⟨⟨hl, hr⟩, -⟩ := nodup_node.mp hnodup
    rw [sub, if_neg hab]
    split_ifs
    · exact fun hmem => hl ((sublist_sub l b).subset hmem)
    · exact fun hmem => hr ((sublist_sub r b).subset hmem)

/-- What is outside of the subtree stays. -/
theorem nodes_replace (hnodup : t.nodes.Nodup) (hb : b ∈ t.nodes) (s : BinTree α) :
    x ∈ (t.replace b s).nodes ↔ x ∈ s.nodes ∨ x ∈ t.nodes ∧ x ∉ (t.sub b).nodes := by
  induction t with
  | nil => exact absurd hb List.not_mem_nil
  | node l a r ihl ihr =>
    obtain ⟨⟨hal, har⟩, hl, hr, hdisj⟩ := nodup_node.mp hnodup
    by_cases ha : a = b
    · have hroot : (node l a r).root = some b := by rw [ha]; rfl
      rw [replace_of_root hroot, sub_of_root hroot]
      simp
    have hout : a ∉ ((node l a r).sub b).nodes := root_not_mem_sub hnodup rfl ha
    rw [replace, if_neg ha, mem_nodes_node, mem_nodes_node]
    by_cases hbl : b ∈ l.nodes
    · have hxr : x ∈ r.nodes → x ∉ (l.sub b).nodes := fun hx hxs => hdisj x ((sublist_sub l b).subset hxs) hx
      rw [sub_left ha hbl] at hout ⊢
      rw [replace_of_not_mem (hdisj b hbl), ihl hl hbl]
      constructor
      · rintro (rfl | (hx | ⟨hx, hxs⟩) | hx)
        · exact Or.inr ⟨Or.inl rfl, hout⟩
        · exact Or.inl hx
        · exact Or.inr ⟨Or.inr (Or.inl hx), hxs⟩
        · exact Or.inr ⟨Or.inr (Or.inr hx), hxr hx⟩
      · rintro (hx | ⟨rfl | hx | hx, hxs⟩)
        · exact Or.inr (Or.inl (Or.inl hx))
        · exact Or.inl rfl
        · exact Or.inr (Or.inl (Or.inr ⟨hx, hxs⟩))
        · exact Or.inr (Or.inr hx)
    · have hbr : b ∈ r.nodes := ((mem_nodes_node.mp hb).resolve_left (Ne.symm ha)).resolve_left hbl
      have hxl : x ∈ l.nodes → x ∉ (r.sub b).nodes := fun hx hxs => hdisj x hx ((sublist_sub r b).subset hxs)
      rw [sub_right ha hbl] at hout ⊢
      rw [replace_of_not_mem hbl, ihr hr hbr]
      constructor
      · rintro (rfl | hx | hx | ⟨hx, hxs⟩)
        · exact Or.inr ⟨Or.inl rfl, hout⟩
        · exact Or.inr ⟨Or.inr (Or.inl hx), hxl hx⟩
        · exact Or.inl hx
        · exact Or.inr ⟨Or.inr (Or.inr hx), hxs⟩
      · rintro (hx | ⟨rfl | hx | hx, hxs⟩)
        · exact Or.inr (Or.inr (Or.inl hx))
        · exact Or.inl rfl
        · exact Or.inr (Or.inl hx)
        · exact Or.inr (Or.inr (Or.inr ⟨hx, hxs⟩))

theorem nodup_replace (hnodup : t.nodes.Nodup) (hs : s.nodes.Nodup) (hsub : ∀ x ∈ s.nodes, x ∈ (t.sub b).nodes) :
    (t.replace b s).nodes.Nodup := by
  induction t with
  | nil => exact List.nodup_nil
  | node l a r ihl ihr =>
    obtain ⟨⟨hal, har⟩, hl, hr, hdisj⟩ := nodup_node.mp hnodup
    by_cases ha : a = b
    · rw [replace_of_root (by rw [ha]; rfl)]
      exact hs
    rw [replace, if_neg ha]
    by_cases hbl : b ∈ l.nodes
    · rw [sub_left ha hbl] at hsub
      have hin : ∀ x ∈ (l.replace b s).nodes, x ∈ l.nodes := fun x hx =>
        ((nodes_replace hl hbl s).mp hx).elim (fun h => (sublist_sub l b).subset (hsub x h)) And.left
      rw [replace_of_not_mem (hdisj b hbl)]
      exact nodup_node.mpr ⟨⟨fun h => hal (hin a h), har⟩, ihl hl hsub, hr, fun x hx => hdisj x (hin x hx)⟩
    · rw [replace_of_not_mem hbl]
      by_cases hbr : b ∈ r.nodes
      · rw [sub_right ha hbl] at hsub
        have hin : ∀ x ∈ (r.replace b s).nodes, x ∈ r.nodes := fun x hx =>
          ((nodes_replace hr hbr s).mp hx).elim (fun h => (sublist_sub r b).subset (hsub x h)) And.left
        exact nodup_node.mpr ⟨⟨hal, fun h => har (hin a h)⟩, hl, ihr hr hsub, fun x hx hxr => hdisj x hx (hin x hxr)⟩
      · rw [replace_of_not_mem hbr]
        exact hnodup

theorem Ordered.sub {lt : α → α → Prop} (h : t.Ordered lt) (b : α) : (t.sub b).Ordered lt := by
  induction t with
  | nil => exact h
  | node l a r ihl ihr =>
    rw [BinTree.sub]
    split_ifs
    · exact h
    · exact ihl h.2.2.1
    · exact ihr h.2.2.2

/-- A tree whose root is not less than `b` may take the place of the subtree of `b`. -/
theorem Ordered.replace {lt : α → α → Prop} (hlt : WeakOrder lt) (h : t.Ordered lt) (hs : s.Ordered lt)
    (hroot : ∀ x, s.root = some x → ¬ lt x b) : (t.replace b s).Ordered lt := by
  -- the root of a subtree after the replacement
  have hchild : ∀ {u : BinTree α} {a : α}, (∀ x, u.root = some x → ¬ lt x a) →
      ∀ x, (u.replace b s).root = some x → ¬ lt x a := by
    intro u a hu x hx
    by_cases hub : u.root = some b
    · rw [replace_of_root hub] at hx
      exact hlt.trans a b x (hu b hub) (hroot x hx)
    · rw [root_replace hub] at hx
      exact hu x hx
  induction t with
  | nil => exact h
  | node l a r ihl ihr =>
    rw [BinTree.replace]
    split_ifs
    · exact hs
    · exact ⟨hchild h.1, hchild h.2.1, ihl h.2.2.1, ihr h.2.2.2⟩

/-- The tree without the node `b`, whose two subtrees are merged. -/
def remove (lt : α → α → Prop) [DecidableRel lt] (b : α) (t : BinTree α) : BinTree α :=
  t.replace b (merge lt (t.sub b).left (t.sub b).right)

section remove

variable {lt : α → α → Prop} [DecidableRel lt]

theorem remove_root (l r : BinTree α) (a : α) : (node l a r).remove lt a = merge lt l r := by
  unfold remove
  rw [sub_of_root rfl, replace_of_root rfl]
  rfl

theorem mem_nodes_remove (hnodup : t.nodes.Nodup) (hb : b ∈ t.nodes) :
    x ∈ (t.remove lt b).nodes ↔ x ∈ t.nodes ∧ x ≠ b := by
  obtain ⟨l, r, hsub⟩ := exists_sub hb
  have hnodup' : (t.sub b).nodes.Nodup := hnodup.sublist (sublist_sub t b)
  have hmem : x ∈ (t.sub b).nodes → x ∈ t.nodes := fun hx => (sublist_sub t b).subset hx
  rw [remove, nodes_replace hnodup hb, mem_nodes_merge]
  rw [hsub] at hnodup' hmem ⊢
  obtain ⟨⟨hl, hr⟩, -⟩ := nodup_node.mp hnodup'
  rw [mem_nodes_node] at hmem ⊢
  simp only [left, right]
  constructor
  · rintro (hx | ⟨hx, hout⟩)
    · refine ⟨hmem (Or.inr hx), ?_⟩
      rintro rfl
      exact hx.elim hl hr
    · exact ⟨hx, fun hxb => hout (Or.inl hxb)⟩
  · rintro ⟨hx, hxb⟩
    by_cases hin : x ∈ l.nodes ∨ x ∈ r.nodes
    · exact Or.inl hin
    · exact Or.inr ⟨hx, fun h => h.elim hxb hin⟩

theorem nodup_remove (hnodup : t.nodes.Nodup) (hb : b ∈ t.nodes) : (t.remove lt b).nodes.Nodup := by
  obtain ⟨l, r, hsub⟩ := exists_sub hb
  have hnodup' : (t.sub b).nodes.Nodup := hnodup.sublist (sublist_sub t b)
  refine nodup_replace hnodup ?_ fun x hx => ?_
  · rw [hsub] at hnodup' ⊢
    rw [(nodes_merge lt _ _).nodup_iff]
    exact (List.nodup_cons.mp hnodup').2
  · rw [mem_nodes_merge, hsub] at hx
    rw [hsub, mem_nodes_node]
    exact Or.inr hx

theorem perm_remove (hnodup : t.nodes.Nodup) (hb : b ∈ t.nodes) : (b :: (t.remove lt b).nodes).Perm t.nodes := by
  have hout : b ∉ (t.remove lt b).nodes := fun h => ((mem_nodes_remove hnodup hb).mp h).2 rfl
  refine (List.perm_ext_iff_of_nodup (List.nodup_cons.mpr ⟨hout, nodup_remove hnodup hb⟩) hnodup).mpr fun x => ?_
  rw [List.mem_cons, mem_nodes_remove hnodup hb]
  constructor
  · rintro (rfl | ⟨hx, -⟩)
    · exact hb
    · exact hx
  · exact fun hx => (em (x = b)).imp_right fun hne => ⟨hx, hne⟩

theorem size_remove (hnodup : t.nodes.Nodup) (hb : b ∈ t.nodes) : (t.remove lt b).size + 1 = t.size := by
  have hlen := (perm_remove hnodup hb : (b :: (t.remove lt b).nodes).Perm t.nodes).length_eq
  rwa [List.length_cons, length_nodes, length_nodes] at hlen

/-- **Removing a node keeps the order.** -/
theorem Ordered.remove (hlt : WeakOrder lt) (h : t.Ordered lt) (b : α) : (t.remove lt b).Ordered lt := by
  by_cases hb : b ∈ t.nodes
  · obtain ⟨l, r, hsub⟩ := exists_sub hb
    have hord := h.sub b
    rw [hsub] at hord
    obtain ⟨hl, hr, hol, hor⟩ := hord
    rw [BinTree.remove, hsub]
    refine h.replace hlt (Ordered.merge _ _ hol hor fun a _ b _ => hlt.asymm a b) fun x hx => ?_
    rcases root_merge lt l r with hroot | hroot
    · exact hl x (hroot ▸ hx)
    · exact hr x (hroot ▸ hx)
  · rw [BinTree.remove, replace_of_not_mem hb]
    exact h

end remove

end replace

end BinTree

/-! ### Nodes in memory -/

/-- The pointers of a node. -/
structure TreeLinks (α : Type) where
  parent : Option α
  left : Option α
  right : Option α
  deriving Repr, DecidableEq

/-- What the nodes point to. -/
abbrev LinkMem (α : Type) := α → TreeLinks α

/-- The memory holds the tree: the pointers of each node lead to its children and, but for the root, to its parent. -/
def Rep (M : LinkMem α) : BinTree α → Prop
  | .nil => True
  | .node l a r => (M a).left = l.root ∧ (M a).right = r.root ∧ (∀ x, l.root = some x → (M x).parent = some a) ∧
      (∀ x, r.root = some x → (M x).parent = some a) ∧ Rep M l ∧ Rep M r

namespace Rep

open BinTree

variable {M M' M₂ : LinkMem α} {t s l r : BinTree α} {a b p x : α}

/-- The nodes keep their pointers; the root may get another parent. -/
theorem congr (h : Rep M t) (hnodup : t.nodes.Nodup)
    (hlinks : ∀ x ∈ t.nodes, (M' x).left = (M x).left ∧ (M' x).right = (M x).right)
    (hparent : ∀ x ∈ t.nodes, t.root ≠ some x → (M' x).parent = (M x).parent) : Rep M' t := by
  induction t with
  | nil => trivial
  | node l a r ihl ihr =>
    obtain ⟨⟨hal, har⟩, hl, hr, -⟩ := nodup_node.mp hnodup
    obtain ⟨hleft, hright, hpl, hpr, hrl, hrr⟩ := h
    have hinl : ∀ x ∈ l.nodes, x ∈ (node l a r).nodes := fun x hx => mem_nodes_node.mpr (Or.inr (Or.inl hx))
    have hinr : ∀ x ∈ r.nodes, x ∈ (node l a r).nodes := fun x hx => mem_nodes_node.mpr (Or.inr (Or.inr hx))
    have hnel : ∀ x ∈ l.nodes, (node l a r).root ≠ some x := by
      rintro x hx heq
      cases heq
      exact hal hx
    have hner : ∀ x ∈ r.nodes, (node l a r).root ≠ some x := by
      rintro x hx heq
      cases heq
      exact har hx
    have ha := hlinks a (mem_nodes_node.mpr (Or.inl rfl))
    refine ⟨ha.1.trans hleft, ha.2.trans hright, fun x hx => ?_, fun x hx => ?_,
      ihl hrl hl (fun x hx => hlinks x (hinl x hx)) fun x hx _ => hparent x (hinl x hx) (hnel x hx),
      ihr hrr hr (fun x hx => hlinks x (hinr x hx)) fun x hx _ => hparent x (hinr x hx) (hner x hx)⟩
    · have hmem := mem_of_root hx
      rw [hparent x (hinl x hmem) (hnel x hmem)]
      exact hpl x hx
    · have hmem := mem_of_root hx
      rw [hparent x (hinr x hmem) (hner x hmem)]
      exact hpr x hx

/-- The memory holds one tree at a root. -/
theorem unique (h : Rep M t) (h' : Rep M s) (hroot : t.root = s.root) : t = s := by
  induction t generalizing s with
  | nil => exact (root_eq_none.mp hroot.symm).symm
  | node l a r ihl ihr =>
    cases s with
    | nil => cases hroot
    | node l' a' r' =>
      cases hroot
      obtain ⟨hleft, hright, -, -, hl, hr⟩ := h
      obtain ⟨hleft', hright', -, -, hl', hr'⟩ := h'
      rw [ihl hl hl' (hleft.symm.trans hleft'), ihr hr hr' (hright.symm.trans hright')]

theorem frame (h : Rep M t) (hnodup : t.nodes.Nodup) (heq : ∀ x ∈ t.nodes, M' x = M x) : Rep M' t :=
  h.congr hnodup (fun x hx => by rw [heq x hx]; exact ⟨rfl, rfl⟩) fun x hx _ => by rw [heq x hx]

variable [DecidableEq α]

theorem sub (h : Rep M t) (b : α) : Rep M (t.sub b) := by
  induction t with
  | nil => trivial
  | node l a r ihl ihr =>
    rw [BinTree.sub]
    split_ifs
    · exact h
    · exact ihl h.2.2.2.2.1
    · exact ihr h.2.2.2.2.2

/-- A node that is not the root has its parent in the tree, outside of its own subtree. -/
theorem exists_parent (h : Rep M t) (hnodup : t.nodes.Nodup) (hb : b ∈ t.nodes) (hne : t.root ≠ some b) :
    ∃ p, (M b).parent = some p ∧ p ∈ t.nodes ∧ p ∉ (t.sub b).nodes := by
  induction t with
  | nil => exact absurd hb List.not_mem_nil
  | node l a r ihl ihr =>
    obtain ⟨-, hl, hr, hdisj⟩ := nodup_node.mp hnodup
    obtain ⟨-, -, hpl, hpr, hrl, hrr⟩ := h
    have ha : a ≠ b := by
      rintro rfl
      exact hne rfl
    have hroot : a ∉ ((node l a r).sub b).nodes := root_not_mem_sub hnodup rfl ha
    by_cases hbl : b ∈ l.nodes
    · rw [sub_left ha hbl] at hroot ⊢
      by_cases hlroot : l.root = some b
      · exact ⟨a, hpl b hlroot, mem_nodes_node.mpr (Or.inl rfl), hroot⟩
      · obtain ⟨p, hp, hmem, hout⟩ := ihl hrl hl hbl hlroot
        exact ⟨p, hp, mem_nodes_node.mpr (Or.inr (Or.inl hmem)), hout⟩
    · have hbr : b ∈ r.nodes := ((mem_nodes_node.mp hb).resolve_left (Ne.symm ha)).resolve_left hbl
      rw [sub_right ha hbl] at hroot ⊢
      by_cases hrroot : r.root = some b
      · exact ⟨a, hpr b hrroot, mem_nodes_node.mpr (Or.inl rfl), hroot⟩
      · obtain ⟨p, hp, hmem, hout⟩ := ihr hrr hr hbr hrroot
        exact ⟨p, hp, mem_nodes_node.mpr (Or.inr (Or.inr hmem)), hout⟩

/-- The pointer of `p` that leads to `b` gets another value; if it is not the left one, it is the right one. -/
def relink (M : LinkMem α) (p b : α) (ptr : Option α) : LinkMem α :=
  Function.update M p (if (M p).left = some b then { M p with left := ptr } else { M p with right := ptr })

theorem relink_of_ne (M : LinkMem α) (b : α) (ptr : Option α) (h : x ≠ p) : relink M p b ptr x = M x :=
  Function.update_of_ne h _ _

theorem relink_parent (M : LinkMem α) (p b : α) (ptr : Option α) (x : α) : (relink M p b ptr x).parent = (M x).parent := by
  by_cases h : x = p
  · subst h
    rw [relink, Function.update_self]
    split_ifs <;> rfl
  · rw [relink_of_ne M b ptr h]

/-- **Another tree takes the place of a subtree**, when its root points to the parent `p` of the subtree, and `p` to
its root. -/
theorem replace (h : Rep M t) (hnodup : t.nodes.Nodup) (hb : b ∈ t.nodes) (hne : t.root ≠ some b)
    (hp : (M b).parent = some p) (hs : Rep M₂ s) (hsnodup : s.nodes.Nodup) (hin : ∀ x ∈ s.nodes, x ∈ (t.sub b).nodes)
    (hout : ∀ x, x ∉ (t.sub b).nodes → M₂ x = M x) (hroot : ∀ x, s.root = some x → (M₂ x).parent = some p) :
    Rep (relink M₂ p b s.root) (t.replace b s) := by
  induction t with
  | nil => exact absurd hb List.not_mem_nil
  | node l a r ihl ihr =>
    obtain ⟨p', hp', -, hps⟩ := h.exists_parent hnodup hb hne
    rw [hp] at hp'
    obtain rfl := Option.some.inj hp'
    obtain ⟨⟨hal, har⟩, hl, hr, hdisj⟩ := nodup_node.mp hnodup
    obtain ⟨hleft, hright, hpl, hpr, hrl, hrr⟩ := h
    have ha : a ≠ b := by
      rintro rfl
      exact hne rfl
    have haout : a ∉ ((node l a r).sub b).nodes := root_not_mem_sub hnodup rfl ha
    have hM₂a : M₂ a = M a := hout a haout
    -- the new tree does not contain `p`, so its nodes are not touched
    have hs' : Rep (relink M₂ p b s.root) s := by
      refine hs.frame hsnodup fun x hx => relink_of_ne M₂ b _ ?_
      rintro rfl
      exact hps (hin x hx)
    rw [BinTree.replace, if_neg ha]
    by_cases hbl : b ∈ l.nodes
    · have hbr : b ∉ r.nodes := hdisj b hbl
      rw [sub_left ha hbl] at hin hout haout hps
      have hrout : ∀ x ∈ r.nodes, M₂ x = M x := fun x hx =>
        hout x fun hxs => hdisj x ((sublist_sub l b).subset hxs) hx
      rw [replace_of_not_mem hbr]
      by_cases hlroot : l.root = some b
      · -- `b` is the left child of `a`
        have hpa : p = a := by
          rw [hpl b hlroot] at hp
          exact (Option.some.inj hp).symm
        subst hpa
        rw [replace_of_root hlroot]
        have hself : relink M₂ p b s.root p = { M p with left := s.root } := by
          rw [relink, Function.update_self, hM₂a, if_pos (hleft.trans hlroot)]
        refine ⟨by rw [hself], by rw [hself]; exact hright, fun x hx => ?_, fun x hx => ?_, hs', ?_⟩
        · rw [relink_parent]
          exact hroot x hx
        · rw [relink_parent, hrout x (mem_of_root hx)]
          exact hpr x hx
        · refine hrr.frame hr fun x hx => ?_
          rw [relink_of_ne M₂ b _ (by rintro rfl; exact har hx), hrout x hx]
      · obtain ⟨p', hp', hpmem, -⟩ := hrl.exists_parent hl hbl hlroot
        rw [hp] at hp'
        obtain rfl := Option.some.inj hp'
        have hap : a ≠ p := by
          rintro rfl
          exact hal hpmem
        have hself : relink M₂ p b s.root a = M a := by rw [relink_of_ne M₂ b _ hap, hM₂a]
        refine ⟨by rw [hself, root_replace hlroot]; exact hleft, by rw [hself]; exact hright, fun x hx => ?_,
          fun x hx => ?_, ihl hrl hl hbl hlroot hin hout, ?_⟩
        · rw [root_replace hlroot] at hx
          have hxb : x ≠ b := by
            rintro rfl
            exact hlroot hx
          rw [relink_parent, hout x (root_not_mem_sub hl hx hxb)]
          exact hpl x hx
        · rw [relink_parent, hrout x (mem_of_root hx)]
          exact hpr x hx
        · refine hrr.frame hr fun x hx => ?_
          rw [relink_of_ne M₂ b _ (by rintro rfl; exact hdisj x hpmem hx), hrout x hx]
    · have hbr : b ∈ r.nodes := ((mem_nodes_node.mp hb).resolve_left (Ne.symm ha)).resolve_left hbl
      rw [sub_right ha hbl] at hin hout haout hps
      have hlout : ∀ x ∈ l.nodes, M₂ x = M x := fun x hx =>
        hout x fun hxs => hdisj x hx ((sublist_sub r b).subset hxs)
      rw [replace_of_not_mem hbl]
      by_cases hrroot : r.root = some b
      · -- `b` is the right child of `a`
        have hpa : p = a := by
          rw [hpr b hrroot] at hp
          exact (Option.some.inj hp).symm
        subst hpa
        rw [replace_of_root hrroot]
        have hself : relink M₂ p b s.root p = { M p with right := s.root } := by
          rw [relink, Function.update_self, hM₂a, if_neg]
          rw [hleft]
          exact fun heq => hbl (mem_of_root heq)
        refine ⟨by rw [hself]; exact hleft, by rw [hself], fun x hx => ?_, fun x hx => ?_, ?_, hs'⟩
        · rw [relink_parent, hlout x (mem_of_root hx)]
          exact hpl x hx
        · rw [relink_parent]
          exact hroot x hx
        · refine hrl.frame hl fun x hx => ?_
          rw [relink_of_ne M₂ b _ (by rintro rfl; exact hal hx), hlout x hx]
      · obtain ⟨p', hp', hpmem, -⟩ := hrr.exists_parent hr hbr hrroot
        rw [hp] at hp'
        obtain rfl := Option.some.inj hp'
        have hap : a ≠ p := by
          rintro rfl
          exact har hpmem
        have hself : relink M₂ p b s.root a = M a := by rw [relink_of_ne M₂ b _ hap, hM₂a]
        refine ⟨by rw [hself]; exact hleft, by rw [hself, root_replace hrroot]; exact hright, fun x hx => ?_,
          fun x hx => ?_, ?_, ihr hrr hr hbr hrroot hin hout⟩
        · rw [relink_parent, hlout x (mem_of_root hx)]
          exact hpl x hx
        · rw [root_replace hrroot] at hx
          have hxb : x ≠ b := by
            rintro rfl
            exact hrroot hx
          rw [relink_parent, hout x (root_not_mem_sub hr hx hxb)]
          exact hpr x hx
        · refine hrl.frame hl fun x hx => ?_
          rw [relink_of_ne M₂ b _ (by rintro rfl; exact hdisj x hx hpmem), hlout x hx]

end Rep

end Ucore.Lib
