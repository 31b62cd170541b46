import Mathlib.Data.Finset.Card
import Ucore.Lib.SkewTree

/-!
# The skew heap

`libs/skew_heap.h`: a heap of nodes that point to one another, for any function that compares two nodes.

* `skewHeapMerge`, `skewHeapInsert` and `skewHeapRemove` are the functions of the source. A merge follows pointers until
  it finds none; with fuel for fewer calls than it needs it has no result.
* `HeapAt M root t` says that the memory holds the heap `t`. Each function does to the tree what its name says
  (`HeapAt.merge`, `HeapAt.insert`, `HeapAt.remove`), whatever the function that compares.
* `HeapRun` are the sequences of insertions and removals. `skew_heap_ordered` is about the functions that compare by
  a total preorder.
-/

namespace Ucore.Sched

open Ucore.Lib Ucore.Lib.BinTree

variable {α : Type} [DecidableEq α]

/-! ### The functions -/

/-- Source: `libs/skew_heap.h` `skew_heap_init` -/
def skewHeapInit (M : LinkMem α) (a : α) : LinkMem α := Function.update M a ⟨none, none, none⟩

/-- Write the parent of a node, if there is one. -/
def setParent (M : LinkMem α) (rep p : Option α) : LinkMem α :=
  match rep with
  | some x => Function.update M x { M x with parent := p }
  | none => M

/-- The children of `a` become `l` and `r`, and `l` gets `a` as its parent. The parent of `r` is not written. -/
def attach (M : LinkMem α) (a : α) (l r : Option α) : LinkMem α :=
  setParent (Function.update M a { M a with left := l, right := r }) l (some a)

/-- Source: `libs/skew_heap.h` `skew_heap_merge` -/
def skewHeapMerge (comp : α → α → ℤ) : ℕ → LinkMem α → Option α → Option α → Option (LinkMem α × Option α)
  | _, M, none, b => some (M, b)
  | _, M, some a, none => some (M, some a)
  | 0, _, some _, some _ => none
  | fuel + 1, M, some a, some b =>
    if comp a b = -1 then
      (skewHeapMerge comp fuel M (M a).right (some b)).map fun (M', l) => (attach M' a l (M a).left, some a)
    else
      (skewHeapMerge comp fuel M (some a) (M b).right).map fun (M', l) => (attach M' b l (M b).left, some b)

/-- Source: `libs/skew_heap.h` `skew_heap_insert` -/
def skewHeapInsert (comp : α → α → ℤ) (fuel : ℕ) (M : LinkMem α) (a : Option α) (b : α) :
    Option (LinkMem α × Option α) :=
  skewHeapMerge comp fuel (skewHeapInit M b) a (some b)

/-- Source: `libs/skew_heap.h` `skew_heap_remove` -/
def skewHeapRemove (comp : α → α → ℤ) (fuel : ℕ) (M : LinkMem α) (a : Option α) (b : α) :
    Option (LinkMem α × Option α) :=
  (skewHeapMerge comp fuel M (M b).left (M b).right).map fun (M', rep) =>
    let M' := setParent M' rep (M b).parent
    match (M b).parent with
    | some p => (Rep.relink M' p b rep, a)
    | none => (M', rep)

/-- `a` comes before `b`. -/
def Before (comp : α → α → ℤ) (a b : α) : Prop := comp a b = -1

instance (comp : α → α → ℤ) : DecidableRel (Before comp) := fun a b => inferInstanceAs (Decidable (comp a b = -1))

/-! ### What is written -/

section attach

variable {M : LinkMem α} {a x : α} {l r : Option α}

theorem setParent_of_ne {rep p : Option α} (h : rep ≠ some x) : setParent M rep p x = M x := by
  unfold setParent
  cases rep with
  | none => rfl
  | some y =>
    apply Function.update_of_ne
    rintro rfl
    exact h rfl

theorem setParent_self {p : Option α} : setParent M (some x) p x = { M x with parent := p } :=
  Function.update_self _ _ _

theorem attach_of_ne (hx : x ≠ a) (hl : l ≠ some x) : attach M a l r x = M x := by
  unfold attach
  rw [setParent_of_ne hl, Function.update_of_ne hx]

theorem attach_self (hl : l ≠ some a) : attach M a l r a = { M a with left := l, right := r } := by
  unfold attach
  rw [setParent_of_ne hl, Function.update_self]

theorem attach_left (hx : x ≠ a) : attach M a (some x) r x = { M x with parent := some a } := by
  unfold attach
  rw [setParent_self, Function.update_of_ne hx]

/-- The two trees are under `a` when `a` is already the parent of the right one. -/
theorem attach_rep {tl tr : BinTree α} (hl : Rep M tl) (hr : Rep M tr) (hnodup : (BinTree.node tl a tr).nodes.Nodup)
    (hparent : ∀ x, tr.root = some x → (M x).parent = some a) :
    Rep (attach M a tl.root tr.root) (.node tl a tr) := by
  obtain ⟨⟨hal, har⟩, hnl, hnr, hdisj⟩ := nodup_node.mp hnodup
  have hself : attach M a tl.root tr.root a = { M a with left := tl.root, right := tr.root } :=
    attach_self fun hroot => hal (mem_of_root hroot)
  have hright : ∀ x ∈ tr.nodes, attach M a tl.root tr.root x = M x := by
    intro x hx
    apply attach_of_ne
    · rintro rfl
      exact har hx
    · exact fun hroot => hdisj x (mem_of_root hroot) hx
  have hleft : ∀ x ∈ tl.nodes, tl.root ≠ some x → attach M a tl.root tr.root x = M x := by
    intro x hx hroot
    refine attach_of_ne ?_ hroot
    rintro rfl
    exact hal hx
  have hroot : ∀ x, tl.root = some x → attach M a tl.root tr.root x = { M x with parent := some a } := by
    intro x hx
    rw [hx]
    apply attach_left
    rintro rfl
    exact hal (mem_of_root hx)
  refine ⟨by rw [hself], by rw [hself], fun x hx => by rw [hroot x hx], fun x hx => ?_, ?_, hr.frame hnr hright⟩
  · rw [hright x (mem_of_root hx)]
    exact hparent x hx
  · refine hl.congr hnl (fun x hx => ?_) fun x hx hne => by rw [hleft x hx hne]
    by_cases hx' : tl.root = some x
    · rw [hroot x hx']
      exact ⟨rfl, rfl⟩
    · rw [hleft x hx hx']
      exact ⟨rfl, rfl⟩

end attach

/-! ### What the functions do to a tree -/

section spec

variable {comp : α → α → ℤ} {M : LinkMem α} {root : Option α} {t : BinTree α} {a b x : α}

/-- **A merge of two trees in memory** is the merge of the trees. It writes to their nodes only, and keeps the parent
of the root. -/
theorem skewHeapMerge_rep (comp : α → α → ℤ) (t₁ t₂ : BinTree α) (fuel : ℕ) (M : LinkMem α)
    (hfuel : t₁.size + t₂.size ≤ fuel) (h₁ : Rep M t₁) (h₂ : Rep M t₂) (hnodup : (t₁.nodes ++ t₂.nodes).Nodup) :
    ∃ M', skewHeapMerge comp fuel M t₁.root t₂.root = some (M', (merge (Before comp) t₁ t₂).root) ∧
      Rep M' (merge (Before comp) t₁ t₂) ∧ (∀ x, x ∉ t₁.nodes → x ∉ t₂.nodes → M' x = M x) ∧
      ∀ x, (merge (Before comp) t₁ t₂).root = some x → (M' x).parent = (M x).parent := by
  induction t₁, t₂ using merge.induct (Before comp) generalizing fuel M with
  | case1 t₂ =>
    rw [merge_nil_left]
    refine ⟨M, ?_, h₂, fun x _ _ => rfl, fun x _ => rfl⟩
    unfold skewHeapMerge
    rfl
  | case2 l a r =>
    rw [merge_nil_right]
    refine ⟨M, ?_, h₁, fun x _ _ => rfl, fun x _ => rfl⟩
    unfold skewHeapMerge
    rfl
  | case3 l a r l' b r' hab ih =>
    have hfuel' : r.size + (node l' b r').size + 1 ≤ fuel := by
      rw [size] at hfuel
      omega
    obtain ⟨fuel, rfl⟩ : ∃ n, fuel = n + 1 := ⟨fuel - 1, by omega⟩
    obtain ⟨hn₁, hn₂, hdisj⟩ := List.nodup_append'.mp hnodup
    obtain ⟨⟨hal, har⟩, hnl, hnr, hlr⟩ := nodup_node.mp hn₁
    have hab' : a ∉ (node l' b r').nodes := fun hmem => hdisj (mem_nodes_node.mpr (Or.inl rfl)) hmem
    obtain ⟨hleft, hright, hpl, -, hrl, hrr⟩ := h₁
    obtain ⟨M', hrun, hrep, hframe, -⟩ := ih fuel M (Nat.le_of_succ_le_succ hfuel') hrr h₂
      (List.nodup_append'.mpr ⟨hnr, hn₂, fun x hx => hdisj (mem_nodes_node.mpr (Or.inr (Or.inr hx)))⟩)
    have hframel : ∀ x ∈ l.nodes, M' x = M x := fun x hx =>
      hframe x (hlr x hx) fun hmem => hdisj (mem_nodes_node.mpr (Or.inr (Or.inl hx))) hmem
    have hout : a ∉ (merge (Before comp) r (node l' b r')).nodes := fun hmem =>
      ((mem_nodes_merge _).mp hmem).elim har hab'
    have hnodup' : (node (merge (Before comp) r (node l' b r')) a l).nodes.Nodup := by
      refine nodup_node.mpr ⟨⟨hout, hal⟩, ?_, hnl, fun x hx hxl => ?_⟩
      · rw [(nodes_merge _ _ _).nodup_iff]
        exact List.nodup_append'.mpr ⟨hnr, hn₂, fun x hx => hdisj (mem_nodes_node.mpr (Or.inr (Or.inr hx)))⟩
      · rcases (mem_nodes_merge _).mp hx with hx | hx
        · exact hlr x hxl hx
        · exact hdisj (mem_nodes_node.mpr (Or.inr (Or.inl hxl))) hx
    rw [merge_node, if_pos hab]
    refine ⟨attach M' a (merge (Before comp) r (node l' b r')).root l.root, ?_, ?_, fun x hx hx' => ?_, fun x hx => ?_⟩
    · rw [root_node, root_node, skewHeapMerge, if_pos (show comp a b = -1 from hab), hright, ← root_node (l := l') (a := b) (r := r'), hrun, hleft]
      rfl
    · refine attach_rep hrep (hrl.frame hnl hframel) hnodup' fun x hx => ?_
      rw [hframel x (mem_of_root hx)]
      exact hpl x hx
    · rw [mem_nodes_node, not_or, not_or] at hx
      rw [attach_of_ne hx.1, hframe x hx.2.2 hx']
      exact fun hroot => ((mem_nodes_merge _).mp (mem_of_root hroot)).elim hx.2.2 hx'
    · cases hx
      rw [attach_self fun hroot => hout (mem_of_root hroot), hframe a har hab']
  | case4 l a r l' b r' hab ih =>
    have hfuel' : (node l a r).size + r'.size + 1 ≤ fuel := by
      rw [size.eq_2 l'] at hfuel
      omega
    obtain ⟨fuel, rfl⟩ : ∃ n, fuel = n + 1 := ⟨fuel - 1, by omega⟩
    obtain ⟨hn₁, hn₂, hdisj⟩ := List.nodup_append'.mp hnodup
    obtain ⟨⟨hbl, hbr⟩, hnl, hnr, hlr⟩ := nodup_node.mp hn₂
    have hba : b ∉ (node l a r).nodes := fun hmem => hdisj hmem (mem_nodes_node.mpr (Or.inl rfl))
    obtain ⟨hleft, hright, hpl, -, hrl, hrr⟩ := h₂
    have hdisj' : (node l a r).nodes.Disjoint r'.nodes := fun x hx hxr =>
      hdisj hx (mem_nodes_node.mpr (Or.inr (Or.inr hxr)))
    obtain ⟨M', hrun, hrep, hframe, -⟩ := ih fuel M (Nat.le_of_succ_le_succ hfuel') h₁ hrr
      (List.nodup_append'.mpr ⟨hn₁, hnr, hdisj'⟩)
    have hframel : ∀ x ∈ l'.nodes, M' x = M x := fun x hx =>
      hframe x (fun hmem => hdisj hmem (mem_nodes_node.mpr (Or.inr (Or.inl hx)))) (hlr x hx)
    have hout : b ∉ (merge (Before comp) (node l a r) r').nodes := fun hmem =>
      ((mem_nodes_merge _).mp hmem).elim hba hbr
    have hnodup' : (node (merge (Before comp) (node l a r) r') b l').nodes.Nodup := by
      refine nodup_node.mpr ⟨⟨hout, hbl⟩, ?_, hnl, fun x hx hxl => ?_⟩
      · rw [(nodes_merge _ _ _).nodup_iff]
        exact List.nodup_append'.mpr ⟨hn₁, hnr, hdisj'⟩
      · rcases (mem_nodes_merge _).mp hx with hx | hx
        · exact hdisj hx (mem_nodes_node.mpr (Or.inr (Or.inl hxl)))
        · exact hlr x hxl hx
    rw [merge_node, if_neg hab]
    refine ⟨attach M' b (merge (Before comp) (node l a r) r').root l'.root, ?_, ?_, fun x hx hx' => ?_, fun x hx => ?_⟩
    · rw [root_node, root_node, skewHeapMerge, if_neg (show ¬ comp a b = -1 from hab), hright, ← root_node (l := l) (a := a) (r := r), hrun, hleft]
      rfl
    · refine attach_rep hrep (hrl.frame hnl hframel) hnodup' fun x hx => ?_
      rw [hframel x (mem_of_root hx)]
      exact hpl x hx
    · rw [mem_nodes_node, not_or, not_or] at hx'
      rw [attach_of_ne hx'.1, hframe x hx hx'.2.2]
      exact fun hroot => ((mem_nodes_merge _).mp (mem_of_root hroot)).elim hx hx'.2.2
    · cases hx
      rw [attach_self fun hroot => hout (mem_of_root hroot), hframe b hba hbr]

/-- More fuel gives the same result. -/
theorem skewHeapMerge_mono {fuel : ℕ} {a b : Option α} {r : LinkMem α × Option α}
    (h : skewHeapMerge comp fuel M a b = some r) : skewHeapMerge comp (fuel + 1) M a b = some r := by
  induction fuel generalizing M a b r with
  | zero =>
    cases a with
    | none =>
      unfold skewHeapMerge at h ⊢
      exact h
    | some a =>
      cases b with
      | none =>
        unfold skewHeapMerge at h ⊢
        exact h
      | some b =>
        unfold skewHeapMerge at h
        cases h
  | succ fuel ih =>
    cases a with
    | none =>
      unfold skewHeapMerge at h ⊢
      exact h
    | some a =>
      cases b with
      | none =>
        unfold skewHeapMerge at h ⊢
        exact h
      | some b =>
        rw [skewHeapMerge] at h ⊢
        split_ifs at h ⊢
        · obtain ⟨r', hr', heq⟩ := Option.map_eq_some_iff.mp h
          rw [ih hr', Option.map_some, heq]
        · obtain ⟨r', hr', heq⟩ := Option.map_eq_some_iff.mp h
          rw [ih hr', Option.map_some, heq]

theorem skewHeapMerge_of_le {fuel fuel' : ℕ} {a b : Option α} {r : LinkMem α × Option α} (hle : fuel ≤ fuel')
    (h : skewHeapMerge comp fuel M a b = some r) : skewHeapMerge comp fuel' M a b = some r := by
  induction hle with
  | refl => exact h
  | step _ ih => exact skewHeapMerge_mono ih

/-- The memory holds the heap `t`, which starts at `root`. -/
structure HeapAt (M : LinkMem α) (root : Option α) (t : BinTree α) : Prop where
  rep : Rep M t
  root : root = t.root
  nodup : t.nodes.Nodup
  /-- The root has no parent. -/
  parent : ∀ a, t.root = some a → (M a).parent = none

omit [DecidableEq α] in
/-- Other memory may change. -/
theorem HeapAt.frame {M' : LinkMem α} (h : HeapAt M root t) (heq : ∀ x ∈ t.nodes, M' x = M x) : HeapAt M' root t :=
  ⟨h.rep.frame h.nodup heq, h.root, h.nodup, fun a ha => by rw [heq a (mem_of_root ha)]; exact h.parent a ha⟩

/-- **`skew_heap_insert`** merges the tree with the new node. -/
theorem HeapAt.insert (h : HeapAt M root t) (comp : α → α → ℤ) (hb : b ∉ t.nodes) {fuel : ℕ} (hfuel : t.size < fuel) :
    ∃ M' root', skewHeapInsert comp fuel M root b = some (M', root') ∧
      HeapAt M' root' (merge (Before comp) t (.node .nil b .nil)) ∧ ∀ x, x ∉ t.nodes → x ≠ b → M' x = M x := by
  have hne : ∀ x ∈ t.nodes, x ≠ b := by
    rintro x hx rfl
    exact hb hx
  have hinit : ∀ x, x ≠ b → skewHeapInit M b x = M x := fun x hx => Function.update_of_ne hx _ _
  have hself : skewHeapInit M b b = ⟨none, none, none⟩ := Function.update_self _ _ _
  have hone : Rep (skewHeapInit M b) (.node .nil b .nil) := by
    refine ⟨by rw [hself]; rfl, by rw [hself]; rfl, nofun, nofun, trivial, trivial⟩
  have hnodup : (t.nodes ++ (node nil b nil).nodes).Nodup := by
    refine List.nodup_append'.mpr ⟨h.nodup, List.nodup_singleton b, fun x hx hxb => ?_⟩
    exact hne x hx (List.mem_singleton.mp hxb)
  obtain ⟨M', hrun, hrep, hframe, hparent⟩ := skewHeapMerge_rep comp t (.node .nil b .nil) fuel (skewHeapInit M b)
    (by simp only [size]; omega) (h.rep.frame h.nodup fun x hx => hinit x (hne x hx)) hone hnodup
  refine ⟨M', _, ?_, ⟨hrep, rfl, ?_, fun a ha => ?_⟩, fun x hx hxb => ?_⟩
  · rw [skewHeapInsert, h.root]
    exact hrun
  · rw [(nodes_merge _ _ _).nodup_iff]
    exact hnodup
  · rw [hparent a ha]
    rcases root_merge (Before comp) t (.node .nil b .nil) with hroot | hroot <;> rw [hroot] at ha
    · rw [hinit a (hne a (mem_of_root ha))]
      exact h.parent a ha
    · cases ha
      rw [hself]
  · rw [hframe x hx fun hmem => hxb (List.mem_singleton.mp hmem), hinit x hxb]

theorem setParent_rep (h : Rep M t) (hnodup : t.nodes.Nodup) (p : Option α) : Rep (setParent M t.root p) t := by
  refine h.congr hnodup (fun x _ => ?_) fun x _ hne => by rw [setParent_of_ne hne]
  by_cases hroot : t.root = some x
  · rw [hroot, setParent_self]
    exact ⟨rfl, rfl⟩
  · rw [setParent_of_ne hroot]
    exact ⟨rfl, rfl⟩

/-- **`skew_heap_remove`** puts the merge of its two children in the place of a node, at the root or elsewhere. -/
theorem HeapAt.remove (h : HeapAt M root t) (comp : α → α → ℤ) (hb : b ∈ t.nodes) {fuel : ℕ} (hfuel : t.size ≤ fuel) :
    ∃ M' root', skewHeapRemove comp fuel M root b = some (M', root') ∧ HeapAt M' root' (t.remove (Before comp) b) ∧
      ∀ x ∉ t.nodes, M' x = M x := by
  obtain ⟨l, r, hsub⟩ := exists_sub hb
  have hrep := h.rep.sub b
  have hsnodup : (t.sub b).nodes.Nodup := h.nodup.sublist (sublist_sub t b)
  have hsize : (t.sub b).size ≤ t.size := by
    rw [← length_nodes, ← length_nodes]
    exact (sublist_sub t b).length_le
  rw [hsub] at hrep hsnodup hsize
  obtain ⟨hleft, hright, -, -, hrl, hrr⟩ := hrep
  have hlr : (l.nodes ++ r.nodes).Nodup := (List.nodup_cons.mp hsnodup).2
  obtain ⟨M', hrun, hrep', hframe, -⟩ := skewHeapMerge_rep comp l r fuel M (by rw [size] at hsize; omega) hrl hrr hlr
  generalize hs : merge (Before comp) l r = s at hrun hrep'
  have hmem : ∀ x, x ∈ s.nodes → x ∈ l.nodes ∨ x ∈ r.nodes := fun x hx => (mem_nodes_merge _).mp (hs ▸ hx)
  have hs' : s.nodes.Nodup := by
    rw [← hs, (nodes_merge _ _ _).nodup_iff]
    exact hlr
  have hin : ∀ x ∈ s.nodes, x ∈ (t.sub b).nodes := fun x hx => by
    rw [hsub, mem_nodes_node]
    exact Or.inr (hmem x hx)
  have hremove : t.remove (Before comp) b = t.replace b s := by
    rw [BinTree.remove, hsub, ← hs]
    rfl
  -- what the subtree does not contain is as before
  have hout : ∀ x, x ∉ (t.sub b).nodes → setParent M' s.root (M b).parent x = M x := by
    intro x hx
    rw [setParent_of_ne fun hroot => hx (hin x (mem_of_root hroot))]
    rw [hsub, mem_nodes_node, not_or, not_or] at hx
    exact hframe x hx.2.1 hx.2.2
  have hparent : ∀ x, s.root = some x → (setParent M' s.root (M b).parent x).parent = (M b).parent := by
    intro x hx
    rw [hx, setParent_self]
  rw [skewHeapRemove, hleft, hright, hrun, Option.map_some, hremove]
  by_cases hroot : t.root = some b
  · have hp : (M b).parent = none := h.parent b hroot
    refine ⟨_, _, by rw [hp], ?_, fun x hx => ?_⟩
    · rw [replace_of_root hroot]
      exact ⟨setParent_rep hrep' hs' none, rfl, hs', fun a ha => by rw [← hp]; exact hparent a ha⟩
    · rw [← hp]
      exact hout x fun hmem => hx ((sublist_sub t b).subset hmem)
  · obtain ⟨p, hp, hpt, hps⟩ := h.rep.exists_parent h.nodup hb hroot
    rw [hp] at hout hparent
    refine ⟨_, _, by rw [hp], ⟨?_, ?_, ?_, fun a ha => ?_⟩, fun x hx => ?_⟩
    · exact h.rep.replace h.nodup hb hroot hp (setParent_rep hrep' hs' _) hs' hin hout hparent
    · rw [root_replace hroot]
      exact h.root
    · exact nodup_replace h.nodup hs' hin
    · rw [root_replace hroot] at ha
      have hab : a ≠ b := by
        rintro rfl
        exact hroot ha
      rw [Rep.relink_parent, hout a (root_not_mem_sub h.nodup ha hab)]
      exact h.parent a ha
    · have hxp : x ≠ p := by
        rintro rfl
        exact hx hpt
      rw [Rep.relink_of_ne _ b _ hxp]
      exact hout x fun hmem => hx ((sublist_sub t b).subset hmem)

/-- `HeapAt.insert` for a call that has returned, whatever its fuel. -/
theorem HeapAt.of_insert {fuel : ℕ} {M' : LinkMem α} {root' : Option α} (h : HeapAt M root t) (hb : b ∉ t.nodes)
    (hrun : skewHeapInsert comp fuel M root b = some (M', root')) :
    HeapAt M' root' (merge (Before comp) t (.node .nil b .nil)) ∧ ∀ x, x ∉ t.nodes → x ≠ b → M' x = M x := by
  obtain ⟨M₁, root₁, hrun₁, hheap, hframe⟩ := h.insert comp hb (show t.size < fuel + t.size + 1 by omega)
  rw [skewHeapInsert, skewHeapMerge_of_le (by omega) hrun] at hrun₁
  cases hrun₁
  exact ⟨hheap, hframe⟩

/-- `HeapAt.remove` for a call that has returned, whatever its fuel. -/
theorem HeapAt.of_remove {fuel : ℕ} {M' : LinkMem α} {root' : Option α} (h : HeapAt M root t) (hb : b ∈ t.nodes)
    (hrun : skewHeapRemove comp fuel M root b = some (M', root')) :
    HeapAt M' root' (t.remove (Before comp) b) ∧ ∀ x ∉ t.nodes, M' x = M x := by
  obtain ⟨M₁, root₁, hrun₁, hheap, hframe⟩ := h.remove comp hb (show t.size ≤ fuel + t.size by omega)
  obtain ⟨r, hmerge, heq⟩ := Option.map_eq_some_iff.mp hrun
  rw [skewHeapRemove, skewHeapMerge_of_le (by omega) hmerge, Option.map_some] at hrun₁
  rw [Option.some.inj hrun₁] at heq
  cases heq
  exact ⟨hheap, hframe⟩

end spec

/-! ### Sequences of insertions and removals -/

/-- What is done to a heap. -/
inductive HeapOp (α : Type) where
  | insert (b : α)
  | remove (b : α)
  deriving Repr, DecidableEq

/-- The nodes that have been inserted and not removed. The last operation comes first. -/
def liveNodes : List (HeapOp α) → Finset α
  | [] => ∅
  | .insert b :: ops => Insert.insert b (liveNodes ops)
  | .remove b :: ops => (liveNodes ops).erase b

/-- The memory and the root after a sequence of operations: a node is inserted only when it is not in the heap, and
removed only when it is. Memory outside of the heap may be written in between. -/
inductive HeapRun (comp : α → α → ℤ) : List (HeapOp α) → LinkMem α → Option α → Prop
  | empty (M : LinkMem α) : HeapRun comp [] M none
  | insert {ops : List (HeapOp α)} {M M' : LinkMem α} {root root' : Option α} (b : α) (fuel : ℕ)
      (h : HeapRun comp ops M root) (hb : b ∉ liveNodes ops)
      (hrun : skewHeapInsert comp fuel M root b = some (M', root')) : HeapRun comp (.insert b :: ops) M' root'
  | remove {ops : List (HeapOp α)} {M M' : LinkMem α} {root root' : Option α} (b : α) (fuel : ℕ)
      (h : HeapRun comp ops M root) (hb : b ∈ liveNodes ops)
      (hrun : skewHeapRemove comp fuel M root b = some (M', root')) : HeapRun comp (.remove b :: ops) M' root'
  | outside {ops : List (HeapOp α)} {M M' : LinkMem α} {root : Option α} (h : HeapRun comp ops M root)
      (heq : ∀ x ∈ liveNodes ops, M' x = M x) : HeapRun comp ops M' root

section runs

variable {comp : α → α → ℤ} {ops : List (HeapOp α)} {M : LinkMem α} {root : Option α} {t : BinTree α}

/-- Whatever the function that compares, the memory holds a tree of the live nodes. If it compares by a weak order, the
tree is in this order. -/
theorem HeapRun.heapAt (h : HeapRun comp ops M root) : ∃ t, HeapAt M root t ∧ (∀ x, x ∈ t.nodes ↔ x ∈ liveNodes ops) ∧
    (WeakOrder (Before comp) → t.Ordered (Before comp)) := by
  induction h with
  | empty M => exact ⟨.nil, ⟨trivial, rfl, List.nodup_nil, fun x h => by simp at h⟩, fun x => by simp [nodes, liveNodes],
    fun _ => trivial⟩
  | insert b fuel h hb hrun ih =>
    obtain ⟨t, hheap, hmem, hord⟩ := ih
    obtain ⟨hheap', -⟩ := hheap.of_insert (fun hbt => hb ((hmem b).mp hbt)) hrun
    refine ⟨_, hheap', fun x => ?_, fun hlt => ?_⟩
    · rw [mem_nodes_merge, hmem, liveNodes, Finset.mem_insert, or_comm]
      exact or_congr_left List.mem_singleton
    · exact Ordered.merge _ _ (hord hlt) (ordered_singleton b) fun a _ b _ => hlt.asymm a b
  | remove b fuel h hb hrun ih =>
    obtain ⟨t, hheap, hmem, hord⟩ := ih
    obtain ⟨hheap', -⟩ := hheap.of_remove ((hmem b).mpr hb) hrun
    refine ⟨_, hheap', fun x => ?_, fun hlt => (hord hlt).remove hlt b⟩
    rw [mem_nodes_remove hheap.nodup ((hmem b).mpr hb), hmem, liveNodes, Finset.mem_erase, and_comm]
  | outside h heq ih =>
    obtain ⟨t, hheap, hmem, hord⟩ := ih
    exact ⟨t, hheap.frame fun x hx => heq x ((hmem x).mp hx), hmem, hord⟩

/-- The tree has as many nodes as are live. -/
theorem HeapAt.size_eq (h : HeapAt M root t) {S : Finset α} (hmem : ∀ x, x ∈ t.nodes ↔ x ∈ S) : t.size = S.card := by
  rw [← length_nodes, ← List.toFinset_card_of_nodup h.nodup]
  congr 1
  ext x
  rw [List.mem_toFinset, hmem]

/-- **The skew heap.** Where `comp` compares by a total preorder `le`, after every sequence of insertions and removals
the memory holds a tree of the live nodes; the children point to their parents, and the root to nothing; no node is less
than its parent; and the root is a minimum. Insertions and removals return. -/
theorem skew_heap_runs {le : α → α → Prop} (htotal : ∀ a b, le a b ∨ le b a)
    (htrans : ∀ a b c, le a b → le b c → le a c) (hcomp : ∀ a b, comp a b = -1 ↔ ¬ le b a)
    (h : HeapRun comp ops M root) :
    (∃ t, HeapAt M root t ∧ (∀ x, x ∈ t.nodes ↔ x ∈ liveNodes ops) ∧ t.Ordered fun a b => ¬ le b a) ∧
      (∀ a, root = some a → a ∈ liveNodes ops ∧ (M a).parent = none ∧ ∀ x ∈ liveNodes ops, le a x) ∧
      (∀ b ∉ liveNodes ops, ∀ fuel, (liveNodes ops).card < fuel → ∃ r, skewHeapInsert comp fuel M root b = some r) ∧
      ∀ b ∈ liveNodes ops, ∀ fuel, (liveNodes ops).card ≤ fuel → ∃ r, skewHeapRemove comp fuel M root b = some r := by
  have hbefore : Before comp = fun a b => ¬ le b a := funext fun a => funext fun b => propext (hcomp a b)
  have hlt : WeakOrder (Before comp) := by
    rw [hbefore]
    exact WeakOrder.of_total htotal htrans
  obtain ⟨t, hheap, hmem, hord⟩ := h.heapAt
  have hsize := hheap.size_eq hmem
  refine ⟨⟨t, hheap, hmem, hbefore ▸ hord hlt⟩, fun a ha => ?_, fun b hb fuel hfuel => ?_, fun b hb fuel hfuel => ?_⟩
  · have hroot : t.root = some a := by rw [← hheap.root, ha]
    refine ⟨(hmem a).mp (mem_of_root hroot), hheap.parent a hroot, fun x hx => ?_⟩
    have hmin := (hord hlt).root_le hlt hroot ((hmem x).mpr hx)
    rw [hbefore] at hmin
    exact not_not.mp hmin
  · obtain ⟨M', root', hrun, -⟩ := hheap.insert comp (fun hbt => hb ((hmem b).mp hbt)) (hsize.trans_lt hfuel)
    exact ⟨_, hrun⟩
  · obtain ⟨M', root', hrun, -⟩ := hheap.remove comp ((hmem b).mpr hb) (hsize.trans_le hfuel)
    exact ⟨_, hrun⟩

/-- Numbers are compared as the stride scheduler does it. -/
def compNat (a b : ℕ) : ℤ := if a < b then -1 else if a = b then 0 else 1

/-- Three nodes are inserted, and the one in the middle is removed. -/
theorem skew_heap_runs_three : ∃ M, HeapRun compNat [.remove 5, .insert 5, .insert 3, .insert 8] M (some 3) ∧
    (M 3).parent = none ∧ ∀ x ∈ liveNodes [.remove 5, .insert 5, .insert 3, .insert 8], 3 ≤ x := by
  have h₀ : HeapRun compNat [] (fun _ => ⟨none, none, none⟩) none := .empty _
  have h₁ := h₀.insert 8 1 (by decide) rfl
  have h₂ := h₁.insert 3 2 (by decide) rfl
  have h₃ := h₂.insert 5 3 (by decide) rfl
  have h₄ := h₃.remove 5 3 (by decide) rfl
  have htotal : ∀ a b : ℕ, a ≤ b ∨ b ≤ a := Nat.le_total
  have htrans : ∀ a b c : ℕ, a ≤ b → b ≤ c → a ≤ c := fun _ _ _ => Nat.le_trans
  have hcomp : ∀ a b, compNat a b = -1 ↔ ¬ b ≤ a := by
    intro a b
    rw [compNat, not_le]
    split_ifs <;> simp_all
  have hmin := (skew_heap_runs htotal htrans hcomp h₄).2.1 3 rfl
  exact ⟨_, h₄, hmin.2⟩

end runs

end Ucore.Sched
