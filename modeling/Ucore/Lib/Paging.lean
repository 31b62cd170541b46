import Mathlib.Data.Finset.Card
import Mathlib.Data.List.Dedup
import Mathlib.Data.List.DropRight

/-!
# Demand paging

Runs of a memory with `k` frames that brings a page in when it is referenced, for any type of pages.

* `Demand k S σ c` says that there is a run over the references `σ` that starts with the pages `S` in memory and has `c`
  faults. A fault may take any pages out.
* Three lemmas compare what can be done with two memories: more pages are not worse (`Demand.mono`), one page makes up for
  one fault at most (`Demand.lacking`), and a page that is used again earlier is not worse than one that is used again
  later (`Demand.exchange`).
* `Farthest k S σ c` are the runs that take out a page whose next use is the latest, when the memory is full.
  `Farthest.le_demand` is Belady's theorem.
* `lruStep k m n` is what a reference does to the list `m` of the pages in memory, the least recently used one first.
  `lruStep_rtake`: the list is the end of the list of all pages seen, in order of their last use.
-/

namespace Ucore.Lib.Paging

variable {α : Type} [DecidableEq α] {k c : ℕ} {S T S' : Finset α} {σ : List α} {n p q : α}

/-- A run of a memory with `k` frames: where it starts, the references, and the number of its faults. -/
inductive Demand (k : ℕ) : Finset α → List α → ℕ → Prop
  | nil (S : Finset α) : Demand k S [] 0
  | hit {S : Finset α} {n : α} {σ : List α} {c : ℕ} (hn : n ∈ S) (h : Demand k S σ c) : Demand k S (n :: σ) c
  | fault {S T : Finset α} {n : α} {σ : List α} {c : ℕ} (hn : n ∉ S) (hT : n ∈ T) (hsub : T ⊆ insert n S)
      (hcard : T.card ≤ k) (h : Demand k T σ c) : Demand k S (n :: σ) (c + 1)

/-- The runs in which a page leaves a full memory only, and one whose next use is the latest. -/
inductive Farthest (k : ℕ) : Finset α → List α → ℕ → Prop
  | nil (S : Finset α) : Farthest k S [] 0
  | hit {S : Finset α} {n : α} {σ : List α} {c : ℕ} (hn : n ∈ S) (h : Farthest k S σ c) : Farthest k S (n :: σ) c
  | room {S : Finset α} {n : α} {σ : List α} {c : ℕ} (hn : n ∉ S) (hroom : S.card < k) (h : Farthest k (insert n S) σ c) :
    Farthest k S (n :: σ) (c + 1)
  | evict {S : Finset α} {n v : α} {σ : List α} {c : ℕ} (hn : n ∉ S) (hfull : S.card = k) (hv : v ∈ S)
      (hlatest : ∀ x ∈ S, σ.idxOf x ≤ σ.idxOf v) (h : Farthest k (insert n (S.erase v)) σ c) : Farthest k S (n :: σ) (c + 1)

namespace Demand

/-- What a run does with a page that is not in memory. -/
theorem of_not_mem (h : Demand k S (n :: σ) c) (hn : n ∉ S) :
    ∃ T c', n ∈ T ∧ T ⊆ insert n S ∧ T.card ≤ k ∧ Demand k T σ c' ∧ c = c' + 1 := by
  cases h with
  | hit hn' h => exact absurd hn' hn
  | fault _ hT hsub hcard h => exact ⟨_, _, hT, hsub, hcard, h, rfl⟩

theorem of_mem (h : Demand k S (n :: σ) c) (hn : n ∈ S) : Demand k S σ c := by
  cases h with
  | hit _ h => exact h
  | fault hn' => exact absurd hn hn'

/-- **More pages** in memory are not worse. -/
theorem mono (h : Demand k S σ c) (hsub : S ⊆ S') : ∃ c' ≤ c, Demand k S' σ c' := by
  induction h generalizing S' with
  | nil S => exact ⟨0, le_refl 0, .nil S'⟩
  | hit hn _ ih =>
    obtain ⟨c', hle, h'⟩ := ih hsub
    exact ⟨c', hle, .hit (hsub hn) h'⟩
  | @fault S T n σ c hn hT hsubT hcard h ih =>
    by_cases hn' : n ∈ S'
    · have hTS' : T ⊆ S' := hsubT.trans (Finset.insert_subset hn' hsub)
      obtain ⟨c', hle, h'⟩ := ih hTS'
      exact ⟨c', Nat.le_succ_of_le hle, .hit hn' h'⟩
    · exact ⟨c + 1, le_refl _, .fault hn' hT (hsubT.trans (Finset.insert_subset_insert n hsub)) hcard h⟩

/-- **A page that is lacking** costs one fault at most. -/
theorem lacking (h : Demand k T σ c) (hk : T.card ≤ k) (hsub : T ⊆ insert p S) : ∃ c' ≤ c + 1, Demand k S σ c' := by
  induction h generalizing S with
  | nil T => exact ⟨0, Nat.zero_le _, .nil S⟩
  | @hit T n σ c hn h ih =>
    by_cases hnS : n ∈ S
    · obtain ⟨c', hle, h'⟩ := ih hk hsub
      exact ⟨c', hle, .hit hnS h'⟩
    · -- it is the page `p`; the memory becomes the other one
      have hnp : n = p := (Finset.mem_insert.mp (hsub hn)).resolve_right hnS
      exact ⟨c + 1, le_refl _, .fault hnS hn (hnp ▸ hsub) hk h⟩
  | @fault T T' n σ c hn hT' hsubT' hcard h ih =>
    by_cases hnS : n ∈ S
    · have hsub' : T' ⊆ insert p S :=
        hsubT'.trans (Finset.insert_subset (Finset.mem_insert_of_mem hnS) hsub)
      obtain ⟨c', hle, h'⟩ := ih hcard hsub'
      exact ⟨c', by omega, .hit hnS h'⟩
    by_cases hnp : n = p
    · subst hnp
      have hsub' : T' ⊆ insert n S := hsubT'.trans (Finset.insert_subset (Finset.mem_insert_self n S) hsub)
      exact ⟨c + 1, by omega, .fault hnS hT' hsub' hcard h⟩
    · -- both bring the page in, and `p` stays the only difference
      have hsub' : T' ⊆ insert p (T'.erase p) := by
        intro x hx
        by_cases hxp : x = p
        · rw [hxp]
          exact Finset.mem_insert_self _ _
        · exact Finset.mem_insert_of_mem (Finset.mem_erase.mpr ⟨hxp, hx⟩)
      obtain ⟨c', hle, h'⟩ := ih hcard hsub'
      refine ⟨c' + 1, by omega, .fault hnS (Finset.mem_erase.mpr ⟨hnp, hT'⟩) ?_ ?_ h'⟩
      · intro x hx
        obtain ⟨hxp, hx⟩ := Finset.mem_erase.mp hx
        rcases Finset.mem_insert.mp (hsubT' hx) with hxn | hxT
        · rw [hxn]
          exact Finset.mem_insert_self _ _
        · exact Finset.mem_insert_of_mem ((Finset.mem_insert.mp (hsub hxT)).resolve_left hxp)
      · exact (Finset.card_erase_le).trans hcard

/-- **A page that is used again earlier** is not worse than one that is used again later. -/
theorem exchange {R : Finset α} (h : Demand k (insert p R) σ c) (hp : p ∉ R) (hq : q ∉ R)
    (hnext : σ.idxOf q ≤ σ.idxOf p) : ∃ c' ≤ c, Demand k (insert q R) σ c' := by
  induction σ generalizing R c with
  | nil =>
    cases h
    exact ⟨0, le_refl 0, .nil _⟩
  | cons n σ ih =>
    by_cases hqp : q = p
    · rw [hqp]
      exact ⟨c, le_refl c, h⟩
    have hnp : n ≠ p := by
      rintro rfl
      have hne : n ≠ q := Ne.symm hqp
      rw [List.idxOf_cons_self, List.idxOf_cons_ne _ hne] at hnext
      omega
    by_cases hnq : n = q
    · -- the run with `p` has a fault, which makes up for the lack of `p`
      subst hnq
      have hout : n ∉ insert p R := by
        rw [Finset.mem_insert, not_or]
        exact ⟨hqp, hq⟩
      obtain ⟨T, c₁, -, hsub, hcard, h₁, rfl⟩ := h.of_not_mem hout
      rw [Finset.insert_comm] at hsub
      obtain ⟨c', hle, h'⟩ := h₁.lacking hcard hsub
      exact ⟨c', hle, .hit (Finset.mem_insert_self n R) h'⟩
    have hnext' : σ.idxOf q ≤ σ.idxOf p := by
      rw [List.idxOf_cons_ne _ hnq, List.idxOf_cons_ne _ hnp] at hnext
      omega
    by_cases hnR : n ∈ R
    · obtain ⟨c', hle, h'⟩ := ih (h.of_mem (Finset.mem_insert_of_mem hnR)) hp hq hnext'
      exact ⟨c', hle, .hit (Finset.mem_insert_of_mem hnR) h'⟩
    have hout : n ∉ insert p R := by
      rw [Finset.mem_insert, not_or]
      exact ⟨hnp, hnR⟩
    have hout' : n ∉ insert q R := by
      rw [Finset.mem_insert, not_or]
      exact ⟨hnq, hnR⟩
    obtain ⟨T, c₁, hnT, hsub, hcard, h₁, rfl⟩ := h.of_not_mem hout
    have hqT : q ∉ T := by
      intro hmem
      have hcases := hsub hmem
      simp only [Finset.mem_insert] at hcases
      rcases hcases with heq | heq | hmem
      · exact hnq heq.symm
      · exact hqp heq
      · exact hq hmem
    by_cases hpT : p ∈ T
    · -- `q` takes the place of `p` in what follows, too
      have hT : insert p (T.erase p) = T := Finset.insert_erase hpT
      rw [← hT] at h₁
      have hq' : q ∉ T.erase p := fun hmem => hqT (Finset.mem_of_mem_erase hmem)
      obtain ⟨c', hle, h'⟩ := ih h₁ (Finset.notMem_erase p T) hq' hnext'
      refine ⟨c' + 1, by omega, .fault hout' ?_ ?_ ?_ h'⟩
      · exact Finset.mem_insert_of_mem (Finset.mem_erase.mpr ⟨hnp, hnT⟩)
      · intro x hx
        simp only [Finset.mem_insert, Finset.mem_erase] at hx ⊢
        rcases hx with heq | ⟨hxp, hx⟩
        · exact Or.inr (Or.inl heq)
        · have hcases := hsub hx
          simp only [Finset.mem_insert] at hcases
          rcases hcases with heq | heq | hmem
          · exact Or.inl heq
          · exact absurd heq hxp
          · exact Or.inr (Or.inr hmem)
      · rw [Finset.card_insert_of_notMem hq', Finset.card_erase_of_mem hpT]
        have hpos := Finset.card_pos.mpr ⟨p, hpT⟩
        omega
    · refine ⟨c₁ + 1, le_refl _, .fault hout' hnT (fun x hx => ?_) hcard h₁⟩
      have hcases := hsub hx
      simp only [Finset.mem_insert] at hcases ⊢
      rcases hcases with heq | heq | hmem
      · exact Or.inl heq
      · rw [heq] at hx
        exact absurd hx hpT
      · exact Or.inr (Or.inr hmem)

end Demand

namespace Farthest

/-- **Belady's theorem**: no run with as many frames has fewer faults. -/
theorem le_demand {c' : ℕ} (h : Farthest k S σ c) (hk : S.card ≤ k) (h' : Demand k S σ c') : c ≤ c' := by
  induction h generalizing c' with
  | nil S => exact Nat.zero_le _
  | hit hn _ ih => exact ih hk (h'.of_mem hn)
  | @room S n σ c hn hroom _ ih =>
    have hcard : (insert n S).card ≤ k := by
      rw [Finset.card_insert_of_notMem hn]
      exact hroom
    obtain ⟨T, c₁, -, hsub, -, h₁, rfl⟩ := h'.of_not_mem hn
    obtain ⟨c₂, hle, h₂⟩ := h₁.mono hsub
    have := ih hcard h₂
    omega
  | @evict S n v σ c hn hfull hv hlatest _ ih =>
    have hnv : n ≠ v := by
      rintro rfl
      exact hn hv
    have hcard : (insert n (S.erase v)).card ≤ k := by
      refine (Finset.card_insert_le _ _).trans ?_
      rw [Finset.card_erase_add_one hv, hfull]
    obtain ⟨T, c₁, hnT, hsub, hcardT, h₁, rfl⟩ := h'.of_not_mem hn
    -- the other run has taken some page `x` out
    obtain ⟨x, hxS, hxT⟩ : ∃ x ∈ S, x ∉ T := by
      by_contra hall
      push Not at hall
      have hle := Finset.card_le_card (Finset.insert_subset hnT hall)
      rw [Finset.card_insert_of_notMem hn] at hle
      omega
    have hnx : n ≠ x := by
      rintro rfl
      exact hn hxS
    have hsub' : T ⊆ insert n (S.erase x) := by
      intro y hy
      rcases Finset.mem_insert.mp (hsub hy) with heq | hyS
      · rw [heq]
        exact Finset.mem_insert_self _ _
      · refine Finset.mem_insert_of_mem (Finset.mem_erase.mpr ⟨?_, hyS⟩)
        rintro rfl
        exact hxT hy
    obtain ⟨c₂, hle₂, h₂⟩ := h₁.mono hsub'
    by_cases hxv : x = v
    · rw [hxv] at h₂
      have := ih hcard h₂
      omega
    · -- had it taken `v` out in place of `x`, it would not have done worse
      have hvx : insert n (S.erase x) = insert v (insert n ((S.erase x).erase v)) := by
        rw [Finset.insert_comm, Finset.insert_erase (Finset.mem_erase.mpr ⟨Ne.symm hxv, hv⟩)]
      have hxv' : insert n (S.erase v) = insert x (insert n ((S.erase x).erase v)) := by
        rw [Finset.erase_right_comm, Finset.insert_comm,
          Finset.insert_erase (Finset.mem_erase.mpr ⟨hxv, hxS⟩)]
      rw [hvx] at h₂
      obtain ⟨c₃, hle₃, h₃⟩ := h₂.exchange (q := x) (by simp [Ne.symm hnv]) (by simp [Ne.symm hnx]) (hlatest x hxS)
      rw [← hxv'] at h₃
      have := ih hcard h₃
      omega

end Farthest

/-! ### The least recently used page -/

section last

variable {β : Type} {m : List β}

/-- The last `k` elements, when the rest is known. -/
theorem rtake_append {a : List β} (hlen : m.length = k ∨ a = [] ∧ m.length ≤ k) : (a ++ m).rtake k = m := by
  rw [List.rtake]
  rcases hlen with hlen | ⟨rfl, hlen⟩
  · rw [List.length_append, ← hlen, Nat.add_sub_cancel, List.drop_left]
  · rw [List.nil_append, Nat.sub_eq_zero_of_le hlen, List.drop_zero]

theorem rtake_split (k : ℕ) (d : List β) :
    ∃ a, d = a ++ d.rtake k ∧ ((d.rtake k).length = k ∨ a = [] ∧ (d.rtake k).length ≤ k) := by
  refine ⟨d.take (d.length - k), (List.take_append_drop _ _).symm, ?_⟩
  rw [List.rtake, List.length_drop]
  rcases Nat.le_total k d.length with hle | hle
  · exact Or.inl (by omega)
  · refine Or.inr ⟨?_, by omega⟩
    rw [Nat.sub_eq_zero_of_le hle, List.take_zero]

theorem length_rtake (k : ℕ) (d : List β) : (d.rtake k).length = min k d.length := by
  rw [List.rtake, List.length_drop]
  omega

/-- With more frames there is more in memory. -/
theorem rtake_suffix_rtake {k' : ℕ} (hk : k ≤ k') (d : List β) : d.rtake k <:+ d.rtake k' := by
  rw [List.rtake, List.rtake]
  exact List.drop_suffix_drop_left d (by omega)

end last

section recency

variable {m h : List α}

/-- A reference to `n`, with the pages in memory in order of their last use. -/
def lruStep (k : ℕ) (m : List α) (n : α) : List α :=
  if n ∈ m then m.erase n ++ [n] else if m.length < k then m ++ [n] else m.tail ++ [n]

/-- The distinct pages of a history, in order of their last use. -/
theorem dedup_concat (h : List α) (n : α) : (h ++ [n]).dedup = h.dedup.erase n ++ [n] := by
  induction h with
  | nil => rfl
  | cons a h ih =>
    rw [List.cons_append]
    by_cases ha : a ∈ h
    · rw [List.dedup_cons_of_mem (List.mem_append_left _ ha), List.dedup_cons_of_mem ha, ih]
    by_cases han : a = n
    · have hmem : a ∈ h ++ [n] := List.mem_append_right _ (List.mem_singleton.mpr han)
      have hnot : n ∉ h.dedup := by
        rw [List.mem_dedup, ← han]
        exact ha
      rw [List.dedup_cons_of_mem hmem, List.dedup_cons_of_notMem ha, ih, han, List.erase_cons_head,
        List.erase_of_not_mem hnot]
    · have hnot : a ∉ h ++ [n] := by
        rw [List.mem_append, List.mem_singleton, not_or]
        exact ⟨ha, han⟩
      rw [List.dedup_cons_of_notMem hnot, List.dedup_cons_of_notMem ha, ih,
        List.erase_cons_tail (by simpa using han), List.cons_append]

/-- **The least recently used page is the right one to leave**: the pages in memory stay the last ones of the history. -/
theorem lruStep_rtake (hk : 0 < k) (h : List α) (n : α) :
    lruStep k (h.dedup.rtake k) n = (h ++ [n]).dedup.rtake k := by
  obtain ⟨a, hsplit, hlen⟩ := rtake_split k h.dedup
  have hnodup := h.nodup_dedup
  rw [dedup_concat]
  generalize h.dedup.rtake k = m at hsplit hlen ⊢
  rw [hsplit] at hnodup ⊢
  obtain ⟨-, -, hdisj⟩ := List.nodup_append'.mp hnodup
  unfold lruStep
  by_cases hn : n ∈ m
  · have hna : n ∉ a := fun hmem => hdisj hmem hn
    have hcard : (m.erase n ++ [n]).length = m.length := by
      have hpos := List.length_pos_of_mem hn
      rw [List.length_append, List.length_erase_of_mem hn, List.length_singleton]
      omega
    rw [if_pos hn, List.erase_append_right m hna, List.append_assoc, rtake_append]
    rw [hcard]
    exact hlen
  rw [if_neg hn]
  by_cases hroom : m.length < k
  · -- all pages that have been seen are in memory
    have ha : a = [] := (hlen.resolve_left (Nat.ne_of_lt hroom)).1
    have hle : (m ++ [n]).length ≤ k := by
      rw [List.length_append]
      exact hroom
    rw [if_pos hroom, ha, List.nil_append, List.erase_of_not_mem hn]
    exact (rtake_append (a := []) (Or.inr ⟨rfl, hle⟩)).symm
  · rw [if_neg hroom]
    have hfull : m.length = k := by
      rcases hlen with hlen | ⟨-, hle⟩
      · exact hlen
      · omega
    cases m with
    | nil =>
      rw [List.length_nil] at hfull
      omega
    | cons v m =>
      rw [List.tail_cons]
      have hcard : (m ++ [n]).length = k := by
        rw [List.length_append, List.length_singleton, ← hfull, List.length_cons]
      have herase : ∃ a', (a ++ v :: m).erase n = a' ++ m := by
        by_cases hna : n ∈ a
        · refine ⟨a.erase n ++ [v], ?_⟩
          rw [List.erase_append_left _ hna, List.append_assoc, List.singleton_append]
        · refine ⟨a ++ [v], ?_⟩
          rw [List.erase_append_right _ hna, List.erase_of_not_mem hn, List.append_assoc, List.singleton_append]
      obtain ⟨a', ha'⟩ := herase
      rw [ha', List.append_assoc, rtake_append (Or.inl hcard)]

end recency

end Ucore.Lib.Paging
