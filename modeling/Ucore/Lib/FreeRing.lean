import Ucore.Lib.Ring
import Ucore.Lib.Extents

/-!
# Address-ordered circular free lists

The free list of a heap in which every free block starts with its own size and a link: a circle
through the blocks in the order of their addresses. `FreeRing size next rs` says that the blocks are
the extents `rs`, in ascending order and without overlap. Blocks may touch here; a heap that merges
blocks has a list of extents that is `Coalesced` besides.

The four changes a heap makes to such a list are `insert`, `remove`, `merge` (of a block with the one
that starts where it ends) and `split`. Each says what has to be written where. `insertionPoint` finds
the place for `insert`.
-/

namespace Ucore.Lib

variable {size size' next next' : ℕ → ℕ} {rs lo hi : List Extent} {b c n m k : ℕ}

/-- The addresses of a list of extents. -/
def starts (rs : List Extent) : List ℕ := rs.map Prod.fst

@[simp] theorem starts_append (rs rs' : List Extent) : starts (rs ++ rs') = starts rs ++ starts rs' :=
  List.map_append

@[simp] theorem starts_cons (r : Extent) (rs : List Extent) : starts (r :: rs) = r.1 :: starts rs := rfl

@[simp] theorem starts_nil : starts [] = [] := rfl

theorem mem_starts {a : ℕ} : a ∈ starts rs ↔ ∃ r ∈ rs, r.1 = a := List.mem_map

/-- The blocks of a circular free list. -/
structure FreeRing (size next : ℕ → ℕ) (rs : List Extent) : Prop where
  sep : Sep rs
  size : ∀ r ∈ rs, size r.1 = r.2
  cyc : Cyc next (starts rs)

theorem Sep.starts_sorted (h : Sep rs) : (starts rs).Pairwise (· < ·) := by
  rw [starts, List.pairwise_map]
  refine List.Pairwise.imp_of_mem (fun {r r'} hr _ hle => ?_) h.asc
  have := h.pos r hr
  omega

theorem Sep.starts_nodup (h : Sep rs) : (starts rs).Nodup := h.starts_sorted.imp ne_of_lt

namespace FreeRing

/-- Only the words of the blocks matter. -/
theorem congr (h : FreeRing size next rs) (hsize : ∀ a ∈ starts rs, size' a = size a)
    (hnext : ∀ a ∈ starts rs, next' a = next a) : FreeRing size' next' rs :=
  ⟨h.sep, fun r hr => (hsize r.1 (mem_starts.mpr ⟨r, hr, rfl⟩)).trans (h.size r hr),
    h.cyc.congr hnext⟩

/-- The list cut open in front of `hi`, with the last block `c` singled out. -/
theorem exists_last (h : FreeRing size next (lo ++ hi)) :
    ∃ l c, starts hi ++ starts lo = l ++ [c] := by
  have hne : starts hi ++ starts lo ≠ [] := by
    have := h.cyc.ne_nil
    rw [starts_append] at this
    intro hnil
    obtain ⟨h₁, h₂⟩ := List.append_eq_nil_iff.mp hnil
    exact this (by rw [h₁, h₂]; rfl)
  exact ⟨_, _, (List.dropLast_append_getLast hne).symm⟩

theorem nodup_last (h : Sep (lo ++ hi)) {l : List ℕ} (hl : starts hi ++ starts lo = l ++ [c]) :
    c ∉ l := by
  have hnodup : (starts hi ++ starts lo).Nodup := by
    have := h.starts_nodup
    rw [starts_append] at this
    exact List.perm_append_comm.nodup this
  rw [hl] at hnodup
  intro hmem
  exact (List.nodup_append.mp hnodup).2.2 c hmem c (List.mem_singleton.mpr rfl) rfl

/-- A block is put into the gap between `lo` and `hi`; `c` is the block in front of the gap. -/
theorem insert (h : FreeRing size next (lo ++ hi)) (hn : 0 < n) (hlo : ∀ r ∈ lo, r.1 + r.2 ≤ b)
    (hhi : ∀ r ∈ hi, b + n ≤ r.1) {l : List ℕ} (hl : starts hi ++ starts lo = l ++ [c]) :
    FreeRing (Function.update size b n)
      (Function.update (Function.update next b (next c)) c b) (lo ++ (b, n) :: hi) := by
  obtain ⟨hsepLo, hsepHi, hbetween⟩ := h.sep.of_append
  have hb : ∀ r ∈ lo ++ hi, r.1 ≠ b := by
    intro r hr
    have := h.sep.pos r hr
    rcases List.mem_append.mp hr with hr | hr
    · have := hlo r hr
      omega
    · have := hhi r hr
      omega
  have hb' : b ∉ l ++ [c] := by
    rw [← hl]
    intro hmem
    rw [List.mem_append, or_comm, ← List.mem_append, ← starts_append] at hmem
    obtain ⟨r, hr, heq⟩ := mem_starts.mp hmem
    exact hb r hr heq
  refine ⟨hsepLo.append ⟨?_, List.pairwise_cons.mpr ⟨hhi, hsepHi.asc⟩⟩ ?_, ?_, ?_⟩
  · intro r hr
    rcases List.mem_cons.mp hr with rfl | hr
    · exact hn
    · exact hsepHi.pos r hr
  · intro r hr r' hr'
    rcases List.mem_cons.mp hr' with rfl | hr'
    · exact hlo r hr
    · exact hbetween r hr r' hr'
  · intro r hr
    rcases List.mem_append.mp hr with hr' | hr'
    · rw [Function.update_of_ne (hb r (List.mem_append_left _ hr'))]
      exact h.size r (List.mem_append_left _ hr')
    · rcases List.mem_cons.mp hr' with rfl | hr'
      · exact Function.update_self ..
      · rw [Function.update_of_ne (hb r (List.mem_append_right _ hr'))]
        exact h.size r (List.mem_append_right _ hr')
  · have hcyc : Cyc next (starts hi ++ starts lo) := by
      have := h.cyc
      rw [starts_append] at this
      exact this.rotate
    rw [hl] at hcyc
    have hins := hcyc.insert hb' (nodup_last h.sep hl)
    rw [← hl] at hins
    rw [starts_append, starts_cons]
    exact (show Cyc _ ((b :: starts hi) ++ _) from hins).rotate

/-- A block is taken out; `c` is the block in front of it. -/
theorem remove (h : FreeRing size next (lo ++ (b, n) :: hi)) {l : List ℕ}
    (hl : starts hi ++ starts lo = l ++ [c]) :
    FreeRing size (Function.update next c (next b)) (lo ++ hi) := by
  obtain ⟨hsepLo, hsepHi, hbetween⟩ := h.sep.of_append
  have hsep : Sep (lo ++ hi) :=
    hsepLo.append hsepHi.cons fun r hr r' hr' => hbetween r hr r' (List.mem_cons_of_mem _ hr')
  refine ⟨hsep, fun r hr => h.size r ?_, ?_⟩
  · rcases List.mem_append.mp hr with hr | hr
    · exact List.mem_append_left _ hr
    · exact List.mem_append_right _ (List.mem_cons_of_mem _ hr)
  · have hcyc : Cyc next ((b :: starts hi) ++ starts lo) := by
      have := h.cyc
      rw [starts_append, starts_cons] at this
      exact this.rotate
    rw [List.cons_append, hl] at hcyc
    have hrem := hcyc.remove (nodup_last hsep hl)
    rw [← hl] at hrem
    rw [starts_append]
    exact hrem.rotate

/-- A block gets another size. -/
theorem resize (h : FreeRing size next (lo ++ (b, n) :: hi)) (hk : 0 < k)
    (hhi : ∀ r ∈ hi, b + k ≤ r.1) :
    FreeRing (Function.update size b k) next (lo ++ (b, k) :: hi) := by
  obtain ⟨hsepLo, hsepHi, hbetween⟩ := h.sep.of_append
  have hlo : ∀ r ∈ lo, r.1 + r.2 ≤ b := fun r hr => hbetween r hr (b, n) List.mem_cons_self
  refine ⟨hsepLo.append ⟨?_, List.pairwise_cons.mpr ⟨hhi, hsepHi.cons.asc⟩⟩ ?_, ?_, ?_⟩
  · intro r hr
    rcases List.mem_cons.mp hr with rfl | hr
    · exact hk
    · exact hsepHi.cons.pos r hr
  · intro r hr r' hr'
    rcases List.mem_cons.mp hr' with rfl | hr'
    · exact hlo r hr
    · exact hbetween r hr r' (List.mem_cons_of_mem _ hr')
  · intro r hr
    rcases List.mem_append.mp hr with hr' | hr'
    · have hpos := hsepLo.pos r hr'
      have hle := hlo r hr'
      rw [Function.update_of_ne (by omega)]
      exact h.size r (List.mem_append_left _ hr')
    · rcases List.mem_cons.mp hr' with rfl | hr'
      · exact Function.update_self ..
      · have hle := hhi r hr'
        rw [Function.update_of_ne (by omega)]
        exact h.size r (List.mem_append_right _ (List.mem_cons_of_mem _ hr'))
  · have := h.cyc
    rwa [starts_append, starts_cons] at this ⊢

/-- A block takes in the block that starts where it ends. -/
theorem merge (h : FreeRing size next (lo ++ (b, n) :: (b + n, m) :: hi)) :
    FreeRing (Function.update size b (n + m)) (Function.update next b (next (b + n)))
      (lo ++ (b, n + m) :: hi) := by
  have hsep := h.sep.of_append.2.1
  have hpos := hsep.pos (b, n) List.mem_cons_self
  have hcons : lo ++ (b, n) :: (b + n, m) :: hi = (lo ++ [(b, n)]) ++ (b + n, m) :: hi := by simp
  rw [hcons] at h
  have hrem := h.remove (c := b) (l := starts hi ++ starts lo) (by simp)
  rw [List.append_assoc, List.singleton_append] at hrem
  refine hrem.resize (by simp only at hpos; omega) fun r hr => ?_
  have := (List.pairwise_cons.mp hsep.cons.asc).1 r hr
  simp only at this
  omega

/-- A block is divided. -/
theorem split (h : FreeRing size next (lo ++ (b, n + m) :: hi)) (hn : 0 < n) (hm : 0 < m) :
    FreeRing (Function.update (Function.update size b n) (b + n) m)
      (Function.update (Function.update next (b + n) (next b)) b (b + n))
      (lo ++ (b, n) :: (b + n, m) :: hi) := by
  obtain ⟨hsepLo, hsepHi, hbetween⟩ := h.sep.of_append
  have hhi : ∀ r ∈ hi, b + (n + m) ≤ r.1 := (List.pairwise_cons.mp hsepHi.asc).1
  have hres := h.resize hn fun r hr => by have := hhi r hr; omega
  have hcons : lo ++ (b, n) :: hi = (lo ++ [(b, n)]) ++ hi := by simp
  rw [hcons] at hres
  have hins := hres.insert (b := b + n) (n := m) (c := b) (l := starts hi ++ starts lo) hm ?_
    (fun r hr => by have := hhi r hr; omega) (by simp)
  · rwa [List.append_assoc, List.singleton_append] at hins
  · intro r hr
    rcases List.mem_append.mp hr with hr | hr
    · have := hbetween r hr (b, n + m) List.mem_cons_self
      simp only at this
      omega
    · obtain rfl := List.mem_singleton.mp hr
      exact le_rfl

/-! ### The place of a block -/

/-- The block `a` is the one behind which `b` belongs: the addresses go up past `b` here, or they go
down and `b` is outside. -/
def IsPlace (next : ℕ → ℕ) (b a : ℕ) : Prop :=
  (a < b ∧ b < next a) ∨ (next a ≤ a ∧ (a < b ∨ b < next a))

instance (next : ℕ → ℕ) (b : ℕ) : DecidablePred (IsPlace next b) := fun _ =>
  inferInstanceAs (Decidable (_ ∨ _))

/-- In the list cut open in front of `hi`, an address and a later one are both above `b` and in
order, or on both sides of it, or both below and in order. -/
theorem pairwise_around (h : Sep (lo ++ hi)) (hlo : ∀ r ∈ lo, r.1 < b) (hhi : ∀ r ∈ hi, b < r.1) :
    (starts hi ++ starts lo).Pairwise fun x y =>
      (b < x ∧ x < y) ∨ (b < x ∧ y < b) ∨ (x < y ∧ y < b) := by
  have hlo' : ∀ x ∈ starts lo, x < b := by
    intro x hx
    obtain ⟨r, hr, rfl⟩ := mem_starts.mp hx
    exact hlo r hr
  have hhi' : ∀ x ∈ starts hi, b < x := by
    intro x hx
    obtain ⟨r, hr, rfl⟩ := mem_starts.mp hx
    exact hhi r hr
  obtain ⟨hsepLo, hsepHi, -⟩ := h.of_append
  refine List.pairwise_append.mpr ⟨?_, ?_, fun x hx y hy => Or.inr (Or.inl ⟨hhi' x hx, hlo' y hy⟩)⟩
  · exact hsepHi.starts_sorted.imp_of_mem fun hx _ hlt => Or.inl ⟨hhi' _ hx, hlt⟩
  · exact hsepLo.starts_sorted.imp_of_mem fun _ hy hlt => Or.inr (Or.inr ⟨hlt, hlo' _ hy⟩)

/-- The place of `b` is the block in front of the gap between the blocks below `b` and those
above. -/
theorem isPlace_iff (h : FreeRing size next (lo ++ hi)) (hlo : ∀ r ∈ lo, r.1 < b)
    (hhi : ∀ r ∈ hi, b < r.1) {l : List ℕ} (hl : starts hi ++ starts lo = l ++ [c]) {a : ℕ}
    (ha : a ∈ starts (lo ++ hi)) : IsPlace next b a ↔ a = c := by
  have hrel := pairwise_around h.sep hlo hhi
  have hcyc : Cyc next (starts hi ++ starts lo) := by
    have := h.cyc
    rw [starts_append] at this
    exact this.rotate
  have hside : a < b ∨ b < a := by
    obtain ⟨r, hr, rfl⟩ := mem_starts.mp ha
    exact (List.mem_append.mp hr).imp (hlo r) (hhi r)
  rw [starts_append, List.mem_append, or_comm, ← List.mem_append, hl] at ha
  rw [hl] at hrel hcyc
  constructor
  · intro hplace
    by_contra hne
    -- the block is followed by another one on the way to the gap
    have hmem : a ∈ l := by
      rcases List.mem_append.mp ha with ha | ha
      · exact ha
      · exact absurd (List.mem_singleton.mp ha) hne
    obtain ⟨l₁, l₂, rfl⟩ := List.append_of_mem hmem
    obtain ⟨y, l₃, htail⟩ : ∃ y l₃, l₂ ++ [c] = y :: l₃ := by
      cases l₂ with
      | nil => exact ⟨c, [], rfl⟩
      | cons y l₂ => exact ⟨y, l₂ ++ [c], rfl⟩
    rw [List.append_assoc, List.cons_append, htail] at hrel hcyc
    have hnext := hcyc.next_append
    have hay := (List.pairwise_cons.mp (List.pairwise_append.mp hrel).2.1).1 y List.mem_cons_self
    rw [IsPlace, hnext] at hplace
    omega
  · rintro rfl
    have hnext := hcyc.next_last
    cases l with
    | nil =>
      rw [List.headD_nil] at hnext
      rw [IsPlace, hnext]
      omega
    | cons x l =>
      rw [List.headD_cons] at hnext
      have hxa := (List.pairwise_append.mp hrel).2.2 x List.mem_cons_self a
        (List.mem_singleton.mpr rfl)
      rw [IsPlace, hnext]
      omega

end FreeRing

/-! ### Putting a block back -/

/-- The members of a list of extents, counted. -/
def total (rs : List Extent) : ℕ := (rs.map Prod.snd).sum

@[simp] theorem total_nil : total [] = 0 := rfl

@[simp] theorem total_cons (r : Extent) (rs : List Extent) : total (r :: rs) = r.2 + total rs := by
  simp [total]

@[simp] theorem total_append (rs rs' : List Extent) : total (rs ++ rs') = total rs + total rs' := by
  simp [total]

/-- Extents that end at most at `e`: the last one ends there or none does. -/
theorem Coalesced.touch_last {e : ℕ} (h : Coalesced lo) (hlo : ∀ r ∈ lo, r.1 + r.2 ≤ e) :
    (∀ r ∈ lo, r.1 + r.2 < e) ∨
      ∃ lo' c k, lo = lo' ++ [(c, k)] ∧ c + k = e ∧ ∀ r ∈ lo', r.1 + r.2 < c := by
  rcases List.eq_nil_or_concat lo with rfl | ⟨lo', ⟨c, k⟩, rfl⟩
  · exact Or.inl (by simp)
  rw [List.concat_eq_append] at h hlo ⊢
  obtain ⟨-, hlast, hgap⟩ := h.of_append
  have hc := hlast.pos (c, k) List.mem_cons_self
  have hgap' : ∀ r ∈ lo', r.1 + r.2 < c := fun r hr => hgap r hr (c, k) List.mem_cons_self
  have hend := hlo (c, k) (by simp)
  simp only at hc hend
  by_cases htouch : c + k = e
  · exact Or.inr ⟨lo', c, k, rfl, htouch, hgap'⟩
  · left
    intro r hr
    rcases List.mem_append.mp hr with hr | hr
    · have := hgap' r hr
      omega
    · obtain rfl := List.mem_singleton.mp hr
      simp only
      omega

/-- Extents that start at least at `e`: the first one starts there or none does. -/
theorem Coalesced.touch_head {e : ℕ} (h : Coalesced hi) (hhi : ∀ r ∈ hi, e ≤ r.1) :
    (∀ r ∈ hi, e < r.1) ∨ ∃ m hi', hi = (e, m) :: hi' ∧ ∀ r ∈ hi', e + m < r.1 := by
  cases hi with
  | nil => exact Or.inl (by simp)
  | cons r hi =>
    obtain ⟨x, m⟩ := r
    have hgap : ∀ r ∈ hi, x + m < r.1 := (List.pairwise_cons.mp h.gap).1
    have hx := hhi (x, m) List.mem_cons_self
    simp only at hx
    by_cases htouch : x = e
    · subst htouch
      exact Or.inr ⟨m, hi, rfl, hgap⟩
    · left
      intro r hr
      rcases List.mem_cons.mp hr with rfl | hr
      · simp only
        omega
      · have := hgap r hr
        omega

section link

variable (size next b c)

/-- The sizes once a block `b` behind `c` has taken in the block after it, if the two touch. -/
def joinSize : ℕ → ℕ :=
  if b + size b = next c then Function.update size b (size b + size (next c)) else size

/-- The links once `b` is linked to what comes after it. -/
def joinNext : ℕ → ℕ :=
  Function.update next b (if b + size b = next c then next (next c) else next c)

/-- The sizes once the block `c` has taken in the block `b` after it, if the two touch. -/
def linkSize : ℕ → ℕ :=
  let size' := joinSize size next b c
  if c + size' c = b then Function.update size' c (size' c + size' b) else size'

/-- The links once `c` is linked to what comes after it. -/
def linkNext : ℕ → ℕ :=
  let next' := joinNext size next b c
  Function.update next' c (if c + joinSize size next b c c = b then next' b else b)

end link

namespace FreeRing

theorem size_of_mem (h : FreeRing size next rs) {a : ℕ} (ha : a ∈ starts rs) : (a, size a) ∈ rs := by
  obtain ⟨⟨a, k⟩, hr, rfl⟩ := mem_starts.mp ha
  rwa [h.size _ hr]

/-- The blocks, read off from their addresses. -/
theorem map_starts (h : FreeRing size next rs) : (starts rs).map (fun a => (a, size a)) = rs := by
  rw [starts, List.map_map]
  conv_rhs => rw [← List.map_id rs]
  refine List.map_congr_left fun r hr => ?_
  simp only [Function.comp, h.size r hr, id]

/-- The block in front of the gap, and what it is linked to. -/
theorem next_last (h : FreeRing size next (lo ++ hi)) {l : List ℕ}
    (hl : starts hi ++ starts lo = l ++ [c]) : next c = (starts hi ++ starts lo).headD c := by
  have hcyc : Cyc next (starts hi ++ starts lo) := by
    have := h.cyc
    rw [starts_append] at this
    exact this.rotate
  rw [hl] at hcyc ⊢
  rw [hcyc.next_last]
  cases l <;> rfl

theorem last_mem {l : List ℕ} (hl : starts hi ++ starts lo = l ++ [c]) : c ∈ starts (lo ++ hi) := by
  rw [starts_append, List.mem_append, or_comm, ← List.mem_append, hl]
  simp

/-- The block is put in and takes in the block after it. One block `r₀` touches neither end. -/
theorem join (h : FreeRing size next (lo ++ hi)) (hhi : Coalesced hi) (hb : 0 < size b)
    (hlob : ∀ r ∈ lo, r.1 + r.2 ≤ b) (hbhi : ∀ r ∈ hi, b + size b ≤ r.1) {l : List ℕ}
    (hl : starts hi ++ starts lo = l ++ [c]) {r₀ : Extent} (hr₀ : r₀ ∈ lo ++ hi)
    (hstart : b + size b ≠ r₀.1) :
    ∃ n₁ hi₁, FreeRing (joinSize size next b c) (Function.update (joinNext size next b c) c b)
        (lo ++ (b, n₁) :: hi₁) ∧ Coalesced ((b, n₁) :: hi₁) ∧
      (∃ l₁, starts hi₁ ++ starts lo = l₁ ++ [c]) ∧ (r₀ ∈ hi → r₀ ∈ hi₁) ∧ starts hi₁ ⊆ starts hi ∧ n₁ + total hi₁ = total hi + size b ∧
      ∀ q, q ∈ flat ((b, n₁) :: hi₁) ↔ q ∈ flat hi ∨ (b ≤ q ∧ q < b + size b) := by
  have hins := h.insert hb hlob hbhi hl
  rw [Function.update_eq_self] at hins
  have hcmem := last_mem hl
  have hnextmem : next c ∈ starts (lo ++ hi) := h.cyc.next_mem hcmem
  have hbc : c ≠ b := by
    obtain ⟨r, hr, rfl⟩ := mem_starts.mp hcmem
    have := h.sep.pos r hr
    rcases List.mem_append.mp hr with hr | hr
    · have := hlob r hr
      omega
    · have := hbhi r hr
      omega
  rcases hhi.touch_head hbhi with hgap | ⟨m, hi', rfl, hgap⟩
  · have hno : b + size b ≠ next c := by
      obtain ⟨r, hr, heq⟩ := mem_starts.mp hnextmem
      rcases List.mem_append.mp hr with hr' | hr'
      · have := hlob r hr'
        omega
      · have := hgap r hr'
        omega
    have hjs : joinSize size next b c = size := if_neg hno
    have hjn : joinNext size next b c = Function.update next b (next c) := by
      rw [joinNext, if_neg hno]
    rw [hjs, hjn]
    refine ⟨size b, hi, hins, hhi.cons hb hgap, ⟨l, hl⟩, id, fun _ h => h, ?_, fun q => ?_⟩
    · omega
    · rw [flat_cons, List.mem_append, Extent.mem_pages]
      exact or_comm
  · -- the list has another block besides the one that is taken in
    obtain ⟨x, l', rfl⟩ := List.exists_cons_of_ne_nil (l := l) (by
      rintro rfl
      have hone : starts ((b + size b, m) :: hi') ++ starts lo = [c] := hl
      rw [starts_cons, List.cons_append] at hone
      obtain ⟨hc, hnil⟩ := List.cons.inj hone
      have hall : ∀ a ∈ starts (lo ++ (b + size b, m) :: hi'), a = b + size b := by
        intro a ha
        rw [starts_append, List.mem_append, or_comm, ← List.mem_append, starts_cons,
          List.cons_append, hnil, List.mem_singleton] at ha
        exact ha
      exact hstart (hall r₀.1 (mem_starts.mpr ⟨r₀, hr₀, rfl⟩)).symm)
    obtain ⟨hx, hl'⟩ := List.cons.inj hl
    have hyes : b + size b = next c := by
      rw [h.next_last hl]
      rfl
    have hcne : b + size b ≠ c := by
      intro heq
      exact nodup_last h.sep hl (by rw [← heq, ← hx]; exact List.mem_cons_self)
    have hm : size (b + size b) = m := h.size (b + size b, m) (by simp)
    have hmerge := hins.merge
    rw [Function.update_of_ne hcne, Function.update_of_ne (by omega)] at hmerge
    have hjs : joinSize size next b c = Function.update size b (size b + m) := by
      rw [joinSize, if_pos hyes, ← hyes, hm]
    have hjn : Function.update (joinNext size next b c) c b =
        Function.update (Function.update (Function.update next b (next c)) c b) b
          (next (b + size b)) := by
      rw [joinNext, if_pos hyes, ← hyes, Function.update_comm hbc.symm, Function.update_comm hbc.symm,
        Function.update_idem]
    refine ⟨size b + m, hi', ?_, ?_, ?_, ?_, ?_, ?_, fun q => ?_⟩
    · rw [hjs, hjn]
      exact hmerge
    · refine Coalesced.cons ?_ (by simp only; omega) fun r hr => ?_
      · exact (show Coalesced ([(b + size b, m)] ++ hi') from hhi).of_append.2.1
      · have := hgap r hr
        simp only
        omega
    · exact ⟨l', hl'⟩
    · intro hr
      rcases List.mem_cons.mp hr with rfl | hr
      · exact absurd rfl hstart
      · exact hr
    · exact fun a ha => List.mem_cons_of_mem _ ha
    · simp only [total_cons]
      omega
    · simp only [flat_cons, List.mem_append, Extent.mem_pages]
      constructor
      · rintro (hq | hq)
        · by_cases hqb : q < b + size b
          · exact Or.inr ⟨hq.1, hqb⟩
          · exact Or.inl (Or.inl (by omega))
        · exact Or.inl (Or.inr hq)
      · rintro ((hq | hq) | hq)
        · exact Or.inl (by omega)
        · exact Or.inr hq
        · exact Or.inl (by omega)

/-- The block has been put in; now the block before it takes it in. -/
theorem joinLast (h : FreeRing size next (lo ++ (b, n) :: hi)) (hlo : Coalesced lo)
    (hhi : Coalesced ((b, n) :: hi)) (hlob : ∀ r ∈ lo, r.1 + r.2 ≤ b) {l : List ℕ}
    (hl : starts hi ++ starts lo = l ++ [c]) {r₀ : Extent} (hr₀ : r₀ ∈ lo ++ hi)
    (hend : r₀.1 + r₀.2 ≠ b) :
    ∃ rs', FreeRing (if c + size c = b then Function.update size c (size c + size b) else size)
        (Function.update next c (if c + size c = b then next b else next c)) rs' ∧ Coalesced rs' ∧
      c ∈ starts rs' ∧ r₀ ∈ rs' ∧ starts rs' ⊆ b :: starts (lo ++ hi) ∧
      total rs' = total lo + (n + total hi) ∧
      ∀ q, q ∈ flat rs' ↔ q ∈ flat lo ∨ q ∈ flat ((b, n) :: hi) := by
  have hn : size b = n := h.size (b, n) (by simp)
  have hcmem := last_mem hl
  rcases hlo.touch_last hlob with hgap | ⟨lo', c', k, rfl, hck, hgap⟩
  · have hno : c + size c ≠ b := by
      obtain ⟨r, hr, rfl⟩ := mem_starts.mp hcmem
      rcases List.mem_append.mp hr with hr | hr
      · rw [h.size r (List.mem_append_left _ hr)]
        exact (hgap r hr).ne
      · have hbelow := (List.pairwise_cons.mp hhi.gap).1 r hr
        simp only at hbelow
        omega
    rw [if_neg hno, if_neg hno, Function.update_eq_self]
    refine ⟨lo ++ (b, n) :: hi, h, hlo.append hhi ?_, ?_, ?_, ?_, ?_, fun q => ?_⟩
    · intro r hr r' hr'
      have := hgap r hr
      rcases List.mem_cons.mp hr' with rfl | hr'
      · exact this
      · have := (List.pairwise_cons.mp hhi.gap).1 r' hr'
        simp only at this
        omega
    · rw [starts_append, List.mem_append] at hcmem
      rw [starts_append, List.mem_append, starts_cons]
      exact hcmem.imp id (List.mem_cons_of_mem _)
    · exact (List.mem_append.mp hr₀).elim (List.mem_append_left _) fun hr =>
        List.mem_append_right _ (List.mem_cons_of_mem _ hr)
    · intro a ha
      simp only [starts_append, starts_cons, List.mem_append, List.mem_cons] at ha ⊢
      tauto
    · simp only [total_append, total_cons]
    · rw [flat_append, List.mem_append]
  · -- the last block below `b` is the one in front of the gap
    have hcc : c' = c := by
      have hlast : (starts hi ++ starts (lo' ++ [(c', k)])) = (starts hi ++ starts lo') ++ [c'] := by
        simp
      rw [hlast] at hl
      exact (List.append_inj' hl rfl).2 |> List.cons.inj |>.1
    subst hcc
    have hk : size c' = k := h.size (c', k) (by simp)
    subst hck
    rw [hk, hn, if_pos rfl, if_pos rfl]
    have hcons : (lo' ++ [(c', k)]) ++ (c' + k, n) :: hi = lo' ++ (c', k) :: (c' + k, n) :: hi := by
      simp
    rw [hcons] at h
    have hmerge := h.merge
    have hkpos := hlo.pos (c', k) (by simp)
    simp only at hkpos
    refine ⟨lo' ++ (c', k + n) :: hi, hmerge, ?_, by simp, ?_, ?_, ?_, fun q => ?_⟩
    · refine hlo.of_append.1.append (Coalesced.cons ?_ (by simp only; omega) fun r hr => ?_) ?_
      · exact (show Coalesced ([(c' + k, n)] ++ hi) from hhi).of_append.2.1
      · have := (List.pairwise_cons.mp hhi.gap).1 r hr
        simp only at this ⊢
        omega
      · intro r hr r' hr'
        have := hgap r hr
        rcases List.mem_cons.mp hr' with rfl | hr'
        · exact this
        · have := (List.pairwise_cons.mp hhi.gap).1 r' hr'
          simp only at this
          omega
    · rcases List.mem_append.mp hr₀ with hr | hr
      · rcases List.mem_append.mp hr with hr | hr
        · exact List.mem_append_left _ hr
        · obtain rfl := List.mem_singleton.mp hr
          exact absurd rfl hend
      · exact List.mem_append_right _ (List.mem_cons_of_mem _ hr)
    · intro a ha
      simp only [starts_append, starts_cons, starts_nil, List.mem_append, List.mem_cons] at ha ⊢
      tauto
    · simp only [total_append, total_cons, total_nil]
      omega
    · simp only [flat_append, flat_cons, flat_nil, List.mem_append, Extent.mem_pages]
      constructor
      · rintro (hq | hq | hq)
        · exact Or.inl (Or.inl hq)
        · by_cases hqb : q < c' + k
          · exact Or.inl (Or.inr (Or.inl ⟨hq.1, hqb⟩))
          · exact Or.inr (Or.inl (by omega))
        · exact Or.inr (Or.inr hq)
      · rintro ((hq | hq | hq) | hq | hq)
        · exact Or.inl hq
        · exact Or.inr (Or.inl (by omega))
        · cases hq
        · exact Or.inr (Or.inl (by omega))
        · exact Or.inr (Or.inr hq)

/-- **A block is put back and joined to the blocks it touches.** The block `r₀` touches neither
end. -/
theorem link (h : FreeRing size next rs) (hrs : Coalesced rs) (hb : 0 < size b)
    (hout : ∀ q, b ≤ q → q < b + size b → q ∉ flat rs) {r₀ : Extent} (hr₀ : r₀ ∈ rs)
    (hstart : b + size b ≠ r₀.1) (hend : r₀.1 + r₀.2 ≠ b) :
    ∃ c ∈ starts rs, (∀ a ∈ starts rs, IsPlace next b a ↔ a = c) ∧
      ∃ rs', FreeRing (linkSize size next b c) (linkNext size next b c) rs' ∧ Coalesced rs' ∧
        c ∈ starts rs' ∧ r₀ ∈ rs' ∧ starts rs' ⊆ b :: starts rs ∧ total rs' = total rs + size b ∧
        ∀ q, q ∈ flat rs' ↔ q ∈ flat rs ∨ (b ≤ q ∧ q < b + size b) := by
  obtain ⟨lo, hi, rfl, hlob, hbhi⟩ := h.sep.split_at hb hout
  obtain ⟨l, c, hl⟩ := h.exists_last
  obtain ⟨hlo, hhi, -⟩ := hrs.of_append
  have hcmem := last_mem hl
  have hlob' : ∀ r ∈ lo, r.1 < b := by
    intro r hr
    have := hlo.pos r hr
    have := hlob r hr
    omega
  have hbhi' : ∀ r ∈ hi, b < r.1 := fun r hr => by have := hbhi r hr; omega
  have hbc : c ≠ b := by
    obtain ⟨r, hr, rfl⟩ := mem_starts.mp hcmem
    rcases List.mem_append.mp hr with hr | hr
    · exact (hlob' r hr).ne
    · exact (hbhi' r hr).ne'
  refine ⟨c, hcmem, fun a ha => h.isPlace_iff hlob' hbhi' hl ha, ?_⟩
  obtain ⟨n₁, hi₁, hjoin, hco, ⟨l₁, hl₁⟩, hr₀', hsub, htot, hflat⟩ :=
    h.join hhi hb hlob hbhi hl hr₀ hstart
  obtain ⟨rs', hring, hco', hc', hr', hsub', htot', hflat'⟩ :=
    hjoin.joinLast hlo hco hlob hl₁
      ((List.mem_append.mp hr₀).elim (List.mem_append_left _) fun hr => List.mem_append_right _ (hr₀' hr))
      hend
  refine ⟨rs', ?_, hco', hc', hr', ?_, ?_, ?_⟩
  · rw [Function.update_idem, Function.update_self, Function.update_of_ne hbc.symm] at hring
    exact hring
  · intro a ha
    have ha' := hsub' ha
    simp only [starts_append, List.mem_cons, List.mem_append] at ha' ⊢
    exact ha'.imp id (Or.imp id fun ha => hsub ha)
  · rw [htot', total_append]
    omega
  · intro q
    rw [hflat', hflat, flat_append, List.mem_append, or_assoc]

/-! ### Taking a block -/

/-- The list cut open at the block `b` behind `c`. -/
theorem exists_pred (h : FreeRing size next rs) (hc : c ∈ starts rs) (hb : next c = b) (hne : c ≠ b) :
    ∃ lo hi l, rs = lo ++ (b, size b) :: hi ∧ starts hi ++ starts lo = l ++ [c] := by
  have hmem : b ∈ starts rs := hb ▸ h.cyc.next_mem hc
  obtain ⟨lo, hi, rfl⟩ := List.append_of_mem (h.size_of_mem hmem)
  have hcyc : Cyc next (b :: (starts hi ++ starts lo)) := by
    have := h.cyc
    rw [starts_append, starts_cons] at this
    exact this.rotate
  have hnodup : (b :: (starts hi ++ starts lo)).Nodup := by
    have := h.sep.starts_nodup
    rw [starts_append, starts_cons] at this
    exact List.perm_append_comm.nodup this
  have hc' : c ∈ starts hi ++ starts lo := by
    simp only [starts_append, starts_cons, List.mem_append, List.mem_cons] at hc ⊢
    tauto
  obtain ⟨l, c', hl⟩ : ∃ l c', starts hi ++ starts lo = l ++ [c'] :=
    ⟨_, _, (List.dropLast_append_getLast (List.ne_nil_of_mem hc')).symm⟩
  have heq : c = c' :=
    hcyc.eq_last hnodup (show b :: (starts hi ++ starts lo) = (b :: l) ++ [c'] by rw [hl]; rfl) (List.mem_cons_of_mem _ hc') hb
  exact ⟨lo, hi, l, rfl, heq ▸ hl⟩

/-- **A block is taken whole.** -/
theorem takeAll (h : FreeRing size next rs) (hrs : Coalesced rs) (hc : c ∈ starts rs)
    (hb : next c = b) (hne : c ≠ b) :
    ∃ rs', FreeRing size (Function.update next c (next b)) rs' ∧ Coalesced rs' ∧ c ∈ starts rs' ∧
      (∀ r ∈ rs, r.1 ≠ b → r ∈ rs') ∧ (∀ r ∈ rs', r ∈ rs ∧ Extent.Apart (b, size b) r) ∧
      size b + total rs' = total rs ∧
      ∀ q, q ∈ flat rs ↔ q ∈ flat rs' ∨ (b ≤ q ∧ q < b + size b) := by
  obtain ⟨lo, hi, l, rfl, hl⟩ := h.exists_pred hc hb hne
  obtain ⟨hlo, hhi, hbetween⟩ := hrs.of_append
  have hhi' : Coalesced hi := (show Coalesced ([(b, size b)] ++ hi) from hhi).of_append.2.1
  refine ⟨lo ++ hi, h.remove hl, ?_, last_mem hl, ?_, ?_, ?_, fun q => ?_⟩
  · exact hlo.append hhi' fun r hr r' hr' => hbetween r hr r' (List.mem_cons_of_mem _ hr')
  · intro r hr hrb
    rcases List.mem_append.mp hr with hr | hr
    · exact List.mem_append_left _ hr
    · rcases List.mem_cons.mp hr with rfl | hr
      · exact absurd rfl hrb
      · exact List.mem_append_right _ hr
  · intro r hr
    rcases List.mem_append.mp hr with hr | hr
    · exact ⟨List.mem_append_left _ hr, Or.inr (hbetween r hr _ List.mem_cons_self).le⟩
    · exact ⟨List.mem_append_right _ (List.mem_cons_of_mem _ hr),
        Or.inl ((List.pairwise_cons.mp hhi.gap).1 r hr).le⟩
  · simp only [total_append, total_cons]
    omega
  · simp only [flat_append, flat_cons, List.mem_append, Extent.mem_pages]
    tauto

/-- **The front of a block is taken**, `k` of its members. -/
theorem takeFront (h : FreeRing size next rs) (hrs : Coalesced rs) (hc : c ∈ starts rs)
    (hb : next c = b) (hne : c ≠ b) (hk : 0 < k) (hlt : k < size b) :
    ∃ rs', FreeRing (Function.update size (b + k) (size b - k))
        (Function.update (Function.update next c (b + k)) (b + k) (next b)) rs' ∧ Coalesced rs' ∧
      c ∈ starts rs' ∧ (∀ r ∈ rs, r.1 ≠ b → r ∈ rs') ∧
      (∀ r ∈ rs', (r ∈ rs ∨ r = (b + k, size b - k)) ∧ Extent.Apart (b, k) r) ∧
      k + total rs' = total rs ∧ ∀ q, q ∈ flat rs ↔ q ∈ flat rs' ∨ (b ≤ q ∧ q < b + k) := by
  obtain ⟨lo, hi, l, rfl, hl⟩ := h.exists_pred hc hb hne
  obtain ⟨hlo, hhi, hbetween⟩ := hrs.of_append
  have hgap : ∀ r ∈ hi, b + size b < r.1 := (List.pairwise_cons.mp hhi.gap).1
  have hhi' : Coalesced hi := (show Coalesced ([(b, size b)] ++ hi) from hhi).of_append.2.1
  have hbelow : ∀ r ∈ lo, r.1 + r.2 < b := fun r hr => hbetween r hr _ List.mem_cons_self
  have hcmem := last_mem hl
  have hsplit : FreeRing size next (lo ++ (b, k + (size b - k)) :: hi) := by
    rwa [Nat.add_sub_cancel' hlt.le]
  have hck : c ≠ b + k := by
    obtain ⟨r, hr, rfl⟩ := mem_starts.mp hcmem
    rcases List.mem_append.mp hr with hr | hr
    · have := hbelow r hr
      omega
    · have := hgap r hr
      omega
  have hl' : starts ((b + k, size b - k) :: hi) ++ starts lo = ((b + k) :: l) ++ [c] := by
    rw [starts_cons, List.cons_append, hl]
    rfl
  have hrem := (hsplit.split hk (by omega)).remove hl'
  rw [Function.update_self] at hrem
  refine ⟨lo ++ (b + k, size b - k) :: hi, hrem.congr ?_ ?_, ?_, ?_, ?_, ?_, ?_, fun q => ?_⟩
  · -- the size of the block that is taken is of no account
    intro a ha
    have hab : a ≠ b := by
      obtain ⟨r, hr, rfl⟩ := mem_starts.mp ha
      rcases List.mem_append.mp hr with hr | hr
      · have := hbelow r hr
        omega
      · rcases List.mem_cons.mp hr with rfl | hr
        · simp only
          omega
        · have := hgap r hr
          omega
    by_cases hak : a = b + k
    · subst hak
      simp only [Function.update_self]
    · rw [Function.update_of_ne hak, Function.update_of_ne hak, Function.update_of_ne hab]
  · intro a ha
    have hab : a ≠ b := by
      obtain ⟨r, hr, rfl⟩ := mem_starts.mp ha
      rcases List.mem_append.mp hr with hr | hr
      · have := hbelow r hr
        omega
      · rcases List.mem_cons.mp hr with rfl | hr
        · simp only
          omega
        · have := hgap r hr
          omega
    rw [Function.update_comm hck]
    by_cases hac : a = c
    · subst hac
      simp only [Function.update_self]
    · rw [Function.update_of_ne hac, Function.update_of_ne hac, Function.update_of_ne hab]
  · refine hlo.append (hhi'.cons (by simp only; omega) fun r hr => ?_) fun r hr r' hr' => ?_
    · have := hgap r hr
      simp only
      omega
    · have := hbelow r hr
      rcases List.mem_cons.mp hr' with rfl | hr'
      · simp only
        omega
      · have := hgap r' hr'
        omega
  · rw [starts_append, List.mem_append] at hcmem
    rw [starts_append, List.mem_append, starts_cons]
    exact hcmem.imp id (List.mem_cons_of_mem _)
  · intro r hr hrb
    rcases List.mem_append.mp hr with hr | hr
    · exact List.mem_append_left _ hr
    · rcases List.mem_cons.mp hr with rfl | hr
      · exact absurd rfl hrb
      · exact List.mem_append_right _ (List.mem_cons_of_mem _ hr)
  · intro r hr
    rcases List.mem_append.mp hr with hr | hr
    · exact ⟨Or.inl (List.mem_append_left _ hr), Or.inr (hbelow r hr).le⟩
    · rcases List.mem_cons.mp hr with rfl | hr
      · exact ⟨Or.inr rfl, Or.inl le_rfl⟩
      · have := hgap r hr
        exact ⟨Or.inl (List.mem_append_right _ (List.mem_cons_of_mem _ hr)),
          Or.inl (by simp only; omega)⟩
  · simp only [total_append, total_cons]
    omega
  · simp only [flat_append, flat_cons, List.mem_append, Extent.mem_pages]
    constructor
    · rintro (hq | hq | hq)
      · exact Or.inl (Or.inl hq)
      · by_cases hqk : q < b + k
        · exact Or.inr ⟨hq.1, hqk⟩
        · exact Or.inl (Or.inr (Or.inl (by omega)))
      · exact Or.inl (Or.inr (Or.inr hq))
    · rintro ((hq | hq | hq) | hq)
      · exact Or.inl hq
      · exact Or.inr (Or.inl (by omega))
      · exact Or.inr (Or.inr hq)
      · exact Or.inr (Or.inl (by omega))

/-- The links lead up, except for the one of the last block. -/
theorem descent (h : FreeRing size next rs) :
    ((starts rs).filter fun a => next a ≤ a).length = 1 := by
  obtain ⟨l, c, hl⟩ : ∃ l c, starts rs = l ++ [c] :=
    ⟨_, _, (List.dropLast_append_getLast h.cyc.ne_nil).symm⟩
  have hcyc := h.cyc
  have hsorted := h.sep.starts_sorted
  rw [hl] at hcyc hsorted
  have hup : ∀ a ∈ l, ¬ next a ≤ a := by
    intro a ha
    obtain ⟨l₁, l₂, rfl⟩ := List.append_of_mem ha
    obtain ⟨y, l₃, htail⟩ : ∃ y l₃, l₂ ++ [c] = y :: l₃ := by
      cases l₂ with
      | nil => exact ⟨c, [], rfl⟩
      | cons y l₂ => exact ⟨y, l₂ ++ [c], rfl⟩
    rw [List.append_assoc, List.cons_append, htail] at hcyc hsorted
    rw [hcyc.next_append, not_le]
    exact (List.pairwise_cons.mp (List.pairwise_append.mp hsorted).2.1).1 y List.mem_cons_self
  have hdown : next c ≤ c := by
    rw [hcyc.next_last]
    cases l with
    | nil => exact le_rfl
    | cons a l =>
      exact ((List.pairwise_append.mp hsorted).2.2 a List.mem_cons_self c
        (List.mem_singleton.mpr rfl)).le
  have hnone : l.filter (fun a => next a ≤ a) = [] :=
    List.filter_eq_nil_iff.mpr fun a ha => by simpa using hup a ha
  rw [hl, List.filter_append, hnone, List.nil_append, List.filter_cons_of_pos (by simpa using hdown)]
  rfl

/-! ### Searching -/

/-- The list cut open at the block `a`. -/
theorem cut_at (h : FreeRing size next rs) {a : ℕ} (ha : a ∈ starts rs) :
    ∃ l, Cyc next (a :: l) ∧ (a :: l).Perm (starts rs) := by
  obtain ⟨l₁, l₂, hl⟩ := List.append_of_mem ha
  refine ⟨l₂ ++ l₁, ?_, ?_⟩
  · have := h.cyc
    rw [hl] at this
    exact this.rotate
  · rw [hl, ← List.cons_append]
    exact List.perm_append_comm

/-- A search that stops where `p` holds ends there, if `p` holds somewhere on the list. -/
theorem walk_exists (h : FreeRing size next rs) {p : ℕ → Prop} [DecidablePred p] {a : ℕ}
    (ha : a ∈ starts rs) (hex : ∃ x ∈ starts rs, p x) (hn : rs.length ≤ n) :
    ∃ x ∈ starts rs, walk next p n a = some x ∧ p x := by
  obtain ⟨l, hcyc, hperm⟩ := h.cut_at ha
  have hlen : (a :: l).length ≤ n := by
    rw [hperm.length_eq, starts, List.length_map]
    exact hn
  obtain ⟨l₃, x, l₄, heq, hwalk, hpx, -⟩ :=
    Linked.walk (show Linked next (a :: l) a from hcyc)
      (hex.imp fun x hx => ⟨hperm.mem_iff.mpr hx.1, hx.2⟩) hlen
  exact ⟨x, hperm.mem_iff.mp (by rw [heq]; simp), hwalk, hpx⟩

/-- The search for a block behind the current one that satisfies `p` comes to an end: at such a
block, or having seen that there is none. -/
theorem walk_next (h : FreeRing size next rs) (p : ℕ → Prop) [DecidablePred p] {a : ℕ}
    (ha : a ∈ starts rs) (hn : rs.length ≤ n) :
    ∃ x ∈ starts rs, walk next (fun x => p (next x) ∨ next x = a) n a = some x ∧
      (¬ p (next x) → ∀ y ∈ starts rs, ¬ p y) := by
  obtain ⟨l, hcyc, hperm⟩ := h.cut_at ha
  have hnodup : (a :: l).Nodup := hperm.nodup_iff.mpr h.sep.starts_nodup
  have hlen : (a :: l).length ≤ n := by
    rw [hperm.length_eq, starts, List.length_map]
    exact hn
  obtain ⟨c, hc, hback⟩ := hcyc.exists_prev (List.mem_cons_self (a := a) (l := l))
  obtain ⟨l₃, x, l₄, heq, hwalk, hpx, hno⟩ :=
    Linked.walk (p := fun x => p (next x) ∨ next x = a) (show Linked next (a :: l) a from hcyc)
      ⟨c, hc, Or.inr hback⟩ hlen
  refine ⟨x, hperm.mem_iff.mp (by rw [heq]; simp), hwalk, fun hnp y hy hpy => ?_⟩
  -- the search ends at the last block, and every other block is behind one it has passed
  have hlast : l₄ = [] := by
    rcases List.eq_nil_or_concat l₄ with hnil | ⟨l₅, z, rfl⟩
    · exact hnil
    · have hz : a :: l = (l₃ ++ x :: l₅) ++ [z] := by rw [heq]; simp
      have hxz : x = z :=
        hcyc.eq_last hnodup hz (by rw [heq]; simp) (hpx.resolve_left hnp)
      rw [hz, hxz, List.append_assoc] at hnodup
      have := (List.nodup_append.mp hnodup).2.1
      simp at this
  obtain ⟨x', hx', rfl⟩ := hcyc.exists_prev (hperm.mem_iff.mpr hy)
  rw [heq, hlast] at hx'
  rcases List.mem_append.mp hx' with hx' | hx'
  · exact hno x' hx' (Or.inl hpy)
  · obtain rfl := List.mem_singleton.mp hx'
    exact hnp hpy

end FreeRing

end Ucore.Lib
