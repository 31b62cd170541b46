import Ucore.Lab3.Replacement
import Ucore.Lib.Paging

/-!
# Policies compared

Whole runs of the simulator, as runs of a memory that is paged on demand.

* `accesses_demand`: a run with any policy is such a run, and its misses are the faults. The runs of `OPT` take out a page
  whose next use is the latest (`accesses_farthest`): the index that the loop over the future finds is the distance of the
  next use (`whenReferenced_eq`), and the length of the list stands for never.
* `opt_optimal` is the optimality of `OPT`.
* `lru_stack`: under `LRU` the memory is the end of the list of the pages in order of their last use, for any number of
  frames.
-/

namespace Ucore.Lab3

open Ucore.Lib Ucore.Lib.Paging

variable {o : ReplacementOptions} {s s' : Replacement} {n : ℤ} {k : ℕ}

/-! ### Runs on demand -/

/-- A reference is a hit, or a fault after which the page is in memory. -/
theorem Effect.demand {memory : List ℤ} {count misses c : ℕ} {ns : List ℤ} (h : Effect o s n memory count misses)
    (hok : s.Ok o.frames) (hrest : Demand o.frames memory.toFinset ns c) :
    ∃ c', Demand o.frames s.memory.toFinset (n :: ns) c' ∧ misses + c = s.misses + c' := by
  obtain ⟨hnodup, hcount, hle⟩ := h.ok hok
  have hcard : memory.toFinset.card ≤ o.frames := by
    rw [List.toFinset_card_of_nodup hnodup, ← hcount]
    exact hle
  cases h with
  | hit hn =>
    have hsame : (if o.policy = .lru then s.memory.erase n ++ [n] else s.memory).toFinset = s.memory.toFinset := by
      split_ifs
      · ext x
        simp only [List.mem_toFinset, List.mem_append, List.mem_singleton, hok.nodup.mem_erase_iff]
        constructor
        · rintro (⟨-, hx⟩ | rfl)
          · exact hx
          · exact hn
        · intro hx
          by_cases hxn : x = n
          · exact Or.inr hxn
          · exact Or.inl ⟨hxn, hx⟩
      · rfl
    rw [hsame] at hrest
    exact ⟨c, .hit (List.mem_toFinset.mpr hn) hrest, rfl⟩
  | room hn hroom =>
    refine ⟨c + 1, .fault (fun h => hn (List.mem_toFinset.mp h)) ?_ ?_ hcard hrest, by omega⟩
    · simp
    · intro x
      simp
  | full hn hfull hv hchosen =>
    refine ⟨c + 1, .fault (fun h => hn (List.mem_toFinset.mp h)) ?_ ?_ hcard hrest, by omega⟩
    · simp
    · intro x hx
      simp only [List.mem_toFinset, List.mem_append, List.mem_singleton] at hx
      simp only [Finset.mem_insert, List.mem_toFinset]
      exact hx.symm.imp_right List.mem_of_mem_erase

/-- **Any policy pages on demand.** -/
theorem accesses_demand (hframes : 0 < o.frames) (ns : List ℤ) (hok : s.Ok o.frames)
    (hrun : (accesses o ns).run s = .ok () s') :
    ∃ c, Demand o.frames s.memory.toFinset ns c ∧ s'.misses = s.misses + c := by
  induction ns generalizing s with
  | nil =>
    cases hrun
    exact ⟨0, .nil _, rfl⟩
  | cons n ns ih =>
    obtain ⟨_, s₁, hrun₁, hrun'⟩ := Prog.bind_eq_ok.mp hrun
    have hpost := access_post hok hframes n
    rw [hrun₁] at hpost
    obtain ⟨heffect, -⟩ := hpost
    obtain ⟨c, hdemand, hmisses⟩ := ih (access_ok hok heffect) hrun'
    obtain ⟨c', hdemand', hsum⟩ := heffect.demand hok hdemand
    exact ⟨c', hdemand', hmisses.trans hsum⟩

/-- A policy other than `CLOCK` ends. -/
theorem accesses_ends (hframes : 0 < o.frames) (hpolicy : o.policy ≠ .clock) (ns : List ℤ) (hok : s.Ok o.frames) :
    ∃ s', (accesses o ns).run s = .ok () s' := by
  induction ns generalizing s with
  | nil => exact ⟨s, rfl⟩
  | cons n ns ih =>
    have hpost := access_post hok hframes n
    cases hrun : (access o n).run s with
    | ok u s₁ =>
      rw [hrun] at hpost
      obtain ⟨s', hrun'⟩ := ih (access_ok hok hpost.1)
      refine ⟨s', ?_⟩
      rw [accesses, Prog.bind_of_ok hrun]
      exact hrun'
    | error e s₁ => exact e.elim
    | panic p =>
      rw [hrun] at hpost
      exact absurd hpost hpolicy

/-! ### The optimal policy -/

/-- The index that is found is the distance of the next reference. -/
theorem whenReferenced_eq {addrList ns : List ℤ} {addrIndex : ℕ} (hns : addrList.drop (addrIndex + 1) = ns) (page : ℤ) :
    whenReferenced addrList addrIndex page = if page ∈ ns then addrIndex + 1 + ns.idxOf page else addrList.length := by
  unfold whenReferenced
  have hlen : ns.length = addrList.length - (addrIndex + 1) := by rw [← hns, List.length_drop]
  have hget : ∀ j, addrList[addrIndex + 1 + j]? = ns[j]? := by
    intro j
    rw [← hns, List.getElem?_drop]
  rw [← hlen]
  split_ifs with hmem
  · have hidx := List.idxOf_lt_length_of_mem hmem
    have hfind : (List.range' (addrIndex + 1) ns.length).find? (fun i => addrList[i]? = some page) =
        some (addrIndex + 1 + ns.idxOf page) := by
      rw [List.find?_range'_eq_some]
      refine ⟨?_, ?_, fun j hj hj' => ?_⟩
      · rw [decide_eq_true_eq, hget, List.getElem?_eq_getElem hidx, List.getElem_idxOf]
      · rw [List.mem_range'_1]
        omega
      · obtain ⟨i, rfl⟩ := Nat.exists_eq_add_of_le hj
        have hi : i < ns.idxOf page := by omega
        rw [hget, List.getElem?_eq_getElem (by omega)]
        simpa using List.not_of_lt_findIdx (p := (· == page)) hi
    rw [hfind, Option.getD_some]
  · have hnone : (List.range' (addrIndex + 1) ns.length).find? (fun i => addrList[i]? = some page) = none := by
      rw [List.find?_eq_none]
      intro i hi
      obtain ⟨hle, -⟩ := List.mem_range'_1.mp hi
      obtain ⟨j, rfl⟩ := Nat.exists_eq_add_of_le hle
      rw [hget, decide_eq_true_eq]
      exact fun h => hmem (List.mem_of_getElem? h)
    rw [hnone, Option.getD_none]

/-- The page that is referenced latest has the latest next use among the references to come. -/
theorem idxOf_le_of_whenReferenced_le {addrList ns : List ℤ} {addrIndex : ℕ} (hns : addrList.drop (addrIndex + 1) = ns)
    {x v : ℤ} (hle : whenReferenced addrList addrIndex x ≤ whenReferenced addrList addrIndex v) :
    ns.idxOf x ≤ ns.idxOf v := by
  have hlen : ns.length = addrList.length - (addrIndex + 1) := by rw [← hns, List.length_drop]
  rw [whenReferenced_eq hns, whenReferenced_eq hns] at hle
  by_cases hv : v ∈ ns
  · have hidx := List.idxOf_lt_length_of_mem hv
    rw [if_pos hv] at hle
    split_ifs at hle <;> omega
  · rw [List.idxOf_eq_length hv]
    exact List.idxOf_le_length

/-- **`OPT`** takes out a page whose next use is the latest. -/
theorem accesses_farthest (hframes : 0 < o.frames) (hpolicy : o.policy = .opt) (ns : List ℤ) (hok : s.Ok o.frames)
    (hns : o.addrList.drop s.addrIndex = ns) (hrun : (accesses o ns).run s = .ok () s') :
    ∃ c, Farthest o.frames s.memory.toFinset ns c ∧ s'.misses = s.misses + c := by
  induction ns generalizing s with
  | nil =>
    cases hrun
    exact ⟨0, .nil _, rfl⟩
  | cons n ns ih =>
    obtain ⟨_, s₁, hrun₁, hrun'⟩ := Prog.bind_eq_ok.mp hrun
    have hpost := access_post hok hframes n
    rw [hrun₁] at hpost
    obtain ⟨heffect, hindex⟩ := hpost
    have hdrop : o.addrList.drop (s.addrIndex + 1) = ns := by
      rw [← List.drop_drop, hns, List.drop_succ_cons, List.drop_zero]
    have hcard : s.memory.toFinset.card = s.count := by
      rw [List.toFinset_card_of_nodup hok.nodup, hok.count]
    obtain ⟨c, hrest, hmisses⟩ := ih (access_ok hok heffect) (by rw [hindex]; exact hdrop) hrun'
    generalize s₁.memory = memory at heffect hrest
    generalize s₁.count = count at heffect
    generalize s₁.misses = misses at heffect hmisses
    cases heffect with
    | hit hn =>
      have hnot : o.policy ≠ .lru := by
        rw [hpolicy]
        exact fun h => by cases h
      rw [if_neg hnot] at hrest
      exact ⟨c, .hit (List.mem_toFinset.mpr hn) hrest, hmisses⟩
    | room hn hroom =>
      have hle := hok.le
      refine ⟨c + 1, .room (fun h => hn (List.mem_toFinset.mp h)) (by omega) ?_, by omega⟩
      have hset : (s.memory ++ [n]).toFinset = insert n s.memory.toFinset := by
        ext x
        simp
      rwa [hset] at hrest
    | @full v hn hfull hv hchosen =>
      refine ⟨c + 1, .evict (v := v) (fun h => hn (List.mem_toFinset.mp h)) (hcard.trans hfull) (List.mem_toFinset.mpr hv)
        (fun x hx => ?_) ?_, by omega⟩
      · exact idxOf_le_of_whenReferenced_le hdrop (hchosen.latest hpolicy x (List.mem_toFinset.mp hx))
      · have hset : (s.memory.erase v ++ [n]).toFinset = insert n (s.memory.toFinset.erase v) := by
          ext x
          simp [hok.nodup.mem_erase_iff]
        rwa [hset] at hrest

/-- **`OPT` is optimal.** For every string of references and every number of frames the run with `OPT` ends, and it has no
more misses than any run that ends with any of the four policies, whatever the clock bits and the random choices, and no
more than any memory with as many frames that is paged on demand. -/
theorem opt_optimal (addrList : List ℤ) {frames : ℕ} (hframes : 1 ≤ frames) (clockbits : ℤ) (draws : List ℕ) :
    ∃ s, simulate ⟨.opt, clockbits, frames, addrList⟩ draws = .ok () s ∧
      (∀ policy clockbits' draws' s', simulate ⟨policy, clockbits', frames, addrList⟩ draws' = .ok () s' →
        s.misses ≤ s'.misses) ∧
      ∀ c, Demand frames ∅ addrList c → s.misses ≤ c := by
  have hstart := start_ok frames draws
  obtain ⟨s, hrun⟩ := accesses_ends (o := ⟨.opt, clockbits, frames, addrList⟩) hframes (fun h => by cases h) addrList hstart
  obtain ⟨c, hfarthest, hmisses⟩ := accesses_farthest (o := ⟨.opt, clockbits, frames, addrList⟩) hframes rfl addrList hstart
    rfl hrun
  have hc : s.misses = c := hmisses.trans (Nat.zero_add c)
  have hleast : ∀ c', Demand frames ∅ addrList c' → s.misses ≤ c' := by
    intro c' hdemand
    rw [hc]
    exact hfarthest.le_demand (Nat.zero_le _) hdemand
  refine ⟨s, hrun, fun policy clockbits' draws' s' hrun' => ?_, hleast⟩
  obtain ⟨c', hdemand, hmisses'⟩ := accesses_demand (o := ⟨policy, clockbits', frames, addrList⟩) hframes addrList
    (start_ok frames draws') hrun'
  have hc' : s'.misses = c' := hmisses'.trans (Nat.zero_add c')
  rw [hc']
  exact hleast c' hdemand

/-- Two frames, and a page that comes back: `OPT` keeps it, and `FIFO` does not. -/
theorem opt_optimal_two : ∃ s s', simulate ⟨.opt, 1, 2, [1, 2, 3, 1]⟩ [] = .ok () s ∧
    simulate ⟨.fifo, 1, 2, [1, 2, 3, 1]⟩ [] = .ok () s' ∧ s.misses = 3 ∧ s'.misses = 4 ∧ s.misses ≤ s'.misses := by
  obtain ⟨s, hrun, hle, -⟩ := opt_optimal [1, 2, 3, 1] (show 1 ≤ 2 by decide) 1 []
  have hfifo : ∃ s', simulate ⟨.fifo, 1, 2, [1, 2, 3, 1]⟩ [] = .ok () s' ∧ s'.misses = 4 := ⟨_, rfl, rfl⟩
  obtain ⟨s', hrun', hmisses'⟩ := hfifo
  have hopt : ∃ s, simulate ⟨.opt, 1, 2, [1, 2, 3, 1]⟩ [] = .ok () s ∧ s.misses = 3 := ⟨_, rfl, rfl⟩
  obtain ⟨s₁, hrun₁, hmisses₁⟩ := hopt
  rw [hrun] at hrun₁
  cases hrun₁
  exact ⟨s, s', hrun, hrun', hmisses₁, hmisses', hle .fifo 1 [] s' hrun'⟩

/-! ### The least recently used page -/

/-- Under `LRU` a reference moves the page to the end, and the first page leaves a full memory. -/
theorem Effect.lru {memory : List ℤ} {count misses : ℕ} (h : Effect o s n memory count misses) (hok : s.Ok o.frames)
    (hpolicy : o.policy = .lru) : memory = lruStep o.frames s.memory n ∧
      misses = s.misses + if n ∈ s.memory then 0 else 1 := by
  have hcount := hok.count
  have hle := hok.le
  unfold lruStep
  cases h with
  | hit hn => rw [if_pos hpolicy, if_pos hn, if_pos hn]; exact ⟨rfl, rfl⟩
  | room hn hroom =>
    rw [if_neg hn, if_pos (by omega), if_neg hn]
    exact ⟨rfl, rfl⟩
  | @full v hn hfull hv hchosen =>
    rw [if_neg hn, if_neg (by omega), if_neg hn]
    refine ⟨?_, rfl⟩
    have hfirst := hchosen.first (Or.inr hpolicy)
    cases hmem : s.memory with
    | nil =>
      rw [hmem] at hv
      cases hv
    | cons w rest =>
      rw [hmem, List.head?_cons] at hfirst
      rw [Option.some.inj hfirst, List.erase_cons_head, List.tail_cons]

/-- The state after the references of a history. -/
structure Recent (k : ℕ) (h : List ℤ) (s : Replacement) : Prop where
  ok : s.Ok k
  memory : s.memory = h.dedup.rtake k

/-- **A run of `LRU`**, by the history that it has seen. -/
theorem lru_recent (hframes : 0 < o.frames) (hpolicy : o.policy = .lru) (draws : List ℕ) (h : List ℤ) :
    ∃ s, (accesses o h).run (.start draws) = .ok () s ∧ Recent o.frames h s := by
  induction h using List.reverseRecOn with
  | nil => exact ⟨_, rfl, start_ok _ _, (List.rtake_nil _).symm⟩
  | append_singleton h n ih =>
    obtain ⟨s, hrun, hok, hmemory⟩ := ih
    have hpost := access_post hok hframes n
    have hends := accesses_ends hframes (o := o) (by rw [hpolicy]; exact fun h => by cases h) [n] hok
    obtain ⟨s', hrun'⟩ := hends
    obtain ⟨_, s₁, hrun₁, hpure⟩ := Prog.bind_eq_ok.mp hrun'
    rw [hrun₁] at hpost
    cases hpure
    obtain ⟨heffect, -⟩ := hpost
    refine ⟨s', ?_, access_ok hok heffect, ?_⟩
    · rw [accesses_append, Prog.bind_of_ok hrun]
      exact hrun'
    · rw [(heffect.lru hok hpolicy).1, hmemory, lruStep_rtake hframes]

/-- More frames, and no more misses. -/
theorem lru_misses_le {o' : ReplacementOptions} (hframes : 0 < o.frames) (hle : o.frames ≤ o'.frames)
    (hpolicy : o.policy = .lru) (hpolicy' : o'.policy = .lru) (draws draws' : List ℕ) (h : List ℤ) :
    ∀ s s', (accesses o h).run (.start draws) = .ok () s → (accesses o' h).run (.start draws') = .ok () s' →
      s'.misses ≤ s.misses := by
  induction h using List.reverseRecOn with
  | nil =>
    intro s s' hrun hrun'
    cases hrun
    cases hrun'
    exact Nat.le_refl _
  | append_singleton h n ih =>
    intro s s' hrun hrun'
    obtain ⟨t, hrunt, hok, hmemory⟩ := lru_recent hframes hpolicy draws h
    obtain ⟨t', hrunt', hok', hmemory'⟩ := lru_recent (hframes.trans_le hle) hpolicy' draws' h
    have hih := ih t t' hrunt hrunt'
    rw [accesses_append, Prog.bind_of_ok hrunt] at hrun
    rw [accesses_append, Prog.bind_of_ok hrunt'] at hrun'
    obtain ⟨_, t₁, hrun₁, hpure⟩ := Prog.bind_eq_ok.mp hrun
    obtain ⟨_, t₁', hrun₁', hpure'⟩ := Prog.bind_eq_ok.mp hrun'
    cases hpure
    cases hpure'
    have hpost := access_post hok hframes n
    have hpost' := access_post hok' (hframes.trans_le hle) n
    rw [hrun₁] at hpost
    rw [hrun₁'] at hpost'
    have hmisses := (hpost.1.lru hok hpolicy).2
    have hmisses' := (hpost'.1.lru hok' hpolicy').2
    -- what is in the smaller memory is in the larger one
    have hsub : n ∈ t.memory → n ∈ t'.memory := by
      rw [hmemory, hmemory']
      exact fun hn => (rtake_suffix_rtake hle h.dedup).subset hn
    rw [hmisses, hmisses']
    by_cases hn : n ∈ t.memory
    · rw [if_pos hn, if_pos (hsub hn)]
      exact hih
    · rw [if_neg hn]
      split_ifs <;> omega

/-- **`LRU` is a stack algorithm.** After the references `h` of a run over `h ++ t` the memory lists the last pages of `h` in order of
their last use (`h.dedup` are the distinct pages of `h` in this order), as many as there are frames or pages, and `count`
is their number. So the memory is a suffix of the memory with more frames, and there are no more misses with those. -/
theorem lru_stack {k : ℕ} (hk : 1 ≤ k) (clockbits : ℤ) (draws : List ℕ) (h t : List ℤ) :
    ∃ s, (accesses ⟨.lru, clockbits, k, h ++ t⟩ h).run (.start draws) = .ok () s ∧ s.memory = h.dedup.rtake k ∧
      s.memory.length = min k h.dedup.length ∧ s.count = s.memory.length ∧
      ∀ k' ≥ k, ∃ s', (accesses ⟨.lru, clockbits, k', h ++ t⟩ h).run (.start draws) = .ok () s' ∧
        s.memory <:+ s'.memory ∧ s'.misses ≤ s.misses := by
  obtain ⟨s, hrun, hok, hmemory⟩ := lru_recent (o := ⟨.lru, clockbits, k, h ++ t⟩) hk rfl draws h
  refine ⟨s, hrun, hmemory, by rw [hmemory]; exact length_rtake k _, hok.count, fun k' hk' => ?_⟩
  obtain ⟨s', hrun', -, hmemory'⟩ := lru_recent (o := ⟨.lru, clockbits, k', h ++ t⟩) (Nat.lt_of_lt_of_le hk hk') rfl
    draws h
  have hle := @lru_misses_le ⟨.lru, clockbits, k, h ++ t⟩ ⟨.lru, clockbits, k', h ++ t⟩ hk hk' rfl rfl draws draws h
  refine ⟨s', hrun', ?_, hle s s' hrun hrun'⟩
  rw [hmemory, hmemory']
  exact rtake_suffix_rtake hk' _

/-- Two frames after four references. -/
theorem lru_stack_two : ∃ s, (accesses ⟨.lru, 1, 2, [1, 2, 1, 3, 2]⟩ [1, 2, 1, 3]).run (.start []) = .ok () s ∧
    s.memory = [1, 3] := by
  obtain ⟨s, hrun, hmemory, -⟩ := lru_stack (k := 2) (by decide) 1 [] [1, 2, 1, 3] [2]
  exact ⟨s, hrun, by rw [hmemory]; rfl⟩

end Ucore.Lab3
