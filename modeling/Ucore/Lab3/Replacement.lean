import Ucore.Lib.Prog
import Mathlib.Algebra.Group.Int.Defs
import Mathlib.Data.List.GetD
import Mathlib.Data.List.Nodup
import Mathlib.Logic.Function.Basic

/-!
# The simulator of page replacement

`lab3-1-replacement.py` counts the hits and misses of a string of references, with one of four policies.

* `access` is the body of the loop over the references: `lookup`, `chooseVictim` when all frames are in use, and
  `countRef`. What is printed is left out.
* The random choices of `CLOCK` are a list of indices: the values of `int(random.random() * count)`. A run for which the
  list is too short has not finished.
* `access_post` says what a reference does, in three cases: `Effect`.
-/

namespace Ucore.Lab3

open Ucore.Lib

/-- `options.policy` -/
inductive Policy where
  | fifo | lru | opt | clock
  deriving Repr, DecidableEq

/-- The options that a run depends on. -/
structure ReplacementOptions where
  policy : Policy
  clockbits : ℤ
  /-- `pageframesize` -/
  frames : ℕ
  addrList : List ℤ

/-- The variables of the loop. -/
structure Replacement where
  count : ℕ
  memory : List ℤ
  hits : ℕ
  misses : ℕ
  /-- The dictionary `ref`. -/
  ref : ℤ → Option ℤ
  addrIndex : ℕ
  /-- The choices to come. -/
  draws : List ℕ

/-- How a run stops before its end: an `IndexError`, a `KeyError`, the assertion, and no choice left. -/
inductive ReplacementPanic where
  | index | key | victimInMemory | unfinished
  deriving Repr, DecidableEq

abbrev ReplacementProg := Prog ReplacementPanic Empty Replacement

variable (o : ReplacementOptions)

/-! ### The loop -/

/-- The search for the page, with the result whether it is there. -/
def lookup (n : ℤ) : ReplacementProg Bool := do
  let s ← Prog.get
  if n ∈ s.memory then do
    Prog.modify fun s => { s with hits := s.hits + 1 }
    if o.policy = .lru then
      Prog.modify fun s => { s with memory := s.memory.erase n ++ [n] }
    pure true
  else do
    Prog.modify fun s => { s with misses := s.misses + 1 }
    pure false

/-- `memory.pop(i)`; a negative index counts from the end. -/
def memoryPop (i : ℤ) : ReplacementProg ℤ := do
  let s ← Prog.get
  let j := if i < 0 then i + s.memory.length else i
  if j < 0 then Prog.stop .index
  else
    match s.memory[j.toNat]? with
    | none => Prog.stop .index
    | some page => do
      Prog.modify fun s => { s with memory := s.memory.eraseIdx j.toNat }
      pure page

/-- The loop of `CLOCK`: the page that is found, and the choices and the dictionary that are left. -/
def clockScan (memory : List ℤ) : List ℕ → (ℤ → Option ℤ) → Except ReplacementPanic (ℤ × List ℕ × (ℤ → Option ℤ))
  | [], _ => .error .unfinished
  | i :: draws, ref =>
    match memory[i]? with
    | none => .error .index
    | some page =>
      match ref page with
      | none => .error .key
      | some r =>
        if r ≥ 1 then clockScan memory draws (Function.update ref page (some (r - 1))) else .ok (page, draws, ref)

/-- The victim of `CLOCK`, whose reference bits are deleted. -/
def clockVictim : ReplacementProg ℤ := do
  let s ← Prog.get
  match clockScan s.memory s.draws s.ref with
  | .error p => Prog.stop p
  | .ok (victim, draws, ref) => do
    Prog.modify fun s =>
      { s with memory := s.memory.erase victim, draws := draws, ref := Function.update ref victim none }
    pure victim

/-- When a page is referenced next: an index in the list of the references, or the length of the list. -/
def whenReferenced (addrList : List ℤ) (addrIndex : ℕ) (page : ℤ) : ℕ :=
  ((List.range' (addrIndex + 1) (addrList.length - (addrIndex + 1))).find? fun i => addrList[i]? = some page).getD
    addrList.length

/-- The variables of the loop of `OPT`. -/
structure OptBest where
  maxReplace : ℤ
  replaceIdx : ℤ
  replacePage : ℤ
  deriving Repr, DecidableEq

/-- The loop of `OPT` over the pages from `pageIndex` on. -/
def optScan (whenRef : ℤ → ℕ) : List ℤ → ℕ → OptBest → OptBest
  | [], _, best => best
  | page :: pages, pageIndex, best =>
    optScan whenRef pages (pageIndex + 1)
      (if (whenRef page : ℤ) ≥ best.maxReplace then ⟨whenRef page, pageIndex, page⟩ else best)

/-- The victim of `OPT`. -/
def optVictim : ReplacementProg ℤ := do
  let s ← Prog.get
  if s.memory.length < s.count then Prog.stop .index
  else
    memoryPop (optScan (whenReferenced o.addrList s.addrIndex) (s.memory.take s.count) 0 ⟨-1, -1, -1⟩).replaceIdx

/-- The page that leaves a full memory. -/
def chooseVictim : ReplacementProg ℤ :=
  match o.policy with
  | .fifo => memoryPop 0
  | .lru => memoryPop 0
  | .clock => clockVictim
  | .opt => optVictim o

/-- What is done after a miss. -/
def bringIn (n : ℤ) : ReplacementProg Unit := do
  let s ← Prog.get
  let victim ← (if s.count = o.frames then chooseVictim o else do
    Prog.modify fun s => { s with count := s.count + 1 }
    pure (-1) : ReplacementProg ℤ)
  Prog.modify fun s => { s with memory := s.memory ++ [n] }
  let s ← Prog.get
  (if victim ≠ -1 then Prog.assert (victim ∉ s.memory) .victimInMemory else pure () : ReplacementProg Unit)

/-- The reference bits of a page that has been referenced. -/
def countRef (clockbits : ℤ) : Option ℤ → ℤ
  | none => 1
  | some r => if r + 1 > clockbits then clockbits else r + 1

/-- One reference. Source: `lab3-1-replacement.py` -/
def access (n : ℤ) : ReplacementProg Unit := do
  let hit ← lookup o n
  (if hit = true then pure () else bringIn o n : ReplacementProg Unit)
  Prog.modify fun s =>
    { s with
      ref := Function.update s.ref n (some (countRef o.clockbits (s.ref n)))
      addrIndex := s.addrIndex + 1 }

/-- The loop over the references. -/
def accesses : List ℤ → ReplacementProg Unit
  | [] => pure ()
  | n :: ns => do
    access o n
    accesses ns

/-- Before the loop, with the choices to come. -/
def Replacement.start (draws : List ℕ) : Replacement := ⟨0, [], 0, 0, fun _ => none, 0, draws⟩

/-- A run of the simulator. -/
def simulate (draws : List ℕ) : Outcome ReplacementPanic Empty Replacement Unit :=
  (accesses o o.addrList).run (.start draws)

/-! ### What a reference does -/

variable {o} {s s' : Replacement} {n v : ℤ}

/-- The counters and the pages in memory are in step: no page is there twice. -/
structure Replacement.Ok (frames : ℕ) (s : Replacement) : Prop where
  nodup : s.memory.Nodup
  count : s.count = s.memory.length
  le : s.count ≤ frames

/-- A victim has been taken out; nothing else that is looked at has changed. -/
structure Taken (s s' : Replacement) (v : ℤ) : Prop where
  mem : v ∈ s.memory
  memory : s'.memory = s.memory.erase v
  count : s'.count = s.count
  misses : s'.misses = s.misses
  addrIndex : s'.addrIndex = s.addrIndex

/-- What the policies say of a victim. -/
structure Chosen (o : ReplacementOptions) (s : Replacement) (v : ℤ) : Prop where
  /-- `FIFO` and `LRU` take the first page. -/
  first : o.policy = .fifo ∨ o.policy = .lru → s.memory.head? = some v
  /-- `OPT` takes a page that is referenced as late as any other. -/
  latest : o.policy = .opt → ∀ x ∈ s.memory,
    whenReferenced o.addrList s.addrIndex x ≤ whenReferenced o.addrList s.addrIndex v

/-- What a reference to `n` makes of the memory and of the two counters. -/
inductive Effect (o : ReplacementOptions) (s : Replacement) (n : ℤ) : List ℤ → ℕ → ℕ → Prop
  | hit (hn : n ∈ s.memory) :
    Effect o s n (if o.policy = .lru then s.memory.erase n ++ [n] else s.memory) s.count s.misses
  | room (hn : n ∉ s.memory) (hroom : s.count ≠ o.frames) : Effect o s n (s.memory ++ [n]) (s.count + 1) (s.misses + 1)
  | full {v : ℤ} (hn : n ∉ s.memory) (hfull : s.count = o.frames) (hv : v ∈ s.memory) (hchosen : Chosen o s v) :
    Effect o s n (s.memory.erase v ++ [n]) s.count (s.misses + 1)

theorem memoryPop_run {j : ℕ} {page : ℤ} (hpage : s.memory[j]? = some page) :
    (memoryPop j).run s = .ok page { s with memory := s.memory.eraseIdx j } := by
  have hj : ¬ (j : ℤ) < 0 := by omega
  unfold memoryPop
  rw [Prog.run_bind, Prog.run_get, Outcome.andThen_ok]
  simp only [if_neg hj, Int.toNat_natCast, hpage]
  rfl

/-- The pages of a list without repetitions are known by their indices. -/
theorem eraseIdx_eq_erase {l : List ℤ} (hnodup : l.Nodup) {j : ℕ} {page : ℤ} (hpage : l[j]? = some page) :
    l.eraseIdx j = l.erase page := by
  obtain ⟨hj, rfl⟩ := List.getElem?_eq_some_iff.mp hpage
  rw [List.erase_eq_eraseIdx_of_idxOf]
  exact hnodup.idxOf_getElem j hj

theorem memoryPop_taken (hok : s.Ok o.frames) {j : ℕ} {page : ℤ} (hpage : s.memory[j]? = some page) :
    ∃ s', (memoryPop j).run s = .ok page s' ∧ Taken s s' page := by
  refine ⟨_, memoryPop_run hpage, List.mem_of_getElem? hpage, ?_, rfl, rfl, rfl⟩
  exact eraseIdx_eq_erase hok.nodup hpage

/-- The page that `CLOCK` finds is in memory. -/
theorem clockScan_mem {memory : List ℤ} {draws draws' : List ℕ} {ref ref' : ℤ → Option ℤ}
    (h : clockScan memory draws ref = .ok (v, draws', ref')) : v ∈ memory := by
  induction draws generalizing ref with
  | nil => cases h
  | cons i draws ih =>
    rw [clockScan] at h
    split at h
    · cases h
    · next page hpage =>
      split at h
      · cases h
      · split_ifs at h
        · exact ih h
        · cases h
          exact List.mem_of_getElem? hpage

/-- The page that `OPT` finds: none of the pages that have been looked at is referenced later. -/
theorem optScan_spec (whenRef : ℤ → ℕ) (done pages : List ℤ) (best : OptBest)
    (hbest : (done = [] ∧ best = ⟨-1, -1, -1⟩) ∨ ∃ j page, best = ⟨whenRef page, (j : ℕ), page⟩ ∧ done[j]? = some page ∧
      ∀ x ∈ done, whenRef x ≤ whenRef page) (hne : done ++ pages ≠ []) :
    ∃ j page, optScan whenRef pages done.length best = ⟨whenRef page, (j : ℕ), page⟩ ∧
      (done ++ pages)[j]? = some page ∧ ∀ x ∈ done ++ pages, whenRef x ≤ whenRef page := by
  induction pages generalizing done best with
  | nil =>
    rw [List.append_nil] at hne ⊢
    rcases hbest with ⟨hnil, -⟩ | hbest
    · exact absurd hnil hne
    · exact hbest
  | cons p pages ih =>
    have hnext := ih (done ++ [p])
      (if (whenRef p : ℤ) ≥ best.maxReplace then ⟨whenRef p, done.length, p⟩ else best)
    rw [List.append_assoc, List.singleton_append, List.length_append, List.length_singleton] at hnext
    rw [optScan]
    refine hnext (Or.inr ?_) hne
    -- the page `p` is the best one so far, or the one before it stays
    have hnew : (∀ x ∈ done, whenRef x ≤ whenRef p) → ∃ j page,
        (⟨whenRef p, done.length, p⟩ : OptBest) = ⟨whenRef page, (j : ℕ), page⟩ ∧ (done ++ [p])[j]? = some page ∧
          ∀ x ∈ done ++ [p], whenRef x ≤ whenRef page := by
      intro hle
      refine ⟨done.length, p, rfl, by simp, fun x hx => ?_⟩
      rcases List.mem_append.mp hx with hx | hx
      · exact hle x hx
      · exact Nat.le_of_eq (congrArg whenRef (List.mem_singleton.mp hx))
    rcases hbest with ⟨rfl, rfl⟩ | ⟨j, page, rfl, hpage, hle⟩
    · have hpos : (-1 : ℤ) ≤ whenRef p := by omega
      rw [if_pos hpos]
      exact hnew fun x hx => by cases hx
    · by_cases hlater : (whenRef p : ℤ) ≥ whenRef page
      · rw [if_pos hlater]
        exact hnew fun x hx => Nat.le_trans (hle x hx) (by omega)
      · rw [if_neg hlater]
        obtain ⟨hj, -⟩ := List.getElem?_eq_some_iff.mp hpage
        refine ⟨j, page, rfl, by rw [List.getElem?_append_left hj, hpage], fun x hx => ?_⟩
        rcases List.mem_append.mp hx with hx | hx
        · exact hle x hx
        · rw [List.mem_singleton.mp hx]
          omega

/-- **The victim.** Only `CLOCK` can fail to find one. -/
theorem chooseVictim_post (hok : s.Ok o.frames) (hpos : 0 < s.count) :
    ((chooseVictim o).run s).Post (fun v s' => Taken s s' v ∧ Chosen o s v) (fun _ _ => False)
      (fun _ => o.policy = .clock) := by
  have hlen := hok.count
  unfold chooseVictim
  cases hpolicy : o.policy with
  | clock =>
    dsimp only
    rw [clockVictim, Prog.run_bind, Prog.run_get, Outcome.andThen_ok]
    cases hscan : clockScan s.memory s.draws s.ref with
    | error p => exact rfl
    | ok r =>
      obtain ⟨v, draws, ref⟩ := r
      refine ⟨⟨clockScan_mem hscan, rfl, rfl, rfl, rfl⟩, fun h => ?_, fun h => ?_⟩
      · rw [hpolicy] at h
        rcases h with h | h <;> cases h
      · rw [hpolicy] at h
        cases h
  | opt =>
    have hnil : s.memory ≠ [] := by
      intro hnil
      rw [hnil, List.length_nil] at hlen
      omega
    obtain ⟨j, page, hscan, hpage, hle⟩ := optScan_spec (whenReferenced o.addrList s.addrIndex) [] s.memory
      ⟨-1, -1, -1⟩ (Or.inl ⟨rfl, rfl⟩) hnil
    dsimp only
    rw [optVictim, Prog.run_bind, Prog.run_get, Outcome.andThen_ok, if_neg (by omega), hlen, List.take_length]
    rw [List.length_nil] at hscan
    rw [hscan]
    obtain ⟨s', hrun, htaken⟩ := memoryPop_taken hok hpage
    rw [hrun]
    refine ⟨htaken, fun h => ?_, fun _ => hle⟩
    rw [hpolicy] at h
    rcases h with h | h <;> cases h
  | fifo | lru =>
    cases hmem : s.memory with
    | nil =>
      rw [hmem, List.length_nil] at hlen
      omega
    | cons page rest =>
      have hpage : s.memory[0]? = some page := by rw [hmem, List.getElem?_cons_zero]
      obtain ⟨s', hrun, htaken⟩ := memoryPop_taken hok hpage
      dsimp only
      rw [show (0 : ℤ) = ((0 : ℕ) : ℤ) from rfl, hrun]
      refine ⟨htaken, fun _ => by rw [hmem, List.head?_cons], fun h => ?_⟩
      rw [hpolicy] at h
      cases h

/-- What is done after a miss, in the state in which the miss has been counted. -/
theorem bringIn_post (hok : s.Ok o.frames) (hframes : 0 < o.frames) (hn : n ∉ s.memory) :
    ((bringIn o n).run { s with misses := s.misses + 1 }).Post
      (fun _ s' => Effect o s n s'.memory s'.count s'.misses ∧ s'.addrIndex = s.addrIndex)
      (fun _ _ => False) (fun _ => o.policy = .clock) := by
  unfold bringIn
  rw [Prog.run_bind, Prog.run_get, Outcome.andThen_ok]
  dsimp only
  by_cases hfull : s.count = o.frames
  · have hok' : Replacement.Ok o.frames { s with misses := s.misses + 1 } := ⟨hok.nodup, hok.count, hok.le⟩
    rw [if_pos hfull]
    refine (chooseVictim_post hok' (by rw [show s.count = o.frames from hfull]; exact hframes)).bind ?_
    rintro v s₁ ⟨htaken, hchosen⟩
    have hout : v ∉ s₁.memory ++ [n] := by
      rw [htaken.memory, List.mem_append, List.mem_singleton, not_or]
      refine ⟨hok.nodup.not_mem_erase, ?_⟩
      rintro rfl
      exact hn htaken.mem
    have heffect : Effect o s n (s₁.memory ++ [n]) s₁.count s₁.misses := by
      rw [htaken.memory, htaken.count, htaken.misses]
      exact .full hn hfull htaken.mem ⟨hchosen.first, hchosen.latest⟩
    rw [Prog.bind_of_ok (Prog.run_modify _ _), Prog.run_bind, Prog.run_get, Outcome.andThen_ok, Prog.run_ite,
      Prog.run_assert_of _ _ hout]
    split_ifs
    · exact ⟨heffect, htaken.addrIndex⟩
    · exact ⟨heffect, htaken.addrIndex⟩
  · rw [if_neg hfull]
    exact ⟨.room hn hfull, rfl⟩

/-- **One reference.** Only with `CLOCK` can it fail to end. -/
theorem access_post (hok : s.Ok o.frames) (hframes : 0 < o.frames) (n : ℤ) : ((access o n).run s).Post
    (fun _ s' => Effect o s n s'.memory s'.count s'.misses ∧ s'.addrIndex = s.addrIndex + 1)
    (fun _ _ => False) (fun _ => o.policy = .clock) := by
  unfold access lookup
  rw [Prog.bind_assoc, Prog.run_bind, Prog.run_get, Outcome.andThen_ok]
  by_cases hn : n ∈ s.memory
  · rw [if_pos hn]
    have heffect := Effect.hit (o := o) (s := s) hn
    by_cases hlru : o.policy = .lru
    · rw [if_pos hlru] at heffect
      rw [if_pos hlru]
      exact ⟨heffect, rfl⟩
    · rw [if_neg hlru] at heffect
      rw [if_neg hlru]
      exact ⟨heffect, rfl⟩
  · rw [if_neg hn, Prog.bind_assoc, Prog.bind_of_ok (Prog.run_modify _ _), Prog.pure_bind, if_neg Bool.false_ne_true]
    refine (bringIn_post hok hframes hn).bind ?_
    rintro _ s₁ ⟨heffect, hindex⟩
    exact ⟨heffect, congrArg (· + 1) hindex⟩

/-- The memory has room for a page more, or a page has left it. -/
theorem Effect.ok {memory : List ℤ} {count misses : ℕ} (h : Effect o s n memory count misses) (hok : s.Ok o.frames) :
    memory.Nodup ∧ count = memory.length ∧ count ≤ o.frames := by
  obtain ⟨hnodup, hcount, hle⟩ := hok
  cases h with
  | hit hn =>
    split_ifs
    · refine ⟨?_, ?_, hle⟩
      · rw [List.nodup_append]
        refine ⟨hnodup.erase n, List.nodup_singleton n, fun x hx y hy => ?_⟩
        rintro rfl
        rw [List.mem_singleton.mp hy] at hx
        exact hnodup.not_mem_erase hx
      · have hpos := List.length_pos_of_mem hn
        rw [List.length_append, List.length_erase_of_mem hn, List.length_singleton, hcount]
        omega
    · exact ⟨hnodup, hcount, hle⟩
  | room hn hroom =>
    refine ⟨?_, ?_, ?_⟩
    · rw [List.nodup_append]
      refine ⟨hnodup, List.nodup_singleton n, fun x hx y hy => ?_⟩
      rintro rfl
      rw [List.mem_singleton.mp hy] at hx
      exact hn hx
    · rw [List.length_append, hcount, List.length_singleton]
    · exact Nat.lt_of_le_of_ne hle hroom
  | @full v hn hfull hv hchosen =>
    refine ⟨?_, ?_, hle⟩
    · rw [List.nodup_append]
      refine ⟨hnodup.erase v, List.nodup_singleton n, fun x hx y hy => ?_⟩
      rintro rfl
      rw [List.mem_singleton.mp hy] at hx
      exact hn (List.mem_of_mem_erase hx)
    · have hpos := List.length_pos_of_mem hv
      rw [List.length_append, List.length_erase_of_mem hv, List.length_singleton, hcount]
      omega

theorem access_ok {s' : Replacement} (hok : s.Ok o.frames) (h : Effect o s n s'.memory s'.count s'.misses) :
    s'.Ok o.frames := by
  obtain ⟨hnodup, hcount, hle⟩ := h.ok hok
  exact ⟨hnodup, hcount, hle⟩

theorem start_ok (frames : ℕ) (draws : List ℕ) : (Replacement.start draws).Ok frames :=
  ⟨List.nodup_nil, rfl, Nat.zero_le _⟩

theorem accesses_append (ns ns' : List ℤ) : accesses o (ns ++ ns') = accesses o ns >>= fun _ => accesses o ns' := by
  induction ns with
  | nil => rfl
  | cons n ns ih =>
    rw [List.cons_append, accesses, accesses, Prog.bind_assoc, ih]

end Ucore.Lab3
