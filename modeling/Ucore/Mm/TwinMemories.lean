import Ucore.Lib.TwoRuns
import Ucore.Mm.UserSpaces
import Mathlib.Tactic.Common

/-!
# Memories that differ in free pages

Two runs of the functions on page tables, from memories that differ only in what free pages hold.

* `Twins s₀ t₀ K T d` relates the states of such runs, which started in `s₀` and `t₀`. The page directory `d` and its page tables
  for user addresses are the same in both. A byte is the same, or it is in a page that was free at the start and is there
  still.
* `K` is what is known of the address spaces, and `T` of which pages it is known that they are page tables.
* A function `f` has a lemma `lockstep_f`: two runs of it end in the same way, and the relation holds again.
-/

namespace Ucore.Vm

open Ucore.Lib

variable {s₀ t₀ s t s' : VmState} {K K' : (ℕ → MmStruct) → Prop} {T : ℕ → Prop} {d la page table i p : ℕ} {v : Pte} {α : Type}

/-- The state with other contents of the pages. -/
abbrev VmState.withPages (s : VmState) (b : ℕ → ℕ → UInt8) (e : ℕ → ℕ → Pte) : VmState := { s with byte := b, entry := e }

/-- The page is a page table without entries, as `get_pte` makes it. -/
def VmState.clearTable (s : VmState) (p : ℕ) : VmState :=
  { s with entry := Function.update s.entry p fun _ => .zero, byte := Function.update s.byte p fun _ => 0 }

/-- How many entries of a page directory are below `KERNBASE`. -/
def userPdes : ℕ := 768

theorem pdx_lt_userPdes (h : la < kernBase) : pdx la < userPdes := by
  unfold pdx userPdes
  unfold kernBase at h
  unfold ptSize
  omega

/-- The page table `p` is the same in both states, and the page directory is not mapped by it. -/
structure SameTable (d : ℕ) (s t : VmState) (p : ℕ) : Prop where
  ne : p ≠ d
  entry : t.entry p = s.entry p
  maps : ∀ j, (s.entry p j).present = true → (s.entry p j).ppn ≠ d

/-- States of two runs. -/
structure Twins (s₀ t₀ : VmState) (K : (ℕ → MmStruct) → Prop) (T : ℕ → Prop) (d : ℕ) (s t : VmState) : Prop where
  rest : ∃ b e, t = s.withPages b e
  byte : ∀ p i, t.byte p i = s.byte p i ∨ p ∈ s₀.free ∧ s.byte p i = s₀.byte p i ∧ t.byte p i = t₀.byte p i
  dir : t.entry d = s.entry d
  tables : ∀ i < userPdes, (s.entry d i).present = true → SameTable d s t (s.entry d i).ppn
  safe : ∀ p, T p → SameTable d s t p
  taken : d ∉ s.free
  mm : K s.mm

namespace Twins

/-- A change that has nothing to do with the contents of pages. -/
theorem frame (h : Twins s₀ t₀ K T d s t) {f : VmState → VmState} (hf : ∀ b e, f (s.withPages b e) = (f s).withPages b e)
    (hbyte : (f s).byte = s.byte) (hentry : (f s).entry = s.entry) (htaken : d ∉ (f s).free) (hK : K' (f s).mm) :
    Twins s₀ t₀ K' T d (f s) (f t) := by
  obtain ⟨b, e, rfl⟩ := h.rest
  rw [hf b e]
  have hsame : ∀ p, SameTable d s (s.withPages b e) p → SameTable d (f s) ((f s).withPages b e) p := fun p hp =>
    ⟨hp.ne, by rw [hentry]; exact hp.entry, by rw [hentry]; exact hp.maps⟩
  refine ⟨⟨b, e, rfl⟩, ?_, ?_, ?_, fun p hp => hsame p (h.safe p hp), htaken, hK⟩
  · rw [hbyte]
    exact h.byte
  · rw [hentry]
    exact h.dir
  · rw [hentry]
    exact fun i hi hpresent => hsame _ (h.tables i hi hpresent)

theorem weaken {T' : ℕ → Prop} (h : Twins s₀ t₀ K T d s t) (hT : ∀ p, T' p → SameTable d s t p) : Twins s₀ t₀ K T' d s t :=
  ⟨h.rest, h.byte, h.dir, h.tables, hT, h.taken, h.mm⟩

/-- An entry is written. -/
theorem setEntry (h : Twins s₀ t₀ K T d s t) (hv : v.present = true → v.ppn ≠ d)
    (hd : p = d → v.present = true → SameTable d s t v.ppn) : Twins s₀ t₀ K T d (s.setEntry p i v) (t.setEntry p i v) := by
  have hentry : ∀ q, t.entry q = s.entry q → (t.setEntry p i v).entry q = (s.setEntry p i v).entry q := by
    intro q hq
    unfold VmState.setEntry
    by_cases hqp : q = p
    · subst hqp
      simp only [Function.update_self, hq]
    · simp only [Function.update_of_ne hqp, hq]
  have hvalue : ∀ q j, (s.setEntry p i v).entry q j = v ∨ (s.setEntry p i v).entry q j = s.entry q j := by
    intro q j
    unfold VmState.setEntry
    by_cases hqp : q = p
    · subst hqp
      simp only [Function.update_self]
      by_cases hji : j = i
      · exact Or.inl (by rw [hji, Function.update_self])
      · exact Or.inr (Function.update_of_ne hji _ _)
    · exact Or.inr (by simp only [Function.update_of_ne hqp])
  have hsame : ∀ q, SameTable d s t q → SameTable d (s.setEntry p i v) (t.setEntry p i v) q := by
    refine fun q hq => ⟨hq.ne, hentry q hq.entry, fun j hpresent => ?_⟩
    rcases hvalue q j with hj | hj
    · rw [hj] at hpresent ⊢
      exact hv hpresent
    · rw [hj] at hpresent ⊢
      exact hq.maps j hpresent
  obtain ⟨b, e, hrest⟩ := h.rest
  refine ⟨⟨b, (t.setEntry p i v).entry, by rw [hrest]; rfl⟩, h.byte, hentry d h.dir, fun k hk hpresent => ?_,
    fun q hq => hsame q (h.safe q hq), h.taken, h.mm⟩
  by_cases hdp : p = d
  · rcases hvalue d k with hk' | hk'
    · rw [hk'] at hpresent ⊢
      exact hsame _ (hd hdp hpresent)
    · rw [hk'] at hpresent ⊢
      exact hsame _ (h.tables k hk hpresent)
  · have hk' : (s.setEntry p i v).entry d = s.entry d := Function.update_of_ne (Ne.symm hdp) _ _
    rw [hk'] at hpresent ⊢
    exact hsame _ (h.tables k hk hpresent)

/-- A page becomes a page table without entries. -/
theorem clear (h : Twins s₀ t₀ K T d s t) (hp : p ≠ d) :
    Twins s₀ t₀ K (fun q => T q ∨ q = p) d (s.clearTable p) (t.clearTable p) := by
  have hself : SameTable d (s.clearTable p) (t.clearTable p) p := by
    refine ⟨hp, by simp only [VmState.clearTable, Function.update_self], fun j hpresent => ?_⟩
    simp only [VmState.clearTable, Function.update_self, Pte.present_zero] at hpresent
    cases hpresent
  have hother : ∀ (u : VmState) {q}, q ≠ p → (u.clearTable p).entry q = u.entry q := fun u q hq => Function.update_of_ne hq _ _
  have hsame : ∀ q, SameTable d s t q → SameTable d (s.clearTable p) (t.clearTable p) q := by
    intro q hq
    by_cases hqp : q = p
    · exact hqp ▸ hself
    · refine ⟨hq.ne, by rw [hother s hqp, hother t hqp, hq.entry], ?_⟩
      rw [hother s hqp]
      exact hq.maps
  obtain ⟨b, e, hrest⟩ := h.rest
  refine ⟨⟨_, _, by rw [hrest]; rfl⟩, fun q j => ?_, by rw [hother s hp.symm, hother t hp.symm, h.dir], fun k hk hpresent => ?_,
    ?_, h.taken, h.mm⟩
  · unfold VmState.clearTable
    by_cases hqp : q = p
    · exact Or.inl (by simp only [hqp, Function.update_self])
    · simp only [Function.update_of_ne hqp]
      exact h.byte q j
  · rw [hother s hp.symm] at hpresent ⊢
    exact hsame _ (h.tables k hk hpresent)
  · rintro q (hq | rfl)
    · exact hsame q (h.safe q hq)
    · exact hself

/-- The same bytes are written in both runs. -/
theorem writeBytes (h : Twins s₀ t₀ K T d s t) (page off : ℕ) (bytes : List UInt8) :
    Twins s₀ t₀ K T d (s.writeBytes page off bytes) (t.writeBytes page off bytes) := by
  obtain ⟨b, e, hrest⟩ := h.rest
  refine ⟨⟨_, e, by rw [hrest]; rfl⟩, fun q j => ?_, h.dir, fun i hi hpresent => ?_, fun q hq => ?_, h.taken, h.mm⟩
  · unfold VmState.writeBytes
    by_cases hq : q = page
    · subst hq
      simp only [Function.update_self]
      split_ifs
      · exact Or.inl rfl
      · exact h.byte q j
    · simp only [Function.update_of_ne hq]
      exact h.byte q j
  · exact ⟨(h.tables i hi hpresent).ne, (h.tables i hi hpresent).entry, (h.tables i hi hpresent).maps⟩
  · exact ⟨(h.safe q hq).ne, (h.safe q hq).entry, (h.safe q hq).maps⟩

end Twins

/-! ### The functions on page tables -/

section pageTables

variable (al : Allocs)

theorem lockstep_allocPages : Lockstep (Twins s₀ t₀ K T d)
    (fun r s t => Twins s₀ t₀ K T d s t ∧ ∀ page, r = some page → page ≠ d) (fun _ => Twins s₀ t₀ K T d) (allocPages al 1) := by
  unfold allocPages
  refine Lockstep.get_bind (by rintro s _ ⟨⟨b, e, rfl⟩, -⟩; rfl) fun s t h => ?_
  have htaken := h.taken
  refine Lockstep.bind (Lockstep.modify (Q := fun _ => Twins s₀ t₀ K T d) fun s t h =>
    h.frame (f := fun s => { s with asked := s.asked + 1 }) (fun _ _ => rfl) rfl rfl h.taken h.mm) (fun _ => ?_) s t h
  cases hpick : al.pick s.asked 1 s.free with
  | none => exact Lockstep.pure fun s t h => ⟨h, fun _ hnone => nomatch hnone⟩
  | some page =>
    have hne : page ≠ d := by
      rintro rfl
      exact htaken (al.pick_free _ _ _ _ hpick 0 Nat.one_pos)
    refine Lockstep.bind (Lockstep.modify (Q := fun _ => Twins s₀ t₀ K T d) fun s t h => ?_) fun _ =>
      Lockstep.pure fun s t h => ⟨h, fun _ hsome => Option.some.inj hsome ▸ hne⟩
    exact h.frame (f := fun s => { s with free := s.free.filter fun p => ¬ (page ≤ p ∧ p < page + 1) }) (fun _ _ => rfl) rfl rfl
      (fun hmem => h.taken (List.mem_filter.mp hmem).1) h.mm

theorem lockstep_setPageRef (page : ℕ) (f : ℤ → ℤ) : Together (Twins s₀ t₀ K T d) (setPageRef page f) :=
  Lockstep.modify fun _ _ h => h.frame (f := fun s => s.setRef page (f (s.pageRef page))) (fun _ _ => rfl) rfl rfl h.taken h.mm

theorem lockstep_freePages (hne : page ≠ d) : Together (Twins s₀ t₀ K T d) (freePages page 1) := by
  unfold freePages
  refine Lockstep.bind (lockstep_setPageRef page _) fun _ => Lockstep.modify fun s t h => ?_
  refine h.frame (f := fun s => { s with free := List.range' page 1 ++ s.free }) (fun _ _ => rfl) rfl rfl ?_ h.mm
  intro hmem
  rcases List.mem_append.mp hmem with hmem | hmem
  · exact hne (List.mem_singleton.mp hmem).symm
  · exact h.taken hmem

theorem lockstep_pageRemovePte (hT : T table) (i : ℕ) : Together (Twins s₀ t₀ K T d) (pageRemovePte table i) := by
  unfold pageRemovePte
  refine Lockstep.get_bind (fun s t h => ?_) fun s t h => ?_
  · dsimp only
    rw [(h.safe table hT).entry]
  · have hmaps := (h.safe table hT).maps i
    refine Lockstep.ite (fun hpresent => ?_) (fun _ => Lockstep.pure fun _ _ h => h) s t h
    refine Lockstep.bind (lockstep_setPageRef _ _) fun _ => Lockstep.get_bind (by rintro s _ ⟨⟨b, e, rfl⟩, -⟩; rfl) fun s' t' h' => ?_
    refine Lockstep.bind (Lockstep.ite (fun _ => lockstep_freePages (hmaps hpresent)) fun _ => Lockstep.pure fun _ _ h => h)
      (fun _ => ?_) s' t' h'
    exact Lockstep.modify fun s t h => h.setEntry (fun hzero => nomatch hzero) fun _ hzero => nomatch hzero

/-- A new page table. -/
theorem lockstep_newTable (hne : page ≠ d) (i : ℕ) (flags : BitVec 12) : Lockstep (Twins s₀ t₀ K T d)
    (fun r s t => Twins s₀ t₀ K T d s t ∧ ∀ table, r = some table → SameTable d s t table) (fun _ => Twins s₀ t₀ K T d)
    (do
      setPageRef page fun _ => 1
      Prog.modify fun s =>
        { s with entry := Function.update s.entry page fun _ => .zero, byte := Function.update s.byte page fun _ => 0 }
      setEntry d i ⟨page, flags⟩
      pure (some page) : VmProg (Option ℕ)) := by
  refine Lockstep.bind (lockstep_setPageRef page fun _ => 1) fun _ => ?_
  refine Lockstep.bind (Lockstep.modify (Q := fun _ => Twins s₀ t₀ K (fun q => T q ∨ q = page) d) fun s t h => h.clear hne) fun _ => ?_
  refine Lockstep.bind (Lockstep.modify (Q := fun _ => Twins s₀ t₀ K (fun q => T q ∨ q = page) d) fun s t h =>
    h.setEntry (fun _ => hne) fun _ _ => h.safe page (Or.inr rfl)) fun _ => Lockstep.pure fun s t h => ?_
  exact ⟨h.weaken fun p hp => h.safe p (Or.inl hp), fun _ hsome => Option.some.inj hsome ▸ h.safe page (Or.inr rfl)⟩

/-- The page table that `get_pte` returns is the same in both runs. -/
theorem lockstep_getPte (hla : la < kernBase) (create : Bool) : Lockstep (Twins s₀ t₀ K T d)
    (fun r s t => Twins s₀ t₀ K T d s t ∧ ∀ table, r = some table → SameTable d s t table) (fun _ => Twins s₀ t₀ K T d)
    (getPte al d la create) := by
  unfold getPte
  refine Lockstep.get_bind (fun s t h => by rw [h.dir]) fun s t h => ?_
  by_cases hpresent : (s.entry d (pdx la)).present
  · rw [if_pos hpresent]
    exact .ok ⟨h, fun _ hsome => Option.some.inj hsome ▸ h.tables _ (pdx_lt_userPdes hla) hpresent⟩
  · rw [if_neg hpresent]
    refine Lockstep.ite (fun _ => Lockstep.bind (lockstep_allocPages al) fun r => ?_)
      (fun _ => Lockstep.pure fun _ _ h => ⟨h, fun _ hnone => nomatch hnone⟩) s t h
    cases r with
    | none => exact Lockstep.pure fun s t h => ⟨h.1, fun _ hnone => nomatch hnone⟩
    | some page => exact fun s t h => lockstep_newTable (h.2 page rfl) _ _ s t h.1

/-- An entry of a page table is made for a page. -/
theorem lockstep_mapPage (hT : T table) (hne : page ≠ d) (i : ℕ) (perm : BitVec 12) : Together (Twins s₀ t₀ K T d)
    (do
      setPageRef page fun n => n + 1
      let s ← Prog.get
      (if (s.entry table i).present then
        if (s.entry table i).ppn = page then setPageRef page fun n => n - 1 else pageRemovePte table i
      else pure () : VmProg Unit)
      setEntry table i ⟨page, pteP ||| perm⟩) := by
  refine Lockstep.bind (lockstep_setPageRef page _) fun _ => Lockstep.get_bind (fun s t h => ?_) fun s t h => ?_
  · rw [(h.safe table hT).entry]
  · have htable := (h.safe table hT).ne
    refine Lockstep.bind (Lockstep.ite (fun _ => Lockstep.ite (fun _ => lockstep_setPageRef page _) fun _ =>
      lockstep_pageRemovePte hT i) fun _ => Lockstep.pure fun _ _ h => h) (fun _ => ?_) s t h
    exact Lockstep.modify fun s t h => h.setEntry (fun _ => hne) fun heq => absurd heq htable

/-- What is done with the page table that `get_pte` has returned. -/
theorem lockstep_atTable {x : VmProg α} (hx : Together (Twins s₀ t₀ K (fun q => T q ∨ q = table) d) x) :
    Lockstep (fun s t => Twins s₀ t₀ K T d s t ∧ ∀ p, some table = some p → SameTable d s t p) (fun _ => Twins s₀ t₀ K T d)
      (fun _ => Twins s₀ t₀ K T d) x := by
  have hforget : ∀ s t, Twins s₀ t₀ K (fun q => T q ∨ q = table) d s t → Twins s₀ t₀ K T d s t := fun _ _ h =>
    h.weaken fun p hp => h.safe p (Or.inl hp)
  refine (hx.pre ?_).mono (fun _ => hforget) fun _ => hforget
  rintro s t ⟨h, htable⟩
  refine h.weaken fun p hp => ?_
  rcases hp with hp | rfl
  · exact h.safe p hp
  · exact htable p rfl

theorem lockstep_pageInsert (hla : la < kernBase) (hne : page ≠ d) (perm : BitVec 12) : Together (Twins s₀ t₀ K T d) (pageInsert al d page la perm) := by
  unfold pageInsert
  refine Lockstep.bind (lockstep_getPte al hla true) fun r => ?_
  cases r with
  | none => exact Lockstep.throw fun _ _ h => h.1
  | some table => exact lockstep_atTable (lockstep_mapPage (Or.inr rfl) hne _ perm)

theorem lockstep_pgdirAllocPage (hla : la < kernBase) (perm : BitVec 12) : Together (Twins s₀ t₀ K T d) (pgdirAllocPage al d la perm) := by
  unfold pgdirAllocPage
  refine Lockstep.bind (lockstep_allocPages al) fun r => ?_
  cases r with
  | none => exact Lockstep.pure fun _ _ h => h.1
  | some page =>
    intro s t h
    have hne := h.2 page rfl
    refine Lockstep.bind (Lockstep.attempt (T := fun _ => Twins s₀ t₀ K T d) (lockstep_pageInsert al hla hne perm) (fun _ _ _ h => h)
      fun _ _ _ h => h) (fun r => ?_) s t h.1
    cases r with
    | error e => exact Lockstep.bind (lockstep_freePages hne) fun _ => Lockstep.pure fun _ _ h => h
    | ok u => exact Lockstep.pure fun _ _ h => h

/-- The loops of `unmap_range` and `exit_range`. -/
theorem lockstep_walk {turn : ℕ → VmProg ℕ} (hturn : ∀ start < stop, Together (Twins s₀ t₀ K T d) (turn start)) {fuel start : ℕ} (hstart : start < stop) : Together (Twins s₀ t₀ K T d) (walk turn stop fuel start) := by
  induction fuel generalizing start with
  | zero => exact Lockstep.stop _
  | succ fuel ih =>
    unfold walk
    refine Lockstep.bind (hturn start hstart) fun next => ?_
    exact Lockstep.ite (fun hnext => ih hnext.2) fun _ => Lockstep.pure fun _ _ h => h

theorem lockstep_checkRange (start stop : ℕ) : Lockstep (Twins s₀ t₀ K T d)
    (fun _ s t => Twins s₀ t₀ K T d s t ∧ start < stop ∧ stop ≤ kernBase) (fun _ => Twins s₀ t₀ K T d) (checkRange start stop) :=
  Lockstep.assert_bind fun _ => Lockstep.assert fun haccess _ _ h => ⟨h, haccess.2.1, Nat.le_trans haccess.2.2 (by decide)⟩

theorem lockstep_unmapTurn {start : ℕ} (hla : start < kernBase) : Together (Twins s₀ t₀ K T d) (unmapTurn al d start) := by
  unfold unmapTurn
  refine Lockstep.bind (lockstep_getPte al hla false) fun r => ?_
  cases r with
  | none => exact Lockstep.pure fun _ _ h => h.1
  | some table =>
    refine lockstep_atTable (Lockstep.get_bind (fun s t h => ?_) fun s t h => ?_)
    · rw [(h.safe table (Or.inr rfl)).entry]
    · refine Lockstep.seq (Lockstep.ite (fun _ => ?_) fun _ => ?_) (fun _ => Lockstep.pure fun _ _ h => h) s t h
      · exact lockstep_pageRemovePte (Or.inr rfl) _
      · exact Lockstep.pure fun _ _ h => h

theorem lockstep_unmapRange (start stop : ℕ) : Together (Twins s₀ t₀ K T d) (unmapRange al d start stop) :=
  Lockstep.bind (lockstep_checkRange start stop) fun _ => fun s t h =>
    lockstep_walk (fun _ hstart => lockstep_unmapTurn al (Nat.lt_of_lt_of_le hstart h.2.2)) h.2.1 s t h.1

theorem lockstep_exitTurn {start : ℕ} (hla : start < kernBase) : Together (Twins s₀ t₀ K T d) (exitTurn d start) := by
  unfold exitTurn
  refine Lockstep.get_bind (fun s t h => by rw [h.dir]) fun s t h => ?_
  have htable := h.tables _ (pdx_lt_userPdes hla)
  refine Lockstep.seq (Lockstep.ite (fun hpresent => ?_) fun _ => ?_) (fun _ => Lockstep.pure fun _ _ h => h) s t h
  · refine Lockstep.seq (lockstep_freePages (htable hpresent).ne) fun _ => Lockstep.modify fun s t h => ?_
    exact h.setEntry (fun hzero => nomatch hzero) fun _ hzero => nomatch hzero
  · exact Lockstep.pure fun _ _ h => h

theorem lockstep_exitRange (start stop : ℕ) : Together (Twins s₀ t₀ K T d) (exitRange d start stop) :=
  Lockstep.bind (lockstep_checkRange start stop) fun _ => fun s t h =>
    lockstep_walk (fun _ hstart => lockstep_exitTurn (Nat.lt_of_lt_of_le hstart h.2.2))
      (Nat.lt_of_le_of_lt (Nat.div_mul_le_self _ _) h.2.1) s t h.1

theorem lockstep_unmapAll (l : List Vma) : Together (Twins s₀ t₀ K T d) (unmapAll al d l) := by
  induction l with
  | nil => exact Lockstep.pure fun _ _ h => h
  | cons v l ih => exact Lockstep.bind (lockstep_unmapRange al _ _) fun _ => ih

theorem lockstep_exitAll (l : List Vma) : Together (Twins s₀ t₀ K T d) (exitAll d l) := by
  induction l with
  | nil => exact Lockstep.pure fun _ _ h => h
  | cons v l ih => exact Lockstep.bind (lockstep_exitRange _ _) fun _ => ih

end pageTables

/-! ### The areas -/

theorem lockstep_kmalloc (al : Allocs) : Together (Twins s₀ t₀ K T d)
    (kmalloc al) := by
  unfold kmalloc
  refine Lockstep.get_bind (by rintro s _ ⟨⟨b, e, rfl⟩, -⟩; rfl) fun s t h => ?_
  refine Lockstep.bind (Lockstep.modify (Q := fun _ => Twins s₀ t₀ K T d) fun s t h =>
    h.frame (f := fun s => { s with asked := s.asked + 1 }) (fun _ _ => rfl) rfl rfl h.taken h.mm) (fun _ => ?_) s t h
  refine Lockstep.ite (fun _ => Lockstep.pure fun _ _ h => h) fun _ => ?_
  refine Lockstep.bind (Lockstep.modify (Q := fun _ => Twins s₀ t₀ K T d) fun s t h => ?_) fun _ => Lockstep.pure fun _ _ h => h
  exact h.frame (f := fun s => { s with blocks := s.freshBlock :: s.blocks, freshBlock := s.freshBlock + 1 })
    (fun _ _ => rfl) rfl rfl h.taken h.mm

theorem lockstep_kfree (b : ℕ) : Together (Twins s₀ t₀ K T d)
    (kfree b) :=
  Lockstep.modify fun _ _ h => h.frame (f := fun s => { s with blocks := s.blocks.erase b }) (fun _ _ => rfl) rfl rfl h.taken h.mm

theorem Twins.setMm (h : Twins s₀ t₀ K T d s t) (m : ℕ) (f : MmStruct → MmStruct) (hK : K' (Function.update s.mm m (f (s.mm m)))) :
    Twins s₀ t₀ K' T d (s.setMm m f) (t.setMm m f) :=
  h.frame (f := fun s => s.setMm m f) (fun _ _ => rfl) rfl rfl h.taken hK

/-- The address space `m` has the page directory `d`, and its areas are for user addresses. -/
structure UserMm (m d : ℕ) (mm : ℕ → MmStruct) : Prop where
  pgdir : (mm m).pgdir = d
  areas : ∀ v ∈ (mm m).mmapList, v.vmEnd ≤ userTop
  cache : ∀ v, (mm m).mmapCache = some v → v.vmEnd ≤ userTop

variable {m : ℕ}

/-- The area that is found is for user addresses. -/
theorem lockstep_findVma (addr : ℕ) : Lockstep (Twins s₀ t₀ (UserMm m d) T d)
    (fun r s t => Twins s₀ t₀ (UserMm m d) T d s t ∧ ∀ v, r = some v → addr < userTop) (fun _ => Twins s₀ t₀ (UserMm m d) T d)
    (findVma m addr) := by
  unfold findVma
  refine Lockstep.get_bind (by rintro s _ ⟨⟨b, e, rfl⟩, -⟩; rfl) fun s t h => ?_
  obtain ⟨found, hfound⟩ : ∃ found, ((s.mm m).mmapCache.filter fun v => decide (v.Has addr)).or
      ((s.mm m).mmapList.find? fun v => decide (v.Has addr)) = found := ⟨_, rfl⟩
  dsimp only
  rw [hfound]
  have hhas : ∀ v, found = some v → v.Has addr ∧ v.vmEnd ≤ userTop := by
    rintro v rfl
    rcases Option.or_eq_some_iff.mp hfound with hcached | ⟨-, hlisted⟩
    · obtain ⟨hcache, hdec⟩ := Option.filter_eq_some_iff.mp hcached
      exact ⟨of_decide_eq_true hdec, h.mm.cache v hcache⟩
    · exact ⟨of_decide_eq_true (List.find?_some (p := fun v : Vma => decide (v.Has addr)) hlisted), h.mm.areas v (List.mem_of_find?_eq_some hlisted)⟩
  refine Lockstep.bind (Q := fun _ => Twins s₀ t₀ (UserMm m d) T d) ?_ (fun _ => Lockstep.pure fun s t h =>
    ⟨h, fun v hv => Nat.lt_of_lt_of_le (hhas v hv).1.2 (hhas v hv).2⟩) s t h
  cases found with
  | none => exact Lockstep.pure fun _ _ h => h
  | some v =>
    refine Lockstep.modify fun s t h => h.setMm m _ ⟨?_, ?_, ?_⟩ <;> rw [Function.update_self]
    · exact h.mm.pgdir
    · exact h.mm.areas
    · exact fun w hw => Option.some.inj hw ▸ (hhas v rfl).2

theorem lockstep_checkVmaOverlap (prev next : Vma) : Together (Twins s₀ t₀ K T d) (checkVmaOverlap prev next) :=
  Lockstep.assert_bind fun _ => Lockstep.assert_bind fun _ => Lockstep.assert fun _ _ _ h => h

theorem lockstep_insertVmaStruct {vma : Vma} (hend : vma.vmEnd ≤ userTop) : Together (Twins s₀ t₀ (UserMm m d) T d) (insertVmaStruct m vma) := by
  unfold insertVmaStruct
  refine Lockstep.assert_bind fun _ => Lockstep.get_bind (by rintro s _ ⟨⟨b, e, rfl⟩, -⟩; rfl) fun s t h => ?_
  have hareas := h.mm.areas
  refine Lockstep.bind (Q := fun _ => Twins s₀ t₀ (UserMm m d) T d) ?_ (fun _ => Lockstep.bind
    (Q := fun _ => Twins s₀ t₀ (UserMm m d) T d) ?_ fun _ => ?_) s t h
  · split
    · exact lockstep_checkVmaOverlap _ _
    · exact Lockstep.pure fun _ _ h => h
  · split
    · exact lockstep_checkVmaOverlap _ _
    · exact Lockstep.pure fun _ _ h => h
  · refine Lockstep.modify fun s' t' h' => h'.setMm m _ ⟨?_, ?_, ?_⟩ <;> rw [Function.update_self]
    · exact h'.mm.pgdir
    · intro v hv
      rcases List.mem_append.mp hv with hv | hv
      · exact hareas v ((List.takeWhile_sublist _).mem hv)
      · rcases List.mem_cons.mp hv with rfl | hv
        · exact hend
        · exact hareas v ((List.dropWhile_sublist _).mem hv)
    · exact h'.mm.cache

/-- When `mm_map` returns, the area is for user addresses. -/
theorem lockstep_mmMap (al : Allocs) (addr len : ℕ) (flags : BitVec 32) : Lockstep (Twins s₀ t₀ (UserMm m d) T d)
    (fun _ s t => Twins s₀ t₀ (UserMm m d) T d s t ∧ UserAccess (areaStart addr) (areaEnd addr len))
    (fun _ => Twins s₀ t₀ (UserMm m d) T d) (mmMap al m addr len flags) := by
  have hnew : UserAccess (areaStart addr) (areaEnd addr len) → Lockstep (Twins s₀ t₀ (UserMm m d) T d)
      (fun _ s t => Twins s₀ t₀ (UserMm m d) T d s t ∧ UserAccess (areaStart addr) (areaEnd addr len))
      (fun _ => Twins s₀ t₀ (UserMm m d) T d) (mmMapNew al m (areaStart addr) (areaEnd addr len) flags) := by
    intro haccess
    unfold mmMapNew vmaCreate
    refine Lockstep.bind (Lockstep.bind (lockstep_kmalloc al) fun r => ?_)
      (Q := fun r s t => Twins s₀ t₀ (UserMm m d) T d s t ∧ ∀ v, r = some v → v.vmEnd ≤ userTop) fun r => ?_
    · cases r with
      | none => exact Lockstep.pure fun s t h => ⟨h, fun _ hnone => nomatch hnone⟩
      | some b => exact Lockstep.pure fun s t h => ⟨h, fun v hv => Option.some.inj hv ▸ haccess.2.2⟩
    · cases r with
      | none => exact Lockstep.throw fun _ _ h => h.1
      | some vma =>
        exact fun s t h => (lockstep_insertVmaStruct (h.2 vma rfl) s t h.1).mono (fun _ _ _ h' => ⟨h', haccess⟩) fun _ _ _ h' => h'
  rw [mmMap_eq]
  refine Lockstep.ite (fun _ => Lockstep.throw fun _ _ h => h) fun haccess => Lockstep.bind (lockstep_findVma _) fun r => ?_
  cases r with
  | none => exact (hnew (not_not.mp haccess)).pre fun _ _ h => h.1
  | some v => exact (Lockstep.ite (fun _ => Lockstep.throw fun _ _ h => h) fun _ => hnew (not_not.mp haccess)).pre fun _ _ h => h.1

/-! ### The end of an address space -/

theorem lockstep_exitMmap (al : Allocs) (m : ℕ) : Together (Twins s₀ t₀ (UserMm m d) T d) (exitMmap al m) := by
  unfold exitMmap
  refine Lockstep.get_bind (by rintro s _ ⟨⟨b, e, rfl⟩, -⟩; rfl) fun s t h => ?_
  rw [h.mm.pgdir]
  refine Lockstep.assert_bind (fun _ => ?_) s t h
  refine Lockstep.seq (Lockstep.modify fun s t h => ?_) fun _ => Lockstep.seq (lockstep_unmapAll al _) fun _ => lockstep_exitAll _
  exact h.frame (f := fun s => { s with exitMmaps := Function.update s.exitMmaps m (s.exitMmaps m + 1) }) (fun _ _ => rfl) rfl rfl
    h.taken h.mm

/-- The states differ in what pages hold only. -/
def SameRest (s t : VmState) : Prop := ∃ b e, t = s.withPages b e

theorem SameRest.modify {f : VmState → VmState} (hf : ∀ s b e, f (s.withPages b e) = (f s).withPages b e) :
    Together SameRest (Prog.modify f : VmProg Unit) :=
  Lockstep.modify fun s _ h => by
    obtain ⟨b, e, rfl⟩ := h
    exact ⟨b, e, hf s b e⟩

theorem lockstep_kfreeAll (l : List Vma) : Together SameRest (kfreeAll l) := by
  induction l with
  | nil => exact Lockstep.pure fun _ _ h => h
  | cons v l ih => exact Lockstep.bind (SameRest.modify fun _ _ _ => rfl) fun _ => ih

theorem lockstep_mmDestroy (m : ℕ) : Together SameRest (mmDestroy m) := by
  unfold mmDestroy
  refine Lockstep.get_bind (by rintro s _ ⟨b, e, rfl⟩; rfl) fun s t h => Lockstep.assert_bind (R := SameRest) (fun _ => ?_) s t h
  refine Lockstep.seq (lockstep_kfreeAll _) fun _ => Lockstep.seq (SameRest.modify fun _ _ _ => rfl) fun _ => ?_
  exact Lockstep.seq (SameRest.modify fun _ _ _ => rfl) fun _ => SameRest.modify fun _ _ _ => rfl

theorem lockstep_putPgdir (m : ℕ) : Together SameRest (putPgdir m) := by
  unfold putPgdir
  refine Lockstep.get_bind (by rintro s _ ⟨b, e, rfl⟩; rfl) fun s t h => Lockstep.seq ?_ (fun _ => ?_) s t h
  · exact Lockstep.seq (SameRest.modify fun _ _ _ => rfl) fun _ => SameRest.modify fun _ _ _ => rfl
  · exact SameRest.modify fun _ _ _ => rfl

theorem lockstep_cleanupMm (al : Allocs) (m : ℕ) : Lockstep (Twins s₀ t₀ (UserMm m d) T d) (fun _ => SameRest)
    (fun _ _ _ => True) (cleanupMm al m) := by
  unfold cleanupMm
  refine Lockstep.bind ((lockstep_exitMmap al m).mono (fun _ _ _ h => h.rest) fun _ _ _ _ => trivial) fun _ => ?_
  exact Lockstep.bind ((lockstep_putPgdir m).mono (fun _ _ _ h => h) fun _ _ _ _ => trivial) fun _ =>
    (lockstep_mmDestroy m).mono (fun _ _ _ h => h) fun _ _ _ _ => trivial

end Ucore.Vm
