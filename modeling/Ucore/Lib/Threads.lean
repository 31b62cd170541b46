import Ucore.Lib.Prog
import Ucore.Lib.Semaphores

/-!
# Threads with semaphores

Threads that share data and synchronise with semaphores, one semaphore operation at a time, in any order.

* `Threads` is a program: what a thread may call at each location, with what it does to the data on the way, and what it
  does when a `down` has returned. `Config` is a state of all threads, and `Step` what can happen next.
* `Config.Ok` is what every run keeps for any program: the semaphores are sound, and a thread in a queue is at a location
  where it waits for this semaphore.
* `Config.amount` adds up units of semaphores, the locations of the threads and the data. When no call of the program
  changes it (`Conserves`), no run does.
* `Refines` relates two programs; a run of the one is then a run of the other.
-/

namespace Ucore.Lib

/-- What a thread calls. -/
inductive SemOp (S : Type) where
  | skip
  | up (s : S)
  | down (s : S)
  deriving DecidableEq

/-- A program of threads `P` with semaphores `S`, locations `L` and shared data `σ`. -/
structure Threads (P S L σ : Type) where
  /-- At a location, with the data as it is, the thread may change location and data and make a call. -/
  call : P → L → σ → SemOp S → L → σ → Prop
  /-- What it does when the `down` has returned. -/
  back : P → L → σ → L × σ
  /-- The locations where a thread waits for a semaphore. -/
  waits : P → L → S → Prop
  waits_of_call : ∀ p l d s l' d', call p l d (.down s) l' d' → waits p l' s

/-- A state of the threads. -/
structure Config (P S L σ : Type) extends Sems P S where
  loc : P → L
  data : σ

namespace Config

variable {P S L σ : Type} [DecidableEq P] [DecidableEq S]

/-- A thread changes its location and the data. -/
def goto (c : Config P S L σ) (p : P) (l : L) (d : σ) : Config P S L σ :=
  { c with loc := Function.update c.loc p l, data := d }

/-- The semaphores change. -/
def withSems (c : Config P S L σ) (s : Sems P S) : Config P S L σ := { c with toSems := s }

/-- A `down` returns to a thread. -/
def back (T : Threads P S L σ) (c : Config P S L σ) (p : P) : Config P S L σ :=
  c.goto p (T.back p (c.loc p) c.data).1 (T.back p (c.loc p) c.data).2

omit [DecidableEq S] in
theorem goto_self (c : Config P S L σ) (p : P) : c.goto p (c.loc p) c.data = c := by
  unfold goto
  rw [Function.update_eq_self]

end Config

section steps

variable {P S L σ : Type} [DecidableEq P] [DecidableEq S]

/-- What one of the threads `procs` can do. -/
inductive Step (T : Threads P S L σ) (procs : Finset P) (c : Config P S L σ) : Config P S L σ → Prop where
  | skip (p : P) (l : L) (d : σ) (hmem : p ∈ procs) (hp : c.phase p = .runs) (h : T.call p (c.loc p) c.data .skip l d) :
    Step T procs c (c.goto p l d)
  | up (p : P) (s : S) (l : L) (d : σ) (hmem : p ∈ procs) (hp : c.phase p = .runs)
    (h : T.call p (c.loc p) c.data (.up s) l d) : Step T procs c ((c.goto p l d).withSems (c.toSems.up s))
  | take (p : P) (s : S) (l : L) (d : σ) (hmem : p ∈ procs) (hp : c.phase p = .runs)
    (h : T.call p (c.loc p) c.data (.down s) l d) (hs : 0 < c.value s) :
    Step T procs c (((c.goto p l d).withSems (c.toSems.take s)).back T p)
  | block (p : P) (s : S) (l : L) (d : σ) (hmem : p ∈ procs) (hp : c.phase p = .runs)
    (h : T.call p (c.loc p) c.data (.down s) l d) (hs : ¬ 0 < c.value s) :
    Step T procs c ((c.goto p l d).withSems (c.toSems.block s p))
  | wake (p : P) (s : S) (hmem : p ∈ procs) (hp : c.phase p = .granted s) :
    Step T procs c ((c.withSems (c.toSems.wake p)).back T p)

/-- A state that the threads get to. -/
abbrev Runs (T : Threads P S L σ) (procs : Finset P) : Config P S L σ → Config P S L σ → Prop :=
  Relation.ReflTransGen (Step T procs)

/-! ### What every program keeps -/

/-- The semaphores are sound, only `procs` wait, and they do at the right locations. -/
structure Config.Ok (T : Threads P S L σ) (procs : Finset P) (c : Config P S L σ) : Prop where
  sems : c.toSems.Ok
  mem : ∀ p, c.phase p ≠ .runs → p ∈ procs
  waits : ∀ p s, c.phase p = .blocked s ∨ c.phase p = .granted s → T.waits p (c.loc p) s

variable {T : Threads P S L σ} {procs : Finset P} {c c' : Config P S L σ}

omit [DecidableEq P] [DecidableEq S] in
theorem Config.Ok.queue_mem (h : c.Ok T procs) (s : S) : ∀ p ∈ c.queue s, p ∈ procs := by
  intro p hp
  apply h.mem
  rw [(h.sems.mem s p).mp hp]
  exact fun h => by (cases h)

omit [DecidableEq S] in
/-- A thread that runs changes location. -/
theorem Config.Ok.goto (h : c.Ok T procs) {p : P} (hp : c.phase p = .runs) (l : L) (d : σ) : (c.goto p l d).Ok T procs := by
  refine ⟨h.sems, h.mem, fun q s hq => ?_⟩
  have hne : q ≠ p := by
    rintro rfl
    change c.phase q = _ ∨ c.phase q = _ at hq
    rw [hp] at hq
    rcases hq with hq | hq <;> cases hq
  show T.waits q (Function.update c.loc p l q) s
  rw [Function.update_of_ne hne]
  exact h.waits q s hq

omit [DecidableEq S] in
/-- A `down` returns to a thread that runs. -/
theorem Config.Ok.back (h : c.Ok T procs) {p : P} (hp : c.phase p = .runs) : (c.back T p).Ok T procs :=
  h.goto hp _ _

theorem Config.Ok.up (h : c.Ok T procs) (s : S) : (c.withSems (c.toSems.up s)).Ok T procs := by
  have hsems := h.sems.up s
  cases hq : c.queue s with
  | nil =>
    rw [Sems.up_of_nil hq] at hsems ⊢
    exact ⟨hsems, h.mem, h.waits⟩
  | cons q l =>
    have hblocked : c.phase q = .blocked s := (h.sems.mem s q).mp (by rw [hq]; exact List.mem_cons_self)
    rw [Sems.up_of_cons hq] at hsems ⊢
    refine ⟨hsems, fun p hp => ?_, fun p x hp => ?_⟩
    · by_cases hpq : p = q
      · rw [hpq]
        exact h.queue_mem s q (by rw [hq]; exact List.mem_cons_self)
      · change Function.update c.phase q _ p ≠ _ at hp
        rw [Function.update_of_ne hpq] at hp
        exact h.mem p hp
    · change Function.update c.phase q _ p = _ ∨ Function.update c.phase q _ p = _ at hp
      show T.waits p (c.loc p) x
      by_cases hpq : p = q
      · rw [hpq, Function.update_self] at hp
        have hx : s = x := by
          rcases hp with hp | hp
          · cases hp
          · exact Phase.granted.inj hp
        rw [hpq, ← hx]
        exact h.waits q s (.inl hblocked)
      · rw [Function.update_of_ne hpq] at hp
        exact h.waits p x hp

omit [DecidableEq P] in
theorem Config.Ok.take (h : c.Ok T procs) {s : S} (hs : 0 < c.value s) : (c.withSems (c.toSems.take s)).Ok T procs :=
  ⟨h.sems.take hs, h.mem, h.waits⟩

theorem Config.Ok.block (h : c.Ok T procs) {s : S} {p : P} (hs : ¬ 0 < c.value s) (hmem : p ∈ procs) (hp : c.phase p = .runs)
    (hwaits : T.waits p (c.loc p) s) : (c.withSems (c.toSems.block s p)).Ok T procs := by
  refine ⟨h.sems.block hs hp, fun q hq => ?_, fun q x hq => ?_⟩
  · by_cases hqp : q = p
    · rw [hqp]
      exact hmem
    · change Function.update c.phase p _ q ≠ _ at hq
      rw [Function.update_of_ne hqp] at hq
      exact h.mem q hq
  · change Function.update c.phase p _ q = _ ∨ Function.update c.phase p _ q = _ at hq
    show T.waits q (c.loc q) x
    by_cases hqp : q = p
    · rw [hqp, Function.update_self] at hq
      have hx : s = x := by
        rcases hq with hq | hq
        · exact Phase.blocked.inj hq
        · cases hq
      rw [hqp, ← hx]
      exact hwaits
    · rw [Function.update_of_ne hqp] at hq
      exact h.waits q x hq

omit [DecidableEq S] in
theorem Config.Ok.wake (h : c.Ok T procs) {s : S} {p : P} (hp : c.phase p = .granted s) :
    (c.withSems (c.toSems.wake p)).Ok T procs := by
  refine ⟨h.sems.wake hp, fun q hq => ?_, fun q x hq => ?_⟩
  · change Function.update c.phase p _ q ≠ _ at hq
    by_cases hqp : q = p
    · rw [hqp, Function.update_self] at hq
      exact absurd rfl hq
    · rw [Function.update_of_ne hqp] at hq
      exact h.mem q hq
  · change Function.update c.phase p _ q = _ ∨ Function.update c.phase p _ q = _ at hq
    show T.waits q (c.loc q) x
    by_cases hqp : q = p
    · rw [hqp, Function.update_self] at hq
      rcases hq with hq | hq <;> cases hq
    · rw [Function.update_of_ne hqp] at hq
      exact h.waits q x hq

omit [DecidableEq S] in
/-- A thread that has called `down` is at the location where it waits. -/
theorem waits_goto {p : P} {s : S} {l : L} {d : σ} (hcall : T.call p (c.loc p) c.data (.down s) l d) :
    T.waits p ((c.goto p l d).loc p) s := by
  show T.waits p (Function.update c.loc p l p) s
  rw [Function.update_self]
  exact T.waits_of_call _ _ _ _ _ _ hcall

theorem Step.ok (hstep : Step T procs c c') (h : c.Ok T procs) : c'.Ok T procs := by
  cases hstep with
  | skip p l d hmem hp hcall => exact h.goto hp l d
  | up p s l d hmem hp hcall => exact (h.goto hp l d).up s
  | take p s l d hmem hp hcall hs => exact ((h.goto hp l d).take hs).back hp
  | block p s l d hmem hp hcall hs => exact (h.goto hp l d).block hs hmem hp (waits_goto hcall)
  | wake p s hmem hp =>
    refine (h.wake hp).back ?_
    show Function.update c.phase p .runs p = .runs
    exact Function.update_self ..

theorem Runs.ok (hruns : Runs T procs c c') (h : c.Ok T procs) : c'.Ok T procs :=
  invariant_of_step _ hruns h fun _ _ hok hstep => hstep.ok hok

/-! ### Quantities that every step keeps -/

/-- Units of the semaphores `ss`, something for the location of each thread, and something for the data. -/
def Config.amount (procs : Finset P) (ss : Finset S) (w : P → L → ℤ) (f : σ → ℤ) (c : Config P S L σ) : ℤ :=
  (∑ s ∈ ss, Sems.permits procs c.toSems s) + (∑ p ∈ procs, w p (c.loc p)) + f c.data

/-- No call and no return changes the amount, if a unit of `ss` counts, and the thread and the data are as in `pre`. -/
structure Conserves (T : Threads P S L σ) (pre : P → L → σ → Prop) (ss : Finset S) (w : P → L → ℤ) (f : σ → ℤ) :
    Prop where
  skip : ∀ p l d l' d', pre p l d → T.call p l d .skip l' d' → w p l' + f d' = w p l + f d
  up : ∀ p l d s l' d', pre p l d → T.call p l d (.up s) l' d' →
    w p l' + f d' + (if s ∈ ss then 1 else 0) = w p l + f d
  down : ∀ p l d s l' d', pre p l d → T.call p l d (.down s) l' d' → w p l' + f d' = w p l + f d ∧ pre p l' d'
  back : ∀ p l d s, pre p l d → T.waits p l s →
    w p (T.back p l d).1 + f (T.back p l d).2 = w p l + f d + if s ∈ ss then 1 else 0

variable {pre : P → L → σ → Prop} {ss : Finset S} {w : P → L → ℤ} {f : σ → ℤ}

theorem amount_goto {p : P} (hmem : p ∈ procs) (l : L) (d : σ) :
    (c.goto p l d).amount procs ss w f = c.amount procs ss w f + (w p l + f d) - (w p (c.loc p) + f c.data) := by
  have hsplit := Finset.add_sum_erase procs (fun x => w x (c.loc x)) hmem
  have hsplit' := Finset.add_sum_erase procs (fun x => w x (Function.update c.loc p l x)) hmem
  have hrest : ∑ x ∈ procs.erase p, w x (Function.update c.loc p l x) = ∑ x ∈ procs.erase p, w x (c.loc x) := by
    refine Finset.sum_congr rfl fun x hx => ?_
    rw [Function.update_of_ne (Finset.ne_of_mem_erase hx)]
  simp only [Function.update_self] at hsplit'
  simp only [Config.amount, Config.goto]
  omega

omit [DecidableEq P] in
/-- The units of `ss`, when those of one semaphore change. -/
theorem sum_permits {m m' : Sems P S} {s : S} {δ : ℤ}
    (h : ∀ x, Sems.permits procs m' x = Sems.permits procs m x + if x = s then δ else 0) :
    ∑ x ∈ ss, Sems.permits procs m' x = (∑ x ∈ ss, Sems.permits procs m x) + if s ∈ ss then δ else 0 := by
  rw [Finset.sum_congr rfl fun x _ => h x, Finset.sum_add_distrib, Finset.sum_ite_eq']

omit [DecidableEq P] in
theorem amount_withSems {m : Sems P S} {s : S} {δ : ℤ}
    (h : ∀ x, Sems.permits procs m x = Sems.permits procs c.toSems x + if x = s then δ else 0) :
    (c.withSems m).amount procs ss w f = c.amount procs ss w f + if s ∈ ss then δ else 0 := by
  have hsum : ∑ x ∈ ss, Sems.permits procs m x = (∑ x ∈ ss, Sems.permits procs c.toSems x) + if s ∈ ss then δ else 0 :=
    sum_permits h
  simp only [Config.amount, Config.withSems]
  omega

theorem Conserves.step (hT : Conserves T pre ss w f) (h : c.Ok T procs) (hpre : ∀ p, pre p (c.loc p) c.data)
    (hstep : Step T procs c c') : c'.amount procs ss w f = c.amount procs ss w f := by
  cases hstep with
  | skip p l d hmem hp hcall =>
    have := hT.skip _ _ _ _ _ (hpre p) hcall
    rw [amount_goto hmem]
    omega
  | up p s l d hmem hp hcall =>
    have hw := hT.up _ _ _ _ _ _ (hpre p) hcall
    have hpermits := Sems.permits_up (h.goto hp l d).sems (h.goto hp l d).queue_mem s
    rw [show c.toSems.up s = (c.goto p l d).toSems.up s from rfl, amount_withSems hpermits, amount_goto hmem]
    omega
  | take p s l d hmem hp hcall hs =>
    obtain ⟨hw, hpre'⟩ := hT.down _ _ _ _ _ _ (hpre p) hcall
    have hback := hT.back p l d s hpre' (T.waits_of_call _ _ _ _ _ _ hcall)
    have hpermits : ∀ x, Sems.permits procs (c.toSems.take s) x =
        Sems.permits procs (c.goto p l d).toSems x + if x = s then -1 else 0 := by
      intro x
      rw [Sems.permits_take]
      show Sems.permits procs c.toSems x - _ = Sems.permits procs c.toSems x + _
      split_ifs <;> omega
    have hunits : ((c.goto p l d).withSems (c.toSems.take s)).amount procs ss w f =
        (c.goto p l d).amount procs ss w f + if s ∈ ss then -1 else 0 := amount_withSems hpermits
    rw [Config.back, amount_goto hmem, hunits, amount_goto hmem]
    simp only [Config.withSems, Config.goto, Function.update_self] at hback ⊢
    split_ifs at hback ⊢ <;> omega
  | block p s l d hmem hp hcall hs =>
    have hw := (hT.down _ _ _ _ _ _ (hpre p) hcall).1
    have hpermits : ∀ x, Sems.permits procs (c.toSems.block s p) x =
        Sems.permits procs (c.goto p l d).toSems x + if x = s then 0 else 0 := by
      intro x
      rw [Sems.permits_block hp]
      show Sems.permits procs c.toSems x = Sems.permits procs c.toSems x + _
      split_ifs <;> omega
    rw [amount_withSems hpermits, amount_goto hmem]
    split_ifs <;> omega
  | wake p s hmem hp =>
    have hback := hT.back p (c.loc p) c.data s (hpre p) (h.waits p s (.inr hp))
    have hpermits : ∀ x, Sems.permits procs (c.toSems.wake p) x =
        Sems.permits procs c.toSems x + if x = s then -1 else 0 := by
      intro x
      rw [Sems.permits_wake hmem hp]
      split_ifs <;> omega
    rw [Config.back, amount_goto hmem, amount_withSems hpermits]
    simp only [Config.withSems] at hback ⊢
    split_ifs at hback ⊢ <;> omega

theorem Conserves.runs (hT : Conserves T (fun _ _ _ => True) ss w f) (h : c.Ok T procs) (hruns : Runs T procs c c') :
    c'.amount procs ss w f = c.amount procs ss w f := by
  induction hruns with
  | refl => rfl
  | tail hbefore hstep ih =>
    rw [hT.step (Runs.ok hbefore h) (fun _ => trivial) hstep]
    exact ih

/-! ### Two programs -/

/-- What the program `T` does, `T'` does as well, under `fL` and `fd`; a `skip` may be nothing at all. -/
structure Refines {L' σ' : Type} (T : Threads P S L σ) (T' : Threads P S L' σ') (fL : P → L → L') (fd : σ → σ') :
    Prop where
  call : ∀ p l d op l' d', T.call p l d op l' d' →
    T'.call p (fL p l) (fd d) op (fL p l') (fd d') ∨ (op = .skip ∧ fL p l' = fL p l ∧ fd d' = fd d)
  back : ∀ p l d s, T.waits p l s → T'.back p (fL p l) (fd d) = (fL p (T.back p l d).1, fd (T.back p l d).2)

/-- The state as the other program sees it. -/
def Config.map {L' σ' : Type} (fL : P → L → L') (fd : σ → σ') (c : Config P S L σ) : Config P S L' σ' :=
  { toSems := c.toSems, loc := fun p => fL p (c.loc p), data := fd c.data }

section refines

variable {L' σ' : Type} {T' : Threads P S L' σ'} {fL : P → L → L'} {fd : σ → σ'}

omit [DecidableEq S] in
theorem map_goto (p : P) (l : L) (d : σ) : (c.goto p l d).map fL fd = (c.map fL fd).goto p (fL p l) (fd d) := by
  simp only [Config.map, Config.goto]
  congr 1
  funext x
  simp only [Function.update_apply]
  split_ifs with hx
  · rw [hx]
  · rfl

omit [DecidableEq S] in
theorem map_back (hT : Refines T T' fL fd) {p : P} {s : S} (hwaits : T.waits p (c.loc p) s) :
    (c.back T p).map fL fd = (c.map fL fd).back T' p := by
  rw [Config.back, Config.back, map_goto]
  have h := hT.back p (c.loc p) c.data s hwaits
  show _ = (c.map fL fd).goto p (T'.back p (fL p (c.loc p)) (fd c.data)).1 (T'.back p (fL p (c.loc p)) (fd c.data)).2
  rw [h]

theorem Refines.step (hT : Refines T T' fL fd) (h : c.Ok T procs) (hstep : Step T procs c c') :
    Step T' procs (c.map fL fd) (c'.map fL fd) ∨ c'.map fL fd = c.map fL fd := by
  cases hstep with
  | skip p l d hmem hp hcall =>
    rw [map_goto]
    rcases hT.call _ _ _ _ _ _ hcall with hcall' | ⟨-, hl, hd⟩
    · exact .inl (.skip p _ _ hmem hp hcall')
    · right
      rw [hl, hd]
      simp only [Config.goto, Config.map]
      congr 1
      exact Function.update_eq_self p _
  | up p s l d hmem hp hcall =>
    rcases hT.call _ _ _ _ _ _ hcall with hcall' | ⟨hop, -⟩
    · left
      have : Step T' procs (c.map fL fd) _ := .up p s _ _ hmem hp hcall'
      rwa [← map_goto] at this
    · cases hop
  | take p s l d hmem hp hcall hs =>
    rcases hT.call _ _ _ _ _ _ hcall with hcall' | ⟨hop, -⟩
    · left
      have : Step T' procs (c.map fL fd) _ := .take p s _ _ hmem hp hcall' hs
      rw [← map_goto] at this
      rw [map_back hT (c := (c.goto p l d).withSems (c.toSems.take s)) (waits_goto hcall)]
      exact this
    · cases hop
  | block p s l d hmem hp hcall hs =>
    rcases hT.call _ _ _ _ _ _ hcall with hcall' | ⟨hop, -⟩
    · left
      have : Step T' procs (c.map fL fd) _ := .block p s _ _ hmem hp hcall' hs
      rwa [← map_goto] at this
    · cases hop
  | wake p s hmem hp =>
    left
    rw [map_back hT (c := c.withSems (c.toSems.wake p)) (h.waits p s (.inr hp))]
    have : Step T' procs (c.map fL fd) _ := .wake p s hmem hp
    exact this

end refines

end steps

end Ucore.Lib
