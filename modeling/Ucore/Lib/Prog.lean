import Mathlib.Logic.Relation
import Mathlib.Tactic.Common

/-!
# Programs that return, fail or panic

Kernel code in this development is a state transformer with three ways to end: it returns a
value, it returns an error code (the state it has changed so far stays changed), or an assertion
fails and the machine stops. This file has the program type `Prog`, its monad, and the rules the
proofs about such programs use.

* `run_bind` and the lemmas tagged `simp` run a program step by step; `bind_of_ok` replaces the
  first part of a sequence by what is known of it.
* `bind_eq_ok` and its companions invert a sequence that is known to have ended in some way.
* `Outcome.Post Q E P` says what holds of an outcome: `Q` of a value, `E` of an error, `P` of a
  panic. `post_bind` reduces a sequence to its parts and `Post.mono` weakens, so a proof about a
  function cites the `Post` lemmas of the functions it calls. `PanicsIn P` is the part about panics.
* `Outcome.observe` is for runs on fixed inputs: what they return, and a part of the state that can be compared. `Outcome.site` is
  where they stop.
* `Within R P m` says that `m` takes a state to states related to it by `R`. It has a rule for each way to build a
  program, so a function that changes nothing of interest is proved to do so by following its text.
* `invariant_of_step` is the induction over runs, stated once.
-/

namespace Ucore.Lib

variable {π ε σ α β : Type}

/-- How a run of kernel code ends: with a value, with an error code, or in a panic. Only the
first two leave a state behind. -/
inductive Outcome (π ε σ α : Type) where
  | ok (a : α) (s : σ)
  | error (e : ε) (s : σ)
  | panic (p : π)
  deriving Repr, DecidableEq

/-- A program over the state `σ`, with error codes `ε` and panic sites `π`. -/
structure Prog (π ε σ α : Type) where
  /-- Run the program in a state. -/
  run : σ → Outcome π ε σ α

/-- What follows an outcome: the rest of the program after a value, nothing otherwise. -/
def Outcome.andThen (r : Outcome π ε σ α) (k : α → Prog π ε σ β) : Outcome π ε σ β :=
  match r with
  | .ok a s => (k a).run s
  | .error e s => .error e s
  | .panic p => .panic p

section andThen

variable (k : α → Prog π ε σ β)

@[simp] theorem Outcome.andThen_ok (a : α) (s : σ) :
    (Outcome.ok a s : Outcome π ε σ α).andThen k = (k a).run s := rfl

@[simp] theorem Outcome.andThen_error (e : ε) (s : σ) :
    (Outcome.error e s : Outcome π ε σ α).andThen k = .error e s := rfl

@[simp] theorem Outcome.andThen_panic (p : π) :
    (Outcome.panic p : Outcome π ε σ α).andThen k = .panic p := rfl

end andThen

namespace Prog

instance : Monad (Prog π ε σ) where
  pure a := ⟨fun s => .ok a s⟩
  bind m k := ⟨fun s => (m.run s).andThen k⟩

/-- Read the state. -/
def get : Prog π ε σ σ := ⟨fun s => .ok s s⟩

/-- Change the state. -/
def modify (f : σ → σ) : Prog π ε σ Unit := ⟨fun s => .ok () (f s)⟩

/-- Return the error code `e`. -/
def throw (e : ε) : Prog π ε σ α := ⟨fun s => .error e s⟩

/-- Stop at the panic site `p`. -/
def stop (p : π) : Prog π ε σ α := ⟨fun _ => .panic p⟩

/-- `assert(c)`, whose failure is the panic site `p`. -/
def assert (c : Prop) [Decidable c] (p : π) : Prog π ε σ Unit :=
  ⟨fun s => if c then .ok () s else .panic p⟩

/-- Run `m` and hand its error code, if any, to the caller as a value: the code that looks at
`ret` before it decides what to do. -/
def attempt (m : Prog π ε σ α) : Prog π ε σ (Except ε α) := ⟨fun s =>
  match m.run s with
  | .ok a s' => .ok (.ok a) s'
  | .error e s' => .ok (.error e) s'
  | .panic p => .panic p⟩

/-- Run a program of a component on the component's part of the state. -/
def zoom {π' τ : Type} (read : σ → τ) (write : τ → σ → σ) (site : π' → π)
    (m : Prog π' ε τ α) : Prog π ε σ α := ⟨fun s =>
  match m.run (read s) with
  | .ok a t => .ok a (write t s)
  | .error e t => .error e (write t s)
  | .panic p => .panic (site p)⟩

/-- Like `zoom`, for a component with error codes of its own. -/
def embed {π' ε' τ : Type} (read : σ → τ) (write : τ → σ → σ) (site : π' → π) (code : ε' → ε)
    (m : Prog π' ε' τ α) : Prog π ε σ α := ⟨fun s =>
  match m.run (read s) with
  | .ok a t => .ok a (write t s)
  | .error e t => .error (code e) (write t s)
  | .panic p => .panic (site p)⟩

section run

variable (m : Prog π ε σ α) (k : α → Prog π ε σ β) (s : σ)

@[simp] theorem run_pure (a : α) : (pure a : Prog π ε σ α).run s = .ok a s := rfl

@[simp] theorem run_bind : (m >>= k).run s = (m.run s).andThen k := rfl

@[simp] theorem run_get : (get : Prog π ε σ σ).run s = .ok s s := rfl

@[simp] theorem run_modify (f : σ → σ) : (modify f : Prog π ε σ Unit).run s = .ok () (f s) := rfl

@[simp] theorem run_throw (e : ε) : (throw e : Prog π ε σ α).run s = .error e s := rfl

@[simp] theorem run_stop (p : π) : (stop p : Prog π ε σ α).run s = .panic p := rfl

theorem run_assert (c : Prop) [Decidable c] (p : π) :
    (assert c p : Prog π ε σ Unit).run s = if c then .ok () s else .panic p := rfl

@[simp] theorem run_assert_of {c : Prop} [Decidable c] (p : π) (h : c) :
    (assert c p : Prog π ε σ Unit).run s = .ok () s := if_pos h

@[simp] theorem run_assert_of_not {c : Prop} [Decidable c] (p : π) (h : ¬ c) :
    (assert c p : Prog π ε σ Unit).run s = .panic p := if_neg h

@[simp] theorem run_ite {c : Prop} [Decidable c] (m' : Prog π ε σ α) :
    (if c then m else m').run s = if c then m.run s else m'.run s := by
  split_ifs <;> rfl

theorem bind_assoc {γ : Type} (k' : β → Prog π ε σ γ) : m >>= k >>= k' = m >>= fun a => k a >>= k' := by
  show Prog.mk _ = Prog.mk _
  congr 1
  funext s
  show ((m.run s).andThen k).andThen k' = (m.run s).andThen fun a => k a >>= k'
  cases m.run s <;> rfl

theorem pure_bind (a : α) : (pure a : Prog π ε σ α) >>= k = k a := rfl

variable {m k s}

/-- A first part that returns is replaced by its value and state. -/
theorem bind_of_ok {a : α} {s' : σ} (h : m.run s = .ok a s') :
    (m >>= k).run s = (k a).run s' := by
  rw [run_bind, h, Outcome.andThen_ok]

theorem bind_of_error {e : ε} {s' : σ} (h : m.run s = .error e s') :
    (m >>= k).run s = .error e s' := by
  rw [run_bind, h, Outcome.andThen_error]

theorem bind_of_panic {p : π} (h : m.run s = .panic p) : (m >>= k).run s = .panic p := by
  rw [run_bind, h, Outcome.andThen_panic]

theorem attempt_of_ok {a : α} {s' : σ} (h : m.run s = .ok a s') : (attempt m).run s = .ok (.ok a) s' := by
  simp only [attempt, h]

theorem attempt_of_error {e : ε} {s' : σ} (h : m.run s = .error e s') : (attempt m).run s = .ok (.error e) s' := by
  simp only [attempt, h]

theorem attempt_eq_error {e : ε} {s' : σ} : (attempt m).run s = .ok (.error e) s' ↔ m.run s = .error e s' := by
  rw [attempt]
  simp only
  cases m.run s <;> simp

/-- A sequence that returns has returned from both parts. -/
theorem bind_eq_ok {b : β} {s' : σ} :
    (m >>= k).run s = .ok b s' ↔ ∃ a s₁, m.run s = .ok a s₁ ∧ (k a).run s₁ = .ok b s' := by
  rw [run_bind]
  cases h : m.run s <;> simp

theorem assert_bind_eq_ok {c : Prop} [Decidable c] {p : π} {k : Unit → Prog π ε σ β} {b : β} {s' : σ} :
    (assert c p >>= k).run s = .ok b s' ↔ c ∧ (k ()).run s = .ok b s' := by
  by_cases hc : c
  · rw [bind_of_ok (run_assert_of s p hc)]
    simp [hc]
  · rw [bind_of_panic (run_assert_of_not s p hc)]
    simp [hc]

theorem get_bind_eq_ok {k : σ → Prog π ε σ β} {b : β} {s' : σ} :
    (get >>= k).run s = .ok b s' ↔ (k s).run s = .ok b s' := Iff.rfl

end run

section embed

variable {π' ε' τ : Type} {read : σ → τ} {write : τ → σ → σ} {site : π' → π} {code : ε' → ε} {m : Prog π' ε' τ α} {s : σ} {t : τ}

theorem embed_of_ok {a : α} (h : m.run (read s) = .ok a t) : (embed read write site code m).run s = .ok a (write t s) := by
  simp only [embed, h]

end embed

end Prog

namespace Outcome

/-- What holds of an outcome: `Q` of a returned value, `E` of an error code, `P` of a panic. -/
def Post (Q : α → σ → Prop) (E : ε → σ → Prop) (P : π → Prop) : Outcome π ε σ α → Prop
  | .ok a s => Q a s
  | .error e s => E e s
  | .panic p => P p

variable {Q Q' : α → σ → Prop} {E E' : ε → σ → Prop} {P P' : π → Prop}

@[simp] theorem post_ok {a : α} {s : σ} : Post Q E P (.ok a s) ↔ Q a s := Iff.rfl

@[simp] theorem post_error {e : ε} {s : σ} : Post Q E P (.error e s : Outcome π ε σ α) ↔ E e s :=
  Iff.rfl

@[simp] theorem post_panic {p : π} : Post Q E P (.panic p : Outcome π ε σ α) ↔ P p := Iff.rfl

theorem Post.mono {r : Outcome π ε σ α} (h : Post Q E P r) (hQ : ∀ a s, Q a s → Q' a s)
    (hE : ∀ e s, E e s → E' e s) (hP : ∀ p, P p → P' p) : Post Q' E' P' r := by
  cases r with
  | ok a s => exact hQ a s h
  | error e s => exact hE e s h
  | panic p => exact hP p h

/-- Two postconditions of one outcome. -/
theorem Post.and {r : Outcome π ε σ α} (h : Post Q E P r) (h' : Post Q' E' P' r) :
    Post (fun a s => Q a s ∧ Q' a s) (fun e s => E e s ∧ E' e s) (fun p => P p ∧ P' p) r := by
  cases r with
  | ok a s => exact ⟨h, h'⟩
  | error e s => exact ⟨h, h'⟩
  | panic p => exact ⟨h, h'⟩

/-- An outcome that is neither an error nor a panic. -/
theorem Post.exists_ok {r : Outcome π ε σ α} (h : Post Q (fun _ _ => False) (fun _ => False) r) :
    ∃ a s, r = .ok a s ∧ Q a s := by
  cases r with
  | ok a s => exact ⟨a, s, rfl, h⟩
  | error e s => exact h.elim
  | panic p => exact h.elim

/-- The rule of sequence. -/
theorem post_bind {m : Prog π ε σ α} {k : α → Prog π ε σ β} {s : σ} {Q : β → σ → Prop} :
    Post Q E P ((m >>= k).run s) ↔ Post (fun a s' => Post Q E P ((k a).run s')) E P (m.run s) := by
  rw [Prog.run_bind]
  cases m.run s <;> simp

/-- Sequence with a postcondition of the first part already proved. -/
theorem Post.bind {m : Prog π ε σ α} {k : α → Prog π ε σ β} {s : σ} {R : β → σ → Prop}
    (hm : Post Q E P (m.run s)) (hk : ∀ a s', Q a s' → Post R E P ((k a).run s')) :
    Post R E P ((m >>= k).run s) :=
  post_bind.mpr (hm.mono hk (fun _ _ h => h) fun _ h => h)

/-- What follows an assertion may use it, where any panic is allowed. -/
theorem Post.assert_bind {c : Prop} [Decidable c] {p : π} {k : Unit → Prog π ε σ β} {s : σ} {R : β → σ → Prop}
    (h : c → Post R E (fun _ => True) ((k ()).run s)) : Post R E (fun _ => True) ((Prog.assert c p >>= k).run s) := by
  by_cases hc : c
  · rw [Prog.bind_of_ok (Prog.run_assert_of s p hc)]
    exact h hc
  · rw [Prog.bind_of_panic (Prog.run_assert_of_not s p hc)]
    trivial

/-- Where an outcome may panic: at the sites `P`. -/
def PanicsIn (P : π → Prop) (r : Outcome π ε σ α) : Prop := Post (fun _ _ => True) (fun _ _ => True) P r

@[simp] theorem panicsIn_ok {a : α} {s : σ} : PanicsIn P (.ok a s : Outcome π ε σ α) := trivial

@[simp] theorem panicsIn_error {e : ε} {s : σ} : PanicsIn P (.error e s : Outcome π ε σ α) := trivial

@[simp] theorem panicsIn_panic {p : π} : PanicsIn P (.panic p : Outcome π ε σ α) ↔ P p := Iff.rfl

/-- The second part of a sequence counts in the states that the first part leaves. -/
theorem panicsIn_bind {m : Prog π ε σ α} {k : α → Prog π ε σ β} {s : σ} :
    PanicsIn P ((m >>= k).run s) ↔
      PanicsIn P (m.run s) ∧ ∀ a s', m.run s = .ok a s' → PanicsIn P ((k a).run s') := by
  rw [Prog.run_bind]
  cases m.run s <;> simp

/-- Both ends of a part whose error code is looked at. -/
theorem post_attempt {m : Prog π ε σ α} {s : σ} {Q : Except ε α → σ → Prop} :
    Post Q E P ((Prog.attempt m).run s) ↔
      Post (fun a s' => Q (.ok a) s') (fun e s' => Q (.error e) s') P (m.run s) := by
  rw [Prog.attempt]
  simp only
  cases m.run s <;> simp

/-- What a program of a component ends with, in the state around it. -/
theorem post_embed {π' ε' τ : Type} {read : σ → τ} {write : τ → σ → σ} {site : π' → π} {code : ε' → ε} {m : Prog π' ε' τ α} {s : σ} :
    Post Q E P ((Prog.embed read write site code m).run s) ↔
      Post (fun a t => Q a (write t s)) (fun e t => E (code e) (write t s)) (fun p => P (site p)) (m.run (read s)) := by
  rw [Prog.embed]
  simp only
  cases m.run (read s) <;> simp

theorem panicsIn_attempt {m : Prog π ε σ α} {s : σ} :
    PanicsIn P ((Prog.attempt m).run s) ↔ PanicsIn P (m.run s) := by
  rw [Prog.attempt]
  simp only
  cases m.run s <;> simp

/-- An error code is returned in the end, whatever the first part does. -/
theorem PanicsIn.then_throw {m : Prog π ε σ α} {e : ε} {s : σ} {Q : β → σ → Prop} (h : PanicsIn P (m.run s)) :
    Post Q (fun _ _ => True) P ((m >>= fun _ => Prog.throw e).run s) :=
  post_bind.mpr (h.mono (fun _ _ _ => trivial) (fun _ _ _ => trivial) fun _ hp => hp)

/-- What a run returns, and what is looked at of the state. -/
def observe (f : σ → β) : Outcome π ε σ α → Option (α × β)
  | .ok a s => some (a, f s)
  | .error _ _ => none
  | .panic _ => none

theorem of_observe {r : Outcome π ε σ α} {f : σ → β} {a : α} {b : β} (h : r.observe f = some (a, b)) : ∃ s, r = .ok a s ∧ f s = b := by
  cases r with
  | ok a' s =>
    obtain ⟨rfl, rfl⟩ := Prod.mk.inj (Option.some.inj h)
    exact ⟨s, rfl, rfl⟩
  | error e s => cases h
  | panic p => cases h

/-- Where a run has stopped. -/
def site : Outcome π ε σ α → Option π
  | .panic p => some p
  | _ => none

theorem of_site {r : Outcome π ε σ α} {p : π} (h : r.site = some p) : r = .panic p := by
  cases r with
  | ok a s => cases h
  | error e s => cases h
  | panic q => exact congrArg _ (Option.some.inj h)

/-- A run that can be observed has returned. -/
theorem of_isSome_observe {r : Outcome π ε σ α} {f : σ → β} (h : (r.observe f).isSome = true) : ∃ a s, r = .ok a s := by
  cases r with
  | ok a s => exact ⟨a, s, rfl⟩
  | error e s => cases h
  | panic p => cases h

end Outcome

/-- The program takes a state to states that `R` relates it to, and panics at the sites `P` only. -/
def Within (R : σ → σ → Prop) (P : π → Prop) (m : Prog π ε σ α) : Prop :=
  ∀ s, (m.run s).Post (fun _ => R s) (fun _ => R s) P

namespace Within

variable {R : σ → σ → Prop} {P : π → Prop}

section refl

variable [Std.Refl R]

theorem pure (a : α) : Within R P (Pure.pure a : Prog π ε σ α) := fun s => Std.Refl.refl s

theorem get : Within R P (Prog.get : Prog π ε σ σ) := fun s => Std.Refl.refl s

theorem throw (e : ε) : Within R P (Prog.throw e : Prog π ε σ α) := fun s => Std.Refl.refl s

/-- What would follow an error does not matter. -/
theorem throw_bind (e : ε) (k : α → Prog π ε σ β) : Within R P (Prog.throw e >>= k) := by
  intro s
  rw [Prog.bind_of_error (Prog.run_throw s e)]
  exact Std.Refl.refl s

theorem assert (c : Prop) [Decidable c] {p : π} (hp : P p) : Within R P (Prog.assert c p : Prog π ε σ Unit) := by
  intro s
  rw [Prog.run_assert]
  split_ifs
  · exact Std.Refl.refl s
  · exact hp

end refl

theorem stop {p : π} (hp : P p) : Within R P (Prog.stop p : Prog π ε σ α) := fun _ => hp

theorem modify {f : σ → σ} (hf : ∀ s, R s (f s)) : Within R P (Prog.modify f : Prog π ε σ Unit) := fun s => hf s

theorem bind [IsTrans σ R] {m : Prog π ε σ α} {k : α → Prog π ε σ β} (hm : Within R P m) (hk : ∀ a, Within R P (k a)) :
    Within R P (m >>= k) := by
  intro s
  refine Outcome.Post.bind (hm s) fun a s₁ h => ?_
  exact (hk a s₁).mono (fun _ _ h' => IsTrans.trans _ _ _ h h') (fun _ _ h' => IsTrans.trans _ _ _ h h') fun _ h' => h'

theorem ite {c : Prop} [Decidable c] {m m' : Prog π ε σ α} (hm : Within R P m) (hm' : Within R P m') :
    Within R P (if c then m else m') := by
  split_ifs
  · exact hm
  · exact hm'

theorem attempt {m : Prog π ε σ α} (hm : Within R P m) : Within R P (Prog.attempt m) := fun s =>
  Outcome.post_attempt.mpr ((hm s).mono (fun _ _ h => h) (fun _ _ h => h) fun _ h => h)

/-- A program of a component, in the state around it. -/
theorem embed {π' ε' τ : Type} {read : σ → τ} {write : τ → σ → σ} {site : π' → π} {code : ε' → ε} {R' : τ → τ → Prop} {P' : π' → Prop}
    {m : Prog π' ε' τ α} (hm : Within R' P' m) (hR : ∀ s t, R' (read s) t → R s (write t s)) (hP : ∀ p, P' p → P (site p)) :
    Within R P (Prog.embed read write site code m) := fun s =>
  Outcome.post_embed.mpr ((hm (read s)).mono (fun _ t h => hR s t h) (fun _ t h => hR s t h) hP)

/-- The first part of a sequence whose end is looked at. -/
theorem post_bind {m : Prog π ε σ α} {k : α → Prog π ε σ β} {s : σ} {Q : β → σ → Prop} {E : ε → σ → Prop} {P' : π → Prop}
    (hm : Within R P m) (hk : ∀ a s₁, R s s₁ → ((k a).run s₁).Post Q E P') (hE : ∀ e s₁, R s s₁ → E e s₁)
    (hP : ∀ p, P p → P' p) : ((m >>= k).run s).Post Q E P' :=
  Outcome.post_bind.mpr ((hm s).mono hk hE hP)

/-- The first part of a sequence, where errors do not matter. -/
theorem then_post {m : Prog π ε σ α} {k : α → Prog π ε σ β} {s : σ} {Q : β → σ → Prop} (hm : Within R P m)
    (hk : ∀ a s₁, R s s₁ → ((k a).run s₁).Post Q (fun _ _ => True) P) : ((m >>= k).run s).Post Q (fun _ _ => True) P :=
  hm.post_bind hk (fun _ _ _ => trivial) fun _ hp => hp

theorem panicsIn {m : Prog π ε σ α} (hm : Within R P m) (s : σ) : (m.run s).PanicsIn P :=
  (hm s).mono (fun _ _ _ => trivial) (fun _ _ _ => trivial) fun _ hp => hp

end Within

/-- A property that holds at the start and survives every step holds along every run. -/
theorem invariant_of_step (Inv : σ → Prop) {step : σ → σ → Prop} {s s' : σ}
    (h : Relation.ReflTransGen step s s') (h₀ : Inv s)
    (hstep : ∀ a b, Inv a → step a b → Inv b) : Inv s' := by
  induction h with
  | refl => exact h₀
  | tail _ hbc ih => exact hstep _ _ ih hbc

end Ucore.Lib
