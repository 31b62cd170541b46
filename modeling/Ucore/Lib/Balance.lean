import Ucore.Lib.Prog
import Mathlib.Algebra.Group.Basic
import Mathlib.Tactic.Abel

/-!
# What a program takes and gives back

Accounts of programs: a measure of the state, with values in a commutative group, and how much a program adds to it.

* `Adds μ δ r m` says that `m` adds `δ a` to `μ` when it returns `a`, and `r` when it ends with an error. A program that
  gives back on an error whatever it has taken has `r = 0`.
* There is a rule for each way to build a program. In a sequence the second part has to add what the first has left to
  add, after the value and in case of an error (`Adds.bind`), so an error branch is checked against what has been taken
  on the way to it.
* `Prog.ofExcept` hands on the end of an attempt.
-/

namespace Ucore.Lib

variable {π ε σ α β G : Type}

/-- End as the attempt has ended: the code `return ret`. -/
def Prog.ofExcept : Except ε α → Prog π ε σ α
  | .ok a => pure a
  | .error e => Prog.throw e

/-- The value of `δ` at what an attempt has returned, or `r`. -/
def onExcept (δ : α → G) (r : G) : Except ε α → G
  | .ok a => δ a
  | .error _ => r

@[simp] theorem onExcept_ok (δ : α → G) (r : G) (a : α) : onExcept δ r (.ok a : Except ε α) = δ a := rfl

@[simp] theorem onExcept_error (δ : α → G) (r : G) (e : ε) : onExcept δ r (.error e : Except ε α) = r := rfl

variable [AddCommGroup G]

/-- The program adds `δ a` to the measure when it returns `a`, and `r` when it ends with an error. -/
def Adds (μ : σ → G) (δ : α → G) (r : G) (m : Prog π ε σ α) : Prop :=
  ∀ s, (m.run s).Post (fun a s' => μ s' = μ s + δ a) (fun _ s' => μ s' = μ s + r) fun _ => True

namespace Adds

variable {μ : σ → G} {δ : α → G} {r : G}

/-- What an error leaves of the measure. -/
theorem of_error {m : Prog π ε σ α} (h : Adds μ δ r m) {e : ε} {s s' : σ} (hrun : m.run s = .error e s') : μ s' = μ s + r := by
  have hpost := h s
  rwa [hrun] at hpost

theorem pure {a : α} (h : δ a = 0) : Adds μ δ r (Pure.pure a : Prog π ε σ α) := by
  intro s
  show μ s = μ s + δ a
  rw [h, add_zero]

theorem throw {e : ε} (h : r = 0) : Adds μ δ r (Prog.throw e : Prog π ε σ α) := by
  intro s
  show μ s = μ s + r
  rw [h, add_zero]

theorem stop (p : π) : Adds μ δ r (Prog.stop p : Prog π ε σ α) := fun _ => trivial

theorem get_bind {k : σ → Prog π ε σ α} (hk : ∀ s, Adds μ δ r (k s)) : Adds μ δ r (Prog.get >>= k) := fun s => hk s s

theorem assert (c : Prop) [Decidable c] (p : π) : Adds μ (fun _ => 0) r (Prog.assert c p : Prog π ε σ Unit) := by
  intro s
  rw [Prog.run_assert]
  split_ifs
  · exact (add_zero _).symm
  · trivial

theorem assert_bind {c : Prop} [Decidable c] {p : π} {k : Unit → Prog π ε σ α} (hk : c → Adds μ δ r (k ())) :
    Adds μ δ r (Prog.assert c p >>= k) := fun s => Outcome.Post.assert_bind fun hc => hk hc s

theorem modify {f : σ → σ} {d : G} (hf : ∀ s, μ (f s) = μ s + d) :
    Adds μ (fun _ => d) r (Prog.modify f : Prog π ε σ Unit) := hf

/-- What the first part has taken is left to the second. -/
theorem bind {m : Prog π ε σ α} {k : α → Prog π ε σ β} {δ' : β → G} (hm : Adds μ δ r m)
    (hk : ∀ a, Adds μ (fun b => δ' b - δ a) (r - δ a) (k a)) : Adds μ δ' r (m >>= k) := by
  intro s
  refine (hm s).bind fun a s₁ h => (hk a s₁).mono ?_ ?_ fun _ hP => hP
  · intro b s₂ h'
    rw [h', h, add_assoc, add_sub_cancel]
  · intro e s₂ h'
    rw [h', h, add_assoc, add_sub_cancel]

/-- A first part that adds nothing. -/
theorem bind_zero {m : Prog π ε σ α} {k : α → Prog π ε σ β} {δ' : β → G} (hm : Adds μ (fun _ => 0) r m)
    (hk : ∀ a, Adds μ δ' r (k a)) : Adds μ δ' r (m >>= k) :=
  hm.bind fun a => by simpa only [sub_zero] using hk a

/-- A first part that adds nothing, in one state: what follows may use more of that state than its measure. -/
theorem post_bind_zero {m : Prog π ε σ α} {k : α → Prog π ε σ β} {s : σ} {Q : β → σ → Prop} {E : ε → σ → Prop}
    (hm : Adds μ (fun _ => 0) 0 m) (hE : ∀ e s', μ s' = μ s → E e s')
    (hk : ∀ a s', μ s' = μ s → ((k a).run s').Post Q E fun _ => True) : ((m >>= k).run s).Post Q E fun _ => True := by
  rw [Outcome.post_bind]
  refine (hm s).mono ?_ ?_ fun _ hP => hP
  · intro a s₁ h
    rw [add_zero] at h
    exact hk a s₁ h
  · intro e s₁ h
    rw [add_zero] at h
    exact hE e s₁ h

/-- A change of one state, and what follows it. -/
theorem post_modify_bind {f : σ → σ} {k : Unit → Prog π ε σ α} {s : σ} {d : G} (hf : μ (f s) = μ s + d)
    (hk : Adds μ (fun a => δ a - d) (r - d) (k ())) : ((Prog.modify f >>= k).run s).Post (fun a s' => μ s' = μ s + δ a)
      (fun _ s' => μ s' = μ s + r) fun _ => True := by
  rw [Outcome.post_bind]
  refine (hk (f s)).mono ?_ ?_ fun _ hP => hP
  · intro a s₂ h
    rw [h, hf, add_assoc, add_sub_cancel]
  · intro e s₂ h
    rw [h, hf, add_assoc, add_sub_cancel]

theorem attempt {m : Prog π ε σ α} {r' : G} (hm : Adds μ δ r m) : Adds μ (onExcept δ r) r' (Prog.attempt m) :=
  fun s => Outcome.post_attempt.mpr (hm s)

/-- An attempt that adds nothing, whose end is passed over. -/
theorem attempt_zero {m : Prog π ε σ α} {r' : G} (hm : Adds μ (fun _ => 0) 0 m) :
    Adds μ (fun _ => 0) r' (Prog.attempt m) := by
  intro s
  refine Outcome.post_attempt.mpr ((hm s).mono ?_ ?_ fun _ hP => hP)
  · exact fun _ _ h => h
  · exact fun _ _ h => h

theorem ofExcept {x : Except ε α} (h : onExcept δ r x = 0) : Adds μ δ r (Prog.ofExcept x : Prog π ε σ α) := by
  cases x with
  | ok a => exact pure h
  | error e => exact throw h

/-- An attempt, a release of `d` whatever its end, and the end. -/
theorem attempt_release {m : Prog π ε σ α} {c : Prog π ε σ Unit} {d : G} (hm : Adds μ δ r m)
    (hc : ∀ r', Adds μ (fun _ => -d) r' c) :
    Adds μ (fun a => δ a - d) (r - d) (Prog.attempt m >>= fun x => c >>= fun _ => Prog.ofExcept x) := by
  refine (hm.attempt).bind fun x => (hc _).bind fun _ => .ofExcept ?_
  cases x with
  | ok a =>
    rw [onExcept_ok, onExcept_ok]
    abel
  | error e =>
    rw [onExcept_error, onExcept_error]
    abel

theorem ite {c : Prop} [Decidable c] {m m' : Prog π ε σ α} (hm : c → Adds μ δ r m) (hm' : ¬ c → Adds μ δ r m') :
    Adds μ δ r (if c then m else m') := by
  split_ifs with hc
  · exact hm hc
  · exact hm' hc

/-- A component that the measure does not see. -/
theorem zoom {π' τ : Type} {read : σ → τ} {write : τ → σ → σ} {site : π' → π} {m : Prog π' ε τ α}
    (h : ∀ s t, μ (write t s) = μ s) : Adds μ (fun _ => 0) 0 (Prog.zoom read write site m) := by
  intro s
  rw [Prog.zoom]
  simp only [add_zero]
  cases m.run (read s) with
  | ok a t => exact h s t
  | error e t => exact h s t
  | panic p => trivial

/-- A component whose measure is that of the whole. -/
theorem zoom_part {π' τ : Type} {read : σ → τ} {write : τ → σ → σ} {site : π' → π} {ν : τ → G} {m : Prog π' ε τ α}
    (hm : Adds ν δ r m) (h : ∀ s t, read (write t s) = t) :
    Adds (fun s => ν (read s)) δ r (Prog.zoom read write site m) := by
  intro s
  have hpost := hm (read s)
  rw [Prog.zoom]
  dsimp only
  cases hrun : m.run (read s) with
  | ok a t =>
    rw [hrun] at hpost
    show ν (read (write t s)) = _
    rw [h]
    exact hpost
  | error e t =>
    rw [hrun] at hpost
    show ν (read (write t s)) = _
    rw [h]
    exact hpost
  | panic p => trivial

/-- The account of a program, in other words. -/
theorem congr {m : Prog π ε σ α} {δ' : α → G} {r' : G} (hm : Adds μ δ r m) (hδ : ∀ a, δ' a = δ a) (hr : r' = r) :
    Adds μ δ' r' m := by
  rw [funext hδ, hr]
  exact hm

end Adds

end Ucore.Lib
