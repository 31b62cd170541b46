import Ucore.Lib.Prog

/-!
# Two runs of a program

A program is run in two states that are alike, as for statements about what a part of the state has no influence on.

* `Outcome.Both Q E` says that two outcomes are of the same kind with the same value, and that `Q` or `E` holds of the states.
* `Lockstep R Q E m` says that two runs of `m` from states that `R` relates end so, and `Together R m` that `R` holds again. There is a rule for each way to build a
  program. The rule for `Prog.get` asks that the rest of the program is the same for both states.
-/

namespace Ucore.Lib

variable {π ε σ α β : Type}

namespace Outcome

/-- Two outcomes of the same kind. -/
inductive Both (Q : α → σ → σ → Prop) (E : ε → σ → σ → Prop) : Outcome π ε σ α → Outcome π ε σ α → Prop
  | ok {a : α} {s t : σ} (h : Q a s t) : Both Q E (.ok a s) (.ok a t)
  | error {e : ε} {s t : σ} (h : E e s t) : Both Q E (.error e s) (.error e t)
  | panic {p : π} : Both Q E (.panic p) (.panic p)

variable {Q Q' : α → σ → σ → Prop} {E E' : ε → σ → σ → Prop} {r r' : Outcome π ε σ α}

theorem Both.mono (h : Both Q E r r') (hQ : ∀ a s t, Q a s t → Q' a s t) (hE : ∀ e s t, E e s t → E' e s t) :
    Both Q' E' r r' := by
  cases h with
  | ok h => exact .ok (hQ _ _ _ h)
  | error h => exact .error (hE _ _ _ h)
  | panic => exact .panic

theorem Both.bind {R : β → σ → σ → Prop} {k k' : α → Prog π ε σ β} (h : Both Q E r r')
    (hk : ∀ a s t, Q a s t → Both R E ((k a).run s) ((k' a).run t)) : Both R E (r.andThen k) (r'.andThen k') := by
  cases h with
  | ok h => exact hk _ _ _ h
  | error h => exact .error h
  | panic => exact .panic

/-- The second run returns what the first one does. -/
theorem Both.of_ok {a : α} {s : σ} (h : Both Q E (.ok a s) r') : ∃ t, r' = .ok a t ∧ Q a s t := by
  cases h with
  | ok h => exact ⟨_, rfl, h⟩

end Outcome

/-- Two runs of a program end in the same way, from states that `R` relates. -/
def Lockstep (R : σ → σ → Prop) (Q : α → σ → σ → Prop) (E : ε → σ → σ → Prop) (m : Prog π ε σ α) : Prop :=
  ∀ s t, R s t → Outcome.Both Q E (m.run s) (m.run t)

/-- Two runs of a program end in the same way, and the states are related as before. -/
abbrev Together (R : σ → σ → Prop) (m : Prog π ε σ α) : Prop := Lockstep R (fun _ => R) (fun _ => R) m

namespace Lockstep

variable {R R' : σ → σ → Prop} {Q Q' : α → σ → σ → Prop} {S : β → σ → σ → Prop} {E E' : ε → σ → σ → Prop}

theorem pre {m : Prog π ε σ α} (h : Lockstep R Q E m) (hR : ∀ s t, R' s t → R s t) : Lockstep R' Q E m :=
  fun s t hst => h s t (hR s t hst)

theorem mono {m : Prog π ε σ α} (h : Lockstep R Q E m) (hQ : ∀ a s t, Q a s t → Q' a s t) (hE : ∀ e s t, E e s t → E' e s t) :
    Lockstep R Q' E' m := fun s t hst => (h s t hst).mono hQ hE

theorem pure {a : α} (h : ∀ s t, R s t → Q a s t) : Lockstep R Q E (Pure.pure a : Prog π ε σ α) :=
  fun s t hst => .ok (h s t hst)

theorem throw {e : ε} (h : ∀ s t, R s t → E e s t) : Lockstep R Q E (Prog.throw e : Prog π ε σ α) :=
  fun s t hst => .error (h s t hst)

theorem stop (p : π) : Lockstep R Q E (Prog.stop p : Prog π ε σ α) := fun _ _ _ => .panic

theorem modify {f : σ → σ} {Q : Unit → σ → σ → Prop} (h : ∀ s t, R s t → Q () (f s) (f t)) :
    Lockstep R Q E (Prog.modify f : Prog π ε σ Unit) := fun s t hst => .ok (h s t hst)

theorem bind {m : Prog π ε σ α} {k : α → Prog π ε σ β} (hm : Lockstep R Q E m) (hk : ∀ a, Lockstep (Q a) S E (k a)) :
    Lockstep R S E (m >>= k) := fun s t hst => (hm s t hst).bind fun a s' t' hQ => hk a s' t' hQ

theorem seq {m : Prog π ε σ α} {k : α → Prog π ε σ β} (hm : Together R m) (hk : ∀ a, Together R (k a)) : Together R (m >>= k) :=
  bind hm hk

theorem assert {c : Prop} [Decidable c] {p : π} {Q : Unit → σ → σ → Prop} (h : c → ∀ s t, R s t → Q () s t) :
    Lockstep R Q E (Prog.assert c p : Prog π ε σ Unit) := by
  intro s t hst
  rw [Prog.run_assert, Prog.run_assert]
  split_ifs with hc
  · exact .ok (h hc s t hst)
  · exact .panic

theorem assert_bind {c : Prop} [Decidable c] {p : π} {k : Unit → Prog π ε σ β} (hk : c → Lockstep R S E (k ())) :
    Lockstep R S E (Prog.assert c p >>= k) := by
  intro s t hst
  by_cases hc : c
  · rw [Prog.bind_of_ok (Prog.run_assert_of s p hc), Prog.bind_of_ok (Prog.run_assert_of t p hc)]
    exact hk hc s t hst
  · rw [Prog.bind_of_panic (Prog.run_assert_of_not s p hc), Prog.bind_of_panic (Prog.run_assert_of_not t p hc)]
    exact .panic

/-- What a program does with the state it reads is the same for both states. -/
theorem get_bind {k : σ → Prog π ε σ β} (heq : ∀ s t, R s t → k t = k s)
    (hk : ∀ s t, R s t → Outcome.Both S E ((k s).run s) ((k s).run t)) : Lockstep R S E (Prog.get >>= k) := by
  intro s t hst
  rw [Prog.run_bind, Prog.run_bind, Prog.run_get, Prog.run_get, Outcome.andThen_ok, Outcome.andThen_ok, heq s t hst]
  exact hk s t hst

theorem ite {c : Prop} [Decidable c] {m m' : Prog π ε σ α} (hm : c → Lockstep R Q E m) (hm' : ¬ c → Lockstep R Q E m') :
    Lockstep R Q E (if c then m else m') := by
  split_ifs with hc
  · exact hm hc
  · exact hm' hc

theorem attempt {m : Prog π ε σ α} {T : Except ε α → σ → σ → Prop} {E' : ε → σ → σ → Prop} (hm : Lockstep R Q E m)
    (hok : ∀ a s t, Q a s t → T (.ok a) s t) (herror : ∀ e s t, E e s t → T (.error e) s t) :
    Lockstep R T E' (Prog.attempt m) := by
  intro s t hst
  have h := hm s t hst
  rw [Prog.attempt]
  dsimp only
  cases hs : m.run s <;> cases ht : m.run t <;> rw [hs, ht] at h <;> cases h
  · exact .ok (hok _ _ _ ‹_›)
  · exact .ok (herror _ _ _ ‹_›)
  · exact .panic

end Lockstep

end Ucore.Lib
