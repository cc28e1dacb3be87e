import Mathlib.Tactic.Common

/-! # Weakest preconditions for computations that can stop

    A computation `x : EStateM ε σ α` runs on a state and either returns or
    stops with an error; in both cases the state it reached is kept.  The
    precondition below speaks about both outcomes: a postcondition for the
    runs that return and one for the runs that stop.

    * `wp x Q E s`: from `s`, `x` returns into `Q` or stops in `E`.
    * **Structural rules**: sequencing, the state operations, consequence.
    * **Reading a run**: what `wp` says about a run that is known to return.
-/

namespace Hoare

variable {ε σ α β : Type}

/-- From `s`, the run of `x` returns some `a` in a state with `Q a`, or stops
    with some `e` in a state with `E e`. -/
def wp (x : EStateM ε σ α) (Q : α → σ → Prop) (E : ε → σ → Prop) (s : σ) : Prop :=
  match x s with
  | .ok a s' => Q a s'
  | .error e s' => E e s'

variable {x : EStateM ε σ α} {f : α → EStateM ε σ β} {Q Q' : α → σ → Prop}
  {E E' : ε → σ → Prop} {s s' : σ} {R : PUnit → σ → Prop} {a : α}

/-! ## Structural rules -/

/-- **Sequencing**: the precondition of the second part is the postcondition
    of the first. -/
theorem wp_bind {R : β → σ → Prop} :
    wp (x >>= f) R E s ↔ wp x (fun a s' => wp (f a) R E s') E s := by
  unfold wp
  cases hx : x s with
  | ok a s' => simp only [bind, EStateM.bind, hx]
  | error e s' => simp only [bind, EStateM.bind, hx]

@[simp] theorem wp_pure : wp (pure a) Q E s ↔ Q a s := Iff.rfl

@[simp] theorem wp_get {R : σ → σ → Prop} : wp get R E s ↔ R s s := Iff.rfl

@[simp] theorem wp_set {t : σ} : wp (set t) R E s ↔ R ⟨⟩ t := Iff.rfl

@[simp] theorem wp_modify {g : σ → σ} : wp (modify g) R E s ↔ R ⟨⟩ (g s) := Iff.rfl

/-- **Consequence**. -/
theorem wp.mono (h : wp x Q E s) (hQ : ∀ a s', Q a s' → Q' a s')
    (hE : ∀ e s', E e s' → E' e s') : wp x Q' E' s := by
  unfold wp at h ⊢
  cases hx : x s with
  | ok a s' => rw [hx] at h; exact hQ a s' h
  | error e s' => rw [hx] at h; exact hE e s' h

/-- Consequence for the runs that return. -/
theorem wp.post (h : wp x Q E s) (hQ : ∀ a s', Q a s' → Q' a s') : wp x Q' E s :=
  h.mono hQ fun _ _ he => he

/-- Sequencing after a part whose postcondition is known. -/
theorem wp.seq {R : β → σ → Prop} (h : wp x Q E s) (hf : ∀ a s', Q a s' → wp (f a) R E s') :
    wp (x >>= f) R E s :=
  wp_bind.mpr (h.post hf)

/-- **Conjunction**: two facts about the same run. -/
theorem wp.and (h : wp x Q E s) (h' : wp x Q' E' s) :
    wp x (fun a s' => Q a s' ∧ Q' a s') (fun e s' => E e s' ∧ E' e s') s := by
  unfold wp at h h' ⊢
  cases hx : x s with
  | ok a s' => rw [hx] at h h'; exact ⟨h, h'⟩
  | error e s' => rw [hx] at h h'; exact ⟨h, h'⟩

/-! ## Reading a run -/

/-- The postcondition holds at the end of a run that returns. -/
theorem wp.of_ok (h : wp x Q E s) (hx : x s = .ok a s') : Q a s' := by
  unfold wp at h
  rwa [hx] at h

/-- The stop condition holds at the end of a run that stops. -/
theorem wp.of_error {e : ε} (h : wp x Q E s) (hx : x s = .error e s') : E e s' := by
  unfold wp at h
  rwa [hx] at h

/-- A run that cannot stop returns. -/
theorem wp.returns (h : wp x Q (fun _ _ => False) s) : ∃ a s', x s = .ok a s' ∧ Q a s' := by
  unfold wp at h
  cases hx : x s with
  | ok a s' => rw [hx] at h; exact ⟨a, s', rfl, h⟩
  | error e s' => rw [hx] at h; exact h.elim

end Hoare
