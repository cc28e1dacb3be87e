import Mathlib.Data.Fintype.Basic
import Mathlib.Logic.Function.Basic
import Mathlib.Tactic.Common

/-! # Sleeping on a channel

    Processes at program points sleep on channels and are woken by a scan of
    the process table.

    * `Points`: which program points belong to a sleep, and where a process
      goes when it is woken.
    * `round`: one round of the scan.  It waits for a process that still holds
      its own lock on the way to sleep, and never looks at its caller.
    * `Waits`: who sleeps has a reason to, or some process has yet to reach it
      with its scan.  **No wakeup is lost** is this invariant; the rules below
      cover the moves of one process and the rounds of a scan. -/

namespace Wakeup

open Function

variable {N : Nat} {α χ : Type}

/-- The program points of a sleep. -/
structure Points (α χ : Type) where
  /-- The channel of a process that sleeps, or holds its own lock to do so. -/
  chan : α → Option χ
  /-- The process is asleep: it holds no lock. -/
  asleep : α → Bool
  /-- Where a sleeper goes on. -/
  wake : α → α
  wake_chan : ∀ x, chan (wake x) = none

variable (m : Points α χ)

/-- One round of the scan for channel `c`, at process `q`; `self` is the
    process that scans. -/
def round [DecidableEq χ] (c : χ) (self : Option (Fin N)) (q : Fin N) (pc : Fin N → α) :
    Option (Fin N → α) :=
  if self = some q then some pc
  else match m.chan (pc q) with
    | none => some pc
    | some c' =>
      -- its own lock is held until it is asleep
      if m.asleep (pc q) = false then none
      else if c' = c then some (update pc q (m.wake (pc q)))
      else some pc

variable {m}

/-- What a round does: the process it looks at does not sleep on the channel
    afterwards, and nobody else has moved. -/
theorem round_cases [DecidableEq χ] {c : χ} {self : Option (Fin N)} {q : Fin N} {pc pc' : Fin N → α}
    (h : round m c self q pc = some pc') :
    (pc' = pc ∧ (self ≠ some q → m.chan (pc q) ≠ some c)) ∨
    (self ≠ some q ∧ m.chan (pc q) = some c ∧ m.asleep (pc q) = true ∧
      pc' = update pc q (m.wake (pc q))) := by
  unfold round at h
  split at h
  · next hself =>
    exact .inl ⟨(Option.some.inj h).symm, fun hne => absurd hself hne⟩
  · next hself =>
    split at h
    · next hchan => exact .inl ⟨(Option.some.inj h).symm, fun _ => by rw [hchan]; simp⟩
    · next c' hchan =>
      split at h
      · cases h
      · next hasleep =>
        split at h
        · next hc =>
          subst hc
          exact .inr ⟨hself, hchan, by simpa using hasleep, (Option.some.inj h).symm⟩
        · next hc =>
          refine .inl ⟨(Option.some.inj h).symm, fun _ => ?_⟩
          rw [hchan]
          simpa using hc

/-! ## Nobody is forgotten -/

/-- Who sleeps has a reason to, or is owed a wakeup. -/
def Waits (m : Points α χ) (owes : α → χ → Fin N → Prop) (reason : χ → Prop) (pc : Fin N → α) :
    Prop :=
  ∀ q c, m.chan (pc q) = some c → reason c ∨ ∃ p, owes (pc p) c q

variable {owes : α → χ → Fin N → Prop} {reason reason' : χ → Prop} {pc pc' : Fin N → α}
  {p q : Fin N} {c : χ} {x : α}

variable (h : Waits m owes reason pc)
include h

/-- **Move**: process `p` goes to `x`, and the reasons to sleep change with it.
    Each sleeper keeps a reason, or is owed a wakeup at the new point. -/
theorem Waits.move (hself : ∀ c, m.chan x = some c → reason' c)
    (hkeep : ∀ c q, q ≠ p → m.chan (pc q) = some c → reason c ∨ owes (pc p) c q →
      reason' c ∨ owes x c q) : Waits m owes reason' (update pc p x) := by
  intro q c hq
  by_cases hqp : q = p
  · subst hqp
    rw [update_self] at hq
    exact .inl (hself c hq)
  · rw [update_of_ne hqp] at hq
    have hnew : reason c ∨ owes (pc p) c q → reason' c ∨ ∃ r, owes (update pc p x r) c q := by
      intro hold
      rcases hkeep c q hqp hq hold with hr | ho
      · exact .inl hr
      · exact .inr ⟨p, by rwa [update_self]⟩
    rcases h q c hq with hr | ⟨r, ho⟩
    · exact hnew (.inl hr)
    · by_cases hrp : r = p
      · exact hnew (.inr (hrp ▸ ho))
      · exact .inr ⟨r, by rwa [update_of_ne hrp]⟩

/-- A step of `p` on its way to sleep, or anywhere else with no sleeper to
    answer for. -/
theorem Waits.stay (hchan : m.chan x = m.chan (pc p))
    (howes : ∀ c q, ¬ owes (pc p) c q) : Waits m owes reason (update pc p x) := by
  have hother : ∀ r c q, owes (pc r) c q → owes (update pc p x r) c q := by
    intro r c q ho
    by_cases hrp : r = p
    · exact absurd (hrp ▸ ho) (howes c q)
    · rwa [update_of_ne hrp]
  intro q c hq
  have hold : m.chan (pc q) = some c := by
    by_cases hqp : q = p
    · subst hqp
      rwa [update_self, hchan] at hq
    · rwa [update_of_ne hqp] at hq
  rcases h q c hold with hr | ⟨r, ho⟩
  · exact .inl hr
  · exact .inr ⟨r, hother r c q ho⟩

/-- A sleeper is made runnable. -/
theorem Waits.wake (howes : ∀ c r, ¬ owes (pc q) c r) :
    Waits m owes reason (update pc q (m.wake (pc q))) := by
  apply h.move
  · intro c hc
    rw [m.wake_chan] at hc
    cases hc
  · intro c r _ _ hold
    rcases hold with hr | ho
    · exact .inl hr
    · exact absurd ho (howes c r)

/-- **Scan**: a round of the scan at process `q`, after which the caller `p`
    goes on to the next process. -/
theorem Waits.scan [DecidableEq χ] (hround : round m c (some p) q pc = some pc')
    (hasleep : ∀ y c r, m.chan y ≠ none → ¬ owes y c r)
    (hp : ∀ c' r, owes (pc p) c' r → c' = c ∧ q ≤ r) (hx : ∀ r, q < r → owes x c r)
    (hchan : m.chan x = none) : Waits m owes reason (update pc' p x) := by
  -- moving on is safe once nobody but `p` can sleep on `c` at `q`
  have hnext : ∀ pc1 : Fin N → α, Waits m owes reason pc1 → pc1 p = pc p →
      (p ≠ q → m.chan (pc1 q) ≠ some c) → Waits m owes reason (update pc1 p x) := by
    intro pc1 h1 hpc hq
    apply h1.move
    · intro c' hc'
      rw [hchan] at hc'
      cases hc'
    · intro c' r hrp hr hold
      rcases hold with hreason | ho
      · exact .inl hreason
      · rw [hpc] at ho
        obtain ⟨rfl, hle⟩ := hp c' r ho
        have hne : q ≠ r := by
          intro he
          subst he
          exact hq (Ne.symm hrp) hr
        exact .inr (hx r (lt_of_le_of_ne hle hne))
  rcases round_cases hround with ⟨rfl, hq⟩ | ⟨hne, hq, -, rfl⟩
  · exact hnext _ h rfl fun hpq => hq (by simpa using hpq)
  · have hpq : p ≠ q := by simpa using hne
    apply hnext
    · apply h.wake
      intro c' r
      exact hasleep _ c' r (by rw [hq]; simp)
    · rw [update_of_ne hpq]
    · intro _
      rw [update_self, m.wake_chan]
      simp

end Wakeup
