import Mathlib.Data.Fintype.Basic
import Mathlib.Logic.Function.Basic
import Mathlib.Tactic.Common

/-! # Locks and program points

    In a model where each process is at a program point, a lock is held by the
    process whose program point lies inside a critical section.  `Guards` says
    so; the rules below cover the ways one process can move. -/

namespace LockPhase

open Function

variable {ι α : Type} {holds : α → Bool} {lock : Option ι} {pc : ι → α} {p q : ι} {c : α}

/-- The lock is held exactly by the process inside a critical section. -/
def Guards (holds : α → Bool) (lock : Option ι) (pc : ι → α) : Prop :=
  ∀ p, lock = some p ↔ holds (pc p) = true

theorem Guards.unique (h : Guards holds lock pc) (hp : holds (pc p) = true)
    (hq : holds (pc q) = true) : p = q :=
  Option.some.inj (((h p).mpr hp).symm.trans ((h q).mpr hq))

theorem Guards.free (h : Guards holds lock pc) (hl : lock = none) (p : ι) :
    holds (pc p) = false := by
  cases hp : holds (pc p) with
  | false => rfl
  | true => rw [hl] at h; cases (h p).mpr hp

variable [DecidableEq ι]

variable (h : Guards holds lock pc)
include h

/-- A move inside a section, or outside of all. -/
theorem Guards.keep (hc : holds c = holds (pc p)) : Guards holds lock (update pc p c) := by
  intro r
  by_cases hr : r = p
  · subst hr; rw [Function.update_self, hc]; exact h r
  · rw [Function.update_of_ne hr]; exact h r

/-- Entering a section while the lock is free. -/
theorem Guards.acquire (hl : lock = none) (hc : holds c = true) :
    Guards holds (some p) (update pc p c) := by
  intro r
  by_cases hr : r = p
  · subst hr; simpa using hc
  · rw [Function.update_of_ne hr, h.free hl r]
    simpa using fun e : p = r => hr e.symm

/-- Leaving a section. -/
theorem Guards.release (hp : holds (pc p) = true)
    (hc : holds c = false) : Guards holds none (update pc p c) := by
  intro r
  by_cases hr : r = p
  · subst hr; simpa using hc
  · rw [Function.update_of_ne hr]
    simpa using fun hh : holds (pc r) = true => hr (h.unique hh hp)

end LockPhase
