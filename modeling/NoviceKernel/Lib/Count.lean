import Mathlib.Algebra.BigOperators.Group.Finset.Piecewise
import Mathlib.Algebra.Order.BigOperators.Group.Finset
import Mathlib.Data.Fintype.Basic
import Mathlib.Data.Finset.Card
import Mathlib.Logic.Function.Basic

/-! # Counting slots of a table

    `count f P` is the number of slots of a finite table `f` whose contents
    satisfy `P`, and `total g f` is the sum of what `g` says about the slots.
    Changing one slot changes the count, or the sum, by what happened in that
    slot. -/

namespace Count

open Function Finset

section Update

variable {ι α β : Type} [DecidableEq ι] {f : ι → α} {i j : ι} {a b : α} {k : ι}
  {motive : ι → α → Prop}

/-- What one slot does not change. -/
theorem update_proj {g : α → β} (h : g a = g (f i)) (j : ι) : g (update f i a j) = g (f j) := by
  by_cases hj : j = i
  · rw [hj, update_self, h]
  · rw [update_of_ne hj]

/-- What holds of the new contents of a slot, and of the others as they were. -/
@[elab_as_elim] theorem update_one (k : ι) (self : motive i a)
    (other : ∀ k, k ≠ i → motive k (f k)) : motive k (update f i a k) := by
  by_cases hi : k = i
  · rw [hi, update_self]
    exact self
  · rw [update_of_ne hi]
    exact other k hi

/-- The same for two tables. -/
@[elab_as_elim] theorem update_both {motive : ι → α → β → Prop} {g : ι → β} {c : β} (k : ι)
    (self : motive i a c) (other : ∀ k, k ≠ i → motive k (f k) (g k)) :
    motive k (update f i a k) (update g i c k) := by
  refine update_one (motive := fun k x => motive k x (update g i c k)) k ?_ fun k hk => ?_
  · rw [update_self]
    exact self
  · rw [update_of_ne hk]
    exact other k hk

/-- The same for two slots. -/
@[elab_as_elim] theorem update_two (k : ι) (fst : motive i a) (snd : motive j b)
    (other : ∀ k, k ≠ i → k ≠ j → motive k (f k)) : motive k (update (update f i a) j b k) := by
  refine update_one k snd fun k hj => ?_
  revert hj
  exact update_one k (fun _ => fst) other

/-- What holds of an updated slot. -/
theorem update_cases (P : α → Prop) (h : P (update f i a k)) : k = i ∧ P a ∨ k ≠ i ∧ P (f k) := by
  by_cases hk : k = i
  · rw [hk, update_self] at h
    exact .inl ⟨hk, h⟩
  · rw [update_of_ne hk] at h
    exact .inr ⟨hk, h⟩

/-- What does not hold of the new contents holds of another slot. -/
theorem update_other (P : α → Prop) (h : P (update f i a k)) (ha : ¬ P a) : k ≠ i ∧ P (f k) :=
  (update_cases P h).resolve_left fun hc => ha hc.2

end Update

variable {ι α : Type} [Fintype ι] {f : ι → α} {P : α → Prop} [DecidablePred P] {i : ι} {a : α}
  {β : Type}

/-- The number of slots whose contents satisfy `P`. -/
def count (f : ι → α) (P : α → Prop) [DecidablePred P] : Nat :=
  (Finset.univ.filter fun i => P (f i)).card

theorem count_eq_zero : count f P = 0 ↔ ∀ i, ¬ P (f i) := by
  simp [count, filter_eq_empty_iff]

theorem count_pos : 0 < count f P ↔ ∃ i, P (f i) := by
  simp [count, card_pos, filter_nonempty_iff]

theorem count_congr {g : ι → β} {Q : β → Prop} [DecidablePred Q] (h : ∀ i, P (f i) ↔ Q (g i)) :
    count f P = count g Q := by
  unfold count
  congr 1
  exact filter_congr fun i _ => h i

/-! ## Sums -/

/-- The sum of `g` over all slots. -/
def total (g : α → Nat) (f : ι → α) : Nat := ∑ i, g (f i)

variable {g : α → Nat} {j : ι}

theorem total_eq_zero (h : ∀ i, g (f i) = 0) : total g f = 0 := sum_eq_zero fun i _ => h i

theorem total_congr {g' : β → Nat} {f' : ι → β} (h : ∀ i, g (f i) = g' (f' i)) :
    total g f = total g' f' :=
  sum_congr rfl fun i _ => h i

/-- A count is a sum. -/
theorem count_eq_total : count f P = total (fun a => if P a then 1 else 0) f := card_filter _ _

theorem le_total (i : ι) : g (f i) ≤ total g f :=
  single_le_sum (f := fun i => g (f i)) (fun _ _ => Nat.zero_le _) (mem_univ i)

variable [DecidableEq ι]

theorem total_update : total g (update f i a) + g (f i) = total g f + g a := by
  unfold total
  have hrest : ∑ j ∈ univ.erase i, g (update f i a j) = ∑ j ∈ univ.erase i, g (f j) :=
    sum_congr rfl fun j hj => by rw [Function.update_of_ne (ne_of_mem_erase hj)]
  rw [← add_sum_erase _ _ (mem_univ i), hrest, Function.update_self,
    ← add_sum_erase _ (fun j => g (f j)) (mem_univ i)]
  omega

theorem count_update :
    count (update f i a) P + (if P (f i) then 1 else 0) = count f P + if P a then 1 else 0 := by
  rw [count_eq_total, count_eq_total]
  exact total_update

theorem count_update_iff (h : P a ↔ P (f i)) : count (update f i a) P = count f P := by
  have := count_update (f := f) (i := i) (a := a) (P := P)
  rw [if_congr h rfl rfl] at this
  omega

/-- A slot that starts to satisfy `P`. -/
theorem count_update_true (h : ¬ P (f i)) (ha : P a) : count (update f i a) P = count f P + 1 := by
  have := count_update (f := f) (i := i) (a := a) (P := P)
  rwa [if_neg h, if_pos ha] at this

theorem count_update_not (ha : ¬ P a) :
    count (update f i a) P + (if P (f i) then 1 else 0) = count f P := by
  rw [count_update, if_neg ha, add_zero]

/-- A slot that stops satisfying `P`. -/
theorem count_update_false (h : P (f i)) (ha : ¬ P a) : count (update f i a) P + 1 = count f P := by
  have := count_update_not (f := f) (i := i) ha
  rwa [if_pos h] at this

/-- Two slots change, and what they have together does not. -/
theorem total_update_two {b : α} (hij : i ≠ j) (h : g a + g b = g (f i) + g (f j)) :
    total g (update (update f i a) j b) = total g f := by
  have h1 := total_update (g := g) (f := f) (i := i) (a := a)
  have h2 := total_update (g := g) (f := update f i a) (i := j) (a := b)
  rw [update_of_ne hij.symm] at h2
  omega

/-- What `g` says about two slots. -/
theorem add_le_total (h : i ≠ j) : g (f i) + g (f j) ≤ total g f := by
  unfold total
  rw [← add_sum_erase _ _ (mem_univ i)]
  exact Nat.add_le_add_left (single_le_sum (f := fun i => g (f i)) (fun _ _ => Nat.zero_le _)
    (mem_erase.mpr ⟨h.symm, mem_univ j⟩)) _

end Count
