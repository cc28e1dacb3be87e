import Mathlib.Data.List.Nodup
import Mathlib.Logic.Function.Basic
import Mathlib.Tactic.Common

/-! # Circular singly linked lists

    Nodes are linked by one pointer each.

    * `Path`: the pointers lead from one node through a list of nodes to another.
    * `Cycle`: they lead around a list of nodes; it can be read from any of them.
    * **Surgery**: a node put behind another one, and the node behind another one
      taken out. -/

namespace Linked

open Function

variable {ν : Type} {next next' : ν → ν} {a b c : ν} {xs ys l₁ l₂ : List ν}

/-- The pointers lead from `a` through `xs` to `b`. -/
def Path (next : ν → ν) (a : ν) : List ν → ν → Prop
  | [], b => next a = b
  | x :: xs, b => next a = x ∧ Path next x xs b

/-- The pointers lead around the nodes of the list. -/
def Cycle (next : ν → ν) : List ν → Prop
  | [] => False
  | a :: xs => Path next a xs a

/-! ## Paths -/

/-- A path depends on the pointers along it only. -/
theorem Path.congr (h : Path next a xs b) (heq : ∀ x ∈ a :: xs, next' x = next x) :
    Path next' a xs b := by
  induction xs generalizing a with
  | nil => exact (heq a (by simp)).trans h
  | cons x xs ih =>
    obtain ⟨h1, h2⟩ := h
    refine ⟨(heq a (by simp)).trans h1, ih h2 ?_⟩
    intro y hy
    exact heq y (List.mem_cons_of_mem _ hy)

theorem Path.split (h : Path next a (xs ++ c :: ys) b) : Path next a xs c ∧ Path next c ys b := by
  induction xs generalizing a with
  | nil => exact h
  | cons x xs ih =>
    obtain ⟨h1, h2⟩ := ih h.2
    exact ⟨⟨h.1, h1⟩, h2⟩

theorem Path.join (h₁ : Path next a xs c) (h₂ : Path next c ys b) :
    Path next a (xs ++ c :: ys) b := by
  induction xs generalizing a with
  | nil => exact ⟨h₁, h₂⟩
  | cons x xs ih => exact ⟨h₁.1, ih h₁.2⟩

/-! ## Cycles -/

/-- **A cycle can be read from any node.** -/
theorem Cycle.rotate (h : Cycle next (l₁ ++ l₂)) : Cycle next (l₂ ++ l₁) := by
  cases l₁ with
  | nil => simpa using h
  | cons a xs =>
    cases l₂ with
    | nil => simpa using h
    | cons b ys =>
      obtain ⟨h1, h2⟩ := Path.split h
      exact h2.join h1

/-- From a node around to itself. -/
theorem Cycle.path (h : Cycle next (l₁ ++ a :: l₂)) : Path next a (l₂ ++ l₁) a :=
  h.rotate

/-- From a node to the first one. -/
theorem Cycle.path_first (h : Cycle next (c :: xs)) (heq : c :: xs = l₁ ++ a :: l₂) :
    Path next a l₂ c := by
  cases l₁ with
  | nil =>
    obtain ⟨rfl, rfl⟩ := List.cons.inj heq
    exact h
  | cons d l₁ =>
    obtain ⟨rfl, rfl⟩ := List.cons.inj heq
    exact (Path.split h).2

/-! ## Surgery -/

section Surgery

variable [DecidableEq ν]

/-- **A node is put behind another one.** -/
theorem Cycle.insert (h : Cycle next (l₁ ++ a :: l₂)) (hnd : (l₁ ++ a :: l₂).Nodup)
    (hb : b ∉ l₁ ++ a :: l₂) :
    Cycle (update (update next b (next a)) a b) (l₁ ++ a :: b :: l₂) := by
  have hp := h.path
  have hab : b ≠ a := fun he => hb (by simp [he])
  have hnd' : (a :: l₂ ++ l₁).Nodup := List.perm_append_comm.nodup_iff.mp hnd
  have ha : a ∉ l₂ ++ l₁ := (List.nodup_cons.mp hnd').1
  have hb' : b ∉ l₂ ++ l₁ := by
    intro hm
    apply hb
    rcases List.mem_append.mp hm with hm | hm <;> simp [hm]
  suffices hc : Cycle (update (update next b (next a)) a b) (a :: b :: l₂ ++ l₁) from
    hc.rotate
  change Path (update (update next b (next a)) a b) a (b :: (l₂ ++ l₁)) a
  refine ⟨update_self .., ?_⟩
  -- behind the new node the old path goes on
  cases hl : l₂ ++ l₁ with
  | nil =>
    rw [hl] at hp
    change next a = a at hp
    change update (update next b (next a)) a b b = a
    rw [update_of_ne hab, update_self, hp]
  | cons x xs =>
    rw [hl] at hp ha hb'
    refine ⟨?_, hp.2.congr ?_⟩
    · rw [update_of_ne hab, update_self, hp.1]
    · intro y hy
      have hya : y ≠ a := fun he => ha (he ▸ hy)
      have hyb : y ≠ b := fun he => hb' (he ▸ hy)
      rw [update_of_ne hya, update_of_ne hyb]

/-- **The node behind another one is taken out.** -/
theorem Cycle.remove (h : Cycle next (l₁ ++ a :: b :: l₂)) (hnd : (l₁ ++ a :: b :: l₂).Nodup) :
    Cycle (update next a (next b)) (l₁ ++ a :: l₂) := by
  have hp : Path next b (l₂ ++ l₁) a := h.path.2
  have hnd' : (a :: b :: l₂ ++ l₁).Nodup := List.perm_append_comm.nodup_iff.mp hnd
  have ha : a ∉ l₂ ++ l₁ := fun hm => (List.nodup_cons.mp hnd').1 (List.mem_cons_of_mem _ hm)
  suffices hc : Cycle (update next a (next b)) (a :: l₂ ++ l₁) from hc.rotate
  change Path (update next a (next b)) a (l₂ ++ l₁) a
  cases hl : l₂ ++ l₁ with
  | nil =>
    rw [hl] at hp
    exact (update_self ..).trans hp
  | cons x xs =>
    rw [hl] at hp ha
    obtain ⟨h1, h2⟩ := hp
    refine ⟨(update_self ..).trans h1, h2.congr ?_⟩
    intro y hy
    have hya : y ≠ a := fun he => ha (he ▸ hy)
    rw [update_of_ne hya]

end Surgery

end Linked
