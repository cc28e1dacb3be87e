import Mathlib.Data.List.Basic
import Mathlib.Data.Nat.ModEq
import Mathlib.Logic.Function.Basic
import Mathlib.Tactic.Common

/-! # Ring buffers with free-running counters

    A ring has `C` cells and two counters modulo `M`, a multiple of `C`: the
    next cell to read is `r % C`, the next to write `w % C`.  The counters are
    never reduced to cells, so that `r = w` is the empty ring and
    `w = r + C` the full one, across the wrap of the counters.

    `Holds` says which queue a ring stands for; the rules are for the tests,
    for a put and for a take. -/

namespace Ring

open List Nat

variable {α : Type} {C M : Nat} {data : Nat → α} {r w : Nat} {q : List α} {x : α}

/-- The ring stands for the queue `q`, next element first. -/
structure Holds (C M : Nat) (data : Nat → α) (r w : Nat) (q : List α) : Prop where
  read_lt : r < M
  write_eq : w = (r + q.length) % M
  fits : q.length ≤ C
  cell : ∀ j, j < q.length → q[j]? = some (data ((r + j) % M % C))

theorem Holds.empty (hr : r < M) : Holds C M data r r [] where
  read_lt := hr
  write_eq := (mod_eq_of_lt hr).symm
  fits := zero_le _
  cell := fun j hj => absurd hj (not_lt_zero j)

section

variable (h : Holds C M data r w q) (hCM : C < M)
include h hCM

/-- The number of elements is the wrapped difference of the counters. -/
theorem Holds.length_eq : q.length = (w + M - r) % M := by
  have h1 := h.read_lt
  have h2 := h.fits
  rw [h.write_eq]
  rcases lt_or_ge (r + q.length) M with hlt | hge
  · rw [mod_eq_of_lt hlt, show r + q.length + M - r = q.length + M by omega, add_mod_right,
      mod_eq_of_lt (by omega)]
  · have hw : (r + q.length) % M = r + q.length - M := by
      rw [mod_eq_sub_mod hge, mod_eq_of_lt (by omega)]
    rw [hw, show r + q.length - M + M - r = q.length by omega, mod_eq_of_lt (by omega)]

theorem Holds.empty_iff : r = w ↔ q = [] := by
  rw [← length_eq_zero_iff, h.length_eq hCM]
  have h1 := h.read_lt
  have h2 : w < M := by rw [h.write_eq]; exact Nat.mod_lt _ (by omega)
  constructor
  · rintro rfl
    rw [Nat.add_sub_cancel_left, Nat.mod_self]
  · intro h0
    rcases Nat.lt_or_ge (w + M - r) M with hlt | hge
    · rw [Nat.mod_eq_of_lt hlt] at h0
      omega
    · rw [Nat.mod_eq_sub_mod hge, Nat.mod_eq_of_lt (by omega)] at h0
      omega

theorem Holds.full_iff : w = (r + C) % M ↔ q.length = C := by
  have h2 := h.fits
  constructor
  · intro hw
    have hmod : (r + q.length) % M = (r + C) % M := h.write_eq.symm.trans hw
    have hlen : q.length % M = C % M := Nat.ModEq.add_left_cancel' r hmod
    rwa [mod_eq_of_lt (by omega), mod_eq_of_lt hCM] at hlen
  · intro hlen
    rw [h.write_eq, hlen]

end

/-- Cells at different places of the queue are different. -/
theorem cell_ne (hdvd : C ∣ M) {i j : Nat} (hij : i < j) (hj : j < i + C) :
    (r + i) % M % C ≠ (r + j) % M % C := by
  rw [mod_mod_of_dvd _ hdvd, mod_mod_of_dvd _ hdvd]
  intro he
  have := (modEq_iff_dvd' (by omega)).mp he
  rw [show r + j - (r + i) = j - i by omega] at this
  have := le_of_dvd (by omega) this
  omega

/-- Of a ring that is not full, the next cell to write is not in the queue. -/
theorem Holds.write (h : Holds C M data r w q) (hdvd : C ∣ M) (hlt : q.length < C) (x : α) :
    Holds C M (Function.update data (w % C) x) r w q where
  read_lt := h.read_lt
  write_eq := h.write_eq
  fits := h.fits
  cell := by
    intro j hj
    rw [h.cell j hj, Function.update_of_ne]
    rw [h.write_eq]
    exact cell_ne hdvd hj (by omega)

/-- The next cell to write joins the queue. -/
theorem Holds.advance (h : Holds C M data r w q) (hlt : q.length < C) (hx : data (w % C) = x) :
    Holds C M data r ((w + 1) % M) (q ++ [x]) where
  read_lt := h.read_lt
  write_eq := by
    rw [h.write_eq, Nat.mod_add_mod, length_append, length_singleton, Nat.add_assoc]
  fits := by
    rw [length_append, length_singleton]
    omega
  cell := by
    intro j hj
    rw [length_append, length_singleton] at hj
    rcases Nat.lt_or_eq_of_le (Nat.lt_succ_iff.mp hj) with hj | rfl
    · rw [getElem?_append_left hj, h.cell j hj]
    · rw [← h.write_eq, hx, getElem?_append_right le_rfl, Nat.sub_self]
      rfl

/-- A put into a ring that is not full. -/
theorem Holds.put (h : Holds C M data r w q) (hdvd : C ∣ M) (hlt : q.length < C) (x : α) :
    Holds C M (Function.update data (w % C) x) r ((w + 1) % M) (q ++ [x]) :=
  (h.write hdvd hlt x).advance hlt (Function.update_self (w % C) x data)

/-- The last element is given up. -/
theorem Holds.retract (h : Holds C M data r w (q ++ [x])) (hCM : C < M) :
    data ((w + M - 1) % M % C) = x ∧ Holds C M data r ((w + M - 1) % M) q := by
  have hlen : (q ++ [x]).length = q.length + 1 := length_append
  have hfits := h.fits
  rw [hlen] at hfits
  have hw : (w + M - 1) % M = (r + q.length) % M := by
    rw [h.write_eq, hlen, ← Nat.add_assoc, Nat.add_sub_assoc (by omega), Nat.mod_add_mod]
    rw [show r + q.length + 1 + (M - 1) = r + q.length + M by omega, Nat.add_mod_right]
  have hlast := h.cell q.length (by omega)
  rw [getElem?_append_right le_rfl, Nat.sub_self] at hlast
  refine ⟨?_, h.read_lt, hw, by omega, ?_⟩
  · rw [hw]
    exact (Option.some.inj hlast).symm
  · intro j hj
    rw [← h.cell j (by omega), getElem?_append_left hj]

/-- A take from a ring that is not empty. -/
theorem Holds.take (h : Holds C M data r w (x :: q)) (hM : 1 ≤ M) :
    data (r % C) = x ∧ Holds C M data ((r + 1) % M) w q := by
  have h0 := h.cell 0 (zero_lt_succ _)
  rw [add_zero, mod_eq_of_lt h.read_lt] at h0
  refine ⟨(Option.some.inj h0).symm, mod_lt _ hM, ?_, ?_, ?_⟩
  · rw [h.write_eq, mod_add_mod, length_cons]
    congr 1
    omega
  · have := h.fits
    rw [length_cons] at this
    omega
  · intro j hj
    have := h.cell (j + 1) (by rw [length_cons]; omega)
    rw [getElem?_cons_succ] at this
    rw [this, mod_add_mod, add_assoc, add_comm 1 j]

end Ring
