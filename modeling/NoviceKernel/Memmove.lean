import Mathlib.Algebra.Group.Int.Defs
import Mathlib.Algebra.Group.Nat.Defs
import Mathlib.Logic.Function.Basic
import Mathlib.Tactic.Common

/-! # `memmove` (`string.c`, `ulib.c`)

    Memory is bytes at 64-bit addresses.  Both functions copy byte by byte, upwards
    or downwards.

    * `forward_eq`, `backward_eq`: a copy in one direction takes a snapshot as long
      as no byte is written before it is read.
    * `memmove_snapshot`: the tests of the kernel and of the user library choose a
      direction in which that holds. -/

namespace NoviceKernel.Memmove

open Function

/-- `while (n-- > 0) *d++ = *s++`. -/
def forward : Nat → Nat → Nat → (Nat → UInt8) → Nat → UInt8
  | 0, _, _, m => m
  | n + 1, d, s, m => forward n ((d + 1) % 2 ^ 64) ((s + 1) % 2 ^ 64) (update m d (m s))

/-- `p - 1`. -/
def pred (p : Nat) : Nat := (p + (2 ^ 64 - 1)) % 2 ^ 64

/-- `while (n-- > 0) *--d = *--s`. -/
def backward : Nat → Nat → Nat → (Nat → UInt8) → Nat → UInt8
  | 0, _, _, m => m
  | n + 1, d, s, m => backward n (pred d) (pred s) (update m (pred d) (m (pred s)))

/-- `memmove(dst, src, n)` of the kernel; `n` is a `uint`. -/
def memmove (dst src n : Nat) (m : Nat → UInt8) : Nat → UInt8 :=
  if n = 0 then m
  else if src < dst ∧ dst < (src + n) % 2 ^ 64 then
    backward n ((dst + n) % 2 ^ 64) ((src + n) % 2 ^ 64) m
  else forward n dst src m

/-- `memmove(vdst, vsrc, n)` of the user library; `n` is an `int`. -/
def umemmove (dst src : Nat) (n : Int) (m : Nat → UInt8) : Nat → UInt8 :=
  if dst < src then forward n.toNat dst src m
  else backward n.toNat ((dst + n) % 2 ^ 64).toNat ((src + n) % 2 ^ 64).toNat m

/-- The `n` bytes from `dst` on are those that were at `src`; the others stay. -/
def moved (dst src n : Nat) (m : Nat → UInt8) (a : Nat) : UInt8 :=
  if dst ≤ a ∧ a < dst + n then m (src + (a - dst)) else m a

variable {dst src n : Nat} {m : Nat → UInt8}

theorem moved_zero : moved dst src 0 m = m := by
  funext a
  exact if_neg (by omega)

/-- Upwards, no byte is written before it is read. -/
theorem forward_eq (hd : dst + n < 2 ^ 64) (hs : src + n < 2 ^ 64)
    (hdir : dst ≤ src ∨ src + n ≤ dst) : forward n dst src m = moved dst src n m := by
  induction n generalizing dst src m with
  | zero => exact moved_zero.symm
  | succ n ih =>
    rw [forward, Nat.mod_eq_of_lt (by omega), Nat.mod_eq_of_lt (by omega),
      ih (by omega) (by omega) (by omega)]
    funext a
    unfold moved
    by_cases ha : a = dst
    · -- the byte just written
      subst ha
      rw [if_neg (by omega), if_pos (by omega), update_self, Nat.sub_self, Nat.add_zero]
    · by_cases hin : dst + 1 ≤ a ∧ a < dst + 1 + n
      · rw [if_pos hin, if_pos (by omega), update_of_ne (by omega)]
        congr 1
        omega
      · rw [if_neg hin, if_neg (by omega), update_of_ne ha]

/-- The same downwards. -/
theorem backward_eq (hd : dst + n < 2 ^ 64) (hs : src + n < 2 ^ 64)
    (hdir : src ≤ dst ∨ dst + n ≤ src) : backward n (dst + n) (src + n) m = moved dst src n m := by
  induction n generalizing m with
  | zero => exact moved_zero.symm
  | succ n ih =>
    have hpred : ∀ p, p + (n + 1) < 2 ^ 64 → pred (p + (n + 1)) = p + n := by
      intro p hp
      unfold pred
      omega
    rw [backward, hpred dst hd, hpred src hs, ih (by omega) (by omega) (by omega)]
    funext a
    unfold moved
    by_cases ha : a = dst + n
    · subst ha
      rw [if_neg (by omega), if_pos (by omega), update_self, Nat.add_sub_cancel_left]
    · by_cases hin : dst ≤ a ∧ a < dst + n
      · rw [if_pos hin, if_pos (by omega), update_of_ne (by omega)]
      · rw [if_neg hin, if_neg (by omega), update_of_ne ha]

theorem umemmove_eq {k : Int} (hd : dst + k.toNat < 2 ^ 64) (hs : src + k.toNat < 2 ^ 64) :
    umemmove dst src k m = moved dst src k.toNat m := by
  unfold umemmove
  split
  · next hlt => exact forward_eq hd hs (.inl (Nat.le_of_lt hlt))
  · next hle =>
    rcases Int.le_total 0 k with hk | hk
    · have hsum : ∀ p : Nat, p + k.toNat < 2 ^ 64 →
          (((p : Int) + k) % 2 ^ 64).toNat = p + k.toNat := by
        intro p hp
        omega
      rw [hsum dst hd, hsum src hs]
      exact backward_eq hd hs (.inl (by omega))
    · rw [Int.toNat_of_nonpos hk]
      exact moved_zero.symm

/-- **`memmove` copies a snapshot**: whatever the ranges have in common, the
    destination gets the bytes that were at the source and nothing else changes,
    in the kernel and in the user library. -/
theorem memmove_snapshot (m : Nat → UInt8) (dst src : Nat) :
    (∀ n, dst + n < 2 ^ 64 → src + n < 2 ^ 64 → memmove dst src n m = moved dst src n m) ∧
    ∀ k : Int, dst + k.toNat < 2 ^ 64 → src + k.toNat < 2 ^ 64 →
      umemmove dst src k m = moved dst src k.toNat m := by
  refine ⟨fun n hd hs => ?_, fun k hd hs => umemmove_eq hd hs⟩
  unfold memmove
  rw [Nat.mod_eq_of_lt hd, Nat.mod_eq_of_lt hs]
  split
  · next h0 => rw [h0, moved_zero]
  · split
    · next hover => exact backward_eq hd hs (.inl (Nat.le_of_lt hover.1))
    · exact forward_eq hd hs (by omega)

/-- Three bytes, one up and one down. -/
theorem memmove_snapshot_overlap :
    memmove 1 0 3 (fun a => a.toUInt8) = moved 1 0 3 (fun a => a.toUInt8) ∧
      umemmove 0 1 3 (fun a => a.toUInt8) = moved 0 1 3 (fun a => a.toUInt8) :=
  ⟨(memmove_snapshot _ 1 0).1 3 (by decide) (by decide), (memmove_snapshot _ 0 1).2 3 (by decide)
    (by decide)⟩

end NoviceKernel.Memmove
