import Mathlib.Tactic.Common
import Mathlib.Tactic.Ring

/-! # Little-endian fields in byte memories

    A memory is a function from addresses to bytes.  `load` reads `n` bytes as
    a little-endian number and `store` writes one.  The two lemmas a client
    needs are that a store is read back (`load_store_same`) and that it does
    not disturb a field that does not overlap it (`load_store_disjoint`).
    A character of C is its byte (`ch`). -/

namespace Bytes

/-- A character as a byte. -/
def ch (c : Char) : UInt8 := c.toNat.toUInt8

/-- The little-endian number in the `n` bytes from address `a` on. -/
def load (m : Nat → UInt8) (a : Nat) : Nat → Nat
  | 0 => 0
  | n + 1 => (m a).toNat + 256 * load m (a + 1) n

/-- Write the low `n` bytes of `v` at address `a`, least significant first. -/
def store (m : Nat → UInt8) (a n v : Nat) : Nat → UInt8 :=
  fun x => if a ≤ x ∧ x < a + n then UInt8.ofNat (v / 256 ^ (x - a)) else m x

/-- Fill `n` bytes from address `a` on with `b`. -/
def fill (m : Nat → UInt8) (a n : Nat) (b : UInt8) : Nat → UInt8 :=
  fun x => if a ≤ x ∧ x < a + n then b else m x

/-- Copy the `n` bytes `src 0 .. src (n-1)` to address `a` on. -/
def copy (m : Nat → UInt8) (a n : Nat) (src : Nat → UInt8) : Nat → UInt8 :=
  fun x => if a ≤ x ∧ x < a + n then src (x - a) else m x

variable {m m' : Nat → UInt8} {a b n k v : Nat} {src : Nat → UInt8} {x : Nat}

theorem fill_in {c : UInt8} (h1 : a ≤ x) (h2 : x < a + n) : fill m a n c x = c := if_pos ⟨h1, h2⟩

theorem copy_in (h1 : a ≤ x) (h2 : x < a + n) : copy m a n src x = src (x - a) := if_pos ⟨h1, h2⟩

theorem copy_out (h : x < a ∨ a + n ≤ x) : copy m a n src x = m x :=
  if_neg (by omega)

/-- A field depends only on its own bytes. -/
theorem load_congr (h : ∀ x, a ≤ x → x < a + n → m x = m' x) : load m a n = load m' a n := by
  induction n generalizing a with
  | zero => rfl
  | succ n ih =>
    simp only [load]
    rw [h a le_rfl (by omega), ih (fun x h1 h2 => h x (by omega) (by omega))]

theorem load_lt (m : Nat → UInt8) (a n : Nat) : load m a n < 256 ^ n := by
  induction n generalizing a with
  | zero => simp [load]
  | succ n ih =>
    have hb : (m a).toNat < 256 := (m a).toNat_lt
    have hi := ih (a + 1)
    simp only [load, pow_succ]
    omega

/-- What was stored is read back, cut to the width of the field. -/
theorem load_store_same (m : Nat → UInt8) (a n v : Nat) :
    load (store m a n v) a n = v % 256 ^ n := by
  -- induction on the width, with the value shifted by one byte at each step
  suffices h : ∀ (w : Nat) (f : Nat → UInt8) (b : Nat),
      (∀ i, i < n → f (b + i) = UInt8.ofNat (w / 256 ^ i)) → load f b n = w % 256 ^ n by
    apply h
    intro i hi
    simp only [store]
    rw [if_pos ⟨by omega, by omega⟩, Nat.add_sub_cancel_left]
  induction n with
  | zero => intro w f b _; simp [load, Nat.mod_one]
  | succ n ih =>
    intro w f b hf
    have h0 : f b = UInt8.ofNat w := by simpa using hf 0 (by omega)
    have htail : load f (b + 1) n = w / 256 % 256 ^ n := by
      apply ih
      intro i hi
      have := hf (i + 1) (by omega)
      rw [show b + 1 + i = b + (i + 1) by omega, this, pow_succ, Nat.div_div_eq_div_mul,
        Nat.mul_comm]
    simp only [load]
    rw [h0, htail, pow_succ, Nat.mul_comm (256 ^ n) 256, Nat.mod_mul, UInt8.toNat_ofNat']

/-- A store does not change a field that does not overlap it. -/
theorem load_store_disjoint (h : a + n ≤ b ∨ b + k ≤ a) :
    load (store m a n v) b k = load m b k := by
  apply load_congr
  intro x h1 h2
  simp only [store]
  rw [if_neg (by omega)]

theorem load_fill_zero (h1 : a ≤ b) (h2 : b + k ≤ a + n) : load (fill m a n 0) b k = 0 := by
  induction k generalizing b with
  | zero => rfl
  | succ k ih =>
    simp only [load]
    rw [ih (by omega) (by omega)]
    simp only [fill]
    rw [if_pos ⟨h1, by omega⟩]
    rfl

end Bytes
