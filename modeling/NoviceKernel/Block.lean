import Mathlib.Data.Nat.Bitwise
import NoviceKernel.Lib.Bytes
import NoviceKernel.Param

/-! # Disk blocks

    A block is `BSIZE` bytes.  The file system reads and writes it as an array
    of 32-bit words, as bits, as packed structures and as plain bytes; all of
    these are views of the same bytes. -/

namespace NoviceKernel

/-- The contents of one disk block. Bytes past the end of the block are zero,
    so that two blocks with the same bytes are equal. -/
@[ext] structure Block where
  byte : Nat → UInt8
  past : ∀ i, BSIZE ≤ i → byte i = 0

namespace Block

/-- The block of zeros. -/
def zero : Block := ⟨fun _ => 0, fun _ _ => rfl⟩

/-- The little-endian field of `n` bytes at offset `a`. -/
def load (d : Block) (a n : Nat) : Nat := Bytes.load d.byte a n

/-- Overwrite the field of `n` bytes at offset `a`. -/
def store (d : Block) (a n v : Nat) : Block where
  byte := fun x => if x < BSIZE then Bytes.store d.byte a n v x else 0
  past := fun i hi => if_neg (by omega)

/-- `((uint *)d)[i]`. -/
def word (d : Block) (i : Nat) : Nat := d.load (4 * i) 4

/-- `((uint *)d)[i] = v`. -/
def setWord (d : Block) (i v : Nat) : Block := d.store (4 * i) 4 v

/-- `memset(d + a, 0, n)`. -/
def clear (d : Block) (a n : Nat) : Block where
  byte := fun x => if x < BSIZE then Bytes.fill d.byte a n 0 x else 0
  past := fun i hi => if_neg (by omega)

/-- `memmove(d + a, bs, n)` for the bytes `bs`. -/
def copy (d : Block) (a : Nat) (bs : List UInt8) : Block where
  byte := fun x => if x < BSIZE then Bytes.copy d.byte a bs.length (fun i => bs.getD i 0) x else 0
  past := fun i hi => if_neg (by omega)

/-- `1 << (bi % 8)`. -/
def mask (bi : Nat) : UInt8 := 1 <<< UInt8.ofNat (bi % 8)

/-- `(d[bi/8] & m) != 0`. -/
def bit (d : Block) (bi : Nat) : Bool := d.byte (bi / 8) &&& mask bi != 0

/-- `d[bi/8] |= m`. -/
def setBit (d : Block) (bi : Nat) : Block where
  byte := fun x => if x < BSIZE ∧ x = bi / 8 then d.byte x ||| mask bi else d.byte x
  past := fun i hi => by rw [if_neg (by omega)]; exact d.past i hi

/-- `d[bi/8] &= ~m`. -/
def clearBit (d : Block) (bi : Nat) : Block where
  byte := fun x => if x < BSIZE ∧ x = bi / 8 then d.byte x &&& ~~~ mask bi else d.byte x
  past := fun i hi => by rw [if_neg (by omega)]; exact d.past i hi

variable {d : Block} {a b n k v i j : Nat}

theorem load_store_same (h : a + n ≤ BSIZE) : (d.store a n v).load a n = v % 256 ^ n := by
  rw [← Bytes.load_store_same d.byte a n v]
  apply Bytes.load_congr
  intro x _ h2
  exact if_pos (by omega)

theorem load_store_disjoint (h : a + n ≤ b ∨ b + k ≤ a) :
    (d.store a n v).load b k = d.load b k := by
  have hd : ∀ x, b ≤ x → x < b + k → (d.store a n v).byte x = d.byte x := by
    intro x h1 h2
    by_cases hx : x < BSIZE
    · show (if x < BSIZE then Bytes.store d.byte a n v x else 0) = _
      rw [if_pos hx]
      exact if_neg (by omega)
    · rw [Block.past _ x (by omega), Block.past _ x (by omega)]
  exact Bytes.load_congr hd

@[simp] theorem word_setWord_same (hi : 4 * i + 4 ≤ BSIZE) :
    (d.setWord i v).word i = v % 2 ^ 32 := by
  rw [word, setWord, load_store_same hi]
  norm_num

@[simp] theorem word_setWord_ne (h : j ≠ i) : (d.setWord i v).word j = d.word j := by
  rw [word, setWord, load_store_disjoint (by omega), word]

theorem load_clear (h1 : a ≤ b) (h2 : b + k ≤ a + n) : (d.clear a n).load b k = 0 := by
  rw [← Bytes.load_fill_zero (m := d.byte) h1 h2]
  apply Bytes.load_congr
  intro x hx1 hx2
  by_cases hx : x < BSIZE
  · exact if_pos hx
  · rw [Block.past _ x (by omega)]
    exact (if_pos (by omega)).symm

theorem load_clear_disjoint (h : a + n ≤ b ∨ b + k ≤ a) : (d.clear a n).load b k = d.load b k := by
  apply Bytes.load_congr
  intro x h1 h2
  by_cases hx : x < BSIZE
  · show (if x < BSIZE then Bytes.fill d.byte a n 0 x else 0) = _
    rw [if_pos hx]
    exact if_neg (by omega)
  · rw [Block.past _ x (by omega), Block.past _ x (by omega)]

theorem byte_copy {bs : List UInt8} (h : a + bs.length ≤ BSIZE) (x : Nat) :
    (d.copy a bs).byte x = if a ≤ x ∧ x < a + bs.length then bs.getD (x - a) 0 else d.byte x := by
  by_cases hx : x < BSIZE
  · exact if_pos hx
  · rw [Block.past _ x (by omega), if_neg (by omega), Block.past _ x (by omega)]

/-! ## Bits -/

theorem toNat_mask (bi : Nat) : (mask bi).toNat = 2 ^ (bi % 8) := by
  have h : ∀ k : Fin 8, ((1 : UInt8) <<< UInt8.ofNat k.val).toNat = 2 ^ k.val := by decide
  exact h ⟨bi % 8, Nat.mod_lt _ (by decide)⟩

theorem testBit_not_mask (bi : Nat) {j : Nat} (hj : j < 8) :
    (~~~ mask bi).toNat.testBit j = decide (j ≠ bi % 8) := by
  have h : ∀ k j : Fin 8, (~~~ ((1 : UInt8) <<< UInt8.ofNat k.val)).toNat.testBit j =
      decide (j.val ≠ k.val) := by decide
  exact h ⟨bi % 8, Nat.mod_lt _ (by decide)⟩ ⟨j, hj⟩

/-- The bit test of the source is the bit of the byte. -/
theorem bit_eq_testBit (d : Block) (bi : Nat) :
    d.bit bi = (d.byte (bi / 8)).toNat.testBit (bi % 8) := by
  have h0 : ∀ x : UInt8, x &&& mask bi = 0 ↔ x.toNat.testBit (bi % 8) = false := by
    intro x
    rw [← UInt8.toNat_inj, UInt8.toNat_and, toNat_mask, Nat.and_two_pow]
    cases x.toNat.testBit (bi % 8) <;> simp
  unfold bit
  cases hb : (d.byte (bi / 8)).toNat.testBit (bi % 8) with
  | false => rw [(h0 _).mpr hb]; rfl
  | true =>
    rw [bne_iff_ne]
    intro hz
    rw [(h0 _).mp hz] at hb
    cases hb

variable {bi bj : Nat}

theorem bit_setBit (h : bi < 8 * BSIZE) :
    (d.setBit bi).bit bj = (decide (bj = bi) || d.bit bj) := by
  rw [bit_eq_testBit, bit_eq_testBit]
  have hB : BSIZE = 1024 := rfl
  show (if bj / 8 < BSIZE ∧ bj / 8 = bi / 8 then _ else _ : UInt8).toNat.testBit _ = _
  by_cases hq : bj / 8 = bi / 8
  · rw [if_pos ⟨by omega, hq⟩, UInt8.toNat_or, Nat.testBit_or, toNat_mask, Nat.testBit_two_pow,
      Bool.or_comm]
    congr 1
    exact decide_eq_decide.mpr (by omega)
  · rw [if_neg (by omega), decide_eq_false (by rintro rfl; exact hq rfl), Bool.false_or]

theorem bit_clearBit (h : bi < 8 * BSIZE) :
    (d.clearBit bi).bit bj = (decide (bj ≠ bi) && d.bit bj) := by
  rw [bit_eq_testBit, bit_eq_testBit]
  have hB : BSIZE = 1024 := rfl
  show (if bj / 8 < BSIZE ∧ bj / 8 = bi / 8 then _ else _ : UInt8).toNat.testBit _ = _
  by_cases hq : bj / 8 = bi / 8
  · rw [if_pos ⟨by omega, hq⟩, UInt8.toNat_and, Nat.testBit_and,
      testBit_not_mask bi (Nat.mod_lt _ (by decide)), Bool.and_comm]
    congr 1
    exact decide_eq_decide.mpr (by omega)
  · rw [if_neg (by omega), decide_eq_true (by rintro rfl; exact hq rfl), Bool.true_and]

end Block

end NoviceKernel
