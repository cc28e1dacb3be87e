import Mathlib.Data.Fintype.Basic
import NoviceKernel.Fs

/-! # Layout of the file system on the disk

    The on-disk inodes and the free bit map are read back as they were written,
    and a write to one of them leaves the others alone.  `Superblock.Ok` is what
    is assumed of `mkfs`: inode blocks, bitmap blocks and data blocks do not
    overlap. -/

namespace NoviceKernel.FS

open Function

theorem BSIZE_eq : BSIZE = 1024 := rfl
theorem BPB_eq : BPB = 8192 := rfl
theorem IPB_eq : IPB = 16 := rfl
theorem DINODE_eq : DINODE = 64 := rfl
theorem NDIRECT_eq : NDIRECT = 11 := rfl
theorem NINDIRECT_eq : NINDIRECT = 256 := rfl
theorem NINDIRECT_SEC_eq : NINDIRECT_SEC = 65536 := rfl
theorem MAXFILE_eq : MAXFILE = 65803 := rfl

variable {d : Block} {o : Nat} {a : Fin NADDR → Nat}

/-! ## On-disk inodes -/

namespace Dinode

/-- The fields fit their on-disk widths. -/
structure InRange (x : Dinode) : Prop where
  type : x.type < 2 ^ 16
  major : x.major < 2 ^ 16
  minor : x.minor < 2 ^ 16
  nlink : x.nlink < 2 ^ 16
  size : x.size < 2 ^ 32
  addrs : ∀ k, x.addrs k < 2 ^ 32

theorem load_inRange (d : Block) (o : Nat) : (load d o).InRange where
  type := Bytes.load_lt d.byte o 2
  major := Bytes.load_lt d.byte (o + 2) 2
  minor := Bytes.load_lt d.byte (o + 4) 2
  nlink := Bytes.load_lt d.byte (o + 6) 2
  size := Bytes.load_lt d.byte (o + 8) 4
  addrs := fun k => Bytes.load_lt d.byte (o + 12 + 4 * k) 4

open Block

/-- A loop of stores to `addrs` leaves other fields alone. -/
theorem load_foldl_addrs {b n : Nat} {ks : List (Fin NADDR)}
    (h : ∀ k ∈ ks, o + 12 + 4 * k.val + 4 ≤ b ∨ b + n ≤ o + 12 + 4 * k.val) :
    (ks.foldl (fun d (k : Fin NADDR) => d.store (o + 12 + 4 * k) 4 (a k)) d).load b n =
      d.load b n := by
  induction ks generalizing d with
  | nil => rfl
  | cons k ks ih =>
    rw [List.foldl_cons, ih fun k' hk' => h k' (List.mem_cons_of_mem _ hk'),
      load_store_disjoint (h k List.mem_cons_self)]

theorem load_storeAddrs_disjoint {b n : Nat}
    (h : o + DINODE ≤ b ∨ b + n ≤ o + 12) : (storeAddrs d o a).load b n = d.load b n := by
  apply load_foldl_addrs
  intro k _
  have := k.isLt
  rw [DINODE_eq] at h
  unfold NADDR at this
  omega

/-- Each entry of `addrs` is read back. -/
theorem load_storeAddrs (ho : o + DINODE ≤ BSIZE)
    (k : Fin NADDR) : (storeAddrs d o a).load (o + 12 + 4 * k) 4 = a k % 2 ^ 32 := by
  rw [DINODE_eq] at ho
  have hk := k.isLt
  unfold NADDR at hk
  -- the store of entry k is the last one that touches it
  obtain ⟨l1, l2, hl⟩ := List.append_of_mem (List.mem_finRange k)
  have hnd : (l1 ++ k :: l2).Nodup := hl ▸ List.nodup_finRange NADDR
  unfold storeAddrs
  rw [hl, List.foldl_append, List.foldl_cons, load_foldl_addrs, load_store_same (by omega)]
  · norm_num
  · intro k' hk'
    have hne : k' ≠ k := by
      rintro rfl
      exact (List.nodup_cons.mp (List.nodup_append.mp hnd).2.1).1 hk'
    have : k'.val ≠ k.val := fun e => hne (Fin.ext e)
    omega

/-- An inode that was written is read back. -/
theorem load_store {x : Dinode} (ho : o + DINODE ≤ BSIZE) (hx : x.InRange) :
    load (store d o x) o = x := by
  have ho' := ho
  rw [DINODE_eq] at ho'
  obtain ⟨type, major, minor, nlink, size, addrs⟩ := x
  unfold load store
  dsimp only
  congr 1
  · rw [load_storeAddrs_disjoint (by omega), load_store_disjoint (by omega),
      load_store_disjoint (by omega), load_store_disjoint (by omega),
      load_store_disjoint (by omega), load_store_same (by omega)]
    exact Nat.mod_eq_of_lt hx.type
  · rw [load_storeAddrs_disjoint (by omega), load_store_disjoint (by omega),
      load_store_disjoint (by omega), load_store_disjoint (by omega),
      load_store_same (by omega)]
    exact Nat.mod_eq_of_lt hx.major
  · rw [load_storeAddrs_disjoint (by omega), load_store_disjoint (by omega),
      load_store_disjoint (by omega), load_store_same (by omega)]
    exact Nat.mod_eq_of_lt hx.minor
  · rw [load_storeAddrs_disjoint (by omega), load_store_disjoint (by omega),
      load_store_same (by omega)]
    exact Nat.mod_eq_of_lt hx.nlink
  · rw [load_storeAddrs_disjoint (by omega), load_store_same (by omega)]
    exact Nat.mod_eq_of_lt hx.size
  · funext k
    rw [load_storeAddrs ho, Nat.mod_eq_of_lt (hx.addrs k)]

/-- Two views of the bytes of an inode agree. -/
theorem load_congr {d' : Block}
    (h : ∀ b n, o ≤ b → b + n ≤ o + DINODE → d'.load b n = d.load b n) : load d' o = load d o := by
  rw [DINODE_eq] at h
  unfold load
  congr 1
  · exact h _ _ (by omega) (by omega)
  · exact h _ _ (by omega) (by omega)
  · exact h _ _ (by omega) (by omega)
  · exact h _ _ (by omega) (by omega)
  · exact h _ _ (by omega) (by omega)
  · funext k
    have := k.isLt
    unfold NADDR at this
    exact h _ _ (by omega) (by omega)

/-- Another inode of the block is not changed. -/
theorem load_store_ne {o' : Nat} {x : Dinode} (h : o + DINODE ≤ o' ∨ o' + DINODE ≤ o) :
    load (store d o x) o' = load d o' := by
  apply load_congr
  intro b n h1 h2
  rw [DINODE_eq] at h h2
  unfold store
  dsimp only
  rw [load_storeAddrs_disjoint (by rw [DINODE_eq]; omega), load_store_disjoint (by omega),
    load_store_disjoint (by omega), load_store_disjoint (by omega),
    load_store_disjoint (by omega), load_store_disjoint (by omega)]

end Dinode

/-- Offsets of different inodes of one block do not overlap. -/
theorem ioff_disjoint {i i' : Nat} (h : i ≠ i') (hb : i / IPB = i' / IPB) :
    ioff i + DINODE ≤ ioff i' ∨ ioff i' + DINODE ≤ ioff i := by
  unfold ioff
  rw [DINODE_eq, IPB_eq] at *
  omega

theorem ioff_fits (i : Nat) : ioff i + DINODE ≤ BSIZE := by
  unfold ioff
  rw [DINODE_eq, IPB_eq, BSIZE_eq]
  omega

/-! ## Superblock -/

/-- First block after the metadata. -/
def Superblock.dstart (sb : Superblock) : Nat := sb.size - sb.nblocks

/-- The layout that `mkfs` produces. -/
structure Superblock.Ok (sb : Superblock) : Prop where
  /-- The boot block is metadata. -/
  dstart_pos : 0 < sb.dstart
  dstart_le : sb.dstart ≤ sb.size
  inode : ∀ i, i < sb.ninodes → IBLOCK sb i < sb.dstart
  bmap : ∀ b, b < sb.size → BBLOCK sb b < sb.dstart
  apart : ∀ i b, i < sb.ninodes → b < sb.size → IBLOCK sb i ≠ BBLOCK sb b
  /-- Block numbers fit an `int`. -/
  size_lt : sb.size < 2 ^ 31

/-- The bit of block `b` in the free map. -/
def isUsed (sb : Superblock) (blocks : Nat → Block) (b : Nat) : Bool :=
  (blocks (BBLOCK sb b)).bit (b % BPB)

/-- The on-disk inode number `i`. -/
def dinode (sb : Superblock) (blocks : Nat → Block) (i : Nat) : Dinode :=
  Dinode.load (blocks (IBLOCK sb i)) (ioff i)

section

variable {sb : Superblock} {blocks blocks' : Nat → Block} {b b' : Nat} {d : Block}

theorem bmap_pos_eq {b b' : Nat} (h1 : b / BPB = b' / BPB) (h2 : b % BPB = b' % BPB) : b = b' := by
  rw [BPB_eq] at h1 h2
  omega

/-- Setting the bit of `b`. -/
theorem isUsed_setBit :
    isUsed sb (update blocks (BBLOCK sb b) ((blocks (BBLOCK sb b)).setBit (b % BPB))) b' =
      (decide (b' = b) || isUsed sb blocks b') := by
  have hlt : b % BPB < 8 * BSIZE := by rw [BPB_eq, BSIZE_eq]; omega
  unfold isUsed
  by_cases hq : b' / BPB = b / BPB
  · have hB : BBLOCK sb b' = BBLOCK sb b := by unfold BBLOCK; rw [hq]
    rw [hB, update_self, Block.bit_setBit hlt]
    congr 1
    exact decide_eq_decide.mpr ⟨fun h => bmap_pos_eq hq h, fun h => by rw [h]⟩
  · have hB : BBLOCK sb b' ≠ BBLOCK sb b := by unfold BBLOCK; omega
    rw [update_of_ne hB, decide_eq_false (by rintro rfl; exact hq rfl), Bool.false_or]

/-- Clearing the bit of `b`. -/
theorem isUsed_clearBit :
    isUsed sb (update blocks (BBLOCK sb b) ((blocks (BBLOCK sb b)).clearBit (b % BPB))) b' =
      (decide (b' ≠ b) && isUsed sb blocks b') := by
  have hlt : b % BPB < 8 * BSIZE := by rw [BPB_eq, BSIZE_eq]; omega
  unfold isUsed
  by_cases hq : b' / BPB = b / BPB
  · have hB : BBLOCK sb b' = BBLOCK sb b := by unfold BBLOCK; rw [hq]
    rw [hB, update_self, Block.bit_clearBit hlt]
    congr 1
    exact decide_eq_decide.mpr (not_congr ⟨fun h => bmap_pos_eq hq h, fun h => by rw [h]⟩)
  · have hB : BBLOCK sb b' ≠ BBLOCK sb b := by unfold BBLOCK; omega
    rw [update_of_ne hB, decide_eq_true (by rintro rfl; exact hq rfl), Bool.true_and]

/-- Writing a block that is no bitmap block. -/
theorem isUsed_update (h : BBLOCK sb b' ≠ b) :
    isUsed sb (update blocks b d) b' = isUsed sb blocks b' := by
  unfold isUsed
  rw [update_of_ne h]

theorem dinode_congr {i : Nat} (h : blocks' (IBLOCK sb i) = blocks (IBLOCK sb i)) :
    dinode sb blocks' i = dinode sb blocks i := by
  unfold dinode
  rw [h]

end

end NoviceKernel.FS
