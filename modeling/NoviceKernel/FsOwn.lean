import NoviceKernel.FsLayout
import NoviceKernel.Lib.Ledger

/-! # Block ownership: the pointer forest

    The blocks of an inode hang in a tree of pointer slots: the entries of
    `addrs`, and the entries of the pointer blocks they lead to.  `val` reads a
    slot.  `Own` is the one-to-one relation between the bits of the free map and
    the slots of the allocated inodes, with a list `F` of blocks that are
    marked but not (or no longer) pointed to.

    The lemmas follow what the code does to blocks: mark a free one, hang it
    into an empty slot, take a whole inode's blocks off, clear a mark. -/

namespace NoviceKernel.FS

open Function List

/-! ## Slots -/

/-- The pointer slots of an inode. -/
inductive Slot where
  /-- `addrs[k]`. -/
  | direct (k : Fin NDIRECT)
  /-- `addrs[NDIRECT]`, the indirect block. -/
  | ind
  /-- Entry `j` of the indirect block. -/
  | indE (j : Fin NINDIRECT)
  /-- `addrs[NDIRECT_EX]`, the doubly-indirect block. -/
  | dbl
  /-- Entry `j` of the doubly-indirect block. -/
  | dblE (j : Fin NINDIRECT)
  /-- Entry `k` of the second-level block `j`. -/
  | dblEE (j k : Fin NINDIRECT)
  deriving DecidableEq

/-- Slots of pointer blocks. -/
def Slot.isIndex : Slot → Bool
  | .ind | .dbl | .dblE _ => true
  | _ => false

/-- The slot of entry `j` of the pointer block in a slot. -/
def Slot.child : Slot → Fin NINDIRECT → Slot
  | .ind, j => .indE j
  | .dbl, j => .dblE j
  | .dblE i, j => .dblEE i j
  | s, _ => s

/-- Entry `j` of the pointer block `c`; a null pointer has no entries. -/
def entry (blocks : Nat → Block) (c j : Nat) : Nat := if c = 0 then 0 else (blocks c).word j

/-- The index of a direct slot in `addrs`. -/
def directIdx (k : Fin NDIRECT) : Fin NADDR :=
  ⟨k.val, by have := k.isLt; unfold NDIRECT at this; unfold NADDR; omega⟩

/-- The block number in a slot, for an inode with the given `addrs`. -/
def val (blocks : Nat → Block) (a : Fin NADDR → Nat) : Slot → Nat
  | .direct k => a (directIdx k)
  | .ind => a 11
  | .indE j => entry blocks (a 11) j
  | .dbl => a 12
  | .dblE j => entry blocks (a 12) j
  | .dblEE j k => entry blocks (entry blocks (a 12) j) k

/-- The slot of `addrs[k]`. -/
def rootSlot (k : Fin NADDR) : Slot :=
  if h : k.val < NDIRECT then .direct ⟨k.val, h⟩ else if k = 11 then .ind else .dbl

section Val

variable {blocks blocks' : Nat → Block} {a : Fin NADDR → Nat} {b : Nat} {c : Nat}
  {j : Fin NINDIRECT}

theorem val_rootSlot (k : Fin NADDR) : val blocks a (rootSlot k) = a k := by
  unfold rootSlot
  split
  · rfl
  · next h =>
    split
    · next hk => rw [hk]; rfl
    · next hk =>
      have h12 : k = 12 := by
        have := k.isLt
        rw [NDIRECT_eq] at h
        have h11 : k.val ≠ 11 := fun e => hk (Fin.ext e)
        unfold NADDR at this
        exact Fin.ext (show k.val = 12 by omega)
      rw [h12]
      rfl

theorem word_zero (j : Nat) : Block.zero.word j = 0 := by
  show Bytes.load (fun _ => 0) (4 * j) 4 = 0
  rfl

theorem entry_zero (c j : Nat) (h : c = 0) : entry blocks c j = 0 := by
  unfold entry; rw [if_pos h]

theorem entry_congr {c j : Nat} (h : c ≠ 0 → blocks' c = blocks c) :
    entry blocks' c j = entry blocks c j := by
  unfold entry
  split
  · rfl
  · next hc => rw [h hc]

/-- Slots depend only on the pointer blocks. -/
theorem val_congr (h : ∀ t, t.isIndex = true → val blocks a t ≠ 0 →
    blocks' (val blocks a t) = blocks (val blocks a t)) (s : Slot) :
    val blocks' a s = val blocks a s := by
  have hE : ∀ j, entry blocks' (a 12) j = entry blocks (a 12) j :=
    fun j => entry_congr fun hne => h .dbl rfl hne
  cases s with
  | direct k => rfl
  | ind => rfl
  | dbl => rfl
  | indE j => exact entry_congr fun hne => h .ind rfl hne
  | dblE j => exact hE j
  | dblEE j k =>
    show entry blocks' (entry blocks' (a 12) j) k = entry blocks (entry blocks (a 12) j) k
    rw [hE]
    exact entry_congr fun hne => h (.dblE j) rfl hne

/-- The slots of an inode whose `addrs` are zero are empty. -/
theorem val_zero (s : Slot) : val blocks (fun _ => 0) s = 0 := by
  cases s <;> simp [val, entry]

/-- A block of zeros hung into an empty entry of `addrs`. -/
theorem val_update_root {k : Fin NADDR} (hk : a k = 0) (hz : ∀ j, (blocks b).word j = 0)
    (s : Slot) : val blocks (update a k b) s = if s = rootSlot k then b else val blocks a s := by
  have hzero : ∀ j, entry blocks b j = 0 := by
    intro j; unfold entry; split
    · rfl
    · exact hz j
  have hother : ∀ i, i ≠ k → update a k b i = a i := fun i hi => update_of_ne hi _ _
  by_cases hs : s = rootSlot k
  · rw [if_pos hs, hs, val_rootSlot, update_self]
  · rw [if_neg hs]
    cases s with
    | direct i =>
      refine hother _ fun e => hs ?_
      unfold rootSlot
      rw [dif_pos (show k.val < NDIRECT by rw [← e]; exact i.isLt)]
      have hi : i.val = k.val := congrArg Fin.val e
      congr 1
      exact Fin.ext hi
    | ind =>
      refine hother _ fun e => hs ?_
      rw [← e]
      rfl
    | dbl =>
      refine hother _ fun e => hs ?_
      rw [← e]
      rfl
    | indE j =>
      show entry blocks (update a k b 11) j = entry blocks (a 11) j
      by_cases h11 : (11 : Fin NADDR) = k
      · rw [h11, update_self, hzero, hk, entry_zero _ _ rfl]
      · rw [hother _ h11]
    | dblE j =>
      show entry blocks (update a k b 12) j = entry blocks (a 12) j
      by_cases h12 : (12 : Fin NADDR) = k
      · rw [h12, update_self, hzero, hk, entry_zero _ _ rfl]
      · rw [hother _ h12]
    | dblEE j i =>
      show entry blocks (entry blocks (update a k b 12) j) i =
        entry blocks (entry blocks (a 12) j) i
      by_cases h12 : (12 : Fin NADDR) = k
      · rw [h12, update_self, hzero, hk, entry_zero 0 j rfl]
      · rw [hother _ h12]

theorem val_child {p : Slot} (hp : p.isIndex = true) (j : Fin NINDIRECT) :
    val blocks a (p.child j) = entry blocks (val blocks a p) j := by
  cases p with
  | ind | dbl | dblE _ => rfl
  | direct _ | indE _ | dblEE _ _ => cases hp

theorem entry_setWord (hc : c ≠ 0) (hb : b < 2 ^ 32) (x : Nat) (k : Fin NINDIRECT) :
    entry (update blocks c ((blocks c).setWord j b)) x k =
      if x = c ∧ k = j then b else entry blocks x k := by
  have hj : j.val < 256 := j.isLt
  by_cases hx : x = c
  · subst hx
    unfold entry
    rw [if_neg hc, if_neg hc, update_self]
    by_cases hk : k = j
    · subst hk
      rw [if_pos ⟨rfl, rfl⟩, Block.word_setWord_same (by rw [BSIZE_eq]; omega), Nat.mod_eq_of_lt hb]
    · rw [if_neg (fun h => hk h.2), Block.word_setWord_ne (fun e => hk (Fin.ext e))]
  · rw [if_neg (fun h => hx h.1)]
    exact entry_congr fun _ => update_of_ne hx _ _

/-- A block of zeros hung into an empty entry of a pointer block that is in no
    other slot. -/
theorem val_setWord {p : Slot} (hp : p.isIndex = true) (hpc : val blocks a p = c) (hc : c ≠ 0)
    (huniq : ∀ t, val blocks a t = c → t = p) (hj : (blocks c).word j = 0) (hb : b < 2 ^ 32)
    (hbc : b ≠ c) (hz : ∀ j, (blocks b).word j = 0) (t : Slot) :
    val (update blocks c ((blocks c).setWord j b)) a t =
      if t = p.child j then b else val blocks a t := by
  have he : ∀ (x : Nat) (k : Fin NINDIRECT), entry (update blocks c ((blocks c).setWord j b)) x k =
      if x = c ∧ k = j then b else entry blocks x k := entry_setWord hc hb
  have hzero : ∀ k, entry blocks b k = 0 := by
    intro k; unfold entry; split
    · rfl
    · exact hz k
  -- a slot other than p leads to a pointer block that did not change
  have hsame : ∀ t (k : Fin NINDIRECT), t ≠ p → entry (update blocks c ((blocks c).setWord j b))
      (val blocks a t) k = entry blocks (val blocks a t) k := by
    intro t k ht
    rw [he, if_neg fun h => ht (huniq t h.1)]
  have hhere : ∀ k : Fin NINDIRECT, entry (update blocks c ((blocks c).setWord j b))
      (val blocks a p) k =
      if k = j then b else entry blocks (val blocks a p) k := by
    intro k
    rw [he, hpc]
    exact if_congr (and_iff_right rfl) rfl rfl
  cases p with
  | direct _ | indE _ | dblEE _ _ => cases hp
  | ind =>
    cases t with
    | direct k | ind | dbl => rfl
    | indE k => exact (hhere k).trans (if_congr (by simp [Slot.child]) rfl rfl)
    | dblE k => exact hsame .dbl k nofun
    | dblEE i k =>
      have hi : entry _ (a 12) i.val = entry blocks (a 12) i := hsame .dbl i nofun
      show entry _ (entry _ (a 12) i) k = entry blocks (entry blocks (a 12) i) k
      rw [hi]
      exact hsame (.dblE i) k nofun
  | dbl =>
    cases t with
    | direct k | ind | dbl => rfl
    | indE k => exact hsame .ind k nofun
    | dblE k => exact (hhere k).trans (if_congr (by simp [Slot.child]) rfl rfl)
    | dblEE i k =>
      have hi : entry _ (a 12) i.val = if i = j then b else entry blocks (a 12) i := hhere i
      show entry _ (entry _ (a 12) i) k = entry blocks (entry blocks (a 12) i) k
      rw [hi]
      by_cases hij : i = j
      · -- the new block is empty, as the slot was
        have hold : entry blocks (a 12) i = 0 := by
          rw [hij]
          show entry blocks (val blocks a .dbl) j = 0
          rw [hpc]
          unfold entry
          rw [if_neg hc, hj]
        rw [if_pos hij, he, if_neg fun h => hbc h.1, hzero, hold, entry_zero 0 _ rfl]
      · rw [if_neg hij]
        exact hsame (.dblE i) k nofun
  | dblE i0 =>
    cases t with
    | direct k | ind | dbl => rfl
    | indE k => exact hsame .ind k nofun
    | dblE k => exact hsame .dbl k nofun
    | dblEE i k =>
      have hi : entry _ (a 12) i.val = entry blocks (a 12) i := hsame .dbl i nofun
      show entry _ (entry _ (a 12) i) k = _
      rw [hi]
      by_cases hii : i = i0
      · subst hii
        exact (hhere k).trans (if_congr (by simp [Slot.child]) rfl rfl)
      · rw [if_neg (by simp [Slot.child, hii])]
        exact hsame (.dblE i) k (by simpa using hii)

end Val

/-! ## Ownership -/

/-- The block of a pointer, none for a null pointer. -/
def nz (v : Nat) : Option Nat := if v = 0 then none else some v

theorem nz_zero : nz 0 = none := rfl

theorem nz_of_ne {v : Nat} (h : v ≠ 0) : nz v = some v := if_neg h

theorem nz_eq_some {v b : Nat} : nz v = some b ↔ v = b ∧ b ≠ 0 := by
  unfold nz
  split
  · next h => exact ⟨nofun, fun ⟨h1, h2⟩ => absurd (h1.symm.trans h) h2⟩
  · next h =>
      exact ⟨fun e => ⟨Option.some.inj e, Option.some.inj e ▸ h⟩, fun e => congrArg some e.1⟩

/-- The `addrs` of the allocated inodes. -/
abbrev View := Nat → Option (Fin NADDR → Nat)

section

variable (sb : Superblock) (blocks : Nat → Block)

/-- The view of the on-disk inodes. -/
def diskView : View := fun i =>
  if i < sb.ninodes ∧ (dinode sb blocks i).type ≠ 0 then some (dinode sb blocks i).addrs else none

/-- The block in slot `p.2` of inode `p.1`. -/
def ptr (blocks : Nat → Block) (V : View) (p : Nat × Slot) : Option Nat :=
  (V p.1).bind fun a => nz (val blocks a p.2)

/-- The data blocks whose bit is set. -/
def marked (b : Nat) : Prop :=
  sb.dstart ≤ b ∧ b < sb.size ∧ isUsed sb blocks b = true

/-- The free map marks the metadata, the blocks in the slots of `V` and those
    in flight, each of them in one place only. -/
structure Owned (V : View) (F : List Nat) : Prop where
  meta_used : ∀ b, b < sb.dstart → isUsed sb blocks b = true
  owns : Ledger.Owns (ptr blocks V) F (marked sb blocks)

/-- Blocks after `balloc` took `b`. -/
def takeBlock (b : Nat) : Nat → Block :=
  update (update blocks (BBLOCK sb b) ((blocks (BBLOCK sb b)).setBit (b % BPB)))
    b Block.zero

/-- Blocks after `bfree` gave `b` back. -/
def giveBlock (b : Nat) : Nat → Block :=
  update blocks (BBLOCK sb b) ((blocks (BBLOCK sb b)).clearBit (b % BPB))

end

section Owned

variable {sb : Superblock} {blocks blocks' : Nat → Block} {V V' : View} {F : List Nat}
  {i i' b c : Nat} {a a' : Fin NADDR → Nat} {t t' : Slot} {f : Fin NINDIRECT → Slot} {p : Slot}

theorem ptr_of_some (h : V i = some a) : ptr blocks V (i, t) = nz (val blocks a t) := by
  unfold ptr; rw [h]; rfl

theorem ptr_of_none (h : V i = none) : ptr blocks V (i, t) = none := by
  unfold ptr; rw [h]; rfl

theorem ptr_eq_some :
    ptr blocks V (i, t) = some b ↔ ∃ a, V i = some a ∧ val blocks a t = b ∧ b ≠ 0 := by
  cases hV : V i with
  | none => rw [ptr_of_none hV]; exact ⟨nofun, nofun⟩
  | some a =>
    rw [ptr_of_some hV, nz_eq_some]
    exact ⟨fun h => ⟨a, rfl, h⟩, fun ⟨a', ha, h⟩ => by cases ha; exact h⟩

theorem marked_congr (h : ∀ x, x < sb.size → isUsed sb blocks' x = isUsed sb blocks x) :
    marked sb blocks' b ↔ marked sb blocks b := by
  unfold marked
  exact and_congr_right fun _ => and_congr_right fun hb => by rw [h b hb]

theorem marked.ne (h : marked sb blocks c) (hfree : isUsed sb blocks b = false) : c ≠ b := by
  rintro rfl
  rw [h.2.2] at hfree
  cases hfree

/-- `balloc` changes no other data block. -/
theorem takeBlock_of_ne (hsb : sb.Ok) (hb : b < sb.size) (hx : sb.dstart ≤ c) (hne : c ≠ b) :
    takeBlock sb blocks b c = blocks c := by
  have hB := hsb.bmap b hb
  unfold takeBlock
  rw [update_of_ne hne, update_of_ne (by omega)]

theorem isUsed_takeBlock (hsb : sb.Ok) (hb : sb.dstart ≤ b) (hc : c < sb.size) :
    isUsed sb (takeBlock sb blocks b) c = (decide (c = b) || isUsed sb blocks c) := by
  have hB := hsb.bmap c hc
  unfold takeBlock
  rw [isUsed_update (by omega), isUsed_setBit]

namespace Owned

/-- A pointer is to a data block. -/
theorem range (h : Owned sb blocks V F) (hV : V i = some a) (ht : val blocks a t ≠ 0) :
    marked sb blocks (val blocks a t) :=
  h.owns.used_of_own (ptr_eq_some.mpr ⟨a, hV, rfl, ht⟩)

/-- No block is in two slots. -/
theorem unique (h : Owned sb blocks V F) (hV : V i = some a) (hV' : V i' = some a')
    (ht : val blocks a t ≠ 0) (he : val blocks a t = val blocks a' t') : i = i' ∧ t = t' :=
  Prod.mk.inj (h.owns.inj (ptr_eq_some.mpr ⟨a, hV, rfl, ht⟩)
    (ptr_eq_some.mpr ⟨a', hV', he.symm, ht⟩))

/-- A block in flight is a data block. -/
theorem range_float (h : Owned sb blocks V (b :: F)) : marked sb blocks b :=
  h.owns.used_of_mem mem_cons_self

/-- A block in flight is in no slot. -/
theorem not_float (h : Owned sb blocks V (b :: F)) (hV : V i = some a) (hb : b ≠ 0) :
    val blocks a t ≠ b := fun e =>
  h.owns.apart (ptr_eq_some.mpr ⟨a, hV, e, hb⟩) mem_cons_self

/-- The slots do not change with blocks that hold no pointers. -/
theorem ptr_congr (h : ∀ i a t, V i = some a → t.isIndex = true → val blocks a t ≠ 0 →
    blocks' (val blocks a t) = blocks (val blocks a t)) (p : Nat × Slot) :
    ptr blocks' V p = ptr blocks V p := by
  obtain ⟨i, t⟩ := p
  cases hV : V i with
  | none => rw [ptr_of_none hV, ptr_of_none hV]
  | some a => rw [ptr_of_some hV, ptr_of_some hV, val_congr fun t ht hne => h i a t hV ht hne]

/-- Writing a block that is neither part of the free map nor a pointer block. -/
theorem write (h : Owned sb blocks V F) {d : Block} (hmap : ∀ b, b < sb.size → BBLOCK sb b ≠ c)
    (hle : sb.dstart ≤ sb.size)
    (hidx : ∀ i a t, V i = some a → t.isIndex = true → val blocks a t ≠ 0 → val blocks a t ≠ c) :
    Owned sb (update blocks c d) V F := by
  have hu : ∀ b, b < sb.size → isUsed sb (update blocks c d) b = isUsed sb blocks b :=
    fun b hb => isUsed_update (hmap b hb)
  refine ⟨fun b hb => (hu b (by omega)).trans (h.meta_used b hb), h.owns.congr ?_ ?_⟩
  · exact ptr_congr fun i a t hV ht hne => update_of_ne (hidx i a t hV ht hne) _ _
  · exact fun _ => marked_congr hu

/-- A free block is no metadata. -/
theorem ge_of_free (h : Owned sb blocks V F) (hfree : isUsed sb blocks b = false) :
    sb.dstart ≤ b := by
  by_contra hlt
  rw [h.meta_used b (by omega)] at hfree
  cases hfree

/-- `balloc` takes a free block. -/
theorem alloc (hsb : sb.Ok) (h : Owned sb blocks V F) (hb : b < sb.size)
    (hfree : isUsed sb blocks b = false) : Owned sb (takeBlock sb blocks b) V (b :: F) := by
  have hds := h.ge_of_free hfree
  have hnot : ¬ marked sb blocks b := fun hm => hm.ne hfree rfl
  have hused : ∀ x, x < sb.size → isUsed sb (takeBlock sb blocks b) x =
      (decide (x = b) || isUsed sb blocks x) := fun x hx => isUsed_takeBlock hsb hds hx
  refine ⟨?_, ?_⟩
  · intro x hx
    rw [hused x (by have := hsb.dstart_le; omega), h.meta_used x hx, Bool.or_true]
  · refine Ledger.Owns.alloc (h.owns.congr ?_ fun _ => Iff.rfl) hnot ?_
    · apply ptr_congr
      intro i a t hV _ hne
      have hm := h.range hV hne
      exact takeBlock_of_ne hsb hb hm.1 (hm.ne hfree)
    · intro x
      unfold marked
      by_cases hx : x < sb.size
      · rw [hused x hx, Bool.or_eq_true, decide_eq_true_iff]
        constructor
        · rintro ⟨h1, h2, rfl | h3⟩
          · exact .inl rfl
          · exact .inr ⟨h1, h2, h3⟩
        · rintro (rfl | ⟨h1, h2, h3⟩)
          · exact ⟨hds, hb, .inl rfl⟩
          · exact ⟨h1, h2, .inr h3⟩
      · exact ⟨fun ⟨_, h2, _⟩ => absurd h2 hx,
          fun h => absurd (h.elim (fun e => e ▸ hb) (fun h => h.2.1)) hx⟩

section

variable {k : Fin NADDR} {p : Slot} {j : Fin NINDIRECT} (hsb : sb.Ok)
  (h : Owned sb blocks V (b :: F))
include hsb h

/-- `bfree` of a block in flight. -/
theorem free : Owned sb (giveBlock sb blocks b) V F := by
  obtain ⟨hds, hb, -⟩ := h.range_float
  have hB := hsb.bmap b hb
  have hused : ∀ x, isUsed sb (giveBlock sb blocks b) x = (decide (x ≠ b) && isUsed sb blocks x) :=
    fun x => isUsed_clearBit
  refine ⟨?_, ?_⟩
  · intro x hx
    rw [hused, h.meta_used x hx, decide_eq_true (by omega), Bool.true_and]
  · refine Ledger.Owns.free (h.owns.congr ?_ fun _ => Iff.rfl) ?_
    · apply ptr_congr
      intro i a t hV _ hne
      exact update_of_ne (by have := (h.range hV hne).1; omega) _ _
    · intro x
      unfold marked
      rw [hused, Bool.and_eq_true, decide_eq_true_iff]
      exact ⟨fun ⟨h1, h2, h3, h4⟩ => ⟨h3, h1, h2, h4⟩, fun ⟨h3, h1, h2, h4⟩ => ⟨h1, h2, h3, h4⟩⟩

/-- A block in flight goes into an empty slot of inode `i`; nothing else
    changes in any slot. -/
theorem hang (hu : ∀ x, x < sb.size → isUsed sb blocks' x = isUsed sb blocks x) (hb : b ≠ 0)
    (hV : V i = some a) (hV' : V' i = some a') (ht : val blocks a t = 0)
    (hval : ∀ u, val blocks' a' u = if u = t then b else val blocks a u)
    (hother : ∀ j, j ≠ i → V' j = V j)
    (hsame : ∀ j x u, j ≠ i → V j = some x → val blocks' x u = val blocks x u) :
    Owned sb blocks' V' F := by
  have hle := hsb.dstart_le
  refine ⟨fun x hx => (hu x (by omega)).trans (h.meta_used x hx), ?_⟩
  have h' : Ledger.Owns (ptr blocks V) (b :: F) (marked sb blocks') :=
    h.owns.congr (fun _ => rfl) fun _ => marked_congr hu
  refine h'.attach (s := (i, t)) ?_ ?_ ?_
  · rw [ptr_of_some hV, ht, nz_zero]
  · rw [ptr_of_some hV', hval, if_pos rfl, nz_of_ne hb]
  · rintro ⟨j, u⟩ hne
    by_cases hj : j = i
    · subst hj
      have hut : u ≠ t := fun e => hne (e ▸ rfl)
      rw [ptr_of_some hV, ptr_of_some hV', hval, if_neg hut]
    · cases hVj : V j with
      | none => rw [ptr_of_none hVj, ptr_of_none ((hother j hj).trans hVj)]
      | some x => rw [ptr_of_some hVj, ptr_of_some ((hother j hj).trans hVj), hsame j x u hj hVj]

/-- A block of zeros in flight goes into an entry of `addrs`. -/
theorem hang_root (hV : V i = some a) (hk : a k = 0) (hz : blocks b = Block.zero) :
    Owned sb blocks (update V i (some (update a k b))) F ∧
    ∀ u, val blocks (update a k b) u = if u = rootSlot k then b else val blocks a u := by
  have hb : b ≠ 0 := by have := h.range_float.1; have := hsb.dstart_pos; omega
  have hval : ∀ u, val blocks (update a k b) u = if u = rootSlot k then b else val blocks a u :=
    val_update_root hk (by rw [hz]; exact fun j => word_zero j)
  refine ⟨?_, hval⟩
  exact h.hang hsb (fun _ _ => rfl) hb hV (update_self ..) (by rw [val_rootSlot, hk]) hval
    (fun j hj => update_of_ne hj _ _) (fun _ _ _ _ _ => rfl)

/-- A block of zeros in flight goes into an entry of a pointer block. -/
theorem hang_entry (hV : V i = some a) (hp : p.isIndex = true) (hc : val blocks a p ≠ 0)
    (hj : (blocks (val blocks a p)).word j = 0) (hz : blocks b = Block.zero)
    (hbl : blocks' = update blocks (val blocks a p) ((blocks (val blocks a p)).setWord j b)) :
    Owned sb blocks' V F ∧ ∀ u, val blocks' a u = if u = p.child j then b else val blocks a u := by
  obtain ⟨hds, hbs, -⟩ := h.range_float
  have hb : b ≠ 0 := by have := hsb.dstart_pos; omega
  have hb32 : b < 2 ^ 32 := by have := hsb.size_lt; omega
  have hcm := h.range hV hc
  subst hbl
  have hval := val_setWord (j := j) (b := b) hp rfl hc
    (fun t ht => (h.unique hV hV (by rwa [ht]) ht).2) hj hb32
    (fun e => h.not_float hV hb e.symm) (by rw [hz]; exact fun j => word_zero j)
  refine ⟨h.hang hsb ?_ hb hV hV ?_ hval (fun _ _ => rfl) ?_, hval⟩
  · intro x hx
    have := hsb.bmap x hx
    exact isUsed_update (by have := hcm.1; omega)
  · rw [val_child hp]
    unfold entry
    rw [if_neg hc, hj]
  · -- the pointer block belongs to inode i alone
    intro k x u hk hx
    apply val_congr
    intro t _ hne
    exact update_of_ne (fun e => hk (h.unique hx hV hne e).1) _ _

end

/-- An inode whose `addrs` are zero owns nothing: it can come and go. -/
theorem empty_inode (h : Owned sb blocks V F) (hi : ∀ a, V i = some a → a = fun _ => 0)
    (hi' : ∀ a, V' i = some a → a = fun _ => 0) (hother : ∀ j, j ≠ i → V' j = V j) :
    Owned sb blocks V' F := by
  have hnone : ∀ {W : View} {t}, (∀ a, W i = some a → a = fun _ => 0) →
      ptr blocks W (i, t) = none := by
    intro W t hW
    cases hWi : W i with
    | none => exact ptr_of_none hWi
    | some a => rw [ptr_of_some hWi, hW a hWi, val_zero, nz_zero]
  refine ⟨h.meta_used, h.owns.congr ?_ fun _ => Iff.rfl⟩
  rintro ⟨j, t⟩
  by_cases hj : j = i
  · subst hj
    rw [hnone hi', hnone hi]
  · unfold ptr
    rw [hother j hj]

end Owned

/-! ## The blocks of one inode -/

/-- The entries of a pointer block and the block itself, in the order in which
    `itrunc` frees them. -/
def slotsOfIndex (f : Fin NINDIRECT → Slot) (p : Slot) : List Slot :=
  (List.finRange NINDIRECT).map f ++ [p]

/-- Every slot, in the order in which `itrunc` frees them. -/
def allSlots : List Slot :=
  (List.finRange NDIRECT).map .direct ++
    (slotsOfIndex .indE .ind ++
      ((List.finRange NINDIRECT).flatMap (fun j => slotsOfIndex (.dblEE j) (.dblE j)) ++ [.dbl]))

theorem mem_slotsOfIndex : t ∈ slotsOfIndex f p ↔ (∃ j, f j = t) ∨ t = p := by
  simp [slotsOfIndex]

theorem nodup_slotsOfIndex (hf : Injective f) (hp : ∀ j, f j ≠ p) : (slotsOfIndex f p).Nodup := by
  unfold slotsOfIndex
  rw [nodup_append]
  refine ⟨(nodup_finRange _).map hf, nodup_singleton _, ?_⟩
  rintro t ht u hu rfl
  obtain ⟨j, -, rfl⟩ := mem_map.mp ht
  exact hp j (mem_singleton.mp hu)

theorem mem_allSlots (t : Slot) : t ∈ allSlots := by
  unfold allSlots
  simp only [mem_append, mem_map, mem_finRange, true_and, mem_slotsOfIndex,
    mem_flatMap, mem_singleton]
  cases t with
  | direct k => exact .inl ⟨k, rfl⟩
  | ind => exact .inr (.inl (.inr rfl))
  | indE j => exact .inr (.inl (.inl ⟨j, rfl⟩))
  | dbl => exact .inr (.inr (.inr rfl))
  | dblE j => exact .inr (.inr (.inl ⟨j, .inr rfl⟩))
  | dblEE j k => exact .inr (.inr (.inl ⟨j, .inl ⟨k, rfl⟩⟩))

theorem nodup_allSlots : allSlots.Nodup := by
  have h1 : ((finRange NDIRECT).map Slot.direct).Nodup :=
    (nodup_finRange _).map fun _ _ h => by injection h
  have h2 : (slotsOfIndex .indE .ind).Nodup :=
    nodup_slotsOfIndex (fun _ _ h => by injection h) (fun _ => nofun)
  have h3 : ((finRange NINDIRECT).flatMap fun j => slotsOfIndex (.dblEE j) (.dblE j)).Nodup := by
    rw [nodup_flatMap]
    refine ⟨fun j _ => nodup_slotsOfIndex (fun _ _ h => by injection h) (fun _ => nofun), ?_⟩
    refine (nodup_finRange _).imp ?_
    intro j j' hne t ht ht'
    rw [mem_slotsOfIndex] at ht ht'
    apply hne
    rcases ht with ⟨k, rfl⟩ | rfl <;> rcases ht' with ⟨k', h⟩ | h <;> injection h
    next h _ => exact h.symm
  unfold allSlots
  simp only [nodup_append, mem_append, mem_map, mem_slotsOfIndex, mem_flatMap,
    mem_singleton]
  refine ⟨h1, ⟨h2, ⟨h3, nodup_singleton _, ?_⟩, ?_⟩, ?_⟩
  · rintro t ⟨j, -, ⟨k, rfl⟩ | rfl⟩ u rfl <;> exact nofun
  · rintro t (⟨j, rfl⟩ | rfl) u (⟨j, -, ⟨k, rfl⟩ | rfl⟩ | rfl) <;> exact nofun
  · rintro t ⟨k, -, rfl⟩ u ((⟨j, rfl⟩ | rfl) | ⟨j, -, ⟨k, rfl⟩ | rfl⟩ | rfl) <;> exact nofun

/-- The blocks of an inode, in the order in which `itrunc` frees them. -/
def inodeBlocks (blocks : Nat → Block) (a : Fin NADDR → Nat) : List Nat :=
  allSlots.filterMap fun t => nz (val blocks a t)

/-- All the blocks of an inode are taken off. -/
theorem Owned.take_off (h : Owned sb blocks V F) (hV : V i = some a)
    (hi : ∀ a, V' i = some a → a = fun _ => 0) (hother : ∀ j, j ≠ i → V' j = V j) :
    Owned sb blocks V' (inodeBlocks blocks a ++ F) := by
  have hnd : (allSlots.map fun t => (i, t)).Nodup :=
    nodup_allSlots.map fun _ _ h => (Prod.mk.inj h).2
  have hlist : (allSlots.map fun t => (i, t)).filterMap (ptr blocks V) = inodeBlocks blocks a := by
    unfold inodeBlocks
    rw [filterMap_map]
    exact filterMap_congr fun t _ => ptr_of_some hV
  refine ⟨h.meta_used, hlist ▸ h.owns.detach_all hnd ?_ ?_⟩
  · rintro p hp
    obtain ⟨t, -, rfl⟩ := mem_map.mp hp
    cases hV' : V' i with
    | none => exact ptr_of_none hV'
    | some x => rw [ptr_of_some hV', hi x hV', val_zero, nz_zero]
  · rintro ⟨j, t⟩ hp
    have hj : j ≠ i := by
      rintro rfl
      exact hp (mem_map.mpr ⟨t, mem_allSlots t, rfl⟩)
    unfold ptr
    rw [hother j hj]

end Owned

end NoviceKernel.FS
