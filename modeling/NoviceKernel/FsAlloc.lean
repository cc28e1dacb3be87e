import Mathlib.Logic.Relation
import NoviceKernel.FsOwn
import NoviceKernel.Lib.Hoare

/-! # Allocation on demand

    `balloc` finds a free block if there is one.  `bmap` walks the slots on the
    way to a block of a file and fills the empty ones.

    What an operation on the open inode `ip` does to the blocks is a sequence
    of two kinds of steps (`Prim`): a free block, zeroed, goes into an empty slot
    of the inode, or the contents of one of its data blocks are replaced.  What
    such sequences keep is proved once, for the steps. -/

namespace NoviceKernel.FS

open Hoare Function

/-- `balloc`'s panic. -/
def outOfBlocks : Stop := .panic "balloc: out of blocks"

variable {b : Nat} {E : Stop → Fs → Prop} {d : Block}

/-! ## `balloc` -/

section Balloc

variable {sb : Superblock} {s : Fs}

@[simp] theorem wp_bread {Q : Block → Fs → Prop} : wp (bread b) Q E s ↔ Q (s.blocks b) s := Iff.rfl

@[simp] theorem wp_writeBlock {Q : Unit → Fs → Prop} :
    wp (writeBlock b d) Q E s ↔ Q () (s.setBlock b d) := Iff.rfl

theorem scan_some {n bi x : Nat} (h : scan sb d b n bi = some x) :
    bi ≤ x ∧ x < bi + n ∧ b + x < sb.size ∧ d.bit x = false ∧
    ∀ y, bi ≤ y → y < x → d.bit y = true := by
  induction n generalizing bi with
  | zero => cases h
  | succ n ih =>
    unfold scan at h
    split at h
    · next hlt =>
      split at h
      · next hbit =>
        obtain ⟨h1, h2, h3, h4, h5⟩ := ih h
        refine ⟨by omega, by omega, h3, h4, fun y hy hyx => ?_⟩
        rcases Nat.eq_or_lt_of_le hy with rfl | hlt
        · exact hbit
        · exact h5 y hlt hyx
      · next hbit =>
        cases h
        exact ⟨by omega, by omega, hlt, by simpa using hbit, fun y hy hyx => absurd hyx (by omega)⟩
    · cases h

theorem scan_none {n bi : Nat} (h : scan sb d b n bi = none) {x : Nat} (h1 : bi ≤ x)
    (h2 : x < bi + n) (hx : b + x < sb.size) : d.bit x = true := by
  induction n generalizing bi with
  | zero => omega
  | succ n ih =>
    unfold scan at h
    rw [if_pos (by omega)] at h
    split at h
    · next hbit =>
      rcases Nat.eq_or_lt_of_le h1 with rfl | hlt
      · exact hbit
      · exact ih h hlt (by omega)
    · cases h

theorem BBLOCK_add {bi : Nat} (hb : b % BPB = 0) (hbi : bi < BPB) :
    BBLOCK sb (b + bi) = BBLOCK sb b ∧ (b + bi) % BPB = bi := by
  unfold BBLOCK
  rw [BPB_eq] at *
  omega

theorem wp_balloc_loop {n : Nat} (hb : b % BPB = 0) (hn : sb.size ≤ b + n * BPB)
    (hbelow : ∀ x, x < b → x < sb.size → isUsed sb s.blocks x = true) :
    wp (balloc_loop sb n b) (fun r s' => r < sb.size ∧ isUsed sb s.blocks r = false ∧
      (∀ x, x < r → isUsed sb s.blocks x = true) ∧
      s' = { s with blocks := takeBlock sb s.blocks r })
      (fun e s' => e = outOfBlocks ∧ s' = s ∧ ∀ x, x < sb.size → isUsed sb s.blocks x = true)
      s := by
  -- the bits before `b` are all set
  induction n generalizing b with
  | zero => exact ⟨rfl, rfl, fun x hx => hbelow x (by omega) hx⟩
  | succ n ih =>
    unfold balloc_loop
    split
    · next hlt =>
      rw [wp_bind, wp_bread]
      split
      · next bi hscan =>
        obtain ⟨-, hbi, hsz, hbit, hfirst⟩ := scan_some hscan
        obtain ⟨hB, hmod⟩ : BBLOCK sb (b + bi) = BBLOCK sb b ∧ _ :=
          BBLOCK_add hb (show bi < BPB by omega)
        refine ⟨hsz, ?_, fun x hx => ?_, ?_⟩
        · unfold isUsed
          rw [hB, hmod, hbit]
        · by_cases hxb : x < b
          · exact hbelow x hxb (by omega)
          · obtain ⟨hB, hmod⟩ : BBLOCK sb (b + (x - b)) = BBLOCK sb b ∧ _ :=
              BBLOCK_add hb (show x - b < BPB by omega)
            have hxe : b + (x - b) = x := by omega
            rw [hxe] at hB hmod
            unfold isUsed
            rw [hB, hmod]
            exact hfirst _ (Nat.zero_le _) (by omega)
        · unfold takeBlock
          rw [hB, hmod]
      · next hscan =>
        refine ih (by rw [BPB_eq] at *; omega) (by rw [Nat.succ_mul] at hn; omega) ?_
        intro x hx hxs
        by_cases hxb : x < b
        · exact hbelow x hxb hxs
        · obtain ⟨hB, hmod⟩ : BBLOCK sb (b + (x - b)) = BBLOCK sb b ∧ _ :=
            BBLOCK_add hb (show x - b < BPB by omega)
          have hxe : b + (x - b) = x := by omega
          rw [hxe] at hB hmod
          unfold isUsed
          rw [hB, hmod]
          exact scan_none hscan (Nat.zero_le _) (by omega) (by omega)
    · next hge => exact ⟨rfl, rfl, fun x hx => hbelow x (by omega) hx⟩

/-- `balloc` takes the first free block, or there is none. -/
theorem wp_balloc :
    wp (balloc sb) (fun r s' => r < sb.size ∧ isUsed sb s.blocks r = false ∧
      (∀ x, x < r → isUsed sb s.blocks x = true) ∧
      s' = { s with blocks := takeBlock sb s.blocks r })
      (fun e s' => e = outOfBlocks ∧ s' = s ∧ ∀ x, x < sb.size → isUsed sb s.blocks x = true) s :=
  wp_balloc_loop rfl (by rw [BPB_eq]; omega) (fun x hx => absurd hx (Nat.not_lt_zero x))

/-- `bfree` of a marked block. -/
theorem wp_bfree (h : isUsed sb s.blocks b = true) :
    wp (bfree sb b) (fun _ s' => s' = { s with blocks := giveBlock sb s.blocks b }) E s := by
  unfold isUsed at h
  rw [bfree, wp_bind, wp_bread, if_pos h, wp_writeBlock]
  rfl

theorem lt_bits : b % BPB < 8 * BSIZE := by
  rw [BPB_eq, BSIZE_eq]
  omega

/-- `bfree` clears the bit of `b` and nothing else. -/
theorem bfree_clears (h : isUsed sb s.blocks b = true) :
    ∃ s', bfree sb b s = .ok () s' ∧ s'.itable = s.itable ∧
      (∀ c, c ≠ BBLOCK sb b → s'.blocks c = s.blocks c) ∧
      ∀ i, (s'.blocks (BBLOCK sb b)).bit i =
          (decide (i ≠ b % BPB) && (s.blocks (BBLOCK sb b)).bit i) := by
  have hwp := wp_bfree (E := fun _ _ => False) h
  unfold wp at hwp
  cases hrun : bfree sb b s with
  | error e s' => rw [hrun] at hwp; exact hwp.elim
  | ok u s' =>
    rw [hrun] at hwp
    subst hwp
    refine ⟨_, rfl, rfl, fun c hc => update_of_ne hc _ _, fun i => ?_⟩
    simp only [giveBlock, update_self]
    exact Block.bit_clearBit lt_bits

/-- **`balloc` and `bfree`**: while the blocks of the free map are marked and some
    block is free, `balloc` returns the first free one, sets its bit, zeroes it and
    changes nothing else; `bfree` clears the bit of any marked block and nothing else,
    so that of the block just taken restores the free map. -/
theorem balloc_bfree (_ : sb.size < 2 ^ 31)
    (hmeta : ∀ x, x < sb.size → isUsed sb s.blocks (BBLOCK sb x) = true)
    (hfree : ∃ x, x < sb.size ∧ isUsed sb s.blocks x = false) :
    (∃ b s', balloc sb s = .ok b s' ∧ b < sb.size ∧ isUsed sb s.blocks b = false ∧
      (∀ x, x < b → isUsed sb s.blocks x = true) ∧ s'.itable = s.itable ∧ s'.blocks b = Block.zero ∧
      (∀ c, c ≠ b → c ≠ BBLOCK sb b → s'.blocks c = s.blocks c) ∧
      (∀ i, (s'.blocks (BBLOCK sb b)).bit i =
          (decide (i = b % BPB) || (s.blocks (BBLOCK sb b)).bit i)) ∧
      ∃ s'', bfree sb b s' = .ok () s'' ∧
        ∀ x, x < sb.size → ∀ i, (s''.blocks (BBLOCK sb x)).bit i = (s.blocks (BBLOCK sb x)).bit i) ∧
    ∀ b, b < sb.size →
      ∀ t, isUsed sb t.blocks b = true →
        ∃ t', bfree sb b t = .ok () t' ∧ t'.itable = t.itable ∧
          (∀ c, c ≠ BBLOCK sb b → t'.blocks c = t.blocks c) ∧
          ∀ i, (t'.blocks (BBLOCK sb b)).bit i =
              (decide (i ≠ b % BPB) && (t.blocks (BBLOCK sb b)).bit i) := by
  refine ⟨?_, fun b _ t => bfree_clears⟩
  have hwp := @wp_balloc sb s
  unfold wp at hwp
  cases hrun : balloc sb s with
  | error e s' =>
    rw [hrun] at hwp
    obtain ⟨x, hx, hclear⟩ := hfree
    rw [hwp.2.2 x hx] at hclear
    cases hclear
  | ok b s' =>
    rw [hrun] at hwp
    obtain ⟨hb, hclear, hfirst, rfl⟩ := hwp
    -- the block is none of the free map's
    have hne : ∀ x, x < sb.size → BBLOCK sb x ≠ b := by
      intro x hx he
      rw [← he, hmeta x hx] at hclear
      cases hclear
    have hbits : ∀ i, (takeBlock sb s.blocks b (BBLOCK sb b)).bit i =
        (decide (i = b % BPB) || (s.blocks (BBLOCK sb b)).bit i) := by
      intro i
      rw [takeBlock, update_of_ne (hne b hb), update_self]
      exact Block.bit_setBit lt_bits
    have hother : ∀ c, c ≠ b → c ≠ BBLOCK sb b → takeBlock sb s.blocks b c = s.blocks c := by
      intro c hc hmap
      rw [takeBlock, update_of_ne hc, update_of_ne hmap]
    have hmark : isUsed sb (takeBlock sb s.blocks b) b = true := by
      rw [isUsed, hbits, decide_eq_true rfl, Bool.true_or]
    obtain ⟨s'', hs'', -, hkeep, hcleared⟩ :=
      bfree_clears (s := { s with blocks := takeBlock sb s.blocks b }) hmark
    refine ⟨b, _, rfl, hb, hclear, hfirst, rfl, update_self .., hother, hbits, s'', hs'',
      fun x hx i => ?_⟩
    by_cases hx' : BBLOCK sb x = BBLOCK sb b
    · rw [hx', hcleared, hbits]
      by_cases hi : i = b % BPB
      · subst hi
        rw [decide_eq_false (not_not.mpr rfl), Bool.false_and]
        exact hclear.symm
      · rw [decide_eq_true hi, decide_eq_false hi, Bool.true_and, Bool.false_or]
    · rw [hkeep _ hx']
      exact congrArg (Block.bit · i) (hother _ (hne x hx) hx')

end Balloc

/-! ## The open inode -/

/-- The view during an operation on `ip`: its `addrs` are those in memory. -/
def viewOf (sb : Superblock) (ip : Fin NINODE) (s : Fs) : View :=
  update (diskView sb s.blocks) (s.itable ip).inum (some (s.itable ip).din.addrs)

/-- The block number in a slot of the open inode. -/
def slotVal (ip : Fin NINODE) (s : Fs) (t : Slot) : Nat := val s.blocks (s.itable ip).din.addrs t

/-- Ownership during an operation on `ip`. -/
structure Busy (sb : Superblock) (ip : Fin NINODE) (s : Fs) : Prop where
  owned : Owned sb s.blocks (viewOf sb ip s) []
  inum_lt : (s.itable ip).inum < sb.ninodes

/-- A free block, zeroed, goes into an empty slot of the open inode. -/
structure Fill (sb : Superblock) (ip : Fin NINODE) (t : Slot) (b : Nat) (s s' : Fs) : Prop where
  lt : b < sb.size
  fresh : isUsed sb s.blocks b = false
  empty : slotVal ip s t = 0
  used : ∀ x, x < sb.size → isUsed sb s'.blocks x = (decide (x = b) || isUsed sb s.blocks x)
  itable : s'.itable = update s.itable ip { s.itable ip with
    din := { (s.itable ip).din with addrs := (s'.itable ip).din.addrs } }
  inodes : ∀ i, i < sb.ninodes → s'.blocks (IBLOCK sb i) = s.blocks (IBLOCK sb i)
  vals : ∀ u, slotVal ip s' u = if u = t then b else slotVal ip s u
  new : s'.blocks b = Block.zero
  /-- Only pointer blocks of the inode are written. -/
  kept : ∀ x, sb.dstart ≤ x → x ≠ b → (∀ u, u.isIndex = true → slotVal ip s u ≠ x) →
    s'.blocks x = s.blocks x
  busy : Busy sb ip s'

/-- The steps of an operation on `ip` that fills slots of `T` and writes the
    data blocks in slots of `W`. -/
inductive Prim (sb : Superblock) (ip : Fin NINODE) (T W : Finset Slot) (s : Fs) : Fs → Prop where
  | fill {t : Slot} {b : Nat} {s' : Fs} : t ∈ T → Fill sb ip t b s s' → Prim sb ip T W s s'
  | data {t : Slot} (d : Block) : t ∈ W → t.isIndex = false → slotVal ip s t ≠ 0 →
      Prim sb ip T W s (s.setBlock (slotVal ip s t) d)

/-- Any number of steps. -/
abbrev Steps (sb : Superblock) (ip : Fin NINODE) (T W : Finset Slot) : Fs → Fs → Prop :=
  Relation.ReflTransGen (Prim sb ip T W)

variable {p : Slot} {j : Fin NINDIRECT} {k : Fin NADDR}

section Steps

variable {sb : Superblock} {ip : Fin NINODE} {s s' : Fs} {T T' W W' : Finset Slot} {t u : Slot}
  {b : Nat}

theorem diskView_congr {blocks blocks' : Nat → Block}
    (h : ∀ i, i < sb.ninodes → blocks' (IBLOCK sb i) = blocks (IBLOCK sb i)) :
    diskView sb blocks' = diskView sb blocks := by
  funext i
  unfold diskView
  by_cases hi : i < sb.ninodes
  · rw [dinode_congr (h i hi)]
  · rw [if_neg (fun hc => hi hc.1), if_neg (fun hc => hi hc.1)]

theorem viewOf_self : viewOf sb ip s (s.itable ip).inum = some (s.itable ip).din.addrs :=
  update_self ..

theorem Busy.range (h : Busy sb ip s) (ht : slotVal ip s t ≠ 0) :
    marked sb s.blocks (slotVal ip s t) :=
  h.owned.range viewOf_self ht

theorem Busy.unique (h : Busy sb ip s) (ht : slotVal ip s t ≠ 0)
    (he : slotVal ip s t = slotVal ip s u) : t = u :=
  (h.owned.unique viewOf_self viewOf_self ht he).2

theorem slotVal_child (hp : p.isIndex = true) (hc : slotVal ip s p ≠ 0) :
    slotVal ip s (p.child j) = (s.blocks (slotVal ip s p)).word j := by
  unfold slotVal at *
  rw [val_child hp]
  unfold entry
  rw [if_neg hc]

section

variable (hsb : sb.Ok) (h : Busy sb ip s)
include hsb h

/-- A data block of the inode can be written. -/
theorem Busy.data (d : Block) (ht : t.isIndex = false) (hne : slotVal ip s t ≠ 0) :
    Busy sb ip (s.setBlock (slotVal ip s t) d) ∧
    ∀ u, slotVal ip (s.setBlock (slotVal ip s t) d) u = slotVal ip s u := by
  have hds := (h.range hne).1
  have hin : ∀ i, i < sb.ninodes → update s.blocks (slotVal ip s t) d (IBLOCK sb i) =
      s.blocks (IBLOCK sb i) :=
    fun i hi => update_of_ne (by have := hsb.inode i hi; omega) _ _
  have hidx : ∀ i a u, viewOf sb ip s i = some a → u.isIndex = true → val s.blocks a u ≠ 0 →
      val s.blocks a u ≠ slotVal ip s t := by
    intro i a u hV hu hne' he
    obtain ⟨-, rfl⟩ := h.owned.unique hV viewOf_self hne' he
    rw [ht] at hu
    cases hu
  refine ⟨⟨?_, h.inum_lt⟩, ?_⟩
  · have := h.owned.write (c := slotVal ip s t) (d := d)
      (fun b hb => by have := hsb.bmap b hb; omega) hsb.dstart_le hidx
    unfold viewOf at this ⊢
    rwa [diskView_congr hin]
  · intro u
    exact val_congr (fun w hw hne' => update_of_ne (hidx _ _ w viewOf_self hw hne') _ _) u

variable (hb : b < sb.size) (hfree : isUsed sb s.blocks b = false)
include hb hfree

/-- `balloc` during an operation on `ip`. -/
theorem Busy.take :
    Owned sb (takeBlock sb s.blocks b) (viewOf sb ip s) [b] ∧
    (∀ i, i < sb.ninodes → takeBlock sb s.blocks b (IBLOCK sb i) = s.blocks (IBLOCK sb i)) ∧
    ∀ u, val (takeBlock sb s.blocks b) (s.itable ip).din.addrs u = slotVal ip s u := by
  have hds := h.owned.ge_of_free hfree
  refine ⟨h.owned.alloc hsb hb hfree, ?_, ?_⟩
  · intro i hi
    have := hsb.inode i hi
    unfold takeBlock
    rw [update_of_ne (by omega), update_of_ne (hsb.apart i b hi hb)]
  · intro u
    refine val_congr (fun w _ hne => ?_) u
    have hm := h.range (t := w) hne
    exact takeBlock_of_ne hsb hb hm.1 (hm.ne hfree)

/-- A block for an empty entry of `addrs`. -/
theorem fill_root
    (hk : (s.itable ip).din.addrs k = 0)
    (hbl : s'.blocks = takeBlock sb s.blocks b)
    (hit : s'.itable = update s.itable ip { s.itable ip with
      din := { (s.itable ip).din with addrs := update (s.itable ip).din.addrs k b } }) :
    Fill sb ip (rootSlot k) b s s' := by
  have hds := h.owned.ge_of_free hfree
  obtain ⟨hown, hin, hvals⟩ := h.take hsb hb hfree
  obtain ⟨hown', hval'⟩ := hown.hang_root hsb viewOf_self hk (update_self ..)
  have hself : s'.itable ip = { s.itable ip with
      din := { (s.itable ip).din with addrs := update (s.itable ip).din.addrs k b } } := by
    rw [hit, update_self]
  have hin' : ∀ i, i < sb.ninodes → s'.blocks (IBLOCK sb i) = s.blocks (IBLOCK sb i) := by
    rw [hbl]; exact hin
  refine ⟨hb, hfree, ?_, ?_, ?_, hin', ?_, ?_, ?_, ?_, ?_⟩
  · unfold slotVal
    rw [val_rootSlot, hk]
  · intro x hx
    rw [hbl, isUsed_takeBlock hsb hds hx]
  · rw [hself, hit]
  · intro u
    unfold slotVal
    rw [hself, hbl, hval']
    split
    · rfl
    · exact hvals u
  · rw [hbl]
    exact update_self ..
  · intro x hx hxb _
    rw [hbl, takeBlock_of_ne hsb hb hx hxb]
  · unfold viewOf
    rw [diskView_congr hin', hself, hbl]
    unfold viewOf at hown'
    rwa [update_idem] at hown'
  · rw [hself]
    exact h.inum_lt

/-- A block for an empty entry of a pointer block. -/
theorem fill_entry
    (hp : p.isIndex = true)
    (hc : slotVal ip s p ≠ 0) (hj : (s.blocks (slotVal ip s p)).word j = 0)
    (hbl : s'.blocks = update (takeBlock sb s.blocks b) (slotVal ip s p)
      ((takeBlock sb s.blocks b (slotVal ip s p)).setWord j b))
    (hit : s'.itable = s.itable) : Fill sb ip (p.child j) b s s' := by
  have hds := h.owned.ge_of_free hfree
  obtain ⟨hown, hin, hvals⟩ := h.take hsb hb hfree
  have hm := h.range hc
  have hcb := hm.ne hfree
  have hold : takeBlock sb s.blocks b (slotVal ip s p) = s.blocks (slotVal ip s p) :=
    takeBlock_of_ne hsb hb hm.1 hcb
  obtain ⟨hown', hval'⟩ := hown.hang_entry hsb (j := j) viewOf_self hp
    (by rw [hvals]; exact hc) (by rw [hvals, hold]; exact hj) (update_self ..)
    (show s'.blocks = _ by rw [hvals]; exact hbl)
  have hother : ∀ x, x ≠ slotVal ip s p → s'.blocks x = takeBlock sb s.blocks b x := by
    intro x hx
    rw [hbl, update_of_ne hx]
  have hin' : ∀ i, i < sb.ninodes → s'.blocks (IBLOCK sb i) = s.blocks (IBLOCK sb i) := by
    intro i hi
    rw [hother _ (by have := hsb.inode i hi; have := hm.1; omega), hin i hi]
  refine ⟨hb, hfree, ?_, ?_, ?_, hin', ?_, ?_, ?_, ?_, ?_⟩
  · rw [slotVal_child hp hc, hj]
  · intro x hx
    rw [hbl, isUsed_update (by have := hsb.bmap x hx; have := hm.1; omega),
      isUsed_takeBlock hsb hds hx]
  · rw [hit, update_eq_self]
  · intro u
    unfold slotVal
    rw [hit, hval']
    split
    · rfl
    · exact hvals u
  · rw [hother b hcb.symm]
    exact update_self ..
  · intro x hx hxb hidx
    rw [hother x (fun e => hidx p hp e.symm), takeBlock_of_ne hsb hb hx hxb]
  · unfold viewOf
    rw [diskView_congr hin', hit]
    exact hown'
  · rw [hit]
    exact h.inum_lt

end

/-! ### What steps keep -/

theorem Prim.busy (hsb : sb.Ok) (h : Busy sb ip s) (hp : Prim sb ip T W s s') : Busy sb ip s' := by
  cases hp with
  | fill _ hf => exact hf.busy
  | data d _ ht hne => exact (h.data hsb d ht hne).1

theorem Steps.busy (hsb : sb.Ok) (h : Busy sb ip s) (hp : Steps sb ip T W s s') :
    Busy sb ip s' := by
  induction hp with
  | refl => exact h
  | tail _ hq ih => exact hq.busy hsb ih

/-- Induction over the steps of an operation, all of them in busy states. -/
theorem Steps.induct {P : Fs → Prop} (hsb : sb.Ok) (h : Busy sb ip s) (hp : Steps sb ip T W s s')
    (h0 : P s) (hstep : ∀ x y, Busy sb ip x → Prim sb ip T W x y → P x → P y) : P s' := by
  induction hp with
  | refl => exact h0
  | tail hx hq ih => exact hstep _ _ (Steps.busy hsb h hx) hq ih

theorem Steps.mono (hT : T ⊆ T') (hW : W ⊆ W') (hp : Steps sb ip T W s s') :
    Steps sb ip T' W' s s' := by
  refine Relation.ReflTransGen.mono ?_ _ _ hp
  intro x y hq
  cases hq with
  | fill ht hf => exact .fill (hT ht) hf
  | data d hw ht hne => exact .data d (hW hw) ht hne

/-- Of the inode table only `ip->addrs` changes. -/
theorem Steps.itable (hp : Steps sb ip T W s s') :
    s'.itable = update s.itable ip { s.itable ip with
      din := { (s.itable ip).din with addrs := (s'.itable ip).din.addrs } } := by
  induction hp with
  | refl => rw [update_eq_self]
  | tail _ hq ih =>
    cases hq with
    | fill _ hf => rw [hf.itable, ih, update_idem]; simp
    | data d _ _ _ => exact ih

section

variable {i x : Nat} (hsb : sb.Ok) (h : Busy sb ip s) (hp : Steps sb ip T W s s')
include hsb h hp

/-- The on-disk inodes do not change. -/
theorem Steps.inodes (hi : i < sb.ninodes) : s'.blocks (IBLOCK sb i) = s.blocks (IBLOCK sb i) := by
  refine Steps.induct (P := fun x => x.blocks (IBLOCK sb i) = s.blocks (IBLOCK sb i)) hsb h hp
    rfl ?_
  intro x y hx hq ih
  cases hq with
  | fill _ hf => rw [hf.inodes i hi, ih]
  | data d _ ht hne =>
    have := hsb.inode i hi
    have := (hx.range hne).1
    show update x.blocks _ d (IBLOCK sb i) = _
    rw [update_of_ne (by omega), ih]

/-- A slot that is filled keeps its block. -/
theorem Steps.grow (ht : slotVal ip s t ≠ 0) : slotVal ip s' t = slotVal ip s t := by
  refine Steps.induct (P := fun x => slotVal ip x t = slotVal ip s t) hsb h hp rfl ?_
  intro x y hx hq ih
  cases hq with
  | fill _ hf => rw [hf.vals, if_neg (fun e => ht (by rw [← ih, e, hf.empty])), ih]
  | data d _ hd hne => rw [(hx.data hsb d hd hne).2, ih]

/-- Only the slots of `T` are filled. -/
theorem Steps.outside (ht : t ∉ T) : slotVal ip s' t = slotVal ip s t := by
  refine Steps.induct (P := fun x => slotVal ip x t = slotVal ip s t) hsb h hp rfl ?_
  intro x y hx hq ih
  cases hq with
  | @fill u _ _ hu hf =>
    have hne : t ≠ u := fun e => ht (e ▸ hu)
    rw [hf.vals, if_neg hne, ih]
  | data d _ hd hne => rw [(hx.data hsb d hd hne).2, ih]

/-- A block in use stays in use. -/
theorem Steps.used (hx : x < sb.size) (hu : isUsed sb s.blocks x = true) :
    isUsed sb s'.blocks x = true := by
  refine Steps.induct (P := fun y => isUsed sb y.blocks x = true) hsb h hp hu ?_
  intro y z hy hq ih
  cases hq with
  | fill _ hf => rw [hf.used x hx, ih, Bool.or_true]
  | data d _ hd hne =>
    have hB := hsb.bmap x hx
    have hds := (hy.range hne).1
    exact (isUsed_update (by omega)).trans ih

/-- A block in use that is not the inode's stays as it is. -/
theorem Steps.kept (hx : marked sb s.blocks x) (hno : ∀ u, slotVal ip s u ≠ x) :
    s'.blocks x = s.blocks x ∧ marked sb s'.blocks x ∧ ∀ u, slotVal ip s' u ≠ x := by
  refine Steps.induct (P := fun y => y.blocks x = s.blocks x ∧ marked sb y.blocks x ∧
    ∀ u, slotVal ip y u ≠ x) hsb h hp ⟨rfl, hx, hno⟩ ?_
  rintro y z hy hq ⟨ih1, ih2, ih3⟩
  cases hq with
  | fill ht hf =>
    have hxb := ih2.ne hf.fresh
    refine ⟨(hf.kept x ih2.1 hxb fun u _ => ih3 u).trans ih1, ⟨ih2.1, ih2.2.1, ?_⟩, ?_⟩
    · rw [hf.used x ih2.2.1, ih2.2.2, Bool.or_true]
    · intro u
      rw [hf.vals]
      split
      · exact hxb.symm
      · exact ih3 u
  | data d _ hd hne =>
    have hB := hsb.bmap x ih2.2.1
    have hds := (hy.range hne).1
    refine ⟨(update_of_ne (ih3 _).symm _ _).trans ih1, ⟨ih2.1, ih2.2.1, ?_⟩, ?_⟩
    · exact (isUsed_update (by omega)).trans ih2.2.2
    · intro u
      rw [(hy.data hsb d hd hne).2]
      exact ih3 u

end

end Steps

/-! ## `bmap` -/

/-- The slot of block `bn` of a file. -/
def leaf (bn : Nat) : Slot :=
  if h : bn < NDIRECT then .direct ⟨bn, h⟩
  else if h : bn - NDIRECT < NINDIRECT then .indE ⟨bn - NDIRECT, h⟩
  else .dblEE ⟨(bn - NDIRECT - NINDIRECT) / NINDIRECT % NINDIRECT, Nat.mod_lt _ (by decide)⟩
    ⟨(bn - NDIRECT - NINDIRECT) % NINDIRECT, Nat.mod_lt _ (by decide)⟩

/-- The slots on the way to a slot, itself included. -/
def Slot.path : Slot → Finset Slot
  | .indE j => {.ind, .indE j}
  | .dblE j => {.dbl, .dblE j}
  | .dblEE j k => {.dbl, .dblE j, .dblEE j k}
  | s => {s}

/-- The run stopped because the disk is full while a slot of `T` is empty. -/
def Full (sb : Superblock) (ip : Fin NINODE) (T W : Finset Slot) (s : Fs) (e : Stop) (s' : Fs) :
    Prop :=
  e = outOfBlocks ∧ Steps sb ip T W s s' ∧ (∃ t ∈ T, slotVal ip s' t = 0) ∧
    ∀ x, x < sb.size → isUsed sb s'.blocks x = true

section Bmap

variable {sb : Superblock} {ip : Fin NINODE} {s s' : Fs} {T T' W W' : Finset Slot} {t : Slot}

/-- Stopping later in a run. -/
theorem Full.of_steps {e : Stop} {s'' : Fs} (hp : Steps sb ip T W s s')
    (h : Full sb ip T W s' e s'') : Full sb ip T W s e s'' :=
  ⟨h.1, hp.trans h.2.1, h.2.2⟩

theorem rootSlot_ind : rootSlot 11 = .ind := rfl

theorem rootSlot_dbl : rootSlot 12 = .dbl := rfl

theorem wp_rootEntry (hsb : sb.Ok) (h : Busy sb ip s) (hT : rootSlot k ∈ T) :
    wp (rootEntry sb ip k)
      (fun b s' => Steps sb ip T W s s' ∧ slotVal ip s' (rootSlot k) = b ∧ b ≠ 0)
      (Full sb ip T W s) s := by
  rw [rootEntry, wp_bind, wp_get]
  split
  · next hk =>
    rw [wp_bind]
    refine wp_balloc.mono ?_ ?_
    · rintro b _ ⟨hb, hfree, -, rfl⟩
      have hf : Fill sb ip (rootSlot k) b s { s with
          blocks := takeBlock sb s.blocks b
          itable := update s.itable ip { s.itable ip with
            din := { (s.itable ip).din with addrs := update (s.itable ip).din.addrs k b } } } :=
        fill_root hsb h hb hfree hk rfl rfl
      refine ⟨.single (.fill hT hf), ?_, ?_⟩
      · rw [hf.vals, if_pos rfl]
      · have := h.owned.ge_of_free hfree
        have := hsb.dstart_pos
        omega
    · rintro e _ ⟨rfl, rfl, hfull⟩
      exact ⟨rfl, .refl, ⟨_, hT, by unfold slotVal; rw [val_rootSlot, hk]⟩, hfull⟩
  · next hk => exact ⟨.refl, val_rootSlot k, hk⟩

theorem wp_blockEntry (hsb : sb.Ok) (h : Busy sb ip s) {c i : Nat} (hp : p.isIndex = true)
    (hpc : slotVal ip s p = c) (hc : c ≠ 0) (hi : i = j.val) (hT : p.child j ∈ T) :
    wp (blockEntry sb c i)
      (fun b s' => Steps sb ip T W s s' ∧ slotVal ip s' (p.child j) = b ∧ b ≠ 0)
      (Full sb ip T W s) s := by
  subst hpc hi
  rw [blockEntry, wp_bind, wp_bread]
  split
  · next hj =>
    rw [wp_bind]
    refine wp_balloc.mono ?_ ?_
    · rintro b _ ⟨hb, hfree, -, rfl⟩
      have hf : Fill sb ip (p.child j) b s { s with
          blocks := update (takeBlock sb s.blocks b) (slotVal ip s p)
            ((takeBlock sb s.blocks b (slotVal ip s p)).setWord j b) } :=
        fill_entry hsb h hb hfree hp hc hj rfl rfl
      refine ⟨.single (.fill hT hf), ?_, ?_⟩
      · rw [hf.vals, if_pos rfl]
      · have := h.owned.ge_of_free hfree
        have := hsb.dstart_pos
        omega
    · rintro e _ ⟨rfl, rfl, hfull⟩
      exact ⟨rfl, .refl, ⟨_, hT, by rw [slotVal_child hp hc, hj]⟩, hfull⟩
  · next hj => exact ⟨.refl, slotVal_child hp hc, hj⟩

/-- A step of the walk after steps that were taken. -/
theorem wp_after {α : Type} {x : FsM α} {Q : α → Fs → Prop} (hp : Steps sb ip T W s s')
    (h : wp x (fun b s'' => Steps sb ip T W s' s'' ∧ Q b s'') (Full sb ip T W s') s') :
    wp x (fun b s'' => Steps sb ip T W s s'' ∧ Q b s'') (Full sb ip T W s) s' :=
  h.mono (fun _ _ hb => ⟨hp.trans hb.1, hb.2⟩) fun _ _ he => .of_steps hp he

/-- `bmap` finds the block of a file's block number, filling the slots on the
    way to it. -/
theorem wp_bmap (hsb : sb.Ok) (h : Busy sb ip s) {bn : Nat} (hbn : bn < MAXFILE)
    (hT : (leaf bn).path ⊆ T) :
    wp (bmap sb ip bn) (fun b s' => Steps sb ip T W s s' ∧ slotVal ip s' (leaf bn) = b ∧ b ≠ 0)
      (Full sb ip T W s) s := by
  rw [MAXFILE_eq] at hbn
  unfold bmap leaf at *
  split
  · next hd =>
    rw [dif_pos hd] at hT
    have hroot : ∀ hk, rootSlot ⟨bn, hk⟩ = .direct ⟨bn, hd⟩ := fun hk => dif_pos hd
    have := wp_rootEntry (T := T) (W := W) hsb h (k := ⟨bn, lt_NADDR hd⟩)
      (by rw [hroot]; exact hT (Finset.mem_singleton_self _))
    rwa [hroot] at this
  · next hd =>
    rw [dif_neg hd] at hT
    dsimp only
    split
    · next hi =>
      rw [dif_pos hi] at hT
      rw [wp_bind]
      have hr :=
        wp_rootEntry (T := T) (W := W) hsb h (k := 11) (hT (by simp [Slot.path, rootSlot_ind]))
      refine hr.post ?_
      rintro c s1 ⟨hs1, hc, hc0⟩
      exact wp_after hs1 (wp_blockEntry hsb (Steps.busy hsb h hs1) (p := .ind)
        (j := ⟨bn - NDIRECT, hi⟩) rfl hc hc0 rfl (hT (by simp [Slot.path, Slot.child])))
    · next hi =>
      rw [dif_neg hi] at hT
      rw [NDIRECT_eq, NINDIRECT_eq] at hi
      rw [if_pos (by rw [NDIRECT_eq, NINDIRECT_eq, NINDIRECT_SEC_eq]; omega), wp_bind]
      have hdiv : (bn - NDIRECT - NINDIRECT) / NINDIRECT % NINDIRECT =
          (bn - NDIRECT - NINDIRECT) / NINDIRECT := by
        rw [NDIRECT_eq, NINDIRECT_eq]; omega
      have hr :=
        wp_rootEntry (T := T) (W := W) hsb h (k := 12) (hT (by simp [Slot.path, rootSlot_dbl]))
      refine hr.post ?_
      rintro c s1 ⟨hs1, hc, hc0⟩
      rw [wp_bind]
      have h1 := Steps.busy hsb h hs1
      have hm := wp_after hs1 (wp_blockEntry (T := T) (W := W) hsb h1 (p := .dbl)
        (j := ⟨(bn - NDIRECT - NINDIRECT) / NINDIRECT % NINDIRECT, Nat.mod_lt _ (by decide)⟩)
        rfl hc hc0 hdiv.symm (hT (by simp [Slot.path, Slot.child])))
      refine hm.post ?_
      rintro c2 s2 ⟨hs2, hc2, hc20⟩
      exact wp_after hs2 (wp_blockEntry hsb (Steps.busy hsb h hs2) rfl hc2 hc20 rfl
        (hT (by simp [Slot.path, Slot.child])))

end Bmap

end NoviceKernel.FS
