import Mathlib.Data.Finset.Card
import Mathlib.Order.Interval.Finset.Nat
import NoviceKernel.FsAlloc

/-! # File contents under `writei` and `readi`

    `fileByte` reads a byte of the open inode through its slots.  Filling a slot
    does not change it, since the block is zeroed and an unmapped block reads as
    zero; writing a data block changes the bytes of that block. -/

namespace NoviceKernel.FS

open Hoare Finset Steps

/-- Byte `o` of the open inode; zero where no block is mapped. -/
def fileByte (ip : Fin NINODE) (s : Fs) (o : Nat) : UInt8 :=
  if slotVal ip s (leaf (o / BSIZE)) = 0 then 0
  else (s.blocks (slotVal ip s (leaf (o / BSIZE)))).byte (o % BSIZE)

/-- The slots that a write to bytes `[off, off + n)` needs. -/
def pathSlots (off n : Nat) : Finset Slot :=
  (Finset.Ico off (off + n)).biUnion fun o => (leaf (o / BSIZE)).path

/-- The data blocks that a write to bytes `[off, off + n)` changes. -/
def dataSlots (off n : Nat) : Finset Slot :=
  (Finset.Ico off (off + n)).image fun o => leaf (o / BSIZE)

/-- Number of free blocks. -/
def free (sb : Superblock) (s : Fs) : Nat :=
  ((Finset.range sb.size).filter fun b => isUsed sb s.blocks b = false).card

/-- There are enough free blocks for the empty slots among `T`. -/
def Room (sb : Superblock) (ip : Fin NINODE) (T : Finset Slot) (s : Fs) : Prop :=
  (T.filter fun t => slotVal ip s t = 0).card ≤ free sb s

/-! ## Slots of data blocks -/

theorem leaf_isIndex (bn : Nat) : (leaf bn).isIndex = false := by
  unfold leaf
  split
  · rfl
  · split <;> rfl

theorem mem_path_self (t : Slot) : t ∈ t.path := by
  cases t <;> simp [Slot.path]

/-- The block number of a file that a slot holds. -/
def Slot.number : Slot → Nat
  | .direct k => k
  | .indE j => NDIRECT + j
  | .dblEE j k => NDIRECT + NINDIRECT + (NINDIRECT * j + k)
  | _ => 0

theorem number_leaf {bn : Nat} (h : bn < MAXFILE) : (leaf bn).number = bn := by
  rw [MAXFILE_eq] at h
  unfold leaf
  split
  · rfl
  · next h1 =>
    split <;> simp only [Slot.number] <;> rw [NDIRECT_eq, NINDIRECT_eq] at * <;> omega

theorem leaf_inj {bn bn' : Nat} (h : bn < MAXFILE) (h' : bn' < MAXFILE) (he : leaf bn = leaf bn') :
    bn = bn' := by
  rw [← number_leaf h, he, number_leaf h']

section Contents

variable {sb : Superblock} {ip : Fin NINODE} {s s' : Fs} {T W : Finset Slot} {t : Slot} {o : Nat}
  {b : Nat} {u : Slot}

/-- A block is mapped only if the pointer blocks on its way are. -/
theorem val_path_ne_zero {blocks : Nat → Block} {a : Fin NADDR → Nat}
    (h : val blocks a (leaf o) ≠ 0) (hu : u ∈ (leaf o).path) : val blocks a u ≠ 0 := by
  have hparent : ∀ c j, entry blocks c j ≠ 0 → c ≠ 0 := fun c j hne hc => hne (entry_zero c j hc)
  generalize leaf o = t at h hu
  cases t with
  | direct _ | ind | dbl =>
    rw [mem_singleton.mp hu]
    exact h
  | indE j =>
    rcases mem_insert.mp hu with rfl | hu
    · exact hparent _ _ h
    · rw [mem_singleton.mp hu]
      exact h
  | dblE j =>
    rcases mem_insert.mp hu with rfl | hu
    · exact hparent _ _ h
    · rw [mem_singleton.mp hu]
      exact h
  | dblEE j k =>
    have h1 : val blocks a (.dblE j) ≠ 0 := hparent _ _ h
    rcases mem_insert.mp hu with rfl | hu
    · exact hparent _ _ h1
    · rcases mem_insert.mp hu with rfl | hu
      · exact h1
      · rw [mem_singleton.mp hu]
        exact h

theorem path_ne_zero (h : slotVal ip s (leaf o) ≠ 0) (hu : u ∈ (leaf o).path) :
    slotVal ip s u ≠ 0 :=
  val_path_ne_zero h hu

/-! ## What steps do to the contents -/

theorem Fill.fileByte (h : Busy sb ip s) (hf : Fill sb ip t b s s') :
    FS.fileByte ip s' o = FS.fileByte ip s o := by
  unfold FS.fileByte
  rw [hf.vals]
  by_cases ht : leaf (o / BSIZE) = t
  · rw [if_pos ht, ht, hf.empty, if_pos rfl, hf.new]
    split <;> rfl
  · rw [if_neg ht]
    split
    · rfl
    · next hne =>
      -- a data block of the inode: neither the new block nor a pointer block
      have hm := h.range hne
      rw [hf.kept _ hm.1 (hm.ne hf.fresh)]
      intro u hu he
      have := h.unique hne he.symm
      rw [← this, leaf_isIndex] at hu
      cases hu

theorem data_fileByte (hsb : sb.Ok) (h : Busy sb ip s) {d : Block} {bn : Nat}
    (hne : slotVal ip s (leaf bn) ≠ 0) (hbn : bn < MAXFILE) (ho : o / BSIZE < MAXFILE) :
    fileByte ip (s.setBlock (slotVal ip s (leaf bn)) d) o =
      if o / BSIZE = bn then d.byte (o % BSIZE) else fileByte ip s o := by
  have hvals := (h.data hsb d (leaf_isIndex bn) hne).2
  unfold fileByte
  rw [hvals]
  by_cases hob : o / BSIZE = bn
  · rw [if_pos hob, hob, if_neg hne]
    simp
  · rw [if_neg hob]
    split
    · rfl
    · next hne' =>
      have hdiff : slotVal ip s (leaf (o / BSIZE)) ≠ slotVal ip s (leaf bn) :=
        fun he => hob (leaf_inj ho hbn (h.unique hne' he))
      simp [hdiff]

/-- Only the bytes of written blocks change. -/
theorem Steps.fileByte (hsb : sb.Ok) (h : Busy sb ip s) (hp : Steps sb ip T W s s')
    (ho : leaf (o / BSIZE) ∉ W) : FS.fileByte ip s' o = FS.fileByte ip s o := by
  refine Steps.induct (P := fun x => FS.fileByte ip x o = FS.fileByte ip s o) hsb h hp rfl ?_
  intro x y hx hq ih
  cases hq with
  | fill _ hf => rw [hf.fileByte hx, ih]
  | @data t d hw ht hne =>
    have hdiff : leaf (o / BSIZE) ≠ t := fun e => ho (e ▸ hw)
    rw [← ih]
    unfold FS.fileByte
    rw [(hx.data hsb d ht hne).2]
    split
    · rfl
    · next hne' =>
      have hvd : slotVal ip x (leaf (o / BSIZE)) ≠ slotVal ip x t :=
        fun he => hdiff (hx.unique hne' he)
      simp [hvd]

/-! ## Free blocks -/

theorem Fill.free (hf : Fill sb ip t b s s') : free sb s' + 1 = FS.free sb s := by
  have hins : (range sb.size).filter (fun x => isUsed sb s.blocks x = false) =
      insert b ((range sb.size).filter fun x => isUsed sb s'.blocks x = false) := by
    ext x
    simp only [mem_filter, mem_range, mem_insert]
    constructor
    · rintro ⟨hx, hu⟩
      by_cases hxb : x = b
      · exact .inl hxb
      · exact .inr ⟨hx, by rw [hf.used x hx, decide_eq_false hxb, hu]; rfl⟩
    · rintro (rfl | ⟨hx, hu⟩)
      · exact ⟨hf.lt, hf.fresh⟩
      · rw [hf.used x hx, Bool.or_eq_false_iff] at hu
        exact ⟨hx, hu.2⟩
  unfold FS.free
  rw [hins, card_insert_of_notMem]
  intro hb
  have hu := (mem_filter.mp hb).2
  rw [hf.used b hf.lt, decide_eq_true rfl] at hu
  cases hu

theorem Fill.missing (hb : b ≠ 0) (ht : t ∈ T) (hf : Fill sb ip t b s s') :
    (T.filter fun u => slotVal ip s' u = 0).card + 1 =
      (T.filter fun u => slotVal ip s u = 0).card := by
  have hins : T.filter (fun u => slotVal ip s u = 0) =
      insert t (T.filter fun u => slotVal ip s' u = 0) := by
    ext u
    simp only [mem_filter, mem_insert, hf.vals]
    by_cases hu : u = t
    · subst hu
      simp [ht, hf.empty]
    · simp [hu]
  rw [hins, card_insert_of_notMem]
  intro hm
  have := (mem_filter.mp hm).2
  rw [hf.vals, if_pos rfl] at this
  exact hb this

/-- Every allocation uses up one free block and one of the missing slots. -/
theorem Steps.room (hsb : sb.Ok) (h : Busy sb ip s) (hp : Steps sb ip T W s s')
    (hr : Room sb ip T s) : Room sb ip T s' := by
  refine induct (P := Room sb ip T) hsb h hp hr ?_
  intro x y hx hq ih
  unfold Room at ih ⊢
  cases hq with
  | @fill t b _ ht hf =>
    have hb : b ≠ 0 := by
      have := hx.owned.ge_of_free hf.fresh
      have := hsb.dstart_pos
      omega
    have := hf.free
    have := hf.missing hb ht
    omega
  | @data t d _ hd hne =>
    have hfree : FS.free sb (x.setBlock (slotVal ip x t) d) =
        FS.free sb x := by
      unfold FS.free
      congr 1
      apply filter_congr
      intro b hb
      have := hsb.bmap b (mem_range.mp hb)
      have := (hx.range hne).1
      rw [isUsed_update (by omega)]
    rw [hfree]
    simp only [(hx.data hsb d hd hne).2]
    exact ih

end Contents

/-! ## The loop of `writei` -/

/-- All copies from `src` on succeed and bring the bytes `data`. -/
def Delivers (cp : Copyin) (src n : Nat) (data : Nat → UInt8) : Prop :=
  ∀ i m, i + m ≤ n →
    cp.run ((src + i) % 2 ^ 64) m = ((List.range m).map fun x => data (i + x), true)

/-- What the loop of `writei` has done when it ends with `(tot', off')`, from
    `tot` bytes already written at `off` on. -/
structure Wrote (sb : Superblock) (cp : Copyin) (ip : Fin NINODE) (T W : Finset Slot)
  (off n tot src : Nat)
    (s : Fs) (r : Nat × Nat) (s' : Fs) : Prop where
  steps : Steps sb ip T W s s'
  tot_le : tot ≤ r.1
  le_n : r.1 ≤ n
  off_eq : r.2 = off + r.1
  /-- What counts as written is mapped. -/
  mapped : ∀ o, off + tot ≤ o → o < off + r.1 → slotVal ip s' (leaf (o / BSIZE)) ≠ 0
  outside : ∀ o, o / BSIZE < MAXFILE → o < off + tot ∨ off + n ≤ o →
    fileByte ip s' o = fileByte ip s o
  data : ∀ data src₀, src = (src₀ + tot) % 2 ^ 64 → Delivers cp src₀ n data →
    r.1 = n ∧ ∀ o, off + tot ≤ o → o < off + n → fileByte ip s' o = data (o - off)

section WriteLoop

variable {sb : Superblock} {cp : Copyin} {ip : Fin NINODE} {s : Fs} {T W : Finset Slot}
  {off n : Nat} {o : Nat}

theorem path_subset (hT : pathSlots off n ⊆ T) (h1 : off ≤ o) (h2 : o < off + n) :
    (leaf (o / BSIZE)).path ⊆ T := by
  refine Finset.Subset.trans ?_ hT
  exact subset_biUnion_of_mem (fun o => (leaf (o / BSIZE)).path)
    (mem_Ico.mpr ⟨h1, h2⟩)

theorem leaf_mem (hW : dataSlots off n ⊆ W) (h1 : off ≤ o) (h2 : o < off + n) :
    leaf (o / BSIZE) ∈ W :=
  hW (mem_image_of_mem (fun o => leaf (o / BSIZE)) (mem_Ico.mpr ⟨h1, h2⟩))

/-- The bytes after copying `bs` into the block of byte `a`. -/
theorem copy_fileByte (hsb : sb.Ok) (h : Busy sb ip s) {a : Nat} {bs : List UInt8}
    (hne : slotVal ip s (leaf (a / BSIZE)) ≠ 0) (ha : a / BSIZE < MAXFILE)
    (hbs : a % BSIZE + bs.length ≤ BSIZE) (ho : o / BSIZE < MAXFILE) :
    fileByte ip (s.setBlock (slotVal ip s (leaf (a / BSIZE)))
      ((s.blocks (slotVal ip s (leaf (a / BSIZE)))).copy (a % BSIZE) bs)) o =
      if a ≤ o ∧ o < a + bs.length then bs.getD (o - a) 0 else fileByte ip s o := by
  rw [data_fileByte hsb h hne ha ho, Block.byte_copy hbs]
  rw [BSIZE_eq] at *
  by_cases hob : o / 1024 = a / 1024
  · rw [if_pos hob]
    by_cases hin : a ≤ o ∧ o < a + bs.length
    · rw [if_pos hin, if_pos (by omega)]
      congr 1
      omega
    · rw [if_neg hin, if_neg (by omega)]
      unfold fileByte
      rw [BSIZE_eq, hob, if_neg hne]
  · rw [if_neg hob, if_neg (by omega)]

theorem writei_loop_done (k off src : Nat) :
    writei_loop sb cp ip n k n off src = pure (n, off) := by
  cases k with
  | zero => rfl
  | succ k => exact if_neg (Nat.lt_irrefl n)

/-- **One round of the loop**: the block is mapped, and holds what was copied. -/
theorem wp_writei_round {k tot src m : Nat} {Q : Nat × Nat → Fs → Prop} {E : Stop → Fs → Prop}
    (hsb : sb.Ok) (h : Busy sb ip s) (hlt : tot < n) (hmax : off + n ≤ MAXFILE * BSIZE)
    (hT : pathSlots off n ⊆ T) (hW : dataSlots off n ⊆ W)
    (hm : m = min (n - tot) (BSIZE - (off + tot) % BSIZE))
    (hfull : ∀ e s', Full sb ip T W s e s' → E e s')
    (hnext : ∀ s2, Steps sb ip T W s s2 → slotVal ip s2 (leaf ((off + tot) / BSIZE)) ≠ 0 →
      (∀ o, o / BSIZE < MAXFILE →
        fileByte ip s2 o =
          if off + tot ≤ o ∧ o < off + tot + (cp.run src m).1.length
            then (cp.run src m).1.getD (o - (off + tot)) 0 else fileByte ip s o) →
      wp (if (cp.run src m).2
          then writei_loop sb cp ip n k (tot + m) (off + (tot + m)) ((src + m) % 2 ^ 64)
          else pure (tot, off + tot)) Q E s2) :
    wp (writei_loop sb cp ip n (k + 1) tot (off + tot) src) Q E s := by
  have hB : 0 < BSIZE := by decide
  have hbn : (off + tot) / BSIZE < MAXFILE := by
    rw [Nat.div_lt_iff_lt_mul hB]; omega
  have hmod : (off + tot) % BSIZE < BSIZE := Nat.mod_lt _ hB
  have hlen := cp.len src m
  rw [writei_loop, if_pos hlt, wp_bind]
  have hmap := wp_bmap (T := T) (W := ∅) hsb h hbn (path_subset hT (by omega) (by omega))
  refine hmap.mono ?_ fun e s' he =>
    hfull e s' ⟨he.1, Steps.mono (Finset.Subset.refl _) (empty_subset _) he.2.1, he.2.2⟩
  rintro b s1 ⟨hs1, rfl, hne⟩
  have h1 := Steps.busy hsb h hs1
  rw [wp_bind, wp_bread]
  dsimp only
  rw [← hm, wp_bind, wp_writeBlock, Nat.add_assoc]
  refine hnext _ ((Steps.mono (Finset.Subset.refl _) (empty_subset _) hs1).tail
    (.data _ (leaf_mem hW (by omega) (by omega)) (leaf_isIndex _) hne)) ?_ fun o ho => ?_
  · rw [(h1.data hsb _ (leaf_isIndex _) hne).2]
    exact hne
  · rw [copy_fileByte hsb h1 hne hbn (by omega) ho, Steps.fileByte hsb h hs1 (notMem_empty _)]

theorem Wrote.done {src : Nat} : Wrote sb cp ip T W off n n src s (n, off + n) s where
  steps := .refl
  tot_le := Nat.le_refl n
  le_n := Nat.le_refl n
  off_eq := rfl
  mapped := fun o h1 h2 => absurd h2 (by omega)
  outside := fun _ _ _ => rfl
  data := fun _ _ _ _ => ⟨rfl, fun o h1 h2 => absurd h2 (by omega)⟩

theorem wp_writei_loop (hsb : sb.Ok) {k tot src : Nat} (h : Busy sb ip s) (hk : n - tot ≤ k)
    (htot : tot ≤ n) (hmax : off + n ≤ MAXFILE * BSIZE) (hT : pathSlots off n ⊆ T)
    (hW : dataSlots off n ⊆ W) :
    wp (writei_loop sb cp ip n k tot (off + tot) src)
      (Wrote sb cp ip T W off n tot src s) (Full sb ip T W s) s := by
  induction k generalizing tot src s with
  | zero =>
    obtain rfl : tot = n := by omega
    exact .done
  | succ k ih =>
    rcases Nat.eq_or_lt_of_le htot with rfl | hlt
    · rw [writei_loop_done]
      exact .done
    generalize hm : min (n - tot) (BSIZE - (off + tot) % BSIZE) = m
    refine wp_writei_round hsb h hlt hmax hT hW hm.symm (fun _ _ he => he) ?_
    intro s2 hstep hleaf hcopy
    have hmod : (off + tot) % BSIZE < BSIZE := Nat.mod_lt _ (by decide)
    have hlen := cp.len src m
    split
    case isFalse hfail =>
      refine ⟨hstep, Nat.le_refl _, htot, rfl, fun o h1 h2 => absurd h2 (by omega), ?_, ?_⟩
      · intro o ho hout
        rw [hcopy o ho, if_neg (by omega)]
      · intro data src0 hsrc hdel
        rw [hsrc, hdel tot m (by omega)] at hfail
        exact absurd rfl hfail
    case isTrue hok =>
      have hlen' := cp.full src m hok
      have h₂ := Steps.busy hsb h hstep
      refine (ih h₂ (by omega) (by omega)).mono ?_ fun _ _ he => .of_steps hstep he
      intro r s' hw
      have hlt' := hw.tot_le
      refine ⟨hstep.trans hw.steps, by omega, hw.le_n, hw.off_eq, ?_, ?_, ?_⟩
      · intro o h1 h2
        by_cases ho : o < off + tot + m
        · -- the block of this round
          have hob : o / BSIZE = (off + tot) / BSIZE := by
            rw [BSIZE_eq] at *; omega
          rw [hob, Steps.grow hsb h₂ hw.steps hleaf]
          exact hleaf
        · exact hw.mapped o (by omega) h2
      · intro o ho hout
        rw [hw.outside o ho (by omega), hcopy o ho, if_neg (by omega)]
      · intro data src0 hsrc hdel
        obtain ⟨hr, hbytes⟩ := hw.data data src0 (by rw [hsrc]; omega) hdel
        refine ⟨hr, fun o h1 h2 => ?_⟩
        by_cases ho : o < off + tot + m
        · have hob : o / BSIZE < MAXFILE := by
            rw [Nat.div_lt_iff_lt_mul (by decide)]; omega
          rw [hw.outside o hob (by omega), hcopy o hob, if_pos (by omega), hsrc,
            hdel tot m (by omega)]
          simp only [List.getD_eq_getElem?_getD, List.getElem?_map]
          rw [List.getElem?_range (by omega)]
          show data (tot + (o - (off + tot))) = data (o - off)
          congr 1
          omega
        · exact hbytes o (by omega) h2

end WriteLoop

end NoviceKernel.FS
