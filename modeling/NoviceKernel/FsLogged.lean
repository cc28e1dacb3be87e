import NoviceKernel.FsTrunc
import NoviceKernel.FsTx

/-! # What a write logs

    1. **Blocks added to the log**: `Adds L` says that exactly the blocks of `L`
       were logged and that no other buffer changed.
    2. **Slots**: a call that walks the slots `T` and writes the data blocks of `W`
       logs the new blocks, their bits, the pointer blocks above them and the
       data blocks (`touched`).
    3. **The functions**: `balloc`, `bmap` and the loop of `writei`. -/

namespace NoviceKernel.FS

open Hoare Function Finset

namespace Tx

/-! ## 1. Blocks added to the log -/

/-- The blocks of `L` were logged and no other buffer changed. -/
structure Adds (L : Finset Nat) (s s' : Tx) : Prop where
  disk : s'.disk = s.disk
  outstanding : s'.outstanding = s.outstanding
  logged : ∀ b, b ∈ s'.logged ↔ b ∈ s.logged ∨ b ∈ L
  passed : ∀ b, b ∈ s'.passed ↔ b ∈ s.passed ∨ b ∈ L
  nodup : s.passed.Nodup → s'.passed.Nodup
  buf : ∀ b, b ∉ L → s'.buf b = s.buf b

/-- The inode in memory replaced. -/
def setDin (s : Tx) (ip : Fin NINODE) (y : Dinode) : Tx :=
  { s with itable := update s.itable ip { s.itable ip with din := y } }

theorem setDin_entry (s : Tx) (ip : Fin NINODE) (y : Dinode) :
    (s.setDin ip y).itable ip = { s.itable ip with din := y } :=
  Function.update_self ..

theorem mem_absorb {l : List Nat} {b c : Nat} : c ∈ absorb l b ↔ c ∈ l ∨ c = b := by
  unfold absorb
  split
  · next h =>
    constructor
    · exact .inl
    · rintro (hc | rfl)
      · exact hc
      · exact h
  · simp

theorem nodup_absorb {l : List Nat} {b : Nat} (h : l.Nodup) : (absorb l b).Nodup := by
  unfold absorb
  split
  · exact h
  · next hb =>
    rw [List.nodup_append]
    refine ⟨h, List.nodup_singleton b, fun x hx y hy => ?_⟩
    rw [List.mem_singleton.mp hy]
    intro he
    exact hb (he ▸ hx)

namespace Adds

variable {L L' : Finset Nat} {s s' s'' : Tx}

theorem refl (s : Tx) : Adds ∅ s s where
  disk := rfl
  outstanding := rfl
  logged := by simp
  passed := by simp
  nodup := fun h => h
  buf := fun _ _ => rfl

theorem setDin (s : Tx) (ip : Fin NINODE) (y : Dinode) : Adds ∅ s (s.setDin ip y) :=
  ⟨rfl, rfl, by simp [Tx.setDin], by simp [Tx.setDin], fun h => h, fun _ _ => rfl⟩

variable (h : Adds L s s')
include h

theorem trans (h' : Adds L' s' s'') : Adds (L ∪ L') s s'' where
  disk := h'.disk.trans h.disk
  outstanding := h'.outstanding.trans h.outstanding
  logged := fun b => by rw [h'.logged, h.logged, mem_union, or_assoc]
  passed := fun b => by rw [h'.passed, h.passed, mem_union, or_assoc]
  nodup := fun hn => h'.nodup (h.nodup hn)
  buf := fun b hb => by
    rw [mem_union, not_or] at hb
    rw [h'.buf b hb.2, h.buf b hb.1]

/-- The same set, written differently. -/
theorem congr (he : L = L') : Adds L' s s' := he ▸ h

/-- A block that was not logged looks as before. -/
theorem view {b : Nat} (hb : b ∉ L) : s'.view.blocks b = s.view.blocks b := by
  show (s'.buf b).getD (s'.disk b) = (s.buf b).getD (s.disk b)
  rw [h.buf b hb, h.disk]

/-- A block that is not in the log at the end is as it was. -/
theorem kept {b : Nat} (hb : b ∉ s'.logged) : b ∉ L ∧ b ∉ s.logged := by
  rw [h.logged, not_or] at hb
  exact hb.symm

end Adds

section

variable {sb : Superblock} {ip : Fin NINODE} {s s' : Tx} {E : Stop → Tx → Prop} {b : Nat}

theorem wp_modifyDin {f : Dinode → Dinode} {Q : Unit → Tx → Prop} :
    wp (modifyDin ip f) Q E s ↔ Q () (s.setDin ip (f (s.itable ip).din)) := Iff.rfl

theorem wp_bread {Q : Block → Tx → Prop} : wp (bread b) Q E s ↔ Q (s.view.blocks b) s := Iff.rfl

theorem wp_writeBlock {d : Block} (hs : 0 < s.outstanding) :
    wp (writeBlock b d) (fun _ s' => Adds {b} s s' ∧ s'.view = s.view.setBlock b d) E s := by
  unfold writeBlock fill log_write
  rw [wp_bind, wp_modify, wp_bind, wp_get, if_neg (show ¬ s.outstanding < 1 by omega), wp_set]
  refine ⟨⟨rfl, rfl, fun c => ?_, fun c => ?_, fun h => nodup_absorb h, fun c hc => ?_⟩,
    view_fill s b d⟩
  · rw [mem_singleton]
    exact mem_absorb
  · rw [mem_singleton]
    exact mem_absorb
  · rw [mem_singleton] at hc
    exact Function.update_of_ne hc _ _

theorem wp_iupdate (hs : 0 < s.outstanding) :
    wp (iupdate sb ip)
      (fun _ s' => Adds {IBLOCK sb (s.itable ip).inum} s s' ∧ s'.view = s.view.iupdated sb ip)
      E s := by
  rw [iupdate, wp_bind, wp_get, wp_bind, wp_bread]
  exact wp_writeBlock hs

theorem wp_balloc_loop_adds {n b : Nat} (hb : b % BPB = 0) (hs : 0 < s.outstanding) :
    wp (balloc_loop sb n b) (fun r s' => Adds {BBLOCK sb r, r} s s') (fun _ _ => True) s := by
  induction n generalizing b with
  | zero => exact trivial
  | succ n ih =>
    rw [balloc_loop]
    split
    case isFalse => exact trivial
    rw [wp_bind, wp_bread]
    split
    · next bi hscan =>
      obtain ⟨-, hbi, -⟩ := scan_some hscan
      have hB : BBLOCK sb (b + bi) = BBLOCK sb b := (BBLOCK_add hb (by omega)).1
      refine (wp_writeBlock hs).seq ?_
      rintro _ s1 ⟨h1, -⟩
      refine (wp_writeBlock (by rw [h1.outstanding]; exact hs)).seq ?_
      rintro _ s2 ⟨h2, -⟩
      rw [wp_pure, hB]
      exact h1.trans h2
    · exact ih (by rw [BPB_eq] at *; omega)

/-- `balloc` takes the first free block; it logs the block and its bit. -/
theorem wp_balloc (hs : 0 < s.outstanding) :
    wp (balloc sb) (fun r s' => (r < sb.size ∧ isUsed sb s.view.blocks r = false ∧
      (∀ x, x < r → isUsed sb s.view.blocks x = true) ∧
      s'.view = { s.view with blocks := takeBlock sb s.view.blocks r }) ∧
      Adds {BBLOCK sb r, r} s s') (fun _ _ => True) s := by
  have hflat : wp (FS.balloc sb) _ _ s.view := FS.wp_balloc
  have hflat := sim_balloc.wp hs hflat
  exact (hflat.and (wp_balloc_loop_adds rfl hs)).mono (fun _ _ h => ⟨h.1.1, h.2⟩) fun _ _ _ =>
    trivial

end

end Tx

/-! ## 2. Slots -/

/-- The slot of the pointer block that a slot is an entry of. -/
def Slot.parents : Slot → Finset Slot
  | .indE _ => {.ind}
  | .dblE _ => {.dbl}
  | .dblEE j _ => {.dblE j}
  | _ => ∅

/-- The slots whose blocks change if the slots of `D` are filled and the data blocks
    of `W` written. -/
def changed (D W : Finset Slot) : Finset Slot := D ∪ D.biUnion Slot.parents ∪ W

/-- The slots of `T` that are empty. -/
def missing (ip : Fin NINODE) (T : Finset Slot) (s : Fs) : Finset Slot :=
  T.filter fun t => slotVal ip s t = 0

/-- The blocks that are logged if the slots of `D` have been filled and the data
    blocks of `W` written. -/
def touched (sb : Superblock) (ip : Fin NINODE) (D W : Finset Slot) (s : Fs) : Finset Nat :=
  D.image (fun t => BBLOCK sb (slotVal ip s t)) ∪ (changed D W).image (slotVal ip s)

namespace Tx

/-- The slots of `T` have been walked, and those that were empty filled with the
    first free blocks; the data blocks in the slots of `W` have been written. -/
structure Effect (sb : Superblock) (ip : Fin NINODE) (T W : Finset Slot) (s s' : Tx) : Prop where
  steps : Steps sb ip T W s.view s'.view
  adds : Adds (touched sb ip (missing ip T s.view) W s'.view) s s'
  walked : ∀ t ∈ T ∪ W, slotVal ip s'.view t ≠ 0
  low : ∀ t, slotVal ip s.view t = 0 → slotVal ip s'.view t ≠ 0 → ∀ x, x < slotVal ip s'.view t →
    isUsed sb s'.view.blocks x = true

end Tx

section Slots

variable {sb : Superblock} {ip : Fin NINODE} {s s' : Fs} {T T' W W' D D' : Finset Slot} {t u : Slot}

theorem parents_ne_zero (h : slotVal ip s t ≠ 0) (hu : u ∈ t.parents) : slotVal ip s u ≠ 0 := by
  have hparent : ∀ c j, entry s.blocks c j ≠ 0 → c ≠ 0 := fun c j hne hc => hne (entry_zero c j hc)
  cases t with
  | direct _ | ind | dbl => simp [Slot.parents] at hu
  | indE j | dblE j | dblEE j k =>
    rw [mem_singleton.mp hu]
    exact hparent _ _ h

theorem parents_child {p : Slot} (hp : p.isIndex = true) (j : Fin NINDIRECT) :
    (p.child j).parents = {p} := by
  cases p with
  | ind | dbl | dblE _ => rfl
  | direct _ | indE _ | dblEE _ _ => cases hp

theorem parents_rootSlot (k : Fin NADDR) : (rootSlot k).parents = ∅ := by
  unfold rootSlot
  split
  · rfl
  · split <;> rfl

theorem changed_union : changed (D ∪ D') (W ∪ W') = changed D W ∪ changed D' W' := by
  ext t
  simp only [changed, union_biUnion, mem_union]
  tauto

theorem changed_ne_zero (hD : ∀ t ∈ D, slotVal ip s t ≠ 0) (hW : ∀ t ∈ W, slotVal ip s t ≠ 0) :
    ∀ t ∈ changed D W, slotVal ip s t ≠ 0 := by
  intro t ht
  rcases mem_union.mp ht with ht | ht
  · rcases mem_union.mp ht with ht | ht
    · exact hD t ht
    · obtain ⟨u, hu, htu⟩ := mem_biUnion.mp ht
      exact parents_ne_zero (hD u hu) htu
  · exact hW t ht

theorem touched_union :
    touched sb ip (D ∪ D') (W ∪ W') s = touched sb ip D W s ∪ touched sb ip D' W' s := by
  unfold touched
  rw [changed_union, image_union, image_union]
  ext b
  simp only [mem_union]
  tauto

/-- What was touched depends on the slots that were changed only. -/
theorem touched_congr (h : ∀ t ∈ changed D W, slotVal ip s' t = slotVal ip s t) :
    touched sb ip D W s' = touched sb ip D W s := by
  unfold touched
  congr 1
  · refine image_congr fun t ht => ?_
    rw [h t (mem_union_left _ (mem_union_left _ ht))]
  · exact image_congr fun t ht => h t ht

/-- First one walk, then another. -/
theorem missing_union (hsb : sb.Ok) (h : Busy sb ip s) (hp : Steps sb ip T W s s') :
    missing ip (T ∪ T') s = missing ip T s ∪ missing ip T' s' := by
  ext t
  simp only [missing, mem_filter, mem_union]
  constructor
  · rintro ⟨ht, hz⟩
    by_cases hT : t ∈ T
    · exact .inl ⟨hT, hz⟩
    · exact .inr ⟨ht.resolve_left hT, (Steps.outside hsb h hp hT).trans hz⟩
  · rintro (⟨ht, hz⟩ | ⟨ht, hz⟩)
    · exact ⟨.inl ht, hz⟩
    · refine ⟨.inr ht, ?_⟩
      by_contra hne
      rw [Steps.grow hsb h hp hne] at hz
      exact hne hz

end Slots

/-! ### Ranges of bytes -/

theorem Ico_add (a m k : Nat) :
    Finset.Ico a (a + (m + k)) = Finset.Ico a (a + m) ∪ Finset.Ico (a + m) (a + m + k) := by
  rw [Finset.Ico_union_Ico_eq_Ico (by omega) (by omega), Nat.add_assoc]

theorem pathSlots_add (a m k : Nat) :
    pathSlots a (m + k) = pathSlots a m ∪ pathSlots (a + m) k := by
  unfold pathSlots
  rw [Ico_add, union_biUnion]

theorem dataSlots_add (a m k : Nat) :
    dataSlots a (m + k) = dataSlots a m ∪ dataSlots (a + m) k := by
  unfold dataSlots
  rw [Ico_add, image_union]

/-- A range within one block. -/
theorem dataSlots_block {a m : Nat} (hm : 0 < m) (hfit : a % BSIZE + m ≤ BSIZE) :
    dataSlots a m = {leaf (a / BSIZE)} := by
  have hdiv : ∀ o, a ≤ o → o < a + m → o / BSIZE = a / BSIZE := by
    intro o h1 h2
    rw [BSIZE_eq] at *
    omega
  ext t
  simp only [dataSlots, mem_image, mem_Ico, mem_singleton]
  constructor
  · rintro ⟨o, ⟨h1, h2⟩, rfl⟩
    rw [hdiv o h1 h2]
  · rintro rfl
    exact ⟨a, ⟨le_refl a, by omega⟩, rfl⟩

theorem pathSlots_eq (a m : Nat) : pathSlots a m = (dataSlots a m).biUnion Slot.path := by
  unfold pathSlots dataSlots
  rw [image_biUnion]

theorem pathSlots_block {a m : Nat} (hm : 0 < m) (hfit : a % BSIZE + m ≤ BSIZE) :
    pathSlots a m = (leaf (a / BSIZE)).path := by
  rw [pathSlots_eq, dataSlots_block hm hfit, singleton_biUnion]

namespace Tx

section Effects

variable {sb : Superblock} {ip : Fin NINODE} {s s' s'' : Tx} {T T' W W' : Finset Slot} {t : Slot}
  {b : Nat}

theorem Effect.refl (s : Tx) : Effect sb ip ∅ ∅ s s where
  steps := .refl
  adds := .refl s
  walked := by simp
  low := fun t h h' => absurd h h'

section

variable (hsb : sb.Ok) (hb : Busy sb ip s.view)
include hsb hb

theorem Effect.busy (h : Effect sb ip T W s s') : Busy sb ip s'.view :=
  Steps.busy hsb hb h.steps

theorem Effect.trans (h : Effect sb ip T W s s')
    (h' : Effect sb ip T' W' s' s'') : Effect sb ip (T ∪ T') (W ∪ W') s s'' := by
  have hb' := h.busy hsb hb
  -- a slot that was walked keeps its block
  have hgrow : ∀ t ∈ T ∪ W, slotVal ip s''.view t = slotVal ip s'.view t :=
    fun t ht => Steps.grow hsb hb' h'.steps (h.walked t ht)
  refine ⟨?_, ?_, fun t ht => ?_, fun t hz hne x hx => ?_⟩
  · exact (Steps.mono subset_union_left subset_union_left h.steps).trans
      (Steps.mono subset_union_right subset_union_right h'.steps)
  · refine (h.adds.trans h'.adds).congr ?_
    rw [missing_union hsb hb h.steps, touched_union]
    congr 1
    refine (touched_congr fun t ht => ?_).symm
    refine Steps.grow hsb hb' h'.steps (changed_ne_zero (fun t ht => ?_) (fun t ht => ?_) t ht)
    · exact h.walked t (mem_union_left _ (mem_filter.mp ht).1)
    · exact h.walked t (mem_union_right _ ht)
  · have hcases : t ∈ T ∪ W ∨ t ∈ T' ∪ W' := by
      simp only [mem_union] at ht ⊢
      tauto
    rcases hcases with ht | ht
    · rw [hgrow t ht]
      exact h.walked t ht
    · exact h'.walked t ht
  · by_cases hmid : slotVal ip s'.view t = 0
    · exact h'.low t hmid hne x hx
    · have hsame := Steps.grow hsb hb' h'.steps hmid
      rw [hsame] at hx
      have hlt := ((h.busy hsb hb).range hmid).2.1
      exact Steps.used hsb hb' h'.steps (by omega) (h.low t hz hmid x hx)

/-- A free block goes into an empty slot. -/
theorem Effect.of_fill (hf : Fill sb ip t b s.view s'.view)
    (hlow : ∀ x, x < b → isUsed sb s.view.blocks x = true)
    (ha : Adds ({BBLOCK sb b, b} ∪ t.parents.image (slotVal ip s.view)) s s') :
    Effect sb ip {t} ∅ s s' := by
  have hself : slotVal ip s'.view t = b := by rw [hf.vals, if_pos rfl]
  have hb0 : b ≠ 0 := by
    have := hb.owned.ge_of_free hf.fresh
    have := hsb.dstart_pos
    omega
  refine ⟨.single (.fill (mem_singleton_self t) hf), ha.congr ?_, fun u hu => ?_,
    fun u hz hne x hx => ?_⟩
  · have hmiss : missing ip {t} s.view = {t} := by
      unfold missing
      rw [filter_singleton, if_pos hf.empty]
    have hpar : t.parents.image (slotVal ip s'.view) = t.parents.image (slotVal ip s.view) := by
      refine image_congr fun u hu => ?_
      rw [hf.vals, if_neg]
      rintro rfl
      cases u <;> simp [Slot.parents] at hu
    rw [hmiss]
    unfold touched changed
    rw [singleton_biUnion, union_empty, image_union, image_singleton,
      image_singleton, hself, hpar]
    ext x
    simp only [mem_union, mem_insert, mem_singleton]
    tauto
  · rw [union_empty, mem_singleton] at hu
    rw [hu, hself]
    exact hb0
  · by_cases hu : u = t
    · subst hu
      rw [hself] at hx
      have hlt := hf.lt
      rw [hf.used x (by omega), hlow x hx, Bool.or_true]
    · rw [hf.vals, if_neg hu] at hne
      exact absurd hz hne

end

/-- A walk over a slot that is filled already. -/
theorem Effect.of_filled (hne : slotVal ip s.view t ≠ 0) : Effect sb ip {t} ∅ s s where
  steps := .refl
  adds := by
    have hmiss : missing ip {t} s.view = ∅ := by
      unfold missing
      rw [filter_singleton, if_neg hne]
    rw [hmiss]
    exact .refl s
  walked := by
    intro u hu
    rw [union_empty, mem_singleton] at hu
    rw [hu]
    exact hne
  low := fun t h h' => absurd h h'

/-- A data block is written. -/
theorem Effect.of_data {d : Block} (hsb : sb.Ok) (hb : Busy sb ip s.view) (ht : t.isIndex = false)
    (hne : slotVal ip s.view t ≠ 0) (hv : s'.view = s.view.setBlock (slotVal ip s.view t) d)
    (ha : Adds {slotVal ip s.view t} s s') : Effect sb ip ∅ {t} s s' := by
  have hvals : ∀ u, slotVal ip s'.view u = slotVal ip s.view u := by
    rw [hv]
    exact (hb.data hsb d ht hne).2
  refine ⟨?_, ha.congr ?_, fun u hu => ?_, fun u hz hne' => ?_⟩
  · rw [hv]
    exact .single (.data d (mem_singleton_self t) ht hne)
  · unfold touched changed missing
    rw [filter_empty, image_empty, biUnion_empty, empty_union, empty_union,
      empty_union, image_singleton, hvals]
  · rw [empty_union, mem_singleton] at hu
    rw [hu, hvals]
    exact hne
  · rw [hvals] at hne'
    exact absurd hz hne'

end Effects

/-! ## 3. The functions -/

section Functions

variable {sb : Superblock} {ip : Fin NINODE} {s s' : Tx}

section

variable {p : Slot} {c i : Nat} {j : Fin NINDIRECT} {bn : Nat} (hsb : sb.Ok)
  (hb : Busy sb ip s.view) (hs : 0 < s.outstanding)
include hsb hb hs

theorem wp_rootEntry (k : Fin NADDR) :
    wp (rootEntry sb ip k)
      (fun b s' => Effect sb ip {rootSlot k} ∅ s s' ∧ slotVal ip s'.view (rootSlot k) = b)
      (fun _ _ => True) s := by
  have hval : slotVal ip s.view (rootSlot k) = (s.itable ip).din.addrs k := val_rootSlot k
  rw [rootEntry, wp_bind, wp_get]
  split
  · next hk =>
    refine (wp_balloc hs).seq ?_
    rintro b s₁ ⟨⟨hlt, hfree, hlow, hview⟩, ha⟩
    -- `setAddr` changes the inode table only
    rw [wp_bind, setAddr, wp_modifyDin, wp_pure]
    generalize hs₂ : s₁.setDin ip _ = s₂
    have hit : s₁.itable = s.itable := congrArg Fs.itable hview
    have hf : Fill sb ip (rootSlot k) b s.view s₂.view := by
      refine fill_root hsb hb hlt hfree hk ?_ ?_
      · rw [← hs₂]
        show s₁.view.blocks = _
        rw [hview]
      · rw [← hs₂]
        show update s₁.itable ip _ = _
        rw [hit]
        rfl
    have hadds : Adds ({BBLOCK sb b, b} ∪ (rootSlot k).parents.image (slotVal ip s.view)) s s₂ := by
      rw [← hs₂, parents_rootSlot, image_empty]
      exact ha.trans (.setDin s₁ ip _)
    exact ⟨.of_fill hsb hb hf hlow hadds, by rw [hf.vals, if_pos rfl]⟩
  · next hk => exact ⟨.of_filled (by rw [hval]; exact hk), hval⟩

theorem wp_blockEntry (hp : p.isIndex = true) (hpc : slotVal ip s.view p = c) (hc : c ≠ 0)
    (hi : i = j.val) :
    wp (blockEntry sb c i)
      (fun b s' => Effect sb ip {p.child j} ∅ s s' ∧ slotVal ip s'.view (p.child j) = b)
      (fun _ _ => True) s := by
  subst hpc hi
  have hval : slotVal ip s.view (p.child j) = (s.view.blocks (slotVal ip s.view p)).word j :=
    slotVal_child hp hc
  rw [blockEntry, wp_bind, wp_bread]
  split
  · next hj =>
    refine (wp_balloc hs).seq ?_
    rintro b s1 ⟨⟨hlt, hfree, hlow, hview⟩, ha⟩
    have hs1 : 0 < s1.outstanding := by rw [ha.outstanding]; exact hs
    rw [wp_bind, wp_bread]
    refine (wp_writeBlock hs1).seq ?_
    rintro _ s2 ⟨ha2, hv2⟩
    rw [hview] at hv2
    have hf : Fill sb ip (p.child j) b s.view s2.view :=
      fill_entry hsb hb hlt hfree hp hc hj (by rw [hv2]) (by rw [hv2])
    have hadds : Adds ({BBLOCK sb b, b} ∪ (p.child j).parents.image (slotVal ip s.view)) s s2 := by
      rw [parents_child hp, image_singleton]
      exact ha.trans ha2
    exact ⟨.of_fill hsb hb hf hlow hadds, by rw [hf.vals, if_pos rfl]⟩
  · next hj => exact ⟨.of_filled (by rw [hval]; exact hj), hval⟩

/-- `bmap` walks the slots on the way to the block. -/
theorem wp_bmap (hbn : bn < MAXFILE) :
    wp (bmap sb ip bn)
      (fun b s' => Effect sb ip (leaf bn).path ∅ s s' ∧ slotVal ip s'.view (leaf bn) = b)
      (fun _ _ => True) s := by
  rw [MAXFILE_eq] at hbn
  unfold bmap leaf
  split
  · next hd =>
    have hroot : ∀ hk, rootSlot ⟨bn, hk⟩ = .direct ⟨bn, hd⟩ := fun hk => dif_pos hd
    have := wp_rootEntry hsb hb hs ⟨bn, lt_NADDR hd⟩
    rwa [hroot] at this
  · next hd =>
    dsimp only
    split
    · next hi =>
      refine (wp_rootEntry hsb hb hs 11).seq ?_
      rintro c s₁ ⟨he₁, hc⟩
      rw [rootSlot_ind] at he₁ hc
      have hc0 : c ≠ 0 := hc ▸ he₁.walked .ind (by simp)
      have hs₁ : 0 < s₁.outstanding := by rw [he₁.adds.outstanding]; exact hs
      refine (wp_blockEntry (j := ⟨bn - NDIRECT, hi⟩) hsb (he₁.busy hsb hb) hs₁ rfl hc hc0
        rfl).post ?_
      rintro b s2 ⟨he2, hb2⟩
      exact ⟨he₁.trans hsb hb he2, hb2⟩
    · next hi =>
      rw [NDIRECT_eq, NINDIRECT_eq] at hi
      rw [if_pos (by rw [NDIRECT_eq, NINDIRECT_eq, NINDIRECT_SEC_eq]; omega), wp_bind]
      have hdiv : (bn - NDIRECT - NINDIRECT) / NINDIRECT % NINDIRECT =
          (bn - NDIRECT - NINDIRECT) / NINDIRECT := by
        rw [NDIRECT_eq, NINDIRECT_eq]; omega
      refine (wp_rootEntry hsb hb hs 12).post ?_
      rintro c s₁ ⟨he₁, hc⟩
      rw [rootSlot_dbl] at he₁ hc
      have hc0 : c ≠ 0 := hc ▸ he₁.walked .dbl (by simp)
      have hs₁ : 0 < s₁.outstanding := by rw [he₁.adds.outstanding]; exact hs
      have hb1 := he₁.busy hsb hb
      refine (wp_blockEntry
        (j := ⟨(bn - NDIRECT - NINDIRECT) / NINDIRECT % NINDIRECT, Nat.mod_lt _ (by decide)⟩) hsb
        hb1 hs₁ rfl hc hc0 hdiv.symm).seq ?_
      rintro c2 s2 ⟨he2, hc2⟩
      have hc20 : c2 ≠ 0 := hc2 ▸ he2.walked _ (by simp)
      have hs2 : 0 < s2.outstanding := by rw [he2.adds.outstanding]; exact hs₁
      have he12 := he₁.trans hsb hb he2
      refine (wp_blockEntry
        (j := ⟨(bn - NDIRECT - NINDIRECT) % NINDIRECT, Nat.mod_lt _ (by decide)⟩) hsb
        (he2.busy hsb hb1) hs2 rfl hc2 hc20 rfl).post ?_
      rintro b s3 ⟨he3, hb3⟩
      exact ⟨he12.trans hsb hb he3, hb3⟩

end

/-- What the loop of `writei` has done, from `tot` bytes on.  If a copy failed, the
    buffer of its block has changed and is not in the log. -/
inductive Looped (sb : Superblock) (ip : Fin NINODE) (off n tot : Nat) (s : Tx) : Nat × Nat → Tx →
    Prop where
  | all {s' : Tx} : Effect sb ip (pathSlots (off + tot) (n - tot)) (dataSlots (off + tot) (n - tot))
    s s' →
      Looped sb ip off n tot s (n, off + n) s'
  | torn {s₁ : Tx} {r : Nat} (d : Block) : tot ≤ r → r < n →
      Effect sb ip (pathSlots (off + tot) (r + 1 - tot)) (dataSlots (off + tot) (r - tot)) s s₁ →
      Looped sb ip off n tot s (r, off + r)
        { s₁ with buf := update s₁.buf (slotVal ip s₁.view (leaf ((off + r) / BSIZE))) (some d) }

theorem Effect.empty {a : Nat} : Effect sb ip (pathSlots a 0) (dataSlots a 0) s s := by
  have hT : pathSlots a 0 = ∅ := by simp [pathSlots]
  have hW : dataSlots a 0 = ∅ := by simp [dataSlots]
  rw [hT, hW]
  exact .refl s

theorem wp_writei_loop {cp : Copyin} {off n k tot src : Nat} (hsb : sb.Ok) (hb : Busy sb ip s.view)
    (hs : 0 < s.outstanding) (hk : n - tot ≤ k) (htot : tot ≤ n)
    (hmax : off + n ≤ MAXFILE * BSIZE) :
    wp (writei_loop sb cp ip n k tot (off + tot) src) (Looped sb ip off n tot s)
      (fun _ _ => True) s := by
  -- on the rounds, one block each
  induction k generalizing tot src s with
  | zero =>
    obtain rfl : tot = n := by omega
    refine .all ?_
    rw [Nat.sub_self]
    exact .empty
  | succ k ih =>
    rw [writei_loop]
    split
    case isFalse hge =>
      obtain rfl : tot = n := by omega
      refine .all ?_
      rw [Nat.sub_self]
      exact .empty
    case isTrue hlt =>
      have hB : 0 < BSIZE := by decide
      have hmod : (off + tot) % BSIZE < BSIZE := Nat.mod_lt _ hB
      have hbn : (off + tot) / BSIZE < MAXFILE := by
        rw [Nat.div_lt_iff_lt_mul hB]; omega
      refine (wp_bmap hsb hb hs hbn).seq ?_
      rintro _ s1 ⟨he1, rfl⟩
      rw [wp_bind, wp_bread]
      dsimp only
      generalize hm : min (n - tot) (BSIZE - (off + tot) % BSIZE) = m
      generalize (s1.view.blocks _).copy _ (cp.run src m).1 = d
      have hs1 : 0 < s1.outstanding := by rw [he1.adds.outstanding]; exact hs
      split
      case isFalse =>
        -- the copy failed: the block has been looked up, but not logged
        have hone : pathSlots (off + tot) (tot + 1 - tot) = (leaf ((off + tot) / BSIZE)).path :=
          pathSlots_block (by omega) (by omega)
        have hnone : dataSlots (off + tot) (tot - tot) = ∅ := by simp [dataSlots]
        refine .torn d (le_refl tot) hlt ?_
        rw [hone, hnone]
        exact he1
      case isTrue =>
        have hne := he1.walked (leaf ((off + tot) / BSIZE)) (mem_union_left _ (mem_path_self _))
        have hb1 := he1.busy hsb hb
        -- `fill` and `log_write`
        show wp (do writeBlock (slotVal ip s1.view (leaf ((off + tot) / BSIZE))) d; _) _ _ s1
        refine (wp_writeBlock hs1).seq ?_
        rintro _ s2 ⟨ha2, hv2⟩
        have he2 := he1.trans hsb hb (.of_data hsb hb1 (leaf_isIndex _) hne hv2 ha2)
        rw [union_empty, empty_union] at he2
        have hs2 : 0 < s2.outstanding := by rw [ha2.outstanding]; exact hs1
        rw [Nat.add_assoc]
        refine (ih (he2.busy hsb hb) hs2 (by omega) (by omega)).post ?_
        have hpath : pathSlots (off + tot) m = (leaf ((off + tot) / BSIZE)).path :=
          pathSlots_block (by omega) (by omega)
        have hdata : dataSlots (off + tot) m = {leaf ((off + tot) / BSIZE)} :=
          dataSlots_block (by omega) (by omega)
        rw [← hpath, ← hdata] at he2
        intro r s3 hl
        cases hl with
        | all he3 =>
          refine .all ?_
          have hsplit : n - tot = m + (n - (tot + m)) := by omega
          rw [hsplit, pathSlots_add, dataSlots_add, Nat.add_assoc off]
          exact he2.trans hsb hb he3
        | @torn s3 r d h1 h2 he3 =>
          refine .torn d (by omega) h2 ?_
          have hsplit : r + 1 - tot = m + (r + 1 - (tot + m)) := by omega
          have hsplit' : r - tot = m + (r - (tot + m)) := by omega
          rw [hsplit, hsplit', pathSlots_add, dataSlots_add, Nat.add_assoc off]
          exact he2.trans hsb hb he3

end Functions

end Tx

end NoviceKernel.FS
