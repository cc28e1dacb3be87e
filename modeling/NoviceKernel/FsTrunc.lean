import NoviceKernel.FsAlloc

/-! # `itrunc`

    `itrunc` frees the blocks of an inode in the order of `inodeBlocks`.  While it
    runs, all of them count as in flight: the loops give back one after the
    other, and since freeing writes only the free map, the pointer blocks that
    are read on the way are still those of the beginning. -/

namespace NoviceKernel.FS

open Hoare Function List

/-- The entries of a pointer block and the block itself. -/
def indexBlocks (blocks : Nat → Block) (c : Nat) : List Nat :=
  if c = 0 then []
  else (List.range NINDIRECT).filterMap (fun j => nz ((blocks c).word j)) ++ [c]

/-- The blocks under a doubly-indirect block and the block itself. -/
def secondBlocks (blocks : Nat → Block) (c : Nat) : List Nat :=
  if c = 0 then []
  else (List.range NINDIRECT).flatMap (fun j => indexBlocks blocks ((blocks c).word j)) ++ [c]

section Lists

theorem indexBlocks_zero (blocks : Nat → Block) : indexBlocks blocks 0 = [] := if_pos rfl

theorem secondBlocks_zero (blocks : Nat → Block) : secondBlocks blocks 0 = [] := if_pos rfl

variable {blocks blocks' : Nat → Block} {a : Fin NADDR → Nat} {α : Type}

theorem filterMap_finRange (n : Nat) (f : Nat → Option α) :
    (finRange n).filterMap (fun j => f j.val) = (range n).filterMap f := by
  rw [← map_coe_finRange_eq_range, filterMap_map]
  rfl

theorem flatMap_finRange (n : Nat) (f : Nat → List α) :
    (finRange n).flatMap (fun j => f j.val) = (range n).flatMap f := by
  rw [← map_coe_finRange_eq_range, flatMap_map]

theorem slots_indexBlocks {f : Fin NINDIRECT → Slot} {p : Slot}
    (hf : ∀ j, val blocks a (f j) = entry blocks (val blocks a p) j) :
    (slotsOfIndex f p).filterMap (fun t => nz (val blocks a t)) =
      indexBlocks blocks (val blocks a p) := by
  unfold slotsOfIndex indexBlocks
  rw [filterMap_append, filterMap_map]
  have hcomp : ((fun t => nz (val blocks a t)) ∘ f) =
      fun j : Fin NINDIRECT => nz (entry blocks (val blocks a p) j.val) := funext fun j => by
    rw [Function.comp_apply, hf]
  rw [hcomp, filterMap_finRange NINDIRECT fun j => nz (entry blocks (val blocks a p) j)]
  unfold entry
  split
  · next hz =>
    simp [hz, nz_zero]
  · next hne => simp [nz_of_ne hne]

/-- The blocks of an inode, by the branches of `itrunc`. -/
theorem inodeBlocks_eq :
    inodeBlocks blocks a =
      directs.filterMap (fun k => nz (a k)) ++
        (indexBlocks blocks (a 11) ++ secondBlocks blocks (a 12)) := by
  have hdir : directs = (finRange NDIRECT).map directIdx := by decide
  have hind : (slotsOfIndex .indE .ind).filterMap (fun t => nz (val blocks a t)) =
      indexBlocks blocks (a 11) := slots_indexBlocks fun _ => rfl
  have hrow : ∀ j, (slotsOfIndex (.dblEE j) (.dblE j)).filterMap (fun t => nz (val blocks a t)) =
      indexBlocks blocks (entry blocks (a 12) j) := fun j => slots_indexBlocks fun _ => rfl
  unfold inodeBlocks allSlots
  rw [filterMap_append, filterMap_append, filterMap_append, filterMap_map, hind,
    hdir, filterMap_map, filterMap_flatMap]
  simp only [hrow]
  rw [flatMap_finRange NINDIRECT fun j => indexBlocks blocks (entry blocks (a 12) j)]
  have hsecond : (range NINDIRECT).flatMap (fun j => indexBlocks blocks (entry blocks (a 12) j)) ++
      [Slot.dbl].filterMap (fun t => nz (val blocks a t)) = secondBlocks blocks (a 12) := by
    unfold secondBlocks entry
    split
    · next hz => simp [indexBlocks_zero, val, hz, nz_zero]
    · next hne => simp [val, nz_of_ne hne]
  rw [hsecond]
  rfl

end Lists

/-! ## The loops -/

/-- Only the free map was written. -/
structure OnlyMap (sb : Superblock) (blocks blocks' : Nat → Block) : Prop where
  data : ∀ x, sb.dstart ≤ x → blocks' x = blocks x
  inodes : ∀ i, i < sb.ninodes → blocks' (IBLOCK sb i) = blocks (IBLOCK sb i)

variable {c : Nat}

section Loops

variable {sb : Superblock} {s s' : Fs} {blocks blocks' blocks'' : Nat → Block} {V : View}
  {F : List Nat} {E : Stop → Fs → Prop} {ip : Fin NINODE}

theorem OnlyMap.refl (blocks : Nat → Block) : OnlyMap sb blocks blocks :=
  ⟨fun _ _ => rfl, fun _ _ => rfl⟩

theorem OnlyMap.trans (h : OnlyMap sb blocks blocks') (h' : OnlyMap sb blocks' blocks'') :
    OnlyMap sb blocks blocks'' where
  data := fun x hx => (h'.data x hx).trans (h.data x hx)
  inodes := fun i hi => (h'.inodes i hi).trans (h.inodes i hi)

theorem mem_indexBlocks_self (hc : c ≠ 0) : c ∈ indexBlocks blocks c := by
  unfold indexBlocks
  rw [if_neg hc]
  simp

theorem mem_secondBlocks_self (hc : c ≠ 0) : c ∈ secondBlocks blocks c := by
  unfold secondBlocks
  rw [if_neg hc]
  simp

theorem OnlyMap.indexBlocks (h : OnlyMap sb blocks blocks')
    (hc : ∀ b ∈ indexBlocks blocks c, sb.dstart ≤ b) :
    FS.indexBlocks blocks' c = FS.indexBlocks blocks c := by
  by_cases hne : c = 0
  · rw [hne, indexBlocks_zero, indexBlocks_zero]
  · unfold FS.indexBlocks
    rw [h.data c (hc c (mem_indexBlocks_self hne))]

theorem OnlyMap.secondBlocks (h : OnlyMap sb blocks blocks')
    (hc : ∀ b ∈ secondBlocks blocks c, sb.dstart ≤ b) :
    FS.secondBlocks blocks' c = FS.secondBlocks blocks c := by
  by_cases hne : c = 0
  · rw [hne, secondBlocks_zero, secondBlocks_zero]
  · have hdata := h.data c (hc c (mem_secondBlocks_self hne))
    unfold FS.secondBlocks at hc ⊢
    rw [if_neg hne] at *
    rw [if_neg hne, hdata, flatMap_congr]
    intro j hj
    exact h.indexBlocks fun b hb =>
      hc b (mem_append_left _ (mem_flatMap.mpr ⟨j, hj, hb⟩))

/-- From a state in which the blocks of `L` are in flight, `x` frees them and
    changes nothing else. -/
def Frees (sb : Superblock) (V : View) (L F : List Nat) (x : FsM Unit) (s : Fs) : Prop :=
  ∀ E, Owned sb s.blocks V (L ++ F) →
    wp x (fun _ s' => Owned sb s'.blocks V F ∧ OnlyMap sb s.blocks s'.blocks ∧
      s'.itable = s.itable) E s

theorem frees_nil : Frees sb V [] F (pure ()) s := fun _ h => ⟨h, .refl _, rfl⟩

theorem frees_bfree (hsb : sb.Ok) {b : Nat} : Frees sb V [b] F (bfree sb b) s := by
  intro E h
  obtain ⟨hds, hlt, hu⟩ := h.range_float
  refine (wp_bfree hu).post ?_
  rintro _ _ rfl
  have hB := hsb.bmap b hlt
  exact ⟨h.free hsb, ⟨fun x hx => update_of_ne (by omega) _ _,
    fun i hi => update_of_ne (hsb.apart i b hi hlt) _ _⟩, rfl⟩

/-- Freeing one list of blocks and then another. -/
theorem Frees.seq {L L' : List Nat} {x y : FsM Unit} (hx : Frees sb V L (L' ++ F) x s)
    (hy : ∀ s', OnlyMap sb s.blocks s'.blocks → Frees sb V L' F y s') :
    Frees sb V (L ++ L') F (do x; y) s := by
  intro E h
  rw [append_assoc] at h
  refine (hx E h).seq ?_
  rintro _ s1 ⟨h1, hm1, hi1⟩
  refine (hy s1 hm1 E h1).post ?_
  rintro _ s2 ⟨h2, hm2, hi2⟩
  exact ⟨h2, hm1.trans hm2, hi2.trans hi1⟩

theorem frees_entries (hsb : sb.Ok) (hc : sb.dstart ≤ c) (js : List Nat) :
    Frees sb V (js.filterMap fun j => nz ((s.blocks c).word j)) F (freeEntries sb c js) s := by
  induction js generalizing s with
  | nil => exact frees_nil
  | cons j js ih =>
    intro E h
    rw [freeEntries, wp_bind, wp_bread]
    split
    · next hne =>
      rw [filterMap_cons_some (f := fun j => nz ((s.blocks c).word j)) (nz_of_ne hne)] at h
      refine Frees.seq (L := [(s.blocks c).word j]) (frees_bfree hsb) ?_ E h
      intro s1 hm
      rw [← hm.data c hc]
      exact ih
    · next hz =>
      rw [filterMap_cons_none (f := fun j => nz ((s.blocks c).word j))
        (by rw [not_not.mp hz, nz_zero])] at h
      exact ih E h

/-- A pointer block: its entries, then the block. -/
theorem frees_index (hsb : sb.Ok) (hne : c ≠ 0) (hc : sb.dstart ≤ c) :
    Frees sb V (indexBlocks s.blocks c) F
      (do freeEntries sb c (range NINDIRECT); bfree sb c) s := by
  unfold FS.indexBlocks
  rw [if_neg hne]
  exact (frees_entries hsb hc _).seq fun s1 _ => frees_bfree hsb

theorem frees_second (hsb : sb.Ok) (hc : sb.dstart ≤ c) (js : List Nat) :
    Frees sb V (js.flatMap fun j => indexBlocks s.blocks ((s.blocks c).word j)) F
      (freeSecond sb c js) s := by
  induction js generalizing s with
  | nil => exact frees_nil
  | cons j js ih =>
    intro E h
    rw [flatMap_cons] at h
    rw [freeSecond, wp_bind, wp_bread]
    split
    · next hne =>
      -- every block still in flight is a data block
      have hrange : ∀ b, b ∈ indexBlocks s.blocks ((s.blocks c).word j) ++
          js.flatMap (fun j => indexBlocks s.blocks ((s.blocks c).word j)) → sb.dstart ≤ b :=
        fun b hb => (h.owns.used_of_mem (mem_append_left F hb)).1
      have hword := hrange _ (mem_append_left _ (mem_indexBlocks_self hne))
      have hrest : ∀ s1 : Fs, OnlyMap sb s.blocks s1.blocks →
          (js.flatMap fun j => indexBlocks s1.blocks ((s1.blocks c).word j)) =
            js.flatMap fun j => indexBlocks s.blocks ((s.blocks c).word j) := by
        intro s1 hm
        rw [hm.data c hc]
        apply flatMap_congr
        intro j' hj'
        exact hm.indexBlocks fun b hb =>
          hrange b (mem_append_right _ (mem_flatMap.mpr ⟨j', hj', hb⟩))
      have hseq := Frees.seq (F := F) (y := freeSecond sb c js)
        (frees_index (V := V) hsb hne hword) (fun s1 hm => hrest s1 hm ▸ ih)
      have := hseq E h
      simpa only [bind_assoc] using this
    · next hz =>
      rw [not_not.mp hz] at h
      exact ih E h

/-- The doubly-indirect block: what hangs under its entries, then the block. -/
theorem frees_double (hsb : sb.Ok) (hne : c ≠ 0) (hc : sb.dstart ≤ c) :
    Frees sb V (secondBlocks s.blocks c) F
      (do freeSecond sb c (range NINDIRECT); bfree sb c) s := by
  unfold FS.secondBlocks
  rw [if_neg hne]
  exact (frees_second hsb hc _).seq fun s1 _ => frees_bfree hsb

/-- `ip->addrs = a` in memory. -/
def Fs.setAddrs (s : Fs) (ip : Fin NINODE) (a : Fin NADDR → Nat) : Fin NINODE → Inode :=
  update s.itable ip { s.itable ip with din := { (s.itable ip).din with addrs := a } }

@[simp] theorem setAddrs_self (s : Fs) (ip : Fin NINODE) (a : Fin NADDR → Nat) :
    s.setAddrs ip a ip = { s.itable ip with din := { (s.itable ip).din with addrs := a } } :=
  update_self ..

theorem setAddrs_setAddrs {a b : Fin NADDR → Nat} (h : s'.itable = s.setAddrs ip a) :
    s'.setAddrs ip b = s.setAddrs ip b := by
  unfold Fs.setAddrs
  rw [h, setAddrs_self]
  unfold Fs.setAddrs
  rw [update_idem]

theorem wp_freeDirect (hsb : sb.Ok) {ks : List (Fin NADDR)} (hnd : ks.Nodup)
    (h : Owned sb s.blocks V (ks.filterMap (fun k => nz ((s.itable ip).din.addrs k)) ++ F)) :
    wp (freeDirect sb ip ks) (fun _ s' => Owned sb s'.blocks V F ∧ OnlyMap sb s.blocks s'.blocks ∧
      s'.itable = s.setAddrs ip fun k => if k ∈ ks then 0 else (s.itable ip).din.addrs k) E s := by
  induction ks generalizing s with
  | nil =>
    refine ⟨h, .refl _, ?_⟩
    unfold Fs.setAddrs
    simp
  | cons k ks ih =>
    obtain ⟨hk, hnd⟩ := nodup_cons.mp hnd
    show wp (if (s.itable ip).din.addrs k ≠ 0 then _ else _) _ E s
    split
    · next hne =>
      rw [filterMap_cons_some (f := fun k => nz ((s.itable ip).din.addrs k)) (nz_of_ne hne)] at h
      refine (frees_bfree hsb (b := (s.itable ip).din.addrs k) E h).seq ?_
      rintro _ s1 ⟨h1, hm1, hi1⟩
      show wp (freeDirect sb ip ks) _ E ⟨s1.blocks, s1.setAddrs ip _⟩
      generalize hs2 : (⟨s1.blocks, s1.setAddrs ip (update (s1.itable ip).din.addrs k 0)⟩ : Fs) = s2
      have hb2 : s2.blocks = s1.blocks := by rw [← hs2]
      have hi2 : s2.itable = s.setAddrs ip (update (s.itable ip).din.addrs k 0) := by
        rw [← hs2]
        unfold Fs.setAddrs
        rw [hi1]
      have ha2 : (s2.itable ip).din.addrs = update (s.itable ip).din.addrs k 0 := by
        rw [hi2, setAddrs_self]
      have hlist : ks.filterMap (fun k => nz ((s2.itable ip).din.addrs k)) =
          ks.filterMap fun k => nz ((s.itable ip).din.addrs k) := by
        apply filterMap_congr
        intro k' hk'
        rw [ha2, update_of_ne (by rintro rfl; exact hk hk')]
      refine (ih hnd (by rw [hlist, hb2]; exact h1)).post ?_
      rintro _ s3 ⟨h3, hm3, hi3⟩
      rw [hb2] at hm3
      refine ⟨h3, hm1.trans hm3, ?_⟩
      rw [hi3, setAddrs_setAddrs hi2, ha2]
      congr 1
      funext k'
      by_cases hk' : k' = k
      · subst hk'; simp
      · simp [hk']
    · next hz =>
      rw [not_not] at hz
      rw [filterMap_cons_none (f := fun k => nz ((s.itable ip).din.addrs k))
        (by rw [hz, nz_zero])] at h
      refine (ih hnd h).post ?_
      rintro _ s' ⟨h', hm', hi'⟩
      refine ⟨h', hm', ?_⟩
      rw [hi']
      congr 1
      funext k'
      by_cases hk' : k' = k
      · subst hk'; simp [hz]
      · simp [hk']

/-- A pointer of `addrs` with all blocks under it. -/
theorem wp_freeRoot {k : Fin NADDR} {L : List Nat} {x : FsM Unit}
    (hx : (s.itable ip).din.addrs k ≠ 0 → Frees sb V L F x s)
    (h0 : (s.itable ip).din.addrs k = 0 → L = []) (h : Owned sb s.blocks V (L ++ F)) :
    wp (if (s.itable ip).din.addrs k ≠ 0 then (do x; setAddr ip k 0) else pure ())
      (fun _ s' => Owned sb s'.blocks V F ∧ OnlyMap sb s.blocks s'.blocks ∧
        s'.itable = s.setAddrs ip (update (s.itable ip).din.addrs k 0)) E s := by
  split
  · next hne =>
    refine (hx hne E h).seq ?_
    rintro _ s1 ⟨h1, hm1, hi1⟩
    refine ⟨h1, hm1, ?_⟩
    show s1.setAddrs ip _ = _
    unfold Fs.setAddrs
    rw [hi1]
  · next hz =>
    rw [not_not] at hz
    rw [h0 hz] at h
    refine ⟨h, .refl _, ?_⟩
    unfold Fs.setAddrs
    rw [← hz, update_eq_self, update_eq_self]

/-- The inode as `itrunc` leaves it in memory. -/
def Dinode.truncated (x : Dinode) : Dinode := { x with size := 0, addrs := fun _ => 0 }

/-- The state after `iupdate`. -/
def Fs.iupdated (sb : Superblock) (ip : Fin NINODE) (s : Fs) : Fs :=
  s.setBlock (IBLOCK sb (s.itable ip).inum)
    (Dinode.store (s.blocks (IBLOCK sb (s.itable ip).inum)) (ioff (s.itable ip).inum)
      (s.itable ip).din)

theorem wp_itrunc (hsb : sb.Ok) (h : Busy sb ip s) :
    wp (itrunc sb ip) (fun _ s' => ∃ s₁, s' = s₁.iupdated sb ip ∧ Busy sb ip s₁ ∧
      OnlyMap sb s.blocks s₁.blocks ∧ s₁.itable = update s.itable ip
        { s.itable ip with din := (s.itable ip).din.truncated }) E s := by
  -- all blocks of the inode are in flight from the start
  generalize hV : update (diskView sb s.blocks) (s.itable ip).inum (some fun _ => 0) = V
  have hoff : Owned sb s.blocks V (inodeBlocks s.blocks (s.itable ip).din.addrs ++ []) := by
    refine h.owned.take_off viewOf_self ?_ ?_
    · intro a ha
      rw [← hV, update_self] at ha
      exact (Option.some.inj ha).symm
    · intro j hj
      unfold viewOf
      rw [← hV, update_of_ne hj, update_of_ne hj]
  have hrange : ∀ b ∈ inodeBlocks s.blocks (s.itable ip).din.addrs, sb.dstart ≤ b :=
    fun b hb => (hoff.owns.used_of_mem (mem_append_left _ hb)).1
  rw [inodeBlocks_eq, append_assoc, append_assoc] at hoff
  rw [inodeBlocks_eq] at hrange
  have hr11 : ∀ b ∈ indexBlocks s.blocks ((s.itable ip).din.addrs 11), sb.dstart ≤ b :=
    fun b hb => hrange b (mem_append_right _ (mem_append_left _ hb))
  have hr12 : ∀ b ∈ secondBlocks s.blocks ((s.itable ip).din.addrs 12), sb.dstart ≤ b :=
    fun b hb => hrange b (mem_append_right _ (mem_append_right _ hb))
  unfold itrunc
  refine (wp_freeDirect hsb (by decide) hoff).seq ?_
  rintro _ s₁ ⟨h1, hm1, hi1⟩
  have ha1 : (s₁.itable ip).din.addrs = fun k => if k ∈ directs then 0
      else (s.itable ip).din.addrs k := by
    rw [hi1, setAddrs_self]
  have h11 : (s₁.itable ip).din.addrs 11 = (s.itable ip).din.addrs 11 := by
    rw [ha1]; exact if_neg (by decide)
  rw [← hm1.indexBlocks hr11, ← h11] at h1
  -- the indirect block
  rw [wp_bind]
  have hind := @wp_freeRoot _ _ _ _ E ip 11 _ _ (fun hne => frees_index hsb hne
    (by rw [h11] at hne ⊢; exact hr11 _ (mem_indexBlocks_self hne)))
    (fun hz => by rw [hz, indexBlocks_zero]) h1
  simp only [bind_assoc] at hind
  refine hind.post ?_
  rintro _ s2 ⟨h2, hm2, hi2⟩
  have hm12 := hm1.trans hm2
  have ha2 : (s2.itable ip).din.addrs = update (s₁.itable ip).din.addrs 11 0 := by
    rw [hi2, setAddrs_self]
  have h12 : (s2.itable ip).din.addrs 12 = (s.itable ip).din.addrs 12 := by
    rw [ha2, update_of_ne (by decide), ha1]; exact if_neg (by decide)
  rw [← hm12.secondBlocks hr12, ← h12] at h2
  -- the doubly-indirect block
  rw [wp_bind]
  have hdbl := @wp_freeRoot _ _ _ _ E ip 12 _ _ (fun hne => frees_double hsb hne
    (by rw [h12] at hne ⊢; exact hr12 _ (mem_secondBlocks_self hne)))
    (fun hz => by rw [hz, secondBlocks_zero]) h2
  simp only [bind_assoc] at hdbl
  refine hdbl.post ?_
  rintro _ s3 ⟨h3, hm3, hi3⟩
  have hm := hm12.trans hm3
  have hzero : update (s2.itable ip).din.addrs 12 0 = fun _ => 0 := by
    rw [ha2, ha1]
    funext k
    have hall : ∀ k : Fin NADDR, k = 12 ∨ k = 11 ∨ k ∈ directs := by decide
    rcases hall k with rfl | rfl | hk
    · simp
    · simp
    · simp [update_apply, hk]
  have hi : s3.itable = s.setAddrs ip fun _ => 0 := by
    rw [hi3, setAddrs_setAddrs hi2, setAddrs_setAddrs hi1, hzero]
  have hi4 : update s3.itable ip { s3.itable ip with
      din := { (s3.itable ip).din with size := 0 } } =
      update s.itable ip { s.itable ip with din := (s.itable ip).din.truncated } := by
    rw [hi, setAddrs_self]
    unfold Fs.setAddrs
    rw [update_idem]
    rfl
  refine ⟨⟨s3.blocks, _⟩, rfl, ⟨?_, ?_⟩, hm, hi4⟩
  · unfold viewOf
    rw [hi4]
    dsimp only
    rw [update_self, diskView_congr hm.inodes]
    rw [← hV] at h3
    exact h3
  · rw [hi4]
    dsimp only
    rw [update_self]
    exact h.inum_lt

end Loops

end NoviceKernel.FS
