import NoviceKernel.FsTrunc
import NoviceKernel.FsWrite
import NoviceKernel.Lib.Count

/-! # The file system between calls

    `Inv`: ownership for the on-disk inodes, and an inode table that agrees with
    them.  An operation opens an inode (`Inv.busy`), changes blocks and the
    inode in memory, and closes it again with `iupdate` (`Inv.close`). -/

namespace NoviceKernel.FS

open Hoare Function Count

/-- What holds between calls. -/
structure Inv (sb : Superblock) (s : Fs) : Prop where
  owned : Owned sb s.blocks (diskView sb s.blocks) []
  /-- An inode has at most one table entry in use. -/
  unique : ∀ ip jp, 0 < (s.itable ip).ref → 0 < (s.itable jp).ref →
    (s.itable ip).inum = (s.itable jp).inum → ip = jp
  inum_lt : ∀ ip, 0 < (s.itable ip).ref → (s.itable ip).inum < sb.ninodes
  /-- A valid entry is a copy of an allocated inode. -/
  valid : ∀ ip, 0 < (s.itable ip).ref → (s.itable ip).valid = true →
    (s.itable ip).din = dinode sb s.blocks (s.itable ip).inum ∧ (s.itable ip).din.type ≠ 0

/-- An entry that a caller holds with `ilock`. -/
structure Held (ip : Fin NINODE) (s : Fs) : Prop where
  ref : 0 < (s.itable ip).ref
  valid : (s.itable ip).valid = true

/-- The entries in use are of different inodes, all of them below `n`. -/
structure Numbered (n : Nat) (t : Fin NINODE → Inode) : Prop where
  unique : ∀ ip jp, 0 < (t ip).ref → 0 < (t jp).ref → (t ip).inum = (t jp).inum → ip = jp
  inum_lt : ∀ ip, 0 < (t ip).ref → (t ip).inum < n

/-- What `iget` did: a reference to the entry of the inode, or an entry that
    nobody used. -/
structure Got (inum : Nat) (s : Fs) (ip : Fin NINODE) (s' : Fs) : Prop where
  blocks : s'.blocks = s.blocks
  entry : ∃ x, s'.itable = update s.itable ip x ∧ x.inum = inum ∧ x.ref = (s.itable ip).ref + 1 ∧
    (0 < (s.itable ip).ref → (s.itable ip).inum = inum ∧ x.valid = (s.itable ip).valid ∧
      x.din = (s.itable ip).din) ∧
    ((s.itable ip).ref = 0 → x.valid = false ∧ ∀ jp, 0 < (s.itable jp).ref →
      (s.itable jp).inum ≠ inum)

/-- The blocks after `ialloc` took inode `inum`. -/
def Fs.allocInode (sb : Superblock) (s : Fs) (inum type : Nat) : Fs :=
  s.setBlock (IBLOCK sb inum)
    (((s.blocks (IBLOCK sb inum)).clear (ioff inum) DINODE).store (ioff inum) 2 type)

variable {n i inum : Nat} {x : Inode} {Q : Unit → Fs → Prop}

section

variable {sb : Superblock} {ip : Fin NINODE} {s s' : Fs} {E : Stop → Fs → Prop} {cp : Copyin}
  {src off : Nat} {t : Fin NINODE → Inode} {y : Dinode}

/-! ## The numbers of the entries -/

/-- An entry that gets a number no other entry in use has. -/
theorem Numbered.set (h : Numbered n t) (hlt : x.inum < n)
    (hne : ∀ jp, jp ≠ ip → 0 < (t jp).ref → (t jp).inum ≠ x.inum) : Numbered n (update t ip x) := by
  refine ⟨fun jp kp => ?_, fun jp => update_one jp (fun _ => hlt) fun jp _ => h.inum_lt jp⟩
  by_cases hj : jp = ip <;> by_cases hk : kp = ip
  · exact fun _ _ _ => hj.trans hk.symm
  · rw [hj, update_self, update_of_ne hk]
    exact fun _ hr he => absurd he.symm (hne kp hk hr)
  · rw [hk, update_self, update_of_ne hj]
    exact fun hr _ he => absurd he (hne jp hj hr)
  · rw [update_of_ne hj, update_of_ne hk]
    exact h.unique jp kp

/-- An entry that keeps its number. -/
theorem Numbered.keep (h : Numbered n t)
    (href : 0 < (t ip).ref) (hinum : x.inum = (t ip).inum) : Numbered n (update t ip x) :=
  h.set (hinum ▸ h.inum_lt ip href) fun jp hj hr he => hj (h.unique jp ip hr href (he.trans hinum))

theorem Inv.numbered (h : Inv sb s) : Numbered sb.ninodes s.itable := ⟨h.unique, h.inum_lt⟩

theorem Inv.inRange (h : Inv sb s) (hh : Held ip s) : (s.itable ip).din.InRange := by
  rw [(h.valid ip hh.ref hh.valid).1]
  exact Dinode.load_inRange _ _

/-- Opening an inode. -/
theorem Inv.busy (h : Inv sb s) (hh : Held ip s) : Busy sb ip s := by
  have hlt := h.inum_lt ip hh.ref
  obtain ⟨hd, ht⟩ := h.valid ip hh.ref hh.valid
  have hV : viewOf sb ip s = diskView sb s.blocks := by
    unfold viewOf
    rw [update_eq_self_iff]
    unfold diskView
    rw [← hd, if_pos ⟨hlt, ht⟩]
  exact ⟨hV ▸ h.owned, hlt⟩

/-! ## `iupdate` -/

theorem dinode_iupdated_self (hr : (s.itable ip).din.InRange) :
    dinode sb (s.iupdated sb ip).blocks (s.itable ip).inum = (s.itable ip).din := by
  unfold dinode Fs.iupdated
  dsimp only
  rw [update_self, Dinode.load_store (ioff_fits _) hr]

theorem dinode_iupdated_ne (hi : i ≠ (s.itable ip).inum) :
    dinode sb (s.iupdated sb ip).blocks i = dinode sb s.blocks i := by
  unfold dinode Fs.iupdated
  dsimp only
  by_cases hb : IBLOCK sb i = IBLOCK sb (s.itable ip).inum
  · rw [hb, update_self]
    refine Dinode.load_store_ne (ioff_disjoint hi.symm ?_)
    unfold IBLOCK at hb
    omega
  · rw [update_of_ne hb]

theorem diskView_of_dinode {blocks blocks' : Nat → Block}
    (h : dinode sb blocks' i = dinode sb blocks i) :
    diskView sb blocks' i = diskView sb blocks i := by
  unfold diskView
  rw [h]

/-- The entries of `addrs` fit a `uint`. -/
theorem Busy.addrs_lt (hsb : sb.Ok) (h : Busy sb ip s) (k : Fin NADDR) :
    (s.itable ip).din.addrs k < 2 ^ 32 := by
  by_cases hk : (s.itable ip).din.addrs k = 0
  · rw [hk]; decide
  · have hv : slotVal ip s (rootSlot k) = (s.itable ip).din.addrs k := val_rootSlot k
    have hm := h.range (t := rootSlot k) (by rwa [hv])
    rw [hv] at hm
    have := hm.2.1
    have := hsb.size_lt
    omega

/-- Closing an inode: `iupdate` makes the inode in memory the one on disk. -/
theorem Busy.iupdated (hsb : sb.Ok) (h : Busy sb ip s) (hr : (s.itable ip).din.InRange)
    (ht : (s.itable ip).din.type = 0 → (s.itable ip).din.addrs = fun _ => 0) :
    Owned sb (s.iupdated sb ip).blocks (diskView sb (s.iupdated sb ip).blocks) [] := by
  have hlt := h.inum_lt
  have hown : Owned sb (s.iupdated sb ip).blocks (viewOf sb ip s) [] := by
    refine h.owned.write (fun b hb e => hsb.apart _ b hlt hb e.symm) hsb.dstart_le ?_
    intro i a t hV _ hne he
    have := (h.owned.range hV hne).1
    have := hsb.inode _ hlt
    omega
  have hother : ∀ j, j ≠ (s.itable ip).inum →
      diskView sb (s.iupdated sb ip).blocks j = viewOf sb ip s j := by
    intro j hj
    unfold viewOf
    rw [update_of_ne hj, diskView_of_dinode (dinode_iupdated_ne hj)]
  have hself : diskView sb (s.iupdated sb ip).blocks (s.itable ip).inum =
      if (s.itable ip).din.type ≠ 0 then some (s.itable ip).din.addrs else none := by
    unfold diskView
    rw [dinode_iupdated_self hr]
    exact if_congr (and_iff_right hlt) rfl rfl
  by_cases h0 : (s.itable ip).din.type = 0
  · -- a freed inode owns nothing
    refine hown.empty_inode (i := (s.itable ip).inum) ?_ ?_ hother
    · intro a ha
      rw [viewOf_self, ht h0] at ha
      exact (Option.some.inj ha).symm
    · intro a ha
      rw [hself, if_neg (not_not.mpr h0)] at ha
      cases ha
  · have hV : diskView sb (s.iupdated sb ip).blocks = viewOf sb ip s := by
      funext j
      by_cases hj : j = (s.itable ip).inum
      · rw [hj, hself, if_pos h0, viewOf_self]
      · exact hother j hj
    rw [hV]
    exact hown

/-- The table after an operation on `ip`. -/
theorem Inv.close (h : Inv sb s) (href : 0 < (s.itable ip).ref)
    (hown : Owned sb s'.blocks (diskView sb s'.blocks) []) (hit : s'.itable = update s.itable ip x)
    (hinum : x.inum = (s.itable ip).inum)
    (hother : ∀ i, i < sb.ninodes → i ≠ (s.itable ip).inum →
      dinode sb s'.blocks i = dinode sb s.blocks i)
    (hself : 0 < x.ref → x.valid = true → x.din = dinode sb s'.blocks x.inum ∧ x.din.type ≠ 0) :
    Inv sb s' := by
  obtain ⟨hun, hlt⟩ := hit ▸ h.numbered.keep href hinum
  refine ⟨hown, hun, hlt, fun jp => ?_⟩
  rw [hit]
  refine update_one jp hself fun jp hne hj hv => ?_
  rw [hother _ (h.inum_lt jp hj) fun e => hne (h.unique jp ip hj href e)]
  exact h.valid jp hj hv

/-- An operation on `ip` that ends with `iupdate`. -/
theorem Inv.replace (hsb : sb.Ok) (h : Inv sb s) (hh : Held ip s) {s₁ : Fs}
    (hb : Busy sb ip s₁) (hit : s₁.itable = update s.itable ip { s.itable ip with din := y })
    (hin : ∀ i, i < sb.ninodes → s₁.blocks (IBLOCK sb i) = s.blocks (IBLOCK sb i))
    (hy : y.InRange) (ht : y.type ≠ 0) : Inv sb (s₁.iupdated sb ip) := by
  have hself : s₁.itable ip = { s.itable ip with din := y } := by rw [hit, update_self]
  have hy1 : (s₁.itable ip).din.InRange := by rw [hself]; exact hy
  refine h.close hh.ref (hb.iupdated hsb hy1 fun h0 => ?_) hit rfl ?_ ?_
  · rw [hself] at h0
    exact absurd h0 ht
  · intro i hi hne
    rw [dinode_iupdated_ne (by rw [hself]; exact hne), dinode_congr (hin i hi)]
  · intro _ _
    refine ⟨?_, ht⟩
    have : dinode sb (s₁.iupdated sb ip).blocks _ = _ := dinode_iupdated_self hy1
    rw [hself] at this
    exact this.symm

/-! ## The calls -/

/-- The inode in memory replaced. -/
def Fs.setDin (s : Fs) (ip : Fin NINODE) (y : Dinode) : Fs :=
  ⟨s.blocks, update s.itable ip { s.itable ip with din := y }⟩

@[simp] theorem setDin_self (s : Fs) (ip : Fin NINODE) (y : Dinode) :
    (s.setDin ip y).itable ip = { s.itable ip with din := y } :=
  update_self ..

@[simp] theorem wp_modifyDin {f : Dinode → Dinode} :
    wp (modifyDin ip f) Q E s ↔ Q () (s.setDin ip (f (s.itable ip).din)) := Iff.rfl

@[simp] theorem wp_iupdate : wp (iupdate sb ip) Q E s ↔ Q () (s.iupdated sb ip) := Iff.rfl

@[simp] theorem wp_setInode : wp (setInode ip x) Q E s ↔ Q () ⟨s.blocks, update s.itable ip x⟩ :=
  Iff.rfl

/-- Fields other than `addrs` do not matter for ownership. -/
theorem Busy.setDin (h : Busy sb ip s) (hy : y.addrs = (s.itable ip).din.addrs) :
    Busy sb ip (s.setDin ip y) := by
  refine ⟨?_, ?_⟩
  · unfold viewOf
    rw [setDin_self]
    dsimp only
    rw [hy]
    exact h.owned
  · rw [setDin_self]
    exact h.inum_lt

/-- `writei` when its checks pass. -/
theorem wp_writei (hsb : sb.Ok) (h : Busy sb ip s)
    (hoff : off ≤ (s.itable ip).din.size) (hwrap : off + n < 2 ^ 32)
    (hmax : off + n ≤ MAXFILE * BSIZE) :
    wp (writei sb cp ip src off n)
      (fun v s' => ∃ r s₁, Wrote sb cp ip (pathSlots off n) (dataSlots off n) off n 0 src s r s₁ ∧
        v = (r.1 : Int) ∧ s' = (s₁.setDin ip { (s₁.itable ip).din with
          size := max r.2 (s.itable ip).din.size }).iupdated sb ip)
      (Full sb ip (pathSlots off n) (dataSlots off n) s) s := by
  rw [writei, wp_bind, wp_get, Nat.mod_eq_of_lt hwrap, if_neg (by omega), if_neg (by omega)]
  refine (wp_writei_loop (k := n) hsb h (by omega) (Nat.zero_le n) hmax (Finset.Subset.refl _)
    (Finset.Subset.refl _)).seq ?_
  rintro ⟨tot, off'⟩ s₁ hw
  refine ⟨_, s₁, hw, rfl, ?_⟩
  have hsz : (s₁.itable ip).din.size = (s.itable ip).din.size := by
    rw [Steps.itable hw.steps, update_self]
  rw [← hsz]
  rfl

/-- `writei` when a check fails. -/
theorem writei_rejects (hoff : off < 2 ^ 32) (hn : n < 2 ^ 32)
    (h : (s.itable ip).din.size < off ∨ 2 ^ 32 ≤ off + n ∨ MAXFILE * BSIZE < off + n) :
    writei sb cp ip src off n s = .ok (-1) s := by
  show (if _ ∨ _ then pure (-1 : Int) else _ : FsM Int) s = _
  by_cases hbad : off > (s.itable ip).din.size ∨ (off + n) % 2 ^ 32 < off
  · rw [if_pos hbad]
    rfl
  · rw [if_neg hbad, if_pos (by omega)]
    rfl

section

variable {cp : Copyin} {src off n : Nat} (hsb : sb.Ok) (h : Inv sb s) (hh : Held ip s)
include hsb h hh

open FS

theorem Inv.writei (hoff : off < 2 ^ 32) (hn : n < 2 ^ 32) :
    wp (writei sb cp ip src off n) (fun _ s' => Inv sb s') (fun e _ => e = outOfBlocks) s := by
  by_cases hbad : (s.itable ip).din.size < off ∨ 2 ^ 32 ≤ off + n ∨ MAXFILE * BSIZE < off + n
  · unfold wp
    rw [writei_rejects hoff hn hbad]
    exact h
  · have hbusy := h.busy hh
    refine (wp_writei hsb hbusy (by omega) (by omega) (by omega)).mono ?_ fun e _ he => he.1
    rintro _ _ ⟨⟨tot, off'⟩, s1, hw, -, rfl⟩
    have hit := Steps.itable hw.steps
    have hb1 := Steps.busy hsb hbusy hw.steps
    have hr := h.inRange hh
    have hlt : max off' (s.itable ip).din.size < 2 ^ 32 := by
      have := hw.le_n
      have := hw.off_eq
      have := hr.size
      dsimp only at *
      omega
    refine h.replace hsb hh (y := { (s.itable ip).din with
      size := max off' (s.itable ip).din.size, addrs := (s1.itable ip).din.addrs })
      (hb1.setDin rfl) ?_ (fun i hi => (Steps.inodes hsb hbusy hw.steps hi :))
      ⟨hr.type, hr.major, hr.minor, hr.nlink, hlt, hb1.addrs_lt hsb⟩ (h.valid ip hh.ref hh.valid).2
    unfold Fs.setDin
    dsimp only
    rw [hit, update_self, update_idem]

theorem Inv.itrunc :
    wp (itrunc sb ip) (fun _ s' => Inv sb s' ∧ s'.itable =
      update s.itable ip { s.itable ip with din := (s.itable ip).din.truncated }) E s := by
  refine (wp_itrunc hsb (h.busy hh)).post ?_
  rintro _ _ ⟨s1, rfl, hb1, hm, hit⟩
  have hr := h.inRange hh
  exact ⟨h.replace hsb hh hb1 hit hm.inodes
    ⟨hr.type, hr.major, hr.minor, hr.nlink, Nat.two_pow_pos 32, fun _ => Nat.two_pow_pos 32⟩
    (h.valid ip hh.ref hh.valid).2, hit⟩

theorem Inv.setNlink (v : Nat) : wp (FS.setNlink sb ip v) (fun _ s' => Inv sb s') E s := by
  have hr := h.inRange hh
  rw [FS.setNlink, wp_bind, wp_modifyDin, wp_iupdate]
  exact h.replace hsb hh ((h.busy hh).setDin rfl) rfl (fun _ _ => rfl)
    ⟨hr.type, hr.major, hr.minor, Nat.mod_lt _ (by decide), hr.size, hr.addrs⟩
    (h.valid ip hh.ref hh.valid).2

/-- The inode is marked free and the entry invalid. -/
theorem Inv.ifree :
    wp (FS.ifree sb ip) (fun _ s' => Inv sb s' ∧ (s'.itable ip).ref = (s.itable ip).ref) E s := by
  rw [FS.ifree]
  refine (h.itrunc hsb hh).seq ?_
  rintro _ s₁ ⟨h₁, hit⟩
  have hip : s₁.itable ip = { s.itable ip with din := (s.itable ip).din.truncated } := by
    rw [hit, update_self]
  have hh1 : Held ip s₁ := ⟨by rw [hip]; exact hh.ref, by rw [hip]; exact hh.valid⟩
  have hr := h₁.inRange hh1
  rw [wp_bind, wp_modifyDin, wp_bind, wp_iupdate, wp_bind, wp_get, wp_setInode]
  generalize hs2 : s₁.setDin ip { (s₁.itable ip).din with type := 0 } = s2
  have hit2 : s2.itable = update s₁.itable ip { s₁.itable ip with
      din := { (s₁.itable ip).din with type := 0 } } := by rw [← hs2]; rfl
  have hip2 : s2.itable ip =
      { s₁.itable ip with din := { (s₁.itable ip).din with type := 0 } } := by
    rw [hit2, update_self]
  have hb2 : Busy sb ip s2 := hs2 ▸ (h₁.busy hh1).setDin rfl
  have hbl : s2.blocks = s₁.blocks := by rw [← hs2]; rfl
  have haddrs : (s2.itable ip).din.addrs = fun _ => 0 := by
    rw [hip2, hip]
    rfl
  have hup : ∀ x, update s2.itable ip x = update s₁.itable ip x := fun x => by
    rw [hit2, update_idem]
  have hown := hb2.iupdated hsb (by
    rw [hip2]
    exact ⟨Nat.two_pow_pos 16, hr.major, hr.minor, hr.nlink, hr.size, hr.addrs⟩) fun _ => haddrs
  refine ⟨h₁.close hh1.ref (x := { s2.itable ip with valid := false }) hown ?_ ?_ ?_ ?_, ?_⟩
  · exact hup _
  · rw [hip2]
  · intro i hi hne
    rw [dinode_iupdated_ne (by rw [hip2]; exact hne), hbl]
  · exact fun _ hv => nomatch hv
  · dsimp only
    rw [update_self]
    show (s2.itable ip).ref = _
    rw [hip2, hip]

end

/-- `ip->ref--`. -/
theorem Inv.unref (h : Inv sb s) (href : 0 < (s.itable ip).ref) :
    wp (FS.unref ip) (fun _ s' => Inv sb s') E s := by
  rw [FS.unref, wp_bind, wp_get, wp_setInode]
  exact h.close href h.owned rfl rfl (fun _ _ _ => rfl) fun hr hv => h.valid ip href hv

theorem Inv.iput (hsb : sb.Ok) (h : Inv sb s) (href : 0 < (s.itable ip).ref) :
    wp (FS.iput sb ip) (fun _ s' => Inv sb s') E s := by
  rw [FS.iput, wp_bind, wp_get]
  split
  · next hlast =>
    refine (h.ifree hsb ⟨href, hlast.2.1⟩).seq ?_
    rintro _ s1 ⟨h1, hr1⟩
    exact h1.unref (by rw [hr1]; exact href)
  · exact h.unref href

theorem Inv.idup (h : Inv sb s) (href : 0 < (s.itable ip).ref) :
    wp (FS.idup ip) (fun _ s' => Inv sb s') E s := by
  rw [FS.idup, wp_bind, wp_get, wp_setInode]
  exact h.close href h.owned rfl rfl (fun _ _ _ => rfl) fun hr hv => h.valid ip href hv

/-- Panics other than the one that ownership rules out. -/
def NotDoubleFree (e : Stop) (_ : Fs) : Prop := e ≠ .panic "freeing free block"

theorem Inv.ilock (h : Inv sb s) :
    wp (FS.ilock sb ip) (fun _ s' => Inv sb s' ∧ Held ip s') NotDoubleFree s := by
  rw [FS.ilock, wp_bind, wp_get]
  split
  · next hr => exact nofun
  · next hr =>
    have href : 0 < (s.itable ip).ref := by omega
    split
    · next hv => exact ⟨h, href, hv⟩
    · rw [wp_bind, wp_bread]
      dsimp only
      rw [wp_bind, wp_setInode]
      split
      · exact nofun
      · next ht =>
        refine ⟨h.close href h.owned rfl rfl (fun _ _ _ => rfl) fun _ _ => ⟨rfl, ht⟩, ?_, ?_⟩
        · simpa using href
        · simp

theorem wp_iget (s : Fs) :
    wp (iget inum) (Got inum s) (fun e _ => e = .panic "iget: no inodes") s := by
  rw [iget, wp_bind, wp_get]
  split
  · next ip hfind =>
    have hip := List.find?_some hfind
    rw [decide_eq_true_iff] at hip
    rw [wp_bind, wp_setInode]
    exact ⟨rfl, _, rfl, hip.2, rfl, fun _ => ⟨hip.2, rfl, rfl⟩, fun h0 => absurd hip.1 (by omega)⟩
  · next hnone =>
    split
    · next ip hfree =>
      have h0 := List.find?_some hfree
      rw [decide_eq_true_iff] at h0
      rw [wp_bind, wp_setInode]
      refine ⟨rfl, _, rfl, rfl, by rw [h0], fun hr => absurd hr (by omega), fun _ => ⟨rfl, ?_⟩⟩
      intro jp hr he
      have := List.find?_eq_none.mp hnone jp (List.mem_finRange jp)
      simp [hr, he] at this
    · rfl

theorem Got.numbered (hg : Got inum s ip s') (h : Numbered n s.itable) (hi : inum < n) :
    Numbered n s'.itable := by
  obtain ⟨-, x, hit, hinum, -, hold, hnew⟩ := hg
  rw [hit]
  by_cases href : 0 < (s.itable ip).ref
  · exact h.keep href (hinum.trans (hold href).1.symm)
  · exact h.set (hinum ▸ hi) fun jp _ hr => hinum ▸ (hnew (by omega)).2 jp hr

theorem Inv.iget (h : Inv sb s) (hi : inum < sb.ninodes) :
    wp (iget inum) (fun _ s' => Inv sb s') NotDoubleFree s := by
  refine (wp_iget s).mono (fun ip s' hg => ?_) ?_
  · obtain ⟨hun, hlt⟩ := hg.numbered h.numbered hi
    obtain ⟨hbl, x, hit, hinum, -, hold, hnew⟩ := hg
    refine ⟨hbl ▸ h.owned, hun, hlt, fun jp => ?_⟩
    rw [hit, hbl]
    refine update_one jp (fun _ hv => ?_) fun jp _ => h.valid jp
    by_cases href : 0 < (s.itable ip).ref
    · obtain ⟨hi', hval, hd⟩ := hold href
      rw [hd, hinum, ← hi']
      exact h.valid ip href (hval ▸ hv)
    · rw [(hnew (by omega)).1] at hv
      cases hv
  · rintro _ _ rfl
    exact nofun

/-! ### `ialloc` -/

/-- The inode that `ialloc` writes. -/
theorem load_ialloc_self {d : Block} {o type : Nat} (ho : o + DINODE ≤ BSIZE) :
    Dinode.load ((d.clear o DINODE).store o 2 type) o =
      ⟨type % 2 ^ 16, 0, 0, 0, 0, fun _ => 0⟩ := by
  have hz : ∀ b n, o + 2 ≤ b → b + n ≤ o + DINODE →
      ((d.clear o DINODE).store o 2 type).load b n = 0 := by
    intro b n h1 h2
    rw [Block.load_store_disjoint (by omega), Block.load_clear (by omega) h2]
  rw [DINODE_eq] at ho hz
  unfold Dinode.load
  congr 1
  · rw [DINODE_eq, Block.load_store_same (by omega)]
    norm_num
  · exact hz _ _ (by omega) (by omega)
  · exact hz _ _ (by omega) (by omega)
  · exact hz _ _ (by omega) (by omega)
  · exact hz _ _ (by omega) (by omega)
  · funext k
    have hk := k.isLt
    unfold NADDR at hk
    exact hz _ _ (by omega) (by omega)

section

variable {inum type : Nat}

theorem dinode_alloc_self :
    dinode sb (s.allocInode sb inum type).blocks inum =
      ⟨type % 2 ^ 16, 0, 0, 0, 0, fun _ => 0⟩ := by
  unfold dinode Fs.allocInode
  dsimp only
  rw [update_self, load_ialloc_self (ioff_fits _)]

theorem dinode_alloc_ne (hne : i ≠ inum) :
    dinode sb (s.allocInode sb inum type).blocks i = dinode sb s.blocks i := by
  unfold dinode Fs.allocInode
  dsimp only
  by_cases hb : IBLOCK sb i = IBLOCK sb inum
  · rw [hb, update_self]
    have hd := ioff_disjoint hne.symm (by unfold IBLOCK at hb; omega)
    apply Dinode.load_congr
    intro b n h1 h2
    rw [DINODE_eq] at *
    rw [Block.load_store_disjoint (by omega), Block.load_clear_disjoint (by omega)]
  · rw [update_of_ne hb]

/-- The new inode has no blocks. -/
theorem Owned.allocInode (hsb : sb.Ok) (h : Owned sb s.blocks (diskView sb s.blocks) [])
    (hi : inum < sb.ninodes) (hfree : (dinode sb s.blocks inum).type = 0) :
    Owned sb (s.allocInode sb inum type).blocks
      (diskView sb (s.allocInode sb inum type).blocks) [] := by
  have hown : Owned sb (s.allocInode sb inum type).blocks (diskView sb s.blocks) [] := by
    refine h.write (fun b hb e => hsb.apart inum b hi hb e.symm) hsb.dstart_le ?_
    intro i a t hV _ hv he
    have := (h.range hV hv).1
    have := hsb.inode inum hi
    omega
  refine hown.empty_inode (i := inum) ?_ ?_ fun j hj => diskView_of_dinode (dinode_alloc_ne hj)
  · intro a ha
    unfold diskView at ha
    rw [if_neg (fun hc => hc.2 hfree)] at ha
    cases ha
  · intro a ha
    unfold diskView at ha
    split at ha
    · rw [dinode_alloc_self] at ha
      exact (Option.some.inj ha).symm
    · cases ha

theorem Inv.allocInode (hsb : sb.Ok) (h : Inv sb s) (hi : inum < sb.ninodes)
    (hfree : (dinode sb s.blocks inum).type = 0) : Inv sb (s.allocInode sb inum type) := by
  refine ⟨h.owned.allocInode hsb hi hfree, h.unique, h.inum_lt, fun jp hj hv => ?_⟩
  -- a valid entry is of an allocated inode, so not of this one
  obtain ⟨hd, ht⟩ := h.valid jp hj hv
  have hne : (s.itable jp).inum ≠ inum := fun e => by rw [hd, e] at ht; exact ht hfree
  exact ⟨hd.trans (dinode_alloc_ne hne).symm, ht⟩

theorem wp_ialloc_loop {Q : Fin NINODE → Fs → Prop} (hfull : E (.panic "ialloc: no inodes") s)
    (h : ∀ inum, inum < sb.ninodes → (dinode sb s.blocks inum).type = 0 →
      wp (iget inum) Q E (s.allocInode sb inum type)) (hn : inum + n ≤ sb.ninodes) :
    wp (ialloc_loop sb type n inum) Q E s := by
  induction n generalizing inum with
  | zero => exact hfull
  | succ n ih =>
    rw [ialloc_loop, wp_bind, wp_bread]
    split
    · next hz =>
      rw [wp_bind, wp_writeBlock]
      exact h inum (by omega) hz
    · exact ih (by omega)

/-- `ialloc` takes a free inode and gets an entry for it. -/
theorem wp_ialloc {Q : Fin NINODE → Fs → Prop} (hfull : E (.panic "ialloc: no inodes") s)
    (h : ∀ inum, inum < sb.ninodes → (dinode sb s.blocks inum).type = 0 →
      wp (iget inum) Q E (s.allocInode sb inum type)) : wp (ialloc sb type) Q E s := by
  unfold ialloc
  by_cases h0 : sb.ninodes = 0
  · rw [h0]
    exact hfull
  · exact wp_ialloc_loop hfull h (by omega)

theorem Inv.ialloc (hsb : sb.Ok) (h : Inv sb s) :
    wp (ialloc sb type) (fun _ s' => Inv sb s') NotDoubleFree s :=
  wp_ialloc nofun fun _ hi hz => (h.allocInode hsb hi hz).iget hi

end

end

end NoviceKernel.FS
