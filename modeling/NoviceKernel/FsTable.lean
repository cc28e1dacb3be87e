import NoviceKernel.FsContents

/-! # The inode table during calls

    `node` is what the disk stores under an inode number: the fields of the
    inode and its bytes.  `Table` is what holds of the disk and the inode table
    at any point of a call.  The fields of an entry in memory can be ahead of
    those on the disk, and its inode can just have been freed; but the size and
    the blocks of a valid entry are always those on the disk.

    For every operation there is one theorem that says what it does to the
    entries and to the nodes; an operation on one inode leaves all other nodes
    alone (`OnlyNode`). -/

namespace NoviceKernel.FS

open Hoare TransitionSystem Function Count Nat

/-! ## What the disk stores -/

/-- An inode with its contents. -/
@[ext] structure Node where
  attr : Attr
  data : List UInt8

section

variable (sb : Superblock) (blocks : Nat → Block)

/-- Byte `o` of the inode number `i`. -/
def nodeByte (i o : Nat) : UInt8 :=
  let b := val blocks (dinode sb blocks i).addrs (leaf (o / BSIZE))
  if b = 0 then 0 else (blocks b).byte (o % BSIZE)

/-- The bytes of the inode number `i`. -/
def nodeData (i : Nat) : List UInt8 :=
  (List.range (dinode sb blocks i).size).map (nodeByte sb blocks i)

/-- The inode number `i` on the disk, if it is allocated. -/
def node (i : Nat) : Option Node :=
  if i < sb.ninodes ∧ (dinode sb blocks i).type ≠ 0 then
    some ⟨(dinode sb blocks i).attr, nodeData sb blocks i⟩
  else none

/-- The blocks in the slots of an inode with the given `addrs` are as before. -/
def SameData (blocks blocks' : Nat → Block) (a : Fin NADDR → Nat) : Prop :=
  ∀ t, val blocks a t ≠ 0 → blocks' (val blocks a t) = blocks (val blocks a t)

/-- No block of the inode below its size is missing. -/
structure Whole (i : Nat) : Prop where
  size_le : (dinode sb blocks i).size ≤ MAXFILE * BSIZE
  block : ∀ o, o < (dinode sb blocks i).size →
    val blocks (dinode sb blocks i).addrs (leaf (o / BSIZE)) ≠ 0

end

/-- Inodes other than `i`, and their contents, are as before. -/
structure OnlyNode (sb : Superblock) (i : Nat) (blocks blocks' : Nat → Block) : Prop where
  dinode : ∀ j, j < sb.ninodes → j ≠ i → dinode sb blocks' j = dinode sb blocks j
  data : ∀ j, j < sb.ninodes → j ≠ i → (FS.dinode sb blocks j).type ≠ 0 →
    SameData blocks blocks' (FS.dinode sb blocks j).addrs

section Nodes

variable {sb : Superblock} {ip : Fin NINODE} {s s' : Fs} {blocks blocks' blocks'' : Nat → Block}
  {i j : Nat} {a : Fin NADDR → Nat}

theorem SameData.val (h : SameData blocks blocks' a) (t : Slot) :
    FS.val blocks' a t = FS.val blocks a t :=
  val_congr (fun u _ hne => h u hne) t

theorem SameData.trans (h : SameData blocks blocks' a) (h' : SameData blocks' blocks'' a) :
    SameData blocks blocks'' a := by
  intro t ht
  have hv := h.val t
  have h2 := h' t (by rwa [hv])
  rw [hv] at h2
  rw [h2, h t ht]

theorem nodeByte_same (hd : dinode sb blocks' i = dinode sb blocks i)
    (h : SameData blocks blocks' (dinode sb blocks i).addrs) (o : Nat) :
    nodeByte sb blocks' i o = nodeByte sb blocks i o := by
  unfold nodeByte
  rw [hd, h.val]
  dsimp only
  split
  · rfl
  · next hne => rw [h _ hne]

theorem nodeData_same (hd : dinode sb blocks' i = dinode sb blocks i)
    (h : SameData blocks blocks' (dinode sb blocks i).addrs) :
    nodeData sb blocks' i = nodeData sb blocks i := by
  unfold nodeData
  rw [hd]
  exact List.map_congr_left fun o _ => nodeByte_same hd h o

theorem Whole.same (h : Whole sb blocks i) (hd : dinode sb blocks' i = dinode sb blocks i)
    (hs : SameData blocks blocks' (dinode sb blocks i).addrs) : Whole sb blocks' i := by
  refine ⟨by rw [hd]; exact h.size_le, fun o ho => ?_⟩
  rw [hd] at ho ⊢
  rw [hs.val]
  exact h.block o ho

theorem node_of_type (hi : i < sb.ninodes) (ht : (dinode sb blocks i).type ≠ 0) :
    node sb blocks i = some ⟨(dinode sb blocks i).attr, nodeData sb blocks i⟩ :=
  if_pos ⟨hi, ht⟩

theorem node_eq_some {nd : Node} (h : node sb blocks i = some nd) :
    i < sb.ninodes ∧ (dinode sb blocks i).type ≠ 0 ∧
      nd = ⟨(dinode sb blocks i).attr, nodeData sb blocks i⟩ := by
  unfold node at h
  split at h
  · next hc => exact ⟨hc.1, hc.2, (Option.some.inj h).symm⟩
  · cases h

theorem node_eq_none (h : (dinode sb blocks i).type = 0) : node sb blocks i = none :=
  if_neg fun hc => hc.2 h

namespace OnlyNode

theorem refl (i : Nat) (blocks : Nat → Block) : OnlyNode sb i blocks blocks :=
  ⟨fun _ _ _ => rfl, fun _ _ _ _ _ _ => rfl⟩

variable (h : OnlyNode sb i blocks blocks')
include h

theorem trans (h' : OnlyNode sb i blocks' blocks'') : OnlyNode sb i blocks blocks'' := by
  refine ⟨fun j hj hne => (h'.dinode j hj hne).trans (h.dinode j hj hne), fun j hj hne ht => ?_⟩
  have hd := h.dinode j hj hne
  have h2 := h'.data j hj hne (by rwa [hd])
  rw [hd] at h2
  exact (h.data j hj hne ht).trans h2

theorem node (hj : j ≠ i) : node sb blocks' j = FS.node sb blocks j := by
  by_cases hlt : j < sb.ninodes
  · have hd := h.dinode j hlt hj
    unfold FS.node
    rw [hd]
    split
    · next hc => rw [nodeData_same hd (h.data j hlt hj hc.2)]
    · rfl
  · unfold FS.node
    rw [if_neg (fun hc => hlt hc.1), if_neg (fun hc => hlt hc.1)]

theorem whole (hj : j ≠ i) (hlt : j < sb.ninodes)
    (ht : (FS.dinode sb blocks j).type ≠ 0) (hw : Whole sb blocks j) : Whole sb blocks' j :=
  hw.same (h.dinode j hlt hj) (h.data j hlt hj ht)

end OnlyNode

/-! ### The open inode and its node -/

theorem fileByte_eq (h : (s.itable ip).din.addrs = (dinode sb s.blocks i).addrs) (o : Nat) :
    fileByte ip s o = nodeByte sb s.blocks i o := by
  unfold fileByte slotVal nodeByte
  rw [h]

section

variable (ha : (s.itable ip).din.addrs = (dinode sb s.blocks i).addrs)
  (hs : (s.itable ip).din.size = (dinode sb s.blocks i).size)
include ha hs

theorem contents_eq : contents ip s = nodeData sb s.blocks i := by
  unfold contents nodeData
  rw [hs]
  exact List.map_congr_left fun o _ => fileByte_eq ha o

theorem Whole.mapped (h : Whole sb s.blocks i) : Mapped ip s := by
  refine ⟨by rw [hs]; exact h.size_le, fun o ho => ?_⟩
  unfold slotVal
  rw [ha]
  exact h.block o (by rwa [← hs])

theorem Mapped.whole (h : Mapped ip s) : Whole sb s.blocks i := by
  refine ⟨by rw [← hs]; exact h.size_le, fun o ho => ?_⟩
  rw [← ha]
  exact h.block o (by rwa [hs])

end

/-! ### Operations on one inode leave the others alone -/

/-- The blocks of another inode are in use and not the open inode's. -/
theorem Busy.other (h : Busy sb ip s) (hj : j < sb.ninodes) (hne : j ≠ (s.itable ip).inum)
    (ht : (dinode sb s.blocks j).type ≠ 0) {t : Slot}
    (hv : val s.blocks (dinode sb s.blocks j).addrs t ≠ 0) :
    marked sb s.blocks (val s.blocks (dinode sb s.blocks j).addrs t) ∧
    ∀ u, slotVal ip s u ≠ val s.blocks (dinode sb s.blocks j).addrs t := by
  have hV : viewOf sb ip s j = some (dinode sb s.blocks j).addrs := by
    unfold viewOf
    rw [update_of_ne hne]
    exact if_pos ⟨hj, ht⟩
  refine ⟨h.owned.range hV hv, fun u he => hne ?_⟩
  exact (h.owned.unique hV viewOf_self hv he.symm).1

theorem Steps.onlyNode {T W : Finset Slot} (hsb : sb.Ok) (h : Busy sb ip s)
    (hp : Steps sb ip T W s s') : OnlyNode sb (s.itable ip).inum s.blocks s'.blocks := by
  refine ⟨fun j hj _ => dinode_congr (Steps.inodes hsb h hp hj), fun j hj hne ht t hv => ?_⟩
  obtain ⟨hm, hno⟩ := h.other hj hne ht hv
  exact (Steps.kept hsb h hp hm hno).1

theorem OnlyMap.onlyNode (h : Busy sb ip s) (hm : OnlyMap sb s.blocks blocks') :
    OnlyNode sb (s.itable ip).inum s.blocks blocks' := by
  refine ⟨fun j hj _ => dinode_congr (hm.inodes j hj), fun j hj hne ht t hv => ?_⟩
  exact hm.data _ (h.other hj hne ht hv).1.1

theorem iupdated_onlyNode (hsb : sb.Ok) (h : Busy sb ip s) :
    OnlyNode sb (s.itable ip).inum s.blocks (s.iupdated sb ip).blocks := by
  refine ⟨fun j _ hne => dinode_iupdated_ne hne, fun j hj hne ht t hv => ?_⟩
  have := (h.other hj hne ht hv).1.1
  have := hsb.inode _ h.inum_lt
  exact update_of_ne (by omega) _ _

end Nodes

/-! ## The table -/

/-- How the copy `x` of a valid entry stands to the inode `d` on the disk. -/
structure Agrees (x d : Dinode) : Prop where
  size : x.size = d.size
  addrs : x.addrs = d.addrs
  range : x.InRange
  type : x.type ≠ 0 → d.type = x.type
  /-- The type is only cleared to free an inode without blocks. -/
  empty : x.type = 0 → x.size = 0 ∧ x.addrs = fun _ => 0

/-- What holds of the disk and the inode table during calls. -/
structure Table (sb : Superblock) (s : Fs) : Prop where
  owned : Owned sb s.blocks (diskView sb s.blocks) []
  /-- An inode has at most one table entry in use. -/
  unique : ∀ ip jp, 0 < (s.itable ip).ref → 0 < (s.itable jp).ref →
    (s.itable ip).inum = (s.itable jp).inum → ip = jp
  inum_lt : ∀ ip, 0 < (s.itable ip).ref → (s.itable ip).inum < sb.ninodes
  whole : ∀ i, i < sb.ninodes → (dinode sb s.blocks i).type ≠ 0 → Whole sb s.blocks i
  agrees : ∀ ip, 0 < (s.itable ip).ref → (s.itable ip).valid = true →
    Agrees (s.itable ip).din (dinode sb s.blocks (s.itable ip).inum)

section Table

variable {sb : Superblock} {ip : Fin NINODE} {s s' : Fs} {E : Stop → Fs → Prop} {x d : Dinode}
  {cp : Nat → Nat → Bool} {dst off n : Nat} {inum : Nat}

theorem dinode_inRange (sb : Superblock) (blocks : Nat → Block) (i : Nat) :
    (dinode sb blocks i).InRange :=
  Dinode.load_inRange _ _

/-- A copy of an allocated inode. -/
theorem Agrees.refl (hr : d.InRange) (ht : d.type ≠ 0) : Agrees d d :=
  ⟨rfl, rfl, hr, fun _ => rfl, fun h0 => absurd h0 ht⟩

/-- A file system between calls. -/
theorem Inv.table (h : Inv sb s) (hw : ∀ i, i < sb.ninodes → (dinode sb s.blocks i).type ≠ 0 →
    Whole sb s.blocks i) : Table sb s := by
  refine ⟨h.owned, h.unique, h.inum_lt, hw, fun ip hr hv => ?_⟩
  obtain ⟨hd, ht⟩ := h.valid ip hr hv
  rw [← hd]
  refine .refl ?_ ht
  rw [hd]
  exact dinode_inRange ..

namespace Table

section

variable (h : Table sb s)
include h

theorem numbered : Numbered sb.ninodes s.itable := ⟨h.unique, h.inum_lt⟩

theorem busy (hh : Held ip s) : Busy sb ip s := by
  have hlt := h.inum_lt ip hh.ref
  have hag := h.agrees ip hh.ref hh.valid
  refine ⟨?_, hlt⟩
  by_cases ht : (dinode sb s.blocks (s.itable ip).inum).type = 0
  · -- an inode that has been freed has no blocks
    have hempty : (s.itable ip).din.addrs = fun _ => 0 := by
      by_cases hx : (s.itable ip).din.type = 0
      · exact (hag.empty hx).2
      · exact absurd ht (by rw [hag.type hx]; exact hx)
    refine h.owned.empty_inode (i := (s.itable ip).inum) ?_ ?_ ?_
    · intro a ha
      unfold diskView at ha
      rw [if_neg (fun hc => hc.2 ht)] at ha
      cases ha
    · intro a ha
      rw [viewOf_self, hempty] at ha
      exact (Option.some.inj ha).symm
    · exact fun j hj => update_of_ne hj _ _
  · have hV : viewOf sb ip s = diskView sb s.blocks := by
      unfold viewOf
      rw [update_eq_self_iff]
      unfold diskView
      rw [if_pos ⟨hlt, ht⟩, hag.addrs]
    exact hV ▸ h.owned

theorem mapped (hh : Held ip s) : Mapped ip s := by
  have hag := h.agrees ip hh.ref hh.valid
  by_cases hx : (s.itable ip).din.type = 0
  · have h0 := (hag.empty hx).1
    exact ⟨by rw [h0]; exact zero_le _, fun o ho => by rw [h0] at ho; cases ho⟩
  · exact (h.whole _ (h.inum_lt ip hh.ref) (by rw [hag.type hx]; exact hx)).mapped hag.addrs
      hag.size

/-- The bytes of an open inode are those of its node. -/
theorem contents (hh : Held ip s) : FS.contents ip s = nodeData sb s.blocks (s.itable ip).inum := by
  have hag := h.agrees ip hh.ref hh.valid
  exact contents_eq hag.addrs hag.size

/-- The table after an operation on `ip`. -/
theorem close (href : 0 < (s.itable ip).ref) {x : Inode}
    (hown : Owned sb s'.blocks (diskView sb s'.blocks) []) (hit : s'.itable = update s.itable ip x)
    (hinum : x.inum = (s.itable ip).inum)
    (hother : OnlyNode sb (s.itable ip).inum s.blocks s'.blocks)
    (hw : (dinode sb s'.blocks (s.itable ip).inum).type ≠ 0 → Whole sb s'.blocks (s.itable ip).inum)
    (hself : 0 < x.ref → x.valid = true → Agrees x.din (dinode sb s'.blocks (s.itable ip).inum)) :
    Table sb s' := by
  obtain ⟨hun, hlt⟩ := hit ▸ h.numbered.keep href hinum
  refine ⟨hown, hun, hlt, ?_, fun jp => ?_⟩
  · intro i hi ht
    by_cases hii : i = (s.itable ip).inum
    · rw [hii] at ht ⊢
      exact hw ht
    · rw [hother.dinode i hi hii] at ht
      exact hother.whole hii hi ht (h.whole i hi ht)
  · rw [hit]
    refine update_one jp (hinum ▸ hself) fun jp hne hj hv => ?_
    rw [hother.dinode _ (h.inum_lt jp hj) fun e => hne (h.unique jp ip hj href e)]
    exact h.agrees jp hj hv

/-- Only the entry changes, not the disk. -/
theorem setEntry (href : 0 < (s.itable ip).ref) {x : Inode} (hinum : x.inum = (s.itable ip).inum)
    (hself : 0 < x.ref → x.valid = true → Agrees x.din (dinode sb s.blocks (s.itable ip).inum)) :
    Table sb ⟨s.blocks, update s.itable ip x⟩ :=
  h.close href h.owned rfl hinum (.refl _ _) (fun ht => h.whole _ (h.inum_lt ip href) ht) hself

end

/-! ## Operations -/

/-- Changing fields other than the size and the blocks. The type is only
    cleared if there are no blocks. -/
theorem modifyDin (h : Table sb s) (hh : Held ip s) {m : Attr}
    (hr : ((s.itable ip).din.setAttr m).InRange)
    (hm : m.type = (s.itable ip).din.type ∨
      m.type = 0 ∧ (s.itable ip).din.size = 0 ∧ (s.itable ip).din.addrs = fun _ => 0) :
    Table sb (s.setDin ip ((s.itable ip).din.setAttr m)) := by
  have hag := h.agrees ip hh.ref hh.valid
  refine h.setEntry hh.ref rfl fun _ _ => ⟨hag.size, hag.addrs, hr, fun hne => ?_, fun h0 => ?_⟩
  · rcases hm with he | hz
    · exact (hag.type (he ▸ hne)).trans he.symm
    · exact absurd hz.1 hne
  · rcases hm with he | hz
    · exact hag.empty (he ▸ h0)
    · exact hz.2

section

variable {s₁ : Fs} {y : Dinode} {cp : Copyin} {src off n : Nat} (hsb : sb.Ok) (h : Table sb s)
  (hh : Held ip s)
include hsb h hh

/-- `iupdate`: the inode on the disk is the one in memory. -/
theorem iupdate :
    Table sb (s.iupdated sb ip) ∧
    OnlyNode sb (s.itable ip).inum s.blocks (s.iupdated sb ip).blocks ∧
    dinode sb (s.iupdated sb ip).blocks (s.itable ip).inum = (s.itable ip).din ∧
    nodeData sb (s.iupdated sb ip).blocks (s.itable ip).inum =
      nodeData sb s.blocks (s.itable ip).inum := by
  have hb := h.busy hh
  have hag := h.agrees ip hh.ref hh.valid
  have hself : dinode sb (s.iupdated sb ip).blocks (s.itable ip).inum = (s.itable ip).din :=
    dinode_iupdated_self hag.range
  have hother := iupdated_onlyNode hsb hb
  have hmap : Mapped ip (s.iupdated sb ip) := by
    obtain ⟨hle, hblk⟩ := h.mapped hh
    exact ⟨hle, fun o ho => by rw [iupdated_slotVal hsb hb]; exact hblk o ho⟩
  refine ⟨?_, hother, hself, ?_⟩
  · refine h.close hh.ref (hb.iupdated hsb hag.range fun h0 => (hag.empty h0).2) (x := s.itable ip)
      (by rw [update_eq_self]; rfl) rfl hother (fun _ => hmap.whole ?_ ?_) ?_
    · rw [hself]; rfl
    · rw [hself]; rfl
    · intro _ _
      rw [hself]
      exact ⟨rfl, rfl, hag.range, fun _ => rfl, hag.empty⟩
  · have hc : FS.contents ip (s.iupdated sb ip) = _ :=
      contents_eq (by rw [hself]; rfl) (by rw [hself]; rfl)
    rw [← hc, ← h.contents hh]
    exact List.map_congr_left fun o _ => iupdated_fileByte hsb hb o

/-- What an operation on an open inode that ends with `iupdate` has done: the
    inode on the disk is `y`, its bytes are `data`. -/
structure Wrote (sb : Superblock) (ip : Fin NINODE) (y : Dinode) (data : List UInt8) (s s' : Fs) :
    Prop where
  table : Table sb s'
  itable : s'.itable = update s.itable ip { s.itable ip with din := y }
  only : OnlyNode sb (s.itable ip).inum s.blocks s'.blocks
  self : dinode sb s'.blocks (s.itable ip).inum = y
  data : nodeData sb s'.blocks (s.itable ip).inum = data

/-- An operation on an open inode that ends with `iupdate`. -/
theorem replace (hb : Busy sb ip s₁)
    (hit : s₁.itable = update s.itable ip { s.itable ip with din := y })
    (hon : OnlyNode sb (s.itable ip).inum s.blocks s₁.blocks) (hy : y.InRange) (ht : y.type ≠ 0)
    (hm : Mapped ip s₁) : Wrote sb ip y (FS.contents ip s₁) s (s₁.iupdated sb ip) := by
  have hip : s₁.itable ip = { s.itable ip with din := y } := by rw [hit, update_self]
  have hr : (s₁.itable ip).din.InRange := by rw [hip]; exact hy
  have hdin : (s₁.itable ip).din = y := by rw [hip]
  have hself : dinode sb (s₁.iupdated sb ip).blocks (s.itable ip).inum = y := by
    have := (dinode_iupdated_self hr : dinode sb _ _ = _)
    rwa [hip] at this
  have hother : OnlyNode sb (s.itable ip).inum s.blocks (s₁.iupdated sb ip).blocks := by
    have := iupdated_onlyNode hsb hb
    rw [hip] at this
    exact hon.trans this
  have hdin' : ((s₁.iupdated sb ip).itable ip).din = y := hdin
  have hmap : Mapped ip (s₁.iupdated sb ip) := by
    obtain ⟨hle, hblk⟩ := hm
    exact ⟨hle, fun o ho => by rw [iupdated_slotVal hsb hb]; exact hblk o ho⟩
  refine ⟨?_, hit, hother, hself, ?_⟩
  · refine h.close hh.ref (hb.iupdated hsb hr fun h0 => absurd (hdin ▸ h0) ht) hit rfl hother
      (fun _ => hmap.whole (by rw [hself, hdin']) (by rw [hself, hdin'])) ?_
    intro _ _
    rw [hself]
    exact .refl hy ht
  · have hc : FS.contents ip (s₁.iupdated sb ip) = _ :=
      contents_eq (by rw [hself, hdin']) (by rw [hself, hdin'])
    rw [← hc]
    exact List.map_congr_left fun o _ => iupdated_fileByte hsb hb o

theorem itrunc (ht : (s.itable ip).din.type ≠ 0) :
    wp (FS.itrunc sb ip) (fun _ s' => Wrote sb ip (s.itable ip).din.truncated [] s s') E s := by
  have hb := h.busy hh
  refine (wp_itrunc hsb hb).post ?_
  rintro _ _ ⟨s1, rfl, hb1, hm, hit⟩
  have hr := (h.agrees ip hh.ref hh.valid).range
  have hip : (s1.itable ip).din = (s.itable ip).din.truncated := by rw [hit, update_self]
  have hc : FS.contents ip s1 = [] := by
    unfold FS.contents
    rw [hip]
    rfl
  have hw := h.replace hsb hh hb1 hit (hm.onlyNode hb)
    ⟨hr.type, hr.major, hr.minor, hr.nlink, Nat.two_pow_pos 32, fun _ => Nat.two_pow_pos 32⟩ ht
    ⟨by rw [hip]; exact Nat.zero_le _, fun o ho => by rw [hip] at ho; cases ho⟩
  rwa [hc] at hw

/-- `writei` with arguments in range. If all copies succeed, it has overwritten
    the range. -/
theorem writei (ht : (s.itable ip).din.type ≠ 0) (hoff : off ≤ (s.itable ip).din.size)
    (hmax : off + n ≤ MAXFILE * BSIZE) :
    wp (FS.writei sb cp ip src off n) (fun v s' => ∃ size addrs data,
      Wrote sb ip { (s.itable ip).din with size := size, addrs := addrs } data s s' ∧
      ∀ bytes, src < 2 ^ 64 → Delivers cp src n bytes →
        v = n ∧
        data = overwrite (nodeData sb s.blocks (s.itable ip).inum) off ((List.range n).map bytes))
      (fun e _ => e = outOfBlocks) s := by
  have hM : MAXFILE * BSIZE < 2 ^ 32 := by decide
  have hb := h.busy hh
  have hm := h.mapped hh
  refine (wp_writei hsb hb hoff (by omega) hmax).mono ?_ fun _ _ he => he.1
  rintro _ _ ⟨r, s1, hw, rfl, rfl⟩
  have hb1 := Steps.busy hsb hb hw.steps
  have hr := (h.agrees ip hh.ref hh.valid).range
  have hit := Steps.itable hw.steps
  generalize hy : ({ (s1.itable ip).din with size := max r.2 (s.itable ip).din.size } : Dinode) = y
  have hya : y.addrs = (s1.itable ip).din.addrs := by rw [← hy]
  have hys : y.size = max r.2 (s.itable ip).din.size := by rw [← hy]
  have hyd : y = { (s.itable ip).din with
      size := max r.2 (s.itable ip).din.size, addrs := (s1.itable ip).din.addrs } := by
    rw [← hy, hit, update_self]
  have hmap := hw.mapped_after hsb hb hm hoff hmax hya hys
  have hit2 : (s1.setDin ip y).itable = update s.itable ip { s.itable ip with din := y } := by
    unfold Fs.setDin
    dsimp only
    rw [hit, update_self, update_idem]
  have hsz : y.size < 2 ^ 32 := by
    have := hmap.size_le
    rw [setDin_self] at this
    exact lt_of_le_of_lt this hM
  have hwrote := h.replace hsb hh (hb1.setDin hya) hit2
    (show OnlyNode sb _ s.blocks s1.blocks from Steps.onlyNode hsb hb hw.steps)
    (by rw [hyd]; rw [hyd] at hsz; exact ⟨hr.type, hr.major, hr.minor, hr.nlink, hsz,
    hb1.addrs_lt hsb⟩) (by rw [hyd]; exact ht) hmap
  refine ⟨max r.2 (s.itable ip).din.size, (s1.itable ip).din.addrs, FS.contents ip (s1.setDin ip y),
    by rw [← hyd]; exact hwrote, ?_⟩
  intro bytes hsrc hdel
  obtain ⟨htot, hsize, hbytes⟩ := hw.bytes_after hya hys hsrc hdel
  refine ⟨by rw [htot], ?_⟩
  rw [← h.contents hh]
  rw [hyd] at hsize hmap hbytes ⊢
  exact contents_overwrite (s := s) hoff (by rw [setDin_self]; exact hsize) hmap.size_le hbytes

end

theorem readi_loop {off n k dst : Nat} {out : List UInt8} (tot : Nat)
    (hm : Mapped ip s) (hn : off + n ≤ (s.itable ip).din.size) (htot : tot ≤ n) :
    wp (FS.readi_loop sb cp ip n k tot (off + tot) dst out) (fun _ s' => s' = s) E s := by
  induction k generalizing tot dst out with
  | zero => rfl
  | succ k ih =>
    unfold FS.readi_loop
    split
    case isFalse => rfl
    case isTrue hlt =>
      have hB : 0 < BSIZE := by decide
      have hsz := hm.size_le
      have hbn : (off + tot) / BSIZE < MAXFILE := by
        rw [div_lt_iff_lt_mul hB]; omega
      refine (wp_bmap_mapped hbn (hm.block (off + tot) (by omega))).seq ?_
      rintro b s1 ⟨rfl, rfl⟩
      rw [wp_bind, wp_bread]
      dsimp only
      split
      · rw [add_assoc]
        exact ih _ (by omega)
      · rfl

/-- `readi` does not change anything. -/
theorem readi (h : Table sb s) (hh : Held ip s) (hoff : off < 2 ^ 32) (hn : n < 2 ^ 32) :
    wp (FS.readi sb cp ip dst off n) (fun _ s' => s' = s) E s := by
  by_cases hbad : (s.itable ip).din.size < off ∨ 2 ^ 32 ≤ off + n
  · unfold wp
    rw [readi_rejects hoff hn hbad]
  · rw [FS.readi, wp_bind, wp_get, mod_eq_of_lt (by omega)]
    dsimp only
    rw [if_neg (by omega)]
    refine (readi_loop 0 (h.mapped hh) ?_ (zero_le _)).seq ?_
    · split <;> omega
    · rintro ⟨tot, out⟩ _ rfl
      dsimp only
      split <;> rfl

/-- What `readi` into kernel memory returns. -/
theorem readi_kernel (h : Table sb s) (hh : Held ip s)
    (hoff : off ≤ (s.itable ip).din.size) (hwrap : off + n < 2 ^ 32) :
    FS.readi sb (fun _ _ => true) ip dst off n s =
      .ok (((min (off + n) (s.itable ip).din.size - off : Nat) : Int),
        ((nodeData sb s.blocks (s.itable ip).inum).drop off).take n) s := by
  rw [readi_reads (h.mapped hh) hoff hwrap, h.contents hh]

/-! ### References -/

theorem got (h : Table sb s) (hi : inum < sb.ninodes) (hg : Got inum s ip s') : Table sb s' := by
  obtain ⟨hun, hlt⟩ := hg.numbered h.numbered hi
  obtain ⟨hbl, x, hit, hinum, -, hold, hnew⟩ := hg
  refine ⟨hbl ▸ h.owned, hun, hlt, hbl ▸ h.whole, fun jp => ?_⟩
  rw [hit, hbl]
  refine update_one jp (fun _ hv => ?_) fun jp _ => h.agrees jp
  by_cases href : 0 < (s.itable ip).ref
  · obtain ⟨hi', hval, hd⟩ := hold href
    rw [hd, hinum, ← hi']
    exact h.agrees ip href (hval ▸ hv)
  · rw [(hnew (by omega)).1] at hv
    cases hv

/-- Reading the inode of an entry from the disk. -/
theorem load (h : Table sb s) (href : 0 < (s.itable ip).ref)
    (ht : (dinode sb s.blocks (s.itable ip).inum).type ≠ 0) :
    Table sb ⟨s.blocks, update s.itable ip { s.itable ip with
      valid := true, din := dinode sb s.blocks (s.itable ip).inum }⟩ :=
  h.setEntry href rfl fun _ _ => .refl (dinode_inRange ..) ht

/-! ### `ialloc` -/

theorem alloc (type : Nat) (hsb : sb.Ok) (h : Table sb s) (hi : inum < sb.ninodes)
    (hfree : (dinode sb s.blocks inum).type = 0) :
    Table sb (s.allocInode sb inum type) ∧
    OnlyNode sb inum s.blocks (s.allocInode sb inum type).blocks ∧
    dinode sb (s.allocInode sb inum type).blocks inum =
      ⟨type % 2 ^ 16, 0, 0, 0, 0, fun _ => 0⟩ := by
  have hself : dinode sb (s.allocInode sb inum type).blocks inum = _ := dinode_alloc_self
  have hne : ∀ i, i ≠ inum → dinode sb (s.allocInode sb inum type).blocks i =
    dinode sb s.blocks i :=
    fun _ => dinode_alloc_ne
  have hV : ∀ j a, diskView sb s.blocks j = some a →
      SameData s.blocks (s.allocInode sb inum type).blocks a := by
    intro j a hj t ht
    have := (h.owned.range hj ht).1
    have := hsb.inode inum hi
    exact update_of_ne (by omega) _ _
  have hon : OnlyNode sb inum s.blocks (s.allocInode sb inum type).blocks :=
    ⟨fun j _ hj => hne j hj, fun j hj _ ht => hV j _ (if_pos ⟨hj, ht⟩)⟩
  refine ⟨⟨h.owned.allocInode hsb hi hfree, h.unique, h.inum_lt, ?_, ?_⟩, hon, hself⟩
  · intro i hi' ht
    by_cases hii : i = inum
    · subst hii
      exact ⟨by rw [hself]; exact zero_le _, fun o ho => by rw [hself] at ho; cases ho⟩
    · rw [hne i hii] at ht
      exact hon.whole hii hi' ht (h.whole i hi' ht)
  · -- a valid entry is of an allocated inode, unless that has just been freed
    intro jp hj hv
    have hag := h.agrees jp hj hv
    show Agrees (s.itable jp).din (dinode sb (s.allocInode sb inum type).blocks (s.itable jp).inum)
    by_cases he : (s.itable jp).inum = inum
    · rw [he] at hag ⊢
      have hx : (s.itable jp).din.type = 0 := by
        by_contra hx
        exact hx ((hag.type hx).symm.trans hfree)
      obtain ⟨hs, ha⟩ := hag.empty hx
      rw [hself]
      exact ⟨hs, ha, hag.range, fun hc => absurd hx hc, fun _ => ⟨hs, ha⟩⟩
    · rw [hne _ he]
      exact hag

theorem iget (h : Table sb s) (hi : inum < sb.ninodes) :
    wp (FS.iget inum) (fun _ s' => Table sb s') (fun _ _ => True) s :=
  (wp_iget s).mono (fun _ _ hg => h.got hi hg) fun _ _ _ => trivial

/-- One reference more or less. -/
theorem setRef (h : Table sb s) (href : 0 < (s.itable ip).ref) (r : Nat) :
    Table sb ⟨s.blocks, update s.itable ip { s.itable ip with ref := r }⟩ :=
  h.setEntry href rfl fun _ hv => h.agrees ip href hv

/-- `iput`'s part for the last reference. -/
theorem ifree (hsb : sb.Ok) (h : Table sb s) (hh : Held ip s) (ht : (s.itable ip).din.type ≠ 0) :
    wp (FS.ifree sb ip) (fun _ s' => Table sb s' ∧ 0 < (s'.itable ip).ref) E s := by
  rw [FS.ifree]
  refine (h.itrunc hsb hh ht).seq ?_
  intro _ s1 hw
  have hip : s1.itable ip = { s.itable ip with din := (s.itable ip).din.truncated } := by
    rw [hw.itable, update_self]
  have hh1 : Held ip s1 := ⟨by rw [hip]; exact hh.ref, by rw [hip]; exact hh.valid⟩
  have hr := (hw.table.agrees ip hh1.ref hh1.valid).range
  rw [wp_bind, wp_modifyDin, wp_bind, wp_iupdate, wp_bind, wp_get, wp_setInode]
  -- the type is cleared in an inode that has no blocks any more
  have h2 : Table sb
    (s1.setDin ip ((s1.itable ip).din.setAttr { (s1.itable ip).din.attr with type := 0 })) :=
    hw.table.modifyDin hh1 ⟨Nat.two_pow_pos 16, hr.major, hr.minor, hr.nlink, hr.size, hr.addrs⟩
      (.inr ⟨rfl, by rw [hip]; rfl, by rw [hip]; rfl⟩)
  have hh2 : Held ip
    (s1.setDin ip ((s1.itable ip).din.setAttr { (s1.itable ip).din.attr with type := 0 })) :=
    ⟨by rw [setDin_self]; exact hh1.ref, by rw [setDin_self]; exact hh1.valid⟩
  obtain ⟨h3, -⟩ := h2.iupdate hsb hh2
  refine ⟨h3.setEntry hh2.ref rfl fun _ hv => ?_, ?_⟩
  · cases hv
  · dsimp only
    rw [update_self]
    exact hh2.ref

end Table

/-! ## Runs -/

/-- No allocated inode has a hole. -/
def Solid (sb : Superblock) (blocks : Nat → Block) : Prop :=
  ∀ i, i < sb.ninodes → (dinode sb blocks i).type ≠ 0 → Whole sb blocks i

/-- Runs of completed calls from a file system without holes. -/
def solidSystem (sb : Superblock) : System Fs Op where
  init := fun s => Fresh sb s ∧ Solid sb s.blocks
  step := (system sb).step

/-- Every call leaves a file system without holes. -/
theorem Inv.run_table {op : Op} (hsb : sb.Ok) (h : Inv sb s) (hw : Solid sb s.blocks)
    (hpre : op.Pre sb s) : wp (op.run sb) (fun _ s' => Table sb s') (fun _ _ => True) s := by
  have ht : Table sb s := h.table hw
  have hdrop : ∀ {α : Type} {x : FsM α}, wp x (fun _ s' => Table sb s') (fun _ _ => True) s →
      wp (do let _ ← x) (fun _ s' => Table sb s') (fun _ _ => True) s := by
    intro α x hx
    rw [wp_bind]
    exact hx
  cases op with
  | ialloc type =>
    exact hdrop (wp_ialloc trivial fun _ hi hz => (ht.alloc type hsb hi hz).1.iget hi)
  | iget inum => exact hdrop (ht.iget hpre)
  | idup ip => exact ht.setRef hpre _
  | ilock ip =>
    show wp (FS.ilock sb ip) _ _ s
    rw [FS.ilock, wp_bind, wp_get]
    split
    · exact trivial
    · next hr =>
      split
      · exact ht
      · rw [wp_bind, wp_bread]
        dsimp only
        rw [wp_bind, wp_setInode]
        split
        · exact trivial
        · next hx => exact ht.load (by omega) hx
  | writei cp ip src off n =>
    obtain ⟨hh, hoff, hn⟩ := hpre
    refine hdrop ?_
    by_cases hbad : (s.itable ip).din.size < off ∨ 2 ^ 32 ≤ off + n ∨ MAXFILE * BSIZE < off + n
    · unfold wp
      rw [writei_rejects hoff hn hbad]
      exact ht
    · refine (ht.writei hsb hh (h.valid ip hh.ref hh.valid).2 (by omega) (by omega)).mono ?_
        fun _ _ _ => trivial
      rintro v s' ⟨size, addrs, data, hwrote, -⟩
      exact hwrote.table
  | itrunc ip =>
    exact (ht.itrunc hsb hpre (h.valid ip hpre.ref hpre.valid).2).post fun _ _ hq => hq.table
  | iput ip =>
    show wp (FS.iput sb ip) _ _ s
    rw [FS.iput, wp_bind, wp_get]
    split
    · next hlast =>
      refine (ht.ifree hsb ⟨hpre, hlast.2.1⟩ (h.valid ip hpre hlast.2.1).2).seq ?_
      intro _ s1 h1
      exact h1.1.setRef h1.2 _
    · exact ht.setRef hpre _
  | setNlink ip v =>
    have hr := (ht.agrees ip hpre.ref hpre.valid).range
    have h1 : Table sb (s.setDin ip
      ((s.itable ip).din.setAttr { (s.itable ip).din.attr with nlink := v % 2 ^ 16 })) :=
      ht.modifyDin hpre ⟨hr.type, hr.major, hr.minor, mod_lt _ (by decide), hr.size, hr.addrs⟩
      (.inl rfl)
    exact (h1.iupdate hsb ⟨by rw [setDin_self]; exact hpre.ref,
      by rw [setDin_self]; exact hpre.valid⟩).1

theorem reachable_solid (hsb : sb.Ok) (h : Reachable (solidSystem sb) s) :
    Inv sb s ∧ Solid sb s.blocks := by
  refine h.invariant (I := fun s => Inv sb s ∧ Solid sb s.blocks)
    (fun s hs => ⟨hs.1.inv hsb, hs.2⟩) ?_
  rintro s op s' ⟨hinv, hw⟩ ⟨hpre, hrun⟩
  exact ⟨(hinv.run hsb hpre).of_ok hrun, ((hinv.run_table hsb hw hpre).of_ok hrun).whole⟩

end Table

end NoviceKernel.FS
