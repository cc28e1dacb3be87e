import NoviceKernel.SysRun

/-! # Runs of the kernel: inodes in memory and on the disk

    The holder of the lock of an inode changes the copy in memory and stores it
    with `iupdate` before it gives the lock up, so that an inode that nobody has
    locked is on the disk as it is in memory.

    This needs that the entries of directories are inode numbers of the disk.
    The kernel keeps that for its own writes to directories, but a process that
    opens a directory for writing through a symbolic link can write anything
    there (`stored_inodes_fail`). -/

namespace NoviceKernel.Sys

open FS Hoare Program Count TransitionSystem

/-- What is assumed of the disk: the free map is right, no block of an inode
    below its size is missing, and the entries of directories are inode
    numbers. -/
structure Image (sb : Superblock) (blocks : Nat → Block) : Prop where
  fresh : Fresh sb ⟨blocks, tinyFs.itable⟩
  whole : ∀ i, i < sb.ninodes → (dinode sb blocks i).type ≠ 0 → Whole sb blocks i
  dirs : ∀ i nd, node sb blocks i = some nd → nd.attr.type = T_DIR → Named sb nd.data
  root : ROOTINO < sb.ninodes

/-- Directories are written by the kernel only, one entry at a time. -/
def entriesOnly (_ : Pid) : Cmd → Kernel → Bool
  | .writei user _ ip _ _ n, s => (s.fs.itable ip).din.type = T_DIR → user = false ∧ n = Dirent.SIZE
  | _, _ => true

section

variable {sb : Superblock} {s s' : Kernel} {m m' : State} {p : Pid} {R : Pid → Res} {c : Cmd}
  {ip : Fin NINODE}

theorem Image.table (hsb : sb.Ok) (him : Image sb s.fs.blocks) (hb : Boot s) : Table sb s.fs := by
  obtain ⟨p, ip, -, -, hinum, -, hvalid, hother⟩ := hb.first
  have hone : ∀ jp, 0 < (s.fs.itable jp).ref → jp = ip := by
    intro jp hj
    by_contra hne
    rw [hother jp hne] at hj
    cases hj
  refine ⟨(him.fresh.inv hsb).owned, fun jp kp hj hk _ => (hone jp hj).trans (hone kp hk).symm,
    fun jp hj => ?_, him.whole, fun jp hj hv => ?_⟩
  · rw [hone jp hj, hinum]
    exact him.root
  · rw [hone jp hj, hvalid] at hv
    cases hv

theorem reachable_stored (hsb : sb.Ok) (hroot : ROOTINO < sb.ninodes)
    (h : Reachable (restrict (kernel sb (Image sb)) (onCmds entriesOnly)) m) :
    ∃ R, m.Inv (spec sb True) (Inv sb True) Res.Idle R := by
  refine reachable_holds (fun _ => hsb) (fun _ => hroot) (fun s _ hb him => him.table hsb hb)
    (fun _ _ him => him.dirs) ?_ h
  intro m p c hc _
  cases c with
  | writei user cp ip src off n =>
    have hc : entriesOnly p (.writei user cp ip src off n) m.shared = true := hc
    rw [entriesOnly, decide_eq_true_iff] at hc
    exact hc
  | _ => trivial

/-! ## One command -/

/-- The inode number whose inode on the disk a command may change. -/
def Cmd.Stores (sb : Superblock) (s : Kernel) : Cmd → Nat → Prop
  | .iupdate ip, i | .itrunc ip, i | .writei _ _ ip _ _ _, i => (s.fs.itable ip).inum = i
  | .ialloc _ j, i => j = i ∧ (dinode sb s.fs.blocks j).type = 0
  | _, _ => False

/-- What a command did to the inodes on the disk. -/
abbrev KeepsOthers (sb : Superblock) (c : Cmd) (s s' : Kernel) : Prop :=
  ∀ i, i < sb.ninodes → c.Stores sb s i ∨ dinode sb s'.fs.blocks i = dinode sb s.fs.blocks i

theorem KeepsOthers.of_blocks (h : s'.fs.blocks = s.fs.blocks) : KeepsOthers sb c s s' :=
  fun _ _ => .inr (by rw [h])

theorem KeepsOthers.of_only {j : Nat} (h : OnlyNode sb j s.fs.blocks s'.fs.blocks)
    (hc : c.Stores sb s j) : KeepsOthers sb c s s' := by
  intro i hi
  by_cases he : i = j
  · exact .inl (by rw [he]; exact hc)
  · exact .inr (h.dinode i hi he)

/-- `ilock` gives what was in memory if that was valid, and else what is on the
    disk. -/
theorem ilock_reads :
    wp (exec sb p (.ilock ip))
      (fun _ s' => s'.fs.blocks = s.fs.blocks ∧ 0 < (s.fs.itable ip).ref ∧ s.lock ip = none ∧
        (s'.fs.itable ip).din = if (s.fs.itable ip).valid then (s.fs.itable ip).din
          else dinode sb s.fs.blocks (s.fs.itable ip).inum) (fun _ _ => True) s := by
  refine ilock_steps.mono ?_ fun _ _ _ => trivial
  rintro _ s' ⟨hpos, hfree, ⟨hv, rfl⟩ | ⟨hv, -, rfl⟩⟩
  · exact ⟨rfl, hpos, hfree, (if_pos hv).symm⟩
  · refine ⟨rfl, hpos, hfree, ?_⟩
    dsimp only
    rw [if_neg hv, Function.update_self]

/-- **A command changes the inode of its argument on the disk, and no other.** -/
theorem exec_stores (hsb : sb.Ok) (h : Table sb s.fs) (hg : (view sb s).Guard sb c) :
    wp (exec sb p c) (fun _ s' => KeepsOthers sb c s s') (fun _ _ => True) s := by
  have hsimple : c.Simple →
    wp (exec sb p c) (fun _ s' => KeepsOthers sb c s s') (fun _ _ => True) s :=
    fun hc => (exec_simple hc).mono (fun _ _ hs => .of_blocks (by rw [hs.1])) fun _ _ _ => trivial
  cases c with
  | iget inum => exact iget_steps.mono (fun _ _ hs => .of_blocks hs.1.blocks) fun _ _ _ => trivial
  | ilock ip => exact ilock_reads.mono (fun _ _ hs => .of_blocks hs.1) fun _ _ _ => trivial
  | iputLast ip =>
    refine iputLast_steps.mono ?_ fun _ _ _ => trivial
    rintro b s' ⟨hfs | hfs, -⟩
    · exact .of_blocks (by rw [hfs])
    · exact .of_blocks (by rw [hfs])
  | idup ip | invalidate ip | unref ip | modify ip f | size ip => exact .of_blocks rfl
  | ialloc type inum =>
    rw [exec, wp_onFs, iallocAt, wp_bind, FS.wp_bread]
    split
    · next h0 =>
      rw [wp_bind, wp_writeBlock]
      exact .of_only (h.alloc type hsb hg.1 h0).2.1 ⟨rfl, h0⟩
    · exact .of_blocks rfl
  | iupdate ip =>
    rw [exec, wp_onFs, FS.iupdate, wp_bind, wp_get, wp_bind, FS.wp_bread, wp_writeBlock]
    exact .of_only (h.iupdate hsb (view_held hg)).2.1 rfl
  | itrunc ip =>
    rw [exec, wp_onFs]
    exact (h.itrunc hsb (view_held hg.1) hg.2).post fun _ _ hw => .of_only hw.only rfl
  | readi cp ip dst off n =>
    rw [exec, wp_onFs]
    refine (h.readi (view_held hg.1) hg.2.1 hg.2.2).post ?_
    rintro b _ rfl
    exact .of_blocks rfl
  | writei user cp ip src off n =>
    obtain ⟨hh, ht, hoff, hn⟩ := hg
    rw [exec, wp_onFs]
    by_cases hbad : (s.fs.itable ip).din.size < off ∨ MAXFILE * BSIZE < off + n
    · -- a write that is refused
      rw [FS.writei, wp_bind, wp_get]
      split
      · exact .of_blocks rfl
      · next h1 =>
        split
        · exact .of_blocks rfl
        · next h2 => omega
    · refine (h.writei hsb (view_held hh) ht (by omega) (by omega)).mono ?_ fun _ _ _ => trivial
      rintro b fs' ⟨size, addrs, data, hw, -⟩
      exact .of_only hw.only rfl
  | _ => exact hsimple trivial

/-! ## All states -/

/-- An inode that nobody has locked is stored. -/
theorem Inv.stored (h : Inv sb True s R) (href : 0 < (s.fs.itable ip).ref)
    (hv : (s.fs.itable ip).valid = true) (hl : s.lock ip = none) :
    (s.fs.itable ip).din = dinode sb s.fs.blocks (s.fs.itable ip).inum := by
  have hag := (h.table trivial).agrees ip href hv
  obtain ⟨data, hnode⟩ := (h.holds.locks.free ip hl href hv).2 trivial
  obtain ⟨-, -, heq⟩ := node_eq_some (show node sb s.fs.blocks (s.fs.itable ip).inum = _ from hnode)
  have hattr : (s.fs.itable ip).din.attr = (dinode sb s.fs.blocks (s.fs.itable ip).inum).attr :=
    congrArg Node.attr heq
  generalize (s.fs.itable ip).din = x at hag hattr
  generalize dinode sb s.fs.blocks (s.fs.itable ip).inum = d at hag hattr
  obtain ⟨t, ma, mi, nl, sz, ad⟩ := x
  obtain ⟨t', ma', mi', nl', sz', ad'⟩ := d
  obtain ⟨rfl, rfl, rfl, rfl⟩ := Attr.mk.inj hattr
  obtain rfl := show sz = sz' from hag.size
  obtain rfl := show ad = ad' from hag.addrs
  rfl

/-- The process that stores an inode has locked it, or takes a free one. -/
theorem Inv.stores {i : Nat} (h : Inv sb True s R) (hpre : Pre sb True c (R p))
    (hc : c.Stores sb s i) :
    (∃ ip, s.lock ip = some p ∧ 0 < (s.fs.itable ip).ref ∧ (s.fs.itable ip).inum = i) ∨
    ∃ type, c = .ialloc type i ∧ (dinode sb s.fs.blocks i).type = 0 := by
  have hlocked : ∀ ip x, (R p).locks ip = some x → s.lock ip = some p ∧
      0 < (s.fs.itable ip).ref := by
    intro ip x hx
    have hne : (R p).locks ip ≠ none := by
      rw [hx]
      exact fun hc => by cases hc
    exact ⟨(h.holds.locks.lock ip p).mpr hne, h.holds.locks.ref_pos h.holds.counts hne⟩
  cases c with
  | iupdate ip =>
    obtain ⟨x, hx, -⟩ := hpre
    exact .inl ⟨ip, (hlocked ip x hx).1, (hlocked ip x hx).2, hc⟩
  | itrunc ip =>
    obtain ⟨x, hx, -⟩ := hpre
    exact .inl ⟨ip, (hlocked ip x hx).1, (hlocked ip x hx).2, hc⟩
  | writei user cp ip src off n =>
    obtain ⟨-, x, hx, -⟩ := hpre
    exact .inl ⟨ip, (hlocked ip _ hx).1, (hlocked ip _ hx).2, hc⟩
  | ialloc type inum =>
    obtain ⟨rfl, h0⟩ := hc
    exact .inr ⟨type, rfl, h0⟩
  | _ => exact hc.elim

/-- **In-memory inodes never lose an update**, as long as nothing but single
    entries, by the kernel, is written to directories.  In every state of every
    interleaving an entry in use that is valid and whose lock is free is the
    inode on the disk.  A command changes on the disk only the inode that it is
    about (`Cmd.Stores`), which its process has locked, or, in `ialloc`, was free.
    So whoever locks an inode gets what is on the disk, whether the entry has been
    recycled or not. -/
theorem stored_inodes (hsb : sb.Ok) (hroot : ROOTINO < sb.ninodes)
    (h : Reachable (restrict (kernel sb (Image sb)) (onCmds entriesOnly)) m) :
    (∀ ip, 0 < (m.shared.fs.itable ip).ref → (m.shared.fs.itable ip).valid = true →
      m.shared.lock ip = none →
      (m.shared.fs.itable ip).din = dinode sb m.shared.fs.blocks (m.shared.fs.itable ip).inum) ∧
    (∀ p c m', (kernel sb (Image sb)).step m (.cmd p c) m' →
      ∀ i, i < sb.ninodes → dinode sb m'.shared.fs.blocks i ≠ dinode sb m.shared.fs.blocks i →
        c.Stores sb m.shared i ∧
        ((∃ ip, m.shared.lock ip = some p ∧ 0 < (m.shared.fs.itable ip).ref ∧
            (m.shared.fs.itable ip).inum = i) ∨
          ∃ type, c = .ialloc type i ∧ (dinode sb m.shared.fs.blocks i).type = 0)) ∧
    (∀ p ip m', (kernel sb (Image sb)).step m (.cmd p (.ilock ip)) m' →
      (m'.shared.fs.itable ip).din =
        dinode sb m.shared.fs.blocks (m.shared.fs.itable ip).inum) := by
  obtain ⟨R, hinv⟩ := reachable_stored hsb hroot h
  refine ⟨fun ip href hv hl => hinv.1.stored href hv hl, fun p c m' hstep i hi hne => ?_,
    fun p ip m' hstep => ?_⟩
  · obtain ⟨k, b, hp, hex⟩ := Program.Machine.step_cmd hstep
    have hpre := pending_pre hinv hp
    have hg := hinv.1.holds.guard trivial hpre
    have hkeeps := (exec_stores (p := p) hsb (hinv.1.table trivial) hg).of_ok hex
    have hstores := (hkeeps i hi).resolve_right hne
    exact ⟨hstores, hinv.1.stores hpre hstores⟩
  · obtain ⟨k, b, hp, hex⟩ := Program.Machine.step_cmd hstep
    obtain ⟨-, href, hl, hdin⟩ := ilock_reads.of_ok hex
    rw [hdin]
    split
    · next hv => exact hinv.1.stored href hv hl
    · rfl

/-- **The disk stays in order.** In every state of every interleaving of calls
    that meets the condition, the disk is again one that a boot may find: the free
    map is right, no block of an inode is missing, and the entries of directories
    are inode numbers.  A command on a locked inode (`writei`, `itrunc`) is one
    step here; the states inside it are not meant. -/
theorem image_kept (hsb : sb.Ok) (hroot : ROOTINO < sb.ninodes)
    (h : Reachable (restrict (kernel sb (Image sb)) (onCmds entriesOnly)) m) :
    Image sb m.shared.fs.blocks := by
  obtain ⟨R, hinv, -⟩ := reachable_stored hsb hroot h
  have htable := hinv.table trivial
  have hown := htable.owned
  refine ⟨⟨fun b hb => ⟨fun hu => ?_, ?_⟩, fun b x y hx hy => hown.owns.inj hx hy, fun b x hx => ?_,
    fun _ => rfl⟩, htable.whole, hinv.holds.dirs trivial, hroot⟩
  · refine or_iff_not_imp_left.mpr fun hds => ?_
    exact ((hown.owns.iff b).mp ⟨by omega, hb, hu⟩).resolve_left (List.not_mem_nil)
  · rintro (hds | ⟨x, hx⟩)
    · exact hown.meta_used b hds
    · exact (hown.owns.used_of_own hx).2.2
  · have hmarked := hown.owns.used_of_own hx
    exact ⟨hmarked.1, hmarked.2.1⟩

end

/-! ## A disk -/

theorem rootDisk_type {i : Nat} (hi : i < 16) (ht : (dinode tiny rootDisk i).type ≠ 0) :
    i = ROOTINO := by
  have hall : ∀ i, i < 16 → (dinode tiny rootDisk i).type ≠ 0 → i = ROOTINO := by decide +kernel
  exact hall i hi ht

theorem rootDisk_addrs (k : Fin NADDR) :
    (dinode tiny rootDisk ROOTINO).addrs k = if k.val = 0 then 5 else 0 := by
  have hall : ∀ k : Fin NADDR, (dinode tiny rootDisk ROOTINO).addrs k =
      if k.val = 0 then 5 else 0 := by
    decide +kernel
  exact hall k

/-- The root directory has one block. -/
theorem rootDisk_val {t : Slot} (h : val rootDisk (dinode tiny rootDisk ROOTINO).addrs t ≠ 0) :
    t = .direct ⟨0, by decide⟩ := by
  have h11 : (dinode tiny rootDisk ROOTINO).addrs 11 = 0 := rootDisk_addrs 11
  have h12 : (dinode tiny rootDisk ROOTINO).addrs 12 = 0 := rootDisk_addrs 12
  cases t with
  | direct k =>
    change (dinode tiny rootDisk ROOTINO).addrs (directIdx k) ≠ 0 at h
    rw [rootDisk_addrs] at h
    by_cases hk : k.val = 0
    · exact congrArg Slot.direct (Fin.ext hk)
    · rw [if_neg (by exact hk)] at h
      exact absurd rfl h
  | ind => exact absurd h11 h
  | dbl => exact absurd h12 h
  | indE j => exact absurd (entry_zero _ _ h11) h
  | dblE j => exact absurd (entry_zero _ _ h12) h
  | dblEE j k => exact absurd (entry_zero _ _ (entry_zero _ _ h12)) h

theorem rootDisk_points {b : Nat} {x : Nat × Slot} :
    PointsTo tiny ⟨rootDisk, tinyFs.itable⟩ b x ↔
      b = 5 ∧ x = (ROOTINO, .direct ⟨0, by decide⟩) := by
  obtain ⟨i, t⟩ := x
  have hval : val rootDisk (dinode tiny rootDisk ROOTINO).addrs (.direct ⟨0, by decide⟩) = 5 :=
    rootDisk_addrs _
  have htype : ROOTINO < tiny.ninodes ∧ (dinode tiny rootDisk ROOTINO).type ≠ 0 := by decide +kernel
  constructor
  · intro hp
    obtain ⟨a, ha, hv, hb⟩ := ptr_eq_some.mp hp
    unfold diskView at ha
    split at ha
    · next hc =>
      obtain rfl := rootDisk_type hc.1 hc.2
      cases ha
      obtain rfl := rootDisk_val (by rw [hv]; exact hb)
      exact ⟨hv.symm.trans hval, rfl⟩
    · cases ha
  · rintro ⟨rfl, he⟩
    cases he
    exact ptr_eq_some.mpr ⟨_, if_pos htype, hval, by decide⟩

theorem rootDisk_image : Image tiny rootDisk where
  fresh := by
    have hbits : ∀ b, b < 20 → (isUsed tiny rootDisk b = true ↔ b < 5 ∨ b = 5) := by decide +kernel
    refine ⟨fun b hb => (hbits b hb).trans ?_, fun b x y hx hy => ?_, fun b x hx => ?_,
      fun _ => rfl⟩
    · refine or_congr Iff.rfl ⟨?_, ?_⟩
      · rintro rfl
        exact ⟨_, rootDisk_points.mpr ⟨rfl, rfl⟩⟩
      · rintro ⟨x, hx⟩
        exact (rootDisk_points.mp hx).1
    · rw [(rootDisk_points.mp hx).2, (rootDisk_points.mp hy).2]
    · rw [(rootDisk_points.mp hx).1]
      decide
  whole := by
    intro i hi ht
    obtain rfl := rootDisk_type hi ht
    have hsize : (dinode tiny rootDisk ROOTINO).size = 32 := by decide +kernel
    refine ⟨by rw [hsize]; decide, fun o ho => ?_⟩
    rw [hsize] at ho
    have h0 : o / BSIZE = 0 := Nat.div_eq_of_lt (Nat.lt_trans ho (by decide))
    rw [h0]
    show (dinode tiny rootDisk ROOTINO).addrs _ ≠ 0
    rw [rootDisk_addrs]
    decide
  dirs := by
    intro i nd hnd _
    obtain ⟨hi, ht, rfl⟩ := node_eq_some hnd
    obtain rfl := rootDisk_type hi ht
    have hlen : (nodeData tiny rootDisk ROOTINO).length = 32 := by decide +kernel
    have hall : ∀ k, k < 2 → (entryAt (nodeData tiny rootDisk ROOTINO) (16 * k)).inum < 16 := by
      decide +kernel
    rintro off ⟨k, rfl⟩ hle
    change 16 * k + 16 ≤ _ at hle
    rw [hlen] at hle
    exact hall k (by omega)
  root := by decide

/-- An open of the root directory meets the condition. -/
theorem stored_inodes_root :
    ∃ m, Reachable (restrict (kernel tiny (Image tiny)) (onCmds entriesOnly)) m ∧
      0 < (m.shared.fs.itable tinyIp).ref ∧ (m.shared.fs.itable tinyIp).valid = true ∧
      m.shared.lock tinyIp = none ∧
      (m.shared.fs.itable tinyIp).din =
        dinode tiny m.shared.fs.blocks (m.shared.fs.itable tinyIp).inum := by
  obtain ⟨s, h, htest⟩ := reachable_test first [.sys_open [] (some [SLASH]) O_RDONLY]
    (rootKernel_reachable (Image tiny) (guarded (S := sig) entriesOnly Stop.sleep (exec tiny))
    rootDisk_image) (fun s => 0 < (s.fs.itable tinyIp).ref ∧ (s.fs.itable tinyIp).valid = true ∧
    s.lock tinyIp = none) (by decide +kernel)
  obtain ⟨href, hv, hl⟩ := of_decide_eq_true htest
  have h' := Program.Machine.reachable_guarded h
  exact ⟨_, h', href, hv, hl, (stored_inodes tiny_ok (by decide) h').1 tinyIp href hv hl⟩

/-- The kernel after a `mkdir`. -/
def madeDir : Kernel :=
  (calls (guarded (S := sig) entriesOnly Stop.sleep (exec tiny)) tiny first
    [.sys_mkdir (some [122])] rootKernel).get
    (by decide +kernel)

theorem madeDir_reachable :
    Reachable (restrict (kernel tiny (Image tiny)) (onCmds entriesOnly)) ⟨madeDir, fun _ => none⟩ :=
  Program.Machine.reachable_guarded
    (reachable_calls (rootKernel_reachable (Image tiny) _ rootDisk_image) (Option.some_get _).symm)

-- the call is never run by unification
attribute [irreducible] madeDir

theorem image_kept_mkdir : Image tiny madeDir.fs.blocks :=
  image_kept tiny_ok (by decide) madeDir_reachable

/-! ## Without the condition -/

/-- An entry of a directory: inode number 32, name `z`. -/
def strayEntry : Bytes := 32 :: 0 :: 122 :: List.replicate 13 0

/-- The first descriptor. -/
def firstFd : Option (Fin NOFILE) := some ⟨0, by decide⟩

/-- `l` is a link to the root directory, which is opened for writing; the first
    entry becomes `z`, and its inode number is one of the block of the directory
    itself.  `z` is opened, and the directory is written once more. -/
def strayCalls : List Call :=
  [.sys_symlink [] (some [SLASH]) (some [108]), .sys_open [] (some [108]) O_RDWR,
    .sys_write (ofBytes strayEntry) 0 firstFd 0 16, .sys_open [] (some [122]) O_RDONLY,
    .sys_write (ofBytes strayEntry) 0 firstFd 0 16]

/-- **Without the condition** an open inode that nobody has locked differs from
    the disk. -/
theorem stored_inodes_fail :
    ∃ m, Reachable (kernel tiny (Image tiny)) m ∧
      ∃ ip, 0 < (m.shared.fs.itable ip).ref ∧ (m.shared.fs.itable ip).valid = true ∧
        m.shared.lock ip = none ∧
        (m.shared.fs.itable ip).din ≠
          dinode tiny m.shared.fs.blocks (m.shared.fs.itable ip).inum := by
  obtain ⟨s, h, htest⟩ :=
    reachable_test first strayCalls (rootKernel_reachable (Image tiny) (exec tiny) rootDisk_image)
    (fun s => (List.finRange NINODE).any fun ip => 0 < (s.fs.itable ip).ref ∧
      (s.fs.itable ip).valid = true ∧ s.lock ip = none ∧ (s.fs.itable ip).din.addrs 1 ≠
    (dinode tiny s.fs.blocks (s.fs.itable ip).inum).addrs 1) (by decide +kernel)
  obtain ⟨ip, -, hip⟩ := List.any_eq_true.mp htest
  obtain ⟨href, hv, hl, hne⟩ := of_decide_eq_true hip
  exact ⟨_, h, ip, href, hv, hl, fun hc => hne (by rw [hc])⟩

end NoviceKernel.Sys
