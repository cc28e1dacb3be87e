import NoviceKernel.FsInv
import NoviceKernel.Lib.TransitionSystem

/-! # Runs of the file system: block ownership

    A run is a sequence of completed calls.  In every state between calls a
    block's bit is set exactly if the block is metadata or in exactly one
    pointer slot of an allocated inode, and no call frees a free block. -/

namespace NoviceKernel.FS

open Hoare TransitionSystem

/-- The calls. -/
inductive Op where
  | ialloc (type : Nat)
  | iget (inum : Nat)
  | idup (ip : Fin NINODE)
  | ilock (ip : Fin NINODE)
  | writei (cp : Copyin) (ip : Fin NINODE) (src off n : Nat)
  | itrunc (ip : Fin NINODE)
  | iput (ip : Fin NINODE)
  | setNlink (ip : Fin NINODE) (v : Nat)

section

variable (sb : Superblock)

/-- The code of a call. -/
def Op.run : Op → FsM Unit
  | .ialloc type => do let _ ← FS.ialloc sb type
  | .iget inum => do let _ ← FS.iget inum
  | .idup ip => FS.idup ip
  | .ilock ip => FS.ilock sb ip
  | .writei cp ip src off n => do let _ ← FS.writei sb cp ip src off n
  | .itrunc ip => FS.itrunc sb ip
  | .iput ip => FS.iput sb ip
  | .setNlink ip v => FS.setNlink sb ip v

/-- What the caller of a call provides: a reference, and the lock where the
    function expects it; arguments fit a `uint`. -/
def Op.Pre (s : Fs) : Op → Prop
  | .ialloc _ => True
  | .iget inum => inum < sb.ninodes
  | .idup ip => 0 < (s.itable ip).ref
  | .ilock _ => True
  | .writei _ ip _ off n => Held ip s ∧ off < 2 ^ 32 ∧ n < 2 ^ 32
  | .itrunc ip => Held ip s
  | .iput ip => 0 < (s.itable ip).ref
  | .setNlink ip _ => Held ip s

/-- Block `b` is in slot `p.2` of the allocated inode `p.1`. -/
def PointsTo (s : Fs) (b : Nat) (p : Nat × Slot) : Prop :=
  ptr s.blocks (diskView sb s.blocks) p = some b

/-- What is assumed of `mkfs` and of the empty inode table at boot. -/
structure Fresh (s : Fs) : Prop where
  /-- The free map marks exactly the metadata and the blocks pointed to. -/
  used : ∀ b, b < sb.size → (isUsed sb s.blocks b = true ↔ b < sb.dstart ∨ ∃ p, PointsTo sb s b p)
  /-- Each of them is pointed to once. -/
  once : ∀ b p q, PointsTo sb s b p → PointsTo sb s b q → p = q
  /-- Pointers are to data blocks. -/
  range : ∀ b p, PointsTo sb s b p → sb.dstart ≤ b ∧ b < sb.size
  itable : ∀ ip, (s.itable ip).ref = 0

/-- Runs of completed calls. -/
def system : System Fs Op where
  init := Fresh sb
  step := fun s op s' => op.Pre sb s ∧ op.run sb s = .ok () s'

end

section

variable {sb : Superblock} {s s' : Fs} {op : Op}

theorem Fresh.inv (hsb : sb.Ok) (h : Fresh sb s) : Inv sb s := by
  have hle := hsb.dstart_le
  refine ⟨⟨fun b hb => (h.used b (by omega)).mpr (.inl hb), ?_⟩, ?_, ?_, ?_⟩
  · refine ⟨fun hp hq => h.once _ _ _ hp hq, fun _ => List.not_mem_nil, List.nodup_nil, fun b => ?_⟩
    constructor
    · rintro ⟨hds, hlt, hu⟩
      rcases (h.used b hlt).mp hu with hm | hp
      · omega
      · exact .inr hp
    · rintro (hm | ⟨p, hp⟩)
      · cases hm
      · obtain ⟨hds, hlt⟩ := h.range b p hp
        exact ⟨hds, hlt, (h.used b hlt).mpr (.inr ⟨p, hp⟩)⟩
  · intro ip _ hr
    rw [h.itable ip] at hr
    cases hr
  · intro ip hr
    rw [h.itable ip] at hr
    cases hr
  · intro ip hr
    rw [h.itable ip] at hr
    cases hr

/-- Every call keeps the invariant, and none frees a free block. -/
theorem Inv.run (hsb : sb.Ok) (h : Inv sb s) (hpre : op.Pre sb s) :
    wp (op.run sb) (fun _ s' => Inv sb s') NotDoubleFree s := by
  have hdrop : ∀ {α : Type} {x : FsM α}, wp x (fun _ s' => Inv sb s') NotDoubleFree s →
      wp (do let _ ← x) (fun _ s' => Inv sb s') NotDoubleFree s := by
    intro α x hx
    rw [wp_bind]
    exact hx
  cases op with
  | ialloc type => exact hdrop (h.ialloc hsb)
  | iget inum => exact hdrop (h.iget hpre)
  | idup ip => exact h.idup hpre
  | ilock ip => exact h.ilock.post fun _ _ hq => hq.1
  | writei cp ip src off n =>
    obtain ⟨hh, hoff, hn⟩ := hpre
    refine hdrop ((h.writei hsb hh hoff hn).mono (fun _ _ hq => hq) ?_)
    rintro e _ rfl
    exact nofun
  | itrunc ip => exact (h.itrunc hsb hpre).post fun _ _ hq => hq.1
  | iput ip => exact h.iput hsb hpre
  | setNlink ip v => exact h.setNlink hsb hpre v

theorem reachable_inv (hsb : sb.Ok) (h : Reachable (system sb) s) : Inv sb s := by
  refine h.invariant (fun s hs => hs.inv hsb) ?_
  rintro s op s' hinv ⟨hpre, hrun⟩
  exact (hinv.run hsb hpre).of_ok hrun

/-- **Block ownership.** Between calls, a bit is set exactly for the metadata
    and for the blocks in exactly one slot; no block is in two slots, every
    pointer is to a marked data block, and no call panics with
    "freeing free block". -/
theorem block_ownership (hsb : sb.Ok) (h : Reachable (system sb) s) :
    (∀ b, b < sb.size → (isUsed sb s.blocks b = true ↔
      b < sb.dstart ∨ ∃ p, PointsTo sb s b p ∧ ∀ q, PointsTo sb s b q → q = p)) ∧
    (∀ b p q, PointsTo sb s b p → PointsTo sb s b q → p = q) ∧
    (∀ b p, PointsTo sb s b p → sb.dstart ≤ b ∧ b < sb.size ∧ isUsed sb s.blocks b = true) ∧
    (∀ (op : Op) e s', op.Pre sb s → op.run sb s = .error e s' →
      e ≠ .panic "freeing free block") := by
  have hinv := reachable_inv hsb h
  have hown := hinv.owned
  refine ⟨?_, fun b p q hp hq => hown.owns.inj hp hq, fun b p hp => hown.owns.used_of_own hp, ?_⟩
  · intro b hb
    constructor
    · intro hu
      by_cases hds : b < sb.dstart
      · exact .inl hds
      · rcases (hown.owns.iff b).mp ⟨by omega, hb, hu⟩ with hm | ⟨p, hp⟩
        · cases hm
        · exact .inr ⟨p, hp, fun q hq => hown.owns.inj hq hp⟩
    · rintro (hds | ⟨p, hp, -⟩)
      · exact hown.meta_used b hds
      · exact (hown.owns.used_of_own hp).2.2
  · intro op e s' hpre hrun
    exact (hinv.run hsb hpre).of_error hrun

/-- The state after a call, and whether it completed. -/
def Op.after (sb : Superblock) (op : Op) (s : Fs) : Fs × Bool :=
  match op.run sb s with
  | .ok _ s' => (s', true)
  | .error _ s' => (s', false)

theorem step_after (hpre : op.Pre sb s) (hok : (op.after sb s).2 = true) :
    (system sb).step s op (op.after sb s).1 := by
  refine ⟨hpre, ?_⟩
  unfold Op.after at *
  cases hx : op.run sb s with
  | ok u s' => rfl
  | error e s' => rw [hx] at hok; cases hok

theorem reachable_after (h : Reachable (system sb) s) (hpre : op.Pre sb s)
    (hok : (op.after sb s).2 = true) : Reachable (system sb) (op.after sb s).1 :=
  h.step (step_after hpre hok)

end

/-- A disk of twenty blocks, five of them metadata. -/
def tiny : Superblock := ⟨20, 15, 16, 3, 4⟩

/-- It has no files yet. -/
def tinyFs : Fs where
  blocks := fun b => if b = 4 then Block.zero.store 0 1 31 else Block.zero
  itable := fun _ => ⟨0, 0, false, ⟨0, 0, 0, 0, 0, fun _ => 0⟩⟩

theorem tiny_ok : tiny.Ok where
  dstart_pos := by decide
  dstart_le := by decide
  inode := by decide
  bmap := by decide
  apart := fun i b hi hb =>
    have h : ∀ i, i < 16 → ∀ b, b < 20 → IBLOCK tiny i ≠ BBLOCK tiny b := by decide
    h i hi b hb
  size_lt := by decide

theorem tinyFs_fresh : Fresh tiny tinyFs := by
  have hnone : ∀ b p, ¬ PointsTo tiny tinyFs b p := by
    rintro b ⟨i, t⟩ hp
    obtain ⟨a, ha, -⟩ := ptr_eq_some.mp hp
    have hall : ∀ i, i < 16 → (dinode tiny tinyFs.blocks i).type = 0 := by decide
    unfold diskView at ha
    split at ha
    · next hc => exact hc.2 (hall i hc.1)
    · cases ha
  have hbits : ∀ b, b < 20 → (isUsed tiny tinyFs.blocks b = true ↔ b < 5) := by decide
  refine ⟨fun b hb => ?_, fun b p _ hp => absurd hp (hnone b p),
    fun b p hp => absurd hp (hnone b p), fun _ => rfl⟩
  rw [hbits b hb]
  exact ⟨.inl, fun h => h.elim id fun ⟨p, hp⟩ => absurd hp (hnone b p)⟩

theorem balloc_bfree_tiny :
    ∃ b s', balloc tiny tinyFs = .ok b s' ∧ b < 20 ∧ s'.blocks b = Block.zero := by
  obtain ⟨⟨b, s', hrun, hb, -, -, -, hzero, -⟩, -⟩ :=
    balloc_bfree (s := tinyFs) (show tiny.size < 2 ^ 31 by decide) (by decide)
    ⟨5, by decide, by decide⟩
  exact ⟨b, s', hrun, hb, hzero⟩

/-- A copy that brings `m` bytes of the value 7. -/
def sevens : Copyin := ⟨fun _ m => (List.replicate m 7, true), by simp, by simp⟩

/-- The first entry of the inode table. -/
def tinyIp : Fin NINODE := ⟨0, by decide⟩

/-- A new file, locked. -/
def tinyFile : Fs := ((Op.ilock tinyIp).after tiny ((Op.ialloc 2).after tiny tinyFs).1).1

theorem tinyFile_reachable : Reachable (system tiny) tinyFile := by
  have h1 : Reachable (system tiny) ((Op.ialloc 2).after tiny tinyFs).1 :=
    reachable_after (.of_init tinyFs_fresh) trivial (by decide +kernel)
  exact reachable_after h1 trivial (by decide +kernel)

/-- Three bytes are written to the file. -/
def tinyRun : Fs := ((Op.writei sevens tinyIp 0 0 3).after tiny tinyFile).1

theorem tinyRun_reachable : Reachable (system tiny) tinyRun :=
  reachable_after tinyFile_reachable
    ⟨⟨by decide +kernel, by decide +kernel⟩, by decide, by decide⟩ (by decide +kernel)

theorem block_ownership_tiny : PointsTo tiny tinyRun 5 (1, .direct ⟨0, by decide⟩) ∧
    isUsed tiny tinyRun.blocks 5 = true ∧
    ∀ q, PointsTo tiny tinyRun 5 q → q = (1, .direct ⟨0, by decide⟩) := by
  have hp : PointsTo tiny tinyRun 5 (1, .direct ⟨0, by decide⟩) := by
    unfold PointsTo
    decide +kernel
  obtain ⟨-, hone, hmarked, -⟩ := block_ownership tiny_ok tinyRun_reachable
  exact ⟨hp, (hmarked 5 _ hp).2.2, fun q hq => hone 5 q _ hq hp⟩

end NoviceKernel.FS
