import NoviceKernel.FsTable

/-! # Reading does not write

    In a file system without holes `readi` finds every block mapped.  So it
    allocates nothing, and it does not matter that `fileread` calls it outside
    of a transaction.

    **Key theorem**: `reads_log_nothing`. -/

namespace NoviceKernel.FS

open TransitionSystem

namespace Tx

section Reads

variable {sb : Superblock} {ip : Fin NINODE} {s : Tx}

/-- Both return the same and change nothing. -/
def Quiet {α : Type} (x : TxM α) (y : FsM α) (s : Tx) : Prop :=
  ∃ a, x s = .ok a s ∧ y s.view = .ok a s.view

theorem Quiet.bind {α β : Type} {x : TxM α} {y : FsM α} {f : α → TxM β} {g : α → FsM β} {a : α}
    (hx : x s = .ok a s) (hy : y s.view = .ok a s.view) (h : Quiet (f a) (g a) s) :
    Quiet (x >>= f) (y >>= g) s := by
  obtain ⟨b, hf, hg⟩ := h
  refine ⟨b, ?_, ?_⟩
  · simp only [Bind.bind, EStateM.bind, hx, hf]
  · simp only [Bind.bind, EStateM.bind, hy, hg]

theorem Quiet.get {β : Type} {f : Tx → TxM β} {g : Fs → FsM β} (h : Quiet (f s) (g s.view) s) :
    Quiet (get >>= f) (get >>= g) s := h

theorem bmap_quiet {bn : Nat} (hbn : bn < MAXFILE) (hne : slotVal ip s.view (leaf bn) ≠ 0) :
    bmap sb ip bn s = .ok (slotVal ip s.view (leaf bn)) s ∧
      FS.bmap sb ip bn s.view = .ok (slotVal ip s.view (leaf bn)) s.view := by
  have hmap : Hoare.wp (bmap sb ip bn) _ (fun _ _ => False) s := wp_bmap_mapped hbn hne
  have hflat : Hoare.wp (FS.bmap sb ip bn) _ (fun _ _ => False) s.view := FS.wp_bmap_mapped hbn hne
  obtain ⟨b, s1, hrun, rfl, rfl⟩ := hmap.returns
  obtain ⟨c, s2, hflat, rfl, rfl⟩ := hflat.returns
  exact ⟨hrun, hflat⟩

theorem readi_loop_quiet {cp : Nat → Nat → Bool} {off n k dst : Nat} {out : List UInt8} (tot : Nat)
    (hm : Mapped ip s.view) (hn : off + n ≤ (s.itable ip).din.size) (htot : tot ≤ n) :
    Quiet (readi_loop sb cp ip n k tot (off + tot) dst out)
      (FS.readi_loop sb cp ip n k tot (off + tot) dst out) s := by
  -- on the rounds, one block each
  induction k generalizing tot dst out with
  | zero => exact ⟨_, rfl, rfl⟩
  | succ k ih =>
    unfold readi_loop FS.readi_loop
    by_cases hlt : tot < n
    case neg =>
      rw [if_neg hlt, if_neg hlt]
      exact ⟨_, rfl, rfl⟩
    rw [if_pos hlt, if_pos hlt]
    have hsz : (s.itable ip).din.size ≤ MAXFILE * BSIZE := hm.size_le
    have hbn : (off + tot) / BSIZE < MAXFILE := by
      rw [Nat.div_lt_iff_lt_mul (by decide)]; omega
    have hlt' : off + tot < (s.itable ip).din.size := by omega
    obtain ⟨hrun, hflat⟩ := bmap_quiet hbn (hm.block (off + tot) hlt')
    refine .bind hrun hflat (.bind (a := s.view.blocks _) rfl rfl ?_)
    dsimp only
    split
    · rw [Nat.add_assoc]
      exact ih _ (by omega)
    · exact ⟨_, rfl, rfl⟩

/-- `readi` of an inode without holes changes and logs nothing. -/
theorem readi_quiet {cp : Nat → Nat → Bool} {dst off n : Nat} (hm : Mapped ip s.view)
    (hoff : off < 2 ^ 32) (hn : n < 2 ^ 32) :
    Quiet (readi sb cp ip dst off n) (FS.readi sb cp ip dst off n) s := by
  unfold readi FS.readi
  refine .get ?_
  have hview : s.view.itable = s.itable := rfl
  rw [hview]
  dsimp only
  by_cases hbad : off > (s.itable ip).din.size ∨ (off + n) % 2 ^ 32 < off
  · rw [if_pos hbad, if_pos hbad]
    exact ⟨_, rfl, rfl⟩
  · rw [if_neg hbad, if_neg hbad]
    have hle : off +
      (if (off + n) % 2 ^ 32 > (s.itable ip).din.size then (s.itable ip).din.size - off else n) ≤
        (s.itable ip).din.size := by
      split <;> omega
    generalize (if (off + n) % 2 ^ 32 > (s.itable ip).din.size then (s.itable ip).din.size - off
      else n) = m at *
    have hloop : Quiet (readi_loop sb cp ip m m 0 off dst [])
      (FS.readi_loop sb cp ip m m 0 off dst []) s :=
      readi_loop_quiet 0 hm hle (Nat.zero_le _)
    obtain ⟨⟨tot, out⟩, hrun, hflat⟩ := hloop
    refine .bind hrun hflat ?_
    cases tot with
    | none => exact ⟨_, rfl, rfl⟩
    | some tot => exact ⟨_, rfl, rfl⟩

end Reads

end Tx

/-- **Reads never allocate.**  In every state that completed calls reach from a file
    system without holes, every block below the size of every allocated inode is
    mapped, at all its levels.  So `readi` of an open inode, for any offset and
    length and inside or outside of a transaction, returns what the flat model
    says, and no inode, no buffer and nothing of the log has changed. -/
theorem reads_log_nothing {sb : Superblock} {s : Fs} (hsb : sb.Ok)
    (h : Reachable (solidSystem sb) s) :
    (∀ i, i < sb.ninodes → (dinode sb s.blocks i).type ≠ 0 →
      ∀ bn, bn * BSIZE < (dinode sb s.blocks i).size →
        bn < MAXFILE ∧ ∀ t ∈ (leaf bn).path, val s.blocks (dinode sb s.blocks i).addrs t ≠ 0) ∧
    ∀ (tx : Tx) (ip : Fin NINODE) (cp : Nat → Nat → Bool) (dst off n : Nat),
      tx.view = s → Held ip s → off < 2 ^ 32 → n < 2 ^ 32 →
      ∃ r, Tx.readi sb cp ip dst off n tx = .ok r tx ∧ readi sb cp ip dst off n s = .ok r s := by
  obtain ⟨hinv, hsolid⟩ := reachable_solid hsb h
  refine ⟨fun i hi ht bn hbn => ?_, ?_⟩
  · have hw := hsolid i hi ht
    have hblock := hw.block (bn * BSIZE) hbn
    rw [Nat.mul_div_cancel bn (by decide)] at hblock
    refine ⟨?_, fun t ht => val_path_ne_zero hblock ht⟩
    exact Nat.lt_of_mul_lt_mul_right (Nat.lt_of_lt_of_le hbn hw.size_le)
  · rintro tx ip cp dst off n rfl hh hoff hn
    exact Tx.readi_quiet ((hinv.table hsolid).mapped hh) hoff hn

theorem tinyRun_solid : Reachable (solidSystem tiny) tinyRun := by
  have hall : ∀ i, i < 16 → (dinode tiny tinyFs.blocks i).type = 0 := by decide
  have h0 : Reachable (solidSystem tiny) tinyFs :=
    .of_init ⟨tinyFs_fresh, fun i hi ht => absurd (hall i hi) ht⟩
  have h1 : Reachable (solidSystem tiny) ((Op.ialloc 2).after tiny tinyFs).1 :=
    h0.step (step_after trivial (by decide +kernel))
  have h2 : Reachable (solidSystem tiny) tinyFile :=
    h1.step (step_after trivial (by decide +kernel))
  exact h2.step (step_after ⟨⟨by decide +kernel, by decide +kernel⟩, by decide, by decide⟩
    (by decide +kernel))

/-- Ten bytes are asked for from the second one on, outside of a transaction. -/
theorem reads_log_nothing_tiny :
    ∃ r, Tx.readi tiny (fun _ _ => true) tinyIp 0 1 10 (tinyRun.unbuffered 0) =
        .ok r (tinyRun.unbuffered 0) ∧
      readi tiny (fun _ _ => true) tinyIp 0 1 10 tinyRun = .ok r tinyRun :=
  (reads_log_nothing tiny_ok tinyRun_solid).2 (tinyRun.unbuffered 0) tinyIp _ 0 1 10 rfl
    ⟨by decide +kernel, by decide +kernel⟩ (by decide) (by decide)

end NoviceKernel.FS
