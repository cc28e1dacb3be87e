import NoviceKernel.FsRun
import NoviceKernel.FsTx

/-! # An inode is an array of bytes

    `contents` is the byte array that an inode stands for.  On every inode that
    `writei` and `itrunc` can produce from an empty one, `writei` overwrites a
    range of it, `readi` returns a slice of it, and calls with arguments out of
    range change nothing. -/

namespace NoviceKernel.FS

open Hoare List Function Nat

/-- The bytes of the open inode. -/
def contents (ip : Fin NINODE) (s : Fs) : List UInt8 :=
  (List.range (s.itable ip).din.size).map (fileByte ip s)

/-- The array `c` with the bytes from `off` on replaced by `bs`, extended if
    necessary. -/
def overwrite (c : List UInt8) (off : Nat) (bs : List UInt8) : List UInt8 :=
  c.take off ++ bs ++ c.drop (off + bs.length)

/-- Runs of completed `writei` and `itrunc` calls on an inode that was empty. -/
inductive FileRun (sb : Superblock) (ip : Fin NINODE) : Fs → Prop where
  | empty {s : Fs} : Inv sb s → Held ip s → (s.itable ip).din.size = 0 →
      (∀ k, (s.itable ip).din.addrs k = 0) → FileRun sb ip s
  | writei {s s' : Fs} {cp : Copyin} {src off n : Nat} {v : Int} : FileRun sb ip s → off < 2 ^ 32 →
      n < 2 ^ 32 → writei sb cp ip src off n s = .ok v s' → FileRun sb ip s'
  | itrunc {s s' : Fs} : FileRun sb ip s → itrunc sb ip s = .ok () s' → FileRun sb ip s'

/-- No block below the size is missing. -/
structure Mapped (ip : Fin NINODE) (s : Fs) : Prop where
  size_le : (s.itable ip).din.size ≤ MAXFILE * BSIZE
  block : ∀ o, o < (s.itable ip).din.size → slotVal ip s (leaf (o / BSIZE)) ≠ 0

variable {y : Dinode} {cp : Copyin} {src off n : Nat} {data : Nat → UInt8}

section

variable {sb : Superblock} {ip : Fin NINODE} {s s' : Fs} {T W : Finset Slot} {dst : Nat}
  {r : Nat × Nat}

/-! ## After `iupdate` -/

theorem iupdated_slotVal (hsb : sb.Ok) (h : Busy sb ip s) (t : Slot) :
    slotVal ip (s.iupdated sb ip) t = slotVal ip s t := by
  refine val_congr (fun u _ hne => update_of_ne ?_ _ _) t
  have := (h.range (t := u) hne).1
  have := hsb.inode _ h.inum_lt
  show slotVal ip s u ≠ _
  omega

theorem iupdated_fileByte (hsb : sb.Ok) (h : Busy sb ip s) (o : Nat) :
    fileByte ip (s.iupdated sb ip) o = fileByte ip s o := by
  unfold fileByte
  rw [iupdated_slotVal hsb h]
  split
  · rfl
  · next hne =>
    have := (h.range hne).1
    have := hsb.inode _ h.inum_lt
    show (update s.blocks _ _ _).byte _ = _
    rw [update_of_ne (by omega)]

theorem setDin_slotVal (hy : y.addrs = (s.itable ip).din.addrs) (t : Slot) :
    slotVal ip (s.setDin ip y) t = slotVal ip s t := by
  unfold slotVal
  rw [setDin_self]
  dsimp only
  rw [hy]
  rfl

theorem setDin_fileByte (hy : y.addrs = (s.itable ip).din.addrs) (o : Nat) :
    fileByte ip (s.setDin ip y) o = fileByte ip s o := by
  unfold fileByte
  rw [setDin_slotVal hy]
  rfl

/-! ## `writei` -/

/-- What a completed `writei` with arguments in range has done. -/
structure Written (sb : Superblock) (cp : Copyin) (ip : Fin NINODE) (src off n : Nat) (s : Fs)
  (v : Int)
    (s' : Fs) : Prop where
  inv : Inv sb s'
  held : Held ip s'
  mapped : Mapped ip s'
  bytes : ∀ data, src < 2 ^ 64 → Delivers cp src n data → v = n ∧
    (s'.itable ip).din.size = max (off + n) (s.itable ip).din.size ∧
    ∀ o, o / BSIZE < MAXFILE → fileByte ip s' o =
      if off ≤ o ∧ o < off + n then data (o - off) else fileByte ip s o

/-- What `writei` wrote is mapped, and so is what was there before. -/
theorem Wrote.mapped_after (hsb : sb.Ok) (hb : Busy sb ip s) (hm : Mapped ip s)
    (hoff : off ≤ (s.itable ip).din.size) (hmax : off + n ≤ MAXFILE * BSIZE)
    (hw : Wrote sb cp ip T W off n 0 src s r s') (hya : y.addrs = (s'.itable ip).din.addrs)
    (hys : y.size = max r.2 (s.itable ip).din.size) : Mapped ip (s'.setDin ip y) := by
  have hoe := hw.off_eq
  have hle := hw.le_n
  refine ⟨?_, fun o ho => ?_⟩
  · rw [setDin_self]
    have := hm.size_le
    show y.size ≤ _
    omega
  · rw [setDin_self] at ho
    rw [setDin_slotVal hya]
    have ho' : o < max r.2 (s.itable ip).din.size := by rw [← hys]; exact ho
    -- below the old size it was mapped before, from there on it was written
    by_cases hold : o < (s.itable ip).din.size
    · have hne := hm.block o hold
      rw [Steps.grow hsb hb hw.steps hne]
      exact hne
    · exact hw.mapped o (by omega) (by omega)

/-- The bytes after a `writei` all of whose copies succeed. -/
theorem Wrote.bytes_after
    (hw : Wrote sb cp ip T W off n 0 src s r s') (hya : y.addrs = (s'.itable ip).din.addrs)
    (hys : y.size = max r.2 (s.itable ip).din.size) (hsrc : src < 2 ^ 64)
    (hdel : Delivers cp src n data) :
    r.1 = n ∧ y.size = max (off + n) (s.itable ip).din.size ∧
      ∀ o, o / BSIZE < MAXFILE → fileByte ip (s'.setDin ip y) o =
        if off ≤ o ∧ o < off + n then data (o - off) else fileByte ip s o := by
  obtain ⟨htot, hdata⟩ := hw.data data src (by rw [add_zero, mod_eq_of_lt hsrc]) hdel
  refine ⟨htot, by rw [hys, hw.off_eq, htot], fun o ho => ?_⟩
  rw [setDin_fileByte hya]
  split
  · next hin => exact hdata o (by omega) hin.2
  · next hout => exact hw.outside o ho (by omega)

theorem wp_writei_written (hsb : sb.Ok) (h : Inv sb s) (hh : Held ip s) (hm : Mapped ip s)
    (hoff : off ≤ (s.itable ip).din.size) (hwrap : off + n < 2 ^ 32)
    (hmax : off + n ≤ MAXFILE * BSIZE) :
    wp (FS.writei sb cp ip src off n) (Written sb cp ip src off n s)
      (Full sb ip (pathSlots off n) (dataSlots off n) s) s := by
  have hb := h.busy hh
  have hinv : wp (FS.writei sb cp ip src off n) _ _ s :=
    h.writei hsb hh (show off < 2 ^ 32 by omega) (show n < 2 ^ 32 by omega)
  have hrun : wp (FS.writei sb cp ip src off n) _ _ s := wp_writei hsb hb hoff hwrap hmax
  unfold wp at hinv hrun ⊢
  cases hx : FS.writei sb cp ip src off n s with
  | error e s' => rw [hx] at hrun; exact hrun
  | ok v s' =>
    rw [hx] at hinv hrun
    obtain ⟨r, s1, hw, rfl, rfl⟩ := hrun
    have hb1 := Steps.busy hsb hb hw.steps
    generalize hy : ({ (s1.itable ip).din with size := max r.2 (s.itable ip).din.size } : Dinode) =
      y at *
    have hya : y.addrs = (s1.itable ip).din.addrs := by rw [← hy]
    have hys : y.size = max r.2 (s.itable ip).din.size := by rw [← hy]
    have hb2 := hb1.setDin hya
    have hself : ((s1.setDin ip y).iupdated sb ip).itable ip = { s.itable ip with din := y } := by
      show (s1.setDin ip y).itable ip = _
      rw [setDin_self, Steps.itable hw.steps, update_self]
    obtain ⟨hle, hblk⟩ := hw.mapped_after hsb hb hm hoff hmax hya hys
    refine ⟨hinv, ⟨?_, ?_⟩, ⟨hle, fun o ho => ?_⟩, ?_⟩
    · rw [hself]; exact hh.ref
    · rw [hself]; exact hh.valid
    · rw [iupdated_slotVal hsb hb2]
      exact hblk o ho
    · intro data hsrc hdel
      obtain ⟨htot, hsize, hbytes⟩ := hw.bytes_after hya hys hsrc hdel
      refine ⟨by rw [htot], by rw [hself]; exact hsize, fun o ho => ?_⟩
      rw [iupdated_fileByte hsb hb2]
      exact hbytes o ho

/-! ## Reachable inodes -/

theorem FileRun.inv (hsb : sb.Ok) (h : FileRun sb ip s) : Inv sb s ∧ Held ip s ∧ Mapped ip s := by
  induction h with
  | empty hinv hh hsz _ =>
    exact ⟨hinv, hh, by rw [hsz]; exact zero_le _, fun o ho => by rw [hsz] at ho; cases ho⟩
  | @writei s s' cp src off n v _ hoff hn hrun ih =>
    obtain ⟨hinv, hh, hm⟩ := ih
    by_cases hbad : (s.itable ip).din.size < off ∨ 2 ^ 32 ≤ off + n ∨ MAXFILE * BSIZE < off + n
    · rw [writei_rejects hoff hn hbad] at hrun
      cases hrun
      exact ⟨hinv, hh, hm⟩
    · have hw := (wp_writei_written hsb hinv hh hm (by omega) (by omega) (by omega)).of_ok hrun
      exact ⟨hw.inv, hw.held, hw.mapped⟩
  | itrunc _ hrun ih =>
    obtain ⟨hinv, hh, hm⟩ := ih
    obtain ⟨hinv', hit⟩ := (hinv.itrunc (E := fun _ _ => True) hsb hh).of_ok hrun
    have hself : (_ : Fs).itable ip = _ := (congrFun hit ip).trans (update_self ..)
    refine ⟨hinv', ⟨?_, ?_⟩, ⟨?_, ?_⟩⟩
    · rw [hself]; exact hh.ref
    · rw [hself]; exact hh.valid
    · rw [hself]; exact zero_le _
    · intro o ho
      rw [hself] at ho
      cases ho

/-! ## `readi` -/

theorem wp_readi_loop {E : Stop → Fs → Prop} {k tot dst : Nat} {out : List UInt8} (hm : Mapped ip s)
    (hn : off + n ≤ (s.itable ip).din.size) (hk : n - tot ≤ k) (htot : tot ≤ n) :
    wp (readi_loop sb (fun _ _ => true) ip n k tot (off + tot) dst out) (fun r s' =>
      s' = s ∧ r = (some n, out ++ (range (n - tot)).map fun i => fileByte ip s (off + tot + i)))
      E s := by
  induction k generalizing tot dst out with
  | zero =>
    obtain rfl : tot = n := by omega
    exact ⟨rfl, by simp⟩
  | succ k ih =>
    unfold readi_loop
    split
    case isFalse hge =>
      obtain rfl : tot = n := by omega
      exact ⟨rfl, by simp⟩
    case isTrue hlt =>
      have hB : 0 < BSIZE := by decide
      have hsz := hm.size_le
      have hbn : (off + tot) / BSIZE < MAXFILE := by
        rw [div_lt_iff_lt_mul hB]; omega
      have hne := hm.block (off + tot) (by omega)
      refine (wp_bmap_mapped hbn hne).seq ?_
      rintro b s1 ⟨rfl, hs1⟩
      rw [hs1, wp_bind, wp_bread]
      generalize hmin : min (n - tot) (BSIZE - (off + tot) % BSIZE) = m
      have hmod : (off + tot) % BSIZE < BSIZE := mod_lt _ hB
      show wp (readi_loop sb _ ip n k (tot + m) (off + tot + m) _ _) _ E _
      rw [add_assoc]
      refine (ih (by omega) (by omega)).post ?_
      rintro r _ ⟨rfl, rfl⟩
      refine ⟨rfl, ?_⟩
      have hsplit : n - tot = m + (n - (tot + m)) := by omega
      rw [hsplit, range_add, map_append, map_map, append_assoc]
      congr 3
      · -- the bytes of this round are in one block
        apply map_congr_left
        intro i hi
        have hi' := mem_range.mp hi
        have hdiv : (off + tot + i) / BSIZE = (off + tot) / BSIZE := by rw [BSIZE_eq] at *; omega
        have hmod' : (off + tot + i) % BSIZE = (off + tot) % BSIZE + i := by
          rw [BSIZE_eq] at *; omega
        unfold fileByte
        rw [hdiv, hmod', if_neg hne]
      · have : tot + m + (n - (tot + m)) - (tot + m) = n - (tot + m) := by omega
        apply map_congr_left
        intro i _
        show fileByte ip _ (off + (tot + m) + i) = fileByte ip _ (off + tot + (m + i))
        congr 1
        omega

theorem readi_rejects {cp : Nat → Nat → Bool} (hoff : off < 2 ^ 32) (hn : n < 2 ^ 32)
    (h : (s.itable ip).din.size < off ∨ 2 ^ 32 ≤ off + n) :
    readi sb cp ip dst off n s = .ok (0, []) s := by
  show (if _ ∨ _ then pure ((0 : Int), ([] : List UInt8)) else _ : FsM (Int × List UInt8)) s = _
  rw [if_pos (by omega)]
  rfl

theorem readi_reads (hm : Mapped ip s)
    (hoff : off ≤ (s.itable ip).din.size) (hwrap : off + n < 2 ^ 32) :
    readi sb (fun _ _ => true) ip dst off n s =
      .ok (((min (off + n) (s.itable ip).din.size - off : Nat) : Int),
        ((contents ip s).drop off).take n) s := by
  have hslice : ∀ m, m = min (off + n) (s.itable ip).din.size - off →
      ((contents ip s).drop off).take n = (range m).map fun i => fileByte ip s (off + i) := by
    rintro m rfl
    unfold contents
    apply ext_getElem
    · simp; omega
    · intro i h1 h2
      simp
  generalize hmin : min (off + n) (s.itable ip).din.size - off = m at *
  have hrun : wp (readi sb (fun _ _ => true) ip dst off n)
      (fun r s' => r = ((m : Int), (range m).map fun i => fileByte ip s (off + i)) ∧ s' = s)
      (fun _ _ => False) s := by
    rw [readi, wp_bind, wp_get, mod_eq_of_lt hwrap]
    dsimp only
    rw [if_neg (by omega)]
    have hn' : (if off + n > (s.itable ip).din.size then (s.itable ip).din.size - off else n) =
        m := by
      split <;> omega
    rw [hn']
    refine (wp_readi_loop (k := m) hm (show off + m ≤ _ by omega) (by omega) (zero_le m)).seq ?_
    rintro _ s' ⟨hs', rfl⟩
    exact ⟨rfl, hs'⟩
  unfold wp at hrun
  cases hx : readi sb (fun _ _ => true) ip dst off n s with
  | error e s' => rw [hx] at hrun; exact hrun.elim
  | ok r s' =>
    rw [hx] at hrun
    rw [hrun.1, hrun.2, hslice m rfl]

/-! ## The refinement -/

/-- The contents of an inode some of whose bytes were replaced. -/
theorem contents_overwrite (hoff : off ≤ (s.itable ip).din.size)
    (hsize : (s'.itable ip).din.size = max (off + n) (s.itable ip).din.size)
    (hmax : (s'.itable ip).din.size ≤ MAXFILE * BSIZE)
    (hbytes : ∀ o, o / BSIZE < MAXFILE → fileByte ip s' o =
      if off ≤ o ∧ o < off + n then data (o - off) else fileByte ip s o) :
    contents ip s' = overwrite (contents ip s) off ((range n).map data) := by
  have hB : 0 < BSIZE := by decide
  unfold contents overwrite
  rw [hsize] at hmax ⊢
  apply ext_getElem
  · simp; omega
  · intro o h1 h2
    have ho : o < max (off + n) (s.itable ip).din.size := by simpa using h1
    simp only [getElem_map, getElem_range]
    rw [hbytes o (by rw [div_lt_iff_lt_mul hB]; omega)]
    by_cases hlo : o < off
    · rw [if_neg (by omega), getElem_append_left (by simp; omega),
        getElem_append_left (by simp; omega)]
      simp
    · by_cases hhi : o < off + n
      · rw [if_pos ⟨by omega, hhi⟩, getElem_append_left (by simp; omega),
          getElem_append_right (by simp; omega)]
        simp
        congr 1
        omega
      · rw [if_neg (by omega), getElem_append_right (by simp; omega)]
        simp
        congr 1
        omega

end

end NoviceKernel.FS
