import NoviceKernel.FsDir
import NoviceKernel.FsLogged
import NoviceKernel.FsReads

/-! # Writes that stop early (`writei`, `either_copyin`, `log_write`)

    `writei` copies straight into the cached block.  A copy that fails has put
    the bytes up to the first one that cannot be read into the buffer, and the
    buffer is released without `log_write`.  These bytes are seen by `readi`
    until the buffer is recycled.

    1. **Source**: user memory of which parts cannot be accessed.
    2. **The bytes** that a short write leaves in the buffers.
    3. **Later**: recycling of buffers, the end of the transaction, a commit.
    4. **What is read later**.

    **Key theorem**: a write has replaced what it reports, and nothing else, if
    and only if the bytes of the failed copy that lie within the file are the
    ones that were there (`short_write_iff`). -/

namespace NoviceKernel.FS

open Hoare Function List Nat

/-! ## 1. Source -/

/-- The bytes from the user address `src` on up to the first one that cannot be
    accessed, at most `m`. -/
def userBytes (mem : Nat → Option UInt8) : Nat → Nat → List UInt8
  | _, 0 => []
  | src, m + 1 =>
    match mem (src % 2 ^ 64) with
    | none => []
    | some b => b :: userBytes mem (src + 1) m

section

variable (mem : Nat → Option UInt8)

theorem userBytes_length_le (src m : Nat) : (userBytes mem src m).length ≤ m := by
  induction m generalizing src with
  | zero => exact le_refl 0
  | succ m ih =>
    unfold userBytes
    split
    · exact zero_le _
    · exact succ_le_succ (ih (src + 1))

/-- `either_copyin` from user memory. -/
def fromUser : Copyin where
  run := fun src m => (userBytes mem src m, decide ((userBytes mem src m).length = m))
  len := fun src m => userBytes_length_le mem src m
  full := fun _ _ h => of_decide_eq_true h

/-- Of `n` bytes from `src` on the first ones, `bs`, arrive. -/
def Yields (cp : Copyin) (src n : Nat) (bs : List UInt8) : Prop :=
  ∀ i m, i ≤ bs.length → i + m ≤ n →
    cp.run ((src + i) % 2 ^ 64) m = ((bs.drop i).take m, decide (i + m ≤ bs.length))

theorem userBytes_mod (src m : Nat) : userBytes mem (src % 2 ^ 64) m = userBytes mem src m := by
  induction m generalizing src with
  | zero => rfl
  | succ m ih =>
    unfold userBytes
    rw [mod_mod]
    split
    · rfl
    · rw [← ih (src % 2 ^ 64 + 1), ← ih (src + 1), mod_add_mod]

theorem userBytes_none {mem : Nat → Option UInt8} {src m : Nat} (h : mem (src % 2 ^ 64) = none) :
    userBytes mem src (m + 1) = [] := by
  unfold userBytes
  rw [h]

theorem userBytes_some {mem : Nat → Option UInt8} {src m : Nat} {b : UInt8}
    (h : mem (src % 2 ^ 64) = some b) :
    userBytes mem src (m + 1) = b :: userBytes mem (src + 1) m := by
  conv_lhs => unfold userBytes
  rw [h]

/-- A part of the range. -/
theorem userBytes_part {src n i m : Nat} (hi : i ≤ (userBytes mem src n).length)
    (hn : i + m ≤ n) : userBytes mem (src + i) m = ((userBytes mem src n).drop i).take m := by
  -- first the bytes before the part, one by one, then the part
  induction n generalizing src i m with
  | zero =>
    obtain rfl : m = 0 := by omega
    simp [userBytes]
  | succ n ih =>
    cases hb : mem (src % 2 ^ 64) with
    | none =>
      rw [userBytes_none hb] at hi ⊢
      obtain rfl : i = 0 := le_zero.mp hi
      cases m with
      | zero => rfl
      | succ m => rw [add_zero, userBytes_none hb]; rfl
    | some b =>
      rw [userBytes_some hb] at hi ⊢
      cases i with
      | zero =>
        cases m with
        | zero => rfl
        | succ m =>
          have hrest := @ih (src + 1) 0 m (zero_le _) (by omega)
          rw [drop_zero, add_zero] at hrest
          rw [add_zero, userBytes_some hb, drop_zero, take_succ_cons, hrest]
      | succ i =>
        have hrest := @ih (src + 1) i m (le_of_succ_le_succ hi) (by omega)
        rw [drop_succ_cons, ← hrest]
        congr 1
        omega

theorem fromUser_yields (src n : Nat) : Yields (fromUser mem) src n (userBytes mem src n) := by
  intro i m hi hn
  show (userBytes mem ((src + i) % 2 ^ 64) m,
    decide ((userBytes mem ((src + i) % 2 ^ 64) m).length = m)) = _
  rw [userBytes_mod, userBytes_part mem hi hn, length_take, length_drop]
  congr 1
  exact decide_eq_decide.mpr (by omega)

end

/-! ## 2. The bytes -/

/-- How much `writei` reports if `a` bytes of `n` can be copied: the blocks before the
    one in which the copy fails. -/
def written (off n a : Nat) : Nat := if n ≤ a then n else a - (off + a) % BSIZE

section Bytes

variable {sb : Superblock} {cp : Copyin} {ip : Fin NINODE} {s s' : Fs} {off n src : Nat}
  {bs : List UInt8}

/-- The round in which the copy fails. -/
theorem written_of_fail {tot m a : Nat} (hstart : tot = 0 ∨ (off + tot) % BSIZE = 0)
    (hm : m = min (n - tot) (BSIZE - (off + tot) % BSIZE)) (ha : tot ≤ a) (hfail : ¬ tot + m ≤ a) :
    written off n a = tot := by
  unfold written
  rw [BSIZE_eq] at *
  rw [if_neg (by omega)]
  rcases hstart with rfl | h0
  · rw [add_zero] at hm
    omega
  · omega

/-- The bytes after the loop of `writei`, whether it stopped early or not. -/
theorem wp_writei_loop_yields {k tot src₀ : Nat} (hsb : sb.Ok) (h : Busy sb ip s) (hk : n - tot ≤ k)
    (htot : tot ≤ n) (hmax : off + n ≤ MAXFILE * BSIZE)
    (hstart : tot = n ∨ tot = 0 ∨ (off + tot) % BSIZE = 0) (hy : Yields cp src₀ n bs)
    (hsrc : src = (src₀ + tot) % 2 ^ 64) (hle : tot ≤ bs.length) :
    wp (writei_loop sb cp ip n k tot (off + tot) src)
      (fun r s' => r = (written off n bs.length, off + written off n bs.length) ∧
        ∀ o, o / BSIZE < MAXFILE →
          fileByte ip s' o =
            if off + tot ≤ o ∧ o < off + min n bs.length then bs.getD (o - off) 0
              else fileByte ip s o) (fun _ _ => True) s := by
  have hdone : n ≤ bs.length → written off n bs.length = n := fun h => if_pos h
  -- on the rounds, one block each
  induction k generalizing tot src s with
  | zero =>
    obtain rfl : tot = n := by omega
    rw [hdone hle]
    exact ⟨rfl, fun o _ => (if_neg (by omega)).symm⟩
  | succ k ih =>
    rcases Nat.eq_or_lt_of_le htot with rfl | hlt
    · rw [hdone hle, writei_loop_done]
      exact ⟨rfl, fun o _ => (if_neg (by omega)).symm⟩
    have hmod : (off + tot) % BSIZE < BSIZE := mod_lt _ (by decide)
    generalize hm : min (n - tot) (BSIZE - (off + tot) % BSIZE) = m
    have hrun : cp.run src m = ((bs.drop tot).take m, decide (tot + m ≤ bs.length)) := by
      rw [hsrc]
      exact hy tot m hle (by omega)
    have hlen : ((bs.drop tot).take m).length = min m (bs.length - tot) := by
      rw [length_take, length_drop]
    refine wp_writei_round hsb h hlt hmax (Finset.Subset.refl _) (Finset.Subset.refl _) hm.symm
      (fun _ _ _ => trivial) ?_
    intro s2 hstep _ hbytes
    rw [hrun] at hbytes ⊢
    have hcopy : ∀ o, o / BSIZE < MAXFILE → fileByte ip s2 o =
        if off + tot ≤ o ∧ o < off + min (tot + m) bs.length then bs.getD (o - off) 0
        else fileByte ip s o := by
      intro o ho
      rw [hbytes o ho, hlen]
      by_cases hin : off + tot ≤ o ∧ o < off + tot + min m (bs.length - tot)
      · rw [if_pos hin, if_pos (by omega)]
        simp only [getD_eq_getElem?_getD, getElem?_take, getElem?_drop]
        rw [if_pos (by omega)]
        congr 2
        omega
      · rw [if_neg hin, if_neg (by omega)]
    by_cases hok : tot + m ≤ bs.length
    case neg =>
      rw [if_neg (by simpa using hok), written_of_fail (hstart.resolve_left (by omega)) hm.symm
        hle hok]
      refine ⟨rfl, fun o ho => ?_⟩
      rw [hcopy o ho]
      exact if_congr (by omega) rfl rfl
    case pos =>
      rw [if_pos (by simpa using hok)]
      have hnext : tot + m = n ∨ tot + m = 0 ∨ (off + (tot + m)) % BSIZE = 0 := by
        rw [BSIZE_eq] at *
        omega
      refine (ih (Steps.busy hsb h hstep) (by omega) (by omega) hnext (by rw [hsrc]; omega)
        hok).post ?_
      rintro r s' ⟨hr, hbytes⟩
      refine ⟨hr, fun o ho => ?_⟩
      rw [hbytes o ho]
      by_cases hin : off + (tot + m) ≤ o ∧ o < off + min n bs.length
      · rw [if_pos hin, if_pos (by omega)]
      · rw [if_neg hin, hcopy o ho]
        exact if_congr (by omega) rfl rfl

/-- The bytes after `writei` when its checks pass. -/
theorem wp_writei_yields (hsb : sb.Ok) (h : Busy sb ip s) (hoff : off ≤ (s.itable ip).din.size)
    (hmax : off + n ≤ MAXFILE * BSIZE) (hy : Yields cp src n bs) (hsrc : src < 2 ^ 64) :
    wp (writei sb cp ip src off n)
      (fun v s' => v = (written off n bs.length : Nat) ∧
        (s'.itable ip).din.size = max (off + written off n bs.length) (s.itable ip).din.size ∧
        ∀ o, o / BSIZE < MAXFILE → fileByte ip s' o =
          if off ≤ o ∧ o < off + min n bs.length then bs.getD (o - off) 0 else fileByte ip s o)
      (fun _ _ => True) s := by
  have hM : MAXFILE * BSIZE < 2 ^ 32 := by decide
  rw [writei, wp_bind, wp_get, mod_eq_of_lt (show off + n < 2 ^ 32 by omega), if_neg (by omega),
    if_neg (by omega), wp_bind]
  have hloop :=
    wp_writei_loop_yields (k := n) hsb h (sub_le n 0) (zero_le n) hmax (.inr (.inl rfl)) hy
    (mod_eq_of_lt hsrc).symm (zero_le _)
  have hsteps : wp (writei_loop sb cp ip n n 0 (off + 0) src) _ _ s :=
    wp_writei_loop hsb h (sub_le n 0) (zero_le n) hmax (Finset.Subset.refl _) (Finset.Subset.refl _)
  refine (hloop.and hsteps).mono ?_ fun _ _ _ => trivial
  rintro r s1 ⟨⟨rfl, hbytes⟩, hw⟩
  have hb1 := Steps.busy hsb h hw.steps
  have hsz : (s1.itable ip).din.size = (s.itable ip).din.size := by
    rw [Steps.itable hw.steps, Function.update_self]
  rw [wp_bind, wp_modifyDin, wp_bind, wp_iupdate, wp_pure]
  generalize hy :
    ({ (s1.itable ip).din with
      size := max (off + written off n bs.length) (s1.itable ip).din.size } :
    Dinode) = y
  have hya : y.addrs = (s1.itable ip).din.addrs := by rw [← hy]
  refine ⟨rfl, ?_, fun o ho => ?_⟩
  · show ((s1.setDin ip y).itable ip).din.size = _
    rw [setDin_self, ← hsz, ← hy]
  · rw [iupdated_fileByte hsb (hb1.setDin hya), setDin_fileByte hya]
    exact hbytes o ho

theorem written_le (off n a : Nat) : written off n a ≤ min n a := by
  unfold written
  split <;> omega

/-- The bytes of the failed copy that lie within the file are the ones that were
    there. -/
def Untorn (c : List UInt8) (off n : Nat) (bs : List UInt8) : Prop :=
  ∀ i, written off n bs.length ≤ i → i < min n bs.length → off + i < c.length →
    bs.getD i 0 = c.getD (off + i) 0

theorem getD_contents {o : Nat} (ho : o < (s.itable ip).din.size) :
    (contents ip s).getD o 0 = fileByte ip s o := by
  unfold contents
  rw [getD_eq_getElem?_getD, getElem?_map, getElem?_range ho]
  rfl

theorem length_contents (ip : Fin NINODE) (s : Fs) :
    (contents ip s).length = (s.itable ip).din.size := by
  unfold contents
  rw [length_map, length_range]

/-- What is read right after a short write. -/
theorem contents_short_iff (hoff : off ≤ (s.itable ip).din.size)
    (hsize : (s'.itable ip).din.size = max (off + written off n bs.length) (s.itable ip).din.size)
    (hle : (s'.itable ip).din.size ≤ MAXFILE * BSIZE)
    (hbytes : ∀ o, o / BSIZE < MAXFILE → fileByte ip s' o =
      if off ≤ o ∧ o < off + min n bs.length then bs.getD (o - off) 0 else fileByte ip s o) :
    contents ip s' = overwrite (contents ip s) off (bs.take (written off n bs.length)) ↔
      Untorn (contents ip s) off n bs := by
  have hw := written_le off n bs.length
  have hlen : (bs.take (written off n bs.length)).length = written off n bs.length := by
    rw [length_take]
    omega
  have hoff' : off ≤ (contents ip s).length := by rw [length_contents]; exact hoff
  -- byte by byte
  have hbyte : ∀ o, o < (s'.itable ip).din.size →
      ((contents ip s').getD o 0 =
        (overwrite (contents ip s) off (bs.take (written off n bs.length))).getD o 0 ↔
        (off + written off n bs.length ≤ o → o < off + min n bs.length →
            bs.getD (o - off) 0 = fileByte ip s o)) := by
    intro o ho
    have hob : o / BSIZE < MAXFILE := by
      rw [Nat.div_lt_iff_lt_mul (by decide)]; omega
    rw [getD_contents ho, hbytes o hob, getD_overwrite hoff', hlen]
    have hold : ¬ (off ≤ o ∧ o < off + written off n bs.length) →
      (contents ip s).getD o 0 = fileByte ip s o :=
      fun hno => getD_contents (by omega)
    by_cases h1 : off ≤ o ∧ o < off + written off n bs.length
    · rw [if_pos h1, if_pos (by omega), getD_eq_getElem?_getD, getD_eq_getElem?_getD,
        getElem?_take_of_lt (by omega)]
      exact ⟨fun _ h => absurd h (by omega), fun _ => rfl⟩
    · rw [if_neg h1, hold h1]
      by_cases h2 : off ≤ o ∧ o < off + min n bs.length
      · rw [if_pos h2]
        exact ⟨fun h _ _ => h, fun h => h (by omega) h2.2⟩
      · rw [if_neg h2]
        exact ⟨fun _ h3 h4 => absurd ⟨by omega, h4⟩ h2, fun _ => rfl⟩
  constructor
  · intro heq i h1 h2 h3
    rw [length_contents] at h3
    have := (hbyte (off + i) (by omega)).mp (by rw [heq]) (by omega) (by omega)
    rw [Nat.add_sub_cancel_left] at this
    rw [this, getD_contents h3]
  · intro hun
    have hlen' : (contents ip s').length =
        (overwrite (contents ip s) off (bs.take (written off n bs.length))).length := by
      rw [length_overwrite hoff', length_contents, length_contents, hlen, hsize]
    refine ext_getElem hlen' fun o h1 h2 => ?_
    rw [length_contents] at h1
    have hget := (hbyte o h1).mpr fun h3 h4 => by
      have := hun (o - off) (by omega) (by omega) (by rw [length_contents]; omega)
      rw [this, show off + (o - off) = o by omega, getD_contents (by omega)]
    rwa [getD_eq_getElem _ _ (by rw [length_contents]; exact h1), getD_eq_getElem _ _ h2] at hget

end Bytes

/-! ## 3. Later -/

namespace Tx

/-- What happens to the buffers and the log between system calls. -/
inductive Event : Tx → Tx → Prop where
  /-- `bget` recycles a buffer that is not pinned. -/
  | evict {s : Tx} (b : Nat) : b ∉ s.logged → Event s { s with buf := update s.buf b none }
  | begin_op (s : Tx) : Event s { s with outstanding := s.outstanding + 1, passed := [] }
  | end_op {s : Tx} : 0 < s.outstanding → Event s { s with outstanding := s.outstanding - 1 }
  /-- `commit`: the logged buffers go to their place on the disk. -/
  | commit {s : Tx} : s.outstanding = 0 →
      Event s { s with
        disk := fun b => if b ∈ s.logged then s.view.blocks b else s.disk b, logged := [] }

/-- Any number of them. -/
abbrev Later : Tx → Tx → Prop := Relation.ReflTransGen Event

/-- What can have become of the blocks. -/
structure Aged (s s' : Tx) : Prop where
  itable : s'.itable = s.itable
  logged : ∀ b, b ∈ s.logged → s'.view.blocks b = s.view.blocks b ∧
    (b ∈ s'.logged ∨ s'.disk b = s.view.blocks b)
  rest : ∀ b, b ∉ s.logged → b ∉ s'.logged ∧ s'.disk b = s.disk b ∧
    (s'.view.blocks b = s.view.blocks b ∨ s'.view.blocks b = s.disk b)

theorem Aged.refl (s : Tx) : Aged s s :=
  ⟨rfl, fun _ h => ⟨rfl, .inl h⟩, fun _ h => ⟨h, rfl, .inl rfl⟩⟩

theorem view_evict (s : Tx) (b c : Nat) :
    (view { s with buf := update s.buf b none }).blocks c =
      if c = b then s.disk c else s.view.blocks c := by
  show (update s.buf b none c).getD (s.disk c) = _
  by_cases hc : c = b
  · rw [if_pos hc, hc, Function.update_self]
    rfl
  · rw [if_neg hc, Function.update_of_ne hc]
    rfl

theorem view_commit (s : Tx) (c : Nat) :
    (s.buf c).getD (if c ∈ s.logged then s.view.blocks c else s.disk c) = s.view.blocks c := by
  show _ = (s.buf c).getD (s.disk c)
  cases hb : s.buf c with
  | some d => rfl
  | none =>
    show (if c ∈ s.logged then (s.buf c).getD (s.disk c) else s.disk c) = s.disk c
    rw [hb]
    exact ite_self _

theorem Aged.event {s s' s'' : Tx} (h : Aged s s') (he : Event s' s'') : Aged s s'' := by
  cases he with
  | begin_op => exact ⟨h.itable, h.logged, h.rest⟩
  | end_op _ => exact ⟨h.itable, h.logged, h.rest⟩
  | evict b hb =>
    refine ⟨h.itable, fun c hc => ?_, fun c hc => ?_⟩
    · obtain ⟨hv, hl⟩ := h.logged c hc
      refine ⟨?_, hl⟩
      rw [view_evict]
      split
      · -- it is not pinned any more, so it has been committed
        next hcb => exact hl.resolve_left (hcb ▸ hb)
      · exact hv
    · obtain ⟨hl, hd, hv⟩ := h.rest c hc
      refine ⟨hl, hd, ?_⟩
      rw [view_evict]
      split
      · exact .inr hd
      · exact hv
  | commit _ =>
    refine ⟨h.itable, fun c hc => ?_, fun c hc => ?_⟩
    · obtain ⟨hv, hl⟩ := h.logged c hc
      refine ⟨(view_commit s' c).trans hv, .inr ?_⟩
      dsimp only
      split
      · exact hv
      · next hno => exact hl.resolve_left hno
    · obtain ⟨hl, hd, hv⟩ := h.rest c hc
      have hview := view_commit s' c
      refine ⟨not_mem_nil, ?_, ?_⟩
      · dsimp only
        rw [if_neg hl, hd]
      · exact hv.imp (fun hv => hview.trans hv) fun hv => hview.trans hv

theorem Later.aged {s s' : Tx} (h : Later s s') : Aged s s' := by
  induction h with
  | refl => exact .refl s
  | tail _ he ih => exact ih.event he

/-! ## 4. What is read later -/

/-- What `readi` returns of the open inode, and what `bmap` finds, does not depend on
    the recycling of buffers. -/
structure Settled (ip : Fin NINODE) (s : Tx) : Prop where
  index : ∀ t, t.isIndex = true → slotVal ip s.view t ≠ 0 → slotVal ip s.view t ∉ s.logged →
    s.disk (slotVal ip s.view t) = s.view.blocks (slotVal ip s.view t)
  data : ∀ o, o < (s.itable ip).din.size → slotVal ip s.view (leaf (o / BSIZE)) ∉ s.logged →
    (s.disk (slotVal ip s.view (leaf (o / BSIZE)))).byte (o % BSIZE) = fileByte ip s.view o

section Later

variable {sb : Superblock} {ip : Fin NINODE} {s s' : Tx} {c : List UInt8}

theorem Settled.slotVal (h : Settled ip s) (ha : Aged s s') (t : Slot) :
    FS.slotVal ip s'.view t = FS.slotVal ip s.view t := by
  have hit : s'.view.itable = s.view.itable := ha.itable
  unfold FS.slotVal
  rw [hit]
  refine val_congr (fun u hu hne => ?_) t
  -- a pointer block is the same in the buffer and on the disk
  by_cases hl : FS.slotVal ip s.view u ∈ s.logged
  · exact (ha.logged _ hl).1
  · rcases (ha.rest _ hl).2.2 with hv | hv
    · exact hv
    · exact hv.trans (h.index u hu hne hl)

theorem Settled.mapped (h : Settled ip s) (hm : Mapped ip s.view) (ha : Aged s s') :
    Mapped ip s'.view := by
  have hit : s'.view.itable = s.view.itable := ha.itable
  refine ⟨by rw [hit]; exact hm.size_le, fun o ho => ?_⟩
  rw [hit] at ho
  rw [h.slotVal ha]
  exact hm.block o ho

theorem Settled.contents (h : Settled ip s) (hm : Mapped ip s.view) (ha : Aged s s') :
    contents ip s'.view = FS.contents ip s.view := by
  have hit : s'.view.itable = s.view.itable := ha.itable
  unfold FS.contents
  rw [hit]
  refine map_congr_left fun o ho => ?_
  have ho : o < (s.itable ip).din.size := mem_range.mp ho
  have hne := hm.block o ho
  unfold fileByte
  rw [h.slotVal ha, if_neg hne, if_neg hne]
  by_cases hl : FS.slotVal ip s.view (leaf (o / BSIZE)) ∈ s.logged
  · rw [(ha.logged _ hl).1]
  · rcases (ha.rest _ hl).2.2 with hv | hv
    · rw [hv]
    · rw [hv, h.data o ho hl]
      exact if_neg hne

/-- `readi` returns the bytes of `c`. -/
def Reads (sb : Superblock) (ip : Fin NINODE) (s : Tx) (c : List UInt8) : Prop :=
  ∀ dst off n, off ≤ c.length → off + n < 2 ^ 32 →
    readi sb (fun _ _ => true) ip dst off n s =
      .ok (((min (off + n) c.length - off : Nat) : Int), (c.drop off).take n) s

theorem reads_contents (hm : Mapped ip s.view) : Reads sb ip s (contents ip s.view) := by
  intro dst off n hoff hwrap
  rw [length_contents] at hoff ⊢
  have hquiet : Quiet (readi sb (fun _ _ => true) ip dst off n)
    (FS.readi sb (fun _ _ => true) ip dst off n) s :=
    readi_quiet hm (by omega) (by omega)
  obtain ⟨r, hrun, hflat⟩ := hquiet
  rw [hrun]
  rw [readi_reads hm hoff hwrap] at hflat
  rw [(EStateM.Result.ok.inj hflat).1]

/-- A file is read in one way only. -/
theorem Reads.unique {c' : List UInt8} (h : Reads sb ip s c) (h' : Reads sb ip s c')
    (hc : c.length < 2 ^ 31) (hc' : c'.length < 2 ^ 31) : c = c' := by
  have h1 := h 0 0 (max c.length c'.length) (zero_le _) (by omega)
  have h2 := h' 0 0 (max c.length c'.length) (zero_le _) (by omega)
  rw [h1] at h2
  have := congrArg Prod.snd (EStateM.Result.ok.inj h2).1
  dsimp only at this
  rw [drop_zero, drop_zero, take_of_length_le (by omega), take_of_length_le (by omega)] at this
  exact this

end Later

section Kept

variable {sb : Superblock} {ip : Fin NINODE} {s s' s'' : Tx} {off n r : Nat} {T W : Finset Slot}
  {t : Slot} {cp : Copyin} {src : Nat}

/-- What a write that reports `r` bytes leaves of the blocks that it does not log. -/
structure Kept (ip : Fin NINODE) (off r : Nat) (s s' : Tx) : Prop where
  disk : s'.disk = s.disk
  logged : ∀ b, b ∈ s.logged → b ∈ s'.logged
  /-- A slot whose block is not in the log has not been filled. -/
  old : ∀ t, slotVal ip s'.view t ≠ 0 → slotVal ip s'.view t ∉ s'.logged →
    slotVal ip s.view t = slotVal ip s'.view t
  index : ∀ t, t.isIndex = true → slotVal ip s'.view t ≠ 0 → slotVal ip s'.view t ∉ s'.logged →
    s'.view.blocks (slotVal ip s'.view t) = s.view.blocks (slotVal ip s'.view t)
  data : ∀ o, off ≤ o → o < off + r → slotVal ip s'.view (leaf (o / BSIZE)) ∈ s'.logged

section

variable (hsb : sb.Ok)
include hsb

/-- A slot whose block is not in the log has been there before. -/
theorem Effect.old (hb : Busy sb ip s.view) (h : Effect sb ip T W s s')
    (hne : slotVal ip s'.view t ≠ 0) (hl : slotVal ip s'.view t ∉ s'.logged) :
    slotVal ip s.view t = slotVal ip s'.view t := by
  by_cases hz : slotVal ip s.view t = 0
  · have hT : t ∈ T := by
      by_contra hT
      exact hne ((Steps.outside hsb hb h.steps hT).trans hz)
    refine absurd ((h.adds.logged _).mpr (.inr ?_)) hl
    refine Finset.mem_union_right _ (Finset.mem_image_of_mem _ ?_)
    exact Finset.mem_union_left _ (Finset.mem_union_left _ (Finset.mem_filter.mpr ⟨hT, hz⟩))
  · exact (Steps.grow hsb hb h.steps hz).symm

theorem Effect.kept (hb : Busy sb ip s.view) (h : Effect sb ip T (dataSlots off r) s s') :
    Kept ip off r s s' where
  disk := h.adds.disk
  logged := fun b hb => (h.adds.logged b).mpr (.inl hb)
  old := fun t hne hl => h.old hsb hb hne hl
  index := fun t _ hne hl => h.adds.view (h.adds.kept hl).1
  data := by
    intro o h1 h2
    refine (h.adds.logged _).mpr (.inr (Finset.mem_union_right _ (Finset.mem_image_of_mem _ ?_)))
    exact Finset.mem_union_right _ (leaf_mem (Finset.Subset.refl _) h1 h2)

/-- A buffer of a data block is changed and not logged. -/
theorem Kept.torn {d : Block} (hb : Busy sb ip s'.view) (h : Kept ip off r s s')
    (ht : t.isIndex = false) (hne : slotVal ip s'.view t ≠ 0) :
    Kept ip off r s { s' with buf := update s'.buf (slotVal ip s'.view t) (some d) } := by
  have hview := view_fill s' (slotVal ip s'.view t) d
  have hvals := (hb.data hsb d ht hne).2
  refine ⟨h.disk, h.logged, ?_, ?_, ?_⟩
  · intro u hu hl
    rw [hview, hvals] at hu hl ⊢
    exact h.old u hu hl
  · intro u hidx hu hl
    rw [hview, hvals] at hu hl ⊢
    -- a pointer block is not the data block
    have hdiff : slotVal ip s'.view u ≠ slotVal ip s'.view t := by
      intro he
      rw [hb.unique hu he, ht] at hidx
      cases hidx
    exact (Function.update_of_ne hdiff _ _).trans (h.index u hidx hu hl)
  · intro o h1 h2
    rw [hview, hvals]
    exact h.data o h1 h2

/-- The inode is changed in memory, but not its blocks, and updated on the disk. -/
theorem Kept.replace {y : Dinode} (hb : Busy sb ip s'.view) (h : Kept ip off r s s')
    (hy : y.addrs = (s'.itable ip).din.addrs)
    (ha : Adds {IBLOCK sb (s'.itable ip).inum} (s'.setDin ip y) s'')
    (hv : s''.view = (s'.view.setDin ip y).iupdated sb ip) : Kept ip off r s s'' := by
  have hvals : ∀ t, slotVal ip s''.view t = slotVal ip s'.view t := by
    intro t
    rw [hv, iupdated_slotVal hsb (hb.setDin hy), setDin_slotVal hy]
  have hlog : ∀ b, b ∈ s'.logged → b ∈ s''.logged := fun b hb => (ha.logged b).mpr (.inl hb)
  have hlog' : ∀ b, b ∉ s''.logged → b ∉ s'.logged := fun b hb hc => hb (hlog b hc)
  refine ⟨ha.disk.trans h.disk, fun b hb => hlog b (h.logged b hb), ?_, ?_, ?_⟩
  · intro t hne hl
    rw [hvals] at hne hl ⊢
    exact h.old t hne (hlog' _ hl)
  · intro t hidx hne hl
    rw [hvals] at hne hl ⊢
    rw [ha.view (ha.kept hl).1]
    exact h.index t hidx hne (hlog' _ hl)
  · intro o h1 h2
    rw [hvals]
    exact hlog _ (h.data o h1 h2)

theorem Looped.kept {p : Nat × Nat} (hb : Busy sb ip s.view) (h : Looped sb ip off n 0 s p s') :
    Kept ip off p.1 s s' ∧ Busy sb ip s'.view ∧ s'.outstanding = s.outstanding := by
  cases h with
  | all he => exact ⟨he.kept hsb hb, he.busy hsb hb, he.adds.outstanding⟩
  | @torn s1 r d _ _ he =>
    have hne : slotVal ip s1.view (leaf ((off + r) / BSIZE)) ≠ 0 := by
      refine he.walked _ (Finset.mem_union_left _ ?_)
      exact path_subset (Finset.Subset.refl _) (by omega) (by omega) (mem_path_self _)
    refine ⟨(he.kept hsb hb).torn hsb (he.busy hsb hb) (leaf_isIndex _) hne, ?_,
      he.adds.outstanding⟩
    rw [view_fill]
    exact ((he.busy hsb hb).data hsb d (leaf_isIndex _) hne).1

/-- `writei` when its checks pass. -/
theorem wp_writei_kept (hb : Busy sb ip s.view) (hs : 0 < s.outstanding)
    (hoff : off ≤ (s.itable ip).din.size) (hmax : off + n ≤ MAXFILE * BSIZE) :
    wp (writei sb cp ip src off n) (fun v s' => Kept ip off v.toNat s s') (fun _ _ => True) s := by
  have hM : MAXFILE * BSIZE < 2 ^ 32 := by decide
  rw [writei, wp_bind, wp_get, mod_eq_of_lt (show off + n < 2 ^ 32 by omega), if_neg (by omega),
    if_neg (by omega), wp_bind]
  have hloop : wp (writei_loop sb cp ip n n 0 (off + 0) src) _ _ s :=
    wp_writei_loop hsb hb hs (sub_le n 0) (zero_le n) hmax
  refine hloop.post ?_
  intro p s1 hl
  obtain ⟨tot, off'⟩ := p
  obtain ⟨hk, hb1, hout⟩ := hl.kept hsb hb
  rw [wp_bind, wp_modifyDin, wp_bind]
  generalize hy : ({ (s1.itable ip).din with size := max off' (s1.itable ip).din.size } : Dinode) =
    y
  have hya : y.addrs = (s1.itable ip).din.addrs := by rw [← hy]
  have hin : ((s1.setDin ip y).itable ip).inum = (s1.itable ip).inum := by rw [setDin_entry]
  have hs1 : 0 < (s1.setDin ip y).outstanding := by
    show 0 < s1.outstanding
    rw [hout]
    exact hs
  refine (wp_iupdate hs1).post ?_
  rintro _ s2 ⟨ha, hv⟩
  rw [hin] at ha
  exact hk.replace hsb hb1 hya ha hv

end

/-- `writei` when a check fails. -/
theorem writei_rejects (hoff : off < 2 ^ 32) (hn : n < 2 ^ 32)
    (h : (s.itable ip).din.size < off ∨ MAXFILE * BSIZE < off + n) :
    writei sb cp ip src off n s = .ok (-1) s := by
  show (if _ ∨ _ then pure (-1 : Int) else _ : TxM Int) s = _
  by_cases hbad : off > (s.itable ip).din.size ∨ (off + n) % 2 ^ 32 < off
  · rw [if_pos hbad]
    rfl
  · rw [if_neg hbad, if_pos (by omega)]
    rfl

/-- A write that tears nothing leaves the file settled. -/
theorem Kept.settled {bs : List UInt8} (hm' : Mapped ip s'.view) (hset : Settled ip s)
    (h : Kept ip off (written off n bs.length) s s') (hoff : off ≤ (s.itable ip).din.size)
    (hsize : (s'.itable ip).din.size = max (off + written off n bs.length) (s.itable ip).din.size)
    (hbytes : ∀ o, o / BSIZE < MAXFILE → fileByte ip s'.view o =
      if off ≤ o ∧ o < off + min n bs.length then bs.getD (o - off) 0 else fileByte ip s.view o)
    (hun : Untorn (contents ip s.view) off n bs) : Settled ip s' := by
  refine ⟨fun t hidx hne hl => ?_, fun o ho hl => ?_⟩
  · have hl0 : slotVal ip s'.view t ∉ s.logged := fun hc => hl (h.logged _ hc)
    have hsame := h.old t hne hl
    rw [h.disk, h.index t hidx hne hl, ← hsame]
    rw [← hsame] at hl0 hne
    exact hset.index t hidx hne hl0
  · have hne := hm'.block o ho
    have hl0 : slotVal ip s'.view (leaf (o / BSIZE)) ∉ s.logged := fun hc => hl (h.logged _ hc)
    have hsame := h.old _ hne hl
    -- what is reported as written is in the log
    have hout : ¬ (off ≤ o ∧ o < off + written off n bs.length) := fun hc => hl (h.data o hc.1 hc.2)
    have ho' : o < (s.itable ip).din.size := by omega
    have hob : o / BSIZE < MAXFILE := by
      have hle : (s'.itable ip).din.size ≤ MAXFILE * BSIZE := hm'.size_le
      rw [div_lt_iff_lt_mul (by decide)]
      omega
    rw [h.disk, hbytes o hob, ← hsame]
    rw [← hsame] at hl0
    have hold := hset.data o ho' hl0
    rw [hold]
    by_cases hin : off ≤ o ∧ o < off + min n bs.length
    · have hc :=
        hun (o - off) (by omega) (by omega)
        (by rw [length_contents]; show _ < (s.itable ip).din.size; omega)
      rw [if_pos hin, hc, show off + (o - off) = o by omega]
      exact (getD_contents ho').symm
    · rw [if_neg hin]

end Kept

end Tx

/-- **Short writes.**  Take an open inode of a consistent file system without holes
    whose contents do not depend on the recycling of buffers, inside a
    transaction, and user memory of which any part cannot be accessed.  Then
    `writei` returns, unless the disk is full.  What it did is what it reports
    if and only if its arguments were rejected, or the bytes of the failed copy
    that lie within the file are the ones that were there.  Did what it
    reports: on -1 nothing changed; on `r` every later `readi`, however buffers
    are recycled and transactions committed in between, returns the old
    contents with `r` bytes from `off` on replaced.  The file is then settled
    again. -/
theorem short_write_iff {sb : Superblock} {ip : Fin NINODE} {s : Tx} {mem : Nat → Option UInt8}
    {src off n : Nat} (hsb : sb.Ok) (hinv : Inv sb s.view) (hsolid : Solid sb s.view.blocks)
    (hh : Held ip s.view) (hs : 0 < s.outstanding) (hset : Tx.Settled ip s) (hsrc : src < 2 ^ 64)
    (hoff : off < 2 ^ 32) (hn : n < 2 ^ 32) :
    wp (Tx.writei sb (fromUser mem) ip src off n) (fun v s' => ((v = -1 ∧ s' = s ∨
      0 ≤ v ∧
      ∀ s'', Tx.Later s' s'' →
        Tx.Reads sb ip s''
          (overwrite (contents ip s.view) off ((userBytes mem src n).take v.toNat))) ↔
      ((contents ip s.view).length < off ∨ MAXFILE * BSIZE < off + n ∨
        Untorn (contents ip s.view) off n (userBytes mem src n))) ∧
      ((contents ip s.view).length < off ∨ MAXFILE * BSIZE < off + n ∨
        Untorn (contents ip s.view) off n (userBytes mem src n) → Tx.Settled ip s'))
      (fun e _ => e = outOfBlocks) s := by
  have hM : MAXFILE * BSIZE < 2 ^ 31 := by decide
  have hlen : (contents ip s.view).length = (s.itable ip).din.size := length_contents ip s.view
  have hm : Mapped ip s.view := (hinv.table hsolid).mapped hh
  have hb := hinv.busy hh
  by_cases hbad : (s.itable ip).din.size < off ∨ MAXFILE * BSIZE < off + n
  · -- rejected
    unfold wp
    rw [Tx.writei_rejects hoff hn hbad]
    rw [hlen, ← or_assoc]
    exact ⟨iff_of_true (.inl ⟨rfl, rfl⟩) (.inl hbad), fun _ => hset⟩
  · rw [not_or] at hbad
    have hoff' : off ≤ (s.itable ip).din.size := by omega
    have hmax : off + n ≤ MAXFILE * BSIZE := by omega
    have hflat := (wp_writei_yields hsb hb hoff' hmax (fromUser_yields mem src n) hsrc).and
      (wp_writei_written hsb hinv hh hm hoff' (by omega) hmax)
    have hsim : Tx.Sim (Tx.writei sb (fromUser mem) ip src off n) _ := Tx.sim_writei src off n
    refine ((hsim.wp hs hflat).and (Tx.wp_writei_kept hsb hb hs hoff' hmax)).mono ?_ fun e s' he =>
      he.1.2.1
    rintro v s' ⟨⟨⟨⟨rfl, hsize, hbytes⟩, hwr⟩, -⟩, hk⟩
    have hm' : Mapped ip s'.view := hwr.mapped
    have hiff := contents_short_iff hoff' hsize hm'.size_le hbytes
    have hsettled : Untorn (contents ip s.view) off n (userBytes mem src n) → Tx.Settled ip s' :=
      fun hun => hk.settled hm' hset hoff' hsize hbytes hun
    have hneg : ¬ ((written off n (userBytes mem src n).length : Nat) : Int) = -1 := by omega
    rw [Int.toNat_natCast, hlen]
    refine ⟨⟨fun h => ?_, fun h => .inr ⟨Int.natCast_nonneg _, fun s'' hl => ?_⟩⟩, fun h => ?_⟩
    · -- what is read at once
      obtain ⟨hv, -⟩ | ⟨-, hreads⟩ := h
      · exact absurd hv hneg
      · refine .inr (.inr (hiff.mp ((Tx.reads_contents hm').unique (hreads s' .refl) ?_ ?_)))
        · rw [length_contents]
          exact lt_of_le_of_lt hm'.size_le hM
        · rw [length_overwrite (by rw [hlen]; exact hoff'), length_take, hlen]
          have := hm.size_le
          have := written_le off n (userBytes mem src n).length
          have hsz : (s.view.itable ip).din.size = (s.itable ip).din.size := rfl
          omega
    · have hun := (h.resolve_left hbad.1).resolve_left hbad.2
      have ha := hl.aged
      have hst := hsettled hun
      rw [← hiff.mpr hun, ← hst.contents hm' ha]
      exact Tx.reads_contents (hst.mapped hm' ha)
    · exact hsettled ((h.resolve_left hbad.1).resolve_left hbad.2)

/-- User memory that ends with a byte at the end of a page. -/
def lastByte (a : Nat) : Option UInt8 := if a = 4095 then some 9 else none

/-- Without changed buffers the file is settled. -/
theorem settled_unbuffered {ip : Fin NINODE} {s : Fs} (hm : Mapped ip s) (k : Nat) :
    Tx.Settled ip (s.unbuffered k) where
  index := fun _ _ _ _ => rfl
  data := fun o ho _ => (if_neg (hm.block o ho)).symm

theorem tinyRun_contents : contents tinyIp tinyRun = [7, 7, 7] := by decide +kernel

/-- Two bytes are appended to a file of three, and one of them cannot be read. -/
theorem short_write_iff_append :
    wp (Tx.writei tiny (fromUser lastByte) tinyIp 4095 3 2)
      (fun v s' => v = -1 ∧ s' = tinyRun.unbuffered 1 ∨
        0 ≤ v ∧
        ∀ s'', Tx.Later s' s'' →
          Tx.Reads tiny tinyIp s''
            (overwrite (contents tinyIp tinyRun) 3 ((userBytes lastByte 4095 2).take v.toNat)))
      (fun e _ => e = outOfBlocks) (tinyRun.unbuffered 1) := by
  obtain ⟨hinv, hsolid⟩ := reachable_solid tiny_ok tinyRun_solid
  have hh : Held tinyIp tinyRun := ⟨by decide +kernel, by decide +kernel⟩
  have hm := (hinv.table hsolid).mapped hh
  have h : wp (Tx.writei tiny (fromUser lastByte) tinyIp 4095 3 2) _ _ (tinyRun.unbuffered 1) :=
    short_write_iff tiny_ok hinv hsolid hh one_pos (settled_unbuffered hm 1) (by decide) (by decide)
    (by decide)
  refine h.post fun v s' hv => hv.1.mpr (.inr (.inr fun i _ _ hi => ?_))
  have hlen : (contents tinyIp tinyRun).length = 3 := by rw [tinyRun_contents]; rfl
  have hi : 3 + i < (contents tinyIp tinyRun).length := hi
  omega

/-- The same two bytes written at the start: the result, and what is read then. -/
def tornRead : Option (Int × Int × List UInt8) :=
  match Tx.writei tiny (fromUser lastByte) tinyIp 4095 0 2 (tinyRun.unbuffered 1) with
  | .error _ _ => none
  | .ok v s' =>
    match Tx.readi tiny (fun _ _ => true) tinyIp 0 0 3 s' with
    | .error _ _ => none
    | .ok r _ => some (v, r)

/-- `writei` reports that nothing was written, and the first byte has changed. -/
theorem short_write_tears :
    ∃ s', Tx.writei tiny (fromUser lastByte) tinyIp 4095 0 2 (tinyRun.unbuffered 1) = .ok 0 s' ∧
      (∃ s'', Tx.readi tiny (fun _ _ => true) tinyIp 0 0 3 s' = .ok (3, [9, 7, 7]) s'') ∧
      ¬ Tx.Reads tiny tinyIp s'
        (overwrite (contents tinyIp tinyRun) 0 ((userBytes lastByte 4095 2).take 0)) := by
  have h : tornRead = some (0, 3, [9, 7, 7]) := by decide +kernel
  unfold tornRead at h
  split at h
  · cases h
  · next v s' hw =>
    split at h
    · cases h
    · next r s'' hr =>
      cases h
      refine ⟨s', hw, ⟨s'', hr⟩, fun hc => ?_⟩
      have := hc 0 0 3 (zero_le _) (by decide)
      rw [hr, tinyRun_contents] at this
      exact absurd (EStateM.Result.ok.inj this).1 (by decide)

end NoviceKernel.FS
