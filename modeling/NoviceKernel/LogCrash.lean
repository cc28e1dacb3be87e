import Mathlib.Computability.Language
import Mathlib.Data.List.GetD
import Mathlib.Data.List.Nodup
import NoviceKernel.Lib.RedoLog
import NoviceKernel.Log

/-! # Crash atomicity of the log

    Only `bwrite` writes to the disk, one block at a time, and the writes reach
    the disk in the order they were issued.  A power cut therefore leaves the
    disk with some prefix of the writes of the running function.

    1. The writes of `commit` and of `recover_from_log` are those of a redo log
       (`RedoLog.CommitTrace`, `RedoLog.RecoverTrace`), whatever the cache does
       in between.
    2. Any number of recoveries may be cut off as well; one that completes
       leaves the old or the new contents of the home area. -/

namespace NoviceKernel

open Hoare RedoLog List Bcache

/-! ## The log area as a redo log -/

/-- Blocks outside the log area. -/
def Log.Home (lg : Log) (b : Nat) : Prop := b < lg.start ∨ lg.start + lg.size ≤ b

/-- The layout of the log area: the header block, then one slot a block. -/
def Log.layout (lg : Log) : Layout Nat Block where
  hdr := headerList
  start := lg.start
  slot := fun t => lg.start + t + 1
  cap := lg.size - 1
  slot_inj := by intro s t _ _ h; omega
  slot_ne_start := by intro t _ h; omega

theorem Log.home_of_home {lg : Log} {b : Nat} (h : lg.Home b) (hs : 0 < lg.size) :
    lg.layout.Home b := by
  unfold Log.Home at h
  refine ⟨?_, ?_⟩
  · show b ≠ lg.start
    omega
  · intro t ht
    have ht' : t < lg.size - 1 := ht
    show b ≠ lg.start + t + 1
    omega

/-- `disk` after `ws`, and `issued` extended by `ws`. -/
def Issued (m : Machine) (ws : List (Nat × Block)) (m' : Machine) : Prop :=
  m'.issued = m.issued ++ ws ∧ m'.disk = applyWrites ws m.disk

theorem Issued.trans {m m' m'' : Machine} {ws vs : List (Nat × Block)} (h : Issued m ws m')
    (h' : Issued m' vs m'') : Issued m (ws ++ vs) m'' := by
  refine ⟨?_, ?_⟩
  · rw [h'.1, h.1, append_assoc]
  · rw [h'.2, h.2, applyWrites_append]

/-! ## The words a computation writes -/

section Writes

variable {α β : Type} {x : KernelM α} {f : α → KernelM β} {m m' : Machine} {Q : α → Machine → Prop}
  {R : β → Machine → Prop} {L K : Language (Nat × Block)}

/-- From `m`, `x` writes a word of `L` and returns into `Q`, or stops after a
    prefix of such a word. -/
def Writes (x : KernelM α) (L : Language (Nat × Block)) (Q : α → Machine → Prop) (m : Machine) :
    Prop :=
  wp x (fun a m' => Q a m' ∧ ∃ ws ∈ L, Issued m ws m')
    (fun _ m' => ∃ ws ∈ L, ∃ pre, pre <+: ws ∧ Issued m pre m') m

theorem NoWrite.issued (h : NoWrite m m') : Issued m [] m' := ⟨by rw [h.2, append_nil], h.1⟩

theorem Writes.weaken (hL : ∀ ws ∈ L, ws ∈ K) (h : Writes x L Q m) : Writes x K Q m := by
  refine h.mono ?_ ?_
  · rintro a m' ⟨hq, ws, hws, hi⟩
    exact ⟨hq, ws, hL ws hws, hi⟩
  · rintro e m' ⟨ws, hws, hpre⟩
    exact ⟨ws, hL ws hws, hpre⟩

/-- A computation that does not write. -/
theorem Writes.of_wp (h : wp x Q (fun _ m' => NoWrite m m') m)
    (hn : ∀ a m', Q a m' → NoWrite m m') : Writes x 1 Q m :=
  h.mono (fun a m' hq => ⟨hq, [], rfl, (hn a m' hq).issued⟩)
    fun _ _ he => ⟨[], rfl, [], prefix_rfl, he.issued⟩

theorem Writes.bind (h : Writes x L Q m) (hK : K.Nonempty)
    (hf : ∀ a m', Q a m' → Writes (f a) K R m') : Writes (x >>= f) (L * K) R m := by
  rw [Writes, wp_bind]
  refine h.mono ?_ ?_
  · rintro a m' ⟨hq, u, hu, hi⟩
    refine (hf a m' hq).mono ?_ ?_
    · rintro b m'' ⟨hr, v, hv, hi'⟩
      exact ⟨hr, _, Language.append_mem_mul hu hv, hi.trans hi'⟩
    · rintro _ m'' ⟨v, hv, pre, hpre, hi'⟩
      exact ⟨_, Language.append_mem_mul hu hv, _, (prefix_append_right_inj u).mpr hpre,
        hi.trans hi'⟩
  · rintro _ m' ⟨u, hu, pre, hpre, hi⟩
    obtain ⟨v, hv⟩ := hK
    exact ⟨_, Language.append_mem_mul hu hv, pre, hpre.trans (prefix_append ..), hi⟩

/-- A first part that does not write. -/
theorem Writes.quiet (h : wp x Q (fun _ m' => NoWrite m m') m) (hK : K.Nonempty)
    (hn : ∀ a m', Q a m' → NoWrite m m') (hf : ∀ a m', Q a m' → Writes (f a) K R m') :
    Writes (x >>= f) K R m := by
  rw [← one_mul K]
  exact (Writes.of_wp h hn).bind hK hf

theorem writes_get {f : Machine → KernelM β} : Writes (get >>= f) K R m ↔ Writes (f m) K R m :=
  Iff.rfl

theorem Writes.modify {g : Machine → Machine} {f : Unit → KernelM β} (hK : K.Nonempty)
    (hn : NoWrite m (g m)) (h : Writes (f ()) K R (g m)) : Writes (modify g >>= f) K R m := by
  refine .quiet (Q := fun _ m' => m' = g m) rfl hK ?_ ?_
  · rintro _ _ rfl
    exact hn
  · rintro _ _ rfl
    exact h

/-- A loop that writes one block a round. -/
theorem Writes.loop {round : Nat → Nat → KernelM Unit} {lh : List Nat} {g : Nat → Block}
    (loop : Nat → List Nat → KernelM Unit) (I : Nat → Machine → Prop) (f : Nat → Nat)
    (hnil : ∀ t, loop t [] = pure ())
    (hcons : ∀ t b bs, loop t (b :: bs) = round t b >>= fun _ => loop (t + 1) bs)
    (hround : ∀ t b m, lh[t]? = some b → I t m →
      Writes (round t b) {[(f t, g t)]} (fun _ => I (t + 1)) m) (bs : List Nat) {tail : Nat}
    (htail : lh.drop tail = bs) (hinv : I tail m) :
    Writes (loop tail bs) {writesTo (fun t => f (tail + t)) (fun t => g (tail + t)) bs.length}
      (fun _ => I (tail + bs.length)) m := by
  -- induction on the blocks that remain; each round adds one write in front
  induction bs generalizing tail m with
  | nil =>
    rw [hnil]
    exact ⟨hinv, [], rfl, by simp [Issued]⟩
  | cons b bs ih =>
    have hget : lh[tail]? = some b := by
      have := congrArg (fun l => l[0]?) htail
      simpa using this
    have hdrop : lh.drop (tail + 1) = bs := by
      rw [← drop_drop, htail]
      rfl
    have hsplit : ({writesTo (fun t => f (tail + t)) (fun t => g (tail + t)) (b :: bs).length} :
      Language _) =
        {[(f tail, g tail)]} * {writesTo (fun t => f (tail + 1 + t)) (fun t =>
          g (tail + 1 + t)) bs.length} := by
      refine Eq.trans ?_ Set.image2_singleton.symm
      rw [length_cons, writesTo_cons]
      simp only [Nat.add_zero, Nat.add_assoc, Nat.add_comm 1]
      rfl
    rw [hcons, hsplit, length_cons, show tail + (bs.length + 1) = tail + 1 + bs.length by omega]
    exact (hround tail b m hget hinv).bind ⟨_, rfl⟩ fun _ m' h' => ih hdrop h'

end Writes

/-- The block on the disk is `v`, and so is every valid cached copy. -/
def Settled (m : Machine) (dev b : Nat) (v : Block) : Prop :=
  m.disk b = v ∧ ∀ i, m.bc.Holds dev b i → (m.bc.buf i).valid = true → (m.bc.buf i).data = v

section

variable {m m' m₁ : Machine} {dev b b' : Nat} {v x : Block} {i j k : Fin NBUF}
  {R : Unit → Machine → Prop}

section

variable (h : Settled m dev b v)
include h

theorem Settled.shows : m.Shows dev b v := ⟨h.2, fun _ => h.1⟩

/-- A block stays settled when neither the disk block nor the contents of its
    buffer change. -/
theorem Settled.congr (hd : m'.disk b = m.disk b)
    (hb : ∀ j, m'.bc.Holds dev b j →
      m.bc.Holds dev b j ∧ (m'.bc.buf j).valid = (m.bc.buf j).valid ∧
      (m'.bc.buf j).data = (m.bc.buf j).data) : Settled m' dev b v := by
  refine ⟨hd.trans h.1, ?_⟩
  intro j hj hval
  obtain ⟨hj', hv', hd'⟩ := hb j hj
  rw [hd']
  exact h.2 j hj' (hv' ▸ hval)

/-- Reading another block, or the same one, does not unsettle a block. -/
theorem Settled.bread (hp : BreadPost m dev b' i m') : Settled m' dev b v := by
  refine ⟨by rw [hp.disk]; exact h.1, ?_⟩
  intro j hj hval
  by_cases hji : j = i
  · subst hji
    have hbb : b' = b := hp.holds.2.symm.trans hj.2
    subst hbb
    exact hp.data v h.shows
  · rw [hp.other j hji] at hval ⊢
    exact h.2 j (by unfold Bcache.Holds at hj ⊢; rwa [hp.other j hji] at hj) hval

theorem Settled.brelse (hp : BrelsePost m i m') : Settled m' dev b v := by
  apply h.congr (by rw [hp.disk])
  intro j hj
  unfold Bcache.Holds at hj ⊢
  by_cases hji : j = i
  · subst hji
    rw [hp.self] at hj ⊢
    exact ⟨hj, rfl, rfl⟩
  · rw [hp.other j hji] at hj ⊢
    exact ⟨hj, rfl, rfl⟩

end

theorem BwritePost.wf (hp : BwritePost m i x m') (h : m.bc.WF) : m'.bc.WF := by
  rw [hp.bc]
  exact Bcache.WF.set h rfl rfl

/-- Writing another block does not unsettle a block. -/
theorem Settled.bwrite (h : Settled m dev b v)
    (hp : BwritePost m i x m') (hb : (m.bc.buf i).blockno ≠ b) : Settled m' dev b v := by
  refine h.congr (by rw [hp.disk, Function.update_of_ne hb.symm]) fun l hl => ?_
  have hli : l ≠ i := by
    rintro rfl
    have h' : (m'.bc.buf l).blockno = b := hl.2
    rw [hp.bc, set_buf_self] at h'
    exact hb h'
  unfold Bcache.Holds at hl ⊢
  rw [hp.bc, set_buf_ne _ _ hli] at hl ⊢
  exact ⟨hl, rfl, rfl⟩

/-- The write of a buffer, in front of something that does not write. -/
theorem Writes.bwrite {k : KernelM Unit}
     (hb : (m.bc.buf i).blockno = b)
    (hk : ∀ m', BwritePost m i x m' → Writes k 1 R m') :
    Writes (do setData i x; NoviceKernel.bwrite i; k) {[(b, x)]} R m := by
  have hw : Writes (do setData i x; NoviceKernel.bwrite i) {[(b, x)]}
    (fun _ => BwritePost m i x) m :=
    wp_bind.mpr (wp_setData_bwrite (fun m' h => ⟨h, _, rfl, by rw [← hb]; exact ⟨h.issued, h.disk⟩⟩)
      fun _ m' h => ⟨_, rfl, [], nil_prefix, h.issued⟩)
  have := hw.bind (K := 1) ⟨[], rfl⟩ fun _ => hk
  rwa [bind_assoc, mul_one] at this

theorem BreadPost.noWrite (h : BreadPost m dev b i m') : NoWrite m m' := ⟨h.disk, h.issued⟩

theorem BrelsePost.noWrite (h : BrelsePost m i m') : NoWrite m m' :=
  ⟨h.disk, h.issued⟩

theorem Writes.brelse
    (h : ∀ m', BrelsePost m i m' → R () m') : Writes (NoviceKernel.brelse i) 1 R m :=
  wp_brelse.mono (fun _ m' h' => ⟨h m' h', [], rfl, h'.noWrite.issued⟩)
    fun _ _ he => ⟨[], rfl, [], prefix_rfl, he.issued⟩

/-- Both buffers of a round are released. -/
theorem Writes.brelse_two
    (h : ∀ m₁ m₂, BrelsePost m i m₁ → BrelsePost m₁ j m₂ → R () m₂) :
    Writes (do NoviceKernel.brelse i; NoviceKernel.brelse j) 1 R m :=
  .quiet wp_brelse ⟨[], rfl⟩ (fun _ _ => BrelsePost.noWrite) fun _ m₁ h₁ => .brelse fun m₂ h₂ =>
    h m₁ m₂ h₁ h₂

theorem BreadPost.refcnt_pos (hp : BreadPost m dev b i m') : 0 < (m'.bc.buf i).refcnt := by
  rcases hp.refs with ⟨_, h⟩ | ⟨_, _, h⟩ <;> omega

/-- A `bread` leaves the referenced buffers of other blocks alone: it neither
    returns nor recycles them. -/
theorem BreadPost.ne_of_holds (hp : BreadPost m dev b i m') (hk : m.bc.Holds dev b' k)
    (hr : 0 < (m.bc.buf k).refcnt) (hne : b' ≠ b) : k ≠ i := by
  rintro rfl
  rcases hp.refs with ⟨hi, _⟩ | ⟨_, h0, _⟩
  · exact hne (hk.2.symm.trans hi.2)
  · omega

end

/-! ## `write_log` -/

/-- The loop of `write_log` at `tail`, for a transaction whose `t`-th block has
    cached contents `c t`: the blocks still to be copied are referenced and
    valid, those copied are settled in the log area. -/
structure WriteLogInv (lg : Log) (c : Nat → Block) (tail : Nat) (m : Machine) : Prop where
  log : m.log = lg
  wf : m.bc.WF
  pinned : ∀ t b, tail ≤ t → lg.lh[t]? = some b → ∃ k, m.bc.Holds lg.dev b k ∧
    (m.bc.buf k).valid = true ∧ (m.bc.buf k).data = c t ∧ 0 < (m.bc.buf k).refcnt
  logged : ∀ t, t < tail → Settled m lg.dev (lg.start + t + 1) (c t)

/-- What `commit` relies on about its log header: distinct blocks outside the
    log area, at most as many as the log area has slots. -/
structure Log.Fits (lg : Log) : Prop where
  dev : lg.dev ≠ 0
  size : lg.lh.length + 1 ≤ lg.size
  home : ∀ b ∈ lg.lh, lg.Home b
  nodup : lg.lh.Nodup

theorem Log.Fits.ne_slot {lg : Log} (h : lg.Fits) {b t : Nat} (hb : b ∈ lg.lh)
    (ht : t < lg.lh.length) : b ≠ lg.start + t + 1 := by
  have := h.home b hb
  have := h.size
  unfold Log.Home at *
  omega

section

variable {m : Machine} {lg : Log} {c : Nat → Block} {d : Nat → Block} {tail b : Nat} {rec : Bool}

/-- One round copies the cached contents of its block into its log block. -/
theorem write_log_round_writes (hfits : lg.Fits)
    (htail : lg.lh[tail]? = some b) (hinv : WriteLogInv lg c tail m) :
    Writes (write_log_round tail b) {[(lg.start + tail + 1, c tail)]}
      (fun _ => WriteLogInv lg c (tail + 1)) m := by
  have hlt : tail < lg.lh.length := (List.getElem?_eq_some_iff.mp htail).1
  have hb : b ∈ lg.lh := List.mem_of_getElem? htail
  obtain ⟨k, hk, hkval, hkdata, hkref⟩ := hinv.pinned tail b le_rfl htail
  rw [write_log_round, writes_get, hinv.log]
  -- the log block, in buffer i
  refine .quiet (wp_bread hinv.wf hfits.dev) ⟨_, rfl⟩ (fun _ _ => BreadPost.noWrite)
    fun i m1 h1 => ?_
  have hki : k ≠ i := h1.ne_of_holds hk hkref (hfits.ne_slot hb hlt)
  have hk1 : m1.bc.Holds lg.dev b k := by
    unfold Bcache.Holds; rw [h1.other k hki]; exact hk
  have hshow : m1.Shows lg.dev b (c tail) := by
    refine ⟨fun j hj _ => ?_, fun hno => ?_⟩
    · rw [h1.wf.holds_unique hfits.dev hj hk1, h1.other k hki]
      exact hkdata
    · have := hno k hk1
      rw [h1.other k hki, hkval] at this
      cases this
  -- the cache block, in buffer j
  refine .quiet (wp_bread h1.wf hfits.dev) ⟨_, rfl⟩ (fun _ _ => BreadPost.noWrite) fun j m2 h2 => ?_
  have hij : i ≠ j := h2.ne_of_holds h1.holds h1.refcnt_pos (hfits.ne_slot hb hlt).symm
  have hi2 : m2.bc.Holds lg.dev (lg.start + tail + 1) i := by
    unfold Bcache.Holds; rw [h2.other i hij]; exact h1.holds
  rw [writes_get, h2.data _ hshow]
  -- the write to the log
  refine .bwrite hi2.2 fun m3 h3 => .brelse_two fun m4 m5 h4 h5 => ?_
  have hwf3 := h3.wf h2.wf
  refine ⟨?_, h5.wf (h4.wf hwf3), ?_, ?_⟩
  · rw [h5.log, h4.log, h3.log, h2.log, h1.log]
    exact hinv.log
  · -- a block still to be copied keeps its buffer through both reads
    intro t b' ht hb'
    obtain ⟨k', hk', hval', hdata', href'⟩ := hinv.pinned t b' (by omega) hb'
    have hne : b' ≠ b := by
      intro h
      subst h
      have := (List.getElem?_inj hlt hfits.nodup).mp (htail.trans hb'.symm)
      omega
    have hi' : k' ≠ i := h1.ne_of_holds hk' href' (hfits.ne_slot (List.mem_of_getElem? hb') hlt)
    have hbuf1 := h1.other k' hi'
    have hj' : k' ≠ j :=
      h2.ne_of_holds (by unfold Bcache.Holds; rw [hbuf1]; exact hk')
      (by rw [hbuf1]; exact href') hne
    have hbuf5 : m5.bc.buf k' = m.bc.buf k' := by
      rw [h5.other k' hi', h4.other k' hj', h3.bc, set_buf_ne _ _ hi', h2.other k' hj', hbuf1]
    refine ⟨k', ?_, ?_, ?_, ?_⟩
    · unfold Bcache.Holds; rw [hbuf5]; exact hk'
    all_goals rw [hbuf5]; assumption
  · intro t ht
    refine Settled.brelse (Settled.brelse (m := m3) ?_ h4) h5
    by_cases htt : t = tail
    · -- the block just written: buffer i is its only copy
      subst htt
      refine ⟨by rw [h3.disk, hi2.2, Function.update_self], ?_⟩
      intro l hl _
      have hi3 : m3.bc.Holds lg.dev (lg.start + t + 1) i := by
        rw [h3.bc]; unfold Bcache.Holds; rw [set_buf_self]; exact hi2
      rw [hwf3.holds_unique hfits.dev hl hi3, h3.bc, set_buf_self]
    · exact (((hinv.logged t (by omega)).bread h1).bread h2).bwrite h3 (by rw [hi2.2]; omega)

/-- The writes of `write_log`. -/
theorem write_log_writes (hfits : m.log.Fits) (hinv : WriteLogInv m.log c 0 m) :
    Writes write_log {writesTo (fun t => m.log.start + t + 1) c m.log.lh.length}
      (fun _ => WriteLogInv m.log c m.log.lh.length) m := by
  have := Writes.loop write_log_loop (WriteLogInv m.log c) (fun t => m.log.start + t + 1)
    (fun _ => rfl) (fun _ _ _ => rfl) (fun t b m' hb hi => write_log_round_writes hfits hb hi)
    m.log.lh rfl hinv
  rw [write_log, writes_get]
  simpa only [Nat.zero_add] using this

/-! ## `write_head` and `install_trans` -/

/-- The writes of a header that lists `lh`. -/
def headers (start : Nat) (lh : List Nat) : Language (Nat × Block) :=
  {ws | ∃ d, ws = [(start, putHeader d lh)]}

theorem headers_nonempty (start : Nat) (lh : List Nat) : (headers start lh).Nonempty :=
  ⟨_, Block.zero, rfl⟩

/-- `write_head` writes one header, and it lists `log.lh`. -/
theorem write_head_writes (hwf : m.bc.WF) (hdev : m.log.dev ≠ 0) :
    Writes write_head (headers m.log.start m.log.lh)
      (fun _ m' => m'.log = m.log ∧ m'.bc.WF ∧ (∃ d, m'.disk m.log.start = putHeader d m.log.lh) ∧
        ∀ b v, b ≠ m.log.start → Settled m m.log.dev b v → Settled m' m.log.dev b v) m := by
  rw [write_head, writes_get]
  refine .quiet (wp_bread hwf hdev) (headers_nonempty ..) (fun _ _ => BreadPost.noWrite)
    fun i m1 h1 => ?_
  rw [writes_get, h1.log]
  refine .weaken (L := {[(m.log.start, putHeader (m1.bc.buf i).data m.log.lh)]}) ?_
    (.bwrite h1.holds.2 fun m2 h2 => .brelse fun m3 h3 => ?_)
  · rintro _ rfl
    exact ⟨_, rfl⟩
  · refine ⟨by rw [h3.log, h2.log, h1.log], h3.wf (h2.wf h1.wf),
      ⟨_, by rw [h3.disk, h2.disk, h1.holds.2, Function.update_self]⟩, fun b v hb hset => ?_⟩
    exact ((hset.bread h1).bwrite h2 (by rw [h1.holds.2]; exact hb.symm)).brelse h3

/-- The loop of `install_trans`: every block of the log area the header lists
    is settled. -/
structure InstallInv (lg : Log) (c : Nat → Block) (m : Machine) : Prop where
  log : m.log = lg
  wf : m.bc.WF
  logged : ∀ t, t < lg.lh.length → Settled m lg.dev (lg.start + t + 1) (c t)

/-- One round copies its log block to its home block. -/
theorem install_trans_round_writes (hfits : lg.Fits)
    (htail : lg.lh[tail]? = some b) (hinv : InstallInv lg c m) :
    Writes (install_trans_round rec tail b) {[(b, c tail)]} (fun _ => InstallInv lg c) m := by
  have hlt : tail < lg.lh.length := (List.getElem?_eq_some_iff.mp htail).1
  have hb : b ∈ lg.lh := List.mem_of_getElem? htail
  rw [install_trans_round, writes_get, hinv.log]
  -- the log block, in buffer i
  refine .quiet (wp_bread hinv.wf hfits.dev) ⟨_, rfl⟩ (fun _ _ => BreadPost.noWrite)
    fun i m1 h1 => ?_
  -- its home block, in buffer j
  refine .quiet (wp_bread h1.wf hfits.dev) ⟨_, rfl⟩ (fun _ _ => BreadPost.noWrite) fun j m2 h2 => ?_
  have hij : i ≠ j := h2.ne_of_holds h1.holds h1.refcnt_pos (hfits.ne_slot hb hlt).symm
  have hdata : (m2.bc.buf i).data = c tail := by
    rw [h2.other i hij]
    exact h1.data _ (hinv.logged tail hlt).shows
  rw [writes_get, hdata]
  refine .bwrite h2.holds.2 fun m3 h3 => ?_
  -- a log block is not the home block that was written
  have hset3 : ∀ t, t < lg.lh.length → Settled m3 lg.dev (lg.start + t + 1) (c t) := fun t ht =>
    (((hinv.logged t ht).bread h1).bread h2).bwrite h3
    (by rw [h2.holds.2]; exact hfits.ne_slot hb ht)
  have hrest : ∀ m4 : Machine, m4.log = m3.log → m4.bc.WF →
      (∀ t, t < lg.lh.length → Settled m4 lg.dev (lg.start + t + 1) (c t)) →
      Writes (do brelse i; brelse j) 1 (fun _ => InstallInv lg c) m4 := by
    intro m4 hl4 hwf4 hset4
    refine .brelse_two fun m5 m6 h5 h6 => ⟨?_, h6.wf (h5.wf hwf4), ?_⟩
    · rw [h6.log, h5.log, hl4, h3.log, h2.log, h1.log]
      exact hinv.log
    · exact fun t ht => ((hset4 t ht).brelse h5).brelse h6
  cases rec with
  | true => exact hrest m3 rfl (h3.wf h2.wf) hset3
  | false =>
    -- bunpin changes only a reference count
    refine .modify ⟨[], rfl⟩ ⟨rfl, rfl⟩ (hrest _ rfl ?_ fun t ht => ?_)
    · exact Bcache.WF.set (h3.wf h2.wf) (by rfl) (by rfl)
    refine Settled.congr (hset3 t ht) rfl fun l hl => ?_
    unfold Bcache.Holds at hl ⊢
    by_cases hlj : l = j
    · subst hlj
      simpa only [Bcache.bunpin, Bcache.set_buf_self, and_true] using hl
    · simpa only [Bcache.bunpin, Bcache.set_buf_ne _ _ hlj, and_true] using hl

/-- The writes of `install_trans`. -/
theorem install_trans_writes (hfits : lg.Fits) (hinv : InstallInv lg c m) :
    Writes (install_trans rec) {writesTo (fun t => lg.lh.getD t 0) c lg.lh.length}
      (fun _ => InstallInv lg c) m := by
  have := Writes.loop (install_trans_loop rec) (fun _ => InstallInv lg c)
    (fun t => lg.lh.getD t 0) (fun _ => rfl) (fun _ _ _ => rfl) (fun t b m' hb hi => by
      rw [getD_eq_getElem?_getD, hb]
      exact install_trans_round_writes hfits hb hi) lg.lh (drop_zero (l := lg.lh)) hinv
  rw [install_trans, writes_get, hinv.log]
  simpa only [Nat.zero_add] using this

/-- The writes of `log.lh.n = 0; write_head()`. -/
theorem clear_head_writes (hdev : lg.dev ≠ 0) (hinv : InstallInv lg c m) :
    Writes (do clearLh; write_head) (headers lg.start [])
      (fun _ m' => (m'.disk lg.start).word 0 = 0) m := by
  refine .modify (headers_nonempty ..) ⟨rfl, rfl⟩ ?_
  have := write_head_writes (m := { m with log := { m.log with lh := [] } }) hinv.wf
    (show m.log.dev ≠ 0 by rw [hinv.log]; exact hdev)
  unfold headers at this ⊢
  rw [← hinv.log]
  refine this.post ?_
  rintro _ m' ⟨⟨-, -, ⟨d, hd⟩, -⟩, hi⟩
  have hd' : m'.disk m.log.start = putHeader d [] := hd
  refine ⟨?_, hi⟩
  dsimp only
  rw [hd', putHeader, putBlocks, Block.word_setWord_same (by decide)]
  rfl

/-! ## The writes of `commit` -/

/-- The state in which `end_op` calls `commit`: the on-disk header is empty, and
    the in-memory header lists at most `LOGSIZE` distinct home blocks, the
    `t`-th one cached with contents `c t` and pinned. -/
structure CommitReady (m : Machine) (c : Nat → Block) : Prop where
  empty : (m.disk m.log.start).word 0 = 0
  fits : m.log.Fits
  logsize : m.log.lh.length ≤ LOGSIZE
  /-- `blockno` is a `uint`. -/
  word : ∀ b ∈ m.log.lh, b < 2 ^ 32
  wf : m.bc.WF
  pinned : ∀ t b, m.log.lh[t]? = some b → ∃ k, m.bc.Holds m.log.dev b k ∧
    (m.bc.buf k).valid = true ∧ (m.bc.buf k).data = c t ∧ 0 < (m.bc.buf k).refcnt

/-- The transaction that `log.lh` and the cached contents describe. -/
def Log.Fits.txn {lg : Log} (h : lg.Fits) (c : Nat → Block) : Txn lg.layout where
  n := lg.lh.length
  target := fun t => lg.lh.getD t 0
  value := c
  fits := by
    have := h.size
    show lg.lh.length ≤ lg.size - 1
    omega
  target_inj := by
    intro s t hs ht heq
    rw [List.getD_eq_getElem _ _ hs, List.getD_eq_getElem _ _ ht] at heq
    exact (List.Nodup.getElem_inj_iff h.nodup).mp heq
  target_home := by
    intro t ht
    rw [List.getD_eq_getElem _ _ ht]
    exact Log.home_of_home (h.home _ (List.getElem_mem ht)) (by have := h.size; omega)

theorem map_getD_range (l : List Nat) : (range l.length).map (fun t => l.getD t 0) = l := by
  apply ext_getElem
  · simp
  · intro t h1 h2
    rw [getElem_map, getElem_range, getD_eq_getElem _ _ h2]

/-- The writes of `commit`. -/
def commitWrites (lg : Log) (c : Nat → Block) : Language (Nat × Block) :=
  {writesTo (fun t => lg.start + t + 1) c lg.lh.length} * (headers lg.start lg.lh *
    ({writesTo (fun t => lg.lh.getD t 0) c lg.lh.length} * headers lg.start []))

theorem CommitReady.trace (h : CommitReady m c) :
    ∀ ws ∈ commitWrites m.log c, CommitTrace (h.fits.txn c) ws := by
  rintro _ ⟨_, rfl, _, ⟨_, ⟨d1, rfl⟩, _, ⟨_, rfl, _, ⟨d2, rfl⟩, rfl⟩, rfl⟩, rfl⟩
  refine ⟨_, _, ?_, ?_, rfl⟩
  · show headerList _ = _
    rw [headerList_putHeader h.logsize h.word]
    exact (map_getD_range _).symm
  · exact headerList_putHeader (Nat.zero_le _) (by simp)

theorem CommitReady.writeLogInv (h : CommitReady m c) : WriteLogInv m.log c 0 m :=
  ⟨rfl, h.wf, fun t b _ hb => h.pinned t b hb, fun _ ht => absurd ht (Nat.not_lt_zero _)⟩

/-- `commit` issues the writes of a commit of its transaction, or, when it
    stops early, a prefix of them. -/
theorem commit_writes (h : CommitReady m c) (hpos : 0 < m.log.lh.length) :
    Writes commit {ws | CommitTrace (h.fits.txn c) ws}
      (fun _ m' => (m'.disk m.log.start).word 0 = 0) m := by
  have hdev := h.fits.dev
  refine .weaken h.trace ?_
  rw [commit, writes_get, if_pos hpos]
  have hne := headers_nonempty m.log.start
  have hinstall : (({writesTo (fun t => m.log.lh.getD t 0) c m.log.lh.length} : Language _) *
      headers m.log.start []).Nonempty := .image2 ⟨_, rfl⟩ (hne _)
  refine (write_log_writes h.fits h.writeLogInv).bind (.image2 (hne _) hinstall)
    fun _ m1 hinv1 => ?_
  have hhead := write_head_writes hinv1.wf (by rw [hinv1.log]; exact hdev)
  rw [hinv1.log] at hhead
  refine hhead.bind hinstall ?_
  rintro _ m2 ⟨hlog2, hwf2, -, hset2⟩
  have hinv2 : InstallInv m.log c m2 :=
    ⟨hlog2, hwf2, fun t ht => hset2 _ _ (by omega) (hinv1.logged t ht)⟩
  exact (install_trans_writes h.fits hinv2).bind (hne _) fun _ m3 hinv3 =>
    clear_head_writes hdev hinv3

/-! ## The writes of `recover_from_log` -/

/-- A machine that has just booted from the disk `d`, with the log area that
    `lg` describes: whatever is cached was read from that disk. -/
structure Booted (lg : Log) (d : Nat → Block) (m : Machine) : Prop where
  disk : m.disk = d
  start : m.log.start = lg.start
  size : m.log.size = lg.size
  dev : m.log.dev = lg.dev
  wf : m.bc.WF
  coherent : ∀ i, (m.bc.buf i).valid = true → (m.bc.buf i).dev = lg.dev →
    (m.bc.buf i).data = d (m.bc.buf i).blockno

theorem Booted.settled (h : Booted lg d m) (b : Nat) : Settled m lg.dev b (d b) :=
  ⟨by rw [h.disk], fun i hi hval => by rw [h.coherent i hval hi.1, hi.2]⟩

/-- `read_head` makes the log header in memory the one on the disk. -/
theorem wp_read_head (hboot : Booted lg d m) (hdev : lg.dev ≠ 0) :
    wp read_head (fun _ m' => InstallInv { lg with lh := headerList (d lg.start) }
      (fun t => d (lg.start + t + 1)) m' ∧ NoWrite m m') (fun _ m' => NoWrite m m') m := by
  rw [read_head, wp_bind, wp_get]
  refine (wp_bread hboot.wf (by rw [hboot.dev]; exact hdev)).seq fun i m1 h1 => ?_
  rw [hboot.start] at h1
  rw [wp_bind, wp_modify]
  have hdata : (m1.bc.buf i).data = d lg.start :=
    h1.data _ (hboot.dev ▸ (hboot.settled lg.start).shows)
  rw [hdata]
  refine wp_brelse.mono ?_ fun _ _ h => ⟨h.1.trans h1.disk, h.2.trans h1.issued⟩
  intro _ m2 h2
  refine ⟨⟨?_, h2.wf h1.wf, fun t _ => ?_⟩, h2.disk.trans h1.disk, h2.issued.trans h1.issued⟩
  · rw [h2.log]
    simp only [h1.log, hboot.start, hboot.size, hboot.dev]
  · have hs := (hboot.settled (lg.start + t + 1)).bread (hboot.dev ▸ h1)
    refine Settled.brelse ?_ h2
    exact ⟨hs.1, hs.2⟩

/-- From a disk whose header list fits the log area, `recover_from_log` issues
    the writes of a recovery, or, when it stops early, a prefix of them; when
    it returns, the header on the disk counts no block. -/
theorem recover_writes (hboot : Booted lg d m)
    (hfits : ({ lg with lh := headerList (d lg.start) } : Log).Fits) :
    Writes recover_from_log {ws | RecoverTrace lg.layout d ws}
      (fun _ m' => (m'.disk lg.start).word 0 = 0) m := by
  have hne := headers_nonempty lg.start []
  have htrace : ∀ ws ∈ ({writesTo (fun t => (headerList (d lg.start)).getD t 0)
      (fun t => d (lg.start + t + 1)) (headerList (d lg.start)).length} : Language _) * headers
      lg.start [], RecoverTrace lg.layout d ws := by
    rintro _ ⟨_, rfl, _, ⟨h, rfl⟩, rfl⟩
    exact ⟨_, _, _, (map_getD_range _).symm, headerList_putHeader (Nat.zero_le _) (by simp), rfl⟩
  refine .weaken htrace (.quiet (wp_read_head hboot hfits.dev) (.image2 ⟨_, rfl⟩ hne)
    (fun _ _ h => h.2) fun _ m1 h1 => ?_)
  exact (install_trans_writes hfits h1.1).bind hne fun _ m2 h2 => (clear_head_writes hfits.dev h2 :)

end

/-! ## Power cuts -/

/-- The state a run reaches, whether it returns or stops. -/
def endState {α : Type} (x : KernelM α) (m : Machine) : Machine :=
  match x m with
  | .ok _ m' => m'
  | .error _ m' => m'

/-- The writes of a run of `x` that reach the disk when the power is cut after
    the first `k` of them. -/
def cutWrites (x : KernelM Unit) (m : Machine) (k : Nat) : List (Nat × Block) :=
  ((endState x m).issued.drop m.issued.length).take k

/-- The disk a power cut after `k` writes leaves. -/
def cutDisk (x : KernelM Unit) (m : Machine) (k : Nat) : Nat → Block :=
  applyWrites (cutWrites x m k) m.disk

/-- `d'` is what the disk `d` can become by rebooting any number of times, each
    time with a power cut after some number of the writes of the recovery. -/
inductive CutRecoveries (lg : Log) (d : Nat → Block) : (Nat → Block) → Prop where
  | refl : CutRecoveries lg d d
  | cut {d' : Nat → Block} (m : Machine) (k : Nat) : CutRecoveries lg d d' → Booted lg d' m →
      CutRecoveries lg d (cutDisk recover_from_log m k)

/-- The disk after the whole transaction: every listed block has its cached
    contents, every other block is unchanged. -/
def postDisk (m : Machine) (c : Nat → Block) (b : Nat) : Block :=
  if b ∈ m.log.lh then c (m.log.lh.idxOf b) else m.disk b

theorem Log.Fits.txn_post {m : Machine} (h : m.log.Fits) (c : Nat → Block) :
    (h.txn c).post m.disk = postDisk m c := by
  funext b
  unfold postDisk Txn.post
  split
  · next hb =>
    have ht : m.log.lh.idxOf b < m.log.lh.length := idxOf_lt_length_iff.mpr hb
    have hb' : (h.txn c).target (m.log.lh.idxOf b) = b := by
      show m.log.lh.getD _ 0 = b
      rw [getD_eq_getElem _ _ ht, getElem_idxOf]
    have := applyWrites_writesTo_at (d := m.disk) (g := (h.txn c).value) (h.txn c).target_inj ht
    rwa [hb'] at this
  · next hb =>
    apply applyWrites_writesTo_of_ne
    intro t ht heq
    apply hb
    rw [← heq]
    show m.log.lh.getD t 0 ∈ m.log.lh
    rw [getD_eq_getElem _ _ ht]
    exact getElem_mem ht

/-- What reaches the disk is a prefix of a word that the run writes. -/
theorem Writes.cutWrites {x : KernelM Unit} {m : Machine} {L : Language (Nat × Block)}
    {Q : Unit → Machine → Prop} (h : Writes x L Q m) (k : Nat) :
    ∃ ws ∈ L, ∃ j, NoviceKernel.cutWrites x m k = ws.take j := by
  have hrun : ∃ ws ∈ L, ∃ pre, pre <+: ws ∧ Issued m pre (endState x m) := by
    unfold Writes wp at h
    unfold endState
    cases hx : x m with
    | ok a m' =>
      rw [hx] at h
      obtain ⟨-, ws, hws, hi⟩ := h
      exact ⟨ws, hws, ws, prefix_rfl, hi⟩
    | error e m' =>
      rw [hx] at h
      exact h
  obtain ⟨ws, hws, pre, hpre, hi⟩ := hrun
  refine ⟨ws, hws, min k pre.length, ?_⟩
  rw [NoviceKernel.cutWrites, hi.1, drop_left, prefix_iff_eq_take.mp hpre, take_take,
    length_take]
  congr 1
  have := hpre.length_le
  omega

/-- The header list of a recoverable disk fits the log area. -/
theorem CommitReady.fits_of_recoverable {m : Machine} {c : Nat → Block} (h : CommitReady m c)
    {d₀ d : Nat → Block} (hd : Recoverable (h.fits.txn c) d₀ d) :
    ({ m.log with lh := headerList (d m.log.start) } : Log).Fits := by
  have hnil : headerList (d m.log.start) = [] →
      ({ m.log with lh := headerList (d m.log.start) } : Log).Fits := by
    intro hh
    rw [hh]
    exact ⟨h.fits.dev, by have := h.fits.size; simp; omega, by simp, by simp⟩
  rcases hd with hc | hl | hc
  · exact hnil hc.1
  · have hh : headerList (d m.log.start) = m.log.lh := hl.hdr.trans (map_getD_range _)
    rw [hh]
    exact h.fits
  · exact hnil hc.1

/-- Cut-off recoveries keep a disk recoverable, and committed once it is. -/
theorem CommitReady.cutRecoveries {m : Machine} {c : Nat → Block} (h : CommitReady m c)
    {d d' : Nat → Block} (hcut : CutRecoveries m.log d d')
    (hd : Recoverable (h.fits.txn c) m.disk d) :
    Recoverable (h.fits.txn c) m.disk d' ∧
      (Committed (h.fits.txn c) m.disk d → Committed (h.fits.txn c) m.disk d') := by
  induction hcut with
  | refl => exact ⟨hd, id⟩
  | cut m' k _ hboot ih =>
    obtain ⟨hrec, hcom⟩ := ih
    obtain ⟨ws, hws, j, hcw⟩ := (recover_writes hboot (h.fits_of_recoverable hrec)).cutWrites k
    rw [cutDisk, hcw, hboot.disk]
    refine ⟨?_, fun hc => recover_prefix_committed (hcom hc) hws j⟩
    rcases hrec with hcl | hc
    · exact Or.inl (recover_prefix_clean hcl hws j)
    · exact Or.inr (recover_prefix_committed hc hws j)

/-- **Crash atomicity of the log.** Cut `commit` off after any number of its
    writes, cut any number of recoveries off after any number of theirs; a
    recovery that completes leaves an empty header and, outside the log area,
    the whole old or the whole new disk, the new one if a header write of
    `commit` had reached the disk. -/
theorem commit_crash_atomic {m : Machine} {c : Nat → Block} (h : CommitReady m c) (k : Nat)
    {d : Nat → Block} (hcut : CutRecoveries m.log (cutDisk commit m k) d)
    {m₁ m₂ : Machine} (hboot : Booted m.log d m₁) (hrec : recover_from_log m₁ = .ok () m₂) :
    (m₂.disk m.log.start).word 0 = 0 ∧
    ((∀ b, m.log.Home b → m₂.disk b = m.disk b) ∨
      (∀ b, m.log.Home b → m₂.disk b = postDisk m c b)) ∧
    ((∃ v, (m.log.start, v) ∈ cutWrites commit m k) →
      ∀ b, m.log.Home b → m₂.disk b = postDisk m c b) := by
  have hempty : headerList (m.disk m.log.start) = [] := by
    simp [headerList, h.empty, toInt32]
  have hsize : 0 < m.log.size := by have := h.fits.size; omega
  -- the disk the cut-off commit leaves
  have hstart : Recoverable (h.fits.txn c) m.disk (cutDisk commit m k) ∧
      ((∃ v, (m.log.start, v) ∈ cutWrites commit m k) →
        Committed (h.fits.txn c) m.disk (cutDisk commit m k)) := by
    by_cases hpos : 0 < m.log.lh.length
    · obtain ⟨ws, hws, j, hcw⟩ := (commit_writes h hpos).cutWrites k
      have hclean : m.log.layout.hdr (m.disk m.log.layout.start) = [] := hempty
      obtain ⟨h1, h2⟩ := commit_initial hclean hws j
      rw [cutDisk, hcw]
      refine ⟨h1, fun hx => ?_⟩
      obtain ⟨v, hv⟩ := hx
      refine h2 ?_
      -- a header write is not among the slot writes, so more than n writes are in
      by_contra hle
      obtain ⟨h₁, h₂, -, -, rfl⟩ := hws
      rw [take_append_of_le_length (by simpa using hle)] at hv
      obtain ⟨t, -, ht⟩ := mem_map.mp (mem_of_mem_take hv)
      have heq : m.log.start + t + 1 = m.log.start := congrArg Prod.fst ht
      omega
    · -- nothing was logged, and commit writes nothing
      have hend : endState commit m = m := by
        have hrun : wp commit (fun _ m' => m' = m) (fun _ _ => False) m := by
          rw [commit, wp_bind, wp_get, if_neg hpos]
          rfl
        obtain ⟨_, m', hcommit, hm'⟩ := hrun.returns
        rw [endState, hcommit, hm']
      have hcw : cutWrites commit m k = [] := by simp [cutWrites, hend]
      rw [cutDisk, hcw]
      refine ⟨Or.inl ⟨hempty, fun _ _ => rfl⟩, fun hx => ?_⟩
      obtain ⟨v, hv⟩ := hx
      exact absurd hv (by simp)
  obtain ⟨hrecov, hcom⟩ := h.cutRecoveries hcut hstart.1
  obtain ⟨hword, ws, hws, hi⟩ := (recover_writes hboot (h.fits_of_recoverable hrecov)).of_ok hrec
  rw [hi.2, hboot.disk] at hword ⊢
  refine ⟨hword, ?_, fun hv b hb => ?_⟩
  · rcases hrecov with hcl | hc
    · exact Or.inl fun b hb => (recover_clean hcl hws).2 b (Log.home_of_home hb hsize)
    · right
      intro b hb
      rw [← h.fits.txn_post c]
      exact (recover_committed hc hws).2 b (Log.home_of_home hb hsize)
  · rw [← h.fits.txn_post c]
    exact (recover_committed (hcom (hstart.2 hv)) hws).2 b (Log.home_of_home hb hsize)

/-- One block, number 40, is logged and pinned. -/
def oneBlockMachine : Machine where
  disk := fun _ => Block.zero
  issued := []
  bc := Bcache.binit.set ⟨0, by decide⟩
    { valid := true, dev := 1, blockno := 40, lock := none, refcnt := 1,
      data := Block.zero.setWord 0 7 }
  log := { start := 2, size := 31, dev := 1, lh := [40] }
  pid := 1

/-- A machine booted from the disk `d`, with the log of `oneBlockMachine`. -/
def bootMachine (d : Nat → Block) : Machine :=
  { oneBlockMachine with disk := d, bc := Bcache.binit }

theorem oneBlock_commitReady : CommitReady oneBlockMachine (fun _ => Block.zero.setWord 0 7) where
  empty := by decide
  fits := ⟨by decide, by decide, by simp [oneBlockMachine, Log.Home], by decide⟩
  logsize := by decide
  word := by simp [oneBlockMachine]
  wf := by
    refine ⟨binit_wf.all, ?_⟩
    intro i j hdev hdd _
    by_contra hne
    by_cases hi : i = ⟨0, by decide⟩
    · subst hi
      rw [show oneBlockMachine.bc.buf j = binit.buf j from
        set_buf_ne _ _ (Ne.symm hne)] at hdd
      exact absurd hdd Nat.one_ne_zero
    · rw [show oneBlockMachine.bc.buf i = binit.buf i from
        set_buf_ne _ _ hi] at hdev
      exact hdev rfl
  pinned := by
    intro t b hb
    cases t with
    | zero =>
      obtain rfl : 40 = b := Option.some.inj hb
      exact ⟨⟨0, by decide⟩, ⟨rfl, rfl⟩, rfl, rfl, by decide⟩
    | succ t => cases hb

theorem bootMachine_booted (d : Nat → Block) : Booted oneBlockMachine.log d (bootMachine d) where
  disk := rfl
  start := rfl
  size := rfl
  dev := rfl
  wf := binit_wf
  coherent := fun _ h => absurd h Bool.false_ne_true

/-- Whether a run returns. -/
def returns {α : Type} (x : KernelM α) (m : Machine) : Bool :=
  match x m with
  | .ok _ _ => true
  | .error _ _ => false

theorem run_of_returns {x : KernelM Unit} {m : Machine} (h : returns x m = true) :
    x m = .ok () (endState x m) := by
  unfold returns at h
  unfold endState
  cases hx : x m with
  | ok a m' => rfl
  | error e m' => rw [hx] at h; cases h

/-- Cut off after the header write, the commit of one block is completed by the
    recovery. -/
theorem commit_crash_atomic_oneBlock :
    (endState recover_from_log (bootMachine (cutDisk commit oneBlockMachine 2))).disk 40 =
      Block.zero.setWord 0 7 := by
  have hrun : returns recover_from_log (bootMachine (cutDisk commit oneBlockMachine 2)) = true := by
    decide +kernel
  have h := commit_crash_atomic oneBlock_commitReady 2 CutRecoveries.refl (bootMachine_booted _)
    (run_of_returns hrun)
  have hhdr : (cutWrites commit oneBlockMachine 2).map Prod.fst = [3, 2] := by decide +kernel
  have hmem : 2 ∈ (cutWrites commit oneBlockMachine 2).map Prod.fst := by rw [hhdr]; decide
  obtain ⟨w, hw, hw2⟩ := mem_map.mp hmem
  have h40 := h.2.2 ⟨w.2, by rw [show oneBlockMachine.log.start = w.1 from hw2.symm]; exact hw⟩ 40
    (Or.inr (by decide))
  rw [h40]
  rfl

end NoviceKernel
