import Mathlib.Data.Finset.Card
import NoviceKernel.FlatDisk

/-! # Buffers for `commit` (`bio.c`, `log.c`)

    Every block of the log header keeps its buffer from being recycled, and
    `commit` needs one more for the log block it writes.  While no process uses
    a buffer, `bget` finds one for every `bread` of `commit` as long as the header
    has fewer than `NBUF` blocks; a header of `NBUF` blocks, which three operations
    of `MAXOPBLOCKS` blocks each can fill, leaves none for the first. -/

namespace NoviceKernel

open List Finset

namespace Bcache

/-- `bget` finds the block, or a buffer to recycle. -/
def Finds (c : Bcache) (dev b : Nat) : Prop := (∃ i, c.Holds dev b i) ∨ ∃ i, (c.buf i).refcnt = 0

theorem bget_isSome_iff {c : Bcache} {dev b : Nat} (hall : ∀ i, i ∈ c.lru) :
    (c.bget dev b).isSome = true ↔ c.Finds dev b := by
  unfold bget
  split
  · next i hi => exact ⟨fun _ => .inl ⟨i, by simpa using find?_some hi⟩, fun _ => rfl⟩
  · next hmiss =>
    have hno : ¬ ∃ i, c.Holds dev b i := by
      rintro ⟨i, hi⟩
      exact find?_eq_none.mp hmiss i (hall i) (decide_eq_true hi)
    split
    · next i hi => exact ⟨fun _ => .inr ⟨i, by simpa using find?_some hi⟩, fun _ => rfl⟩
    · next hfull =>
      refine ⟨nofun, fun hf => absurd hf (not_or.mpr ⟨hno, ?_⟩)⟩
      rintro ⟨i, hi⟩
      exact find?_eq_none.mp hfull i (mem_reverse.mpr (hall i)) (decide_eq_true hi)

variable {c : Bcache} {dev : Nat} {pins : List Nat}

/-- A buffer for each pinned block, and a pinned block for each such buffer. -/
theorem card_pinned (hwf : c.WF) (hdev : dev ≠ 0) (hnd : pins.Nodup)
    (hpins : ∀ b ∈ pins, ∃ i, c.Holds dev b i) :
    (Finset.univ.filter fun i => c.Pinned dev pins i).card = pins.length := by
  have himage : (Finset.univ.filter fun i => c.Pinned dev pins i).image
    (fun i => (c.buf i).blockno) =
      pins.toFinset := by
    ext b
    simp only [Finset.mem_image, Finset.mem_filter, Finset.mem_univ, true_and, mem_toFinset]
    constructor
    · rintro ⟨i, hi, rfl⟩
      exact hi.2
    · intro hb
      obtain ⟨i, hi⟩ := hpins b hb
      exact ⟨i, ⟨hi.1, hi.2.symm ▸ hb⟩, hi.2⟩
  have hinj : Set.InjOn (fun i => (c.buf i).blockno)
      (Finset.univ.filter fun i => c.Pinned dev pins i : Finset (Fin NBUF)) := by
    intro i hi j hj hij
    have hi := (Finset.mem_filter.mp hi).2
    have hj := (Finset.mem_filter.mp hj).2
    exact hwf.uniq i j (by rw [hi.1]; exact hdev) (hi.1.trans hj.1.symm) hij
  rw [← Finset.card_image_of_injOn hinj, himage, toFinset_card_of_nodup hnd]

end Bcache

namespace FlatDisk

open TransitionSystem GroupCommit

variable {N : Nat} {H : Type}

/-- The user and the block of the `bread` that `commit`, run by `p`, does next. -/
def nextRead (cfg : Cfg) (s : State N H) (p : Fin N) : Option (User H × Nat) :=
  match s.g.pc p with
  | .writeLog tail | .install tail =>
    match s.g.lh[tail]?, s.round with
    | some _, .readLog => some (logBuf, cfg.slot tail)
    | some b, .readHome => some (homeBuf, b)
    | _, _ => none
  | .writeHead | .clearHead => if s.round = .readLog then some (logBuf, cfg.start) else none
  | _ => none

section Buffers

variable [Fintype H] {cfg : Cfg} {pid : User H → Nat} {F L : Nat → Block} {pins : List Nat}
  {s : State N H} {p : Fin N}

/-- While nobody uses a buffer, one that is not pinned is free. -/
theorem exists_free (hcore : Core cfg.dev pid L pins s.c) (hidle : ∀ x, s.c.user x = .idle)
    (hnd : pins.Nodup) (hlen : pins.length < NBUF) : ∃ i, (s.c.bc.buf i).refcnt = 0 := by
  have hcard := Bcache.card_pinned hcore.wf cfg.dev_ne hnd fun b hb =>
    (hcore.pinned b hb).imp fun _ hi => hi.1
  have hne : (univ.filter fun i => s.c.bc.Pinned cfg.dev pins i) ≠ univ := by
    intro heq
    rw [heq, card_univ, Fintype.card_fin] at hcard
    omega
  obtain ⟨i, hi⟩ : ∃ i, ¬ s.c.bc.Pinned cfg.dev pins i := by
    by_contra hall
    exact hne (filter_true_of_mem fun i _ => not_not.mp fun hi => hall ⟨i, hi⟩)
  refine ⟨i, ?_⟩
  have hzero : Count.count s.c.user (fun u => u.uses i) = 0 :=
    Count.count_eq_zero.mpr fun x => by rw [hidle x]; exact Stage.not_uses_idle i
  rw [hcore.refs i, hzero, if_neg hi]

/-- When all buffers are pinned, none is left for a block that is not. -/
theorem not_finds_of_full (hcore : Core cfg.dev pid L pins s.c) (hnd : pins.Nodup)
    (hlen : NBUF ≤ pins.length) {b : Nat} (hb : b ∉ pins) : ¬ s.c.bc.Finds cfg.dev b := by
  have hcard := Bcache.card_pinned hcore.wf cfg.dev_ne hnd fun b hb =>
    (hcore.pinned b hb).imp fun _ hi => hi.1
  have hall : ∀ i, s.c.bc.Pinned cfg.dev pins i := by
    intro i
    have huniv : (Finset.univ.filter fun i => s.c.bc.Pinned cfg.dev pins i) = Finset.univ := by
      refine Finset.eq_univ_of_card _ (Nat.le_antisymm (Finset.card_le_univ _) ?_)
      rw [hcard, Fintype.card_fin]
      exact hlen
    exact (Finset.mem_filter.mp (huniv ▸ Finset.mem_univ i)).2
  rintro (⟨i, hi⟩ | ⟨i, hi⟩)
  · exact hb (hi.2 ▸ (hall i).2)
  · rw [hcore.refs i, if_pos (hall i)] at hi
    omega

variable (h : Inv cfg pid F L pins s)
include h

/-- While `commit` is about to read a log block, it uses no buffer, and no more
    blocks are pinned than the header lists. -/
theorem Inv.finds_log (hothers : ∀ z, s.c.user (.inl z) = .idle) (hlog : s.c.user logBuf = .idle)
    (hhome : s.c.user homeBuf = .idle) (hpins : pins.Sublist s.g.lh) (hlen : s.g.lh.length < NBUF)
    (b : Nat) : s.c.bc.Finds cfg.dev b := by
  refine .inr
    (exists_free h.core ?_ (h.nodup.sublist hpins) (Nat.lt_of_le_of_lt hpins.length_le hlen))
  rintro (z | _ | _)
  · exact hothers z
  · exact hlog
  · exact hhome

/-- A logged block that waits for installation is cached. -/
theorem Inv.finds_home {b : Nat} (hb : b ∈ pins) : s.c.bc.Finds cfg.dev b :=
  .inl ((h.core.pinned b hb).imp fun _ hi => hi.1)

theorem Inv.finds (hothers : ∀ z, s.c.user (.inl z) = .idle)
    (hlen : s.g.lh.length < NBUF) {x : User H} {b : Nat} (hread : nextRead cfg s p = some (x, b))
    (hidle : s.c.user x = .idle) : s.c.bc.Finds cfg.dev b := by
  have hprog := h.commit p
  unfold nextRead at hread
  cases hpc : s.g.pc p with
  | writeLog tail =>
    rw [hpc] at hread hprog
    obtain ⟨hpins, -, -, hround⟩ := hprog rfl
    cases hb : s.g.lh[tail]? with
    | none => simp [hb] at hread
    | some b' =>
      rw [hb] at hround
      unfold WriteRound at hround
      cases hr : s.round with
      | readLog =>
        rw [hr] at hround
        simp only [hb, hr, Option.some.injEq, Prod.mk.injEq] at hread
        obtain ⟨rfl, rfl⟩ := hread
        exact h.finds_log hothers hidle hround.2 (hpins ▸ List.Sublist.refl _) hlen _
      | readHome =>
        simp only [hb, hr, Option.some.injEq, Prod.mk.injEq] at hread
        obtain ⟨rfl, rfl⟩ := hread
        exact h.finds_home (hpins ▸ List.mem_of_getElem? hb)
      | _ => simp [hb, hr] at hread
  | install tail =>
    rw [hpc] at hread hprog
    obtain ⟨-, -, hround⟩ := hprog rfl
    cases hb : s.g.lh[tail]? with
    | none => simp [hb] at hread
    | some b' =>
      rw [hb] at hround
      obtain ⟨htail, hget⟩ := List.getElem?_eq_some_iff.mp hb
      have hdrop : s.g.lh.drop tail = b' :: s.g.lh.drop (tail + 1) := by
        rw [List.drop_eq_getElem_cons htail, hget]
      unfold InstallRound at hround
      cases hr : s.round with
      | readLog =>
        rw [hr] at hround
        simp only [hb, hr, Option.some.injEq, Prod.mk.injEq] at hread
        obtain ⟨rfl, rfl⟩ := hread
        refine h.finds_log hothers hidle hround.2.2 ?_ hlen _
        rw [hround.1, ← hdrop]
        exact List.drop_sublist _ _
      | readHome =>
        rw [hr] at hround
        simp only [hb, hr, Option.some.injEq, Prod.mk.injEq] at hread
        obtain ⟨rfl, rfl⟩ := hread
        exact h.finds_home (hround.1 ▸ List.mem_cons_self)
      | _ => simp [hb, hr] at hread
  | writeHead =>
    rw [hpc] at hread hprog
    obtain ⟨hpins, -, -, hround⟩ := hprog rfl
    dsimp only at hread
    split at hread
    · next hr =>
      unfold HeadRound at hround
      rw [hr] at hround
      cases hread
      exact h.finds_log hothers hidle hround.2 (hpins ▸ List.Sublist.refl _) hlen _
    · cases hread
  | clearHead =>
    rw [hpc] at hread hprog
    obtain ⟨hpins, -, hround⟩ := hprog rfl
    dsimp only at hread
    split at hread
    · next hr =>
      unfold HeadRound at hround
      rw [hr] at hround
      cases hread
      exact h.finds_log hothers hidle hround.2 (hpins ▸ List.nil_sublist _) hlen _
    · cases hread
  | _ =>
    rw [hpc] at hread
    cases hread

/-- The first log block is not among the blocks of the header. -/
theorem Inv.slot_notMem : cfg.slot 0 ∉ s.g.lh := by
  intro hmem
  have hfits := h.fits (ne_nil_of_mem hmem)
  have hpos := length_pos_of_mem hmem
  have hhome := h.home _ hmem
  unfold Cfg.Home Cfg.slot at hhome
  omega

end Buffers

variable [DecidableEq H] [Fintype H] {cfg : Cfg} {pid : User H → Nat} {d₀ : Nat → Block}

/-- **Buffers for `commit`.**  While no process uses a buffer, every `bread` of
    `commit` finds one if the header has fewer than `NBUF` blocks; if it has
    `NBUF`, the first `bread` of `write_log` finds none. -/
theorem commit_finds_buffers_iff {tr : List (Label H)} {s : State N H} {p : Fin N}
    (h : Trace (system cfg pid d₀ N) tr s) (hothers : ∀ z, s.c.user (.inl z) = .idle) :
    (s.g.lh.length < NBUF → ∀ x b, nextRead cfg s p = some (x, b) → s.c.user x = .idle →
      (s.c.bc.bget cfg.dev b).isSome = true) ∧
    (s.g.pc p = .writeLog 0 →
      (s.c.bc.bget cfg.dev (cfg.slot 0)).isSome = true → s.g.lh.length < NBUF) := by
  obtain ⟨L, pins, hinv⟩ := trace_inv h
  simp only [Bcache.bget_isSome_iff hinv.core.wf.all]
  refine ⟨fun hlen x b hread hidle => hinv.finds hothers hlen hread hidle, fun hpc hfinds => ?_⟩
  have hprog := hinv.commit p (by rw [hpc]; rfl)
  rw [hpc] at hprog
  obtain rfl : pins = s.g.lh := hprog.1
  exact Nat.lt_of_not_le fun hlen => not_finds_of_full hinv.core hinv.nodup hlen hinv.slot_notMem
    hfinds

/-! ## Runs -/

/-- Three processes and one user of the cache. -/
def threeOps : State 3 Unit where
  g := init
  c := { bc := Bcache.binit, disk := fun _ => Block.zero, user := fun _ => .idle }
  round := .readLog

/-! The processes of the three operations. -/

def opA : Fin 3 := 0

def opB : Fin 3 := 1

def opC : Fin 3 := 2

/-- `begin_op` of `p`. -/
def beginOf (p : Fin 3) : List (Action 3 Unit) := [.log (.begin_op p), .log (.run p), .log (.run p)]

/-- `p` reads block `b`, logs it and releases it. -/
def logOf (p : Fin 3) (b : Nat) : List (Action 3 Unit) :=
  [.bget () b, .acquiresleep (), .bread (), .log (.log_write p b), .log (.run p), .log_write p (),
    .releasesleep (), .brelse ()]

/-- `end_op` of `p` in `k` steps. -/
def endOf (p : Fin 3) (k : Nat) : List (Action 3 Unit) :=
  .log (.end_op p) :: List.replicate k (.log (.run p))

/-- Each of the three operations logs the `n` blocks after its first; then the last
    of them is about to read the first log block. -/
def logAll (n : Nat) : List (Action 3 Unit) :=
  beginOf opA ++ beginOf opB ++ beginOf opC ++
    ((List.range n).flatMap fun b => logOf opA (40 + b)) ++
    ((List.range n).flatMap fun b => logOf opB (50 + b)) ++
    ((List.range n).flatMap fun b => logOf opC (60 + b)) ++
    endOf opA 6 ++ endOf opB 6 ++ endOf opC 2 ++ [.commit opC]

theorem threeOps_init {s : State 3 Unit} {tr : List (Label Unit)} {n : Nat}
    (h : replay (exec smallCfg fun _ => 1) (logAll n) threeOps = some (tr, s)) :
    Trace (system smallCfg (fun _ => 1) (fun _ => Block.zero) 3) tr s :=
  trace_of_replay ⟨rfl, rfl, rfl, Bcache.binit_wf, fun _ => rfl, fun _ => rfl,
    fun _ _ _ h => absurd h Bool.false_ne_true⟩ h

/-- Nobody uses a buffer. -/
def idleUsers (s : State 3 Unit) : Bool := s.c.user (.inl ()) = .idle ∧ s.c.user logBuf = .idle

theorem commit_finds_buffers_logAll :
    ∃ tr s, replay (exec smallCfg fun _ => 1) (logAll 9) threeOps = some (tr, s) ∧
      s.g.lh.length = 27 ∧ idleUsers s = true ∧
      nextRead smallCfg s opC = some (logBuf, 3) ∧ (s.c.bc.bget 1 3).isSome = true := by
  have hrun : (replay (exec smallCfg fun _ => 1) (logAll 9) threeOps).map
      (fun r => (r.2.g.lh.length, idleUsers r.2, nextRead smallCfg r.2 opC)) =
      some (27, true, some (logBuf, 3)) := by decide +kernel
  obtain ⟨⟨tr, s⟩, hrep, hs⟩ := Option.map_eq_some_iff.mp hrun
  obtain ⟨hlen, hs⟩ := Prod.mk.inj hs
  obtain ⟨hidle, hread⟩ := Prod.mk.inj hs
  obtain ⟨huser, hlog⟩ := of_decide_eq_true hidle
  refine ⟨tr, s, hrep, hlen, hidle, hread, ?_⟩
  refine (commit_finds_buffers_iff (threeOps_init hrep) fun _ => huser).1 ?_ _ _ hread hlog
  rw [show s.g.lh.length = 27 from hlen]
  decide

/-- Three operations of `MAXOPBLOCKS` blocks each: `write_log` finds no buffer for
    the first log block. -/
theorem no_buffer_for_full_log :
    ∃ tr s, replay (exec smallCfg fun _ => 1) (logAll MAXOPBLOCKS) threeOps = some (tr, s) ∧
      Trace (system smallCfg (fun _ => 1) (fun _ => Block.zero) 3) tr s ∧
      s.g.lh = List.range' 40 30 ∧ idleUsers s = true ∧
      nextRead smallCfg s opC = some (logBuf, smallCfg.slot 0) ∧
      s.c.bc.bget smallCfg.dev (smallCfg.slot 0) = none := by
  have hrun : (replay (exec smallCfg fun _ => 1) (logAll MAXOPBLOCKS) threeOps).map
      (fun r => (r.2.g.lh, nextRead smallCfg r.2 opC,
        idleUsers r.2 && (r.2.c.bc.bget smallCfg.dev (smallCfg.slot 0)).isNone)) =
      some (range' 40 30, some (logBuf, smallCfg.slot 0), true) := by decide +kernel
  obtain ⟨⟨tr, s⟩, hrep, hs⟩ := Option.map_eq_some_iff.mp hrun
  obtain ⟨hlh, hs⟩ := Prod.mk.inj hs
  obtain ⟨hread, hs⟩ := Prod.mk.inj hs
  obtain ⟨hidle, hnone⟩ := (Bool.and_eq_true _ _).mp hs
  exact ⟨tr, s, hrep, threeOps_init hrep, hlh, hidle, hread, Option.isNone_iff_eq_none.mp hnone⟩

end FlatDisk

end NoviceKernel
