import Mathlib.Data.Fintype.Sum
import NoviceKernel.GroupCommit
import NoviceKernel.BioConc
import NoviceKernel.Log

/-! # Buffer cache and log as a flat array of blocks

    Processes read, change, log and release buffers while transactions commit.
    The log side is the group commit protocol; here the sections that touch
    buffers are spelled out: `log_write` pins, and `commit` goes through the
    cache for every block it copies, one cache step at a time.

    1. **Model**: the users of the cache are the `struct buf *` variables of
       the processes and the two of the committing process.
    2. **Invariant**: the cache agrees with a flat array of blocks (`Core`);
       how far the running commit has come.
    3. **Refinement**: `bread` returns what was last logged, and a commit
       leaves it on the disk.

    A user may read any block but changes and logs only blocks outside the log
    area, and every changed buffer is logged before it is released. -/

namespace NoviceKernel.FlatDisk

open TransitionSystem GroupCommit Function List Option

/-! ## 1. Model -/

/-- The fixed fields of `struct log`. -/
structure Cfg where
  dev : Nat
  start : Nat
  size : Nat
  /-- Device number 0 marks buffers never used. -/
  dev_ne : dev ≠ 0

namespace Cfg

/-- Blocks outside the log area. -/
def Home (cfg : Cfg) (b : Nat) : Prop := b < cfg.start ∨ cfg.start + cfg.size ≤ b

instance (cfg : Cfg) (b : Nat) : Decidable (cfg.Home b) := inferInstanceAs (Decidable (_ ∨ _))

/-- The log block of entry `t` of the header. -/
def slot (cfg : Cfg) (t : Nat) : Nat := cfg.start + t + 1

end Cfg

/-- Users of the cache: those of the processes, and the two buffers of the
    process that commits. -/
abbrev User (H : Type) := H ⊕ Bool

/-- The buffer of the log area that a round of `commit` uses. -/
abbrev logBuf {H : Type} : User H := .inr false

/-- The buffer of the logged block that a round of `commit` uses. -/
abbrev homeBuf {H : Type} : User H := .inr true

/-- Where the committing process is in a round of `write_log`, `write_head` or
    `install_trans`. -/
inductive Round where
  | readLog
  | readHome
  | copy
  | write
  | unpin
  | dropFirst
  | dropSecond
  | next
  deriving DecidableEq

structure State (N : Nat) (H : Type) where
  g : GroupCommit.State N
  c : Cache (User H)
  round : Round

inductive Label (H : Type) where
  /-- `bread` of block `b` returns with contents `v`. -/
  | bread (h : H) (b : Nat) (v : Block)
  /-- `log_write` of block `b` with contents `v`. -/
  | log_write (b : Nat) (v : Block)
  /-- `commit` returns. -/
  | committed
  | tau

inductive Action (N : Nat) (H : Type) where
  | bget (h : H) (b : Nat)
  | acquiresleep (h : H)
  | bread (h : H)
  | modify (h : H) (v : Block)
  | releasesleep (h : H)
  | brelse (h : H)
  /-- The section of `log_write` under `log.lock`, for the buffer of `h`. -/
  | log_write (p : Fin N) (h : H)
  /-- The next step of `commit`. -/
  | commit (p : Fin N)
  /-- Any other step of the group commit protocol. -/
  | log (a : GroupCommit.Action N)

variable {N : Nat} {H : Type}

/-- Contents of the buffer that `x` holds. -/
def contents (c : Cache (User H)) (x : User H) : Block :=
  match c.user x with
  | .held _ i _ => (c.bc.buf i).data
  | _ => Block.zero

section Steps

variable [DecidableEq H] (cfg : Cfg) (pid : User H → Nat)

/-- One step of `bread(dev, b)` into `x`; `r` is where it returns to. -/
def readStep (x : User H) (b : Nat) (r : Round) (s : State N H) : Option (State N H) :=
  match s.c.user x with
  | .idle => (s.c.bget cfg.dev x b).map fun c => { s with c := c }
  | .waiting _ _ => (s.c.acquiresleep pid x).map fun c => { s with c := c }
  | _ => (s.c.bread x).map fun c => { s with c := c, round := r }

/-- One step of `brelse` of the buffer of `x`; `r` is where it returns to. -/
def dropStep (x : User H) (r : Round) (s : State N H) : Option (State N H) :=
  match s.c.user x with
  | .released _ _ => (s.c.brelse x).map fun c => { s with c := c, round := r }
  | _ => (s.c.releasesleep pid x).map fun c => { s with c := c }

/-- `memmove` of `v` into the buffer of `x`. -/
def copyStep (x : User H) (v : Block) (s : State N H) : Option (State N H) :=
  (s.c.modify x v).map fun c => { s with c := c, round := .write }

/-- `bwrite` of the buffer of `x`. -/
def writeStep (x : User H) (r : Round) (s : State N H) : Option (State N H) :=
  (s.c.bwrite pid x).map fun c => { s with c := c, round := r }

/-- A round of `write_log` for entry `tail` of the header, block `b`. -/
def write_log_round (tail b : Nat) (s : State N H) : Option (State N H) :=
  match s.round with
  | .readLog => readStep cfg pid logBuf (cfg.slot tail) .readHome s
  | .readHome => readStep cfg pid homeBuf b .copy s
  | .copy => copyStep logBuf (contents s.c homeBuf) s
  | .write => writeStep pid logBuf .dropFirst s
  | .dropFirst => dropStep pid homeBuf .dropSecond s
  | .dropSecond => dropStep pid logBuf .next s
  | .unpin | .next => none

/-- `write_head`. -/
def write_head (s : State N H) : Option (State N H) :=
  match s.round with
  | .readLog => readStep cfg pid logBuf cfg.start .copy s
  | .copy => copyStep logBuf (putHeader (contents s.c logBuf) s.g.lh) s
  | .write => writeStep pid logBuf .dropSecond s
  | .dropSecond => dropStep pid logBuf .next s
  | .readHome | .unpin | .dropFirst | .next => none

/-- A round of `install_trans(0)` for entry `tail` of the header, block `b`. -/
def install_trans_round (tail b : Nat) (s : State N H) : Option (State N H) :=
  match s.round with
  | .readLog => readStep cfg pid logBuf (cfg.slot tail) .readHome s
  | .readHome => readStep cfg pid homeBuf b .copy s
  | .copy => copyStep homeBuf (contents s.c logBuf) s
  | .write => writeStep pid homeBuf .unpin s
  | .unpin => (s.c.bunpin homeBuf).map fun c => { s with c := c, round := .dropFirst }
  | .dropFirst => dropStep pid logBuf .dropSecond s
  | .dropSecond => dropStep pid homeBuf .next s
  | .next => none

/-- The committing process goes on to its next program point. -/
def advance (p : Fin N) (s : State N H) : Option (Label H × State N H) :=
  (run cfg.size p s.g).map fun r =>
    (if r.2.pc p = .commitAcquire then .committed else .tau, { s with g := r.2, round := .readLog })

/-- The next step of `commit` run by `p`. -/
def commitStep (p : Fin N) (s : State N H) : Option (Label H × State N H) :=
  match s.g.pc p with
  | .commitTest | .clear => advance cfg p s
  | .writeLog tail =>
    match s.g.lh[tail]? with
    | some b => if s.round = .next then advance cfg p s
        else (write_log_round cfg pid tail b s).map fun s => (.tau, s)
    | none => advance cfg p s
  | .writeHead | .clearHead =>
    if s.round = .next then advance cfg p s else (write_head cfg pid s).map fun s => (.tau, s)
  | .install tail =>
    match s.g.lh[tail]? with
    | some b => if s.round = .next then advance cfg p s
        else (install_trans_round cfg pid tail b s).map fun s => (.tau, s)
    | none => advance cfg p s
  | _ => none

/-- The section of `log_write` under `log.lock`, with its `bpin`. -/
def logStep (p : Fin N) (h : H) (s : State N H) : Option (Label H × State N H) :=
  match s.g.pc p, s.c.user (.inl h) with
  | .logTest b, .held b' _ _ =>
    if b' = b ∧ cfg.Home b then
      match run cfg.size p s.g with
      | some (.logged _ _, g) =>
        (s.c.logWrite (.inl h) (decide (b ∉ s.g.lh))).map fun c =>
          (.log_write b (contents s.c (.inl h)), { s with g := g, c := c })
      -- panic
      | some (_, g) => some (.tau, { s with g := g })
      | none => none
    else none
  | _, _ => none

/-- A step of the protocol that touches no buffer. -/
def outside (g : GroupCommit.State N) : GroupCommit.Action N → Bool
  | .run p => match g.pc p with
    | .logTest _ => false
    | c => !c.inCommit
  | _ => true

def exec : Action N H → State N H → Option (Label H × State N H)
  | .bget h b, s => (s.c.bget cfg.dev (.inl h) b).map fun c => (.tau, { s with c := c })
  | .acquiresleep h, s => (s.c.acquiresleep pid (.inl h)).map fun c => (.tau, { s with c := c })
  | .bread h, s =>
    match s.c.user (.inl h) with
    | .locked b _ => (s.c.bread (.inl h)).map fun c =>
        (.bread h b (contents c (.inl h)), { s with c := c })
    | _ => none
  | .modify h v, s =>
    match s.c.user (.inl h) with
    | .held b _ _ =>
      if cfg.Home b then (s.c.modify (.inl h) v).map fun c => (.tau, { s with c := c }) else none
    | _ => none
  | .releasesleep h, s => (s.c.releasesleep pid (.inl h)).map fun c => (.tau, { s with c := c })
  | .brelse h, s => (s.c.brelse (.inl h)).map fun c => (.tau, { s with c := c })
  | .log_write p h, s => logStep cfg p h s
  | .commit p, s => commitStep cfg pid p s
  | .log a, s =>
    if outside s.g a then
      (GroupCommit.exec cfg.size a s.g).map fun r => (.tau, { s with g := r.2 })
    else none

end Steps

/-- A cache nobody uses, whose valid buffers have the contents of the disk. -/
structure Fresh (cfg : Cfg) (d₀ : Nat → Block) (c : Cache (User H)) : Prop where
  disk : c.disk = d₀
  wf : c.bc.WF
  user : ∀ x, c.user x = .idle
  refcnt : ∀ i, (c.bc.buf i).refcnt = 0
  data : ∀ b i, c.bc.Holds cfg.dev b i → (c.bc.buf i).valid = true → (c.bc.buf i).data = d₀ b

/-- The system on a disk with initial contents `d₀`. -/
def system [DecidableEq H] (cfg : Cfg) (pid : User H → Nat) (d₀ : Nat → Block) (N : Nat) :
    System (State N H) (Label H) :=
  ofExec (fun s => s.g = init ∧ s.round = .readLog ∧ Fresh cfg d₀ s.c) (exec cfg pid)

/-- The flat array: the contents last logged for each block. -/
def flat (d₀ : Nat → Block) (tr : List (Label H)) : Nat → Block :=
  tr.foldl (fun d e => match e with
    | .log_write b v => update d b v
    | _ => d) d₀

variable {s : State N H} {k : PC} {ev : Event N} {e : Label H} {tail : Nat}
  {g g' : GroupCommit.State N}

/-! ## 2. Invariant -/

section Invariant

variable {cfg : Cfg} {pid : User H → Nat}

section

variable (c : Cache (User H)) (x : User H)

/-- `x` is on its way through `bread` of block `b`. -/
def Reading (b : Nat) : Prop :=
  c.user x = .idle ∨ ∃ i, c.user x = .waiting b i ∨ c.user x = .locked b i

/-- `x` holds block `b` unchanged. -/
def Clean (b : Nat) : Prop := ∃ i, c.user x = .held b i false

/-- `x` holds block `b`, changed to `v`. -/
def Dirty (b : Nat) (v : Block) : Prop :=
  ∃ i, c.user x = .held b i true ∧ (c.bc.buf i).data = v

/-- `x` is on its way through `brelse`. -/
def Dropping : Prop :=
  ∃ b i, c.user x = .held b i false ∨ c.user x = .released b i

end

/-- The committing process uses no buffer. -/
def Quiet (s : State N H) : Prop :=
  s.round = .readLog ∧ s.c.user logBuf = .idle ∧ s.c.user homeBuf = .idle

section

variable (cfg : Cfg) (L : Nat → Block)

/-- Entry `t` of the header has its block's contents in the log. -/
def SlotOK (lh : List Nat) (t : Nat) : Prop :=
  ∀ b, lh[t]? = some b → L (cfg.slot t) = L b

/-- In `write_log`, at entry `tail`, block `b`. -/
def WriteRound (tail b : Nat) (s : State N H) : Prop :=
  match s.round with
  | .readLog => Reading s.c logBuf (cfg.slot tail) ∧ s.c.user homeBuf = .idle
  | .readHome => Clean s.c logBuf (cfg.slot tail) ∧ Reading s.c homeBuf b
  | .copy => Clean s.c logBuf (cfg.slot tail) ∧ Clean s.c homeBuf b
  | .write => Dirty s.c logBuf (cfg.slot tail) (L b) ∧ Clean s.c homeBuf b
  | .dropFirst => L (cfg.slot tail) = L b ∧ Clean s.c logBuf (cfg.slot tail) ∧ Dropping s.c homeBuf
  | .dropSecond => L (cfg.slot tail) = L b ∧ Dropping s.c logBuf ∧ s.c.user homeBuf = .idle
  | .next => L (cfg.slot tail) = L b ∧ s.c.user logBuf = .idle ∧ s.c.user homeBuf = .idle
  | .unpin => False

/-- In `write_head`. -/
def HeadRound (cfg : Cfg) (s : State N H) : Prop :=
  match s.round with
  | .readLog => Reading s.c logBuf cfg.start ∧ s.c.user homeBuf = .idle
  | .copy => Clean s.c logBuf cfg.start ∧ s.c.user homeBuf = .idle
  | .write => (∃ v, Dirty s.c logBuf cfg.start v) ∧ s.c.user homeBuf = .idle
  | .dropSecond => Dropping s.c logBuf ∧ s.c.user homeBuf = .idle
  | .next => s.c.user logBuf = .idle ∧ s.c.user homeBuf = .idle
  | .readHome | .unpin | .dropFirst => False

/-- In `install_trans`, at entry `tail`, block `b`; `rest` are the entries
    after it. -/
def InstallRound (pins : List Nat) (tail b : Nat) (rest : List Nat) (s : State N H) : Prop :=
  match s.round with
  | .readLog => pins = b :: rest ∧ Reading s.c logBuf (cfg.slot tail) ∧ s.c.user homeBuf = .idle
  | .readHome => pins = b :: rest ∧ Clean s.c logBuf (cfg.slot tail) ∧ Reading s.c homeBuf b
  | .copy => pins = b :: rest ∧ Clean s.c logBuf (cfg.slot tail) ∧ Clean s.c homeBuf b
  | .write => pins = b :: rest ∧ Clean s.c logBuf (cfg.slot tail) ∧ Dirty s.c homeBuf b (L b)
  | .unpin => pins = b :: rest ∧ Clean s.c logBuf (cfg.slot tail) ∧ Clean s.c homeBuf b ∧
      s.c.disk b = L b
  | .dropFirst => pins = rest ∧ Dropping s.c logBuf ∧ Clean s.c homeBuf b
  | .dropSecond => pins = rest ∧ s.c.user logBuf = .idle ∧ Dropping s.c homeBuf
  | .next => pins = rest ∧ s.c.user logBuf = .idle ∧ s.c.user homeBuf = .idle

/-- How far a commit has come when its process is at the given point. -/
def Progress (pins : List Nat) (s : State N H) : PC → Prop
  | .writeLog tail => pins = s.g.lh ∧ s.g.lh ≠ [] ∧ (∀ t, t < tail → SlotOK cfg L s.g.lh t) ∧
      match s.g.lh[tail]? with
      | some b => WriteRound cfg L tail b s
      | none => Quiet s
  | .writeHead => pins = s.g.lh ∧ s.g.lh ≠ [] ∧ (∀ t, SlotOK cfg L s.g.lh t) ∧ HeadRound cfg s
  | .install tail => s.g.lh ≠ [] ∧ (∀ t, SlotOK cfg L s.g.lh t) ∧
      match s.g.lh[tail]? with
      | some b => InstallRound cfg L pins tail b (s.g.lh.drop (tail + 1)) s
      | none => pins = [] ∧ Quiet s
  | .clear => pins = [] ∧ 0 < cfg.size ∧ Quiet s
  | .clearHead => pins = [] ∧ 0 < cfg.size ∧ HeadRound cfg s
  | _ => pins = s.g.lh ∧ Quiet s

end

/-- What holds in every reachable state: `F` is the flat array, `L` extends it
    to the log area, and the blocks of `pins` wait for installation. -/
structure Inv [Fintype H] (cfg : Cfg) (pid : User H → Nat) (F L : Nat → Block) (pins : List Nat)
    (s : State N H) : Prop where
  log : GroupCommit.Inv s.g
  flat : ∀ b, cfg.Home b → L b = F b
  core : Core cfg.dev pid L pins s.c
  nodup : s.g.lh.Nodup
  home : ∀ b ∈ s.g.lh, cfg.Home b
  fits : s.g.lh ≠ [] → s.g.lh.length < cfg.size
  commit : ∀ p, (s.g.pc p).inCommit = true → Progress cfg L pins s (s.g.pc p)
  quiet : (∀ p, (s.g.pc p).inCommit = false) → pins = s.g.lh ∧ Quiet s

/-! ### Steps of other users -/

/-- `x` is where it was, and what it holds has the same contents. -/
def Same (x : User H) (c c' : Cache (User H)) : Prop :=
  c'.user x = c.user x ∧
    ∀ i, (c.user x).owned = some i → (c'.bc.buf i).data = (c.bc.buf i).data

theorem same_of_frame {c c' : Cache (User H)} {x z : User H} (h : Frame z c c') (hx : x ≠ z) :
    Same x c c' := ⟨h.user x hx, fun i => h.data x i hx⟩

variable {c c' : Cache (User H)} {x : User H} {b : Nat} {v : Block} {pins : List Nat}

theorem same_home (h : Frame logBuf c c') : Same homeBuf c c' := same_of_frame h nofun

theorem same_log (h : Frame homeBuf c c') : Same logBuf c c' := same_of_frame h nofun

theorem Same.reading (h : Same x c c') : Reading c' x b ↔ Reading c x b := by
  unfold Reading; rw [h.1]

theorem Same.clean (h : Same x c c') : Clean c' x b ↔ Clean c x b := by
  unfold Clean; rw [h.1]

theorem Same.dropping (h : Same x c c') : Dropping c' x ↔ Dropping c x := by
  unfold Dropping; rw [h.1]

theorem Same.dirty (h : Same x c c') : Dirty c' x b v ↔ Dirty c x b v := by
  unfold Dirty
  rw [h.1]
  refine exists_congr fun i => and_congr_right fun hi => ?_
  rw [h.2 i (by rw [hi]; rfl)]

/-- A commit stands where it was after a step that leaves its buffers and the
    disk alone. -/
theorem Progress.same {L : Nat → Block}
    (h : Progress cfg L pins s k) (h1 : Same logBuf s.c c') (h2 : Same homeBuf s.c c')
    (hd : c'.disk = s.c.disk) : Progress cfg L pins { s with c := c' } k := by
  have key : Progress cfg L pins { s with c := c' } k ↔ Progress cfg L pins s k := by
    unfold Progress WriteRound HeadRound InstallRound Quiet
    simp only [h1.reading, h1.clean, h1.dropping, h1.dirty, h1.1, h2.reading, h2.clean,
      h2.dropping, h2.dirty, h2.1, hd]
  exact key.mpr h

variable [Fintype H]

/-- Steps of the users of the processes. -/
theorem Inv.user {F L : Nat → Block} {z : H} (h : Inv cfg pid F L pins s)
    (hcore : Core cfg.dev pid L pins c') (hf : Frame (.inl z) s.c c') (hd : c'.disk = s.c.disk) :
    Inv cfg pid F L pins { s with c := c' } := by
  refine { h with core := hcore, commit := ?_, quiet := ?_ }
  · exact fun p hp => (h.commit p hp).same (same_of_frame hf nofun) (same_of_frame hf nofun) hd
  · intro hq
    obtain ⟨hp, h1, h2, h3⟩ := h.quiet hq
    exact ⟨hp, h1, (hf.user logBuf nofun).trans h2, (hf.user homeBuf nofun).trans h3⟩

/-! ### Steps of the committing process -/

section CommitSteps

variable {L : Nat → Block} {pins : List Nat} {s s' : State N H} {r : Round}

/-- What a buffer held unchanged contains. -/
theorem Clean.contents (h : Clean s.c x b) (hc : Core cfg.dev pid L pins s.c) :
    FlatDisk.contents s.c x = L b := by
  obtain ⟨i, hi⟩ := h
  unfold FlatDisk.contents
  rw [hi]
  refine hc.data b i (hc.holds x b i (by rw [hi]; rfl)) (hc.valid x b i _ hi) fun y hy => ?_
  have := hc.excl x y i (by rw [hi]; rfl) (by rw [hy]; rfl)
  rw [← this, hi] at hy
  cases hy

variable [DecidableEq H]

section

variable {tail : Nat} {rest : List Nat} (hc : Core cfg.dev pid L pins s.c)
include hc

theorem readStep_spec (hr : Reading s.c x b) (h : readStep cfg pid x b r s = some s') :
    ∃ c', Core cfg.dev pid L pins c' ∧ Frame x s.c c' ∧
      (s' = { s with c := c' } ∧ Reading c' x b ∨
        s' = { s with c := c', round := r } ∧ Clean c' x b) := by
  unfold readStep at h
  rcases hr with hx | ⟨i, hx | hx⟩
  · rw [hx] at h
    obtain ⟨c, hop, rfl⟩ := map_eq_some_iff.mp h
    obtain ⟨h1, h2, -, -, i, hi⟩ := hc.bget hop
    exact ⟨c, h1, h2, Or.inl ⟨rfl, Or.inr ⟨i, Or.inl hi⟩⟩⟩
  · rw [hx] at h
    obtain ⟨c, hop, rfl⟩ := map_eq_some_iff.mp h
    obtain ⟨h1, h2, -, b', j, hj, hi⟩ := hc.acquiresleep cfg.dev_ne hop
    obtain ⟨rfl, rfl⟩ := Stage.waiting.inj (hx.symm.trans hj)
    exact ⟨c, h1, h2, Or.inl ⟨rfl, Or.inr ⟨i, Or.inr hi⟩⟩⟩
  · rw [hx] at h
    obtain ⟨c, hop, rfl⟩ := map_eq_some_iff.mp h
    obtain ⟨h1, h2, -, b', j, hj, hi, -⟩ := hc.bread cfg.dev_ne hop
    obtain ⟨rfl, rfl⟩ := Stage.locked.inj (hx.symm.trans hj)
    exact ⟨c, h1, h2, Or.inr ⟨rfl, i, hi⟩⟩

theorem dropStep_spec (hr : Dropping s.c x) (h : dropStep pid x r s = some s') :
    ∃ c', Core cfg.dev pid L pins c' ∧ Frame x s.c c' ∧
      (s' = { s with c := c' } ∧ Dropping c' x ∨
        s' = { s with c := c', round := r } ∧ c'.user x = .idle) := by
  unfold dropStep at h
  obtain ⟨b, i, hx | hx⟩ := hr
  · rw [hx] at h
    obtain ⟨c, hop, rfl⟩ := map_eq_some_iff.mp h
    obtain ⟨h1, h2, -, b', j, -, hj⟩ := hc.releasesleep cfg.dev_ne hop
    exact ⟨c, h1, h2, Or.inl ⟨rfl, b', j, Or.inr hj⟩⟩
  · rw [hx] at h
    obtain ⟨c, hop, rfl⟩ := map_eq_some_iff.mp h
    obtain ⟨h1, h2, -, -, hi⟩ := hc.brelse hop
    exact ⟨c, h1, h2, Or.inr ⟨rfl, hi⟩⟩

theorem copyStep_spec (hr : Clean s.c x b) (h : copyStep x v s = some s') :
    ∃ c', Core cfg.dev pid L pins c' ∧ Frame x s.c c' ∧ s' = { s with c := c', round := .write } ∧
      Dirty c' x b v := by
  unfold copyStep at h
  obtain ⟨c, hop, rfl⟩ := map_eq_some_iff.mp h
  obtain ⟨h1, h2, -, b', j, e, hj, hi, hd⟩ := hc.modify cfg.dev_ne hop
  obtain ⟨i, hx⟩ := hr
  obtain ⟨rfl, rfl, rfl⟩ := Stage.held.inj (hx.symm.trans hj)
  exact ⟨c, h1, h2, rfl, i, hi, hd⟩

theorem writeStep_spec (hr : Dirty s.c x b v) (h : writeStep pid x r s = some s') :
    ∃ c', Core cfg.dev pid (update L b v) pins c' ∧ Frame x s.c c' ∧ c'.disk = update s.c.disk b v ∧
      s' = { s with c := c', round := r } ∧ Clean c' x b := by
  unfold writeStep at h
  obtain ⟨c, hop, rfl⟩ := map_eq_some_iff.mp h
  obtain ⟨b', j, e, hj, hi, h3, h1, h2⟩ := hc.bwrite cfg.dev_ne hop
  obtain ⟨i, hx, rfl⟩ := hr
  obtain ⟨rfl, rfl, rfl⟩ := Stage.held.inj (hx.symm.trans hj)
  exact ⟨c, h1, h2, h3, rfl, i, hi⟩

/-- A round of `write_log` changes the logical contents of its log block only. -/
theorem write_log_round_spec (hne : b ≠ cfg.slot tail) (hr : WriteRound cfg L tail b s)
    (h : write_log_round cfg pid tail b s = some s') :
    s'.g = s.g ∧
    ∃ L', Core cfg.dev pid L' pins s'.c ∧ (∀ a, a ≠ cfg.slot tail → L' a = L a) ∧
      WriteRound cfg L' tail b s' := by
  obtain ⟨g, c, round⟩ := s
  cases round with
  | readLog =>
    obtain ⟨hlog, hhome⟩ := hr
    obtain ⟨c', h1, h2, ⟨rfl, h3⟩ | ⟨rfl, h3⟩⟩ := readStep_spec hc hlog h
    · exact ⟨rfl, L, h1, fun _ _ => rfl, h3, (same_home h2).1.trans hhome⟩
    · exact ⟨rfl, L, h1, fun _ _ => rfl, h3, Or.inl ((same_home h2).1.trans hhome)⟩
  | readHome =>
    obtain ⟨hlog, hhome⟩ := hr
    obtain ⟨c', h1, h2, ⟨rfl, h3⟩ | ⟨rfl, h3⟩⟩ := readStep_spec hc hhome h
    · exact ⟨rfl, L, h1, fun _ _ => rfl, (same_log h2).clean.mpr hlog, h3⟩
    · exact ⟨rfl, L, h1, fun _ _ => rfl, (same_log h2).clean.mpr hlog, h3⟩
  | copy =>
    obtain ⟨hlog, hhome⟩ := hr
    obtain ⟨c', h1, h2, rfl, h3⟩ := copyStep_spec hc hlog h
    rw [hhome.contents hc] at h3
    exact ⟨rfl, L, h1, fun _ _ => rfl, h3, (same_home h2).clean.mpr hhome⟩
  | write =>
    obtain ⟨hlog, hhome⟩ := hr
    obtain ⟨c', h1, h2, -, rfl, h3⟩ := writeStep_spec hc hlog h
    obtain ⟨i, hi⟩ := (same_home h2).clean.mpr hhome
    refine ⟨rfl, _, h1, fun a ha => update_of_ne ha _ _, ?_, h3, b, i, Or.inl hi⟩
    rw [update_self, update_of_ne hne]
  | dropFirst =>
    obtain ⟨hL, hlog, hhome⟩ := hr
    obtain ⟨c', h1, h2, ⟨rfl, h3⟩ | ⟨rfl, h3⟩⟩ := dropStep_spec hc hhome h
    · exact ⟨rfl, L, h1, fun _ _ => rfl, hL, (same_log h2).clean.mpr hlog, h3⟩
    · obtain ⟨i, hi⟩ := (same_log h2).clean.mpr hlog
      exact ⟨rfl, L, h1, fun _ _ => rfl, hL, ⟨_, i, Or.inl hi⟩, h3⟩
  | dropSecond =>
    obtain ⟨hL, hlog, hhome⟩ := hr
    obtain ⟨c', h1, h2, ⟨rfl, h3⟩ | ⟨rfl, h3⟩⟩ := dropStep_spec hc hlog h
    · exact ⟨rfl, L, h1, fun _ _ => rfl, hL, h3, (same_home h2).1.trans hhome⟩
    · exact ⟨rfl, L, h1, fun _ _ => rfl, hL, h3, (same_home h2).1.trans hhome⟩
  | unpin | next => cases h

/-- `write_head` changes the logical contents of the header block only. -/
theorem write_head_spec (hr : HeadRound cfg s) (h : write_head cfg pid s = some s') :
    s'.g = s.g ∧
    ∃ L', Core cfg.dev pid L' pins s'.c ∧ (∀ a, a ≠ cfg.start → L' a = L a) ∧ HeadRound cfg s' := by
  obtain ⟨g, c, round⟩ := s
  cases round with
  | readLog =>
    obtain ⟨hlog, hhome⟩ := hr
    obtain ⟨c', h1, h2, ⟨rfl, h3⟩ | ⟨rfl, h3⟩⟩ := readStep_spec hc hlog h
    · exact ⟨rfl, L, h1, fun _ _ => rfl, h3, (same_home h2).1.trans hhome⟩
    · exact ⟨rfl, L, h1, fun _ _ => rfl, h3, (same_home h2).1.trans hhome⟩
  | copy =>
    obtain ⟨hlog, hhome⟩ := hr
    obtain ⟨c', h1, h2, rfl, h3⟩ := copyStep_spec hc hlog h
    exact ⟨rfl, L, h1, fun _ _ => rfl, ⟨_, h3⟩, (same_home h2).1.trans hhome⟩
  | write =>
    obtain ⟨⟨v, hlog⟩, hhome⟩ := hr
    obtain ⟨c', h1, h2, -, rfl, i, h3⟩ := writeStep_spec hc hlog h
    exact ⟨rfl, _, h1, fun a ha => update_of_ne ha _ _, ⟨_, i, Or.inl h3⟩,
      (same_home h2).1.trans hhome⟩
  | dropSecond =>
    obtain ⟨hlog, hhome⟩ := hr
    obtain ⟨c', h1, h2, ⟨rfl, h3⟩ | ⟨rfl, h3⟩⟩ := dropStep_spec hc hlog h
    · exact ⟨rfl, L, h1, fun _ _ => rfl, h3, (same_home h2).1.trans hhome⟩
    · exact ⟨rfl, L, h1, fun _ _ => rfl, h3, (same_home h2).1.trans hhome⟩
  | readHome | unpin | dropFirst | next => cases h

/-- A round of `install_trans` changes no logical contents: it brings the disk
    up to date and unpins. -/
theorem install_trans_round_spec (hslot : L (cfg.slot tail) = L b) (hrest : b ∉ rest)
    (hr : InstallRound cfg L pins tail b rest s)
    (h : install_trans_round cfg pid tail b s = some s') :
    s'.g = s.g ∧
    ∃ pins', Core cfg.dev pid L pins' s'.c ∧ InstallRound cfg L pins' tail b rest s' := by
  obtain ⟨g, c, round⟩ := s
  cases round with
  | readLog =>
    obtain ⟨hpins, hlog, hhome⟩ := hr
    obtain ⟨c', h1, h2, ⟨rfl, h3⟩ | ⟨rfl, h3⟩⟩ := readStep_spec hc hlog h
    · exact ⟨rfl, pins, h1, hpins, h3, (same_home h2).1.trans hhome⟩
    · exact ⟨rfl, pins, h1, hpins, h3, Or.inl ((same_home h2).1.trans hhome)⟩
  | readHome =>
    obtain ⟨hpins, hlog, hhome⟩ := hr
    obtain ⟨c', h1, h2, ⟨rfl, h3⟩ | ⟨rfl, h3⟩⟩ := readStep_spec hc hhome h
    · exact ⟨rfl, pins, h1, hpins, (same_log h2).clean.mpr hlog, h3⟩
    · exact ⟨rfl, pins, h1, hpins, (same_log h2).clean.mpr hlog, h3⟩
  | copy =>
    obtain ⟨hpins, hlog, hhome⟩ := hr
    obtain ⟨c', h1, h2, rfl, h3⟩ := copyStep_spec hc hhome h
    rw [hlog.contents hc, hslot] at h3
    exact ⟨rfl, pins, h1, hpins, (same_log h2).clean.mpr hlog, h3⟩
  | write =>
    obtain ⟨hpins, hlog, hhome⟩ := hr
    obtain ⟨c', h1, h2, hd, rfl, h3⟩ := writeStep_spec hc hhome h
    rw [update_eq_self] at h1
    refine ⟨rfl, pins, h1, hpins, (same_log h2).clean.mpr hlog, h3, ?_⟩
    rw [hd, update_self]
  | unpin =>
    obtain ⟨hpins, hlog, ⟨i, hi⟩, hdisk⟩ := hr
    obtain ⟨c', hop, rfl⟩ := map_eq_some_iff.mp h
    have hnew : ∀ b', b' ∈ rest ↔ b' ∈ pins ∧ b' ≠ b := by
      intro b'
      rw [hpins, mem_cons]
      constructor
      · intro hb'; exact ⟨Or.inr hb', fun e => hrest (e ▸ hb')⟩
      · rintro ⟨rfl | hb', hne⟩
        · exact absurd rfl hne
        · exact hb'
    obtain ⟨h1, h2, h4⟩ := hc.bunpin cfg.dev_ne hi (by rw [hpins]; exact mem_cons_self)
      hdisk hnew hop
    obtain ⟨j, hj⟩ := (same_log h2).clean.mpr hlog
    exact ⟨rfl, rest, h1, rfl, ⟨_, j, Or.inl hj⟩, i, by rw [← hi]; exact congrFun h4 _⟩
  | dropFirst =>
    obtain ⟨hpins, hlog, hhome⟩ := hr
    obtain ⟨c', h1, h2, ⟨rfl, h3⟩ | ⟨rfl, h3⟩⟩ := dropStep_spec hc hlog h
    · exact ⟨rfl, pins, h1, hpins, h3, (same_home h2).clean.mpr hhome⟩
    · obtain ⟨i, hi⟩ := (same_home h2).clean.mpr hhome
      exact ⟨rfl, pins, h1, hpins, h3, _, i, Or.inl hi⟩
  | dropSecond =>
    obtain ⟨hpins, hlog, hhome⟩ := hr
    obtain ⟨c', h1, h2, ⟨rfl, h3⟩ | ⟨rfl, h3⟩⟩ := dropStep_spec hc hhome h
    · exact ⟨rfl, pins, h1, hpins, (same_log h2).1.trans hlog, h3⟩
    · exact ⟨rfl, pins, h1, hpins, (same_log h2).1.trans hlog, h3⟩
  | next => cases h

end

end CommitSteps

/-! ### Steps that keep the invariant -/

section Preservation

variable {F L : Nat → Block} {pins : List Nat} {s s' : State N H} {p : Fin N}

theorem not_home_start (hs : 0 < cfg.size) : ¬ cfg.Home cfg.start := by
  unfold Cfg.Home
  omega

omit [Fintype H] in
/-- `install_trans` at the entry after `tail`, or past the last one. -/
theorem installRound_start {t : State N H} (hround : t.round = .readLog)
    (h1 : t.c.user logBuf = .idle) (h2 : t.c.user homeBuf = .idle) :
    match t.g.lh[tail]? with
    | some b => InstallRound cfg L (t.g.lh.drop tail) tail b (t.g.lh.drop (tail + 1)) t
    | none => t.g.lh.drop tail = [] ∧ Quiet t := by
  cases hb : t.g.lh[tail]? with
  | some b =>
    obtain ⟨hlt, hget⟩ := List.getElem?_eq_some_iff.mp hb
    dsimp only
    unfold InstallRound
    rw [hround, List.drop_eq_getElem_cons hlt, hget]
    exact ⟨rfl, Or.inl h1, h2⟩
  | none =>
    exact ⟨List.drop_eq_nil_iff.mpr (List.getElem?_eq_none_iff.mp hb), hround, h1, h2⟩

section

variable (h : Inv cfg pid F L pins s) {lh : List Nat}
include h

/-- At most one process is in `commit`. -/
theorem Inv.committer_unique {q : Fin N} (hp : (s.g.pc p).inCommit = true)
    (hq : (s.g.pc q).inCommit = true) : q = p :=
  h.log.one q p (PC.committer_of_inCommit hq) (PC.committer_of_inCommit hp)

/-- How far the commit of a process in `commit` has come. -/
theorem Inv.progress (hpc : s.g.pc p = k) (hk : k.inCommit = true) :
    (s.g.pc p).inCommit = true ∧ Progress cfg L pins s k := by
  subst hpc
  exact ⟨hk, h.commit p hk⟩

/-- A step of the committing process inside a round. -/
theorem Inv.commitRound (hp : (s.g.pc p).inCommit = true) {L' : Nat → Block} {pins' : List Nat}
    (hg : s'.g = s.g) (hcore : Core cfg.dev pid L' pins' s'.c)
    (hflat : ∀ b, cfg.Home b → L' b = L b) (hprog : Progress cfg L' pins' s' (s.g.pc p)) :
    Inv cfg pid F L' pins' s' where
  log := hg ▸ h.log
  flat := fun b hb => (hflat b hb).trans (h.flat b hb)
  core := hcore
  nodup := hg ▸ h.nodup
  home := hg ▸ h.home
  fits := hg ▸ h.fits
  commit := by
    intro q hq
    rw [hg] at hq ⊢
    rw [h.committer_unique hp hq]
    exact hprog
  quiet := by
    intro hq
    rw [hg] at hq
    have := hq p
    rw [hp] at this
    cases this

/-- A step of the committing process to its next program point. -/
theorem Inv.advance (hp : (s.g.pc p).inCommit = true)
    (hlog : GroupCommit.Inv { s.g.goto p k with lh := lh }) (hlh : lh = s.g.lh ∨ lh = [])
    (hprog : k.inCommit = true →
      Progress cfg L pins { s with g := { s.g.goto p k with lh := lh }, round := .readLog } k)
    (hdone : k.inCommit = false → pins = lh) (h1 : s.c.user logBuf = .idle)
    (h2 : s.c.user homeBuf = .idle) :
    Inv cfg pid F L pins { s with g := { s.g.goto p k with lh := lh }, round := .readLog } where
  log := hlog
  flat := h.flat
  core := h.core
  nodup := by
    rcases hlh with rfl | rfl
    · exact h.nodup
    · exact nodup_nil
  home := by
    rcases hlh with rfl | rfl
    · exact h.home
    · nofun
  fits := by
    rcases hlh with rfl | rfl
    · exact h.fits
    · exact fun hne => absurd rfl hne
  commit := by
    intro q hq
    have hqp : q = p := by
      by_contra hne
      have hq' : (s.g.pc q).inCommit = true := by
        rw [← State.goto_ne s.g k hne]; exact hq
      exact hne (h.committer_unique hp hq')
    subst hqp
    have hk : (GroupCommit.State.pc { s.g.goto q k with lh := lh } q) = k := State.goto_self s.g q k
    dsimp only at hq ⊢
    rw [hk] at hq ⊢
    exact hprog hq
  quiet := by
    intro hq
    refine ⟨hdone ?_, rfl, h1, h2⟩
    rw [← State.goto_self s.g p k]
    exact hq p

theorem not_home_slot {t : Nat} (ht : t < s.g.lh.length) : ¬ cfg.Home (cfg.slot t) := by
  have hne : s.g.lh ≠ [] := ne_nil_of_length_pos (by omega)
  have := h.fits hne
  unfold Cfg.Home Cfg.slot
  omega

theorem Inv.size_pos (hne : s.g.lh ≠ []) : 0 < cfg.size := by
  have := h.fits hne
  omega

/-- What a step of `commit` establishes; a `commit` that returns leaves the
    flat array on the disk. -/
def CommitPost (cfg : Cfg) (pid : User H → Nat) (F : Nat → Block) (e : Label H) (s' : State N H) :
    Prop :=
  (∃ L' pins', Inv cfg pid F L' pins' s') ∧
    (e = .tau ∨ e = .committed ∧ ∀ b, cfg.Home b → s'.c.disk b = F b)

/-- The committing process goes on to `k`, with the header `lh`. -/
theorem Inv.advance_post (hp : (s.g.pc p).inCommit = true)
    (hrun : run cfg.size p s.g = some (ev, { s.g.goto p k with lh := lh }))
    (hlh : lh = s.g.lh ∨ lh = [])
    (hprog : k.inCommit = true →
      Progress cfg L pins { s with g := { s.g.goto p k with lh := lh }, round := .readLog } k)
    (hdone : k.inCommit = false → pins = lh) (hend : k = .commitAcquire → pins = [])
    (h1 : s.c.user logBuf = .idle) (h2 : s.c.user homeBuf = .idle)
    (hop : FlatDisk.advance cfg p s = some (e, s')) : CommitPost cfg pid F e s' := by
  unfold FlatDisk.advance at hop
  rw [hrun] at hop
  cases hop
  refine ⟨⟨L, pins, h.advance hp (h.log.move (move_of_run hrun)) hlh hprog hdone h1 h2⟩, ?_⟩
  dsimp only
  split
  · next hk =>
    have hk' : k = .commitAcquire := by
      rw [← hk]; exact (State.goto_self s.g p k).symm
    refine Or.inr ⟨rfl, fun b hb => ?_⟩
    rw [← h.flat b hb]
    exact h.core.disk b (by rw [hend hk']; nofun)
  · exact Or.inl rfl

theorem commit_commitTest (hpc : s.g.pc p = .commitTest)
    (hop : FlatDisk.advance cfg p s = some (e, s')) : CommitPost cfg pid F e s' := by
  obtain ⟨hp, hpins, hround, h1, h2⟩ := h.progress hpc rfl
  by_cases hlen : s.g.lh.length > 0
  · have hrun : run cfg.size p s.g = some (.tau, s.g.goto p (.writeLog 0)) := by
      simp only [run, hpc, if_pos hlen]
    refine h.advance_post hp hrun (Or.inl rfl) (fun _ => ?_) nofun nofun h1 h2 hop
    refine ⟨hpins, ne_nil_of_length_pos hlen, nofun, ?_⟩
    split
    · exact ⟨Or.inl h1, h2⟩
    · exact ⟨rfl, h1, h2⟩
  · have hnil : s.g.lh = [] := length_eq_zero_iff.mp (by omega)
    have hrun : run cfg.size p s.g = some (.tau, s.g.goto p .commitAcquire) := by
      simp only [run, hpc, if_neg hlen]
    exact h.advance_post hp hrun (Or.inl rfl) nofun (fun _ => hpins) (fun _ => hpins.trans hnil)
      h1 h2 hop

theorem commit_clear (hpc : s.g.pc p = .clear) (hop : FlatDisk.advance cfg p s = some (e, s')) :
    CommitPost cfg pid F e s' := by
  obtain ⟨hp, hpins, hsize, -, h1, h2⟩ := h.progress hpc rfl
  have hrun : run cfg.size p s.g = some (.tau, { s.g.goto p .clearHead with lh := [] }) := by
    simp only [run, hpc]
  exact h.advance_post hp hrun (Or.inr rfl) (fun _ => ⟨hpins, hsize, Or.inl h1, h2⟩) nofun nofun
    h1 h2 hop

variable [DecidableEq H] (hop : FlatDisk.commitStep cfg pid p s = some (e, s'))
include hop

theorem commit_writeLog (hpc : s.g.pc p = .writeLog tail) : CommitPost cfg pid F e s' := by
  obtain ⟨hp, hpins, hne, hslots, hround⟩ := h.progress hpc rfl
  simp only [FlatDisk.commitStep, hpc] at hop
  cases hb : s.g.lh[tail]? with
  | some b =>
    rw [hb] at hround
    simp only [hb] at hop
    have htail : tail < s.g.lh.length := (List.getElem?_eq_some_iff.mp hb).1
    have hmem : b ∈ s.g.lh := List.mem_of_getElem? hb
    have hbne : b ≠ cfg.slot tail := fun e => not_home_slot h htail (e ▸ h.home b hmem)
    by_cases hnext : s.round = .next
    · -- the entry is in the log
      rw [if_pos hnext] at hop
      unfold WriteRound at hround
      rw [hnext] at hround
      obtain ⟨hslot, h1, h2⟩ := hround
      have hrun : run cfg.size p s.g = some (.tau, s.g.goto p (.writeLog (tail + 1))) := by
        simp only [run, hpc, if_pos htail]
      refine h.advance_post hp hrun (Or.inl rfl) (fun _ => ?_) nofun nofun h1 h2 hop
      refine ⟨hpins, hne, fun t ht => ?_, ?_⟩
      · by_cases htt : t = tail
        · subst htt
          intro b' hb'
          rw [show s.g.lh[t]? = some b' from hb'] at hb
          cases hb
          exact hslot
        · exact hslots t (by omega)
      · split
        · exact ⟨Or.inl h1, h2⟩
        · exact ⟨rfl, h1, h2⟩
    · rw [if_neg hnext] at hop
      obtain ⟨s1, hr, heq⟩ := map_eq_some_iff.mp hop
      cases heq
      obtain ⟨hg, L', hcore, hL, hr'⟩ := write_log_round_spec h.core hbne hround hr
      have hflat : ∀ a, cfg.Home a → L' a = L a :=
        fun a ha => hL a fun e => not_home_slot h htail (e ▸ ha)
      refine ⟨⟨L', pins, h.commitRound hp hg hcore hflat ?_⟩, Or.inl rfl⟩
      rw [hpc]
      refine ⟨by rw [hg]; exact hpins, by rw [hg]; exact hne, fun t ht b' hb' => ?_, ?_⟩
      · rw [hg] at hb'
        rw [hflat b' (h.home b' (List.mem_of_getElem? hb')), hL _ (by unfold Cfg.slot; omega)]
        exact hslots t ht b' hb'
      · rw [hg, hb]
        exact hr'
  | none =>
    rw [hb] at hround
    simp only [hb] at hop
    obtain ⟨-, h1, h2⟩ := hround
    have htail : ¬ tail < s.g.lh.length := by
      have := List.getElem?_eq_none_iff.mp hb; omega
    have hrun : run cfg.size p s.g = some (.tau, s.g.goto p .writeHead) := by
      simp only [run, hpc, if_neg htail]
    refine h.advance_post hp hrun (Or.inl rfl) (fun _ => ?_) nofun nofun h1 h2 hop
    refine ⟨hpins, hne, fun t b hb => ?_, Or.inl h1, h2⟩
    have ht : t < s.g.lh.length := (List.getElem?_eq_some_iff.mp hb).1
    exact hslots t (by omega) b hb

theorem commit_writeHead (hpc : s.g.pc p = .writeHead) : CommitPost cfg pid F e s' := by
  obtain ⟨hp, hpins, hne, hslots, hround⟩ := h.progress hpc rfl
  simp only [FlatDisk.commitStep, hpc] at hop
  by_cases hnext : s.round = .next
  · rw [if_pos hnext] at hop
    rw [HeadRound, hnext] at hround
    obtain ⟨h1, h2⟩ := hround
    have hrun : run cfg.size p s.g = some (.commit s.g.lh, s.g.goto p (.install 0)) := by
      simp only [run, hpc]
    refine h.advance_post hp hrun (Or.inl rfl) (fun _ => ?_) nofun nofun h1 h2 hop
    refine ⟨hne, hslots, ?_⟩
    obtain ⟨b, rest, hcons⟩ := exists_cons_of_ne_nil hne
    dsimp only [State.goto]
    rw [hpins, hcons]
    exact ⟨rfl, Or.inl h1, h2⟩
  · rw [if_neg hnext] at hop
    obtain ⟨s1, hr, heq⟩ := map_eq_some_iff.mp hop
    cases heq
    obtain ⟨hg, L', hcore, hL, hr'⟩ := write_head_spec h.core hround hr
    have hflat : ∀ a, cfg.Home a → L' a = L a :=
      fun a ha => hL a fun e => not_home_start (h.size_pos hne) (e ▸ ha)
    refine ⟨⟨L', pins, h.commitRound hp hg hcore hflat ?_⟩, Or.inl rfl⟩
    rw [hpc]
    refine ⟨by rw [hg]; exact hpins, by rw [hg]; exact hne, fun t b hb => ?_, hr'⟩
    rw [hg] at hb
    rw [hflat b (h.home b (mem_of_getElem? hb)), hL _ (by unfold Cfg.slot; omega)]
    exact hslots t b hb

theorem commit_install (hpc : s.g.pc p = .install tail) : CommitPost cfg pid F e s' := by
  obtain ⟨hp, hne, hslots, hround⟩ := h.progress hpc rfl
  simp only [FlatDisk.commitStep, hpc] at hop
  cases hb : s.g.lh[tail]? with
  | some b =>
    rw [hb] at hround
    simp only [hb] at hop
    obtain ⟨htail, hget⟩ := List.getElem?_eq_some_iff.mp hb
    by_cases hnext : s.round = .next
    · rw [if_pos hnext] at hop
      unfold InstallRound at hround
      rw [hnext] at hround
      obtain ⟨hpins, h1, h2⟩ := hround
      have hrun : run cfg.size p s.g = some (.tau, s.g.goto p (.install (tail + 1))) := by
        simp only [run, hpc, if_pos htail]
      refine h.advance_post hp hrun (Or.inl rfl) (fun _ => ?_) nofun nofun h1 h2 hop
      refine ⟨hne, hslots, ?_⟩
      rw [hpins]
      exact installRound_start rfl h1 h2
    · rw [if_neg hnext] at hop
      obtain ⟨s1, hr, heq⟩ := map_eq_some_iff.mp hop
      cases heq
      -- the entries after this one are other blocks
      have hrest : b ∉ s.g.lh.drop (tail + 1) := by
        have hnd := h.nodup.sublist (List.drop_sublist tail s.g.lh)
        rw [List.drop_eq_getElem_cons htail, hget] at hnd
        exact (List.nodup_cons.mp hnd).1
      obtain ⟨hg, pins', hcore, hr'⟩ :=
        install_trans_round_spec h.core (hslots tail b hb) hrest hround hr
      refine ⟨⟨L, pins', h.commitRound hp hg hcore (fun _ _ => rfl) ?_⟩, Or.inl rfl⟩
      rw [hpc]
      refine ⟨by rw [hg]; exact hne, by rw [hg]; exact hslots, ?_⟩
      rw [hg, hb]
      exact hr'
  | none =>
    rw [hb] at hround
    simp only [hb] at hop
    obtain ⟨hpins, -, h1, h2⟩ := hround
    have htail : ¬ tail < s.g.lh.length := by
      have := List.getElem?_eq_none_iff.mp hb; omega
    have hrun : run cfg.size p s.g = some (.tau, s.g.goto p .clear) := by
      simp only [run, hpc, if_neg htail]
    exact h.advance_post hp hrun (Or.inl rfl) (fun _ => ⟨hpins, h.size_pos hne, rfl, h1, h2⟩)
      nofun nofun h1 h2 hop

theorem commit_clearHead (hpc : s.g.pc p = .clearHead) : CommitPost cfg pid F e s' := by
  obtain ⟨hp, hpins, hsize, hround⟩ := h.progress hpc rfl
  simp only [FlatDisk.commitStep, hpc] at hop
  by_cases hnext : s.round = .next
  · rw [if_pos hnext] at hop
    rw [HeadRound, hnext] at hround
    obtain ⟨h1, h2⟩ := hround
    have hnil : s.g.lh = [] := h.log.cleared p (by rw [hpc]; rfl)
    have hrun : run cfg.size p s.g = some (.tau, s.g.goto p .commitAcquire) := by
      simp only [run, hpc]
    exact h.advance_post hp hrun (Or.inl rfl) nofun (fun _ => hpins.trans hnil.symm)
      (fun _ => hpins) h1 h2 hop
  · rw [if_neg hnext] at hop
    obtain ⟨s1, hr, heq⟩ := map_eq_some_iff.mp hop
    cases heq
    obtain ⟨hg, L', hcore, hL, hr'⟩ := write_head_spec h.core hround hr
    have hflat : ∀ a, cfg.Home a → L' a = L a :=
      fun a ha => hL a fun e => not_home_start hsize (e ▸ ha)
    refine ⟨⟨L', pins, h.commitRound hp hg hcore hflat ?_⟩, Or.inl rfl⟩
    rw [hpc]
    exact ⟨hpins, hsize, hr'⟩

theorem Inv.commitStep : CommitPost cfg pid F e s' := by
  cases hpc : s.g.pc p with
  | commitTest =>
    simp only [FlatDisk.commitStep, hpc] at hop
    exact commit_commitTest h hpc hop
  | writeLog tail => exact commit_writeLog h hop hpc
  | writeHead => exact commit_writeHead h hop hpc
  | install tail => exact commit_install h hop hpc
  | clear =>
    simp only [FlatDisk.commitStep, hpc] at hop
    exact commit_clear h hpc hop
  | clearHead => exact commit_clearHead h hop hpc
  | out | beginAcquire | beginTest | sleepLocked | sleepUnlocked | asleep | woken | inOp
  | logAcquire _ | logTest _ | endAcquire | endTest | endWake _ | commitAcquire | commitDone
  | commitWake _ | panic _ => simp [FlatDisk.commitStep, hpc] at hop

end

/-- A step outside of `commit` and of the section of `log_write`: the header
    stays, and a commit may at most be about to start. -/
def Outside (g g' : GroupCommit.State N) : Prop :=
  g'.lh = g.lh ∧ ∀ q, g'.pc q = g.pc q ∨
    ((g.pc q).inCommit = false ∧ ((g'.pc q).inCommit = true → g'.pc q = .commitTest))

theorem outside_goto (hlh : g'.lh = g.lh) (hpc : g'.pc = (g.goto p k).pc)
    (hp : (g.pc p).inCommit = false) (hk : k.inCommit = true → k = .commitTest) : Outside g g' := by
  refine ⟨hlh, fun q => ?_⟩
  rw [hpc]
  by_cases hq : q = p
  · subst hq
    rw [State.goto_self]
    exact Or.inr ⟨hp, hk⟩
  · exact Or.inl (State.goto_ne g k hq)

theorem outside_wakeup {k : Nat} {c : PC} (hp : (g.pc p).inCommit = false) (hc : c.inCommit = false)
    (h : wakeup g p k c = some (ev, g')) : Outside g g' := by
  have hstep : Outside g (g.goto p c) :=
    outside_goto rfl rfl hp (fun e => by rw [hc] at e; cases e)
  unfold wakeup at h
  split at h
  · next hk =>
    dsimp only at h
    split at h
    · cases h
      exact hstep
    · next hne =>
      split at h
      · cases h
      · cases h
      · next hasleep =>
        cases h
        refine ⟨rfl, fun q => ?_⟩
        by_cases hqp : q = p
        · subst hqp
          rw [State.goto_self]
          exact Or.inr ⟨hp, fun e => by rw [hc] at e; cases e⟩
        · rw [State.goto_ne _ _ hqp]
          by_cases hqk : q = ⟨k, hk⟩
          · subst hqk
            rw [State.goto_self, hasleep]
            exact Or.inr ⟨rfl, nofun⟩
          · exact Or.inl (State.goto_ne g _ hqk)
      · cases h
        exact hstep
  · cases h
    exact outside_goto rfl rfl hp nofun

theorem outside_acquire {c : PC} (hp : (g.pc p).inCommit = false) (hc : c.inCommit = false)
    (h : g.acquire p c = some (ev, g')) : Outside g g' := by
  obtain ⟨-, h⟩ := ite_none_right_eq_some.mp h
  cases h
  exact outside_goto rfl rfl hp (fun e => by rw [hc] at e; cases e)

theorem outside_spec {size : Nat} {a : GroupCommit.Action N} (ho : outside g a = true)
    (h : GroupCommit.exec size a g = some (ev, g')) : Outside g g' := by
  cases a with
  | begin_op p | log_write p b | end_op p | kill p =>
    obtain ⟨hpc, h⟩ := ite_none_right_eq_some.mp h
    cases h
    exact outside_goto rfl rfl (by rw [hpc]; rfl) fun e => by cases e
  | run p =>
    simp only [GroupCommit.exec, run] at h
    cases hpc : g.pc p with
    | out | inOp | asleep | panic _ => simp [hpc] at h
    | beginAcquire | woken | logAcquire _ | endAcquire | commitAcquire =>
      simp only [hpc] at h
      exact outside_acquire (by rw [hpc]; rfl) rfl h
    | endWake k | commitWake k =>
      simp only [hpc] at h
      exact outside_wakeup (by rw [hpc]; rfl) rfl h
    | beginTest =>
      simp only [hpc] at h
      split at h
      · cases h
        exact outside_goto rfl rfl (by rw [hpc]; rfl) fun e => by cases e
      · split at h <;>
        · cases h
          exact outside_goto rfl rfl (by rw [hpc]; rfl) fun e => by cases e
    | sleepLocked | sleepUnlocked | commitDone =>
      simp only [hpc] at h
      cases h
      exact outside_goto rfl rfl (by rw [hpc]; rfl) fun e => by cases e
    | endTest =>
      simp only [hpc] at h
      split at h
      · cases h
        exact outside_goto rfl rfl (by rw [hpc]; rfl) fun e => by cases e
      · split at h <;>
        · cases h
          exact outside_goto rfl rfl (by rw [hpc]; rfl)
            (by first | exact fun _ => rfl | exact fun e => by cases e)
    | logTest b | commitTest | writeLog _ | writeHead | install _ | clear | clearHead =>
      simp [outside, hpc, PC.inCommit] at ho

section

variable {g' : GroupCommit.State N} {z : H} {b : Nat} {i : Fin NBUF} {d : Bool} {q : Fin N}
  {c' : Cache (User H)} {e : Label H} {a : Action N H} (h : Inv cfg pid F L pins s)
include h

/-- Steps of the protocol that touch no buffer. -/
theorem Inv.outside (hlog : GroupCommit.Inv g') (ho : Outside s.g g') :
    Inv cfg pid F L pins { s with g := g' } where
  log := hlog
  flat := h.flat
  core := h.core
  nodup := by rw [show g'.lh = s.g.lh from ho.1]; exact h.nodup
  home := by rw [show g'.lh = s.g.lh from ho.1]; exact h.home
  fits := by rw [show g'.lh = s.g.lh from ho.1]; exact h.fits
  commit := by
    intro p hp
    dsimp only at hp ⊢
    have hprog : ∀ k, Progress cfg L pins s k → Progress cfg L pins { s with g := g' } k := by
      intro k hk
      unfold Progress WriteRound HeadRound InstallRound Quiet at hk ⊢
      dsimp only at hk ⊢
      rw [ho.1]
      exact hk
    rcases ho.2 p with heq | ⟨hold, hstart⟩
    · rw [heq] at hp ⊢
      exact hprog _ (h.commit p hp)
    · -- the commit is about to start, so no other one is running
      rw [hstart hp]
      apply hprog
      have hnone : ∀ q, (s.g.pc q).inCommit = false := by
        intro q
        cases hq : (s.g.pc q).inCommit with
        | false => rfl
        | true =>
          rcases ho.2 q with heq | ⟨hq', -⟩
          · have hqp : q = p := hlog.one q p
              (PC.committer_of_inCommit (by rw [heq]; exact hq)) (PC.committer_of_inCommit hp)
            rw [hqp, hold] at hq
            cases hq
          · rw [hq] at hq'; cases hq'
      exact h.quiet hnone
  quiet := by
    intro hq
    dsimp only at hq
    have hnone : ∀ q, (s.g.pc q).inCommit = false := by
      intro q
      rcases ho.2 q with heq | ⟨hq', -⟩
      · rw [← heq]; exact hq q
      · exact hq'
    obtain ⟨hpins, hquiet⟩ := h.quiet hnone
    exact ⟨hpins.trans ho.1.symm, hquiet⟩

/-- Nobody commits while a process is in `log_write`. -/
theorem Inv.none_commits (hp : (s.g.pc p).active = true) (q : Fin N) :
    (s.g.pc q).inCommit = false := by
  cases hq : (s.g.pc q).inCommit with
  | false => rfl
  | true =>
    have hcom := h.log.committing_of (PC.committer_of_inCommit hq)
    rw [h.log.not_committing hp] at hcom
    cases hcom

/-- `log_write`: the block joins the header and is pinned, and its contents
    become the logical ones. -/
theorem Inv.logWrite [DecidableEq H] (hpc : s.g.pc p = .logTest b)
    (hx : s.c.user (.inl z) = .held b i d) (hb : cfg.Home b)
    (hrun : run cfg.size p s.g = some (.logged q b, g'))
    (hop : s.c.logWrite (.inl z) (decide (b ∉ s.g.lh)) = some c') :
    ∃ L' pins', Inv cfg pid (update F b (contents s.c (.inl z))) L' pins'
        { s with g := g', c := c' } := by
  have hnone := h.none_commits (p := p) (by rw [hpc]; rfl)
  obtain ⟨rfl, hround, h1, h2⟩ := h.quiet hnone
  -- the step of the protocol
  have hg : g' = { (s.g.goto p .inOp).release with lh := addBlock s.g.lh b } ∧
      s.g.lh.length < cfg.size - 1 := by
    simp only [run, hpc] at hrun
    split at hrun
    · cases hrun
    · next hroom =>
      split at hrun
      · cases hrun
      · exact ⟨(Prod.mk.inj (some.inj hrun)).2.symm, by omega⟩
  obtain ⟨hg, hroom⟩ := hg
  have hlh : g'.lh = addBlock s.g.lh b := by rw [hg]
  have hdata : contents s.c (.inl z) = (s.c.bc.buf i).data := by unfold contents; rw [hx]
  obtain ⟨hcore, hframe⟩ := h.core.logWrite cfg.dev_ne hx (by simp) hop
  refine ⟨_, g'.lh, h.log.move (move_of_run hrun), ?_, hcore.congr_pins ?_, ?_, ?_, ?_, ?_, ?_⟩
  · intro a ha
    rw [hdata]
    by_cases hab : a = b
    · subst hab; rw [update_self, update_self]
    · rw [update_of_ne hab, update_of_ne hab]
      exact h.flat a ha
  · intro a
    rw [hlh, mem_addBlock]
    by_cases hbl : b ∈ s.g.lh
    · simp only [hbl, not_true_eq_false, decide_false, Bool.false_eq_true, if_false]
      exact ⟨fun e => e.elim (fun e => e ▸ hbl) id, Or.inr⟩
    · simp only [hbl, not_false_eq_true, decide_true, if_true, mem_cons]
  · show g'.lh.Nodup
    rw [hlh]
    unfold addBlock
    split
    · exact h.nodup
    · next hbl => exact nodup_append.mpr ⟨h.nodup, nodup_singleton b, by
        rintro x hx' y hy rfl
        exact hbl (mem_singleton.mp hy ▸ hx')⟩
  · intro a ha
    have ha' : a ∈ addBlock s.g.lh b := hlh ▸ ha
    rcases mem_addBlock.mp ha' with rfl | ha'
    · exact hb
    · exact h.home a ha'
  · intro _
    show g'.lh.length < cfg.size
    rw [hlh]
    unfold addBlock
    split
    · omega
    · rw [length_append, length_singleton]; omega
  · intro r hr
    have hr' : (s.g.pc r).inCommit = true := by
      have hr0 : (g'.pc r).inCommit = true := hr
      rw [hg] at hr0
      rcases class_goto_imp hr0 with hr1 | ⟨-, hr1⟩
      · exact hr1
      · cases hr1
    rw [hnone r] at hr'
    cases hr'
  · intro _
    exact ⟨rfl, hround, (hframe.user logBuf nofun).trans h1, (hframe.user homeBuf nofun).trans h2⟩

theorem Inv.logStep [DecidableEq H] (hop : FlatDisk.logStep cfg p z s = some (e, s')) :
    (e = .tau ∧ ∃ L' pins', Inv cfg pid F L' pins' s') ∨
    ∃ b v, e = .log_write b v ∧ ∃ L' pins', Inv cfg pid (update F b v) L' pins' s' := by
  unfold FlatDisk.logStep at hop
  split at hop
  · next b b' i d hpc hx =>
    obtain ⟨hb, hop⟩ := ite_none_right_eq_some.mp hop
    obtain ⟨rfl, hhome⟩ := hb
    split at hop
    · next q b'' g hrun =>
      -- the block that is logged is the one at the program point
      obtain rfl : b'' = b' := by
        simp only [run, hpc] at hrun
        split at hrun
        · cases hrun
        · split at hrun
          · cases hrun
          · exact (Event.logged.inj (Prod.mk.inj (some.inj hrun)).1).2.symm
      obtain ⟨c', hw, heq⟩ := map_eq_some_iff.mp hop
      cases heq
      exact Or.inr ⟨_, _, rfl, h.logWrite hpc hx hhome hrun hw⟩
    · next ev g hnot hrun =>
      cases hop
      refine Or.inl ⟨rfl, L, pins, h.outside (h.log.move (move_of_run hrun)) ?_⟩
      simp only [run, hpc] at hrun
      split at hrun
      · obtain ⟨-, rfl⟩ := Prod.mk.inj (some.inj hrun)
        exact outside_goto rfl rfl (by rw [hpc]; rfl) nofun
      · split at hrun
        · obtain ⟨-, rfl⟩ := Prod.mk.inj (some.inj hrun)
          exact outside_goto rfl rfl (by rw [hpc]; rfl) nofun
        · obtain ⟨rfl, -⟩ := Prod.mk.inj (some.inj hrun)
          exact absurd rfl (hnot p b')
    · cases hop
  · cases hop

/-- What a step establishes, by its label: `F` is the flat array before it. -/
def StepPost (cfg : Cfg) (pid : User H → Nat) (F : Nat → Block) (s' : State N H) : Label H → Prop
  | .bread _ b v => (cfg.Home b → v = F b) ∧ ∃ L' pins', Inv cfg pid F L' pins' s'
  | .log_write b v => ∃ L' pins', Inv cfg pid (update F b v) L' pins' s'
  | .committed => (∀ b, cfg.Home b → s'.c.disk b = F b) ∧ ∃ L' pins', Inv cfg pid F L' pins' s'
  | .tau => ∃ L' pins', Inv cfg pid F L' pins' s'

/-- A step of a user that changes nothing but the cache. -/
theorem Inv.userStep {op : Option (Cache (User H))} {P : Cache (User H) → Prop}
    (hcore : ∀ {c'}, op = some c' → Core cfg.dev pid L pins c' ∧ Frame (.inl z) s.c c' ∧
      c'.disk = s.c.disk ∧ P c')
    (hop : op.map (fun c => ((.tau : Label H), { s with c := c })) = some (e, s')) :
    StepPost cfg pid F s' e := by
  obtain ⟨c', hc, heq⟩ := map_eq_some_iff.mp hop
  cases heq
  obtain ⟨h1, h2, h3, -⟩ := hcore hc
  exact ⟨L, pins, h.user h1 h2 h3⟩

theorem Inv.exec [DecidableEq H] (hop : FlatDisk.exec cfg pid a s = some (e, s')) :
    StepPost cfg pid F s' e := by
  cases a with
  | bget z b => exact h.userStep h.core.bget hop
  | acquiresleep z => exact h.userStep (h.core.acquiresleep cfg.dev_ne) hop
  | bread z =>
    simp only [FlatDisk.exec] at hop
    split at hop
    · next b i hx =>
      obtain ⟨c', hc, heq⟩ := map_eq_some_iff.mp hop
      cases heq
      obtain ⟨h1, h2, h3, b', j, hj, hheld, hdata⟩ := h.core.bread cfg.dev_ne hc
      obtain ⟨rfl, rfl⟩ := Stage.locked.inj (hx.symm.trans hj)
      refine ⟨fun hb => ?_, L, pins, h.user h1 h2 h3⟩
      unfold contents
      rw [hheld, ← h.flat b hb]
      exact hdata
    · cases hop
  | modify z v =>
    simp only [FlatDisk.exec] at hop
    split at hop
    · split at hop
      · exact h.userStep (h.core.modify cfg.dev_ne) hop
      · cases hop
    · cases hop
  | releasesleep z => exact h.userStep (h.core.releasesleep cfg.dev_ne) hop
  | brelse z => exact h.userStep h.core.brelse hop
  | log_write p z =>
    rcases h.logStep hop with ⟨rfl, hpost⟩ | ⟨b, v, rfl, hpost⟩
    · exact hpost
    · exact hpost
  | commit p =>
    obtain ⟨hinv, rfl | ⟨rfl, hdisk⟩⟩ := h.commitStep hop
    · exact hinv
    · exact ⟨hdisk, hinv⟩
  | log a =>
    obtain ⟨ho, hop⟩ := ite_none_right_eq_some.mp hop
    obtain ⟨⟨ev, g'⟩, hg, heq⟩ := map_eq_some_iff.mp hop
    cases heq
    exact ⟨L, pins, h.outside (h.log.move (move_of_exec hg)) (outside_spec ho hg)⟩

end

theorem inv_init [DecidableEq H] {d₀ : Nat → Block} (hg : s.g = init)
    (hround : s.round = .readLog) (hc : Fresh cfg d₀ s.c) : Inv cfg pid d₀ d₀ [] s := by
  have hidle : ∀ x i, ¬ (s.c.user x).uses i := by
    intro x i; rw [hc.user x]; exact Stage.not_uses_idle i
  refine ⟨hg ▸ GroupCommit.inv_init, fun _ _ => rfl, ?_, ?_, ?_, ?_, ?_, ?_⟩
  · refine ⟨hc.wf, ?_, ?_, ?_, ?_, ?_, ?_, ?_, nofun⟩
    · intro x b i hx; rw [hc.user x] at hx; cases hx
    · intro i
      have hp : ¬ s.c.bc.Pinned cfg.dev [] i := fun hp => by cases hp.2
      have hz : Count.count s.c.user (fun u => u.uses i) = 0 := Count.count_eq_zero.mpr (hidle · i)
      rw [hz, hc.refcnt i, if_neg hp]
    · intro x i hx; rw [hc.user x] at hx; cases hx
    · intro x y i hx; rw [hc.user x] at hx; cases hx
    · intro x b i d hx; rw [hc.user x] at hx; cases hx
    · intro b i hi hv _; exact hc.data b i hi hv
    · intro b _; rw [hc.disk]
  · rw [hg]; exact nodup_nil
  · rw [hg]; nofun
  · rw [hg]; exact fun hne => absurd rfl hne
  · intro p hp; rw [hg] at hp; cases hp
  · intro _; rw [hg]; exact ⟨rfl, hround, hc.user _, hc.user _⟩

end Preservation

end Invariant

/-! ## 3. Refinement -/

theorem flat_snoc (d₀ : Nat → Block) (tr : List (Label H)) (e : Label H) :
    flat d₀ (tr ++ [e]) = match e with
      | .log_write b v => update (flat d₀ tr) b v
      | _ => flat d₀ tr := by
  simp only [flat, foldl_append, foldl_cons, foldl_nil]

variable [DecidableEq H] [Fintype H] {cfg : Cfg} {pid : User H → Nat} {d₀ : Nat → Block}

theorem trace_inv {tr : List (Label H)} (h : Trace (system cfg pid d₀ N) tr s) :
    ∃ L pins, Inv cfg pid (flat d₀ tr) L pins s := by
  apply h.invariant (I := fun tr s => ∃ L pins, Inv cfg pid (flat d₀ tr) L pins s)
  · rintro s ⟨hg, hround, hc⟩
    exact ⟨d₀, [], inv_init hg hround hc⟩
  · rintro tr s e s' ⟨L, pins, hinv⟩ ⟨a, ha⟩
    have hpost := hinv.exec ha
    rw [flat_snoc]
    cases e with
    | bread _ _ _ => exact hpost.2
    | log_write _ _ => exact hpost
    | committed => exact hpost.2
    | tau => exact hpost

/-- **Cache and log refine a flat array of blocks.** In every run, `bread` of a
    block outside the log area returns the contents last logged for it, or the
    initial contents of the disk; and when `commit` returns, every such block
    has these contents on the disk. -/
theorem cache_refines_flat {tr : List (Label H)} {s : State N H}
    (h : Trace (system cfg pid d₀ N) tr s) :
    (∀ t₁ t₂ z b v, tr = t₁ ++ .bread z b v :: t₂ → cfg.Home b → v = flat d₀ t₁ b) ∧
    (∀ t, tr = t ++ [.committed] → ∀ b, cfg.Home b → s.c.disk b = flat d₀ tr b) := by
  refine ⟨?_, ?_⟩
  · rintro t₁ t₂ z b v rfl
    obtain ⟨s0, s1, h0, a, ha⟩ := h.step_of_append
    obtain ⟨L, pins, hinv⟩ := trace_inv h0
    exact (hinv.exec ha).1
  · rintro t rfl
    obtain ⟨s0, h0, a, ha⟩ := h.last_step
    obtain ⟨L, pins, hinv⟩ := trace_inv h0
    rw [flat_snoc]
    exact (hinv.exec ha).1

/-- A disk of zeros with a log of 31 blocks. -/
def smallCfg : Cfg := { dev := 1, start := 2, size := 31, dev_ne := by decide }

/-- One process and one user of the cache. -/
def smallState : State 1 Unit where
  g := init
  c := { bc := Bcache.binit, disk := fun _ => Block.zero, user := fun _ => .idle }
  round := .readLog

/-- One operation logs block 40, and its commit runs to the end. -/
def oneCommit : List (Action 1 Unit) :=
  [.log (.begin_op 0), .log (.run 0), .log (.run 0), .bget () 40, .acquiresleep (), .bread (),
    .modify () (Block.zero.setWord 0 7), .log (.log_write 0 40), .log (.run 0), .log_write 0 (),
    .releasesleep (), .brelse (), .log (.end_op 0), .log (.run 0), .log (.run 0)] ++
  List.replicate 47 (.commit 0)

/-- The last label says that `commit` has returned. -/
def endsCommitted (tr : List (Label Unit)) : Bool :=
  match tr.getLast? with
  | some .committed => true
  | _ => false

theorem smallState_fresh : Fresh smallCfg (fun _ => Block.zero) smallState.c where
  disk := rfl
  wf := Bcache.binit_wf
  user := fun _ => rfl
  refcnt := fun _ => rfl
  data := fun _ _ _ h => absurd h Bool.false_ne_true

theorem cache_refines_flat_oneCommit :
    ∃ tr s, replay (exec smallCfg fun _ => 1) oneCommit smallState = some (tr, s) ∧
      s.c.disk 40 = flat (fun _ => Block.zero) tr 40 := by
  have hrun : (replay (exec smallCfg fun _ => 1) oneCommit smallState).map
      (fun r => endsCommitted r.1) = some true := by decide +kernel
  obtain ⟨⟨tr, s⟩, hrep, hend⟩ := map_eq_some_iff.mp hrun
  have htrace : Trace (system smallCfg (fun _ => 1) (fun _ => Block.zero) 1) tr s :=
    trace_of_replay ⟨rfl, rfl, smallState_fresh⟩ hrep
  have hlast : tr.getLast? = some .committed := by
    unfold endsCommitted at hend
    split at hend
    · assumption
    · cases hend
  obtain ⟨t, ht⟩ := getLast?_eq_some_iff.mp hlast
  exact ⟨tr, s, hrep, (cache_refines_flat htrace).2 t ht 40 (Or.inr (by decide))⟩

end NoviceKernel.FlatDisk
