import Mathlib.Logic.Function.Basic
import NoviceKernel.Lib.Hoare
import NoviceKernel.Block

/-! # Buffer cache (`bio.c`)

    The cache is an array of `NBUF` buffers and the order of its LRU list.  The
    sections that `bget`, `brelse`, `bpin` and `bunpin` run under `bcache.lock`
    are functions on the cache (`Bcache`); a buffer's sleep-lock records the
    pid of its holder.

    `Machine` adds the disk and one running process.  On it `bread`, `bwrite`
    and `brelse` are the source's functions; `issued` remembers, oldest first,
    the synchronous writes the disk has been given. -/

namespace NoviceKernel

/-- `struct buf`. The links `prev` and `next` are the order `Bcache.lru`. -/
structure Buf where
  valid : Bool
  dev : Nat
  blockno : Nat
  /-- Pid of the holder of the buffer's sleep-lock. -/
  lock : Option Nat
  /-- A `uint`, but it does not wrap: it counts the callers, and one pin if the
      block is in the log (`Core.refs`). -/
  refcnt : Nat
  data : Block

/-- `bcache`: the buffers and the LRU list from `head.next` (most recently
    used) to `head.prev`. -/
structure Bcache where
  buf : Fin NBUF → Buf
  lru : List (Fin NBUF)

variable {i j : Fin NBUF} {c c' : Bcache} {dev b : Nat}

namespace Bcache

/-- Buffer `i` caches block `b` of device `dev`. -/
def Holds (c : Bcache) (dev b : Nat) (i : Fin NBUF) : Prop :=
  (c.buf i).dev = dev ∧ (c.buf i).blockno = b

instance (c : Bcache) (dev b : Nat) : DecidablePred (c.Holds dev b) :=
  fun _ => inferInstanceAs (Decidable (_ ∧ _))

/-- Replace buffer `i`. -/
def set (c : Bcache) (i : Fin NBUF) (x : Buf) : Bcache :=
  { c with buf := Function.update c.buf i x }

@[simp] theorem set_buf_self (c : Bcache) (i : Fin NBUF) (x : Buf) : (c.set i x).buf i = x := by
  simp [set]

@[simp] theorem set_buf_ne (c : Bcache) (x : Buf) (h : j ≠ i) : (c.set i x).buf j = c.buf j := by
  simp [set, h]

/-- `binit`: each buffer is inserted at the head of the list, so the last one
    ends up first. -/
def binit : Bcache where
  buf := fun _ => { valid := false, dev := 0, blockno := 0, lock := none, refcnt := 0,
                    data := Block.zero }
  lru := (List.finRange NBUF).reverse

/-- The section of `bget` under `bcache.lock`: the buffer that caches the block
    if there is one, else the least recently used buffer nobody refers to.
    `none` is `panic("bget: no buffers")`. -/
def bget (c : Bcache) (dev b : Nat) : Option (Fin NBUF × Bcache) :=
  match c.lru.find? (fun i => decide (c.Holds dev b i)) with
  | some i => some (i, c.set i { c.buf i with refcnt := (c.buf i).refcnt + 1 })
  | none =>
    -- not cached: recycle, scanning from head.prev
    match c.lru.reverse.find? (fun i => decide ((c.buf i).refcnt = 0)) with
    | some i => some (i, c.set i { c.buf i with dev := dev, blockno := b, valid := false,
                                                refcnt := 1 })
    | none => none

/-- The section of `brelse` under `bcache.lock`: drop one reference, and move
    the buffer to the head of the list when it was the last. -/
def brelse (c : Bcache) (i : Fin NBUF) : Bcache where
  buf := Function.update c.buf i { c.buf i with refcnt := (c.buf i).refcnt - 1 }
  lru := if (c.buf i).refcnt - 1 = 0 then i :: c.lru.erase i else c.lru

/-- `bpin`. -/
def bpin (c : Bcache) (i : Fin NBUF) : Bcache :=
  c.set i { c.buf i with refcnt := (c.buf i).refcnt + 1 }

/-- `bunpin`. -/
def bunpin (c : Bcache) (i : Fin NBUF) : Bcache :=
  c.set i { c.buf i with refcnt := (c.buf i).refcnt - 1 }

/-! ## What the sections do to the buffers -/

/-- Everything `bget` can do: it returns a buffer that caches the block with
    one more reference, or a recycled buffer that had none; every other buffer
    is untouched. -/
theorem bget_cases (hall : ∀ j, j ∈ c.lru) (h : c.bget dev b = some (i, c')) :
    c'.lru = c.lru ∧ (∀ j, j ≠ i → c'.buf j = c.buf j) ∧
    ((c.Holds dev b i ∧ c'.buf i = { c.buf i with refcnt := (c.buf i).refcnt + 1 }) ∨
      ((∀ j, ¬ c.Holds dev b j) ∧ (c.buf i).refcnt = 0 ∧
        c'.buf i = { c.buf i with dev := dev, blockno := b, valid := false, refcnt := 1 })) := by
  unfold bget at h
  split at h
  · -- hit
    next k hk =>
    cases h
    refine ⟨rfl, fun j hj => set_buf_ne c _ hj, Or.inl ⟨?_, set_buf_self c _ _⟩⟩
    simpa using List.find?_some hk
  · next hmiss =>
    split at h
    · next k hk =>
      cases h
      refine ⟨rfl, fun j hj => set_buf_ne c _ hj, Or.inr ⟨?_, ?_, set_buf_self c _ _⟩⟩
      · intro j
        simpa using List.find?_eq_none.mp hmiss j (hall j)
      · simpa using List.find?_some hk
    · cases h

@[simp] theorem brelse_buf_ne (c : Bcache) (h : j ≠ i) : (c.brelse i).buf j = c.buf j := by
  simp [brelse, h]

@[simp] theorem brelse_buf_self (c : Bcache) (i : Fin NBUF) :
    (c.brelse i).buf i = { c.buf i with refcnt := (c.buf i).refcnt - 1 } := by
  simp [brelse]

theorem mem_brelse_lru (hall : ∀ j, j ∈ c.lru) (j : Fin NBUF) : j ∈ (c.brelse i).lru := by
  unfold brelse
  by_cases h0 : (c.buf i).refcnt - 1 = 0
  · rw [if_pos h0]
    by_cases hj : j = i
    · simp [hj]
    · exact List.mem_cons_of_mem _ ((List.mem_erase_of_ne hj).mpr (hall j))
  · rw [if_neg h0]
    exact hall j

end Bcache

/-- What every reachable cache satisfies: the list links all buffers, and no
    block of a device is cached twice. (Device number 0 is that of buffers
    never used.) -/
structure Bcache.WF (c : Bcache) : Prop where
  all : ∀ i, i ∈ c.lru
  uniq : ∀ i j, (c.buf i).dev ≠ 0 → (c.buf i).dev = (c.buf j).dev →
    (c.buf i).blockno = (c.buf j).blockno → i = j

/-- Well-formedness reads the list and the identities of the buffers only. -/
theorem Bcache.WF.congr (h : c.WF) (hall : ∀ i, i ∈ c'.lru)
    (hid : ∀ i, (c'.buf i).dev = (c.buf i).dev ∧ (c'.buf i).blockno = (c.buf i).blockno) :
    c'.WF where
  all := hall
  uniq := by
    intro i j
    rw [(hid i).1, (hid i).2, (hid j).1, (hid j).2]
    exact h.uniq i j

theorem Bcache.WF.holds_unique (h : c.WF) (hdev : dev ≠ 0)
    (hi : c.Holds dev b i) (hj : c.Holds dev b j) : i = j :=
  h.uniq i j (by rw [hi.1]; exact hdev) (hi.1.trans hj.1.symm) (hi.2.trans hj.2.symm)

theorem Bcache.WF.brelse (h : c.WF) (i : Fin NBUF) : (c.brelse i).WF := by
  apply h.congr (Bcache.mem_brelse_lru h.all)
  intro j
  by_cases hj : j = i
  · subst hj; simp
  · simp [hj]

theorem Bcache.binit_wf : Bcache.binit.WF where
  all := by intro i; simp [Bcache.binit]
  uniq := fun _ _ h => absurd rfl h

/-- Replacing a buffer by one for the same block keeps the cache well formed. -/
theorem Bcache.WF.set (h : c.WF) {x : Buf}
    (hd : x.dev = (c.buf i).dev) (hb : x.blockno = (c.buf i).blockno) : (c.set i x).WF := by
  refine h.congr h.all fun j => ?_
  by_cases hj : j = i
  · subst hj; simp [hd, hb]
  · simp [hj]

theorem Bcache.WF.bget (h : c.WF) (hb : c.bget dev b = some (i, c')) : c'.WF := by
  obtain ⟨hlru, hne, hcase⟩ := Bcache.bget_cases h.all hb
  rcases hcase with ⟨hi, hbuf⟩ | ⟨hno, -, hbuf⟩
  · apply h.congr (fun j => hlru ▸ h.all j)
    intro j
    by_cases hj : j = i
    · subst hj; simp [hbuf]
    · simp [hne j hj]
  · -- the recycled buffer is the only one for its new block
    refine ⟨fun j => hlru ▸ h.all j, ?_⟩
    intro j k hdev hdd hbb
    by_cases hj : j = i <;> by_cases hk : k = i
    · rw [hj, hk]
    · rw [hj, hbuf, hne k hk] at hdd hbb
      exact absurd ⟨hdd.symm, hbb.symm⟩ (hno k)
    · rw [hk, hbuf, hne j hj] at hdd hbb
      exact absurd ⟨hdd, hbb⟩ (hno j)
    · rw [hne j hj, hne k hk] at hdd hbb
      rw [hne j hj] at hdev
      exact h.uniq j k hdev hdd hbb

/-! ## One process using the cache -/

/-- `struct log`, without its lock: `lh` is the list of the first `lh.n`
    entries of `lh.block`. -/
structure Log where
  start : Nat
  size : Nat
  dev : Nat
  lh : List Nat

/-- The disk, the cache and the log as one running process sees them. -/
structure Machine where
  disk : Nat → Block
  /-- Synchronous writes issued so far, oldest first. -/
  issued : List (Nat × Block)
  bc : Bcache
  log : Log
  /-- `myproc()->pid`. -/
  pid : Nat

/-- Kernel computations of one process. -/
abbrev KernelM := EStateM Stop Machine

namespace Machine

/-- Replace buffer `i`. -/
def setBuf (m : Machine) (i : Fin NBUF) (x : Buf) : Machine := { m with bc := m.bc.set i x }

end Machine

/-- `acquiresleep(&b->lock)`. A held lock is waited for; no one else runs
    here to release it. -/
def acquiresleep (i : Fin NBUF) : KernelM Unit := fun m =>
  match (m.bc.buf i).lock with
  | none => .ok () (m.setBuf i { m.bc.buf i with lock := some m.pid })
  | some _ => .error .sleep m

/-- `bget`. -/
def bget (dev b : Nat) : KernelM (Fin NBUF) := do
  let m ← get
  match m.bc.bget dev b with
  | none => throw (.panic "bget: no buffers")
  | some (i, c) =>
    set { m with bc := c }
    acquiresleep i
    return i

/-- `virtio_disk_rw(b, 0)`. -/
def diskRead (i : Fin NBUF) : KernelM Unit :=
  modify fun m => m.setBuf i { m.bc.buf i with data := m.disk (m.bc.buf i).blockno }

/-- `virtio_disk_rw(b, 1)`. -/
def diskWrite (i : Fin NBUF) : KernelM Unit :=
  modify fun m => { m with
    disk := Function.update m.disk (m.bc.buf i).blockno (m.bc.buf i).data
    issued := m.issued ++ [((m.bc.buf i).blockno, (m.bc.buf i).data)] }

/-- `bread`. -/
def bread (dev b : Nat) : KernelM (Fin NBUF) := do
  let i ← bget dev b
  let m ← get
  if (m.bc.buf i).valid then
    return i
  else
    diskRead i
    modify fun m => m.setBuf i { m.bc.buf i with valid := true }
    return i

/-- `holdingsleep(&b->lock)`. -/
def holdingsleep (m : Machine) (i : Fin NBUF) : Prop := (m.bc.buf i).lock = some m.pid

instance (m : Machine) (i : Fin NBUF) : Decidable (holdingsleep m i) :=
  inferInstanceAs (Decidable (_ = _))

/-- `bwrite`. -/
def bwrite (i : Fin NBUF) : KernelM Unit := do
  let m ← get
  if holdingsleep m i then
    diskWrite i
  else
    throw (.panic "bwrite")

/-- `brelse`. -/
def brelse (i : Fin NBUF) : KernelM Unit := do
  let m ← get
  if holdingsleep m i then
    -- releasesleep, then the section under bcache.lock
    modify fun m => m.setBuf i { m.bc.buf i with lock := none }
    modify fun m => { m with bc := m.bc.brelse i }
  else
    throw (.panic "brelse")

/-- `bunpin`. -/
def bunpin (i : Fin NBUF) : KernelM Unit :=
  modify fun m => { m with bc := m.bc.bunpin i }

/-- `memmove(b->data, src, BSIZE)` or any other change of a buffer's contents. -/
def setData (i : Fin NBUF) (x : Block) : KernelM Unit :=
  modify fun m => m.setBuf i { m.bc.buf i with data := x }

/-! ## What the operations of one process do -/

open Hoare

/-- A `bread` of block `b` will return `v`: the cached contents if there are
    valid ones, else those on the disk. -/
def Machine.Shows (m : Machine) (dev b : Nat) (v : Block) : Prop :=
  (∀ i, m.bc.Holds dev b i → (m.bc.buf i).valid = true → (m.bc.buf i).data = v) ∧
  ((∀ i, m.bc.Holds dev b i → (m.bc.buf i).valid = false) → m.disk b = v)

/-- The effect of `bread(dev, b)` returning buffer `i`. -/
structure BreadPost (m : Machine) (dev b : Nat) (i : Fin NBUF) (m' : Machine) : Prop where
  disk : m'.disk = m.disk
  issued : m'.issued = m.issued
  log : m'.log = m.log
  pid : m'.pid = m.pid
  wf : m'.bc.WF
  other : ∀ j, j ≠ i → m'.bc.buf j = m.bc.buf j
  holds : m'.bc.Holds dev b i
  valid : (m'.bc.buf i).valid = true
  lock : (m'.bc.buf i).lock = some m.pid
  data : ∀ v, m.Shows dev b v → (m'.bc.buf i).data = v
  /-- The block was cached and has one more reference, or buffer `i` had none
      and was recycled. -/
  refs : (m.bc.Holds dev b i ∧ (m'.bc.buf i).refcnt = (m.bc.buf i).refcnt + 1) ∨
    ((∀ j, ¬ m.bc.Holds dev b j) ∧ (m.bc.buf i).refcnt = 0 ∧ (m'.bc.buf i).refcnt = 1)

/-- A stop that has written nothing. -/
def NoWrite (m m' : Machine) : Prop := m'.disk = m.disk ∧ m'.issued = m.issued

variable {m : Machine}

theorem wp_bget :
    wp (bget dev b) (fun i m' => ∃ c, m.bc.bget dev b = some (i, c) ∧ (c.buf i).lock = none ∧
      m' = { m with bc := c.set i { c.buf i with lock := some m.pid } })
      (fun _ m' => NoWrite m m') m := by
  unfold bget
  simp only [wp_bind, wp_get]
  cases hget : m.bc.bget dev b with
  | none => exact ⟨rfl, rfl⟩
  | some p =>
    obtain ⟨i, c⟩ := p
    simp only [wp_bind, wp_set]
    unfold acquiresleep wp
    cases hl : (c.buf i).lock with
    | none => simp only [hl]; exact ⟨c, rfl, hl, rfl⟩
    | some q => simp only [hl]; exact ⟨rfl, rfl⟩

theorem wp_bread (hwf : m.bc.WF) (hdev : dev ≠ 0) :
    wp (bread dev b) (fun i m' => BreadPost m dev b i m') (fun _ m' => NoWrite m m') m := by
  unfold bread
  rw [wp_bind]
  apply wp_bget.mono _ (fun _ _ h => h)
  rintro i m' ⟨c, hget, hlock, rfl⟩
  obtain ⟨hlru, hne, hcase⟩ := Bcache.bget_cases hwf.all hget
  have hcwf : c.WF := hwf.bget hget
  have hci : c.Holds dev b i := by
    rcases hcase with ⟨hi, hbuf⟩ | ⟨-, -, hbuf⟩
    · unfold Bcache.Holds; rw [hbuf]; exact hi
    · unfold Bcache.Holds; rw [hbuf]; exact ⟨rfl, rfl⟩
  simp only [wp_bind, wp_get, Bcache.set_buf_self]
  by_cases hval : (c.buf i).valid = true
  · -- valid: the block was cached, nothing is read
    rw [if_pos hval]
    rcases hcase with ⟨hi, hbuf⟩ | ⟨-, -, hbuf⟩
    · refine ⟨rfl, rfl, rfl, rfl, hcwf.set rfl rfl, fun j hj => ?_, ?_, ?_, ?_, ?_, Or.inl ⟨hi, ?_⟩⟩
      · simp [hj, hne j hj]
      · simpa [Bcache.Holds] using hci
      · simpa using hval
      · simp
      · intro v hv
        have hv' : (m.bc.buf i).valid = true := by simpa [hbuf] using hval
        simpa [hbuf] using hv.1 i hi hv'
      · simp [hbuf]
    · rw [hbuf] at hval; cases hval
  · rw [if_neg hval]
    have hread : ∀ v, m.Shows dev b v → m.disk b = v := by
      intro v hv
      apply hv.2
      intro j hj
      rcases hcase with ⟨hi, hbuf⟩ | ⟨hno, -, -⟩
      · -- the only buffer of the block is i, which was not valid
        have hji : j = i := hwf.holds_unique hdev hj hi
        rw [hji]
        simpa [hbuf] using hval
      · exact absurd hj (hno j)
    simp only [wp_bind, diskRead, wp_modify, wp_pure, Machine.setBuf, Bcache.set_buf_self]
    refine ⟨rfl, rfl, rfl, rfl, ?_, fun j hj => ?_, ?_, ?_, ?_, ?_, ?_⟩
    · refine Bcache.WF.set (Bcache.WF.set (Bcache.WF.set hcwf ?_ ?_) ?_ ?_) ?_ ?_ <;> simp
    · simp [hj, hne j hj]
    · simpa [Bcache.Holds] using hci
    · simp
    · simp
    · intro v hv
      simpa [hci.2] using hread v hv
    · rcases hcase with ⟨hi, hbuf⟩ | ⟨hno, h0, hbuf⟩
      · exact Or.inl ⟨hi, by simp [hbuf]⟩
      · exact Or.inr ⟨hno, h0, by simp [hbuf]⟩

/-- The effect of changing the contents of buffer `i` to `x` and writing it
    with `bwrite`. -/
structure BwritePost (m : Machine) (i : Fin NBUF) (x : Block) (m' : Machine) : Prop where
  disk : m'.disk = Function.update m.disk (m.bc.buf i).blockno x
  issued : m'.issued = m.issued ++ [((m.bc.buf i).blockno, x)]
  log : m'.log = m.log
  pid : m'.pid = m.pid
  bc : m'.bc = m.bc.set i { m.bc.buf i with data := x }

theorem wp_setData_bwrite {x : Block} {Q : Unit → Machine → Prop} {E : Stop → Machine → Prop}
    (hQ : ∀ m', BwritePost m i x m' → Q () m') (hE : ∀ e m', NoWrite m m' → E e m') :
    wp (setData i x) (fun _ m' => wp (bwrite i) Q E m') E m := by
  simp only [setData, wp_modify, Machine.setBuf]
  unfold bwrite
  simp only [wp_bind, wp_get]
  split
  · apply hQ
    refine ⟨?_, ?_, rfl, rfl, rfl⟩ <;> simp
  · exact hE _ _ ⟨rfl, rfl⟩

/-- The effect of `brelse(b)` on the cache. -/
structure BrelsePost (m : Machine) (i : Fin NBUF) (m' : Machine) : Prop where
  disk : m'.disk = m.disk
  issued : m'.issued = m.issued
  log : m'.log = m.log
  pid : m'.pid = m.pid
  wf : m.bc.WF → m'.bc.WF
  other : ∀ j, j ≠ i → m'.bc.buf j = m.bc.buf j
  self : m'.bc.buf i = { m.bc.buf i with lock := none, refcnt := (m.bc.buf i).refcnt - 1 }

theorem wp_brelse : wp (brelse i) (fun _ m' => BrelsePost m i m') (fun _ m' => NoWrite m m') m := by
  unfold brelse
  simp only [wp_bind, wp_get]
  split
  · simp only [wp_bind, wp_modify, Machine.setBuf]
    refine ⟨rfl, rfl, rfl, rfl, fun h => ?_, fun j hj => ?_, ?_⟩
    · exact Bcache.WF.brelse (Bcache.WF.set h (by rfl) (by rfl)) i
    · simp [hj]
    · simp
  · exact ⟨rfl, rfl⟩

end NoviceKernel
