import NoviceKernel.FsWrite

/-! # Buffers and the log under the file system (`fs.c`, `bio.c`, `log.c`)

    In the flat model a block changes when its buffer does.  Here the buffers
    are apart from the disk: a change to `bp->data` stays in the buffer, it is
    kept only if `log_write` was called for it, and a buffer that was not
    logged can be recycled.

    1. **Model**: `readi` and `writei` and what they call, with the `log_write`s.
    2. **Simulation**: inside a transaction they do what the flat ones do to the
       blocks as `bread` returns them (`Sim`).
    3. **Reading**: `bmap` of a block that is mapped changes nothing. -/

namespace NoviceKernel.FS

open Hoare Function

/-! ## 1. Model -/

/-- The disk, the buffers, the log and the inode table. -/
structure Tx where
  /-- The blocks on the disk, with all that is committed. -/
  disk : Nat → Block
  /-- The data of the buffers that were changed since they were read. -/
  buf : Nat → Option Block
  /-- `log.lh.block`; these buffers are pinned. -/
  logged : List Nat
  /-- The blocks passed to `log_write` since `begin_op`. -/
  passed : List Nat
  /-- `log.outstanding`. -/
  outstanding : Nat
  itable : Fin NINODE → Inode

abbrev TxM := EStateM Stop Tx

namespace Tx

/-- The file system as `bread` shows it. -/
def view (s : Tx) : Fs := ⟨fun b => (s.buf b).getD (s.disk b), s.itable⟩

/-- The loop of `log_write` over `log.lh.block`: a block is recorded once. -/
def absorb (l : List Nat) (b : Nat) : List Nat := if b ∈ l then l else l ++ [b]

/-- Contents of block `b`. -/
def bread (b : Nat) : TxM Block := do return (← get).view.blocks b

/-- Change `bp->data` of the buffer of block `b`. -/
def fill (b : Nat) (d : Block) : TxM Unit :=
  modify fun s => { s with buf := update s.buf b (some d) }

/-- `log_write`. Whether the log has room is not the question here: what is
    counted is how much of it an operation takes. -/
def log_write (b : Nat) : TxM Unit := do
  let s ← get
  if s.outstanding < 1 then throw (.panic "log_write outside of trans")
  else set { s with logged := absorb s.logged b, passed := absorb s.passed b }

/-- Change block `b` to `d` and `log_write` it. -/
def writeBlock (b : Nat) (d : Block) : TxM Unit := do
  fill b d
  log_write b

/-- Change the on-disk part of the in-memory inode. -/
def modifyDin (ip : Fin NINODE) (f : Dinode → Dinode) : TxM Unit :=
  modify fun s =>
    let x := s.itable ip
    { s with itable := update s.itable ip { x with din := f x.din } }

/-- `ip->addrs[k] = b`. -/
def setAddr (ip : Fin NINODE) (k : Fin NADDR) (b : Nat) : TxM Unit :=
  modifyDin ip fun x => { x with addrs := update x.addrs k b }

section Functions

variable (sb : Superblock)

def bzero (b : Nat) : TxM Unit := writeBlock b Block.zero

/-- The outer loop of `balloc` over the bitmap blocks, at most `n` of them. -/
def balloc_loop : Nat → Nat → TxM Nat
  | 0, _ => throw (.panic "balloc: out of blocks")
  | n + 1, b =>
    if b < sb.size then do
      let d ← bread (BBLOCK sb b)
      match scan sb d b BPB 0 with
      | some bi =>
        writeBlock (BBLOCK sb b) (d.setBit bi)  -- mark block in use
        bzero (b + bi)
        return b + bi
      | none => balloc_loop n (b + BPB)
    else throw (.panic "balloc: out of blocks")

def balloc : TxM Nat := balloc_loop sb (sb.size / BPB + 1) 0

def iupdate (ip : Fin NINODE) : TxM Unit := do
  let s ← get
  let d ← bread (IBLOCK sb (s.itable ip).inum)
  writeBlock (IBLOCK sb (s.itable ip).inum)
    (Dinode.store d (ioff (s.itable ip).inum) (s.itable ip).din)

/-- `if((addr = ip->addrs[k]) == 0) ip->addrs[k] = addr = balloc(ip->dev)`. -/
def rootEntry (ip : Fin NINODE) (k : Fin NADDR) : TxM Nat := do
  let s ← get
  if (s.itable ip).din.addrs k = 0 then
    let b ← balloc sb
    setAddr ip k b
    return b
  else return (s.itable ip).din.addrs k

/-- Entry `j` of the pointer block `c`, allocating if necessary. -/
def blockEntry (c j : Nat) : TxM Nat := do
  let d ← bread c
  if d.word j = 0 then
    let b ← balloc sb
    let d ← bread c
    writeBlock c (d.setWord j b)
    return b
  else return d.word j

def bmap (ip : Fin NINODE) (bn : Nat) : TxM Nat :=
  if h : bn < NDIRECT then rootEntry sb ip ⟨bn, lt_NADDR h⟩
  else
    let bn := bn - NDIRECT
    if bn < NINDIRECT then do
      let a ← rootEntry sb ip 11
      blockEntry sb a bn
    else
      let bn := bn - NINDIRECT
      if bn < NINDIRECT_SEC then do
        let a ← rootEntry sb ip 12
        let a ← blockEntry sb a (bn / NINDIRECT)
        blockEntry sb a (bn % NINDIRECT)
      else throw (.panic "bmap: out of range")

/-- The loop of `writei`. A copy that fails has changed the buffer, which is
    released without a `log_write`. -/
def writei_loop (cp : Copyin) (ip : Fin NINODE) (n : Nat) : Nat → Nat → Nat → Nat → TxM (Nat × Nat)
  | 0, tot, off, _ => return (tot, off)
  | k + 1, tot, off, src =>
    if tot < n then do
      let b ← bmap sb ip (off / BSIZE)
      let d ← bread b
      let m := min (n - tot) (BSIZE - off % BSIZE)
      fill b (d.copy (off % BSIZE) (cp.run src m).1)
      if (cp.run src m).2 then do
        log_write b
        writei_loop cp ip n k (tot + m) (off + m) ((src + m) % 2 ^ 64)
      else return (tot, off)
    else return (tot, off)

def writei (cp : Copyin) (ip : Fin NINODE) (src off n : Nat) : TxM Int := do
  let s ← get
  if off > (s.itable ip).din.size ∨ (off + n) % 2 ^ 32 < off then return -1
  else if (off + n) % 2 ^ 32 > MAXFILE * BSIZE then return -1
  else do
    let (tot, off) ← writei_loop sb cp ip n n 0 off src
    modifyDin ip fun x => { x with size := max off x.size }
    iupdate sb ip
    return tot

/-- The loop of `readi`. -/
def readi_loop (cp : Nat → Nat → Bool) (ip : Fin NINODE) (n : Nat) :
    Nat → Nat → Nat → Nat → List UInt8 → TxM (Option Nat × List UInt8)
  | 0, tot, _, _, out => return (some tot, out)
  | k + 1, tot, off, dst, out =>
    if tot < n then do
      let b ← bmap sb ip (off / BSIZE)
      let d ← bread b
      let m := min (n - tot) (BSIZE - off % BSIZE)
      if cp dst m then
        readi_loop cp ip n k (tot + m) (off + m) ((dst + m) % 2 ^ 64)
          (out ++ (List.range m).map fun i => d.byte (off % BSIZE + i))
      else return (none, out)
    else return (some tot, out)

/-- `readi` with the bytes it delivers; `cp` says which `either_copyout` calls
    succeed. -/
def readi (cp : Nat → Nat → Bool) (ip : Fin NINODE) (dst off n : Nat) : TxM (Int × List UInt8) := do
  let s ← get
  let size := (s.itable ip).din.size
  if off > size ∨ (off + n) % 2 ^ 32 < off then return (0, [])
  else do
    let n := if (off + n) % 2 ^ 32 > size then size - off else n
    let (tot, out) ← readi_loop sb cp ip n n 0 off dst []
    match tot with
    | some tot => return (tot, out)
    | none => return (-1, out)

end Functions

/-! ## 2. Simulation -/

/-- Inside a transaction `x` does to the view what `y` does. -/
def Sim {α : Type} (x : TxM α) (y : FsM α) : Prop :=
  ∀ s : Tx, 0 < s.outstanding →
    wp x (fun a s' => y s.view = .ok a s'.view ∧ s'.outstanding = s.outstanding)
      (fun e s' => y s.view = .error e s'.view) s

namespace Sim

variable {α β : Type} {x : TxM α} {y : FsM α} {f : α → TxM β} {g : α → FsM β} {s : Tx}

theorem pure (a : α) : Sim (pure a) (pure a) := fun _ _ => ⟨rfl, rfl⟩

theorem throw (e : Stop) : Sim (throw e : TxM α) (throw e) := fun _ _ => rfl

theorem bind (hx : Sim x y) (hf : ∀ a, Sim (f a) (g a)) : Sim (x >>= f) (y >>= g) := by
  intro s hs
  rw [wp_bind]
  refine (hx s hs).mono ?_ ?_
  · intro a s' h
    have hbind : (y >>= g) s.view = g a s'.view := by simp only [Bind.bind, EStateM.bind, h.1]
    rw [hbind]
    exact (hf a s' (by rw [h.2]; exact hs)).post fun _ _ hb => ⟨hb.1, hb.2.trans h.2⟩
  · intro e s' h
    simp only [Bind.bind, EStateM.bind, h]

/-- Reading the inode table. -/
theorem get {f : Tx → TxM β} {g : Fs → FsM β} (h : ∀ s, Sim (f s) (g s.view)) :
    Sim (get >>= f) (get >>= g) := fun s hs => h s s hs

theorem ite {c : Prop} [Decidable c] {x' : TxM α} {y' : FsM α} (hx : Sim x y) (hy : Sim x' y') :
    Sim (if c then x else x') (if c then y else y') := by
  split
  · exact hx
  · exact hy

theorem bread (b : Nat) : Sim (bread b) (FS.bread b) := fun _ _ => ⟨rfl, rfl⟩

theorem modifyDin (ip : Fin NINODE) (f : Dinode → Dinode) :
    Sim (modifyDin ip f) (FS.modifyDin ip f) :=
  fun _ _ => ⟨rfl, rfl⟩

/-- What the flat model guarantees holds here. -/
theorem wp (h : Sim x y) {Q : α → Fs → Prop} {E : Stop → Fs → Prop} (hs : 0 < s.outstanding)
    (hy : wp y Q E s.view) :
    Hoare.wp x (fun a s' => Q a s'.view ∧ s'.outstanding = s.outstanding)
      (fun e s' => E e s'.view) s :=
  (h s hs).mono (fun _ _ ha => ⟨hy.of_ok ha.1, ha.2⟩) fun _ _ he => hy.of_error he

end Sim

theorem view_fill (s : Tx) (b : Nat) (d : Block) :
    view { s with buf := update s.buf b (some d) } = s.view.setBlock b d := by
  unfold view Fs.setBlock
  congr 1
  funext c
  by_cases hc : c = b
  · subst hc
    dsimp only
    rw [Function.update_self, Function.update_self]
    rfl
  · dsimp only
    rw [Function.update_of_ne hc, Function.update_of_ne hc]

theorem sim_fill (b : Nat) (d : Block) : Sim (fill b d) (FS.writeBlock b d) := by
  intro s _
  refine ⟨?_, rfl⟩
  show EStateM.Result.ok () (s.view.setBlock b d) = _
  rw [← view_fill]

/-- `log_write` changes no block. -/
theorem sim_log_write (b : Nat) : Sim (log_write b) (pure ()) := by
  intro s hs
  unfold log_write
  rw [wp_bind, wp_get, if_neg (by omega)]
  exact ⟨rfl, rfl⟩

theorem sim_writeBlock (b : Nat) (d : Block) : Sim (writeBlock b d) (FS.writeBlock b d) :=
  (sim_fill b d).bind fun _ => sim_log_write b

section Functions

variable {sb : Superblock} {ip : Fin NINODE} {cp : Copyin}

theorem sim_balloc_loop (n b : Nat) : Sim (balloc_loop sb n b) (FS.balloc_loop sb n b) := by
  induction n generalizing b with
  | zero => exact .throw _
  | succ n ih =>
    refine .ite (.bind (.bread _) fun d => ?_) (.throw _)
    cases scan sb d b BPB 0 with
    | some bi =>
      exact .bind (sim_writeBlock _ _) fun _ => .bind (sim_writeBlock _ _) fun _ => .pure _
    | none => exact ih _

theorem sim_balloc : Sim (balloc sb) (FS.balloc sb) := sim_balloc_loop _ _

theorem sim_iupdate : Sim (iupdate sb ip) (FS.iupdate sb ip) :=
  .get fun _ => .bind (.bread _) fun _ => sim_writeBlock _ _

theorem sim_rootEntry (k : Fin NADDR) : Sim (rootEntry sb ip k) (FS.rootEntry sb ip k) :=
  .get fun _ => .ite (.bind sim_balloc fun _ => .bind (.modifyDin _ _) fun _ => .pure _) (.pure _)

theorem sim_blockEntry (c j : Nat) : Sim (blockEntry sb c j) (FS.blockEntry sb c j) :=
  .bind (.bread _) fun _ => .ite (.bind sim_balloc fun _ => .bind (.bread _) fun _ =>
    .bind (sim_writeBlock _ _) fun _ => .pure _) (.pure _)

theorem sim_bmap (bn : Nat) : Sim (bmap sb ip bn) (FS.bmap sb ip bn) := by
  unfold bmap FS.bmap
  split
  · exact sim_rootEntry _
  · dsimp only
    by_cases hi : bn - NDIRECT < NINDIRECT
    · rw [if_pos hi, if_pos hi]
      exact .bind (sim_rootEntry _) fun _ => sim_blockEntry _ _
    · rw [if_neg hi, if_neg hi]
      generalize NINDIRECT_SEC = n
      exact .ite (.bind (sim_rootEntry _) fun _ => .bind (sim_blockEntry _ _) fun _ =>
        sim_blockEntry _ _) (.throw _)

theorem sim_writei_loop (n k tot off src : Nat) :
    Sim (writei_loop sb cp ip n k tot off src) (FS.writei_loop sb cp ip n k tot off src) := by
  induction k generalizing tot off src with
  | zero => exact .pure _
  | succ k ih =>
    refine .ite (.bind (sim_bmap _) fun b => .bind (.bread _) fun d => ?_) (.pure _)
    -- the `log_write` does nothing to the blocks
    refine .bind (sim_fill _ _) fun _ => .ite ?_ (.pure _)
    have h := (sim_log_write b).bind fun _ => ih (tot + min (n - tot) (BSIZE - off % BSIZE))
      (off + min (n - tot) (BSIZE - off % BSIZE))
      ((src + min (n - tot) (BSIZE - off % BSIZE)) % 2 ^ 64)
    exact h

theorem sim_writei (src off n : Nat) :
    Sim (writei sb cp ip src off n) (FS.writei sb cp ip src off n) := by
  unfold writei FS.writei
  refine .get fun s =>
    .ite (.pure _) (.ite (.pure _) (.bind (sim_writei_loop n n 0 off src) fun r => ?_))
  exact .bind (.modifyDin _ _) fun _ => .bind sim_iupdate fun _ => .pure _

/-! ## 3. Reading -/

section Reads

variable {E : Stop → Tx → Prop} {s : Tx}

theorem wp_rootEntry_mapped {k : Fin NADDR} (h : (s.itable ip).din.addrs k ≠ 0) :
    wp (rootEntry sb ip k) (fun b s' => b = (s.itable ip).din.addrs k ∧ s' = s) E s := by
  rw [rootEntry, wp_bind, wp_get, if_neg h]
  exact ⟨rfl, rfl⟩

theorem wp_blockEntry_mapped {c j : Nat} (h : entry s.view.blocks c j ≠ 0) :
    wp (blockEntry sb c j) (fun b s' => b = entry s.view.blocks c j ∧ s' = s) E s := by
  have hc : c ≠ 0 := fun hc => h (entry_zero c j hc)
  unfold entry at *
  rw [if_neg hc] at *
  have hw : ¬ (s.view.blocks c).word j = 0 := h
  show wp (if (s.view.blocks c).word j = 0 then _ else _) _ E s
  rw [if_neg hw]
  exact ⟨rfl, rfl⟩

/-- `bmap` of a mapped block neither allocates nor logs. -/
theorem wp_bmap_mapped {bn : Nat} (hbn : bn < MAXFILE) (hne : slotVal ip s.view (leaf bn) ≠ 0) :
    wp (bmap sb ip bn) (fun b s' => b = slotVal ip s.view (leaf bn) ∧ s' = s) E s := by
  have hpath : ∀ t ∈ (leaf bn).path, slotVal ip s.view t ≠ 0 := fun t ht => path_ne_zero hne ht
  rw [MAXFILE_eq] at hbn
  unfold bmap leaf at *
  split
  · next hd =>
    rw [dif_pos hd] at hne
    exact wp_rootEntry_mapped hne
  · next hd =>
    rw [dif_neg hd] at hne hpath
    dsimp only
    split
    · next hi =>
      rw [dif_pos hi] at hne hpath
      refine (wp_rootEntry_mapped (hpath .ind (by simp [Slot.path]))).seq ?_
      rintro a s' ⟨rfl, rfl⟩
      exact wp_blockEntry_mapped hne
    · next hi =>
      rw [dif_neg hi] at hne hpath
      rw [NDIRECT_eq, NINDIRECT_eq] at hi
      have hdiv : (bn - NDIRECT - NINDIRECT) / NINDIRECT % NINDIRECT =
          (bn - NDIRECT - NINDIRECT) / NINDIRECT := by
        rw [NDIRECT_eq, NINDIRECT_eq]; omega
      rw [if_pos (by rw [NDIRECT_eq, NINDIRECT_eq, NINDIRECT_SEC_eq]; omega), wp_bind]
      refine (wp_rootEntry_mapped (hpath .dbl (by simp [Slot.path]))).post ?_
      rintro a s' ⟨rfl, rfl⟩
      rw [wp_bind]
      have hmid :=
        hpath (.dblE ⟨(bn - NDIRECT - NINDIRECT) / NINDIRECT % NINDIRECT, Nat.mod_lt _ (by decide)⟩)
        (by simp [Slot.path])
      have hword : slotVal ip s'.view
        (.dblE ⟨(bn - NDIRECT - NINDIRECT) / NINDIRECT % NINDIRECT, Nat.mod_lt _ (by decide)⟩) =
          entry s'.view.blocks ((s'.itable ip).din.addrs 12)
          ((bn - NDIRECT - NINDIRECT) / NINDIRECT) :=
        congrArg (entry _ _) hdiv
      rw [hword] at hmid
      refine (wp_blockEntry_mapped hmid).post ?_
      rintro c s'' ⟨rfl, rfl⟩
      rw [← hword]
      exact wp_blockEntry_mapped hne

end Reads

end Functions

end Tx

/-- A file system of which nothing is buffered, with the given number of
    transactions open. -/
def Fs.unbuffered (s : Fs) (outstanding : Nat) : Tx :=
  ⟨s.blocks, fun _ => none, [], [], outstanding, s.itable⟩

/-- The same for the flat model. -/
theorem wp_bmap_mapped {sb : Superblock} {ip : Fin NINODE} {s : Fs} {bn : Nat}
    {E : Stop → Fs → Prop} (hbn : bn < MAXFILE) (hne : slotVal ip s (leaf bn) ≠ 0) :
    wp (bmap sb ip bn) (fun b s' => b = slotVal ip s (leaf bn) ∧ s' = s) E s := by
  have htx : wp (Tx.bmap sb ip bn) _ (fun _ _ => False) (s.unbuffered 1) :=
    Tx.wp_bmap_mapped hbn hne
  have hsim : Tx.Sim (Tx.bmap sb ip bn) (bmap sb ip bn) := Tx.sim_bmap bn
  obtain ⟨b, s', hrun, rfl, rfl⟩ := htx.returns
  have hflat : bmap sb ip bn s = _ := ((hsim (s.unbuffered 1) Nat.one_pos).of_ok hrun).1
  unfold wp
  rw [hflat]
  exact ⟨rfl, rfl⟩

end NoviceKernel.FS
