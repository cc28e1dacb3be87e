import NoviceKernel.Bio

/-! # The redo log (`log.c`): commit and recovery

    The functions below run in one process, without interference: `commit`
    runs with `log.committing` set and recovery runs before any other process
    exists.  The on-disk header is a block whose first word is the number of
    logged blocks, followed by their block numbers. -/

namespace NoviceKernel

/-! ## The on-disk header -/

/-- The value of a 32-bit word read as an `int`. -/
def toInt32 (w : Nat) : Int := if w < 2 ^ 31 then (w : Int) else (w : Int) - 2 ^ 32

/-- The block list of the `struct logheader` stored in a block: `lh->n` is an
    `int`, so a negative count lists nothing. -/
def headerList (d : Block) : List Nat :=
  (List.range (toInt32 (d.word 0)).toNat).map fun i => d.word (i + 1)

/-- `hb->block[i..] = bs`. -/
def putBlocks (d : Block) (i : Nat) : List Nat → Block
  | [] => d
  | b :: bs => putBlocks (d.setWord (i + 1) b) (i + 1) bs

/-- `hb->n = lh.n` and the copy of `lh.block` into `hb->block`. -/
def putHeader (d : Block) (lh : List Nat) : Block :=
  putBlocks (d.setWord 0 lh.length) 0 lh

theorem putBlocks_word_low {d : Block} {i j : Nat} {bs : List Nat} (h : j ≤ i) :
    (putBlocks d i bs).word j = d.word j := by
  induction bs generalizing d i with
  | nil => rfl
  | cons b bs ih =>
    rw [putBlocks, ih (by omega), Block.word_setWord_ne (by omega)]

theorem putBlocks_word {d : Block} {i : Nat} {bs : List Nat}
    (hfit : 4 * (i + bs.length) + 4 ≤ BSIZE) (hlt : ∀ b ∈ bs, b < 2 ^ 32)
    {t : Nat} (ht : t < bs.length) : (putBlocks d i bs).word (i + t + 1) = bs[t] := by
  -- induction on the list; the head is in word i+1, which the rest leaves alone
  induction bs generalizing d i t with
  | nil => simp at ht
  | cons b bs ih =>
    simp only [List.length_cons] at hfit ht
    rw [putBlocks]
    cases t with
    | zero =>
      rw [putBlocks_word_low (by omega), Nat.add_zero, Block.word_setWord_same (by omega),
        Nat.mod_eq_of_lt (hlt b List.mem_cons_self)]
      rfl
    | succ t =>
      rw [show i + (t + 1) + 1 = i + 1 + t + 1 by omega,
        ih (by omega) (fun c hc => hlt c (List.mem_cons_of_mem _ hc)) (by omega)]
      rfl

/-- A header that was written is read back. -/
theorem headerList_putHeader {d : Block} {lh : List Nat} (hlen : lh.length ≤ LOGSIZE)
    (hlt : ∀ b ∈ lh, b < 2 ^ 32) : headerList (putHeader d lh) = lh := by
  have hL : LOGSIZE = 30 := rfl
  have hB : BSIZE = 1024 := rfl
  have hn : (putHeader d lh).word 0 = lh.length := by
    rw [putHeader, putBlocks_word_low (Nat.le_refl 0), Block.word_setWord_same (by omega),
      Nat.mod_eq_of_lt (by omega)]
  have hn' : (toInt32 ((putHeader d lh).word 0)).toNat = lh.length := by
    rw [hn, toInt32, if_pos (by omega)]
    exact Int.toNat_natCast _
  unfold headerList
  rw [hn']
  apply List.ext_getElem
  · simp
  · intro t h1 h2
    simp only [List.getElem_map, List.getElem_range]
    have := putBlocks_word (d := d.setWord 0 lh.length) (i := 0) (by omega) hlt h2
    rwa [Nat.zero_add] at this

/-! ## Commit and recovery -/

/-- One round of the loop of `install_trans`, for `log.lh.block[tail] = b`. -/
def install_trans_round (recovering : Bool) (tail b : Nat) : KernelM Unit := do
  let m ← get
  let lbuf ← bread m.log.dev (m.log.start + tail + 1)  -- read log block
  let dbuf ← bread m.log.dev b                          -- read dst
  let m ← get
  setData dbuf (m.bc.buf lbuf).data                     -- copy block to dst
  bwrite dbuf                                           -- write dst to disk
  if recovering then pure () else bunpin dbuf
  brelse lbuf
  brelse dbuf

/-- The loop of `install_trans` from `tail` on; the list is what remains of
    `log.lh.block`. -/
def install_trans_loop (recovering : Bool) (tail : Nat) : List Nat → KernelM Unit
  | [] => pure ()
  | b :: bs => do
    install_trans_round recovering tail b
    install_trans_loop recovering (tail + 1) bs

/-- `install_trans`: copy committed blocks from log to their home location. -/
def install_trans (recovering : Bool) : KernelM Unit := do
  let m ← get
  install_trans_loop recovering 0 m.log.lh

/-- `read_head`. -/
def read_head : KernelM Unit := do
  let m ← get
  let buf ← bread m.log.dev m.log.start
  modify fun m => { m with log := { m.log with lh := headerList (m.bc.buf buf).data } }
  brelse buf

/-- `write_head`. -/
def write_head : KernelM Unit := do
  let m ← get
  let buf ← bread m.log.dev m.log.start
  let m ← get
  setData buf (putHeader (m.bc.buf buf).data m.log.lh)
  bwrite buf
  brelse buf

/-- `log.lh.n = 0`. -/
def clearLh : KernelM Unit :=
  modify fun m => { m with log := { m.log with lh := [] } }

/-- `recover_from_log`. -/
def recover_from_log : KernelM Unit := do
  read_head
  install_trans true
  clearLh
  write_head

/-- One round of the loop of `write_log`, for `log.lh.block[tail] = b`. -/
def write_log_round (tail b : Nat) : KernelM Unit := do
  let m ← get
  let tobuf ← bread m.log.dev (m.log.start + tail + 1)  -- log block
  let frombuf ← bread m.log.dev b                        -- cache block
  let m ← get
  setData tobuf (m.bc.buf frombuf).data
  bwrite tobuf                                           -- write the log
  brelse frombuf
  brelse tobuf

/-- The loop of `write_log` from `tail` on. -/
def write_log_loop (tail : Nat) : List Nat → KernelM Unit
  | [] => pure ()
  | b :: bs => do
    write_log_round tail b
    write_log_loop (tail + 1) bs

/-- `write_log`: copy modified blocks from cache to log. -/
def write_log : KernelM Unit := do
  let m ← get
  write_log_loop 0 m.log.lh

/-- `commit`. -/
def commit : KernelM Unit := do
  let m ← get
  if 0 < m.log.lh.length then
    write_log
    write_head
    install_trans false
    clearLh
    write_head
  else
    pure ()

end NoviceKernel
