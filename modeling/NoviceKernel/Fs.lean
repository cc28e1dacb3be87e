import Mathlib.Logic.Function.Basic
import NoviceKernel.Block

/-! # The file system's lower layers (`fs.c`)

    Blocks are the flat array that the cache and the log present: `bread` reads
    it and `log_write` writes it.  On it live the free bit map, the on-disk
    inodes and the pointer blocks; in memory there is the inode table.

    Calls are sequential, so sleep-locks are never waited for; a function that
    expects `ip->lock` to be held is called on an entry that is in use and
    valid. -/

namespace NoviceKernel.FS

open Function

/-! ## Disk layout (`fs.h`) -/

/-- Number of direct blocks. -/
def NDIRECT : Nat := 11

/-- Number of block numbers in a block. -/
def NINDIRECT : Nat := BSIZE / 4

def NINDIRECT_SEC : Nat := NINDIRECT * NINDIRECT

def MAXFILE : Nat := NDIRECT + NINDIRECT + NINDIRECT_SEC

/-- Size of `struct dinode`. -/
def DINODE : Nat := 64

/-- Inodes per block. -/
def IPB : Nat := BSIZE / DINODE

/-- Bitmap bits per block. -/
def BPB : Nat := BSIZE * 8

/-- Entries of the inode table. -/
def NINODE : Nat := 50

/-- Length of `addrs`. -/
abbrev NADDR : Nat := 13

instance : NeZero NADDR := ⟨by decide⟩

theorem lt_NADDR {bn : Nat} (h : bn < NDIRECT) : bn < NADDR := by
  unfold NDIRECT at h
  unfold NADDR
  omega

/-- `struct superblock`, the fields that describe the layout. -/
structure Superblock where
  size : Nat
  nblocks : Nat
  ninodes : Nat
  inodestart : Nat
  bmapstart : Nat

/-- Block containing inode `i`. -/
def IBLOCK (sb : Superblock) (i : Nat) : Nat := i / IPB + sb.inodestart

/-- Block of free map containing bit for block `b`. -/
def BBLOCK (sb : Superblock) (b : Nat) : Nat := b / BPB + sb.bmapstart

/-- `struct dinode`, and the copy of it in `struct inode`. -/
structure Dinode where
  type : Nat
  major : Nat
  minor : Nat
  nlink : Nat
  size : Nat
  addrs : Fin NADDR → Nat

namespace Dinode

/-- The inode at offset `o` of a block. -/
def load (d : Block) (o : Nat) : Dinode where
  type := d.load o 2
  major := d.load (o + 2) 2
  minor := d.load (o + 4) 2
  nlink := d.load (o + 6) 2
  size := d.load (o + 8) 4
  addrs := fun k => d.load (o + 12 + 4 * k) 4

/-- `memmove(dip->addrs, ip->addrs, sizeof(ip->addrs))`. -/
def storeAddrs (d : Block) (o : Nat) (a : Fin NADDR → Nat) : Block :=
  (List.finRange NADDR).foldl (fun d (k : Fin NADDR) => d.store (o + 12 + 4 * k) 4 (a k)) d

/-- The assignments of `iupdate` to the inode at offset `o`. -/
def store (d : Block) (o : Nat) (x : Dinode) : Block :=
  let d := d.store o 2 x.type
  let d := d.store (o + 2) 2 x.major
  let d := d.store (o + 4) 2 x.minor
  let d := d.store (o + 6) 2 x.nlink
  let d := d.store (o + 8) 4 x.size
  storeAddrs d o x.addrs

end Dinode

/-- The fields of an inode other than its size and its blocks. -/
@[ext] structure Attr where
  type : Nat
  major : Nat
  minor : Nat
  nlink : Nat
  deriving DecidableEq

def Dinode.attr (x : Dinode) : Attr := ⟨x.type, x.major, x.minor, x.nlink⟩

def Dinode.setAttr (x : Dinode) (m : Attr) : Dinode :=
  { x with type := m.type, major := m.major, minor := m.minor, nlink := m.nlink }

/-! ## State -/

/-- `struct inode`. -/
structure Inode where
  inum : Nat
  ref : Nat
  valid : Bool
  din : Dinode

/-- The blocks and the inode table. -/
structure Fs where
  blocks : Nat → Block
  itable : Fin NINODE → Inode

/-- Block `b` replaced by `d`. -/
abbrev Fs.setBlock (s : Fs) (b : Nat) (d : Block) : Fs :=
  { s with blocks := update s.blocks b d }

abbrev FsM := EStateM Stop Fs

/-- Contents of block `b` as `bread` returns them. -/
def bread (b : Nat) : FsM Block := do return (← get).blocks b

/-- Change block `b` to `d` and `log_write` it. -/
def writeBlock (b : Nat) (d : Block) : FsM Unit :=
  modify fun s => s.setBlock b d

def setInode (ip : Fin NINODE) (x : Inode) : FsM Unit :=
  modify fun s => { s with itable := update s.itable ip x }

/-- Change the on-disk part of the in-memory inode. -/
def modifyDin (ip : Fin NINODE) (f : Dinode → Dinode) : FsM Unit :=
  modify fun s =>
    let x := s.itable ip
    { s with itable := update s.itable ip { x with din := f x.din } }

/-- `ip->addrs[k] = b`. -/
def setAddr (ip : Fin NINODE) (k : Fin NADDR) (b : Nat) : FsM Unit :=
  modifyDin ip fun x => { x with addrs := update x.addrs k b }

section Functions

variable (sb : Superblock)

/-! ## Blocks -/

def bzero (b : Nat) : FsM Unit := writeBlock b Block.zero

/-- The inner loop of `balloc` over the bits `bi ..` of a bitmap block, `n` of
    them left. -/
def scan (d : Block) (b : Nat) : Nat → Nat → Option Nat
  | 0, _ => none
  | n + 1, bi =>
    if b + bi < sb.size then
      if d.bit bi then scan d b n (bi + 1) else some bi
    else none

/-- The outer loop of `balloc` over the bitmap blocks, at most `n` of them. -/
def balloc_loop : Nat → Nat → FsM Nat
  | 0, _ => throw (.panic "balloc: out of blocks")
  | n + 1, b =>
    if b < sb.size then do
      let d ← bread (BBLOCK sb b)
      match scan sb d b BPB 0 with
      | some bi =>
        writeBlock (BBLOCK sb b) (d.setBit bi)  -- mark block in use
        bzero (b + bi)
        return b + bi
      | none => balloc_loop n (b + BPB)
    else throw (.panic "balloc: out of blocks")

def balloc : FsM Nat := balloc_loop sb (sb.size / BPB + 1) 0

def bfree (b : Nat) : FsM Unit := do
  let d ← bread (BBLOCK sb b)
  if d.bit (b % BPB) then writeBlock (BBLOCK sb b) (d.clearBit (b % BPB))
  else throw (.panic "freeing free block")

/-! ## Inodes -/

/-- Offset of inode `i` in its block. -/
def ioff (i : Nat) : Nat := i % IPB * DINODE

def iget (inum : Nat) : FsM (Fin NINODE) := do
  let s ← get
  match (List.finRange NINODE).find? (fun ip => 0 < (s.itable ip).ref ∧ (s.itable ip).inum = inum)
    with
  | some ip =>
    setInode ip { s.itable ip with ref := (s.itable ip).ref + 1 }
    return ip
  | none =>
    -- recycle an entry
    match (List.finRange NINODE).find? (fun ip => (s.itable ip).ref = 0) with
    | some ip =>
      setInode ip { s.itable ip with inum := inum, ref := 1, valid := false }
      return ip
    | none => throw (.panic "iget: no inodes")

/-- The loop of `ialloc` from `inum` on, `n` inodes left. -/
def ialloc_loop (type : Nat) : Nat → Nat → FsM (Fin NINODE)
  | 0, _ => throw (.panic "ialloc: no inodes")
  | n + 1, inum => do
    let d ← bread (IBLOCK sb inum)
    if d.load (ioff inum) 2 = 0 then  -- a free inode
      writeBlock (IBLOCK sb inum) ((d.clear (ioff inum) DINODE).store (ioff inum) 2 type)
      iget inum
    else ialloc_loop type n (inum + 1)

def ialloc (type : Nat) : FsM (Fin NINODE) := ialloc_loop sb type (sb.ninodes - 1) 1

def iupdate (ip : Fin NINODE) : FsM Unit := do
  let s ← get
  let d ← bread (IBLOCK sb (s.itable ip).inum)
  writeBlock (IBLOCK sb (s.itable ip).inum)
    (Dinode.store d (ioff (s.itable ip).inum) (s.itable ip).din)

def idup (ip : Fin NINODE) : FsM Unit := do
  let s ← get
  setInode ip { s.itable ip with ref := (s.itable ip).ref + 1 }

def ilock (ip : Fin NINODE) : FsM Unit := do
  let s ← get
  if (s.itable ip).ref < 1 then throw (.panic "ilock")
  else if (s.itable ip).valid then pure ()
  else
    let d ← bread (IBLOCK sb (s.itable ip).inum)
    let x := Dinode.load d (ioff (s.itable ip).inum)
    setInode ip { s.itable ip with din := x, valid := true }
    if x.type = 0 then throw (.panic "ilock: no type") else pure ()

/-! ## Inode content -/

/-- `if((addr = ip->addrs[k]) == 0) ip->addrs[k] = addr = balloc(ip->dev)`. -/
def rootEntry (ip : Fin NINODE) (k : Fin NADDR) : FsM Nat := do
  let s ← get
  if (s.itable ip).din.addrs k = 0 then
    let b ← balloc sb
    setAddr ip k b
    return b
  else return (s.itable ip).din.addrs k

/-- Entry `j` of the pointer block `c`, allocating if necessary. -/
def blockEntry (c j : Nat) : FsM Nat := do
  let d ← bread c
  if d.word j = 0 then
    let b ← balloc sb
    let d ← bread c
    writeBlock c (d.setWord j b)
    return b
  else return d.word j

def bmap (ip : Fin NINODE) (bn : Nat) : FsM Nat :=
  if h : bn < NDIRECT then rootEntry sb ip ⟨bn, lt_NADDR h⟩
  else
    let bn := bn - NDIRECT
    if bn < NINDIRECT then do
      let a ← rootEntry sb ip 11
      blockEntry sb a bn
    else
      let bn := bn - NINDIRECT
      if bn < NINDIRECT_SEC then do
        let a ← rootEntry sb ip 12
        let a ← blockEntry sb a (bn / NINDIRECT)
        blockEntry sb a (bn % NINDIRECT)
      else throw (.panic "bmap: out of range")

/-- The loop of `itrunc` over the direct blocks. -/
def freeDirect (ip : Fin NINODE) : List (Fin NADDR) → FsM Unit
  | [] => pure ()
  | k :: ks => do
    let s ← get
    if (s.itable ip).din.addrs k ≠ 0 then
      bfree sb ((s.itable ip).din.addrs k)
      setAddr ip k 0
      freeDirect ip ks
    else freeDirect ip ks

/-- The loop of `itrunc` over the entries of the pointer block `c`. -/
def freeEntries (c : Nat) : List Nat → FsM Unit
  | [] => pure ()
  | j :: js => do
    let d ← bread c
    if d.word j ≠ 0 then
      bfree sb (d.word j)
      freeEntries c js
    else freeEntries c js

/-- The loop of `itrunc` over the entries of the doubly-indirect block `c`. -/
def freeSecond (c : Nat) : List Nat → FsM Unit
  | [] => pure ()
  | j :: js => do
    let d ← bread c
    if d.word j ≠ 0 then
      freeEntries sb (d.word j) (List.range NINDIRECT)
      bfree sb (d.word j)
      freeSecond c js
    else freeSecond c js

/-- The direct indices of `addrs`. -/
def directs : List (Fin NADDR) := (List.finRange NADDR).take NDIRECT

section

variable (ip : Fin NINODE)

/-- The indirect block in `itrunc`. -/
def freeIndirect : FsM Unit := do
  let s ← get
  if (s.itable ip).din.addrs 11 ≠ 0 then
    freeEntries sb ((s.itable ip).din.addrs 11) (List.range NINDIRECT)
    bfree sb ((s.itable ip).din.addrs 11)
    setAddr ip 11 0
  else pure ()

/-- The doubly-indirect block in `itrunc`. -/
def freeDouble : FsM Unit := do
  let s ← get
  if (s.itable ip).din.addrs 12 ≠ 0 then
    freeSecond sb ((s.itable ip).din.addrs 12) (List.range NINDIRECT)
    bfree sb ((s.itable ip).din.addrs 12)
    setAddr ip 12 0
  else pure ()

def itrunc : FsM Unit := do
  freeDirect sb ip directs
  freeIndirect sb ip
  freeDouble sb ip
  modifyDin ip fun x => { x with size := 0 }
  iupdate sb ip

/-- The part of `iput` for an inode that has no links and no other references:
    truncate and free. -/
def ifree : FsM Unit := do
  itrunc sb ip
  modifyDin ip fun x => { x with type := 0 }
  iupdate sb ip
  let s ← get
  setInode ip { s.itable ip with valid := false }

/-- `ip->ref--`. -/
def unref : FsM Unit := do
  let s ← get
  setInode ip { s.itable ip with ref := (s.itable ip).ref - 1 }

def iput : FsM Unit := do
  let s ← get
  if (s.itable ip).ref = 1 ∧ (s.itable ip).valid = true ∧ (s.itable ip).din.nlink = 0 then
    ifree sb ip
    unref ip
  else unref ip

/-- `ip->nlink = v; iupdate(ip)`, as `link`, `unlink` and `create` do. -/
def setNlink (v : Nat) : FsM Unit := do
  modifyDin ip fun x => { x with nlink := v % 2 ^ 16 }
  iupdate sb ip

end

/-- `either_copyin`: for a source address and a length, the bytes that arrive
    in the buffer and whether all of them did. A buffer with an incomplete copy
    is not logged, so what is in it can get lost again; then none count. -/
structure Copyin where
  run : Nat → Nat → List UInt8 × Bool
  len : ∀ src m, (run src m).1.length ≤ m
  full : ∀ src m, (run src m).2 = true → (run src m).1.length = m

/-- The loop of `writei`; returns `tot` and the final `off`. The first argument
    bounds the number of rounds. -/
def writei_loop (cp : Copyin) (ip : Fin NINODE) (n : Nat) : Nat → Nat → Nat → Nat → FsM (Nat × Nat)
  | 0, tot, off, _ => return (tot, off)
  | k + 1, tot, off, src =>
    if tot < n then do
      let b ← bmap sb ip (off / BSIZE)
      let d ← bread b
      let m := min (n - tot) (BSIZE - off % BSIZE)
      -- a copy that fails has changed the buffer as well
      writeBlock b (d.copy (off % BSIZE) (cp.run src m).1)
      if (cp.run src m).2 then writei_loop cp ip n k (tot + m) (off + m) ((src + m) % 2 ^ 64)
      else return (tot, off)
    else return (tot, off)

def writei (cp : Copyin) (ip : Fin NINODE) (src off n : Nat) : FsM Int := do
  let s ← get
  if off > (s.itable ip).din.size ∨ (off + n) % 2 ^ 32 < off then return -1
  else if (off + n) % 2 ^ 32 > MAXFILE * BSIZE then return -1
  else do
    let (tot, off) ← writei_loop sb cp ip n n 0 off src
    modifyDin ip fun x => { x with size := max off x.size }
    iupdate sb ip
    return tot

/-- The loop of `readi`; returns `tot` and the bytes delivered so far, `none`
    for a copy that failed. -/
def readi_loop (cp : Nat → Nat → Bool) (ip : Fin NINODE) (n : Nat) :
    Nat → Nat → Nat → Nat → List UInt8 → FsM (Option Nat × List UInt8)
  | 0, tot, _, _, out => return (some tot, out)
  | k + 1, tot, off, dst, out =>
    if tot < n then do
      let b ← bmap sb ip (off / BSIZE)
      let d ← bread b
      let m := min (n - tot) (BSIZE - off % BSIZE)
      if cp dst m then
        readi_loop cp ip n k (tot + m) (off + m) ((dst + m) % 2 ^ 64)
          (out ++ (List.range m).map fun i => d.byte (off % BSIZE + i))
      else return (none, out)
    else return (some tot, out)

/-- `readi` with the bytes it delivers; `cp` says which `either_copyout` calls
    succeed. -/
def readi (cp : Nat → Nat → Bool) (ip : Fin NINODE) (dst off n : Nat) : FsM (Int × List UInt8) := do
  let s ← get
  let size := (s.itable ip).din.size
  if off > size ∨ (off + n) % 2 ^ 32 < off then return (0, [])
  else do
    let n := if (off + n) % 2 ^ 32 > size then size - off else n
    let (tot, out) ← readi_loop sb cp ip n n 0 off dst []
    match tot with
    | some tot => return (tot, out)
    | none => return (-1, out)

end Functions

end NoviceKernel.FS
