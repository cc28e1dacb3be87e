import Mathlib.Logic.Function.Basic
import NoviceKernel.Lib.Bytes
import NoviceKernel.Param

/-! # Physical memory and page tables (`kalloc.c`, `vm.c`)

    Memory is bytes; page tables are words in it.  The free list is a list of
    page addresses (the links are in pages that are on the list, which nobody
    else reads), and `refcount` is as in the source.

    Addresses and sizes are 64-bit: sums are taken modulo `2 ^ 64`. -/

namespace NoviceKernel.VM

open Function

/-! ## `riscv.h`, `memlayout.h` -/

/-- Bytes per page. -/
def PGSIZE : Nat := 4096

def PGROUNDUP (sz : Nat) : Nat := (sz + (PGSIZE - 1)) % 2 ^ 64 / PGSIZE * PGSIZE

def PGROUNDDOWN (a : Nat) : Nat := a / PGSIZE * PGSIZE

/-- A number as an `int`. -/
def toInt (n : Nat) : Int :=
  if n % 2 ^ 32 < 2 ^ 31 then (n % 2 ^ 32 : Nat) else (n % 2 ^ 32 : Nat) - 2 ^ 32

/-- An `int` as a `uint64`. -/
def ofInt (i : Int) : Nat := (i % 2 ^ 64).toNat

def PTE_V : Nat := 1
def PTE_R : Nat := 2
def PTE_W : Nat := 4
def PTE_X : Nat := 8
/-- User can access. -/
def PTE_U : Nat := 16

/-- Shift a physical address to the right place for a PTE. -/
def PA2PTE (pa : Nat) : Nat := (pa >>> 12) <<< 10

def PTE2PA (pte : Nat) : Nat := ((pte >>> 10) <<< 12) % 2 ^ 64

def PTE_FLAGS (pte : Nat) : Nat := pte &&& 0x3FF

/-- The index of `va` at a level of the tree. -/
def PX (level va : Nat) : Nat := (va >>> (12 + 9 * level)) &&& 0x1FF

/-- One beyond the highest possible virtual address. -/
def MAXVA : Nat := 2 ^ 38

def KERNBASE : Nat := 0x80000000
def PHYSTOP : Nat := KERNBASE + 128 * 1024 * 1024
def TRAMPOLINE : Nat := MAXVA - PGSIZE
def TRAPFRAME : Nat := TRAMPOLINE - PGSIZE
def KSTACK (p : Nat) : Nat := TRAMPOLINE - (p + 1) * 2 * PGSIZE
def UART0 : Nat := 0x10000000
def VIRTIO0 : Nat := 0x10001000
def PLIC : Nat := 0x0c000000

/-- The addresses that the linker script provides. -/
structure Layout where
  etext : Nat
  trampoline : Nat
  /-- First address after the kernel, `end` in the source. -/
  ends : Nat

/-- What `kernel.ld` guarantees of them. -/
structure Layout.Ok (lay : Layout) : Prop where
  etext_aligned : lay.etext % PGSIZE = 0
  kernbase_lt : KERNBASE < lay.etext
  etext_le : lay.etext ≤ lay.ends
  ends_le : lay.ends ≤ PHYSTOP
  trampoline_ge : KERNBASE ≤ lay.trampoline
  trampoline_lt : lay.trampoline < lay.etext

/-! ## State -/

/-- Memory, `kmem.freelist` and `refcount`. -/
structure Phys where
  mem : Nat → UInt8
  freelist : List Nat
  refcount : Nat → Nat

abbrev VmM := EStateM Stop Phys

/-- `memset(a, c, n)`. -/
def memset (a : Nat) (c : UInt8) (n : Nat) : VmM Unit :=
  modify fun s => { s with mem := Bytes.fill s.mem a n c }

/-- `memmove(a, src, n)` from `n` bytes `src`. -/
def memmove (a n : Nat) (src : Nat → UInt8) : VmM Unit :=
  modify fun s => { s with mem := Bytes.copy s.mem a n src }

/-- Entry `i` of the page-table page `pg`. -/
def pte (m : Nat → UInt8) (pg i : Nat) : Nat := Bytes.load m (pg + 8 * i) 8

/-- The entry at the address `pg + 8 * i`, which is what `walk` returns. -/
structure PteRef where
  pg : Nat
  i : Nat

def loadPte (r : PteRef) : VmM Nat := do return pte (← get).mem r.pg r.i

def storePte (r : PteRef) (v : Nat) : VmM Unit :=
  modify fun s => { s with mem := Bytes.store s.mem (r.pg + 8 * r.i) 8 v }

section Functions

variable (lay : Layout)

/-! ## `kalloc.c` -/

def kfree (pa : Nat) : VmM Unit := do
  if pa % PGSIZE ≠ 0 ∨ pa < lay.ends ∨ pa ≥ PHYSTOP then throw (.panic "kfree")
  else do
    let s ← get
    let pn := pa / PGSIZE
    if s.refcount pn < 1 then throw (.panic "kfree cow")
    else do
      set { s with refcount := update s.refcount pn (s.refcount pn - 1) }
      if s.refcount pn - 1 > 0 then return ()
      else do
        -- fill with junk to catch dangling refs
        memset pa 1 PGSIZE
        modify fun s => { s with freelist := pa :: s.freelist }

/-- A page, or 0 if there is none. -/
def kalloc : VmM Nat := do
  let s ← get
  match s.freelist with
  | [] => return 0
  | r :: rest =>
    if s.refcount (r / PGSIZE) ≠ 0 then throw (.panic "kalloc: ref")
    else do
      set { s with freelist := rest, refcount := update s.refcount (r / PGSIZE) 1 }
      memset r 5 PGSIZE  -- fill with junk
      return r

/-! ## `vm.c` -/

/-- One round of the loop of `walk`: from a page-table page to the next. -/
def walk_level (level pagetable va : Nat) (alloc : Bool) : VmM (Option Nat) := do
  let e ← loadPte ⟨pagetable, PX level va⟩
  if e &&& PTE_V ≠ 0 then return some (PTE2PA e)
  else if !alloc then return none
  else do
    let pg ← kalloc
    if pg = 0 then return none
    else do
      memset pg 0 PGSIZE
      storePte ⟨pagetable, PX level va⟩ (PA2PTE pg ||| PTE_V)
      return some pg

/-- The entry for `va`, none if a page-table page is missing. -/
def walk (pagetable va : Nat) (alloc : Bool) : VmM (Option PteRef) := do
  if va ≥ MAXVA then throw (.panic "walk")
  else do
    match ← walk_level 2 pagetable va alloc with
    | none => return none
    | some pagetable =>
      match ← walk_level 1 pagetable va alloc with
      | none => return none
      | some pagetable => return some ⟨pagetable, PX 0 va⟩

/-- The loop of `mappages`. An address at or above `MAXVA` stops it, so `n`
    rounds are enough if they lead there. -/
def mappages_loop (pagetable last perm : Nat) : Nat → Nat → Nat → VmM Int
  | 0, _, _ => throw (.panic "walk")
  | n + 1, a, pa => do
    match ← walk pagetable a true with
    | none => return -1
    | some r =>
      let e ← loadPte r
      if e &&& PTE_V ≠ 0 then throw (.panic "mappages: remap")
      else do
        storePte r (PA2PTE pa ||| perm ||| PTE_V)
        if a = last then return 0
        else mappages_loop pagetable last perm n ((a + PGSIZE) % 2 ^ 64) ((pa + PGSIZE) % 2 ^ 64)

def mappages (pagetable va size pa perm : Nat) : VmM Int :=
  if size = 0 then throw (.panic "mappages: size")
  else
    mappages_loop pagetable (PGROUNDDOWN ((va + size - 1) % 2 ^ 64)) perm (MAXVA / PGSIZE + 1)
      (PGROUNDDOWN va) pa

/-- `if(do_free) kfree(pa)`. -/
def kfree_if (do_free : Bool) (pa : Nat) : VmM Unit :=
  if do_free then kfree lay pa else pure ()

/-- One round of the loop of `uvmunmap`. -/
def unmap_page (pagetable a : Nat) (do_free : Bool) : VmM Unit := do
  match ← walk pagetable a false with
  | none => return ()
  | some r =>
    let e ← loadPte r
    if e &&& PTE_V = 0 then return ()
    else if PTE_FLAGS e = PTE_V then throw (.panic "uvmunmap: not a leaf")
    else do
      kfree_if lay do_free (PTE2PA e)
      storePte r 0

/-- The loop of `uvmunmap` from `a` to `stop`, `n` rounds at most. -/
def uvmunmap_loop (pagetable stop : Nat) (do_free : Bool) : Nat → Nat → VmM Unit
  | 0, _ => pure ()
  | n + 1, a =>
    if a < stop then do
      unmap_page lay pagetable a do_free
      uvmunmap_loop pagetable stop do_free n ((a + PGSIZE) % 2 ^ 64)
    else pure ()

def uvmunmap (pagetable va npages : Nat) (do_free : Bool) : VmM Unit :=
  if va % PGSIZE ≠ 0 then throw (.panic "uvmunmap: not aligned")
  else uvmunmap_loop lay pagetable ((va + npages * PGSIZE) % 2 ^ 64) do_free npages va

/-- The page table page of a new, empty tree; 0 if out of memory. -/
def uvmcreate : VmM Nat := do
  let pagetable ← kalloc
  if pagetable = 0 then return 0
  else do
    memset pagetable 0 PGSIZE
    return pagetable

def uvmdealloc (pagetable oldsz newsz : Nat) : VmM Nat :=
  if newsz ≥ oldsz then return oldsz
  else if PGROUNDUP newsz < PGROUNDUP oldsz then do
    let npages := ofInt (toInt ((PGROUNDUP oldsz - PGROUNDUP newsz) / PGSIZE))
    uvmunmap lay pagetable (PGROUNDUP newsz) npages true
    return newsz
  else return newsz

/-- The loop of `uvmalloc` from `a` on, `n` rounds at most; `oldsz` is rounded up. -/
def uvmalloc_loop (pagetable oldsz newsz : Nat) : Nat → Nat → VmM Nat
  | 0, _ => return newsz
  | n + 1, a =>
    if a < newsz then do
      let mem ← kalloc
      if mem = 0 then do
        let _ ← uvmdealloc lay pagetable a oldsz
        return 0
      else do
        memset mem 0 PGSIZE
        if (← mappages pagetable a PGSIZE mem (PTE_W ||| PTE_X ||| PTE_R ||| PTE_U)) ≠ 0 then do
          kfree lay mem
          let _ ← uvmdealloc lay pagetable a oldsz
          return 0
        else uvmalloc_loop pagetable oldsz newsz n ((a + PGSIZE) % 2 ^ 64)
    else return newsz

def uvmalloc (pagetable oldsz newsz : Nat) : VmM Nat :=
  if newsz < oldsz then return oldsz
  else uvmalloc_loop lay pagetable (PGROUNDUP oldsz) newsz (newsz / PGSIZE + 1) (PGROUNDUP oldsz)

/-- The loop of `freewalk` over the entries of a page; `freeChild` is the
    recursive call. -/
def freewalk_loop (freeChild : Nat → VmM Unit) (pagetable : Nat) : List Nat → VmM Unit
  | [] => pure ()
  | i :: is => do
    let e ← loadPte ⟨pagetable, i⟩
    if e &&& PTE_V ≠ 0 ∧ e &&& (PTE_R ||| PTE_W ||| PTE_X) = 0 then do
      -- this PTE points to a lower-level page table
      freeChild (PTE2PA e)
      storePte ⟨pagetable, i⟩ 0
      freewalk_loop freeChild pagetable is
    else if e &&& PTE_V ≠ 0 then throw (.panic "freewalk: leaf")
    else freewalk_loop freeChild pagetable is

/-- `freewalk`, for a tree with the given number of levels. Below the last
    level there are only leaves, which stop it. -/
def freewalk : Nat → Nat → VmM Unit
  | 0, _ => throw (.panic "freewalk: leaf")
  | levels + 1, pagetable => do
    freewalk_loop (freewalk levels) pagetable (List.range 512)
    kfree lay pagetable

theorem freewalk_succ (levels pagetable : Nat) : freewalk lay (levels + 1) pagetable = (do
    freewalk_loop (freewalk lay levels) pagetable (List.range 512)
    kfree lay pagetable) := rfl

-- a walk is never run by unification
attribute [irreducible] freewalk

def uvmfree (pagetable sz : Nat) : VmM Unit :=
  if sz > 0 then do
    uvmunmap lay pagetable 0 (PGROUNDUP sz / PGSIZE) true
    freewalk lay 3 pagetable
  else freewalk lay 3 pagetable

def uvmfreepage (pagetable va npages : Nat) : VmM Unit :=
  if npages > 0 then do
    uvmunmap lay pagetable va npages true
    freewalk lay 3 pagetable
  else freewalk lay 3 pagetable

/-- The loop of `uvmcopy` from `i` on, `n` rounds at most. -/
def uvmcopy_loop (old new sz : Nat) : Nat → Nat → VmM Int
  | 0, _ => return 0
  | n + 1, i =>
    if i < sz then do
      match ← walk old i false with
      | none => uvmcopy_loop old new sz n (i + PGSIZE)
      | some r =>
        let e ← loadPte r
        if e &&& PTE_V = 0 then uvmcopy_loop old new sz n (i + PGSIZE)
        else do
          let mem ← kalloc
          if mem = 0 then do
            uvmunmap lay new 0 (i / PGSIZE) true
            return -1
          else do
            let s ← get
            memmove mem PGSIZE fun x => s.mem (PTE2PA e + x)
            if (← mappages new i PGSIZE mem (PTE_FLAGS e)) ≠ 0 then do
              kfree lay mem
              uvmunmap lay new 0 (i / PGSIZE) true
              return -1
            else uvmcopy_loop old new sz n (i + PGSIZE)
    else return 0

def uvmcopy (old new sz : Nat) : VmM Int := uvmcopy_loop lay old new sz (sz / PGSIZE + 1) 0

end Functions

end NoviceKernel.VM
