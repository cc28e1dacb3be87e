import Mathlib.Algebra.Order.Group.Nat
import Mathlib.Data.List.Pairwise
import NoviceKernel.Lib.Linked
import NoviceKernel.Lib.TransitionSystem

/-! # The user heap allocator (`umalloc.c`)

    Blocks of whole headers; the free ones are linked in a circular list in
    increasing order of address, from `base` on.

    1. **Model**: `free`, `morecore` and `malloc` over the headers in memory.  The
       loops take fuel; `none` says that it was not enough.
    2. **The client**: calls of `malloc`, one call of `free` for each block it got,
       and writes into its blocks.
    3. **Blocks**: what the headers say about the free blocks and the live ones, and
       how it changes when a block is linked in, joined with its neighbour, taken
       out or split.
    4. **`free`**, 5. **`malloc`**: both return, and keep it.
    6. **The allocator** is sound as long as the units fit in a `uint`; they
       need not.  What it returns is aligned as what `sbrk` returns.

    Addresses are those of a user program and do not wrap. -/

namespace NoviceKernel.Umalloc

open TransitionSystem Linked Function List Nat

/-! ## 1. Model -/

/-- `union header`, 16 bytes. -/
structure Header where
  ptr : Nat
  /-- A `uint`, in headers. -/
  size : Nat
  deriving DecidableEq

/-- The memory, `freep` and what `sbrk` returned so far. -/
structure Heap where
  /-- The header at an address. -/
  mem : Nat → Header
  /-- 0 before the first `malloc`. -/
  freep : Nat
  /-- The end of all memory so far. -/
  brk : Nat
  /-- The results of `sbrk`. -/
  areas : List Nat
  /-- The headers that fit in them. -/
  got : Nat

/-- `*p = h`. -/
def put (mem : Nat → Header) (p : Nat) (h : Header) : Nat → Header := update mem p h

section Model

-- `&base`
variable (base : Nat)

/-- The loop of `free`. -/
def search (mem : Nat → Header) (bp : Nat) : Nat → Nat → Option Nat
  | 0, _ => none
  | n + 1, p =>
    if p < bp ∧ bp < (mem p).ptr then some p
    else if (mem p).ptr ≤ p ∧ (p < bp ∨ bp < (mem p).ptr) then some p
    else search mem bp n (mem p).ptr

/-- Behind the loop of `free`: the block becomes one with `p->s.ptr`, or points to it. -/
def joinNext (mem : Nat → Header) (p bp : Nat) : Nat → Header :=
  let q := (mem p).ptr
  if bp + 16 * (mem bp).size = q then
    put mem bp ⟨(mem q).ptr, ((mem bp).size + (mem q).size) % 2 ^ 32⟩
  else put mem bp ⟨q, (mem bp).size⟩

/-- Then `p` becomes one with it, or points to it. -/
def joinPrev (mem : Nat → Header) (p bp : Nat) : Nat → Header :=
  if p + 16 * (mem p).size = bp then
    put mem p ⟨(mem bp).ptr, ((mem p).size + (mem bp).size) % 2 ^ 32⟩
  else put mem p ⟨bp, (mem p).size⟩

def free (fuel ap : Nat) (s : Heap) : Option Heap :=
  let bp := ap - 16
  match search s.mem bp fuel s.freep with
  | none => none
  | some p => some { s with mem := joinPrev (joinNext s.mem p bp) p bp, freep := p }

/-- `sbrk(k)`: -1, or `k` bytes some way above all earlier ones. -/
def sbrk (answer : Option Nat) (nu : Nat) (s : Heap) : Option (Nat × Heap) :=
  match answer with
  | none => none
  | some gap =>
    let p := s.brk + gap
    some (p, { s with brk := p + 16 * nu, areas := p :: s.areas, got := s.got + nu })

/-- `if (nu < 4096) nu = 4096`. -/
def asked (nu : Nat) : Nat := if nu < 4096 then 4096 else nu

/-- `none` in the result is a null pointer. -/
def morecore (fuel : Nat) (answer : Option Nat) (nu : Nat) (s : Heap) :
    Option (Option Nat × Heap) :=
  match sbrk answer (asked nu) s with
  | none => some (none, s)
  | some (hp, s) =>
    let s := { s with mem := put s.mem hp { s.mem hp with size := asked nu } }
    match free fuel (hp + 16) s with
    | none => none
    | some s => some (some s.freep, s)

/-- The block `p` is large enough: take it, or its tail. -/
def take (nunits prevp p : Nat) (s : Heap) : Nat × Heap :=
  if (s.mem p).size = nunits then
    let mem := put s.mem prevp { s.mem prevp with ptr := (s.mem p).ptr }
    (p + 16, { s with mem := mem, freep := prevp })
  else
    let size := (s.mem p).size - nunits
    let mem := put s.mem p { s.mem p with size := size }
    let p := p + 16 * size
    let mem := put mem p { mem p with size := nunits }
    (p + 16, { s with mem := mem, freep := prevp })

/-- The loop of `malloc`; `os` are the answers of `sbrk`. -/
def mallocLoop (nunits : Nat) :
    Nat → (Nat → Option Nat) → Nat → Nat → Heap → Option (Option Nat × Heap)
  | 0, _, _, _, _ => none
  | fuel + 1, os, prevp, p, s =>
    if nunits ≤ (s.mem p).size then
      let r := take nunits prevp p s
      some (some r.1, r.2)
    else if p = s.freep then
      match morecore fuel (os 0) nunits s with
      | none => none
      | some (none, s) => some (none, s)
      | some (some p, s) => mallocLoop nunits fuel (fun i => os (i + 1)) p (s.mem p).ptr s
    else mallocLoop nunits fuel os p (s.mem p).ptr s

/-- `nbytes` and the header, in headers. -/
def nunits (nbytes : Nat) : Nat := (nbytes + 16 - 1) / 16 + 1

/-- The first call sets up the list. -/
def ready (s : Heap) : Heap :=
  if s.freep = 0 then { s with mem := put s.mem base ⟨base, 0⟩, freep := base } else s

def malloc (fuel : Nat) (os : Nat → Option Nat) (nbytes : Nat) (s : Heap) :
    Option (Option Nat × Heap) :=
  let s := ready base s
  mallocLoop (nunits nbytes) fuel os s.freep (s.mem s.freep).ptr s

end Model

/-! ## 2. The client -/

/-- The heap and the blocks that the client has. -/
structure State where
  heap : Heap
  live : List Nat

inductive Action where
  /-- `malloc(nbytes)`, with the answers of `sbrk`. -/
  | malloc (nbytes : Nat) (os : Nat → Option Nat)
  | free (ap : Nat)
  /-- The client writes into its blocks. -/
  | write (mem : Nat → Header)

/-- The bytes of the block at `ap` that are the client's. -/
def Payload (s : Heap) (ap a : Nat) : Prop := ap ≤ a ∧ a < ap - 16 + 16 * (s.mem (ap - 16)).size

/-- The call returns `x`: with enough fuel that is its result. -/
def Returns {α : Type} (f : Nat → Option α) (x : α) : Prop :=
  ∃ n, ∀ fuel, n ≤ fuel → f fuel = some x

/-- One call, or a write of the client. -/
def Step (base : Nat) (s : State) : Action → State → Prop
  | .malloc nbytes os, s' =>
    nunits nbytes * 16 < 2 ^ 31 ∧ ∃ r h, Returns (malloc base · os nbytes s.heap) (r, h) ∧
      s' = ⟨h, r.toList ++ s.live⟩
  | .free ap, s' =>
    ap ∈ s.live ∧ ∃ h, Returns (free · ap s.heap) h ∧ s' = ⟨h, s.live.erase ap⟩
  | .write mem, s' =>
    (∀ a, (∀ ap ∈ s.live, ¬ Payload s.heap ap a) → mem a = s.heap.mem a) ∧
      s' = { s with heap := { s.heap with mem := mem } }

/-- Before the first call; the heap grows above `base`. -/
def Initial (base : Nat) (s : State) : Prop :=
  s.heap.freep = 0 ∧ 0 < base ∧ base + 16 ≤ s.heap.brk ∧ s.heap.areas = [] ∧ s.heap.got = 0 ∧
    s.live = []

def system (base : Nat) : System State Action := ⟨Initial base, Step base⟩

/-! ## 3. Blocks -/

/-- The sizes and the pointers of all headers. -/
def size (mem : Nat → Header) (a : Nat) : Nat := (mem a).size
def next (mem : Nat → Header) (a : Nat) : Nat := (mem a).ptr

/-- The end of a block. -/
def fin (sz : Nat → Nat) (a : Nat) : Nat := a + 16 * sz a

/-- The units of some blocks. -/
def units (sz : Nat → Nat) : List Nat → Nat
  | [] => 0
  | b :: bs => sz b + units sz bs

/-- `p->s.ptr = q`. -/
def relink (mem : Nat → Header) (p q : Nat) : Nat → Header := put mem p ⟨q, size mem p⟩

/-- The block `a` takes in `b`, if it ends there. -/
def meld (mem : Nat → Header) (a b : Nat) : Nat → Header :=
  if fin (size mem) a = b then put mem a ⟨next mem b, size mem a + size mem b⟩ else mem

/-- Two blocks do not overlap. -/
def Apart (sz : Nat → Nat) (a b : Nat) : Prop := fin sz a ≤ b ∨ fin sz b ≤ a

/-- **The blocks** `bs` cut the memory from `lo` on that `sbrk` returned. -/
structure Tiled (lo : Nat) (s : Heap) (sz : Nat → Nat) (bs : List Nat) : Prop where
  low : lo ≤ s.brk
  inside : ∀ b ∈ bs, lo ≤ b ∧ 0 < sz b ∧ fin sz b ≤ s.brk
  apart : bs.Pairwise (Apart sz)
  sum : units sz bs = s.got
  align : ∀ b ∈ bs, ∃ p ∈ s.areas, b % 16 = p % 16

/-- A block among others: in the memory, apart from them, and aligned as a result of `sbrk`. -/
structure Placed (lo : Nat) (s : Heap) (sz : Nat → Nat) (b : Nat) (bs : List Nat) : Prop where
  low : lo ≤ b
  pos : 0 < sz b
  high : fin sz b ≤ s.brk
  apart : ∀ c ∈ bs, Apart sz b c
  align : ∃ p ∈ s.areas, b % 16 = p % 16

/-- No block ends where another one begins. -/
def Coalesced (sz : Nat → Nat) (as : List Nat) : Prop := ∀ a ∈ as, ∀ b ∈ as, fin sz a ≠ b

/-- **The heap**: `as` are the free blocks in the order of the list, `ls` the others. -/
structure Inv (base : Nat) (s : Heap) (as ls : List Nat) : Prop where
  root : size s.mem base = 0
  ring : Cycle (next s.mem) (base :: as)
  order : (base :: as).Pairwise (· < ·)
  start : s.freep ∈ base :: as
  tiled : Tiled (base + 16) s (size s.mem) (as ++ ls)

variable {s' : Heap}

section Blocks

variable {lo a b n : Nat} {s : Heap} {sz : Nat → Nat} {bs cs : List Nat} {mem : Nat → Header}
  {sz' : Nat → Nat}

theorem put_self (p : Nat) (h : Header) : put mem p h p = h := update_self ..

theorem put_of_ne {p : Nat} (h : Header) (ha : a ≠ p) : put mem p h a = mem a := update_of_ne ha ..

@[simp] theorem size_put (p : Nat) (h : Header) :
    size (put mem p h) = update (size mem) p h.size := by
  funext a
  by_cases ha : a = p
  · subst ha
    simp [size, put]
  · simp [size, put, ha]

@[simp] theorem next_put (p : Nat) (h : Header) :
    next (put mem p h) = update (next mem) p h.ptr := by
  funext a
  by_cases ha : a = p
  · subst ha
    simp [next, put]
  · simp [next, put, ha]

@[simp] theorem size_relink (p q : Nat) : size (relink mem p q) = size mem := by
  rw [relink, size_put, update_eq_self]

@[simp] theorem next_relink (p q : Nat) : next (relink mem p q) = update (next mem) p q :=
  next_put ..

theorem Apart.symm (h : Apart sz a b) : Apart sz b a := Or.symm h

instance : Std.Symm (Apart sz) := ⟨fun _ _ h => h.symm⟩

@[simp] theorem units_cons : units sz (b :: bs) = sz b + units sz bs := rfl

theorem units_append : units sz (bs ++ cs) = units sz bs + units sz cs := by
  induction bs with
  | nil => simp [units]
  | cons b bs ih => simp [ih, add_assoc]

theorem units_perm (h : bs.Perm cs) : units sz bs = units sz cs := by
  induction h with
  | nil => rfl
  | cons b _ ih => simp [ih]
  | swap a b bs => simp [add_left_comm]
  | trans _ _ ih1 ih2 => exact ih1.trans ih2

theorem le_units (h : b ∈ bs) : sz b ≤ units sz bs := by
  rw [units_perm (perm_cons_erase h)]
  exact Nat.le_add_right ..

theorem units_congr (h : ∀ b ∈ bs, sz' b = sz b) : units sz' bs = units sz bs := by
  induction bs with
  | nil => rfl
  | cons b bs ih =>
    rw [units_cons, units_cons, h b (mem_cons_self ..), ih fun c hc => h c (mem_cons_of_mem _ hc)]

/-- Sizes of other blocks do not matter. -/
theorem fin_update_of_ne (h : b ≠ a) : fin (update sz a n) b = fin sz b := by
  simp [fin, h]

@[simp] theorem fin_update_self : fin (update sz a n) a = a + 16 * n := by
  simp [fin]

theorem Placed.not_mem (h : Placed lo s sz b bs) : b ∉ bs := by
  intro hb
  have hap := h.apart b hb
  have hpos := h.pos
  unfold Apart fin at hap
  omega

/-- **Blocks one by one.** -/
theorem tiled_cons : Tiled lo s sz (b :: bs) ↔
    Placed lo s sz b bs ∧ sz b ≤ s.got ∧ Tiled lo { s with got := s.got - sz b } sz bs := by
  constructor
  · intro h
    obtain ⟨hap, hbs⟩ := pairwise_cons.mp h.apart
    obtain ⟨⟨hlow, hpos, hhigh⟩, hin⟩ := forall_mem_cons.mp h.inside
    obtain ⟨hal, hals⟩ := forall_mem_cons.mp h.align
    have hsum : sz b + units sz bs = s.got := h.sum
    exact ⟨⟨hlow, hpos, hhigh, hap, hal⟩, by omega, h.low, hin, hbs, (by dsimp only; omega), hals⟩
  · rintro ⟨hb, hle, h⟩
    refine ⟨h.low, forall_mem_cons.mpr ⟨⟨hb.low, hb.pos, hb.high⟩, h.inside⟩,
      pairwise_cons.mpr ⟨hb.apart, h.apart⟩, ?_, forall_mem_cons.mpr ⟨hb.align, h.align⟩⟩
    rw [units_cons, h.sum]
    exact add_sub_of_le hle

namespace Tiled

/-- The order of the blocks does not matter. -/
theorem perm (h : Tiled lo s sz bs) (hp : bs.Perm cs) : Tiled lo s sz cs where
  low := h.low
  inside b hb := h.inside b (hp.mem_iff.mpr hb)
  apart := hp.pairwise h.apart fun h => h.symm
  sum := (units_perm hp).symm.trans h.sum
  align b hb := h.align b (hp.mem_iff.mpr hb)

theorem not_mem (h : Tiled lo s sz (a :: bs)) : a ∉ bs := (tiled_cons.mp h).1.not_mem

section

variable (h : Tiled lo s sz bs)
include h

/-- Of two blocks the lower one ends before the other. -/
theorem fin_le (ha : a ∈ bs) (hb : b ∈ bs) (hlt : a < b) : fin sz a ≤ b := by
  have hap : Apart sz a b :=
    h.apart.forall ha hb (Nat.ne_of_lt hlt)
  have hpos := (h.inside b hb).2.1
  unfold Apart fin at *
  omega

/-- The blocks keep what they are if no size changes. -/
theorem congr (hbrk : s'.brk = s.brk) (hareas : s'.areas = s.areas)
    (hgot : s'.got = s.got) : Tiled lo s' sz bs where
  low := hbrk ▸ h.low
  inside b hb := hbrk ▸ h.inside b hb
  apart := h.apart
  sum := hgot ▸ h.sum
  align b hb := hareas ▸ h.align b hb

/-- Only the sizes of the blocks matter. -/
theorem agree (heq : ∀ b ∈ bs, sz' b = sz b) : Tiled lo s sz' bs where
  low := h.low
  inside b hb := by
    rw [fin, heq b hb]
    exact h.inside b hb
  apart := by
    refine h.apart.imp_of_mem ?_
    intro a b ha hb hab
    unfold Apart fin at hab ⊢
    rwa [heq a ha, heq b hb]
  sum := (units_congr heq).trans h.sum
  align := h.align

/-- No block begins behind all memory. -/
theorem ne_of_le (ha : s.brk ≤ a) (hb : b ∈ bs) : b ≠ a := by
  have := h.inside b hb
  unfold fin at this
  omega

end

/-- **Two adjacent blocks** become one. -/
theorem join (h : Tiled lo s sz (a :: b :: bs)) (hab : fin sz a = b) :
    Tiled lo s (update sz a (sz a + sz b)) (a :: bs) := by
  obtain ⟨ha, hga, h⟩ := tiled_cons.mp h
  obtain ⟨hb, hgb, h⟩ := tiled_cons.mp h
  have hne : ∀ c ∈ bs, c ≠ a := fun c hc he => ha.not_mem (mem_cons_of_mem _ (he ▸ hc))
  have hfin : a + 16 * (sz a + sz b) = fin sz b := by
    rw [← hab]
    unfold fin
    omega
  refine tiled_cons.mpr ⟨⟨ha.low, ?_, ?_, ?_, ha.align⟩, ?_,
    (h.agree fun c hc => update_of_ne (hne c hc) ..).congr rfl rfl ?_⟩
  · rw [update_self]
    exact Nat.add_pos_left ha.pos _
  · rw [fin_update_self, hfin]
    exact hb.high
  · intro c hc
    have h1 := ha.apart c (mem_cons_of_mem _ hc)
    have h2 := hb.apart c hc
    -- a block that is not above the second one is below the first one
    have hpos := (h.inside c hc).2.1
    unfold Apart at h1 h2 ⊢
    rw [fin_update_self, fin_update_of_ne (hne c hc), hfin]
    unfold fin at *
    omega
  · dsimp only at hgb
    rw [update_self]
    omega
  · rw [update_self]
    exact (Nat.sub_sub ..).symm

/-- **A block is split**: its tail of `n` units is a block of its own. -/
theorem split (h : Tiled lo s sz (a :: bs)) (hn : 0 < n) (hlt : n < sz a)
    (hb : b = a + 16 * (sz a - n)) :
    Tiled lo s (update (update sz a (sz a - n)) b n) (a :: b :: bs) := by
  obtain ⟨⟨hlow, -, hhigh, hap, p, hp, hal⟩, hga, h⟩ := tiled_cons.mp h
  have hba : b ≠ a := by omega
  unfold Apart fin at hap
  unfold fin at hhigh
  have hne : ∀ c ∈ bs, c ≠ a ∧ c ≠ b := by
    intro c hc
    have h1 := hap c hc
    have h2 := (h.inside c hc).2.1
    omega
  have hsa : update (update sz a (sz a - n)) b n a = sz a - n := by
    rw [update_of_ne hba.symm, update_self]
  have hsc : ∀ c ∈ bs, update (update sz a (sz a - n)) b n c = sz c := by
    intro c hc
    rw [update_of_ne (hne c hc).2, update_of_ne (hne c hc).1]
  refine tiled_cons.mpr ⟨⟨hlow, by omega, ?_, forall_mem_cons.mpr ⟨?_, fun c hc => ?_⟩, p, hp, hal⟩,
    by omega, tiled_cons.mpr ⟨⟨by omega, ?_, ?_, fun c hc => ?_, p, hp, by omega⟩, ?_,
      (h.agree hsc).congr rfl rfl ?_⟩⟩
  · rw [fin, hsa]
    omega
  · -- the first part ends where the second one begins
    left
    rw [fin, hsa, hb]
  · have := hap c hc
    rw [Apart, fin, fin, hsa, hsc c hc]
    omega
  · rwa [update_self]
  · rw [fin_update_self]
    dsimp only
    omega
  · have := hap c hc
    rw [Apart, fin_update_self, fin, hsc c hc]
    omega
  · dsimp only
    rw [hsa, update_self]
    omega
  · dsimp only
    rw [hsa, update_self]
    omega

end Tiled

end Blocks

variable {a b : Nat}

section Returns

variable {α : Type} {f g : Nat → Option α} {x y : α}

/-- Two results of one call are the same. -/
theorem Returns.unique (hx : Returns f x) (hy : Returns f y) : x = y := by
  obtain ⟨n, hn⟩ := hx
  obtain ⟨m, hm⟩ := hy
  have h1 := hn (max n m) (le_max_left n m)
  have h2 := hm (max n m) (le_max_right n m)
  exact Option.some.inj (h1.symm.trans h2)

/-- A call that goes on as another one after `n` rounds. -/
theorem Returns.rounds (h : Returns f x) (n : Nat) (hg : ∀ k, g (k + n) = f k) : Returns g x := by
  obtain ⟨m, hm⟩ := h
  refine ⟨m + n, ?_⟩
  intro fuel hf
  obtain ⟨k, rfl⟩ : ∃ k, fuel = k + n := ⟨fuel - n, by omega⟩
  rw [hg, hm k (by omega)]

theorem Returns.of_rounds (n : Nat) (hg : ∀ k, g (k + n) = some x) : Returns g x :=
  Returns.rounds (f := fun _ => some x) ⟨0, fun _ _ => rfl⟩ n hg

end Returns

/-! ## 4. free -/

section Free

variable {base p bp : Nat} {s : Heap} {mem : Nat → Header} {as ls l₁ l₂ pre post : List Nat}
  {q : Nat}

/-- Upwards from a block below `bp`, the search finds the last such block. -/
theorem search_up (h : Path (next mem) p l₂ base) (hs : (p :: l₂).Pairwise (· < ·))
    (hbase : base ≤ p) (hp : p < bp) (hbp : bp ∉ l₂) :
    ∃ m q r, p :: l₂ = m ++ q :: r ∧ q < bp ∧ (∀ y ∈ r, bp < y) ∧
      Returns (search mem bp · p) q := by
  induction l₂ generalizing p with
  | nil =>
    -- the last block of all
    refine ⟨[], p, [], rfl, hp, by simp, .of_rounds 1 ?_⟩
    intro k
    have hptr : (mem p).ptr = base := h
    simp only [search, hptr]
    split
    · rfl
    · rw [if_pos ⟨hbase, .inl hp⟩]
  | cons x l₂ ih =>
    have hptr : (mem p).ptr = x := h.1
    have hpx : p < x := rel_of_pairwise_cons hs (mem_cons_self ..)
    rcases lt_or_ge bp x with hlt | hge
    · refine ⟨[], p, x :: l₂, rfl, hp, ?_, .of_rounds 1 ?_⟩
      · intro y hy
        rcases mem_cons.mp hy with rfl | hy
        · exact hlt
        · have := rel_of_pairwise_cons (pairwise_cons.mp hs).2 hy
          omega
      · intro k
        rw [search, hptr, if_pos ⟨hp, hlt⟩]
    · have hxbp : x < bp := by
        rcases eq_or_lt_of_le hge with rfl | hlt
        · exact absurd (mem_cons_self ..) hbp
        · exact hlt
      obtain ⟨m, q, r, heq, hq, hr, hsearch⟩ := ih h.2 (pairwise_cons.mp hs).2 (by omega) hxbp
        (fun hm => hbp (mem_cons_of_mem _ hm))
      refine ⟨p :: m, q, r, by rw [heq]; rfl, hq, hr, hsearch.rounds 1 ?_⟩
      intro k
      rw [search, hptr, if_neg (by omega), if_neg (by omega)]

/-- From a block above `bp` the search goes on to the end and around. -/
theorem search_down (h : Path (next mem) p l₂ base) (hs : (p :: l₂).Pairwise (· < ·))
    (hbase : base < bp) (hp : bp < p) (hq : Returns (search mem bp · base) q) :
    Returns (search mem bp · p) q := by
  induction l₂ generalizing p with
  | nil =>
    have hptr : (mem p).ptr = base := h
    refine hq.rounds 1 ?_
    intro k
    rw [search, hptr, if_neg (by omega), if_neg (by omega)]
  | cons x l₂ ih =>
    have hptr : (mem p).ptr = x := h.1
    have hpx : p < x := rel_of_pairwise_cons hs (mem_cons_self ..)
    refine (ih h.2 (pairwise_cons.mp hs).2 (by omega)).rounds 1 ?_
    intro k
    rw [search, hptr, if_neg (by omega), if_neg (by omega)]

theorem exists_pre (h : base :: as = l₁ ++ a :: l₂) :
    ∃ pre, base :: pre = l₁ ++ [a] ∧ as = pre ++ l₂ := by
  cases l₁ with
  | nil =>
    obtain ⟨rfl, rfl⟩ := cons.inj h
    exact ⟨[], rfl, rfl⟩
  | cons c l₁ =>
    obtain ⟨rfl, rfl⟩ := cons.inj h
    exact ⟨l₁ ++ [a], rfl, by simp⟩

theorem Inv.base_lt (h : Inv base s as ls) (hb : b ∈ as ++ ls) : base + 16 ≤ b :=
  (h.tiled.inside b hb).1

/-- **The loop of `free`** finds the place of the block in the list. -/
theorem Inv.search (h : Inv base s as (bp :: ls)) :
    ∃ l₁ p pre post, base :: pre = l₁ ++ [p] ∧ as = pre ++ post ∧ p < bp ∧ (∀ y ∈ post, bp < y) ∧
      Returns (search s.mem bp · s.freep) p := by
  have hbase : base < bp := by
    have := h.base_lt (b := bp) (by simp)
    omega
  have hbp : bp ∉ as := by
    have := (h.tiled.perm perm_middle).not_mem
    exact fun hm => this (mem_append_left _ hm)
  obtain ⟨f1, f2, hsplit⟩ := append_of_mem h.start
  have hpath := h.ring.path_first hsplit
  have horder := h.order
  rw [hsplit] at horder
  have horder' : (s.freep :: f2).Pairwise (· < ·) := (pairwise_append.mp horder).2.1
  rcases lt_trichotomy s.freep bp with hlt | heq | hgt
  · -- the search starts below the block
    have hle : base ≤ s.freep := by
      rcases mem_cons.mp h.start with he | hm
      · omega
      · have := h.base_lt (mem_append_left _ hm)
        omega
    have hnot : bp ∉ f2 := by
      intro hm
      have : bp ∈ base :: as := by rw [hsplit]; simp [hm]
      rcases mem_cons.mp this with he | hm
      · omega
      · exact hbp hm
    obtain ⟨m, q, r, hmr, hq, hr, hsearch⟩ := search_up hpath horder' hle hlt hnot
    rw [hmr, ← append_assoc] at hsplit
    obtain ⟨pre, hpre, has⟩ := exists_pre hsplit
    exact ⟨f1 ++ m, q, pre, r, hpre, has, hq, hr, hsearch⟩
  · -- a free block and a block in use are not the same
    have := h.start
    rw [heq] at this
    rcases mem_cons.mp this with he | hm
    · omega
    · exact absurd hm hbp
  · obtain ⟨m, q, r, hmr, hq, hr, hsearch⟩ := search_up h.ring h.order (le_refl base) hbase hbp
    obtain ⟨pre, hpre, has⟩ := exists_pre hmr
    exact ⟨m, q, pre, r, hpre, has, hq, hr, search_down hpath horder' hbase hgt hsearch⟩

theorem Inv.nodup (h : Inv base s as ls) : (base :: as).Nodup :=
  h.order.imp ne_of_lt

theorem perm_mid {r : List Nat} : (pre ++ a :: r ++ ls).Perm (a :: (pre ++ r ++ ls)) := by
  rw [append_assoc, append_assoc]
  exact perm_middle

theorem cons_pre (hpre : base :: pre = l₁ ++ [p]) (r : List Nat) :
    base :: (pre ++ r) = l₁ ++ p :: r := by
  rw [← cons_append, hpre, append_assoc]
  rfl

theorem mem_pre (hpre : base :: pre = l₁ ++ [p]) (r : List Nat) : p ∈ base :: (pre ++ r) := by
  rw [cons_pre hpre]
  simp

/-- Every block in front of the place is at most its predecessor. -/
theorem le_of_pre (horder : (base :: (pre ++ post)).Pairwise (· < ·))
    (hpre : base :: pre = l₁ ++ [p]) : ∀ x ∈ base :: pre, x ≤ p := by
  intro x hx
  rw [cons_pre hpre] at horder
  rw [hpre] at hx
  rcases mem_append.mp hx with hx | hx
  · exact ((pairwise_append.mp horder).2.2 x hx p (by simp)).le
  · exact (mem_singleton.mp hx).le

/-- **A block is linked in** behind `p`. -/
theorem Inv.link (h : Inv base s (pre ++ post) (bp :: ls)) (hpre : base :: pre = l₁ ++ [p])
    (hbelow : ∀ x ∈ base :: pre, x < bp) (hpost : ∀ y ∈ post, bp < y) :
    Inv base { s with mem := relink (relink s.mem bp (next s.mem p)) p bp, freep := p }
      (pre ++ bp :: post) ls := by
  constructor
  · rw [size_relink, size_relink]
    exact h.root
  · have hring := h.ring
    have hnd := h.nodup
    rw [cons_pre hpre] at hring hnd
    have hnot : bp ∉ l₁ ++ p :: post := by
      rw [← cons_pre hpre, ← cons_append]
      intro hm
      rcases mem_append.mp hm with hm | hm
      · exact absurd (hbelow bp hm) (lt_irrefl _)
      · exact absurd (hpost bp hm) (lt_irrefl _)
    rw [next_relink, next_relink, cons_pre hpre]
    exact hring.insert hnd hnot
  · have horder := h.order
    rw [← cons_append] at horder ⊢
    obtain ⟨h1, h2, h3⟩ := pairwise_append.mp horder
    refine pairwise_append.mpr ⟨h1, pairwise_cons.mpr ⟨hpost, h2⟩, ?_⟩
    intro x hx y hy
    rcases mem_cons.mp hy with rfl | hy
    · exact hbelow x hx
    · exact h3 x hx y hy
  · exact mem_pre hpre _
  · rw [size_relink, size_relink]
    -- the block moves to the free ones
    exact (h.tiled.perm (perm_middle.trans perm_mid.symm)).congr rfl rfl rfl

/-- **Two free blocks become one.** -/
theorem Inv.join (h : Inv base s (pre ++ a :: b :: post) ls) (hab : fin (size s.mem) a = b)
    (hf : s.freep ∈ base :: (pre ++ a :: post)) :
    Inv base { s with mem := put s.mem a ⟨next s.mem b, size s.mem a + size s.mem b⟩ }
      (pre ++ a :: post) ls := by
  have hbase : base ≠ a := by
    have := h.base_lt (b := a) (by simp)
    omega
  constructor
  · rw [size_put, update_of_ne hbase]
    exact h.root
  · have hring := h.ring
    have hnd := h.nodup
    rw [← cons_append] at hring hnd ⊢
    rw [next_put]
    exact hring.remove hnd
  · refine h.order.sublist (List.Sublist.cons_cons base ?_)
    exact List.Sublist.append_left (List.Sublist.cons_cons a (sublist_cons_self b post)) pre
  · exact hf
  · rw [size_put]
    have htiled := h.tiled.perm (perm_mid.trans (perm_mid.cons a))
    exact ((htiled.join hab).perm perm_mid.symm).congr rfl rfl rfl

/-- No block begins where `a` ends. -/
def Tight (sz : Nat → Nat) (as : List Nat) (a : Nat) : Prop := ∀ b ∈ as, fin sz a ≠ b

/-- **A block is joined with the next one**, if it ends there.  Of the blocks `Q`
    no other begins at the end. -/
theorem Inv.meld {Q : Nat → Prop} (h : Inv base s (pre ++ b :: post) ls)
    (hpre : base :: pre = l₁ ++ [a]) (hf : s.freep ∈ base :: pre)
    (hQ : ∀ u ∈ pre ++ b :: post, Q u → Tight (size s.mem) (pre ++ b :: post) u) (hb : Q b) :
    ∃ post', Inv base { s with mem := meld s.mem a b } (pre ++ post') ls ∧
      (∀ u ∈ pre ++ post', Q u ∨ u = a → Tight (size (Umalloc.meld s.mem a b)) (pre ++ post') u) ∧
      ∀ u ∈ pre ++ b :: post, ∃ v ∈ pre ++ post', size s.mem u ≤
          size (Umalloc.meld s.mem a b) v := by
  by_cases hab : fin (size s.mem) a = b
  · have hmem : Umalloc.meld s.mem a b = put s.mem a ⟨next s.mem b, size s.mem a + size s.mem b⟩ :=
      if_pos hab
    rw [hmem, size_put]
    -- `base` has no units
    obtain ⟨l, rfl⟩ : ∃ l, pre = l ++ [a] := by
      cases l₁ with
      | nil =>
        obtain ⟨rfl, -⟩ := cons.inj hpre
        have := h.base_lt (b := b) (by simp)
        rw [fin, h.root] at hab
        omega
      | cons c l => exact ⟨l, (cons.inj hpre).2⟩
    have hsub : ∀ u ∈ l ++ [a] ++ post, u ∈ l ++ [a] ++ b :: post := by
      intro u hu
      rcases mem_append.mp hu with hu | hu
      · exact mem_append_left _ hu
      · exact mem_append_right _ (mem_cons_of_mem _ hu)
    refine ⟨post, ?_, ?_, ?_⟩
    · rw [← append_cons] at h ⊢
      refine h.join hab ?_
      rw [append_cons]
      exact mem_append_left post hf
    · intro u hu hqu v hv
      by_cases hua : u = a
      · -- the end of the joined block is the end of the second one
        rw [hua, fin_update_self, show a + 16 * (size s.mem a + size s.mem b) = fin
            (size s.mem) b by
          rw [← hab]; unfold fin; omega]
        exact hQ b (by simp) hb v (hsub v hv)
      · rw [fin_update_of_ne hua]
        exact hQ u (hsub u hu) (hqu.resolve_right hua) v (hsub v hv)
    · intro u hu
      by_cases hub : u = b
      · refine ⟨a, by simp, ?_⟩
        rw [hub, update_self]
        exact Nat.le_add_left ..
      · refine ⟨u, by simp at hu ⊢; tauto, ?_⟩
        by_cases hua : u = a
        · rw [hua, update_self]
          exact Nat.le_add_right ..
        · rw [update_of_ne hua]
  · rw [Umalloc.meld, if_neg hab]
    refine ⟨b :: post, h, ?_, fun u hu => ⟨u, hu, le_refl _⟩⟩
    rintro u hu (hq | rfl) v hv
    · exact hQ u hu hq v hv
    · -- a block that begins here is neither below `u` nor above `b`
      have horder : ((base :: pre) ++ b :: post).Pairwise (· < ·) := h.order
      obtain ⟨-, hpost, hlt⟩ := pairwise_append.mp horder
      have hub := hlt u (hpre ▸ by simp) b (by simp)
      have hle := h.tiled.fin_le (mem_append_left _ hu) (b := b) (by simp) hub
      have hpos := (h.tiled.inside u (mem_append_left _ hu)).2.1
      intro hv'
      rcases mem_append.mp hv with hv | hv
      · have := le_of_pre h.order hpre v (mem_cons_of_mem _ hv)
        unfold fin at hv'
        omega
      · rcases mem_cons.mp hv with rfl | hv
        · exact hab hv'
        · have := rel_of_pairwise_cons hpost hv
          omega

theorem Inv.sum_lt (h : Inv base s as ls) (hgot : s.got < 2 ^ 32) (ha : a ∈ base :: as)
    (hb : b ∈ as) (hne : a ≠ b) : size s.mem a + size s.mem b < 2 ^ 32 := by
  have hsum := h.tiled.sum
  rw [units_append, units_perm (perm_cons_erase hb), units_cons] at hsum
  rcases mem_cons.mp ha with rfl | ha
  · rw [h.root]
    omega
  · have : size s.mem a ≤ units (size s.mem) _ := le_units ((mem_erase_of_ne hne).mpr ha)
    omega

/-- The sizes that the first join can change. -/
theorem size_joinNext_of_ne (ha : a ≠ bp) : size (joinNext mem p bp) a = size mem a := by
  simp only [joinNext]
  split <;> rw [size_put, update_of_ne ha]

theorem size_joinPrev_of_ne (ha : a ≠ p) : size (joinPrev mem p bp) a = size mem a := by
  simp only [joinPrev]
  split <;> rw [size_put, update_of_ne ha]

/-- The first join comes before `p` points to the block. -/
theorem relink_joinNext (hp : p ≠ bp) (hq : next mem p = q) (hqp : q ≠ p) (hqb : q ≠ bp)
    (hsum : size mem bp + size mem q < 2 ^ 32) :
    relink (joinNext mem p bp) p bp = meld (relink (relink mem bp q) p bp) bp q := by
  subst hq
  by_cases hj : fin (size mem) bp = next mem p
  · have hjoin : joinNext mem p bp =
        put mem bp ⟨next mem (next mem p), size mem bp + size mem (next mem p)⟩ := by
      rw [← mod_eq_of_lt hsum]
      exact if_pos hj
    rw [hjoin, meld, size_relink, size_relink, if_pos hj, next_relink, next_relink,
      update_of_ne hqp, update_of_ne hqb, relink, size_put, update_of_ne hp]
    simp only [relink, size_put, update_of_ne hp]
    unfold put
    rw [update_comm hp, update_idem]
  · have hjoin : joinNext mem p bp = relink mem bp (next mem p) := if_neg hj
    rw [hjoin, meld, size_relink, size_relink, if_neg hj]

theorem joinPrev_eq (hp : p ≠ bp) (hsum : size mem p + size mem bp < 2 ^ 32) :
    joinPrev mem p bp = meld (relink mem p bp) p bp := by
  by_cases hj : fin (size mem) p = bp
  · have hjoin : joinPrev mem p bp = put mem p ⟨next mem bp, size mem p + size mem bp⟩ := by
      rw [← mod_eq_of_lt hsum]
      exact if_pos hj
    rw [hjoin, meld, size_relink, if_pos hj, next_relink, update_of_ne hp.symm]
    exact (update_idem ..).symm
  · rw [meld, size_relink, if_neg hj]
    exact if_neg hj

/-- What a call does not change: what `sbrk` returned, and the sizes of the blocks `ls`. -/
structure Keeps (s s' : Heap) (ls : List Nat) : Prop where
  areas : s'.areas = s.areas
  got : s'.got = s.got
  sizes : ∀ l ∈ ls, size s'.mem l = size s.mem l

theorem Inv.ne_of_mem (h : Inv base s as ls) {l : Nat} (ha : a ∈ base :: as) (hl : l ∈ ls) :
    l ≠ a := by
  rintro rfl
  rcases mem_cons.mp ha with rfl | ha
  · have := h.base_lt (mem_append_right _ hl)
    omega
  · have hap := (pairwise_append.mp h.tiled.apart).2.2 l ha l hl
    have hpos := (h.tiled.inside l (mem_append_left _ ha)).2.1
    unfold Apart fin at hap
    omega

/-- **The first join**: with `p` pointing to the block, only `p` can end where another
    one begins. -/
theorem Inv.joinNext (h : Inv base s (pre ++ post) (bp :: ls))
    (hc : Coalesced (size s.mem) (pre ++ post)) (hgot : s.got < 2 ^ 32)
    (hpre : base :: pre = l₁ ++ [p]) (hbelow : ∀ x ∈ base :: pre, x < bp)
    (hpost : ∀ y ∈ post, bp < y) :
    ∃ post', Inv base { s with mem := relink (joinNext s.mem p bp) p bp, freep := p }
        (pre ++ bp :: post') ls ∧
      (∀ u ∈ pre ++ bp :: post', u ≠ p →
        Tight (size (Umalloc.joinNext s.mem p bp)) (pre ++ bp :: post') u) ∧
      ∃ a ∈ pre ++ bp :: post', size s.mem bp ≤ size (Umalloc.joinNext s.mem p bp) a := by
  have hlink := h.link hpre hbelow hpost
  have hpm : p ∈ base :: pre := by
    rw [hpre]
    simp
  have hne : p ≠ bp := Nat.ne_of_lt (hbelow p hpm)
  have hnext := h.ring.path_first (cons_pre hpre post)
  have htight : ∀ u ∈ pre ++ bp :: post, u ≠ p ∧ u ≠ bp →
      Tight (size s.mem) (pre ++ bp :: post) u := by
    intro u hu ⟨hup, hub⟩ v hv
    have hu : u ∈ pre ++ post := by simpa [hub] using hu
    by_cases hvb : v = bp
    · rw [hvb]
      rcases mem_append.mp hu with hu | hu
      · -- `p` is between the two
        have hup' : u < p := lt_of_le_of_ne (le_of_pre h.order hpre u (mem_cons_of_mem _ hu)) hup
        have hub' := h.base_lt (b := u) (by simp [hu])
        have hpm' : p ∈ pre := (mem_cons.mp hpm).resolve_left (by omega)
        have := h.tiled.fin_le (a := u) (b := p) (by simp [hu]) (by simp [hpm']) hup'
        have := hbelow p hpm
        omega
      · have := hpost u hu
        unfold fin
        omega
    · exact hc u hu v (by simpa [hvb] using hv)
  cases post with
  | nil =>
    -- the block is the last one, and `p->s.ptr` is `base`
    have hbase := h.base_lt (b := bp) (by simp)
    have hjoin : Umalloc.joinNext s.mem p bp = relink s.mem bp (next s.mem p) := by
      refine if_neg ?_
      rw [show (s.mem p).ptr = base from hnext]
      omega
    rw [hjoin, size_relink]
    refine ⟨[], hlink, fun u hu hup => ?_, bp, by simp, le_refl _⟩
    by_cases hub : u = bp
    · intro v hv he
      have hv' : v ≤ bp := by
        rcases mem_append.mp hv with hv | hv
        · exact (hbelow v (mem_cons_of_mem _ hv)).le
        · exact (mem_singleton.mp hv).le
      have hpos := (hlink.tiled.inside bp (by simp)).2.1
      rw [size_relink, size_relink] at hpos
      rw [hub, fin] at he
      omega
    · exact htight u hu ⟨hup, hub⟩
  | cons y r =>
    have hq : next s.mem p = y := hnext.1
    have hpy := hbelow p hpm
    have hby := hpost y (by simp)
    have hsum := hlink.sum_lt hgot (a := bp) (b := y) (by simp) (by simp) hby.ne
    rw [size_relink, size_relink] at hsum
    rw [hq] at hlink
    rw [append_cons] at hlink htight
    obtain ⟨post', h', htight', hsizes⟩ := hlink.meld
      (show base :: (pre ++ [bp]) = (base :: pre) ++ [bp] from rfl) (mem_append_left [bp] hpm)
          (Q := fun u => u ≠ p ∧ u ≠ bp) (by
        rw [size_relink, size_relink]
        exact htight) ⟨by omega, by omega⟩
    rw [← relink_joinNext hne hq (by omega) (by omega) hsum] at h' htight' hsizes
    simp only [size_relink, ← append_cons] at h' htight' hsizes
    refine ⟨post', h', fun u hu hup => htight' u hu ?_, hsizes bp (by simp)⟩
    rcases eq_or_ne u bp with hub | hub
    · exact .inr hub
    · exact .inl ⟨hup, hub⟩

/-- **`free`** returns, and the block is free. -/
theorem Inv.free (h : Inv base s as (bp :: ls)) (hc : Coalesced (size s.mem) as)
    (hgot : s.got < 2 ^ 32) :
    ∃ s' as', Returns (free · (bp + 16) s) s' ∧ Inv base s' as' ls ∧ Coalesced (size s'.mem) as' ∧
      Keeps s s' ls ∧ ∃ a ∈ as', size s.mem bp ≤ size s'.mem a := by
  obtain ⟨l1, p, pre, post, hpre, rfl, hp, hpost, N, hsearch⟩ := h.search
  have hbelow : ∀ x ∈ base :: pre, x < bp := fun x hx => (le_of_pre h.order hpre x hx).trans_lt hp
  have hne : p ≠ bp := Nat.ne_of_lt hp
  have hpm : p ∈ base :: pre := by
    rw [hpre]
    simp
  have hlp : ∀ l ∈ ls, l ≠ p := by
    intro l hl
    exact h.ne_of_mem (mem_pre hpre post) (mem_cons_of_mem _ hl)
  have hlb : ∀ l ∈ ls, l ≠ bp := by
    have := (h.tiled.perm perm_middle).not_mem
    rintro l hl rfl
    exact this (mem_append_right _ hl)
  obtain ⟨post1, h1, htight, a1, ha1, hle1⟩ := h.joinNext hc hgot hpre hbelow hpost
  have hsum := h1.sum_lt hgot (mem_append_left (bp :: post1) hpm) (b := bp) (by simp) hne
  rw [size_relink] at hsum
  obtain ⟨post2, h2, htight2, hsizes⟩ := h1.meld hpre hpm (Q := (· ≠ p)) (by
    rw [size_relink]
    exact htight) hne.symm
  rw [← joinPrev_eq hne hsum] at h2 htight2 hsizes
  obtain ⟨a, ha, hle2⟩ := hsizes a1 ha1
  rw [size_relink] at hle2
  refine ⟨_, pre ++ post2, ⟨N, ?_⟩, h2, fun u hu => htight2 u hu (ne_or_eq u p), ⟨rfl, rfl, ?_⟩, a,
    ha, hle1.trans hle2⟩
  · intro fuel hf
    simp only [Umalloc.free, Nat.add_sub_cancel, hsearch fuel hf]
  · intro l hl
    change size (Umalloc.joinPrev (Umalloc.joinNext s.mem p bp) p bp) l = size s.mem l
    rw [size_joinPrev_of_ne (hlp l hl), size_joinNext_of_ne (hlb l hl)]

end Free

variable {mem : Nat → Header} {fuel : Nat} {r : Option Nat} {ap : Nat}

/-! ## 5. malloc -/

section Malloc

variable {base p prevp n : Nat} {s : Heap} {as ls : List Nat} {os : Nat → Option Nat}

section

variable {b : Nat} {mem : Nat → Header} (h : Inv base s as ls) (hprev : prevp ∈ base :: as)
include h hprev

/-- The block behind a node of the list, if it is not `base`. -/
theorem Inv.split_next (hnext : next s.mem prevp = p) (hp : p ≠ base) :
    ∃ l₁ pre post, base :: pre = l₁ ++ [prevp] ∧ as = pre ++ p :: post := by
  obtain ⟨l₁, l2, hsplit⟩ := append_of_mem hprev
  have hpath := h.ring.path_first hsplit
  obtain ⟨pre, hpre, has⟩ := exists_pre hsplit
  cases l2 with
  | nil => exact absurd (hnext.symm.trans hpath) hp
  | cons y post =>
    obtain rfl : p = y := hnext.symm.trans hpath.1
    exact ⟨l₁, pre, post, hpre, has⟩

/-- **The whole block** is taken out. -/
theorem Inv.unlink (hnext : next s.mem prevp = p) (hp : p ≠ base) :
    ∃ as', Inv base { s with mem := relink s.mem prevp (next s.mem p), freep := prevp } as'
        (p :: ls) ∧ ∀ a ∈ as', a ∈ as := by
  obtain ⟨l1, pre, post, hpre, rfl⟩ := h.split_next hprev hnext hp
  refine ⟨pre ++ post, ?_, ?_⟩
  · constructor
    · rw [size_relink]
      exact h.root
    · have hring := h.ring
      have hnd := h.nodup
      rw [cons_pre hpre] at hring hnd
      rw [next_relink, cons_pre hpre]
      exact hring.remove hnd
    · refine h.order.sublist (List.Sublist.cons_cons base ?_)
      exact List.Sublist.append_left (sublist_cons_self p post) pre
    · exact mem_pre hpre _
    · rw [size_relink]
      exact (h.tiled.perm (perm_mid.trans perm_middle.symm)).congr rfl rfl rfl
  · intro a ha
    rcases mem_append.mp ha with ha | ha <;> simp [ha]

/-- **The tail of the block** is taken. -/
theorem Inv.cut (hp : p ∈ as) (hn : 0 < n) (hlt : n < size s.mem p)
    (hb : b = p + 16 * (size s.mem p - n)) (hnext : next mem = next s.mem)
    (hsize : size mem = update (update (size s.mem) p (size s.mem p - n)) b n) :
    Inv base { s with mem := mem, freep := prevp } as (b :: ls) ∧ b ∉ as ++ ls ∧ b ≠ p := by
  obtain ⟨pre, post, rfl⟩ := append_of_mem hp
  have hperm : (pre ++ p :: post ++ ls).Perm (p :: (pre ++ post ++ ls)) := perm_mid
  have htiled := (h.tiled.perm hperm).split hn hlt hb
  have hbp : b ≠ p := by omega
  have hnb : b ∉ pre ++ p :: post ++ ls := by
    intro hm
    rcases mem_cons.mp (hperm.mem_iff.mp hm) with he | hm
    · exact hbp he
    · have := (htiled.perm (List.Perm.swap b p _)).not_mem
      exact this (mem_cons_of_mem _ hm)
  have hbase : base + 16 ≤ p := h.base_lt (by simp)
  refine ⟨?_, hnb, hbp⟩
  constructor
  · rw [hsize, update_of_ne (by omega), update_of_ne (by omega)]
    exact h.root
  · rw [hnext]
    exact h.ring
  · exact h.order
  · exact hprev
  · rw [hsize]
    refine (htiled.perm ?_).congr rfl rfl rfl
    have h1 : (p :: b :: (pre ++ post ++ ls)).Perm (b :: p :: (pre ++ post ++ ls)) :=
      List.Perm.swap ..
    have h2 : (b :: p :: (pre ++ post ++ ls)).Perm (b :: (pre ++ p :: post ++ ls)) :=
      hperm.symm.cons b
    exact h1.trans (h2.trans perm_middle.symm)

end

/-- **A block of `n` units** is taken from a block that is large enough. -/
theorem Inv.take (h : Inv base s as ls) (hc : Coalesced (size s.mem) as)
    (hprev : prevp ∈ base :: as) (hnext : next s.mem prevp = p) (hn : 0 < n)
    (hle : n ≤ size s.mem p) :
    ∃ b as', (take n prevp p s).1 = b + 16 ∧ Inv base (Umalloc.take n prevp p s).2 as' (b :: ls) ∧
      Coalesced (size (Umalloc.take n prevp p s).2.mem) as' ∧
      Keeps s (Umalloc.take n prevp p s).2 ls ∧ size (Umalloc.take n prevp p s).2.mem b = n := by
  have hp : p ≠ base := by
    rintro rfl
    have := h.root
    omega
  by_cases heq : (s.mem p).size = n
  · obtain ⟨as', h', hsub⟩ := h.unlink hprev hnext hp
    have htake : Umalloc.take n prevp p s =
        (p + 16, { s with mem := relink s.mem prevp (next s.mem p), freep := prevp }) := if_pos heq
    have hsize : size (relink s.mem prevp (next s.mem p)) = size s.mem := size_relink ..
    rw [htake]
    refine ⟨p, as', rfl, h', ?_, ⟨rfl, rfl, ?_⟩, ?_⟩
    · rw [hsize]
      exact fun a ha b hb => hc a (hsub a ha) b (hsub b hb)
    · intro l _
      rw [hsize]
    · rw [hsize]
      exact heq
  · have hpm : p ∈ as := by
      obtain ⟨l1, pre, post, -, has⟩ := h.split_next hprev hnext hp
      simp [has]
    have hlt : n < size s.mem p := lt_of_le_of_ne hle fun he => heq he.symm
    obtain ⟨b, hb⟩ : ∃ b, b = p + 16 * (size s.mem p - n) := ⟨_, rfl⟩
    obtain ⟨mem, hmem⟩ : ∃ mem, mem = put (put s.mem p ⟨next s.mem p, size s.mem p - n⟩) b
        ⟨next (put s.mem p ⟨next s.mem p, size s.mem p - n⟩) b, n⟩ := ⟨_, rfl⟩
    have htake : Umalloc.take n prevp p s = (b + 16, { s with mem := mem, freep := prevp }) := by
      rw [hmem, hb]
      simp only [Umalloc.take, if_neg heq]
      rfl
    have hnext' : next mem = next s.mem := by
      rw [hmem, next_put, update_eq_self, next_put, update_eq_self]
    have hsize : size mem = update (update (size s.mem) p (size s.mem p - n)) b n := by
      rw [hmem, size_put, size_put]
    obtain ⟨h', hnb, hbp⟩ := h.cut hprev hpm hn hlt hb hnext' hsize
    have hne : ∀ a ∈ as ++ ls, a ≠ b := fun a ha he => hnb (he ▸ ha)
    rw [htake]
    refine ⟨b, as, rfl, h', ?_, ⟨rfl, rfl, ?_⟩, ?_⟩
    · intro a ha c hc'
      change fin (size mem) a ≠ c
      rw [hsize, fin_update_of_ne (hne a (by simp [ha]))]
      by_cases hap : a = p
      · -- what is left of the block ends at the new one
        rw [hap, fin_update_self, ← hb]
        exact (hne c (by simp [hc'])).symm
      · rw [fin_update_of_ne hap]
        exact hc a ha c hc'
    · intro l hl
      have hlp : l ≠ p := h.ne_of_mem (mem_cons_of_mem _ hpm) hl
      change size mem l = size s.mem l
      rw [hsize, update_of_ne (hne l (by simp [hl])), update_of_ne hlp]
    · change size mem b = n
      rw [hsize, update_self]

/-- **Memory from `sbrk`** is a new block. -/
theorem Tiled.area {lo hp nu : Nat} {sz : Nat → Nat} {bs : List Nat}
    (h : Tiled lo s sz bs) (hhp : s.brk ≤ hp) (hnu : 0 < nu) :
    Tiled lo { s with mem := mem, brk := hp + 16 * nu, areas := hp :: s.areas, got := s.got + nu }
      (update sz hp nu) (hp :: bs) := by
  have h' : Tiled lo s (update sz hp nu) bs :=
    h.agree fun b hb => update_of_ne (h.ne_of_le hhp hb) ..
  refine tiled_cons.mpr ⟨⟨h.low.trans hhp, ?_, ?_, ?_, hp, mem_cons_self .., rfl⟩, ?_,
    h.low.trans (hhp.trans (Nat.le_add_right ..)), ?_, h'.apart, ?_, ?_⟩
  · rwa [update_self]
  · rw [fin_update_self]
  · intro b hb
    right
    exact (h'.inside b hb).2.2.trans hhp
  · rw [update_self]
    exact Nat.le_add_left ..
  · intro b hb
    obtain ⟨h1, h2, h3⟩ := h'.inside b hb
    exact ⟨h1, h2, h3.trans (hhp.trans (Nat.le_add_right ..))⟩
  · rw [update_self, h'.sum]
    exact (Nat.add_sub_cancel ..).symm
  · intro b hb
    obtain ⟨q, hq, he⟩ := h.align b hb
    exact ⟨q, mem_cons_of_mem _ hq, he⟩

/-- **`morecore`** returns; what it got is in a free block. -/
theorem Inv.morecore (h : Inv base s as ls) (hc : Coalesced (size s.mem) as) (gap : Nat)
    (hfit : s.got + asked n < 2 ^ 32) :
    ∃ s' as', Returns (morecore · (some gap) n s) (some s'.freep, s') ∧ Inv base s' as' ls ∧
      Coalesced (size s'.mem) as' ∧ (∀ l ∈ ls, size s'.mem l = size s.mem l) ∧
      ∃ a ∈ as', n ≤ size s'.mem a := by
  obtain ⟨hp, hhp⟩ : ∃ hp, hp = s.brk + gap := ⟨_, rfl⟩
  have hpos : 0 < asked n := by
    unfold asked
    split <;> omega
  have hnle : n ≤ asked n := by
    unfold asked
    split <;> omega
  have hlow := h.tiled.low
  have hin : ∀ b ∈ as ++ ls, b ≠ hp := fun b hb => h.tiled.ne_of_le (by omega) hb
  -- the new block as one that is in use
  obtain ⟨mem, hmem⟩ : ∃ mem, mem = put s.mem hp ⟨next s.mem hp, asked n⟩ := ⟨_, rfl⟩
  have hsize : size mem = update (size s.mem) hp (asked n) := by rw [hmem, size_put]
  have h1 : Inv base
    { s with mem := mem, brk := hp + 16 * asked n, areas := hp :: s.areas, got := s.got + asked n }
      as (hp :: ls) := by
    constructor
    · rw [hsize, update_of_ne (by omega)]
      exact h.root
    · rw [hmem, next_put, update_eq_self]
      exact h.ring
    · exact h.order
    · exact h.start
    · rw [hsize]
      exact (h.tiled.area (by omega) hpos).perm perm_middle.symm
  have hc1 : Coalesced (size mem) as := by
    intro a ha b hb
    rw [hsize, fin_update_of_ne (hin a (by simp [ha]))]
    exact hc a ha b hb
  obtain ⟨s', as', ⟨N, hfree⟩, h', hc', hkeep, a, ha, hle⟩ := h1.free hc1 hfit
  refine ⟨s', as', ⟨N, ?_⟩, h', hc', ?_, a, ha, ?_⟩
  · intro fuel hf
    have hcall := hfree fuel hf
    rw [hmem, hhp] at hcall
    unfold next at hcall
    simp only [Umalloc.morecore, sbrk, hcall]
  · intro l hl
    rw [hkeep.sizes l hl]
    change size mem l = size s.mem l
    rw [hsize, update_of_ne (hin l (by simp [hl]))]
  · change size mem hp ≤ _ at hle
    rw [hsize, update_self] at hle
    omega

/-- The loop walks on until it finds a large block, or is back at `freep`. -/
theorem mallocLoop_walk (n : Nat) (os : Nat → Option Nat) {ys : List Nat}
    (hpath : Path (next s.mem) prevp ys s.freep) (hys : s.freep ∉ ys) :
    (∃ prev ∈ prevp :: ys, n ≤ size s.mem (next s.mem prev) ∧
      Returns (mallocLoop n · os prevp (next s.mem prevp) s)
        (some (take n prev (next s.mem prev) s).1, (take n prev (next s.mem prev) s).2)) ∨
    (∀ z ∈ ys ++ [s.freep], size s.mem z < n) ∧ ∃ prev, ∀ fuel,
      mallocLoop n (fuel + 1 + ys.length) os prevp (next s.mem prevp) s =
        mallocLoop n (fuel + 1) os prev s.freep s := by
  induction ys generalizing prevp with
  | nil =>
    have hnext : next s.mem prevp = s.freep := hpath
    rcases lt_or_ge (size s.mem s.freep) n with hlt | hge
    · right
      refine ⟨by simpa using hlt, prevp, ?_⟩
      intro fuel
      rw [hnext]
      rfl
    · left
      refine ⟨prevp, by simp, by rwa [hnext], .of_rounds 1 ?_⟩
      intro k
      change n ≤ (s.mem s.freep).size at hge
      rw [hnext]
      simp only [mallocLoop, if_pos hge]
  | cons y ys ih =>
    have hnext : next s.mem prevp = y := hpath.1
    have hy : y ≠ s.freep := fun he => hys (by simp [he])
    rcases lt_or_ge (size s.mem y) n with hlt | hge
    · -- not large enough: one round
      have hround : ∀ fuel, mallocLoop n (fuel + 1) os prevp y s =
          mallocLoop n fuel os y (next s.mem y) s := by
        intro fuel
        have hno : ¬ n ≤ (s.mem y).size := not_le.mpr hlt
        rw [mallocLoop, if_neg hno, if_neg hy]
        rfl
      rcases ih hpath.2 (fun hm => hys (mem_cons_of_mem _ hm)) with
        ⟨prev, hprev, hle, hloop⟩ | ⟨hall, prev, hloop⟩
      · left
        rw [hnext]
        exact ⟨prev, mem_cons_of_mem _ hprev, hle, hloop.rounds 1 hround⟩
      · right
        refine ⟨?_, prev, ?_⟩
        · intro z hz
          rcases mem_cons.mp hz with rfl | hz
          · exact hlt
          · exact hall z hz
        · intro fuel
          rw [hnext, length_cons, ← add_assoc, hround]
          exact hloop fuel
    · left
      refine ⟨prevp, by simp, by rwa [hnext], .of_rounds 1 ?_⟩
      intro k
      change n ≤ (s.mem y).size at hge
      rw [hnext]
      simp only [mallocLoop, if_pos hge]

theorem got_take : (take n prevp p s).2.got = s.got := by
  unfold take
  split <;> rfl

theorem got_free (h : free fuel ap s = some s') : s'.got = s.got := by
  unfold free at h
  simp only at h
  split at h
  · cases h
  · cases h
    rfl

theorem got_morecore {answer : Option Nat} (h : morecore fuel answer n s = some (r, s')) :
    s'.got = s.got + answer.elim 0 fun _ => asked n := by
  cases answer with
  | none =>
    cases h
    rfl
  | some gap =>
    simp only [morecore, sbrk] at h
    split at h
    · cases h
    · next hfree =>
      have := got_free hfree
      cases h
      exact this

/-- What `sbrk` returned only grows. -/
theorem got_mallocLoop (h : mallocLoop n fuel os prevp p s = some (r, s')) : s.got ≤ s'.got := by
  induction fuel generalizing os prevp p s with
  | zero => cases h
  | succ fuel ih =>
    rw [mallocLoop] at h
    split at h
    · cases h
      exact got_take.ge
    · split at h
      · split at h
        · cases h
        · next hm =>
          have := got_morecore hm
          cases h
          omega
        · next hm =>
          have := got_morecore hm
          have := ih h
          omega
      · exact ih h

/-- The results of `malloc`: a null pointer, or a new block of `n` units. -/
inductive Outcome (base n : Nat) (s : Heap) (ls : List Nat) : Option Nat → Heap → Prop where
  | null : Outcome base n s ls none s
  | block {b : Nat} {as' : List Nat} {s' : Heap} : Inv base s' as' (b :: ls) →
      Coalesced (size s'.mem) as' → size s'.mem b = n →
      (∀ l ∈ ls, size s'.mem l = size s.mem l) → Outcome base n s ls (some (b + 16)) s'

/-- From `freep` around the list. -/
theorem Inv.around (h : Inv base s as ls) :
    ∃ ys, Path (next s.mem) s.freep ys s.freep ∧ s.freep ∉ ys ∧
      ∀ a, a ∈ s.freep :: ys ↔ a ∈ base :: as := by
  obtain ⟨l1, l2, hsplit⟩ := append_of_mem h.start
  have hring := h.ring
  have hnd := h.nodup
  rw [hsplit] at hring hnd ⊢
  refine ⟨l2 ++ l1, hring.path, ?_, ?_⟩
  · have hnd' : (s.freep :: l2 ++ l1).Nodup := perm_append_comm.nodup_iff.mp hnd
    exact (nodup_cons.mp hnd').1
  · intro a
    simp only [mem_cons, mem_append]
    tauto

/-- A large block was found. -/
theorem Inv.outcome_take {prev : Nat} {s₀ : Heap} (h : Inv base s as ls)
    (hc : Coalesced (size s.mem) as) (hn : 0 < n) (hprev : prev ∈ base :: as)
    (hle : n ≤ size s.mem (next s.mem prev)) (hsizes : ∀ l ∈ ls, size s.mem l = size s₀.mem l) :
    Outcome base n s₀ ls (some (Umalloc.take n prev (next s.mem prev) s).1)
      (Umalloc.take n prev (next s.mem prev) s).2 := by
  obtain ⟨b, as', hb, h', hc', hkeep, hsize⟩ := h.take hc hprev rfl hn hle
  rw [hb]
  exact .block h' hc' hsize fun l hl => (hkeep.sizes l hl).trans (hsizes l hl)

/-- The last block is too small, and there is no memory. -/
theorem mallocLoop_null (hlt : size s.mem s.freep < n) (hos : os 0 = none) (fuel : Nat) :
    mallocLoop n (fuel + 1) os prevp s.freep s = some (none, s) := by
  have hno : ¬ n ≤ (s.mem s.freep).size := not_le.mpr hlt
  rw [mallocLoop, if_neg hno, if_pos rfl, hos]
  rfl

/-- The last block is too small, and there is more memory. -/
theorem mallocLoop_more (hlt : size s.mem s.freep < n)
    (hmore : morecore fuel (os 0) n s = some (some p, s')) :
    mallocLoop n (fuel + 1) os prevp s.freep s =
      mallocLoop n fuel (fun i => os (i + 1)) p (next s'.mem p) s' := by
  have hno : ¬ n ≤ (s.mem s.freep).size := not_le.mpr hlt
  rw [mallocLoop, if_neg hno, if_pos rfl, hmore]
  rfl

/-- **The loop of `malloc`** returns, if the units that it asks for fit. -/
theorem Inv.mallocLoop_returns (h : Inv base s as ls) (hc : Coalesced (size s.mem) as) (hn : 0 < n)
    (hfit : ∀ gap, os 0 = some gap → s.got + asked n < 2 ^ 32) :
    ∃ r s', Returns (mallocLoop n · os s.freep (next s.mem s.freep) s) (r, s') ∧
      Outcome base n s ls r s' := by
  obtain ⟨ys, hpath, hys, hmem⟩ := h.around
  rcases mallocLoop_walk n os hpath hys with ⟨prev, hprev, hle, hloop⟩ | ⟨hall, prev, hloop⟩
  · exact ⟨_, _, hloop, h.outcome_take hc hn ((hmem prev).mp hprev) hle fun _ _ => rfl⟩
  · have hlt : size s.mem s.freep < n := hall s.freep (by simp)
    cases hos : os 0 with
    | none =>
      refine ⟨none, s, .of_rounds (1 + ys.length) ?_, .null⟩
      intro k
      rw [← add_assoc, hloop, mallocLoop_null hlt hos]
    | some gap =>
      obtain ⟨s1, as1, ⟨N, hmore⟩, h1, hc1, hsizes, a, ha, hna⟩ := h.morecore hc gap (hfit gap hos)
      obtain ⟨ys1, hpath1, hys1, hmem1⟩ := h1.around
      rcases mallocLoop_walk n (fun i => os (i + 1)) hpath1 hys1 with
        ⟨prev1, hprev1, hle1, M, hloop1⟩ | ⟨hall1, -⟩
      · refine ⟨_, _, .of_rounds (max N M + 1 + ys.length) ?_,
          h1.outcome_take hc1 hn ((hmem1 prev1).mp hprev1) hle1 hsizes⟩
        intro k
        have hcall := hmore (k + max N M) (by omega)
        rw [← hos] at hcall
        rw [← add_assoc, ← add_assoc, hloop, mallocLoop_more hlt hcall]
        exact hloop1 (k + max N M) (by omega)
      · -- the new block is in the list and large enough
        have ham : a ∈ s1.freep :: ys1 := (hmem1 a).mpr (mem_cons_of_mem _ ha)
        have := hall1 a (by simpa [or_comm] using ham)
        omega

/-- **The loop of `malloc`**: what it returned, if the units fit. -/
theorem Inv.mallocLoop_outcome (h : Inv base s as ls) (hc : Coalesced (size s.mem) as) (hn : 0 < n)
    (hr : Returns (mallocLoop n · os s.freep (next s.mem s.freep) s) (r, s'))
    (hgot : s'.got < 2 ^ 32) : Outcome base n s ls r s' := by
  obtain ⟨ys, hpath, hys, hmem⟩ := h.around
  rcases mallocLoop_walk n os hpath hys with ⟨prev, hprev, hle, hloop⟩ | ⟨hall, prev, hloop⟩
  · cases hr.unique hloop
    exact h.outcome_take hc hn ((hmem prev).mp hprev) hle fun _ _ => rfl
  · -- here `sbrk` is asked, and it has not returned too much
    have hfit : ∀ gap, os 0 = some gap → s.got + asked n < 2 ^ 32 := by
      intro gap hos
      have hlt : size s.mem s.freep < n := hall s.freep (by simp)
      obtain ⟨N, hN⟩ := hr
      have hres := (hloop N).symm.trans (hN (N + 1 + ys.length) (by omega))
      have hno : ¬ n ≤ (s.mem s.freep).size := not_le.mpr hlt
      rw [mallocLoop, if_neg hno, if_pos rfl, hos] at hres
      split at hres
      · cases hres
      · next hm =>
        have hg := got_morecore hm
        cases hres
        exact hg ▸ hgot
      · next hm =>
        have hg := got_morecore hm
        have := got_mallocLoop hres
        rw [Option.elim_some] at hg
        omega
    obtain ⟨r1, s1, hr1, hout⟩ := h.mallocLoop_returns hc hn hfit
    cases hr.unique hr1
    exact hout

end Malloc

variable {nbytes : Nat} {h : Heap}

/-! ## 6. The allocator -/

section Allocator

variable {base : Nat} {s s' : State} {as ls : List Nat} {os : Nat → Option Nat}

/-- **The free list** and the live blocks.  The list starts at `base`, a block of no
    units; `as` are the blocks behind it. -/
structure FreeList (base : Nat) (s : State) (as : List Nat) : Prop where
  circular : s.heap.freep = 0 ∧ as = [] ∧ s.live = [] ∨
    Cycle (next s.heap.mem) (base :: as) ∧ s.heap.freep ∈ base :: as
  increasing : (base :: as).Pairwise (· < ·)
  coalesced : as.Pairwise fun a b => fin (size s.heap.mem) a < b
  live : ∀ a ∈ as, ∀ ap ∈ s.live, Apart (size s.heap.mem) a (ap - 16)
  apart : (s.live.map (· - 16)).Pairwise (Apart (size s.heap.mem))
  total : units (size s.heap.mem) as + units (size s.heap.mem) (s.live.map (· - 16)) = s.heap.got

/-- **The block** that `malloc(nbytes)` returned, with the heap `h` behind the call. -/
structure NewBlock (s : State) (nbytes ap : Nat) (h : Heap) : Prop where
  header : 16 ≤ ap
  length : nbytes + 16 ≤ 16 * size h.mem (ap - 16)
  sizes : ∀ l ∈ s.live, size h.mem (l - 16) = size s.heap.mem (l - 16)
  apart : ∀ l ∈ s.live, Apart (size h.mem) (ap - 16) (l - 16)
  aligned : (∀ p ∈ h.areas, 16 ∣ p) → 16 ∣ ap

/-- The invariant of the calls. -/
def Good (base : Nat) (s : State) : Prop :=
  0 < base ∧ base + 16 ≤ s.heap.brk ∧
    ((s.heap.freep = 0 ∧ s.heap.areas = [] ∧ s.heap.got = 0 ∧ s.live = []) ∨
      ∃ as ls, s.live = ls.map (· + 16) ∧ Inv base s.heap as ls ∧ Coalesced (size s.heap.mem) as)

theorem map_sub_add (ls : List Nat) : (ls.map (· + 16)).map (· - 16) = ls := by
  simp [comp_def]

/-- Before the first `malloc` there is no list; then there is one. -/
theorem Good.ready (h : Good base s) :
    ∃ as ls, s.live = ls.map (· + 16) ∧ Inv base (ready base s.heap) as ls ∧
      Coalesced (size (Umalloc.ready base s.heap).mem) as ∧
      Keeps s.heap (Umalloc.ready base s.heap) ls := by
  obtain ⟨hpos, hlow, ⟨hfreep, hareas, hgot, hlive⟩ | ⟨as, ls, hlive, hinv, hc⟩⟩ := h
  · refine ⟨[], [], hlive, ?_, by simp [Coalesced], ?_⟩
    · rw [Umalloc.ready, if_pos hfreep]
      constructor
      · rw [size_put, update_self]
      · change next (put s.heap.mem base ⟨base, 0⟩) base = base
        rw [next_put, update_self]
      · simp
      · exact mem_cons_self ..
      · exact ⟨hlow, by simp, by simp, by simpa [units] using hgot.symm, by simp⟩
    · rw [Umalloc.ready, if_pos hfreep]
      exact ⟨rfl, rfl, by simp⟩
  · have hne : s.heap.freep ≠ 0 := by
      rcases mem_cons.mp hinv.start with he | hm
      · omega
      · have := hinv.base_lt (mem_append_left _ hm)
        omega
    rw [Umalloc.ready, if_neg hne]
    exact ⟨as, ls, hlive, hinv, hc, rfl, rfl, fun _ _ => rfl⟩

theorem Inv.good (hpos : 0 < base) (h : Inv base s.heap as ls) (hc : Coalesced (size s.heap.mem) as)
    (hlive : s.live = ls.map (· + 16)) : Good base s :=
  ⟨hpos, h.tiled.low, .inr ⟨as, ls, hlive, h, hc⟩⟩

theorem nunits_pos (nbytes : Nat) : 0 < nunits nbytes := succ_pos _

/-- The state behind `malloc`, and the block. -/
theorem Outcome.good {s₀ h : Heap} (hpos : 0 < base)
    (hlive : s.live = ls.map (· + 16)) (hinv : Inv base s₀ as ls) (hc : Coalesced (size s₀.mem) as)
    (hkeep : Keeps s.heap s₀ ls) (hout : Outcome base (nunits nbytes) s₀ ls r h) :
    Good base ⟨h, r.toList ++ s.live⟩ ∧ ∀ ap, r = some ap → NewBlock s nbytes ap h := by
  cases hout with
  | null =>
    refine ⟨Inv.good hpos hinv hc hlive, ?_⟩
    intro ap h
    cases h
  | @block b as' _ h' hc' hsize hsizes =>
    refine ⟨Inv.good hpos h' hc' (by simp [hlive]), ?_⟩
    intro ap hap
    cases hap
    have hmem : ∀ l ∈ s.live, l - 16 ∈ ls := by
      intro l hl
      rw [hlive] at hl
      obtain ⟨m, hm, rfl⟩ := mem_map.mp hl
      rwa [Nat.add_sub_cancel]
    refine ⟨by omega, ?_, ?_, ?_, ?_⟩
    · rw [Nat.add_sub_cancel, hsize]
      unfold nunits
      omega
    · intro l hl
      rw [hsizes _ (hmem l hl), hkeep.sizes _ (hmem l hl)]
    · intro l hl
      rw [Nat.add_sub_cancel]
      have hlist := (pairwise_append.mp h'.tiled.apart).2.1
      exact rel_of_pairwise_cons hlist (hmem l hl)
    · intro hal
      obtain ⟨p, hp, he⟩ := h'.tiled.align b (by simp)
      have := hal p hp
      omega

theorem Good.malloc (hg : Good base s) (hr : Returns (malloc base · os nbytes s.heap) (r, h))
    (hgot : h.got < 2 ^ 32) : Good base ⟨h, r.toList ++ s.live⟩ := by
  obtain ⟨as, ls, hlive, hinv, hc, hkeep⟩ := hg.ready
  have hout := hinv.mallocLoop_outcome hc (nunits_pos nbytes) hr hgot
  exact (hout.good hg.1 hlive hinv hc hkeep).1

theorem Good.malloc_returns (hg : Good base s)
    (hfit : ∀ gap, os 0 = some gap → s.heap.got + asked (nunits nbytes) < 2 ^ 32) :
    ∃ r h, Returns (Umalloc.malloc base · os nbytes s.heap) (r, h) ∧
      ∀ ap, r = some ap → NewBlock s nbytes ap h := by
  obtain ⟨as, ls, hlive, hinv, hc, hkeep⟩ := hg.ready
  rw [← hkeep.got] at hfit
  obtain ⟨r, h, hr, hout⟩ := hinv.mallocLoop_returns hc (nunits_pos nbytes) hfit
  exact ⟨r, h, hr, (hout.good hg.1 hlive hinv hc hkeep).2⟩

theorem Inv.perm_live {s : Heap} {ms : List Nat} (h : Inv base s as ls) (hp : ls.Perm ms) :
    Inv base s as ms :=
  ⟨h.root, h.ring, h.order, h.start, h.tiled.perm (hp.append_left as)⟩

theorem Good.free (hg : Good base s) (hap : ap ∈ s.live) (hgot : s.heap.got < 2 ^ 32) :
    ∃ h, Returns (free · ap s.heap) h ∧ Good base ⟨h, s.live.erase ap⟩ := by
  obtain ⟨hpos, -, ⟨-, -, -, hlive⟩ | ⟨as, ls, hlive, hinv, hc⟩⟩ := hg
  · rw [hlive] at hap
    cases hap
  · rw [hlive] at hap
    obtain ⟨bp, hbp, rfl⟩ := mem_map.mp hap
    have hinv' := hinv.perm_live (perm_cons_erase hbp)
    obtain ⟨s', as', hfree, h', hc', -, -⟩ := hinv'.free hc hgot
    refine ⟨s', hfree, Inv.good hpos h' hc' ?_⟩
    change s.live.erase (bp + 16) = _
    rw [hlive, map_erase (add_left_injective 16)]

/-- **A write of the client** changes no header of a block. -/
theorem Inv.write {s : Heap} (h : Inv base s as ls)
    (hmem : ∀ a, (∀ l ∈ ls, ¬ (l + 16 ≤ a ∧ a < fin (size s.mem) l)) → mem a = s.mem a) :
    Inv base { s with mem := mem } as ls ∧ ∀ a ∈ as, size mem a = size s.mem a := by
  have hblock : ∀ a ∈ as ++ ls, mem a = s.mem a := by
    intro a ha
    apply hmem
    intro l hl hin
    rcases lt_or_ge l a with hlt | hge
    · have := h.tiled.fin_le (mem_append_right _ hl) ha hlt
      omega
    · omega
  have hroot : mem base = s.mem base := by
    apply hmem
    intro l hl
    have := h.base_lt (mem_append_right _ hl)
    omega
  have hsize : ∀ a ∈ as ++ ls, size mem a = size s.mem a :=
    fun a ha => congrArg Header.size (hblock a ha)
  refine ⟨?_, fun a ha => hsize a (mem_append_left _ ha)⟩
  constructor
  · exact (congrArg Header.size hroot).trans h.root
  · refine Path.congr h.ring ?_
    intro a ha
    have : mem a = s.mem a := by
      rcases mem_cons.mp ha with rfl | ha
      · exact hroot
      · exact hblock a (mem_append_left _ ha)
    exact congrArg Header.ptr this
  · exact h.order
  · exact h.start
  · exact (h.tiled.agree hsize).congr rfl rfl rfl

theorem Good.write (hg : Good base s)
    (hmem : ∀ a, (∀ ap ∈ s.live, ¬ Payload s.heap ap a) → mem a = s.heap.mem a) :
    Good base { s with heap := { s.heap with mem := mem } } := by
  obtain ⟨hpos, hlow, hfresh | ⟨as, ls, hlive, hinv, hc⟩⟩ := hg
  · exact ⟨hpos, hlow, .inl hfresh⟩
  · obtain ⟨h', hsize⟩ := hinv.write (by
      intro a ha
      apply hmem
      intro ap hap hpay
      rw [hlive] at hap
      obtain ⟨l, hl, rfl⟩ := mem_map.mp hap
      unfold Payload at hpay
      rw [Nat.add_sub_cancel] at hpay
      exact ha l hl hpay)
    refine Inv.good hpos h' ?_ hlive
    intro a ha b hb
    change fin (size mem) a ≠ b
    rw [fin, hsize a ha]
    exact hc a ha b hb

theorem got_le_step {l : Action} (h : Step base s l s') : s.heap.got ≤ s'.heap.got := by
  cases l with
  | malloc nbytes os =>
    obtain ⟨-, r, h, ⟨n, hn⟩, rfl⟩ := h
    have := got_mallocLoop (hn n (le_refl n))
    have hready : (ready base s.heap).got = s.heap.got := by
      unfold ready
      split <;> rfl
    exact hready ▸ this
  | free ap =>
    obtain ⟨-, h, ⟨n, hn⟩, rfl⟩ := h
    exact (got_free (hn n (le_refl n))).ge
  | write mem =>
    obtain ⟨-, rfl⟩ := h
    exact le_refl _

/-- The calls keep the invariant, as long as the units fit. -/
theorem reachable_good (hs : Reachable (system base) s) (hgot : s.heap.got < 2 ^ 32) :
    Good base s := by
  revert hgot
  apply hs.invariant (I := fun s => s.heap.got < 2 ^ 32 → Good base s)
  · intro s ⟨hfreep, hpos, hlow, hareas, hgot, hlive⟩ _
    exact ⟨hpos, hlow, .inl ⟨hfreep, hareas, hgot, hlive⟩⟩
  · intro s l s' ih hstep hgot
    have hgot0 : s.heap.got < 2 ^ 32 := lt_of_le_of_lt (got_le_step hstep) hgot
    have hg := ih hgot0
    cases l with
    | malloc nbytes os =>
      obtain ⟨-, r, h, hr, rfl⟩ := hstep
      exact hg.malloc hr hgot
    | free ap =>
      obtain ⟨hap, h, hr, rfl⟩ := hstep
      obtain ⟨h', hr', hg'⟩ := hg.free hap hgot0
      rwa [hr.unique hr']
    | write mem =>
      obtain ⟨hmem, rfl⟩ := hstep
      exact hg.write hmem

theorem Good.freeList (hg : Good base s) : ∃ as, FreeList base s as := by
  obtain ⟨hpos, -, ⟨hfreep, -, hgot, hlive⟩ | ⟨as, ls, hlive, hinv, hc⟩⟩ := hg
  · refine ⟨[], .inl ⟨hfreep, rfl, hlive⟩, by simp, by simp, by simp, ?_, ?_⟩ <;> simp [hlive,
      units, hgot]
  · have hmap : s.live.map (· - 16) = ls := by rw [hlive, map_sub_add]
    obtain ⟨h1, h2, h3⟩ := pairwise_append.mp hinv.tiled.apart
    refine ⟨as, .inr ⟨hinv.ring, hinv.start⟩, hinv.order, ?_, ?_, by rwa [hmap], ?_⟩
    · -- in increasing order, apart, and never adjacent
      refine (pairwise_cons.mp hinv.order).2.imp_of_mem ?_
      intro a b ha hb hab
      have hle := hinv.tiled.fin_le (mem_append_left _ ha) (mem_append_left _ hb) hab
      exact lt_of_le_of_ne hle (hc a ha b hb)
    · intro a ha ap hap
      apply h3 a ha
      rw [← hmap]
      exact mem_map_of_mem hap
    · rw [hmap, ← hinv.tiled.sum, units_append]

/-- **The user heap allocator.**  As long as `sbrk` has returned fewer than 2^32 units,
    the free list is circular, in increasing order, apart from the live blocks and
    fully coalesced, and no unit is lost; `malloc` and `free` return; and a new
    block is aligned as what `sbrk` returned, large enough and apart from the
    live ones. -/
theorem heap_allocator (base : Nat) (s : State) (hs : Reachable (system base) s)
    (hgot : s.heap.got < 2 ^ 32) :
    (∃ as, FreeList base s as) ∧
    (∀ nbytes os, nunits nbytes * 16 < 2 ^ 31 →
      (∀ gap, os 0 = some gap → s.heap.got + asked (nunits nbytes) < 2 ^ 32) →
      ∃ r h, Returns (malloc base · os nbytes s.heap) (r, h) ∧
        ∀ ap, r = some ap → NewBlock s nbytes ap h) ∧
    ∀ ap ∈ s.live, ∃ h, Returns (free · ap s.heap) h := by
  have hg := reachable_good hs hgot
  refine ⟨hg.freeList, ?_, ?_⟩
  · intro nbytes os _ hfit
    exact hg.malloc_returns hfit
  · intro ap hap
    obtain ⟨h, hr, -⟩ := hg.free hap hgot
    exact ⟨h, hr⟩

end Allocator

/-- The heap before the first call. -/
def freshHeap : Heap := ⟨fun _ => ⟨0, 0⟩, 0, 32, [], 0⟩

theorem reachable_fresh : Reachable (system 16) ⟨freshHeap, []⟩ :=
  .of_init ⟨rfl, by decide, by decide, rfl, rfl, rfl⟩

/-- `malloc(8)`; `sbrk` leaves a gap if it is called. -/
def malloc8 (gap : Nat) (h : Heap) : Option Nat × Heap :=
  (malloc 16 3 (fun _ => some gap) 8 h).getD (none, h)

theorem reachable_malloc8 {live : List Nat} (hs : Reachable (system 16) ⟨h, live⟩)
    (hr : ∀ k, malloc 16 (k + 3) (fun _ => some 0) 8 h = some (malloc8 0 h)) :
    Reachable (system 16) ⟨(malloc8 0 h).2, (malloc8 0 h).1.toList ++ live⟩ :=
  hs.step (l := .malloc 8 fun _ => some 0) ⟨by decide, _, _, .of_rounds 3 hr, rfl⟩

/-- Three calls of `malloc(8)`, and then `free` of the second block. -/
def threeBlocks : Heap := (malloc8 0 (malloc8 0 (malloc8 0 freshHeap).2).2).2

def twoBlocks : Heap := (free 2 65520 threeBlocks).getD threeBlocks

theorem reachable_twoBlocks : Reachable (system 16) ⟨twoBlocks, [65488, 65552]⟩ := by
  have h1 := reachable_malloc8 reachable_fresh fun _ => rfl
  have h2 := reachable_malloc8 h1 fun _ => rfl
  have h3 := reachable_malloc8 h2 fun _ => rfl
  refine h3.step (l := .free 65520) ⟨?_, twoBlocks, .of_rounds 2 fun _ => rfl, rfl⟩
  decide

/-- Two blocks of the client, and two free ones. -/
theorem heap_allocator_two :
    ∃ s, Reachable (system 16) s ∧ s.heap.got < 2 ^ 32 ∧ s.live = [65488, 65552] ∧
      next s.heap.mem 16 = 32 ∧ next s.heap.mem 32 = 65504 ∧ next s.heap.mem 65504 = 16 ∧
      (∃ as, FreeList 16 s as) ∧
      (∃ r h, Returns (malloc 16 · (fun _ => some 0) 8 s.heap) (r, h) ∧
        ∀ ap, r = some ap → NewBlock s 8 ap h) ∧
      ∀ ap ∈ s.live, ∃ h, Returns (free · ap s.heap) h := by
  obtain ⟨hlist, hmalloc, hfree⟩ := heap_allocator 16 _ reachable_twoBlocks (by decide)
  have hnew := hmalloc 8 (fun _ => some 0) (by decide) (by intro _ _; decide)
  exact ⟨_, reachable_twoBlocks, by decide, rfl, rfl, rfl, rfl, hlist, hnew, hfree⟩

/-! The units need not fit.  The client gets 33 blocks of 2^27 - 1 units, one behind
    the other, and frees them all; they become one block, and its size wraps. -/

section Wrap

variable {h : Heap} {s : State} {i j k n : Nat}

/-- With an empty list `malloc` takes what `sbrk` returns as a whole. -/
theorem malloc_area (hfreep : h.freep = 16) (hroot : h.mem 16 = ⟨16, 0⟩) (hbrk : 32 ≤ h.brk)
    (hn : 4096 ≤ n) :
    Returns (mallocLoop n · (fun _ => some 0) 16 16 h) (some (h.brk + 16),
        ⟨put (put h.mem h.brk ⟨16, n⟩) 16 ⟨16, 0⟩, 16, h.brk + 16 * n, h.brk :: h.areas,
          h.got + n⟩) := by
  refine .of_rounds 3 ?_
  intro k
  have hne : h.brk ≠ 16 := by omega
  have hask : asked n = n := if_neg (by omega)
  have h1 : ¬ n ≤ 0 := by omega
  have h2 : ¬ h.brk + 16 * n = 16 := by omega
  have h3 : 16 < h.brk := by omega
  simp [mallocLoop, hroot, hfreep, h1, morecore, sbrk, hask, free, search, put, hne, hne.symm,
    h2, h3, joinNext, joinPrev, take]

/-- `free` with an empty list. -/
theorem free_only (bp : Nat) (hfreep : h.freep = 16) (hroot : h.mem 16 = ⟨16, 0⟩) (hbp : 32 ≤ bp) :
    Returns (free · (bp + 16) h)
      { h with mem := put (put h.mem bp ⟨16, size h.mem bp⟩) 16 ⟨bp, 0⟩ } := by
  refine .of_rounds 1 ?_
  intro k
  have hne : bp ≠ 16 := by omega
  have h1 : ¬ bp + 16 * (h.mem bp).size = 16 := by omega
  have h2 : 16 < bp := by omega
  simp [free, search, hfreep, hroot, joinNext, joinPrev, put, size, hne.symm, h1, h2]

/-- `free` of a block that ends at the only free one. -/
theorem free_below {bp q : Nat} (hfreep : h.freep = 16) (hroot : h.mem 16 = ⟨q, 0⟩)
    (hq : (h.mem q).ptr = 16) (hbp : 32 ≤ bp) (hend : fin (size h.mem) bp = q) (hlt : bp < q) :
    Returns (free · (bp + 16) h) { h with
        mem := put (put h.mem bp ⟨16, (size h.mem bp + size h.mem q) % 2 ^ 32⟩) 16 ⟨bp, 0⟩ } := by
  refine .of_rounds 1 ?_
  intro k
  have hne : bp ≠ 16 := by omega
  have h2 : 16 < bp := by omega
  change bp + 16 * (h.mem bp).size = q at hend
  simp [free, search, hfreep, hroot, joinNext, joinPrev, put, size, hne.symm, h2, hlt, hend, hq]

/-- The largest request below 2^31 bytes. -/
def bigBytes : Nat := 2147483616

/-- The `k`-th block. -/
def bigBlock (k : Nat) : Nat := 32 + 2147483632 * k

/-- The first `k` blocks, the last one first. -/
def bigBlocks : Nat → List Nat
  | 0 => []
  | k + 1 => (bigBlock k + 16) :: bigBlocks k

/-- The client has `k` blocks, and the list is empty. -/
structure Holding (k : Nat) (s : State) : Prop where
  up : 0 < k → s.heap.freep = 16
  start : (ready 16 s.heap).freep = 16
  root : (ready 16 s.heap).mem 16 = ⟨16, 0⟩
  brk : s.heap.brk = bigBlock k
  got : s.heap.got = 134217727 * k
  sizes : ∀ i < k, size (ready 16 s.heap).mem (bigBlock i) = 134217727
  live : s.live = bigBlocks k

/-- The client has `j` of the 33 blocks, and the others are one free block. -/
structure Joined (j : Nat) (s : State) : Prop where
  start : s.heap.freep = 16
  root : s.heap.mem 16 = ⟨bigBlock j, 0⟩
  block : s.heap.mem (bigBlock j) = ⟨16, 134217727 * (33 - j) % 2 ^ 32⟩
  got : s.heap.got = 134217727 * 33
  sizes : ∀ i < j, size s.heap.mem (bigBlock i) = 134217727
  live : s.live = bigBlocks j

theorem ready_keeps (h : Heap) : (ready 16 h).brk = h.brk ∧ (ready 16 h).got = h.got := by
  unfold ready
  split <;> exact ⟨rfl, rfl⟩

theorem bigBlock_lt (h : i < k) : bigBlock i < bigBlock k := by
  unfold bigBlock
  omega

/-- The blocks below the one that a call writes keep their sizes. -/
theorem size_below {x y : Header} (h : i < k) :
    size (put (put mem (bigBlock k) x) 16 y) (bigBlock i) = size mem (bigBlock i) := by
  have hi16 : bigBlock i ≠ 16 := by unfold bigBlock; omega
  rw [size_put, size_put, update_of_ne hi16, update_of_ne (Nat.ne_of_lt (bigBlock_lt h))]

theorem Holding.malloc (hs : Holding k s) :
    ∃ s', (system 16).step s (.malloc bigBytes fun _ => some 0) s' ∧ Holding (k + 1) s' := by
  obtain ⟨hbrk, hgot⟩ := ready_keeps s.heap
  have hb : (ready 16 s.heap).brk = bigBlock k := hbrk.trans hs.brk
  have hlow : 32 ≤ (ready 16 s.heap).brk := by
    rw [hb, bigBlock]
    omega
  have hr := malloc_area (n := 134217727) hs.start hs.root hlow (by decide)
  rw [hb, hgot, hs.got] at hr
  have hcall : ∀ fuel, Umalloc.malloc 16 fuel (fun _ => some 0) bigBytes s.heap =
      mallocLoop 134217727 fuel (fun _ => some 0) 16 16 (ready 16 s.heap) := by
    intro fuel
    simp only [Umalloc.malloc, hs.start, hs.root]
    rfl
  simp only [← hcall] at hr
  refine ⟨⟨_, (bigBlock k + 16) :: s.live⟩, ⟨by decide, _, _, hr, rfl⟩, ?_⟩
  · constructor
    · intro _
      rfl
    · rfl
    · simp [ready, put]
    · simp only [bigBlock]
      omega
    · simp only
      omega
    · intro i hi
      rcases Nat.lt_succ_iff_lt_or_eq.mp hi with hi | rfl
      · exact (size_below hi).trans (hs.sizes i hi)
      · have hi16 : bigBlock i ≠ 16 := by unfold bigBlock; omega
        change size (put (put _ _ _) _ _) _ = _
        rw [size_put, size_put, update_of_ne hi16, update_self]
    · simp only [hs.live, bigBlocks]

theorem exists_holding (k : Nat) : ∃ s, Reachable (system 16) s ∧ Holding k s := by
  induction k with
  | zero =>
    exact ⟨_, reachable_fresh,
      by simp, rfl, by simp [ready, put, freshHeap], rfl, rfl, by simp, rfl⟩
  | succ k ih =>
    obtain ⟨s, hs, hk⟩ := ih
    obtain ⟨s', hstep, hk'⟩ := hk.malloc
    exact ⟨s', hs.step hstep, hk'⟩

theorem Holding.free (hs : Holding 33 s) :
    ∃ s', (system 16).step s (.free (bigBlock 32 + 16)) s' ∧ Joined 32 s' := by
  have hup := hs.up (by decide)
  have hready : ready 16 s.heap = s.heap := if_neg (by rw [hup]; decide)
  have hroot := hs.root
  have hsizes := hs.sizes
  rw [hready] at hroot hsizes
  have hr := free_only (bigBlock 32) hup hroot (by decide)
  rw [hsizes 32 (by decide)] at hr
  refine ⟨⟨_, s.live.erase (bigBlock 32 + 16)⟩,
    ⟨by rw [hs.live]; exact mem_cons_self .., _, hr, rfl⟩, ?_⟩
  constructor
  · exact hup
  · simp only [put_self]
  · have hne : bigBlock 32 ≠ 16 := by decide
    simp only [put_of_ne _ hne, put_self]
    rfl
  · exact hs.got
  · exact fun i hi => (size_below hi).trans (hsizes i (by omega))
  · change s.live.erase (bigBlock 32 + 16) = bigBlocks 32
    rw [hs.live, bigBlocks, erase_cons_head]

theorem Joined.free (hs : Joined (j + 1) s) (hj : j < 32) :
    ∃ s', (system 16).step s (.free (bigBlock j + 16)) s' ∧ Joined j s' := by
  have hsize := hs.sizes j (Nat.lt_succ_self j)
  have hlt := bigBlock_lt (Nat.lt_succ_self j)
  have hend : fin (size s.heap.mem) (bigBlock j) = bigBlock (j + 1) := by
    rw [fin, hsize]
    unfold bigBlock
    omega
  have hr := free_below hs.start hs.root (by rw [hs.block]) (by unfold bigBlock; omega) hend hlt
  have hq : size s.heap.mem (bigBlock (j + 1)) = 134217727 * (33 - (j + 1)) % 2 ^ 32 := by
    rw [size, hs.block]
  rw [hsize, hq] at hr
  refine ⟨⟨_, s.live.erase (bigBlock j + 16)⟩,
    ⟨by rw [hs.live]; exact mem_cons_self .., _, hr, rfl⟩, ?_⟩
  have hj16 : bigBlock j ≠ 16 := by unfold bigBlock; omega
  constructor
  · exact hs.start
  · simp only [put_self]
  · have hsum : (134217727 + 134217727 * (33 - (j + 1)) % 2 ^ 32) % 2 ^ 32 =
        134217727 * (33 - j) % 2 ^ 32 := by
      omega
    simp only [put_of_ne _ hj16, put_self, hsum]
  · exact hs.got
  · exact fun i hi => (size_below hi).trans (hs.sizes i (by omega))
  · change s.live.erase (bigBlock j + 16) = bigBlocks j
    rw [hs.live, bigBlocks, erase_cons_head]

theorem exists_joined (i : Nat) (hi : i ≤ 32) :
    ∃ s, Reachable (system 16) s ∧ Joined (32 - i) s := by
  induction i with
  | zero =>
    obtain ⟨s, hs, hk⟩ := exists_holding 33
    obtain ⟨s', hstep, hj⟩ := hk.free
    exact ⟨s', hs.step hstep, hj⟩
  | succ i ih =>
    obtain ⟨s, hs, hj⟩ := ih (by omega)
    rw [show 32 - i = 32 - (i + 1) + 1 by omega] at hj
    obtain ⟨s', hstep, hj'⟩ := hj.free (by omega)
    exact ⟨s', hs.step hstep, hj'⟩

/-- **Units are lost** when the size of a block wraps. -/
theorem exists_lost : ∃ s, Reachable (system 16) s ∧ ¬ ∃ as, FreeList 16 s as := by
  obtain ⟨s, hs, hj⟩ := exists_joined 32 (le_refl 32)
  refine ⟨s, hs, ?_⟩
  intro ⟨as, hf⟩
  have hroot : next s.heap.mem 16 = bigBlock 0 := by rw [next, hj.root]
  have hnext : next s.heap.mem (bigBlock 0) = 16 := by rw [next, hj.block]
  have hring : Cycle (next s.heap.mem) (16 :: as) := by
    rcases hf.circular with ⟨h0, -⟩ | ⟨hring, -⟩
    · rw [hj.start] at h0
      cases h0
    · exact hring
  -- the list is the one block
  have has : as = [bigBlock 0] := by
    cases as with
    | nil => exact absurd (hroot.symm.trans hring) (by decide)
    | cons a as =>
      obtain ⟨h1, h2⟩ := hring
      obtain rfl : a = bigBlock 0 := h1.symm.trans hroot
      cases as with
      | nil => rfl
      | cons b as =>
        obtain rfl : b = 16 := h2.1.symm.trans hnext
        have hlt : 16 < 16 := rel_of_pairwise_cons hf.increasing (by simp)
        exact absurd hlt (lt_irrefl 16)
  have htotal := hf.total
  rw [has, hj.live, hj.got] at htotal
  have hsize : size s.heap.mem (bigBlock 0) = 134217727 * 33 % 2 ^ 32 := by rw [size, hj.block]
  simp [units, bigBlocks, hsize] at htotal

/-- **The units have to fit, and the areas to be aligned**: in a heap that is too large
    the list loses units, and from an odd address on `malloc` returns odd ones. -/
theorem heap_allocator_wraps :
    (∃ s, Reachable (system 16) s ∧ ¬ ∃ as, FreeList 16 s as) ∧
    ∃ s h, Reachable (system 16) s ∧ s.heap.got = 0 ∧
      Returns (malloc 16 · (fun _ => some 1) 8 s.heap) (some 65553, h) ∧ ¬ 16 ∣ 65553 :=
  ⟨exists_lost, _, (malloc8 1 freshHeap).2, reachable_fresh, rfl, .of_rounds 3 fun _ => rfl,
    by decide⟩

end Wrap

end NoviceKernel.Umalloc
