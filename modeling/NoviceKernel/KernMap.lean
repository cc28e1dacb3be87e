import NoviceKernel.VmFree

/-! # The page tables of a process (`vm.c`, `proc.c`)

    Each process has two: one for its user memory (`proc_pagetable`) and one for
    the kernel (`kvminit_kern`), with the same direct map in every process and a
    kernel stack of its own.

    The kernel table takes 72 pages whatever the linker makes of `etext`.  Its
    six calls of `mappages` are not checked: if the free list has fewer pages, it
    is empty afterwards and the map has holes. -/

namespace NoviceKernel.VM

open Hoare Ledger List

section Functions

variable (lay : Layout)

/-- The kernel page table of a process, without its stack. -/
def kvminit_kern : VmM Nat := do
  let kpagetable ← kalloc
  if kpagetable = 0 then
    -- `memset` writes through the null pointer, and nothing is mapped there
    throw (.panic "kerneltrap")
  else do
    memset kpagetable 0 PGSIZE
    -- uart registers
    let _ ← mappages kpagetable UART0 PGSIZE UART0 (PTE_R ||| PTE_W)
    -- virtio mmio disk interface
    let _ ← mappages kpagetable VIRTIO0 PGSIZE VIRTIO0 (PTE_R ||| PTE_W)
    -- PLIC
    let _ ← mappages kpagetable PLIC 0x400000 PLIC (PTE_R ||| PTE_W)
    -- kernel text executable and read-only
    let _ ← mappages kpagetable KERNBASE (lay.etext - KERNBASE) KERNBASE (PTE_R ||| PTE_X)
    -- kernel data and the physical RAM we'll make use of
    let _ ← mappages kpagetable lay.etext (PHYSTOP - lay.etext) lay.etext (PTE_R ||| PTE_W)
    -- the trampoline for trap entry/exit
    let _ ← mappages kpagetable TRAMPOLINE PGSIZE lay.trampoline (PTE_R ||| PTE_X)
    return kpagetable

def proc_freekernpgtbl (kern_pgtable kstack_addr : Nat) : VmM Unit := do
  uvmunmap lay kern_pgtable UART0 1 false
  uvmunmap lay kern_pgtable VIRTIO0 1 false
  uvmunmap lay kern_pgtable PLIC (0x400000 / PGSIZE) false
  uvmunmap lay kern_pgtable KERNBASE ((lay.etext - KERNBASE) / PGSIZE) false
  uvmunmap lay kern_pgtable lay.etext ((PHYSTOP - lay.etext) / PGSIZE) false
  uvmunmap lay kern_pgtable TRAMPOLINE 1 false
  uvmfreepage lay kern_pgtable kstack_addr 1

/-- A user page table with no user memory, but with trampoline pages; 0 if out
    of memory. -/
def proc_pagetable (trapframe : Nat) : VmM Nat := do
  let pagetable ← uvmcreate
  if pagetable = 0 then return 0
  else if (← mappages pagetable TRAMPOLINE PGSIZE lay.trampoline (PTE_R ||| PTE_X)) < 0 then do
    uvmfree lay pagetable 0
    return 0
  else if (← mappages pagetable TRAPFRAME PGSIZE trapframe (PTE_R ||| PTE_W)) < 0 then do
    uvmunmap lay pagetable TRAMPOLINE 1 false
    uvmfree lay pagetable 0
    return 0
  else return pagetable

def proc_freepagetable (pagetable sz : Nat) : VmM Unit := do
  uvmunmap lay pagetable TRAMPOLINE 1 false
  uvmunmap lay pagetable TRAPFRAME 1 false
  uvmfree lay pagetable sz

end Functions

/-! ## Ranges -/

/-- The arguments of a call of `mappages`. -/
structure Range where
  va : Nat
  size : Nat
  pa : Nat
  perm : Nat

/-- The first page. -/
def Range.first (x : Range) : Nat := x.va / PGSIZE

/-- The number of pages after the first. -/
def Range.more (x : Range) : Nat := (x.va + x.size - 1) / PGSIZE - x.va / PGSIZE

/-- A page of the range. -/
def Range.has (x : Range) (v : Nat) : Prop := x.first ≤ v ∧ v ≤ x.first + x.more

/-- The calls of `mappages` in `kvminit_kern`. -/
def kernRanges (lay : Layout) : List Range :=
  [⟨UART0, PGSIZE, UART0, PTE_R ||| PTE_W⟩, ⟨VIRTIO0, PGSIZE, VIRTIO0, PTE_R ||| PTE_W⟩,
    ⟨PLIC, 0x400000, PLIC, PTE_R ||| PTE_W⟩,
    ⟨KERNBASE, lay.etext - KERNBASE, KERNBASE, PTE_R ||| PTE_X⟩,
    ⟨lay.etext, PHYSTOP - lay.etext, lay.etext, PTE_R ||| PTE_W⟩,
    ⟨TRAMPOLINE, PGSIZE, lay.trampoline, PTE_R ||| PTE_X⟩]

/-- `mappages` for each range, whatever it returns. -/
def mapRanges (root : Nat) : List Range → VmM Unit
  | [] => pure ()
  | x :: xs => do
    let _ ← mappages root x.va x.size x.pa x.perm
    mapRanges root xs

theorem kvminit_kern_eq (lay : Layout) : kvminit_kern lay = do
    let kpagetable ← kalloc
    if kpagetable = 0 then throw (.panic "kerneltrap")
    else do
      memset kpagetable 0 PGSIZE
      mapRanges kpagetable (kernRanges lay)
      return kpagetable := by
  unfold kvminit_kern kernRanges
  simp only [mapRanges, bind_assoc, pure_bind]

/-- The map with the ranges put in. -/
def mapAll (M : Nat → Option Nat) : List Range → Nat → Option Nat
  | [] => M
  | x :: xs => mapAll (mapped M x.first (x.more + 1) x.pa x.perm) xs

/-- The page-table pages that the ranges need, the root apart. -/
def touched (xs : List Range) (n : Node) : Prop := ∃ x ∈ xs, passed x.first x.more n

/-- A range that `mappages` can do, of pages that their entries do not own. -/
structure Range.Ok {T : Type} (sel : T → Nat → Bool) (t : T) (x : Range) : Prop where
  perm : x.perm < 1024
  rwx : rwx x.perm ≠ 0
  size : 0 < x.size
  va : x.va + x.size ≤ MAXVA
  pa : x.pa < 2 ^ 64
  shared : ∀ v, x.has v → sel t v = false

/-- Two ranges without a page in common. -/
def Range.Apart (x y : Range) : Prop := x.first + x.more < y.first ∨ y.first + y.more < x.first

section MapRanges

variable {T Z : Type} [DecidableEq T] {lay : Layout} {sel : T → Nat → Bool} {R : Handles T Z}
  {F : List Nat} {s s' : Phys} {t : T} {r : Nat} {M : Nat → Option Nat} {E : Stop → Phys → Prop}
  {x : Range} {xs : List Range}

open Range

theorem Range.has_iff {v : Nat} : x.has v ↔ x.va / PGSIZE ≤ v ∧ v ≤ (x.va + x.size - 1) / PGSIZE ∨
    x.size = 0 ∧ v = x.va / PGSIZE := by
  unfold has first more
  have := Nat.div_le_div_right (a := x.va) (b := x.va + x.size - 1) (c := PGSIZE)
  have := Nat.div_le_div_right (a := x.va + x.size - 1) (b := x.va) (c := PGSIZE)
  omega

open Set

/-- What the first range takes, and what is lacking then. -/
theorem lacking_cons {m m' : Nat → UInt8}
    (hm : tables m' r = tables m r ∪ {n | passed x.first x.more n}) :
    lacking m r (touched (x :: xs)) =
      lacking m r (passed x.first x.more) + lacking m' r (touched xs) := by
  unfold lacking
  rw [hm, ← Set.ncard_union_eq ?_ (Set.toFinite _) (Set.toFinite _)]
  · congr 1
    ext n
    simp only [touched, mem_cons, exists_eq_or_imp, Set.mem_sdiff, Set.mem_ofPred_eq, Set.mem_union]
    tauto
  · rw [Set.disjoint_left]
    rintro n ⟨hn, -⟩ ⟨-, hc⟩
    exact hc (.inr hn)

theorem lacking_nil (m : Nat → UInt8) : lacking m r (touched []) = 0 := by
  unfold lacking
  rw [show {n | touched [] n} = (∅ : Set Node) from eq_empty_iff_forall_notMem.mpr
      fun n ⟨_, hx, _⟩ =>
    (not_mem_nil hx), empty_sdiff, ncard_empty]

variable (hlay : lay.Ok)
include hlay

/-- One call. -/
theorem wp_map_range (hx : x.Ok sel t) (h : Forest lay sel R F s) (ht : R.root t = some r)
    (hnone : ∀ v, x.has v → ent R s.mem t v = none ∨ ∀ e u, E e u) :
    wp (mappages r x.va x.size x.pa x.perm) (fun res s' => res = 0 ∧
      s'.freelist.length + lacking s.mem r (passed x.first x.more) = s.freelist.length ∧
      tables s'.mem r = tables s.mem r ∪ {n | passed x.first x.more n} ∧
      Edit lay sel R F t (fun _ => False) s
        (mapped (ent R s.mem t) x.first (x.more + 1) x.pa x.perm) s' ∨
      res = -1 ∧ s.freelist.length < lacking s.mem r (passed x.first x.more) ∧ s'.freelist = [] ∧
      ∃ c, c ≤ x.more ∧
        Edit lay sel R F t (fun _ => False) s (mapped (ent R s.mem t) x.first c x.pa x.perm) s')
      E s := by
  have hhas : ∀ v, x.va / PGSIZE ≤ v → v ≤ (x.va + x.size - 1) / PGSIZE → x.has v := fun v h1 h2 =>
    has_iff.mpr (.inl ⟨h1, h2⟩)
  refine (wp_mappages_shared (V := fun _ => False) hlay h ht hx.perm hx.rwx hx.size hx.va hx.pa
    (fun v h1 h2 => hx.shared v (hhas v h1 h2)) fun v h1 h2 => hnone v (hhas v h1 h2)).post ?_
  rintro res s' ⟨c, hm, he⟩
  have hcount := hm.count (h.tree ht)
  rcases hm.result with ⟨rfl, rfl, -⟩ | ⟨rfl, hc, -⟩
  · obtain ⟨-, hlen, htab⟩ := hcount.resolve_right fun hc => absurd hc.1 (by decide)
    exact .inl ⟨rfl, hlen, htab, he⟩
  · obtain ⟨-, hlen, hnil⟩ := hcount.resolve_left fun hc => absurd hc.1 (by decide)
    exact .inr ⟨rfl, hlen, hnil, c, hc, he⟩

variable (hxs : ∀ x ∈ xs, x.Ok sel t)
include hxs

/-- With enough memory all ranges are mapped. -/
theorem wp_mapRanges (hapart : xs.Pairwise Range.Apart) (h : Planted lay sel R F t r M s s')
    (ht : R.root t = none) (hnone : ∀ x ∈ xs, ∀ v, x.has v → M v = none)
    (hlen : lacking s'.mem r (touched xs) ≤ s'.freelist.length) :
    wp (mapRanges r xs) (fun _ s'' => Planted lay sel R F t r (mapAll M xs) s s'' ∧
      s''.freelist.length + lacking s'.mem r (touched xs) = s'.freelist.length ∧
      tables s''.mem r = tables s'.mem r ∪ {n | touched xs n}) E s' := by
  induction xs generalizing s' M with
  | nil =>
    refine ⟨h, by rw [lacking_nil, Nat.add_zero], ?_⟩
    ext n
    simp [touched]
  | cons x xs ih =>
    obtain ⟨hhead, htail⟩ := pairwise_cons.mp hapart
    have hx := hxs x mem_cons_self
    have hlt : ∀ v, x.has v → v < NPAGES := by
      intro v hv
      have h1 := hx.va
      have h2 := hx.size
      rcases has_iff.mp hv with hv | hv
      · have hlast : (x.va + x.size - 1) / PGSIZE < NPAGES := div_lt (by omega)
        omega
      · omega
    have hent : ∀ v, x.has v → ent (R.setRoot t (some r)) s'.mem t v = none := fun v hv =>
      (h.entries v (hlt v hv)).trans (hnone x mem_cons_self v hv)
    rw [mapRanges]
    refine (wp_map_range hlay hx h.forest setRoot_self fun v hv => .inl (hent v hv)).seq ?_
    rintro res s1 (⟨rfl, hlen1, htab, he⟩ | ⟨rfl, hshort, -⟩)
    · rw [lacking_cons htab] at hlen ⊢
      refine (ih (fun y hy => hxs y (mem_cons_of_mem _ hy)) htail (h.map ht he) ?_
        (by omega)).post ?_
      · intro y hy v hv
        have happ := hhead y hy
        unfold Range.Apart at happ
        have hin : y.first ≤ v ∧ v ≤ y.first + y.more := hv
        unfold mapped
        rw [if_neg (by omega)]
        exact hnone y (mem_cons_of_mem _ hy) v hv
      · rintro - s'' ⟨hp, hlen2, htab2⟩
        refine ⟨hp, by omega, ?_⟩
        rw [htab2, htab]
        ext n
        simp only [touched, mem_cons, exists_eq_or_imp, mem_ofPred_eq, mem_union]
        tauto
    · -- the first range alone would need more than there is
      have hle : lacking s'.mem r (passed x.first x.more) ≤ lacking s'.mem r (touched (x :: xs)) :=
        ncard_le_ncard (fun n hn => ⟨⟨x, mem_cons_self, hn.1⟩, hn.2⟩) (toFinite _)
      omega

/-- Without memory there is none afterwards. -/
theorem wp_mapRanges_nil (h : Forest lay sel R F s)
    (ht : R.root t = some r) (hnil : s.freelist = []) :
    wp (mapRanges r xs) (fun _ s' => s'.freelist = []) (fun _ _ => True) s := by
  induction xs generalizing s with
  | nil => exact hnil
  | cons x xs ih =>
    rw [mapRanges]
    refine (wp_map_range hlay (hxs x mem_cons_self) h ht fun _ _ => .inr fun _ _ => trivial).seq ?_
    have hrest : ∀ y ∈ xs, y.Ok sel t := fun y hy => hxs y (mem_cons_of_mem _ hy)
    rintro res s1 (⟨-, hlen, -, he⟩ | ⟨-, -, hnil1, c, -, he⟩)
    · rw [hnil, length_nil] at hlen
      exact ih hrest he.forest (length_eq_zero_iff.mp (by omega))
    · exact ih hrest he.forest hnil1

/-- With less than enough memory there is none afterwards. -/
theorem wp_mapRanges_short (h : Forest lay sel R F s)
    (ht : R.root t = some r) (hlen : s.freelist.length < lacking s.mem r (touched xs)) :
    wp (mapRanges r xs) (fun _ s' => s'.freelist = []) (fun _ _ => True) s := by
  induction xs generalizing s with
  | nil =>
    rw [lacking_nil] at hlen
    omega
  | cons x xs ih =>
    rw [mapRanges]
    refine (wp_map_range hlay (hxs x mem_cons_self) h ht fun _ _ => .inr fun _ _ => trivial).seq ?_
    have hrest : ∀ y ∈ xs, y.Ok sel t := fun y hy => hxs y (mem_cons_of_mem _ hy)
    rintro res s1 (⟨-, hlen1, htab, he⟩ | ⟨-, -, hnil, c, -, he⟩)
    · rw [lacking_cons htab] at hlen
      exact ih hrest he.forest (by omega)
    · exact wp_mapRanges_nil hlay hrest he.forest ht hnil

end MapRanges

/-! ## The kernel's ranges -/

/-- Where `allocproc` maps the kernel stack. -/
def kstackPage : Nat := (TRAMPOLINE - 2 * PGSIZE) / PGSIZE

section Kern

variable {lay : Layout}

/-- An address in each 2 MiB of the ranges. -/
def kernAddrs : List Nat :=
  [UART0, PLIC, PLIC + 2 ^ 21, TRAMPOLINE] ++ (List.range 64).map fun j => KERNBASE + j * 2 ^ 21

/-- The way to an address is the same within 2 MiB. -/
theorem onPath_congr {a b : Nat} (h : a / 2 ^ 21 = b / 2 ^ 21) (n : Node) :
    onPath a n ↔ onPath b n := by
  have h2 : ix 2 a = ix 2 b := by
    refine Fin.ext ?_
    show PX 2 a = PX 2 b
    rw [PX_eq, PX_eq]
    omega
  have h1 : ix 1 a = ix 1 b := by
    refine Fin.ext ?_
    show PX 1 a = PX 1 b
    rw [PX_eq, PX_eq]
    omega
  unfold onPath
  rw [h1, h2]

/-- The addresses, in numbers. -/
theorem kernAddr_eq : KERNBASE = 2147483648 ∧ PHYSTOP = 2281701376 ∧ UART0 = 268435456 ∧
    VIRTIO0 = 268439552 ∧ PLIC = 201326592 ∧ TRAMPOLINE = 274877902848 ∧ MAXVA = 274877906944 :=
  ⟨rfl, rfl, rfl, rfl, rfl, rfl, rfl⟩

/-- The pages of the ranges, in numbers. -/
theorem kernRanges_has (hlay : lay.Ok) (hstop : lay.etext < PHYSTOP) (v : Nat) :
    (∃ x ∈ kernRanges lay, x.has v) ↔
      v = 65536 ∨ v = 65537 ∨ (49152 ≤ v ∧ v < 50176) ∨ (524288 ≤ v ∧ v < 557056) ∨
      v = 67108863 := by
  have h1 := hlay.etext_aligned
  have h2 := hlay.kernbase_lt
  simp only [kernRanges, mem_cons, not_mem_nil, or_false, exists_eq_or_imp, exists_eq_left,
    Range.has_iff, PGSIZE_eq] at *
  obtain ⟨hK, hP, hU, hV, hL, hT, -⟩ := kernAddr_eq
  omega

/-- The page-table pages of the ranges. -/
theorem touched_kern (hlay : lay.Ok) (hstop : lay.etext < PHYSTOP) (n : Node) :
    touched (kernRanges lay) n ↔ ∃ a ∈ kernAddrs, onPath a n := by
  have hpages := kernRanges_has hlay hstop
  have hsame : ∀ a v, v * PGSIZE / 2 ^ 21 = a / 2 ^ 21 → (onPath (v * PGSIZE) n ↔ onPath a n) :=
      fun a v h =>
    onPath_congr h n
  rw [PGSIZE_eq] at hsame
  constructor
  · rintro ⟨x, hx, v, h1, h2, hv⟩
    rw [PGSIZE_eq] at hv
    have hbig : ∀ j, v * 4096 / 2 ^ 21 = (KERNBASE + j * 2 ^ 21) / 2 ^ 21 → j < 64 →
        ∃ a ∈ kernAddrs, onPath a n := fun j hj hlt =>
      ⟨_, mem_append_right _ (mem_map.mpr ⟨j, mem_range.mpr hlt, rfl⟩), (hsame _ v hj).mp hv⟩
    have hsmall : ∀ a ∈ [UART0, PLIC, PLIC + 2 ^ 21, TRAMPOLINE], v * 4096 / 2 ^ 21 = a / 2 ^ 21 →
        ∃ a ∈ kernAddrs, onPath a n := fun a ha h =>
      ⟨a, mem_append_left _ ha, (hsame a v h).mp hv⟩
    rcases (hpages v).mp ⟨x, hx, h1, h2⟩ with h | h | h | h | h
    · exact hsmall UART0 (by simp) (by unfold UART0; omega)
    · exact hsmall UART0 (by simp) (by unfold UART0; omega)
    · by_cases hv' : v < 49664
      · exact hsmall PLIC (by simp) (by unfold PLIC; omega)
      · exact hsmall (PLIC + 2 ^ 21) (by simp) (by unfold PLIC; omega)
    · exact hbig ((v - 524288) / 512) (by unfold KERNBASE; omega) (by omega)
    · exact hsmall TRAMPOLINE (by simp) (by unfold TRAMPOLINE MAXVA; rw [PGSIZE_eq]; omega)
  · rintro ⟨a, ha, hn⟩
    -- the page of the address is in one of the ranges
    have hin : ∃ x ∈ kernRanges lay, x.has (a / 4096) := by
      rw [hpages]
      rcases mem_append.mp ha with ha | ha
      · simp only [mem_cons, not_mem_nil, or_false, UART0, PLIC, TRAMPOLINE, MAXVA, PGSIZE_eq] at ha
        omega
      · obtain ⟨j, hj, rfl⟩ := mem_map.mp ha
        rw [mem_range] at hj
        unfold KERNBASE
        omega
    obtain ⟨x, hx, h1, h2⟩ := hin
    refine ⟨x, hx, a / 4096, h1, h2, ?_⟩
    rw [PGSIZE_eq]
    exact (hsame a (a / 4096) (by omega)).mpr hn

/-- The page-table pages on the way to some addresses. -/
def pathNodes (l : List Nat) : List Node :=
  l.flatMap fun a => [.mid (ix 2 a), .leaf (ix 2 a) (ix 1 a)]

theorem mem_pathNodes {l : List Nat} {n : Node} : n ∈ pathNodes l ↔ ∃ a ∈ l, onPath a n := by
  unfold pathNodes onPath
  simp

theorem card_kernAddrs : (pathNodes kernAddrs).toFinset.card = 71 := by decide +kernel

variable (hlay : lay.Ok) (hstop : lay.etext < PHYSTOP)
include hlay hstop

/-- `kvminit_kern` needs 71 page-table pages below the root. -/
theorem ncard_touched_kern : {n | touched (kernRanges lay) n}.ncard = 71 := by
  have heq : {n | touched (kernRanges lay) n} = ((pathNodes kernAddrs).toFinset : Set Node) := by
    ext n
    rw [Set.mem_ofPred_eq, touched_kern hlay hstop, Finset.mem_coe, mem_toFinset, mem_pathNodes]
  rw [heq, Set.ncard_coe_finset, card_kernAddrs]

theorem kernRanges_apart : (kernRanges lay).Pairwise Range.Apart := by
  have h1 := hlay.etext_aligned
  have h2 := hlay.kernbase_lt
  simp only [kernRanges, pairwise_cons, mem_cons, not_mem_nil, or_false, Range.Apart,
    Range.first, Range.more, forall_eq_or_imp, forall_eq, List.Pairwise.nil, false_imp_iff,
    implies_true, and_true, PGSIZE_eq] at *
  obtain ⟨hK, hP, hU, hV, hL, hT, -⟩ := kernAddr_eq
  omega

theorem kernRanges_ok {T : Type} {sel : T → Nat → Bool} {t : T}
    (hsel : ∀ v, sel t v = true → v = kstackPage) : ∀ x ∈ kernRanges lay, x.Ok sel t := by
  have hpages := kernRanges_has hlay hstop
  intro x hx
  have hshared : ∀ v, x.has v → sel t v = false := by
    intro v hv
    refine Bool.eq_false_iff.mpr fun hc => ?_
    have hv' := (hpages v).mp ⟨x, hx, hv⟩
    have hst : kstackPage = 67108861 := rfl
    have := hsel v hc
    omega
  have h2 := hlay.kernbase_lt
  have h3 := hlay.trampoline_lt
  simp only [kernRanges, mem_cons, not_mem_nil, or_false] at hx
  obtain ⟨hK, hP, hU, hV, hL, hT, hM⟩ := kernAddr_eq
  have hG := PGSIZE_eq
  rcases hx with rfl | rfl | rfl | rfl | rfl | rfl
  -- the six ranges differ in their bounds only
  all_goals
    refine ⟨by dsimp only; decide, by dsimp only; decide, ?_, ?_, ?_, hshared⟩
    all_goals
      dsimp only
      omega

end Kern

/-! ## Building the tables -/

/-- The entry of page `v` of a range. -/
def Range.entry (x : Range) (v : Nat) : Nat :=
  leafEntry ((x.pa + (v - x.first) * PGSIZE) % 2 ^ 64) x.perm

section MapAll

variable {M : Nat → Option Nat} {x : Range} {xs : List Range} {v : Nat}

theorem mapAll_out (h : ∀ x ∈ xs, ¬ x.has v) : mapAll M xs v = M v := by
  induction xs generalizing M with
  | nil => rfl
  | cons x xs ih =>
    have hx : ¬ (x.first ≤ v ∧ v ≤ x.first + x.more) := h x mem_cons_self
    rw [mapAll, ih fun y hy => h y (mem_cons_of_mem _ hy), mapped, if_neg (by omega)]

theorem mapAll_in (hapart : xs.Pairwise Range.Apart) (hx : x ∈ xs) (hv : x.has v) :
    mapAll M xs v = some (x.entry v) := by
  induction xs generalizing M with
  | nil => cases hx
  | cons y xs ih =>
    obtain ⟨hhead, htail⟩ := pairwise_cons.mp hapart
    rw [mapAll]
    rcases mem_cons.mp hx with rfl | hx
    · have hin : x.first ≤ v ∧ v ≤ x.first + x.more := hv
      rw [mapAll_out, mapped, if_pos (by omega)]
      · rfl
      · intro z hz hc
        have hin' : z.first ≤ v ∧ v ≤ z.first + z.more := hc
        have happ := hhead z hz
        unfold Range.Apart at happ
        omega
    · exact ih htail hx

end MapAll

/-- The map of the kernel, without the stack. -/
def kernMap (lay : Layout) : Nat → Option Nat := mapAll (fun _ => none) (kernRanges lay)

/-- The map of a process without user memory. -/
def userMap (lay : Layout) (trapframe : Nat) : Nat → Option Nat :=
  mapped (mapped (fun _ => none) (TRAMPOLINE / PGSIZE) 1 lay.trampoline (PTE_R ||| PTE_X))
    (TRAPFRAME / PGSIZE) 1 trapframe (PTE_R ||| PTE_W)

section Build

variable {T Z : Type} [DecidableEq T] {lay : Layout} {sel : T → Nat → Bool} {R : Handles T Z}
  {F : List Nat} {s s' : Phys} {t : T} {r trapframe : Nat} {M : Nat → Option Nat}
  {E : Stop → Phys → Prop} {m : Nat → UInt8}

omit [DecidableEq T] in
/-- If there is a free page, the kernel ends before the end of memory. -/
theorem etext_lt (hlay : lay.Ok) (h : Forest lay sel R F s) (hpos : 0 < s.freelist.length) :
    lay.etext < PHYSTOP := by
  obtain ⟨pg, hpg⟩ := exists_mem_of_length_pos hpos
  have hpage := h.heap.page pg hpg
  have := hlay.etext_le
  unfold isPage at hpage
  omega

/-- The page-table pages of a new tree. -/
theorem lacking_empty {N : Node → Prop} (hm : ∀ i : Fin 512, pte m r i = 0)
    (hN : ¬ N .root) : lacking m r N = {n | N n}.ncard ∧ tables m r = {.root} := by
  have htab : tables m r = {.root} := by
    ext n
    rw [mem_tables, node_of_empty hm, Set.mem_singleton_iff]
    simp
  refine ⟨?_, htab⟩
  unfold lacking
  rw [htab, Set.sdiff_singleton_eq_self]
  exact hN

theorem not_touched_root (xs : List Range) : ¬ touched xs .root := by
  rintro ⟨x, -, v, -, -, hv⟩
  rcases hv with hv | hv <;> cases hv

/-- `kvminit_kern` with enough memory. -/
theorem wp_kvminit_kern (hlay : lay.Ok) (h : Forest lay sel R F s) (ht : R.root t = none)
    (hsel : ∀ v, sel t v = true → v = kstackPage) (hlen : 72 ≤ s.freelist.length) :
    wp (kvminit_kern lay) (fun r s' => r ≠ 0 ∧ Planted lay sel R F t r (kernMap lay) s s' ∧
      s'.freelist.length + 72 = s.freelist.length ∧
      tables s'.mem r = {.root} ∪ {n | touched (kernRanges lay) n}) E s := by
  have hstop := etext_lt hlay h (by omega)
  rw [kvminit_kern_eq]
  refine wp_kalloc_fresh hlay h (fun hnil => ?_) fun pg s1 hfresh => ?_
  · rw [hnil] at hlen
    cases hlen
  rw [wp_bind, wp_memset, wp_bind]
  have hzero : ∀ i : Fin 512, pte (Bytes.fill s1.mem pg PGSIZE 0) pg i = 0 :=
    fun i => pte_zero i.isLt
  have hfill := hfresh.fill 0
  have hplant := Planted.of_empty (hfill.forest.plant ht hzero) hfill.keeps hzero
  obtain ⟨hlack, htab⟩ := lacking_empty hzero (not_touched_root (kernRanges lay))
  rw [ncard_touched_kern hlay hstop] at hlack
  have hone := hfresh.length
  refine (wp_mapRanges hlay (kernRanges_ok hlay hstop hsel) (kernRanges_apart hlay hstop) hplant ht
    (fun _ _ _ _ => rfl) ?_).post ?_
  · rw [hlack]
    show 71 ≤ s1.freelist.length
    omega
  rintro - s' ⟨hp, hlen', htab'⟩
  rw [hlack] at hlen'
  rw [htab] at htab'
  refine ⟨hfresh.page.pos hlay, hp, ?_, htab'⟩
  have : s'.freelist.length + 71 = s1.freelist.length := hlen'
  omega

/-- `kvminit_kern` with less: it stops, or leaves an empty free list. -/
theorem wp_kvminit_kern_short (hlay : lay.Ok) (h : Forest lay sel R F s) (ht : R.root t = none)
    (hsel : ∀ v, sel t v = true → v = kstackPage) (hlen : s.freelist.length < 72) :
    wp (kvminit_kern lay) (fun r s' => r ≠ 0 ∧ s'.freelist = []) (fun _ _ => True) s := by
  rw [kvminit_kern_eq]
  refine wp_kalloc_fresh hlay h (fun _ => trivial) fun pg s1 hfresh => ?_
  have hone := hfresh.length
  have hstop := etext_lt hlay h (by omega)
  rw [wp_bind, wp_memset, wp_bind]
  have hzero : ∀ i : Fin 512, pte (Bytes.fill s1.mem pg PGSIZE 0) pg i = 0 :=
    fun i => pte_zero i.isLt
  obtain ⟨hlack, -⟩ := lacking_empty hzero (not_touched_root (kernRanges lay))
  rw [ncard_touched_kern hlay hstop] at hlack
  refine (wp_mapRanges_short hlay (kernRanges_ok hlay hstop hsel)
    ((hfresh.fill 0).forest.plant ht hzero) setRoot_self ?_).post ?_
  · rw [hlack]
    show s1.freelist.length < 71
    omega
  · exact fun _ _ hnil => ⟨hfresh.page.pos hlay, hnil⟩

/-- The page-table page of the stack is there already. -/
theorem missing_kstack (hlay : lay.Ok) (hstop : lay.etext < PHYSTOP)
    (htab : tables s.mem r = {.root} ∪ {n | touched (kernRanges lay) n}) :
    missing s.mem r (kstackPage * PGSIZE) = 0 := by
  have hmem : .leaf (ix 2 (kstackPage * PGSIZE)) (ix 1 (kstackPage * PGSIZE)) ∈ tables s.mem r := by
    rw [htab]
    refine .inr ((touched_kern hlay hstop _).mpr ⟨TRAMPOLINE, by simp [kernAddrs], ?_⟩)
    exact (onPath_congr (a := kstackPage * PGSIZE) (b := TRAMPOLINE) (by decide) _).mp (.inr rfl)
  unfold missing
  exact if_pos hmem

/-- One page that its entry does not own. -/
theorem wp_map_shared {v f pa : Nat} (hlay : lay.Ok) (h : Forest lay sel R F s)
    (ht : R.root t = some r) (hf : f < 1024) (hrwx : rwx f ≠ 0) (hv : v < NPAGES)
    (hpa : pa < 2 ^ 64) (hsel : sel t v = false) (hnone : ent R s.mem t v = none) :
    wp (mappages r (v * PGSIZE) PGSIZE pa f) (fun res s' => res = 0 ∧
      s'.freelist.length + missing s.mem r (v * PGSIZE) = s.freelist.length ∧
      .leaf (ix 2 (v * PGSIZE)) (ix 1 (v * PGSIZE)) ∈ tables s'.mem r ∧
      Edit lay sel R F t (fun _ => False) s (mapped (ent R s.mem t) v 1 pa f) s' ∨
      res = -1 ∧ s.freelist.length < missing s.mem r (v * PGSIZE) ∧
      Edit lay sel R F t (fun _ => False) s (ent R s.mem t) s') E s := by
  have hlast : (v * PGSIZE + PGSIZE - 1) / PGSIZE = v := by rw [PGSIZE_eq]; omega
  have hfirst : v * PGSIZE / PGSIZE = v := page_div v
  have hone : ∀ w, v * PGSIZE / PGSIZE ≤ w → w ≤ (v * PGSIZE + PGSIZE - 1) / PGSIZE → w = v := by
    intro w h1 h2
    rw [hlast] at h2
    rw [hfirst] at h1
    omega
  have hva : v * PGSIZE + PGSIZE ≤ MAXVA := by
    rw [NPAGES_eq] at hv
    unfold MAXVA
    rw [PGSIZE_eq]
    omega
  refine (wp_mappages_shared (V := fun _ => False) hlay h ht hf hrwx (by decide) hva hpa ?_
    ?_).post ?_
  · intro w h1 h2
    rwa [hone w h1 h2]
  · intro w h1 h2
    rw [hone w h1 h2]
    exact .inl hnone
  rintro res s' ⟨c, hm, he⟩
  rw [hlast, hfirst, Nat.sub_self] at hm
  rw [hfirst] at he
  have hcount := hm.count (h.tree ht)
  rw [lacking_passed_zero] at hcount
  rcases hm.result with ⟨rfl, rfl, hthere⟩ | ⟨rfl, hc, -⟩
  · obtain ⟨-, hlen, -⟩ := hcount.resolve_right fun hc => absurd hc.1 (by decide)
    exact .inl ⟨rfl, hlen, mem_tables.mpr (hthere _ (passed_self (.inr rfl))), he⟩
  · obtain ⟨-, hlen, -⟩ := hcount.resolve_left fun hc => absurd hc.1 (by decide)
    obtain rfl : c = 0 := by omega
    rw [mapped_zero] at he
    exact .inr ⟨rfl, hlen, he⟩

/-- Nothing is there of a new tree but its root. -/
theorem missing_empty (hm : ∀ i : Fin 512, pte m r i = 0) (va : Nat) : missing m r va = 2 := by
  unfold missing
  rw [node_of_empty hm, node_of_empty hm, if_neg (by simp), if_neg (by simp)]

theorem wp_proc_pagetable (hlay : lay.Ok) (h : Forest lay sel R F s) (ht : R.root t = none)
    (hsel : ∀ v, TRAPFRAME / PGSIZE ≤ v → sel t v = false) (htf : trapframe < 2 ^ 64) :
    wp (proc_pagetable lay trapframe) (fun r s' =>
      r ≠ 0 ∧ s'.freelist.length + 3 = s.freelist.length ∧
        Planted lay sel R F t r (userMap lay trapframe) s s' ∨
      r = 0 ∧ s.freelist.length < 3 ∧ Forest lay sel R F s' ∧ Keeps sel R F Everyone s s') E s := by
  have htramp : lay.trampoline < 2 ^ 64 := by
    have h1 := hlay.trampoline_lt
    have h2 := hlay.etext_le
    have h3 := hlay.ends_le
    have h4 := kernAddr_eq.2.1
    omega
  rw [proc_pagetable]
  refine (wp_uvmcreate hlay h ht).seq ?_
  rintro r s1 (⟨rfl, rfl, hnil⟩ | ⟨hr, hlen, hf, hk, hzero⟩)
  · rw [if_pos rfl]
    refine .inr ⟨rfl, ?_, h, .refl _⟩
    rw [hnil, length_nil]
    omega
  rw [if_neg hr, wp_bind]
  have hplant := Planted.of_empty hf hk hzero
  -- the trampoline
  have hmap1 := wp_map_shared (E := E) (v := TRAMPOLINE / PGSIZE) (f := PTE_R ||| PTE_X) hlay hf
    setRoot_self (by decide) (by decide) (by decide) htramp (hsel _ (by decide))
    (hplant.entries _ (by decide))
  rw [missing_empty hzero] at hmap1
  refine hmap1.post ?_
  rintro res s2 (⟨rfl, hlen2, hleaf, he2⟩ | ⟨rfl, hlen2, he2⟩)
  case inr =>
    -- only page-table pages to give back
    rw [if_pos (by decide), wp_bind]
    show wp (freewalk lay 3 r) _ _ s2
    refine ((hplant.edit ht he2).wp_freewalk ht fun v hv => hplant.entries v hv).post ?_
    rintro - s3 ⟨hf3, hk3⟩
    exact .inr ⟨rfl, by omega, hf3, hk3⟩
  rw [if_neg (by decide), wp_bind]
  have hplant2 : Planted lay sel R F t r
      (mapped (fun _ => none) (TRAMPOLINE / PGSIZE) 1 lay.trampoline (PTE_R ||| PTE_X)) s s2 :=
    hplant.map ht he2
  -- the trapframe, with the same page-table page
  have hmiss : missing s2.mem r (TRAPFRAME / PGSIZE * PGSIZE) = 0 := by
    refine if_pos ?_
    have h2 : ix 2 (TRAPFRAME / PGSIZE * PGSIZE) = ix 2 (TRAMPOLINE / PGSIZE * PGSIZE) := by decide
    have h1 : ix 1 (TRAPFRAME / PGSIZE * PGSIZE) = ix 1 (TRAMPOLINE / PGSIZE * PGSIZE) := by decide
    rw [h1, h2]
    exact hleaf
  have hmap2 := wp_map_shared (E := E) (v := TRAPFRAME / PGSIZE) (f := PTE_R ||| PTE_W) hlay
    hplant2.forest setRoot_self (by decide) (by decide) (by decide) htf (hsel _ le_rfl)
    ((hplant2.entries _ (by decide)).trans (if_neg (by decide)))
  rw [hmiss] at hmap2
  refine hmap2.post ?_
  rintro res s3 (⟨rfl, hlen3, -, he3⟩ | ⟨-, hc, -⟩)
  · rw [if_neg (by decide)]
    exact .inl ⟨hr, by omega, hplant2.map ht he3⟩
  · exact absurd hc (Nat.not_lt_zero _)

/-! ## Taking them away -/

/-- `uvmunmap` of pages that their entries do not own. -/
theorem wp_unmap_shared {α : Type} {k : VmM α} {Q : α → Phys → Prop} {va n : Nat}
    (he : Edit lay sel R F t (fun _ => False) s M s') (ht : R.root t = some r)
      (hva : va % PGSIZE = 0)
    (hn : va / PGSIZE + n ≤ NPAGES) (hsel : ∀ w, va / PGSIZE ≤ w → w < va / PGSIZE + n →
      sel t w = false)
    (hk : ∀ s'', Edit lay sel R F t (fun _ => False) s (unmapped M (va / PGSIZE) n) s'' →
      wp k Q E s'') :
    wp (do uvmunmap lay r va n false; k) Q E s' := by
  have hround : va / PGSIZE * PGSIZE = va := Nat.div_mul_cancel (Nat.dvd_of_mod_eq_zero hva)
  have hunmap := wp_uvmunmap_shared (V := fun _ => False) (E := E) he.forest ht hn hsel
  rw [hround] at hunmap
  refine hunmap.seq ?_
  rintro - s'' he'
  refine hk s'' ((he.trans he').congr fun v hv => ?_)
  unfold unmapped
  rw [he.entries v hv]

/-- `proc_freepagetable` of a tree whose leaves are below `sz`, or the trampoline
    and the trapframe. -/
theorem wp_proc_freepagetable (h : Forest lay sel R F s) (ht : R.root t = some r)
    (hlow : Low sel R s.mem t) {sz : Nat} (hsz : PGROUNDUP sz / PGSIZE ≤ TRAPFRAME / PGSIZE)
    (hsel : ∀ v, sel t v = true ↔ v < TRAPFRAME / PGSIZE)
    (hnone : ∀ v, PGROUNDUP sz / PGSIZE ≤ v → v < TRAPFRAME / PGSIZE → ent R s.mem t v = none) :
    wp (proc_freepagetable lay r sz) (fun _ s' =>
      Forest lay sel (R.setRoot t none) F s' ∧ Keeps sel R F (Outside t fun _ => True) s s')
      E s := by
  have hframe : TRAPFRAME / PGSIZE = 67108862 := rfl
  have htramp : TRAMPOLINE / PGSIZE = 67108863 := rfl
  have hpages : NPAGES = 67108864 := rfl
  have hshared : ∀ v, TRAPFRAME / PGSIZE ≤ v → sel t v = false := fun v hv =>
    Bool.eq_false_iff.mpr fun hc => absurd ((hsel v).mp hc) (by omega)
  rw [proc_freepagetable]
  refine wp_unmap_shared (.refl h) ht (by decide) (by omega) (fun w h1 _ => hshared w (by omega))
    fun s1 he1 => ?_
  refine wp_unmap_shared he1 ht (by decide) (by omega) (fun w h1 _ => hshared w (by omega))
    fun s2 he2 => ?_
  refine (wp_uvmfree he2.forest ht (he2.low hlow) (by omega) (fun v hv => (hsel v).mpr (by omega))
    fun v h1 h2 => ?_).post ?_
  · rw [he2.entries v h2]
    unfold unmapped
    by_cases hv : v < TRAPFRAME / PGSIZE
    · rw [if_neg (by omega), if_neg (by omega), hnone v h1 hv]
    · by_cases hv' : v = TRAPFRAME / PGSIZE
      · rw [if_pos (by omega)]
      · rw [if_neg (by omega), if_pos (by omega)]
  · rintro - s' ⟨hf, hk⟩
    exact ⟨hf, (he2.weaken fun _ _ => trivial).keeps.trans hk⟩

/-- The calls of `uvmunmap` in `proc_freekernpgtbl`: address and number of pages. -/
def kernUnmaps (lay : Layout) : List (Nat × Nat) :=
  [(UART0, 1), (VIRTIO0, 1), (PLIC, 0x400000 / PGSIZE), (KERNBASE, (lay.etext - KERNBASE) / PGSIZE),
    (lay.etext, (PHYSTOP - lay.etext) / PGSIZE), (TRAMPOLINE, 1)]

/-- `uvmunmap` for each, without freeing. -/
def unmapRanges (lay : Layout) (root : Nat) : List (Nat × Nat) → VmM Unit
  | [] => pure ()
  | x :: xs => do
    uvmunmap lay root x.1 x.2 false
    unmapRanges lay root xs

theorem proc_freekernpgtbl_eq (root kstack : Nat) : proc_freekernpgtbl lay root kstack = (do
    unmapRanges lay root (kernUnmaps lay)
    uvmfreepage lay root kstack 1) := by
  unfold proc_freekernpgtbl kernUnmaps
  simp only [unmapRanges, bind_assoc, pure_bind]

/-- Page `v` is in one of the ranges. -/
def unmaps (xs : List (Nat × Nat)) (v : Nat) : Prop :=
  ∃ x ∈ xs, x.1 / PGSIZE ≤ v ∧ v < x.1 / PGSIZE + x.2

theorem wp_unmapRanges {xs : List (Nat × Nat)}
    (hxs : ∀ x ∈ xs, x.1 % PGSIZE = 0 ∧ x.1 / PGSIZE + x.2 ≤ NPAGES)
    (hin : ∀ v, unmaps xs v → sel t v = false) (he : Edit lay sel R F t (fun _ => False) s M s')
    (ht : R.root t = some r) :
    wp (unmapRanges lay r xs) (fun _ s'' => ∃ M', Edit lay sel R F t (fun _ => False) s M' s'' ∧
      (∀ v, unmaps xs v → M' v = none) ∧ ∀ v, ¬ unmaps xs v → M' v = M v) E s' := by
  induction xs generalizing s' M with
  | nil => exact ⟨M, he, fun v ⟨_, hx, _⟩ => absurd hx not_mem_nil, fun _ _ => rfl⟩
  | cons x xs ih =>
    have hcons : ∀ v, unmaps (x :: xs) v ↔ (x.1 / PGSIZE ≤ v ∧ v < x.1 / PGSIZE + x.2) ∨
        unmaps xs v := by
      intro v
      simp only [unmaps, mem_cons, exists_eq_or_imp]
    obtain ⟨hal, hlt⟩ := hxs x mem_cons_self
    rw [unmapRanges]
    refine wp_unmap_shared he ht hal hlt (fun v h1 h2 => hin v ((hcons v).mpr (.inl ⟨h1, h2⟩)))
      fun s1 he1 => ?_
    refine (ih (fun y hy => hxs y (mem_cons_of_mem _ hy))
      (fun v hv => hin v ((hcons v).mpr (.inr hv))) he1).post ?_
    rintro - s'' ⟨M', he', hgone, hrest⟩
    refine ⟨M', he', fun v hv => ?_, fun v hv => ?_⟩
    · by_cases hv' : unmaps xs v
      · exact hgone v hv'
      · rw [hrest v hv']
        exact if_pos (((hcons v).mp hv).resolve_right hv')
    · rw [hcons, not_or] at hv
      rw [hrest v hv.2]
      exact if_neg hv.1

/-- `proc_freekernpgtbl` takes away what `kvminit_kern` maps. -/
theorem unmaps_kern (hlay : lay.Ok) (hstop : lay.etext < PHYSTOP) (v : Nat) :
    unmaps (kernUnmaps lay) v ↔ ∃ x ∈ kernRanges lay, x.has v := by
  rw [kernRanges_has hlay hstop]
  have h1 := hlay.etext_aligned
  have h2 := hlay.kernbase_lt
  simp only [unmaps, kernUnmaps, mem_cons, not_mem_nil, or_false, exists_eq_or_imp, exists_eq_left,
    PGSIZE_eq] at *
  obtain ⟨hK, hP, hU, hV, hL, hT, -⟩ := kernAddr_eq
  omega

/-- `proc_freekernpgtbl` of a tree whose leaves are those of `kvminit_kern` and
    the kernel stack. -/
theorem wp_proc_freekernpgtbl (hlay : lay.Ok) (hstop : lay.etext < PHYSTOP)
    (h : Forest lay sel R F s) (ht : R.root t = some r) (hlow : Low sel R s.mem t)
    (hsel : ∀ v, sel t v = true ↔ v = kstackPage)
    (hnone : ∀ v, v < NPAGES → v ≠ kstackPage → (∀ x ∈ kernRanges lay, ¬ x.has v) →
      ent R s.mem t v = none) :
    wp (proc_freekernpgtbl lay r (kstackPage * PGSIZE)) (fun _ s' =>
      Forest lay sel (R.setRoot t none) F s' ∧ Keeps sel R F (Outside t fun _ => True) s s')
      E s := by
  have hst : kstackPage = 67108861 := rfl
  have hpages : NPAGES = 67108864 := rfl
  have hxs : ∀ x ∈ kernUnmaps lay, x.1 % PGSIZE = 0 ∧ x.1 / PGSIZE + x.2 ≤ NPAGES := by
    have h1 := hlay.etext_aligned
    simp only [kernUnmaps, mem_cons, not_mem_nil, or_false, forall_eq_or_imp, forall_eq, PGSIZE_eq]
      at *
    obtain ⟨hK, hP, hU, hV, hL, hT, -⟩ := kernAddr_eq
    omega
  have hin : ∀ v, unmaps (kernUnmaps lay) v → sel t v = false := by
    intro v hv
    rw [unmaps_kern hlay hstop, kernRanges_has hlay hstop] at hv
    refine Bool.eq_false_iff.mpr fun hc => ?_
    have := (hsel v).mp hc
    omega
  rw [proc_freekernpgtbl_eq]
  refine (wp_unmapRanges hxs hin (.refl h) ht).seq ?_
  rintro - s1 ⟨M, he, hgone, hrest⟩
  refine (wp_uvmfreepage he.forest ht (he.low hlow) (by omega)
    (fun w h1 h2 => (hsel w).mpr (by omega)) fun w hw hne => ?_).post ?_
  · rw [he.entries w hw]
    by_cases hv : unmaps (kernUnmaps lay) w
    · exact hgone w hv
    · rw [hrest w hv]
      rw [unmaps_kern hlay hstop] at hv
      exact hnone w hw (by omega) fun x hx hc => hv ⟨x, hx, hc⟩
  · rintro - s' ⟨hf, hk⟩
    exact ⟨hf, (he.weaken fun _ _ => trivial).keeps.trans hk⟩

end Build

end NoviceKernel.VM
